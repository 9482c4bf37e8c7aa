import CartFlow.Text.Split

/-!
# Names of files

A path is a list of names separated by slashes. A report stands next to its image,
under the same name with another extension.
-/
namespace CartFlow.Files

open Text

def components (path : String) : List String :=
  split "/" path

def ofComponents (names : List String) : String :=
  "/".intercalate names

/-- Adds a name to a path without detours, written backwards; two dots go back where that is
possible. -/
def step (back : List String) (name : String) : List String :=
  if name == "" || name == "." then back
  else if name == ".." then
    match back with
    | [] => [".."]
    | last :: rest => if last == ".." then ".." :: back else rest
  else name :: back

def join (directory name : String) : String :=
  let back := (components directory ++ components name).foldl step []
  if directory.startsWith "/" then "/" ++ ofComponents (back.reverse.dropWhile (· == ".."))
  else if back.isEmpty then "."
  else ofComponents back.reverse

/-- A name without its extension: what stands in front of the last point of its last part. -/
def stem (cs : List Char) : List Char :=
  let back := cs.reverse
  match back.dropWhile fun c => c != '.' && c != '/' with
  | '.' :: rest => rest.reverse
  | _ => cs

def extension (format : String) : String :=
  if format == "json" then ".json"
  else if format == "dot" then ".dot"
  else ".txt"

def outputName (input extension : String) : String :=
  String.ofList (stem input.toList) ++ extension

section Names

variable {front name : List Char}

theorem mem_of_mem_stem {c : Char} {cs : List Char} (h : c ∈ stem cs) : c ∈ cs := by
  unfold stem at h
  dsimp only at h
  split at h
  · next rest hrest =>
    have hmem : c ∈ cs.reverse.dropWhile fun c => c != '.' && c != '/' := by
      rw [hrest]
      exact List.mem_cons_of_mem _ (List.mem_reverse.1 h)
    exact List.mem_reverse.1 ((List.dropWhile_sublist _).subset hmem)
  · exact h

/-- Only the last name on a path loses its extension. -/
theorem stem_append (hname : '/' ∉ name) :
    stem (front ++ '/' :: name) = front ++ '/' :: stem name := by
  have hback : (front ++ '/' :: name).reverse = name.reverse ++ '/' :: front.reverse := by simp
  unfold stem
  dsimp only
  rw [hback, List.dropWhile_append]
  cases hdrop : name.reverse.dropWhile fun c => c != '.' && c != '/' with
  | nil => rfl
  | cons c rest =>
    have hstop : (c != '.' && c != '/') = false := by
      have hne : name.reverse.dropWhile (fun c => c != '.' && c != '/') ≠ [] := by simp [hdrop]
      simpa only [hdrop, List.head_cons] using List.head_dropWhile_not _ hne
    have hmem : c ∈ name.reverse :=
      (List.dropWhile_sublist _).subset (hdrop ▸ List.mem_cons_self)
    have hpoint : c = '.' := by
      have hslash : c ≠ '/' := fun heq => hname (List.mem_reverse.1 (heq ▸ hmem))
      simpa [hslash] using hstop
    subst hpoint
    simp

theorem components_append (front rest : String) :
    components (front ++ "/" ++ rest) = components front ++ components rest := by
  have hslash : "/".toList = ['/'] := rfl
  simp only [components, split, String.toList_append, hslash, List.append_assoc, List.cons_append,
    List.nil_append, splitFrom_single, List.map_append]

theorem components_of_not_mem {name : String} (hname : '/' ∉ name.toList) :
    components name = [name] := by
  have hparts : splitFrom ['/'] 0 [] (name.toList ++ []) = _ := splitFrom_append hname [] []
  rw [List.append_nil] at hparts
  simp [components, split, hparts, splitFrom]

/-- A path is a name, or has one behind its last slash. -/
theorem exists_name (path : List Char) :
    '/' ∉ path ∨ ∃ front name, path = front ++ '/' :: name ∧ '/' ∉ name := by
  by_cases hslash : '/' ∈ path
  · obtain ⟨back, rest, heq, hback⟩ := List.eq_append_cons_of_mem (List.mem_reverse.2 hslash)
    refine .inr ⟨rest.reverse, back.reverse, ?_, by simpa using hback⟩
    rw [← List.reverse_reverse path, heq]
    simp
  · exact .inl hslash

theorem not_mem_extension (format : String) : '/' ∉ (extension format).toList := by
  unfold extension
  split
  · decide
  · split <;> decide

theorem outputName_ne_empty (input format : String) : outputName input (extension format) ≠ "" := by
  have hextension : extension format ≠ "" := by
    unfold extension
    split
    · decide
    · split <;> decide
  simp [outputName, hextension]

/-- The file of a report has the names of the image on its path, but for the last one. -/
theorem components_outputName {extension : String} (hextension : '/' ∉ extension.toList)
    (input : String) :
    ∃ front name, components input = front ++ [name] ∧
      components (outputName input extension) = front ++ [outputName name extension] := by
  have houtput : ∀ name : String, '/' ∉ name.toList →
      '/' ∉ (outputName name extension).toList := by
    intro name hname hmem
    rw [outputName, String.toList_append, String.toList_ofList, List.mem_append] at hmem
    exact hmem.elim (fun hstem => hname (mem_of_mem_stem hstem)) hextension
  rcases exists_name input.toList with hname | ⟨front, name, hinput, hname⟩
  · exact ⟨[], input, components_of_not_mem hname, components_of_not_mem (houtput input hname)⟩
  · have hname' : '/' ∉ (String.ofList name).toList := by simpa using hname
    have heq : input = String.ofList front ++ "/" ++ String.ofList name := by
      apply String.toList_injective
      simp [hinput]
    have hreport : outputName input extension =
        String.ofList front ++ "/" ++ outputName (String.ofList name) extension := by
      apply String.toList_injective
      simp [outputName, hinput, stem_append hname]
    refine ⟨components (String.ofList front), String.ofList name, ?_, ?_⟩
    · rw [heq, components_append, components_of_not_mem hname']
    · rw [hreport, components_append, components_of_not_mem (houtput _ hname')]

end Names

end CartFlow.Files
