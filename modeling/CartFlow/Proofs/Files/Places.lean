import CartFlow.Files.FileSystem
import Mathlib.Data.List.Infix

/-!
# Where files are put

A path that leads to a file, or to a name that is free in its directory, has a place, and what is
read and written through the path is what stands at that place. New contents at the place of a path
leave every other path where it led: each directory on the way to the place is there already, so
none comes into being, and the last name of the place is the name of no directory. The path of a
report leads next to what it reports on, because cutting the extension leaves the slashes alone.
-/
namespace CartFlow.FileSystem

open Files

/-- The place of a file, or of one that could be made. -/
def Place.target? : Place → Option (List String)
  | .file place _ false | .vacant place false => some place
  | _ => none

/-- The place that a path leads to, if a file stands there or could be made there. -/
def place? (fs : FileSystem) (path : String) : Option (List String) :=
  (fs.locate path).target?

/-- The place in the same directory whose name has another extension. -/
def beside (extension : String) (place : List String) : List String :=
  place.dropLast ++ (place.getLast?.map (outputName · extension)).toList

section Directories

variable {fs : FileSystem} {place directory : List String} {name : String} {bytes : Array UInt8}

theorem isDirectory_iff :
    fs.isDirectory directory = true ↔
      ∃ f ∈ fs.files, directory <+: f.1 ∧ directory.length < f.1.length := by
  simp [isDirectory]

theorem isDirectory_put :
    (fs.put place bytes).isDirectory directory = true ↔
      (directory <+: place ∧ directory.length < place.length) ∨
        fs.isDirectory directory = true := by
  simp only [isDirectory_iff, put, List.exists_mem_cons_iff, List.mem_filter, bne_iff_ne]
  constructor
  · rintro (hplace | ⟨f, ⟨hf, -⟩, hbelow⟩)
    · exact .inl hplace
    · exact .inr ⟨f, hf, hbelow⟩
  · rintro (hplace | ⟨f, hf, hbelow⟩)
    · exact .inl hplace
    · -- The file that stood at the place is gone, but the new one has the same directories.
      by_cases heq : f.1 = place
      · exact .inl (heq ▸ hbelow)
      · exact .inr ⟨f, ⟨hf, heq⟩, hbelow⟩

/-- Every named directory on a place is there. -/
def Stands (fs : FileSystem) (place : List String) : Prop :=
  ∀ above name, name ≠ ".." → above ++ [name] <+: place → fs.isDirectory (above ++ [name]) = true

theorem stands_nil : fs.Stands [] := by
  intro above name _ hway
  simp at hway

theorem Stands.concat (h : fs.Stands directory)
    (hlast : name ≠ ".." → fs.isDirectory (directory ++ [name]) = true) :
    fs.Stands (directory ++ [name]) := by
  intro above last hlast' hway
  rcases List.prefix_concat_iff.1 hway with heq | hway
  · obtain ⟨rfl, rfl⟩ := List.append_singleton_inj.1 heq
    exact hlast hlast'
  · exact h above last hlast' hway

theorem Stands.above (h : fs.Stands directory) : fs.Stands (FileSystem.above directory) := by
  unfold FileSystem.above
  split
  · exact h.concat fun hname => absurd rfl hname
  · exact fun above name hname hway =>
      h above name hname (hway.trans (List.dropLast_prefix directory))

/-- A directory that is no file, so that names lead on through it. -/
def Passable (fs : FileSystem) (place : List String) : Prop :=
  fs.contents? place = none ∧ fs.isDirectory place = true

instance : Decidable (fs.Passable place) :=
  inferInstanceAs (Decidable (_ ∧ _))

/-- A place where a file stands or can be made: every directory on the way is there, and the place
is not one itself. -/
structure Writable (fs : FileSystem) (place : List String) : Prop where
  directories : fs.Stands place.dropLast
  not_passable : ¬fs.Passable place

theorem Writable.isDirectory_put (h : fs.Writable place) (hname : name ≠ "..") :
    (fs.put place bytes).isDirectory (directory ++ [name]) =
      fs.isDirectory (directory ++ [name]) := by
  rw [Bool.eq_iff_iff, FileSystem.isDirectory_put]
  refine ⟨?_, .inr⟩
  rintro (⟨hway, hlength⟩ | hdirectory)
  · refine h.directories directory name hname ?_
    rw [List.prefix_iff_eq_take] at hway ⊢
    rw [List.dropLast_eq_take, List.take_take, Nat.min_eq_left (by omega)]
    exact hway
  · exact hdirectory

theorem Writable.passable_put (h : fs.Writable place) (hname : name ≠ "..") :
    (fs.put place bytes).Passable (directory ++ [name]) ↔ fs.Passable (directory ++ [name]) := by
  by_cases heq : directory ++ [name] = place
  · subst heq
    exact iff_of_false (fun hpass => by simpa using hpass.1) h.not_passable
  · rw [Passable, Passable, contents?_put_of_ne fs bytes heq, h.isDirectory_put hname]

end Directories

structure IsName (name : String) : Prop where
  ne_empty : name ≠ ""
  ne_here : name ≠ "."
  ne_above : name ≠ ".."
  short : name.utf8ByteSize ≤ nameLimit

/-- Some names lead from a directory to a place. All of them but the last are followed through
directories; nothing may stand behind the last one, not even a slash. -/
inductive Leads (fs : FileSystem) : List String → List String → List String → Prop
  | stay {here rest place : List String} {name : String} :
      name = "" ∨ name = "." → Leads fs here rest place → Leads fs here (name :: rest) place
  | up {here rest place : List String} :
      Leads fs (above here) rest place → Leads fs here (".." :: rest) place
  | enter {here rest place : List String} {name : String} :
      IsName name → fs.Passable (here ++ [name]) → Leads fs (here ++ [name]) rest place →
      Leads fs here (name :: rest) place
  | arrive {here : List String} {name : String} :
      IsName name → ¬fs.Passable (here ++ [name]) → Leads fs here [name] (here ++ [name])

section Walks

variable {fs : FileSystem} {start : Option (List String)} {here rest names place : List String}
  {name : String} {bytes : Array UInt8}

theorem walk_stay (h : name = "" ∨ name = ".") :
    fs.walk start (name :: rest) = fs.walk start rest := by
  rw [walk, if_pos (by simpa using h)]

theorem walk_up : fs.walk start (".." :: rest) = fs.walk (start.map above) rest := by
  rw [walk, if_neg (by decide), if_pos (by decide)]

/-- A name stays in its directory, leads to the one above, is that of an entry, or leads nowhere. -/
theorem name_cases (fs : FileSystem) (name : String) :
    (name = "" ∨ name = ".") ∨ name = ".." ∨ IsName name ∨
      ∀ start rest, (fs.walk start (name :: rest)).target? = none := by
  by_cases hstay : name = "" ∨ name = "."
  · exact .inl hstay
  by_cases hup : name = ".."
  · exact .inr (.inl hup)
  by_cases hshort : name.utf8ByteSize ≤ nameLimit
  · rw [not_or] at hstay
    exact .inr (.inr (.inl ⟨hstay.1, hstay.2, hup, hshort⟩))
  · refine .inr (.inr (.inr fun start rest => ?_))
    rw [walk, if_neg (by simpa using hstay), if_neg (by simpa using hup),
      if_pos (not_le.1 hshort)]
    rfl

/-- What a path ends at has a place only if nothing stands behind its last name. -/
theorem target?_last (ending : Bool → Place) (failed : Place)
    (hending : ∀ slashed, (ending slashed).target? = if slashed then none else some place)
    (hfailed : failed.target? = none) :
    (if rest.all (· == "") then ending (rest.all (· == "") && !rest.isEmpty)
      else failed).target? = if rest = [] then some place else none := by
  cases rest with
  | nil => exact hending false
  | cons next rest =>
    rw [if_neg (List.cons_ne_nil next rest)]
    cases (next :: rest).all (· == "") with
    | true => exact hending true
    | false => exact hfailed

/-- Behind a name that leads to no directory no other name leads to a place. -/
theorem target?_walk_name (hname : IsName name) :
    (fs.walk (some here) (name :: rest)).target? =
      if fs.Passable (here ++ [name]) then (fs.walk (some (here ++ [name])) rest).target?
      else if rest = [] then some (here ++ [name])
      else none := by
  have hstay : ¬((name == "" || name == ".") = true) := by
    simpa using ⟨hname.ne_empty, hname.ne_here⟩
  rw [walk, if_neg hstay, if_neg (by simpa using hname.ne_above), if_neg (not_lt.2 hname.short)]
  dsimp only
  by_cases hpass : fs.Passable (here ++ [name])
  · rw [if_pos hpass, hpass.1]
    dsimp only
    rw [if_pos hpass.2]
  · rw [if_neg hpass]
    cases hcontents : fs.contents? (here ++ [name]) with
    | none =>
      have hdirectory : fs.isDirectory (here ++ [name]) = false :=
        Bool.eq_false_iff.2 fun htrue => hpass ⟨hcontents, htrue⟩
      rw [hdirectory, if_neg Bool.false_ne_true]
      exact target?_last (.vacant (here ++ [name])) .missing (by rintro (_ | _) <;> rfl) rfl
    | some bytes =>
      exact target?_last (.file (here ++ [name]) bytes) .blocked (by rintro (_ | _) <;> rfl) rfl

theorem target?_walk_none : (fs.walk none names).target? = none := by
  induction names with
  | nil => rfl
  | cons name rest ih =>
    rw [walk]
    split_ifs
    · exact ih
    · exact ih
    · rfl
    · rfl

/-- The names of a path lead to a place exactly if the path, when it is followed, ends there. -/
theorem target?_walk :
    (fs.walk (some here) names).target? = some place ↔ fs.Leads here names place := by
  constructor
  · intro h
    induction names generalizing here with
    | nil => cases h
    | cons name rest ih =>
      rcases name_cases fs name with hstay | rfl | hname | hnowhere
      · rw [walk_stay hstay] at h
        exact .stay hstay (ih h)
      · rw [walk_up] at h
        exact .up (ih h)
      · rw [target?_walk_name hname] at h
        split_ifs at h with hpass hrest
        · exact .enter hname hpass (ih h)
        · subst hrest
          cases h
          exact .arrive hname hpass
      · rw [hnowhere] at h
        cases h
  · intro h
    induction h with
    | stay hstay _ ih => rw [walk_stay hstay, ih]
    | up _ ih =>
      rw [walk_up]
      exact ih
    | enter hname hpass _ ih => rw [target?_walk_name hname, if_pos hpass, ih]
    | arrive hname hpass => rw [target?_walk_name hname, if_neg hpass, if_pos rfl]

/-- Names lead from directories that are there to where a file stands or can be made. -/
theorem Leads.writable (h : fs.Leads here names place) (hhere : fs.Stands here) :
    fs.Writable place := by
  induction h with
  | stay _ _ ih => exact ih hhere
  | up _ ih => exact ih hhere.above
  | enter _ hpass _ ih => exact ih (hhere.concat fun _ => hpass.2)
  | arrive _ hpass => exact ⟨by simpa using hhere, hpass⟩

theorem Writable.leads_put (h : fs.Writable place) {other : List String} :
    (fs.put place bytes).Leads here names other ↔ fs.Leads here names other := by
  constructor
  · intro hleads
    induction hleads with
    | stay hstay _ ih => exact .stay hstay ih
    | up _ ih => exact .up ih
    | enter hname hpass _ ih => exact .enter hname ((h.passable_put hname.ne_above).1 hpass) ih
    | arrive hname hpass => exact .arrive hname (mt (h.passable_put hname.ne_above).2 hpass)
  · intro hleads
    induction hleads with
    | stay hstay _ ih => exact .stay hstay ih
    | up _ ih => exact .up ih
    | enter hname hpass _ ih => exact .enter hname ((h.passable_put hname.ne_above).2 hpass) ih
    | arrive hname hpass => exact .arrive hname (mt (h.passable_put hname.ne_above).1 hpass)

theorem eq_of_walk_single (h : (fs.walk (some here) [name]).target? = some place) :
    place = here ++ [name] := by
  cases target?_walk.1 h with
  | stay _ h | up h | enter _ _ h => cases h
  | arrive => rfl

/-- Names that are the same but for the last one lead to places in the same directory. -/
theorem exists_directory_of_walk {front : List String} {last other : String}
    {sibling : List String} (h : (fs.walk (some here) (front ++ [last])).target? = some place)
    (hsibling : (fs.walk (some here) (front ++ [other])).target? = some sibling) :
    ∃ directory, place = directory ++ [last] ∧ sibling = directory ++ [other] := by
  -- Both walks go the same way along the names in front, from one directory to the next.
  induction front generalizing here with
  | nil => exact ⟨here, eq_of_walk_single h, eq_of_walk_single hsibling⟩
  | cons name front ih =>
    rw [List.cons_append] at h hsibling
    rcases name_cases fs name with hstay | rfl | hname | hnowhere
    · rw [walk_stay hstay] at h hsibling
      exact ih h hsibling
    · rw [walk_up] at h hsibling
      exact ih h hsibling
    · rw [target?_walk_name hname] at h hsibling
      split_ifs at h hsibling with hpass hnil
      · exact ih h hsibling
      · simp at hnil
    · rw [hnowhere] at h
      cases h

/-- Contents that are met at the end of a walk are those of the place. -/
def Place.Met (fs : FileSystem) : Place → Prop
  | .file place bytes _ => fs.contents? place = some bytes
  | .vacant place _ => fs.contents? place = none
  | _ => True

theorem met_walk (fs : FileSystem) (start : Option (List String)) (names : List String) :
    (fs.walk start names).Met fs := by
  fun_induction fs.walk start names with
  | case2 _ _ _ _ ih | case3 _ _ _ _ _ ih | case8 _ _ _ _ _ _ _ _ _ ih => exact ih
  | case6 _ _ _ _ _ _ _ _ _ _ hcontents | case9 _ _ _ _ _ _ _ _ _ hcontents => exact hcontents
  | _ => trivial

end Walks

section Paths

variable {fs next : FileSystem} {path other : String} {place : List String} {bytes : Array UInt8}

/-- Whether a text leads nowhere, because it is no path or one of the root, does not depend on the
files. -/
theorem place?_cases (path : String) :
    (∀ fs : FileSystem, fs.place? path = none) ∨
      ∀ fs : FileSystem, fs.place? path = (fs.walk (some []) (components path)).target? := by
  unfold place? locate
  split_ifs
  · exact .inl fun _ => rfl
  · exact .inl fun _ => rfl
  · exact .inl fun _ => rfl
  · exact .inl fun _ => target?_walk_none
  · exact .inr fun _ => rfl

theorem met_locate (fs : FileSystem) (path : String) : (fs.locate path).Met fs := by
  unfold locate
  split_ifs
  · trivial
  · trivial
  · trivial
  · exact met_walk fs _ _
  · exact met_walk fs _ _

theorem read_eq_ok :
    fs.read path = .ok bytes ↔
      ∃ place, fs.place? path = some place ∧ fs.contents? place = some bytes := by
  have hmet := met_locate fs path
  unfold read place?
  cases hlocate : fs.locate path with
  | file place contents slashed =>
    rw [hlocate] at hmet
    cases slashed with
    | false => simp [Place.target?, show fs.contents? place = some contents from hmet]
    | true => simp [Place.target?, fail]
  | vacant place slashed =>
    rw [hlocate] at hmet
    cases slashed with
    | false => simp [Place.target?, fail, show fs.contents? place = none from hmet]
    | true => simp [Place.target?, fail]
  | _ => simp [Place.target?, fail]

theorem write_eq_ok :
    fs.write path bytes = .ok next ↔
      ∃ place, fs.place? path = some place ∧ next = fs.put place bytes := by
  unfold write place?
  cases fs.locate path with
  | file place contents slashed | vacant place slashed =>
    cases slashed with
    | false => simp [Place.target?, eq_comm]
    | true => simp [Place.target?, fail]
  | overlong slashed => cases slashed <;> simp [Place.target?, fail]
  | _ => simp [Place.target?, fail]

theorem look_eq_file : fs.look path = some .file ↔ ∃ bytes, fs.read path = .ok bytes := by
  unfold look read
  cases fs.locate path with
  | file place contents slashed => cases slashed <;> simp [fail]
  | directory place => cases place <;> simp [fail]
  | _ => simp [fail]

theorem writable_of_place? (h : fs.place? path = some place) : fs.Writable place := by
  rcases place?_cases path with hnone | hwalk
  · rw [hnone] at h
    cases h
  · rw [hwalk, target?_walk] at h
    exact h.writable stands_nil

theorem place?_put (h : fs.Writable place) :
    (fs.put place bytes).place? other = fs.place? other := by
  rcases place?_cases other with hnone | hwalk
  · rw [hnone, hnone]
  · rw [hwalk, hwalk]
    refine Option.ext fun found => ?_
    rw [target?_walk, target?_walk]
    exact h.leads_put

@[simp] theorem beside_concat (extension : String) (directory : List String) (name : String) :
    beside extension (directory ++ [name]) = directory ++ [outputName name extension] := by
  simp [beside]

/-- The path of a report leads next to what the report is on. -/
theorem place?_outputName {input extension : String} {report : List String}
    (hextension : '/' ∉ extension.toList) (h : fs.place? input = some place)
    (hreport : fs.place? (outputName input extension) = some report) :
    report = beside extension place := by
  obtain ⟨front, name, hinput, houtput⟩ := components_outputName hextension input
  rcases place?_cases input with hnone | hwalk
  · rw [hnone] at h
    cases h
  rcases place?_cases (outputName input extension) with hnone | hwalk'
  · rw [hnone] at hreport
    cases hreport
  rw [hwalk, hinput] at h
  rw [hwalk', houtput] at hreport
  obtain ⟨directory, rfl, rfl⟩ := exists_directory_of_walk h hreport
  rw [beside_concat]

end Paths

end CartFlow.FileSystem
