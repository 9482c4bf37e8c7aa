import CartFlow.Output.Listing
import CartFlow.Proofs.Routine.AssemblyText

/-!
# The listing of a routine

The instructions of a routine are sorted for its listing. This moves them and neither loses nor
repeats one, so the listing of a routine that was read is written in full, with every instruction
once and a label at every instruction that a branch or a jump leads to.
-/
namespace CartFlow

open Processor Text

namespace Document

theorem deliver_part (name text : String) :
    (part name text).deliver (fun _ => true) = (text, none) := by
  rw [deliver_all]
  simp [part, Document.text]

theorem deliver_append {d e : Document} {s t : String}
    (hd : d.deliver (fun _ => true) = (s, none)) (he : e.deliver (fun _ => true) = (t, none)) :
    (d ++ e).deliver (fun _ => true) = (s ++ t, none) := by
  rw [deliver_all, Prod.mk.injEq] at hd he ⊢
  obtain ⟨rfl, hcomplete⟩ := hd
  obtain ⟨rfl, hend⟩ := he
  change (append d e).text = _ ∧ (append d e).failure = none
  rw [append, hcomplete]
  exact ⟨by simp [text, String.join_append], hend⟩

/-- Documents that are complete are written one behind the other. -/
theorem deliver_concat_map {β : Type} {shows : String → β → Prop} {d : β → Document} {l : List β}
    (h : ∀ x ∈ l, ∃ text, (d x).deliver (fun _ => true) = (text, none) ∧ shows text x) :
    ∃ texts, List.Forall₂ shows texts l ∧
      (concat (l.map d)).deliver (fun _ => true) = (String.join texts, none) := by
  induction l with
  | nil => exact ⟨[], .nil, rfl⟩
  | cons x l ih =>
    rw [List.forall_mem_cons] at h
    obtain ⟨⟨text, hd, hshows⟩, hrest⟩ := h
    obtain ⟨texts, htexts, hdeliver⟩ := ih hrest
    refine ⟨text :: texts, .cons hshows htexts, ?_⟩
    rw [String.join_cons]
    exact deliver_append hd hdeliver

end Document

/-- A branch or a jump of a routine is known to lead to an address. -/
def Routine.LeadsTo (r : Routine) (a : Address) : Prop :=
  ∃ i ∈ r.instructions, i.opcode.attributes.hasAny (.branch ∪ .jump) = true ∧
    i.knownTarget? = some a

namespace Listing

/-- The label of an address, if something leads there, behind an empty line unless it is the
first. -/
def IsLabel (r : Routine) (a : Address) (k : Nat) (text : String) : Prop :=
  (r.LeadsTo a → text = (if k = 0 then "" else "\n") ++ "L_" ++ hexAddress a ++ ":\n") ∧
    (¬ r.LeadsTo a → text = "")

/-- What is shown of the instruction with the number that it has: the label of its address, and its
text. -/
def ShowsInstruction (l : Listing) (r : Routine) (shown : String) : Instruction × Nat → Prop
  | (i, k) => ∃ label text, IsLabel r i.address k label ∧ i.text l.addresses = .ok text ∧
      shown = label ++ ((if l.bytes then fill ("  " ++ text) ++ " ; " ++ bytesText i
        else "  " ++ text) ++ "\n")

variable {r : Routine} {a : Address} {i : Instruction} {instructions : List Instruction}

theorem contains_labels (hall : instructions.Perm r.instructions.toList) :
    (labels instructions).contains a = true ↔ r.LeadsTo a := by
  rw [labels, Std.HashSet.contains_ofList, List.contains_iff_mem, List.mem_filterMap]
  simp only [List.mem_filter, hall.mem_iff, Array.mem_toList_iff, and_assoc, Routine.LeadsTo]

theorem deliver_instruction {l : Listing} {text : String} (htext : i.text l.addresses = .ok text) :
    (l.instruction i).deliver (fun _ => true) =
      ((if l.bytes then fill ("  " ++ text) ++ " ; " ++ bytesText i else "  " ++ text) ++ "\n",
        none) := by
  rw [instruction, htext]
  exact Document.deliver_part "instruction" _

theorem deliver_label (first : Bool) (a : Address) :
    (label first a).deliver (fun _ => true) =
      ((if first then "" else "\n") ++ ("L_" ++ hexAddress a ++ ":\n"), none) := by
  apply Document.deliver_append
  · cases first
    · exact Document.deliver_part "line" "\n"
    · rfl
  · exact Document.deliver_part "label" _

theorem exists_label (hall : instructions.Perm r.instructions.toList) (a : Address) (k : Nat) :
    ∃ text, IsLabel r a k text ∧
      (if (labels instructions).contains a then label (k == 0) a else {}).deliver
        (fun _ => true) = (text, none) := by
  split
  · next hlabel =>
    have hleads := (contains_labels hall).1 hlabel
    exact ⟨_, ⟨fun _ => by simp [String.append_assoc], fun hno => absurd hleads hno⟩,
      deliver_label (k == 0) a⟩
  · next hlabel =>
    rw [contains_labels hall] at hlabel
    exact ⟨"", ⟨fun hleads => absurd hleads hlabel, fun _ => rfl⟩, rfl⟩

theorem exists_shown {l : Listing} {text : String}
    (hall : instructions.Perm r.instructions.toList) (htext : i.text l.addresses = .ok text)
    (k : Nat) :
    ∃ shown, ((if (labels instructions).contains i.address then label (k == 0) i.address else {}) ++
        l.instruction i).deliver (fun _ => true) = (shown, none) ∧
      l.ShowsInstruction r shown (i, k) := by
  obtain ⟨front, hfront, hlabel⟩ := exists_label hall i.address k
  exact ⟨_, Document.deliver_append hlabel (deliver_instruction htext), front, text, hfront, htext,
    rfl⟩

/-- The listing of a routine that was read is written in full. It has all instructions of the
routine in some order, each once, and a label wherever a branch or a jump leads to. -/
theorem deliver_routine (l : Listing) {order : PopOrder} {c : Cartridge.Cursor}
    {address : Address} {p : Flags}
    (hread : (Routine.read order Table.standard c address p).outcome = .ok r) :
    ∃ (instructions : List Instruction) (shown : List String),
      instructions.Perm r.instructions.toList ∧ (instructions.map (·.address)).Nodup ∧
      List.Forall₂ (l.ShowsInstruction r) shown instructions.zipIdx ∧
      (l.routine r).deliver (fun _ => true) =
        ("; routine " ++ hexAddress r.address ++ "\n" ++ String.join shown, none) := by
  have hall := (Quicksort.sort_perm (fun i j : Instruction => i.address < j.address)
    r.instructions).toList
  unfold routine
  generalize (Quicksort.sort (fun i j : Instruction => i.address < j.address)
    r.instructions).toList = instructions at hall
  have hentries : ∀ x ∈ instructions.zipIdx, ∃ shown,
      ((if (labels instructions).contains x.1.address then label (x.2 == 0) x.1.address else {}) ++
        l.instruction x.1).deliver (fun _ => true) = (shown, none) ∧
      l.ShowsInstruction r shown x := by
    rintro ⟨i, k⟩ hi
    have hmem := Array.mem_toList_iff.1 (hall.mem_iff.1 (List.fst_mem_of_mem_zipIdx hi))
    obtain ⟨d, n, s, -, -, hd⟩ := (Reader.stems_of_read hread).instructions i hmem
    obtain ⟨g, description, length, hcatalogued⟩ := Instruction.catalogued_of_decode hd
    obtain ⟨text, htext⟩ := hcatalogued.exists_text l.addresses
    exact exists_shown hall htext k
  obtain ⟨shown, hshown, hdeliver⟩ := Document.deliver_concat_map hentries
  refine ⟨instructions, shown, hall, ?_, hshown, ?_⟩
  · exact (hall.map _).nodup_iff.2 (Reader.tidy_of_read hread).1.nodup_addresses
  · exact Document.deliver_append (Document.deliver_part _ _) hdeliver

end Listing

end CartFlow
