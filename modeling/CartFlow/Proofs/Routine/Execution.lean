import CartFlow.Proofs.Routine.ReaderSteps

/-!
# Executions of a routine

Control passes from an instruction to the one behind it or to its target: a conditional branch
goes either way, an unconditional branch and a jump go to their targets, and a call is over
when control is behind it. A run lists the instructions that are executed; the runs that count
start at the first instruction of a routine and end with a return.

Every run to a return executes exactly one instruction of a kind unless a return is reached
around all of them, or one of them is followed by another on the way to a return.
-/
namespace CartFlow

open Processor Cartridge

/-- Whether an address is a name of the place that another address shows. -/
def Cartridge.Cursor.Names (c : Cursor) (a b : Address) : Prop :=
  b = a ∨ ∃ d, c.seek a = .ok d ∧ b = d.tell

namespace Instruction

def FallsThrough (i : Instruction) : Prop :=
  i.handling = .call ∨ i.handling = .plain ∨
    (i.handling = .branch ∧ i.has .unconditional = false)

inductive Passes (c : Cursor) (i j : Instruction) : Prop
  | behind : i.FallsThrough → c.Names i.nextAddress j.address → Passes c i j
  | target {t : Address} : i.handling = .branch ∨ i.handling = .jump →
      i.staticTarget = .ok t → c.Names t j.address → Passes c i j

end Instruction

namespace Routine

/-- The instructions that are executed from one instruction to another, both included. -/
inductive Run (c : Cursor) (r : Routine) : Instruction → Instruction → List Instruction → Prop
  | here {i : Instruction} : i ∈ r.instructions → Run c r i i [i]
  | pass {i j k : Instruction} {p : List Instruction} : i ∈ r.instructions → i.Passes c j →
      Run c r j k p → Run c r i k (i :: p)

/-- A list of instructions is executed from the first instruction to a return. -/
def Returns (c : Cursor) (r : Routine) (p : List Instruction) : Prop :=
  ∃ first last, r.instructions[0]? = some first ∧ Run c r first last p ∧ last.handling = .ret

def Live (c : Cursor) (r : Routine) (i : Instruction) : Prop :=
  ∃ first p, r.instructions[0]? = some first ∧ Run c r first i p

/-- A return is reached around all instructions of a kind. -/
def Escapes (c : Cursor) (r : Routine) (kind : Instruction → Bool) : Prop :=
  ∃ p, Returns c r p ∧ ∀ i ∈ p, kind i = false

/-- An instruction of a kind is executed, then another or the same one, and then a return. -/
def Repeats (c : Cursor) (r : Routine) (kind : Instruction → Bool) : Prop :=
  ∃ i j k last, Live c r i ∧ kind i = true ∧ i.Passes c j ∧ (∃ p, Run c r j k p) ∧
    kind k = true ∧ (∃ p, Run c r k last p) ∧ last.handling = .ret

namespace Run

variable {c : Cursor} {r : Routine} {i j k : Instruction} {p q : List Instruction}

theorem exists_eq_cons (h : Run c r i k p) : ∃ q, p = i :: q := by
  cases h with
  | here _ => exact ⟨[], rfl⟩
  | pass _ _ _ => exact ⟨_, rfl⟩

theorem last_mem (h : Run c r i k p) : k ∈ p := by
  induction h with
  | here _ => exact List.mem_singleton_self _
  | pass _ _ _ ih => exact List.mem_cons_of_mem _ ih

theorem mem_instructions (h : Run c r i k p) : ∀ x ∈ p, x ∈ r.instructions := by
  induction h with
  | here hi =>
    intro x hx
    rwa [List.mem_singleton.1 hx]
  | pass hi _ _ ih =>
    intro x hx
    rcases List.mem_cons.1 hx with rfl | hx
    · exact hi
    · exact ih x hx

theorem append (h : Run c r i j p) (h' : Run c r j k (j :: q)) : Run c r i k (p ++ q) := by
  induction h with
  | here _ => exact h'
  | pass hi hpass _ ih => exact .pass hi hpass (ih h')

theorem exists_passes (h : Run c r i k (j :: q)) (hne : q ≠ []) :
    i = j ∧ ∃ x, i.Passes c x ∧ Run c r x k q := by
  cases h with
  | here _ => exact absurd rfl hne
  | pass _ hpass h => exact ⟨rfl, _, hpass, h⟩

theorem split (h : Run c r i k (p ++ j :: q)) : Run c r i j (p ++ [j]) ∧ Run c r j k (j :: q) := by
  induction p generalizing i with
  | nil =>
    rw [List.nil_append] at h
    obtain ⟨t, ht⟩ := h.exists_eq_cons
    cases ht
    exact ⟨.here (h.mem_instructions j List.mem_cons_self), h⟩
  | cons x p ih =>
    have hmem := h.mem_instructions x List.mem_cons_self
    obtain ⟨rfl, y, hpass, hrest⟩ := h.exists_passes (by simp)
    obtain ⟨h₁, h₂⟩ := ih hrest
    exact ⟨.pass hmem hpass h₁, h₂⟩

end Run

theorem exists_two_of_countP {α : Type} {kind : α → Bool} {p : List α} (h : 2 ≤ p.countP kind) :
    ∃ l x m y n, p = l ++ x :: (m ++ y :: n) ∧ kind x = true ∧ kind y = true := by
  induction p with
  | nil => simp at h
  | cons a p ih =>
    rw [List.countP_cons] at h
    by_cases ha : kind a = true
    · rw [if_pos ha] at h
      have hpos : 0 < p.countP kind := by omega
      obtain ⟨y, hy, hkind⟩ := List.countP_pos_iff.1 hpos
      obtain ⟨m, n, rfl⟩ := List.append_of_mem hy
      exact ⟨[], a, m, y, n, rfl, ha, hkind⟩
    · rw [if_neg ha] at h
      obtain ⟨l, x, m, y, n, rfl, hx, hy⟩ := ih (by omega)
      exact ⟨a :: l, x, m, y, n, rfl, hx, hy⟩

section Once

variable {c : Cursor} {r : Routine} {kind : Instruction → Bool}

theorem Returns.live {p : List Instruction} (hp : Returns c r p) : ∀ i ∈ p, Live c r i := by
  intro i hi
  obtain ⟨first, last, hfirst, hrun, -⟩ := hp
  obtain ⟨l, m, rfl⟩ := List.append_of_mem hi
  exact ⟨first, _, hfirst, hrun.split.1⟩

theorem Repeats.exists_returns (h : Repeats c r kind) :
    ∃ p, Returns c r p ∧ 2 ≤ p.countP kind := by
  obtain ⟨i, j, k, last, ⟨first, p, hfirst, hp⟩, hi, hpass, ⟨q, hq⟩, hk, ⟨t, ht⟩, hret⟩ := h
  obtain ⟨t, rfl⟩ := ht.exists_eq_cons
  have htail := hq.append ht
  have hmem := hp.mem_instructions i hp.last_mem
  refine ⟨p ++ (q ++ t), ⟨first, last, hfirst, hp.append (.pass hmem hpass htail), hret⟩, ?_⟩
  have hcount : ∀ {x : Instruction} {l : List Instruction}, x ∈ l → kind x = true →
      0 < l.countP kind := fun hx hkind => List.countP_pos_iff.2 ⟨_, hx, hkind⟩
  have h₁ := hcount hp.last_mem hi
  have h₂ := hcount hq.last_mem hk
  rw [List.countP_append, List.countP_append]
  omega

theorem repeats_of_returns {p : List Instruction} (hp : Returns c r p)
    (hcount : 2 ≤ p.countP kind) : Repeats c r kind := by
  obtain ⟨first, last, hfirst, hrun, hret⟩ := hp
  obtain ⟨l, i, m, k, n, rfl, hi, hk⟩ := exists_two_of_countP hcount
  obtain ⟨hlive, hrest⟩ := hrun.split
  obtain ⟨-, j, hpass, hrest⟩ := hrest.exists_passes (by simp)
  obtain ⟨hbetween, hend⟩ := hrest.split
  exact ⟨i, j, k, last, ⟨first, _, hfirst, hlive⟩, hi, hpass, ⟨_, hbetween⟩, hk, ⟨_, hend⟩, hret⟩

/-- Every run to a return executes exactly one instruction of a kind unless a return is reached
around them, or one of them is followed by another on the way to a return. -/
theorem forall_countP_eq_one_iff :
    (∀ p, Returns c r p → p.countP kind = 1) ↔ ¬ Escapes c r kind ∧ ¬ Repeats c r kind := by
  constructor
  · intro honce
    constructor
    · rintro ⟨p, hp, hnone⟩
      have hzero : p.countP kind = 0 := List.countP_eq_zero.2 (by simpa using hnone)
      have := honce p hp
      omega
    · intro hrepeats
      obtain ⟨p, hp, htwo⟩ := hrepeats.exists_returns
      have := honce p hp
      omega
  · rintro ⟨hescapes, hrepeats⟩ p hp
    by_contra hne
    rcases Nat.lt_or_ge (p.countP kind) 1 with hlt | hge
    · have hzero : p.countP kind = 0 := by omega
      apply hescapes
      refine ⟨p, hp, ?_⟩
      simpa using List.countP_eq_zero.1 hzero
    · exact hrepeats (repeats_of_returns hp (by omega))

end Once

end Routine

end CartFlow
