/-!
# Sets of positions

A finite set of node positions, kept as the bits of a natural number. The bits of
the intersection are the common bits, so a set never grows by intersecting, and the
number shrinks whenever the set does.
-/
namespace CartFlow

/-- A finite set of positions. -/
structure NodeSet where
  bits : Nat
  deriving DecidableEq, Repr, Inhabited

namespace NodeSet

def empty : NodeSet := ⟨0⟩

/-- All positions below `n`. -/
def below (n : Nat) : NodeSet := ⟨1 <<< n - 1⟩

def single (i : Nat) : NodeSet := ⟨1 <<< i⟩

def contains (s : NodeSet) (i : Nat) : Bool := s.bits.testBit i

instance : Membership Nat NodeSet := ⟨fun s i => s.contains i = true⟩

instance (s : NodeSet) (i : Nat) : Decidable (i ∈ s) :=
  inferInstanceAs (Decidable (s.contains i = true))

def inter (s t : NodeSet) : NodeSet := ⟨s.bits &&& t.bits⟩

def union (s t : NodeSet) : NodeSet := ⟨s.bits ||| t.bits⟩

def insert (s : NodeSet) (i : Nat) : NodeSet := s.union (single i)

/-- The members below `n` in ascending order. -/
def members (s : NodeSet) (n : Nat) : List Nat :=
  (List.range n).filter s.contains

/-- The number of one bits of a number; every round clears the lowest of them. -/
def ones (n : Nat) : Nat :=
  if n = 0 then 0 else ones (n &&& (n - 1)) + 1
termination_by n
decreasing_by
  have : n &&& (n - 1) ≤ n - 1 := Nat.and_le_right
  omega

/-- The number of one bits of a number, counted in words of 32 bits. -/
def onesOfWords (n : Nat) : Nat :=
  if n < 0x100000000 then ones n
  else ones (n % 0x100000000) + onesOfWords (n / 0x100000000)
termination_by n
decreasing_by omega

def size (s : NodeSet) : Nat :=
  onesOfWords s.bits

theorem mem_def {s : NodeSet} {i : Nat} : i ∈ s ↔ s.bits.testBit i = true := Iff.rfl

@[simp] theorem not_mem_empty (i : Nat) : i ∉ empty := by
  simp [mem_def, empty]

@[simp] theorem mem_below {n i : Nat} : i ∈ below n ↔ i < n := by
  simp [mem_def, below, Nat.one_shiftLeft, Nat.testBit_two_pow_sub_one]

@[simp] theorem mem_single {i j : Nat} : j ∈ single i ↔ i = j := by
  simp [mem_def, single, Nat.one_shiftLeft, Nat.testBit_two_pow]

@[simp] theorem mem_inter {s t : NodeSet} {i : Nat} : i ∈ s.inter t ↔ i ∈ s ∧ i ∈ t := by
  simp [mem_def, inter]

@[simp] theorem mem_union {s t : NodeSet} {i : Nat} : i ∈ s.union t ↔ i ∈ s ∨ i ∈ t := by
  simp [mem_def, union]

@[simp] theorem mem_insert {s : NodeSet} {i j : Nat} : j ∈ s.insert i ↔ j ∈ s ∨ i = j := by
  simp [insert]

@[simp] theorem mem_members {s : NodeSet} {n i : Nat} : i ∈ s.members n ↔ i < n ∧ i ∈ s := by
  simp [members, mem_def, contains]

theorem ext {s t : NodeSet} (h : ∀ i, i ∈ s ↔ i ∈ t) : s = t := by
  cases s with | mk a => ?_
  cases t with | mk b => ?_
  rw [mk.injEq]
  apply Nat.eq_of_testBit_eq
  intro i
  exact Bool.eq_iff_iff.2 (h i)

theorem bits_inter_le (s t : NodeSet) : (s.inter t).bits ≤ s.bits :=
  Nat.and_le_left

end NodeSet

end CartFlow
