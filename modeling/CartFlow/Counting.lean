/-!
# Counting what is left

A loop that marks something new in every round ends, because ever fewer things are
left to be marked.
-/
namespace CartFlow

/-- Fewer members of a list satisfy the stronger of two predicates, if one member tells them
apart. -/
theorem countP_lt_countP {α : Type} {p q : α → Bool} {l : List α} {a : α} (ha : a ∈ l)
    (hpq : ∀ b, q b → p b) (hp : p a) (hq : ¬ q a) : l.countP q < l.countP p := by
  induction l with
  | nil => cases ha
  | cons b l ih =>
    have hle : l.countP q ≤ l.countP p := List.countP_mono_left fun b _ => hpq b
    simp only [List.countP_cons]
    rcases List.mem_cons.1 ha with rfl | ha
    · simp [hp, hq]; omega
    · have := ih ha
      by_cases hqb : q b
      · simp [hqb, hpq b hqb]; omega
      · simp [hqb]; omega

def countWords (p : UInt32 → Bool) : Nat :=
  (List.range UInt32.size).countP fun n => p (UInt32.ofNat n)

theorem countWords_lt_countWords {p q : UInt32 → Bool} {a : UInt32}
    (hpq : ∀ b, q b → p b) (hp : p a) (hq : ¬ q a) : countWords q < countWords p := by
  refine countP_lt_countP (List.mem_range.2 a.toNat_lt_size) (fun b => hpq _) ?_ ?_
  · rwa [UInt32.ofNat_toNat]
  · rwa [UInt32.ofNat_toNat]

end CartFlow
