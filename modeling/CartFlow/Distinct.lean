import Std.Data.HashSet

/-!
# Lists without repetitions

Of equal members of a list only the first one is kept, and the order stays. The members
that were met are kept in a hash set, so long lists take no longer than they should.
-/
namespace CartFlow

variable {α : Type} [BEq α] [Hashable α]

/-- Goes on behind the members in `seen`; those that are new come behind `kept`. -/
def distinctFrom (seen : Std.HashSet α) (kept : Array α) : List α → Array α
  | [] => kept
  | a :: rest =>
    if seen.contains a then distinctFrom seen kept rest
    else distinctFrom (seen.insert a) (kept.push a) rest

/-- The members of a list, each where it comes first. -/
def distinct (l : List α) : List α :=
  (distinctFrom ∅ #[] l).toList

variable [LawfulBEq α]

theorem mem_distinctFrom {seen : Std.HashSet α} {kept : Array α} {l : List α} {a : α} :
    a ∈ distinctFrom seen kept l ↔ a ∈ kept ∨ (a ∉ seen ∧ a ∈ l) := by
  induction l generalizing seen kept with
  | nil => simp [distinctFrom]
  | cons b rest ih =>
    unfold distinctFrom
    split
    · next hb =>
      rw [← Std.HashSet.mem_iff_contains] at hb
      rw [ih, List.mem_cons]
      constructor
      · rintro (h | ⟨hs, h⟩)
        · exact .inl h
        · exact .inr ⟨hs, .inr h⟩
      · rintro (h | ⟨hs, rfl | h⟩)
        · exact .inl h
        · exact absurd hb hs
        · exact .inr ⟨hs, h⟩
    · next hb =>
      rw [← Std.HashSet.mem_iff_contains] at hb
      rw [ih, List.mem_cons, Array.mem_push, Std.HashSet.mem_insert, beq_iff_eq]
      by_cases hab : b = a
      · subst hab
        simp [hb]
      · simp only [Ne.symm hab, hab, or_false, false_or]

@[simp] theorem mem_distinct {l : List α} {a : α} : a ∈ distinct l ↔ a ∈ l := by
  simp [distinct, mem_distinctFrom]

theorem nodup_distinctFrom {seen : Std.HashSet α} {kept : Array α} (l : List α)
    (hkept : kept.toList.Nodup) (hseen : ∀ a ∈ kept, a ∈ seen) :
    (distinctFrom seen kept l).toList.Nodup := by
  induction l generalizing seen kept with
  | nil => exact hkept
  | cons b rest ih =>
    unfold distinctFrom
    split
    · exact ih hkept hseen
    · next hb =>
      rw [← Std.HashSet.mem_iff_contains] at hb
      apply ih
      · rw [Array.toList_push, List.nodup_append]
        refine ⟨hkept, by simp, ?_⟩
        intro a ha c hc
        rw [List.mem_singleton] at hc
        rintro rfl
        exact hb (hc ▸ hseen a (by simpa using ha))
      · intro a ha
        rw [Std.HashSet.mem_insert, beq_iff_eq]
        rcases Array.mem_push.1 ha with ha | rfl
        · exact .inr (hseen a ha)
        · exact .inl rfl

theorem nodup_distinct (l : List α) : (distinct l).Nodup :=
  nodup_distinctFrom l (by simp) (by simp)

theorem pairwise_distinctFrom {seen : Std.HashSet α} {kept : Array α} {all front l : List α}
    (hall : all = front ++ l) (hseen : ∀ a, a ∈ seen ↔ a ∈ front)
    (hkept : ∀ a ∈ kept.toList, a ∈ front)
    (horder : kept.toList.Pairwise fun a b => all.idxOf a < all.idxOf b) :
    (distinctFrom seen kept l).toList.Pairwise fun a b => all.idxOf a < all.idxOf b := by
  induction l generalizing seen kept front with
  | nil => exact horder
  | cons b rest ih =>
    -- the next member belongs to the front from here on
    have hall' : all = (front ++ [b]) ++ rest := by
      rw [hall, List.append_assoc, List.singleton_append]
    unfold distinctFrom
    split
    · next hb =>
      rw [← Std.HashSet.mem_iff_contains, hseen] at hb
      refine ih hall' (fun a => ?_) (fun a ha => List.mem_append_left _ (hkept a ha)) horder
      rw [hseen, List.mem_append, List.mem_singleton]
      exact ⟨.inl, fun h => h.elim id fun h => h ▸ hb⟩
    · next hb =>
      rw [← Std.HashSet.mem_iff_contains, hseen] at hb
      refine ih hall' (fun a => ?_) (fun a ha => ?_) ?_
      · rw [Std.HashSet.mem_insert, beq_iff_eq, hseen, List.mem_append, List.mem_singleton, or_comm,
          eq_comm]
      · rw [Array.toList_push, List.mem_append] at ha
        rw [List.mem_append]
        exact ha.imp_left (hkept a)
      · rw [Array.toList_push, List.pairwise_append]
        refine ⟨horder, List.pairwise_singleton _ _, fun a ha c hc => ?_⟩
        cases List.mem_singleton.1 hc
        have ha := hkept a ha
        rw [hall, List.idxOf_append, if_pos ha, List.idxOf_append, if_neg hb]
        exact Nat.lt_of_lt_of_le (List.idxOf_lt_length_of_mem ha) (Nat.le_add_left _ _)

/-- The members of a list without its repetitions are in the order in which they come first. -/
theorem pairwise_distinct (l : List α) :
    (distinct l).Pairwise fun a b => l.idxOf a < l.idxOf b :=
  pairwise_distinctFrom (List.nil_append l).symm (by simp) (by simp) (by simp)

end CartFlow
