import CartFlow.Failure
import Mathlib.Data.List.Forall2

/-!
# Computations for each member of a list

A computation is made for one member of a list after the other and the first failure ends it. It
succeeds exactly if it does so for each member, and what is found stands in the order of the list.
-/
namespace CartFlow

variable {α β : Type} {f : α → Except Failure β} {l : List α}

theorem exists_anyM {f : α → Except Failure Bool} (h : ∀ a ∈ l, ∃ answer, f a = .ok answer) :
    ∃ answer, l.anyM f = .ok answer := by
  induction l with
  | nil => exact ⟨false, rfl⟩
  | cons a l ih =>
    rw [List.forall_mem_cons] at h
    obtain ⟨⟨answer, ha⟩, hl⟩ := h
    rw [List.anyM, ha]
    cases answer with
    | true => exact ⟨true, rfl⟩
    | false => exact ih hl

theorem mapM_eq_ok {bs : List β} :
    l.mapM f = .ok bs ↔ List.Forall₂ (fun a b => f a = .ok b) l bs := by
  induction l generalizing bs with
  | nil =>
    rw [List.forall₂_nil_left_iff, eq_comm (a := bs)]
    exact Except.ok.injEq [] bs ▸ Iff.rfl
  | cons a l ih =>
    rw [List.mapM_cons, bind_eq_ok, List.forall₂_cons_left_iff]
    constructor
    · rintro ⟨b, hb, h⟩
      obtain ⟨rest, hrest, h⟩ := bind_eq_ok.1 h
      exact ⟨b, rest, hb, ih.1 hrest, (Except.ok.inj h).symm⟩
    · rintro ⟨b, rest, hb, hrest, rfl⟩
      exact ⟨b, hb, bind_eq_ok.2 ⟨rest, ih.2 hrest, rfl⟩⟩

/-- If elements are not all computed, this is because of one of them. -/
theorem exists_of_mapM_eq_error {e : Failure} (h : l.mapM f = .error e) :
    ∃ a ∈ l, f a = .error e := by
  induction l with
  | nil => cases h
  | cons a l ih =>
    rw [List.mapM_cons] at h
    cases hfirst : f a with
    | error failure =>
      rw [hfirst] at h
      cases h
      exact ⟨a, List.mem_cons_self, hfirst⟩
    | ok b =>
      rw [hfirst] at h
      cases hrest : l.mapM f with
      | error failure =>
        rw [hrest] at h
        cases h
        obtain ⟨other, hmem, hother⟩ := ih hrest
        exact ⟨other, List.mem_cons_of_mem _ hmem, hother⟩
      | ok bs =>
        rw [hrest] at h
        cases h

theorem exists_mapM (h : ∀ a ∈ l, ∃ b, f a = .ok b) : ∃ bs, l.mapM f = .ok bs := by
  cases hl : l.mapM f with
  | ok bs => exact ⟨bs, rfl⟩
  | error e =>
    obtain ⟨a, ha, hfail⟩ := exists_of_mapM_eq_error hl
    obtain ⟨b, hb⟩ := h a ha
    rw [hfail] at hb
    cases hb

theorem mem_of_mapM {bs : List β} (h : l.mapM f = .ok bs) (b : β) :
    b ∈ bs ↔ ∃ a ∈ l, f a = .ok b := by
  have hall := mapM_eq_ok.1 h
  clear h
  induction hall with
  | nil => simp
  | @cons a first l rest hfirst _ ih =>
    have hhead : b = first ↔ f a = .ok b := by rw [hfirst, Except.ok.injEq, eq_comm]
    simp only [List.mem_cons, hhead, ih, exists_eq_or_imp]

end CartFlow
