import CartFlow.Graph.Search
import CartFlow.Proofs.Graph.Consistency
import Mathlib.Data.Nat.Find

/-!
# Ways, levels and reachability

A way lists the nodes it visits, its two ends included. The search in levels is compared with
ways through a family of properties `near k`, of which `near (k + 1)` holds of the nodes with
an edge to a node of `near k`: level `k` of the search consists of the nodes for which `k` is
the first such number. Distances start the family with the target itself.

The search with a queue keeps that a node whose edges were followed is not the target, and that
the nodes behind it are in the queue unless their edges were followed as well. A way from such a
node to the target therefore visits a node that is still in the queue.
-/
namespace CartFlow.Graph

variable {α : Type}

/-- The nodes of a list are joined by edges, from the first end to the second. -/
inductive Way (g : Graph α) : String → String → List String → Prop
  | here (u : String) : Way g u u [u]
  | step {u v w : String} {p : List String} : g.Linked u v → Way g v w p → Way g u w (u :: p)

namespace Way

variable {g : Graph α} {u v w x : String} {p q : List String}

theorem exists_eq_cons (h : g.Way u w p) : ∃ q, p = u :: q := by
  cases h with
  | here => exact ⟨[], rfl⟩
  | step _ _ => exact ⟨_, rfl⟩

theorem source_mem (h : g.Way u w p) : u ∈ p := by
  obtain ⟨q, rfl⟩ := h.exists_eq_cons
  exact List.mem_cons_self

theorem target_mem (h : g.Way u w p) : w ∈ p := by
  induction h with
  | here => exact List.mem_singleton_self _
  | step _ _ ih => exact List.mem_cons_of_mem _ ih

theorem append (h : g.Way u v p) (h' : g.Way v w (v :: q)) : g.Way u w (p ++ q) := by
  induction h with
  | here => exact h'
  | step hl _ ih => exact .step hl (ih h')

theorem snoc (h : g.Way u v p) (hl : g.Linked v w) : g.Way u w (p ++ [w]) :=
  h.append (.step hl (.here w))

theorem split (h : g.Way u w p) (hx : x ∈ p) :
    ∃ q r, p = q ++ x :: r ∧ g.Way u x (q ++ [x]) ∧ g.Way x w (x :: r) := by
  induction h with
  | here u =>
    obtain rfl := List.mem_singleton.1 hx
    exact ⟨[], [], rfl, .here x, .here x⟩
  | @step u v w p hl h ih =>
    by_cases hxu : x = u
    · subst hxu
      exact ⟨[], p, rfl, .here x, .step hl h⟩
    · obtain ⟨q, r, rfl, h₁, h₂⟩ := ih ((List.mem_cons.1 hx).resolve_left hxu)
      exact ⟨u :: q, r, rfl, .step hl h₁, h₂⟩

theorem split_first (h : g.Way u w p) (hx : x ∈ p) :
    ∃ q r, p = q ++ x :: r ∧ x ∉ q ∧ g.Way u x (q ++ [x]) ∧ g.Way x w (x :: r) := by
  induction h with
  | here u =>
    obtain rfl := List.mem_singleton.1 hx
    exact ⟨[], [], rfl, List.not_mem_nil, .here x, .here x⟩
  | @step u v w p hl h ih =>
    by_cases hxu : x = u
    · subst hxu
      exact ⟨[], p, rfl, List.not_mem_nil, .here x, .step hl h⟩
    · obtain ⟨q, r, rfl, hq, h₁, h₂⟩ := ih ((List.mem_cons.1 hx).resolve_left hxu)
      refine ⟨u :: q, r, rfl, ?_, .step hl h₁, h₂⟩
      rw [List.mem_cons, not_or]
      exact ⟨hxu, hq⟩

theorem split_last (h : g.Way u w p) (hx : x ∈ p) :
    ∃ q r, p = q ++ x :: r ∧ x ∉ r ∧ g.Way u x (q ++ [x]) ∧ g.Way x w (x :: r) := by
  induction h with
  | here u =>
    obtain rfl := List.mem_singleton.1 hx
    exact ⟨[], [], rfl, List.not_mem_nil, .here x, .here x⟩
  | @step u v w p hl h ih =>
    by_cases hxp : x ∈ p
    · obtain ⟨q, r, rfl, hr, h₁, h₂⟩ := ih hxp
      exact ⟨u :: q, r, rfl, hr, .step hl h₁, h₂⟩
    · obtain rfl := (List.mem_cons.1 hx).resolve_right hxp
      exact ⟨[], p, rfl, hxp, .here x, .step hl h⟩

theorem eq_or_snoc (h : g.Way u w p) :
    (u = w ∧ p = [u]) ∨ ∃ v q, g.Way u v q ∧ g.Linked v w ∧ p = q ++ [w] := by
  induction h with
  | here u => exact .inl ⟨rfl, rfl⟩
  | @step u v w p hl _ ih =>
    right
    rcases ih with ⟨rfl, rfl⟩ | ⟨x, q, hq, hx, rfl⟩
    · exact ⟨u, [u], .here u, hl, rfl⟩
    · exact ⟨x, u :: q, .step hl hq, hx, rfl⟩

/-- A way does not leave a list that is closed under edges. -/
theorem mem_of_closed {l : List String} (h : g.Way u w p)
    (hclosed : ∀ x ∈ l, ∀ y, g.Linked x y → y ∈ l) (hu : u ∈ l) : w ∈ l := by
  induction h with
  | here => exact hu
  | step hl _ ih => exact ih (hclosed _ hu _ hl)

/-- A way visits a node that is on no cycle at most once. -/
theorem count_le_one (h : g.Way u w p) (hx : ∀ v q, g.Linked x v → ¬ g.Way v x q) :
    p.count x ≤ 1 := by
  induction h with
  | here u => exact List.count_le_length
  | @step u v w p hl hway ih =>
    by_cases heq : u = x
    · subst heq
      have hno : u ∉ p := by
        intro hmem
        obtain ⟨q, r, -, hq, -⟩ := hway.split hmem
        exact hx v _ hl hq
      rw [List.count_cons_self, List.count_eq_zero_of_not_mem hno]
    · rw [List.count_cons_of_ne heq]
      exact ih

theorem exists_nodup (h : g.Way u w p) :
    ∃ q, g.Way u w q ∧ q.Nodup ∧ q ⊆ p := by
  induction h with
  | here u => exact ⟨[u], .here u, List.nodup_singleton u, List.Subset.refl _⟩
  | @step u v w p hl _ ih =>
    obtain ⟨q, hq, hnodup, hsub⟩ := ih
    by_cases hu : u ∈ q
    · obtain ⟨r, s, rfl, -, hs⟩ := hq.split hu
      have htail : (u :: s).Sublist (r ++ u :: s) := List.sublist_append_right r (u :: s)
      refine ⟨u :: s, hs, htail.nodup hnodup, ?_⟩
      exact List.subset_cons_of_subset u (List.Subset.trans htail.subset hsub)
    · exact ⟨u :: q, .step hl hq, List.nodup_cons.2 ⟨hu, hnodup⟩, List.cons_subset_cons u hsub⟩

theorem contains_of_mem (hg : g.Consistent) (hu : g.contains u = true) (h : g.Way u w p) :
    ∀ x ∈ p, g.contains x = true := by
  induction h with
  | here u =>
    intro x hx
    rwa [List.mem_singleton.1 hx]
  | step hl _ ih =>
    intro x hx
    rcases List.mem_cons.1 hx with rfl | hx
    · exact hu
    · exact ih (hg.contains_of_linked hl).2 x hx

end Way

def WayOf (g : Graph α) (k : Nat) (u w : String) : Prop :=
  ∃ p, g.Way u w p ∧ p.length = k + 1

theorem wayOf_zero {g : Graph α} {u w : String} : g.WayOf 0 u w ↔ u = w := by
  constructor
  · rintro ⟨p, h, hlen⟩
    cases h with
    | here => rfl
    | step _ h =>
      obtain ⟨q, rfl⟩ := h.exists_eq_cons
      simp at hlen
  · rintro rfl
    exact ⟨[u], .here u, rfl⟩

theorem wayOf_succ {g : Graph α} {k : Nat} {u w : String} :
    g.WayOf (k + 1) u w ↔ ∃ v, g.Linked u v ∧ g.WayOf k v w := by
  constructor
  · rintro ⟨p, h, hlen⟩
    cases h with
    | here => simp at hlen
    | step hl h => exact ⟨_, hl, _, h, by simpa using hlen⟩
  · rintro ⟨v, hl, p, h, hlen⟩
    exact ⟨u :: p, .step hl h, by simp [hlen]⟩

section Levels

variable {g : Graph α} {near : Nat → String → Prop}

def FirstNear (near : Nat → String → Prop) (k : Nat) (u : String) : Prop :=
  near k u ∧ ∀ i < k, ¬ near i u

theorem FirstNear.unique {j k : Nat} {u : String} (hj : FirstNear near j u)
    (hk : FirstNear near k u) : j = k := by
  rcases Nat.lt_trichotomy j k with h | h | h
  · exact absurd hj.1 (hk.2 j h)
  · exact h
  · exact absurd hk.1 (hj.2 k h)

open Classical in
theorem exists_firstNear (near : Nat → String → Prop) {k : Nat} {u : String} (h : near k u) :
    ∃ j, j ≤ k ∧ FirstNear near j u := by
  have hex : ∃ j, near j u := ⟨k, h⟩
  exact ⟨Nat.find hex, Nat.find_min' hex h, Nat.find_spec hex, fun i hi => Nat.find_min hex hi⟩

/-- Where a search stands: the nodes of its level, and the nodes it has not met. -/
structure Frontier (g : Graph α) (near : Nat → String → Prop) (k : Nat) (level : List String)
    (pool : Pool) : Prop where
  mem_level : ∀ u, u ∈ level ↔ FirstNear near k u
  mem_pool : ∀ u, u ∈ pool ↔ g.contains u = true ∧ ∀ i ≤ k, ¬ near i u

variable (hnear : ∀ k u, near (k + 1) u ↔ ∃ v, g.Linked u v ∧ near k v)

include hnear in
theorem FirstNear.of_succ {k : Nat} {u : String} (h : FirstNear near (k + 1) u) :
    ∃ v, g.Linked u v ∧ FirstNear near k v := by
  obtain ⟨v, hl, hv⟩ := (hnear k u).1 h.1
  refine ⟨v, hl, hv, ?_⟩
  intro i hi hn
  exact h.2 (i + 1) (by omega) ((hnear i u).2 ⟨v, hl, hn⟩)

include hnear in
theorem Frontier.next (hg : g.Consistent) {k : Nat} {level : List String} {pool : Pool}
    (hf : Frontier g near k level pool) :
    Frontier g near (k + 1) (draw pool (level.flatMap g.predecessorIds)).1
      (draw pool (level.flatMap g.predecessorIds)).2 := by
  have hpred : ∀ u, u ∈ level.flatMap g.predecessorIds ↔
      ∃ v, g.Linked u v ∧ FirstNear near k v := by
    intro u
    simp only [List.mem_flatMap, hg.mem_predecessorIds, hf.mem_level]
    exact exists_congr fun v => and_comm
  constructor
  · intro u
    rw [mem_draw, hpred, hf.mem_pool]
    constructor
    · rintro ⟨⟨v, hl, hv⟩, -, hno⟩
      exact ⟨(hnear k u).2 ⟨v, hl, hv.1⟩, fun i hi => hno i (by omega)⟩
    · intro hu
      obtain ⟨v, hl, hv⟩ := FirstNear.of_succ hnear hu
      exact ⟨⟨v, hl, hv⟩, (hg.contains_of_linked hl).1, fun i hi => hu.2 i (by omega)⟩
  · intro u
    rw [mem_left, hpred, hf.mem_pool]
    constructor
    · rintro ⟨⟨hu, hno⟩, hlink⟩
      refine ⟨hu, fun i hi hn => ?_⟩
      rcases Nat.lt_or_ge k i with hk | hk
      · obtain rfl : i = k + 1 := by omega
        exact hlink (FirstNear.of_succ hnear ⟨hn, fun j hj => hno j (by omega)⟩)
      · exact hno i hk hn
    · rintro ⟨hu, hno⟩
      refine ⟨⟨hu, fun i hi => hno i (by omega)⟩, ?_⟩
      rintro ⟨v, hl, hv⟩
      exact hno (k + 1) (Nat.le_refl _) ((hnear k u).2 ⟨v, hl, hv.1⟩)

include hnear in
theorem not_firstNear_of_level {k : Nat} (hempty : ∀ u, ¬ FirstNear near k u) (j : Nat)
    (u : String) : ¬ FirstNear near (k + j) u := by
  induction j generalizing u with
  | zero => exact hempty u
  | succ j ih =>
    intro h
    obtain ⟨v, -, hv⟩ := FirstNear.of_succ hnear h
    exact ih v hv

theorem levels_eq (g : Graph α) (level : List String) (pool : Pool) :
    g.levels level pool = level ::
      match draw pool (level.flatMap g.predecessorIds) with
      | ([], _) => []
      | (id :: rest, left) => g.levels (id :: rest) left := by
  rw [levels]
  congr 1
  split <;> simp_all

include hnear in
theorem levelOf?_levels (hg : g.Consistent) {k : Nat} {level : List String} {pool : Pool}
    (hf : Frontier g near k level pool) (u : String) (j : Nat) :
    levelOf? (g.levels level pool) u = some j ↔ FirstNear near (k + j) u := by
  induction level, pool using levels.induct g generalizing k j with
  | case1 level pool ih =>
    have hnext := Frontier.next hnear hg hf
    -- the levels behind the first one are numbered from `k + 1` on
    have hrest : ∀ j, levelOf? (match draw pool (level.flatMap g.predecessorIds) with
        | ([], _) => []
        | (id :: rest, left) => g.levels (id :: rest) left) u = some j ↔
          FirstNear near (k + 1 + j) u := by
      intro j
      cases hdraw : draw pool (level.flatMap g.predecessorIds) with
      | mk found left =>
        rw [hdraw] at hnext
        cases found with
        | nil =>
          have hempty : ∀ v, ¬ FirstNear near (k + 1) v := by
            intro v hv
            exact List.not_mem_nil ((hnext.mem_level v).2 hv)
          have hno := not_firstNear_of_level hnear hempty j u
          simp [levelOf?, hno]
        | cons id rest => exact ih id rest left hdraw hnext j
    rw [levels_eq, levelOf?, List.findIdx?_cons]
    by_cases hu : u ∈ level
    · have hfirst := (hf.mem_level u).1 hu
      have hj : FirstNear near (k + j) u ↔ j = 0 := by
        constructor
        · intro h
          have := hfirst.unique h
          omega
        · rintro rfl
          exact hfirst
      simp [hu, hj, eq_comm]
    · have hfirst : ¬ FirstNear near k u := fun h => hu ((hf.mem_level u).2 h)
      cases j with
      | zero => simp [hu, hfirst]
      | succ j =>
        have := hrest j
        rw [levelOf?] at this
        simp only [List.contains_eq_mem, hu, decide_false, Bool.false_eq_true, if_false,
          Option.map_eq_some_iff, Nat.add_right_cancel_iff, exists_eq_right]
        rw [show k + (j + 1) = k + 1 + j by omega]
        simpa only [List.contains_eq_mem] using this

end Levels

section Answers

variable {g : Graph α}

theorem frontier_levelsTo (target : String) :
    Frontier g (fun k u => g.WayOf k u target) 0 [target] (g.index.erase target) where
  mem_level u := by
    rw [List.mem_singleton, FirstNear, wayOf_zero]
    exact ⟨fun h => ⟨h, fun i hi => absurd hi (Nat.not_lt_zero i)⟩, fun h => h.1⟩
  mem_pool u := by
    rw [Std.HashMap.mem_erase, ← Std.HashMap.contains_iff_mem, ← contains]
    constructor
    · rintro ⟨hne, hu⟩
      refine ⟨hu, fun i hi => ?_⟩
      obtain rfl := Nat.le_zero.1 hi
      rw [wayOf_zero]
      rintro rfl
      simp at hne
    · rintro ⟨hu, hno⟩
      have hne := hno 0 (Nat.le_refl 0)
      rw [wayOf_zero] at hne
      exact ⟨by simpa using Ne.symm hne, hu⟩

/-- The level of a node in the search to a target is the length of a shortest way. -/
theorem levelOf?_levelsTo (hg : g.Consistent) (u target : String) (k : Nat) :
    levelOf? (g.levelsTo target) u = some k ↔
      g.WayOf k u target ∧ ∀ i < k, ¬ g.WayOf i u target := by
  have h := levelOf?_levels (fun _ _ => wayOf_succ) hg (frontier_levelsTo target) u k
  rwa [Nat.zero_add] at h

end Answers

section Queue

variable {g : Graph α} {target : String} {pool : Pool} {waiting : List String}

/-- The nodes whose edges were followed are those of the graph that are not in the pool. None of
them is the target, and the nodes behind them that are in the pool wait in the queue. -/
structure Followed (g : Graph α) (target : String) (pool : Pool) (waiting : List String) :
    Prop where
  contains : ∀ u ∈ waiting, g.contains u = true
  ne_target : ∀ u, g.contains u = true → u ∉ pool → u ≠ target
  mem_waiting : ∀ u v, u ∉ pool → g.Linked u v → v ∈ pool → v ∈ waiting

/-- A way from a node whose edges were followed to the target visits a node of the pool that
waits in the queue. -/
theorem Followed.exists_waiting (hg : g.Consistent) (h : Followed g target pool waiting)
    {u : String} {p : List String} (hp : g.Way u target p) (hu : g.contains u = true)
    (hout : u ∉ pool) : ∃ v ∈ waiting, v ∈ pool ∧ ∃ q, g.Way v target q := by
  induction hp with
  | here u => exact absurd rfl (h.ne_target u hu hout)
  | @step u v w p hl hway ih =>
    by_cases hv : v ∈ pool
    · exact ⟨v, h.mem_waiting u v hout hl hv, hv, p, hway⟩
    · exact ih h (hg.contains_of_linked hl).2 hv

theorem Followed.follow (hg : g.Consistent) {id : String}
    (h : Followed g target pool (id :: waiting)) (hne : id ≠ target) :
    Followed g target (pool.erase id) (waiting ++ g.successorIds id) where
  contains u hu := by
    rcases List.mem_append.1 hu with hu | hu
    · exact h.contains u (List.mem_cons_of_mem id hu)
    · exact (hg.contains_of_linked (hg.mem_successorIds.1 hu)).2
  ne_target u hu hout := by
    by_cases heq : u = id
    · rwa [heq]
    · apply h.ne_target u hu
      intro hin
      exact hout (Std.HashMap.mem_erase.2 ⟨by simpa using Ne.symm heq, hin⟩)
  mem_waiting u v hout hl hv := by
    obtain ⟨hne, hv⟩ := Std.HashMap.mem_erase.1 hv
    by_cases heq : u = id
    · subst heq
      exact List.mem_append_right _ (hg.mem_successorIds.2 hl)
    · have hu : u ∉ pool := fun hin =>
        hout (Std.HashMap.mem_erase.2 ⟨by simpa using Ne.symm heq, hin⟩)
      refine List.mem_append_left _ ((List.mem_cons.1 (h.mem_waiting u v hu hl hv)).resolve_left ?_)
      rintro rfl
      simp at hne

theorem Followed.skip {id : String} (h : Followed g target pool (id :: waiting))
    (hid : id ∉ pool) : Followed g target pool waiting where
  contains u hu := h.contains u (List.mem_cons_of_mem id hu)
  ne_target := h.ne_target
  mem_waiting u v hout hl hv := by
    refine (List.mem_cons.1 (h.mem_waiting u v hout hl hv)).resolve_left ?_
    rintro rfl
    exact hid hv

theorem drop_toList {queue : Array String} {k : Nat} (hk : k < queue.size) :
    queue.toList.drop k = queue[k] :: queue.toList.drop (k + 1) := by
  rw [List.drop_eq_getElem_cons (by simpa using hk), Array.getElem_toList]

/-- The target is found exactly if a way leads to it from a node that waits in the queue. -/
theorem lookFor_iff (hg : g.Consistent) {queue : Array String} {k : Nat}
    (h : Followed g target pool (queue.toList.drop k)) :
    g.lookFor target queue k pool = true ↔
      ∃ v ∈ queue.toList.drop k, ∃ p, g.Way v target p := by
  induction queue, k, pool using lookFor.induct g target with
  | case1 queue k pool hk htarget =>
    rw [lookFor, dif_pos hk, if_pos htarget, drop_toList hk]
    exact ⟨fun _ => ⟨target, by simp [htarget], [target], .here target⟩, fun _ => rfl⟩
  | case2 queue k pool hk hne hmem ih =>
    have hdrop : (queue ++ g.successorIds queue[k]).toList.drop (k + 1) =
        queue.toList.drop (k + 1) ++ g.successorIds queue[k] := by
      have hle : k + 1 ≤ queue.toList.length := by simpa using Nat.succ_le_of_lt hk
      rw [Array.toList_appendList, List.drop_append_of_le_length hle]
    rw [drop_toList hk] at h
    rw [lookFor, dif_pos hk, if_neg hne, if_pos hmem, ih (hdrop ▸ h.follow hg hne), hdrop,
      drop_toList hk]
    constructor
    · rintro ⟨v, hv, p, hp⟩
      rcases List.mem_append.1 hv with hv | hv
      · exact ⟨v, List.mem_cons_of_mem _ hv, p, hp⟩
      · exact ⟨_, List.mem_cons_self, _, .step (hg.mem_successorIds.1 hv) hp⟩
    · rintro ⟨v, hv, p, hp⟩
      rcases List.mem_cons.1 hv with rfl | hv
      · cases hp with
        | here => exact absurd rfl hne
        | step hl hp =>
          exact ⟨_, List.mem_append_right _ (hg.mem_successorIds.2 hl), _, hp⟩
      · exact ⟨v, List.mem_append_left _ hv, p, hp⟩
  | case3 queue k pool hk hne hmem ih =>
    rw [drop_toList hk] at h
    rw [lookFor, dif_pos hk, if_neg hne, if_neg hmem, ih (h.skip hmem), drop_toList hk]
    constructor
    · rintro ⟨v, hv, hway⟩
      exact ⟨v, List.mem_cons_of_mem _ hv, hway⟩
    · rintro ⟨v, hv, p, hp⟩
      rcases List.mem_cons.1 hv with rfl | hv
      · have hcontains := h.contains _ List.mem_cons_self
        obtain ⟨w, hw, hin, hway⟩ := h.exists_waiting hg hp hcontains hmem
        exact ⟨w, (List.mem_cons.1 hw).resolve_left fun heq => hmem (heq ▸ hin), hway⟩
      · exact ⟨v, hv, p, hp⟩
  | case4 queue k pool hk =>
    have hnil : queue.toList.drop k = [] := List.drop_eq_nil_of_le (by simpa using hk)
    rw [lookFor, dif_neg hk, hnil]
    simp

theorem reaches_iff (hg : g.Consistent) (source target : String) :
    g.reaches source target = true ↔ ∃ k, g.WayOf (k + 1) source target := by
  have hindex : ∀ u, g.contains u = true → u ∈ g.index := by
    intro u hu
    exact Std.HashMap.mem_iff_contains.2 hu
  have hstart : Followed g target g.index ((g.successorIds source).toArray.toList.drop 0) := by
    constructor
    · intro u hu
      exact (hg.contains_of_linked (hg.mem_successorIds.1 hu)).2
    · intro u hu hout
      exact absurd (hindex u hu) hout
    · intro u v hout hl
      exact absurd (hindex u (hg.contains_of_linked hl).1) hout
  rw [reaches, lookFor_iff hg hstart]
  simp only [List.drop_zero, hg.mem_successorIds, wayOf_succ]
  constructor
  · rintro ⟨v, hl, p, hp⟩
    obtain ⟨q, rfl⟩ := hp.exists_eq_cons
    exact ⟨q.length, v, hl, _, hp, rfl⟩
  · rintro ⟨k, v, hl, p, hp, -⟩
    exact ⟨v, hl, p, hp⟩

end Queue

end CartFlow.Graph
