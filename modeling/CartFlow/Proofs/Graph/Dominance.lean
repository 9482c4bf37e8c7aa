import CartFlow.Graph.Dominators
import CartFlow.Proofs.Graph.Ways

/-!
# Dominance on ways and the iterated sets

A node dominates another if it is on every way from the entry to it. The iteration keeps two
facts about its sets: a dominator is never struck from a set, and no set is smaller than what
its predecessors have in common. When a pass changes nothing, every member of a set is a
dominator, by following a way from the entry edge by edge, so the sets are then exactly the
sets of dominators. A node that no way leads to keeps the full set.
-/
namespace CartFlow.Graph

variable {α : Type}

def OnEveryWay (g : Graph α) (entry a b : String) : Prop :=
  ∀ p, g.Way entry b p → a ∈ p

namespace OnEveryWay

variable {g : Graph α} {entry a b c d : String}

theorem refl (g : Graph α) (entry b : String) : g.OnEveryWay entry b b :=
  fun _ h => h.target_mem

theorem entry_left (g : Graph α) (entry b : String) : g.OnEveryWay entry entry b :=
  fun _ h => h.source_mem

theorem eq_entry (h : g.OnEveryWay entry a entry) : a = entry :=
  List.mem_singleton.1 (h [entry] (.here entry))

theorem trans (hab : g.OnEveryWay entry a b) (hbc : g.OnEveryWay entry b c) :
    g.OnEveryWay entry a c := by
  intro p hp
  obtain ⟨q, r, rfl, hq, -⟩ := hp.split (hbc p hp)
  have ha := hab _ hq
  simp only [List.mem_append, List.mem_cons, List.not_mem_nil, or_false] at ha ⊢
  exact ha.imp_right .inl

theorem of_linked (h : g.OnEveryWay entry a b) (hne : a ≠ b) (hl : g.Linked c b) :
    g.OnEveryWay entry a c := by
  intro p hp
  have ha := h _ (hp.snoc hl)
  simpa [hne] using ha

/-- Of two dominators of a node, the one that is no further away is dominated by the other. -/
theorem of_closest (ha : g.OnEveryWay entry a b) (hd : ∃ k, g.WayOf k d b)
    (hclose : ∀ k, g.WayOf k a b → ∃ j ≤ k, g.WayOf j d b) : g.OnEveryWay entry a d := by
  intro p hp
  by_contra hap
  obtain ⟨k, hk⟩ := hd
  obtain ⟨k, -, ⟨q, hq, hlen⟩, hmin⟩ := exists_firstNear (fun k u => g.WayOf k u b) hk
  obtain ⟨q, rfl⟩ := hq.exists_eq_cons
  have haq : a ∈ q := (List.mem_append.1 (ha _ (hp.append hq))).resolve_left hap
  -- the rest of the shortest way from `d`, from `a` on, is shorter than the whole
  obtain ⟨r, t, hsplit, -, ht⟩ := hq.split (List.mem_cons_of_mem d haq)
  have hr : r ≠ [] := by
    rintro rfl
    rw [List.nil_append, List.cons.injEq] at hsplit
    exact hap (hsplit.1 ▸ hp.target_mem)
  have hlong : t.length < k := by
    have hlengths := congrArg List.length hsplit
    have hpos := List.length_pos_iff.2 hr
    simp only [List.length_append, List.length_cons] at hlengths hlen
    omega
  obtain ⟨j, hj, hway⟩ := hclose t.length ⟨_, ht, by simp⟩
  exact hmin j (by omega) hway

end OnEveryWay

structure Frame.Fits (f : Frame) (g : Graph α) (entry : String) : Prop where
  size_pos : 0 < f.size
  id_zero : f.id 0 = entry
  id_inj : ∀ {i j}, i < f.size → j < f.size → f.id i = f.id j → i = j
  contains_iff : ∀ id, g.contains id = true ↔ ∃ i < f.size, f.id i = id
  mem_predecessorsOf : ∀ {i}, i < f.size → ∀ q,
    q ∈ f.predecessorsOf i ↔ q < f.size ∧ g.Linked (f.id q) (f.id i)

namespace Frame

theorem mem_inner {f : Frame} {i : Nat} : i ∈ f.inner ↔ 0 < i ∧ i < f.size := by
  rw [inner, List.mem_range'_1]
  omega

theorem id_eq_getElem {f : Frame} {i : Nat} (hi : i < f.size) : f.id i = f.ids[i] := by
  rw [id, Array.getD_eq_getD_getElem?, Array.getElem?_eq_getElem hi]
  rfl

theorem getD_ofList_zipIdx {ids : List String} (hnodup : ids.Nodup) {i : Nat}
    (hi : i < ids.length) (fallback : Nat) :
    (Std.HashMap.ofList ids.zipIdx).getD ids[i] fallback = i := by
  apply Std.HashMap.getD_ofList_of_mem (k := ids[i]) (BEq.rfl)
  · have hkeys : (ids.zipIdx.map (·.1)).Nodup := by simpa using hnodup
    rw [List.nodup_iff_pairwise_ne, List.pairwise_map] at hkeys
    exact hkeys.imp fun h => by simpa using h
  · rw [List.mk_mem_zipIdx_iff_getElem?, List.getElem?_eq_getElem hi]

theorem fits_ofGraph {g : Graph α} (hg : g.Consistent) {entry : String}
    (hentry : g.contains entry = true) : (ofGraph g entry).Fits g entry := by
  let ids := entry :: g.sortedIds.filter (· != entry)
  have hmem : ∀ id, id ∈ ids ↔ g.contains id = true := by
    intro id
    rw [List.mem_cons, List.mem_filter, sortedIds, List.mem_mergeSort, hg.mem_ids]
    by_cases hid : id = entry
    · simp [hid, hentry]
    · simp [hid]
  have hnodup : ids.Nodup := by
    rw [List.nodup_cons]
    refine ⟨by simp, List.Nodup.filter _ ?_⟩
    exact (List.mergeSort_perm _ _).nodup_iff.2 hg.nodup_ids
  have hsize : (ofGraph g entry).size = ids.length := rfl
  have hget : ∀ {i} (hi : i < ids.length), (ofGraph g entry).id i = ids[i] := by
    intro i hi
    rw [id_eq_getElem (by rwa [hsize])]
    rfl
  constructor
  · simp [hsize, ids]
  · exact hget (by simp [ids])
  · intro i j hi hj heq
    rw [hget hi, hget hj] at heq
    exact (hnodup.getElem_inj_iff).1 heq
  · intro id
    rw [← hmem, List.mem_iff_getElem]
    constructor
    · rintro ⟨i, hi, rfl⟩
      exact ⟨i, hi, hget hi⟩
    · rintro ⟨i, hi, rfl⟩
      exact ⟨i, hi, (hget hi).symm⟩
  · intro i hi q
    have hpreds : (ofGraph g entry).predecessorsOf i = (g.predecessorIds ids[i]).map fun p =>
        (Std.HashMap.ofList ids.zipIdx).getD p ids.length := by
      rw [predecessorsOf, Array.getD_eq_getD_getElem?]
      simp only [ofGraph, Array.getElem?_map]
      have hlook : ids.toArray[i]? = some ids[i] :=
        List.getElem?_toArray.trans (List.getElem?_eq_getElem hi)
      rw [hlook]
      rfl
    rw [hpreds, List.mem_map, hget hi]
    constructor
    · rintro ⟨p, hp, rfl⟩
      have hl := hg.mem_predecessorIds.1 hp
      obtain ⟨k, hk, rfl⟩ := List.mem_iff_getElem.1 ((hmem p).2 (hg.contains_of_linked hl).1)
      rw [getD_ofList_zipIdx hnodup hk]
      exact ⟨hk, (hget hk).symm ▸ hl⟩
    · rintro ⟨hq, hl⟩
      rw [hget hq] at hl
      exact ⟨ids[q], hg.mem_predecessorIds.2 hl, getD_ofList_zipIdx hnodup hq _⟩

end Frame

section Sets

variable {f : Frame} {sets : Array NodeSet}

theorem ext_setAt {sets other : Array NodeSet} (hsize : sets.size = other.size)
    (h : ∀ k, setAt sets k = setAt other k) : sets = other := by
  apply Array.ext hsize
  intro k hk hk'
  simpa [setAt, Array.getD, hk, hk'] using h k

theorem setAt_refine (f : Frame) (sets : Array NodeSet) (i k : Nat) :
    setAt (refine f sets i) k =
      if i = k then (setAt sets k).inter ((common sets (f.predecessorsOf i)).insert i)
      else setAt sets k := by
  simp only [setAt, refine, Array.getD_eq_getD_getElem?, Array.getElem?_modify]
  split
  · cases sets[k]? with
    | some s => rfl
    | none => exact NodeSet.ext fun j => by simp
  · rfl

theorem mem_common {preds : List Nat} (hne : preds ≠ []) {a : Nat} :
    a ∈ common sets preds ↔ ∀ q ∈ preds, a ∈ setAt sets q := by
  have hfold : ∀ (rest : List Nat) (s : NodeSet),
      a ∈ rest.foldl (fun s q => s.inter (setAt sets q)) s ↔
        a ∈ s ∧ ∀ q ∈ rest, a ∈ setAt sets q := by
    intro rest
    induction rest with
    | nil => simp
    | cons q rest ih =>
      intro s
      rw [List.foldl_cons, ih, NodeSet.mem_inter, List.forall_mem_cons, and_assoc]
  cases preds with
  | nil => exact absurd rfl hne
  | cons p rest => rw [common, hfold, List.forall_mem_cons]

/-- What every pass keeps: the entry has only itself, dominators stay members, and no set is
smaller than what the sets of the predecessors have in common. -/
structure Bounded (g : Graph α) (entry : String) (f : Frame) (sets : Array NodeSet) : Prop where
  size_eq : sets.size = f.size
  mem_zero : ∀ {j}, j ∈ setAt sets 0 ↔ j = 0
  lt_size : ∀ {i j}, j ∈ setAt sets i → j < f.size
  mem_of_onEveryWay : ∀ {i j}, i < f.size → j < f.size →
    g.OnEveryWay entry (f.id j) (f.id i) → j ∈ setAt sets i
  mem_of_common : ∀ {i j}, i ∈ f.inner → j ∈ (common sets (f.predecessorsOf i)).insert i →
    j ∈ setAt sets i

variable {g : Graph α} {entry : String}

theorem setAt_start (f : Frame) {i : Nat} (hi : i < f.size) :
    setAt f.start i = if i = 0 then .single 0 else .below f.size := by
  simp [setAt, Frame.start, hi]

theorem bounded_start (hf : f.Fits g entry) (hpreds : ∀ i ∈ f.inner, f.predecessorsOf i ≠ []) :
    Bounded g entry f f.start := by
  have hlt : ∀ {i j}, j ∈ setAt f.start i → j < f.size := by
    intro i j hj
    by_cases hi : i < f.size
    · rw [setAt_start f hi] at hj
      split at hj
      · exact NodeSet.mem_single.1 hj ▸ hf.size_pos
      · exact NodeSet.mem_below.1 hj
    · simp [setAt, Frame.start, hi] at hj
  refine ⟨by simp [Frame.start], ?_, hlt, ?_, ?_⟩
  · intro j
    rw [setAt_start f hf.size_pos, if_pos rfl, NodeSet.mem_single, eq_comm]
  · intro i j hi hj hway
    rw [setAt_start f hi]
    split
    · next hzero =>
      subst hzero
      rw [hf.id_zero] at hway
      have hjz : f.id j = f.id 0 := by rw [hf.id_zero, hway.eq_entry]
      exact NodeSet.mem_single.2 (hf.id_inj hj hf.size_pos hjz).symm
    · exact NodeSet.mem_below.2 hj
  · intro i j hi hj
    have hbounds := Frame.mem_inner.1 hi
    rw [setAt_start f hbounds.2, if_neg (by omega), NodeSet.mem_below]
    rcases NodeSet.mem_insert.1 hj with hj | rfl
    · obtain ⟨q, hq⟩ := List.exists_mem_of_ne_nil _ (hpreds i hi)
      exact hlt ((mem_common (hpreds i hi)).1 hj q hq)
    · exact hbounds.2

theorem Bounded.refine (hf : f.Fits g entry) (hpreds : ∀ i ∈ f.inner, f.predecessorsOf i ≠ [])
    (h : Bounded g entry f sets) {i : Nat} (hi : i ∈ f.inner) :
    Bounded g entry f (refine f sets i) := by
  have hbounds := Frame.mem_inner.1 hi
  have hsmaller : ∀ {k j}, j ∈ setAt (Graph.refine f sets i) k → j ∈ setAt sets k := by
    intro k j hj
    rw [setAt_refine] at hj
    split at hj
    · exact (NodeSet.mem_inter.1 hj).1
    · exact hj
  refine ⟨by rw [size_refine, h.size_eq], ?_, fun hj => h.lt_size (hsmaller hj), ?_, ?_⟩
  · intro j
    rw [setAt_refine, if_neg (by omega)]
    exact h.mem_zero
  · intro k j hk hj hway
    have hold := h.mem_of_onEveryWay hk hj hway
    rw [setAt_refine]
    split
    · next heq =>
      subst heq
      rw [NodeSet.mem_inter, NodeSet.mem_insert]
      refine ⟨hold, ?_⟩
      by_cases hij : i = j
      · exact .inr hij
      · left
        rw [mem_common (hpreds i hi)]
        intro q hq
        obtain ⟨hq, hl⟩ := (hf.mem_predecessorsOf hk q).1 hq
        have hne : f.id j ≠ f.id i := fun heq => hij (hf.id_inj hj hk heq).symm
        exact h.mem_of_onEveryWay hq hj (hway.of_linked hne hl)
    · exact hold
  · intro k j hk hj
    have hold : j ∈ (common sets (f.predecessorsOf k)).insert k := by
      rcases NodeSet.mem_insert.1 hj with hj | rfl
      · refine NodeSet.mem_insert.2 (.inl ((mem_common (hpreds k hk)).2 fun q hq => ?_))
        exact hsmaller ((mem_common (hpreds k hk)).1 hj q hq)
      · exact NodeSet.mem_insert.2 (.inr rfl)
    rw [setAt_refine]
    split
    · next heq =>
      subst heq
      exact NodeSet.mem_inter.2 ⟨h.mem_of_common hk hold, hold⟩
    · exact h.mem_of_common hk hold

/-- Taking the new set inside the old one is the same as replacing the old one. -/
theorem Bounded.setAt_refine_self (h : Bounded g entry f sets) {i : Nat} (hi : i ∈ f.inner) :
    setAt (Graph.refine f sets i) i = (common sets (f.predecessorsOf i)).insert i := by
  rw [setAt_refine, if_pos rfl]
  refine NodeSet.ext fun j => ?_
  rw [NodeSet.mem_inter]
  exact ⟨fun hj => hj.2, fun hj => ⟨h.mem_of_common hi hj, hj⟩⟩

theorem Bounded.pass (hf : f.Fits g entry) (hpreds : ∀ i ∈ f.inner, f.predecessorsOf i ≠ [])
    (h : Bounded g entry f sets) : Bounded g entry f (pass f sets) := by
  have hfold : ∀ (is : List Nat) (sets : Array NodeSet), (∀ i ∈ is, i ∈ f.inner) →
      Bounded g entry f sets → Bounded g entry f (is.foldl (Graph.refine f) sets) := by
    intro is
    induction is with
    | nil => exact fun _ _ h => h
    | cons i is ih =>
      intro sets his h
      exact ih _ (fun k hk => his k (List.mem_cons_of_mem i hk))
        (h.refine hf hpreds (his i List.mem_cons_self))
  exact hfold f.inner sets (fun _ hi => hi) h

theorem foldl_refine_fixed {is : List Nat} (h : is.foldl (refine f) sets = sets) :
    ∀ i ∈ is, refine f sets i = sets := by
  induction is with
  | nil => simp
  | cons i is ih =>
    rw [List.foldl_cons] at h
    -- the sets shrink along the pass and end where they began, so no step changed them
    have hsame : refine f sets i = sets := by
      apply ext_setAt (size_refine f sets i)
      intro k
      have hfirst := bits_refine_le f sets i k
      have hrest := bits_foldl_refine_le f is (refine f sets i) k
      rw [h] at hrest
      exact congrArg NodeSet.mk (Nat.le_antisymm hfirst hrest)
    rw [hsame] at h
    rw [List.forall_mem_cons]
    exact ⟨hsame, ih h⟩

theorem Bounded.onEveryWay_of_mem (hg : g.Consistent) (hf : f.Fits g entry)
    (hpreds : ∀ i ∈ f.inner, f.predecessorsOf i ≠ []) (h : Bounded g entry f sets)
    (hfixed : Graph.pass f sets = sets) {i j : Nat} (hi : i < f.size) (hj : j ∈ setAt sets i) :
    g.OnEveryWay entry (f.id j) (f.id i) := by
  intro p hp
  generalize hlen : p.length = n
  induction n using Nat.strongRecOn generalizing p i with
  | ind n ih =>
    rcases Nat.eq_zero_or_pos i with rfl | hpos
    · rw [h.mem_zero.1 hj, hf.id_zero]
      exact hp.source_mem
    · have hinner : i ∈ f.inner := Frame.mem_inner.2 ⟨hpos, hi⟩
      have hset := h.setAt_refine_self hinner
      rw [foldl_refine_fixed hfixed i hinner] at hset
      rw [hset, NodeSet.mem_insert, mem_common (hpreds i hinner)] at hj
      rcases hj with hj | rfl
      · rcases hp.eq_or_snoc with ⟨heq, -⟩ | ⟨v, q, hq, hl, rfl⟩
        · rw [← hf.id_zero] at heq
          exact absurd (hf.id_inj hf.size_pos hi heq) (by omega)
        · obtain ⟨k, hk, rfl⟩ := (hf.contains_iff v).1 (hg.contains_of_linked hl).1
          have hpred : k ∈ f.predecessorsOf i := (hf.mem_predecessorsOf hi k).2 ⟨hk, hl⟩
          have hshort : q.length < n := by
            rw [← hlen, List.length_append, List.length_singleton]
            omega
          exact List.mem_append_left _ (ih q.length hshort hk (hj k hpred) q hq rfl)
      · exact hp.target_mem

theorem outcome_stabilize (f : Frame) (limit : Int) (passes : Nat) (sets : Array NodeSet)
    (log : Array Record) :
    (stabilize f limit passes sets log).outcome =
      if pass f sets = sets then .ok sets
      else if 0 < limit ∧ limit ≤ (passes + 1 : Nat) then fail (.passLimit limit)
      else (stabilize f limit (passes + 1) (pass f sets)
        (refineAll f f.inner sets log).2).outcome := by
  have hpass : (refineAll f f.inner sets log).1 = pass f sets := refineAll_fst f f.inner sets log
  rw [stabilize]
  simp only [hpass]
  split
  · rfl
  · split <;> rfl

theorem stabilize_eq_ok {limit : Int} {passes : Nat} {log : Array Record}
    {result : Array NodeSet} {P : Array NodeSet → Prop} (hstep : ∀ sets, P sets → P (pass f sets))
    (hsets : P sets) (hok : (stabilize f limit passes sets log).outcome = .ok result) :
    P result ∧ pass f result = result := by
  induction hw : weight sets using Nat.strongRecOn generalizing sets passes log with
  | ind w ih =>
    rw [outcome_stabilize] at hok
    split at hok
    · next hsame =>
      cases hok
      exact ⟨hsets, hsame⟩
    · next hchange =>
      split at hok
      · cases hok
      · exact ih _ (hw ▸ weight_pass_lt hchange) (hstep _ hsets) hok rfl

theorem stabilize_cases (limit : Int) (passes : Nat) (sets : Array NodeSet)
    (log : Array Record) :
    (∃ result, (stabilize f limit passes sets log).outcome = .ok result) ∨
      0 < limit ∧ (stabilize f limit passes sets log).outcome = fail (.passLimit limit) := by
  induction hw : weight sets using Nat.strongRecOn generalizing sets passes log with
  | ind w ih =>
    rw [outcome_stabilize]
    split
    · exact .inl ⟨sets, rfl⟩
    · next hchange =>
      split
      · next hlimit => exact .inr ⟨hlimit.1, rfl⟩
      · exact ih _ (hw ▸ weight_pass_lt hchange) _ _ _ rfl

theorem dominatorSets_eq {limit : Int} (hpreds : ∀ i ∈ f.inner, f.predecessorsOf i ≠ []) :
    dominatorSets f limit = stabilize f limit 0 f.start #[] := by
  have hnone : (f.inner.find? fun i => (f.predecessorsOf i).isEmpty) = none := by
    rw [List.find?_eq_none]
    intro i hi
    simpa using hpreds i hi
  rw [dominatorSets, hnone]

theorem predecessorsOf_ne_nil {limit : Int} {result : Array NodeSet}
    (hok : (dominatorSets f limit).outcome = .ok result) :
    ∀ i ∈ f.inner, f.predecessorsOf i ≠ [] := by
  unfold dominatorSets at hok
  split at hok
  · cases hok
  · next hnone =>
    intro i hi
    simpa using List.find?_eq_none.1 hnone i hi

/-- The sets that the iteration ends with are exactly the dominators on ways. -/
theorem mem_dominatorSets (hg : g.Consistent) (hf : f.Fits g entry) {limit : Int}
    {result : Array NodeSet} (hok : (dominatorSets f limit).outcome = .ok result) {i j : Nat}
    (hi : i < f.size) :
    j ∈ setAt result i ↔ j < f.size ∧ g.OnEveryWay entry (f.id j) (f.id i) := by
  have hpreds := predecessorsOf_ne_nil hok
  rw [dominatorSets_eq hpreds] at hok
  obtain ⟨hbounded, hfixed⟩ := stabilize_eq_ok (P := Bounded g entry f)
    (fun _ h => h.pass hf hpreds) (bounded_start hf hpreds) hok
  constructor
  · intro hj
    exact ⟨hbounded.lt_size hj, hbounded.onEveryWay_of_mem hg hf hpreds hfixed hi hj⟩
  · rintro ⟨hj, hway⟩
    exact hbounded.mem_of_onEveryWay hi hj hway

end Sets

end CartFlow.Graph
