import CartFlow.Proofs.Graph.DominatorTree
import Mathlib.Data.List.Perm.Subperm

/-!
# How many passes the dominators need

Behind `k` passes a member of a set is on every way of at most `k` edges to its node, whatever the
order in which a pass takes the nodes: a set that was replaced earlier in the same pass is only
smaller than it was before the pass. A way can be cut down to one that repeats no node, which has
fewer edges than the graph has nodes. So fewer passes than there are nodes change anything, and a
limit of at least that number is never reached.
-/
namespace CartFlow.Graph

variable {α : Type}

def setsAfter (f : Frame) : Nat → Array NodeSet
  | 0 => f.start
  | k + 1 => pass f (setsAfter f k)

/-- The members of the sets are on all ways of at most `k` edges. -/
def Covers (g : Graph α) (entry : String) (f : Frame) (k : Nat) (sets : Array NodeSet) : Prop :=
  ∀ i j p, i < f.size → j ∈ setAt sets i → g.Way entry (f.id i) p → p.length ≤ k + 1 → f.id j ∈ p

section Passes

variable {g : Graph α} {entry : String} {f : Frame} {sets : Array NodeSet} {i j k : Nat}

theorem mem_of_mem_refine (h : j ∈ setAt (refine f sets i) k) : j ∈ setAt sets k := by
  rw [setAt_refine] at h
  split at h
  · exact (NodeSet.mem_inter.1 h).1
  · exact h

theorem mem_of_mem_foldl_refine {is : List Nat} (h : j ∈ setAt (is.foldl (refine f) sets) k) :
    j ∈ setAt sets k := by
  induction is generalizing sets with
  | nil => exact h
  | cons i is ih => exact mem_of_mem_refine (ih h)

/-- What is left in the set of a node that was taken was in the sets of all its predecessors at the
beginning. -/
theorem mem_predecessors_of_mem_foldl_refine {is : List Nat} (hi : i ∈ is)
    (hpreds : f.predecessorsOf i ≠ []) (hj : j ∈ setAt (is.foldl (refine f) sets) i) :
    j = i ∨ ∀ q ∈ f.predecessorsOf i, j ∈ setAt sets q := by
  induction is generalizing sets with
  | nil => exact absurd hi List.not_mem_nil
  | cons first is ih =>
    rcases List.mem_cons.1 hi with rfl | hi
    · have hnew : j ∈ setAt (refine f sets i) i := mem_of_mem_foldl_refine hj
      rw [setAt_refine, if_pos rfl, NodeSet.mem_inter, NodeSet.mem_insert,
        mem_common hpreds] at hnew
      exact hnew.2.symm.imp_left Eq.symm
    · exact (ih hi hj).imp_right fun h q hq => mem_of_mem_refine (h q hq)

theorem Covers.pass (hg : g.Consistent) (hf : f.Fits g entry)
    (hpreds : ∀ i ∈ f.inner, f.predecessorsOf i ≠ []) (hbounded : Bounded g entry f sets)
    (h : Covers g entry f k sets) : Covers g entry f (k + 1) (pass f sets) := by
  intro i j p hi hj hp hlen
  rcases Nat.eq_zero_or_pos i with rfl | hpos
  · rw [(hbounded.pass hf hpreds).mem_zero.1 hj, hf.id_zero]
    exact hp.source_mem
  have hinner : i ∈ f.inner := Frame.mem_inner.2 ⟨hpos, hi⟩
  rcases mem_predecessors_of_mem_foldl_refine hinner (hpreds i hinner) hj with rfl | hj
  · exact hp.target_mem
  rcases hp.eq_or_snoc with ⟨heq, -⟩ | ⟨v, q, hq, hl, rfl⟩
  · rw [← hf.id_zero] at heq
    exact absurd (hf.id_inj hf.size_pos hi heq) (Nat.ne_of_lt hpos)
  · -- the way without its last edge leads to a predecessor
    obtain ⟨m, hm, rfl⟩ := (hf.contains_iff v).1 (hg.contains_of_linked hl).1
    have hpred : m ∈ f.predecessorsOf i := (hf.mem_predecessorsOf hi m).2 ⟨hm, hl⟩
    rw [List.length_append, List.length_singleton] at hlen
    exact List.mem_append_left _ (h m j q hm (hj m hpred) hq (by omega))

theorem covers_start (hf : f.Fits g entry) : Covers g entry f 0 f.start := by
  intro i j p hi hj hp hlen
  cases hp with
  | here =>
    have hzero : i = 0 := hf.id_inj hi hf.size_pos (by rw [hf.id_zero])
    rw [hzero, setAt_start f hf.size_pos, if_pos rfl, NodeSet.mem_single] at hj
    rw [hzero, ← hj]
    exact List.mem_singleton_self _
  | step _ hp =>
    obtain ⟨q, rfl⟩ := hp.exists_eq_cons
    simp at hlen

theorem bounded_setsAfter (hf : f.Fits g entry)
    (hpreds : ∀ i ∈ f.inner, f.predecessorsOf i ≠ []) (k : Nat) :
    Bounded g entry f (setsAfter f k) := by
  induction k with
  | zero => exact bounded_start hf hpreds
  | succ k ih => exact ih.pass hf hpreds

theorem covers_setsAfter (hg : g.Consistent) (hf : f.Fits g entry)
    (hpreds : ∀ i ∈ f.inner, f.predecessorsOf i ≠ []) (k : Nat) :
    Covers g entry f k (setsAfter f k) := by
  induction k with
  | zero => exact covers_start hf
  | succ k ih => exact ih.pass hg hf hpreds (bounded_setsAfter hf hpreds k)

theorem mem_setsAfter (hg : g.Consistent) (hf : f.Fits g entry)
    (hpreds : ∀ i ∈ f.inner, f.predecessorsOf i ≠ []) (hk : g.size ≤ k + 1) (hi : i < f.size) :
    j ∈ setAt (setsAfter f k) i ↔ j < f.size ∧ g.OnEveryWay entry (f.id j) (f.id i) := by
  have hbounded := bounded_setsAfter hf hpreds k
  constructor
  · intro hj
    refine ⟨hbounded.lt_size hj, ?_⟩
    intro p hp
    obtain ⟨q, hq, hnodup, hsub⟩ := hp.exists_nodup
    have hentry : g.contains entry = true := (hf.contains_iff _).2 ⟨0, hf.size_pos, hf.id_zero⟩
    have hlen := hg.length_le_size hnodup (hq.contains_of_mem hg hentry)
    exact hsub (covers_setsAfter hg hf hpreds k i j q hi hj hq (by omega))
  · rintro ⟨hj, hway⟩
    exact hbounded.mem_of_onEveryWay hi hj hway

theorem pass_setsAfter_eq (hg : g.Consistent) (hf : f.Fits g entry)
    (hpreds : ∀ i ∈ f.inner, f.predecessorsOf i ≠ []) (hk : g.size ≤ k + 1) :
    pass f (setsAfter f k) = setsAfter f k := by
  have hsize := (bounded_setsAfter hf hpreds (k + 1)).size_eq
  have hsize' := (bounded_setsAfter hf hpreds k).size_eq
  apply ext_setAt (hsize.trans hsize'.symm)
  intro i
  by_cases hi : i < f.size
  · apply NodeSet.ext
    intro j
    have hnext := @mem_setsAfter α g entry f i j (k + 1) hg hf hpreds (by omega) hi
    exact hnext.trans (mem_setsAfter hg hf hpreds hk hi).symm
  · have hout : ∀ m, setAt (setsAfter f m) i = .empty := by
      intro m
      rw [setAt, Array.getD_eq_getD_getElem?, Array.getElem?_eq_none]
      · rfl
      · rw [(bounded_setsAfter hf hpreds m).size_eq]
        omega
    exact (hout (k + 1)).trans (hout k).symm

/-- The iteration stands still behind `k` passes, and not before. -/
structure Settles (f : Frame) (k : Nat) : Prop where
  fixed : pass f (setsAfter f k) = setsAfter f k
  changing : ∀ m < k, pass f (setsAfter f m) ≠ setsAfter f m

theorem Settles.setsAfter_eq (h : Settles f k) {m : Nat} (hm : k ≤ m) :
    setsAfter f m = setsAfter f k := by
  induction m, hm using Nat.le_induction with
  | base => rfl
  | succ m _ ih => rw [setsAfter, ih, h.fixed]

theorem Settles.fixed_iff (h : Settles f k) (m : Nat) :
    pass f (setsAfter f m) = setsAfter f m ↔ k ≤ m := by
  constructor
  · intro hfixed
    by_contra hlt
    exact h.changing m (by omega) hfixed
  · intro hm
    rw [h.setsAfter_eq hm, h.fixed]

theorem exists_settles (hg : g.Consistent) (hf : f.Fits g entry)
    (hpreds : ∀ i ∈ f.inner, f.predecessorsOf i ≠ []) : ∃ k < g.size, Settles f k := by
  have hsize : 0 < g.size := by
    have hentry : g.contains entry = true := (hf.contains_iff _).2 ⟨0, hf.size_pos, hf.id_zero⟩
    simpa [ids, size] using List.length_pos_of_mem (hg.mem_ids.2 hentry)
  have hend : pass f (setsAfter f (g.size - 1)) = setsAfter f (g.size - 1) :=
    pass_setsAfter_eq hg hf hpreds (by omega)
  have hex : ∃ k, pass f (setsAfter f k) = setsAfter f k := ⟨g.size - 1, hend⟩
  refine ⟨Nat.find hex, ?_, Nat.find_spec hex, fun m hm => Nat.find_min hex hm⟩
  have hle := Nat.find_min' hex hend
  omega

/-- From the sets behind `m` passes, the iteration comes to its limit exactly if the limit is not
above the number of passes that change something. -/
theorem Settles.outcome_stabilize {limit : Int} {m d : Nat} (h : Settles f (m + d))
    (hlimit : ¬ (0 < limit ∧ limit ≤ m)) (log : Array Record) :
    (stabilize f limit m (setsAfter f m) log).outcome =
      if 0 < limit ∧ limit ≤ (m + d : Nat) then fail (.passLimit limit)
      else .ok (setsAfter f (m + d)) := by
  induction d generalizing m log with
  | zero =>
    rw [Nat.add_zero] at h ⊢
    rw [Graph.outcome_stabilize, if_pos h.fixed, if_neg hlimit]
  | succ d ih =>
    rw [Graph.outcome_stabilize, if_neg (h.changing m (by omega))]
    split
    · next hreached => rw [if_pos ⟨hreached.1, by omega⟩]
    · next hbelow =>
      have hsum : m + (d + 1) = m + 1 + d := by omega
      rw [hsum] at h ⊢
      exact ih h hbelow _

theorem Settles.outcome_dominatorSets (h : Settles f k)
    (hpreds : ∀ i ∈ f.inner, f.predecessorsOf i ≠ []) (limit : Int) :
    (dominatorSets f limit).outcome =
      if 0 < limit ∧ limit ≤ k then fail (.passLimit limit) else .ok (setsAfter f k) := by
  have hstart : Settles f (0 + k) := by rwa [Nat.zero_add]
  have hnever : ¬ (0 < limit ∧ limit ≤ (0 : Nat)) := by omega
  have houtcome := hstart.outcome_stabilize hnever #[]
  rw [Nat.zero_add] at houtcome
  rw [dominatorSets_eq hpreds]
  exact houtcome

end Passes

section Limit

variable {g : Graph α} {entry : String}

/-- There is one tree, which a graph has under every limit that is above the number of passes that
change something, and without a limit. -/
theorem exists_tree_of_settles (hg : g.Consistent) (hentry : g.entry = some entry)
    (hpreds : ∀ id, g.contains id = true → id ≠ entry → ∃ u, g.Linked u id) {k : Nat}
    (h : Settles (Frame.ofGraph g entry) k) :
    ∃ tree, ∀ limit : Int, (g.dominatorTree limit).outcome =
      if 0 < limit ∧ limit ≤ k then fail (.passLimit limit) else .ok tree := by
  have hsets := h.outcome_dominatorSets (predecessorsOf_ofGraph_ne_nil hg hentry hpreds)
  obtain ⟨tree, htree⟩ := exists_dominatorTree hg hentry (Int.le_refl 0) hpreds
  refine ⟨tree, fun limit => ?_⟩
  rw [outcome_dominatorTree hentry, hsets, if_neg (by omega)] at htree
  rw [outcome_dominatorTree hentry, hsets]
  split
  · rfl
  · exact htree

/-- If an edge enters every node but the entry, fewer passes than there are nodes change something,
and there is one tree for all limits: without a limit it is found, with a limit either it is found
or the limit is reached, a higher limit never loses it, and a limit of at least the number of nodes
always finds it. -/
theorem dominatorTree_of_limit (hg : g.Built) (hentry : g.entry = some entry)
    (hpreds : ∀ id ∈ g.ids, id ≠ entry → g.predecessors id ≠ []) :
    ∃ tree, ∃ changing < g.size,
      (∀ k, pass (Frame.ofGraph g entry) (setsAfter (Frame.ofGraph g entry) k) =
        setsAfter (Frame.ofGraph g entry) k ↔ changing ≤ k) ∧
      (∀ limit : Int, limit ≤ 0 → (g.dominatorTree limit).outcome = .ok tree) ∧
      (∀ limit : Int, 0 < limit →
        limit ≤ changing ∧ (g.dominatorTree limit).outcome = fail (.passLimit limit) ∨
          changing < limit ∧ (g.dominatorTree limit).outcome = .ok tree) ∧
      (∀ limit higher : Int, 0 < limit → limit ≤ higher →
        (∃ found, (g.dominatorTree limit).outcome = .ok found) →
          (g.dominatorTree higher).outcome = .ok tree) ∧
      ∀ limit : Int, g.size ≤ limit → (g.dominatorTree limit).outcome = .ok tree := by
  have hconsistent := hg.consistent
  have hlinked : ∀ id, g.contains id = true → id ≠ entry → ∃ u, g.Linked u id := by
    intro id hid hne
    obtain ⟨e, he⟩ := List.exists_mem_of_ne_nil _ (hpreds id (hconsistent.mem_ids.2 hid) hne)
    exact ⟨e.source, hconsistent.mem_predecessorIds.1 (List.mem_map_of_mem he)⟩
  have hf := Frame.fits_ofGraph hconsistent (hconsistent.entry_mem entry hentry)
  obtain ⟨changing, hfew, hsettles⟩ := exists_settles hconsistent hf
    (predecessorsOf_ofGraph_ne_nil hconsistent hentry hlinked)
  obtain ⟨tree, htree⟩ := exists_tree_of_settles hconsistent hentry hlinked hsettles
  have hfound : ∀ limit : Int, ¬ (0 < limit ∧ limit ≤ changing) →
      (g.dominatorTree limit).outcome = .ok tree := by
    intro limit hlimit
    rw [htree, if_neg hlimit]
  refine ⟨tree, changing, hfew, hsettles.fixed_iff, ?_, ?_, ?_, ?_⟩
  · intro limit hlimit
    exact hfound limit (by omega)
  · intro limit hpos
    by_cases hlimit : limit ≤ changing
    · exact .inl ⟨hlimit, by rw [htree, if_pos ⟨hpos, hlimit⟩]⟩
    · exact .inr ⟨by omega, hfound limit (by omega)⟩
  · rintro limit higher hpos hhigher ⟨found, hok⟩
    apply hfound
    rintro ⟨-, hle⟩
    rw [htree, if_pos ⟨hpos, by omega⟩] at hok
    cases hok
  · intro limit hlimit
    exact hfound limit (by omega)

namespace Fork

/-! Two edges from the entry. -/

def edges : List Edge :=
  [⟨"a", "b", 0⟩, ⟨"a", "c", 0⟩]

variable {g : Graph Unit}

theorem linked (hedges : g.edges.toList = edges)
    (hcontains : ∀ id, g.contains id = true ↔ id ∈ ["a", "b", "c"]) {id : String}
    (hid : g.contains id = true) (hne : id ≠ "a") : g.Linked "a" id := by
  have hall : ∀ v ∈ ["a", "b", "c"], v ≠ "a" → ∃ e ∈ edges, e.source = "a" ∧ e.target = v := by
    decide
  exact (linked_iff_of_edges hedges).2 (hall id ((hcontains id).1 hid) hne)

/-- The first pass changes the sets: one side is no dominator of the other. -/
theorem pass_start_ne (hg : g.Consistent) (hedges : g.edges.toList = edges)
    (hcontains : ∀ id, g.contains id = true ↔ id ∈ ["a", "b", "c"])
    (hentry : g.entry = some "a") :
    pass (Frame.ofGraph g "a") (Frame.ofGraph g "a").start ≠ (Frame.ofGraph g "a").start := by
  intro hfixed
  have hf := Frame.fits_ofGraph hg (hg.entry_mem "a" hentry)
  have hpreds := predecessorsOf_ofGraph_ne_nil hg hentry fun id hid hne =>
    ⟨"a", linked hedges hcontains hid hne⟩
  have hmemb : g.contains "b" = true := (hcontains "b").2 (by decide)
  obtain ⟨i, hi, hb⟩ := (hf.contains_iff "b").1 hmemb
  obtain ⟨j, hj, hc⟩ := (hf.contains_iff "c").1 ((hcontains "c").2 (by decide))
  have hmem : j ∈ setAt (Frame.ofGraph g "a").start i := by
    rw [setAt_start _ hi, if_neg]
    · exact NodeSet.mem_below.2 hj
    · rintro rfl
      exact absurd (hf.id_zero.symm.trans hb) (by decide)
  have hway : g.Way "a" "b" ["a", "b"] :=
    .step (linked hedges hcontains hmemb (by decide)) (.here "b")
  have hall := (bounded_start hf hpreds).onEveryWay_of_mem hg hf hpreds hfixed hi hmem
  rw [hb, hc] at hall
  exact absurd (hall _ hway) (by decide)

end Fork

/-- A fork has its tree without a limit and with as many passes as there are nodes, and one pass is
not enough. -/
theorem dominatorTree_of_limit_fork :
    ∃ g tree : Graph Unit, g.Built ∧ g.entry = some "a" ∧
      (∀ id ∈ g.ids, id ≠ "a" → g.predecessors id ≠ []) ∧ g.size ≤ 3 ∧
      (g.dominatorTree 0).outcome = .ok tree ∧ (g.dominatorTree 3).outcome = .ok tree ∧
      (g.dominatorTree 1).outcome = fail (.passLimit 1) := by
  obtain ⟨g, hbuilt, hedges, hcontains, hentry⟩ :=
    exists_built () ["a", "b", "c"] Fork.edges "a" (by decide) (by decide)
  have hg := hbuilt.consistent
  have hpreds : ∀ id ∈ g.ids, id ≠ "a" → g.predecessors id ≠ [] := by
    intro id hid hne hnil
    have hpred := hg.mem_predecessorIds.2 (Fork.linked hedges hcontains (hg.mem_ids.1 hid) hne)
    rw [predecessorIds, hnil] at hpred
    cases hpred
  have hsize : g.size ≤ 3 := by
    have hids : g.ids ⊆ ["a", "b", "c"] := fun id hid => (hcontains id).1 (hg.mem_ids.1 hid)
    simpa [ids, size] using (List.subperm_of_subset hg.nodup_ids hids).length_le
  obtain ⟨tree, changing, -, hfixed, hfree, hlimits, -, henough⟩ :=
    dominatorTree_of_limit hbuilt hentry hpreds
  refine ⟨g, tree, hbuilt, hentry, hpreds, hsize, hfree 0 (Int.le_refl 0),
    henough 3 (by omega), ?_⟩
  rcases hlimits 1 (by decide) with ⟨-, hfail⟩ | ⟨hnone, -⟩
  · exact hfail
  · have hstill := (hfixed 0).2 (by omega)
    exact absurd hstill (Fork.pass_start_ne hg hedges hcontains hentry)

end Limit

end CartFlow.Graph
