import CartFlow.Proofs.Graph.Data
import CartFlow.Proofs.Graph.Dominance

/-!
# The dominator tree is path dominance

The parent of a node is chosen by distance. It is nevertheless the immediate dominator: a
dominator of the node that did not dominate the parent would lie behind the parent on a
shortest way from the parent, and would be closer. Following parents therefore meets exactly
the dominators of a node, as long as some way leads from the entry to it.
-/
namespace CartFlow.Graph

variable {α : Type}

/-- The dominator of a node that all its other dominators dominate. -/
structure ImmediateDominator (g : Graph α) (entry d b : String) : Prop where
  ne : d ≠ b
  onEveryWay : g.OnEveryWay entry d b
  closest : ∀ a, a ≠ b → g.OnEveryWay entry a b → g.OnEveryWay entry a d

section Parent

variable {g : Graph α} {entry : String} {f : Frame} {limit : Int} {sets : Array NodeSet}

theorem parent_eq_ok (hg : g.Consistent) (hf : f.Fits g entry)
    (hsets : (dominatorSets f limit).outcome = .ok sets) {i : Nat} (hi : i < f.size) {u : String}
    (hu : g.parent f sets i = .ok u) :
    g.contains u = true ∧ u ≠ f.id i ∧ g.OnEveryWay entry u (f.id i) ∧
      ∀ a, g.contains a = true → a ≠ f.id i → g.OnEveryWay entry a (f.id i) →
        closer (levelOf? (g.levelsTo (f.id i)) a) (levelOf? (g.levelsTo (f.id i)) u) = false := by
  have hothers : ∀ a, a ∈ (((setAt sets i).members f.size).filter (· != i)).map f.id ↔
      g.contains a = true ∧ a ≠ f.id i ∧ g.OnEveryWay entry a (f.id i) := by
    intro a
    simp only [List.mem_map, List.mem_filter, NodeSet.mem_members, bne_iff_ne,
      mem_dominatorSets hg hf hsets hi]
    constructor
    · rintro ⟨j, ⟨⟨hj, -, hway⟩, hne⟩, rfl⟩
      exact ⟨(hf.contains_iff _).2 ⟨j, hj, rfl⟩, fun heq => hne (hf.id_inj hj hi heq), hway⟩
    · rintro ⟨ha, hne, hway⟩
      obtain ⟨j, hj, rfl⟩ := (hf.contains_iff a).1 ha
      exact ⟨j, ⟨⟨hj, hj, hway⟩, fun heq => hne (by rw [heq])⟩, rfl⟩
  simp only [parent] at hu
  split at hu
  · next id hclosest =>
    cases hu
    obtain ⟨hmem, hmin⟩ := closest_eq_some hclosest
    obtain ⟨hcontains, hne, hway⟩ := (hothers u).1 hmem
    exact ⟨hcontains, hne, hway, fun a ha hne hway => hmin a ((hothers a).2 ⟨ha, hne, hway⟩)⟩
  · cases hu

theorem immediateDominator_of_parent (hg : g.Consistent) (hf : f.Fits g entry)
    (hsets : (dominatorSets f limit).outcome = .ok sets) {i : Nat} (hi : i < f.size) {u : String}
    (hu : g.parent f sets i = .ok u) {p : List String} (hp : g.Way entry (f.id i) p) :
    g.ImmediateDominator entry u (f.id i) := by
  obtain ⟨-, hne, hway, hmin⟩ := parent_eq_ok hg hf hsets hi hu
  have hentry : g.contains entry = true := (hf.contains_iff _).2 ⟨0, hf.size_pos, hf.id_zero⟩
  have hreach : ∀ a, a ∈ p → ∃ k, g.WayOf k a (f.id i) := by
    intro a ha
    obtain ⟨q, r, -, -, hr⟩ := hp.split ha
    exact ⟨r.length, _, hr, by simp⟩
  refine ⟨hne, hway, ?_⟩
  intro a hane ha
  refine ha.of_closest (hreach u (hway p hp)) ?_
  intro k hk
  obtain ⟨j, hjk, hj⟩ := exists_firstNear (fun k v => g.WayOf k v (f.id i)) hk
  obtain ⟨m, -, hm⟩ := exists_firstNear (fun k v => g.WayOf k v (f.id i))
    (hreach u (hway p hp)).choose_spec
  have hcloser := hmin a (hp.contains_of_mem hg hentry a (ha p hp)) hane ha
  rw [(levelOf?_levelsTo hg a (f.id i) j).2 hj, (levelOf?_levelsTo hg u (f.id i) m).2 hm] at hcloser
  simp only [closer, decide_eq_false_iff_not] at hcloser
  exact ⟨m, by omega, hm.1⟩

theorem exists_parent (hg : g.Consistent) (hf : f.Fits g entry)
    (hsets : (dominatorSets f limit).outcome = .ok sets) {i : Nat} (hi : i ∈ f.inner) :
    ∃ u, g.parent f sets i = .ok u := by
  have hbounds := Frame.mem_inner.1 hi
  have hzero : 0 ∈ setAt sets i := by
    rw [mem_dominatorSets hg hf hsets hbounds.2, hf.id_zero]
    exact ⟨hf.size_pos, OnEveryWay.entry_left g entry _⟩
  have hmem : f.id 0 ∈ (((setAt sets i).members f.size).filter (· != i)).map f.id := by
    refine List.mem_map_of_mem (List.mem_filter.2 ⟨?_, by simpa using Nat.ne_of_lt hbounds.1⟩)
    exact NodeSet.mem_members.2 ⟨hf.size_pos, hzero⟩
  simp only [parent]
  cases hids : (((setAt sets i).members f.size).filter (· != i)).map f.id with
  | nil =>
    rw [hids] at hmem
    exact absurd hmem List.not_mem_nil
  | cons first rest => exact ⟨_, rfl⟩

end Parent

section Tree

variable {g : Graph α} {entry : String} {f : Frame} {limit : Int} {sets : Array NodeSet}

theorem bare_spec (hg : g.Consistent) (hf : f.Fits g entry) :
    (g.bare f).Built ∧ (g.bare f).edges = #[] ∧
      ∀ id, (g.bare f).contains id = g.contains id := by
  have hids : ∀ id, id ∈ f.ids.toList ↔ g.contains id = true := by
    intro id
    rw [hf.contains_iff, Array.mem_toList_iff, Array.mem_iff_getElem]
    constructor
    · rintro ⟨i, hi, rfl⟩
      exact ⟨i, hi, Frame.id_eq_getElem hi⟩
    · rintro ⟨i, hi, rfl⟩
      exact ⟨i, hi, (Frame.id_eq_getElem hi).symm⟩
  rw [bare, ← Array.foldl_toList]
  refine And.imp_right (And.imp_right fun hcontains id => ?_)
    (foldl_insert (fun tree id hid => ?_) .empty)
  · apply Bool.eq_iff_iff.2 ((hcontains id).trans _)
    rw [hids]
    simp [contains, empty]
  · obtain ⟨n, -, hn, -⟩ := hg.node?_eq_some ((hids id).1 hid)
    exact ⟨n.data, by rw [hn]⟩

theorem data?_foldl_copy {ids : List String} {tree : Graph α} (htree : tree.Built)
    (hdata : ∀ id data, tree.data? id = some data → g.data? id = some data) (id : String) (data : α)
    (hd : (ids.foldl (fun tree id =>
      match g.node? id with
      | some n => tree.insert id n.data
      | none => tree) tree).data? id = some data) : g.data? id = some data := by
  induction ids generalizing tree with
  | nil => exact hdata id data hd
  | cons next ids ih =>
    rw [List.foldl_cons] at hd
    cases hn : g.node? next with
    | none =>
      rw [hn] at hd
      exact ih htree hdata hd
    | some n =>
      rw [hn] at hd
      apply ih (.insert _ _ htree) _ hd
      intro other copied
      rw [htree.consistent.data?_insert]
      split
      · next heq =>
        subst heq
        cases hold : tree.data? other with
        | none =>
          rintro ⟨rfl⟩
          simp [data?, hn]
        | some d =>
          rintro ⟨rfl⟩
          exact hdata other _ hold
      · exact hdata other copied

theorem data?_bare (hg : g.Consistent) (hf : f.Fits g entry) (id : String) :
    (g.bare f).data? id = g.data? id := by
  obtain ⟨hbuilt, -, hcontains⟩ := bare_spec hg hf
  have hsame : ((g.bare f).data? id).isSome = (g.data? id).isSome := by
    rw [hbuilt.consistent.data?_isSome, hg.data?_isSome, hcontains]
  cases hd : (g.bare f).data? id with
  | none =>
    rw [hd] at hsame
    exact (Option.not_isSome_iff_eq_none.1 (by simp [← hsame])).symm
  | some data =>
    rw [bare, ← Array.foldl_toList] at hd
    exact (data?_foldl_copy .empty (by simp [data?, node?, empty]) id data hd).symm

theorem foldlM_link {is : List Nat} {tree result : Graph α} (hbuilt : tree.Built)
    (hok : is.foldlM (fun tree i => do
      let id ← g.parent f sets i
      tree.addEdge id (f.id i) 0) tree = .ok result) :
    result.Built ∧ (∀ id, result.contains id = tree.contains id) ∧
      (∀ i ∈ is, ∃ u, g.parent f sets i = .ok u) ∧
      (∀ u v, result.Linked u v ↔
        tree.Linked u v ∨ ∃ i ∈ is, g.parent f sets i = .ok u ∧ v = f.id i) ∧
      (∀ id, result.data? id = tree.data? id) ∧
      result.edges.toList.map (·.target) = tree.edges.toList.map (·.target) ++ is.map f.id := by
  induction is generalizing tree with
  | nil =>
    cases hok
    simp [hbuilt]
  | cons i is ih =>
    rw [List.foldlM_cons] at hok
    obtain ⟨next, hlink, hok⟩ := bind_eq_ok.1 hok
    obtain ⟨parent, hparent, hadd⟩ := bind_eq_ok.1 hlink
    obtain ⟨h₁, h₂, h₃, h₄, h₅, h₆⟩ := ih (.addEdge hbuilt hadd) hok
    obtain ⟨-, -, -, -, hedges, -⟩ := addEdge_eq_ok hadd
    refine ⟨h₁, fun id => (h₂ id).trans (contains_of_addEdge hadd id), ?_, ?_,
      fun id => (h₅ id).trans (data?_addEdge hadd), ?_⟩
    · rw [List.forall_mem_cons]
      exact ⟨⟨parent, hparent⟩, h₃⟩
    · intro u v
      have hnext : next.Linked u v ↔ tree.Linked u v ∨ (parent = u ∧ f.id i = v) := by
        simp only [Linked, hedges, Array.mem_push]
        constructor
        · rintro ⟨e, he | rfl, hu, hv⟩
          · exact .inl ⟨e, he, hu, hv⟩
          · exact .inr ⟨hu, hv⟩
        · rintro (⟨e, he, hu, hv⟩ | ⟨hu, hv⟩)
          · exact ⟨e, .inl he, hu, hv⟩
          · exact ⟨_, .inr rfl, hu, hv⟩
      rw [h₄, hnext, or_assoc]
      simp only [List.mem_cons, exists_eq_or_imp, hparent, Except.ok.injEq,
        eq_comm (a := f.id i)]
    · rw [h₆, hedges]
      simp

/-- The nodes of a dominator tree are those of the graph, and its edges lead from parents. -/
structure LinksParents (g : Graph α) (entry : String) (f : Frame) (sets : Array NodeSet)
    (tree : Graph α) : Prop where
  consistent : tree.Consistent
  contains_eq : ∀ id, tree.contains id = g.contains id
  entry_eq : tree.entry = some entry
  exists_parent : ∀ i ∈ f.inner, ∃ u, g.parent f sets i = .ok u
  linked_iff : ∀ u v, tree.Linked u v ↔ ∃ i ∈ f.inner, g.parent f sets i = .ok u ∧ v = f.id i
  data_eq : ∀ id, tree.data? id = g.data? id
  targets_eq : tree.edges.toList.map (·.target) = f.inner.map f.id

theorem linkParents_eq_ok (hg : g.Consistent) (hf : f.Fits g entry) {tree : Graph α}
    (hok : g.linkParents f sets = .ok tree) : LinksParents g entry f sets tree := by
  obtain ⟨hbuilt, hedges, hcontains⟩ := bare_spec hg hf
  unfold linkParents at hok
  obtain ⟨linked, hlink, hok⟩ := bind_eq_ok.1 hok
  obtain ⟨h₁, h₂, h₃, h₄, h₅, h₆⟩ := foldlM_link hbuilt hlink
  obtain ⟨-, rfl⟩ := setEntry_eq_ok hok
  refine ⟨(Built.setEntry h₁ hok).consistent, fun id => (h₂ id).trans (hcontains id),
    by rw [hf.id_zero], h₃, ?_, fun id => (h₅ id).trans (data?_bare hg hf id), ?_⟩
  · intro u v
    have hbare : ¬ (g.bare f).Linked u v := by
      rintro ⟨e, he, -⟩
      simp [hedges] at he
    have hlinked := h₄ u v
    rwa [or_iff_right hbare] at hlinked
  · simpa [hedges] using h₆

theorem outcome_dominatorTree (hentry : g.entry = some entry) (limit : Int) :
    (g.dominatorTree limit).outcome =
      (dominatorSets (Frame.ofGraph g entry) limit).outcome >>=
        g.linkParents (Frame.ofGraph g entry) := by
  unfold dominatorTree
  rw [hentry]
  simp only [Traced.outcome_bind, Traced.outcome_ofExcept]

theorem dominatorTree_eq_ok (hg : g.Consistent) (hentry : g.entry = some entry) {tree : Graph α}
    (hok : (g.dominatorTree limit).outcome = .ok tree) :
    ∃ sets, (dominatorSets (Frame.ofGraph g entry) limit).outcome = .ok sets ∧
      LinksParents g entry (Frame.ofGraph g entry) sets tree := by
  have hf := Frame.fits_ofGraph hg (hg.entry_mem entry hentry)
  rw [outcome_dominatorTree hentry] at hok
  obtain ⟨sets, hsets, hok⟩ := bind_eq_ok.1 hok
  exact ⟨sets, hsets, linkParents_eq_ok hg hf hok⟩

theorem exists_foldlM_link {is : List Nat} {tree : Graph α}
    (hparent : ∀ i ∈ is, ∃ u, g.parent f sets i = .ok u ∧ tree.contains u = true)
    (hid : ∀ i ∈ is, tree.contains (f.id i) = true) :
    ∃ result, is.foldlM (fun tree i => do
      let id ← g.parent f sets i
      tree.addEdge id (f.id i) 0) tree = .ok result := by
  induction is generalizing tree with
  | nil => exact ⟨tree, rfl⟩
  | cons i is ih =>
    obtain ⟨u, hu, hcontains⟩ := hparent i List.mem_cons_self
    obtain ⟨next, hnext⟩ := exists_addEdge hcontains (hid i List.mem_cons_self) 0
    have hsame := contains_of_addEdge hnext
    have hrest := @ih next
      (fun k hk => by simpa only [hsame] using hparent k (List.mem_cons_of_mem i hk))
      (fun k hk => by simpa only [hsame] using hid k (List.mem_cons_of_mem i hk))
    simpa only [List.foldlM_cons, hu, bind, Except.bind, hnext] using hrest

theorem exists_linkParents (hg : g.Consistent) (hf : f.Fits g entry)
    (hsets : (dominatorSets f limit).outcome = .ok sets) :
    ∃ tree, g.linkParents f sets = .ok tree := by
  obtain ⟨hbuilt, -, hcontains⟩ := bare_spec hg hf
  have hmem : ∀ i < f.size, (g.bare f).contains (f.id i) = true := by
    intro i hi
    rw [hcontains]
    exact (hf.contains_iff _).2 ⟨i, hi, rfl⟩
  have hparent : ∀ i ∈ f.inner, ∃ u, g.parent f sets i = .ok u ∧ (g.bare f).contains u = true := by
    intro i hi
    obtain ⟨u, hu⟩ := exists_parent hg hf hsets hi
    refine ⟨u, hu, ?_⟩
    rw [hcontains]
    exact (parent_eq_ok hg hf hsets (Frame.mem_inner.1 hi).2 hu).1
  obtain ⟨linked, hlinked⟩ :=
    exists_foldlM_link hparent (fun i hi => hmem i (Frame.mem_inner.1 hi).2)
  have hlast : linked.contains (f.id 0) = true := by
    rw [(foldlM_link hbuilt hlinked).2.1]
    exact hmem 0 hf.size_pos
  refine ⟨{ linked with entry := some (f.id 0) }, ?_⟩
  rw [linkParents, hlinked]
  exact if_pos hlast

/-- In the frame of a graph every position behind the entry has predecessors if an edge enters every
node but the entry. -/
theorem predecessorsOf_ofGraph_ne_nil (hg : g.Consistent) (hentry : g.entry = some entry)
    (hpreds : ∀ id, g.contains id = true → id ≠ entry → ∃ u, g.Linked u id) :
    ∀ i ∈ (Frame.ofGraph g entry).inner, (Frame.ofGraph g entry).predecessorsOf i ≠ [] := by
  have hf := Frame.fits_ofGraph hg (hg.entry_mem entry hentry)
  intro i hi
  obtain ⟨hpos, hlt⟩ := Frame.mem_inner.1 hi
  have hne : (Frame.ofGraph g entry).id i ≠ entry := by
    rw [← hf.id_zero]
    intro heq
    exact absurd (hf.id_inj hlt hf.size_pos heq) (Nat.ne_of_gt hpos)
  obtain ⟨u, hu⟩ := hpreds _ ((hf.contains_iff _).2 ⟨i, hlt, rfl⟩) hne
  obtain ⟨q, hq, rfl⟩ := (hf.contains_iff u).1 (hg.contains_of_linked hu).1
  exact List.ne_nil_of_mem ((hf.mem_predecessorsOf hlt q).2 ⟨hq, hu⟩)

/-- A graph has a dominator tree if an edge enters every node but the entry, unless the passes come
to their limit. -/
theorem dominatorTree_cases (limit : Int) (hg : g.Consistent) (hentry : g.entry = some entry)
    (hpreds : ∀ id, g.contains id = true → id ≠ entry → ∃ u, g.Linked u id) :
    (∃ tree, (g.dominatorTree limit).outcome = .ok tree) ∨
      0 < limit ∧ (g.dominatorTree limit).outcome = fail (.passLimit limit) := by
  have hf := Frame.fits_ofGraph hg (hg.entry_mem entry hentry)
  have hinner := predecessorsOf_ofGraph_ne_nil hg hentry hpreds
  rw [outcome_dominatorTree hentry]
  rcases stabilize_cases limit 0 (Frame.ofGraph g entry).start #[] with
    ⟨sets, hsets⟩ | ⟨hlimit, hfail⟩
  · rw [← dominatorSets_eq hinner] at hsets
    rw [hsets]
    exact .inl (exists_linkParents hg hf hsets)
  · rw [← dominatorSets_eq hinner] at hfail
    rw [hfail]
    exact .inr ⟨hlimit, rfl⟩

theorem exists_dominatorTree (hg : g.Consistent) (hentry : g.entry = some entry)
    (hlimit : limit ≤ 0)
    (hpreds : ∀ id, g.contains id = true → id ≠ entry → ∃ u, g.Linked u id) :
    ∃ tree, (g.dominatorTree limit).outcome = .ok tree := by
  apply (dominatorTree_cases limit hg hentry hpreds).resolve_right
  rintro ⟨hpos, -⟩
  omega

/-- Every list of edges that enter all given nodes but the entry is that of a graph with a tree. -/
theorem exists_built_dominatorTree (data : α) (ids : List String) (edges : List Edge)
    (entry : String) (hends : ∀ e ∈ edges, e.source ∈ ids ∧ e.target ∈ ids) (hentry : entry ∈ ids)
    (hentered : ∀ id ∈ ids, id ≠ entry → ∃ e ∈ edges, e.target = id) :
    ∃ g tree : Graph α, g.Built ∧ g.edges.toList = edges ∧
      (∀ id, g.contains id = true ↔ id ∈ ids) ∧ g.entry = some entry ∧
      (g.dominatorTree 0).outcome = .ok tree := by
  obtain ⟨g, hbuilt, hedges, hcontains, hentry⟩ := exists_built data ids edges entry hends hentry
  have hlinked : ∀ id, g.contains id = true → id ≠ entry → ∃ u, g.Linked u id := by
    intro id hid hne
    obtain ⟨e, he, rfl⟩ := hentered id ((hcontains id).1 hid) hne
    exact ⟨e.source, (linked_iff_of_edges hedges).2 ⟨e, he, rfl, rfl⟩⟩
  obtain ⟨tree, htree⟩ := exists_dominatorTree hbuilt.consistent hentry (Int.le_refl 0) hlinked
  exact ⟨g, tree, hbuilt, hedges, hcontains, hentry, htree⟩

end Tree

section Answer

variable {g tree : Graph α} {entry : String}

theorem dominates_eq (htree : tree.Consistent) {a b : String} (ha : tree.contains a = true)
    (hb : tree.contains b = true) :
    tree.dominates a b = .ok (decide (a = b) || tree.reaches a b) := by
  obtain ⟨m, hm⟩ := htree.node_eq_ok ha
  obtain ⟨n, hn⟩ := htree.node_eq_ok hb
  by_cases hab : a = b
  · subst hab
    simp [dominates, hn, bind, Except.bind, pure, Except.pure]
  · simp [dominates, reachable, hm, hn, hab, bind, Except.bind, pure, Except.pure]

/-- Following parents from a node that the entry leads to meets exactly its dominators. -/
theorem exists_way_iff_onEveryWay (hg : g.Consistent) {f : Frame} (hf : f.Fits g entry)
    {limit : Int} {sets : Array NodeSet} (hsets : (dominatorSets f limit).outcome = .ok sets)
    (htree : LinksParents g entry f sets tree) {a b : String} {p : List String}
    (hp : g.Way entry b p) : (∃ q, tree.Way a b q) ↔ g.OnEveryWay entry a b := by
  have hentry : g.contains entry = true := (hf.contains_iff _).2 ⟨0, hf.size_pos, hf.id_zero⟩
  constructor
  · rintro ⟨q, hq⟩
    induction hq with
    | here b => exact OnEveryWay.refl g entry b
    | @step u v b q hl _ ih =>
      have hvb := ih hp
      obtain ⟨i, hi, hu, rfl⟩ := (htree.linked_iff u v).1 hl
      obtain ⟨r, -, -, hr, -⟩ := hp.split (hvb p hp)
      have huv := immediateDominator_of_parent hg hf hsets (Frame.mem_inner.1 hi).2 hu hr
      exact huv.onEveryWay.trans hvb
  · intro hab
    -- a dominator other than the node lies on a shorter way, to the parent of the node
    induction hlen : p.length using Nat.strongRecOn generalizing b p with
    | ind n ih =>
      by_cases hne : a = b
      · exact ⟨[b], hne ▸ .here a⟩
      obtain ⟨i, hi, rfl⟩ := (hf.contains_iff b).1 (hp.contains_of_mem hg hentry b hp.target_mem)
      have hinner : i ∈ f.inner := by
        rw [Frame.mem_inner]
        refine ⟨Nat.pos_of_ne_zero ?_, hi⟩
        rintro rfl
        rw [hf.id_zero] at hab hne
        exact hne hab.eq_entry
      obtain ⟨u, hu⟩ := htree.exists_parent i hinner
      have hidom := immediateDominator_of_parent hg hf hsets hi hu hp
      obtain ⟨r, t, rfl, hr, ht⟩ := hp.split (hidom.onEveryWay p hp)
      have hshort : (r ++ [u]).length < n := by
        have htlen : t ≠ [] := by
          rintro rfl
          cases ht with
          | here => exact hidom.ne rfl
          | step _ h => cases h
        have := List.length_pos_iff.2 htlen
        simp only [List.length_append, List.length_cons, List.length_nil] at hlen ⊢
        omega
      obtain ⟨q, hq⟩ := ih _ hshort hr (hidom.closest a hne hab) rfl
      exact ⟨_, hq.snoc ((htree.linked_iff u (f.id i)).2 ⟨i, hinner, hu, rfl⟩)⟩

/-- In the dominator tree, a node dominates a node that the entry leads to exactly if it does
so on ways. -/
theorem exists_dominates_iff (hg : g.Consistent) (hentry : g.entry = some entry) {limit : Int}
    (htree : (g.dominatorTree limit).outcome = .ok tree) {a b : String}
    (ha : g.contains a = true) {p : List String} (hp : g.Way entry b p) :
    ∃ answer, tree.dominates a b = .ok answer ∧ (answer = true ↔ g.OnEveryWay entry a b) := by
  have hf := Frame.fits_ofGraph hg (hg.entry_mem entry hentry)
  obtain ⟨sets, hsets, hlinks⟩ := dominatorTree_eq_ok hg hentry htree
  have hacontains : tree.contains a = true := by rwa [hlinks.contains_eq]
  have hbcontains : tree.contains b = true := by
    rw [hlinks.contains_eq]
    exact hp.contains_of_mem hg (hg.entry_mem entry hentry) b hp.target_mem
  refine ⟨_, dominates_eq hlinks.consistent hacontains hbcontains, ?_⟩
  rw [Bool.or_eq_true, decide_eq_true_eq, reaches_iff hlinks.consistent]
  refine Iff.trans ?_ (exists_way_iff_onEveryWay hg hf hsets hlinks hp)
  constructor
  · rintro (rfl | ⟨k, q, hq, -⟩)
    · exact ⟨[a], .here a⟩
    · exact ⟨q, hq⟩
  · rintro ⟨q, hq⟩
    cases hq with
    | here => exact .inl rfl
    | step hl hq =>
      obtain ⟨t, rfl⟩ := hq.exists_eq_cons
      exact .inr ⟨t.length, _, .step hl hq, by simp⟩

/-- In the dominator tree of a graph, a node dominates a node that the entry leads to exactly
if it is on every way from the entry to that node. -/
theorem dominates_iff_forall_way (hg : g.Built) (hentry : g.entry = some entry) {limit : Int}
    (htree : (g.dominatorTree limit).outcome = .ok tree) {a b : String} (ha : a ∈ g.ids)
    (hb : ∃ p, g.Way entry b p) :
    ∃ answer, tree.dominates a b = .ok answer ∧
      (answer = true ↔ ∀ p, g.Way entry b p → a ∈ p) := by
  have hg := hg.consistent
  obtain ⟨p, hp⟩ := hb
  exact exists_dominates_iff hg hentry htree (hg.mem_ids.1 ha) hp

/-- Two ways round a cycle that is entered at either side: only the entry dominates what is
behind it, although a node that the entry does not lead to has an edge there as well. -/
theorem dominates_behind_crossing :
    ∃ g tree : Graph Unit, g.Built ∧ g.entry = some "a" ∧
      (g.dominatorTree 0).outcome = .ok tree ∧ tree.dominates "a" "d" = .ok true ∧
      tree.dominates "b" "d" = .ok false ∧ tree.dominates "x" "d" = .ok false := by
  obtain ⟨g, tree, hbuilt, hedges, hcontains, hentry, htree⟩ :=
    exists_built_dominatorTree () ["a", "b", "c", "d", "x"]
      [⟨"a", "b", 0⟩, ⟨"a", "c", 0⟩, ⟨"b", "c", 0⟩, ⟨"c", "b", 0⟩, ⟨"b", "d", 0⟩, ⟨"b", "d", 1⟩,
        ⟨"c", "d", 0⟩, ⟨"d", "d", 0⟩, ⟨"x", "x", 0⟩, ⟨"x", "d", 0⟩] "a" (by decide) (by decide)
      (by decide)
  have hab : g.Linked "a" "b" := (linked_iff_of_edges hedges).2 (by decide)
  have hac : g.Linked "a" "c" := (linked_iff_of_edges hedges).2 (by decide)
  have hbd : g.Linked "b" "d" := (linked_iff_of_edges hedges).2 (by decide)
  have hcd : g.Linked "c" "d" := (linked_iff_of_edges hedges).2 (by decide)
  have hleft : g.Way "a" "d" ["a", "b", "d"] := .step hab (.step hbd (.here "d"))
  have hright : g.Way "a" "d" ["a", "c", "d"] := .step hac (.step hcd (.here "d"))
  have hids : ∀ id ∈ ["a", "b", "c", "d", "x"], id ∈ g.ids :=
    fun id hid => hbuilt.consistent.mem_ids.2 ((hcontains id).2 hid)
  have hreach : ∃ p, g.Way "a" "d" p := ⟨_, hleft⟩
  obtain ⟨fromA, ha, haiff⟩ :=
    dominates_iff_forall_way hbuilt hentry htree (hids "a" (by decide)) hreach
  obtain ⟨fromB, hb, hbiff⟩ :=
    dominates_iff_forall_way hbuilt hentry htree (hids "b" (by decide)) hreach
  obtain ⟨fromX, hx, hxiff⟩ :=
    dominates_iff_forall_way hbuilt hentry htree (hids "x" (by decide)) hreach
  have hatrue : fromA = true := haiff.2 fun p hp => hp.source_mem
  have hbfalse : fromB = false :=
    Bool.eq_false_iff.2 fun h => absurd (hbiff.1 h _ hright) (by decide)
  have hxfalse : fromX = false :=
    Bool.eq_false_iff.2 fun h => absurd (hxiff.1 h _ hleft) (by decide)
  exact ⟨g, tree, hbuilt, hentry, htree, hatrue ▸ ha, hbfalse ▸ hb, hxfalse ▸ hx⟩

end Answer

end CartFlow.Graph
