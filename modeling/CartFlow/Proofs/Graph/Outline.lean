import CartFlow.Graph.Outline
import CartFlow.Proofs.Graph.DominatorTree
import Mathlib.Data.Finset.Card

/-!
# The outline of a tree is complete

In a tree the stack of an outline never holds a node that was taken before: the edge to such
a node would come from a node that is still on the stack, but the only edge to it comes from a
node that was taken. The nodes that were taken are therefore distinct, and there are enough
turns for all of them.

A dominator tree need not be connected: nodes that the entry of the graph does not lead to may
be each other's parents. But it is a tree in the sense above, so its outline ends. It has every
node that the entry leads to, at the depth of the way down the tree to it, and this way visits
the dominators of the node.
-/
namespace CartFlow.Graph

variable {α : Type}

/-- No edge enters the entry, and at most one edge enters any other node. -/
structure Rooted (g : Graph α) (entry : String) : Prop where
  consistent : g.Consistent
  entry_mem : g.contains entry = true
  nodup_targets : (g.edges.toList.map (·.target)).Nodup
  entry_free : ∀ u, ¬ g.Linked u entry

/-- Where an outline stands: the nodes that were taken and those on the stack are distinct,
they are closed under edges from taken nodes, and each of them was put there by such an edge. -/
structure Taken (g : Graph α) (entry : String) (done stack : List String) : Prop where
  entry_mem : entry ∈ done ++ stack
  nodup : (done ++ stack).Nodup
  contains : ∀ v ∈ done ++ stack, g.contains v = true
  closed : ∀ u ∈ done, ∀ v, g.Linked u v → v ∈ done ++ stack
  parent : ∀ v ∈ done ++ stack, v = entry ∨ ∃ u ∈ done, g.Linked u v

/-- What is taken if nodes are taken from a stack, and the nodes below put in their place, until
the stack is empty. Nothing bounds the number of turns, and a node that comes back is taken
again. -/
inductive Unfolds (g : Graph α) : List (String × Nat) → List (String × Nat) → Prop
  | done : Unfolds g [] []
  | take {id : String} {depth : Nat} {rest out : List (String × Nat)} :
      Unfolds g ((g.successorIds id).map (·, depth + 1) ++ rest) out →
      Unfolds g ((id, depth) :: rest) ((id, depth) :: out)

section Rooted

variable {g : Graph α} {entry u u' v : String} {done stack : List String}
  {pairs out : List (String × Nat)}

theorem Rooted.nodup_successorIds (hg : g.Rooted entry) (u : String) :
    (g.successorIds u).Nodup := by
  rw [successorIds, hg.consistent.successors_eq]
  exact (List.filter_sublist.map _).nodup hg.nodup_targets

theorem Rooted.linked_unique (hg : g.Rooted entry) (h : g.Linked u v) (h' : g.Linked u' v) :
    u = u' := by
  obtain ⟨e, he, rfl, hv⟩ := h
  obtain ⟨e', he', rfl, hv'⟩ := h'
  have heq : e = e' := List.inj_on_of_nodup_map hg.nodup_targets (Array.mem_toList_iff.2 he)
    (Array.mem_toList_iff.2 he') (hv.trans hv'.symm)
  rw [heq]

theorem Taken.take (hg : g.Rooted entry) (h : g.Taken entry done (u :: stack)) :
    g.Taken entry (done ++ [u]) (g.successorIds u ++ stack) := by
  have hnodup : (done ++ u :: stack).Nodup := h.nodup
  have hu : u ∉ done := by
    intro hmem
    exact (List.nodup_append.1 hnodup).2.2 u hmem u List.mem_cons_self rfl
  -- a node below `u` that is there already has its only edge from a taken node
  have hfresh : ∀ v ∈ g.successorIds u, v ∉ done ++ u :: stack := by
    intro v hv hmem
    have hlink := hg.consistent.mem_successorIds.1 hv
    rcases h.parent v hmem with rfl | ⟨w, hw, hlink'⟩
    · exact hg.entry_free u hlink
    · exact hu (hg.linked_unique hlink hlink' ▸ hw)
  have hmem : ∀ v, v ∈ done ++ [u] ++ (g.successorIds u ++ stack) ↔
      v ∈ g.successorIds u ∨ v ∈ done ++ u :: stack := by
    intro v
    simp only [List.mem_append, List.mem_cons, List.not_mem_nil, or_false]
    tauto
  refine ⟨(hmem entry).2 (.inr h.entry_mem), ?_, ?_, ?_, ?_⟩
  · have hperm : (done ++ [u] ++ (g.successorIds u ++ stack)).Perm
        (g.successorIds u ++ (done ++ u :: stack)) := by
      rw [← List.append_assoc]
      refine (List.perm_append_comm.append_right stack).trans ?_
      simp
    rw [hperm.nodup_iff, List.nodup_append]
    refine ⟨hg.nodup_successorIds u, hnodup, ?_⟩
    rintro v hv w hw rfl
    exact hfresh v hv hw
  · intro v hv
    rcases (hmem v).1 hv with hv | hv
    · exact (hg.consistent.contains_of_linked (hg.consistent.mem_successorIds.1 hv)).2
    · exact h.contains v hv
  · intro w hw v hlink
    rw [hmem]
    rcases List.mem_append.1 hw with hw | hw
    · exact .inr (h.closed w hw v hlink)
    · rw [List.mem_singleton.1 hw] at hlink
      exact .inl (hg.consistent.mem_successorIds.2 hlink)
  · intro v hv
    rcases (hmem v).1 hv with hv | hv
    · exact .inr ⟨u, by simp, hg.consistent.mem_successorIds.1 hv⟩
    · rcases h.parent v hv with heq | ⟨w, hw, hlink⟩
      · exact .inl heq
      · exact .inr ⟨w, List.mem_append_left _ hw, hlink⟩

theorem Taken.turn {id : String} {depth : Nat} {rest : List (String × Nat)} (hg : g.Rooted entry)
    (h : g.Taken entry done (((id, depth) :: rest).map (·.1))) :
    g.Taken entry (done ++ [id])
      (((g.successorIds id).map (·, depth + 1) ++ rest).map (·.1)) := by
  have hnext := h.take hg
  simpa [Function.comp_def] using hnext

theorem Taken.length_le (hg : g.Rooted entry) (h : g.Taken entry done stack) :
    done.length + stack.length ≤ g.size := by
  simpa using hg.consistent.length_le_size h.nodup h.contains

theorem Unfolds.taken (hg : g.Rooted entry) (h : g.Unfolds pairs out)
    (hstart : g.Taken entry done (pairs.map (·.1))) :
    g.Taken entry (done ++ out.map (·.1)) [] := by
  induction h generalizing done with
  | done => simpa using hstart
  | @take id depth rest out _ ih =>
    simpa using ih (hstart.turn hg)

/-- When a node is taken, it lies on top of the nodes that were not taken yet. -/
theorem Unfolds.taken_before (hg : g.Rooted entry) (h : g.Unfolds pairs out)
    (hstart : g.Taken entry done (pairs.map (·.1))) {before after : List String}
    (hout : out.map (·.1) = before ++ v :: after) :
    ∃ stack, g.Taken entry (done ++ before) (v :: stack) := by
  induction h generalizing done before with
  | done => simp at hout
  | @take id depth rest out _ ih =>
    cases before with
    | nil =>
      obtain ⟨rfl, -⟩ : id = v ∧ out.map (·.1) = after := by simpa using hout
      exact ⟨rest.map (·.1), by simpa using hstart⟩
    | cons first before =>
      obtain ⟨rfl, hrest⟩ : id = first ∧ out.map (·.1) = before ++ v :: after := by
        simpa using hout
      simpa using ih (hstart.turn hg) hrest

/-- A property of nodes with their depths that goes down edges holds of all that is taken. -/
theorem Unfolds.forall_mem {P : String → Nat → Prop} (hg : g.Consistent) (h : g.Unfolds pairs out)
    (hstart : ∀ x ∈ pairs, P x.1 x.2)
    (hstep : ∀ u v depth, P u depth → g.Linked u v → P v (depth + 1)) :
    ∀ x ∈ out, P x.1 x.2 := by
  induction h with
  | done => exact hstart
  | @take id depth rest out _ ih =>
    rw [List.forall_mem_cons] at hstart ⊢
    refine ⟨hstart.1, ih ?_⟩
    intro x hx
    rcases List.mem_append.1 hx with hx | hx
    · obtain ⟨v, hv, rfl⟩ := List.mem_map.1 hx
      exact hstep id v depth hstart.1 (hg.mem_successorIds.1 hv)
    · exact hstart.2 x hx

theorem Taken.unfolds (hg : g.Rooted entry) (fuel : Nat) (pairs : List (String × Nat))
    (h : g.Taken entry done (pairs.map (·.1))) (hfuel : g.size ≤ fuel + done.length) :
    g.Unfolds pairs (g.unfold fuel pairs) := by
  induction fuel generalizing done pairs with
  | zero =>
    have hle := h.length_le hg
    have hnil : pairs = [] := by
      rw [← List.length_eq_zero_iff, ← List.length_map (fun p : String × Nat => p.1)]
      omega
    subst hnil
    exact .done
  | succ fuel ih =>
    cases pairs with
    | nil => exact .done
    | cons pair rest =>
      obtain ⟨id, depth⟩ := pair
      apply Unfolds.take (ih _ (h.turn hg) _)
      simp only [List.length_append, List.length_singleton]
      omega

theorem Rooted.taken_start (hg : g.Rooted entry) : g.Taken entry [] [entry] := by
  refine ⟨List.mem_singleton_self _, List.nodup_singleton _, ?_, ?_, ?_⟩
  · intro w hw
    rw [List.mem_singleton.1 hw]
    exact hg.entry_mem
  · intro w hw
    exact absurd hw List.not_mem_nil
  · intro w hw
    exact .inl (List.mem_singleton.1 hw)

theorem Rooted.unfolds_outline (hg : g.Rooted entry) (hentry : g.entry = some entry) :
    g.Unfolds [(entry, 0)] g.outline := by
  rw [outline, hentry]
  exact hg.taken_start.unfolds hg g.size [(entry, 0)] (by simp)

theorem Rooted.taken_outline (hg : g.Rooted entry) (hentry : g.entry = some entry) :
    g.Taken entry (g.outline.map (·.1)) [] := by
  simpa using (hg.unfolds_outline hentry).taken hg hg.taken_start

theorem Rooted.mem_outline (hg : g.Rooted entry) (hentry : g.entry = some entry)
    {p : List String} (hp : g.Way entry v p) : v ∈ g.outline.map (·.1) := by
  have hend := hg.taken_outline hentry
  have hclosed := hend.closed
  have hmem := hend.entry_mem
  rw [List.append_nil] at hclosed hmem
  exact hp.mem_of_closed hclosed hmem

theorem Rooted.contains_of_mem_outline (hg : g.Rooted entry) (hentry : g.entry = some entry)
    (hv : v ∈ g.outline.map (·.1)) : g.contains v = true := by
  apply (hg.taken_outline hentry).contains
  rwa [List.append_nil]

theorem Rooted.way_unique (hg : g.Rooted entry) {p q : List String} (hp : g.Way entry v p)
    (hq : g.Way entry v q) : p = q := by
  induction hlen : p.length using Nat.strongRecOn generalizing v p q with
  | ind n ih =>
    rcases hp.eq_or_snoc with ⟨rfl, rfl⟩ | ⟨u, p, hu, hlink, rfl⟩
    · rcases hq.eq_or_snoc with ⟨-, rfl⟩ | ⟨u, -, -, hlink, -⟩
      · rfl
      · exact absurd hlink (hg.entry_free u)
    · rcases hq.eq_or_snoc with ⟨rfl, -⟩ | ⟨u', q, hu', hlink', rfl⟩
      · exact absurd hlink (hg.entry_free u)
      · obtain rfl := hg.linked_unique hlink hlink'
        rw [ih p.length (by simp [← hlen]) hu hu' rfl]

theorem Rooted.nodup_way (hg : g.Rooted entry) {p : List String} (hp : g.Way entry v p) :
    p.Nodup := by
  obtain ⟨q, hq, hnodup, -⟩ := hp.exists_nodup
  rwa [hg.way_unique hp hq]

/-- A node stands in the outline of a tree as deep as the way from the entry is long. -/
theorem Rooted.wayOf_of_mem_outline (hg : g.Rooted entry) (hentry : g.entry = some entry)
    {depth : Nat} (hv : (v, depth) ∈ g.outline) : g.WayOf depth entry v := by
  refine (hg.unfolds_outline hentry).forall_mem (P := fun v depth => g.WayOf depth entry v)
    hg.consistent ?_ ?_ (v, depth) hv
  · intro x hx
    rw [List.mem_singleton.1 hx]
    exact wayOf_zero.2 rfl
  · rintro u v depth ⟨p, hp, hlen⟩ hlink
    exact ⟨_, hp.snoc hlink, by simp [hlen]⟩

/-- A node stands in the outline of a tree behind the node that an edge leads from to it. -/
theorem Rooted.exists_linked_before (hg : g.Rooted entry) (hentry : g.entry = some entry)
    {before after : List String} (hout : g.outline.map (·.1) = before ++ v :: after)
    (hne : v ≠ entry) : ∃ u ∈ before, g.Linked u v := by
  obtain ⟨stack, htaken⟩ := (hg.unfolds_outline hentry).taken_before hg hg.taken_start hout
  rw [List.nil_append] at htaken
  exact (htaken.parent v (by simp)).resolve_left hne

theorem Rooted.predecessors_of_linked (hg : g.Rooted entry) (hlink : g.Linked u v) :
    ∃ e, g.predecessors v = [e] ∧ e.source = u := by
  have htargets : ∀ e ∈ g.predecessors v, e.target = v := by
    intro e he
    rw [hg.consistent.predecessors_eq] at he
    simpa using (List.mem_filter.1 he).2
  have hnodup : ((g.predecessors v).map (·.target)).Nodup := by
    rw [hg.consistent.predecessors_eq]
    exact (List.filter_sublist.map _).nodup hg.nodup_targets
  obtain ⟨e, he, rfl⟩ := List.mem_map.1 (hg.consistent.mem_predecessorIds.2 hlink)
  refine ⟨e, ?_, rfl⟩
  match hpreds : g.predecessors v with
  | [] => simp [hpreds] at he
  | [d] =>
    rw [hpreds, List.mem_singleton] at he
    rw [he]
  | d :: d' :: rest =>
    rw [hpreds] at hnodup htargets
    simp [htargets d, htargets d'] at hnodup

theorem Rooted.predecessors_entry (hg : g.Rooted entry) : g.predecessors entry = [] := by
  rw [hg.consistent.predecessors_eq, List.filter_eq_nil_iff]
  intro e he htarget
  exact hg.entry_free e.source ⟨e, Array.mem_toList_iff.1 he, rfl, by simpa using htarget⟩

end Rooted

/-- The nodes of a tree are those of the graph, with their data. No edge enters its entry, and one
edge enters every other node. -/
structure Spans (g tree : Graph α) (entry : String) : Prop where
  entry_eq : tree.entry = some entry
  ids_perm : tree.ids.Perm g.ids
  data_eq : ∀ id, tree.data? id = g.data? id
  entry_free : tree.predecessors entry = []
  one_parent : ∀ id ∈ g.ids, id ≠ entry → ∃ e, tree.predecessors id = [e]

section Dominators

variable {g tree : Graph α} {entry v : String} {f : Frame} {sets : Array NodeSet} {limit : Int}

theorem LinksParents.rooted (h : LinksParents g entry f sets tree) (hf : f.Fits g entry) :
    tree.Rooted entry where
  consistent := h.consistent
  entry_mem := by
    rw [h.contains_eq]
    exact (hf.contains_iff entry).2 ⟨0, hf.size_pos, hf.id_zero⟩
  nodup_targets := by
    rw [h.targets_eq, Frame.inner]
    apply List.Nodup.map_on _ List.nodup_range'
    intro i hi j hj heq
    exact hf.id_inj (Frame.mem_inner.1 hi).2 (Frame.mem_inner.1 hj).2 heq
  entry_free u hlink := by
    obtain ⟨i, hi, -, heq⟩ := (h.linked_iff u entry).1 hlink
    obtain ⟨hpos, hlt⟩ := Frame.mem_inner.1 hi
    rw [← hf.id_zero] at heq
    exact absurd (hf.id_inj hf.size_pos hlt heq) (Nat.ne_of_lt hpos)

theorem LinksParents.exists_linked (h : LinksParents g entry f sets tree) (hf : f.Fits g entry)
    (hv : g.contains v = true) (hne : v ≠ entry) : ∃ u, tree.Linked u v := by
  obtain ⟨i, hi, rfl⟩ := (hf.contains_iff v).1 hv
  have hinner : i ∈ f.inner := by
    rw [Frame.mem_inner]
    refine ⟨Nat.pos_of_ne_zero ?_, hi⟩
    rintro rfl
    exact hne hf.id_zero
  obtain ⟨u, hu⟩ := h.exists_parent i hinner
  exact ⟨u, (h.linked_iff u _).2 ⟨i, hinner, hu, rfl⟩⟩

theorem LinksParents.spans (h : LinksParents g entry f sets tree) (hg : g.Consistent)
    (hf : f.Fits g entry) : g.Spans tree entry where
  entry_eq := h.entry_eq
  ids_perm := by
    rw [List.perm_ext_iff_of_nodup h.consistent.nodup_ids hg.nodup_ids]
    intro id
    rw [h.consistent.mem_ids, hg.mem_ids, h.contains_eq]
  data_eq := h.data_eq
  entry_free := (h.rooted hf).predecessors_entry
  one_parent id hid hne := by
    obtain ⟨u, hlink⟩ := h.exists_linked hf (hg.mem_ids.1 hid) hne
    obtain ⟨e, he, -⟩ := (h.rooted hf).predecessors_of_linked hlink
    exact ⟨e, he⟩

theorem mem_outline_dominatorTree (hg : g.Consistent)
    (hentry : g.entry = some entry) (htree : (g.dominatorTree limit).outcome = .ok tree)
    {p : List String} (hp : g.Way entry v p) : v ∈ tree.outline.map (·.1) := by
  have hf := Frame.fits_ofGraph hg (hg.entry_mem entry hentry)
  obtain ⟨sets, hsets, hlinks⟩ := dominatorTree_eq_ok hg hentry htree
  obtain ⟨q, hq⟩ := (exists_way_iff_onEveryWay hg hf hsets hlinks hp).2
    (OnEveryWay.entry_left g entry v)
  exact (hlinks.rooted hf).mem_outline hlinks.entry_eq hq

/-- The way from the entry down a dominator tree visits the dominators of its last node. -/
theorem mem_way_iff_onEveryWay (hg : g.Consistent) (hf : f.Fits g entry)
    (hsets : (dominatorSets f limit).outcome = .ok sets) (hlinks : LinksParents g entry f sets tree)
    {a b : String} {p q : List String} (hp : g.Way entry b p) (hq : tree.Way entry b q) :
    a ∈ q ↔ g.OnEveryWay entry a b := by
  rw [← exists_way_iff_onEveryWay hg hf hsets hlinks hp]
  constructor
  · intro ha
    obtain ⟨-, r, -, -, hr⟩ := hq.split ha
    exact ⟨_, hr⟩
  · rintro ⟨r, hr⟩
    -- the dominator lies on a way of the graph, so the tree has a way to it as well
    have ha := (exists_way_iff_onEveryWay hg hf hsets hlinks hp).1 ⟨r, hr⟩
    obtain ⟨t, -, -, ht, -⟩ := hp.split (ha p hp)
    obtain ⟨s, hs⟩ := (exists_way_iff_onEveryWay hg hf hsets hlinks ht).2
      (OnEveryWay.entry_left g entry a)
    obtain ⟨r, rfl⟩ := hr.exists_eq_cons
    rw [(hlinks.rooted hf).way_unique hq (hs.append hr)]
    exact List.mem_append_left r hs.target_mem

/-- A node that the entry leads to stands in the outline of the dominator tree as deep as it has
other dominators. -/
theorem exists_mem_outline (hg : g.Consistent) (hentry : g.entry = some entry)
    (htree : (g.dominatorTree limit).outcome = .ok tree) {b : String} {p : List String}
    (hp : g.Way entry b p) :
    ∃ others : Finset String, (∀ a, a ∈ others ↔ a ≠ b ∧ g.OnEveryWay entry a b) ∧
      (b, others.card) ∈ tree.outline := by
  have hf := Frame.fits_ofGraph hg (hg.entry_mem entry hentry)
  obtain ⟨sets, hsets, hlinks⟩ := dominatorTree_eq_ok hg hentry htree
  have hrooted := hlinks.rooted hf
  obtain ⟨depth, hmem⟩ : ∃ depth, (b, depth) ∈ tree.outline := by
    simpa using mem_outline_dominatorTree hg hentry htree hp
  obtain ⟨q, hq, hlen⟩ := hrooted.wayOf_of_mem_outline hlinks.entry_eq hmem
  refine ⟨q.toFinset.erase b, ?_, ?_⟩
  · intro a
    rw [Finset.mem_erase, List.mem_toFinset, mem_way_iff_onEveryWay hg hf hsets hlinks hp hq]
  · rw [Finset.card_erase_of_mem (List.mem_toFinset.2 hq.target_mem),
      List.toFinset_card_of_nodup (hrooted.nodup_way hq), hlen]
    exact hmem

end Dominators

end CartFlow.Graph
