import CartFlow.Graph.Loops
import CartFlow.Proofs.Graph.DominatorTree

/-!
# What the loops of a graph contain

Growing a loop backwards keeps the predecessors of each member in the loop, except for those
of the header and of the members that are still to be looked at. The loop of an edge back to
its header therefore contains every node from which a way leads to the tail around the header,
and a node on a cycle that one of its nodes dominates is in a loop.
-/
namespace CartFlow.Graph

variable {α : Type} {g tree : Graph α}

section Grow

variable {header tail id : String}

/-- Each node is a member or in the pool, and the predecessors of a member are members unless
it is the header or on the stack. -/
structure Grown (g : Graph α) (header : String) (members : Array String) (pool : Pool)
    (stack : List String) : Prop where
  met : ∀ u, g.contains u = true → u ∈ members ∨ u ∈ pool
  closed : ∀ v ∈ members, v = header ∨ v ∈ stack ∨ ∀ u, g.Linked u v → u ∈ members

/-- One turn of growing a loop: the predecessors of the node on top of the stack that are still
in the pool become members, and are looked at in turn. -/
theorem growLoop_cons (g : Graph α) (members : Array String) (pool : Pool) (id : String)
    (rest : List String) :
    g.growLoop members pool (id :: rest) =
      g.growLoop (members ++ (draw pool (g.predecessorIds id)).1)
        (draw pool (g.predecessorIds id)).2
        ((draw pool (g.predecessorIds id)).1.reverse ++ rest) := by
  rw [growLoop]

theorem Grown.growLoop (hg : g.Consistent) {members : Array String} {pool : Pool}
    {stack : List String} (h : g.Grown header members pool stack) :
    (∀ v ∈ members, v ∈ g.growLoop members pool stack) ∧
      ∀ v ∈ g.growLoop members pool stack,
        v = header ∨ ∀ u, g.Linked u v → u ∈ g.growLoop members pool stack := by
  induction members, pool, stack using growLoop.induct g with
  | case1 members pool =>
    rw [Graph.growLoop]
    refine ⟨fun _ hv => hv, ?_⟩
    intro v hv
    rcases h.closed v hv with hv | hv | hv
    · exact .inl hv
    · exact absurd hv List.not_mem_nil
    · exact .inr hv
  | case2 members pool id rest found left hdraw ih =>
    have hfound : ∀ u, u ∈ found ↔ u ∈ g.predecessorIds id ∧ u ∈ pool := by
      intro u
      rw [← mem_draw, hdraw]
    have hmem : ∀ u, u ∈ members ++ found ↔ u ∈ members ∨ u ∈ found := by
      intro u
      simp [← Array.mem_toList_iff]
    have hnext : g.Grown header (members ++ found) left (found.reverse ++ rest) := by
      constructor
      · intro u hu
        rw [hmem]
        rcases h.met u hu with hu | hu
        · exact .inl (.inl hu)
        · by_cases hpred : u ∈ g.predecessorIds id
          · exact .inl (.inr ((hfound u).2 ⟨hpred, hu⟩))
          · right
            have hleft : u ∈ (draw pool (g.predecessorIds id)).2 := mem_left.2 ⟨hu, hpred⟩
            rwa [hdraw] at hleft
      · intro v hv
        simp only [hmem, List.mem_append, List.mem_reverse] at hv ⊢
        rcases hv with hv | hv
        · rcases h.closed v hv with hv | hv | hv
          · exact .inl hv
          · rcases List.mem_cons.1 hv with rfl | hv
            · -- the predecessors of the node that is looked at were met before or are found now
              refine .inr (.inr fun u hu => ?_)
              rcases h.met u (hg.contains_of_linked hu).1 with hmet | hmet
              · exact .inl hmet
              · exact .inr ((hfound u).2 ⟨hg.mem_predecessorIds.2 hu, hmet⟩)
            · exact .inr (.inl (.inr hv))
          · exact .inr (.inr fun u hu => .inl (hv u hu))
        · exact .inr (.inl (.inl hv))
    obtain ⟨hkeep, hclosed⟩ := ih hnext
    rw [growLoop_cons, hdraw]
    exact ⟨fun v hv => hkeep v ((hmem v).2 (.inl hv)), hclosed⟩

/-- The loop of an edge back to its header has the header and every node from which a way leads
to the tail around the header. -/
theorem mem_naturalLoop (hg : g.Consistent) {l : Loop} (hok : g.naturalLoop tail header = .ok l) :
    header ∈ l.nodes ∧ ∀ u p, g.Way u tail p → header ∉ p → u ∈ l.nodes := by
  unfold naturalLoop at hok
  obtain ⟨n, -, hok⟩ := bind_eq_ok.1 hok
  cases hok
  have hgrown : g.Grown header #[tail, header] ((g.index.erase tail).erase header) [tail] := by
    constructor
    · intro u hu
      have hu : u ∈ g.index := Std.HashMap.mem_iff_contains.2 hu
      by_cases htail : u = tail
      · simp [htail]
      · by_cases hheader : u = header
        · simp [hheader]
        · right
          simp [hu, Ne.symm htail, Ne.symm hheader]
    · intro v hv
      simp only [List.mem_toArray, List.mem_cons, List.not_mem_nil, or_false] at hv
      rcases hv with rfl | rfl
      · exact .inr (.inl List.mem_cons_self)
      · exact .inl rfl
  obtain ⟨hkeep, hclosed⟩ := hgrown.growLoop hg
  simp only [Array.mem_toList_iff]
  refine ⟨hkeep header (by simp), ?_⟩
  intro u p hp hheader
  induction hp with
  | here => exact hkeep _ (by simp)
  | step hl hway ih =>
    rw [List.mem_cons, not_or] at hheader
    rcases hclosed _ (ih hok hgrown hkeep hclosed hheader.2) with heq | hpred
    · exact absurd (heq ▸ hway.source_mem) hheader.2
    · exact hpred _ hl

end Grow

section Cycles

variable {entry id : String} {found : List Loop}

theorem mem_loopsOfEdges {edges : List Edge} (hok : g.loopsOfEdges tree edges = .ok found)
    {e : Edge} (he : e ∈ edges) (hne : e.source ≠ e.target)
    (hdom : tree.dominates e.target e.source = .ok true) :
    ∃ l ∈ found, g.naturalLoop e.source e.target = .ok l := by
  induction edges generalizing found with
  | nil => exact absurd he List.not_mem_nil
  | cons other rest ih =>
    rw [loopsOfEdges] at hok
    rcases List.mem_cons.1 he with rfl | he
    · rw [if_neg hne, hdom, during_ok] at hok
      obtain ⟨back, hback, hok⟩ := bind_eq_ok.1 hok
      cases hback
      rw [if_pos rfl] at hok
      obtain ⟨l, hl, hok⟩ := bind_eq_ok.1 hok
      obtain ⟨others, -, hok⟩ := bind_eq_ok.1 hok
      cases hok
      exact ⟨l, List.mem_cons_self, hl⟩
    · split at hok
      · exact ih hok he
      · obtain ⟨back, -, hok⟩ := bind_eq_ok.1 hok
        split at hok
        · obtain ⟨l, -, hok⟩ := bind_eq_ok.1 hok
          obtain ⟨others, hothers, hok⟩ := bind_eq_ok.1 hok
          cases hok
          obtain ⟨l', hl', hloop⟩ := ih hothers he
          exact ⟨l', List.mem_cons_of_mem l hl', hloop⟩
        · exact ih hok he

theorem loops_eq_ok (hok : g.loops tree = .ok found) :
    ∃ others, g.loopsOfEdges tree g.edges.toList = .ok others ∧ found = g.selfLoops ++ others := by
  unfold loops at hok
  cases hedges : g.loopsOfEdges tree g.edges.toList with
  | error e => rw [hedges] at hok; cases hok
  | ok others =>
    rw [hedges] at hok
    cases hok
    exact ⟨others, rfl, rfl⟩

theorem exists_loop_of_linked_self (hg : g.Consistent) (hok : g.loops tree = .ok found)
    (hself : g.Linked id id) : ∃ l ∈ found, id ∈ l.nodes := by
  obtain ⟨others, -, rfl⟩ := loops_eq_ok hok
  have hedge : g.hasEdge id id = true := by
    rw [hasEdge, List.contains_iff_mem]
    exact hg.mem_successorIds.2 hself
  have hmem : id ∈ g.ids.filter fun id => g.hasEdge id id :=
    List.mem_filter.2 ⟨hg.mem_ids.2 (hg.contains_of_linked hself).1, hedge⟩
  exact ⟨_, List.mem_append_left _ (List.mem_map_of_mem hmem), List.mem_singleton_self id⟩

/-- The target of an edge back to a dominator of its source, and all nodes from which a way leads
to the source around the dominator, are in one loop. -/
theorem exists_loop_of_back_edge (hg : g.Consistent) (hentry : g.entry = some entry) {limit : Int}
    (htree : (g.dominatorTree limit).outcome = .ok tree) (hok : g.loops tree = .ok found)
    {tail header : String} {q : List String} (hlink : g.Linked tail header)
    (hreach : g.Way entry tail q) (hdom : g.OnEveryWay entry header tail) :
    ∃ l ∈ found, ∀ id, id = header ∨ (∃ p, g.Way id tail p ∧ header ∉ p) → id ∈ l.nodes := by
  by_cases hne : tail = header
  · subst hne
    obtain ⟨l, hl, hself⟩ := exists_loop_of_linked_self hg hok hlink
    refine ⟨l, hl, ?_⟩
    rintro id (rfl | ⟨p, hp, hno⟩)
    · exact hself
    · exact absurd hp.target_mem hno
  · obtain ⟨answer, hanswer, hiff⟩ :=
      exists_dominates_iff hg hentry htree (hg.contains_of_linked hlink).2 hreach
    rw [hiff.2 hdom] at hanswer
    obtain ⟨others, hothers, rfl⟩ := loops_eq_ok hok
    obtain ⟨e, he, rfl, rfl⟩ := hlink
    obtain ⟨l, hl, hloop⟩ :=
      mem_loopsOfEdges hothers (Array.mem_toList_iff.2 he) hne hanswer
    obtain ⟨hheader, hmembers⟩ := mem_naturalLoop hg hloop
    refine ⟨l, List.mem_append_right _ hl, ?_⟩
    rintro id (rfl | ⟨p, hp, hno⟩)
    · exact hheader
    · exact hmembers id p hp hno

/-- Each cycle through a node has a node that dominates the cycle. -/
def Headed (g : Graph α) (id : String) : Prop :=
  ∀ entry v p, g.entry = some entry → g.Linked id v → g.Way v id p →
    ∃ header ∈ p, ∀ u ∈ p, g.OnEveryWay entry header u

/-- A node on a cycle that one of the nodes of the cycle dominates is in a loop. -/
theorem exists_loop_of_cycle (hg : g.Consistent) (hentry : g.entry = some entry) {limit : Int}
    (htree : (g.dominatorTree limit).outcome = .ok tree) (hok : g.loops tree = .ok found)
    {v header : String} {p q : List String} (hreach : g.Way entry id q) (hlink : g.Linked id v)
    (hp : g.Way v id p) (hheader : header ∈ p) (hdom : ∀ u ∈ p, g.OnEveryWay entry header u) :
    ∃ l ∈ found, id ∈ l.nodes := by
  -- the way from the node to the first visit of the header ends with an edge back to it
  obtain ⟨s, t, rfl, hs, hway, -⟩ := hp.split_first hheader
  have hsub : ∀ u ∈ id :: s, u ∈ s ++ header :: t := by
    intro u hu
    rcases List.mem_cons.1 hu with rfl | hu
    · exact hp.target_mem
    · exact List.mem_append_left _ hu
  rcases (Way.step hlink hway).eq_or_snoc with ⟨-, heq⟩ | ⟨tail, r, hr, hback, heq⟩
  · simp at heq
  · rw [← List.cons_append] at heq
    obtain ⟨rfl, -⟩ := List.append_inj' heq rfl
    have htail := hsub tail hr.target_mem
    obtain ⟨l, hl, hmembers⟩ := exists_loop_of_back_edge hg hentry htree hok hback
      (hreach.append hr) (hdom tail htail)
    refine ⟨l, hl, hmembers id ?_⟩
    by_cases heq : id = header
    · exact .inl heq
    · refine .inr ⟨id :: s, hr, ?_⟩
      rw [List.mem_cons, not_or]
      exact ⟨Ne.symm heq, hs⟩

end Cycles

end CartFlow.Graph
