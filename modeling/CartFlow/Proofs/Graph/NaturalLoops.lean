import CartFlow.Proofs.Graph.Loops
import Mathlib.Data.List.Forall2

/-!
# Natural loops are exact

The members of the loop that an edge back to its header closes are the header and the nodes from
which a way leads to the tail around the header, each listed once. If the entry leads to the
tail, all these nodes have the header on every way from the entry, and those the entry leads to
are on a closed way through the header that stays in the loop: it enters at the last visit of the
header and comes back along the edge. A cycle in which no node is repeated and which one of its
nodes dominates is therefore inside the loop of the edge with which it comes back to that node.
-/
namespace CartFlow.Graph

variable {α : Type} {g tree : Graph α} {entry header tail id : String}

def Around (g : Graph α) (tail header id : String) : Prop :=
  ∃ p, g.Way id tail p ∧ header ∉ p

section Around

variable {u v : String} {p : List String}

theorem Around.step (h : g.Around tail header v) (hlink : g.Linked u v) (hne : u ≠ header) :
    g.Around tail header u := by
  obtain ⟨p, hp, hno⟩ := h
  refine ⟨u :: p, .step hlink hp, ?_⟩
  rw [List.mem_cons, not_or]
  exact ⟨hne.symm, hno⟩

/-- A way round from the header to the tail passes nodes of the loop only. -/
theorem around_of_mem_way (hway : g.Way header tail (header :: p)) (hno : header ∉ p)
    (hid : id ∈ p) : g.Around tail header id := by
  obtain ⟨q, r, hsplit, -, hr⟩ := hway.split (List.mem_cons_of_mem header hid)
  refine ⟨id :: r, hr, ?_⟩
  intro hmem
  -- the header stands in front, so a second visit would be behind it
  cases q with
  | nil =>
    rw [List.nil_append, List.cons.injEq] at hsplit
    exact hno (hsplit.1 ▸ hid)
  | cons first q =>
    rw [List.cons_append, List.cons.injEq] at hsplit
    exact hno (hsplit.2 ▸ List.mem_append_right q hmem)

end Around

section Members

variable {members : Array String} {pool : Pool} {stack : List String}

theorem nodup_draw (pool : Pool) (ids : List String) : (draw pool ids).1.Nodup := by
  induction ids generalizing pool with
  | nil => exact List.nodup_nil
  | cons id rest ih =>
    unfold draw
    split
    · rw [List.nodup_cons]
      refine ⟨?_, ih _⟩
      intro hmem
      exact absurd (mem_draw.1 hmem).2 (by simp)
    · exact ih pool

/-- What growing a loop keeps: no member is listed twice or still in the pool, and from every
member but the header a way leads to the tail around the header. -/
structure Gathered (g : Graph α) (tail header : String) (members : Array String) (pool : Pool)
    (stack : List String) : Prop where
  nodup : members.toList.Nodup
  drawn : ∀ u ∈ members, u ∉ pool
  header_mem : header ∈ members
  around : ∀ u ∈ members, u = header ∨ g.Around tail header u
  stacked : ∀ u ∈ stack, g.Around tail header u

theorem Gathered.turn (hg : g.Consistent) {rest : List String}
    (h : g.Gathered tail header members pool (id :: rest)) :
    g.Gathered tail header (members ++ (draw pool (g.predecessorIds id)).1)
      (draw pool (g.predecessorIds id)).2
      ((draw pool (g.predecessorIds id)).1.reverse ++ rest) := by
  have hmem : ∀ u, u ∈ members ++ (draw pool (g.predecessorIds id)).1 ↔
      u ∈ members ∨ u ∈ (draw pool (g.predecessorIds id)).1 := by
    intro u
    simp [← Array.mem_toList_iff]
  have hfound : ∀ u ∈ (draw pool (g.predecessorIds id)).1, g.Around tail header u := by
    intro u hu
    obtain ⟨hpred, hpool⟩ := mem_draw.1 hu
    have hne : u ≠ header := fun heq => h.drawn header h.header_mem (heq ▸ hpool)
    exact (h.stacked id List.mem_cons_self).step (hg.mem_predecessorIds.1 hpred) hne
  constructor
  · have hdisjoint : ∀ u ∈ members.toList, ∀ v ∈ (draw pool (g.predecessorIds id)).1, u ≠ v := by
      rintro u hu v hv rfl
      exact h.drawn u (Array.mem_toList_iff.1 hu) (mem_draw.1 hv).2
    rw [Array.toList_appendList, List.nodup_append]
    exact ⟨h.nodup, nodup_draw _ _, hdisjoint⟩
  · intro u hu hleft
    obtain ⟨hpool, hpred⟩ := mem_left.1 hleft
    rcases (hmem u).1 hu with hu | hu
    · exact h.drawn u hu hpool
    · exact hpred (mem_draw.1 hu).1
  · exact (hmem header).2 (.inl h.header_mem)
  · intro u hu
    rcases (hmem u).1 hu with hu | hu
    · exact h.around u hu
    · exact .inr (hfound u hu)
  · intro u hu
    rcases List.mem_append.1 hu with hu | hu
    · exact hfound u (List.mem_reverse.1 hu)
    · exact h.stacked u (List.mem_cons_of_mem id hu)

theorem Gathered.growLoop (hg : g.Consistent) (h : g.Gathered tail header members pool stack) :
    (g.growLoop members pool stack).toList.Nodup ∧
      ∀ u ∈ g.growLoop members pool stack, u = header ∨ g.Around tail header u := by
  induction members, pool, stack using growLoop.induct g with
  | case1 members pool =>
    rw [Graph.growLoop]
    exact ⟨h.nodup, h.around⟩
  | case2 members pool id rest found left hdraw ih =>
    have hnext := h.turn hg
    rw [growLoop_cons]
    rw [hdraw] at hnext ⊢
    exact ih hnext

/-- The members of a natural loop are the header and the nodes from which a way leads to the tail
around the header, and each is listed once. -/
theorem mem_naturalLoop_iff (hg : g.Consistent) (hne : tail ≠ header) {l : Loop}
    (hok : g.naturalLoop tail header = .ok l) :
    l.nodes.Nodup ∧ ∀ id, id ∈ l.nodes ↔ id = header ∨ g.Around tail header id := by
  obtain ⟨hheader, hmembers⟩ := mem_naturalLoop hg hok
  unfold naturalLoop at hok
  obtain ⟨n, -, hok⟩ := bind_eq_ok.1 hok
  cases hok
  have hstart : g.Gathered tail header #[tail, header] ((g.index.erase tail).erase header)
      [tail] := by
    have htail : g.Around tail header tail := ⟨[tail], .here tail, by simpa using hne.symm⟩
    constructor
    · simpa using hne
    · intro u hu
      simp only [List.mem_toArray, List.mem_cons, List.not_mem_nil, or_false] at hu
      rcases hu with rfl | rfl <;> simp
    · simp
    · intro u hu
      simp only [List.mem_toArray, List.mem_cons, List.not_mem_nil, or_false] at hu
      rcases hu with rfl | rfl
      · exact .inr htail
      · exact .inl rfl
    · intro u hu
      rwa [List.mem_singleton.1 hu]
  obtain ⟨hnodup, haround⟩ := hstart.growLoop hg
  refine ⟨hnodup, fun id => ⟨fun hid => haround id (Array.mem_toList_iff.1 hid), ?_⟩⟩
  rintro (rfl | ⟨p, hp, hno⟩)
  · exact hheader
  · exact hmembers id p hp hno

end Members

section List

def closesLoop (tree : Graph α) (e : Edge) : Bool :=
  e.source ≠ e.target ∧ tree.dominates e.target e.source = .ok true

theorem exists_loopsOfEdges (hg : g.Consistent) {edges : List Edge}
    (hsource : ∀ e ∈ edges, g.contains e.source = true)
    (hanswer : ∀ e ∈ edges, ∃ back, tree.dominates e.target e.source = .ok back) :
    ∃ found, g.loopsOfEdges tree edges = .ok found ∧
      List.Forall₂ (fun e l => g.naturalLoop e.source e.target = .ok l)
        (edges.filter tree.closesLoop) found := by
  induction edges with
  | nil => exact ⟨[], rfl, .nil⟩
  | cons e rest ih =>
    rw [List.forall_mem_cons] at hsource hanswer
    obtain ⟨found, hfound, hloops⟩ := ih hsource.2 hanswer.2
    by_cases hself : e.source = e.target
    · refine ⟨found, ?_, ?_⟩
      · rw [loopsOfEdges, if_pos hself, hfound]
      · rwa [List.filter_cons_of_neg (by simp [closesLoop, hself])]
    · obtain ⟨back, hback⟩ := hanswer.1
      cases back with
      | false =>
        refine ⟨found, ?_, ?_⟩
        · rw [loopsOfEdges, if_neg hself, hback, during_ok]
          exact hfound
        · rwa [List.filter_cons_of_neg (by simp [closesLoop, hback])]
      | true =>
        obtain ⟨n, hn⟩ := hg.node_eq_ok hsource.1
        have hloop : ∃ l, g.naturalLoop e.source e.target = .ok l := by
          rw [naturalLoop, hn]
          exact ⟨_, rfl⟩
        obtain ⟨l, hl⟩ := hloop
        refine ⟨l :: found, ?_, ?_⟩
        · rw [loopsOfEdges, if_neg hself, hback, during_ok]
          simp only [bind, Except.bind, if_true, hl, hfound]
          rfl
        · rw [List.filter_cons_of_pos (by simp [closesLoop, hself, hback])]
          exact .cons hl hloops

theorem hasEdge_self (hg : g.Consistent) (id : String) :
    g.hasEdge id id = g.edges.any fun e => e.source == id && e.target == id := by
  rw [Bool.eq_iff_iff, hasEdge, List.contains_iff_mem, hg.mem_successorIds, Array.any_eq_true']
  simp [Linked]

/-- The loops of a graph are found, whatever its dominator tree looks like: first those of single
nodes, then those of the edges that lead back. -/
theorem exists_loops (hg : g.Consistent) (hentry : g.entry = some entry) {limit : Int}
    (htree : (g.dominatorTree limit).outcome = .ok tree) :
    ∃ found, g.loops tree = .ok (g.selfLoops ++ found) ∧
      List.Forall₂ (fun e l => g.naturalLoop e.source e.target = .ok l)
        (g.edges.toList.filter tree.closesLoop) found := by
  obtain ⟨sets, -, hlinks⟩ := dominatorTree_eq_ok hg hentry htree
  have hsource : ∀ e ∈ g.edges.toList, g.contains e.source = true := by
    intro e he
    exact hg.source_mem e (Array.mem_toList_iff.1 he)
  have hanswer : ∀ e ∈ g.edges.toList, ∃ back, tree.dominates e.target e.source = .ok back := by
    intro e he
    have htarget := hg.target_mem e (Array.mem_toList_iff.1 he)
    exact ⟨_, dominates_eq hlinks.consistent (by rwa [hlinks.contains_eq])
      (by rw [hlinks.contains_eq]; exact hsource e he)⟩
  obtain ⟨found, hfound, hloops⟩ := exists_loopsOfEdges hg hsource hanswer
  refine ⟨found, ?_, hloops⟩
  rw [loops, hfound]
  rfl

theorem exists_left_of_forall₂ {β γ : Type} {R : β → γ → Prop} {bs : List β} {cs : List γ}
    (h : List.Forall₂ R bs cs) {c : γ} (hc : c ∈ cs) : ∃ b ∈ bs, R b c := by
  induction h with
  | nil => exact absurd hc List.not_mem_nil
  | cons hbc _ ih =>
    rcases List.mem_cons.1 hc with rfl | hc
    · exact ⟨_, List.mem_cons_self, hbc⟩
    · obtain ⟨b, hb, hr⟩ := ih hc
      exact ⟨b, List.mem_cons_of_mem _ hb, hr⟩

/-- A loop is that of a node with an edge to itself, or that of an edge between two nodes. -/
theorem mem_loops_cases (hg : g.Consistent) (hentry : g.entry = some entry) {limit : Int}
    (htree : (g.dominatorTree limit).outcome = .ok tree) {found : List Loop}
    (hok : g.loops tree = .ok found) {l : Loop} (hl : l ∈ found) :
    (∃ id, g.contains id = true ∧ l = ⟨id, id, [id]⟩) ∨
      ∃ e ∈ g.edges, e.source ≠ e.target ∧ g.naturalLoop e.source e.target = .ok l := by
  obtain ⟨others, hfound, hloops⟩ := exists_loops hg hentry htree
  rw [hok] at hfound
  cases hfound
  rcases List.mem_append.1 hl with hl | hl
  · obtain ⟨id, hid, rfl⟩ := List.mem_map.1 hl
    exact .inl ⟨id, hg.mem_ids.1 (List.mem_filter.1 hid).1, rfl⟩
  · obtain ⟨e, he, hloop⟩ := exists_left_of_forall₂ hloops hl
    obtain ⟨he, hcloses⟩ := List.mem_filter.1 he
    simp only [closesLoop, decide_eq_true_eq] at hcloses
    exact .inr ⟨e, Array.mem_toList_iff.1 he, hcloses.1, hloop⟩

theorem contains_of_mem_loops (hg : g.Consistent) (hentry : g.entry = some entry) {limit : Int}
    (htree : (g.dominatorTree limit).outcome = .ok tree) {found : List Loop}
    (hok : g.loops tree = .ok found) :
    ∀ l ∈ found, ∀ id ∈ l.nodes, g.contains id = true := by
  intro l hl id hid
  rcases mem_loops_cases hg hentry htree hok hl with ⟨v, hv, rfl⟩ | ⟨e, he, hne, hloop⟩
  · rwa [List.mem_singleton.1 hid]
  · rcases ((mem_naturalLoop_iff hg hne hloop).2 id).1 hid with rfl | ⟨p, hp, -⟩
    · exact hg.target_mem e he
    · cases hp with
      | here => exact hg.source_mem e he
      | step hlink _ => exact (hg.contains_of_linked hlink).1

theorem nodup_of_mem_loops (hg : g.Consistent) (hentry : g.entry = some entry) {limit : Int}
    (htree : (g.dominatorTree limit).outcome = .ok tree) {found : List Loop}
    (hok : g.loops tree = .ok found) : ∀ l ∈ found, l.nodes ≠ [] ∧ l.nodes.Nodup := by
  intro l hl
  rcases mem_loops_cases hg hentry htree hok hl with ⟨v, -, rfl⟩ | ⟨e, -, hne, hloop⟩
  · exact ⟨List.cons_ne_nil _ _, List.nodup_singleton v⟩
  · obtain ⟨hnodup, hmem⟩ := mem_naturalLoop_iff hg hne hloop
    exact ⟨List.ne_nil_of_mem ((hmem e.target).2 (.inl rfl)), hnodup⟩

end List

/-- The loop of an edge from a tail back to a header, in a graph with the given entry. -/
structure IsNaturalLoop (g : Graph α) (entry tail header : String) (l : Loop) : Prop where
  header_eq : l.header = header
  tail_eq : l.tail = tail
  nodup : l.nodes.Nodup
  mem_iff : ∀ id, id ∈ l.nodes ↔ id = header ∨ ∃ p, g.Way id tail p ∧ header ∉ p
  dominated : (∃ p, g.Way entry tail p) → ∀ id ∈ l.nodes, ∀ p, g.Way entry id p → header ∈ p
  closed : (∃ p, g.Way entry tail p) → ∀ id ∈ l.nodes, (∃ p, g.Way entry id p) →
    ∃ p, g.Way header header p ∧ 2 ≤ p.length ∧ id ∈ p ∧ ∀ v ∈ p, v ∈ l.nodes

section Exact

/-- A node from which a way leads around the header to a node that the header dominates is
dominated by the header as well. -/
theorem Around.onEveryWay (h : g.Around tail header id) (hdom : g.OnEveryWay entry header tail) :
    g.OnEveryWay entry header id := by
  intro p hp
  obtain ⟨q, hq, hno⟩ := h
  obtain ⟨q, rfl⟩ := hq.exists_eq_cons
  rcases List.mem_append.1 (hdom _ (hp.append hq)) with hmem | hmem
  · exact hmem
  · exact absurd (List.mem_cons_of_mem id hmem) hno

/-- The last visit of the header on a way from the entry begins a way from the header to the tail
that does not come back to the header. -/
theorem exists_arc {p : List String} (hdom : g.OnEveryWay entry header tail)
    (htail : g.Way entry tail p) {q : List String} (hreach : g.Way entry id q)
    (hid : id = header ∨ g.Around tail header id) :
    ∃ s, g.Way header tail (header :: s) ∧ header ∉ s ∧ id ∈ header :: s := by
  rcases hid with rfl | haround
  · obtain ⟨-, r, -, hr, -, hway⟩ := htail.split_last (hdom p htail)
    exact ⟨r, hway, hr, List.mem_cons_self⟩
  · obtain ⟨-, r, -, hr, -, hway⟩ := hreach.split_last (haround.onEveryWay hdom q hreach)
    obtain ⟨t, ht, hno⟩ := haround
    obtain ⟨t, rfl⟩ := ht.exists_eq_cons
    rw [List.mem_cons, not_or] at hno
    refine ⟨r ++ t, hway.append ht, ?_, ?_⟩
    · rw [List.mem_append, not_or]
      exact ⟨hr, hno.2⟩
    · exact List.mem_append_left t hway.target_mem

/-- What is found for an edge that leads back to a dominator is its natural loop. -/
theorem isNaturalLoop (hg : g.Consistent) (hentry : g.entry = some entry) {limit : Int}
    (htree : (g.dominatorTree limit).outcome = .ok tree) {e : Edge} (he : e ∈ g.edges)
    (hcloses : tree.closesLoop e = true) {l : Loop}
    (hloop : g.naturalLoop e.source e.target = .ok l) :
    g.IsNaturalLoop entry e.source e.target l := by
  simp only [closesLoop, decide_eq_true_eq] at hcloses
  obtain ⟨hne, hback⟩ := hcloses
  obtain ⟨hnodup, hmem⟩ := mem_naturalLoop_iff hg hne hloop
  have hdom : ∀ p, g.Way entry e.source p → g.OnEveryWay entry e.target e.source := by
    intro p hp
    obtain ⟨answer, hanswer, hiff⟩ :=
      exists_dominates_iff hg hentry htree (hg.target_mem e he) hp
    rw [hback] at hanswer
    exact hiff.1 (Except.ok.inj hanswer).symm
  have hends : l.header = e.target ∧ l.tail = e.source := by
    unfold naturalLoop at hloop
    obtain ⟨n, -, hloop⟩ := bind_eq_ok.1 hloop
    cases hloop
    exact ⟨rfl, rfl⟩
  refine ⟨hends.1, hends.2, hnodup, hmem, ?_, ?_⟩
  · rintro ⟨p, hp⟩ id hid
    rcases (hmem id).1 hid with rfl | haround
    · exact OnEveryWay.refl g entry e.target
    · exact haround.onEveryWay (hdom p hp)
  · rintro ⟨p, hp⟩ id hid ⟨q, hq⟩
    obtain ⟨s, hway, hno, hids⟩ := exists_arc (hdom p hp) hp hq ((hmem id).1 hid)
    refine ⟨e.target :: s ++ [e.target], hway.snoc ⟨e, he, rfl, rfl⟩, by simp,
      List.mem_append_left _ hids, ?_⟩
    intro v hv
    rw [hmem]
    simp only [List.cons_append, List.mem_cons, List.mem_append, List.not_mem_nil, or_false] at hv
    rcases hv with rfl | hv | rfl
    · exact .inl rfl
    · exact .inr (around_of_mem_way hway hno hv)
    · exact .inl rfl

/-- The loops of a graph are those of its nodes with an edge to themselves, in the order of the
nodes, and then, in the order of the edges, the natural loop of each edge that leads back to
another node which dominates its source. -/
theorem loops_exact (hg : g.Built) (hentry : g.entry = some entry) {limit : Int}
    (htree : (g.dominatorTree limit).outcome = .ok tree) :
    ∃ found,
      g.loops tree = .ok ((g.ids.filter fun id =>
        g.edges.any fun e => e.source == id && e.target == id).map (fun id => ⟨id, id, [id]⟩) ++
          found) ∧
      List.Forall₂ (fun e l => g.IsNaturalLoop entry e.source e.target l)
        (g.edges.toList.filter fun e =>
          e.source ≠ e.target ∧ tree.dominates e.target e.source = .ok true) found := by
  have hg := hg.consistent
  obtain ⟨found, hfound, hloops⟩ := exists_loops hg hentry htree
  refine ⟨found, ?_, ?_⟩
  · rw [hfound, selfLoops]
    simp only [hasEdge_self hg]
  · have hedges : ∀ e ∈ g.edges.toList.filter tree.closesLoop,
        e ∈ g.edges ∧ tree.closesLoop e = true := by
      intro e he
      exact (List.mem_filter.1 he).imp_left Array.mem_toList_iff.1
    have hboth := (List.forall₂_and_left _ _).2 ⟨hedges, hloops⟩
    apply hboth.imp
    rintro e l ⟨⟨he, hcloses⟩, hloop⟩
    exact isNaturalLoop hg hentry htree he hcloses hloop

end Exact

namespace Knot

/-! The entry leads into a cycle of two nodes with parallel edges back. One of the two has an edge
to itself, and another node that the entry does not lead to has an edge to it. -/

def edges : List Edge :=
  [⟨"a", "b", 0⟩, ⟨"b", "c", 0⟩, ⟨"c", "b", 1⟩, ⟨"c", "b", 2⟩, ⟨"c", "c", 0⟩, ⟨"x", "c", 0⟩,
    ⟨"x", "x", 0⟩]

theorem exists_tree : ∃ g tree : Graph Unit, g.Built ∧ g.edges.toList = edges ∧
    g.entry = some "a" ∧ (g.dominatorTree 0).outcome = .ok tree := by
  obtain ⟨g, tree, hbuilt, hedges, -, hentry, htree⟩ :=
    exists_built_dominatorTree () ["a", "b", "c", "x"] edges "a" (by decide) (by decide) (by decide)
  exact ⟨g, tree, hbuilt, hedges, hentry, htree⟩

theorem mem_of_way {g : Graph Unit} (hedges : g.edges.toList = edges) {v : String}
    {p : List String} (hp : g.Way "a" v p) (hne : v ≠ "a") : "b" ∈ p := by
  have hnext : ∀ e ∈ edges, e.source = "a" → e.target = "b" := by decide
  cases hp with
  | here => exact absurd rfl hne
  | step hlink hway =>
    obtain ⟨e, he, hsource, rfl⟩ := (linked_iff_of_edges hedges).1 hlink
    rw [hnext e he hsource] at hway
    exact List.mem_cons_of_mem "a" hway.source_mem

theorem way_entry {g : Graph Unit} (hedges : g.edges.toList = edges) :
    g.Way "a" "c" ["a", "b", "c"] :=
  .step ((linked_iff_of_edges hedges).2 (by decide))
    (.step ((linked_iff_of_edges hedges).2 (by decide)) (.here "c"))

end Knot

/-- The loop of an edge back has the node that the entry does not lead to, and not the entry. -/
theorem loops_exact_knot :
    ∃ (g tree : Graph Unit) (found : List Loop), g.Built ∧ g.entry = some "a" ∧
      (g.dominatorTree 0).outcome = .ok tree ∧ g.loops tree = .ok found ∧
      ∃ l ∈ found, l.header = "b" ∧ l.tail = "c" ∧ "x" ∈ l.nodes ∧ "a" ∉ l.nodes := by
  obtain ⟨g, tree, hbuilt, hedges, hentry, htree⟩ := Knot.exists_tree
  obtain ⟨found, hfound, hloops⟩ := loops_exact hbuilt hentry htree
  have hlink : ∀ {u v}, (∃ e ∈ Knot.edges, e.source = u ∧ e.target = v) → g.Linked u v :=
    (linked_iff_of_edges hedges).2
  have hback : tree.dominates "b" "c" = .ok true := by
    obtain ⟨answer, hanswer, hiff⟩ := exists_dominates_iff hbuilt.consistent hentry htree
      (hbuilt.consistent.contains_of_linked (hlink (u := "a") (v := "b") (by decide))).2
      (Knot.way_entry hedges)
    rwa [hiff.2 fun p hp => Knot.mem_of_way hedges hp (by decide)] at hanswer
  have hedge : (⟨"c", "b", 1⟩ : Edge) ∈ g.edges.toList.filter fun e =>
      e.source ≠ e.target ∧ tree.dominates e.target e.source = .ok true := by
    rw [List.mem_filter, hedges, decide_eq_true_eq]
    exact ⟨by decide, by decide, hback⟩
  obtain ⟨l, hl, hloop⟩ := exists_left_of_forall₂ (R := flip fun e l =>
    g.IsNaturalLoop "a" e.source e.target l) hloops.flip hedge
  refine ⟨g, tree, _, hbuilt, hentry, htree, hfound, l, List.mem_append_right _ hl,
    hloop.header_eq, hloop.tail_eq, ?_, ?_⟩
  · rw [hloop.mem_iff]
    exact .inr ⟨["x", "c"], .step (hlink (by decide)) (.here "c"), by decide⟩
  · rw [hloop.mem_iff]
    rintro (heq | ⟨p, hp, hno⟩)
    · exact absurd heq (by decide)
    · exact hno (Knot.mem_of_way hedges hp (by decide))

/-- A cycle in which no node is repeated: its nodes in order, the last of them with an edge to the
first. A node with an edge to itself is one. -/
structure SimpleCycle (g : Graph α) (nodes : List String) : Prop where
  nodup : nodes.Nodup
  closed : ∃ first last, g.Way first last nodes ∧ g.Linked last first

section Cycles

variable {cycle : List String}

/-- A cycle may be read from any of its nodes on. -/
theorem SimpleCycle.exists_round (hcycle : g.SimpleCycle cycle) (hheader : header ∈ cycle) :
    ∃ tail s, g.Way header tail (header :: s) ∧ g.Linked tail header ∧ header ∉ s ∧
      ∀ v, v ∈ cycle ↔ v ∈ header :: s := by
  obtain ⟨hnodup, first, last, hway, hback⟩ := hcycle
  obtain ⟨q, r, rfl, hq, hr⟩ := hway.split hheader
  -- from the header to the last node, along the closing edge, and on to the header
  have hround : g.Way header header (header :: (r ++ q) ++ [header]) := by
    have hrest := hr.append (.step hback hq)
    rwa [List.cons_append, ← List.append_assoc, ← List.cons_append] at hrest
  have hno : header ∉ r ++ q := by
    have hperm : (q ++ header :: r).Perm (header :: (r ++ q)) := List.perm_append_comm
    exact (List.nodup_cons.1 (hperm.nodup_iff.1 hnodup)).1
  rcases hround.eq_or_snoc with ⟨-, heq⟩ | ⟨tail, s, hs, hlink, heq⟩
  · simp at heq
  · obtain ⟨rfl, -⟩ := List.append_inj' heq rfl
    refine ⟨tail, r ++ q, hs, hlink, hno, fun v => ?_⟩
    simp only [List.mem_append, List.mem_cons]
    tauto

/-- All nodes of a cycle that the entry leads to, and that one of its nodes dominates, are in one
loop. -/
theorem exists_loop_of_simpleCycle (hg : g.Built) (hentry : g.entry = some entry) {limit : Int}
    (htree : (g.dominatorTree limit).outcome = .ok tree) (hcycle : g.SimpleCycle cycle)
    (hreach : ∀ v ∈ cycle, ∃ p, g.Way entry v p) (hheader : header ∈ cycle)
    (hdom : ∀ v ∈ cycle, ∀ p, g.Way entry v p → header ∈ p) :
    ∃ found, g.loops tree = .ok found ∧ ∃ l ∈ found, ∀ v ∈ cycle, v ∈ l.nodes := by
  have hg := hg.consistent
  obtain ⟨others, hloops, -⟩ := exists_loops hg hentry htree
  obtain ⟨tail, s, hway, hback, hno, hnodes⟩ := hcycle.exists_round hheader
  have htail : tail ∈ cycle := (hnodes tail).2 hway.target_mem
  obtain ⟨p, hp⟩ := hreach tail htail
  obtain ⟨l, hl, hmembers⟩ :=
    exists_loop_of_back_edge hg hentry htree hloops hback hp (hdom tail htail)
  refine ⟨_, hloops, l, hl, fun v hv => hmembers v ?_⟩
  rcases List.mem_cons.1 ((hnodes v).1 hv) with rfl | hv
  · exact .inl rfl
  · exact .inr (around_of_mem_way hway hno hv)

end Cycles

/-- The cycle is in one loop, also when it is read from the node that does not dominate it. -/
theorem exists_loop_of_simpleCycle_knot :
    ∃ (g tree : Graph Unit) (found : List Loop), g.Built ∧ g.entry = some "a" ∧
      (g.dominatorTree 0).outcome = .ok tree ∧ g.SimpleCycle ["c", "b"] ∧
      g.loops tree = .ok found ∧ ∃ l ∈ found, "b" ∈ l.nodes ∧ "c" ∈ l.nodes := by
  obtain ⟨g, tree, hbuilt, hedges, hentry, htree⟩ := Knot.exists_tree
  have hlink : ∀ {u v}, (∃ e ∈ Knot.edges, e.source = u ∧ e.target = v) → g.Linked u v :=
    (linked_iff_of_edges hedges).2
  have hcycle : g.SimpleCycle ["c", "b"] :=
    ⟨by decide, "c", "b", .step (hlink (by decide)) (.here "b"), hlink (by decide)⟩
  have hreach : ∀ v ∈ ["c", "b"], ∃ p, g.Way "a" v p := by
    simp only [List.forall_mem_cons, List.not_mem_nil, false_imp_iff, implies_true, and_true]
    exact ⟨⟨_, Knot.way_entry hedges⟩, ⟨_, .step (hlink (by decide)) (.here "b")⟩⟩
  have hdom : ∀ v ∈ ["c", "b"], ∀ p, g.Way "a" v p → "b" ∈ p := by
    have hne : ∀ v ∈ ["c", "b"], v ≠ "a" := by decide
    exact fun v hv p hp => Knot.mem_of_way hedges hp (hne v hv)
  obtain ⟨found, hfound, l, hl, hall⟩ :=
    exists_loop_of_simpleCycle hbuilt hentry htree hcycle hreach (by decide) hdom
  exact ⟨g, tree, found, hbuilt, hentry, htree, hcycle, hfound, l, hl, hall "b" (by decide),
    hall "c" (by decide)⟩

end CartFlow.Graph
