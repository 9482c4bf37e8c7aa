import CartFlow.Graph.Basic
import Mathlib.Data.List.Basic
import Mathlib.Data.List.Induction
import Mathlib.Data.List.Nodup
import Mathlib.Data.List.Perm.Subperm

/-!
# Consistent graphs

An edge is stored in the list of all edges and once more, by its number, with each of its
ends, and a node is found through the index. `Consistent` says that these views agree. Every
graph that the operations can build is consistent, so afterwards a graph may be looked at
through its list of edges alone: the edges that leave or enter a node are those of the
list with that source or target, in the same order.
-/
namespace CartFlow.Graph

variable {α : Type}

inductive Built : Graph α → Prop
  | empty : Built empty
  | insert {g : Graph α} (id : String) (data : α) : Built g → Built (g.insert id data)
  | modify {g : Graph α} (id : String) (f : α → α) : Built g → Built (g.modify id f)
  | addEdge {g h : Graph α} {source target : String} {label : UInt8} :
      Built g → g.addEdge source target label = .ok h → Built h
  | setEntry {g h : Graph α} {id : String} : Built g → g.setEntry id = .ok h → Built h
  | setExit {g h : Graph α} {id : String} : Built g → g.setExit id = .ok h → Built h

def edgeNumbers (g : Graph α) (chosen : Edge → String) (id : String) : List Nat :=
  (List.range g.edges.size).filter fun k => g.edges[k]?.any fun e => chosen e == id

/-- All views of a graph agree. -/
structure Consistent (g : Graph α) : Prop where
  index_iff : ∀ id i, g.index[id]? = some i ↔ ∃ n : Node α, g.nodes[i]? = some n ∧ n.id = id
  source_mem : ∀ e ∈ g.edges, g.contains e.source
  target_mem : ∀ e ∈ g.edges, g.contains e.target
  outgoing_eq : ∀ n ∈ g.nodes, n.outgoing.toList = g.edgeNumbers (·.source) n.id
  incoming_eq : ∀ n ∈ g.nodes, n.incoming.toList = g.edgeNumbers (·.target) n.id
  entry_mem : ∀ id, g.entry = some id → g.contains id
  exit_mem : ∀ id, g.exit = some id → g.contains id

theorem contains_iff {g : Graph α} {id : String} :
    g.contains id = true ↔ ∃ i, g.index[id]? = some i := by
  rw [contains, Std.HashMap.contains_eq_isSome_getElem?, Option.isSome_iff_exists]

theorem edgeNumbers_push {g h : Graph α} {e : Edge} (hedges : h.edges = g.edges.push e)
    (chosen : Edge → String) (id : String) :
    h.edgeNumbers chosen id =
      g.edgeNumbers chosen id ++ if chosen e == id then [g.edges.size] else [] := by
  have hold : ∀ k ∈ List.range g.edges.size,
      (h.edges[k]?.any fun e => chosen e == id) = g.edges[k]?.any fun e => chosen e == id := by
    intro k hk
    have hk := List.mem_range.1 hk
    rw [hedges, Array.getElem?_push, if_neg (by omega)]
  rw [edgeNumbers, edgeNumbers, hedges, Array.size_push, List.range_succ, List.filter_append,
    ← hedges, List.filter_congr hold]
  congr 1
  cases hid : chosen e == id <;> simp [hedges, hid]

theorem filterMap_filter_range {β : Type} (l : List β) (p : β → Bool) :
    ((List.range l.length).filter fun k => l[k]?.any p).filterMap (l[·]?) = l.filter p := by
  induction l using List.reverseRecOn with
  | nil => rfl
  | append_singleton l b ih =>
    have hold : ∀ k ∈ List.range l.length, (l ++ [b])[k]?.any p = l[k]?.any p := by
      intro k hk
      rw [List.getElem?_append_left (List.mem_range.1 hk)]
    have hlook : ∀ k ∈ (List.range l.length).filter (fun k => l[k]?.any p),
        (l ++ [b])[k]? = l[k]? := by
      intro k hk
      exact List.getElem?_append_left (List.mem_range.1 (List.mem_filter.1 hk).1)
    rw [List.length_append, List.length_singleton, List.range_succ, List.filter_append,
      List.filter_append, List.filterMap_append, List.filter_congr hold,
      List.filterMap_congr hlook, ih]
    congr 1
    cases hb : p b <;> simp [hb]

theorem edgesAt_edgeNumbers (g : Graph α) (chosen : Edge → String) (id : String)
    {numbers : Array Nat} (h : numbers.toList = g.edgeNumbers chosen id) :
    g.edgesAt numbers = g.edges.toList.filter fun e => chosen e == id := by
  rw [edgesAt, h, ← filterMap_filter_range]
  simp [edgeNumbers]

section Operations

variable {g h : Graph α}

theorem consistent_empty : Consistent (empty : Graph α) where
  index_iff id i := by simp [empty]
  source_mem e he := by simp [empty] at he
  target_mem e he := by simp [empty] at he
  outgoing_eq n hn := by simp [empty] at hn
  incoming_eq n hn := by simp [empty] at hn
  entry_mem id hid := by simp [empty] at hid
  exit_mem id hid := by simp [empty] at hid

theorem insert_of_contains {id : String} {data : α} (hid : g.contains id = true) :
    g.insert id data = g := by
  rw [insert, if_pos hid]

theorem insert_of_not_contains {id : String} {data : α} (hid : g.contains id = false) :
    g.insert id data =
      { g with nodes := g.nodes.push { id, data }, index := g.index.insert id g.nodes.size } := by
  rw [insert, if_neg (by simp [hid])]

namespace Consistent

theorem not_mem_edges (hg : g.Consistent) {id : String} (hid : g.contains id = false) :
    ∀ e ∈ g.edges, e.source ≠ id ∧ e.target ≠ id := by
  intro e he
  constructor
  · rintro rfl
    simp [hg.source_mem e he] at hid
  · rintro rfl
    simp [hg.target_mem e he] at hid

theorem edgeNumbers_eq_nil {chosen : Edge → String} {id : String}
    (hid : ∀ e ∈ g.edges, chosen e ≠ id) : g.edgeNumbers chosen id = [] := by
  rw [edgeNumbers, List.filter_eq_nil_iff]
  intro k hk
  have hk : k < g.edges.size := List.mem_range.1 hk
  rw [Array.getElem?_eq_getElem hk]
  simpa using hid _ (Array.getElem_mem hk)

theorem lt_size_of_index (hg : g.Consistent) {id : String} {i : Nat}
    (hi : g.index[id]? = some i) : i < g.nodes.size := by
  obtain ⟨n, hn, -⟩ := (hg.index_iff id i).1 hi
  exact (Array.getElem?_eq_some_iff.1 hn).1

theorem insert (hg : g.Consistent) (id : String) (data : α) :
    (g.insert id data).Consistent := by
  cases hid : g.contains id with
  | true => rwa [insert_of_contains hid]
  | false =>
    have hnone : g.index[id]? = none := Std.HashMap.getElem?_eq_none_of_contains_eq_false hid
    have hedge := hg.not_mem_edges hid
    have hcontains : ∀ other, g.contains other = true →
        (g.insert id data).contains other = true := by
      intro other hother
      rw [contains_insert, hother, Bool.or_true]
    rw [insert_of_not_contains hid] at hcontains ⊢
    refine ⟨?_, ?_, ?_, ?_, ?_, ?_, ?_⟩
    · intro other i
      rw [Std.HashMap.getElem?_insert, Array.getElem?_push]
      by_cases hother : id = other
      · subst hother
        by_cases hi : i = g.nodes.size
        · simp [hi]
        · have hno : ¬ ∃ n : Node α, g.nodes[i]? = some n ∧ n.id = id := by
            rw [← hg.index_iff, hnone]
            simp
          simp only [beq_self_eq_true, if_true, Option.some.injEq, if_neg hi]
          exact ⟨fun heq => absurd heq.symm hi, fun hex => absurd hex hno⟩
      · by_cases hi : i = g.nodes.size
        · have hne : g.index[other]? ≠ some g.nodes.size := by
            intro heq
            have := hg.lt_size_of_index heq
            omega
          simp [hother, hi, hne]
        · simp only [beq_iff_eq, if_neg hother, if_neg hi]
          exact hg.index_iff other i
    · intro e he
      exact hcontains _ (hg.source_mem e he)
    · intro e he
      exact hcontains _ (hg.target_mem e he)
    · intro n hn
      rcases Array.mem_push.1 hn with hn | rfl
      · exact hg.outgoing_eq n hn
      · exact (edgeNumbers_eq_nil fun e he => (hedge e he).1).symm
    · intro n hn
      rcases Array.mem_push.1 hn with hn | rfl
      · exact hg.incoming_eq n hn
      · exact (edgeNumbers_eq_nil fun e he => (hedge e he).2).symm
    · intro other hother
      exact hcontains _ (hg.entry_mem other hother)
    · intro other hother
      exact hcontains _ (hg.exit_mem other hother)

/-- Nodes that keep their identifiers are found where they were found before. -/
theorem index_iff_of_nodes (hg : g.Consistent) (hindex : h.index = g.index)
    {change : Nat → Node α → Node α} (hnodes : ∀ k, h.nodes[k]? = g.nodes[k]?.map (change k))
    (hid : ∀ k n, (change k n).id = n.id) (id : String) (i : Nat) :
    h.index[id]? = some i ↔ ∃ n : Node α, h.nodes[i]? = some n ∧ n.id = id := by
  rw [hindex, hg.index_iff, hnodes]
  constructor
  · rintro ⟨n, hn, rfl⟩
    exact ⟨change i n, by rw [hn]; rfl, hid i n⟩
  · rintro ⟨n, hn, rfl⟩
    obtain ⟨m, hm, rfl⟩ := Option.map_eq_some_iff.1 hn
    exact ⟨m, hm, (hid i m).symm⟩

theorem modify (hg : g.Consistent) (id : String) (f : α → α) : (g.modify id f).Consistent := by
  unfold Graph.modify
  split
  · next i _ =>
    have hnodes : ∀ k, (g.nodes.modify i fun n => { n with data := f n.data })[k]? =
        g.nodes[k]?.map fun n => if i = k then { n with data := f n.data } else n := by
      intro k
      rw [Array.getElem?_modify]
      split <;> simp_all
    have hmem : ∀ n ∈ g.nodes.modify i fun n => { n with data := f n.data },
        ∃ m ∈ g.nodes, n.id = m.id ∧ n.outgoing = m.outgoing ∧ n.incoming = m.incoming := by
      intro n hn
      obtain ⟨k, hk⟩ := Array.getElem?_of_mem hn
      rw [hnodes] at hk
      obtain ⟨m, hm, rfl⟩ := Option.map_eq_some_iff.1 hk
      refine ⟨m, Array.mem_of_getElem? hm, ?_⟩
      split <;> exact ⟨rfl, rfl, rfl⟩
    refine ⟨index_iff_of_nodes hg rfl hnodes ?_, hg.source_mem, hg.target_mem, ?_, ?_,
      hg.entry_mem, hg.exit_mem⟩
    · intro k n
      split <;> rfl
    · intro n hn
      obtain ⟨m, hm, hid, hout, -⟩ := hmem n hn
      rw [hid, hout]
      exact hg.outgoing_eq m hm
    · intro n hn
      obtain ⟨m, hm, hid, -, hin⟩ := hmem n hn
      rw [hid, hin]
      exact hg.incoming_eq m hm
  · exact hg

end Consistent

/-- What adding an edge does: the edge comes last, and its number is noted at both ends. -/
theorem addEdge_eq_ok {source target : String} {label : UInt8}
    (hok : g.addEdge source target label = .ok h) :
    ∃ i j, g.index[source]? = some i ∧ g.index[target]? = some j ∧
      h.edges = g.edges.push ⟨source, target, label⟩ ∧ h.index = g.index ∧
      h.entry = g.entry ∧ h.exit = g.exit ∧
      ∀ k : Nat, h.nodes[k]? = g.nodes[k]?.map fun n =>
        { n with
          outgoing := if i = k then n.outgoing.push g.edges.size else n.outgoing
          incoming := if j = k then n.incoming.push g.edges.size else n.incoming } := by
  unfold addEdge at hok
  split at hok
  · cases hok
  · cases hok
  · next i j hi hj =>
    cases hok
    refine ⟨i, j, hi, hj, rfl, rfl, rfl, rfl, ?_⟩
    intro k
    simp only [Array.getElem?_modify]
    by_cases hik : i = k <;> by_cases hjk : j = k <;> cases g.nodes[k]? <;> simp [hik, hjk]

theorem exists_addEdge {source target : String} (hs : g.contains source = true)
    (ht : g.contains target = true) (label : UInt8) :
    ∃ h, g.addEdge source target label = .ok h := by
  obtain ⟨i, hi⟩ := contains_iff.1 hs
  obtain ⟨j, hj⟩ := contains_iff.1 ht
  rw [addEdge, hi, hj]
  exact ⟨_, rfl⟩

namespace Consistent

theorem addEdge (hg : g.Consistent) {source target : String} {label : UInt8}
    (hok : g.addEdge source target label = .ok h) : h.Consistent := by
  have hcontains := contains_of_addEdge hok
  obtain ⟨i, j, hi, hj, hedges, hindex, hentry, hexit, hnodes⟩ := addEdge_eq_ok hok
  have hends : ∀ e ∈ h.edges, e ∈ g.edges ∨ e = ⟨source, target, label⟩ := by
    intro e he
    rw [hedges] at he
    exact Array.mem_push.1 he
  -- a node is the chosen end of the new edge exactly if it stands at that position
  have hposition : ∀ {id : String} {i k : Nat} {n : Node α}, g.index[id]? = some i →
      g.nodes[k]? = some n → (i = k ↔ id = n.id) := by
    intro id i k n hi hn
    have hk : g.index[n.id]? = some k := (hg.index_iff _ _).2 ⟨n, hn, rfl⟩
    constructor
    · rintro rfl
      obtain ⟨m, hm, rfl⟩ := (hg.index_iff _ _).1 hi
      rw [Option.some.inj (hn.symm.trans hm)]
    · rintro rfl
      exact Option.some.inj (hi.symm.trans hk)
  refine ⟨index_iff_of_nodes hg hindex hnodes fun _ _ => rfl, ?_, ?_, ?_, ?_, ?_, ?_⟩
  · intro e he
    rw [hcontains]
    rcases hends e he with he | rfl
    · exact hg.source_mem e he
    · exact contains_iff.2 ⟨i, hi⟩
  · intro e he
    rw [hcontains]
    rcases hends e he with he | rfl
    · exact hg.target_mem e he
    · exact contains_iff.2 ⟨j, hj⟩
  · intro n hn
    obtain ⟨k, hk⟩ := Array.getElem?_of_mem hn
    rw [hnodes] at hk
    obtain ⟨m, hm, rfl⟩ := Option.map_eq_some_iff.1 hk
    have hold := hg.outgoing_eq m (Array.mem_of_getElem? hm)
    rw [edgeNumbers_push hedges]
    by_cases hik : i = k
    · simp [hik, hold, (hposition hi hm).1 hik]
    · have hne : source ≠ m.id := fun heq => hik ((hposition hi hm).2 heq)
      simp [hik, hold, hne]
  · intro n hn
    obtain ⟨k, hk⟩ := Array.getElem?_of_mem hn
    rw [hnodes] at hk
    obtain ⟨m, hm, rfl⟩ := Option.map_eq_some_iff.1 hk
    have hold := hg.incoming_eq m (Array.mem_of_getElem? hm)
    rw [edgeNumbers_push hedges]
    by_cases hjk : j = k
    · simp [hjk, hold, (hposition hj hm).1 hjk]
    · have hne : target ≠ m.id := fun heq => hjk ((hposition hj hm).2 heq)
      simp [hjk, hold, hne]
  · intro id hid
    rw [hcontains]
    exact hg.entry_mem id (hentry ▸ hid)
  · intro id hid
    rw [hcontains]
    exact hg.exit_mem id (hexit ▸ hid)

end Consistent

theorem setEntry_eq_ok {id : String} (hok : g.setEntry id = .ok h) :
    g.contains id = true ∧ h = { g with entry := some id } := by
  unfold setEntry at hok
  split at hok
  · next hid => cases hok; exact ⟨hid, rfl⟩
  · cases hok

theorem setExit_eq_ok {id : String} (hok : g.setExit id = .ok h) :
    g.contains id = true ∧ h = { g with exit := some id } := by
  unfold setExit at hok
  split at hok
  · next hid => cases hok; exact ⟨hid, rfl⟩
  · cases hok

theorem Built.consistent (hg : g.Built) : g.Consistent := by
  induction hg with
  | empty => exact consistent_empty
  | insert id data _ ih => exact ih.insert id data
  | modify id f _ ih => exact ih.modify id f
  | addEdge _ hok ih => exact ih.addEdge hok
  | setEntry _ hok ih =>
    obtain ⟨hid, rfl⟩ := setEntry_eq_ok hok
    refine { ih with entry_mem := ?_ }
    rintro _ ⟨⟩
    exact hid
  | setExit _ hok ih =>
    obtain ⟨hid, rfl⟩ := setExit_eq_ok hok
    refine { ih with exit_mem := ?_ }
    rintro _ ⟨⟩
    exact hid

theorem foldl_insert {step : Graph α → String → Graph α} {ids : List String}
    (hstep : ∀ tree, ∀ id ∈ ids, ∃ data, step tree id = tree.insert id data) {tree : Graph α}
    (hbuilt : tree.Built) :
    (ids.foldl step tree).Built ∧ (ids.foldl step tree).edges = tree.edges ∧
      ∀ id, (ids.foldl step tree).contains id = true ↔ tree.contains id = true ∨ id ∈ ids := by
  induction ids generalizing tree with
  | nil => simp [hbuilt]
  | cons first ids ih =>
    obtain ⟨data, hdata⟩ := hstep tree first List.mem_cons_self
    have hedges : (tree.insert first data).edges = tree.edges := by
      rw [insert]
      split <;> rfl
    obtain ⟨h₁, h₂, h₃⟩ := ih (fun tree id hid => hstep tree id (List.mem_cons_of_mem first hid))
      (Built.insert first data hbuilt)
    rw [List.foldl_cons, hdata]
    refine ⟨h₁, h₂.trans hedges, fun id => ?_⟩
    rw [h₃, contains_insert, Bool.or_eq_true, beq_iff_eq, List.mem_cons, eq_comm]
    tauto

/-- Every list of edges between given nodes is the list of edges of a graph that the operations
build. -/
theorem exists_built (data : α) (ids : List String) (edges : List Edge) (entry : String)
    (hends : ∀ e ∈ edges, e.source ∈ ids ∧ e.target ∈ ids) (hentry : entry ∈ ids) :
    ∃ g : Graph α, g.Built ∧ g.edges.toList = edges ∧
      (∀ id, g.contains id = true ↔ id ∈ ids) ∧ g.entry = some entry := by
  have hnodes : ∃ g : Graph α, g.Built ∧ g.edges.toList = edges ∧
      ∀ id, g.contains id = true ↔ id ∈ ids := by
    induction edges using List.reverseRecOn with
    | nil =>
      have hstep : ∀ g : Graph α, ∀ id ∈ ids, ∃ other, g.insert id data = g.insert id other :=
        fun _ _ _ => ⟨data, rfl⟩
      obtain ⟨hbuilt, hedges, hcontains⟩ := foldl_insert hstep .empty
      refine ⟨_, hbuilt, by rw [hedges]; rfl, fun id => (hcontains id).trans ?_⟩
      simp [contains, empty]
    | append_singleton edges e ih =>
      obtain ⟨g, hbuilt, hedges, hcontains⟩ := ih fun d hd => hends d (List.mem_append_left _ hd)
      obtain ⟨hsource, htarget⟩ := hends e (List.mem_append_right _ List.mem_cons_self)
      obtain ⟨h, hok⟩ := exists_addEdge ((hcontains _).2 hsource) ((hcontains _).2 htarget) e.label
      obtain ⟨-, -, -, -, hpush, -⟩ := addEdge_eq_ok hok
      refine ⟨h, .addEdge hbuilt hok, ?_, ?_⟩
      · rw [hpush, Array.toList_push, hedges]
      · intro id
        rw [contains_of_addEdge hok, hcontains]
  obtain ⟨g, hbuilt, hedges, hcontains⟩ := hnodes
  have hset : g.setEntry entry = .ok { g with entry := some entry } :=
    if_pos ((hcontains entry).2 hentry)
  exact ⟨_, .setEntry hbuilt hset, hedges, hcontains, rfl⟩

end Operations

section Views

variable {g : Graph α}

def Linked (g : Graph α) (u v : String) : Prop :=
  ∃ e ∈ g.edges, e.source = u ∧ e.target = v

theorem linked_iff_of_edges {edges : List Edge} (hedges : g.edges.toList = edges) {u v : String} :
    g.Linked u v ↔ ∃ e ∈ edges, e.source = u ∧ e.target = v := by
  simp only [Linked, ← hedges, Array.mem_toList_iff]

namespace Consistent

theorem mem_ids (hg : g.Consistent) {id : String} : id ∈ g.ids ↔ g.contains id = true := by
  rw [contains_iff, ids, List.mem_map]
  constructor
  · rintro ⟨n, hn, rfl⟩
    obtain ⟨i, hi⟩ := Array.getElem?_of_mem (Array.mem_toList_iff.1 hn)
    exact ⟨i, (hg.index_iff _ _).2 ⟨n, hi, rfl⟩⟩
  · rintro ⟨i, hi⟩
    obtain ⟨n, hn, rfl⟩ := (hg.index_iff _ _).1 hi
    exact ⟨n, Array.mem_toList_iff.2 (Array.mem_of_getElem? hn), rfl⟩

theorem nodup_ids (hg : g.Consistent) : g.ids.Nodup := by
  have hindex : ∀ k (hk : k < g.nodes.size), g.index[g.nodes[k].id]? = some k := by
    intro k hk
    exact (hg.index_iff _ _).2 ⟨_, Array.getElem?_eq_getElem hk, rfl⟩
  rw [List.nodup_iff_injective_get]
  rintro ⟨i, hi⟩ ⟨j, hj⟩ heq
  simp only [ids, List.length_map, Array.length_toList] at hi hj
  have heq : g.nodes[i].id = g.nodes[j].id := by simpa [ids] using heq
  have hij := hindex i hi
  rw [heq, hindex j hj] at hij
  simpa using hij.symm

theorem length_le_size (hg : g.Consistent) {l : List String} (hnodup : l.Nodup)
    (hl : ∀ id ∈ l, g.contains id = true) : l.length ≤ g.size := by
  have hsub : l ⊆ g.ids := fun id hid => hg.mem_ids.2 (hl id hid)
  simpa [ids, size] using (List.subperm_of_subset hnodup hsub).length_le

theorem node?_eq_some (hg : g.Consistent) {id : String} (hid : g.contains id = true) :
    ∃ n ∈ g.nodes, g.node? id = some n ∧ n.id = id := by
  obtain ⟨i, hi⟩ := contains_iff.1 hid
  obtain ⟨n, hn, rfl⟩ := (hg.index_iff _ _).1 hi
  exact ⟨n, Array.mem_of_getElem? hn, by simp [node?, hi, hn], rfl⟩

theorem node?_eq_none {id : String} (hid : g.contains id = false) : g.node? id = none := by
  rw [node?, Std.HashMap.getElem?_eq_none_of_contains_eq_false hid]
  rfl

theorem node_eq_ok (hg : g.Consistent) {id : String} (hid : g.contains id = true) :
    ∃ n, g.node id = .ok n := by
  obtain ⟨n, -, hn, -⟩ := hg.node?_eq_some hid
  exact ⟨n, by rw [node, hn]⟩

theorem successors_eq (hg : g.Consistent) (id : String) :
    g.successors id = g.edges.toList.filter fun e => e.source == id := by
  cases hid : g.contains id with
  | true =>
    obtain ⟨n, hmem, hn, rfl⟩ := hg.node?_eq_some hid
    rw [successors, hn]
    exact g.edgesAt_edgeNumbers _ _ (hg.outgoing_eq n hmem)
  | false =>
    rw [successors, node?_eq_none hid, eq_comm, List.filter_eq_nil_iff]
    intro e he
    simpa using (hg.not_mem_edges hid e (Array.mem_toList_iff.1 he)).1

theorem predecessors_eq (hg : g.Consistent) (id : String) :
    g.predecessors id = g.edges.toList.filter fun e => e.target == id := by
  cases hid : g.contains id with
  | true =>
    obtain ⟨n, hmem, hn, rfl⟩ := hg.node?_eq_some hid
    rw [predecessors, hn]
    exact g.edgesAt_edgeNumbers _ _ (hg.incoming_eq n hmem)
  | false =>
    rw [predecessors, node?_eq_none hid, eq_comm, List.filter_eq_nil_iff]
    intro e he
    simpa using (hg.not_mem_edges hid e (Array.mem_toList_iff.1 he)).2

theorem mem_successorIds (hg : g.Consistent) {u v : String} :
    v ∈ g.successorIds u ↔ g.Linked u v := by
  rw [successorIds, hg.successors_eq]
  simp [Linked, and_assoc]

theorem mem_predecessorIds (hg : g.Consistent) {u v : String} :
    u ∈ g.predecessorIds v ↔ g.Linked u v := by
  rw [predecessorIds, hg.predecessors_eq]
  simp [Linked, and_comm, and_assoc]

theorem contains_of_linked (hg : g.Consistent) {u v : String} (h : g.Linked u v) :
    g.contains u = true ∧ g.contains v = true := by
  obtain ⟨e, he, rfl, rfl⟩ := h
  exact ⟨hg.source_mem e he, hg.target_mem e he⟩

end Consistent

end Views

end CartFlow.Graph
