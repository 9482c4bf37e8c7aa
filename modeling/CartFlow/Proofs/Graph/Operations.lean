import CartFlow.Proofs.Graph.Data

/-!
# Sequences of operations on a graph

What a caller sees of a graph is a list of nodes with their data, a list of edges, an entry and an
exit. On these an operation is easily described: it adds one thing at the end of a list, or it
names an unknown node and changes nothing. A graph keeps the same things several times over, so
that they are found quickly. After every sequence of operations it shows exactly what the
description says, and all that it keeps besides can be read off the two lists.
-/
namespace CartFlow.Graph

inductive Operation (α : Type)
  | addNode (id : String) (data : α)
  | addEdge (source target : String) (label : UInt8)
  | setEntry (id : String)
  | setExit (id : String)
  | change (id : String) (f : α → α)

structure Picture (α : Type) where
  nodes : List (String × α) := []
  edges : List Edge := []
  entry : Option String := none
  exit : Option String := none

variable {α : Type}

namespace Picture

def ids (p : Picture α) : List String :=
  p.nodes.map (·.1)

/-- What an operation does: it is carried out if it names known nodes only, and a node that is
known is not added again. -/
def perform (p : Picture α) : Operation α → Picture α
  | .addNode id data => if id ∈ p.ids then p else { p with nodes := p.nodes ++ [(id, data)] }
  | .addEdge source target label =>
    if source ∈ p.ids ∧ target ∈ p.ids then
      { p with edges := p.edges ++ [⟨source, target, label⟩] }
    else p
  | .setEntry id => if id ∈ p.ids then { p with entry := some id } else p
  | .setExit id => if id ∈ p.ids then { p with exit := some id } else p
  | .change id f =>
    { p with nodes := p.nodes.map fun n => if n.1 = id then (n.1, f n.2) else n }

def ofOperations (ops : List (Operation α)) : Picture α :=
  ops.foldl perform {}

end Picture

namespace Operation

/-- The nodes that have to be known for an operation, in the order in which they are looked up. -/
def needs : Operation α → List String
  | addNode _ _ | change _ _ => []
  | addEdge source target _ => [source, target]
  | setEntry id | setExit id => [id]

def attempt (g : Graph α) : Operation α → Except Failure (Graph α)
  | addNode id data => .ok (g.insert id data)
  | addEdge source target label => g.addEdge source target label
  | setEntry id => g.setEntry id
  | setExit id => g.setExit id
  | change id f => .ok (g.modify id f)

end Operation

/-- The graph behind an operation; one that is refused leaves no other graph than before. -/
def perform (g : Graph α) (op : Operation α) : Graph α :=
  match op.attempt g with
  | .ok h => h
  | .error _ => g

/-- The graph behind operations on the graph without nodes. -/
def ofOperations (ops : List (Operation α)) : Graph α :=
  ops.foldl perform empty

def picture (g : Graph α) : Picture α where
  nodes := g.nodes.toList.map fun n => (n.id, n.data)
  edges := g.edges.toList
  entry := g.entry
  exit := g.exit

section Steps

variable {g h : Graph α} {id : String}

theorem ids_picture (g : Graph α) : g.picture.ids = g.ids := by
  simp [Picture.ids, picture, ids]

theorem Consistent.mem_ids_picture (hg : g.Consistent) :
    id ∈ g.picture.ids ↔ g.contains id = true := by
  rw [ids_picture]
  exact hg.mem_ids

theorem perform_of_ok (op : Operation α) (hok : op.attempt g = .ok h) : g.perform op = h := by
  rw [perform, hok]

theorem perform_of_error (op : Operation α) {e : Failure} (he : op.attempt g = .error e) :
    g.perform op = g := by
  rw [perform, he]

theorem attempt_built {op : Operation α} (hg : g.Built) (hok : op.attempt g = .ok h) :
    h.Built := by
  cases op with
  | addNode id data =>
    cases hok
    exact .insert id data hg
  | addEdge source target label => exact .addEdge hg hok
  | setEntry id => exact .setEntry hg hok
  | setExit id => exact .setExit hg hok
  | change id f =>
    cases hok
    exact .modify id f hg

theorem Built.perform (hg : g.Built) (op : Operation α) : (g.perform op).Built := by
  cases hop : op.attempt g with
  | ok h =>
    rw [perform_of_ok op hop]
    exact attempt_built hg hop
  | error e =>
    rw [perform_of_error op hop]
    exact hg

/-- An operation fails exactly if a node that it needs is unknown, and names the first such node. -/
theorem attempt_eq_error (g : Graph α) (op : Operation α) (cause : Cause) :
    (∃ e, op.attempt g = .error e ∧ e.cause = cause) ↔
      ∃ id, op.needs.find? (!g.contains ·) = some id ∧ cause = .nodeNotFound id := by
  cases op with
  | addNode id data => simp [Operation.attempt, Operation.needs]
  | addEdge source target label =>
    cases hs : g.contains source with
    | false =>
      have hnone : g.index[source]? = none :=
        Std.HashMap.getElem?_eq_none_of_contains_eq_false hs
      simp [Operation.attempt, Operation.needs, addEdge, hnone, hs, fail, eq_comm]
    | true =>
      obtain ⟨i, hi⟩ := contains_iff.1 hs
      cases ht : g.contains target with
      | false =>
        have hnone : g.index[target]? = none :=
          Std.HashMap.getElem?_eq_none_of_contains_eq_false ht
        simp [Operation.attempt, Operation.needs, addEdge, hi, hnone, hs, ht, fail, eq_comm]
      | true =>
        obtain ⟨j, hj⟩ := contains_iff.1 ht
        simp [Operation.attempt, Operation.needs, addEdge, hi, hj, hs, ht]
  | setEntry id =>
    cases hid : g.contains id <;>
      simp [Operation.attempt, Operation.needs, setEntry, hid, fail, eq_comm]
  | setExit id =>
    cases hid : g.contains id <;>
      simp [Operation.attempt, Operation.needs, setExit, hid, fail, eq_comm]
  | change id f => simp [Operation.attempt, Operation.needs]

end Steps

section Pictures

variable {g h : Graph α} {id : String}

theorem picture_insert (hid : g.contains id = false) (data : α) :
    (g.insert id data).picture = { g.picture with nodes := g.picture.nodes ++ [(id, data)] } := by
  simp [insert_of_not_contains hid, picture]

theorem picture_addEdge {source target : String} {label : UInt8}
    (hok : g.addEdge source target label = .ok h) :
    h.picture = { g.picture with edges := g.picture.edges ++ [⟨source, target, label⟩] } := by
  obtain ⟨i, j, -, -, hedges, -, hentry, hexit, hnodes⟩ := addEdge_eq_ok hok
  have hsame : h.nodes.toList.map (fun n => (n.id, n.data)) =
      g.nodes.toList.map fun n => (n.id, n.data) := by
    apply List.ext_getElem?
    intro k
    simp only [List.getElem?_map, Array.getElem?_toList, hnodes, Option.map_map]
    rfl
  simp [picture, hsame, hedges, hentry, hexit]

/-- The node that is changed is the only one with its identifier. -/
theorem picture_modify (hg : g.Consistent) (id : String) (f : α → α) :
    (g.modify id f).picture = g.picture.perform (.change id f) := by
  cases hi : g.index[id]? with
  | none =>
    have hother : ∀ n ∈ g.nodes, n.id ≠ id := by
      rintro n hn rfl
      obtain ⟨k, hk⟩ := Array.getElem?_of_mem hn
      have hindex := (hg.index_iff n.id k).2 ⟨n, hk, rfl⟩
      rw [hi] at hindex
      cases hindex
    have hsame : g.modify id f = g := by rw [modify, hi]
    rw [hsame, Picture.perform]
    simp only [picture, List.map_map, Picture.mk.injEq, and_self, and_true]
    apply List.map_congr_left
    intro n hn
    simp [hother n (Array.mem_toList_iff.1 hn)]
  | some i =>
    have hposition : ∀ k n, g.nodes[k]? = some n → (i = k ↔ n.id = id) := by
      intro k n hn
      have hk : g.index[n.id]? = some k := (hg.index_iff _ _).2 ⟨n, hn, rfl⟩
      constructor
      · rintro rfl
        obtain ⟨m, hm, rfl⟩ := (hg.index_iff _ _).1 hi
        rw [Option.some.inj (hn.symm.trans hm)]
      · rintro rfl
        exact Option.some.inj (hi.symm.trans hk)
    rw [modify, hi, Picture.perform]
    simp only [picture, List.map_map, Picture.mk.injEq, and_self, and_true]
    apply List.ext_getElem?
    intro k
    simp only [List.getElem?_map, Array.getElem?_toList, Array.getElem?_modify]
    cases hn : g.nodes[k]? with
    | none => simp
    | some n =>
      by_cases hik : i = k
      · simp [hik, (hposition k n hn).1 hik]
      · have hne : n.id ≠ id := fun heq => hik ((hposition k n hn).2 heq)
        simp [hik, hne]

theorem picture_perform_addEdge (hg : g.Consistent) (source target : String) (label : UInt8) :
    (g.perform (.addEdge source target label)).picture =
      g.picture.perform (.addEdge source target label) := by
  rw [Picture.perform]
  split
  · next hends =>
    rw [hg.mem_ids_picture, hg.mem_ids_picture] at hends
    obtain ⟨h, hok⟩ := exists_addEdge hends.1 hends.2 label
    rw [perform_of_ok (.addEdge source target label) hok]
    exact picture_addEdge hok
  · next hends =>
    rw [hg.mem_ids_picture, hg.mem_ids_picture] at hends
    cases hadd : g.addEdge source target label with
    | ok h =>
      obtain ⟨i, j, hi, hj, -⟩ := addEdge_eq_ok hadd
      exact absurd ⟨contains_iff.2 ⟨i, hi⟩, contains_iff.2 ⟨j, hj⟩⟩ hends
    | error e => rw [perform_of_error (.addEdge source target label) hadd]

theorem picture_perform (hg : g.Consistent) (op : Operation α) :
    (g.perform op).picture = g.picture.perform op := by
  cases op with
  | addNode id data =>
    change (g.insert id data).picture = _
    rw [Picture.perform]
    split
    · next hid => rw [insert_of_contains (hg.mem_ids_picture.1 hid)]
    · next hid =>
      rw [hg.mem_ids_picture, Bool.not_eq_true] at hid
      exact picture_insert hid data
  | addEdge source target label => exact picture_perform_addEdge hg source target label
  | setEntry id =>
    rw [Picture.perform]
    split
    · next hid =>
      rw [perform_of_ok (.setEntry id) (if_pos (hg.mem_ids_picture.1 hid))]
      rfl
    · next hid =>
      rw [hg.mem_ids_picture] at hid
      exact congrArg picture (perform_of_error (.setEntry id) (if_neg hid))
  | setExit id =>
    rw [Picture.perform]
    split
    · next hid =>
      rw [perform_of_ok (.setExit id) (if_pos (hg.mem_ids_picture.1 hid))]
      rfl
    · next hid =>
      rw [hg.mem_ids_picture] at hid
      exact congrArg picture (perform_of_error (.setExit id) (if_neg hid))
  | change id f => exact picture_modify hg id f

end Pictures

/-- A graph shows a picture, and whatever it keeps besides is what the lists of the picture say:
the index leads to the one place of a node, edges join nodes that are there, and the edges at a node
are those of the list with this end, in the order of the list. -/
structure Represents (g : Graph α) (p : Picture α) : Prop where
  picture_eq : g.picture = p
  nodup_ids : p.ids.Nodup
  index_iff : ∀ (id : String) (i : Nat), g.index[id]? = some i ↔ p.ids[i]? = some id
  ends_mem : ∀ e ∈ p.edges, e.source ∈ p.ids ∧ e.target ∈ p.ids
  successors_eq : ∀ n ∈ g.nodes, g.successors n.id = p.edges.filter (·.source == n.id)
  predecessors_eq : ∀ n ∈ g.nodes, g.predecessors n.id = p.edges.filter (·.target == n.id)
  entry_mem : ∀ id, p.entry = some id → id ∈ p.ids
  exit_mem : ∀ id, p.exit = some id → id ∈ p.ids

theorem Consistent.represents {g : Graph α} (hg : g.Consistent) : g.Represents g.picture where
  picture_eq := rfl
  nodup_ids := by
    rw [ids_picture]
    exact hg.nodup_ids
  index_iff id i := by
    rw [ids_picture, hg.index_iff, ids, List.getElem?_map, Array.getElem?_toList,
      Option.map_eq_some_iff]
  ends_mem e he := by
    rw [hg.mem_ids_picture, hg.mem_ids_picture]
    have he : e ∈ g.edges := Array.mem_toList_iff.1 he
    exact ⟨hg.source_mem e he, hg.target_mem e he⟩
  successors_eq n _ := hg.successors_eq n.id
  predecessors_eq n _ := hg.predecessors_eq n.id
  entry_mem id hid := hg.mem_ids_picture.2 (hg.entry_mem id hid)
  exit_mem id hid := hg.mem_ids_picture.2 (hg.exit_mem id hid)

theorem picture_foldl {g : Graph α} (hg : g.Built) (ops : List (Operation α)) :
    (ops.foldl perform g).Built ∧
      (ops.foldl perform g).picture = ops.foldl Picture.perform g.picture := by
  induction ops generalizing g with
  | nil => exact ⟨hg, rfl⟩
  | cons op ops ih =>
    rw [List.foldl_cons, List.foldl_cons, ← picture_perform hg.consistent]
    exact ih (hg.perform op)

/-- After every sequence of operations a graph represents what the operations describe. A further
operation fails exactly if a node that it needs is not there, with the first such node as cause;
the picture is then the same as before. So is the graph if a node is added that is there already. -/
theorem represents_operations (ops : List (Operation α)) :
    (ofOperations ops).Represents (Picture.ofOperations ops) ∧
    ∀ op : Operation α,
      (∀ cause, (∃ e, op.attempt (ofOperations ops) = .error e ∧ e.cause = cause) ↔
        ∃ id, op.needs.find? (· ∉ (Picture.ofOperations ops).ids) = some id ∧
          cause = .nodeNotFound id) ∧
      ((∃ e, op.attempt (ofOperations ops) = .error e) →
        (Picture.ofOperations ops).perform op = Picture.ofOperations ops) ∧
      ∀ id data, op = .addNode id data → id ∈ (Picture.ofOperations ops).ids →
        (ofOperations ops).perform op = ofOperations ops := by
  obtain ⟨hbuilt, hpicture⟩ := picture_foldl (.empty : Built (empty : Graph α)) ops
  change (ofOperations ops).Built at hbuilt
  change (ofOperations ops).picture = Picture.ofOperations ops at hpicture
  have hids : ∀ id, id ∈ (Picture.ofOperations ops).ids ↔
      (ofOperations ops).contains id = true := by
    intro id
    rw [← hpicture]
    exact hbuilt.consistent.mem_ids_picture
  refine ⟨hpicture ▸ hbuilt.consistent.represents, fun op => ⟨fun cause => ?_, ?_, ?_⟩⟩
  · rw [attempt_eq_error]
    simp [hids]
  · rintro ⟨e, he⟩
    rw [← hpicture, ← picture_perform hbuilt.consistent, perform_of_error op he]
  · rintro id data rfl hid
    exact perform_of_ok _ (congrArg Except.ok (insert_of_contains ((hids id).1 hid)))

end CartFlow.Graph
