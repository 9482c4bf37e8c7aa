import CartFlow.Proofs.Graph.Consistency

/-!
# What the nodes of a graph carry

The data of the nodes in the order of the nodes, and the data behind an identifier. Adding an
edge changes neither, a new node brings its data, and a change of one node concerns the data
of that node alone.
-/
namespace CartFlow.Graph

variable {α : Type}

def datas (g : Graph α) : List α :=
  g.nodes.toList.map (·.data)

def data? (g : Graph α) (id : String) : Option α :=
  (g.node? id).map (·.data)

variable {g h : Graph α} {id other : String}

theorem data?_eq_bind (g : Graph α) (id : String) :
    g.data? id = g.index[id]?.bind fun i => g.datas[i]? := by
  rw [data?, node?, Option.map_bind]
  congr 1
  funext i
  simp [datas]

section Operations

@[simp] theorem entry_insert {data : α} : (g.insert id data).entry = g.entry := by
  unfold insert
  split <;> rfl

@[simp] theorem entry_modify {f : α → α} : (g.modify id f).entry = g.entry := by
  unfold modify
  split <;> rfl

@[simp] theorem contains_modify {f : α → α} :
    (g.modify id f).contains other = g.contains other := by
  unfold modify
  split <;> rfl

theorem datas_insert {data : α} (hid : g.contains id = false) :
    (g.insert id data).datas = g.datas ++ [data] := by
  simp [insert_of_not_contains hid, datas]

theorem datas_addEdge {label : UInt8} (hok : g.addEdge id other label = .ok h) :
    h.datas = g.datas := by
  obtain ⟨i, j, -, -, -, -, -, -, hnodes⟩ := addEdge_eq_ok hok
  apply List.ext_getElem?
  intro k
  simp only [datas, List.getElem?_map, Array.getElem?_toList, hnodes, Option.map_map]
  rfl

theorem datas_modify {f : α → α} {i : Nat} (hi : g.index[id]? = some i) :
    (g.modify id f).datas = g.datas.modify i f := by
  rw [Graph.modify, hi]
  apply List.ext_getElem?
  intro k
  simp only [datas, List.getElem?_map, Array.getElem?_toList, Array.getElem?_modify,
    List.getElem?_modify]
  by_cases hik : i = k
  · subst hik
    simp [Option.map_map, Function.comp_def]
  · simp [hik]

theorem data?_addEdge {source target : String} {label : UInt8}
    (hok : g.addEdge source target label = .ok h) : h.data? id = g.data? id := by
  obtain ⟨-, -, -, -, -, hindex, -⟩ := addEdge_eq_ok hok
  rw [data?_eq_bind, data?_eq_bind, hindex, datas_addEdge hok]

end Operations

namespace Consistent

theorem data?_eq_some (hg : g.Consistent) {data : α} :
    g.data? id = some data ↔ ∃ n ∈ g.nodes, n.id = id ∧ n.data = data := by
  constructor
  · intro hdata
    obtain ⟨n, hn, rfl⟩ := Option.map_eq_some_iff.1 hdata
    have hid : g.contains id = true := by
      by_contra hno
      rw [node?_eq_none (by simpa using hno)] at hn
      cases hn
    obtain ⟨m, hmem, hm, hmid⟩ := hg.node?_eq_some hid
    rw [hn] at hm
    cases hm
    exact ⟨n, hmem, hmid, rfl⟩
  · rintro ⟨n, hmem, rfl, rfl⟩
    obtain ⟨i, hi⟩ := Array.getElem?_of_mem hmem
    have hindex := (hg.index_iff n.id i).2 ⟨n, hi, rfl⟩
    simp [data?, node?, hindex, hi]

theorem data?_isSome (hg : g.Consistent) : (g.data? id).isSome = g.contains id := by
  cases hid : g.contains id with
  | true =>
    obtain ⟨n, -, hn, -⟩ := hg.node?_eq_some hid
    simp [data?, hn]
  | false => simp [data?, node?_eq_none hid]

theorem data?_insert (hg : g.Consistent) (data : α) :
    (g.insert id data).data? other =
      if other = id then some ((g.data? id).getD data) else g.data? other := by
  cases hid : g.contains id with
  | true =>
    rw [insert_of_contains hid]
    split
    · next heq =>
      subst heq
      have hsome := hg.data?_isSome.trans hid
      obtain ⟨d, hd⟩ := Option.isSome_iff_exists.1 hsome
      rw [hd]
      rfl
    · rfl
  | false =>
    have hnone : g.data? id = none := by
      rw [← Option.not_isSome_iff_eq_none, hg.data?_isSome, hid]
      exact Bool.false_ne_true
    have hindex : (g.insert id data).index = g.index.insert id g.nodes.size := by
      rw [insert_of_not_contains hid]
    rw [data?_eq_bind, hindex, datas_insert hid, Std.HashMap.getElem?_insert]
    by_cases heq : other = id
    · subst heq
      simp [hnone, datas]
    · rw [if_neg (by simpa using Ne.symm heq), if_neg heq, data?_eq_bind]
      cases hi : g.index[other]? with
      | none => rfl
      | some i =>
        have hlt : i < g.datas.length := by simpa [datas] using hg.lt_size_of_index hi
        exact List.getElem?_append_left hlt

theorem data?_modify (hg : g.Consistent) (f : α → α) :
    (g.modify id f).data? other =
      if other = id then (g.data? id).map f else g.data? other := by
  cases hi : g.index[id]? with
  | none =>
    have hsame : g.modify id f = g := by rw [Graph.modify, hi]
    rw [hsame]
    split
    · next heq => subst heq; simp [data?, node?, hi]
    · rfl
  | some i =>
    have hindex : (g.modify id f).index = g.index := by rw [Graph.modify, hi]
    rw [data?_eq_bind, data?_eq_bind, data?_eq_bind, hindex, datas_modify hi, hi]
    by_cases heq : other = id
    · subst heq
      simp [hi]
    · rw [if_neg heq]
      cases hj : g.index[other]? with
      | none => rfl
      | some j =>
        have hij : i ≠ j := by
          rintro rfl
          obtain ⟨m, hm, rfl⟩ := (hg.index_iff _ _).1 hi
          obtain ⟨n, hn, rfl⟩ := (hg.index_iff _ _).1 hj
          rw [hm] at hn
          cases hn
          exact heq rfl
        simp [List.getElem?_modify, hij]

end Consistent

end CartFlow.Graph
