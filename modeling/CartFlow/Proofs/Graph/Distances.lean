import CartFlow.Proofs.Graph.Ways
import Mathlib.Logic.Relation

/-!
# A survey finds the distances

Whatever a survey has found for a node is the number of edges of some way to it. A way to a node
that waits leaves the taken nodes by some edge, and the survey has found the node behind this edge
by following it; since it takes the closest node that waits, it has found a shortest way to the
node it takes. From then on nothing shorter can be found for this node, so it makes no difference
whether the survey ends there or goes on, and a node that was not reached when it is taken is
reached by no way at all.
-/
namespace CartFlow.Graph

variable {α : Type} {g : Graph α}

section Relaxing

variable {found : Distances} {id v : String} {d e : Nat}

theorem not_closer_iff {a b : Option Nat} :
    closer a b = false ↔ ∀ d, a = some d → ∃ e ≤ d, b = some e := by
  cases a with
  | none => simp [closer]
  | some a => cases b <;> simp [closer]

theorem closest_eq_none {distance : String → Option Nat} {ids : List String} :
    closest distance ids = none ↔ ids = [] := by
  cases ids <;> simp [closest]

/-- A number is noted for the nodes of a list for which nothing as small was found. -/
theorem getElem?_note (found : Distances) (d : Nat) (ids : List String) (v : String) :
    (note found d ids)[v]? =
      if v ∈ ids ∧ closer (some d) found[v]? = true then some d else found[v]? := by
  induction ids generalizing found with
  | nil => simp [note]
  | cons id ids ih =>
    rw [note, List.foldl_cons, ← note, ih]
    by_cases hv : v = id
    · subst hv
      by_cases hclose : closer (some d) found[v]? = true
      · simp [hclose]
      · simp [hclose]
    · have hsame : (if closer (some d) found[id]? = true then found.insert id d else found)[v]? =
          found[v]? := by
        split
        · rw [Std.HashMap.getElem?_insert, if_neg (by simpa using Ne.symm hv)]
        · rfl
      simp [hsame, hv]

/-- An edge from a node to itself shows no shorter way, so nothing is noted for it. -/
theorem note_filter_self (hid : found[id]? = some d) (ids : List String) :
    note found (d + 1) (ids.filter (· != id)) = note found (d + 1) ids := by
  induction ids generalizing found with
  | nil => rfl
  | cons next ids ih =>
    by_cases hnext : next = id
    · subst hnext
      have hfar : closer (some (d + 1)) found[next]? = false := by simp [hid, closer]
      rw [List.filter_cons_of_neg (by simp), ih hid, note, note, List.foldl_cons, hfar]
      rfl
    · have hkeep : (if closer (some (d + 1)) found[next]? = true then found.insert next (d + 1)
          else found)[id]? = some d := by
        split
        · rw [Std.HashMap.getElem?_insert, if_neg (by simpa using hnext), hid]
        · exact hid
      rw [List.filter_cons_of_pos (by simpa using hnext)]
      exact ih hkeep

theorem relax_of_none (hid : found[id]? = none) : g.relax found id = found := by
  rw [relax, hid]

theorem getElem?_relax (hid : found[id]? = some d) :
    (g.relax found id)[v]? =
      if v ∈ g.successorIds id ∧ closer (some (d + 1)) found[v]? = true then some (d + 1)
      else found[v]? := by
  rw [relax, hid]
  dsimp only
  rw [note_filter_self hid, getElem?_note]

theorem getElem?_relax_self : (g.relax found id)[id]? = found[id]? := by
  cases hid : found[id]? with
  | none => rw [relax_of_none hid, hid]
  | some d => simp [getElem?_relax hid, hid, closer]

theorem exists_relax_le (hv : found[v]? = some e) :
    ∃ k ≤ e, (g.relax found id)[v]? = some k := by
  cases hid : found[id]? with
  | none => exact ⟨e, Nat.le_refl e, by rw [relax_of_none hid, hv]⟩
  | some d =>
    rw [getElem?_relax hid]
    split
    · next h =>
      rw [hv] at h
      exact ⟨d + 1, Nat.le_of_lt (by simpa [closer] using h.2), rfl⟩
    · exact ⟨e, Nat.le_refl e, hv⟩

/-- What is found by following the edges of a node is one edge more than what was found for it. -/
theorem relax_cases (hg : g.Consistent) (hv : (g.relax found id)[v]? = some e) :
    found[v]? = some e ∨ ∃ d, found[id]? = some d ∧ g.Linked id v ∧ e = d + 1 := by
  cases hid : found[id]? with
  | none =>
    rw [relax_of_none hid] at hv
    exact .inl hv
  | some d =>
    rw [getElem?_relax hid] at hv
    split at hv
    · next h =>
      cases hv
      exact .inr ⟨d, rfl, hg.mem_successorIds.1 h.1, rfl⟩
    · exact .inl hv

theorem exists_relax_linked (hg : g.Consistent) (hid : found[id]? = some d) (hl : g.Linked id v) :
    ∃ k ≤ d + 1, (g.relax found id)[v]? = some k := by
  rw [getElem?_relax hid]
  by_cases hclose : closer (some (d + 1)) found[v]? = true
  · rw [if_pos ⟨hg.mem_successorIds.2 hl, hclose⟩]
    exact ⟨d + 1, Nat.le_refl _, rfl⟩
  · obtain ⟨e, he, hv⟩ := not_closer_iff.1 (by simpa using hclose) (d + 1) rfl
    rw [if_neg fun h => hclose h.2]
    exact ⟨e, he, hv⟩

end Relaxing

section Ways

variable {u v w : String} {k : Nat}

theorem WayOf.snoc (h : g.WayOf k u v) (hl : g.Linked v w) : g.WayOf (k + 1) u w := by
  obtain ⟨p, hp, hlen⟩ := h
  exact ⟨p ++ [w], hp.snoc hl, by simp [hlen]⟩

theorem WayOf.exists_snoc (h : g.WayOf (k + 1) u w) : ∃ v, g.WayOf k u v ∧ g.Linked v w := by
  obtain ⟨p, hp, hlen⟩ := h
  rcases hp.eq_or_snoc with ⟨-, rfl⟩ | ⟨v, q, hq, hl, rfl⟩
  · simp at hlen
  · exact ⟨v, ⟨q, hq, by simpa using hlen⟩, hl⟩

theorem WayOf.lt_size (hg : g.Consistent) (hu : g.contains u = true) (h : g.WayOf k u w)
    (hmin : ∀ j < k, ¬ g.WayOf j u w) : k < g.size := by
  obtain ⟨p, hp, hlen⟩ := h
  obtain ⟨q, hq, hnodup, -⟩ := hp.exists_nodup
  obtain ⟨r, rfl⟩ := hq.exists_eq_cons
  have hle : k ≤ r.length := Nat.le_of_not_lt fun hlt => hmin r.length hlt ⟨_, hq, rfl⟩
  have hsize := hg.length_le_size hnodup (hq.contains_of_mem hg hu)
  rw [List.length_cons] at hsize
  omega

end Ways

namespace Survey

variable {source target : String} {s t : Survey} {u v : String} {k d : Nat}
  {ends : String → Bool}

/-- The surveys that come one after the other, whether or not one of them might end there. -/
def Reached (g : Graph α) (source : String) : Survey → Prop :=
  Relation.ReflTransGen (fun s next => s.next? g = some next) (start g source)

/-- What a survey keeps. The nodes that do not wait were taken: their edges were followed, and what
was found for them is not more than the number of edges of any way. The node that was taken last is
no farther away than those that wait. -/
structure Sound (g : Graph α) (source : String) (s : Survey) : Prop where
  nodup : s.waiting.Nodup
  current_taken : s.current ∉ s.waiting
  source_eq : s.found[source]? = some 0
  way : ∀ v d, s.found[v]? = some d → g.WayOf d source v
  followed : ∀ u v d, u ∉ s.waiting → g.Linked u v → s.found[u]? = some d →
    ∃ e ≤ d + 1, s.found[v]? = some e
  least : ∀ v k, v ∉ s.waiting → g.WayOf k source v → ∃ d ≤ k, s.found[v]? = some d
  closest : ∀ v ∈ s.waiting, closer s.found[v]? s.found[s.current]? = false

theorem sound_start (hg : g.Consistent) (hsource : g.contains source = true) :
    (start g source).Sound g source := by
  have hfirst : (({} : Distances).insert source 0)[source]? = some 0 := by simp
  have hself : (start g source).found[source]? = some 0 := getElem?_relax_self.trans hfirst
  -- the only node of the graph that does not wait is the first one
  have htaken : ∀ v, g.contains v = true → v ∉ (start g source).waiting → v = source := by
    intro v hv hout
    by_contra hne
    exact hout ((List.mem_erase_of_ne hne).2 (hg.mem_ids.2 hv))
  refine ⟨hg.nodup_ids.erase source, hg.nodup_ids.not_mem_erase, hself, ?_, ?_, ?_, ?_⟩
  · intro v d hv
    rcases relax_cases hg hv with hv | ⟨e, he, hl, rfl⟩
    · have hcases : source = v ∧ 0 = d := by
        rw [Std.HashMap.getElem?_insert] at hv
        split at hv
        · next heq => exact ⟨by simpa using heq, by simpa using hv⟩
        · simp at hv
      obtain ⟨rfl, rfl⟩ := hcases
      exact wayOf_zero.2 rfl
    · rw [hfirst] at he
      cases he
      exact (wayOf_zero.2 rfl : g.WayOf 0 source source).snoc hl
  · intro u v d hout hl hu
    obtain rfl := htaken u (hg.contains_of_linked hl).1 hout
    rw [hself] at hu
    cases hu
    exact exists_relax_linked hg hfirst hl
  · intro v k hout hway
    obtain ⟨p, hp, -⟩ := hway
    obtain rfl := htaken v (hp.contains_of_mem hg hsource v hp.target_mem) hout
    exact ⟨0, Nat.zero_le k, hself⟩
  · intro v hv
    rw [not_closer_iff]
    intro d hd
    exact ⟨0, Nat.zero_le d, hself⟩

/-- A way that is shorter than what was found for its end visits a node that waits. -/
theorem Sound.exists_le (h : s.Sound g source) (hway : g.WayOf k source v) :
    (∃ d ≤ k, s.found[v]? = some d) ∨ ∃ w ∈ s.waiting, ∃ d ≤ k, s.found[w]? = some d := by
  induction k generalizing v with
  | zero =>
    obtain rfl := wayOf_zero.1 hway
    exact .inl ⟨0, Nat.le_refl 0, h.source_eq⟩
  | succ k ih =>
    obtain ⟨u, hu, hl⟩ := hway.exists_snoc
    rcases ih hu with ⟨d, hd, hfound⟩ | ⟨w, hw, d, hd, hfound⟩
    · by_cases hwait : u ∈ s.waiting
      · exact .inr ⟨u, hwait, d, by omega, hfound⟩
      · obtain ⟨e, he, hv⟩ := h.followed u v d hwait hl hfound
        exact .inl ⟨e, by omega, hv⟩
    · exact .inr ⟨w, hw, d, by omega, hfound⟩

theorem Sound.least_of_closest (h : s.Sound g source) {id : String}
    (hmin : ∀ v ∈ s.waiting, closer s.found[v]? s.found[id]? = false)
    (hway : g.WayOf k source id) : ∃ d ≤ k, s.found[id]? = some d := by
  rcases h.exists_le hway with hfound | ⟨w, hw, d, hd, hfound⟩
  · exact hfound
  · obtain ⟨e, he, hid⟩ := not_closer_iff.1 (hmin w hw) d hfound
    exact ⟨e, by omega, hid⟩

theorem Sound.next (hg : g.Consistent) (h : s.Sound g source) (hnext : s.next? g = some t) :
    t.Sound g source := by
  obtain ⟨hclosest, hfound, hwaiting⟩ := next?_eq_some hnext
  obtain ⟨hmem, hmin⟩ := closest_eq_some hclosest
  have htaken : ∀ v, v ∉ t.waiting → v = t.current ∨ v ∉ s.waiting := by
    intro v hout
    by_contra hno
    rw [not_or, not_not] at hno
    exact hout (hwaiting ▸ (List.mem_erase_of_ne hno.1).2 hno.2)
  have hself : t.found[t.current]? = s.found[t.current]? := by rw [hfound, getElem?_relax_self]
  have hless : ∀ (v : String) e, s.found[v]? = some e → ∃ k ≤ e, t.found[v]? = some k := by
    intro v e hv
    rw [hfound]
    exact exists_relax_le hv
  have hway : ∀ v d, t.found[v]? = some d → g.WayOf d source v := by
    intro v d hv
    rw [hfound] at hv
    rcases relax_cases hg hv with hv | ⟨e, he, hl, rfl⟩
    · exact h.way v d hv
    · exact (h.way _ e he).snoc hl
  refine ⟨?_, ?_, ?_, hway, ?_, ?_, ?_⟩
  · rw [hwaiting]
    exact h.nodup.erase _
  · rw [hwaiting]
    exact h.nodup.not_mem_erase
  · obtain ⟨k, hk, hzero⟩ := hless source 0 h.source_eq
    rwa [Nat.le_zero.1 hk] at hzero
  · intro u v d hout hl hu
    rcases htaken u hout with rfl | hout
    · rw [hself] at hu
      rw [hfound]
      exact exists_relax_linked hg hu hl
    · -- nothing smaller than before can be found for a node that was taken before
      obtain ⟨e, he, hold⟩ := h.least u d hout (hway u d hu)
      obtain ⟨j, hj, hv⟩ := h.followed u v e hout hl hold
      obtain ⟨k, hk, hv⟩ := hless v j hv
      exact ⟨k, by omega, hv⟩
  · intro v k hout hv
    rcases htaken v hout with rfl | hout
    · rw [hself]
      exact h.least_of_closest hmin hv
    · obtain ⟨d, hd, hv⟩ := h.least v k hout hv
      obtain ⟨e, he, hv⟩ := hless v d hv
      exact ⟨e, by omega, hv⟩
  · intro v hv
    rw [hself, not_closer_iff]
    intro d hd
    rw [hfound] at hd
    rcases relax_cases hg hd with hd | ⟨e, he, -, rfl⟩
    · exact not_closer_iff.1 (hmin v (List.mem_of_mem_erase (hwaiting ▸ hv))) d hd
    · exact ⟨e, Nat.le_succ e, he⟩

theorem Reached.sound (hg : g.Consistent) (hsource : g.contains source = true)
    (h : Reached g source s) : s.Sound g source := by
  induction h with
  | refl => exact sound_start hg hsource
  | tail _ hnext ih => exact ih.next hg hnext

theorem Sound.found_eq_some (h : s.Sound g source) (hv : v ∉ s.waiting) :
    s.found[v]? = some k ↔ g.WayOf k source v ∧ ∀ j < k, ¬ g.WayOf j source v := by
  constructor
  · intro hfound
    refine ⟨h.way v k hfound, fun j hj hway => ?_⟩
    obtain ⟨d, hd, heq⟩ := h.least v j hv hway
    rw [hfound] at heq
    cases heq
    omega
  · rintro ⟨hway, hmin⟩
    obtain ⟨d, hd, hfound⟩ := h.least v k hv hway
    have hle : k ≤ d := Nat.le_of_not_lt fun hlt => hmin d hlt (h.way v d hfound)
    rw [hfound, Nat.le_antisymm hd hle]

theorem Sound.found_current_lt (hg : g.Consistent) (hsource : g.contains source = true)
    (h : s.Sound g source) (hd : s.found[s.current]? = some d) : d < g.size := by
  obtain ⟨hway, hmin⟩ := (h.found_eq_some h.current_taken).1 hd
  exact hway.lt_size hg hsource hmin

theorem run_eq (g : Graph α) (ends : String → Bool) (s : Survey) :
    s.run g ends =
      if ends s.current then s.found
      else
        match s.next? g with
        | none => s.found
        | some next => next.run g ends := by
  rw [run]
  split
  · rfl
  · split <;> simp_all

theorem exists_last (g : Graph α) (ends : String → Bool) (s : Survey) :
    ∃ t, Relation.ReflTransGen (fun s next => s.next? g = some next) s t ∧
      s.run g ends = t.found ∧ (ends t.current = true ∨ t.waiting = []) := by
  induction s using run.induct g ends with
  | case1 s hends => exact ⟨s, .refl, by rw [run_eq, if_pos hends], .inl hends⟩
  | case2 s hends hnone =>
    refine ⟨s, .refl, ?_, .inr (closest_eq_none.1 (Option.map_eq_none_iff.1 hnone))⟩
    rw [run_eq, if_neg hends, hnone]
  | case3 s hends next hnext ih =>
    obtain ⟨t, hsteps, hrun, hlast⟩ := ih
    refine ⟨t, .head hnext hsteps, ?_, hlast⟩
    rw [run_eq, if_neg hends, hnext, ← hrun]

/-- A survey that may end at the target only finds the least number of edges to it. -/
theorem run_start (hg : g.Consistent) (hsource : g.contains source = true)
    (hends : ∀ id, ends id = true → id = target) :
    ((start g source).run g ends)[target]? = some k ↔
      g.WayOf k source target ∧ ∀ j < k, ¬ g.WayOf j source target := by
  obtain ⟨t, hsteps, hrun, hlast⟩ := exists_last g ends (start g source)
  have hsound : t.Sound g source := Reached.sound hg hsource hsteps
  rw [hrun]
  apply hsound.found_eq_some
  rcases hlast with hend | hnil
  · rw [← hends _ hend]
    exact hsound.current_taken
  · simp [hnil]

/-- If no node that waits was reached, nothing more is found. -/
theorem run_of_no_found (hnone : ∀ v ∈ s.waiting, s.found[v]? = none) :
    s.run g ends = s.found := by
  induction s using run.induct g ends with
  | case1 s hends => rw [run_eq, if_pos hends]
  | case2 s hends hnext => rw [run_eq, if_neg hends, hnext]
  | case3 s hends next hnext ih =>
    obtain ⟨hclosest, hfound, hwaiting⟩ := next?_eq_some hnext
    have hsame : next.found = s.found := by
      rw [hfound]
      exact relax_of_none (hnone _ (closest_eq_some hclosest).1)
    have hrest : next.run g ends = next.found := by
      apply ih
      intro v hv
      rw [hsame]
      exact hnone v (List.mem_of_mem_erase (hwaiting ▸ hv))
    rw [run_eq, if_neg hends, hnext]
    exact hrest.trans hsame

/-- Behind a node that is taken without having been reached nothing more is found. -/
theorem Sound.run_of_unreached (h : s.Sound g source) (hnone : s.found[s.current]? = none) :
    s.run g ends = s.found := by
  apply run_of_no_found
  intro v hv
  have hfar := h.closest v hv
  rw [hnone, not_closer_iff] at hfar
  cases hv : s.found[v]? with
  | none => rfl
  | some d =>
    obtain ⟨e, -, he⟩ := hfar d hv
    cases he

end Survey

section Answers

variable {source target : String}

/-- There is an answer for any two nodes of a graph: the least number of edges. -/
theorem Consistent.exists_distance (hg : g.Consistent) (hsource : g.contains source = true)
    (htarget : g.contains target = true) :
    ∃ answer, g.distance source target = .ok answer ∧ ∀ k, answer = some k ↔
      g.WayOf k source target ∧ ∀ j < k, ¬ g.WayOf j source target := by
  obtain ⟨first, hfirst⟩ := hg.node_eq_ok hsource
  obtain ⟨last, hlast⟩ := hg.node_eq_ok htarget
  refine ⟨((Survey.start g source).run g (· == target))[target]?, ?_, fun k => ?_⟩
  · rw [distance, hfirst, hlast]
    rfl
  · exact Survey.run_start hg hsource (by simp)

theorem Consistent.distance_eq_iff (hg : g.Consistent) (hsource : g.contains source = true)
    (htarget : g.contains target = true) (k : Nat) :
    g.distance source target = .ok (some k) ↔
      g.WayOf k source target ∧ ∀ j < k, ¬ g.WayOf j source target := by
  obtain ⟨answer, hanswer, hshortest⟩ := hg.exists_distance hsource htarget
  rw [hanswer, Except.ok.injEq]
  exact hshortest k

theorem eq_none_iff_of_shortest {answer : Option Nat}
    (h : ∀ k, answer = some k ↔ g.WayOf k source target ∧ ∀ j < k, ¬ g.WayOf j source target) :
    answer = none ↔ ∀ p, ¬ g.Way source target p := by
  constructor
  · rintro rfl p hp
    obtain ⟨q, rfl⟩ := hp.exists_eq_cons
    obtain ⟨k, -, hk⟩ := exists_firstNear (fun k u => g.WayOf k u target)
      (⟨_, hp, rfl⟩ : g.WayOf q.length source target)
    exact absurd ((h k).2 hk) (by simp)
  · intro hno
    cases answer with
    | none => rfl
    | some k =>
      obtain ⟨p, hp, -⟩ := ((h k).1 rfl).1
      exact absurd hp (hno p)

namespace Shuttle

/-! A way in, a node with an edge to itself, two edges side by side, and two nodes that lead to each
other. -/

def edges : List Edge :=
  [⟨"in", "a", 0⟩, ⟨"a", "a", 0⟩, ⟨"a", "b", 1⟩, ⟨"a", "b", 2⟩, ⟨"b", "c", 0⟩, ⟨"c", "b", 0⟩]

theorem exists_graph :
    ∃ g : Graph Unit, g.Built ∧ g.edges.toList = edges ∧
      ∀ id ∈ ["in", "a", "b", "c"], id ∈ g.ids := by
  obtain ⟨g, hbuilt, hedges, hcontains, -⟩ :=
    exists_built () ["in", "a", "b", "c"] edges "in" (by decide) (by decide)
  exact ⟨g, hbuilt, hedges, fun id hid => hbuilt.consistent.mem_ids.2 ((hcontains id).2 hid)⟩

theorem not_way {g : Graph Unit} (hedges : g.edges.toList = edges) {u : String}
    (hu : u ∈ ["a", "b", "c"]) (p : List String) : ¬ g.Way u "in" p := by
  intro hp
  have hclosed : ∀ x ∈ ["a", "b", "c"], ∀ y, g.Linked x y → y ∈ ["a", "b", "c"] := by
    intro x hx y hl
    obtain ⟨e, he, rfl, rfl⟩ := (linked_iff_of_edges hedges).1 hl
    have hall : ∀ e ∈ edges, e.source ∈ ["a", "b", "c"] → e.target ∈ ["a", "b", "c"] := by decide
    exact hall e he hx
  exact absurd (hp.mem_of_closed hclosed hu) (by decide)

end Shuttle

/-- The distance from one node to another is the number of edges of a shortest way, and there is
none exactly if there is no way. The levels of the second node show the same number. A survey that
does not end at the second node finds it too, following edges from a node to itself would find
nothing more, and nothing more is found behind the first node that is taken without having been
reached. One is added only to numbers below the number of nodes. -/
theorem distance_shortest (hg : g.Built) (hsource : source ∈ g.ids) (htarget : target ∈ g.ids) :
    ∃ answer, g.distance source target = .ok answer ∧
      (∀ k, answer = some k ↔
        g.WayOf k source target ∧ ∀ j < k, ¬ g.WayOf j source target) ∧
      (answer = none ↔ ∀ p, ¬ g.Way source target p) ∧
      (source = target → answer = some 0) ∧
      levelOf? (g.levelsTo target) source = answer ∧
      (∀ ends : String → Bool, (∀ id, ends id = true → id = target) →
        ((Survey.start g source).run g ends)[target]? = answer) ∧
      (∀ (found : Distances) (id : String) (d : Nat), found[id]? = some d →
        g.relax found id = note found (d + 1) (g.successorIds id)) ∧
      ∀ s, Survey.Reached g source s →
        (s.found[s.current]? = none → ∀ ends, s.run g ends = s.found) ∧
          ∀ d, s.found[s.current]? = some d → d + 1 ≤ g.size := by
  have hg := hg.consistent
  have hsource := hg.mem_ids.1 hsource
  obtain ⟨answer, hanswer, hshortest⟩ := hg.exists_distance hsource (hg.mem_ids.1 htarget)
  refine ⟨answer, hanswer, hshortest, eq_none_iff_of_shortest hshortest, ?_, ?_, ?_, ?_, ?_⟩
  · rintro rfl
    exact (hshortest 0).2 ⟨wayOf_zero.2 rfl, fun j hj => absurd hj (Nat.not_lt_zero j)⟩
  · apply Option.ext
    intro k
    rw [levelOf?_levelsTo hg, hshortest]
  · intro ends hends
    apply Option.ext
    intro k
    rw [Survey.run_start hg hsource hends, hshortest]
  · intro found id d hid
    rw [relax, hid]
    exact note_filter_self hid _
  · intro s hs
    have hsound := hs.sound hg hsource
    exact ⟨fun hnone ends => hsound.run_of_unreached hnone,
      fun d hd => hsound.found_current_lt hg hsource hd⟩

/-- From the way in to the two nodes there are two edges, and there is no way back. -/
theorem distance_shortest_shuttle :
    ∃ g : Graph Unit, g.Built ∧ "in" ∈ g.ids ∧ "b" ∈ g.ids ∧
      g.distance "in" "b" = .ok (some 2) ∧ g.distance "b" "in" = .ok none ∧
      g.distance "b" "b" = .ok (some 0) := by
  obtain ⟨g, hbuilt, hedges, hids⟩ := Shuttle.exists_graph
  have hin : "in" ∈ g.ids := hids "in" (by decide)
  have hb : "b" ∈ g.ids := hids "b" (by decide)
  have hfirst : g.Linked "in" "a" := (linked_iff_of_edges hedges).2 (by decide)
  have hsecond : g.Linked "a" "b" := (linked_iff_of_edges hedges).2 (by decide)
  have hway : g.WayOf 2 "in" "b" :=
    ⟨["in", "a", "b"], .step hfirst (.step hsecond (.here "b")), rfl⟩
  have hdirect : ¬ g.Linked "in" "b" :=
    fun hl => absurd ((linked_iff_of_edges hedges).1 hl) (by decide)
  have hmin : ∀ j < 2, ¬ g.WayOf j "in" "b" := by
    intro j hj h
    rcases j with _ | _ | j
    · exact absurd (wayOf_zero.1 h) (by decide)
    · obtain ⟨v, hl, hv⟩ := wayOf_succ.1 h
      exact hdirect (wayOf_zero.1 hv ▸ hl)
    · omega
  obtain ⟨forth, hforth, hshortest, -⟩ := distance_shortest hbuilt hin hb
  obtain ⟨back, hback, -, hnone, -⟩ := distance_shortest hbuilt hb hin
  obtain ⟨stay, hstay, -, -, hzero, -⟩ := distance_shortest hbuilt hb hb
  refine ⟨g, hbuilt, hin, hb, ?_, ?_, ?_⟩
  · rw [hforth, (hshortest 2).2 ⟨hway, hmin⟩]
  · rw [hback, hnone.2 (Shuttle.not_way hedges (by decide))]
  · rw [hstay, hzero rfl]

/-- A node that a closed way visits has a closed way of its own with as many edges. -/
theorem Way.exists_rotation {u v : String} {p : List String} (hp : g.Way u u p) (hv : v ∈ p) :
    ∃ q, g.Way v v q ∧ q.length = p.length := by
  obtain ⟨q, r, rfl, hq, hr⟩ := hp.split hv
  obtain ⟨t, ht⟩ := hq.exists_eq_cons
  rw [ht] at hq
  refine ⟨_, hr.append hq, ?_⟩
  have hlen := congrArg List.length ht
  simp only [List.length_append, List.length_cons, List.length_nil] at hlen ⊢
  omega

/-- A node is reached from another exactly if a way of at least one edge leads there, and from
itself exactly if some closed way visits it. For two different nodes this is so exactly if there is
a distance between them. -/
theorem reachable_iff_way (hg : g.Built) (hsource : source ∈ g.ids) (htarget : target ∈ g.ids) :
    ∃ answer between, g.reachable source target = .ok answer ∧
      g.distance source target = .ok between ∧
      (answer = true ↔ ∃ p, g.Way source target p ∧ 2 ≤ p.length) ∧
      (source = target →
        (answer = true ↔ ∃ u p, g.Way u u p ∧ 2 ≤ p.length ∧ source ∈ p)) ∧
      (source ≠ target → (answer = true ↔ between ≠ none)) := by
  have hg := hg.consistent
  have hsource := hg.mem_ids.1 hsource
  have htarget := hg.mem_ids.1 htarget
  obtain ⟨first, hfirst⟩ := hg.node_eq_ok hsource
  obtain ⟨last, hlast⟩ := hg.node_eq_ok htarget
  have hreachable : g.reachable source target = .ok (g.reaches source target) := by
    rw [reachable, hfirst, hlast]
    rfl
  have hway : g.reaches source target = true ↔ ∃ p, g.Way source target p ∧ 2 ≤ p.length := by
    rw [reaches_iff hg]
    constructor
    · rintro ⟨k, p, hp, hlen⟩
      exact ⟨p, hp, by omega⟩
    · rintro ⟨p, hp, hlen⟩
      exact ⟨p.length - 2, p, hp, by omega⟩
  obtain ⟨between, hbetween, hshortest⟩ := hg.exists_distance hsource htarget
  refine ⟨_, between, hreachable, hbetween, hway, ?_, ?_⟩
  · rintro rfl
    rw [hway]
    constructor
    · rintro ⟨p, hp, hlen⟩
      exact ⟨source, p, hp, hlen, hp.source_mem⟩
    · rintro ⟨u, p, hp, hlen, hmem⟩
      obtain ⟨q, hq, heq⟩ := hp.exists_rotation hmem
      exact ⟨q, hq, by omega⟩
  · intro hne
    rw [hway, Ne, eq_none_iff_of_shortest hshortest, not_forall_not]
    constructor
    · rintro ⟨p, hp, -⟩
      exact ⟨p, hp⟩
    · rintro ⟨p, hp⟩
      cases hp with
      | here => exact absurd rfl hne
      | step hl hp =>
        obtain ⟨q, rfl⟩ := hp.exists_eq_cons
        exact ⟨_, .step hl hp, by simp⟩

/-- Nodes that lead to each other reach themselves, and the way in is not reached at all. -/
theorem reachable_iff_way_shuttle :
    ∃ g : Graph Unit, g.Built ∧ "in" ∈ g.ids ∧ "b" ∈ g.ids ∧ g.reachable "b" "b" = .ok true ∧
      g.reachable "b" "in" = .ok false ∧ g.distance "b" "in" = .ok none := by
  obtain ⟨g, hbuilt, hedges, hids⟩ := Shuttle.exists_graph
  have hin : "in" ∈ g.ids := hids "in" (by decide)
  have hb : "b" ∈ g.ids := hids "b" (by decide)
  have hthere : g.Linked "b" "c" := (linked_iff_of_edges hedges).2 (by decide)
  have hback : g.Linked "c" "b" := (linked_iff_of_edges hedges).2 (by decide)
  obtain ⟨answer, -, hanswer, -, hiff, -⟩ := reachable_iff_way hbuilt hb hb
  obtain ⟨out, between, hout, hbetween, houtiff, -, hagree⟩ := reachable_iff_way hbuilt hb hin
  have htrue : answer = true :=
    hiff.2 ⟨["b", "c", "b"], .step hthere (.step hback (.here "b")), by decide⟩
  have hfalse : out = false := by
    rw [← Bool.not_eq_true, houtiff]
    rintro ⟨p, hp, -⟩
    exact Shuttle.not_way hedges (by decide) p hp
  have hnone : between = none := by
    by_contra hne
    have := (hagree (by decide)).2 hne
    rw [hfalse] at this
    cases this
  exact ⟨g, hbuilt, hin, hb, htrue ▸ hanswer, hfalse ▸ hout, hnone ▸ hbetween⟩

end Answers

end CartFlow.Graph
