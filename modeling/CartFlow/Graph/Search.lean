import CartFlow.Graph.Basic

/-!
# Distances and reachability

The distance from one node to another is found by a survey. It takes one node after the other,
always the closest of those that it has not taken, and follows the edges of the node it takes;
a node that no edge has led to so far counts as farther away than all others. The survey ends
when it takes the node that was asked for, or when no node is left.

Whether a node is reached by at least one edge is answered by a queue, which starts with the
nodes behind the first one. The nodes that were not met so far are carried along as a pool: the
edges of a node are followed only if it is still in the pool.

How far all nodes are from one target is answered by a search in levels, against the direction of
the edges. A level is the list of nodes at one distance from the target; the next level consists of
the nodes of the pool from which an edge leads to the level, and takes them out of the pool.
-/
namespace CartFlow.Graph

variable {α : Type}

/-- Whether a distance is less than another; no way at all is the greatest distance. -/
def closer : Option Nat → Option Nat → Bool
  | some d, some e => d < e
  | some _, none => true
  | none, _ => false

/-- The closest of some nodes, the first of equally close ones. -/
def closest (distance : String → Option Nat) : List String → Option String
  | [] => none
  | id :: rest =>
    some (rest.foldl (fun best other =>
      if closer (distance other) (distance best) then other else best) id)

section Closest

variable {distance : String → Option Nat}

theorem not_closer_trans {a b c : Option Nat} (hab : closer a b = false)
    (hbc : closer b c = false) : closer a c = false := by
  cases a with
  | none => rfl
  | some a =>
    cases b with
    | none => simp [closer] at hab
    | some b =>
      cases c with
      | none => simp [closer] at hbc
      | some c =>
        simp only [closer, decide_eq_false_iff_not] at hab hbc ⊢
        omega

theorem not_closer_of_closer {a b : Option Nat} (h : closer a b = true) : closer b a = false := by
  cases a with
  | none => simp [closer] at h
  | some a =>
    cases b with
    | none => rfl
    | some b =>
      simp only [closer, decide_eq_true_eq, decide_eq_false_iff_not] at h ⊢
      omega

theorem closer_self (a : Option Nat) : closer a a = false := by
  cases a <;> simp [closer]

theorem foldl_closer (rest : List String) (best : String) :
    let found := rest.foldl (fun best other =>
      if closer (distance other) (distance best) then other else best) best
    found ∈ best :: rest ∧
      ∀ other ∈ best :: rest, closer (distance other) (distance found) = false := by
  induction rest generalizing best with
  | nil =>
    refine ⟨List.mem_cons_self, ?_⟩
    intro other hother
    rw [List.mem_singleton.1 hother]
    exact closer_self _
  | cons id rest ih =>
    simp only [List.foldl_cons]
    split
    · next hid =>
      obtain ⟨hmem, hmin⟩ := ih id
      refine ⟨List.mem_cons_of_mem best hmem, ?_⟩
      intro other hother
      rcases List.mem_cons.1 hother with rfl | hother
      · exact not_closer_trans (not_closer_of_closer hid) (hmin id List.mem_cons_self)
      · exact hmin other hother
    · next hid =>
      obtain ⟨hmem, hmin⟩ := ih best
      refine ⟨?_, ?_⟩
      · rcases List.mem_cons.1 hmem with hmem | hmem
        · rw [hmem]
          exact List.mem_cons_self
        · exact List.mem_cons_of_mem best (List.mem_cons_of_mem id hmem)
      · intro other hother
        rcases List.mem_cons.1 hother with rfl | hother
        · exact hmin other List.mem_cons_self
        · rcases List.mem_cons.1 hother with rfl | hother
          · exact not_closer_trans (by simpa using hid) (hmin best List.mem_cons_self)
          · exact hmin other (List.mem_cons_of_mem best hother)

/-- The closest node is one of the list, and none of the list is closer. -/
theorem closest_eq_some {ids : List String} {id : String} (h : closest distance ids = some id) :
    id ∈ ids ∧ ∀ other ∈ ids, closer (distance other) (distance id) = false := by
  cases ids with
  | nil => cases h
  | cons first rest =>
    cases h
    exact foldl_closer rest first

end Closest

/-- The numbers of edges of the shortest ways that were found so far. -/
abbrev Distances := Std.HashMap String Nat

/-- Notes a number of edges for nodes to which no shorter way was found. -/
def note (found : Distances) (d : Nat) (ids : List String) : Distances :=
  ids.foldl (fun found id => if closer (some d) found[id]? then found.insert id d else found) found

/-- Follows the edges from a node to other nodes, if some way was found to it. -/
def relax (g : Graph α) (found : Distances) (id : String) : Distances :=
  match found[id]? with
  | some d => note found (d + 1) ((g.successorIds id).filter (· != id))
  | none => found

/-- Where a survey stands: what it has found, the node that it took last, and the nodes that it
has not taken, in their order. -/
structure Survey where
  found : Distances
  current : String
  waiting : List String

namespace Survey

/-- A survey takes the node from which the distances are measured first. -/
def start (g : Graph α) (source : String) : Survey where
  found := g.relax (({} : Distances).insert source 0) source
  current := source
  waiting := g.ids.erase source

/-- The survey behind one more node, if there is one. -/
def next? (g : Graph α) (s : Survey) : Option Survey :=
  (closest (s.found[·]?) s.waiting).map fun id =>
    { found := g.relax s.found id, current := id, waiting := s.waiting.erase id }

/-- What is known of a survey that goes on. -/
theorem next?_eq_some {g : Graph α} {s next : Survey} (h : s.next? g = some next) :
    closest (s.found[·]?) s.waiting = some next.current ∧
      next.found = g.relax s.found next.current ∧ next.waiting = s.waiting.erase next.current := by
  obtain ⟨id, hid, rfl⟩ := Option.map_eq_some_iff.1 h
  exact ⟨hid, rfl, rfl⟩

theorem length_next?_lt {g : Graph α} {s next : Survey} (h : s.next? g = some next) :
    next.waiting.length < s.waiting.length := by
  obtain ⟨hid, -, hwaiting⟩ := next?_eq_some h
  have hmem := (closest_eq_some hid).1
  have hpos := List.length_pos_of_mem hmem
  rw [hwaiting, List.length_erase_of_mem hmem]
  omega

/-- Takes nodes until one at which the survey may end, or until no node is left. -/
def run (g : Graph α) (ends : String → Bool) (s : Survey) : Distances :=
  if ends s.current then s.found
  else
    match _h : s.next? g with
    | none => s.found
    | some next => next.run g ends
termination_by s.waiting.length
decreasing_by exact length_next?_lt _h

end Survey

/-- The least number of edges from one node to another, `none` if there is no way. -/
def distance (g : Graph α) (source target : String) : Except Failure (Option Nat) := do
  let _ ← during .pathSource (g.node source)
  let _ ← during .pathTarget (g.node target)
  return (Survey.run g (· == target) (.start g source))[target]?

/-- The nodes that a search has not met so far, with their positions. -/
abbrev Pool := Std.HashMap String Nat

theorem size_erase_add_one {pool : Pool} {id : String} (hid : id ∈ pool) :
    (pool.erase id).size + 1 = pool.size := by
  have hpos : pool.size ≠ 0 := by
    intro hzero
    have hempty : pool.isEmpty = true := by
      rw [Std.HashMap.isEmpty_eq_size_eq_zero, hzero]
      rfl
    exact Std.HashMap.isEmpty_iff_forall_not_mem.1 hempty id hid
  rw [Std.HashMap.size_erase, if_pos hid]
  omega

/-- Looks for a node in a queue from its `k`-th node on, and behind these nodes. The edges of a
node are followed when it is taken out of the pool. -/
def lookFor (g : Graph α) (target : String) (queue : Array String) (k : Nat) (pool : Pool) : Bool :=
  if h : k < queue.size then
    if queue[k] = target then true
    else if queue[k] ∈ pool then
      g.lookFor target (queue ++ g.successorIds queue[k]) (k + 1) (pool.erase queue[k])
    else g.lookFor target queue (k + 1) pool
  else false
termination_by (pool.size, queue.size - k)
decreasing_by
  · next hmem =>
    have := size_erase_add_one hmem
    exact .left _ _ (by omega)
  · exact .right _ (by omega)

/-- Whether a way of at least one edge leads from one node to another. -/
def reaches (g : Graph α) (source target : String) : Bool :=
  g.lookFor target (g.successorIds source).toArray 0 g.index

/-- Whether a way of at least one edge leads from one node of the graph to another. -/
def reachable (g : Graph α) (source target : String) : Except Failure Bool := do
  let _ ← during .reachSource (g.node source)
  let _ ← during .reachTarget (g.node target)
  return g.reaches source target

/-- Takes nodes out of a pool: those of a list that are in it, each once, and what is left. -/
def draw (pool : Pool) : List String → List String × Pool
  | [] => ([], pool)
  | id :: rest =>
    if pool.contains id then
      let (found, left) := draw (pool.erase id) rest
      (id :: found, left)
    else draw pool rest

/-- A node is either taken out of a pool or left in it. -/
theorem length_draw (pool : Pool) (ids : List String) :
    (draw pool ids).1.length + (draw pool ids).2.size = pool.size := by
  induction ids generalizing pool with
  | nil => simp [draw]
  | cons id rest ih =>
    unfold draw
    split
    · next h =>
      have hmem : id ∈ pool := Std.HashMap.mem_iff_contains.2 h
      have hsize := size_erase_add_one hmem
      have := ih (pool.erase id)
      simp only [List.length_cons]
      omega
    · exact ih pool

theorem mem_draw {pool : Pool} {ids : List String} {id : String} :
    id ∈ (draw pool ids).1 ↔ id ∈ ids ∧ id ∈ pool := by
  induction ids generalizing pool with
  | nil => simp [draw]
  | cons other rest ih =>
    unfold draw
    split
    · next h =>
      have hmem : other ∈ pool := Std.HashMap.mem_iff_contains.2 h
      simp only [List.mem_cons, ih, Std.HashMap.mem_erase, beq_eq_false_iff_ne]
      by_cases heq : id = other
      · subst heq; simp [hmem]
      · simp [heq, Ne.symm heq]
    · next h =>
      have hmem : other ∉ pool := fun hin => h (Std.HashMap.mem_iff_contains.1 hin)
      rw [ih, List.mem_cons]
      constructor
      · rintro ⟨h₁, h₂⟩
        exact ⟨.inr h₁, h₂⟩
      · rintro ⟨rfl | h₁, h₂⟩
        · exact absurd h₂ hmem
        · exact ⟨h₁, h₂⟩

theorem mem_left {pool : Pool} {ids : List String} {id : String} :
    id ∈ (draw pool ids).2 ↔ id ∈ pool ∧ id ∉ ids := by
  induction ids generalizing pool with
  | nil => simp [draw]
  | cons other rest ih =>
    unfold draw
    split
    · simp only [ih, Std.HashMap.mem_erase, beq_eq_false_iff_ne, List.mem_cons, not_or]
      constructor
      · rintro ⟨⟨h₁, h₂⟩, h₃⟩
        exact ⟨h₂, Ne.symm h₁, h₃⟩
      · rintro ⟨h₁, h₂, h₃⟩
        exact ⟨⟨Ne.symm h₂, h₁⟩, h₃⟩
    · next h =>
      have hmem : other ∉ pool := fun hin => h (Std.HashMap.mem_iff_contains.1 hin)
      rw [ih, List.mem_cons, not_or]
      constructor
      · rintro ⟨h₁, h₂⟩
        exact ⟨h₁, fun heq => hmem (heq ▸ h₁), h₂⟩
      · rintro ⟨h₁, -, h₂⟩
        exact ⟨h₁, h₂⟩

/-- The levels of a search from the given one on; the pool has the nodes that are in no level
so far. -/
def levels (g : Graph α) (level : List String) (pool : Pool) : List (List String) :=
  level ::
    match _h : draw pool (level.flatMap g.predecessorIds) with
    | ([], _) => []
    | (id :: rest, left) => g.levels (id :: rest) left
termination_by pool.size
decreasing_by
  have := length_draw pool (level.flatMap g.predecessorIds)
  rw [_h] at this
  simp only [List.length_cons] at this
  omega

/-- The levels of the nodes from which a way leads to a node. -/
def levelsTo (g : Graph α) (target : String) : List (List String) :=
  g.levels [target] (g.index.erase target)

def levelOf? (levels : List (List String)) (id : String) : Option Nat :=
  levels.findIdx? (·.contains id)

end CartFlow.Graph
