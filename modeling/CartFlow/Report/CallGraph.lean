import CartFlow.Counting
import CartFlow.Graph.Basic
import CartFlow.Log
import CartFlow.Report.Profile

/-!
# Call graphs

The routines that a handler calls, directly or through others. The handler is read
with both registers wide, every other routine with the flags of the call by which it is
found first. The tracked routine is not read. Newly found calls are followed before
older ones.
-/
namespace CartFlow

open Text Processor

/-- Where routines come from: the routine at an address, entered with the given flags. -/
abbrev RoutineSource := Address → Flags → Traced Routine

/-- The routines reachable from a handler, which is the entry. -/
abbrev CallGraph := Graph Profile

namespace CallGraph

def idOf (address : Address) : String :=
  hexAddress address

def profileOf (source : RoutineSource) (address : Address) (p : Flags) : Traced Profile := do
  let routine ← source address p
  Traced.ofExcept (during (.analyzing address) (Profile.ofRoutine routine))

/-- The number of addresses whose routine is not in the graph. -/
def unread (g : CallGraph) : Nat :=
  countWords fun a => !g.contains (idOf a)

theorem unread_lt {g h : CallGraph} {address : Address} {profile : Profile} {caller : String}
    {label : UInt8} (hnew : g.contains (idOf address) = false)
    (hok : (g.insert (idOf address) profile).addEdge caller (idOf address) label = .ok h) :
    h.unread < g.unread := by
  refine countWords_lt_countWords (a := address) ?_ ?_ ?_
  · intro b hb
    rw [Graph.contains_of_addEdge hok, Graph.contains_insert] at hb
    simp only [Bool.not_or, Bool.and_eq_true] at hb
    exact hb.2
  · simp [hnew]
  · rw [Graph.contains_of_addEdge hok, Graph.contains_insert]
    simp

/-- Follows the calls on a stack, the topmost first. -/
def follow (source : RoutineSource) (track : Address) (g : CallGraph) :
    List DirectCall → Traced CallGraph
  | [] => return g
  | call :: rest =>
    let target := call.target.address
    if _hseen : target = track ∨ g.contains (idOf target) then follow source track g rest
    else
      match profileOf source target call.target.flags with
      | ⟨records, .error e⟩ => ⟨records, .error e⟩
      | ⟨records, .ok profile⟩ =>
        let known := g.insert (idOf target) profile
        match _hadd : known.addEdge (idOf call.caller) (idOf target) 0 with
        | .error e => ⟨records, .error e⟩
        | .ok next =>
          let followed := follow source track next (profile.calls.reverse ++ rest)
          { followed with records := records ++ followed.records }
termination_by stack => (g.unread, stack.length)
decreasing_by
  · exact Prod.Lex.right _ (by simp)
  · refine Prod.Lex.left _ _ (unread_lt ?_ _hadd)
    simpa using (not_or.1 _hseen).2

def build (source : RoutineSource) (track address : Address) : Traced CallGraph := do
  let profile ← profileOf source address {}
  let root : CallGraph := Graph.empty.insert (idOf address) profile
  follow source track { root with entry := some (idOf address) } profile.calls.reverse

end CallGraph

end CartFlow
