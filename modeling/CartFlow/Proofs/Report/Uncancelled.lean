import CartFlow.Proofs.Report.Inversion
import CartFlow.Proofs.Report.LaterStages

/-!
# Failures that are no cancellation

A report goes on behind a handler that fails unless the failure is a cancellation. Nothing in an
analysis asks whether to go on, so a cancellation could only come from the source of routines.
That a computation never fails in this way is kept by putting computations together; each function
that an analysis uses is made of such parts and of bare causes of other kinds.
-/
namespace CartFlow

open Processor

def Uncancelled {α : Type} (x : Except Failure α) : Prop :=
  ∀ e, x = .error e → e.cause ≠ .cancelled

namespace Uncancelled

variable {α β : Type} {x : Except Failure α}

theorem ok (a : α) : Uncancelled (.ok a) := by
  intro e he
  cases he

theorem of_exists (hx : ∃ a, x = .ok a) : Uncancelled x := by
  obtain ⟨a, rfl⟩ := hx
  exact ok a

theorem of_fail {cause : Cause} (hcause : cause ≠ .cancelled) :
    Uncancelled (fail cause : Except Failure α) := by
  intro e he
  cases he
  exact hcause

theorem during (activity : Activity) (hx : Uncancelled x) :
    Uncancelled (CartFlow.during activity x) := by
  cases x with
  | ok a => exact ok a
  | error e =>
    intro e' he
    cases he
    exact hx e rfl

theorem bind {f : α → Except Failure β} (hx : Uncancelled x)
    (hf : ∀ a, x = .ok a → Uncancelled (f a)) : Uncancelled (x >>= f) := by
  cases x with
  | ok a => exact hf a rfl
  | error e =>
    intro e' he
    cases he
    exact hx e rfl

theorem map (f : α → β) (hx : Uncancelled x) : Uncancelled (x.map f) := by
  cases x with
  | ok a => exact ok (f a)
  | error e =>
    intro e' he
    cases he
    exact hx e rfl

theorem mapM {f : α → Except Failure β} (hf : ∀ a, Uncancelled (f a)) (l : List α) :
    Uncancelled (l.mapM f) := by
  induction l with
  | nil => exact ok []
  | cons a l ih =>
    rw [List.mapM_cons]
    apply (hf a).bind
    intro b _
    apply ih.bind
    intro bs _
    exact ok (b :: bs)

theorem foldlM {f : β → α → Except Failure β} (hf : ∀ b a, Uncancelled (f b a)) (l : List α)
    (b : β) : Uncancelled (l.foldlM f b) := by
  induction l generalizing b with
  | nil => exact ok b
  | cons a l ih =>
    rw [List.foldlM_cons]
    apply (hf b a).bind
    intro next _
    exact ih next

end Uncancelled

namespace Graph

variable {α : Type} (g : Graph α)

theorem uncancelled_node (id : String) : Uncancelled (g.node id) := by
  unfold node
  split
  · exact .ok _
  · exact .of_fail (by simp)

theorem uncancelled_addEdge (source target : String) (label : UInt8) :
    Uncancelled (g.addEdge source target label) := by
  unfold addEdge
  split
  · exact .during _ (.of_fail (by simp))
  · exact .during _ (.of_fail (by simp))
  · exact .ok _

end Graph

namespace Instruction

variable (i : Instruction)

theorem uncancelled_target : Uncancelled i.target := by
  unfold target
  split
  · apply Uncancelled.during
    unfold Mode.target
    split
    all_goals first | exact .ok _ | exact .of_fail (by simp)
  · exact .of_fail (by simp)

theorem uncancelled_staticTarget : Uncancelled i.staticTarget := by
  apply i.uncancelled_target.bind
  intro target _
  cases target with
  | none => exact .during _ (.of_fail (by simp))
  | some target => exact .ok target

end Instruction

theorem Profile.uncancelled_add (p : Profile) (i : Instruction) : Uncancelled (p.add i) := by
  unfold Profile.add
  split
  · split
    · exact .ok _
    · apply i.uncancelled_staticTarget.bind
      intro target _
      split
      · exact .of_fail (by simp)
      · exact .ok _
  · split
    · apply i.uncancelled_target.bind
      intro target _
      exact .ok _
    · exact .ok p

namespace BlockGraph

namespace Walk

variable (w : Walk) (i : Instruction)

theorem uncancelled_enterLabel (address : Address) : Uncancelled (w.enterLabel address) := by
  obtain ⟨graph, current⟩ := w
  unfold enterLabel
  dsimp only
  split
  · exact .ok _
  · split
    · exact .ok _
    · apply (Graph.uncancelled_addEdge _ _ _ _).bind
      intro next _
      exact .ok _

theorem uncancelled_append : Uncancelled (w.append i) := by
  have hblock : Uncancelled (w.blockOf i) := by
    unfold blockOf
    split
    · exact .ok _
    · exact ((Graph.uncancelled_node _ _).during _).map _
  unfold append
  split
  · exact .ok _
  · next e he =>
    intro e' he'
    cases he'
    exact hblock e he

theorem uncancelled_endBlock : Uncancelled (w.endBlock i) := by
  unfold endBlock
  apply (w.uncancelled_append i).bind
  rintro ⟨w, id⟩ _
  apply i.uncancelled_staticTarget.bind
  intro target _
  dsimp only
  split
  · apply (Graph.uncancelled_addEdge _ _ _ _).bind
    intro next _
    exact .ok _
  · apply (Graph.uncancelled_addEdge _ _ _ _).bind
    intro next _
    apply (Graph.uncancelled_addEdge _ _ _ _).bind
    intro last _
    exact .ok _

theorem uncancelled_feed (labels : Std.HashSet Address) : Uncancelled (w.feed labels i) := by
  have hrest : ∀ w : Walk, Uncancelled
      (if i.has .branch then w.endBlock i else (w.append i).map (·.1)) := by
    intro w
    split
    · exact w.uncancelled_endBlock i
    · exact (w.uncancelled_append i).map _
  unfold feed
  dsimp only
  split
  · apply (w.uncancelled_enterLabel i.address).bind
    intro next _
    exact hrest next
  · exact hrest w

end Walk

theorem uncancelled_ofRoutine (r : Routine) : Uncancelled (ofRoutine r).outcome := by
  unfold ofRoutine
  simp only [Traced.outcome_during, Traced.outcome_bind, Traced.outcome_ofExcept,
    Walk.outcome_feedAll]
  apply Uncancelled.during
  apply Uncancelled.bind
  · apply (Uncancelled.mapM Instruction.uncancelled_staticTarget _).bind
    intro targets _
    exact .ok _
  · intro labels _
    apply (Uncancelled.foldlM (fun w i => w.uncancelled_feed i labels) _ _).bind
    intro w _
    unfold chooseExit
    split
    · exact .ok _
    · exact .ok _
    · exact .of_fail (by simp)

end BlockGraph

namespace CallGraph

variable {source : RoutineSource}

theorem uncancelled_profileOf (hsource : ∀ address p, Uncancelled (source address p).outcome)
    (address : Address) (p : Flags) : Uncancelled (profileOf source address p).outcome := by
  unfold profileOf
  rw [Traced.outcome_bind]
  apply (hsource address p).bind
  intro r _
  exact .during _ (.foldlM Profile.uncancelled_add _ _)

theorem uncancelled_follow (hsource : ∀ address p, Uncancelled (source address p).outcome)
    (track : Address) (g : CallGraph) (stack : List DirectCall) :
    Uncancelled (follow source track g stack).outcome := by
  induction g, stack using follow.induct source track with
  | case1 g =>
    rw [follow]
    exact .ok g
  | case2 g call rest target hseen ih =>
    rw [outcome_follow_cons, if_pos hseen]
    exact ih
  | case3 g call rest target hseen records e hprofile =>
    rw [outcome_follow_cons, if_neg hseen, hprofile]
    intro e' he'
    cases he'
    exact uncancelled_profileOf hsource _ _ e (congrArg Traced.outcome hprofile)
  | case4 g call rest target hseen records profile hprofile known e hadd =>
    rw [outcome_follow_cons, if_neg hseen, hprofile]
    dsimp only
    rw [hadd]
    intro e' he'
    cases he'
    exact Graph.uncancelled_addEdge _ _ _ _ e hadd
  | case5 g call rest target hseen records profile hprofile known next hadd ih =>
    rw [outcome_follow_cons, if_neg hseen, hprofile]
    dsimp only
    rw [hadd]
    exact ih

theorem uncancelled_build (hsource : ∀ address p, Uncancelled (source address p).outcome)
    (track address : Address) : Uncancelled (build source track address).outcome := by
  unfold build
  rw [Traced.outcome_bind]
  apply (uncancelled_profileOf hsource address {}).bind
  intro profile _
  exact uncancelled_follow hsource track _ _

end CallGraph

theorem Analyzer.uncancelled_analyze {a : Analyzer}
    (hsource : ∀ address p, Uncancelled (a.source address p).outcome) (address : Address) :
    Uncancelled (a.analyze address).outcome := by
  unfold analyze
  simp only [Traced.outcome_bind, Traced.outcome_report, Traced.outcome_ofExcept,
    Traced.outcome_during, Traced.outcome_pure]
  apply (Uncancelled.ok ()).bind
  intro _ _
  apply (CallGraph.uncancelled_build hsource a.track address).bind
  intro callGraph _
  apply (BlockGraph.uncancelled_ofRoutine _).bind
  intro blocks hblocks
  apply Uncancelled.bind
  · apply Uncancelled.during
    rcases BlockGraph.dominatorTree_of_ofRoutine hblocks a.passLimit with ⟨tree, htree⟩ | ⟨-, hfail⟩
    · rw [htree]
      exact .ok tree
    · rw [hfail]
      exact .of_fail (by simp)
  · intro tree htree
    -- behind the tree nothing fails
    obtain ⟨loops, hstages⟩ := BlockGraph.exists_completes hblocks (during_eq_ok.1 htree)
    rw [hstages.loops_eq, during_ok]
    apply (Uncancelled.ok loops).bind
    intro found hfound
    cases hfound
    apply (Uncancelled.of_exists (hstages.exists_conditional _)).bind
    intro conditional _
    apply (Uncancelled.of_exists (hstages.exists_inLoop _)).bind
    intro inLoop _
    exact .ok _

end CartFlow
