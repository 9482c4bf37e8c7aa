import CartFlow.Command.Action

/-!
# Steps of actions

What is known of a run that succeeds: its steps succeeded one after the other. Two kinds of actions
have no effect on the files. One that reads has an outcome that follows from the files, whatever was
shown before and whichever device takes what is printed. One that looks shows nothing either, so the
world is the same behind it.
-/
namespace CartFlow.Action

open Text

variable {α β : Type} {x : Action α} {f : α → Action β}

section Runs

variable {w next last : World}

theorem run_bind_eq_ok {b : β} :
    (x >>= f).run w = (.ok b, last) ↔
      ∃ a next, x.run w = (.ok a, next) ∧ (f a).run next = (.ok b, last) := by
  rw [run_bind]
  cases x.run w with
  | mk outcome next =>
    cases outcome with
    | error e => simp
    | ok a =>
      refine ⟨fun h => ⟨a, next, rfl, h⟩, ?_⟩
      rintro ⟨_, _, heq, h⟩
      cases heq
      exact h

theorem run_attempt_eq_ok {outcome : Except Failure α} :
    x.attempt.run w = (.ok outcome, next) ↔ x.run w = (outcome, next) := by
  rw [run_attempt, Prod.mk.injEq, Except.ok.injEq, ← Prod.mk.injEq]

theorem run_during (activity : Activity) (x : Action α) (w : World) :
    (x.during activity).run w = (CartFlow.during activity (x.run w).1, (x.run w).2) := by
  change (x.attempt >>= fun outcome => done (CartFlow.during activity outcome)).run w = _
  rw [run_bind, run_attempt]
  rfl

theorem run_during_eq_ok {activity : Activity} {a : α} :
    (x.during activity).run w = (.ok a, next) ↔ x.run w = (.ok a, next) := by
  rw [run_during, Prod.mk.injEq, during_eq_ok, ← Prod.mk.injEq]

theorem run_writeFile_eq_ok {path text : String} {u : Unit} :
    (writeFile path text).run w = (.ok u, next) ↔
      ∃ files, w.files.write path (encode text) = .ok files ∧ { w with files } = next := by
  rw [writeFile, run]
  cases w.files.write path (encode text) with
  | ok files => simp [run]
  | error e => simp [run]

end Runs

section Reading

/-- The outcome of an action is a function of the files, which stay as they are. -/
def Reads (x : Action α) (outcome : FileSystem → Except Failure α) : Prop :=
  ∀ w : World, (x.run w).1 = outcome w.files ∧ (x.run w).2.files = w.files

variable {first : FileSystem → Except Failure α} {second : α → FileSystem → Except Failure β}

theorem Reads.exists_run (hx : x.Reads first) (w : World) :
    ∃ next, x.run w = (first w.files, next) ∧ next.files = w.files :=
  ⟨_, Prod.ext (hx w).1 rfl, (hx w).2⟩

theorem Reads.files_eq {outcome : Except Failure α} {w next : World} (hx : x.Reads first)
    (hrun : x.run w = (outcome, next)) : next.files = w.files := by
  have hfiles := (hx w).2
  rw [hrun] at hfiles
  exact hfiles

theorem reads_pure (a : α) : (pure a : Action α).Reads fun _ => .ok a :=
  fun _ => ⟨rfl, rfl⟩

theorem reads_ofExcept (outcome : Except Failure α) : (ofExcept outcome).Reads fun _ => outcome :=
  fun _ => ⟨rfl, rfl⟩

theorem reads_readFile (path : String) : (readFile path).Reads fun fs => fs.read path :=
  fun _ => ⟨rfl, rfl⟩

theorem reads_ofTraced (least : Level) (x : Traced α) :
    (ofTraced least x).Reads fun _ => x.outcome := by
  intro w
  unfold ofTraced
  induction x.records.filter (least.rank ≤ ·.level.rank) generalizing w with
  | nil => exact ⟨rfl, rfl⟩
  | cons r records ih => exact ih (w.display (.record r))

theorem Reads.during (hx : x.Reads first) (activity : Activity) :
    (x.during activity).Reads fun fs => CartFlow.during activity (first fs) := by
  intro w
  rw [run_during, (hx w).1]
  exact ⟨rfl, (hx w).2⟩

theorem Reads.bind (hx : x.Reads first) (hf : ∀ a, (f a).Reads (second a)) :
    (x >>= f).Reads fun fs => first fs >>= fun a => second a fs := by
  intro w
  obtain ⟨next, hrun, hfiles⟩ := hx.exists_run w
  rw [run_bind, hrun]
  dsimp only
  cases first w.files with
  | error e => exact ⟨rfl, hfiles⟩
  | ok a =>
    have hrest := hf a next
    rw [hfiles] at hrest
    exact hrest

/-- A step that cannot fail and only shows something leaves the outcome to what follows. -/
theorem Reads.skip {a : α} {outcome : FileSystem → Except Failure β}
    (hx : x.Reads fun _ => .ok a) (hf : (f a).Reads outcome) : (x >>= f).Reads outcome := by
  intro w
  obtain ⟨next, hrun, hfiles⟩ := hx.exists_run w
  have hrest := hf next
  rw [hfiles] at hrest
  rw [run_bind, hrun]
  exact hrest

end Reading

section Looking

/-- An action that only looks leaves the world as it is. -/
def Looks (x : Action α) : Prop :=
  ∀ w : World, (x.run w).2 = w

theorem looks_done (outcome : Except Failure α) : (done outcome).Looks :=
  fun _ => rfl

theorem looks_lookAt (path : String) : (lookAt path).Looks :=
  fun _ => rfl

theorem Looks.bind (hx : x.Looks) (hf : ∀ a, (f a).Looks) : (x >>= f).Looks := by
  intro w
  obtain ⟨outcome, hrun⟩ : ∃ outcome, x.run w = (outcome, w) := ⟨_, Prod.ext rfl (hx w)⟩
  rw [run_bind, hrun]
  cases outcome with
  | error e => rfl
  | ok a => exact hf a w

theorem looks_mapM (hf : ∀ a, (f a).Looks) (l : List α) : (l.mapM f).Looks := by
  suffices h : ∀ found, (List.mapM.loop f l found).Looks from h []
  induction l with
  | nil => exact fun _ => looks_done _
  | cons a l ih => exact fun found => (hf a).bind fun b => ih (b :: found)

end Looking

end CartFlow.Action
