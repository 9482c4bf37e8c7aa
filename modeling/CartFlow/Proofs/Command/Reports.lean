import CartFlow.Command.Session
import CartFlow.Proofs.Command.Actions
import CartFlow.Proofs.Report.Covered

/-!
# Reports that are made and delivered

Making a report looks at one file, and everything behind that is computed from its contents; so the
report is the same in every world that has these contents there. Whoever is told to stop early gets
no report, and otherwise the one that anybody gets. Delivering it to a file writes its whole text or
fails.
-/
namespace CartFlow

open Text

namespace Report

variable {a : Examiner} {ignore : List Address}

/-- A report that is finished under a limit is the one without it. -/
theorem outcome_examineAll_of_ok {r : Report} (queued : Std.HashSet Address) (report : Report)
    (patience : Patience) (pending : List Address)
    (h : (examineAll a ignore queued report patience pending).outcome = .ok r) :
    (examineAll a ignore queued report {} pending).outcome = .ok r := by
  induction queued, report, patience, pending using examineAll.induct a ignore with
  | case1 queued report patience =>
    rw [examineAll] at h ⊢
    exact h
  | case2 queued report patience address rest e hask =>
    rw [examineAll, hask] at h
    cases h
  | case3 queued report patience address rest left hask records e hexamine =>
    rw [examineAll, hask] at h
    dsimp only at h
    rw [hexamine] at h
    cases h
  | case4 queued report patience address rest left hask records handler found hexamine new ih =>
    have hfound := congrArg Traced.outcome hexamine
    rw [outcome_examineAll_cons hask hfound] at h
    rw [outcome_examineAll_cons rfl hfound]
    exact ih h

/-- Handlers that are all ignored are listed and nothing else. -/
theorem outcome_examineAll_of_ignored (queued : Std.HashSet Address) (report : Report)
    {pending : List Address} (h : ∀ address ∈ pending, address ∈ ignore) :
    (examineAll a ignore queued report {} pending).outcome =
      .ok { report with
        ignored := report.ignored ++
          pending.map fun address => ({ address, status := .ignored } : Handler) }.finish := by
  induction pending generalizing queued report with
  | nil => simp [examineAll]
  | cons address rest ih =>
    rw [List.forall_mem_cons] at h
    have hexamine : (examine a ignore address).outcome =
        .ok ({ address, status := .ignored }, []) := by
      simp [examine, h.1]
    have hfresh : fresh queued [] = [] := rfl
    rw [outcome_examineAll_cons rfl hexamine, hfresh, List.append_nil, ih _ _ h.2]
    simp [add]

end Report

namespace Session

open Cartridge

variable {s : Session} {input : String}

def imageIn (s : Session) (bytes : Array UInt8) : Except Failure Cursor := do
  let image ← during .loadingImage (imageOfFile bytes)
  let mapping ← during .detectingMapping (detect s.mapping image).outcome
  return { image, mapping }

def reportOn (s : Session) (c : Cursor) : Except Failure Report := do
  let handlers ← during .readingPointerTable (s.settings.table.handlers c)
  let examiner : Examiner :=
    { source := s.routines c, track := s.settings.track, passLimit := s.passLimit }
  during .generatingReport
    (Report.generate examiner handlers s.settings.ignore s.patience).outcome

theorem reads_say (s : Session) (r : Record) : (s.say r).Reads fun _ => .ok () := by
  unfold say
  split
  · exact fun _ => ⟨rfl, rfl⟩
  · exact Action.reads_pure ()

theorem reads_describeImage (s : Session) (input : String) (c : Cursor) :
    (s.describeImage input c).Reads fun _ => .ok () := by
  refine (s.reads_say _).skip ?_
  split
  · exact s.reads_say _
  · exact Action.reads_pure ()

theorem reads_openImage (s : Session) (input : String) :
    (s.openImage input).Reads fun fs =>
      during .loadingImage (during (.openingFile input) (fs.read input)) >>= s.imageIn := by
  refine (((Action.reads_readFile input).during _).during _).bind fun bytes => ?_
  refine (Action.reads_ofExcept _).bind fun image => ?_
  refine (Action.reads_ofTraced _ _).bind fun mapping => ?_
  dsimp only
  split
  · exact (s.reads_describeImage input _).skip (Action.reads_pure _)
  · exact Action.reads_pure _

/-- Making a report looks at the file of the image only. -/
theorem reads_report (s : Session) (input : String) :
    (s.report input).Reads fun fs =>
      s.settings.validate >>= fun _ =>
        (during .loadingImage (during (.openingFile input) (fs.read input)) >>= s.imageIn) >>=
          s.reportOn := by
  refine (Action.reads_ofExcept _).bind fun _ => ?_
  refine (s.reads_openImage input).bind fun c => ?_
  refine (Action.reads_ofExcept _).bind fun handlers => ?_
  exact (s.reads_say _).skip (Action.reads_ofTraced _ _)

/-- There is a report exactly if the settings allow for it, the file can be read and what is in it
can be reported on. -/
theorem report_eq_ok {w : World} {r : Report} :
    ((s.report input).run w).1 = .ok r ↔
      s.settings.validate = .ok () ∧ ∃ bytes, w.files.read input = .ok bytes ∧
        ∃ c, s.imageIn bytes = .ok c ∧ s.reportOn c = .ok r := by
  rw [(s.reads_report input w).1]
  simp only [bind_eq_ok, during_eq_ok]
  constructor
  · rintro ⟨_, hvalid, c, ⟨bytes, hbytes, hc⟩, hr⟩
    exact ⟨hvalid, bytes, hbytes, c, hc, hr⟩
  · rintro ⟨hvalid, bytes, hbytes, c, hc, hr⟩
    exact ⟨(), hvalid, c, ⟨bytes, hbytes, hc⟩, hr⟩

theorem report_congr {w next : World} (h : next.files.read input = w.files.read input) :
    ((s.report input).run next).1 = ((s.report input).run w).1 := by
  rw [(s.reads_report input w).1, (s.reads_report input next).1]
  dsimp only
  rw [h]

@[simp] theorem format_past (s : Session) (k : Nat) : (s.past k).format = s.format := rfl

theorem past_past (s : Session) (j k : Nat) : (s.past j).past k = s.past (j + k) := by
  unfold past
  congr 1
  funext file
  exact congrArg s.schedule (by omega)

/-- The session as it makes a report by itself: without limit, and without an output file, since a
batch gives each image its own. -/
def unlimited (s : Session) : Session :=
  { s with output := "", patience := {} }

/-- A report that is made under a limit is the one that is made without it. -/
theorem report_of_limited {w : World} {r : Report} (h : ((s.report input).run w).1 = .ok r) :
    ((s.unlimited.report input).run w).1 = .ok r := by
  rw [report_eq_ok] at h ⊢
  obtain ⟨hvalid, bytes, hbytes, c, hc, hr⟩ := h
  refine ⟨hvalid, bytes, hbytes, c, hc, ?_⟩
  simp only [reportOn, bind_eq_ok, during_eq_ok] at hr ⊢
  obtain ⟨handlers, hhandlers, hr⟩ := hr
  exact ⟨handlers, hhandlers, Report.outcome_examineAll_of_ok _ _ _ _ hr⟩

theorem report_unlimited (hpatience : s.patience = {}) (input : String) (w : World) :
    ((s.unlimited.report input).run w).1 = ((s.report input).run w).1 := by
  cases s
  cases hpatience
  rfl

theorem run_deliver_eq_ok (houtput : s.output ≠ "") {d : Document} {w next : World} :
    (s.deliver d).run w = (.ok (), next) ↔
      d.failure = none ∧
        ∃ files, w.files.write s.output (encode d.text) = .ok files ∧ { w with files } = next := by
  rw [deliver, if_neg (by simpa using houtput), writeDocument, Action.run_bind_eq_ok]
  simp only [Action.run_during_eq_ok, Action.run_writeFile_eq_ok]
  cases d.failure with
  | none => simp
  | some e => simp

end Session

end CartFlow
