import CartFlow.Command.Batch
import CartFlow.Proofs.Command.Reports

/-!
# Runs of a batch

Which files fit a pattern is only looked up. A batch that succeeds has written the report on one
file after the other, and every batch whose reports can be made and written succeeds. What is shown
on the way makes no difference, nor does a limit that is not reached.
-/
namespace CartFlow.Batch

open Files Text CartFlow.Action

section Matching

theorem looks_matching (directory pattern : String) : (matching directory pattern).Looks := by
  refine (looks_lookAt directory).bind fun entry => ?_
  split
  · exact (looks_done _).bind fun _ => looks_done _
  · exact looks_done _

theorem looks_expand (depth : Nat) (names : List String) : (expand depth names).Looks := by
  induction names generalizing depth with
  | nil =>
    rw [expand]
    exact looks_done _
  | cons name above ih =>
    cases depth with
    | zero =>
      rw [expand]
      exact looks_done _
    | succ depth =>
      unfold expand
      refine (looks_done _).bind fun _ => ?_
      split
      · exact (looks_lookAt _).bind fun _ => looks_done _
      · dsimp only
        split_ifs
        · exact looks_matching _ name
        · refine (ih depth).bind fun directories => ?_
          exact (looks_mapM (looks_matching · name) directories).bind fun _ => looks_done _

theorem looks_files (pattern : String) : (files pattern).Looks := by
  unfold files
  split
  · exact looks_done _
  · exact looks_expand _ _

/-- A batch is a run over the files that fit its pattern, if there are any. -/
theorem run_eq_runFiles {s : Session} {pattern : String} {inputs : List String} {w : World}
    (hmatch : ((files pattern).run w).1 = .ok inputs) (hne : inputs ≠ []) :
    (run s pattern).run w = (runFiles s inputs).run w := by
  have hfiles : (files pattern).run w = (.ok inputs, w) :=
    Prod.ext hmatch (looks_files pattern w)
  rw [run, run_bind, hfiles]
  dsimp only
  rw [if_neg (by simpa using hne)]

end Matching

/-- What a batch does to the files: the report on one image after the other is written to its own
path, each as the files are by then. -/
inductive Written : Session → List String → FileSystem → FileSystem → Prop
  | nil {s : Session} {fs : FileSystem} : Written s [] fs fs
  | cons {s : Session} {input : String} {rest : List String} {fs next last : FileSystem}
      {r : Report} :
      (∀ w : World, w.files = fs → ((s.report input).run w).1 = .ok r) →
      (s.reportDocument r).failure = none →
      fs.write (outputName input (extension s.format)) (encode (s.reportDocument r).text) =
        .ok next →
      Written (s.past 1) rest next last → Written s (input :: rest) fs last

variable {s : Session} {input : String} {w next : World}

theorem written_of_processFile (houtput : s.output ≠ "") {patience : Patience}
    (hrun : (processFile s input).run w = (.ok (.ok (), patience), next)) :
    ∃ r, ((s.report input).run w).1 = .ok r ∧ (s.reportDocument r).failure = none ∧
      w.files.write s.output (encode (s.reportDocument r).text) = .ok next.files := by
  rw [processFile, run_bind_eq_ok] at hrun
  obtain ⟨outcome, middle, hreport, hrun⟩ := hrun
  rw [run_attempt_eq_ok] at hreport
  cases outcome with
  | error e => cases hrun
  | ok r =>
    rw [run_bind_eq_ok] at hrun
    obtain ⟨delivered, last, hdeliver, hrun⟩ := hrun
    cases hrun
    rw [run_attempt_eq_ok, Session.run_deliver_eq_ok houtput] at hdeliver
    obtain ⟨hfailure, files, hwrite, rfl⟩ := hdeliver
    have hmiddle : middle.files = w.files := (s.reads_report input).files_eq hreport
    refine ⟨r, congrArg Prod.fst hreport, hfailure, ?_⟩
    rw [← hmiddle, hwrite]

theorem processFile_of_report {r : Report} (houtput : s.output ≠ "")
    (hreport : ((s.report input).run w).1 = .ok r) (hfailure : (s.reportDocument r).failure = none)
    {files : FileSystem}
    (hwrite : w.files.write s.output (encode (s.reportDocument r).text) = .ok files) :
    ∃ next, (processFile s input).run w = (.ok (.ok (), s.patience.after r.all.length), next) ∧
      next.files = files := by
  have hfiles := (s.reads_report input w).2
  refine ⟨{ ((s.report input).run w).2 with files }, ?_, rfl⟩
  rw [processFile, run_bind_eq_ok]
  refine ⟨.ok r, ((s.report input).run w).2, run_attempt_eq_ok.2 (Prod.ext hreport rfl), ?_⟩
  rw [run_bind_eq_ok]
  refine ⟨.ok (), _, run_attempt_eq_ok.2 ((Session.run_deliver_eq_ok houtput).2
    ⟨hfailure, files, ?_, rfl⟩), rfl⟩
  rw [hfiles, hwrite]

/-- A batch that counts no failures has written every report. -/
theorem written_of_processAll {inputs : List String} {failed count : Nat}
    (hrun : (processAll s inputs failed).run w = (.ok count, next)) :
    failed ≤ count ∧ (count = failed → Written s.unlimited inputs w.files next.files) := by
  -- The count never falls, so no image failed if it is at the end what it was at the beginning.
  induction inputs generalizing s failed w with
  | nil =>
    cases hrun
    exact ⟨le_rfl, fun _ => .nil⟩
  | cons input rest ih =>
    rw [processAll, run_bind_eq_ok] at hrun
    obtain ⟨⟨outcome, patience⟩, middle, hprocess, hrun⟩ := hrun
    cases outcome with
    | error e =>
      dsimp only at hrun
      split at hrun
      · cases hrun
      · obtain ⟨u, shown, -, hrun⟩ := run_bind_eq_ok.1 hrun
        obtain ⟨hle, -⟩ := ih hrun
        exact ⟨by omega, fun heq => by omega⟩
    | ok u =>
      dsimp only at hrun
      obtain ⟨_, shown, hsay, hrun⟩ := run_bind_eq_ok.1 hrun
      obtain ⟨hle, hwritten⟩ := ih hrun
      refine ⟨hle, fun heq => ?_⟩
      have houtput := outputName_ne_empty input s.format
      obtain ⟨r, hreport, hfailure, hwrite⟩ := written_of_processFile houtput hprocess
      have hshown : shown.files = middle.files := (Session.reads_say _ _).files_eq hsay
      refine .cons (fun v hv => ?_) hfailure hwrite (hshown ▸ hwritten heq)
      have hr := Session.report_of_limited hreport
      exact (Session.report_congr (by rw [hv])).trans hr

theorem written_of_runFiles {inputs : List String}
    (hrun : (runFiles s inputs).run w = (.ok (), next)) :
    Written s.unlimited inputs w.files next.files := by
  obtain ⟨failed, last, hall, hrun⟩ := run_bind_eq_ok.1 hrun
  by_cases hfailed : failed = 0
  · rw [if_neg (not_not_intro hfailed)] at hrun
    cases hrun
    exact (written_of_processAll hall).2 hfailed
  · rw [if_pos hfailed] at hrun
    cases hrun

theorem processAll_of_written {inputs : List String} {failed : Nat} {fs last : FileSystem}
    (hpatience : s.patience = {}) (h : Written s.unlimited inputs fs last) (hfs : w.files = fs) :
    ∃ next, (processAll s inputs failed).run w = (.ok failed, next) ∧ next.files = last := by
  induction inputs generalizing s w fs with
  | nil =>
    cases h
    exact ⟨w, rfl, hfs⟩
  | cons input rest ih =>
    obtain _ | @⟨_, _, _, _, after, _, r, hreport, hfailure, hwrite, hrest⟩ := h
    subst hfs
    have houtput := outputName_ne_empty input s.format
    have hown : ({ s with output := outputName input (extension s.format) } : Session).patience =
      {} := hpatience
    have hmade := (Session.report_unlimited hown input w).symm.trans (hreport w rfl)
    obtain ⟨middle, hprocess, rfl⟩ := processFile_of_report houtput hmade hfailure hwrite
    obtain ⟨hsaid, hshown⟩ := Session.reads_say _ _ middle
    have hleft : s.patience.after r.all.length = {} := by
      rw [hpatience]
      rfl
    obtain ⟨next, hall, rfl⟩ := ih (s := { s.past 1 with
      output := outputName input (extension s.format)
      patience := s.patience.after r.all.length }) hleft hrest hshown
    refine ⟨next, ?_, rfl⟩
    rw [processAll, run_bind_eq_ok]
    refine ⟨_, middle, hprocess, ?_⟩
    exact run_bind_eq_ok.2 ⟨(), _, Prod.ext hsaid rfl, hall⟩

theorem runFiles_of_written {inputs : List String} {last : FileSystem} (hpatience : s.patience = {})
    (h : Written s.unlimited inputs w.files last) :
    ∃ next, (runFiles s inputs).run w = (.ok (), next) ∧ next.files = last := by
  obtain ⟨next, hall, hlast⟩ := processAll_of_written hpatience h rfl
  exact ⟨next, run_bind_eq_ok.2 ⟨0, next, hall, rfl⟩, hlast⟩

end CartFlow.Batch
