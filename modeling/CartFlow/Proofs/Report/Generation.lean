import CartFlow.Proofs.Report.Covered

/-!
# The lists of a report

Each examined address is in the list of its verdict, so the four lists together have the reports on
the examined addresses. Only the list of the handlers that are not fine is sorted; the sort is
stable, so handlers with as many calls stay in the order in which they were examined. Which
addresses are examined depends on the members of the list of handlers only, and what is reported on
one depends on nothing else, so the lists are the same up to order however the handlers are given.
-/
namespace CartFlow.Report

def withVerdict (r : Report) : Status → List Handler
  | .ok => r.ok
  | .ko => r.ko
  | .ignored => r.ignored
  | .failed => r.failed

section Lists

variable {r : Report} {hs : List Handler}

theorem withVerdict_add (r : Report) (h : Handler) (s : Status) :
    (r.add h).withVerdict s = r.withVerdict s ++ if h.status = s then [h] else [] := by
  unfold add
  cases hstatus : h.status <;> cases s <;> simp [withVerdict]

theorem withVerdict_foldl_add (hs : List Handler) (r : Report) (s : Status) :
    (hs.foldl add r).withVerdict s = r.withVerdict s ++ hs.filter (·.status = s) := by
  induction hs generalizing r with
  | nil => simp
  | cons h hs ih =>
    rw [List.foldl_cons, ih, withVerdict_add, List.append_assoc, List.filter_cons]
    split <;> simp_all

theorem count_filter_status (hs : List Handler) (g : Handler) (s : Status) :
    (hs.filter (·.status = s)).count g = if g.status = s then hs.count g else 0 := by
  split
  · next hs' => exact List.count_filter (by simpa using hs')
  · next hs' =>
    apply List.count_eq_zero_of_not_mem
    intro hmem
    exact hs' (by simpa using (List.mem_filter.1 hmem).2)

theorem perm_all (h : ∀ s, (r.withVerdict s).Perm (hs.filter (·.status = s))) :
    r.all.Perm hs := by
  rw [List.perm_iff_count]
  intro g
  have hcount : ∀ s, (r.withVerdict s).count g = if g.status = s then hs.count g else 0 := by
    intro s
    rw [(h s).count_eq, count_filter_status]
  change (r.withVerdict .ok ++ r.withVerdict .ko ++ r.withVerdict .ignored ++
    r.withVerdict .failed).count g = hs.count g
  simp only [List.count_append, hcount]
  cases g.status <;> simp

theorem calls_trans (f g h : Handler) (hfg : decide (f.calls ≤ g.calls) = true)
    (hgh : decide (g.calls ≤ h.calls) = true) : decide (f.calls ≤ h.calls) = true := by
  simp only [decide_eq_true_eq] at *
  omega

theorem calls_total (g h : Handler) :
    (decide (g.calls ≤ h.calls) || decide (h.calls ≤ g.calls)) = true := by
  simp only [Bool.or_eq_true, decide_eq_true_eq]
  omega

theorem filter_mergeSort (hs : List Handler) (n : Nat) :
    (hs.mergeSort fun g h => g.calls ≤ h.calls).filter (·.calls = n) =
      hs.filter (·.calls = n) := by
  have hequal : (hs.filter (·.calls = n)).Pairwise
      fun g h => decide (g.calls ≤ h.calls) = true := by
    rw [List.pairwise_iff_forall_sublist]
    intro g h hpair
    have hmem : ∀ f ∈ [g, h], f.calls = n := by
      intro f hf
      simpa using (List.mem_filter.1 (hpair.subset hf)).2
    simp [hmem g (by simp), hmem h (by simp)]
  have hsub := List.sublist_mergeSort calls_trans calls_total hequal List.filter_sublist
  have hfilter := hsub.filter (·.calls = n)
  rw [List.filter_filter] at hfilter
  simp only [Bool.and_self] at hfilter
  -- a sublist of the same length
  apply (hfilter.eq_of_length _).symm
  exact ((List.mergeSort_perm hs _).filter _).length_eq.symm

theorem pairwise_mergeSort (hs : List Handler) :
    (hs.mergeSort fun g h => g.calls ≤ h.calls).Pairwise fun g h =>
      g.calls < h.calls ∨ g.calls = h.calls ∧ [g, h].Sublist hs := by
  have hsorted := List.pairwise_mergeSort calls_trans calls_total hs
  rw [List.pairwise_iff_forall_sublist] at hsorted ⊢
  intro g h hsub
  have hle : g.calls ≤ h.calls := by simpa using hsorted hsub
  rcases Nat.lt_or_eq_of_le hle with hlt | heq
  · exact .inl hlt
  · have hfilter := hsub.filter (·.calls = h.calls)
    rw [filter_mergeSort, List.filter_eq_self.2 (by simp [heq])] at hfilter
    exact .inr ⟨heq, hfilter.trans List.filter_sublist⟩

end Lists

/-- A report has the covered addresses, each once, in the list of its verdict and with what is
reported on it for itself. The handlers that are not fine are in the order of their calls and
those with as many calls, like the handlers in the other lists, in the order of the
examinations. -/
structure Covers (a : Examiner) (handlers ignore order : List Address) (r : Report) : Prop where
  nodup : (r.all.map (·.address)).Nodup
  mem_iff : ∀ address, address ∈ r.all.map (·.address) ↔ Covered a handlers ignore address
  mem_withVerdict : ∀ s h, h ∈ r.withVerdict s ↔
    Covered a handlers ignore h.address ∧ h = handlerOn a ignore h.address ∧ h.status = s
  pairwise_ko : r.ko.Pairwise fun g h =>
    g.calls < h.calls ∨ g.calls = h.calls ∧ [g.address, h.address].Sublist order
  filter_eq : ∀ s, s ≠ .ko →
    r.withVerdict s = (order.map (handlerOn a ignore)).filter (·.status = s)

section Covering

variable {a : Examiner} {handlers ignore order : List Address}

theorem map_address_handlerOn (h : a.Reliable) (ignore order : List Address) :
    (order.map (handlerOn a ignore)).map (·.address) = order := by
  simp [address_handlerOn h, Function.comp_def]

theorem withVerdict_collect (a : Examiner) (ignore order : List Address) (s : Status) :
    (collect a ignore order).withVerdict s =
      (order.map (handlerOn a ignore)).filter (·.status = s) := by
  rw [collect, withVerdict_foldl_add]
  cases s <;> rfl

theorem withVerdict_finish {s : Status} (hs : s ≠ .ko) (r : Report) :
    r.finish.withVerdict s = r.withVerdict s := by
  cases s with
  | ko => exact absurd rfl hs
  | _ => rfl

theorem perm_withVerdict_finish (r : Report) (s : Status) :
    (r.finish.withVerdict s).Perm (r.withVerdict s) := by
  cases s with
  | ko => exact List.mergeSort_perm _ _
  | _ => rfl

theorem perm_withVerdict (a : Examiner) (ignore order : List Address) (s : Status) :
    ((collect a ignore order).finish.withVerdict s).Perm
      ((order.map (handlerOn a ignore)).filter (·.status = s)) := by
  rw [← withVerdict_collect]
  exact perm_withVerdict_finish _ s

/-- The report at the end of the examinations covers what it has to. -/
theorem covers_collect (h : a.Reliable) (hq : Queue.Sound a handlers ignore ⟨[], order⟩) :
    (collect a ignore order).finish.Covers a handlers ignore order := by
  have hall := perm_all (perm_withVerdict a ignore order)
  have haddresses := hall.map (·.address)
  rw [map_address_handlerOn h] at haddresses
  refine
    { nodup := haddresses.nodup_iff.2 (by simpa [Queue.members] using hq.nodup)
      mem_iff := ?_
      mem_withVerdict := ?_
      pairwise_ko := ?_
      filter_eq := ?_ }
  · intro address
    rw [haddresses.mem_iff]
    exact hq.mem_iff address
  · intro s g
    rw [(perm_withVerdict a ignore order s).mem_iff, List.mem_filter, List.mem_map,
      ← hq.mem_iff, ← and_assoc, decide_eq_true_eq]
    apply and_congr_left
    intro _
    constructor
    · rintro ⟨address, hmem, rfl⟩
      rw [address_handlerOn h]
      exact ⟨hmem, rfl⟩
    · rintro ⟨hmem, hg⟩
      exact ⟨g.address, hmem, hg.symm⟩
  · apply (pairwise_mergeSort _).imp
    intro g g' hpair
    apply hpair.imp_right
    rintro ⟨hcalls, hsub⟩
    refine ⟨hcalls, ?_⟩
    have hko : (collect a ignore order).ko = _ := withVerdict_collect a ignore order .ko
    rw [hko] at hsub
    have hmap := (hsub.trans List.filter_sublist).map (·.address)
    rwa [map_address_handlerOn h] at hmap
  · intro s hs
    rw [withVerdict_finish hs, withVerdict_collect]

/-- A report is made by a run to its end, unless it is cancelled. -/
theorem generate_runs (h : a.Reliable) (handlers ignore : List Address) (patience : Patience) :
    (∃ e, (generate a handlers ignore patience).outcome = .error e ∧ e.cause = .cancelled ∧
        patience.remaining ≠ none) ∨
      ∃ order, Relation.ReflTransGen (Queue.Turn a ignore) ⟨distinct handlers, []⟩ ⟨[], order⟩ ∧
        (generate a handlers ignore patience).outcome = .ok (collect a ignore order).finish := by
  apply examineAll_runs h
  · intro b
    simp [Queue.members]
  · rfl

theorem exists_generate (h : a.Reliable) (handlers ignore : List Address) :
    ∃ order, Queue.Sound a handlers ignore ⟨[], order⟩ ∧
      (generate a handlers ignore {}).outcome = .ok (collect a ignore order).finish := by
  rcases generate_runs h handlers ignore {} with ⟨-, -, -, hlimited⟩ | ⟨order, hrun, hok⟩
  · exact absurd rfl hlimited
  · exact ⟨order, (Queue.Sound.start a handlers ignore).run hrun, hok⟩

/-- A covered address is reported in the same way if it is the only handler. -/
theorem exists_generate_alone (h : a.Reliable) {g : Handler}
    (hg : g = handlerOn a ignore g.address) :
    ∃ alone, (generate a [g.address] ignore {}).outcome = .ok alone ∧
      g ∈ alone.withVerdict g.status := by
  obtain ⟨order, hq, hok⟩ := exists_generate h [g.address] ignore
  refine ⟨_, hok, ?_⟩
  have hmem : g.address ∈ order := (hq.mem_iff _).2 (.handler List.mem_cons_self)
  rw [(perm_withVerdict a ignore order g.status).mem_iff, List.mem_filter]
  exact ⟨hg ▸ List.mem_map_of_mem hmem, by simp⟩

/-- Other lists of the same handlers lead to the same lists up to order. -/
theorem exists_generate_perm (h : a.Reliable) (hq : Queue.Sound a handlers ignore ⟨[], order⟩)
    {others : List Address} (hothers : ∀ x, x ∈ others ↔ x ∈ handlers) :
    ∃ other, (generate a others ignore {}).outcome = .ok other ∧
      ∀ s, (other.withVerdict s).Perm ((collect a ignore order).finish.withVerdict s) := by
  obtain ⟨order', hq', hok⟩ := exists_generate h others ignore
  refine ⟨_, hok, ?_⟩
  have horder : order'.Perm order := by
    rw [List.perm_ext_iff_of_nodup (by simpa [Queue.members] using hq'.nodup)
      (by simpa [Queue.members] using hq.nodup)]
    intro x
    rw [hq'.mem_iff, hq.mem_iff]
    exact ⟨.mono fun y => (hothers y).1, .mono fun y => (hothers y).2⟩
  intro s
  have hsame := (horder.map (handlerOn a ignore)).filter (·.status = s)
  exact (perm_withVerdict a ignore order' s).trans
    (hsame.trans (perm_withVerdict a ignore order s).symm)

end Covering

/-- Report generation comes to an end. Unless it is cancelled, the report has exactly the covered
addresses, each once and with what is reported on it if it is the only handler; the order of the
handlers and their repetitions matter for the order of the four lists only. -/
theorem generate_covers {a : Examiner} (h : a.Reliable) (handlers ignore : List Address)
    (patience : Patience) :
    (WellFounded fun t q => Queue.Turn a ignore q t) ∧
      ((∃ e, (generate a handlers ignore patience).outcome = .error e ∧ e.cause = .cancelled ∧
          patience.remaining ≠ none) ∨
        ∃ order report, (generate a handlers ignore patience).outcome = .ok report ∧
          Relation.ReflTransGen (Queue.Turn a ignore) ⟨distinct handlers, []⟩ ⟨[], order⟩ ∧
          report.Covers a handlers ignore order ∧
          (∀ s, ∀ g ∈ report.withVerdict s, ∃ alone,
            (generate a [g.address] ignore {}).outcome = .ok alone ∧ g ∈ alone.withVerdict s) ∧
          ∀ others, (∀ x, x ∈ others ↔ x ∈ handlers) →
            ∃ other, (generate a others ignore {}).outcome = .ok other ∧
              ∀ s, (other.withVerdict s).Perm (report.withVerdict s)) := by
  refine ⟨Queue.wellFounded_turn a ignore, ?_⟩
  rcases generate_runs h handlers ignore patience with hcancelled | ⟨order, hrun, hok⟩
  · exact .inl hcancelled
  · have hq := (Queue.Sound.start a handlers ignore).run hrun
    have hcovers := covers_collect h hq
    refine .inr ⟨order, _, hok, hrun, hcovers, ?_, ?_⟩
    · intro s g hg
      obtain ⟨-, halone, rfl⟩ := (hcovers.mem_withVerdict s g).1 hg
      exact exists_generate_alone h halone
    · intro others hothers
      exact exists_generate_perm h hq hothers

namespace Promotion

/-! One of two routines that call each other is a handler, and the other one calls the tracked
routine. Of two more handlers one is ignored, and the other one cannot be read. -/

open CallGraph CallGraph.Recursive

def examiner : Examiner where
  source _ := source
  track := 0xC08000

theorem reliable : examiner.Reliable where
  faithful _ := faithful_source
  uncancelled := by
    intro _ address p
    change Uncancelled (if address = 0xC00000 then _ else _)
    split
    · exact .ok _
    · split
      · exact .ok _
      · exact .of_fail (by simp)

theorem exists_callGraph :
    ∃ g reads, (build source 0xC08000 0xC00000).outcome = .ok g ∧
      IsClosure source 0xC08000 0xC00000 g reads := by
  rcases build_runs faithful_source 0xC08000 0xC00000 with
    ⟨r, e, hwanted, hr, -⟩ | ⟨profile, g, reads, -, -, hbuild, hg⟩
  · obtain ⟨profile, hprofile⟩ := profileOf_of_wanted hwanted
    rw [hr] at hprofile
    cases hprofile
  · exact ⟨g, reads, congrArg Traced.outcome hbuild, hg⟩

/-- The handler has no branches, so nothing keeps it from being analysed. -/
theorem exists_analysis :
    ∃ analysis, ((examiner.analyzer 0xC00000).analyze 0xC00000).outcome = .ok analysis := by
  obtain ⟨g, reads, hbuild, hg⟩ := exists_callGraph
  have hentry : g.entryData? = some firstProfile := by
    rw [Graph.entryData?, hg.entry_eq]
    exact data?_first hg
  have hblocks := BlockGraph.ofRoutine_of_no_branch (r := first) (by decide)
  have htree := (BlockGraph.dominatorTree_of_ofRoutine hblocks 0).resolve_right
    fun hlimit => absurd hlimit.1 (by decide)
  obtain ⟨tree, htree⟩ := htree
  exact Analyzer.exists_analyze (a := examiner.analyzer 0xC00000) hbuild hentry hblocks htree

theorem covered_second : Covered examiner [0xC00000, 1, 0xC00000, 2] [1] 0xC00100 := by
  obtain ⟨analysis, hok⟩ := exists_analysis
  obtain ⟨-, hbuild, -⟩ := Analyzer.analyze_stages hok
  obtain ⟨reads, hg⟩ := exists_isClosure faithful_source hbuild
  obtain ⟨n, hn, hid, hsecond⟩ := hg.built.consistent.data?_eq_some.1 (data?_second hg)
  have hentry : analysis.callGraph.entry ≠ some n.id := by
    rw [hg.entry_eq, hid]
    intro heq
    exact absurd (idOf_inj.1 (Option.some.inj heq)) (by decide)
  have hcount : n.data.callCount 0xC08000 ≠ 0 := by
    rw [hsecond]
    decide
  have hhandler : Covered examiner [0xC00000, 1, 0xC00000, 2] [1] 0xC00000 := .handler (by simp)
  have hcovered := hhandler.caller (by decide) hok hn hentry hcount
  rwa [hsecond] at hcovered

theorem status_unreadable : (handlerOn examiner [1] 2).status = .failed := by
  have hfailed : ((examiner.analyzer 2).analyze 2).outcome =
      .error { cause := .routineNotProvided 2 } := by
    simp only [Analyzer.analyze, Traced.outcome_bind, build]
    rfl
  rw [handlerOn, if_neg (by decide), hfailed]
  rfl

end Promotion

open Promotion in
/-- The routine below the handler is reported beside it, and so are the ignored one and the one that
fails. -/
theorem generate_covers_promotion :
    examiner.Reliable ∧ ∃ order report,
      (generate examiner [0xC00000, 1, 0xC00000, 2] [1] {}).outcome = .ok report ∧
      report.Covers examiner [0xC00000, 1, 0xC00000, 2] [1] order ∧
      0xC00100 ∈ report.all.map (·.address) ∧
      { address := 1, status := .ignored } ∈ report.ignored ∧
      ∃ h ∈ report.failed, h.address = 2 := by
  rcases (generate_covers reliable [0xC00000, 1, 0xC00000, 2] [1] {}).2 with
    ⟨-, -, -, hlimited⟩ | ⟨order, report, hok, -, hcovers, -⟩
  · exact absurd rfl hlimited
  refine ⟨reliable, order, report, hok, hcovers, ?_, ?_, ?_⟩
  · exact (hcovers.mem_iff _).2 covered_second
  · exact (hcovers.mem_withVerdict .ignored _).2 ⟨.handler (by simp), rfl, rfl⟩
  · have haddress := address_handlerOn reliable [1] 2
    refine ⟨handlerOn examiner [1] 2, (hcovers.mem_withVerdict .failed _).2 ⟨?_, ?_, ?_⟩, haddress⟩
    · rw [haddress]
      exact .handler (by simp)
    · rw [haddress]
    · exact status_unreadable

end CartFlow.Report
