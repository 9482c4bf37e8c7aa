import CartFlow.Proofs.Computations
import CartFlow.Proofs.Graph.Distances
import CartFlow.Proofs.Report.Evaluation
import CartFlow.Proofs.Report.Generation

/-!
# How deep below a handler a routine is

The depth of a routine is its distance from the handler in the call graph. An edge is recorded for
the call by which a routine is found, and for no other, so the graph is a tree that hangs on the
handler: every step keeps that edges lead to all routines that were read. An edge is a call, hence
the depth is the length of a chain of calls, but another chain may be shorter. The depths are the
least lengths exactly if no call leads more than one level down, for example if no routine below
the handler is called by two others.
-/
namespace CartFlow

section Edges

variable {α : Type} {g h : Graph α} {source id : String} {data : α} {label : UInt8}
  {u v w : String} {p : List String}

theorem Graph.Way.mono (hsub : ∀ u v, g.Linked u v → h.Linked u v) (hp : g.Way u w p) :
    h.Way u w p := by
  induction hp with
  | here u => exact .here u
  | step hlink _ ih => exact .step (hsub _ _ hlink) ih

theorem Graph.Grows.linked_iff (hgrows : g.Grows h source id data label) (hg : g.Built)
    (hnew : g.contains id = false) : h.Linked u v ↔ u = source ∧ v = id ∨ g.Linked u v := by
  rw [← hgrows.built.consistent.mem_predecessorIds, ← hg.consistent.mem_predecessorIds,
    predecessorIds, predecessorIds, hgrows.predecessors_eq]
  split
  · next hv =>
    have hfree : g.predecessors id = [] := by
      rw [List.eq_nil_iff_forall_not_mem]
      intro e he
      have hlink := hg.consistent.mem_predecessorIds.1 (List.mem_map_of_mem he)
      rw [(hg.consistent.contains_of_linked hlink).2] at hnew
      cases hnew
    simp [hv, hfree]
  · next hv => simp [hv]

end Edges

namespace CallGraph

/-- A chain of `n` calls leads from one routine to another around the tracked one. -/
inductive Chain (g : CallGraph) (track a : Address) : Nat → Address → Prop
  | here : Chain g track a 0 a
  | call {n : Nat} {b c : Address} :
      Chain g track a n b → g.Calls track b c → Chain g track a (n + 1) c

/-- The level of a routine is its distance from the handler. -/
def Level (g : CallGraph) (handler a : Address) (n : Nat) : Prop :=
  g.distance (idOf handler) (idOf a) = .ok (some n)

/-- No call leads more than one level down. -/
def Stepwise (g : CallGraph) (track handler : Address) : Prop :=
  ∀ a b m n, g.Calls track a b → g.Level handler a m → g.Level handler b n → n ≤ m + 1

/-- Edges lead from the handler to every routine that was read. -/
def Progress.Spanned (handler : Address) (s : Progress) : Prop :=
  ∀ r ∈ s.reads, ∃ p, s.graph.Way (idOf handler) (idOf r.address) p

section Spanning

variable {source : RoutineSource} {track handler : Address} {s t : Progress}

theorem Progress.spanned_start (handler : Address) (profile : Profile) :
    (start handler profile).Spanned handler := by
  intro r hr
  rw [List.mem_singleton.1 hr]
  exact ⟨_, .here _⟩

theorem Progress.contains_start (handler : Address) (profile : Profile) (id : String) :
    (start handler profile).graph.contains id = (idOf handler == id) := by
  change (Graph.empty.insert (idOf handler) profile : CallGraph).contains id = _
  rw [Graph.contains_insert]
  simp [Graph.contains, Graph.empty]

theorem Progress.not_linked_start (handler : Address) (profile : Profile) (u v : String) :
    ¬ (start handler profile).graph.Linked u v := by
  rintro ⟨e, he, -⟩
  simp [start, Graph.insert, Graph.contains, Graph.empty] at he

/-- A routine that is read is entered from the routine that calls it, to which edges lead. -/
theorem Progress.Spanned.advances (hspan : s.Spanned handler) (hs : s.Sound source track handler)
    (h : Advances source track s t) : t.Spanned handler := by
  cases h with
  | drop _ => exact hspan
  | @read g next call rest reads profile htrack hnew hprofile hadd =>
    have hgrows := Graph.grows_of_addEdge hs.built hnew hadd
    have hkept : ∀ u v, g.Linked u v → next.Linked u v := fun u v hlink =>
      (hgrows.linked_iff hs.built hnew).2 (.inr hlink)
    intro r hr
    rcases List.mem_append.1 hr with hr | hr
    · rcases hspan r hr with ⟨p, hp⟩
      exact ⟨p, hp.mono hkept⟩
    · rw [List.mem_singleton.1 hr]
      rcases hs.stacked call List.mem_cons_self with ⟨known, hknown, -⟩
      rcases hs.exists_read hknown with ⟨caller, hcaller, haddress, -⟩
      rcases hspan caller hcaller with ⟨p, hp⟩
      rw [haddress] at hp
      exact ⟨_, (hp.mono hkept).snoc ((hgrows.linked_iff hs.built hnew).2 (.inl ⟨rfl, rfl⟩))⟩

theorem Progress.Spanned.run (hsource : source.Faithful) (hspan : s.Spanned handler)
    (hs : s.Sound source track handler)
    (h : Relation.ReflTransGen (Advances source track) s t) : t.Spanned handler := by
  induction h with
  | refl => exact hspan
  | tail hrun hstep ih => exact ih.advances (hs.run hsource hrun) hstep

theorem exists_spanned {g : CallGraph} (hsource : source.Faithful)
    (hok : (build source track handler).outcome = .ok g) :
    ∃ reads, IsClosure source track handler g reads ∧
      ∀ r ∈ reads, ∃ p, g.Way (idOf handler) (idOf r.address) p := by
  rcases build_runs hsource track handler with
    ⟨r, e, -, -, hfailed⟩ | ⟨profile, _, reads, hprofile, hrun, hbuild, hclosure⟩
  · rw [hfailed] at hok
    cases hok
  · rw [hbuild] at hok
    cases hok
    have hstart : (Progress.start handler profile).Sound source track handler :=
      Progress.sound_start hsource hprofile
    exact ⟨reads, hclosure, (Progress.spanned_start handler profile).run hsource hstart hrun⟩

end Spanning

section Levels

variable {source : RoutineSource} {track handler a b : Address} {g : CallGraph}
  {reads : List CalledRoutine} {m n : Nat}

theorem Chain.leads (h : g.Chain track handler n a) : g.Leads track handler a := by
  induction h with
  | here => exact .refl
  | call _ hcalls ih => exact ih.tail hcalls

theorem IsClosure.ne_track (hg : IsClosure source track handler g reads)
    (ha : g.contains (idOf a) = true) (hne : a ≠ handler) : a ≠ track := by
  rcases ((hg.contains_iff a).1 ha).cases_tail with heq | ⟨_, -, htrack, -⟩
  · exact absurd heq hne
  · exact htrack

theorem IsClosure.leads_of_calls (hg : IsClosure source track handler g reads)
    (hcalls : g.Calls track a b) : g.Leads track handler a := by
  rcases hcalls with ⟨-, profile, hprofile, -⟩
  exact (hg.contains_iff a).1 (hg.built.consistent.contains_of_data? hprofile)

/-- To a routine other than the handler one edge leads, which is a call. -/
theorem IsClosure.exists_caller (hg : IsClosure source track handler g reads)
    (hb : g.contains (idOf b) = true) (hne : b ≠ handler) :
    ∃ a, g.Calls track a b ∧ ∀ u, g.Linked u (idOf b) ↔ u = idOf a := by
  rcases hg.exists_read ((hg.contains_iff b).1 hb) with ⟨r, hr, rfl⟩
  rcases hg.predecessors_eq r hr hne with
    ⟨caller, -, profile, hprofile, ⟨call, hcall, rfl⟩, -, hedge⟩
  refine ⟨caller.address, ⟨hg.ne_track hb hne, profile, hprofile, call, hcall, rfl⟩, fun u => ?_⟩
  rw [← hg.built.consistent.mem_predecessorIds, Graph.predecessorIds, hedge]
  simp

theorem IsClosure.not_linked_handler (hg : IsClosure source track handler g reads) (u : String) :
    ¬ g.Linked u (idOf handler) := by
  rw [← hg.built.consistent.mem_predecessorIds, Graph.predecessorIds, hg.predecessors_handler]
  exact List.not_mem_nil

/-- Along edges from the handler there are calls. -/
theorem IsClosure.exists_chain (hg : IsClosure source track handler g reads) {v : String}
    (h : g.WayOf n (idOf handler) v) : ∃ a, v = idOf a ∧ g.Chain track handler n a := by
  induction n generalizing v with
  | zero => exact ⟨handler, (Graph.wayOf_zero.1 h).symm, .here⟩
  | succ n ih =>
    rcases h with ⟨p, hp, hlen⟩
    rcases hp.eq_or_snoc with ⟨-, rfl⟩ | ⟨u, q, hq, hlink, rfl⟩
    · simp at hlen
    · rcases ih ⟨q, hq, by simpa using hlen⟩ with ⟨b, rfl, hchain⟩
      have hv := (hg.built.consistent.contains_of_linked hlink).2
      rw [← hg.built.consistent.mem_ids, hg.ids_eq] at hv
      rcases List.mem_map.1 hv with ⟨r, -, rfl⟩
      have hne : r.address ≠ handler := by
        intro heq
        rw [heq] at hlink
        exact hg.not_linked_handler _ hlink
      rcases hg.exists_caller (hg.built.consistent.contains_of_linked hlink).2 hne with
        ⟨a, hcalls, honly⟩
      rw [idOf_inj.1 ((honly _).1 hlink)] at hchain
      exact ⟨r.address, rfl, hchain.call hcalls⟩

theorem IsClosure.level_iff (hg : IsClosure source track handler g reads)
    (ha : g.Leads track handler a) :
    g.Level handler a n ↔ g.WayOf n (idOf handler) (idOf a) ∧
      ∀ i < n, ¬ g.WayOf i (idOf handler) (idOf a) :=
  hg.built.consistent.distance_eq_iff ((hg.contains_iff handler).2 .refl)
    ((hg.contains_iff a).2 ha) n

theorem IsClosure.chain_of_level (hg : IsClosure source track handler g reads)
    (ha : g.Leads track handler a) (hlevel : g.Level handler a n) :
    g.Chain track handler n a := by
  rcases hg.exists_chain ((hg.level_iff ha).1 hlevel).1 with ⟨b, hb, hchain⟩
  rwa [idOf_inj.1 hb]

theorem IsClosure.exists_level (hg : IsClosure source track handler g reads)
    (hspan : ∀ r ∈ reads, ∃ p, g.Way (idOf handler) (idOf r.address) p)
    (ha : g.Leads track handler a) : ∃ n, g.Level handler a n := by
  rcases hg.exists_read ha with ⟨r, hr, rfl⟩
  rcases hspan r hr with ⟨p, hp⟩
  rcases hp.exists_eq_cons with ⟨q, rfl⟩
  have hway : g.WayOf q.length (idOf handler) (idOf r.address) := ⟨_, hp, rfl⟩
  rcases Graph.exists_firstNear (fun k u => g.WayOf k u (idOf r.address)) hway with ⟨n, -, hn⟩
  exact ⟨n, (hg.level_iff ha).2 hn⟩

theorem IsClosure.level_handler (hg : IsClosure source track handler g reads) :
    g.Level handler handler n ↔ n = 0 := by
  rw [hg.level_iff .refl]
  constructor
  · rintro ⟨-, hleast⟩
    by_contra hpos
    exact hleast 0 (Nat.pos_of_ne_zero hpos) (Graph.wayOf_zero.2 rfl)
  · rintro rfl
    exact ⟨Graph.wayOf_zero.2 rfl, fun i hi => absurd hi (Nat.not_lt_zero i)⟩

theorem IsClosure.level_le_of_linked (hg : IsClosure source track handler g reads)
    (ha : g.Leads track handler a) (hb : g.Leads track handler b)
    (hlink : g.Linked (idOf a) (idOf b)) (hm : g.Level handler a m) (hn : g.Level handler b n) :
    n ≤ m + 1 := by
  rcases ((hg.level_iff ha).1 hm).1 with ⟨p, hp, hlen⟩
  have hway : g.WayOf (m + 1) (idOf handler) (idOf b) := ⟨_, hp.snoc hlink, by simp [hlen]⟩
  by_contra hlt
  exact ((hg.level_iff hb).1 hn).2 (m + 1) (by omega) hway

/-- The edge to a routine other than the handler comes from another routine. -/
theorem IsClosure.exists_other_caller (hg : IsClosure source track handler g reads)
    (hb : g.Leads track handler b) (hne : b ≠ handler) (hlevel : g.Level handler b n) :
    ∃ a, a ≠ b ∧ g.Calls track a b ∧ g.Linked (idOf a) (idOf b) := by
  rcases hg.exists_caller ((hg.contains_iff b).2 hb) hne with ⟨a, hcalls, honly⟩
  refine ⟨a, ?_, hcalls, (honly _).2 rfl⟩
  rintro rfl
  -- a least way to the routine would come from the routine itself
  rcases (hg.level_iff hb).1 hlevel with ⟨⟨p, hp, hlen⟩, hleast⟩
  rcases hp.eq_or_snoc with ⟨heq, -⟩ | ⟨u, q, hq, hlink, rfl⟩
  · exact hne (idOf_inj.1 heq).symm
  · rw [(honly u).1 hlink] at hq
    rcases hq.exists_eq_cons with ⟨q, rfl⟩
    simp only [List.cons_append, List.length_cons, List.length_append, List.length_nil] at hlen
    exact hleast q.length (by omega) ⟨_, hq, rfl⟩

/-- If no call leads more than one level down, a chain of calls is as long as the level it leads
to, or longer. -/
theorem Stepwise.level_le (hstep : g.Stepwise track handler)
    (hg : IsClosure source track handler g reads)
    (hspan : ∀ r ∈ reads, ∃ p, g.Way (idOf handler) (idOf r.address) p)
    (hchain : g.Chain track handler m a) (hlevel : g.Level handler a n) : n ≤ m := by
  induction hchain generalizing n with
  | here => rw [hg.level_handler.1 hlevel]
  | call hchain hcalls ih =>
    rcases hg.exists_level hspan hchain.leads with ⟨k, hk⟩
    exact (hstep _ _ _ _ hcalls hk hlevel).trans (Nat.succ_le_succ (ih hk))

/-- Levels are the least lengths of chains exactly if no call leads more than one level down. -/
theorem IsClosure.least_iff_stepwise (hg : IsClosure source track handler g reads)
    (hspan : ∀ r ∈ reads, ∃ p, g.Way (idOf handler) (idOf r.address) p) :
    (∀ a m n, g.Chain track handler m a → g.Level handler a n → n ≤ m) ↔
      g.Stepwise track handler := by
  constructor
  · intro hleast a b m n hcalls hm hn
    have hchain := hg.chain_of_level (hg.leads_of_calls hcalls) hm
    exact hleast b (m + 1) n (hchain.call hcalls) hn
  · intro hstep a m n hchain hlevel
    exact hstep.level_le hg hspan hchain hlevel

/-- No call leads more than one level down if no routine below the handler is called by two
others. -/
theorem IsClosure.stepwise_of_one_caller (hg : IsClosure source track handler g reads)
    (hone : ∀ a b c, c ≠ handler → a ≠ c → b ≠ c → g.Calls track a c → g.Calls track b c → a = b) :
    g.Stepwise track handler := by
  intro a b m n hcalls hm hn
  have ha := hg.leads_of_calls hcalls
  have hb : g.Leads track handler b := ha.tail hcalls
  by_cases hhandler : b = handler
  · rw [hhandler] at hn
    rw [hg.level_handler.1 hn]
    exact Nat.zero_le _
  by_cases hself : a = b
  · rw [hself] at hm
    have hsame : m = n := Option.some.inj (Except.ok.inj (hm.symm.trans hn))
    omega
  · rcases hg.exists_other_caller hb hhandler hn with ⟨c, hother, hcaller, hlink⟩
    rw [hone c a b hhandler hother hself hcaller hcalls] at hlink
    exact hg.level_le_of_linked ha hb hlink hm hn

theorem IsClosure.id_of_node (hg : IsClosure source track handler g reads) {n : Node Profile}
    (hn : n ∈ g.nodes) : n.id = idOf n.data.routine.address := by
  have hid : n.id ∈ g.ids := List.mem_map_of_mem (Array.mem_toList_iff.2 hn)
  rw [hg.ids_eq] at hid
  rcases List.mem_map.1 hid with ⟨r, hr, hsame⟩
  rcases hg.read_eq r hr with ⟨profile, -, haddress, hdata⟩
  have hown := hg.built.consistent.data?_eq_some.2 ⟨n, hn, rfl, rfl⟩
  rw [← hsame, hdata] at hown
  rw [← Option.some.inj hown, haddress, hsame]

/-- The routines in a report are those of the graph, the handler apart, that call the tracked
routine. -/
theorem IsClosure.mem_subroutines_iff (hg : IsClosure source track handler g reads)
    {found : List CallingRoutine} (hok : Handler.subroutinesOf g track = .ok found)
    (s : CallingRoutine) :
    s ∈ found ↔ s.address ≠ handler ∧ ∃ profile, g.data? (idOf s.address) = some profile ∧
      profile.callCount track ≠ 0 ∧ s.count = profile.callCount track ∧
      g.distance (idOf handler) (idOf s.address) = .ok s.depth := by
  rw [mem_of_mapM hok]
  simp only [Handler.callers, List.mem_filter, Array.mem_toList_iff, hg.entry_eq, Option.getD_some,
    Bool.and_eq_true, bne_iff_ne, ne_eq, Option.some.injEq]
  constructor
  · rintro ⟨n, ⟨hn, hne, hcount⟩, hs⟩
    rcases bind_eq_ok.1 hs with ⟨depth, hdepth, hs⟩
    cases hs
    have hid := hg.id_of_node hn
    rw [hid] at hne hdepth
    refine ⟨fun heq => hne (congrArg idOf heq.symm), n.data, ?_, hcount, rfl, hdepth⟩
    exact hg.built.consistent.data?_eq_some.2 ⟨n, hn, hid, rfl⟩
  · rintro ⟨hne, profile, hprofile, hcount, hs, hdepth⟩
    rcases hg.built.consistent.data?_eq_some.1 hprofile with ⟨n, hn, hid, rfl⟩
    have haddress : n.data.routine.address = s.address :=
      idOf_inj.1 ((hg.id_of_node hn).symm.trans hid)
    refine ⟨n, ⟨hn, ?_, hcount⟩, bind_eq_ok.2 ⟨s.depth, ?_, ?_⟩⟩
    · rw [hid, idOf_inj]
      exact Ne.symm hne
    · rw [hid]
      exact hdepth
    · rw [haddress, ← hs]
      rfl

end Levels

namespace Recursive

/-- Of two routines that call each other, the second one is called by the first one and itself. -/
theorem eq_first_of_calls {g : CallGraph} {reads : List CalledRoutine}
    (hg : IsClosure source 0xC08000 0xC00000 g reads) {b d : Address} (hd : d ≠ 0xC00000)
    (hb : b ≠ d) (hcalls : g.Calls 0xC08000 b d) : b = 0xC00000 := by
  rcases hg.exists_read (hg.leads_of_calls hcalls) with ⟨r, hr, rfl⟩
  rcases hcalls with ⟨htrack, profile, hprofile, call, hcall, rfl⟩
  rcases hg.read_eq r hr with ⟨known, hread, -, hknown⟩
  rw [hprofile] at hknown
  cases hknown
  rcases targets_of_profileOf hread call hcall with htarget | htarget | htarget
  · exact absurd htarget hd
  · rw [htarget] at hb
    rcases profileOf_cases hread with ⟨hfirst, -⟩ | ⟨hsecond, -⟩
    · exact hfirst
    · exact absurd hsecond hb
  · exact absurd (congrArg CalledRoutine.address htarget) htrack

end Recursive

namespace Shared

/-! A handler that calls two routines, the second of which calls the first one, which calls the
tracked routine. -/

open Cartridge Processor

def cursor : Cursor where
  image := #[0x20, 0x07, 0x00, 0x20, 0x0B, 0x00, 0x60, 0x20, 0x00, 0x80, 0x60, 0x20, 0x07, 0x00,
    0x60]
  mapping := .hiRom

def source : RoutineSource := Routine.read .oldest Table.standard cursor

theorem faithful_source : source.Faithful := fun _ _ _ hread => Reader.address_of_read hread

def handler : List Instruction :=
  [⟨0xC00000, .jsr, ⟨0x07, 2⟩⟩, ⟨0xC00003, .jsr, ⟨0x0B, 2⟩⟩, ⟨0xC00006, .rts, {}⟩]

def lower : List Instruction := [⟨0xC00007, .jsr, ⟨0x8000, 2⟩⟩, ⟨0xC0000A, .rts, {}⟩]

def upper : List Instruction := [⟨0xC0000B, .jsr, ⟨0x07, 2⟩⟩, ⟨0xC0000E, .rts, {}⟩]

theorem read_handler (p : Flags) :
    ∃ r, (source 0xC00000 p).outcome = .ok r ∧ r.instructions.toList = handler := by
  apply Reader.Reads.read (d := cursor) (by simp [Cursor.seek, Mapping.toOffset?, cursor])
  refine .call (i := ⟨0xC00000, .jsr, ⟨0x07, 2⟩⟩) (d := { cursor with offset := 3 })
    (t := 0xC00007) (by decide) (Instruction.decode_of_parts rfl Opcode.find?_jsr rfl) (by decide)
    (by decide) ?_
  refine .call (i := ⟨0xC00003, .jsr, ⟨0x0B, 2⟩⟩) (d := { cursor with offset := 6 })
    (t := 0xC0000B) (by decide) (Instruction.decode_of_parts rfl Opcode.find?_jsr rfl) (by decide)
    (by decide) ?_
  exact .lastRet (i := ⟨0xC00006, .rts, {}⟩) (d := { cursor with offset := 7 })
    (by decide) (Instruction.decode_of_parts rfl Opcode.find?_rts rfl) (by decide) (by decide)

theorem read_lower (p : Flags) :
    ∃ r, (source 0xC00007 p).outcome = .ok r ∧ r.instructions.toList = lower := by
  apply Reader.Reads.read (d := { cursor with offset := 7 })
    (by simp [Cursor.seek, Mapping.toOffset?, cursor])
  refine .call (i := ⟨0xC00007, .jsr, ⟨0x8000, 2⟩⟩) (d := { cursor with offset := 10 })
    (t := 0xC08000) (by decide) (Instruction.decode_of_parts rfl Opcode.find?_jsr rfl) (by decide)
    (by decide) ?_
  exact .lastRet (i := ⟨0xC0000A, .rts, {}⟩) (d := { cursor with offset := 11 })
    (by decide) (Instruction.decode_of_parts rfl Opcode.find?_rts rfl) (by decide) (by decide)

theorem read_upper (p : Flags) :
    ∃ r, (source 0xC0000B p).outcome = .ok r ∧ r.instructions.toList = upper := by
  apply Reader.Reads.read (d := { cursor with offset := 11 })
    (by simp [Cursor.seek, Mapping.toOffset?, cursor])
  refine .call (i := ⟨0xC0000B, .jsr, ⟨0x07, 2⟩⟩) (d := { cursor with offset := 14 })
    (t := 0xC00007) (by decide) (Instruction.decode_of_parts rfl Opcode.find?_jsr rfl) (by decide)
    (by decide) ?_
  exact .lastRet (i := ⟨0xC0000E, .rts, {}⟩) (d := { cursor with offset := 15 })
    (by decide) (Instruction.decode_of_parts rfl Opcode.find?_rts rfl) (by decide) (by decide)

/-- A routine with one call has a profile with this call. -/
theorem exists_single_call {address t : Address} {p : Flags} {all : List Instruction}
    (hread : ∃ r, (source address p).outcome = .ok r ∧ r.instructions.toList = all)
    (htargets : ∀ i ∈ all, i.has .call = true → i.knownTarget?.isSome = true)
    (hjumps : ∀ i ∈ all, i.has .jump = false) (hall : all.filterMap (·.calledRoutine?) = [t]) :
    ∃ profile call, (profileOf source address p).outcome = .ok profile ∧
      profile.calls = [call] ∧ call.caller = address ∧ call.target.address = t ∧
      ∀ track, profile.callCount track = all.countP (·.callsRoutine track) := by
  rcases exists_profileOf_read hread htargets hjumps with ⟨profile, hprofile, hcalls, hcount⟩
  rw [hall] at hcalls
  rcases List.map_eq_singleton_iff.1 hcalls with ⟨call, hcall, htarget⟩
  have hcaller :=
    caller_of_mem_calls faithful_source hprofile (hcall ▸ List.mem_singleton_self call)
  exact ⟨profile, call, hprofile, hcall, hcaller, htarget, hcount⟩

/-- The handler has a call of each routine, that of the first one in front. -/
theorem exists_two_calls :
    ∃ profile first second, (profileOf source 0xC00000 {}).outcome = .ok profile ∧
      profile.calls = [first, second] ∧ second.caller = 0xC00000 ∧
      first.target.address = 0xC00007 ∧ second.target.address = 0xC0000B := by
  rcases exists_profileOf_read (read_handler {}) (by decide) (by decide) with
    ⟨profile, hprofile, hcalls, -⟩
  have hcalls : profile.calls.map (·.target.address) = [0xC00007, 0xC0000B] :=
    hcalls.trans (by decide)
  rcases List.map_eq_cons_iff.1 hcalls with ⟨first, rest, hcalls, hfirst, hrest⟩
  rcases List.map_eq_singleton_iff.1 hrest with ⟨second, rfl, hsecond⟩
  have hcaller : second.caller = 0xC00000 :=
    caller_of_mem_calls faithful_source hprofile (by simp [hcalls])
  exact ⟨profile, first, second, hprofile, hcalls, hcaller, hfirst, hsecond⟩

/-- The first routine is found by the call in the second one, which is followed first. -/
theorem exists_callGraph :
    ∃ g profile, (build source 0xC08000 0xC00000).outcome = .ok g ∧
      (∀ u v, g.Linked u v ↔ u = idOf 0xC0000B ∧ v = idOf 0xC00007 ∨
        u = idOf 0xC00000 ∧ v = idOf 0xC0000B) ∧
      g.Calls 0xC08000 0xC00000 0xC00007 ∧ g.data? (idOf 0xC00007) = some profile ∧
      profile.callCount 0xC08000 = 1 := by
  rcases exists_two_calls with ⟨top, first, second, htop, hcalls, hcaller, hfirst, hsecond⟩
  rcases exists_single_call (t := 0xC00007) (read_upper second.target.flags) (by decide)
    (by decide) (by decide) with ⟨middle, inner, hmiddle, hinner, hupper, hlower, -⟩
  rcases exists_single_call (t := 0xC08000) (read_lower inner.target.flags) (by decide)
    (by decide) (by decide) with ⟨bottom, last, hbottom, hlast, -, htrack, hcount⟩
  have hsound : (Progress.start 0xC00000 top).Sound source 0xC08000 0xC00000 :=
    Progress.sound_start faithful_source htop
  -- the second routine is read first, by the call on top of the stack
  have hnew :
      (Progress.start 0xC00000 top).graph.contains (idOf second.target.address) = false := by
    simp [Progress.contains_start, hsecond, idOf_inj]
  have hread : second.target.address ≠ 0xC08000 := by
    rw [hsecond]
    decide
  rw [← hsecond] at hmiddle
  rcases exists_outcome_follow [first] hsound.built hread hnew hmiddle
    (by simp [Progress.contains_start, hcaller]) with ⟨mid, hmid, hfollow⟩
  -- its call leads to the first routine
  have hnew' : mid.contains (idOf inner.target.address) = false := by
    simp [hmid.contains_eq, Progress.contains_start, hsecond, hlower, idOf_inj]
  have hread' : inner.target.address ≠ 0xC08000 := by
    rw [hlower]
    decide
  rw [← hlower] at hbottom
  rcases exists_outcome_follow [first] hmid.built hread' hnew' hbottom
    (by simp [hmid.contains_eq, hupper, hsecond]) with ⟨g, hg, hfollow'⟩
  have hlinked : ∀ u v, g.Linked u v ↔ u = idOf 0xC0000B ∧ v = idOf 0xC00007 ∨
      u = idOf 0xC00000 ∧ v = idOf 0xC0000B := by
    intro u v
    rw [hg.linked_iff hmid.built hnew', hmid.linked_iff hsound.built hnew, hupper, hlower, hcaller,
      hsecond, or_iff_left (Progress.not_linked_start 0xC00000 top u v)]
  have hdata : g.data? (idOf 0xC00000) = some top := by
    apply hg.data_kept _ _ (hmid.data_kept _ _ _)
    rw [Progress.data?_start, if_pos rfl]
  have hend : (build source 0xC08000 0xC00000).outcome = .ok g := by
    rw [build_of_profile 0xC08000 htop, hcalls]
    apply (hfollow.trans _)
    rw [hinner]
    apply (hfollow'.trans _)
    apply outcome_follow_of_seen
    simp [hlast, htrack, hfirst, hg.contains_eq, hlower]
  refine ⟨g, bottom, hend, hlinked,
    ⟨by decide, top, hdata, first, by simp [hcalls], hfirst⟩, ?_, ?_⟩
  · rw [hg.data_eq, hlower, if_pos rfl]
  · rw [hcount]
    decide

/-- Two edges lead to the first routine, although the handler calls it. -/
theorem level_lower {g : CallGraph} {reads : List CalledRoutine}
    (hg : IsClosure source 0xC08000 0xC00000 g reads)
    (hlinked : ∀ u v, g.Linked u v ↔ u = idOf 0xC0000B ∧ v = idOf 0xC00007 ∨
      u = idOf 0xC00000 ∧ v = idOf 0xC0000B)
    (hcalls : g.Calls 0xC08000 0xC00000 0xC00007) : g.Level 0xC00000 0xC00007 2 := by
  rw [hg.level_iff (.single hcalls)]
  constructor
  · refine ⟨[idOf 0xC00000, idOf 0xC0000B, idOf 0xC00007], ?_, rfl⟩
    exact .step ((hlinked _ _).2 (.inr ⟨rfl, rfl⟩)) (.step ((hlinked _ _).2 (.inl ⟨rfl, rfl⟩))
      (.here _))
  · intro i hi hway
    have hcases : i = 0 ∨ i = 1 := by omega
    rcases hcases with rfl | rfl
    · simp [Graph.wayOf_zero, idOf_inj] at hway
    · rw [Graph.wayOf_succ] at hway
      rcases hway with ⟨v, hlink, hlast⟩
      rw [Graph.wayOf_zero.1 hlast, hlinked] at hlink
      simp [idOf_inj] at hlink

end Shared

end CallGraph

namespace Handler

open CallGraph

theorem subroutinesOf_of_ofAnalysis {result : Analysis} {track : Address} {h : Handler}
    (hok : Handler.ofAnalysis result track = .ok h) :
    subroutinesOf result.callGraph track = .ok h.subroutines := by
  unfold ofAnalysis at hok
  obtain ⟨subroutines, hsub, hok⟩ := bind_eq_ok.1 hok
  cases hok
  exact hsub

/-- The depth of a routine in a report is its level in the call graph, and a chain of as many calls
leads to it. All levels are the least lengths of chains exactly if no call leads more than one level
down; then the depths in the report are least as well. No call does so if no routine below the
handler is called by two others. -/
theorem depth_of_ofAnalysis {a : Analyzer} (hsource : a.source.Faithful) {address : Address}
    {result : Analysis} {h : Handler} (hresult : (a.analyze address).outcome = .ok result)
    (hhandler : Handler.ofAnalysis result a.track = .ok h) :
    (∀ s ∈ h.subroutines, ∃ n, s.depth = some n ∧ result.callGraph.Level address s.address n ∧
      result.callGraph.Chain a.track address n s.address) ∧
    ((∀ b m n, result.callGraph.Chain a.track address m b → result.callGraph.Level address b n →
      n ≤ m) ↔ result.callGraph.Stepwise a.track address) ∧
    (result.callGraph.Stepwise a.track address → ∀ s ∈ h.subroutines, ∃ n, s.depth = some n ∧
      result.callGraph.Chain a.track address n s.address ∧
      ∀ m, result.callGraph.Chain a.track address m s.address → n ≤ m) ∧
    ((∀ b c d, d ≠ address → b ≠ d → c ≠ d → result.callGraph.Calls a.track b d →
      result.callGraph.Calls a.track c d → b = c) → result.callGraph.Stepwise a.track address) := by
  obtain ⟨-, hbuild, -⟩ := Analyzer.analyze_stages hresult
  obtain ⟨reads, hg, hspan⟩ := exists_spanned hsource hbuild
  have hlevels : ∀ s ∈ h.subroutines, ∃ n, s.depth = some n ∧
      result.callGraph.Level address s.address n ∧
      result.callGraph.Chain a.track address n s.address := by
    intro s hs
    rcases (hg.mem_subroutines_iff (subroutinesOf_of_ofAnalysis hhandler) s).1 hs with
      ⟨-, profile, hprofile, -, -, hdepth⟩
    have hleads := (hg.contains_iff _).1 (hg.built.consistent.contains_of_data? hprofile)
    rcases hg.exists_level hspan hleads with ⟨n, hn⟩
    have hsame : s.depth = some n := Except.ok.inj (hdepth.symm.trans hn)
    exact ⟨n, hsame, hn, hg.chain_of_level hleads hn⟩
  refine ⟨hlevels, hg.least_iff_stepwise hspan, ?_, hg.stepwise_of_one_caller⟩
  intro hstep s hs
  rcases hlevels s hs with ⟨n, hsame, hn, hchain⟩
  exact ⟨n, hsame, hchain, fun m hm => hstep.level_le hg hspan hm hn⟩

open CallGraph.Recursive Report.Promotion in
/-- Of two routines that call each other, the one below the handler has depth one. -/
theorem depth_of_promotion :
    (examiner.analyzer 0xC00000).source.Faithful ∧
    ∃ result h, ((examiner.analyzer 0xC00000).analyze 0xC00000).outcome = .ok result ∧
      Handler.ofAnalysis result 0xC08000 = .ok h ∧ ∃ s ∈ h.subroutines, s.address = 0xC00100 ∧
      s.depth = some 1 ∧ ∀ m, result.callGraph.Chain 0xC08000 0xC00000 m 0xC00100 → 1 ≤ m := by
  have hfaithful := reliable.faithful 0xC00000
  rcases exists_analysis with ⟨result, hresult⟩
  rcases exists_ofAnalysis (a := examiner.analyzer 0xC00000) hfaithful hresult with ⟨h, hhandler, -⟩
  rcases depth_of_ofAnalysis (a := examiner.analyzer 0xC00000) hfaithful hresult hhandler
    with ⟨-, -, hleast, hone⟩
  rcases Analyzer.analyze_stages hresult with ⟨-, hbuild, -⟩
  rcases exists_spanned hfaithful hbuild with ⟨reads, hg, hspan⟩
  have hstep : result.callGraph.Stepwise 0xC08000 0xC00000 := by
    apply hone
    intro b c d hd hb hc hbd hcd
    rw [eq_first_of_calls hg hd hb hbd, eq_first_of_calls hg hd hc hcd]
  rcases hg.exists_level hspan (leads_second hg) with ⟨n, hn⟩
  have hmem : ⟨0xC00100, secondProfile.callCount 0xC08000, some n⟩ ∈ h.subroutines := by
    rw [hg.mem_subroutines_iff (subroutinesOf_of_ofAnalysis hhandler)]
    exact ⟨(by decide : (0xC00100 : Address) ≠ 0xC00000), secondProfile, data?_second hg,
      by decide, rfl, hn⟩
  rcases hleast hstep _ hmem with ⟨k, hk, hchain, hmin⟩
  have hcalls : result.callGraph.Calls 0xC08000 0xC00000 0xC00100 :=
    ⟨by decide, firstProfile, data?_first hg, _, List.mem_cons_self, rfl⟩
  have hle : k ≤ 1 := hmin 1 (.call .here hcalls)
  have hpos : k ≠ 0 := by
    rintro rfl
    cases hchain
  obtain rfl : k = 1 := by omega
  exact ⟨hfaithful, result, h, hresult, hhandler, _, hmem, rfl, hk, hmin⟩

open CallGraph.Shared in
/-- A routine that the handler calls has depth two where it is found by the call of another one. -/
theorem depth_of_shared :
    ∃ result h, (Analyzer.analyze ⟨Routine.read .oldest Processor.Table.standard cursor, 0xC08000,
        0⟩ 0xC00000).outcome = .ok result ∧
      Handler.ofAnalysis result 0xC08000 = .ok h ∧ ⟨0xC00007, 1, some 2⟩ ∈ h.subroutines ∧
      result.callGraph.Chain 0xC08000 0xC00000 1 0xC00007 := by
  rcases exists_callGraph with ⟨g, profile, hbuild, hlinked, hcalls, hdata, hcount⟩
  rcases read_handler {} with ⟨r, hread, hall⟩
  have hblocks := BlockGraph.ofRoutine_of_no_branch (r := r) (by rw [hall]; decide)
  rcases Analyzer.exists_analyze_of_blocks (a := ⟨source, 0xC08000, 0⟩) hbuild hread hblocks
    (Int.le_refl 0) with ⟨result, hresult, rfl, -, -⟩
  rcases exists_ofAnalysis faithful_source hresult with ⟨h, hhandler, -⟩
  rcases exists_isClosure faithful_source hbuild with ⟨reads, hg⟩
  refine ⟨result, h, hresult, hhandler, ?_, .call .here hcalls⟩
  rw [hg.mem_subroutines_iff (subroutinesOf_of_ofAnalysis hhandler)]
  exact ⟨by decide, profile, hdata, by rw [hcount]; decide, hcount.symm,
    level_lower hg hlinked hcalls⟩

end Handler

end CartFlow
