import CartFlow.Proofs.Cartridge.PointerTable
import CartFlow.Proofs.Command.BatchRuns
import CartFlow.Proofs.Files.Places

/-!
# What a batch leaves behind

A batch writes each report next to its image, under the name of the image with another extension.
So two images share one report if their names differ in the extension only, and an image whose name
has the extension of reports is lost to its own report. The batch does not notice: it succeeds
nevertheless. If no report takes the place of another one or of an image, then all images stay as
they were, every report is the one that was to be made at the beginning, and it stays in its file.
Every image of the batch has an order of its own in which its routines are read, so two images with
the same contents need not have the same report.
-/
namespace CartFlow.Batch

open Files Text

variable {s : Session} {input : String} {w next : World}

structure Image (fs : FileSystem) (input : String) where
  place : List String
  bytes : Array UInt8
  place_eq : fs.place? input = some place
  contents_eq : fs.contents? place = some bytes

namespace Image

variable {fs : FileSystem}

def target (s : Session) (x : Image fs input) : List String :=
  FileSystem.beside (extension s.format) x.place

theorem read_eq (x : Image fs input) : fs.read input = .ok x.bytes :=
  FileSystem.read_eq_ok.2 ⟨x.place, x.place_eq, x.contents_eq⟩

theorem exists_of_read {bytes : Array UInt8} (h : fs.read input = .ok bytes) :
    ∃ x : Image fs input, x.bytes = bytes := by
  obtain ⟨place, hplace, hcontents⟩ := FileSystem.read_eq_ok.1 h
  exact ⟨⟨place, bytes, hplace, hcontents⟩, rfl⟩

theorem unique (x y : Image fs input) : x = y := by
  obtain ⟨place, bytes, hplace, hcontents⟩ := x
  obtain ⟨place', bytes', hplace', hcontents'⟩ := y
  obtain rfl : place = place' := Option.some.inj (hplace.symm.trans hplace')
  obtain rfl : bytes = bytes' := Option.some.inj (hcontents.symm.trans hcontents')
  rfl

end Image

/-- An image of a batch with the report on it, as it is when the batch begins. -/
structure Reported (s : Session) (w : World) (input : String) extends Image w.files input where
  report : Report
  report_eq : ((s.unlimited.report input).run w).1 = .ok report

namespace Reported

def text (x : Reported s w input) : Array UInt8 :=
  encode (s.reportDocument x.report).text

theorem unique (x y : Reported s w input) : x = y := by
  obtain ⟨image, report, hreport⟩ := x
  obtain ⟨image', report', hreport'⟩ := y
  obtain rfl : image = image' := image.unique image'
  obtain rfl : report = report' := Except.ok.inj (hreport.symm.trans hreport')
  rfl

end Reported

/-- The file of each report holds that report, and each image is as it was. -/
def Keeps (s : Session) (w next : World) (inputs : List String) : Prop :=
  ∀ k input, inputs[k]? = some input → ∃ x : Reported (s.past k) w input,
    next.files.read (outputName input (extension s.format)) = .ok x.text ∧
      next.files.read input = .ok x.bytes

/-- No report takes the place of another report or of an image, unless they are the same. -/
def Harmless (s : Session) (w : World) (inputs : List String) : Prop :=
  ∀ j a, inputs[j]? = some a → ∀ x : Reported (s.past j) w a, ∀ k b, inputs[k]? = some b →
    (∀ y : Reported (s.past k) w b, x.target s = y.target s → x.text = y.text) ∧
      ∀ y : Image w.files b, x.target s = y.place → x.text = y.bytes

/-- Every report has a place of its own, and none has that of an image. -/
def Apart (s : Session) (fs : FileSystem) (inputs : List String) : Prop :=
  inputs.Pairwise (fun a b => ∀ (x : Image fs a) (y : Image fs b), x.target s ≠ y.target s) ∧
    ∀ a ∈ inputs, ∀ b ∈ inputs, ∀ (x : Image fs a) (y : Image fs b), x.target s ≠ y.place

section Kept

variable {fs after last : FileSystem} {inputs rest : List String} {r : Report} {k : Nat}

/-- A report is written next to its image. -/
theorem exists_image_of_write {t : Session}
    (hreport : ∀ v : World, v.files = fs → ((t.report input).run v).1 = .ok r)
    {bytes : Array UInt8}
    (hwrite : fs.write (outputName input (extension s.format)) bytes = .ok after) :
    ∃ y : Image fs input, fs.place? (outputName input (extension s.format)) = some (y.target s) ∧
      after = fs.put (y.target s) bytes := by
  obtain ⟨-, image, hread, -⟩ := Session.report_eq_ok.1 (hreport { files := fs } rfl)
  obtain ⟨y, -⟩ := Image.exists_of_read hread
  obtain ⟨place, hplace, rfl⟩ := FileSystem.write_eq_ok.1 hwrite
  have htarget := FileSystem.place?_outputName (not_mem_extension _) y.place_eq hplace
  subst htarget
  exact ⟨y, hplace, rfl⟩

theorem Written.place?_eq (h : Written s inputs fs last) (path : String) :
    last.place? path = fs.place? path := by
  induction h with
  | nil => rfl
  | cons _ _ hwrite _ ih =>
    obtain ⟨place, hplace, rfl⟩ := FileSystem.write_eq_ok.1 hwrite
    rw [ih, FileSystem.place?_put (FileSystem.writable_of_place? hplace)]

/-- A batch changes the places of its reports only. -/
theorem Written.contents?_eq (h : Written s inputs fs last) {place : List String}
    (hplace : ∀ input ∈ inputs, ∀ image, fs.place? input = some image →
      FileSystem.beside (extension s.format) image ≠ place) :
    last.contents? place = fs.contents? place := by
  induction h with
  | nil => rfl
  | @cons s _ _ _ _ _ _ hreport _ hwrite _ ih =>
    obtain ⟨y, htarget, rfl⟩ := exists_image_of_write hreport hwrite
    rw [List.forall_mem_cons] at hplace
    have hne : place ≠ y.target s := (hplace.1 _ y.place_eq).symm
    rw [ih ?rest, FileSystem.contents?_put_of_ne _ _ hne]
    simpa only [FileSystem.place?_put (FileSystem.writable_of_place? htarget),
      Session.format_past] using hplace.2

/-- What a batch keeps that has made its first reports: paths lead where they led, the images are as
they were, and these reports stand where they were written. -/
structure Preserved (s : Session) (w : World) (inputs : List String) (k : Nat) (fs : FileSystem) :
    Prop where
  place?_eq : ∀ path, fs.place? path = w.files.place? path
  image : ∀ input ∈ inputs, ∀ y : Image w.files input, fs.contents? y.place = some y.bytes
  report : ∀ j < k, ∀ input, inputs[j]? = some input → ∃ x : Reported (s.past j) w input,
    w.files.place? (outputName input (extension s.format)) = some (x.target s) ∧
      fs.contents? (x.target s) = some x.text

/-- While the images are as they were, a report is the one that was to be made at the beginning. -/
theorem Preserved.exists_reported (h : Preserved s w inputs k fs) (hinput : input ∈ inputs)
    (y : Image w.files input)
    (hreport : ∀ v : World, v.files = fs →
      (((s.past k).unlimited.report input).run v).1 = .ok r) :
    ∃ x : Reported (s.past k) w input, x.report = r := by
  have hplace : fs.place? input = some y.place := (h.place?_eq input).trans y.place_eq
  have hread : fs.read input = w.files.read input :=
    (FileSystem.read_eq_ok.2 ⟨_, hplace, h.image input hinput y⟩).trans y.read_eq.symm
  have hbegin : (((s.past k).unlimited.report input).run { w with files := fs }).1 = _ :=
    Session.report_congr hread
  exact ⟨⟨y, r, hbegin ▸ hreport _ rfl⟩, rfl⟩

/-- One more report leaves all images and reports alone if the batch is harmless. -/
theorem Preserved.step (h : Preserved s w inputs k fs) (hharmless : Harmless s w inputs)
    (hinput : inputs[k]? = some input) (y : Image w.files input)
    (hreport : ∀ v : World, v.files = fs →
      (((s.past k).unlimited.report input).run v).1 = .ok r)
    (hwrite : fs.write (outputName input (extension s.format))
      (encode (s.reportDocument r).text) = .ok after) :
    Preserved s w inputs (k + 1) after := by
  obtain ⟨x, rfl⟩ := h.exists_reported (List.mem_of_getElem? hinput) y hreport
  obtain ⟨current, htarget, rfl⟩ := exists_image_of_write hreport hwrite
  have hcurrent : current.place = x.place :=
    Option.some.inj (current.place_eq.symm.trans ((h.place?_eq input).trans x.place_eq))
  have hsame : current.target s = x.target s := congrArg _ hcurrent
  rw [hsame] at htarget ⊢
  change Preserved s w inputs (k + 1) (fs.put (x.target s) x.text)
  refine ⟨?place, ?image, ?report⟩
  case place =>
    intro path
    rw [FileSystem.place?_put (FileSystem.writable_of_place? htarget), h.place?_eq]
  case image =>
    intro b hb z
    obtain ⟨j, hj⟩ := List.mem_iff_getElem?.1 hb
    -- A report that stands on an image, be it its own, says there what the image said.
    by_cases heq : x.target s = z.place
    · rw [← heq, FileSystem.contents?_put_self, (hharmless k input hinput x j b hj).2 z heq]
    · rw [FileSystem.contents?_put_of_ne _ _ (Ne.symm heq), h.image b hb z]
  case report =>
    intro j hj b hb
    rcases Nat.lt_succ_iff_lt_or_eq.1 hj with hlt | rfl
    · obtain ⟨z, hplace, hz⟩ := h.report j hlt b hb
      refine ⟨z, hplace, ?_⟩
      by_cases heq : x.target s = z.target s
      · rw [← heq, FileSystem.contents?_put_self, (hharmless k input hinput x j b hb).1 z heq]
      · rw [FileSystem.contents?_put_of_ne _ _ (Ne.symm heq), hz]
    · obtain rfl : input = b := Option.some.inj (hinput.symm.trans hb)
      exact ⟨x, (h.place?_eq _).symm.trans htarget, FileSystem.contents?_put_self ..⟩

theorem Preserved.run (hharmless : Harmless s w inputs)
    (himages : ∀ input ∈ inputs, Nonempty (Image w.files input))
    (hwritten : Written (s.past k).unlimited rest fs last) (hrest : inputs.drop k = rest)
    (h : Preserved s w inputs k fs) : Preserved s w inputs (k + rest.length) last := by
  induction rest generalizing k fs with
  | nil =>
    cases hwritten
    exact h
  | cons input rest ih =>
    obtain _ | ⟨hreport, -, hwrite, hwritten⟩ := hwritten
    have hinput : inputs[k]? = some input := by rw [← List.head?_drop, hrest, List.head?_cons]
    have hdrop : inputs.drop (k + 1) = rest := by rw [← List.tail_drop, hrest, List.tail_cons]
    obtain ⟨y⟩ := himages input (List.mem_of_getElem? hinput)
    have hnext := h.step hharmless hinput y hreport hwrite
    have hpast : (s.past k).unlimited.past 1 = (s.past (k + 1)).unlimited :=
      congrArg Session.unlimited (s.past_past k 1)
    have hall := ih (hpast ▸ hwritten) hdrop hnext
    rwa [List.length_cons, Nat.add_comm rest.length, ← Nat.add_assoc]

theorem keeps_of_harmless (hharmless : Harmless s w inputs)
    (himages : ∀ input ∈ inputs, Nonempty (Image w.files input))
    (hwritten : Written s.unlimited inputs w.files next.files) : Keeps s w next inputs := by
  have hbegin : Preserved s w inputs 0 w.files :=
    ⟨fun _ => rfl, fun _ _ y => y.contents_eq, fun _ hj => absurd hj (Nat.not_lt_zero _)⟩
  have hend := hbegin.run (k := 0) hharmless himages hwritten List.drop_zero
  rw [Nat.zero_add] at hend
  intro k input hinput
  obtain ⟨hk, -⟩ := List.getElem?_eq_some_iff.1 hinput
  obtain ⟨x, hplace, hcontents⟩ := hend.report k hk input hinput
  refine ⟨x, FileSystem.read_eq_ok.2 ⟨x.target s, ?_, hcontents⟩,
    FileSystem.read_eq_ok.2 ⟨x.place, ?_, ?_⟩⟩
  · rw [hend.place?_eq, hplace]
  · rw [hend.place?_eq, x.place_eq]
  · exact hend.image input (List.mem_of_getElem? hinput) x.toImage

/-- What a batch keeps can be seen at the places of its images and of its reports. -/
theorem Keeps.contents?_eq (h : Keeps s w next inputs)
    (hplaces : ∀ path, next.files.place? path = w.files.place? path)
    (hinput : inputs[k]? = some input) :
    ∃ x : Reported (s.past k) w input, next.files.contents? (x.target s) = some x.text ∧
      next.files.contents? x.place = some x.bytes := by
  obtain ⟨x, hreport, himage⟩ := h k input hinput
  obtain ⟨place, hplace, hcontents⟩ := FileSystem.read_eq_ok.1 himage
  obtain ⟨target, htarget, htext⟩ := FileSystem.read_eq_ok.1 hreport
  rw [hplaces] at hplace htarget
  cases hplace.symm.trans x.place_eq
  cases FileSystem.place?_outputName (not_mem_extension _) x.place_eq htarget
  exact ⟨x, htext, hcontents⟩

theorem harmless_of_keeps (hwritten : Written s.unlimited inputs w.files next.files)
    (h : Keeps s w next inputs) : Harmless s w inputs := by
  intro j a ha x k b hb
  obtain ⟨x', hx, -⟩ := h.contents?_eq hwritten.place?_eq ha
  obtain ⟨y', htext, hbytes⟩ := h.contents?_eq hwritten.place?_eq hb
  cases x'.unique x
  -- One place has one content, so what is promised there twice is the same.
  refine ⟨fun y heq => ?_, fun y heq => ?_⟩
  · cases y'.unique y
    rw [heq, htext] at hx
    exact (Option.some.inj hx).symm
  · cases y'.toImage.unique y
    rw [heq, hbytes] at hx
    exact (Option.some.inj hx).symm

/-- Reports at places of their own do no harm. -/
theorem harmless_of_apart (h : Apart s w.files inputs) : Harmless s w inputs := by
  have hpairs := List.pairwise_iff_getElem.1 h.1
  intro j a ha x k b hb
  obtain ⟨hj, rfl⟩ := List.getElem?_eq_some_iff.1 ha
  obtain ⟨hk, rfl⟩ := List.getElem?_eq_some_iff.1 hb
  refine ⟨fun y heq => ?_, fun y heq => ?_⟩
  · rcases Nat.lt_trichotomy j k with hlt | rfl | hlt
    · exact absurd heq (hpairs j k hj hk hlt x.toImage y.toImage)
    · rw [x.unique y]
    · exact absurd heq.symm (hpairs k j hk hj hlt y.toImage x.toImage)
  · exact absurd heq (h.2 _ (List.getElem_mem hj) _ (List.getElem_mem hk) x.toImage y)

/-- A batch that succeeds keeps all its reports and images exactly if no report takes the place of
another report, or of an image, from which it differs. So it is for images whose reports have
places of their own, apart from those of the images. Nothing else changes in the files. A pattern
that these files fit makes the same batch. -/
theorem keeps_iff_harmless (hfiles : ∀ input ∈ inputs, w.files.look input = some .file)
    (hrun : (runFiles s inputs).run w = (.ok (), next)) :
    (Keeps s w next inputs ↔ Harmless s w inputs) ∧
      (Apart s w.files inputs → Keeps s w next inputs) ∧
      (∀ place, (∀ input ∈ inputs, ∀ x : Image w.files input, x.target s ≠ place) →
        next.files.contents? place = w.files.contents? place) ∧
      ∀ pattern, ((files pattern).run w).1 = .ok inputs → inputs ≠ [] →
        (run s pattern).run w = (.ok (), next) := by
  have hwritten := written_of_runFiles hrun
  have himages : ∀ input ∈ inputs, Nonempty (Image w.files input) := by
    intro input hinput
    obtain ⟨bytes, hread⟩ := FileSystem.look_eq_file.1 (hfiles input hinput)
    exact (Image.exists_of_read hread).nonempty
  refine ⟨⟨harmless_of_keeps hwritten, fun h => keeps_of_harmless h himages hwritten⟩,
    fun h => keeps_of_harmless (harmless_of_apart h) himages hwritten, fun place hplace => ?_,
    fun pattern hmatch hne => (run_eq_runFiles hmatch hne).trans hrun⟩
  refine hwritten.contents?_eq fun input hinput image himage => ?_
  obtain ⟨y⟩ := himages input hinput
  cases himage.symm.trans y.place_eq
  exact hplace input hinput y

end Kept

namespace Pair

open Cartridge

def settings : Settings where
  track := 0xC08000
  ignore := [0xC01000, 0xC02000]
  table := ⟨0xC00000, 1, 0xC0⟩

def session : Session where
  settings := settings
  mapping := "hirom"
  schedule file _ := if file = 0 then .oldest else .newest

def image : Bool → Array UInt8
  | false => #[0x00, 0x10]
  | true => #[0x00, 0x20]

def handler : Bool → Address
  | false => 0xC01000
  | true => 0xC02000

def report (version : Bool) : Report where
  track := 0xC08000
  ignored := [{ address := handler version, status := .ignored }]

def world (second : String) : World where
  files := ⟨[(["a.sfc"], image false), ([second], image true)]⟩

def reportPath (input : String) : String :=
  outputName input (extension session.format)

theorem handlers_eq (version : Bool) :
    settings.table.handlers { image := image version, mapping := .hiRom } =
      .ok [handler version] := by
  have hentries : settings.table.entries { image := image version, mapping := .hiRom } =
      .ok [(0, handler version)] := by
    rw [PointerTable.entries_eq]
    cases version <;> rfl
  rw [PointerTable.handlers, hentries]
  simp [Except.map, distinct, distinctFrom]

theorem report_eq (k : Nat) {input : String} {version : Bool} {w : World}
    (hread : w.files.read input = .ok (image version)) :
    (((session.past k).unlimited.report input).run w).1 = .ok (report version) := by
  have hignored : ∀ a ∈ [handler version], a ∈ settings.ignore :=
    List.forall_mem_singleton.2 (by cases version <;> decide)
  have hdistinct : distinct [handler version] = [handler version] := by
    simp [distinct, distinctFrom]
  have himage : (session.past k).unlimited.imageIn (image version) =
      .ok { image := image version, mapping := .hiRom } := by
    cases version <;> rfl
  refine Session.report_eq_ok.2 ⟨rfl, image version, hread, _, himage, ?_⟩
  refine bind_eq_ok.2 ⟨_, during_eq_ok.2 (handlers_eq version), during_eq_ok.2 ?_⟩
  rw [Report.generate, hdistinct]
  refine (Report.outcome_examineAll_of_ignored _ _ hignored).trans ?_
  rw [Report.finish, List.mergeSort_nil]
  rfl

theorem complete (version : Bool) : (session.reportDocument (report version)).failure = none := by
  cases version <;> decide +kernel

/-- The batch of both images succeeds if the first report does not stand on the second image. -/
theorem exists_run (second : String) (hne : second ≠ "a.sfc")
    (hspared : second ≠ reportPath "a.sfc")
    (hplaces : ∀ path ∈ ["a.sfc", reportPath "a.sfc", second, reportPath second],
      (world second).files.place? path = some [path]) :
    ∃ next, (runFiles session ["a.sfc", second]).run (world second) = (.ok (), next) := by
  simp only [List.forall_mem_cons] at hplaces
  obtain ⟨hfirst, htarget, hsecond, hother, -⟩ := hplaces
  have hread : (world second).files.read "a.sfc" = .ok (image false) :=
    FileSystem.read_eq_ok.2 ⟨_, hfirst, rfl⟩
  have hput : ∀ bytes path, ((world second).files.put [reportPath "a.sfc"] bytes).place? path =
      (world second).files.place? path :=
    fun _ _ => FileSystem.place?_put (FileSystem.writable_of_place? htarget)
  have hread' : ∀ bytes, ((world second).files.put [reportPath "a.sfc"] bytes).read second =
      .ok (image true) := by
    intro bytes
    have hcontents : (world second).files.contents? [second] = some (image true) := by
      have hother : (second == "a.sfc") = false := by simpa using hne
      simp [world, FileSystem.contents?, List.lookup_cons, hother]
    refine FileSystem.read_eq_ok.2 ⟨_, (hput bytes second).trans hsecond, ?_⟩
    rw [FileSystem.contents?_put_of_ne _ _ (by simpa using hspared), hcontents]
  have hwritten : Written session.unlimited ["a.sfc", second] (world second).files _ :=
    .cons (fun v hv => report_eq 0 (hv ▸ hread)) (complete false)
      (FileSystem.write_eq_ok.2 ⟨_, htarget, rfl⟩) <|
    .cons (fun v hv => report_eq 1 (hv ▸ hread' _)) (complete true)
      (FileSystem.write_eq_ok.2 ⟨_, (hput _ _).trans hother, rfl⟩) .nil
  obtain ⟨next, hrun, -⟩ := runFiles_of_written rfl hwritten
  exact ⟨next, hrun⟩

theorem exists_reported (k : Nat) {w : World} {input : String} (version : Bool)
    (hread : w.files.read input = .ok (image version)) :
    ∃ x : Reported (session.past k) w input, x.report = report version := by
  obtain ⟨x, -⟩ := Image.exists_of_read hread
  exact ⟨⟨x, report version, report_eq k hread⟩, rfl⟩

/-- Where an image and the report on it stand, as far as that can be read off the places. -/
theorem places_eq {second input : String}
    (hplace : (world second).files.place? input = some [input])
    (x : Image (world second).files input) :
    x.place = [input] ∧ x.target session = [reportPath input] := by
  have heq : x.place = [input] := Option.some.inj (x.place_eq.symm.trans hplace)
  exact ⟨heq, by rw [Image.target, heq]; exact FileSystem.beside_concat _ [] input⟩

end Pair

open Pair in
/-- Images whose names differ in front of the extension keep their reports and themselves. -/
theorem keeps_of_different_stems :
    ∃ next, (runFiles session ["a.sfc", "b.sfc"]).run (world "b.sfc") = (.ok (), next) ∧
      Keeps session (world "b.sfc") next ["a.sfc", "b.sfc"] ∧
      next.files.contents? ["b.sfc"] = some (image true) := by
  have hlook : ∀ input ∈ ["a.sfc", "b.sfc"], (world "b.sfc").files.look input = some .file := by
    decide +kernel
  have hplace : ∀ input ∈ ["a.sfc", "b.sfc"],
      (world "b.sfc").files.place? input = some [input] := by decide +kernel
  obtain ⟨next, hrun⟩ := exists_run "b.sfc" (by decide) (by decide +kernel)
    (by decide +kernel)
  have hspared : ∀ a ∈ ["a.sfc", "b.sfc"], ∀ b ∈ ["a.sfc", "b.sfc"], [reportPath a] ≠ [b] := by
    decide +kernel
  obtain ⟨-, hkeeps, hframe, -⟩ := keeps_iff_harmless hlook hrun
  refine ⟨next, hrun, hkeeps ⟨?_, ?_⟩, hframe _ fun input hinput x => ?_⟩
  · rw [List.pairwise_pair]
    intro x y
    rw [(places_eq (hplace "a.sfc" (by decide)) x).2, (places_eq (hplace "b.sfc" (by decide)) y).2]
    decide +kernel
  · intro a ha b hb x y
    rw [(places_eq (hplace a ha) x).2, (places_eq (hplace b hb) y).1]
    exact hspared a ha b hb
  · rw [(places_eq (hplace input hinput) x).2]
    exact hspared input hinput "b.sfc" (by decide)

open Pair in
/-- Images whose names differ in the extension only share one report. -/
theorem not_keeps_of_same_stem :
    ∃ next, (runFiles session ["a.sfc", "a.smc"]).run (world "a.smc") = (.ok (), next) ∧
      (∀ input ∈ ["a.sfc", "a.smc"], (world "a.smc").files.look input = some .file) ∧
      ¬Keeps session (world "a.smc") next ["a.sfc", "a.smc"] := by
  have hplace : ∀ input ∈ ["a.sfc", "a.smc"],
      (world "a.smc").files.place? input = some [input] := by decide +kernel
  obtain ⟨next, hrun⟩ := exists_run "a.smc" (by decide) (by decide +kernel)
    (by decide +kernel)
  refine ⟨next, hrun, by decide +kernel, fun hkeeps => ?_⟩
  have hharmless := harmless_of_keeps (written_of_runFiles hrun) hkeeps
  have hread : ∀ input ∈ [("a.sfc", false), ("a.smc", true)],
      (world "a.smc").files.read input.1 = .ok (image input.2) := by decide +kernel
  obtain ⟨x, hx⟩ := exists_reported 0 false (hread ("a.sfc", false) (by decide))
  obtain ⟨y, hy⟩ := exists_reported 1 true (hread ("a.smc", true) (by decide))
  have htarget : x.target session = y.target session := by
    rw [(places_eq (hplace "a.sfc" (by decide)) x.toImage).2,
      (places_eq (hplace "a.smc" (by decide)) y.toImage).2]
    decide +kernel
  have htext := (hharmless 0 "a.sfc" rfl x 1 "a.smc" rfl).1 y htarget
  rw [Reported.text, Reported.text, hx, hy] at htext
  revert htext
  decide +kernel

end CartFlow.Batch
