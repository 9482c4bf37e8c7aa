import CartFlow.Proofs.Routine.Encoding
import CartFlow.Proofs.Text.Hexadecimal

/-!
# Assembly text can be read back

The assembly text of an instruction consists of words: the mnemonic, the operand, and for a branch
or a call the target. With the digits replaced by zeros the operand shows the addressing mode, the
index register and the number of bytes, and the opcodes that share a mnemonic in the catalogue
differ there. So the text determines the opcode and the length of the operand, and then the digits
determine its value. The address of the instruction is not part of the text, but what depends on it
stands in the last word, which is not needed.
-/
namespace CartFlow

open Text Processor Cartridge

namespace Text

/-- The first word of a text, and what stands behind the blank that ends it. -/
def splitWord (cs : List Char) : List Char × List Char :=
  (cs.takeWhile (· != ' '), (cs.dropWhile (· != ' ')).tail)

theorem splitWord_append {word : List Char} (h : ' ' ∉ word) (rest : List Char) :
    splitWord (word ++ rest) = (word ++ (splitWord rest).1, (splitWord rest).2) := by
  have hall : ∀ c ∈ word, (c != ' ') = true := by
    intro c hc
    rw [bne_iff_ne]
    rintro rfl
    exact h hc
  rw [splitWord, List.takeWhile_append_of_pos hall, List.dropWhile_append_of_pos hall]
  rfl

@[simp] theorem splitWord_nil : splitWord [] = ([], []) := rfl

@[simp] theorem splitWord_blank (rest : List Char) : splitWord (' ' :: rest) = ([], rest) := by
  simp [splitWord]

end Text

namespace Processor

/-- What stands around the number of an operand, and whether a register follows. -/
structure Brackets where
  opening : String
  closing : String
  indexed : Bool

/-- The brackets of the modes whose operand is written as one number. -/
def Mode.brackets? : Mode → Option Brackets
  | immediate => some ⟨"#$", "", false⟩
  | direct | relative | absolute | absoluteLong => some ⟨"$", "", false⟩
  | directIndexed | absoluteIndexed | absoluteLongIndexed => some ⟨"$", "", true⟩
  | stackRelative => some ⟨"$", ",S", false⟩
  | indirect => some ⟨"($", ")", false⟩
  | indirectIndexed | absoluteIndexedIndirect => some ⟨"($", ")", true⟩
  | indirectLong => some ⟨"[$", "]", false⟩
  | indirectLongIndexed => some ⟨"[$", "]", true⟩
  | none | accumulator | blockMove | reserved _ => .none

theorem Mode.not_mem_brackets {mode : Mode} {b : Brackets} (h : mode.brackets? = some b) :
    ' ' ∉ b.opening.toList ∧ ' ' ∉ b.closing.toList := by
  cases mode <;> cases h <;> decide

namespace Opcode

/-- How the operands of `n` bytes are written: one text for the operand without bytes, a number of
two digits a byte between two texts, or two bytes apart. -/
inductive Written (op : Opcode) (n : Nat) : Prop
  | alone (text : String) : n = 0 → ' ' ∉ text.toList →
      (∀ v, op.operandText v n = .ok text) → Written op n
  | between (opening closing : String) : 0 < n → ' ' ∉ opening.toList → ' ' ∉ closing.toList →
      (∀ v, op.operandText v n = .ok (opening ++ hexPadded (2 * n) v.toNat ++ closing)) →
      Written op n
  | apart : n = 2 →
      (∀ v, op.operandText v n = .ok ("$" ++ hexPadded 2 (v.toNat % 256) ++ ",$" ++
        hexPadded 2 (v.toNat / 256))) → Written op n

variable {op : Opcode} {p : Flags} {n : Nat} {v w : UInt32} {s z : String}

theorem indexRegister_eq_ok (h : op.indexRegister = .ok s) : s = "X" ∨ s = "Y" := by
  unfold indexRegister at h
  split at h
  · cases h
    exact .inl rfl
  · split at h
    · cases h
      exact .inr rfl
    · cases h

/-- An operand that is one number is written between its brackets, with two digits a byte. -/
theorem operandText_of_brackets {b : Brackets} (hb : op.mode.brackets? = some b)
    (hn : op.operandLength p = .ok n) :
    0 < n ∧ ∀ v, op.operandText v n =
      if b.indexed then op.indexedText (b.opening ++ hexPadded (2 * n) v.toNat ++ b.closing)
      else .ok (b.opening ++ hexPadded (2 * n) v.toNat ++ b.closing) := by
  unfold operandLength at hn
  unfold operandText
  cases hmode : op.mode with
  | immediate =>
    rw [hmode] at hb hn
    cases hb
    cases hn
    rcases immediateLength_eq_one_or_two op p with hlength | hlength
    · simp [hlength, ← String.append_assoc]
    · simp [hlength, ← String.append_assoc]
  | none | accumulator | blockMove | reserved =>
    rw [hmode] at hb
    cases hb
  | _ =>
    rw [hmode] at hb hn
    cases hb
    cases hn
    simp [← String.append_assoc]

theorem written_of_brackets {b : Brackets} (hb : op.mode.brackets? = some b)
    (hn : op.operandLength p = .ok n) (hz : op.operandText v n = .ok z) : op.Written n := by
  obtain ⟨hopening, hclosing⟩ := Mode.not_mem_brackets hb
  obtain ⟨hpos, htext⟩ := operandText_of_brackets hb hn
  cases hindexed : b.indexed with
  | false =>
    simp only [hindexed, Bool.false_eq_true, if_false] at htext
    exact .between b.opening b.closing hpos hopening hclosing htext
  | true =>
    simp only [hindexed, if_true, indexedText] at htext
    rw [htext] at hz
    cases hregister : op.indexRegister with
    | error e =>
      rw [hregister] at hz
      cases hz
    | ok register =>
      have hblank : ' ' ∉ register.toList := by
        rcases indexRegister_eq_ok hregister with rfl | rfl
        · decide
        · decide
      refine .between b.opening (b.closing ++ "," ++ register) hpos hopening ?_ ?_
      · simp [hclosing, hblank]
      · intro v
        rw [htext, hregister]
        simp [Except.map, String.append_assoc]

/-- If one operand has a text, the operands of this length are written in one way. -/
theorem written (hn : op.operandLength p = .ok n) (hz : op.operandText v n = .ok z) :
    op.Written n := by
  cases hmode : op.mode with
  | none =>
    obtain rfl : 0 = n := by simpa only [operandLength, hmode, Except.ok.injEq] using hn
    exact .alone "" rfl (by decide) fun v => by simp only [operandText, hmode]
  | accumulator =>
    obtain rfl : 0 = n := by simpa only [operandLength, hmode, Except.ok.injEq] using hn
    exact .alone "A" rfl (by decide) fun v => by simp only [operandText, hmode]
  | blockMove =>
    obtain rfl : 2 = n := by simpa only [operandLength, hmode, Except.ok.injEq] using hn
    exact .apart rfl fun v => by simp only [operandText, hmode]
  | reserved code =>
    simp only [operandLength, hmode] at hn
    cases hn
  | _ => exact written_of_brackets (by rw [hmode]; rfl) hn hz

theorem Written.exists_text (h : op.Written n) (v : UInt32) :
    ∃ s, op.operandText v n = .ok s ∧ ' ' ∉ s.toList := by
  have hdigits : ∀ width n, ' ' ∉ paddedDigits width n :=
    fun _ _ => not_mem_paddedDigits (by decide)
  cases h with
  | alone text _ hblank htext => exact ⟨text, htext v, hblank⟩
  | between opening closing _ hopening hclosing htext =>
    exact ⟨_, htext v, by simp [hopening, hclosing, hdigits]⟩
  | apart _ htext => exact ⟨_, htext v, by simp [hdigits]⟩

theorem Written.form_eq (h : op.Written n) (hv : v.toNat < 256 ^ n) (hw : w.toNat < 256 ^ n)
    (hs : op.operandText v n = .ok s) (hz : op.operandText w n = .ok z) :
    s.toList.map zeroDigit = z.toList.map zeroDigit := by
  cases h with
  | alone text _ _ htext =>
    obtain rfl := Except.ok.inj ((htext v).symm.trans hs)
    exact congrArg (fun s => s.toList.map zeroDigit) (Except.ok.inj ((htext w).symm.trans hz))
  | between opening closing hpos _ _ htext =>
    obtain rfl := Except.ok.inj ((htext v).symm.trans hs)
    obtain rfl := Except.ok.inj ((htext w).symm.trans hz)
    have hform : ∀ m < 256 ^ n, (paddedDigits (2 * n) m).map zeroDigit =
        List.replicate (2 * n) '0' := by
      intro m hm
      exact map_zeroDigit_paddedDigits (by omega) (by rwa [Nat.pow_mul])
    simp only [String.toList_append, toList_hexPadded, List.map_append, hform _ hv, hform _ hw]
  | apart hn htext =>
    obtain rfl := Except.ok.inj ((htext v).symm.trans hs)
    obtain rfl := Except.ok.inj ((htext w).symm.trans hz)
    have hform : ∀ m < 256, (paddedDigits 2 m).map zeroDigit = List.replicate 2 '0' := by
      intro m hm
      exact map_zeroDigit_paddedDigits (by decide) hm
    subst hn
    simp only [String.toList_append, toList_hexPadded, List.map_append]
    rw [hform _ (by omega), hform _ (by omega), hform _ (by omega), hform _ (by omega)]

theorem Written.operand_eq (h : op.Written n) (hv : v.toNat < 256 ^ n) (hw : w.toNat < 256 ^ n)
    (hs : op.operandText v n = .ok s) (hz : op.operandText w n = .ok s) : v = w := by
  have hsame := hs.trans hz.symm
  apply UInt32.toNat_inj.1
  cases h with
  | alone text hn _ _ =>
    subst hn
    omega
  | between opening closing _ _ _ htext =>
    rw [htext, htext, Except.ok.injEq, String.append_assoc, String.append_assoc] at hsame
    have hlists := congrArg String.toList hsame
    simp only [String.toList_append, List.append_cancel_left_eq, List.append_cancel_right_eq,
      toList_hexPadded] at hlists
    exact paddedDigits_inj hlists
  | apart hn htext =>
    rw [htext, htext, Except.ok.injEq] at hsame
    have hlists := congrArg String.toList hsame
    simp only [String.toList_append, toList_hexPadded] at hlists
    subst hn
    have hlength : ∀ m < 256, (paddedDigits 2 m).length = 2 := by
      intro m hm
      exact length_paddedDigits_of_lt (by decide) hm
    obtain ⟨hlow, hhigh⟩ := List.append_inj hlists (by
      simp [hlength (v.toNat % 256) (by omega), hlength (w.toNat % 256) (by omega)])
    simp only [List.append_cancel_left_eq, List.append_cancel_right_eq] at hlow
    have hmod := paddedDigits_inj hlow
    have hdiv := paddedDigits_inj hhigh
    omega

def lengths (op : Opcode) : List Nat :=
  [⟨true, true⟩, ⟨false, false⟩].filterMap fun p => (op.operandLength p).toOption

theorem operandLength_cases (op : Opcode) (p : Flags) :
    op.operandLength p = op.operandLength ⟨true, true⟩ ∨
      op.operandLength p = op.operandLength ⟨false, false⟩ := by
  have himmediate : immediateLength op p = immediateLength op ⟨true, true⟩ ∨
      immediateLength op p = immediateLength op ⟨false, false⟩ := by
    grind [immediateLength]
  unfold operandLength
  split
  · exact .inl rfl
  · exact .inl rfl
  · exact himmediate.imp (congrArg Except.ok) (congrArg Except.ok)
  all_goals exact .inl rfl

theorem mem_lengths (hn : op.operandLength p = .ok n) : n ∈ op.lengths := by
  rw [lengths, List.mem_filterMap]
  rcases operandLength_cases op p with heq | heq
  · exact ⟨⟨true, true⟩, by simp, by rw [← heq, hn]; rfl⟩
  · exact ⟨⟨false, false⟩, by simp, by rw [← heq, hn]; rfl⟩

/-- How an operand of `n` bytes is written, with zeros for its digits. -/
def form? (op : Opcode) (n : Nat) : Option (List Char) :=
  (op.operandText 0 n).toOption.map fun text => text.toList.map zeroDigit

/-- The opcodes that share a mnemonic in the catalogue have operands of different forms, each for
every length it may have. -/
theorem form?_catalogue : ∀ g ∈ Catalogue.groups, ∀ d ∈ g.opcodes, ∀ n ∈ (g.opcode d).lengths,
    ((g.opcode d).form? n).isSome = true ∧
      ∀ d' ∈ g.opcodes, ∀ n' ∈ (g.opcode d').lengths,
        (g.opcode d).form? n = (g.opcode d').form? n' → d = d' ∧ n = n' := by
  decide +kernel

theorem mnemonic_catalogue :
    (Catalogue.groups.map (·.mnemonic)).Nodup ∧
      ∀ g ∈ Catalogue.groups, ' ' ∉ g.mnemonic.toList := by
  decide +kernel

/-- The branches and the calls of the catalogue have modes that can name a target. -/
theorem canJump_catalogue : ∀ g ∈ Catalogue.groups, ∀ d ∈ g.opcodes,
    (g.opcode d).attributes.hasAny (.branch ∪ .call) = true →
      (g.opcode d).isControlTransfer = true ∧ d.mode.canJump = true := by
  decide +kernel

end Opcode

theorem Mode.exists_target {mode : Mode} (h : mode.canJump = true) (address value next : Address) :
    ∃ target, mode.target address value next = .ok target := by
  cases mode with
  | direct | absolute | absoluteLong | relative | absoluteIndexedIndirect => exact ⟨_, rfl⟩
  | _ => cases h

end Processor

namespace Instruction

/-- The opcode of an instruction is in a group of the catalogue, and its operand is a number that
fits in `n` bytes and can be written. -/
structure Catalogued (i : Instruction) (g : Group) (d : Description) (n : Nat) : Prop where
  group_mem : g ∈ Catalogue.groups
  mem : d ∈ g.opcodes
  opcode_eq : i.opcode = g.opcode d
  length_mem : n ∈ i.opcode.lengths
  length_eq : i.operand.length = n
  value_lt : i.operand.value.toNat < 256 ^ n
  written : i.opcode.Written n

variable {i : Instruction} {g : Group} {d : Description} {n : Nat}

theorem catalogued_of_decode {p : Flags} {c e : Cursor}
    (h : decode Table.standard p c = .ok (i, e)) : ∃ g d n, i.Catalogued g d n := by
  obtain ⟨value, hfind⟩ := exists_find?_of_decode h
  obtain ⟨g, hg, d, hd, -, hop⟩ := Table.find?_standard.1 hfind
  obtain ⟨hlength, hnonneg⟩ := operandLength_of_decode h
  obtain ⟨-, -, -, hlt⟩ := holds_of_decode Table.ofGroups_catalogue h
  have hmem := Opcode.mem_lengths hlength
  obtain ⟨z, hz⟩ : ∃ z, i.opcode.operandText 0 i.operand.length.toNat = .ok z := by
    have hsome := (Opcode.form?_catalogue g hg d hd _ (hop ▸ hmem)).1
    rw [hop, Opcode.form?] at hsome
    cases htext : i.opcode.operandText 0 i.operand.length.toNat with
    | ok z => exact ⟨z, rfl⟩
    | error e =>
      rw [htext] at hsome
      cases hsome
  exact ⟨g, d, _, hg, hd, hop.symm, hmem, by omega, hlt, Opcode.written hlength hz⟩

theorem Catalogued.exists_operandPart (h : i.Catalogued g d n) :
    ∃ operand, i.opcode.operandText i.operand.value n = .ok operand ∧ ' ' ∉ operand.toList ∧
      i.operandPart = .ok (if i.opcode.mode = .none then "" else " " ++ operand) := by
  obtain ⟨operand, htext, hblank⟩ := h.written.exists_text i.operand.value
  refine ⟨operand, htext, hblank, ?_⟩
  unfold operandPart
  split
  · rfl
  · rw [h.length_eq, htext]
    rfl

/-- The target of a catalogued instruction is known or left out; it is a word of its own. -/
theorem Catalogued.exists_targetPart (h : i.Catalogued g d n) :
    ∃ target, i.targetPart = .ok target ∧ (splitWord target.toList).1 = [] ∧
      (i.opcode.mode = .none → target = "") := by
  unfold targetPart
  split
  · next hany =>
    rw [h.opcode_eq] at hany
    obtain ⟨htransfer, hjump⟩ := Opcode.canJump_catalogue g h.group_mem d h.mem hany
    rw [← h.opcode_eq] at htransfer
    have hmode : i.opcode.mode = d.mode := by rw [h.opcode_eq]; rfl
    rw [← hmode] at hjump
    obtain ⟨target, htarget⟩ :=
      Mode.exists_target hjump i.address i.operand.value i.nextAddress
    have hnone : i.opcode.mode ≠ .none := by
      intro hmode
      rw [hmode] at hjump
      cases hjump
    rw [Instruction.target, if_pos htransfer, htarget, during_ok]
    cases target with
    | none => exact ⟨"", rfl, rfl, fun _ => rfl⟩
    | some target =>
      refine ⟨" [" ++ hexAddress target ++ "]", rfl, ?_, fun hmode => absurd hmode hnone⟩
      rw [String.append_assoc, String.toList_append]
      exact congrArg Prod.fst (splitWord_blank _)
  · exact ⟨"", rfl, rfl, fun _ => rfl⟩

theorem text_of_parts {operand target : String} (hoperand : i.operandPart = .ok operand)
    (htarget : i.targetPart = .ok target) (showAddress : Bool) :
    i.text showAddress = .ok ((if showAddress then hexAddress i.address ++ " " else "") ++
      i.opcode.mnemonic ++ operand ++ target) := by
  rw [text, hoperand, htarget]
  rfl

theorem Catalogued.exists_text (h : i.Catalogued g d n) (showAddress : Bool) :
    ∃ s, i.text showAddress = .ok s := by
  obtain ⟨operand, -, -, hoperand⟩ := h.exists_operandPart
  obtain ⟨target, htarget, -⟩ := h.exists_targetPart
  exact ⟨_, text_of_parts hoperand htarget showAddress⟩

/-- The first word of the text of a catalogued instruction is the mnemonic, the second the
operand. -/
theorem Catalogued.words_of_text (h : i.Catalogued g d n) {s : String} (hs : i.text false = .ok s) :
    ∃ operand rest, i.opcode.operandText i.operand.value n = .ok operand ∧
      splitWord s.toList = (g.mnemonic.toList, rest) ∧ (splitWord rest).1 = operand.toList := by
  obtain ⟨operand, htext, hblank, hoperand⟩ := h.exists_operandPart
  obtain ⟨target, htarget, hword, hnone⟩ := h.exists_targetPart
  have hmnemonic := Opcode.mnemonic_catalogue.2 g h.group_mem
  have hname : i.opcode.mnemonic = g.mnemonic := by rw [h.opcode_eq]; rfl
  obtain rfl := Except.ok.inj ((text_of_parts hoperand htarget false).symm.trans hs)
  rw [hname]
  by_cases hmode : i.opcode.mode = .none
  · have hempty : "" = operand := by
      simpa only [Opcode.operandText, hmode, Except.ok.injEq] using htext
    refine ⟨operand, [], htext, ?_, by rw [← hempty]; rfl⟩
    rw [if_pos hmode, hnone hmode]
    simpa using splitWord_append hmnemonic []
  · refine ⟨operand, operand.toList ++ target.toList, htext, ?_, ?_⟩
    · rw [if_neg hmode]
      simpa using splitWord_append hmnemonic (' ' :: (operand.toList ++ target.toList))
    · rw [splitWord_append hblank, hword, List.append_nil]

theorem Catalogued.form?_eq (h : i.Catalogued g d n) {operand : String}
    (htext : i.opcode.operandText i.operand.value n = .ok operand) :
    (g.opcode d).form? n = some (operand.toList.map zeroDigit) := by
  obtain ⟨z, hz, -⟩ := h.written.exists_text 0
  have hzero : (0 : UInt32).toNat < 256 ^ n := Nat.pow_pos (by decide)
  rw [← h.opcode_eq, Opcode.form?, hz, h.written.form_eq h.value_lt hzero htext hz]
  rfl

/-- The text of a catalogued instruction determines its opcode and its operand. -/
theorem Catalogued.eq_of_text {j : Instruction} {g' : Group} {d' : Description} {m : Nat}
    (hi : i.Catalogued g d n) (hj : j.Catalogued g' d' m) (htext : i.text false = j.text false) :
    i.opcode = j.opcode ∧ i.operand.value = j.operand.value ∧
      i.operand.length = j.operand.length := by
  obtain ⟨s, hs⟩ := hi.exists_text false
  obtain ⟨operand, rest, hoperand, hwords, hword⟩ := hi.words_of_text hs
  obtain ⟨operand', rest', hoperand', hwords', hword'⟩ := hj.words_of_text (htext.symm.trans hs)
  obtain ⟨hmnemonic, rfl⟩ := Prod.mk.inj (hwords.symm.trans hwords')
  obtain rfl : operand = operand' := String.toList_inj.1 (hword.symm.trans hword')
  obtain rfl : g = g' := List.inj_on_of_nodup_map Opcode.mnemonic_catalogue.1 hi.group_mem
    hj.group_mem (String.toList_inj.1 hmnemonic)
  -- the form tells the opcode and the length, and then the digits tell the value
  have hforms := (hi.form?_eq hoperand).trans (hj.form?_eq hoperand').symm
  obtain ⟨rfl, rfl⟩ := (Opcode.form?_catalogue g hi.group_mem d hi.mem n
    (hi.opcode_eq ▸ hi.length_mem)).2 d' hj.mem m (hj.opcode_eq ▸ hj.length_mem) hforms
  have hopcode : i.opcode = j.opcode := hi.opcode_eq.trans hj.opcode_eq.symm
  rw [← hopcode] at hoperand'
  exact ⟨hopcode, hi.written.operand_eq hi.value_lt hj.value_lt hoperand hoperand',
    hi.length_eq.trans hj.length_eq.symm⟩

/-- Every instruction that is decoded with the standard table has an assembly text, with and without
its address, and the text without the address determines the opcode and the operand with its
length, wherever and with whatever flags the instruction was decoded. -/
theorem text_of_decode {p : Flags} {c e : Cursor} (h : decode Table.standard p c = .ok (i, e)) :
    (∃ s, i.text false = .ok s) ∧ (∃ s, i.text true = .ok s) ∧
      ∀ (q : Flags) (b f : Cursor) (j : Instruction), decode Table.standard q b = .ok (j, f) →
        i.text false = j.text false →
          i.opcode = j.opcode ∧ i.operand.value = j.operand.value ∧
            i.operand.length = j.operand.length := by
  obtain ⟨g, d, n, hi⟩ := catalogued_of_decode h
  refine ⟨hi.exists_text false, hi.exists_text true, ?_⟩
  intro q b f j hj htext
  obtain ⟨g', d', m, hj⟩ := catalogued_of_decode hj
  exact hi.eq_of_text hj htext

/-- The same bytes under different flags: the load of a byte and the load of a word with the same
value have different texts. -/
theorem text_of_decode_load :
    ∃ c d e : Cursor, decode Table.standard { m := true } c = .ok (⟨0xC00000, .lda, ⟨0x34, 1⟩⟩, d) ∧
      decode Table.standard {} c = .ok (⟨0xC00000, .lda, ⟨0x34, 2⟩⟩, e) ∧
      (∃ s, text ⟨0xC00000, .lda, ⟨0x34, 1⟩⟩ false = .ok s ∧
        text ⟨0xC00000, .lda, ⟨0x34, 2⟩⟩ false ≠ .ok s) ∧
      ∃ s, text ⟨0xC00000, .lda, ⟨0x34, 1⟩⟩ true = .ok s := by
  have hbyte := decode_of_parts (c := ⟨#[0xA9, 0x34, 0x00], .hiRom, 0, none⟩)
    (p := { m := true }) rfl Opcode.find?_lda rfl
  have hword := decode_of_parts (c := ⟨#[0xA9, 0x34, 0x00], .hiRom, 0, none⟩)
    (p := {}) rfl Opcode.find?_lda rfl
  obtain ⟨⟨s, hs⟩, hlong, hsame⟩ := text_of_decode hbyte
  refine ⟨_, _, _, hbyte, hword, ⟨s, hs, ?_⟩, hlong⟩
  intro hs'
  obtain ⟨-, -, hlength⟩ := hsame _ _ _ _ hword (hs.trans hs'.symm)
  exact absurd hlength (by decide)

end Instruction

end CartFlow
