import CartFlow.Output.Json
import CartFlow.Proofs.Text.Hexadecimal
import CartFlow.Proofs.Text.Numerals
import CartFlow.Settings.AddressText
import CartFlow.Settings.Schema
import Mathlib.Computability.Language
import Mathlib.Data.Bool.AllAny

/-!
# Which texts are addresses

The schema of settings files describes addresses by a pattern: up to six hexadecimal digits, which
`0x` or `$` may stand in front of. All of these texts are addresses, and with `0x` or `$` they are
read as what their digits stand for. Without, a text is read as a literal first. Whatever it is read
as, six digits do not leave the range of addresses. Hexadecimal digits with letters among them are
no literal and so read in base sixteen, unless the letter is the base mark of a binary literal.
-/
namespace CartFlow

open Text

/-- A description of texts: given characters, one text behind another, one of two, or a number of
characters from some ranges. -/
inductive Pattern
  | word (cs : List Char)
  | sequence (p q : Pattern)
  | choice (p q : Pattern)
  | optional (p : Pattern)
  | repeated (ranges : List (Char × Char)) (least most : Nat)

namespace Pattern

def text : Pattern → String
  | word cs => String.join (cs.map fun c => if c = '$' then "\\$" else String.singleton c)
  | sequence p q => p.text ++ q.text
  | choice p q => p.text ++ "|" ++ q.text
  | optional p => "(" ++ p.text ++ ")?"
  | repeated ranges least most =>
    "[" ++ String.join (ranges.map fun (first, last) => String.ofList [first, '-', last]) ++
      "]\x7b" ++ toString least ++ "," ++ toString most ++ "\x7d"

def language : Pattern → Language Char
  | word cs => {cs}
  | sequence p q => p.language * q.language
  | choice p q => p.language + q.language
  | optional p => 1 + p.language
  | repeated ranges least most =>
    {cs | least ≤ cs.length ∧ cs.length ≤ most ∧ ∀ c ∈ cs, ∃ r ∈ ranges, r.1 ≤ c ∧ c ≤ r.2}

end Pattern

namespace Text

theorem trim_append {left cs right : List Char} (hleft : ∀ c ∈ left, isBlank c = true)
    (hright : ∀ c ∈ right, isBlank c = true) (hne : cs ≠ [])
    (hcs : ∀ c ∈ cs, isBlank c = false) : trim (left ++ cs ++ right) = cs := by
  have hkeep : ∀ {l : List Char}, (∀ c ∈ l, isBlank c = false) → l.dropWhile isBlank = l := by
    intro l hl
    cases l with
    | nil => rfl
    | cons c l => exact List.dropWhile_cons_of_neg (by simp [hl])
  obtain ⟨c, rest, rfl⟩ := List.exists_cons_of_ne_nil hne
  have hfirst : (c :: rest ++ right).dropWhile isBlank = c :: rest ++ right :=
    List.dropWhile_cons_of_neg (by simp [hcs])
  rw [trim, List.append_assoc, List.dropWhile_append_of_pos hleft, hfirst, List.reverse_append,
    List.dropWhile_append_of_pos (by simpa using hright),
    hkeep fun c hc => hcs c (List.mem_reverse.1 hc), List.reverse_reverse]

theorem IsHexDigit.isBlank_eq : ∀ c, IsHexDigit c → isBlank c = false := by
  apply IsHexDigit.forall_of_lt
  decide +kernel

end Text

namespace Address

variable {cs digits left right : List Char} {n : Nat}

def markPattern : Pattern :=
  .optional (.choice (.word ['0', 'x']) (.word ['$']))

def digitsPattern : Pattern :=
  .repeated [('0', '9'), ('A', 'F'), ('a', 'f')] 1 6

def pattern : Pattern :=
  .sequence markPattern digitsPattern

/-- One to six hexadecimal digits. -/
structure IsDigits (cs : List Char) : Prop where
  ne_nil : cs ≠ []
  length_le : cs.length ≤ 6
  isHexDigit : ∀ c ∈ cs, IsHexDigit c

theorem mem_markPattern :
    cs ∈ markPattern.language ↔ cs = [] ∨ cs = ['0', 'x'] ∨ cs = ['$'] :=
  Iff.rfl

theorem mem_digitsPattern : cs ∈ digitsPattern.language ↔ IsDigits cs := by
  constructor
  · rintro ⟨hleast, hmost, hranges⟩
    refine ⟨List.ne_nil_of_length_pos hleast, hmost, fun c hc => ?_⟩
    simpa [IsHexDigit, IsHexLetter] using hranges c hc
  · rintro ⟨hne, hmost, hhex⟩
    refine ⟨List.length_pos_of_ne_nil hne, hmost, fun c hc => ?_⟩
    simpa [IsHexDigit, IsHexLetter] using hhex c hc

theorem mem_pattern :
    cs ∈ pattern.language ↔
      ∃ digits, IsDigits digits ∧
        (cs = digits ∨ cs = '0' :: 'x' :: digits ∨ cs = '$' :: digits) := by
  rw [pattern, Pattern.language, Language.mem_mul]
  constructor
  · rintro ⟨mark, hmark, digits, hdigits, rfl⟩
    refine ⟨digits, mem_digitsPattern.1 hdigits, ?_⟩
    rcases mem_markPattern.1 hmark with rfl | rfl | rfl <;> simp
  · rintro ⟨digits, hdigits, hcs⟩
    have hdigits := mem_digitsPattern.2 hdigits
    rcases hcs with rfl | rfl | rfl
    · exact ⟨[], mem_markPattern.2 (by simp), cs, hdigits, rfl⟩
    · exact ⟨['0', 'x'], mem_markPattern.2 (by simp), digits, hdigits, rfl⟩
    · exact ⟨['$'], mem_markPattern.2 (by simp), digits, hdigits, rfl⟩

theorem IsDigits.pow_le (h : IsDigits digits) : 16 ^ digits.length ≤ largest + 1 :=
  Nat.pow_le_pow_right (by decide) h.length_le

theorem IsDigits.placeValue_le (h : IsDigits digits) : placeValue 16 digits ≤ largest := by
  have hlt := placeValue_lt (by decide) fun c hc => IsHexDigit.digitOf_lt c (h.isHexDigit c hc)
  have hle := h.pow_le
  omega

theorem numberOf_marked (h : IsDigits digits) :
    numberOf ('0' :: 'x' :: digits) = some (placeValue 16 digits) := by
  have hlimit : 16 ^ digits.length ≤ UInt32.size := Nat.le_trans h.pow_le (by decide)
  have hbase : Numeral.baseOf ('0' :: 'x' :: digits) = (16, digits) := by
    obtain ⟨d, rest, rfl⟩ := List.exists_cons_of_ne_nil h.ne_nil
    rfl
  have hmark : '_' ∉ '0' :: 'x' :: digits := by
    intro hmem
    rw [List.mem_cons, List.mem_cons] at hmem
    rcases hmem with hmem | hmem | hmem
    · exact absurd hmem (by decide)
    · exact absurd hmem (by decide)
    · exact absurd (h.isHexDigit _ hmem) (by decide)
  rw [numberOf, Numeral.readLiteral_of_readDigits (by simp) hmark hbase
    (Numeral.readDigits_of_isHexDigit _ h.isHexDigit hlimit)]

/-- Digits that are no literal stand for what they stand for in base sixteen. -/
theorem numberOf_of_not_literal (h : IsDigits digits)
    (hliteral : ∀ n, Numeral.readLiteral UInt32.size digits ≠ .ok n) :
    numberOf digits = some (placeValue 16 digits) := by
  have hlimit : 16 ^ digits.length ≤ UInt32.size := Nat.le_trans h.pow_le (by decide)
  have hread : Numeral.readBase 16 UInt32.size digits = .ok (placeValue 16 digits) := by
    obtain ⟨d, rest, rfl⟩ := List.exists_cons_of_ne_nil h.ne_nil
    exact Numeral.readDigits_of_isHexDigit _ h.isHexDigit hlimit
  rw [numberOf]
  split
  · next n hok => exact absurd hok (hliteral n)
  · rw [hread]
    rfl

/-- Digits without a mark stand for an address, whether they are a literal or not. -/
theorem exists_numberOf (h : IsDigits digits) : ∃ n ≤ largest, numberOf digits = some n := by
  by_cases hliteral : ∃ n, Numeral.readLiteral UInt32.size digits = .ok n
  · obtain ⟨n, hn⟩ := hliteral
    have hlt := Numeral.readLiteral_lt_pow hn
    have hle := h.pow_le
    exact ⟨n, by omega, by rw [numberOf, hn]⟩
  · exact ⟨_, h.placeValue_le, numberOf_of_not_literal h (not_exists.1 hliteral)⟩

theorem ofText_of_numberOf {text : String} (hspelled : spelled text.toList = cs)
    (hnumber : numberOf cs = some n) (hn : n ≤ largest) : ofText text = .ok (UInt32.ofNat n) := by
  simp [ofText, hspelled, hnumber, hn]

theorem toNat_ofNat_of_le (hn : n ≤ largest) : (UInt32.ofNat n).toNat = n := by
  apply UInt32.toNat_ofNat_of_lt'
  exact Nat.lt_of_le_of_lt hn (by decide)

/-- Of a text between white space, a leading `$` is spelled in another way and nothing else. -/
theorem spelled_append (hleft : ∀ c ∈ left, isBlank c = true)
    (hright : ∀ c ∈ right, isBlank c = true) (h : IsDigits digits) :
    spelled (left ++ digits ++ right) = digits ∧
      spelled (left ++ '0' :: 'x' :: digits ++ right) = '0' :: 'x' :: digits ∧
      spelled (left ++ '$' :: digits ++ right) = '0' :: 'x' :: digits := by
  have hblank : ∀ c ∈ digits, isBlank c = false :=
    fun c hc => IsHexDigit.isBlank_eq c (h.isHexDigit c hc)
  have hmarked : ∀ c ∈ '0' :: 'x' :: digits, isBlank c = false :=
    List.forall_mem_cons.2 ⟨by decide, List.forall_mem_cons.2 ⟨by decide, hblank⟩⟩
  have hdollar : ∀ c ∈ '$' :: digits, isBlank c = false :=
    List.forall_mem_cons.2 ⟨by decide, hblank⟩
  refine ⟨?_, ?_, ?_⟩
  · rw [spelled, trim_append hleft hright h.ne_nil hblank]
    split
    · exact absurd (h.isHexDigit '$' (by simp)) (by decide)
    · rfl
  · rw [spelled, trim_append hleft hright (by simp) hmarked]
    rfl
  · rw [spelled, trim_append hleft hright (by simp) hdollar]
    rfl

/-- Every text that the pattern describes is an address, also between white space. Behind `0x` or
`$` it is the one that the digits stand for. -/
theorem exists_ofText_of_mem_pattern (left right : List Char)
    (hleft : ∀ c ∈ left, isBlank c = true) (hright : ∀ c ∈ right, isBlank c = true)
    (hcs : cs ∈ pattern.language) :
    ∃ a, ofText (String.ofList (left ++ cs ++ right)) = .ok a ∧
      ∀ digits, cs = '0' :: 'x' :: digits ∨ cs = '$' :: digits →
        a.toNat = placeValue 16 digits := by
  obtain ⟨digits, hdigits, hcs⟩ := mem_pattern.1 hcs
  obtain ⟨hplain, hmarked, hdollar⟩ := spelled_append hleft hright hdigits
  have hvalue := hdigits.placeValue_le
  have hnumber := numberOf_marked hdigits
  rcases hcs with rfl | rfl | rfl
  · obtain ⟨n, hn, hnumber⟩ := exists_numberOf hdigits
    refine ⟨_, ofText_of_numberOf (by rw [String.toList_ofList, hplain]) hnumber hn, ?_⟩
    rintro digits (rfl | rfl)
    · exact absurd (hdigits.isHexDigit 'x' (by simp)) (by decide)
    · exact absurd (hdigits.isHexDigit '$' (by simp)) (by decide)
  · refine ⟨_, ofText_of_numberOf (by rw [String.toList_ofList, hmarked]) hnumber hvalue, ?_⟩
    rintro other (heq | heq)
    · cases heq
      exact toNat_ofNat_of_le hvalue
    · cases heq
  · refine ⟨_, ofText_of_numberOf (by rw [String.toList_ofList, hdollar]) hnumber hvalue, ?_⟩
    rintro other (heq | heq)
    · cases heq
    · cases heq
      exact toNat_ofNat_of_le hvalue

theorem isDigits_paddedDigits {n : Nat} (hn : n ≤ largest) : IsDigits (paddedDigits 6 n) := by
  have hlength : (paddedDigits 6 n).length = 6 :=
    length_paddedDigits_of_lt (by decide) (Nat.lt_succ_of_le hn)
  exact ⟨List.ne_nil_of_length_pos (by omega), by omega, forall_mem_paddedDigits (by decide)⟩

/-- The text of an address is one that the pattern describes, and it can be read back. -/
theorem ofText_toText {a : Address} (ha : a.toNat ≤ largest) :
    (toText a).toList ∈ pattern.language ∧ ofText (toText a) = .ok a := by
  have hdigits := isDigits_paddedDigits ha
  have htext : (toText a).toList = '0' :: 'x' :: paddedDigits 6 a.toNat := by
    simp [toText, hexAddress]
  have hmem : (toText a).toList ∈ pattern.language :=
    mem_pattern.2 ⟨_, hdigits, .inr (.inl htext)⟩
  have hvalue : placeValue 16 (paddedDigits 6 a.toNat) = a.toNat := by
    have hplaces := Numeral.readDigits_of_isHexDigit false hdigits.isHexDigit hdigits.pow_le
    rw [readDigits_paddedDigits 6 (Nat.lt_succ_of_le ha)] at hplaces
    exact (Except.ok.inj hplaces).symm
  refine ⟨hmem, ?_⟩
  obtain ⟨b, hb, hnumber⟩ := exists_ofText_of_mem_pattern [] [] (by simp) (by simp) hmem
  have heq := hnumber _ (.inl htext)
  rw [hvalue, UInt32.toNat_inj] at heq
  simpa [heq] using hb

/-- Addresses and the pattern of the schema belong together: the text of each address up to the
largest is described by the pattern and read back as this address, every text that the pattern
describes is an address, also between white space, and behind `0x` or `$` it is the one that its
digits stand for. No text at all stands for more than the largest address. -/
theorem text_agrees_with_schema :
    "      \"pattern\": " ++ JsonText.stringText .document ("^" ++ pattern.text ++ "$") ++ "," ∈
        Settings.schemaLines ∧
      (∀ a : Address, a.toNat ≤ largest →
        (toText a).toList ∈ pattern.language ∧ ofText (toText a) = .ok a) ∧
      (∀ left cs right, (∀ c ∈ left, isBlank c = true) → (∀ c ∈ right, isBlank c = true) →
        cs ∈ pattern.language → ∃ a, ofText (String.ofList (left ++ cs ++ right)) = .ok a ∧
          ∀ digits, cs = '0' :: 'x' :: digits ∨ cs = '$' :: digits →
            a.toNat = placeValue 16 digits) ∧
      ∀ text a, ofText text = .ok a → a.toNat ≤ largest := by
  refine ⟨?_, fun a ha => ofText_toText ha, ?_, fun text a h => toNat_le_of_ofText h⟩
  · decide +kernel
  · intro left cs right hleft hright hcs
    exact exists_ofText_of_mem_pattern left right hleft hright hcs

theorem spelled_of_isDigits (h : IsDigits digits) :
    spelled (String.ofList digits).toList = digits := by
  have hspelled := (spelled_append (List.forall_mem_nil _) (List.forall_mem_nil _) h).1
  simpa using hspelled

theorem ofText_of_isBinary {mark : Char} (hlength : ('0' :: mark :: digits).length ≤ 6)
    (hmark : mark = 'b' ∨ mark = 'B') (hne : digits ≠ [])
    (hdigits : ∀ c ∈ digits, c = '0' ∨ c = '1') :
    ofText (String.ofList ('0' :: mark :: digits)) = .ok (UInt32.ofNat (placeValue 2 digits)) := by
  have hhex : IsDigits ('0' :: mark :: digits) := by
    refine ⟨by simp, hlength, ?_⟩
    refine List.forall_mem_cons.2 ⟨by decide, List.forall_mem_cons.2 ⟨?_, ?_⟩⟩
    · rcases hmark with rfl | rfl <;> decide
    · intro c hc
      rcases hdigits c hc with rfl | rfl <;> decide
  have hpow : 2 ^ digits.length ≤ 2 ^ 4 :=
    Nat.pow_le_pow_right (by decide) (by simp only [List.length_cons] at hlength; omega)
  have hlimit : 2 ^ digits.length ≤ UInt32.size := Nat.le_trans hpow (by decide)
  have hlt := Numeral.placeValue_lt_two_pow hdigits
  apply ofText_of_numberOf (spelled_of_isDigits hhex)
  · rw [numberOf, Numeral.readLiteral_of_isBinary hmark hne hdigits hlimit]
  · simp only [largest]
    omega

/-- The base mark alone counts for more as a digit than the binary digits behind it. -/
theorem placeValue_lt_of_isBinary {mark : Char} (hmark : mark = 'b' ∨ mark = 'B')
    (hdigits : ∀ c ∈ digits, c = '0' ∨ c = '1') :
    placeValue 2 digits < placeValue 16 ('0' :: mark :: digits) := by
  have heleven : digitOf mark = 11 := by
    rcases hmark with rfl | rfl <;> decide
  have hlt := Numeral.placeValue_lt_two_pow hdigits
  have hpow : 2 ^ digits.length ≤ 16 ^ digits.length := Nat.pow_le_pow_left (by decide) _
  rw [placeValue_cons, placeValue_cons, heleven]
  omega

/-- Digits with letters among them are read in base sixteen exactly if they are no binary literal.
Of a binary literal the digits behind its base mark are read, in base two. -/
theorem ofText_letters_iff (hlength : cs.length ≤ 6) (hcs : ∀ c ∈ cs, IsHexDigit c)
    (hletter : ∃ c ∈ cs, IsHexLetter c) :
    (ofText (String.ofList cs) = .ok (UInt32.ofNat (placeValue 16 cs)) ↔ ¬ Numeral.IsBinary cs) ∧
      ∀ mark digits, cs = '0' :: mark :: digits → Numeral.IsBinary cs →
        ofText (String.ofList cs) = .ok (UInt32.ofNat (placeValue 2 digits)) := by
  obtain ⟨letter, hmem, -⟩ := id hletter
  have hdigits : IsDigits cs := ⟨List.ne_nil_of_mem hmem, hlength, hcs⟩
  have hsmall := hdigits.placeValue_le
  refine ⟨⟨?_, ?_⟩, ?_⟩
  · rintro hread ⟨mark, digits, hmark, hne, hbinary, rfl⟩
    have hless := placeValue_lt_of_isBinary hmark hbinary
    rw [ofText_of_isBinary hlength hmark hne hbinary, Except.ok.injEq,
      ← UInt32.toNat_inj, toNat_ofNat_of_le (by omega), toNat_ofNat_of_le hsmall] at hread
    omega
  · intro hbinary
    apply ofText_of_numberOf (spelled_of_isDigits hdigits) _ hsmall
    apply numberOf_of_not_literal hdigits
    intro n hn
    exact hbinary (Numeral.isBinary_of_readLiteral hcs hletter hn)
  · rintro mark digits rfl ⟨_, _, hmark, hne, hbinary, heq⟩
    cases heq
    exact ofText_of_isBinary hlength hmark hne hbinary

/-- An address without a mark in front. -/
theorem ofText_letters_bare :
    ofText "C0FF28" = .ok 0xC0FF28 ∧ ¬ Numeral.IsBinary "C0FF28".toList := by
  have hbinary : ¬ Numeral.IsBinary "C0FF28".toList := by
    rintro ⟨mark, digits, -, -, -, heq⟩
    cases heq
  have hdigits : ∀ c ∈ "C0FF28".toList, IsHexDigit c := List.all_iff_forall_prop.1 (by decide)
  have hletter : ∃ c ∈ "C0FF28".toList, IsHexLetter c := ⟨'C', by decide, by decide⟩
  have hiff := (ofText_letters_iff (by decide) hdigits hletter).1
  exact ⟨hiff.2 hbinary, hbinary⟩

/-- Of `0B1010` the base mark is not read as a digit. -/
theorem ofText_letters_binary :
    ofText "0B1010" = .ok 10 ∧ placeValue 16 "0B1010".toList = 0x0B1010 ∧
      ¬ ∀ cs : List Char, 1 ≤ cs.length → cs.length ≤ 6 → (∀ c ∈ cs, IsHexDigit c) →
        (∃ c ∈ cs, IsHexLetter c) →
        ofText (String.ofList cs) = .ok (UInt32.ofNat (placeValue 16 cs)) := by
  have hread : ofText "0B1010" = .ok 10 := by decide +kernel
  refine ⟨hread, by decide, fun hall => ?_⟩
  have hdigits : ∀ c ∈ "0B1010".toList, IsHexDigit c := List.all_iff_forall_prop.1 (by decide)
  have hletter : ∃ c ∈ "0B1010".toList, IsHexLetter c := ⟨'B', by decide, by decide⟩
  have hhex := hall _ (by decide) (by decide) hdigits hletter
  rw [String.ofList_toList, hread] at hhex
  revert hhex
  decide

end Address

end CartFlow
