import CartFlow.Text.Numeral
import Mathlib.Data.Nat.Digits.Lemmas

/-!
# The numbers that literals stand for

Digits stand for a number by their places. Reading them gives this number as long as it is below
the limit. What a literal stands for therefore depends on its base only, and the base on the first
two characters. A literal without a base mark is octal or decimal, so it has no letters; a literal
that consists of hexadecimal digits, with letters among them, can only be a binary one, whose base
mark is a hexadecimal digit too.
-/
namespace CartFlow.Text

/-- The digits of bases up to sixteen in the order of their values. -/
def digitAlphabet : List Char := "0123456789ABCDEF".toList

def digitOf (c : Char) : Nat :=
  digitAlphabet.idxOf c.toUpper

/-- The number that digits stand for, the most significant one first. -/
def placeValue (base : Nat) (cs : List Char) : Nat :=
  Nat.ofDigits base (cs.reverse.map digitOf)

theorem placeValue_cons (base : Nat) (c : Char) (cs : List Char) :
    placeValue base (c :: cs) = digitOf c * base ^ cs.length + placeValue base cs := by
  simp [placeValue, Nat.ofDigits_append, Nat.mul_comm, Nat.add_comm]

theorem placeValue_lt {base : Nat} {cs : List Char} (hbase : 1 < base)
    (hcs : ∀ c ∈ cs, digitOf c < base) : placeValue base cs < base ^ cs.length := by
  have hdigits : ∀ d ∈ cs.reverse.map digitOf, d < base := by simpa using hcs
  have hlt := Nat.ofDigits_lt_base_pow_length hbase hdigits
  simpa [placeValue] using hlt

def IsHexLetter (c : Char) : Prop :=
  'A' ≤ c ∧ c ≤ 'F' ∨ 'a' ≤ c ∧ c ≤ 'f'

def IsHexDigit (c : Char) : Prop :=
  '0' ≤ c ∧ c ≤ '9' ∨ IsHexLetter c

instance : DecidablePred IsHexLetter := fun _ => inferInstanceAs (Decidable (_ ∨ _))

instance : DecidablePred IsHexDigit := fun _ => inferInstanceAs (Decidable (_ ∨ _))

theorem IsHexDigit.toNat_lt {c : Char} (h : IsHexDigit c) : c.toNat < 128 := by
  have hle : ∀ last : Char, last.toNat < 128 → c ≤ last → c.toNat < 128 :=
    fun last hlast hc => Nat.lt_of_le_of_lt hc hlast
  rcases h with ⟨-, h⟩ | ⟨-, h⟩ | ⟨-, h⟩
  · exact hle '9' (by decide) h
  · exact hle 'F' (by decide) h
  · exact hle 'f' (by decide) h

/-- What holds of the hexadecimal digits among the first characters holds of all of them. -/
theorem IsHexDigit.forall_of_lt {p : Char → Prop}
    (h : ∀ n < 128, IsHexDigit (Char.ofNat n) → p (Char.ofNat n)) (c : Char) (hc : IsHexDigit c) :
    p c := by
  have hp := h c.toNat hc.toNat_lt
  rw [Char.ofNat_toNat] at hp
  exact hp hc

theorem IsHexDigit.digitValue?_eq :
    ∀ c, IsHexDigit c → Numeral.digitValue? c = some (digitOf c) := by
  apply IsHexDigit.forall_of_lt
  decide +kernel

theorem IsHexDigit.digitOf_lt : ∀ c, IsHexDigit c → digitOf c < 16 := by
  apply IsHexDigit.forall_of_lt
  decide +kernel

theorem IsHexDigit.le_digitOf : ∀ c, IsHexDigit c → IsHexLetter c → 10 ≤ digitOf c := by
  apply IsHexDigit.forall_of_lt
  decide +kernel

theorem IsHexDigit.eq_of_digitOf_lt_two :
    ∀ c, IsHexDigit c → digitOf c < 2 → c = '0' ∨ c = '1' := by
  apply IsHexDigit.forall_of_lt
  decide +kernel

namespace Numeral

variable {base limit n m : Nat} {separators : Bool} {c : Char} {cs : List Char}

/-- Reading goes on behind a separator or behind a digit that keeps the number below the limit. -/
theorem readDigits_cons_eq_ok (h : readDigits base limit separators n (c :: cs) = .ok m) :
    c = '_' ∧ readDigits base limit separators n cs = .ok m ∨
      ∃ d < base, digitValue? c = some d ∧ n * base + d < limit ∧
        readDigits base limit separators (n * base + d) cs = .ok m := by
  rw [readDigits] at h
  split at h
  · next hmark =>
    rw [Bool.and_eq_true, beq_iff_eq] at hmark
    exact .inl ⟨hmark.2, h⟩
  · split at h
    · cases h
    · next d hd =>
      split at h
      · cases h
      · next hbase =>
        split at h
        · cases h
        · next hlimit => exact .inr ⟨d, by omega, hd, by omega, h⟩

theorem digits_of_readDigits (h : readDigits base limit separators n cs = .ok m) :
    ∀ c ∈ cs, c = '_' ∨ ∃ d < base, digitValue? c = some d := by
  induction cs generalizing n with
  | nil => simp
  | cons c cs ih =>
    rw [List.forall_mem_cons]
    rcases readDigits_cons_eq_ok h with ⟨hmark, h⟩ | ⟨d, hd, hvalue, -, h⟩
    · exact ⟨.inl hmark, ih h⟩
    · exact ⟨.inr ⟨d, hd, hvalue⟩, ih h⟩

theorem readDigits_lt_pow (hbase : 0 < base)
    (h : readDigits base limit separators n cs = .ok m) : m < (n + 1) * base ^ cs.length := by
  induction cs generalizing n with
  | nil =>
    cases h
    simp
  | cons c cs ih =>
    rw [List.length_cons, Nat.pow_succ', ← Nat.mul_assoc]
    rcases readDigits_cons_eq_ok h with ⟨-, h⟩ | ⟨d, hd, -, -, h⟩
    · calc m < (n + 1) * base ^ cs.length := ih h
        _ ≤ (n + 1) * base * base ^ cs.length := by
          gcongr
          exact Nat.le_mul_of_pos_right _ hbase
    · calc m < (n * base + d + 1) * base ^ cs.length := ih h
        _ ≤ (n + 1) * base * base ^ cs.length := by
          gcongr
          rw [Nat.add_mul]
          omega

theorem readDigits_eq_placeValue
    (hcs : ∀ c ∈ cs, digitValue? c = some (digitOf c) ∧ digitOf c < base)
    (hlt : n * base ^ cs.length + placeValue base cs < limit) :
    readDigits base limit separators n cs = .ok (n * base ^ cs.length + placeValue base cs) := by
  induction cs generalizing n with
  | nil => simp [readDigits, placeValue]
  | cons c cs ih =>
    rw [List.forall_mem_cons] at hcs
    obtain ⟨⟨hvalue, hdigit⟩, hcs⟩ := hcs
    have htotal : n * base ^ (c :: cs).length + placeValue base (c :: cs) =
        (n * base + digitOf c) * base ^ cs.length + placeValue base cs := by
      rw [placeValue_cons, List.length_cons, Nat.pow_succ']
      ring
    rw [htotal] at hlt ⊢
    have hmark : c ≠ '_' := by
      rintro rfl
      cases hvalue
    have hpow : 0 < base ^ cs.length := Nat.pow_pos (by omega)
    have hsmall : n * base + digitOf c < limit := by
      have := Nat.le_mul_of_pos_right (n * base + digitOf c) hpow
      omega
    rw [readDigits, hvalue]
    simp only [beq_eq_false_iff_ne.2 hmark, Bool.and_false, Bool.false_eq_true, if_false,
      Nat.not_le.2 hdigit, Nat.not_le.2 hsmall]
    exact ih hcs hlt

theorem readDigits_of_isHexDigit (separators : Bool) (hcs : ∀ c ∈ cs, IsHexDigit c)
    (hlimit : 16 ^ cs.length ≤ limit) :
    readDigits 16 limit separators 0 cs = .ok (placeValue 16 cs) := by
  have hdigits : ∀ c ∈ cs, digitValue? c = some (digitOf c) ∧ digitOf c < 16 :=
    fun c hc => ⟨IsHexDigit.digitValue?_eq c (hcs c hc), IsHexDigit.digitOf_lt c (hcs c hc)⟩
  have hlt := placeValue_lt (by decide) fun c hc => (hdigits c hc).2
  rw [readDigits_eq_placeValue hdigits (by omega), Nat.zero_mul, Nat.zero_add]

/-- The base follows from a zero in front and from a base mark behind it. -/
theorem baseOf_cases (cs : List Char) :
    baseOf cs = (10, cs) ∨ (∃ digits, cs = '0' :: digits ∧ baseOf cs = (8, digits)) ∨
      ∃ mark digits, cs = '0' :: mark :: digits ∧ digits ≠ [] ∧
        ((mark = 'b' ∨ mark = 'B') ∧ baseOf cs = (2, digits) ∨
          (mark = 'o' ∨ mark = 'O') ∧ baseOf cs = (8, digits) ∨
          (mark = 'x' ∨ mark = 'X') ∧ baseOf cs = (16, digits)) := by
  unfold baseOf
  split
  · next mark d rest =>
    split
    · next hmark => exact .inr (.inr ⟨mark, d :: rest, by simp_all⟩)
    · split
      · next hmark => exact .inr (.inr ⟨mark, d :: rest, by simp_all⟩)
      · split
        · next hmark => exact .inr (.inr ⟨mark, d :: rest, by simp_all⟩)
        · exact .inr (.inl ⟨mark :: d :: rest, rfl, rfl⟩)
  · next rest _ => exact .inr (.inl ⟨rest, rfl, rfl⟩)
  · exact .inl rfl

theorem readLiteral_eq_ok (h : readLiteral limit cs = .ok n) :
    readDigits (baseOf cs).1 limit true 0 (baseOf cs).2 = .ok n := by
  unfold readLiteral at h
  split at h
  · cases h
  · dsimp only at h
    split at h
    · cases h
    · next hread =>
      split at h
      · cases h
      · cases h
        exact hread

theorem readLiteral_of_readDigits {digits : List Char} (hne : cs ≠ []) (hmark : '_' ∉ cs)
    (hbase : baseOf cs = (base, digits)) (h : readDigits base limit true 0 digits = .ok n) :
    readLiteral limit cs = .ok n := by
  unfold readLiteral
  split
  · contradiction
  · simp [hbase, h, hmark]

/-- A literal has at most the digits of its text, in a base of at most sixteen. -/
theorem readLiteral_lt_pow (h : readLiteral limit cs = .ok n) : n < 16 ^ cs.length := by
  have hpow : ∀ base digits, 0 < base → base ≤ 16 → digits.length ≤ cs.length →
      baseOf cs = (base, digits) → n < 16 ^ cs.length := by
    intro base digits hpos hbase hlength heq
    have hread := readLiteral_eq_ok h
    rw [heq] at hread
    calc n < (0 + 1) * base ^ digits.length := readDigits_lt_pow hpos hread
      _ = base ^ digits.length := by rw [Nat.zero_add, Nat.one_mul]
      _ ≤ 16 ^ digits.length := Nat.pow_le_pow_left hbase _
      _ ≤ 16 ^ cs.length := Nat.pow_le_pow_right (by decide) hlength
  rcases baseOf_cases cs with heq | ⟨digits, rfl, heq⟩ |
    ⟨mark, digits, rfl, -, ⟨-, heq⟩ | ⟨-, heq⟩ | ⟨-, heq⟩⟩
  all_goals exact hpow _ _ (by decide) (by decide) (by grind) heq

/-- A binary literal: a zero, the base mark, and at least one binary digit. -/
def IsBinary (cs : List Char) : Prop :=
  ∃ mark digits, (mark = 'b' ∨ mark = 'B') ∧ digits ≠ [] ∧ (∀ c ∈ digits, c = '0' ∨ c = '1') ∧
    cs = '0' :: mark :: digits

/-- Hexadecimal digits that can be read in a base are digits of that base. -/
theorem digitOf_lt_of_readDigits (hcs : ∀ c ∈ cs, IsHexDigit c)
    (h : readDigits base limit separators n cs = .ok m) : ∀ c ∈ cs, digitOf c < base := by
  intro c hc
  have hvalue := IsHexDigit.digitValue?_eq c (hcs c hc)
  rcases digits_of_readDigits h c hc with rfl | ⟨d, hd, heq⟩
  · cases hvalue
  · rw [hvalue] at heq
    cases heq
    exact hd

/-- Of the texts of hexadecimal digits with a letter only the binary ones are literals. -/
theorem isBinary_of_readLiteral (hcs : ∀ c ∈ cs, IsHexDigit c) (hletter : ∃ c ∈ cs, IsHexLetter c)
    (h : readLiteral limit cs = .ok n) : IsBinary cs := by
  obtain ⟨letter, hmem, hletter⟩ := hletter
  have hten := IsHexDigit.le_digitOf letter (hcs letter hmem) hletter
  have hread := readLiteral_eq_ok h
  rcases baseOf_cases cs with heq | ⟨digits, rfl, heq⟩ |
    ⟨mark, digits, rfl, hne, ⟨hmark, heq⟩ | ⟨hmark, -⟩ | ⟨hmark, -⟩⟩
  · rw [heq] at hread
    have hlt := digitOf_lt_of_readDigits hcs hread letter hmem
    omega
  · rw [heq] at hread
    rw [List.forall_mem_cons] at hcs
    rcases List.mem_cons.1 hmem with rfl | hmem
    · exact absurd hletter (by decide)
    · have hlt := digitOf_lt_of_readDigits hcs.2 hread letter hmem
      omega
  · rw [heq] at hread
    rw [List.forall_mem_cons, List.forall_mem_cons] at hcs
    refine ⟨mark, digits, hmark, hne, ?_, rfl⟩
    intro c hc
    have hlt := digitOf_lt_of_readDigits hcs.2.2 hread c hc
    exact IsHexDigit.eq_of_digitOf_lt_two c (hcs.2.2 c hc) hlt
  · have hdigit := hcs mark (by simp)
    rcases hmark with rfl | rfl <;> exact absurd hdigit (by decide)
  · have hdigit := hcs mark (by simp)
    rcases hmark with rfl | rfl <;> exact absurd hdigit (by decide)

theorem placeValue_lt_two_pow {digits : List Char} (hdigits : ∀ c ∈ digits, c = '0' ∨ c = '1') :
    placeValue 2 digits < 2 ^ digits.length := by
  apply placeValue_lt (by decide)
  intro c hc
  rcases hdigits c hc with rfl | rfl <;> decide

theorem readLiteral_of_isBinary {mark : Char} {digits : List Char} (hmark : mark = 'b' ∨ mark = 'B')
    (hne : digits ≠ []) (hdigits : ∀ c ∈ digits, c = '0' ∨ c = '1')
    (hlimit : 2 ^ digits.length ≤ limit) :
    readLiteral limit ('0' :: mark :: digits) = .ok (placeValue 2 digits) := by
  have hvalues : ∀ c ∈ digits, digitValue? c = some (digitOf c) ∧ digitOf c < 2 := by
    intro c hc
    rcases hdigits c hc with rfl | rfl <;> decide
  have hlt := placeValue_lt_two_pow hdigits
  have hbase : baseOf ('0' :: mark :: digits) = (2, digits) := by
    obtain ⟨d, rest, rfl⟩ := List.exists_cons_of_ne_nil hne
    rcases hmark with rfl | rfl <;> rfl
  apply readLiteral_of_readDigits (by simp) _ hbase
  · rw [readDigits_eq_placeValue hvalues (by omega), Nat.zero_mul, Nat.zero_add]
  · intro hmem
    rw [List.mem_cons, List.mem_cons] at hmem
    rcases hmem with hmem | hmem | hmem
    · exact absurd hmem (by decide)
    · rcases hmark with rfl | rfl <;> exact absurd hmem (by decide)
    · rcases hdigits _ hmem with heq | heq <;> exact absurd heq (by decide)

end Numeral

end CartFlow.Text
