import CartFlow.Text.Hex
import CartFlow.Text.Numeral
import Mathlib.Algebra.Group.Nat.Defs

/-!
# Hexadecimal digits

A number is read back from its digits, so different numbers have different digits, padded or not.
A number that fits in the width is padded to it exactly. Where only the form of a text matters, each
digit may stand for any other; they are all replaced by zero then. Without padding, numbers are in
the order of their texts if shorter texts come first.
-/
namespace CartFlow.Text

theorem hexDigits_eq_if (n : Nat) :
    hexDigits n = if n < 16 then [(Nat.digitChar n).toUpper]
      else hexDigits (n / 16) ++ [(Nat.digitChar (n % 16)).toUpper] := by
  rw [hexDigits, Nat.toDigits_eq_if (by decide)]
  split
  · rfl
  · rw [List.map_append]
    rfl

theorem readDigits_digit {limit n d : Nat} (hd : d < 16) (hn : n * 16 + d < limit)
    (cs : List Char) :
    Numeral.readDigits 16 limit false n ((Nat.digitChar d).toUpper :: cs) =
      Numeral.readDigits 16 limit false (n * 16 + d) cs := by
  have hvalue : ∀ d < 16, Numeral.digitValue? (Nat.digitChar d).toUpper = some d := by decide
  simp [Numeral.readDigits, hvalue d hd, Nat.not_le.2 hd, Nat.not_le.2 hn]

theorem readDigits_append {base limit n : Nat} {separators : Bool} (cs ds : List Char) :
    Numeral.readDigits base limit separators n (cs ++ ds) =
      (Numeral.readDigits base limit separators n cs).bind
        (Numeral.readDigits base limit separators · ds) := by
  induction cs generalizing n with
  | nil => rfl
  | cons c cs ih =>
    simp only [List.cons_append, Numeral.readDigits]
    split
    · exact ih
    · split
      · rfl
      · split
        · rfl
        · split
          · rfl
          · exact ih

theorem readDigits_hexDigits {limit n : Nat} (hn : n < limit) :
    Numeral.readDigits 16 limit false 0 (hexDigits n) = .ok n := by
  induction n using Nat.strongRecOn with
  | ind n ih =>
    rw [hexDigits_eq_if]
    split
    · next hsmall =>
      rw [readDigits_digit hsmall (by omega), Nat.zero_mul, Nat.zero_add]
      rfl
    · next hlarge =>
      have hnumber : n / 16 * 16 + n % 16 = n := Nat.div_add_mod' n 16
      rw [readDigits_append, ih (n / 16) (by omega) (by omega), Except.bind,
        readDigits_digit (Nat.mod_lt n (by decide)) (by omega), hnumber]
      rfl

theorem readDigits_paddedDigits (width : Nat) {limit n : Nat} (hn : n < limit) :
    Numeral.readDigits 16 limit false 0 (paddedDigits width n) = .ok n := by
  unfold paddedDigits
  generalize width - (hexDigits n).length = zeros
  induction zeros with
  | zero => exact readDigits_hexDigits hn
  | succ zeros ih =>
    have hpos : 0 * 16 + 0 < limit := by omega
    rw [List.replicate_succ, List.cons_append]
    exact (readDigits_digit (by decide : 0 < 16) hpos _).trans ih

theorem hexDigits_inj {m n : Nat} (h : hexDigits m = hexDigits n) : m = n := by
  have hm := readDigits_hexDigits (by omega : m < m + n + 1)
  rw [h, readDigits_hexDigits (by omega)] at hm
  exact (Except.ok.inj hm).symm

theorem paddedDigits_inj {width m n : Nat} (h : paddedDigits width m = paddedDigits width n) :
    m = n := by
  have hm := readDigits_paddedDigits width (by omega : m < m + n + 1)
  rw [h, readDigits_paddedDigits width (by omega)] at hm
  exact (Except.ok.inj hm).symm

theorem hexPadded_inj {width m n : Nat} (h : hexPadded width m = hexPadded width n) : m = n := by
  have hdigits := congrArg String.toList h
  rw [toList_hexPadded, toList_hexPadded] at hdigits
  exact paddedDigits_inj hdigits

theorem forall_mem_hexDigits {p : Char → Prop} (h : ∀ d < 16, p (Nat.digitChar d).toUpper)
    (n : Nat) : ∀ c ∈ hexDigits n, p c := by
  induction n using Nat.strongRecOn with
  | ind n ih =>
    intro c hc
    rw [hexDigits_eq_if] at hc
    split at hc
    · next hsmall =>
      rw [List.mem_singleton.1 hc]
      exact h n hsmall
    · next hlarge =>
      rcases List.mem_append.1 hc with hc | hc
      · exact ih (n / 16) (by omega) c hc
      · rw [List.mem_singleton.1 hc]
        exact h _ (Nat.mod_lt n (by decide))

theorem forall_mem_paddedDigits {p : Char → Prop} (h : ∀ d < 16, p (Nat.digitChar d).toUpper)
    {width n : Nat} : ∀ c ∈ paddedDigits width n, p c := by
  intro c hc
  rcases List.mem_append.1 hc with hc | hc
  · rw [List.eq_of_mem_replicate hc]
    exact h 0 (by decide)
  · exact forall_mem_hexDigits h n c hc

/-- A digit replaced by zero; other characters stay. -/
def zeroDigit (c : Char) : Char :=
  if c.isDigit || ('A' ≤ c && c ≤ 'F') then '0' else c

theorem zeroDigit_of_mem_paddedDigits {width n : Nat} {c : Char} (hc : c ∈ paddedDigits width n) :
    zeroDigit c = '0' := by
  revert c
  apply forall_mem_paddedDigits
  decide

theorem not_mem_paddedDigits {width n : Nat} {c : Char} (hc : zeroDigit c ≠ '0') :
    c ∉ paddedDigits width n :=
  fun hmem => hc (zeroDigit_of_mem_paddedDigits hmem)

theorem length_hexDigits_le {width n : Nat} (hwidth : 0 < width) (hn : n < 16 ^ width) :
    (hexDigits n).length ≤ width := by
  induction width generalizing n with
  | zero => omega
  | succ width ih =>
    rw [hexDigits_eq_if]
    split
    · simp
    · next hlarge =>
      rw [Nat.pow_succ] at hn
      have hpos : 0 < width := by
        apply Nat.pos_of_ne_zero
        rintro rfl
        omega
      have hdiv := @ih (n / 16) hpos (by omega)
      rw [List.length_append, List.length_singleton]
      omega

theorem length_paddedDigits_of_lt {width n : Nat} (hwidth : 0 < width) (hn : n < 16 ^ width) :
    (paddedDigits width n).length = width := by
  have hle := length_hexDigits_le hwidth hn
  rw [length_paddedDigits]
  omega

/-- The form of a number that fits in the width is the width. -/
theorem map_zeroDigit_paddedDigits {width n : Nat} (hwidth : 0 < width) (hn : n < 16 ^ width) :
    (paddedDigits width n).map zeroDigit = List.replicate width '0' := by
  rw [List.eq_replicate_iff, List.length_map]
  refine ⟨length_paddedDigits_of_lt hwidth hn, ?_⟩
  intro c hc
  obtain ⟨d, hd, rfl⟩ := List.mem_map.1 hc
  exact zeroDigit_of_mem_paddedDigits hd

theorem length_hexDigits_pos (n : Nat) : 0 < (hexDigits n).length := by
  rw [hexDigits_eq_if]
  split <;> simp

theorem append_lt_append_of_lt {cs ds : List Char} (hlength : cs.length = ds.length) (h : cs < ds)
    (cs' ds' : List Char) : cs ++ cs' < ds ++ ds' := by
  induction h with
  | nil => cases hlength
  | rel hlt => exact .rel hlt
  | cons _ ih => exact .cons (ih (Nat.succ.inj hlength))

/-- A larger number has more digits, or as many that come later in the order of texts. -/
theorem hexDigits_lt_of_lt {m n : Nat} (h : m < n) :
    (hexDigits m).length < (hexDigits n).length ∨
      (hexDigits m).length = (hexDigits n).length ∧ hexDigits m < hexDigits n := by
  have hdigit : ∀ e < 16, ∀ d < e,
      [(Nat.digitChar d).toUpper] < [(Nat.digitChar e).toUpper] := by decide
  induction n using Nat.strongRecOn generalizing m with
  | ind n ih =>
    rw [hexDigits_eq_if n, hexDigits_eq_if m]
    by_cases hn : n < 16
    · rw [if_pos hn, if_pos (Nat.lt_trans h hn)]
      exact .inr ⟨rfl, hdigit n hn m h⟩
    rw [if_neg hn, List.length_append, List.length_singleton]
    by_cases hm : m < 16
    · rw [if_pos hm]
      have hpos := length_hexDigits_pos (n / 16)
      exact .inl (Nat.lt_add_of_pos_left hpos)
    rw [if_neg hm, List.length_append, List.length_singleton]
    -- the last digits decide only if the digits in front of them are the same
    rcases Nat.lt_or_eq_of_le (Nat.div_le_div_right (Nat.le_of_lt h)) with hlt | heq
    · rcases ih (n / 16) (by omega) hlt with hshort | ⟨hlength, hless⟩
      · exact .inl (by omega)
      · exact .inr ⟨by omega, append_lt_append_of_lt hlength hless _ _⟩
    · rw [heq]
      refine .inr ⟨rfl, List.append_left_lt (hdigit _ (Nat.mod_lt n (by decide)) _ ?_)⟩
      omega

theorem utf8ByteSize_hex (n : Nat) : (hex n).utf8ByteSize = (hexDigits n).length := by
  have hsize : ∀ c ∈ hexDigits n, c.utf8Size = 1 := forall_mem_hexDigits (by decide) n
  rw [hex]
  revert hsize
  induction hexDigits n with
  | nil => intro _; rfl
  | cons c cs ih =>
    intro hsize
    rw [List.forall_mem_cons] at hsize
    rw [String.ofList_cons, String.utf8ByteSize_append, String.utf8ByteSize_singleton, hsize.1,
      ih hsize.2, List.length_cons, Nat.add_comm]

end CartFlow.Text
