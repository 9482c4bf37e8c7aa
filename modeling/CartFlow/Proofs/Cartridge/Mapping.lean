import CartFlow.Cartridge.Cursor
import Mathlib.Data.Nat.Bitwise

/-!
# Offsets and canonical addresses

The canonical address of an image offset is found by arithmetic on words. Below four megabytes
nothing wraps, so the address leads back to the offset and two offsets have two addresses. An
image fits its mapping if this holds for all of its places, the one behind its end included:
LoROM shows the place behind four megabytes under the first address again, HiROM does not.

No address shows an offset of four megabytes or more, whatever its bits above the bank. The
address that a cursor tells where a seek has led is therefore the canonical name of the place:
it leads to the same place, and it is its own canonical name. Adding to a canonical address
leads to the place so many bytes further on, under LoROM up to the end of a chunk of 32 KB.
-/
namespace CartFlow.Cartridge

namespace Mapping

variable {mapping : Mapping} {offset other : Nat}

theorem toNat_ofInt_natCast {n : Nat} (h : n < 4294967296) :
    (UInt32.ofInt (n : Int)).toNat = n := by
  rw [UInt32.ofInt, UInt32.toNat_ofNat']
  omega

theorem toNat_toAddress_hiRom (h : offset ≤ 0x400000) :
    (hiRom.toAddress offset).toNat = offset + 0xC00000 := by
  rw [toAddress, UInt32.toNat_add, toNat_ofInt_natCast (by omega)]
  simp only [UInt32.reduceToNat]
  omega

theorem toNat_toAddress_loRom (h : offset < 0x400000) :
    (loRom.toAddress offset).toNat =
      (offset / 0x8000 + 0x80) * 0x10000 + (0x8000 + offset % 0x8000) := by
  have hbank : offset / 0x8000 < 2 ^ 7 := by omega
  have hdiv : (offset : Int).tdiv 0x8000 = (offset / 0x8000 : Nat) := rfl
  have hmod : (offset : Int).tmod 0x8000 = (offset % 0x8000 : Nat) := rfl
  -- the bits that are set in the bank and in the word are free
  have hhigh : offset / 0x8000 ||| 128 = offset / 0x8000 + 128 := by
    have := Nat.two_pow_add_eq_or_of_lt hbank 1
    rw [Nat.or_comm, Nat.add_comm]
    exact this.symm
  have hword : (offset / 0x8000 + 128) * 2 ^ 16 ||| 32768 =
      (offset / 0x8000 + 128) * 2 ^ 16 + 32768 := by
    have := Nat.two_pow_add_eq_or_of_lt (show 32768 < 2 ^ 16 by decide) (offset / 0x8000 + 128)
    rw [Nat.mul_comm]
    exact this.symm
  simp only [toAddress, hdiv, hmod, UInt32.toNat_add, UInt32.toNat_or, UInt32.toNat_shiftLeft,
    toNat_ofInt_natCast (show offset / 0x8000 < 4294967296 by omega),
    toNat_ofInt_natCast (show offset % 0x8000 < 4294967296 by omega), UInt32.reduceToNat, hhigh,
    Nat.shiftLeft_eq, show 16 % 32 = 16 from rfl]
  rw [Nat.mod_eq_of_lt (a := (offset / 32768 + 128) * 2 ^ 16) (by omega), hword]
  omega

theorem toOffset?_toAddress (h : offset < 0x400000) :
    mapping.toOffset? (mapping.toAddress offset) = some offset := by
  cases mapping with
  | hiRom =>
    have haddress := toNat_toAddress_hiRom (Nat.le_of_lt h)
    simp only [toOffset?, haddress]
    rw [if_pos (by omega), Nat.add_sub_cancel]
  | loRom =>
    have haddress := toNat_toAddress_loRom h
    simp only [toOffset?, haddress]
    rw [if_neg (by omega)]
    exact congrArg some (by omega)

theorem toOffset?_lt {address : Address} (h : mapping.toOffset? address = some offset) :
    offset < 0x400000 := by
  cases mapping with
  | hiRom =>
    simp only [toOffset?] at h
    split at h
    · have := Option.some.inj h
      omega
    split at h
    · have := Option.some.inj h
      omega
    · cases h
  | loRom =>
    simp only [toOffset?] at h
    split at h
    · cases h
    · have := Option.some.inj h
      omega

theorem toOffset?_toAddress_iff :
    mapping.toOffset? (mapping.toAddress offset) = some offset ↔ offset < 0x400000 :=
  ⟨toOffset?_lt, toOffset?_toAddress⟩

theorem toAddress_loRom (offset : Nat) :
    loRom.toAddress offset =
      ((UInt32.ofInt (offset / 0x8000 : Nat) ||| 0x80) <<< 16 ||| 0x8000) +
        UInt32.ofInt (offset % 0x8000 : Nat) := rfl

/-- Canonical addresses are in the upper halves of their banks, however far the offset is. -/
theorem toNat_toAddress_loRom_mod (offset : Nat) :
    (loRom.toAddress offset).toNat % 0x10000 = 0x8000 + offset % 0x8000 := by
  rw [toAddress_loRom]
  generalize UInt32.ofInt (offset / 0x8000 : Nat) ||| 0x80 = bank
  have hshift : bank.toNat <<< 16 % 2 ^ 32 = 2 ^ 16 * (bank.toNat % 2 ^ 16) := by
    rw [Nat.shiftLeft_eq]
    omega
  have hword : 2 ^ 16 * (bank.toNat % 2 ^ 16) ||| 32768 =
      2 ^ 16 * (bank.toNat % 2 ^ 16) + 32768 :=
    (Nat.two_pow_add_eq_or_of_lt (show 32768 < 2 ^ 16 by decide) _).symm
  simp only [UInt32.toNat_add, UInt32.toNat_or, UInt32.toNat_shiftLeft, UInt32.reduceToNat,
    show 16 % 32 = 16 from rfl, hshift, hword,
    toNat_ofInt_natCast (show offset % 0x8000 < 4294967296 by omega)]
  omega

/-- The canonical address advances with the offset exactly within a chunk of 32 KB: behind the
end of a chunk the address that was advanced is in the lower half of a bank. -/
theorem toAddress_loRom_add_iff {distance : Nat} (hdistance : distance < 0x8000) :
    loRom.toAddress (offset + distance : Nat) = loRom.toAddress offset + UInt32.ofInt distance ↔
      offset % 0x8000 + distance < 0x8000 := by
  constructor
  · intro heq
    have hlow := congrArg (fun a : Address => a.toNat % 0x10000) heq
    have hhere := toNat_toAddress_loRom_mod offset
    simp only [toNat_toAddress_loRom_mod, UInt32.toNat_add,
      toNat_ofInt_natCast (show distance < 4294967296 by omega)] at hlow
    omega
  · intro hinside
    have hdiv : (offset + distance) / 0x8000 = offset / 0x8000 := by omega
    have hmod : (offset + distance) % 0x8000 = offset % 0x8000 + distance := by omega
    rw [toAddress_loRom, toAddress_loRom, hdiv, hmod, Int.natCast_add, UInt32.ofInt_add,
      UInt32.add_assoc]

end Mapping

namespace Cursor

variable {c d : Cursor} {offset other : Nat}

/-- All places of the image, the one behind its end included, have canonical addresses of their
own. -/
def Fits (c : Cursor) : Prop :=
  c.mapping = .hiRom ∧ c.image.size ≤ 0x400000 ∨ c.mapping = .loRom ∧ c.image.size < 0x400000

theorem Fits.toAddress_inj (h : c.Fits) (hoffset : offset ≤ c.image.size)
    (hother : other ≤ c.image.size)
    (heq : c.mapping.toAddress offset = c.mapping.toAddress other) : offset = other := by
  rcases h with ⟨hmapping, hsize⟩ | ⟨hmapping, hsize⟩
  · rw [hmapping] at heq
    have hnat := congrArg UInt32.toNat heq
    rw [Mapping.toNat_toAddress_hiRom (by omega), Mapping.toNat_toAddress_hiRom (by omega)] at hnat
    omega
  · have hback := congrArg c.mapping.toOffset? heq
    rw [Mapping.toOffset?_toAddress (by omega), Mapping.toOffset?_toAddress (by omega)] at hback
    exact Option.some.inj hback

theorem Fits.seek_toAddress (h : c.Fits) (hoffset : offset < c.image.size) :
    c.seek (c.mapping.toAddress offset) = .ok { c with offset } := by
  have hlt : offset < 0x400000 := by
    rcases h with ⟨-, hsize⟩ | ⟨-, hsize⟩ <;> omega
  rw [seek, Mapping.toOffset?_toAddress hlt]
  exact if_pos hoffset

/-- The name that the mapping prefers for the place that an address shows. -/
def canonical (c : Cursor) (address : Address) : Except Failure Address :=
  (c.seek address).map tell

theorem eq_of_seek {address : Address} (h : c.seek address = .ok d) :
    d = { c with offset := d.offset } := by
  unfold seek at h
  split at h
  · cases h
  · split at h
    · cases h
      rfl
    · cases h

/-- Where a seek leads to, a seek for the address that is told there leads as well. -/
theorem seek_tell {address : Address} (h : c.seek address = .ok d) : c.seek d.tell = .ok d := by
  obtain ⟨-, hmapping, hlt, hoffset⟩ := seek_eq_ok h
  rw [seek, tell, hmapping, Mapping.toOffset?_toAddress (Mapping.toOffset?_lt hoffset)]
  dsimp only
  rw [if_pos hlt, ← eq_of_seek h]

theorem seek_of_seek {address other : Address} (h : c.seek address = .ok d) :
    d.seek other = c.seek other := by
  rw [eq_of_seek h]
  rfl

theorem canonical_canonical (c : Cursor) (address : Address) :
    (c.canonical address).bind c.canonical = c.canonical address := by
  unfold canonical
  cases h : c.seek address with
  | error e => rfl
  | ok d => exact congrArg (Except.map tell) (seek_tell h)

end Cursor

/-- Offsets and addresses lead to each other and back. The canonical address of an offset shows
it exactly if the offset is below four megabytes. An address that shows the image shows such an
offset, as does the canonical address of this offset. A cursor that was sought stays where it is
when the address it tells is sought, and the canonical name of a canonical name is the name
itself. -/
theorem canonical_roundTrip :
    (∀ (mapping : Mapping) (offset : Nat),
      mapping.toOffset? (mapping.toAddress offset) = some offset ↔ offset < 0x400000) ∧
    (∀ (mapping : Mapping) (address : Address) (offset : Nat),
      mapping.toOffset? address = some offset →
        offset < 0x400000 ∧ mapping.toOffset? (mapping.toAddress offset) = some offset) ∧
    (∀ (c d : Cursor) (address : Address),
      c.seek address = .ok d → d.seek d.tell = .ok d) ∧
    ∀ (c : Cursor) (address : Address),
      (c.canonical address).bind c.canonical = c.canonical address := by
  refine ⟨fun _ _ => Mapping.toOffset?_toAddress_iff, ?_, ?_, Cursor.canonical_canonical⟩
  · intro mapping address offset h
    have hlt := Mapping.toOffset?_lt h
    exact ⟨hlt, Mapping.toOffset?_toAddress hlt⟩
  · intro c d address h
    rw [Cursor.seek_of_seek h, Cursor.seek_tell h]

/-- The second byte of a LoROM image, sought by an address above 24 bits. -/
theorem canonical_roundTrip_mirrored :
    Mapping.loRom.toOffset? 0x01808001 = some 1 ∧
    Mapping.loRom.toOffset? (Mapping.loRom.toAddress 1) = some 1 ∧
    ∃ d, ({ image := #[0x12, 0x34], mapping := .loRom } : Cursor).seek 0x01808001 = .ok d ∧
      d.tell = 0x808001 ∧ d.seek d.tell = .ok d := by
  obtain ⟨-, hshown, hsought, -⟩ := canonical_roundTrip
  have hoffset : Mapping.loRom.toOffset? 0x01808001 = some 1 := by decide
  have hseek : ({ image := #[0x12, 0x34], mapping := .loRom } : Cursor).seek 0x01808001 =
      .ok { image := #[0x12, 0x34], mapping := .loRom, offset := 1 } := by
    simp [Cursor.seek, hoffset]
  exact ⟨hoffset, (hshown _ _ _ hoffset).2, _, hseek, by decide, hsought _ _ _ hseek⟩

end CartFlow.Cartridge
