import CartFlow.Cartridge.Mapping

/-!
# Reading a cartridge image

A cursor stands at an offset of an image and is moved by processor addresses.
Reads return the bytes at the cursor and move it behind them; a read or a seek
that would leave the image fails and moves nothing. Positions are 64 bit words, so
the end of a very long read wraps around, which is a failure of its own.
A cursor may keep the reads it has seen.
-/
namespace CartFlow.Cartridge

/-- A read that was seen: where it started and what it returned. -/
structure Reading where
  offset : Nat
  bytes : Array UInt8
  deriving DecidableEq, Repr

structure Cursor where
  image : Array UInt8
  mapping : Mapping
  offset : Nat := 0
  /-- The reads seen so far, the latest last, if reads are watched. -/
  seen : Option (List Reading) := none

namespace Cursor

def tell (c : Cursor) : Address :=
  c.mapping.toAddress c.offset

def watch (c : Cursor) (on : Bool) : Cursor :=
  { c with seen := if on then some [] else none }

def seek (c : Cursor) (address : Address) : Except Failure Cursor :=
  match c.mapping.toOffset? address with
  | none => during (.seeking address) (fail .outOfBounds)
  | some offset =>
    if offset < c.image.size then .ok { c with offset }
    else during (.seeking address) (fail .outOfBounds)

/-- The position a number of bytes further on, as a 64 bit word. -/
def stop (c : Cursor) (count : Int64) : Int :=
  (c.offset + count.toInt).bmod 0x10000000000000000

def read (c : Cursor) (count : Int64) : Except Failure (Array UInt8 × Cursor) :=
  if count < 0 ∨ c.image.size < c.stop count then
    during (.readingBytes count.toInt c.tell) (fail .outOfBounds)
  else if c.stop count < c.offset then fail (.rangeOverflow (c.stop count))
  else
    let bytes := c.image.extract c.offset (c.stop count).toNat
    .ok (bytes,
      { c with
        offset := (c.stop count).toNat
        seen := c.seen.map (· ++ [⟨c.offset, bytes⟩]) })

def littleEndian (bytes : Array UInt8) : Nat :=
  bytes.toList.foldr (fun b rest => b.toNat + 256 * rest) 0

/-- Reads a number of the given size, least significant byte first. -/
def readNumber (c : Cursor) (size : Nat) : Except Failure (Nat × Cursor) :=
  match c.read (Int64.ofNat size) with
  | .ok (bytes, c) => .ok (littleEndian bytes, c)
  | .error e => .error e

def readU8 (c : Cursor) : Except Failure (UInt8 × Cursor) :=
  (c.readNumber 1).map fun (n, c) => (UInt8.ofNat n, c)

def readI8 (c : Cursor) : Except Failure (Int × Cursor) :=
  (c.readNumber 1).map fun (n, c) => ((n : Int).bmod 256, c)

def readU16 (c : Cursor) : Except Failure (UInt16 × Cursor) :=
  (c.readNumber 2).map fun (n, c) => (UInt16.ofNat n, c)

def readU16Big (c : Cursor) : Except Failure (UInt16 × Cursor) :=
  (c.read 2).map fun (bytes, c) => (UInt16.ofNat (littleEndian bytes.reverse), c)

def readU24 (c : Cursor) : Except Failure (UInt32 × Cursor) :=
  (c.readNumber 3).map fun (n, c) => (UInt32.ofNat n, c)

/-- Continues with what a step has found, from where it has led to. A step that fails leads
nowhere. -/
def andThen {α β : Type} (c : Cursor) (step : Except Failure (α × Cursor))
    (next : α → Cursor → Except Failure β × Cursor) : Except Failure β × Cursor :=
  match step with
  | .ok (a, d) => next a d
  | .error e => (.error e, c)

/-- Moves to an address of the image, as a step that finds nothing. -/
def sought (c : Cursor) (address : Address) : Except Failure (Unit × Cursor) :=
  (c.seek address).map fun d => ((), d)

/-- Reads an entry of a table of words at `base` and completes it with a bank.
The cursor is where the last step that succeeded left it. -/
def readPointer (c : Cursor) (base : Address) (index : Int) (bank : UInt8) :
    Except Failure Address × Cursor :=
  c.andThen (during (.readingPointer index) (c.sought (base + 2 * UInt32.ofInt index))) fun _ c =>
    c.andThen (during (.readingPointer index) c.readU16) fun low c =>
      (.ok (bank.toUInt32 <<< 16 ||| low.toUInt32), c)

theorem andThen_ok {α β : Type} (c d : Cursor) (a : α)
    (next : α → Cursor → Except Failure β × Cursor) : c.andThen (.ok (a, d)) next = next a d := rfl

theorem andThen_error {α β : Type} (c : Cursor) (e : Failure)
    (next : α → Cursor → Except Failure β × Cursor) :
    c.andThen (.error e) next = (.error e, c) := rfl

theorem sought_of_seek {c d : Cursor} {address : Address} (h : c.seek address = .ok d) :
    c.sought address = .ok ((), d) := by
  rw [sought, h]
  rfl

theorem sought_of_seek_error {c : Cursor} {address : Address} {e : Failure}
    (h : c.seek address = .error e) : c.sought address = .error e := by
  rw [sought, h]
  rfl

theorem seek_eq_ok {c d : Cursor} {address : Address} (h : c.seek address = .ok d) :
    d.image = c.image ∧ d.mapping = c.mapping ∧ d.offset < c.image.size ∧
      c.mapping.toOffset? address = some d.offset := by
  unfold seek at h
  split at h
  · cases h
  · next offset heq =>
    split at h
    · next hlt => cases h; exact ⟨rfl, rfl, hlt, heq⟩
    · cases h

/-- The end of a read inside the image is not wrapped. -/
theorem stop_eq {c : Cursor} {count : Int64} (h : c.offset ≤ c.stop count) :
    c.stop count = c.offset + count.toInt := by
  have := count.toInt_lt
  have := count.le_toInt
  simp only [stop] at h ⊢
  rw [Int.bmod_def] at h ⊢
  split at h <;> split <;> omega

/-- A read that succeeds returns the bytes in front of it and moves behind them. -/
theorem read_eq_ok {c d : Cursor} {count : Int64} {bytes : Array UInt8}
    (h : c.read count = .ok (bytes, d)) :
    0 ≤ count.toInt ∧ c.offset + count.toInt ≤ c.image.size ∧
      bytes = c.image.extract c.offset (c.offset + count.toInt.toNat) ∧
      d.image = c.image ∧ d.mapping = c.mapping ∧ d.offset = c.offset + count.toInt.toNat := by
  unfold read at h
  split at h
  · cases h
  · next hbounds =>
    split at h
    · cases h
    · next hstop =>
      have hstop := stop_eq (Int.not_lt.1 hstop)
      rw [not_or, Int64.lt_iff_toInt_lt] at hbounds
      have hzero : (0 : Int64).toInt = 0 := rfl
      have hend : (c.stop count).toNat = c.offset + count.toInt.toNat := by omega
      simp only [hend, Except.ok.injEq, Prod.mk.injEq] at h
      obtain ⟨rfl, rfl⟩ := h
      exact ⟨by omega, by omega, rfl, rfl, rfl, rfl⟩

end Cursor

end CartFlow.Cartridge
