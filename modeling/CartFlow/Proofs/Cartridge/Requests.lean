import CartFlow.Cartridge.Cursor
import Mathlib.Data.List.Basic

/-!
# Requests to a cursor

A cursor serves one request after the other: it seeks an address, or it reads a number of bytes
and gives them as they are or as the number they stand for. Whatever it was asked for before, it
stands inside the image or right behind it. A request is served within bounds if it moves the
cursor to the place that was sought or behind the bytes that were read, or if it fails because
it leads out of the image and moves nothing.

The end of a read is a word of 64 bits, and only this word is compared with the size of the
image. A read so long that the word wraps around passes the comparison and is served out of
bounds; every other request is served within them.
-/
namespace CartFlow.Cartridge

inductive Request
  | seek (address : Address)
  | bytes (count : Int64)
  | byte
  | signedByte
  | word
  /-- A word whose most significant byte comes first. -/
  | wordBig
  | long
  deriving DecidableEq, Repr

inductive Reply
  | moved
  | bytes (bytes : Array UInt8)
  | byte (value : UInt8)
  | signedByte (value : Int)
  | word (value : UInt16)
  | long (value : UInt32)
  deriving DecidableEq, Repr

namespace Request

/-- The number of bytes that a request reads; a seek reads nothing. -/
def count? : Request → Option Int64
  | seek _ => none
  | bytes count => some count
  | byte | signedByte => some 1
  | word | wordBig => some 2
  | long => some 3

/-- What a request makes of the bytes that it reads. -/
def reply (request : Request) (bytes : Array UInt8) : Reply :=
  let digit (k : Nat) : Nat := (bytes.getD k 0).toNat
  match request with
  | .seek _ => .moved
  | .bytes _ => .bytes bytes
  | .byte => .byte (bytes.getD 0 0)
  | .signedByte => .signedByte (bytes.getD 0 0).toInt8.toInt
  | .word => .word (UInt16.ofNat (digit 0 + 256 * digit 1))
  | .wordBig => .word (UInt16.ofNat (256 * digit 0 + digit 1))
  | .long => .long (UInt32.ofNat (digit 0 + 256 * digit 1 + 65536 * digit 2))

end Request

namespace Cursor

variable {c d : Cursor} {request : Request} {count : Int64} {bytes : Array UInt8} {e : Failure}

/-- The outcome of a step and the cursor behind it, which is the old one if the step fails. -/
def settle {α : Type} (c : Cursor) : Except Failure (α × Cursor) → Except Failure α × Cursor
  | .ok (a, d) => (.ok a, d)
  | .error e => (.error e, c)

def serve (c : Cursor) : Request → Except Failure Reply × Cursor
  | .seek address => c.settle ((c.seek address).map fun d => (.moved, d))
  | .bytes count => c.settle ((c.read count).map fun (bytes, d) => (.bytes bytes, d))
  | .byte => c.settle (c.readU8.map fun (value, d) => (.byte value, d))
  | .signedByte => c.settle (c.readI8.map fun (value, d) => (.signedByte value, d))
  | .word => c.settle (c.readU16.map fun (value, d) => (.word value, d))
  | .wordBig => c.settle (c.readU16Big.map fun (value, d) => (.word value, d))
  | .long => c.settle (c.readU24.map fun (value, d) => (.long value, d))

def serveAll (c : Cursor) (requests : List Request) : Cursor :=
  requests.foldl (fun c request => (c.serve request).2) c

section Reads

theorem stop_of_lt (hcount : 0 ≤ count.toInt) (h : c.offset + count.toInt < 0x8000000000000000) :
    c.stop count = c.offset + count.toInt :=
  Int.bmod_eq_of_le (by omega) (by omega)

/-- Beyond that it wraps around, to a place in front of the cursor. -/
theorem stop_of_ge (h : 0x8000000000000000 ≤ c.offset + count.toInt) : c.stop count < c.offset := by
  have := count.toInt_lt
  have hlt := Int.bmod_lt (x := c.offset + count.toInt) (show 0 < 0x10000000000000000 by decide)
  unfold stop
  rw [Int.bmod_def] at hlt ⊢
  split at hlt <;> omega

theorem count_lt_zero : count < 0 ↔ count.toInt < 0 := by
  rw [Int64.lt_iff_toInt_lt, Int64.toInt_zero]

theorem read_of_inside (hcount : 0 ≤ count.toInt)
    (hlt : c.offset + count.toInt < 0x8000000000000000)
    (hle : c.offset + count.toInt ≤ c.image.size) :
    ∃ d, c.read count = .ok (c.image.extract c.offset (c.offset + count.toInt.toNat), d) := by
  have hstop := stop_of_lt hcount hlt
  have hend : (c.stop count).toNat = c.offset + count.toInt.toNat := by omega
  unfold read
  rw [if_neg (by rw [count_lt_zero]; omega), if_neg (by omega), hend]
  exact ⟨_, rfl⟩

theorem read_of_outside (h : count.toInt < 0 ∨
      c.image.size < c.offset + count.toInt ∧ c.offset + count.toInt < 0x8000000000000000) :
    c.read count = during (.readingBytes count.toInt c.tell) (fail .outOfBounds) := by
  unfold read
  rw [if_pos]
  rw [count_lt_zero]
  rcases h with h | ⟨hgt, hlt⟩
  · exact .inl h
  · by_cases hcount : count.toInt < 0
    · exact .inl hcount
    · right
      rw [stop_of_lt (by omega) hlt]
      exact hgt

/-- A read that is too long for a word passes the check of its end. -/
theorem read_of_overflow (hc : c.offset ≤ c.image.size) (hcount : 0 ≤ count.toInt)
    (h : 0x8000000000000000 ≤ c.offset + count.toInt) :
    c.read count = fail (.rangeOverflow (c.stop count)) := by
  have hstop := stop_of_ge h
  unfold read
  rw [if_neg (by rw [count_lt_zero]; omega), if_pos hstop]

end Reads

section Values

theorem readNumber_of_read (size : Nat) (h : c.read (Int64.ofNat size) = .ok (bytes, d)) :
    c.readNumber size = .ok (littleEndian bytes, d) := by
  rw [readNumber, h]

theorem readNumber_of_read_error (size : Nat) (h : c.read (Int64.ofNat size) = .error e) :
    c.readNumber size = .error e := by
  rw [readNumber, h]

theorem length_of_read (size : Nat) (hsize : size < 0x8000000000000000)
    (h : c.read (Int64.ofNat size) = .ok (bytes, d)) : bytes.toList.length = size := by
  have hcount : (Int64.ofNat size).toInt = size := Int64.toInt_ofNat_of_lt hsize
  obtain ⟨-, hle, rfl, -⟩ := read_eq_ok h
  rw [Array.length_toList, Array.size_extract]
  omega

theorem bmod_toNat (a : UInt8) : (a.toNat : Int).bmod 256 = a.toInt8.toInt :=
  (BitVec.toInt_eq_toNat_bmod a.toBitVec).symm

theorem serve_of_read (hcount : request.count? = some count)
    (hread : c.read count = .ok (bytes, d)) : c.serve request = (.ok (request.reply bytes), d) := by
  obtain ⟨bytes⟩ := bytes
  cases request with
  | seek address => cases hcount
  | bytes count =>
    cases hcount
    rw [serve, hread]
    rfl
  | byte =>
    cases hcount
    obtain ⟨a, rfl⟩ := List.length_eq_one_iff.1 (length_of_read 1 (by decide) hread)
    rw [serve, readU8, readNumber_of_read 1 hread]
    simp [Except.map, settle, Request.reply, littleEndian]
  | signedByte =>
    cases hcount
    obtain ⟨a, rfl⟩ := List.length_eq_one_iff.1 (length_of_read 1 (by decide) hread)
    rw [serve, readI8, readNumber_of_read 1 hread]
    simp [Except.map, settle, Request.reply, littleEndian, bmod_toNat]
  | word =>
    cases hcount
    obtain ⟨a, b, rfl⟩ := List.length_eq_two.1 (length_of_read 2 (by decide) hread)
    rw [serve, readU16, readNumber_of_read 2 hread]
    simp [Except.map, settle, Request.reply, littleEndian]
  | wordBig =>
    cases hcount
    obtain ⟨a, b, rfl⟩ := List.length_eq_two.1 (length_of_read 2 (by decide) hread)
    rw [serve, readU16Big, hread]
    simp [Except.map, settle, Request.reply, littleEndian, Nat.add_comm]
  | long =>
    cases hcount
    obtain ⟨low, middle, high, rfl⟩ :=
      List.length_eq_three.1 (length_of_read 3 (by decide) hread)
    have hvalue : littleEndian #[low, middle, high] =
        low.toNat + 256 * middle.toNat + 65536 * high.toNat := by
      simp only [littleEndian, List.foldr_cons, List.foldr_nil]
      omega
    rw [serve, readU24, readNumber_of_read 3 hread, hvalue]
    rfl

theorem serve_of_read_error (hcount : request.count? = some count)
    (hread : c.read count = .error e) :
    c.serve request = (.error e, c) := by
  cases request with
  | seek address => cases hcount
  | bytes count =>
    cases hcount
    rw [serve, hread]
    rfl
  | byte =>
    cases hcount
    rw [serve, readU8, readNumber_of_read_error 1 hread]
    rfl
  | signedByte =>
    cases hcount
    rw [serve, readI8, readNumber_of_read_error 1 hread]
    rfl
  | word =>
    cases hcount
    rw [serve, readU16, readNumber_of_read_error 2 hread]
    rfl
  | wordBig =>
    cases hcount
    rw [serve, readU16Big, hread]
    rfl
  | long =>
    cases hcount
    rw [serve, readU24, readNumber_of_read_error 3 hread]
    rfl

end Values

/-- A request leads out of the image. -/
def Leaves (c : Cursor) (request : Request) : Prop :=
  (∃ address, request = .seek address ∧
    ∀ offset, c.mapping.toOffset? address = some offset → c.image.size ≤ offset) ∨
  ∃ count, request.count? = some count ∧
    (count.toInt < 0 ∨ c.image.size < c.offset + count.toInt)

/-- A request is served within the bounds of the image. -/
inductive Served (c : Cursor) (request : Request) : Except Failure Reply × Cursor → Prop
  | moved {address : Address} {offset : Nat} : request = .seek address →
      c.mapping.toOffset? address = some offset → offset < c.image.size →
      Served c request (.ok .moved, { c with offset })
  | read {count : Int64} {d : Cursor} : request.count? = some count → 0 ≤ count.toInt →
      c.offset + count.toInt ≤ c.image.size → d.image = c.image → d.mapping = c.mapping →
      d.offset = c.offset + count.toInt →
      Served c request
        (.ok (request.reply (c.image.extract c.offset (c.offset + count.toInt.toNat))), d)
  | refused {e : Failure} : e.cause = .outOfBounds → c.Leaves request →
      Served c request (.error e, c)

/-- The end of what a request reads is too large for a word. -/
def Overflows (c : Cursor) (request : Request) : Prop :=
  ∃ count, request.count? = some count ∧ 0 ≤ count.toInt ∧
    0x8000000000000000 ≤ c.offset + count.toInt

section Serving

theorem served_seek (c : Cursor) (address : Address) :
    c.Served (.seek address) (c.serve (.seek address)) := by
  rw [serve, seek]
  cases hoffset : c.mapping.toOffset? address with
  | none =>
    refine .refused rfl (.inl ⟨address, rfl, fun offset h => ?_⟩)
    rw [hoffset] at h
    cases h
  | some offset =>
    dsimp only
    by_cases hlt : offset < c.image.size
    · rw [if_pos hlt]
      exact .moved rfl hoffset hlt
    · rw [if_neg hlt]
      refine .refused rfl (.inl ⟨address, rfl, fun other h => ?_⟩)
      rw [hoffset] at h
      cases h
      omega

theorem served_of_not_overflows (h : ¬ c.Overflows request) :
    c.Served request (c.serve request) := by
  cases hcount : request.count? with
  | none =>
    cases request with
    | seek address => exact c.served_seek address
    | _ => cases hcount
  | some count =>
    by_cases hout : count.toInt < 0 ∨ c.image.size < c.offset + count.toInt
    · have hread :
          c.read count = during (.readingBytes count.toInt c.tell) (fail .outOfBounds) := by
        apply read_of_outside
        rcases hout with hout | hout
        · exact .inl hout
        · by_cases hneg : count.toInt < 0
          · exact .inl hneg
          · right
            refine ⟨hout, ?_⟩
            by_contra hge
            exact h ⟨count, hcount, by omega, by omega⟩
      rw [serve_of_read_error hcount hread]
      exact .refused rfl (.inr ⟨count, hcount, hout⟩)
    · rw [not_or] at hout
      have hlt : c.offset + count.toInt < 0x8000000000000000 := by
        by_contra hge
        exact h ⟨count, hcount, by omega, by omega⟩
      obtain ⟨d, hread⟩ := read_of_inside (by omega) hlt (by omega)
      obtain ⟨hpos, hle, -, himage, hmapping, hend⟩ := read_eq_ok hread
      rw [serve_of_read hcount hread]
      exact .read hcount hpos hle himage hmapping (by omega)

theorem serve_of_overflows (hc : c.offset ≤ c.image.size) (h : c.Overflows request) :
    ∃ stop, c.serve request = (.error { cause := .rangeOverflow stop }, c) := by
  obtain ⟨count, hcount, hpos, hge⟩ := h
  exact ⟨_, serve_of_read_error hcount (read_of_overflow hc hpos hge)⟩

/-- Where a cursor stands inside the image or right behind it, exactly the requests that do not
overflow are served within bounds. -/
theorem served_iff (hc : c.offset ≤ c.image.size) :
    c.Served request (c.serve request) ↔ ¬ c.Overflows request := by
  refine ⟨fun hserved hoverflows => ?_, served_of_not_overflows⟩
  obtain ⟨stop, hserve⟩ := serve_of_overflows hc hoverflows
  rw [hserve] at hserved
  cases hserved with
  | refused hcause _ => cases hcause

/-- Numbers are too short to overflow in an image that is not at the limit itself. -/
theorem exists_of_overflows (hc : c.offset < 0x7FFFFFFFFFFFFFFD) (h : c.Overflows request) :
    ∃ count, request = .bytes count := by
  obtain ⟨count, hcount, -, hge⟩ := h
  have hone : (1 : Int64).toInt = 1 := by decide
  have htwo : (2 : Int64).toInt = 2 := by decide
  have hthree : (3 : Int64).toInt = 3 := by decide
  cases request with
  | bytes count => exact ⟨count, rfl⟩
  | _ => cases hcount <;> omega

end Serving

/-- A cursor over an image, inside it or right behind it. -/
structure StandsIn (image : Array UInt8) (mapping : Mapping) (c : Cursor) : Prop where
  image_eq : c.image = image
  mapping_eq : c.mapping = mapping
  offset_le : c.offset ≤ image.size

section Runs

variable {image : Array UInt8} {mapping : Mapping}

theorem Served.standsIn {outcome : Except Failure Reply × Cursor} (h : c.Served request outcome)
    (hc : c.StandsIn image mapping) : outcome.2.StandsIn image mapping := by
  cases h with
  | moved _ _ hlt => exact ⟨hc.image_eq, hc.mapping_eq, hc.image_eq ▸ Nat.le_of_lt hlt⟩
  | read _ _ hle himage hmapping hend =>
    refine ⟨himage.trans hc.image_eq, hmapping.trans hc.mapping_eq, ?_⟩
    rw [hc.image_eq] at hle
    dsimp only
    omega
  | refused _ _ => exact hc

/-- No request leads a cursor out of its image, not even one that overflows. -/
theorem StandsIn.serve (hc : c.StandsIn image mapping) (request : Request) :
    (c.serve request).2.StandsIn image mapping := by
  by_cases h : c.Overflows request
  · obtain ⟨stop, hserve⟩ := serve_of_overflows (hc.image_eq ▸ hc.offset_le) h
    rw [hserve]
    exact hc
  · exact (served_of_not_overflows h).standsIn hc

theorem StandsIn.serveAll (hc : c.StandsIn image mapping) (requests : List Request) :
    (c.serveAll requests).StandsIn image mapping := by
  induction requests generalizing c with
  | nil => exact hc
  | cons request rest ih => exact ih (hc.serve request)

theorem standsIn_new (image : Array UInt8) (mapping : Mapping) :
    StandsIn image mapping { image, mapping } :=
  ⟨rfl, rfl, Nat.zero_le _⟩

end Runs

end Cursor

open Cursor

/-- A new cursor may be asked for anything, and stands inside the image or right behind it
afterwards. It then serves a request within bounds exactly if the end of what the request reads
is below 2 to the 63: it moves to the place that is sought or behind the bytes that it returns, or
the request leads out of the image, which is the failure, and nothing moves. A read whose end is
not below this limit fails with a range that is none, and nothing moves either; unless the image
itself is that large, it is one that asks for a number of bytes. -/
theorem Cursor.served_iff_not_overflows (image : Array UInt8) (mapping : Mapping)
    (requests : List Request) :
    StandsIn image mapping (serveAll { image, mapping } requests) ∧
    ∀ request,
      (Served (serveAll { image, mapping } requests) request
          (serve (serveAll { image, mapping } requests) request) ↔
        ¬ Overflows (serveAll { image, mapping } requests) request) ∧
      (Overflows (serveAll { image, mapping } requests) request →
        ∃ stop, serve (serveAll { image, mapping } requests) request =
          (.error { cause := .rangeOverflow stop }, serveAll { image, mapping } requests)) ∧
      (image.size < 0x7FFFFFFFFFFFFFFD →
        Overflows (serveAll { image, mapping } requests) request →
          ∃ count, request = .bytes count) := by
  have hstands := (standsIn_new image mapping).serveAll requests
  generalize serveAll { image, mapping } requests = c at hstands
  have hle : c.offset ≤ c.image.size := hstands.image_eq ▸ hstands.offset_le
  refine ⟨hstands, fun request => ⟨served_iff hle, serve_of_overflows hle, fun hsize => ?_⟩⟩
  exact exists_of_overflows (Nat.lt_of_le_of_lt hstands.offset_le hsize)

/-- Behind the last byte, which a word has reached, a byte is refused within bounds. -/
theorem Cursor.served_behind_word :
    (serveAll { image := #[0x12, 0x34, 0x56], mapping := .loRom } [.seek 0x808001, .word]).offset =
      3 ∧
    Served (serveAll { image := #[0x12, 0x34, 0x56], mapping := .loRom } [.seek 0x808001, .word])
      .byte
      (serve (serveAll { image := #[0x12, 0x34, 0x56], mapping := .loRom }
        [.seek 0x808001, .word]) .byte) := by
  have hoffset : (serveAll { image := #[0x12, 0x34, 0x56], mapping := .loRom }
      [.seek 0x808001, .word]).offset = 3 := by
    decide +kernel
  obtain ⟨-, hserved⟩ := served_iff_not_overflows #[0x12, 0x34, 0x56] .loRom
    [.seek 0x808001, .word]
  refine ⟨hoffset, (hserved .byte).1.2 ?_⟩
  rintro ⟨count, hcount, -, hge⟩
  cases hcount
  rw [hoffset] at hge
  revert hge
  decide

/-- Behind the first byte, a read of as many bytes as a word can count overflows and is not
served within bounds. -/
theorem Cursor.not_served_longest :
    ¬ Served (serveAll { image := #[0x12, 0x34], mapping := .hiRom } [.byte])
      (.bytes Int64.maxValue)
      (serve (serveAll { image := #[0x12, 0x34], mapping := .hiRom } [.byte])
        (.bytes Int64.maxValue)) := by
  have hstands := (standsIn_new #[0x12, 0x34] .hiRom).serveAll [.byte]
  have hoffset : (serveAll { image := #[0x12, 0x34], mapping := .hiRom } [.byte]).offset = 1 := by
    decide +kernel
  rw [served_iff (hstands.image_eq ▸ hstands.offset_le), not_not]
  exact ⟨Int64.maxValue, rfl, by decide, by rw [hoffset]; decide⟩

end CartFlow.Cartridge
