import CartFlow.Cartridge.PointerTable
import CartFlow.Proofs.Cartridge.Mapping
import CartFlow.Proofs.Cartridge.Requests
import CartFlow.Proofs.Computations
import CartFlow.Proofs.Routine.Coverage

/-!
# Reading a table of handlers

An entry of a pointer table is a word of the image at the offset that its address shows. Addresses
wrap around, so a long table may begin again at the start of the address space, and a table may
lie in any of the places where the cartridge shows its image. What is read for an entry, or why
nothing can be read, is told here from the image alone. A cursor finds the same, wherever it
stands, and it stays over its image; so the entries of a table are read as if each of them was
read by itself. Reading a table fails exactly if an entry is not in the image as a whole.
-/
namespace CartFlow.Cartridge

def wordIn (image : Array UInt8) (offset : Nat) : Nat :=
  (image.getD offset 0).toNat + 256 * (image.getD (offset + 1) 0).toNat

/-- The pointer that stands at an address of an image, completed with a bank, or why there is
none. -/
def pointerIn (image : Array UInt8) (mapping : Mapping) (address : Address) (bank : UInt8) :
    Except Failure Address :=
  match mapping.toOffset? address with
  | none => during (.seeking address) (fail .outOfBounds)
  | some offset =>
    if image.size ≤ offset then during (.seeking address) (fail .outOfBounds)
    else if image.size < offset + 2 then
      during (.readingBytes 2 (mapping.toAddress offset)) (fail .outOfBounds)
    else .ok (bank.toUInt32 <<< 16 ||| (UInt16.ofNat (wordIn image offset)).toUInt32)

section Pointers

variable {image : Array UInt8} {mapping : Mapping} {address : Address} {bank : UInt8} {offset : Nat}

theorem wordIn_lt (image : Array UInt8) (offset : Nat) : wordIn image offset < 0x10000 := by
  have hlow := (image.getD offset 0).toNat_lt
  have hhigh := (image.getD (offset + 1) 0).toNat_lt
  unfold wordIn
  omega

theorem pointerIn_of_unmapped (h : mapping.toOffset? address = none) :
    pointerIn image mapping address bank = during (.seeking address) (fail .outOfBounds) := by
  rw [pointerIn, h]

theorem pointerIn_of_behind (h : mapping.toOffset? address = some offset)
    (hout : image.size ≤ offset) :
    pointerIn image mapping address bank = during (.seeking address) (fail .outOfBounds) := by
  rw [pointerIn, h]
  exact if_pos hout

/-- A pointer whose second byte is behind the end of the image is sought, but not read. -/
theorem pointerIn_of_cut (h : mapping.toOffset? address = some offset) (hin : offset < image.size)
    (hout : image.size < offset + 2) :
    pointerIn image mapping address bank =
      during (.readingBytes 2 (mapping.toAddress offset)) (fail .outOfBounds) := by
  rw [pointerIn, h]
  exact (if_neg (Nat.not_le.2 hin)).trans (if_pos hout)

theorem pointerIn_of_inside (h : mapping.toOffset? address = some offset)
    (hin : offset + 2 ≤ image.size) :
    pointerIn image mapping address bank =
      .ok (bank.toUInt32 <<< 16 ||| (UInt16.ofNat (wordIn image offset)).toUInt32) := by
  rw [pointerIn, h]
  exact (if_neg (by omega)).trans (if_neg (Nat.not_lt.2 hin))

theorem toNat_completed (bank : UInt8) {word : Nat} (h : word < 0x10000) :
    (bank.toUInt32 <<< 16 ||| (UInt16.ofNat word).toUInt32).toNat =
      bank.toNat * 0x10000 + word := by
  have hbank := bank.toNat_lt
  have hshift : bank.toNat <<< 16 % 2 ^ 32 = 2 ^ 16 * bank.toNat := by
    rw [Nat.shiftLeft_eq]
    omega
  have hor : 2 ^ 16 * bank.toNat ||| word = 2 ^ 16 * bank.toNat + word :=
    (Nat.two_pow_add_eq_or_of_lt h bank.toNat).symm
  simp only [UInt32.toNat_or, UInt32.toNat_shiftLeft, UInt8.toNat_toUInt32, UInt16.toNat_toUInt32,
    UInt16.toNat_ofNat', UInt32.reduceToNat, show 16 % 32 = 16 from rfl, hshift]
  rw [Nat.mod_eq_of_lt (show word < 2 ^ 16 from h), hor]
  omega

/-- Exactly the pointers that are in the image as a whole can be told. -/
theorem exists_pointerIn_iff :
    (∃ pointer, pointerIn image mapping address bank = .ok pointer) ↔
      ∃ offset, mapping.toOffset? address = some offset ∧ offset + 2 ≤ image.size := by
  constructor
  · rintro ⟨pointer, h⟩
    cases hoffset : mapping.toOffset? address with
    | none =>
      rw [pointerIn_of_unmapped hoffset] at h
      cases h
    | some offset =>
      refine ⟨offset, rfl, ?_⟩
      by_contra hout
      by_cases hin : offset < image.size
      · rw [pointerIn_of_cut hoffset hin (Nat.not_le.1 hout)] at h
        cases h
      · rw [pointerIn_of_behind hoffset (Nat.not_lt.1 hin)] at h
        cases h
  · rintro ⟨offset, hoffset, hin⟩
    exact ⟨_, pointerIn_of_inside hoffset hin⟩

theorem cause_of_pointerIn {e : Failure} (h : pointerIn image mapping address bank = .error e) :
    e.cause = .outOfBounds := by
  unfold pointerIn at h
  split at h
  · cases h
    rfl
  · split at h
    · cases h
      rfl
    · split at h
      · cases h
        rfl
      · cases h

end Pointers

namespace Cursor

variable {c d e : Cursor} {address base : Address} {index : Int} {low : UInt16} {failure : Failure}

theorem littleEndian_extract_two {image : Array UInt8} {offset : Nat}
    (h : offset + 2 ≤ image.size) :
    littleEndian (image.extract offset (offset + 2)) = wordIn image offset := by
  have hbytes : image.extract offset (offset + 2) =
      #[image.getD offset 0, image.getD (offset + 1) 0] := by
    apply Array.ext
    · simp
      omega
    · intro i _ hi
      match i, hi with
      | 0, _ => simp [show offset < image.size by omega]
      | 1, _ => simp [show offset + 1 < image.size by omega]
  rw [hbytes]
  simp [littleEndian, wordIn]

theorem readU16_of_inside (hlt : c.offset < 0x400000) (hin : c.offset + 2 ≤ c.image.size) :
    ∃ d, c.readU16 = .ok (UInt16.ofNat (wordIn c.image c.offset), d) ∧ c.SameImage d := by
  have htwo : (Int64.ofNat 2).toInt = 2 := rfl
  obtain ⟨d, hread⟩ : ∃ d, c.read (Int64.ofNat 2) = _ :=
    read_of_inside (by omega) (by omega) (by omega)
  obtain ⟨-, -, -, himage, hmapping, -⟩ := read_eq_ok hread
  refine ⟨d, ?_, ⟨himage, hmapping⟩⟩
  rw [readU16, readNumber_of_read 2 hread, htwo]
  dsimp only [Except.map]
  rw [show (2 : Int).toNat = 2 from rfl, littleEndian_extract_two hin]

theorem readU16_of_outside (hlt : c.offset < 0x400000) (hout : c.image.size < c.offset + 2) :
    c.readU16 = during (.readingBytes 2 c.tell) (fail .outOfBounds) := by
  have htwo : (Int64.ofNat 2).toInt = 2 := rfl
  have hread : c.read (Int64.ofNat 2) = during (.readingBytes 2 c.tell) (fail .outOfBounds) := by
    rw [read_of_outside (.inr (by omega)), htwo]
  rw [readU16, readNumber_of_read_error 2 hread]
  rfl

theorem seek_eq_error (h : c.seek address = .error failure) :
    failure = { cause := .outOfBounds, during := [.seeking address] } ∧
      ∀ offset, c.mapping.toOffset? address = some offset → c.image.size ≤ offset := by
  unfold seek at h
  split at h
  · next hnone =>
    cases h
    exact ⟨rfl, fun offset hoffset => by rw [hnone] at hoffset; cases hoffset⟩
  · next place hplace =>
    split at h
    · cases h
    · next hout =>
      cases h
      refine ⟨rfl, fun offset hoffset => ?_⟩
      rw [hplace] at hoffset
      exact Option.some.inj hoffset ▸ Nat.not_lt.1 hout

theorem readPointer_of_seek_error (bank : UInt8)
    (hseek : c.seek (base + 2 * UInt32.ofInt index) = .error failure) :
    c.readPointer base index bank = (.error (failure.within (.readingPointer index)), c) := by
  rw [readPointer, sought_of_seek_error hseek, during_error, andThen_error]

theorem readPointer_of_read_error (bank : UInt8)
    (hseek : c.seek (base + 2 * UInt32.ofInt index) = .ok d) (hread : d.readU16 = .error failure) :
    c.readPointer base index bank = (.error (failure.within (.readingPointer index)), d) := by
  rw [readPointer, sought_of_seek hseek, during_ok, andThen_ok, hread, during_error, andThen_error]

theorem readPointer_of_read (bank : UInt8)
    (hseek : c.seek (base + 2 * UInt32.ofInt index) = .ok d) (hread : d.readU16 = .ok (low, e)) :
    c.readPointer base index bank = (.ok (bank.toUInt32 <<< 16 ||| low.toUInt32), e) := by
  rw [readPointer, sought_of_seek hseek, during_ok, andThen_ok, hread, during_ok, andThen_ok]

theorem readPointer_eq (c : Cursor) (base : Address) (index : Int) (bank : UInt8) :
    ∃ d, c.SameImage d ∧ c.readPointer base index bank =
      (during (.readingPointer index)
        (pointerIn c.image c.mapping (base + 2 * UInt32.ofInt index) bank), d) := by
  cases hseek : c.seek (base + 2 * UInt32.ofInt index) with
  | error failure =>
    have hpointer : pointerIn c.image c.mapping (base + 2 * UInt32.ofInt index) bank =
        .error failure := by
      obtain ⟨rfl, hout⟩ := seek_eq_error hseek
      cases hoffset : c.mapping.toOffset? (base + 2 * UInt32.ofInt index) with
      | none => exact pointerIn_of_unmapped hoffset
      | some offset => exact pointerIn_of_behind hoffset (hout offset hoffset)
    refine ⟨c, ⟨rfl, rfl⟩, ?_⟩
    rw [readPointer_of_seek_error bank hseek, hpointer, during_error]
  | ok d =>
    obtain ⟨himage, hmapping, hsought, hoffset⟩ := seek_eq_ok hseek
    have hlt := Mapping.toOffset?_lt hoffset
    by_cases hin : d.offset + 2 ≤ c.image.size
    · obtain ⟨e, hread, hsame⟩ := readU16_of_inside hlt (himage ▸ hin)
      refine ⟨e, SameImage.trans ⟨himage, hmapping⟩ hsame, ?_⟩
      rw [readPointer_of_read bank hseek hread, pointerIn_of_inside hoffset hin, himage, during_ok]
    · have hread := readU16_of_outside hlt (himage ▸ Nat.not_le.1 hin)
      refine ⟨d, ⟨himage, hmapping⟩, ?_⟩
      rw [readPointer_of_read_error bank hseek hread,
        pointerIn_of_cut hoffset hsought (Nat.not_le.1 hin), tell, hmapping]
      rfl

end Cursor

namespace PointerTable

variable {t : PointerTable} {c d : Cursor} {id : Nat}

/-- The address of the pointer of an operation, modulo the word size. -/
def place (t : PointerTable) (id : Nat) : Address :=
  UInt32.ofNat (t.base.toNat + 2 * id)

theorem place_eq (t : PointerTable) (id : Nat) :
    t.base + 2 * UInt32.ofInt (id : Int) = t.place id := by
  have hindex : UInt32.ofInt (id : Int) = UInt32.ofNat id := by
    apply UInt32.toNat_inj.1
    rw [UInt32.ofInt, UInt32.toNat_ofNat', UInt32.toNat_ofNat']
    omega
  apply UInt32.toNat_inj.1
  rw [hindex, place, UInt32.toNat_add, UInt32.toNat_mul, UInt32.toNat_ofNat', UInt32.toNat_ofNat',
    show (2 : UInt32).toNat = 2 from rfl]
  omega

/-- The handler that a table in an image has for an operation, or why it has none. -/
def handlerIn (t : PointerTable) (image : Array UInt8) (mapping : Mapping) (id : Nat) :
    Except Failure Address :=
  during (.readingOperation id) <|
    during (.readingPointer id) (pointerIn image mapping (t.place id) t.bank)

theorem handler_eq (c : Cursor) (hid : (id : Int) < t.count) :
    ∃ d, c.SameImage d ∧ t.handler c id = (t.handlerIn c.image c.mapping id, d) := by
  obtain ⟨d, hsame, hread⟩ := c.readPointer_eq t.base id t.bank
  refine ⟨d, hsame, ?_⟩
  rw [handler, if_neg (by omega), hread, place_eq]
  rfl

/-- The entries behind those that were found are read as if each of them was read by itself. -/
theorem handlersFrom_eq (found : Array (Nat × Address)) (n : Nat) (hsame : c.SameImage d)
    (hn : found.size + n ≤ t.count.toNat) :
    t.handlersFrom d found n =
      ((List.range' found.size n).mapM fun id =>
        (t.handlerIn c.image c.mapping id).map (Prod.mk id)).map fun rest =>
          found ++ rest.toArray := by
  induction n generalizing d found with
  | zero =>
    rw [handlersFrom]
    simp [Except.map, pure, Except.pure]
  | succ n ih =>
    have hid : ((found.size : Nat) : Int) < t.count := by omega
    obtain ⟨next, hnext, hhandler⟩ := t.handler_eq d hid
    rw [hsame.image_eq, hsame.mapping_eq] at hhandler
    rw [handlersFrom, hhandler, List.range'_succ, List.mapM_cons]
    cases t.handlerIn c.image c.mapping found.size with
    | error e => rfl
    | ok address =>
      dsimp only
      rw [ih (found.push (found.size, address)) (hsame.trans hnext)
        (by rw [Array.size_push]; omega), Array.size_push]
      cases (List.range' (found.size + 1) n).mapM fun id =>
          (t.handlerIn c.image c.mapping id).map (Prod.mk id) with
      | error e => rfl
      | ok rest =>
        refine congrArg Except.ok ?_
        simp

theorem entries_eq (t : PointerTable) (c : Cursor) :
    t.entries c = (List.range t.count.toNat).mapM fun id =>
      (t.handlerIn c.image c.mapping id).map (Prod.mk id) := by
  have hloop := t.handlersFrom_eq (c := c) #[] t.count.toNat ⟨rfl, rfl⟩ (by simp)
  rw [entries, hloop, List.range_eq_range', Array.size_empty]
  cases (List.range' 0 t.count.toNat).mapM fun id =>
      (t.handlerIn c.image c.mapping id).map (Prod.mk id) with
  | error e => rfl
  | ok all =>
    refine congrArg Except.ok ?_
    simp

/-- The image has both bytes of the pointer of an operation. -/
def Shows (t : PointerTable) (c : Cursor) (id offset : Nat) : Prop :=
  c.mapping.toOffset? (t.place id) = some offset ∧ offset + 2 ≤ c.image.size

theorem exists_handlerIn_iff :
    (∃ address, t.handlerIn c.image c.mapping id = .ok address) ↔
      ∃ offset, t.Shows c id offset := by
  simp only [handlerIn, during_eq_ok]
  exact exists_pointerIn_iff

theorem exists_handlerIn_of_shows {offset : Nat} (h : t.Shows c id offset) :
    ∃ address, t.handlerIn c.image c.mapping id = .ok address ∧
      address.toNat = t.bank.toNat * 0x10000 + wordIn c.image offset := by
  refine ⟨_, ?_, toNat_completed t.bank (wordIn_lt c.image offset)⟩
  rw [handlerIn, during_eq_ok, during_eq_ok]
  exact pointerIn_of_inside h.1 h.2

theorem cause_of_handlerIn {image : Array UInt8} {mapping : Mapping} {e : Failure}
    (h : t.handlerIn image mapping id = .error e) : e.cause = .outOfBounds := by
  unfold handlerIn at h
  cases hpointer : pointerIn image mapping (t.place id) t.bank with
  | ok address =>
    rw [hpointer] at h
    cases h
  | error failure =>
    rw [hpointer] at h
    have hcause := cause_of_pointerIn hpointer
    cases h
    exact hcause

theorem fst_handler_of_handlerIn (hsame : c.SameImage d) (hid : (id : Int) < t.count) :
    (t.handler d id).1 = t.handlerIn c.image c.mapping id := by
  obtain ⟨e, -, hhandler⟩ := t.handler_eq d hid
  rw [hhandler, hsame.image_eq, hsame.mapping_eq]

/-- A table is read exactly as its operations are. -/
theorem entries_eq_ok {entries : List (Nat × Address)} :
    t.entries c = .ok entries ↔ entries.length = t.count.toNat ∧
      ∀ id : Nat, (id : Int) < t.count → ∃ address, entries[id]? = some (id, address) ∧
        t.handlerIn c.image c.mapping id = .ok address := by
  have hentry : ∀ (id : Nat) (entry : Nat × Address),
      (t.handlerIn c.image c.mapping id).map (Prod.mk id) = .ok entry ↔
        ∃ address, entry = (id, address) ∧ t.handlerIn c.image c.mapping id = .ok address := by
    intro id entry
    cases t.handlerIn c.image c.mapping id with
    | error e => simp [Except.map]
    | ok address => simp [Except.map, eq_comm]
  simp only [entries_eq, mapM_eq_ok, List.forall₂_iff_get, hentry, List.length_range,
    List.get_eq_getElem, List.getElem_range]
  constructor
  · rintro ⟨hlength, hall⟩
    refine ⟨hlength.symm, fun id hid => ?_⟩
    obtain ⟨address, heq, haddress⟩ := hall id (by omega) (by omega)
    exact ⟨address, List.getElem?_eq_some_iff.2 ⟨by omega, heq⟩, haddress⟩
  · rintro ⟨hlength, hall⟩
    refine ⟨hlength.symm, fun id hid hid' => ?_⟩
    obtain ⟨address, heq, haddress⟩ := hall id (by omega)
    exact ⟨address, (List.getElem?_eq_some_iff.1 heq).2, haddress⟩

theorem exists_entries_iff :
    (∃ entries, t.entries c = .ok entries) ↔
      ∀ id : Nat, (id : Int) < t.count → ∃ offset, t.Shows c id offset := by
  constructor
  · rintro ⟨entries, hentries⟩ id hid
    obtain ⟨address, -, haddress⟩ := (entries_eq_ok.1 hentries).2 id hid
    exact exists_handlerIn_iff.1 ⟨address, haddress⟩
  · intro hshown
    rw [entries_eq]
    apply exists_mapM
    intro id hid
    rw [List.mem_range] at hid
    obtain ⟨address, haddress⟩ := exists_handlerIn_iff.2 (hshown id (by omega))
    exact ⟨(id, address), by rw [haddress]; rfl⟩

theorem cause_of_entries {e : Failure} (h : t.entries c = .error e) : e.cause = .outOfBounds := by
  rw [entries_eq] at h
  obtain ⟨id, -, hid⟩ := exists_of_mapM_eq_error h
  cases hhandler : t.handlerIn c.image c.mapping id with
  | ok address =>
    rw [hhandler] at hid
    cases hid
  | error failure =>
    have hcause := cause_of_handlerIn hhandler
    rw [hhandler] at hid
    cases hid
    exact hcause

theorem entries_congr (hsame : c.SameImage d) : t.entries d = t.entries c := by
  rw [entries_eq, entries_eq, hsame.image_eq, hsame.mapping_eq]

/-- A table can be read exactly if the image has the pointers of all operations as a whole,
wherever in the address space the table lies. Each entry is then the word that the image has for
its operation, below the bank of the table. The cursor and the entries in front make no
difference, and a table that cannot be read leads out of the image. The distinct handlers are all
those of the entries, in the order in which they come first. -/
theorem entries_of_shows (t : PointerTable) (c : Cursor) :
    ((∃ entries, t.entries c = .ok entries) ↔
      ∀ id : Nat, (id : Int) < t.count → ∃ offset, t.Shows c id offset) ∧
    (∀ entries, t.entries c = .ok entries →
      entries.length = t.count.toNat ∧
      (∀ id : Nat, (id : Int) < t.count → ∃ offset address, t.Shows c id offset ∧
        entries[id]? = some (id, address) ∧
        address.toNat = t.bank.toNat * 0x10000 + wordIn c.image offset ∧
        ∀ d, c.SameImage d → (t.handler d id).1 = .ok address) ∧
      ∃ handlers, t.handlers c = .ok handlers ∧ handlers.Nodup ∧
        (∀ address, address ∈ handlers ↔ address ∈ entries.map (·.2)) ∧
        handlers.Pairwise fun a b =>
          (entries.map (·.2)).idxOf a < (entries.map (·.2)).idxOf b) ∧
    (∀ e, t.entries c = .error e → e.cause = .outOfBounds ∧ t.handlers c = .error e) ∧
    ∀ d, c.SameImage d → t.entries d = t.entries c ∧ t.handlers d = t.handlers c := by
  refine ⟨exists_entries_iff, fun entries hentries => ⟨?length, fun id hid => ?entry, ?distinct⟩,
    fun e he => ⟨cause_of_entries he, ?failure⟩, fun d hsame => ⟨entries_congr hsame, ?same⟩⟩
  case length => exact (entries_eq_ok.1 hentries).1
  case entry =>
    obtain ⟨offset, hshows⟩ := exists_entries_iff.1 ⟨entries, hentries⟩ id hid
    obtain ⟨address, haddress, hvalue⟩ := exists_handlerIn_of_shows hshows
    obtain ⟨other, hentry, hother⟩ := (entries_eq_ok.1 hentries).2 id hid
    cases Except.ok.inj (haddress.symm.trans hother)
    refine ⟨offset, address, hshows, hentry, hvalue, fun d hsame => ?_⟩
    rw [fst_handler_of_handlerIn hsame hid, haddress]
  case distinct =>
    refine ⟨distinct (entries.map (·.2)), ?_, nodup_distinct _, fun _ => mem_distinct,
      pairwise_distinct _⟩
    rw [handlers, hentries]
    rfl
  case failure =>
    rw [handlers, he]
    rfl
  case same => rw [handlers, handlers, entries_congr hsame]

namespace Mirrored

/-- A short image, with the cursor behind its end. -/
def cursor : Cursor where
  image := #[0, 0x34, 0x12, 0x00, 0x80, 0x34, 0x12, 0x00, 0x90, 0x56]
  mapping := .hiRom
  offset := 10

/-- Pointers from the second byte on, in the lower banks that show the image. -/
def table (count : Int) : PointerTable := ⟨0x400001, count, 0xC4⟩

theorem toOffset?_place (count : Int) {id : Nat} (h : id < 5) :
    cursor.mapping.toOffset? ((table count).place id) = some (1 + 2 * id) := by
  have hall : ∀ id < 5, Mapping.hiRom.toOffset? (UInt32.ofNat (0x400001 + 2 * id)) =
      some (1 + 2 * id) := by decide
  exact hall id h

end Mirrored

open Mirrored in
/-- Four operations have three handlers, of which the first one is shared. A fifth operation would
be cut off by the end of the image. -/
theorem entries_of_mirrored :
    ∃ entries handlers, (table 4).entries cursor = .ok entries ∧
      entries[2]? = some (2, 0xC41234) ∧
      (table 4).handlers cursor = .ok handlers ∧ handlers.Nodup ∧ 0xC41234 ∈ handlers ∧
      ¬ ∃ entries, (table 5).entries cursor = .ok entries := by
  obtain ⟨hiff, hread, -⟩ := entries_of_shows (table 4) cursor
  have hsize : cursor.image.size = 10 := rfl
  obtain ⟨entries, hentries⟩ := hiff.2 fun id hid => by
    have hlt : id < 4 := Int.ofNat_lt.1 hid
    exact ⟨_, toOffset?_place 4 (by omega), by omega⟩
  obtain ⟨-, hentry, handlers, hhandlers, hnodup, hmem, -⟩ := hread entries hentries
  obtain ⟨offset, address, ⟨hoffset, -⟩, hat, hvalue, -⟩ := hentry 2 (by decide)
  rw [toOffset?_place 4 (by decide)] at hoffset
  cases hoffset
  have haddress : address = 0xC41234 := UInt32.toNat_inj.1 (hvalue.trans (by decide))
  subst haddress
  refine ⟨entries, handlers, hentries, hat, hhandlers, hnodup, ?_, ?_⟩
  · exact (hmem _).2 (List.mem_map.2 ⟨_, List.mem_of_getElem? hat, rfl⟩)
  · intro hfifth
    obtain ⟨offset, hoffset, hin⟩ := (entries_of_shows (table 5) cursor).1.1 hfifth 4 (by decide)
    rw [toOffset?_place 5 (by decide)] at hoffset
    cases hoffset
    omega

end PointerTable

end CartFlow.Cartridge
