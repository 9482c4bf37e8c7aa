import CartFlow.Failure

/-!
# Address mappings

A cartridge shows its image to the processor through one of two mappings. HiROM
maps the image linearly into banks C0 to FF, and shows it again in banks 40 to 7D.
LoROM maps chunks of 32 KB into the upper half of banks 80 to FF, and again into that of
banks 00 to 7D; banks 7E and 7F are work memory. An image offset has one canonical
address, which lies in the upper banks.
-/
namespace CartFlow.Cartridge

inductive Mapping
  | hiRom
  | loRom
  deriving DecidableEq, Repr, Inhabited

namespace Mapping

def name : Mapping → String
  | hiRom => "HiROM"
  | loRom => "LoROM"

def ofName (name : String) : Except Failure Mapping :=
  if ["hirom", "HiROM", "hi"].contains name then .ok hiRom
  else if ["lorom", "LoROM", "lo"].contains name then .ok loRom
  else fail (.unsupportedMapping name)

/-- The image offset that an address shows, if it shows the cartridge. -/
def toOffset? (mapping : Mapping) (address : Address) : Option Nat :=
  let bank := address.toNat / 0x10000
  let low := address.toNat % 0x10000
  match mapping with
  | hiRom =>
    if 0xC0 ≤ bank ∧ bank ≤ 0xFF then some (address.toNat - 0xC00000)
    else if 0x40 ≤ bank ∧ bank ≤ 0x7D then some (address.toNat - 0x400000)
    else none
  | loRom =>
    if low < 0x8000 ∨ bank = 0x7E ∨ bank = 0x7F then none
    else some (bank % 0x80 * 0x8000 + (low - 0x8000))

/-- The canonical address of an image offset, modulo the word size. -/
def toAddress (mapping : Mapping) (offset : Int) : Address :=
  match mapping with
  | hiRom => UInt32.ofInt offset + 0xC00000
  | loRom =>
    let bank := UInt32.ofInt (offset.tdiv 0x8000) ||| 0x80
    (bank <<< 16 ||| 0x8000) + UInt32.ofInt (offset.tmod 0x8000)

end Mapping

end CartFlow.Cartridge
