import CartFlow.Cartridge.Mapping
import CartFlow.Log

/-!
# Image files

A file may start with 512 bytes of a copier device, which are no part of the
image; they are there exactly if the size is 512 more than a multiple of 1 KB.
The mapping of an image shows in its internal header, which lies at one of two
places. Both places are rated by how much they look like a header; LoROM is chosen
only if its place has the better rating.
-/
namespace CartFlow.Cartridge

/-- The number of bytes that a copier device puts in front. -/
def copierHeaderSize : Nat := 512

def imageOfFile (bytes : Array UInt8) : Except Failure (Array UInt8) :=
  let image :=
    if bytes.size % 1024 = copierHeaderSize then bytes.extract copierHeaderSize bytes.size
    else bytes
  if image.isEmpty then fail .emptyFile else .ok image

namespace Header

def place : Mapping → Nat
  | .hiRom => 0xFFC0
  | .loRom => 0x7FC0

/-- The map mode byte under a mapping, without its speed bit. -/
def mapMode : Mapping → UInt8
  | .hiRom => 0x21
  | .loRom => 0x20

def size : Nat := 0x40

def byteAt (image : Array UInt8) (offset : Nat) : UInt8 :=
  image.getD offset 0

def wordAt (image : Array UInt8) (offset : Nat) : UInt16 :=
  (byteAt image (offset + 1)).toUInt16 <<< 8 ||| (byteAt image offset).toUInt16

/-- How much the place of a mapping looks like a header, -1 if the image is too short. -/
def score (image : Array UInt8) (mapping : Mapping) : Int :=
  let header := place mapping
  if image.size < header + size then -1
  else
    (if wordAt image (header + 0x1C) ^^^ wordAt image (header + 0x1E) = 0xFFFF then 2 else 0) +
      (if byteAt image (header + 0x15) &&& 0xEF = mapMode mapping then 1 else 0) +
      (if 0x8000 ≤ wordAt image (header + 0x3C) then 1 else 0)

def guess (image : Array UInt8) : Mapping :=
  if score image .hiRom < score image .loRom then .loRom else .hiRom

end Header

def detect (name : String) (image : Array UInt8) : Traced Mapping := do
  if name.isEmpty then
    let mapping := Header.guess image
    Traced.report
      { level := .debug
        message := "Auto-detected mapping"
        fields :=
          [("mapping", .text mapping.name),
           ("lorom_score", .number (Header.score image .loRom)),
           ("hirom_score", .number (Header.score image .hiRom))] }
    return mapping
  else Traced.ofExcept (Mapping.ofName name)

end CartFlow.Cartridge
