/-!
# Processor addresses

An address is a 32 bit word. Only 24 bits reach the cartridge, but targets are
computed in full words, so arithmetic wraps modulo 2 to the 32.
-/
namespace CartFlow

/-- A processor address. -/
abbrev Address := UInt32

end CartFlow
