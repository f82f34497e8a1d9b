import PeerCache.Text.Utf8

/-!
# CRC-32

The cyclic redundancy check of IEEE 802.3, least significant bit first: the register starts
with all bits set, each byte is added to its low end and shifted out bit by bit, and the
bits of the result are flipped.
-/

namespace PeerCache.Crc32

/-- The generator polynomial with its bits reversed. -/
def polynomial : UInt32 := 0xEDB88320

def shiftBit (register : UInt32) : UInt32 :=
  if register &&& 1 = 1 then (register >>> 1) ^^^ polynomial else register >>> 1

def shiftByte (register : UInt32) (b : UInt8) : UInt32 :=
  shiftBit <| shiftBit <| shiftBit <| shiftBit <|
    shiftBit <| shiftBit <| shiftBit <| shiftBit <| register ^^^ b.toUInt32

def checksum (bytes : Bytes) : UInt32 :=
  bytes.foldl shiftByte 0xFFFFFFFF ^^^ 0xFFFFFFFF

end PeerCache.Crc32
