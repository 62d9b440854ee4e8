import FlashRing.Word

/-!
The cyclic redundancy check by which reports tell page contents apart: 32 bits, least significant
bit first, the register set to ones at the start and inverted at the end.
-/

namespace FlashRing.Checksum

/-- The generator polynomial, least significant bit first. -/
def polynomial : UInt32 := 0xEDB88320

/-- Moves the register on by one bit. -/
def shift (register : UInt32) : UInt32 :=
  if register &&& 1 = 1 then (register >>> 1) ^^^ polynomial else register >>> 1

/-- Takes one byte into the register. -/
def addByte (register : UInt32) (byte : UInt8) : UInt32 :=
  shift (shift (shift (shift (shift (shift (shift (shift (register ^^^ byte.toUInt32))))))))

/-- The check value of the bytes of the words, each least significant byte first. -/
def ofWords (words : List UInt32) : UInt32 :=
  (words.flatMap Word.toBytes).foldl addByte 0xFFFFFFFF ^^^ 0xFFFFFFFF

end FlashRing.Checksum
