import FlashRing.Geometry
import FlashRing.Text.Hex

/-!
The header of a page is one word: the status in the top byte, the wrap counter in the 24 bits
below. Flash only clears bits, so each half is programmed alone, with the other half all ones.
-/

namespace FlashRing

/-- What a page is for, as its status byte tells. -/
inductive Status where
  | erased
  /-- The target of a rotation that is not finished. -/
  | receiving
  /-- The page that holds the contents. -/
  | active
  | unknown (byte : UInt8)
deriving DecidableEq

namespace Status

def toByte : Status → UInt8
  | .erased => 0xFF
  | .receiving => 0xAA
  | .active => 0x00
  | .unknown byte => byte

def ofByte (byte : UInt8) : Status :=
  if byte = 0xFF then .erased
  else if byte = 0xAA then .receiving
  else if byte = 0x00 then .active
  else .unknown byte

/-- The word that programs the status and leaves the counter alone. -/
def programWord (status : Status) : UInt32 :=
  (status.toByte.toUInt32 <<< 24) ||| 0x00FFFFFF

/-- The name shown to the user. -/
def name : Status → String
  | .erased => "erased"
  | .receiving => "receiving"
  | .active => "active"
  | .unknown byte => "unknown(" ++ Text.hexByte byte ++ ")"

end Status

/-- The decoded header of a page. -/
structure Header where
  status : Status
  /-- The 24 counter bits as they stand. -/
  counter : UInt32
deriving DecidableEq

namespace Header

/-- The counter bits of a header word; all of them are ones while no counter is programmed. -/
def counterMask : UInt32 := 0x00FFFFFF

def decode (word : UInt32) : Header where
  status := .ofByte (word >>> 24).toUInt8
  counter := word &&& counterMask

/-- The wrap counter, if one was programmed. -/
def counter? (header : Header) : Option Nat :=
  if header.counter = counterMask then none else some header.counter.toNat

/-- The wrap counter, zero if none was programmed. -/
def counterOrZero (header : Header) : Nat :=
  header.counter?.getD 0

/-- The word that programs a counter and leaves the status alone. -/
def counterWord (count : Nat) : UInt32 :=
  0xFF000000 ||| (UInt32.ofNat count &&& counterMask)

/-- The largest counter that differs from the unprogrammed one. -/
def maxCounter : Nat := 0xFFFFFE

end Header

end FlashRing
