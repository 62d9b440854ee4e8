import FlashRing.Text.Blank
import FlashRing.Text.Hex

/-!
Byte strings as pairs of digits in base sixteen. Writing uses lower case; reading takes both cases
and skips white space anywhere.
-/

namespace FlashRing.HexBytes

/-- Why a text is not a byte string. -/
inductive Fault where
  | oddLength
  /-- The first byte that is no digit, and how many bytes stand before it. -/
  | badByte (byte : UInt8) (position : Nat)
deriving DecidableEq

/-- The two digits of a byte. -/
def digits (byte : UInt8) : List Char :=
  [Nat.digitChar (byte.toNat / 16), Nat.digitChar (byte.toNat % 16)]

/-- The digits of the bytes, one pair after the other. -/
def encode (bytes : List UInt8) : String :=
  String.ofList (bytes.flatMap digits)

/-- The value of the byte of an ASCII digit. -/
def value? (byte : UInt8) : Option UInt8 :=
  if 0x30 ≤ byte ∧ byte ≤ 0x39 then some (byte - 0x30)
  else if 0x41 ≤ byte ∧ byte ≤ 0x46 then some (byte - 0x37)
  else if 0x61 ≤ byte ∧ byte ≤ 0x66 then some (byte - 0x57)
  else none

/-- The value of a digit that stands at a position. -/
def digitAt (position : Nat) (byte : UInt8) : Except Fault UInt8 :=
  match value? byte with
  | some value => .ok value
  | none => .error (.badByte byte position)

/-- Reads pairs of digits, the first of them at a position. -/
def decodePairs (position : Nat) : List UInt8 → Except Fault (List UInt8)
  | high :: low :: rest => do
    let h ← digitAt position high
    let l ← digitAt (position + 1) low
    return (h * 16 + l) :: (← decodePairs (position + 2) rest)
  | _ => .ok []

/-- Reads a run of digits; an odd length is the first fault to be reported. -/
def decode (bytes : List UInt8) : Except Fault (List UInt8) :=
  if bytes.length % 2 = 1 then .error .oddLength else decodePairs 0 bytes

/-- The bytes of a text without its white space. -/
def significant (text : String) : List UInt8 :=
  (text.toList.filter (!Text.isBlank ·)).flatMap String.utf8EncodeChar

/-- Reads a byte string. -/
def parse (text : String) : Except Fault (List UInt8) :=
  decode (significant text)

/-- The character with the code of a byte, in quotes; marks and what cannot be seen are escaped. -/
def quoted (byte : UInt8) : String :=
  let n := byte.toNat
  let inner :=
    if n = 0x00 then "\\0"
    else if n = 0x09 then "\\t"
    else if n = 0x0A then "\\n"
    else if n = 0x0D then "\\r"
    else if n = 0x27 then "\\'"
    else if n = 0x5C then "\\\\"
    else if n < 0x20 ∨ 0x7F ≤ n ∧ n ≤ 0xA0 ∨ n = 0xAD then "\\u\x7b" ++ Text.hex n ++ "\x7d"
    else String.singleton (Char.ofNat n)
  "'" ++ inner ++ "'"

def Fault.text : Fault → String
  | .oddLength => "Odd number of digits"
  | .badByte byte position => "Invalid character " ++ quoted byte ++ s!" at position {position}"

end FlashRing.HexBytes
