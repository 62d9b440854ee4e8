/-!
Numbers written in base sixteen with lower-case digits, bare or filled up with zeros.
-/

namespace FlashRing.Text

/-- The number in base sixteen, without leading zeros. -/
def hex (n : Nat) : String :=
  String.ofList (Nat.toDigits 16 n)

/-- The number in base sixteen, with leading zeros up to `width` digits. -/
def hexPadded (width n : Nat) : String :=
  let digits := Nat.toDigits 16 n
  String.ofList (List.replicate (width - digits.length) '0' ++ digits)

/-- A key or a payload: a base mark and four digits. -/
def hexHalf (n : UInt16) : String :=
  "0x" ++ hexPadded 4 n.toNat

/-- A status byte: a base mark and two digits. -/
def hexByte (n : UInt8) : String :=
  "0x" ++ hexPadded 2 n.toNat

/-- A word of flash: eight digits and no base mark. -/
def hexWord (n : UInt32) : String :=
  hexPadded 8 n.toNat

end FlashRing.Text
