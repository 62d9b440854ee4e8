/-!
Numbers as they are typed: an optional sign and digits, read from the left. A character that is no
digit is a fault where it stands, and so is a digit that takes the number over its limit; the first
of them is reported.
-/

namespace FlashRing.Number

/-- Why a text is not a number in its range. -/
inductive Fault where
  | empty
  | invalidDigit
  | tooLarge
  | tooSmall
  /-- A number that the place where it stands does not admit. -/
  | outside (value : Int) (first last : Nat)
deriving DecidableEq

def Fault.text : Fault → String
  | .empty => "cannot parse integer from empty string"
  | .invalidDigit => "invalid digit found in string"
  | .tooLarge => "number too large to fit in target type"
  | .tooSmall => "number too small to fit in target type"
  | .outside value first last => s!"{value} is not in {first}..={last}"

/-- The value of an ASCII digit or letter, if it is below the base. -/
def digit? (base : Nat) (c : Char) : Option Nat :=
  let n := c.toNat
  let value :=
    if 0x30 ≤ n ∧ n ≤ 0x39 then some (n - 0x30)
    else if 0x41 ≤ n ∧ n ≤ 0x5A then some (n - 0x37)
    else if 0x61 ≤ n ∧ n ≤ 0x7A then some (n - 0x57)
    else none
  value.filter (· < base)

/-- Reads digits after those that make `value`. Passing the limit is the fault `overflow`. -/
def magnitude (base limit : Nat) (overflow : Fault) (value : Nat) :
    List Char → Except Fault Nat
  | [] => .ok value
  | c :: rest =>
    match digit? base c with
    | none => .error .invalidDigit
    | some d =>
      if limit < value * base + d then .error overflow
      else magnitude base limit overflow (value * base + d) rest

/-- A number that has no sign but possibly a plus. -/
def unsigned (base limit : Nat) : List Char → Except Fault Nat
  | [] => .error .empty
  | ['+'] => .error .invalidDigit
  | '+' :: rest => magnitude base limit .tooLarge 0 rest
  | text => magnitude base limit .tooLarge 0 text

/-- A decimal number of 64 bits with an optional sign. -/
def signed : List Char → Except Fault Int
  | [] => .error .empty
  | ['+'] => .error .invalidDigit
  | ['-'] => .error .invalidDigit
  | '+' :: rest => (magnitude 10 0x7FFFFFFFFFFFFFFF .tooLarge 0 rest).map Int.ofNat
  | '-' :: rest => (magnitude 10 0x8000000000000000 .tooSmall 0 rest).map fun n => -Int.ofNat n
  | text => (magnitude 10 0x7FFFFFFFFFFFFFFF .tooLarge 0 text).map Int.ofNat

/-- A key or a payload: a decimal number, or one in base sixteen after `0x` or `0X`. -/
def parseHalf (text : String) : Except Fault UInt16 :=
  let number :=
    match text.toList with
    | '0' :: 'x' :: rest => unsigned 16 0xFFFF rest
    | '0' :: 'X' :: rest => unsigned 16 0xFFFF rest
    | all => unsigned 10 0xFFFF all
  number.map UInt16.ofNat

/-- The largest number of words or pages. -/
def maxCount : Nat := 0xFFFFFFFF

/-- A number of words or pages, at most 32 bits wide. -/
def parseCount (text : String) : Except Fault Nat := do
  let value ← signed text.toList
  if value < 0 ∨ (maxCount : Int) < value then throw (.outside value 0 maxCount)
  return value.toNat

end FlashRing.Number
