import FlashRing.Store.Entry

/-!
Short byte strings over consecutive keys, one byte in the low half of each payload. An array with a
length prefix keeps its length in the high half of its first payload; one without is as long as its
reader says.
-/

namespace FlashRing

/-- The key some positions after a base, if callers may use it. -/
def offsetKey (base : UInt16) (offset : Nat) : Option UInt16 :=
  let key := base.toNat + offset
  if key < 0xFFFF ∧ key ≠ 0 then some (UInt16.ofNat key) else none

/-- The length that the first payload of an array tells. -/
def arrayLength (head : UInt16) : Nat :=
  (head >>> 8).toNat

/-- The payloads of an array with a length prefix. -/
def prefixedPayloads : List UInt8 → List UInt16
  | [] => []
  | first :: rest =>
    ((UInt16.ofNat (rest.length + 1) <<< 8) ||| first.toUInt16) :: rest.map (·.toUInt16)

namespace Store

variable {δ : Type} [Device δ]

/-- The bytes under consecutive keys up to the first key that holds nothing. -/
def readRun (base : UInt16) (offset : Nat) : Nat → StoreM δ (List UInt8)
  | 0 => return []
  | count + 1 => do
    match offsetKey base offset with
    | none => return []
    | some key =>
      match ← read key with
      | none => return []
      | some payload => return payload.toUInt8 :: (← readRun base (offset + 1) count)

/-- Puts payloads under consecutive keys. -/
def writeRun (base : UInt16) (offset : Nat) : List UInt16 → StoreM δ Unit
  | [] => return ()
  | payload :: rest => do
    (offsetKey base offset).toList.forM (write · payload)
    writeRun base (offset + 1) rest

/-- Deletes consecutive keys as far as callers may use them; tells whether there was any. -/
def deleteRun (base : UInt16) (offset : Nat) : Nat → StoreM δ Bool
  | 0 => return false
  | count + 1 => do
    match offsetKey base offset with
    | none => return false
    | some key =>
      let here ← delete key
      let later ← deleteRun base (offset + 1) count
      return here || later

/-- Refuses an array that would not lie within the keys of callers. -/
def checkRange (key : UInt16) (length : Nat) : StoreM δ Unit := do
  checkKey key
  if (offsetKey key (length - 1)).isNone then throw (.invalidKey key)

/-- The bytes of an array, or a failure that brings what is there if some are missing. -/
def complete (bytes : List UInt8) (expected : Nat) : StoreM δ (List UInt8) :=
  if bytes.length < expected then throw (.partialArrayRead bytes expected) else return bytes

/-- The largest capacity of a vector of bytes on a host of 64 bits, its greatest signed number. -/
def maxCapacity : Nat :=
  0x7FFFFFFFFFFFFFFF

/-- Makes room for bytes before any of them is read. -/
def reserve (count : Nat) : StoreM δ Unit :=
  if count ≤ maxCapacity then pure () else throw .capacityOverflow

/-- Reads an array with a length prefix. -/
def readArray (key : UInt16) : StoreM δ (Option (List UInt8)) := do
  match ← read key with
  | none => return none
  | some head =>
    match arrayLength head with
    | 0 => return some []
    | rest + 1 =>
      let bytes ← readRun key 1 rest
      return some (← complete (head.toUInt8 :: bytes) (rest + 1))

/-- Reads an array whose length the caller knows. Room for all of it is made first. -/
def readArrayOfLength (key : UInt16) (count : Nat) : StoreM δ (Option (List UInt8)) := do
  let _ ← readyRoles
  checkKey key
  reserve count
  let bytes ← readRun key 0 count
  if bytes.isEmpty ∧ 0 < count then return none
  return some (← complete bytes count)

/-- Writes an array with a length prefix. An older array of another length is deleted first, so
that none of its bytes are left. -/
def writeArray (key : UInt16) (bytes : List UInt8) : StoreM δ Unit := do
  if bytes.length = 0 ∨ 255 < bytes.length then throw (.invalidLength bytes.length)
  checkRange key bytes.length
  match ← read key with
  | none => pure ()
  | some head =>
    if arrayLength head ≠ bytes.length then
      let _ ← deleteRun key 0 (max (arrayLength head) 1)
  writeRun key 0 (prefixedPayloads bytes)

/-- Writes an array without a length prefix. -/
def writeArrayOfLength (key : UInt16) (bytes : List UInt8) : StoreM δ Unit := do
  let _ ← readyRoles
  checkKey key
  unless bytes.isEmpty do
    checkRange key bytes.length
    writeRun key 0 (bytes.map (·.toUInt16))

/-- Deletes an array with a length prefix; tells whether there was any. -/
def deleteArray (key : UInt16) : StoreM δ Bool := do
  match ← read key with
  | none => return false
  | some head => deleteRun key 0 (max (arrayLength head) 1)

end Store

end FlashRing
