import FlashRing.Word

/-!
A slot is one word of a page after the header: the key in the high half, the payload in the low
half. A slot that was never written is all ones; clearing the key half deletes a slot in place.
-/

namespace FlashRing

/-- The keys that callers may use: all but those of free and of deleted slots. -/
def isCallerKey (key : UInt16) : Bool :=
  key != 0xFFFF && key != 0x0000

/-- A decoded slot word. -/
structure Slot where
  key : UInt16
  payload : UInt16
deriving DecidableEq

namespace Slot

def decode (word : UInt32) : Slot where
  key := (word >>> 16).toUInt16
  payload := word.toUInt16

def encode (slot : Slot) : UInt32 :=
  (slot.key.toUInt32 <<< 16) ||| slot.payload.toUInt32

/-- Untouched since the last erase. -/
def isFree (slot : Slot) : Bool :=
  slot.key == 0xFFFF && slot.payload == 0xFFFF

/-- Holds a payload of a caller. -/
def isLive (slot : Slot) : Bool :=
  isCallerKey slot.key

/-- Deleted in place. -/
def isTombstone (slot : Slot) : Bool :=
  slot.key == 0x0000

/-- The word that clears the key half of a slot and keeps its payload. -/
def tombstoneWord : UInt32 := 0x0000FFFF

/-- The key is the upper half of the word, the payload the lower one. -/
theorem toNat_encode (slot : Slot) :
    slot.encode.toNat = slot.key.toNat * 0x10000 + slot.payload.toNat := by
  have hk := slot.key.toNat_lt
  have hp := slot.payload.toNat_lt
  rw [encode, UInt32.toNat_or, UInt32.toNat_shiftLeft]
  simp only [UInt16.toNat_toUInt32]
  rw [show (16 : UInt32).toNat % 32 = 16 from rfl,
    Nat.mod_eq_of_lt (by rw [Nat.shiftLeft_eq]; omega), ← Nat.shiftLeft_add_eq_or_of_lt hp,
    Nat.shiftLeft_eq]

theorem toNat_key_decode (word : UInt32) : (decode word).key.toNat = word.toNat / 0x10000 := by
  have hw := word.toNat_lt
  simp only [decode, UInt32.toNat_toUInt16, UInt32.toNat_shiftRight]
  rw [show (16 : UInt32).toNat % 32 = 16 from rfl, Nat.shiftRight_eq_div_pow]
  omega

theorem toNat_payload_decode (word : UInt32) :
    (decode word).payload.toNat = word.toNat % 0x10000 := by
  simp [decode]

theorem decode_encode (slot : Slot) : decode slot.encode = slot := by
  have hp := slot.payload.toNat_lt
  have key : (decode slot.encode).key = slot.key := by
    apply UInt16.toNat_inj.mp
    rw [toNat_key_decode, toNat_encode]
    omega
  have payload : (decode slot.encode).payload = slot.payload := by
    apply UInt16.toNat_inj.mp
    rw [toNat_payload_decode, toNat_encode]
    omega
  cases hd : decode slot.encode
  cases slot
  simp_all

theorem encode_decode (word : UInt32) : (decode word).encode = word := by
  apply UInt32.toNat_inj.mp
  rw [toNat_encode, toNat_key_decode, toNat_payload_decode]
  omega

/-- A slot is free exactly if its word is the erased one. -/
theorem isFree_decode (word : UInt32) : (decode word).isFree = (word == erasedWord) := by
  rw [Bool.eq_iff_iff]
  simp only [isFree, Bool.and_eq_true, beq_iff_eq, ← UInt16.toNat_inj, toNat_key_decode,
    toNat_payload_decode, ← UInt32.toNat_inj]
  have hw := word.toNat_lt
  have he : erasedWord.toNat = 0xFFFFFFFF := rfl
  have hf : (0xFFFF : UInt16).toNat = 0xFFFF := rfl
  omega

end Slot

end FlashRing
