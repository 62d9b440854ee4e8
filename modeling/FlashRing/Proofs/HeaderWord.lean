import FlashRing.Page.Header
import FlashRing.Word

/-!
Header words as they are programmed step by step: programming the counter leaves the status, and
programming the status leaves the counter.
-/

namespace FlashRing.Header

/-- The header of a page that a rotation has begun to fill. -/
def receivingWord : UInt32 :=
  Status.receiving.programWord

/-- The header of a page that a rotation has filled. -/
def countedWord (count : Nat) : UInt32 :=
  receivingWord &&& counterWord count

/-- The header of a page in use. -/
def activeWord (count : Nat) : UInt32 :=
  Status.active.programWord &&& counterWord count

theorem shiftRight_counterWord (count : Nat) : (counterWord count >>> 24).toUInt8 = 0xFF := by
  rw [counterWord, UInt32.shiftRight_or, UInt32.shiftRight_and, UInt32.toUInt8_or,
    UInt32.toUInt8_and, show ((0xFF000000 : UInt32) >>> 24).toUInt8 = 0xFF from rfl,
    show (counterMask >>> 24).toUInt8 = 0 from rfl, UInt8.and_zero, UInt8.or_zero]

theorem status_and_counterWord (word : UInt32) (count : Nat) :
    (decode (word &&& counterWord count)).status = (decode word).status := by
  simp only [decode, UInt32.shiftRight_and, UInt32.toUInt8_and, shiftRight_counterWord]
  rw [show (0xFF : UInt8) = -1 from rfl, UInt8.and_neg_one]

theorem status_and_active (word : UInt32) :
    (decode (word &&& Status.active.programWord)).status = .active := by
  have hzero : (Status.active.programWord >>> 24).toUInt8 = 0 := by decide
  simp only [decode, UInt32.shiftRight_and, UInt32.toUInt8_and, hzero, UInt8.and_zero]
  rfl

theorem status_receivingWord : (decode receivingWord).status = .receiving := by
  decide

theorem status_countedWord (count : Nat) : (decode (countedWord count)).status = .receiving := by
  rw [countedWord, status_and_counterWord, status_receivingWord]

theorem status_activeWord (count : Nat) : (decode (activeWord count)).status = .active := by
  rw [activeWord, UInt32.and_comm]
  exact status_and_active _

theorem erasedWord_and_receiving : erasedWord &&& Status.receiving.programWord = receivingWord := by
  decide

theorem receivingWord_and_receiving :
    receivingWord &&& Status.receiving.programWord = receivingWord :=
  UInt32.and_self

theorem countedWord_and_receiving (count : Nat) :
    countedWord count &&& Status.receiving.programWord = countedWord count := by
  rw [countedWord, UInt32.and_comm, ← UInt32.and_assoc, UInt32.and_comm _ receivingWord,
    receivingWord_and_receiving]

theorem countedWord_and_counterWord (count : Nat) :
    countedWord count &&& counterWord count = countedWord count := by
  rw [countedWord, UInt32.and_assoc, UInt32.and_self]

/-- The last step of a rotation makes the filled page the one in use. -/
theorem countedWord_and_active (count : Nat) :
    countedWord count &&& Status.active.programWord = activeWord count := by
  rw [countedWord, UInt32.and_comm, ← UInt32.and_assoc, activeWord]
  rfl

/-- The header of a page that was erased, filled by a rotation and taken into use. -/
theorem erasedWord_and_activeWord (count : Nat) :
    erasedWord &&& Status.receiving.programWord &&& counterWord count &&&
      Status.active.programWord = activeWord count := by
  rw [erasedWord_and_receiving]
  exact countedWord_and_active count

theorem activeWord_one :
    (erasedWord &&& counterWord 1) &&& Status.active.programWord = activeWord 1 := by
  decide

theorem counter?_activeWord {count : Nat} (h : count ≤ maxCounter) :
    (decode (activeWord count)).counter? = some count := by
  have hmask : activeWord count &&& counterMask = UInt32.ofNat count &&& counterMask := by
    have hlow : counterWord count &&& counterMask = UInt32.ofNat count &&& counterMask := by
      apply UInt32.toBitVec_inj.mp
      have hand : counterMask.toBitVec &&& (0xFF000000 : UInt32).toBitVec = 0#32 := by decide
      simp only [counterWord, UInt32.toBitVec_and, UInt32.toBitVec_or]
      rw [BitVec.and_comm, BitVec.and_or_distrib_left, hand, BitVec.zero_or, BitVec.and_comm,
        BitVec.and_assoc, BitVec.and_self]
    rw [activeWord, show Status.active.programWord = counterMask from rfl, UInt32.and_assoc, hlow,
      UInt32.and_comm, UInt32.and_assoc, UInt32.and_self]
  have hnat : (UInt32.ofNat count &&& counterMask).toNat = count := by
    unfold maxCounter at h
    rw [UInt32.toNat_and, show counterMask.toNat = 2 ^ 24 - 1 from rfl,
      Nat.and_two_pow_sub_one_eq_mod, UInt32.toNat_ofNat', Nat.mod_eq_of_lt (by omega),
      Nat.mod_eq_of_lt (by omega)]
  have hne : UInt32.ofNat count &&& counterMask ≠ counterMask := by
    intro he
    unfold maxCounter at h
    rw [he, show counterMask.toNat = 0xFFFFFF from rfl] at hnat
    omega
  simp only [decode, counter?, hmask, if_neg hne, hnat]

theorem counterOrZero_activeWord {count : Nat} (h : count ≤ maxCounter) :
    (decode (activeWord count)).counterOrZero = count := by
  rw [counterOrZero, counter?_activeWord h, Option.getD_some]

/-- Whatever the header, its counter can be programmed again. -/
theorem counterOrZero_le (word : UInt32) : (decode word).counterOrZero ≤ maxCounter := by
  have hlt : (word &&& counterMask).toNat < 2 ^ 24 := by
    rw [UInt32.toNat_and, show counterMask.toNat = 2 ^ 24 - 1 from rfl,
      Nat.and_two_pow_sub_one_eq_mod]
    exact Nat.mod_lt _ (by decide)
  unfold counterOrZero counter? maxCounter
  split
  next => exact Nat.zero_le _
  next hne =>
    have hnat : (word &&& counterMask).toNat ≠ counterMask.toNat :=
      fun he => hne (UInt32.toNat_inj.mp he)
    rw [show counterMask.toNat = 0xFFFFFF from rfl] at hnat
    rw [Option.getD_some]
    change (word &&& counterMask).toNat ≤ 0xFFFFFE
    omega

/-- The page that was filled takes its counter along when it becomes the one in use. -/
theorem counter?_countedWord (count : Nat) :
    (decode (countedWord count)).counter? = (decode (activeWord count)).counter? := by
  have hmask : ∀ status : UInt32, status &&& counterMask = counterMask →
      status &&& counterWord count &&& counterMask = counterWord count &&& counterMask := by
    intro status hs
    rw [UInt32.and_assoc, UInt32.and_comm (counterWord count), ← UInt32.and_assoc, hs,
      UInt32.and_comm]
  have hcounted := hmask receivingWord (by decide)
  have hactive := hmask Status.active.programWord (by decide)
  simp only [counter?, decode, countedWord, activeWord, hcounted, hactive]

end FlashRing.Header
