import FlashRing.Text.HexBytes
import FlashRing.Text.Number
import Mathlib.Tactic.IntervalCases

/-!
Characters that stand for the values below a base of at most sixteen, with small and capital
letters alike. Main statements: a character is read as a value exactly if it stands for it, and so
is a byte.
-/

namespace FlashRing

namespace Text

/-- The character is a digit of the base, in either case, and has the value. -/
def Stands (base : Nat) (c : Char) (value : Nat) : Prop :=
  value < base ∧ c.toLower = Nat.digitChar value

theorem toNat_toLower (c : Char) :
    c.toLower.toNat = if 0x41 ≤ c.toNat ∧ c.toNat ≤ 0x5A then c.toNat + 0x20 else c.toNat := by
  have hiff : (c.val ≥ 'A'.val ∧ c.val ≤ 'Z'.val) ↔ 0x41 ≤ c.toNat ∧ c.toNat ≤ 0x5A := by
    simp only [ge_iff_le, UInt32.le_iff_toNat_le]
    rfl
  unfold Char.toLower
  by_cases h : 0x41 ≤ c.toNat ∧ c.toNat ≤ 0x5A
  · rw [dif_pos (hiff.mpr h), if_pos h]
    have hval : c.val.toNat = c.toNat := rfl
    change (c.val + 0x20).toNat = c.toNat + 0x20
    simp only [UInt32.toNat_add, UInt32.reduceToNat]
    omega
  · rw [dif_neg (mt hiff.mp h), if_neg h]

theorem toNat_digitChar {value : Nat} (h : value < 16) :
    (Nat.digitChar value).toNat = if value < 10 then 0x30 + value else 0x57 + value := by
  interval_cases value <;> rfl

theorem stands_iff {base value : Nat} {c : Char} (hb : base ≤ 16) :
    Stands base c value ↔ value < base ∧ (value < 10 ∧ c.toNat = 0x30 + value ∨
      10 ≤ value ∧ (c.toNat = 0x37 + value ∨ c.toNat = 0x57 + value)) := by
  unfold Stands
  refine and_congr_right fun hv => ?_
  have hl := toNat_toLower c
  have hd := toNat_digitChar (show value < 16 by omega)
  rw [← Char.toNat_inj, hl, hd]
  split <;> split <;> omega

theorem isHexDigit_iff {c : Char} : c.isHexDigit = true ↔ (0x30 ≤ c.toNat ∧ c.toNat ≤ 0x39) ∨
    (0x61 ≤ c.toNat ∧ c.toNat ≤ 0x66) ∨ (0x41 ≤ c.toNat ∧ c.toNat ≤ 0x46) := by
  have hval : c.val.toNat = c.toNat := rfl
  simp [Char.isHexDigit, Char.isDigit, UInt32.le_iff_toNat_le, hval, or_assoc]

/-- Every digit of base sixteen is among the digits and the first six letters. -/
theorem exists_stands_iff {c : Char} : (∃ value, Stands 16 c value) ↔ c.isHexDigit = true := by
  rw [isHexDigit_iff]
  constructor
  · rintro ⟨value, h⟩
    rw [stands_iff le_rfl] at h
    omega
  · intro h
    have hsome : ∃ value, value < 16 ∧ (value < 10 ∧ c.toNat = 0x30 + value ∨
        10 ≤ value ∧ (c.toNat = 0x37 + value ∨ c.toNat = 0x57 + value)) := by
      rcases h with h | h | h
      · exact ⟨c.toNat - 0x30, by omega⟩
      · exact ⟨c.toNat - 0x57, by omega⟩
      · exact ⟨c.toNat - 0x37, by omega⟩
    exact hsome.imp fun value hvalue => (stands_iff le_rfl).mpr hvalue

/-- No character of ASCII that is seen is white space. -/
theorem isBlank_of_seen {c : Char} (hlow : 0x20 < c.toNat) (hhigh : c.toNat < 0x7F) :
    isBlank c = false := by
  simp only [isBlank, blankRanges, List.any_cons, List.any_nil, Bool.or_false, Bool.or_eq_false_iff,
    Bool.and_eq_false_iff, decide_eq_false_iff_not]
  omega

end Text

namespace Number

theorem digit?_eq_some_iff {base value : Nat} {c : Char} (hb : base ≤ 16) :
    digit? base c = some value ↔ Text.Stands base c value := by
  rw [Text.stands_iff hb]
  unfold digit?
  dsimp only
  rw [Option.filter_eq_some_iff, decide_eq_true_iff]
  split
  · rw [Option.some_inj]
    omega
  · split
    · rw [Option.some_inj]
      omega
    · split
      · rw [Option.some_inj]
        omega
      · simp only [reduceCtorEq, false_and, false_iff]
        omega

end Number

namespace HexBytes

theorem toNat_ofUInt8 (byte : UInt8) : (Char.ofUInt8 byte).toNat = byte.toNat := rfl

theorem value?_eq_some_iff {byte value : UInt8} :
    value? byte = some value ↔ Text.Stands 16 (Char.ofUInt8 byte) value.toNat := by
  have hbyte := byte.toNat_lt
  rw [Text.stands_iff le_rfl, toNat_ofUInt8]
  unfold value?
  simp only [UInt8.le_iff_toNat_le, UInt8.reduceToNat]
  split
  · rw [Option.some_inj, ← UInt8.toNat_inj, UInt8.toNat_sub]
    simp only [UInt8.reduceToNat]
    omega
  · split
    · rw [Option.some_inj, ← UInt8.toNat_inj, UInt8.toNat_sub]
      simp only [UInt8.reduceToNat]
      omega
    · split
      · rw [Option.some_inj, ← UInt8.toNat_inj, UInt8.toNat_sub]
        simp only [UInt8.reduceToNat]
        omega
      · simp only [reduceCtorEq, false_iff]
        omega

end HexBytes

end FlashRing
