import FlashRing.Word

/-!
The bytes of a file and what writing at a place does to them: a file grows when it is written past
its end, and a gap that arises so is filled with zeros.
-/

namespace FlashRing

/-- The bytes of a file. -/
abbrev FileContent := Array UInt8

namespace FileContent

/-- Cuts a file to a length or fills it up with zeros. -/
def resize (content : FileContent) (length : Nat) : FileContent :=
  content.extract 0 length ++ Array.replicate (length - content.size) 0

/-- Writes bytes at an offset. Nothing happens if there are no bytes to write. -/
def overwrite (content : FileContent) (offset : Nat) (bytes : List UInt8) : FileContent :=
  if bytes.isEmpty then content
  else
    content.resize offset ++ bytes.toArray ++ content.extract (offset + bytes.length) content.size

/-- The word at a word address, if the file holds all four bytes of it. -/
def word? (content : FileContent) (address : Nat) : Option UInt32 :=
  if h : 4 * address + 4 ≤ content.size then
    some (Word.ofBytes content[4 * address] content[4 * address + 1] content[4 * address + 2]
      content[4 * address + 3])
  else none

/-- Every whole word of the file; up to three bytes at the end make none. -/
def words (content : FileContent) : List UInt32 :=
  (List.range (content.size / 4)).filterMap content.word?

/-- A file of erased words. -/
def erased (count : Nat) : FileContent :=
  Array.replicate (4 * count) 0xFF

@[simp] theorem size_resize (content : FileContent) (length : Nat) :
    (content.resize length).size = length := by
  simp only [resize, Array.size_append, Array.size_extract, Array.size_replicate]
  omega

/-- Writing inside a file replaces the bytes in its range and leaves all others. -/
theorem getElem?_overwrite {content : FileContent} {offset : Nat} {bytes : List UInt8}
    (h : offset + bytes.length ≤ content.size) (i : Nat) :
    (content.overwrite offset bytes)[i]? =
      if offset ≤ i ∧ i < offset + bytes.length then bytes[i - offset]? else content[i]? := by
  unfold overwrite
  split
  next he =>
    have hl : bytes.length = 0 := by simpa using he
    rw [if_neg (by omega)]
  next =>
    have hz : offset - content.size = 0 := by omega
    have hs : (content.resize offset).size = offset := size_resize content offset
    have hr : (content.resize offset)[i]? = if i < offset then content[i]? else none := by
      simp only [resize, hz, Array.replicate_zero, Array.append_empty, Array.getElem?_extract]
      simp only [Nat.zero_add]
      split
      next => rw [if_pos (by omega)]
      next => rw [if_neg (by omega)]
    rcases Nat.lt_or_ge i offset with hi | hi
    · rw [if_neg (by omega), Array.append_assoc, Array.getElem?_append_left (by omega), hr,
        if_pos hi]
    · rcases Nat.lt_or_ge i (offset + bytes.length) with hj | hj
      · rw [if_pos ⟨hi, hj⟩, Array.getElem?_append_left (by simp; omega),
          Array.getElem?_append_right (by omega), hs, List.getElem?_toArray]
      · rw [if_neg (by omega), Array.getElem?_append_right (by simp; omega),
          Array.getElem?_extract]
        simp only [Array.size_append, hs, List.size_toArray]
        split
        next => rw [show offset + bytes.length + (i - (offset + bytes.length)) = i by omega]
        next => rw [Array.getElem?_eq_none (by omega)]

end FileContent

end FlashRing
