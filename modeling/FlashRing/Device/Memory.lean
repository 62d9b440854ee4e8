import FlashRing.Word

/-!
What programming and erasing do to an array of words. Both keep its size; the two main statements
say for every address what stands there afterwards.
-/

namespace FlashRing.Memory

/-- Programs consecutive words from `address` on: each keeps the bits that both words have. -/
def program (words : Array UInt32) (address : Nat) : List UInt32 → Array UInt32
  | [] => words
  | value :: rest => program (words.modify address (· &&& value)) (address + 1) rest

/-- Erases `count` words from `address` on. -/
def erase (words : Array UInt32) (address : Nat) : Nat → Array UInt32
  | 0 => words
  | count + 1 => erase (words.setIfInBounds address erasedWord) (address + 1) count

@[simp] theorem size_program (words : Array UInt32) (address : Nat) (values : List UInt32) :
    (program words address values).size = words.size := by
  induction values generalizing words address with
  | nil => rfl
  | cons value rest ih => rw [program, ih, Array.size_modify]

@[simp] theorem size_erase (words : Array UInt32) (address count : Nat) :
    (erase words address count).size = words.size := by
  induction count generalizing words address with
  | zero => rfl
  | succ count ih => rw [erase, ih, Array.size_setIfInBounds]

/-- Programming clears bits of the words in its range and leaves all others. -/
theorem getElem?_program (words : Array UInt32) (address : Nat) (values : List UInt32) (i : Nat) :
    (program words address values)[i]? =
      if address ≤ i ∧ i < address + values.length then
        words[i]?.map (· &&& values.getD (i - address) 0)
      else words[i]? := by
  induction values generalizing words address with
  | nil =>
    rw [program, if_neg (by simp only [List.length_nil]; omega)]
  | cons value rest ih =>
    rw [program, ih, Array.getElem?_modify]
    rcases Nat.lt_trichotomy i address with h | h | h
    · rw [if_neg (by omega), if_neg (by omega), if_neg (by omega)]
    · subst h
      rw [if_neg (by omega), if_pos rfl, if_pos (by simp only [List.length_cons]; omega)]
      simp
    · rw [if_neg (show ¬address = i by omega)]
      by_cases hi : i < address + (value :: rest).length
      · simp only [List.length_cons] at hi
        rw [if_pos (by omega), if_pos (by simp only [List.length_cons]; omega),
          show i - address = (i - (address + 1)) + 1 by omega, List.getD_cons_succ]
      · simp only [List.length_cons] at hi
        rw [if_neg (by omega), if_neg (by simp only [List.length_cons]; omega)]

/-- Erasing sets the words in its range and leaves all others. -/
theorem getElem?_erase (words : Array UInt32) (address count i : Nat) :
    (erase words address count)[i]? =
      if address ≤ i ∧ i < address + count ∧ i < words.size then some erasedWord
      else words[i]? := by
  induction count generalizing words address with
  | zero => rw [erase, if_neg (by omega)]
  | succ count ih =>
    rw [erase, ih, Array.size_setIfInBounds, Array.getElem?_setIfInBounds]
    rcases Nat.lt_trichotomy i address with h | h | h
    · rw [if_neg (by omega), if_neg (by omega), if_neg (by omega)]
    · subst h
      rw [if_neg (by omega), if_pos rfl]
      by_cases hi : i < words.size
      · rw [if_pos hi, if_pos (by omega)]
      · rw [if_neg hi, if_neg (by omega), Array.getElem?_eq_none (by omega)]
    · rw [if_neg (show ¬address = i by omega)]
      by_cases hi : i < address + (count + 1) ∧ i < words.size
      · rw [if_pos (by omega), if_pos (by omega)]
      · rw [if_neg (by omega), if_neg (by omega)]

end FlashRing.Memory
