/-!
The size and shape of block-erasable memory: words are numbered from zero, a page is a run of
`pageWords` of them, and pages follow each other without gaps.
-/

namespace FlashRing

/-- Pages that are erased whole, and the words in each. -/
structure Geometry where
  pageWords : Nat
  pageCount : Nat
deriving DecidableEq

namespace Geometry

def totalWords (g : Geometry) : Nat :=
  g.pageWords * g.pageCount

/-- The number of words fits in 32 bits, so every word has a 32-bit address. -/
def Addressable (g : Geometry) : Prop :=
  g.totalWords < 0x100000000

instance (g : Geometry) : Decidable g.Addressable :=
  inferInstanceAs (Decidable (g.totalWords < 0x100000000))

/-- The address of the first word of a page, a product of 32 bits. It only means something where the
device is addressable: on a larger one the product starts over. -/
def pageAddress (g : Geometry) (page : Nat) : Nat :=
  page * g.pageWords % 0x100000000

theorem mul_pageWords_add_le {g : Geometry} {page : Nat} (h : page < g.pageCount) :
    page * g.pageWords + g.pageWords ≤ g.totalWords := by
  unfold totalWords
  calc page * g.pageWords + g.pageWords = g.pageWords * (page + 1) := by
        rw [Nat.mul_comm, Nat.mul_succ]
    _ ≤ g.pageWords * g.pageCount := Nat.mul_le_mul_left _ h

/-- Every page of the device lies within its words. -/
theorem pageAddress_add_pageWords_le {g : Geometry} {page : Nat} (h : page < g.pageCount) :
    g.pageAddress page + g.pageWords ≤ g.totalWords :=
  Nat.le_trans (Nat.add_le_add_right (Nat.mod_le _ _) _) (mul_pageWords_add_le h)

/-- The pages of an addressable device follow each other from address zero on. -/
theorem pageAddress_eq {g : Geometry} (ha : g.Addressable) {page : Nat} (h : page ≤ g.pageCount) :
    g.pageAddress page = page * g.pageWords := by
  have hle : page * g.pageWords ≤ g.totalWords := by
    rw [totalWords, Nat.mul_comm]
    exact Nat.mul_le_mul_left _ h
  exact Nat.mod_eq_of_lt (Nat.lt_of_le_of_lt hle ha)

end Geometry

end FlashRing
