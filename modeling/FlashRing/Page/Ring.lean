import FlashRing.Config
import FlashRing.Error
import FlashRing.Page.Basic

/-!
The ring of pages that a store owns: consecutive pages of a device, used in turn. A ring is only
made where every page holds at least one slot and lies on the device.
-/

namespace FlashRing

/-- The pages `base`, `base + 1`, … of a device, `count` of them. -/
structure PageRing where
  geometry : Geometry
  base : Nat
  count : Nat
  two_le_pageWords : 2 ≤ geometry.pageWords
  addressable : geometry.Addressable
  two_le_count : 2 ≤ count
  base_add_count_le : base + count ≤ geometry.pageCount
deriving DecidableEq

namespace PageRing

/-- The ring that a configuration asks for. The page size is checked first, then the size of the
device, last the place of the ring. -/
def layout (geometry : Geometry) (config : Config) : Except Error PageRing :=
  let count := max config.ringPages 2
  let stop := config.basePage + count
  if hw : geometry.pageWords < 2 then
    .error (.config (.pageTooSmall geometry.pageWords))
  else if ha : ¬geometry.Addressable then
    .error (.config (.unaddressable geometry.pageCount geometry.pageWords))
  else if hs : geometry.pageCount < stop then
    .error (.config (.ringOutside config.basePage stop geometry.pageCount))
  else
    .ok {
      geometry := geometry
      base := config.basePage
      count := count
      two_le_pageWords := by omega
      addressable := Decidable.not_not.mp ha
      two_le_count := Nat.le_max_right ..
      base_add_count_le := by omega }

/-- The page at a position of the ring. -/
def page (ring : PageRing) (index : Nat) : Page :=
  .locate ring.geometry index (ring.base + index)

/-- Every page of the ring in order. -/
def pages (ring : PageRing) : List Page :=
  (List.range ring.count).map ring.page

/-- The number of slots in each page. -/
def capacity (ring : PageRing) : Nat :=
  ring.geometry.pageWords - 1

/-- The position after a given one; the first follows the last. -/
def next (ring : PageRing) (index : Nat) : Nat :=
  (index + 1) % ring.count

theorem capacity_page (ring : PageRing) (index : Nat) :
    (ring.page index).capacity = ring.capacity := rfl

theorem next_lt (ring : PageRing) (index : Nat) : ring.next index < ring.count :=
  Nat.mod_lt _ (by have := ring.two_le_count; omega)

/-- A page never follows itself, as a ring has at least two. -/
theorem next_ne (ring : PageRing) {index : Nat} (h : index < ring.count) :
    ring.next index ≠ index := by
  have := ring.two_le_count
  unfold next
  rcases Nat.lt_or_ge (index + 1) ring.count with hlt | hge
  · rw [Nat.mod_eq_of_lt hlt]
    omega
  · rw [show index + 1 = ring.count by omega, Nat.mod_self]
    omega

/-- Every page of the ring lies within the words of the device. -/
theorem page_start_add_words_le (ring : PageRing) {index : Nat} (h : index < ring.count) :
    (ring.page index).start + (ring.page index).words ≤ ring.geometry.totalWords :=
  Geometry.pageAddress_add_pageWords_le (by have := ring.base_add_count_le; omega)

end PageRing

end FlashRing
