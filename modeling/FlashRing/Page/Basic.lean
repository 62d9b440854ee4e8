import FlashRing.Page.Header
import FlashRing.Page.Slot

/-!
Where a page of the ring lies on the device: one header word, then slots up to the end of the page.
-/

namespace FlashRing

/-- The place of one ring page. -/
structure Page where
  /-- The position in the ring. -/
  index : Nat
  /-- The number of the page on the device, by which it is erased. -/
  devicePage : Nat
  /-- The address of the first word. -/
  start : Nat
  words : Nat
deriving DecidableEq

namespace Page

/-- The ring page `index`, kept in the page `devicePage` of a device. -/
def locate (geometry : Geometry) (index devicePage : Nat) : Page where
  index := index
  devicePage := devicePage
  start := geometry.pageAddress devicePage
  words := geometry.pageWords

/-- The number of slots: every word but the header. -/
def capacity (page : Page) : Nat :=
  page.words - 1

def headerAddress (page : Page) : Nat :=
  page.start

/-- The address of a slot, counted from the head of the page. -/
def slotAddress (page : Page) (slot : Nat) : Nat :=
  page.start + 1 + slot

/-- Every address of the page, header first. -/
def addresses (page : Page) : List Nat :=
  List.range' page.start page.words

/-- The addresses of the slots, head first. -/
def slotAddresses (page : Page) : List Nat :=
  List.range' (page.start + 1) page.capacity

end Page

end FlashRing
