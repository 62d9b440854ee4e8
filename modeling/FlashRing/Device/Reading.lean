import FlashRing.Device.Basic
import FlashRing.Page.Basic
import FlashRing.Page.Log

/-!
What the pages of a device hold. A reading reports the first word that cannot be read; where a part
of the page settles the answer, the rest is not read.
-/

namespace FlashRing.Page

variable {δ : Type} [Device δ]

/-- The header of the page. -/
def header (page : Page) (device : δ) : Except Error Header := do
  return .decode (← Device.read device page.headerAddress)

/-- Every slot of the page, head first. -/
def log (page : Page) (device : δ) : Except Error SlotLog :=
  page.slotAddresses.mapM fun address => return .decode (← Device.read device address)

/-- Every word of the page, header first. -/
def contents (page : Page) (device : δ) : Except Error (List UInt32) :=
  page.addresses.mapM (Device.read device)

/-- Every word of the page is erased, the header included. -/
def isErased (page : Page) (device : δ) : Except Error Bool :=
  page.addresses.allM fun address => return (← Device.read device address) == erasedWord

/-- The address of the first free slot. -/
def firstFree? (page : Page) (device : δ) : Except Error (Option Nat) :=
  page.slotAddresses.findM? fun address =>
    return (Slot.decode (← Device.read device address)).isFree

/-- Some slot before the first free one has the key. -/
def holds (page : Page) (key : UInt16) (device : δ) : Except Error Bool := do
  let decisive ← page.slotAddresses.findSomeM? fun address => do
    let slot := Slot.decode (← Device.read device address)
    return if slot.isFree then some false else if slot.key == key then some true else none
  return decisive.getD false

end FlashRing.Page
