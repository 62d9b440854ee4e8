import FlashRing.Device.Basic
import FlashRing.Device.Memory

/-!
Flash kept in memory, with a count of the erases of each page and a power supply that can be cut
before any program or erase. An operation without power leaves the words as they are.
-/

namespace FlashRing

/-- The power supply of a device. -/
inductive Power where
  | steady
  /-- Power for so many more programs and erases. -/
  | budget (left : Nat)
  /-- An operation found no power, and none after it does. -/
  | off
deriving DecidableEq

/-- Takes the power for one operation. -/
def Power.draw (operation : Mutation) : EStateM DeviceFault Power Unit
  | .steady => .ok () .steady
  | .budget 0 => .error (.powerCut operation) .off
  | .budget (left + 1) => .ok () (.budget left)
  | .off => .error (.poweredDown operation) .off

/-- Flash kept in memory. -/
structure Ram where
  geometry : Geometry
  words : Array UInt32
  /-- How often each page was erased. The device itself keeps 32 bits of it, the `eraseTally`. -/
  wear : Array Nat
  /-- The programs and erases that succeeded. -/
  mutations : Nat
  power : Power
  size_words : words.size = geometry.totalWords
  size_wear : wear.size = geometry.pageCount

namespace Ram

/-- A device that was never written. -/
def fresh (geometry : Geometry) : Ram where
  geometry := geometry
  words := Array.replicate geometry.totalWords erasedWord
  wear := Array.replicate geometry.pageCount 0
  mutations := 0
  power := .steady
  size_words := Array.size_replicate
  size_wear := Array.size_replicate

/-- The word at an address. -/
def read (ram : Ram) (address : Nat) : Except Error UInt32 :=
  if h : address < ram.words.size then .ok ram.words[address]
  else .error (ram.geometry.outOfRange .ram address 1)

/-- Programs consecutive words. The range is checked before power is drawn. -/
def program (address : Nat) (values : List UInt32) : EStateM Error Ram Unit := fun ram =>
  if ram.geometry.totalWords < address + values.length then
    .error (ram.geometry.outOfRange .ram address values.length) ram
  else
    match Power.draw .program ram.power with
    | .error fault power => .error (.blockDevice fault) { ram with power := power }
    | .ok _ power => .ok () { ram with
        words := Memory.program ram.words address values
        mutations := ram.mutations + 1
        power := power
        size_words := by rw [Memory.size_program, ram.size_words] }

/-- Erases a page. The number of the page is checked before power is drawn. -/
def erase (page : Nat) : EStateM Error Ram Unit := fun ram =>
  if ram.geometry.pageCount ≤ page then .error (ram.geometry.noSuchPage .ram page) ram
  else
    match Power.draw .erase ram.power with
    | .error fault power => .error (.blockDevice fault) { ram with power := power }
    | .ok _ power => .ok () { ram with
        words := Memory.erase ram.words (ram.geometry.pageAddress page) ram.geometry.pageWords
        wear := ram.wear.modify page (· + 1)
        mutations := ram.mutations + 1
        power := power
        size_words := by rw [Memory.size_erase, ram.size_words]
        size_wear := by rw [Array.size_modify, ram.size_wear] }

instance : Device Ram where
  geometry := Ram.geometry
  read := read
  program := program
  erase := erase

/-- Cuts the power after `count` more programs and erases. -/
def failAfter (ram : Ram) (count : Nat) : Ram :=
  { ram with power := .budget count }

/-- Brings the power back. -/
def restorePower (ram : Ram) : Ram :=
  { ram with power := .steady }

/-- Overwrites a word as a defect of the memory would, without regard to flash. -/
def corrupt (ram : Ram) (address : Nat) (word : UInt32) : Ram :=
  { ram with
    words := ram.words.setIfInBounds address word
    size_words := by rw [Array.size_setIfInBounds, ram.size_words] }

/-- The words of a page. -/
def pageWords (ram : Ram) (page : Nat) : List UInt32 :=
  let start := ram.geometry.pageAddress page
  (ram.words.extract start (start + ram.geometry.pageWords)).toList

/-- Every word of the page is erased. -/
def isPageErased (ram : Ram) (page : Nat) : Bool :=
  (ram.pageWords page).all (· == erasedWord)

/-- How often a page was erased. -/
def eraseCount (ram : Ram) (page : Nat) : Nat :=
  ram.wear.getD page 0

/-- The device's own count of the erases of a page, which starts over after 32 bits. -/
def eraseTally (ram : Ram) (page : Nat) : UInt32 :=
  .ofNat (ram.eraseCount page)

end Ram

end FlashRing
