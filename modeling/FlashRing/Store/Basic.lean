import FlashRing.Device.Reading
import FlashRing.Page.Ring

/-!
A store keeps 16-bit payloads under 16-bit keys in the pages of a ring. It is ready once it knows
the active page; a failure of the device makes it forget its pages until it is started again.
-/

namespace FlashRing

/-- The pages a ready store works with, by their positions in the ring. -/
structure Roles where
  /-- The page that holds the contents. -/
  active : Nat
  /-- The page that an unfinished rotation fills. -/
  receiving : Option Nat
deriving DecidableEq

/-- A store on a device. -/
structure Store (δ : Type) where
  device : δ
  config : Config
  ring : PageRing
  /-- The pages in use; none while the store is not ready. -/
  roles : Option Roles

/-- An operation of a store. What it did to the device stays done when it fails. -/
abbrev StoreM (δ : Type) := EStateM Error (Store δ)

namespace Store

variable {δ : Type} {α : Type}

/-- A store on a device, which is not touched: the store still has to be started or formatted. -/
def attach [Device δ] (device : δ) (config : Config) : Except Error (Store δ) := do
  let ring ← PageRing.layout (Device.geometry device) config
  return { device := device, config := config, ring := ring, roles := none }

def isReady (store : Store δ) : Bool :=
  store.roles.isSome

/-- The position of the active page. -/
def active? (store : Store δ) : Option Nat :=
  store.roles.map (·.active)

/-- The position of the page that an unfinished rotation fills. -/
def receiving? (store : Store δ) : Option Nat :=
  store.roles.bind (·.receiving)

/-- Reads from the device. -/
def observe (reading : δ → Except Error α) : StoreM δ α := fun store =>
  match reading store.device with
  | .ok a => .ok a store
  | .error e => .error e store

/-- Changes the device. -/
def alter (change : EStateM Error δ α) : StoreM δ α := fun store =>
  match change store.device with
  | .ok a device => .ok a { store with device := device }
  | .error e device => .error e { store with device := device }

/-- Runs an operation and makes the store forget its pages if the device failed in it. -/
def fenced (operation : StoreM δ α) : StoreM δ α := fun store =>
  match operation store with
  | .ok a after => .ok a after
  | .error e after => .error e (if e.isDeviceFailure then { after with roles := none } else after)

def setRoles (roles : Option Roles) : StoreM δ Unit :=
  modify fun store => { store with roles := roles }

/-- The pages in use, if the store is ready. -/
def readyRoles : StoreM δ Roles := do
  match (← get).roles with
  | some roles => return roles
  | none => throw .notInitialized

/-- The active page, if the store is ready. -/
def activePage : StoreM δ Page := do
  let roles ← readyRoles
  return (← get).ring.page roles.active

/-- Refuses the keys of free and of deleted slots. -/
def checkKey (key : UInt16) : StoreM δ Unit :=
  if isCallerKey key then pure () else throw (.invalidKey key)

variable [Device δ]

/-- Programs one word. -/
def program (address : Nat) (word : UInt32) : StoreM δ Unit :=
  alter (Device.program address [word])

/-- Erases a page of the ring. -/
def erase (page : Page) : StoreM δ Unit :=
  alter (Device.erase page.devicePage)

/-- Erases a page unless it is erased. -/
def clean (page : Page) : StoreM δ Unit := do
  unless ← observe page.isErased do erase page

/-- Writes a slot into the first free place of a page; false if the page is full. -/
def append (page : Page) (slot : Slot) : StoreM δ Bool := do
  match ← observe page.firstFree? with
  | some address =>
    program address slot.encode
    return true
  | none => return false

end Store

end FlashRing
