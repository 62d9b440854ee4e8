import FlashRing.Store.Rotation

/-!
Startup reads the statuses of the ring and decides what they mean: one active page is ready for
use, a receiving page beside it is a rotation to go on with, a receiving page alone only lacks its
last step. Several pages of one of these statuses allow no decision and nothing is touched. All
other pages are cleaned.
-/

namespace FlashRing.Store

variable {δ : Type} [Device δ]

/-- The positions at which a status stands. -/
def positions (statuses : List Status) (status : Status) : List Nat :=
  statuses.zipIdx.filterMap fun (s, index) => if s = status then some index else none

/-- Erases a page that holds neither contents nor the start of a rotation, but is not erased. -/
def sweep : Page × Status → StoreM δ Unit
  | (page, .erased) => clean page
  | (page, .unknown _) => erase page
  | (_, .active) => pure ()
  | (_, .receiving) => pure ()

/-- Takes the active page and the receiving page into use. -/
def resolve : Option Nat → Option Nat → StoreM δ Unit
  | none, none => throw .unformatted
  | some active, none => setRoles (some { active := active, receiving := none })
  | none, some receiving => do
    program ((← get).ring.page receiving).headerAddress Status.active.programWord
    setRoles (some { active := receiving, receiving := none })
  | some active, some receiving => do
    setRoles (some { active := active, receiving := some receiving })
    rotate none

/-- Finds the pages in use by their statuses. -/
def scan : StoreM δ Unit := do
  setRoles none
  let pages := (← get).ring.pages
  let statuses ← observe fun device =>
    pages.mapM fun page => return (← page.header device).status
  let active := positions statuses .active
  let receiving := positions statuses .receiving
  if 1 < active.length then throw (.integrity (.severalActive active))
  if 1 < receiving.length then throw (.integrity (.severalReceiving receiving))
  (pages.zip statuses).forM sweep
  resolve active.head? receiving.head?

/-- Erases the whole ring, its last page first, and makes the first page active. -/
def wipe : StoreM δ Unit := do
  setRoles none
  let ring := (← get).ring
  ring.pages.reverse.forM clean
  let first := ring.page 0
  program first.headerAddress (Header.counterWord 1)
  program first.headerAddress Status.active.programWord
  setRoles (some { active := 0, receiving := none })

/-- Makes the store ready with what the flash holds, also after a failure of the device. -/
def init : StoreM δ Unit :=
  fenced scan

/-- Makes the store ready and empty, whatever the flash holds. -/
def format : StoreM δ Unit :=
  fenced wipe

end FlashRing.Store
