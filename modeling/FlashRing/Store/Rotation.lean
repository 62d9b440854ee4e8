import FlashRing.Store.Basic

/-!
Rotation frees the space of old slots: what counts moves from the active page into the next page of
the ring, then the old page is erased. The statuses on flash tell at every moment how far it got,
so a rotation that was cut goes on where it stopped.
-/

namespace FlashRing.Store

variable {δ : Type} [Device δ]

/-- Writes a slot into a page that has to have room for it. -/
def appendOrFail (page : Page) (slot : Slot) : StoreM δ Unit := do
  unless ← append page slot do throw (.storeFull (page.capacity + 1) page.capacity)

/-- Copies a live slot into a page that does not hold its key yet. -/
def copy (page : Page) (slot : Slot) : StoreM δ Unit := do
  if slot.isLive then
    unless ← observe (page.holds slot.key) do appendOrFail page slot

/-- The wrap counter of a page that takes over from one with the counter `count`: it grows when the
ring starts anew, up to the largest that can be told from an unprogrammed one. -/
def nextCounter (target : Page) (count : Nat) : Nat :=
  if target.index = 0 then min (count + 1) Header.maxCounter else count

/-- Fills a page with what counts in the log of another and lets it take over. A slot to be written
goes first, then the log is copied from its tail on, so that the newest slot of each key is the one
taken. The old page is erased before the new one becomes active. -/
def transfer (source target : Page) (carried : Option Slot) (log : SlotLog) : StoreM δ Unit := do
  program target.headerAddress Status.receiving.programWord
  carried.toList.forM (appendOrFail target)
  log.reverse.forM (copy target)
  let header ← observe source.header
  program target.headerAddress (Header.counterWord (nextCounter target header.counterOrZero))
  erase source
  program target.headerAddress Status.active.programWord
  setRoles (some { active := target.index, receiving := none })

/-- Moves what counts, and a slot to be written, into the next page or into the one that an
unfinished rotation was filling. Nothing is touched if it cannot fit. -/
def rotate (carried : Option Slot) : StoreM δ Unit := do
  let roles ← readyRoles
  let ring := (← get).ring
  let source := ring.page roles.active
  let targetIndex := roles.receiving.getD (ring.next roles.active)
  let target := ring.page targetIndex
  let log ← observe source.log
  let live := log.liveCount carried
  if target.capacity < live then throw (.storeFull live target.capacity)
  if roles.receiving.isNone then
    clean target
    setRoles (some { roles with receiving := some targetIndex })
  transfer source target carried log

/-- Moves to the next page at once, even if the active one has free slots. -/
def compact : StoreM δ Unit :=
  fenced (rotate none)

end FlashRing.Store
