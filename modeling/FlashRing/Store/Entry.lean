import FlashRing.Store.Rotation

/-!
Single payloads: reading looks for the newest slot of a key, writing appends one, deleting clears
the key of every slot that holds it, so that no older payload comes back.
-/

namespace FlashRing.Store

variable {δ : Type} [Device δ]

/-- The payload of a key, if it was written and not deleted since. -/
def read (key : UInt16) : StoreM δ (Option UInt16) := fenced do
  let page ← activePage
  checkKey key
  return (← observe page.log).newest? key

/-- Puts a payload under a key. Nothing is written if the payload is there already; a full page
makes the store rotate. -/
def write (key payload : UInt16) : StoreM δ Unit := fenced do
  let page ← activePage
  checkKey key
  let log ← observe page.log
  unless log.newest? key = some payload do
    unless ← append page ⟨key, payload⟩ do rotate (some ⟨key, payload⟩)

/-- Deletes a key: the key half of all its slots is cleared, the oldest slot last. The result tells
whether there was any. -/
def delete (key : UInt16) : StoreM δ Bool := fenced do
  let page ← activePage
  checkKey key
  let log ← observe page.log
  let found := (page.slotAddresses.zip log).reverse.filter (·.2.key == key)
  found.forM fun (address, _) => program address Slot.tombstoneWord
  return !found.isEmpty

/-- Every key with its payload, in ascending order of the keys. -/
def entries : StoreM δ (List (UInt16 × UInt16)) := fenced do
  let page ← activePage
  return (← observe page.log).entries

end FlashRing.Store
