import FlashRing.Checksum
import FlashRing.Store.Basic

/-!
What the pages of a ring look like from outside: status, wear and use of each, and a check value of
its words. Reports need no ready store.
-/

namespace FlashRing

/-- The state of one page. -/
structure PageReport where
  page : Page
  status : Status
  /-- The wrap counter, if one was programmed. -/
  eraseCount : Option Nat
  /-- The slots that are not free. -/
  usedSlots : Nat
  liveKeys : Nat
  tombstones : Nat
  checksum : UInt32
deriving DecidableEq

/-- The state of a page with the given words, header first. -/
def PageReport.ofWords (page : Page) (words : List UInt32) : PageReport :=
  let header := Header.decode (words.headD erasedWord)
  let log : SlotLog := words.tail.map Slot.decode
  { page := page
    status := header.status
    eraseCount := header.counter?
    usedSlots := log.countP (!·.isFree)
    liveKeys := log.liveKeys.length
    tombstones := log.countP (·.isTombstone)
    checksum := Checksum.ofWords words }

namespace Store

variable {δ : Type} [Device δ]

/-- The state of every page of the ring. -/
def inspect : StoreM δ (List PageReport) := fenced do
  let pages := (← get).ring.pages
  observe fun device => pages.mapM fun page => return .ofWords page (← page.contents device)

/-- How often the ring started anew, as the active page tells. -/
def eraseCounter : StoreM δ Nat := fenced do
  let page ← activePage
  return (← observe page.header).counterOrZero

end Store

end FlashRing
