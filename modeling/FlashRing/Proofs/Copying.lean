import FlashRing.Proofs.Reading
import FlashRing.Proofs.Survivors
import FlashRing.Store.Rotation

/-!
Rotation as a list of changes, for any contents of the pages. The slots that are written are those
that the target lacks, in the order in which the log is read from its tail.
-/

namespace FlashRing

/-- A page with some slots used from its head on and all others free. -/
def PageContent.filled (capacity : Nat) (header : UInt32) (used : SlotLog) : PageContent where
  header := header
  log := used ++ List.replicate (capacity - used.length) .free

/-- Slots are written one after the other from a place on. -/
def appends (index place : Nat) : List Slot → List Change
  | [] => []
  | slot :: rest => .slot index place slot.encode :: appends index (place + 1) rest

/-- The changes of a rotation once its target is clean: `slots` are written from `place` on. -/
def rotationChanges (source target place count : Nat) (slots : List Slot) : List Change :=
  .header target Status.receiving.programWord :: (appends target place slots ++
    [.header target (Header.counterWord count), .erase source,
      .header target Status.active.programWord])

/-- A slot whose key half is cleared. -/
def Slot.struck (slot : Slot) : Slot := ⟨0, slot.payload⟩

theorem Slot.masked_free (slot : Slot) : Slot.free.masked slot.encode = slot := by
  rw [masked, show Slot.free.encode = -1 from rfl, UInt32.neg_one_and, decode_encode]

theorem Slot.masked_tombstoneWord (slot : Slot) : slot.masked tombstoneWord = slot.struck := by
  have hword : (slot.encode &&& tombstoneWord).toNat = slot.encode.toNat % 0x10000 := by
    rw [UInt32.toNat_and, show tombstoneWord.toNat = 2 ^ 16 - 1 from rfl,
      Nat.and_two_pow_sub_one_eq_mod]
  have hkey : (slot.masked tombstoneWord).key = 0 := by
    apply UInt16.toNat_inj.mp
    rw [masked, toNat_key_decode, hword, show (0 : UInt16).toNat = 0 from rfl]
    omega
  have hpayload : (slot.masked tombstoneWord).payload = slot.payload := by
    apply UInt16.toNat_inj.mp
    have hp := slot.payload.toNat_lt
    rw [masked, toNat_payload_decode, hword, toNat_encode]
    omega
  cases hm : slot.masked tombstoneWord
  rw [hm] at hkey hpayload
  rw [struck, ← hpayload, ← hkey]

theorem Slot.isFree_of_isLive {slot : Slot} (h : slot.isLive = true) : slot.isFree = false := by
  cases hf : slot.isFree
  · rfl
  · rw [Slot.isFree_iff.mp hf] at h
    cases h

theorem isLive_replicate_free (n : Nat) :
    ∀ slot ∈ List.replicate n Slot.free, slot.isLive = false := by
  intro slot hs
  rw [List.eq_of_mem_replicate hs]
  rfl

theorem modify_append_cons {α : Type} (f : α → α) (before : List α) (a : α) (behind : List α) :
    (before ++ a :: behind).modify before.length f = before ++ f a :: behind := by
  induction before with
  | nil => rfl
  | cons first rest ih => rw [List.cons_append, List.length_cons, List.modify_succ_cons, ih]; rfl

theorem PageContent.modify_filled {capacity : Nat} {header : UInt32} {used : SlotLog} {slot : Slot}
    (h : used.length < capacity) :
    { filled capacity header used with
      log := (filled capacity header used).log.modify used.length (·.masked slot.encode) } =
        filled capacity header (used ++ [slot]) := by
  have hrep : List.replicate (capacity - used.length) Slot.free =
      .free :: List.replicate (capacity - (used ++ [slot]).length) .free := by
    rw [← List.replicate_succ, List.length_append, List.length_singleton]
    congr 1
    omega
  apply PageContent.ext
  · rfl
  · simp only [filled, hrep]
    rw [modify_append_cons, Slot.masked_free, List.append_assoc, List.singleton_append]

theorem Flash.applyAll_append (capacity : Nat) (flash : Flash) (first second : List Change) :
    flash.applyAll capacity (first ++ second) =
      (flash.applyAll capacity first).applyAll capacity second :=
  List.foldl_append

theorem Flash.applyAll_cons (capacity : Nat) (flash : Flash) (change : Change)
    (rest : List Change) :
    flash.applyAll capacity (change :: rest) =
      (change.apply capacity flash).applyAll capacity rest := rfl

theorem Flash.apply_header {capacity index : Nat} {flash : Flash} {header : UInt32}
    {used : SlotLog} (hf : flash index = .filled capacity header used) (word : UInt32) :
    (Change.header index word).apply capacity flash =
      Function.update flash index (.filled capacity (header &&& word) used) := by
  rw [Change.apply, hf]
  rfl

theorem Flash.applyAll_appends {capacity index : Nat} {flash : Flash} {header : UInt32}
    {used : SlotLog} {slots : List Slot} (hf : flash index = .filled capacity header used)
    (hl : used.length + slots.length ≤ capacity) :
    flash.applyAll capacity (appends index used.length slots) =
      Function.update flash index (.filled capacity header (used ++ slots)) := by
  induction slots generalizing flash used with
  | nil =>
    rw [List.append_nil, ← hf, Function.update_eq_self]
    rfl
  | cons slot rest ih =>
    have hlt : used.length < capacity := by simp only [List.length_cons] at hl; omega
    rw [appends, Flash.applyAll_cons, Change.apply, hf, PageContent.modify_filled hlt]
    have hself : Function.update flash index (.filled capacity header (used ++ [slot])) index =
        .filled capacity header (used ++ [slot]) := Function.update_self ..
    have hih := ih hself
      (by simp only [List.length_append, List.length_cons, List.length_nil] at hl ⊢; omega)
    rw [List.length_append, List.length_singleton] at hih
    rw [hih, Function.update_idem, List.append_assoc, List.singleton_append]

/-- A rotation leaves its source erased and its target in use, filled with the slots. -/
theorem Flash.applyAll_rotationChanges {capacity source target : Nat} (hne : target ≠ source)
    {flash : Flash} {header : UInt32} {used : SlotLog} {slots : List Slot}
    (hf : flash target = .filled capacity header used)
    (hl : used.length + slots.length ≤ capacity) (count : Nat) :
    flash.applyAll capacity (rotationChanges source target used.length count slots) =
      Function.update (Function.update flash source (.blank capacity)) target
        (.filled capacity (header &&& Status.receiving.programWord &&& Header.counterWord count &&&
          Status.active.programWord) (used ++ slots)) := by
  have hself : ∀ (page : PageContent) (other : Flash),
      Function.update other target page target = page := fun _ _ => Function.update_self ..
  rw [rotationChanges, applyAll_cons, apply_header hf, applyAll_append,
    applyAll_appends (hself _ _) hl, Function.update_idem, applyAll_cons,
    apply_header (hself _ _), Function.update_idem, applyAll_cons, Change.apply,
    Function.update_comm hne, applyAll_cons, apply_header (hself _ _), Function.update_idem]
  rfl

theorem holds_appends {ring : PageRing} {index place : Nat} {slots : List Slot}
    (hi : index < ring.count) (hl : place + slots.length ≤ ring.capacity) :
    ∀ change ∈ appends index place slots, ring.Holds change := by
  induction slots generalizing place with
  | nil => simp [appends]
  | cons slot rest ih =>
    simp only [List.length_cons] at hl
    intro change hc
    rcases List.mem_cons.mp hc with rfl | hc
    · exact ⟨hi, by omega⟩
    · exact ih (by omega) change hc

theorem holds_rotationChanges {ring : PageRing} {source target place : Nat} {slots : List Slot}
    (hs : source < ring.count) (ht : target < ring.count)
    (hl : place + slots.length ≤ ring.capacity) (count : Nat) :
    ∀ change ∈ rotationChanges source target place count slots, ring.Holds change := by
  intro change hc
  simp only [rotationChanges, List.mem_cons, List.mem_append, List.not_mem_nil, or_false] at hc
  rcases hc with rfl | hc | rfl | rfl | rfl
  · exact ht
  · exact holds_appends ht hl change hc
  · exact ht
  · exact hs
  · exact ht

theorem PageContent.used_filled {capacity : Nat} {header : UInt32} {used : SlotLog}
    (h : ∀ slot ∈ used, slot.isFree = false) : (filled capacity header used).log.used = used := by
  have hrest : ∀ n, (List.replicate n Slot.free).takeWhile (!·.isFree) = [] := by
    intro n
    cases n <;> rfl
  rw [filled, SlotLog.used, List.takeWhile_append_of_pos (by simpa using h), hrest, List.append_nil]

theorem Store.flash_after_appends {store : Store Ram} (hs : store.Fits) {i : Nat}
    {header : UInt32} {used : SlotLog} {slots : List Slot} (hi : i < store.ring.count)
    (hc : store.flash i = .filled store.ring.capacity header used)
    (hl : used.length + slots.length ≤ store.ring.capacity) (roles : Option Roles) :
    (store.after (appends i used.length slots) roles).flash =
      Function.update store.flash i (.filled store.ring.capacity header (used ++ slots)) := by
  rw [flash_after hs (holds_appends hi hl), Flash.applyAll_appends hc hl]

theorem Store.flash_after_append {store : Store Ram} (hs : store.Fits) {i : Nat}
    {header : UInt32} {used : SlotLog} (hi : i < store.ring.count)
    (hc : store.flash i = .filled store.ring.capacity header used)
    (hl : used.length < store.ring.capacity) (slot : Slot) (roles : Option Roles) :
    (store.after [.slot i used.length slot.encode] roles).flash i =
      .filled store.ring.capacity header (used ++ [slot]) := by
  have hone : used.length + [slot].length ≤ store.ring.capacity := by
    rw [List.length_singleton]
    omega
  have h := flash_after_appends hs hi hc hone roles
  rw [appends, appends] at h
  rw [h, Function.update_self]

theorem isFree_append_live {used : SlotLog} {slot : Slot}
    (hu : ∀ other ∈ used, other.isFree = false) (hlive : slot.isLive = true) :
    ∀ other ∈ used ++ [slot], other.isFree = false := by
  intro other ho
  rcases List.mem_append.mp ho with ho | ho
  · exact hu other ho
  · rw [List.mem_singleton.mp ho]
    exact Slot.isFree_of_isLive hlive

theorem appends_append (index place : Nat) (first second : List Slot) :
    appends index place (first ++ second) =
      appends index place first ++ appends index (place + first.length) second := by
  induction first generalizing place with
  | nil => rfl
  | cons slot rest ih =>
    rw [List.cons_append, appends, ih, appends, List.cons_append, List.length_cons,
      Nat.add_assoc, Nat.add_comm 1]

namespace Store.Performs

variable {store : Store Ram} {i : Nat} {header : UInt32} {used : SlotLog}

theorem place_lt {store : Store Ram} {i place : Nat}
    (hfind : (store.flash i).log.findIdx? (·.isFree) = some place) :
    place < store.ring.capacity := by
  have hlt := (List.findIdx?_eq_some_iff_getElem.mp hfind).1
  rwa [show (store.flash i).log.length = _ from PageRing.length_flash ..] at hlt

/-- A slot is written into the first free place, wherever it is. -/
theorem append_found (hs : store.Fits) (hi : i < store.ring.count) {place : Nat}
    (hfind : (store.flash i).log.findIdx? (·.isFree) = some place) (slot : Slot) :
    Performs (Store.append (store.ring.page i) slot) store [.slot i place slot.encode]
      (.ok true) store.roles := by
  apply bind_read (firstFree? hs hi)
  rw [hfind]
  exact bind_last (program_slot hs hi (place_lt hfind) slot.encode) (pure _ true)

theorem append (hs : store.Fits) (hi : i < store.ring.count)
    (hc : store.flash i = .filled store.ring.capacity header used)
    (hu : ∀ slot ∈ used, slot.isFree = false) (hl : used.length < store.ring.capacity)
    (slot : Slot) :
    Performs (Store.append (store.ring.page i) slot) store [.slot i used.length slot.encode]
      (.ok true) store.roles := by
  refine append_found hs hi ?_ slot
  have hn : used.findIdx? (·.isFree) = none := by
    simpa [List.findIdx?_eq_none_iff] using hu
  have hrep : List.replicate (store.ring.capacity - used.length) Slot.free =
      .free :: List.replicate (store.ring.capacity - used.length - 1) .free := by
    rw [← List.replicate_succ]
    congr 1
    omega
  rw [hc, PageContent.filled, List.findIdx?_append, hn, hrep, List.findIdx?_cons]
  simp [Slot.isFree, Slot.free]

theorem append_full (hs : store.Fits) (hi : i < store.ring.count)
    (hc : ∀ slot ∈ (store.flash i).log, slot.isFree = false) (slot : Slot) :
    Performs (Store.append (store.ring.page i) slot) store [] (.ok false) store.roles := by
  have hfind : (store.flash i).log.findIdx? (·.isFree) = none := by
    simpa [List.findIdx?_eq_none_iff] using hc
  apply bind_read (firstFree? hs hi)
  rw [hfind]
  exact pure store false

theorem appendOrFail (hs : store.Fits) (hi : i < store.ring.count)
    (hc : store.flash i = .filled store.ring.capacity header used)
    (hu : ∀ slot ∈ used, slot.isFree = false) (hl : used.length < store.ring.capacity)
    (slot : Slot) :
    Performs (Store.appendOrFail (store.ring.page i) slot) store
      [.slot i used.length slot.encode] (.ok ()) store.roles :=
  bind_last (append hs hi hc hu hl slot) (pure _ ())

theorem copy_new (hs : store.Fits) (hi : i < store.ring.count)
    (hc : store.flash i = .filled store.ring.capacity header used)
    (hu : ∀ slot ∈ used, slot.isFree = false) (hl : used.length < store.ring.capacity)
    {slot : Slot} (hlive : slot.isLive = true) (hnew : used.hasKey slot.key = false) :
    Performs (Store.copy (store.ring.page i) slot) store [.slot i used.length slot.encode]
      (.ok ()) store.roles := by
  rw [Store.copy, if_pos hlive]
  apply bind_read (holds hs hi slot.key)
  rw [hc, PageContent.used_filled hu, if_neg (by simp [hnew])]
  exact appendOrFail hs hi hc hu hl slot

theorem copy_skip (hs : store.Fits) (hi : i < store.ring.count)
    (hc : store.flash i = .filled store.ring.capacity header used)
    (hu : ∀ slot ∈ used, slot.isFree = false) {slot : Slot}
    (hskip : (slot.isLive && !used.hasKey slot.key) = false) :
    Performs (Store.copy (store.ring.page i) slot) store [] (.ok ()) store.roles := by
  rw [Store.copy]
  cases hlive : slot.isLive
  · exact pure store ()
  · have hhas : used.hasKey slot.key = true := by simpa [hlive] using hskip
    apply bind_read (holds hs hi slot.key)
    rw [hc, PageContent.used_filled hu, if_pos hhas]
    exact pure store ()

theorem copy_full (hs : store.Fits) (hi : i < store.ring.count)
    (hc : store.flash i = .filled store.ring.capacity header used)
    (hu : ∀ slot ∈ used, slot.isFree = false) (hl : used.length = store.ring.capacity)
    {slot : Slot} (hlive : slot.isLive = true) (hnew : used.hasKey slot.key = false) :
    Performs (Store.copy (store.ring.page i) slot) store []
      (.error (.storeFull (store.ring.capacity + 1) store.ring.capacity)) store.roles := by
  have hfree : ∀ slot ∈ (store.flash i).log, slot.isFree = false := by
    rw [hc, PageContent.filled, hl, Nat.sub_self, List.replicate_zero, List.append_nil]
    exact hu
  rw [Store.copy, if_pos hlive]
  apply bind_read (holds hs hi slot.key)
  rw [hc, PageContent.used_filled hu, if_neg (by simp [hnew])]
  exact bind_read (append_full hs hi hfree slot) (throw store _)

/-- Copying adds to a page what overlaying its log adds, as far as there is room for it. -/
theorem copy_room (hs : store.Fits) (hi : i < store.ring.count)
    (hc : store.flash i = .filled store.ring.capacity header used)
    (hu : ∀ slot ∈ used, slot.isFree = false) (hl : used.length ≤ store.ring.capacity)
    {slots new : List Slot} (hnew : used.overlay slots = used ++ new) :
    Performs (slots.forM (Store.copy (store.ring.page i))) store
      (appends i used.length (new.take (store.ring.capacity - used.length)))
      (if used.length + new.length ≤ store.ring.capacity then .ok ()
        else .error (.storeFull (store.ring.capacity + 1) store.ring.capacity)) store.roles := by
  induction slots generalizing store used new with
  | nil =>
    obtain rfl : new = [] := by simpa [SlotLog.overlay] using hnew
    rw [List.take_nil, List.length_nil, if_pos (by omega)]
    exact forM_nil _ store
  | cons slot rest ih =>
    by_cases htake : (slot.isLive && !used.hasKey slot.key) = true
    · rw [SlotLog.overlay, if_pos htake] at hnew
      obtain ⟨hlive, hno⟩ := Bool.and_eq_true_iff.mp htake
      have hno : used.hasKey slot.key = false := by simpa using hno
      obtain ⟨more, rfl⟩ : ∃ more, new = slot :: more := by
        have hp : used ++ [slot] <+: used ++ new := hnew ▸ SlotLog.prefix_overlay _ rest
        obtain ⟨more, hm⟩ := (List.prefix_append_right_inj used).mp hp
        exact ⟨more, hm.symm⟩
      rcases Nat.lt_or_ge used.length store.ring.capacity with hroom | hge
      · have hfirst := copy_new hs hi hc hu hroom hlive hno
        have hflash := flash_after_append hs hi hc hroom slot store.roles
        have hmore : (used ++ [slot]).overlay rest = (used ++ [slot]) ++ more := by
          rw [hnew, List.append_assoc, List.singleton_append]
        have hrest := ih (fits_after hs _ store.roles) hi hflash (isFree_append_live hu hlive)
          (by rw [List.length_append, List.length_singleton]; exact hroom) hmore
        have hstep : store.ring.capacity - used.length =
            store.ring.capacity - (used ++ [slot]).length + 1 := by
          rw [List.length_append, List.length_singleton]
          omega
        have hlength : (used ++ [slot]).length + more.length =
            used.length + (slot :: more).length := by
          simp only [List.length_append, List.length_cons, List.length_nil]
          omega
        rw [hlength, List.length_append, List.length_singleton] at hrest
        rw [hstep, List.take_succ_cons, List.length_append, List.length_singleton]
        exact forM_cons hfirst hrest
      · rw [Nat.sub_eq_zero_of_le hge, List.take_zero,
          if_neg (by rw [List.length_cons]; omega)]
        exact bind_error (copy_full hs hi hc hu (Nat.le_antisymm hl hge) hlive hno)
    · rw [Bool.not_eq_true] at htake
      rw [SlotLog.overlay, if_neg (by simp [htake])] at hnew
      exact forM_cons (copy_skip hs hi hc hu htake) (ih hs hi hc hu hl hnew)

theorem copy_all (hs : store.Fits) (hi : i < store.ring.count)
    (hc : store.flash i = .filled store.ring.capacity header used)
    (hu : ∀ slot ∈ used, slot.isFree = false) {slots new : List Slot}
    (hnew : used.overlay slots = used ++ new)
    (hl : used.length + new.length ≤ store.ring.capacity) :
    Performs (slots.forM (Store.copy (store.ring.page i))) store (appends i used.length new)
      (.ok ()) store.roles := by
  have h := copy_room hs hi hc hu (by omega) hnew
  rwa [if_pos hl, List.take_of_length_le (by omega)] at h

theorem appendAll (hs : store.Fits) (hi : i < store.ring.count)
    (hc : store.flash i = .filled store.ring.capacity header used)
    (hu : ∀ slot ∈ used, slot.isFree = false) {slots : List Slot}
    (hlive : ∀ slot ∈ slots, slot.isLive = true)
    (hl : used.length + slots.length ≤ store.ring.capacity) :
    Performs (slots.forM (Store.appendOrFail (store.ring.page i))) store
      (appends i used.length slots) (.ok ()) store.roles := by
  induction slots generalizing store used with
  | nil => exact forM_nil _ store
  | cons slot rest ih =>
    rw [List.length_cons] at hl
    have hfirst := appendOrFail hs hi hc hu (by omega) slot
    have hroom : used.length < store.ring.capacity := by omega
    have hflash := flash_after_append hs hi hc hroom slot store.roles
    have hrest := ih (fits_after hs _ store.roles) hi hflash
      (isFree_append_live hu (hlive slot (by simp)))
      (fun other ho => hlive other (List.mem_cons_of_mem slot ho))
      (by rw [List.length_append, List.length_singleton]; change _ ≤ store.ring.capacity; omega)
    rw [List.length_append, List.length_singleton] at hrest
    exact forM_cons hfirst hrest

end Store.Performs

end FlashRing
