import FlashRing.Proofs.Relocation
import Mathlib.Data.List.TakeWhile

/-!
An unfinished rotation that startup goes on with, whatever its two pages hold. Main statement: it
succeeds exactly if the slots in use and the keys that are still missing fit the page together, and
then callers find what the page held, and below it what its source held.
-/

namespace FlashRing

namespace SlotLog

variable {log used : SlotLog} {key : UInt16}

/-- No slot in use stands behind a free one. -/
def Gapless (log : SlotLog) : Prop :=
  log.Pairwise fun before behind => before.isFree = true → behind.isFree = true

instance (log : SlotLog) : Decidable log.Gapless :=
  inferInstanceAs (Decidable (List.Pairwise _ log))

theorem isFree_used (log : SlotLog) : ∀ slot ∈ log.used, slot.isFree = false := by
  intro slot hs
  simpa using List.mem_takeWhile_imp hs

theorem Gapless.eq_used_append (h : log.Gapless) :
    log = log.used ++ List.replicate (log.length - log.used.length) .free := by
  induction log with
  | nil => rfl
  | cons slot rest ih =>
    obtain ⟨hbehind, hrest⟩ := List.pairwise_cons.mp h
    cases hf : slot.isFree with
    | true =>
      -- From the first free slot on, all are free.
      have hused : used (slot :: rest) = [] := by simp [used, hf]
      have hall : slot :: rest = List.replicate (slot :: rest).length .free := by
        apply List.eq_replicate_of_mem
        intro other ho
        rcases List.mem_cons.mp ho with rfl | ho
        · exact Slot.isFree_iff.mp hf
        · exact Slot.isFree_iff.mp (hbehind other ho hf)
      rw [hused, List.length_nil, Nat.sub_zero, List.nil_append]
      exact hall
    | false =>
      have hused : used (slot :: rest) = slot :: used rest := by simp [used, hf]
      rw [hused, List.length_cons, List.length_cons, Nat.add_sub_add_right, List.cons_append,
        ← ih hrest]

theorem Gapless.countP_eq (h : log.Gapless) : log.countP (!·.isFree) = log.used.length := by
  have hused : log.used.countP (!·.isFree) = log.used.length :=
    List.countP_eq_length.mpr fun slot hs => by simp [isFree_used log slot hs]
  have hrest : ∀ n, (List.replicate n Slot.free).countP (!·.isFree) = 0 := by
    intro n
    rw [List.countP_replicate]
    rfl
  rw [h.eq_used_append, List.countP_append, hrest, Nat.add_zero, ← h.eq_used_append, hused]

/-- Callers do not find the key of a free slot. -/
theorem Gapless.hasKey_used (h : log.Gapless) (hk : isCallerKey key = true) :
    hasKey log.used key = hasKey log key := by
  have hrest : hasKey (List.replicate (log.length - log.used.length) Slot.free) key = false := by
    apply List.any_eq_false.mpr
    intro slot hs he
    rw [List.eq_of_mem_replicate hs, beq_iff_eq] at he
    rw [← he] at hk
    cases hk
  conv => rhs; rw [h.eq_used_append]
  rw [hasKey_append, hrest, Bool.or_false]

theorem Gapless.contents_used (h : log.Gapless) : contents log.used = contents log := by
  conv => rhs; rw [h.eq_used_append]
  rw [contents_append_dead (isLive_replicate_free _)]

theorem contents_or (log other : SlotLog) (key : UInt16) :
    (contents log key).or (contents other key) =
      if log.hasKey key then contents log key else contents other key := by
  by_cases hk : isCallerKey key = true
  · have hsome := isSome_newest? log key
    rw [← contents_of_caller hk] at hsome
    rw [← hsome]
    cases contents log key <;> rfl
  · rw [Bool.not_eq_true] at hk
    rw [contents_of_not_caller hk, contents_of_not_caller hk]
    simp

end SlotLog

namespace Store

/-- Startup finds one active and one receiving page. The one that is being filled has no gap; of
what the two hold nothing else is asked. -/
structure MidRotation (store : Store Ram) (source target : Nat) : Prop where
  attached : store.Attached
  steady : store.device.power = .steady
  source_lt : source < store.ring.count
  target_lt : target < store.ring.count
  active : ∀ i, i < store.ring.count → ((store.flash i).statusByte = 0x00 ↔ i = source)
  receiving : ∀ i, i < store.ring.count → ((store.flash i).statusByte = 0xAA ↔ i = target)
  gapless : (store.flash target).log.Gapless

/-- The target over the source, as far as the page reaches. -/
structure Overlays (store : Store Ram) (source target : Nat) : Prop where
  succeeds : answer init store = .ok () ↔
    (store.flash target).log.countP (!·.isFree) +
      ((store.flash source).log.keys.filter fun key =>
        (store.flash target).log.hasKey key = false).card ≤ store.ring.capacity
  entries : answer init store = .ok () → answer Store.entries (left init store) =
    .ok (Contents.listing fun key =>
      if (store.flash target).log.hasKey key then (store.flash target).log.contents key
      else (store.flash source).log.contents key)
  usedWords : ((left init store).device.pageWords (store.ring.base + target)).tail.take
      ((store.flash target).log.countP (!·.isFree)) =
    (store.device.pageWords (store.ring.base + target)).tail.take
      ((store.flash target).log.countP (!·.isFree))
  refused : answer init store ≠ .ok () →
    answer init store = .error (.storeFull (store.ring.capacity + 1) store.ring.capacity) ∧
      (left init store).device.pageWords (store.ring.base + source) =
        store.device.pageWords (store.ring.base + source)

variable {store : Store Ram} {source target a t : Nat}

/-- A rotation whose copy finds no room stops when the page is full. -/
theorem Performs.transfer_short (hs : store.Fits) (ht : t < store.ring.count) {header : UInt32}
    {copied log : SlotLog} {slots : List Slot}
    (hc : store.flash t = .filled store.ring.capacity header copied)
    (hfree : ∀ slot ∈ copied, slot.isFree = false) (hl : copied.length ≤ store.ring.capacity)
    (hslots : copied.overlay log.reverse = copied ++ slots)
    (hover : store.ring.capacity < copied.length + slots.length) :
    Performs (Store.transfer (store.ring.page a) (store.ring.page t) none log) store
      (.header t Status.receiving.programWord ::
        appends t copied.length (slots.take (store.ring.capacity - copied.length)))
      (.error (.storeFull (store.ring.capacity + 1) store.ring.capacity)) store.roles := by
  have hs₁ := fits_after hs [.header t Status.receiving.programWord] store.roles
  have hc₁ : (store.after [.header t Status.receiving.programWord] store.roles).flash t =
      .filled store.ring.capacity (header &&& Status.receiving.programWord) copied := by
    rw [flash_after_header hs ht, Function.update_self, hc]
    rfl
  have hcopy := copy_room hs₁ ht hc₁ hfree hl hslots
  have hno : ¬copied.length + slots.length ≤ store.ring.capacity := by omega
  refine bind (program_header hs ht _) (bind_read (forM_nil _ _) (bind_error ?_))
  rw [show (store.after [.header t Status.receiving.programWord] store.roles).ring = store.ring
    from rfl, if_neg hno] at hcopy
  exact hcopy

namespace MidRotation

variable (h : store.MidRotation source target)

include h

theorem target_ne : target ≠ source := by
  intro he
  have hactive := (h.active source h.source_lt).mpr rfl
  have hreceiving := (h.receiving source h.source_lt).mpr he.symm
  rw [hactive] at hreceiving
  cases hreceiving

theorem indicesOf_active :
    store.ring.indicesOf store.flash .active = (some source).toList := by
  refine filter_range_eq (by simp) fun i => ?_
  rw [Option.mem_toList, decide_eq_true_iff, PageContent.status_eq_active]
  constructor
  · rintro ⟨⟩
    exact ⟨h.source_lt, (h.active source h.source_lt).mpr rfl⟩
  · rintro ⟨hi, hst⟩
    exact congrArg some ((h.active i hi).mp hst).symm

theorem indicesOf_receiving :
    store.ring.indicesOf store.flash .receiving = (some target).toList := by
  refine filter_range_eq (by simp) fun i => ?_
  rw [Option.mem_toList, decide_eq_true_iff, PageContent.status_eq_receiving]
  constructor
  · rintro ⟨⟩
    exact ⟨h.target_lt, (h.receiving target h.target_lt).mpr rfl⟩
  · rintro ⟨hi, hst⟩
    exact congrArg some ((h.receiving i hi).mp hst).symm

theorem content : store.flash target =
    .filled store.ring.capacity (store.flash target).header (store.flash target).log.used := by
  have hlength : (store.flash target).log.length = store.ring.capacity := PageRing.length_flash ..
  apply PageContent.ext
  · rfl
  · rw [PageContent.filled, ← hlength]
    exact h.gapless.eq_used_append

theorem length_missing :
    ((store.flash source).log.missing (store.flash target).log.used).length =
      ((store.flash source).log.keys.filter fun key =>
        (store.flash target).log.hasKey key = false).card := by
  rw [SlotLog.length_missing]
  congr 1
  apply Finset.filter_congr
  intro key hm
  rw [h.gapless.hasKey_used (SlotLog.mem_keys.mp hm).1]

/-- The sweep that goes before the rotation leaves its two pages alone. -/
theorem swept :
    (store.after store.sweeping (some ⟨source, some target⟩)).flash source = store.flash source ∧
      (store.after store.sweeping (some ⟨source, some target⟩)).flash target =
        store.flash target := by
  rw [flash_after h.attached.fits (holds_sweeping store)]
  exact ⟨flash_sweeping_active h.indicesOf_active rfl,
    flash_sweeping_receiving h.indicesOf_receiving rfl⟩

section Copy

variable {header : UInt32} {used slots : SlotLog}
  (hc : store.flash target = .filled store.ring.capacity header used)
  (hfree : ∀ slot ∈ used, slot.isFree = false)
  (hslots : SlotLog.overlay used (store.flash source).log.reverse = used ++ slots)

include hc hfree hslots

/-- The slots that are missing are copied, and the target takes over. -/
theorem resumed (hroom : used.length + slots.length ≤ store.ring.capacity) :
    ∃ changes header, Performs init store changes (.ok ()) (some ⟨target, none⟩) ∧
      (∀ change ∈ changes, store.ring.Holds change) ∧
      store.flash.applyAll store.ring.capacity changes target =
        .filled store.ring.capacity header (used ++ slots) := by
  have hs := h.attached.fits
  obtain ⟨hsource, htarget⟩ := h.swept
  have hs₁ := fits_after hs store.sweeping (some ⟨source, some target⟩)
  have hcopy : SlotLog.overlay (used ++ (none : Option Slot).toList)
      ((store.after store.sweeping (some ⟨source, some target⟩)).flash source).log.reverse =
        used ++ slots := by
    rw [hsource, Option.toList_none, List.append_nil, hslots]
  have hrun := Performs.transfer hs₁ h.source_lt h.target_lt h.target_ne (htarget.trans hc) hfree
    (by simp) hcopy hroom
  generalize nextCounter _ _ = count at hrun
  have hf := (flash_sweeping_receiving h.indicesOf_receiving rfl).trans hc
  have hend : store.flash.applyAll store.ring.capacity
      (store.sweeping ++ rotationChanges source target used.length count slots) target =
        .filled store.ring.capacity (header &&& Status.receiving.programWord &&&
          Header.counterWord count &&& Status.active.programWord) (used ++ slots) := by
    rw [Flash.applyAll_append, Flash.applyAll_rotationChanges h.target_ne hf hroom,
      Function.update_self]
  refine ⟨_, _, Performs.init_rotating hs h.indicesOf_active h.indicesOf_receiving hrun rfl,
    fun change hm => ?_, hend⟩
  rcases List.mem_append.mp hm with hm | hm
  · exact holds_sweeping store change hm
  · exact holds_rotationChanges h.source_lt h.target_lt hroom count change hm

/-- The target is filled up and both pages stay in use. -/
theorem stuck (hl : used.length ≤ store.ring.capacity)
    (hover : store.ring.capacity < used.length + slots.length) :
    ∃ changes header more, Performs init store changes
        (.error (.storeFull (store.ring.capacity + 1) store.ring.capacity))
        (some ⟨source, some target⟩) ∧
      (∀ change ∈ changes, store.ring.Holds change) ∧
      store.flash.applyAll store.ring.capacity changes target =
        .filled store.ring.capacity header (used ++ more) ∧
      store.flash.applyAll store.ring.capacity changes source = store.flash source := by
  have hs := h.attached.fits
  obtain ⟨hsource, htarget⟩ := h.swept
  have hs₁ := fits_after hs store.sweeping (some ⟨source, some target⟩)
  have hcopy : SlotLog.overlay used
      ((store.after store.sweeping (some ⟨source, some target⟩)).flash source).log.reverse =
        used ++ slots := by
    rw [hsource, hslots]
  have hrun := Performs.transfer_short (a := source) hs₁ h.target_lt (htarget.trans hc) hfree hl
    hcopy hover
  have hroom : used.length + (slots.take (store.ring.capacity - used.length)).length ≤
      store.ring.capacity := by
    rw [List.length_take]
    omega
  -- Of the two pages only the target is programmed, and it only gains slots.
  have hf := (flash_sweeping_receiving h.indicesOf_receiving rfl).trans hc
  have hend : store.flash.applyAll store.ring.capacity (store.sweeping ++
      (.header target Status.receiving.programWord :: appends target used.length
        (slots.take (store.ring.capacity - used.length)))) =
      Function.update (store.flash.applyAll store.ring.capacity store.sweeping) target
        (.filled store.ring.capacity (header &&& Status.receiving.programWord)
          (used ++ slots.take (store.ring.capacity - used.length))) := by
    rw [Flash.applyAll_append, Flash.applyAll_cons, Flash.apply_header hf,
      Flash.applyAll_appends (Function.update_self ..) hroom, Function.update_idem]
  refine ⟨_, _, _, Performs.init_rotating hs h.indicesOf_active h.indicesOf_receiving hrun rfl,
    fun change hm => ?_, (congrFun hend target).trans (Function.update_self ..), ?_⟩
  · rcases List.mem_append.mp hm with hm | hm
    · exact holds_sweeping store change hm
    · rcases List.mem_cons.mp hm with rfl | hm
      · exact h.target_lt
      · exact holds_appends h.target_lt hroom change hm
  · refine (congrFun hend source).trans ?_
    rw [Function.update_of_ne h.target_ne.symm]
    exact flash_sweeping_active h.indicesOf_active rfl

end Copy

omit h in
theorem take_words (hs : store.Fits) (ht : target < store.ring.count) {header : UInt32}
    {used more : List Slot}
    (hf : store.flash target = .filled store.ring.capacity header (used ++ more)) :
    (store.device.pageWords (store.ring.base + target)).tail.take used.length =
      used.map Slot.encode := by
  rw [hs.pageWords ht, List.tail_cons, hf, encode_filled, List.map_append, List.append_assoc]
  exact List.take_left' (List.length_map ..)

theorem usedWords {changes : List Change} {roles : Option Roles} {header : UInt32}
    {more : List Slot}
    (hf : (store.after changes roles).flash target =
      .filled store.ring.capacity header ((store.flash target).log.used ++ more)) :
    ((store.after changes roles).device.pageWords (store.ring.base + target)).tail.take
        ((store.flash target).log.countP (!·.isFree)) =
      (store.device.pageWords (store.ring.base + target)).tail.take
        ((store.flash target).log.countP (!·.isFree)) := by
  have hs := h.attached.fits
  have hbefore := h.content
  rw [← List.append_nil (store.flash target).log.used] at hbefore
  rw [h.gapless.countP_eq, take_words hs h.target_lt hbefore]
  exact take_words (fits_after hs changes roles) h.target_lt hf

end MidRotation

theorem answer_entries (hs : store.Fits) (hr : store.roles = some ⟨t, none⟩)
    (ht : t < store.ring.count) {header : UInt32} {used : SlotLog}
    (hf : store.flash t = .filled store.ring.capacity header used) :
    answer entries store = .ok used.contents.listing := by
  rw [answer_of_run (Performs.entries hs hr ht).run_nothing, SlotLog.entries_eq_listing, hf,
    PageContent.filled, SlotLog.contents_append_dead (isLive_replicate_free _)]

/-- Startup overlays the source with what the target holds, or finds no room and leaves the source
as it is. -/
theorem overlays_of_midRotation (h : store.MidRotation source target) :
    store.Overlays source target := by
  have hs := h.attached.fits
  have hfree := SlotLog.isFree_used (store.flash target).log
  have hslots := SlotLog.overlay_reverse (store.flash source).log (store.flash target).log.used
  have hl : (store.flash target).log.used.length ≤ store.ring.capacity := by
    have hlength : (store.flash target).log.length = store.ring.capacity :=
      PageRing.length_flash ..
    rw [← hlength]
    exact (List.takeWhile_sublist _).length_le
  have hneeds := h.length_missing
  rcases Nat.lt_or_ge store.ring.capacity ((store.flash target).log.used.length +
    ((store.flash source).log.missing (store.flash target).log.used).length) with hover | hroom
  · obtain ⟨changes, header, more, hrun, hin, htarget, hsource⟩ :=
      h.stuck h.content hfree hslots hl hover
    have hend := hrun.of_steady h.steady
    have hanswer := answer_of_run hend
    have hflash := flash_after hs hin (some ⟨source, some target⟩)
    constructor
    case succeeds =>
      rw [hanswer, h.gapless.countP_eq, ← hneeds]
      exact ⟨fun hok => (by cases hok), fun hfits => (by omega)⟩
    case entries =>
      intro hok
      rw [hanswer] at hok
      cases hok
    case usedWords =>
      rw [left_of_run hend]
      exact h.usedWords ((congrFun hflash target).trans htarget)
    case refused =>
      intro _
      refine ⟨hanswer, ?_⟩
      rw [left_of_run hend]
      exact hs.pageWords_after _ h.source_lt ((congrFun hflash source).trans hsource)
  · obtain ⟨changes, header, hrun, hin, htarget⟩ := h.resumed h.content hfree hslots hroom
    have hend := hrun.of_steady h.steady
    have hanswer := answer_of_run hend
    have hflash := flash_after hs hin (some ⟨target, none⟩)
    have hfilled := (congrFun hflash target).trans htarget
    constructor
    case succeeds =>
      rw [h.gapless.countP_eq, ← hneeds]
      exact ⟨fun _ => hroom, fun _ => hanswer⟩
    case entries =>
      intro _
      have hfits : ((store.after changes (some ⟨target, none⟩)).powered .steady).Fits :=
        fits_after hs changes (some ⟨target, none⟩)
      rw [left_of_run hend]
      refine (answer_entries hfits rfl h.target_lt hfilled).trans ?_
      congr 2
      funext key
      rw [← hslots, SlotLog.contents_overlay, h.gapless.contents_used, SlotLog.contents_or]
    case usedWords =>
      rw [left_of_run hend]
      exact h.usedWords hfilled
    case refused => exact fun hno => absurd hanswer hno

/-- A page with a stale copy and a half-written slot, and another to which somebody has copied one of
its keys, a key that it does not have, and a deleted slot. The fourth slot is left open. -/
def patched (fourth : UInt32) : Store Ram where
  device := {
    geometry := ⟨6, 4⟩
    words := #[0xAAFFFFFF, 0x00070001, 0x00010005, 0x00000009, fourth, 0xFFFFFFFF,
      0x55FFFFFF, 0x00010002, 0xFFFFFFFF, 0x00020002, 0xFFFFFFFF, 0xFFFFFFFF,
      0xFFFFFFFF, 0xFFFFFFFF, 0xFFFFFFFF, 0xFFFFFFFF, 0xFFFFFFFF, 0xFFFFFFFF,
      0x00000003, 0x0001000A, 0x00020014, 0x0001000B, 0x0003001E, 0xFFFF0002]
    wear := #[0, 1, 0, 0]
    mutations := 12
    power := .steady
    size_words := rfl
    size_wear := rfl }
  config := { ringPages := 4 }
  ring := {
    geometry := ⟨6, 4⟩
    base := 0
    count := 4
    two_le_pageWords := by decide
    addressable := by decide
    two_le_count := by decide
    base_add_count_le := by decide }
  roles := none

/-- With the fourth slot free the two missing keys just fit. With one more key there they do not. -/
theorem overlays_of_midRotation_patched :
    (patched erasedWord).MidRotation 3 0 ∧ answer init (patched erasedWord) = .ok () ∧
      answer entries (left init (patched erasedWord)) =
        .ok (Contents.listing fun key =>
          if ((patched erasedWord).flash 0).log.hasKey key
          then ((patched erasedWord).flash 0).log.contents key
          else ((patched erasedWord).flash 3).log.contents key) ∧
      answer entries (left init (patched erasedWord)) = .ok [(1, 5), (2, 20), (3, 30), (7, 1)] ∧
      (patched 0x00080001).MidRotation 3 0 ∧
      answer init (patched 0x00080001) = .error (.storeFull 6 5) ∧
      (left init (patched 0x00080001)).device.pageWords 3 =
        (patched 0x00080001).device.pageWords 3 := by
  have hopen : (patched erasedWord).MidRotation 3 0 :=
    ⟨rfl, rfl, by decide, by decide, by decide +kernel, by decide +kernel, by decide +kernel⟩
  have hclosed : (patched 0x00080001).MidRotation 3 0 :=
    ⟨rfl, rfl, by decide, by decide, by decide +kernel, by decide +kernel, by decide +kernel⟩
  have hover := overlays_of_midRotation hopen
  have hshort := overlays_of_midRotation hclosed
  have hok : answer init (patched erasedWord) = .ok () := hover.succeeds.mpr (by decide +kernel)
  obtain ⟨hfull, hkept⟩ := hshort.refused fun hno => absurd (hshort.succeeds.mp hno)
    (by decide +kernel)
  exact ⟨hopen, hok, hover.entries hok, by decide +kernel, hclosed, hfull, hkept⟩

end Store

end FlashRing
