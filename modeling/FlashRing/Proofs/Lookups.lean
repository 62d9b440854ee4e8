import FlashRing.Proofs.Relocation

/-!
All ways of looking a key up in a page of any contents. Main statement: reading, writing, deleting,
listing and counting have the same notion of what is there, and only writing and deleting change the
flash.
-/

namespace FlashRing

namespace Contents

theorem listing_erase (contents : Contents) (key : UInt16) :
    (contents.erase key).listing = contents.listing.filter (·.1 != key) := by
  refine (eq_listing (contents.pairwise_listing.sublist List.filter_sublist) ?_).symm
  intro other payload
  rw [List.mem_filter, mem_listing, erase, bne_iff_ne]
  by_cases he : other = key
  · simp [he]
  · simp [he]

end Contents

namespace SlotLog

theorem mem_entries_iff {log : SlotLog} {key payload : UInt16} (hk : isCallerKey key = true) :
    (key, payload) ∈ log.entries ↔ log.newest? key = some payload := by
  rw [mem_entries, mem_survivors, contents_of_caller hk]

theorem length_entries (log : SlotLog) : log.entries.length = log.survivors.length := by
  rw [entries_eq_listing, length_survivors, Contents.size]

/-- Once all copies of a key are cleared, it alone is missing. -/
theorem entries_struck {log : SlotLog} {key : UInt16} (hk : isCallerKey key = true) :
    (log.struck key (log.copies key).length).entries = log.entries.filter (·.1 != key) := by
  rw [entries_eq_listing, entries_eq_listing, ← Contents.listing_erase, contents_struck hk,
    List.getElem?_eq_none (Nat.le_refl _), Contents.erase]

theorem countP_isLive_add_le (log : SlotLog) :
    log.countP (·.isLive) + log.countP (·.isTombstone) ≤ log.countP (!·.isFree) := by
  induction log with
  | nil => rfl
  | cons slot rest ih =>
    have hslot : (if slot.isLive then 1 else 0) + (if slot.isTombstone then 1 else 0) ≤
        if !slot.isFree then 1 else 0 := by
      by_cases hzero : slot.key = 0
      · simp [Slot.isLive, isCallerKey, Slot.isTombstone, Slot.isFree, hzero]
      · by_cases hones : slot.key = 0xFFFF
        · simp [Slot.isLive, isCallerKey, Slot.isTombstone, hones]
        · simp [Slot.isLive, isCallerKey, Slot.isTombstone, Slot.isFree, hzero, hones]
    simp only [List.countP_cons]
    omega

/-- A key that counts takes a slot that is neither free nor deleted. -/
theorem length_liveKeys_add_le (log : SlotLog) :
    log.liveKeys.length + log.countP (·.isTombstone) ≤ log.countP (!·.isFree) := by
  have hkeys : log.liveKeys.length ≤ log.countP (·.isLive) := by
    rw [length_liveKeys, keys, List.countP_eq_length_filter]
    exact (List.toFinset_card_le _).trans_eq (List.length_map _)
  have hslots := countP_isLive_add_le log
  omega

end SlotLog

namespace PageRing

variable {ring : PageRing} {ram : Ram} {i : Nat} {key : UInt16}

theorem mem_found_log (ring : PageRing) (ram : Ram) (i : Nat) (key : UInt16) (address : Nat) :
    address ∈ (found ((ring.page i).start + 1) key (ring.content ram i).log.reverse).map Prod.fst ↔
      address ∈ (ring.page i).slotAddresses ∧ (Slot.decode (ram.word address)).key = key := by
  have hzip : (List.range' ((ring.page i).start + 1)
      (ring.content ram i).log.reverse.length).zip (ring.content ram i).log.reverse.reverse =
        (ring.page i).slotAddresses.map fun address => (address, .decode (ram.word address)) := by
    rw [List.length_reverse, List.reverse_reverse, length_log, List.map_prod_left_eq_zip]
    rfl
  rw [← filter_zip_eq_found, hzip]
  simp

/-- Clearing slots clears the key half of their words. -/
theorem word_strikes (hg : ring.geometry = ram.geometry) (hi : i < ring.count)
    {slots : List Slot} (hl : slots.length ≤ ring.capacity) (address : Nat) :
    (ring.commitAll ram (strikes i key slots)).word address =
      if address ∈ (found ((ring.page i).start + 1) key slots).map Prod.fst then
        ram.word address &&& Slot.tombstoneWord
      else ram.word address := by
  induction slots generalizing ram with
  | nil => rfl
  | cons slot rest ih =>
    rw [List.length_cons] at hl
    rw [strikes, found]
    split
    next =>
      have hlt : (ring.page i).start + 1 + rest.length < ram.geometry.totalWords :=
        hg ▸ slotAddress_lt hi hl
      have hrest := ih (hg.trans (geometry_commit ring ram
        (.slot i rest.length Slot.tombstoneWord)).symm) (Nat.le_of_succ_le hl)
      refine hrest.trans ?_
      rw [commit, Page.slotAddress, Ram.word_programmed hlt]
      simp only [List.map_cons, List.mem_cons]
      have htwice : ∀ word : UInt32,
          word &&& Slot.tombstoneWord &&& Slot.tombstoneWord = word &&& Slot.tombstoneWord :=
        fun word => by rw [UInt32.and_assoc, UInt32.and_self]
      by_cases he : address = (ring.page i).start + 1 + rest.length
      · rw [if_pos he, htwice, ite_self, if_pos (Or.inl he)]
      · simp only [he, if_false, false_or]
    next => exact ih hg (Nat.le_of_succ_le hl)

end PageRing

namespace Store

variable {store : Store Ram} {roles : Roles} {a t : Nat} {key payload : UInt16}

section Programs

variable {carried : Option Slot}

theorem Performs.carry_any (hs : store.Fits) (ht : t < store.ring.count) (carried : Option Slot) :
    ∃ changes out, Performs (carried.toList.forM (Store.appendOrFail (store.ring.page t))) store
      changes out store.roles ∧
      (out = .ok () ∨ ∃ live capacity, out = .error (.storeFull live capacity)) := by
  cases carried with
  | none => exact ⟨[], .ok (), forM_nil _ store, Or.inl rfl⟩
  | some slot =>
    obtain ⟨changes, out, happend, -, hout⟩ := appendOrFail_any hs ht slot
    rcases hout with rfl | ⟨live, capacity, rfl⟩
    · exact ⟨_, .ok (), forM_cons happend (forM_nil _ _), Or.inl rfl⟩
    · exact ⟨changes, _, bind_error happend, Or.inr ⟨live, capacity, rfl⟩⟩

/-- However a rotation ends, the target is marked first. -/
theorem Performs.transfer_starts (hs : store.Fits) (ha : a < store.ring.count)
    (ht : t < store.ring.count) (carried : Option Slot) (log : SlotLog) :
    ∃ more out final, Performs (Store.transfer (store.ring.page a) (store.ring.page t) carried log)
      store (.header t Status.receiving.programWord :: more) out final ∧ isCut out = false := by
  have hmark := program_header hs ht Status.receiving.programWord
  have hs₁ := fits_after hs [.header t Status.receiving.programWord] store.roles
  obtain ⟨first, out, hcarry, hout⟩ := carry_any hs₁ ht carried
  rcases hout with rfl | ⟨live, capacity, rfl⟩
  · have hs₂ := fits_after hs₁ first store.roles
    obtain ⟨copies, out, hcopy, -, hout⟩ := forM_copy_any hs₂ ht log.reverse
    rcases hout with rfl | ⟨live, capacity, rfl⟩
    · have hover := handOver (fits_after hs₂ copies store.roles) ha ht
      exact ⟨_, _, _, bind hmark (bind hcarry (bind hcopy hover)), rfl⟩
    · exact ⟨_, _, _, bind hmark (bind hcarry (bind_error hcopy)), rfl⟩
  · exact ⟨_, _, _, bind hmark (bind_error hcarry), rfl⟩

namespace Ready

theorem rotate_programs (h : store.Ready roles) (hlive : ∀ slot ∈ carried, slot.isLive = true) :
    ∃ changes out final, Performs (Store.rotate carried) store changes out final ∧
      isCut out = false ∧ (out = .ok () → changes ≠ []) := by
  have hs := h.attached.fits
  have ha := h.within.active
  obtain ⟨active, receiving⟩ := roles
  rcases Nat.lt_or_ge store.ring.capacity
    (SlotLog.survivors ((store.flash active).log ++ carried.toList)).length with hover | hroom
  · exact ⟨[], _, _, Performs.rotate_full hs ha h.roles hlive hover, rfl, fun hok => by cases hok⟩
  · cases receiving with
    | none =>
      exact ⟨_, _, _, Performs.rotate_fresh hs ha h.roles hlive hroom, rfl,
        fun _ => by simp [rotationChanges]⟩
    | some t =>
      have ht := h.within.receiving t rfl
      obtain ⟨more, out, final, htransfer, hcut⟩ :=
        Performs.transfer_starts hs ha ht carried (store.flash active).log
      exact ⟨_, out, final, Performs.rotate_receiving hs ha h.roles hlive hroom htransfer, hcut,
        fun _ => List.cons_ne_nil _ _⟩

/-- A payload that is not there takes a program, or the write is refused. -/
theorem write_programs (h : store.Ready roles) (hk : isCallerKey key = true)
    (hother : (store.flash roles.active).log.newest? key ≠ some payload) :
    ∃ changes out final, Performs (Store.write key payload) store changes out final ∧
      (out = .ok () → changes ≠ []) := by
  have hs := h.attached.fits
  have ha := h.within.active
  cases hfind : (store.flash roles.active).log.findIdx? (·.isFree) with
  | some place =>
    exact ⟨_, _, _, Performs.write_found hs h.roles ha hk hother hfind,
      fun _ => List.cons_ne_nil _ _⟩
  | none =>
    obtain ⟨changes, out, final, hrotate, hcut, hprograms⟩ :=
      h.rotate_programs (SlotLog.isLive_carried hk payload)
    have hfull := List.findIdx?_eq_none_iff.mp hfind
    exact ⟨changes, out, final, Performs.write_full hs h.roles ha hk hother hfull hrotate hcut,
      hprograms⟩

end Ready

end Programs

/-- What every way of looking keys up finds in the active page, by the list of its entries. -/
structure LookupsAgree (store : Store Ram) (active : Nat) (list : List (UInt16 × UInt16)) :
    Prop where
  listed : answer entries store = .ok list
  ascending : list.Pairwise (·.1 < ·.1)
  found : ∀ key, isCallerKey key = true → ∃ payload?, answer (read key) store = .ok payload? ∧
    ∀ payload, payload? = some payload ↔ (key, payload) ∈ list
  elided : ∀ key payload, isCallerKey key = true →
    (answer (write key payload) store = .ok () ∧
      (left (write key payload) store).device.mutations = store.device.mutations ↔
        (key, payload) ∈ list)
  existed : ∀ key, isCallerKey key = true → ∃ existed, answer (delete key) store = .ok existed ∧
    (existed = true ↔ ∃ payload, (key, payload) ∈ list)
  delisted : ∀ key, isCallerKey key = true →
    answer entries (left (delete key) store) = .ok (list.filter (·.1 != key))
  /-- Deleting clears the key half of the slots with the key, and changes nothing else. -/
  cleared : ∀ key, isCallerKey key = true → ∀ address,
    (left (delete key) store).device.word address =
      if address ∈ (store.ring.page active).slotAddresses ∧
          (Slot.decode (store.device.word address)).key = key then
        store.device.word address &&& 0x0000FFFF
      else store.device.word address
  counted : ∃ reports report, answer inspect store = .ok reports ∧
    reports[active]? = some report ∧ report.page = store.ring.page active ∧
    report.liveKeys = list.length ∧ report.liveKeys + report.tombstones ≤ report.usedSlots ∧
    report.usedSlots ≤ store.ring.capacity
  untouched : (∀ key, left (read key) store = store) ∧ left entries store = store ∧
    left inspect store = store ∧ left eraseCounter store = store

namespace Ready

theorem elides_iff (h : store.Ready roles) (hk : isCallerKey key = true) :
    answer (Store.write key payload) store = .ok () ∧
      (left (Store.write key payload) store).device.mutations = store.device.mutations ↔
        (key, payload) ∈ (store.flash roles.active).log.entries := by
  rw [SlotLog.mem_entries_iff hk]
  constructor
  · rintro ⟨hok, hsame⟩
    by_contra hother
    obtain ⟨changes, out, final, hrun, hprograms⟩ := h.write_programs hk hother
    have hend := hrun.of_steady h.steady
    rw [answer_of_run hend] at hok
    rw [left_of_run hend] at hsame
    have hcount : store.device.mutations + changes.length = store.device.mutations :=
      (PageRing.mutations_commitAll store.ring store.device changes).symm.trans hsame
    exact hprograms hok (List.eq_nil_of_length_eq_zero (by omega))
  · intro hsame
    have hrun := (Performs.write_elided h.attached.fits h.roles h.within.active hk hsame).run_nothing
    rw [answer_of_run hrun, left_of_run hrun]
    exact ⟨rfl, rfl⟩

/-- The store after all slots with a key are cleared. -/
theorem left_delete (h : store.Ready roles) (hk : isCallerKey key = true) :
    left (Store.delete key) store =
      (store.after (strikes roles.active key (store.flash roles.active).log.reverse)
        store.roles).powered .steady :=
  left_of_run
    ((Performs.delete h.attached.fits h.roles h.within.active hk).of_steady h.steady)

theorem entries_delete (h : store.Ready roles) (hk : isCallerKey key = true) :
    answer Store.entries (left (Store.delete key) store) =
      .ok ((store.flash roles.active).log.entries.filter (·.1 != key)) := by
  have hs := h.attached.fits
  have hin := holds_strikes_log h.within.active key
  have hall := Flash.applyAll_strikes_log store.ring.capacity store.flash roles.active key
    (strikes roles.active key (store.flash roles.active).log.reverse).length
  rw [List.take_length, length_strikes_log] at hall
  have hflash := (flash_after hs hin store.roles).trans hall
  have hrun := Performs.entries (fits_after hs (strikes roles.active key
    (store.flash roles.active).log.reverse) store.roles) h.roles h.within.active
  rw [h.left_delete hk, answer_of_run (hrun.at_power .steady).run_nothing, hflash,
    Function.update_self, SlotLog.entries_struck hk]

theorem word_delete (h : store.Ready roles) (hk : isCallerKey key = true) (address : Nat) :
    (left (Store.delete key) store).device.word address =
      if address ∈ (store.ring.page roles.active).slotAddresses ∧
          (Slot.decode (store.device.word address)).key = key then
        store.device.word address &&& 0x0000FFFF
      else store.device.word address := by
  have ha := h.within.active
  rw [h.left_delete hk]
  refine (PageRing.word_strikes h.attached.fits ha (length_reverse_log_le store _) address).trans ?_
  rw [flash, PageRing.flash_of_lt ha]
  simp only [PageRing.mem_found_log]
  rfl

theorem inspects (h : store.Ready roles) :
    ∃ reports report, answer Store.inspect store = .ok reports ∧
      reports[roles.active]? = some report ∧ report.page = store.ring.page roles.active ∧
      report.liveKeys = (store.flash roles.active).log.entries.length ∧
      report.liveKeys + report.tombstones ≤ report.usedSlots ∧
      report.usedSlots ≤ store.ring.capacity := by
  have hlog : (((store.ring.page roles.active).addresses.map store.device.word).tail.map
      Slot.decode : SlotLog) = (store.flash roles.active).log := by
    rw [flash, PageRing.flash_of_lt h.within.active, PageRing.addresses_page, List.map_cons,
      List.tail_cons, List.map_map]
    rfl
  refine ⟨_, .ofWords (store.ring.page roles.active)
    ((store.ring.page roles.active).addresses.map store.device.word),
    answer_of_run (Performs.inspect h.attached.fits).run_nothing, ?_, rfl, ?_, ?_, ?_⟩
  · rw [List.getElem?_map, PageRing.pages, List.getElem?_map,
      List.getElem?_range h.within.active]
    rfl
  all_goals
    simp only [PageReport.ofWords, hlog]
  · rw [SlotLog.length_entries, SlotLog.length_liveKeys, SlotLog.length_survivors_eq_card]
  · exact SlotLog.length_liveKeys_add_le _
  · exact List.countP_le_length.trans (PageRing.length_flash ..).le

theorem untouched (h : store.Ready roles) :
    (∀ key, left (read key) store = store) ∧ left entries store = store ∧
      left Store.inspect store = store ∧ left eraseCounter store = store := by
  have hs := h.attached.fits
  have ha := h.within.active
  refine ⟨fun key => ?_, ?_, ?_, ?_⟩
  · cases hk : isCallerKey key with
    | false => exact left_of_run (Performs.invalidKey h.roles hk _).run_nothing
    | true => exact left_of_run (Performs.read hs h.roles ha hk).run_nothing
  · exact left_of_run (Performs.entries hs h.roles ha).run_nothing
  · exact left_of_run (Performs.inspect hs).run_nothing
  · exact left_of_run (Performs.eraseCounter hs h.roles ha).run_nothing

end Ready

/-- Whatever the active page holds, all lookups go by the same list. -/
theorem lookupsAgree_of_ready (h : store.Ready roles) :
    store.LookupsAgree roles.active (store.flash roles.active).log.entries := by
  have hs := h.attached.fits
  have ha := h.within.active
  constructor
  case listed => exact answer_of_run (Performs.entries hs h.roles ha).run_nothing
  case ascending => exact SlotLog.pairwise_entries _
  case found =>
    intro key hk
    refine ⟨_, answer_of_run (Performs.read hs h.roles ha hk).run_nothing, fun payload => ?_⟩
    exact (SlotLog.mem_entries_iff hk).symm
  case elided => exact fun key payload hk => h.elides_iff hk
  case existed =>
    intro key hk
    have hrun := (Performs.delete hs h.roles ha hk).of_steady h.steady
    refine ⟨_, answer_of_run hrun, ?_⟩
    simp only [SlotLog.mem_entries_iff hk, Option.isSome_iff_exists]
  case delisted => exact fun key hk => h.entries_delete hk
  case cleared => exact fun key hk address => h.word_delete hk address
  case counted => exact h.inspects
  case untouched => exact h.untouched

theorem lookupsAgree_of_ready_jumbled :
    jumbled.Ready ⟨1, none⟩ ∧ jumbled.LookupsAgree 1 [(1, 11), (2, 20)] := by
  have hready : jumbled.Ready ⟨1, none⟩ := ⟨rfl, rfl, ⟨by decide, by simp⟩, rfl⟩
  have hlist : (jumbled.flash 1).log.entries = [(1, 11), (2, 20)] := by decide +kernel
  have hagree := lookupsAgree_of_ready hready
  rw [hlist] at hagree
  exact ⟨hready, hagree⟩

end Store

end FlashRing
