import FlashRing.Proofs.Entry

/-!
Deleting clears the copies of a key one by one, the newest first. Main statement: after some of
them are cleared the key has the payload of the newest copy that is left, and no other key changes.
-/

namespace FlashRing

namespace SlotLog

/-- The payloads of the slots with a key, the newest first. -/
def copies (log : SlotLog) (key : UInt16) : List UInt16 :=
  (log.reverse.filter (·.key == key)).map (·.payload)

/-- Clears the first slots with a key. -/
def strike (key : UInt16) : Nat → List Slot → List Slot
  | 0, slots => slots
  | _ + 1, [] => []
  | n + 1, slot :: rest =>
    if slot.key = key then slot.struck :: strike key n rest else slot :: strike key (n + 1) rest

/-- The log after its newest slots with a key are cleared. -/
def struck (log : SlotLog) (key : UInt16) (n : Nat) : SlotLog :=
  (strike key n log.reverse).reverse

theorem newest?_eq_head? (log : SlotLog) (key : UInt16) :
    newest? log key = (copies log key).head? := by
  rw [newest?, copies, List.head?_map, List.head?_filter]

variable {key other : UInt16}

theorem filter_strike (hk : key ≠ 0) (n : Nat) (slots : List Slot) :
    (strike key n slots).filter (·.key == key) = (slots.filter (·.key == key)).drop n := by
  induction slots generalizing n with
  | nil => cases n <;> rfl
  | cons slot rest ih =>
    cases n with
    | zero => rfl
    | succ n =>
      rw [strike]
      split
      next he =>
        have hs : (slot.struck.key == key) = false := beq_eq_false_iff_ne.mpr hk.symm
        rw [List.filter_cons, hs, List.filter_cons, beq_iff_eq.mpr he]
        exact ih n
      next hne =>
        have hs : (slot.key == key) = false := beq_eq_false_iff_ne.mpr hne
        rw [List.filter_cons, hs, List.filter_cons, hs]
        exact ih (n + 1)

theorem filter_strike_of_ne (hne : other ≠ key) (h0 : other ≠ 0) (n : Nat) (slots : List Slot) :
    (strike key n slots).filter (·.key == other) = slots.filter (·.key == other) := by
  induction slots generalizing n with
  | nil => cases n <;> rfl
  | cons slot rest ih =>
    cases n with
    | zero => rfl
    | succ n =>
      rw [strike]
      split
      next he =>
        have hs : (slot.struck.key == other) = false := beq_eq_false_iff_ne.mpr h0.symm
        have hs' : (slot.key == other) = false :=
          beq_eq_false_iff_ne.mpr fun h => hne (h.symm.trans he)
        rw [List.filter_cons, hs, List.filter_cons, hs']
        exact ih n
      next => rw [List.filter_cons, ih, List.filter_cons]

theorem copies_struck (hk : key ≠ 0) (log : SlotLog) (n : Nat) :
    copies (struck log key n) key = (copies log key).drop n := by
  rw [copies, struck, List.reverse_reverse, filter_strike hk, copies, List.map_drop]

theorem copies_struck_of_ne (hne : other ≠ key) (h0 : other ≠ 0) (log : SlotLog) (n : Nat) :
    copies (struck log key n) other = copies log other := by
  rw [copies, struck, List.reverse_reverse, filter_strike_of_ne hne h0, copies]

theorem ne_zero_of_caller (h : isCallerKey key = true) : key ≠ 0 := by
  rintro rfl
  cases h

/-- The copy that comes to light is the newest of those that are left. -/
theorem contents_struck (hk : isCallerKey key = true) (log : SlotLog) (n : Nat) :
    contents (struck log key n) = Function.update (contents log) key (copies log key)[n]? := by
  funext other
  by_cases ho : isCallerKey other = true
  · rw [contents_of_caller ho, newest?_eq_head?]
    by_cases he : other = key
    · subst he
      rw [copies_struck (ne_zero_of_caller hk), List.head?_drop, Function.update_self]
    · rw [copies_struck_of_ne he (ne_zero_of_caller ho), Function.update_of_ne he,
        contents_of_caller ho, newest?_eq_head?]
  · have he : other ≠ key := fun h => ho (h ▸ hk)
    rw [Bool.not_eq_true] at ho
    rw [Function.update_of_ne he, contents_of_not_caller ho, contents_of_not_caller ho]

theorem strike_zero (key : UInt16) (slots : List Slot) : strike key 0 slots = slots := by
  cases slots <;> rfl

theorem strike_append {behind : List Slot} (h : ∀ slot ∈ behind, slot.key ≠ key) (n : Nat)
    (slots : List Slot) : strike key n (behind ++ slots) = behind ++ strike key n slots := by
  induction behind with
  | nil => rfl
  | cons slot rest ih =>
    cases n with
    | zero => rw [strike_zero, strike_zero]
    | succ n =>
      rw [List.cons_append, strike, if_neg (h slot (by simp)),
        ih fun other ho => h other (List.mem_cons_of_mem slot ho), List.cons_append]

theorem struck_append {rest : SlotLog} (h : ∀ slot ∈ rest, slot.key ≠ key) (log : SlotLog)
    (n : Nat) : struck (log ++ rest) key n = struck log key n ++ rest := by
  rw [struck, List.reverse_append, strike_append fun slot hs => h slot (List.mem_reverse.mp hs),
    List.reverse_append, List.reverse_reverse, struck]

theorem length_strike (key : UInt16) (n : Nat) (slots : List Slot) :
    (strike key n slots).length = slots.length := by
  induction slots generalizing n with
  | nil => cases n <;> rfl
  | cons slot rest ih =>
    cases n with
    | zero => rfl
    | succ n =>
      rw [strike]
      split
      next => rw [List.length_cons, ih, List.length_cons]
      next => rw [List.length_cons, ih, List.length_cons]

theorem key_strike {slots : List Slot} (h : ∀ slot ∈ slots, slot.key ≠ 0xFFFF) (n : Nat) :
    ∀ slot ∈ strike key n slots, slot.key ≠ 0xFFFF := by
  induction slots generalizing n with
  | nil => cases n <;> exact h
  | cons first rest ih =>
    have hrest := ih fun slot hs => h slot (List.mem_cons_of_mem first hs)
    cases n with
    | zero => exact h
    | succ n =>
      rw [strike]
      intro slot hs
      split at hs
      next =>
        rcases List.mem_cons.mp hs with rfl | hs
        · simp [Slot.struck]
        · exact hrest n slot hs
      next =>
        rcases List.mem_cons.mp hs with rfl | hs
        · exact h slot (by simp)
        · exact hrest (n + 1) slot hs

theorem fitting_struck {ring : PageRing} {log : SlotLog} (h : Layout.Fitting ring log)
    (key : UInt16) (n : Nat) : Layout.Fitting ring (struck log key n) := by
  refine ⟨?_, fun slot hs => ?_⟩
  · rw [struck, List.length_reverse, length_strike, List.length_reverse]
    exact h.1
  · exact key_strike (fun other ho => h.2 other (List.mem_reverse.mp ho)) n slot
      (List.mem_reverse.mp hs)

end SlotLog

/-- The programs that clear the slots with a key, given the slots of a page from its tail on. -/
def strikes (index : Nat) (key : UInt16) : List Slot → List Change
  | [] => []
  | slot :: rest =>
    if slot.key = key then .slot index rest.length Slot.tombstoneWord :: strikes index key rest
    else strikes index key rest

theorem length_strikes (index : Nat) (key : UInt16) (slots : List Slot) :
    (strikes index key slots).length = (slots.filter (·.key == key)).length := by
  induction slots with
  | nil => rfl
  | cons slot rest ih =>
    rw [strikes, List.filter_cons]
    by_cases h : slot.key = key
    · rw [if_pos h, if_pos (beq_iff_eq.mpr h), List.length_cons, List.length_cons, ih]
    · rw [if_neg h, if_neg (by simpa using h), ih]

theorem length_strikes_log (index : Nat) (key : UInt16) (log : SlotLog) :
    (strikes index key log.reverse).length = (log.copies key).length := by
  rw [length_strikes, SlotLog.copies, List.length_map]

theorem holds_strikes {ring : PageRing} {index : Nat} (hi : index < ring.count) (key : UInt16)
    {slots : List Slot} (hl : slots.length ≤ ring.capacity) :
    ∀ change ∈ strikes index key slots, ring.Holds change := by
  induction slots with
  | nil => simp [strikes]
  | cons slot rest ih =>
    rw [List.length_cons] at hl
    intro change hc
    rw [strikes] at hc
    split at hc
    next =>
      rcases List.mem_cons.mp hc with rfl | hc
      · exact ⟨hi, hl⟩
      · exact ih (by omega) change hc
    next => exact ih (by omega) change hc

/-- The first of the programs clear the newest of the slots. -/
theorem Flash.applyAll_strikes {capacity index : Nat} {flash : Flash} {header : UInt32}
    {key : UInt16} {slots : List Slot} {tail : SlotLog}
    (hf : flash index = ⟨header, slots.reverse ++ tail⟩) (n : Nat) :
    flash.applyAll capacity ((strikes index key slots).take n) =
      Function.update flash index ⟨header, (SlotLog.strike key n slots).reverse ++ tail⟩ := by
  -- The slots come from the tail of the page on; those already passed stand in `tail`.
  induction slots generalizing flash n tail with
  | nil =>
    have hnil : SlotLog.strike key n [] = [] := by cases n <;> rfl
    rw [strikes, List.take_nil, hnil, ← hf, Function.update_eq_self]
    rfl
  | cons slot rest ih =>
    rw [List.reverse_cons, List.append_assoc, List.singleton_append] at hf
    cases n with
    | zero =>
      rw [List.take_zero, SlotLog.strike, List.reverse_cons, List.append_assoc,
        List.singleton_append, ← hf, Function.update_eq_self]
      rfl
    | succ n =>
      rw [strikes, SlotLog.strike]
      split
      next he =>
        have hstep : (Change.slot index rest.length Slot.tombstoneWord).apply capacity flash =
            Function.update flash index ⟨header, rest.reverse ++ slot.struck :: tail⟩ := by
          rw [Change.apply, hf, ← List.length_reverse, modify_append_cons,
            Slot.masked_tombstoneWord]
        rw [List.take_succ_cons, Flash.applyAll_cons, hstep,
          ih (Function.update_self ..) n, Function.update_idem, List.reverse_cons,
          List.append_assoc, List.singleton_append]
      next =>
        rw [ih hf (n + 1), List.reverse_cons, List.append_assoc, List.singleton_append]

theorem Flash.applyAll_strikes_log (capacity : Nat) (flash : Flash) (index : Nat) (key : UInt16)
    (n : Nat) : flash.applyAll capacity ((strikes index key (flash index).log.reverse).take n) =
      Function.update flash index ⟨(flash index).header, (flash index).log.struck key n⟩ := by
  have hpage : flash index =
      ⟨(flash index).header, (flash index).log.reverse.reverse ++ []⟩ := by
    rw [List.reverse_reverse, List.append_nil]
  rw [Flash.applyAll_strikes hpage, List.append_nil, SlotLog.struck]

theorem strikes_append {index : Nat} {key : UInt16} {behind : List Slot}
    (h : ∀ slot ∈ behind, slot.key ≠ key) (slots : List Slot) :
    strikes index key (behind ++ slots) = strikes index key slots := by
  induction behind with
  | nil => rfl
  | cons slot rest ih =>
    rw [List.cons_append, strikes, if_neg (h slot (by simp)),
      ih fun other ho => h other (List.mem_cons_of_mem slot ho)]

theorem Layout.path_strikes (ring : PageRing) (active count : Nat) (key : UInt16)
    (slots : List Slot) (tail : SlotLog) :
    ∃ used, Path (Step ring) (settled active count (slots.reverse ++ tail))
      (strikes active key slots) (settled active count used) := by
  induction slots generalizing tail with
  | nil => exact ⟨tail, .nil _⟩
  | cons slot rest ih =>
    rw [List.reverse_cons, List.append_assoc, List.singleton_append, strikes]
    split
    next =>
      obtain ⟨used, hpath⟩ := ih (slot.struck :: tail)
      have hstep : Step ring _ _ _ := .strike active count rest.reverse slot tail
      rw [List.length_reverse] at hstep
      exact ⟨used, .cons hstep hpath⟩
    next => exact ih (slot :: tail)

/-- The slots with a key and their addresses, from the tail of a page on. -/
def found (first : Nat) (key : UInt16) : List Slot → List (Nat × Slot)
  | [] => []
  | slot :: rest =>
    if slot.key = key then (first + rest.length, slot) :: found first key rest
    else found first key rest

theorem filter_zip_eq_found (first : Nat) (key : UInt16) (slots : List Slot) :
    ((List.range' first slots.length).zip slots.reverse).reverse.filter (·.2.key == key) =
      found first key slots := by
  induction slots with
  | nil => rfl
  | cons slot rest ih =>
    have hl : (List.range' first rest.length).length = rest.reverse.length := by simp
    rw [List.length_cons, List.range'_1_concat, List.reverse_cons, List.zip_append hl,
      List.reverse_append, List.filter_append, ih, found]
    by_cases h : slot.key = key
    · simp [h]
    · simp [h]

theorem isEmpty_found (first : Nat) (key : UInt16) (slots : List Slot) :
    (found first key slots).isEmpty = !SlotLog.hasKey slots key := by
  induction slots with
  | nil => rfl
  | cons slot rest ih =>
    rw [found, SlotLog.hasKey_cons]
    by_cases h : slot.key = key
    · simp [h]
    · simp [h, ih]

namespace Store

variable {store : Store Ram} {active count : Nat} {used : SlotLog} {key : UInt16}

theorem length_reverse_log_le (store : Store Ram) (i : Nat) :
    (store.flash i).log.reverse.length ≤ store.ring.capacity := by
  rw [List.length_reverse]
  exact (PageRing.length_flash ..).le

theorem holds_strikes_log {i : Nat} (hi : i < store.ring.count) (key : UInt16) :
    ∀ change ∈ strikes i key (store.flash i).log.reverse, store.ring.Holds change :=
  holds_strikes hi key (length_reverse_log_le store i)

theorem Performs.clear_found (hs : store.Fits) {i : Nat} (hi : i < store.ring.count)
    {slots : List Slot} (hl : slots.length ≤ store.ring.capacity) :
    Performs ((found ((store.ring.page i).start + 1) key slots).forM fun entry =>
        Store.program entry.1 Slot.tombstoneWord) store (strikes i key slots) (.ok ())
      store.roles := by
  induction slots generalizing store with
  | nil => exact forM_nil _ store
  | cons slot rest ih =>
    rw [List.length_cons] at hl
    rw [found, strikes]
    split
    next =>
      have hfirst := program_slot hs hi hl Slot.tombstoneWord
      have hrest := ih (fits_after hs [.slot i rest.length Slot.tombstoneWord] store.roles) hi
        (Nat.le_of_succ_le hl)
      exact forM_cons (f := fun entry : Nat × Slot => Store.program entry.1 Slot.tombstoneWord)
        (a := ((store.ring.page i).start + 1 + rest.length, slot)) hfirst hrest
    next => exact ih hs hi (Nat.le_of_succ_le hl)

/-- Whatever the active page holds, every slot with the key is cleared. -/
theorem Performs.delete {roles : Roles} (hs : store.Fits) (hr : store.roles = some roles)
    (ha : roles.active < store.ring.count) (hk : isCallerKey key = true) :
    Performs (Store.delete key) store
      (strikes roles.active key (store.flash roles.active).log.reverse)
      (.ok ((store.flash roles.active).log.newest? key).isSome) store.roles := by
  have hl : (store.flash roles.active).log.length = store.ring.capacity :=
    PageRing.length_flash ..
  have hfound : ((store.ring.page roles.active).slotAddresses.zip
      (store.flash roles.active).log).reverse.filter (·.2.key == key) =
        found ((store.ring.page roles.active).start + 1) key
          (store.flash roles.active).log.reverse := by
    rw [← filter_zip_eq_found, List.length_reverse, List.reverse_reverse, hl]
    rfl
  have hanswer : (!(found ((store.ring.page roles.active).start + 1) key
      (store.flash roles.active).log.reverse).isEmpty) =
        ((store.flash roles.active).log.newest? key).isSome := by
    rw [isEmpty_found, Bool.not_not, SlotLog.isSome_newest?, SlotLog.hasKey, List.any_reverse,
      SlotLog.hasKey]
  refine fenced ?_ rfl
  refine bind_read (activePage hr) (bind_read (checkKey hk) (bind_read (log hs ha) ?_))
  rw [hfound, ← hanswer]
  exact bind_last (clear_found hs ha (length_reverse_log_le store _)) (pure _ _)

namespace Settled

theorem key_ne_of_free (hk : isCallerKey key = true) (n : Nat) :
    ∀ slot ∈ List.replicate n Slot.free, slot.key ≠ key := by
  intro slot hm he
  rw [List.eq_of_mem_replicate hm] at he
  rw [← he] at hk
  cases hk

theorem delete (hs : store.Settled active count used) (hk : isCallerKey key = true) :
    Performs (Store.delete key) store (strikes active key (store.flash active).log.reverse)
      (.ok (used.contents key).isSome) store.roles := by
  have h := Performs.delete hs.attached.fits hs.roles hs.valid.1 hk
  rwa [hs.newest?_log hk] at h

theorem copies_log (hs : store.Settled active count used) (hk : isCallerKey key = true) :
    SlotLog.copies (store.flash active).log key = used.copies key := by
  have hfree : List.filter (fun slot : Slot => slot.key == key)
      (List.replicate (store.ring.capacity - used.length) Slot.free) = [] :=
    List.filter_eq_nil_iff.mpr fun slot hm he => key_ne_of_free hk _ slot hm (beq_iff_eq.mp he)
  rw [hs.log, SlotLog.copies, List.reverse_append, List.filter_append, List.reverse_replicate,
    hfree, List.nil_append, SlotLog.copies]

/-- After some of its programs a delete has cleared as many of the newest copies. -/
theorem flash_deleting (hs : store.Settled active count used) (hk : isCallerKey key = true)
    (n : Nat) :
    store.flash.applyAll store.ring.capacity
        ((strikes active key (store.flash active).log.reverse).take n) =
      (Layout.settled active count (used.struck key n)).flash store.ring := by
  have hfree := key_ne_of_free hk (store.ring.capacity - used.length)
  have hlen : (used.struck key n).length = used.length := by
    rw [SlotLog.struck, List.length_reverse, SlotLog.length_strike, List.length_reverse]
  rw [Flash.applyAll_strikes_log, hs.log, SlotLog.struck_append hfree, hs.content, hs.flash,
    Layout.flash, Function.update_idem, Layout.flash, PageContent.filled, PageContent.filled, hlen]

theorem path_delete (hs : store.Settled active count used) (hk : isCallerKey key = true) :
    ∃ left, Layout.Path (Layout.Step store.ring) (.settled active count used)
      (strikes active key (store.flash active).log.reverse) (.settled active count left) := by
  have h := Layout.path_strikes store.ring active count key used.reverse []
  rw [List.reverse_reverse, List.append_nil] at h
  rwa [hs.log, List.reverse_append, List.reverse_replicate, strikes_append (key_ne_of_free hk _)]

theorem valid_struck (hs : store.Settled active count used) (key : UInt16) (n : Nat) :
    (Layout.settled active count (used.struck key n)).Valid store.ring := by
  obtain ⟨ha, hlo, hhi, hu⟩ := hs.valid
  exact ⟨ha, hlo, hhi, SlotLog.fitting_struck hu key n⟩

/-- While a key is deleted, copies of it come to light one after the other. -/
theorem passes_delete (hs : store.Settled active count used) (hk : isCallerKey key = true) :
    Passes (Store.delete key) store (.ok (used.contents key).isSome)
      (fun contents => ∃ n : Nat,
        contents = Function.update used.contents key (used.copies key)[n]?)
      (· = used.struck key (used.copies key).length) := by
  have hlen : (strikes active key (store.flash active).log.reverse).length =
      (used.copies key).length := by
    rw [length_strikes_log, hs.copies_log hk]
  have h := hs.delete hk
  rw [hs.roles] at h
  refine ⟨_, active, count, _, h, ?_, ?_, ?_, hs.valid_struck key _, rfl⟩
  · exact holds_strikes_log hs.valid.1 key
  -- Between two programs as many copies are cleared as programs were made.
  · apply Flash.Throughout.of_take
    intro n
    rw [hs.flash_deleting hk]
    exact ⟨_, ⟨n, rfl⟩, _, hs.valid_struck key n, rfl, SlotLog.contents_struck hk used n⟩
  · rw [← hlen, ← hs.flash_deleting hk, List.take_length]

theorem leads_delete (hs : store.Settled active count used) (hk : isCallerKey key = true) :
    Leads (Store.delete key) store (.ok (used.contents key).isSome)
      (fun flash => ∃ n : Nat, Flash.StandsFor store.ring
        (Function.update used.contents key (used.copies key)[n]?) flash)
      (used.contents.erase key) := by
  obtain ⟨changes, place, number, left, hrun, hin, hmid, hend, hvalid, rfl⟩ :=
    hs.passes_delete hk
  refine ⟨changes, place, number, _, hrun, hin, hmid.mono ?_, hend, hvalid, ?_⟩
  · rintro flash ⟨-, ⟨n, rfl⟩, hstands⟩
    exact ⟨n, hstands⟩
  · rw [SlotLog.contents_struck hk, List.getElem?_eq_none (Nat.le_refl _)]
    rfl

end Settled

end Store

end FlashRing
