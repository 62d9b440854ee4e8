import FlashRing.Proofs.Rotation
import FlashRing.Proofs.Settled
import FlashRing.Proofs.Step
import FlashRing.Store.Entry

/-!
What callers get from a store that serves contents: reading and listing show them, writing sets one
key or reports that there is no room, and compacting changes nothing that callers see.
-/

namespace FlashRing.Store

variable {α : Type} {store : Store Ram} {active count : Nat} {used : SlotLog}
  {key payload : UInt16}

theorem Performs.entries {roles : Roles} (hs : store.Fits) (hr : store.roles = some roles)
    (ha : roles.active < store.ring.count) :
    Performs Store.entries store [] (.ok (store.flash roles.active).log.entries) store.roles := by
  refine fenced ?_ rfl
  exact bind_read (activePage hr) (bind_read (log hs ha) (pure store _))

/-- A key that callers may not use is refused before the flash is looked at. -/
theorem Performs.invalidKey {roles : Roles} (hr : store.roles = some roles)
    (hk : isCallerKey key = false) (f : Page → Unit → StoreM Ram α) :
    Performs (Store.fenced (Store.activePage >>= fun page => Store.checkKey key >>= f page)) store
      [] (.error (.invalidKey key)) store.roles :=
  fenced (bind_read (activePage hr) (bind_error (checkKey_error hk))) rfl

section AnyLog

variable {roles : Roles} (hs : store.Fits) (hr : store.roles = some roles)
  (ha : roles.active < store.ring.count) (hk : isCallerKey key = true)

include hs hr ha hk

theorem Performs.read :
    Performs (Store.read key) store [] (.ok ((store.flash roles.active).log.newest? key))
      store.roles := by
  refine fenced ?_ rfl
  refine bind_read (activePage hr) (bind_read (checkKey hk) (bind_read (log hs ha) ?_))
  exact pure store _

theorem Performs.write_elided
    (hsame : SlotLog.newest? (store.flash roles.active).log key = some payload) :
    Performs (Store.write key payload) store [] (.ok ()) store.roles := by
  refine fenced ?_ rfl
  refine bind_read (activePage hr) (bind_read (checkKey hk) (bind_read (log hs ha) ?_))
  rw [if_pos hsame]
  exact pure store ()

theorem Performs.write_absent
    (hother : SlotLog.newest? (store.flash roles.active).log key ≠ some payload)
    {changes : List Change} {out : Except Error Unit} {final : Option Roles}
    (h : Performs (do
        unless ← Store.append (store.ring.page roles.active) ⟨key, payload⟩ do
          Store.rotate (some ⟨key, payload⟩))
      store changes out final)
    (hout : isCut out = false) :
    Performs (Store.write key payload) store changes out final := by
  refine fenced ?_ hout
  refine bind_read (activePage hr) (bind_read (checkKey hk) (bind_read (log hs ha) ?_))
  rw [if_neg hother]
  exact h

/-- As long as some slot is free, nothing but that slot is programmed. -/
theorem Performs.write_found
    (hother : SlotLog.newest? (store.flash roles.active).log key ≠ some payload) {place : Nat}
    (hfind : (store.flash roles.active).log.findIdx? (·.isFree) = some place) :
    Performs (Store.write key payload) store
      [.slot roles.active place (Slot.mk key payload).encode] (.ok ()) store.roles :=
  write_absent hs hr ha hk hother
    ((append_found hs ha hfind _).bind_last (Performs.pure _ ())) rfl

/-- A full page is rotated on a write, and the slot to be written goes first. -/
theorem Performs.write_full
    (hother : SlotLog.newest? (store.flash roles.active).log key ≠ some payload)
    (hfull : ∀ slot ∈ (store.flash roles.active).log, slot.isFree = false)
    {changes : List Change} {out : Except Error Unit} {final : Option Roles}
    (h : Performs (Store.rotate (some ⟨key, payload⟩)) store changes out final)
    (hout : isCut out = false) :
    Performs (Store.write key payload) store changes out final :=
  write_absent hs hr ha hk hother ((append_full hs ha hfull _).bind_read h) hout

end AnyLog

namespace Settled

theorem log (hs : store.Settled active count used) :
    (store.flash active).log =
      used ++ List.replicate (store.ring.capacity - used.length) .free := by
  rw [hs.flash, Layout.log_settled]
  rfl

theorem exists_free_iff (hs : store.Settled active count used) :
    (∃ slot ∈ (store.flash active).log, slot.isFree = true) ↔
      used.length < store.ring.capacity := by
  have hused := hs.valid.2.2.2.isFree
  rw [hs.log]
  constructor
  · rintro ⟨slot, hm, hfree⟩
    rcases List.mem_append.mp hm with hm | hm
    · rw [hused slot hm] at hfree
      cases hfree
    · have hne := (List.mem_replicate.mp hm).1
      omega
  · intro hlt
    exact ⟨.free, List.mem_append_right _ (List.mem_replicate.mpr ⟨by omega, rfl⟩), rfl⟩

/-- A page without a free slot is used up. -/
theorem length_of_full (hs : store.Settled active count used)
    (hnone : ∀ slot ∈ (store.flash active).log, slot.isFree = false) :
    used.length = store.ring.capacity := by
  apply Nat.le_antisymm hs.valid.2.2.2.1
  by_contra hroom
  obtain ⟨slot, hm, hfree⟩ := hs.exists_free_iff.mpr (Nat.lt_of_not_le hroom)
  rw [hnone slot hm] at hfree
  cases hfree

theorem content (hs : store.Settled active count used) :
    store.flash active = .filled store.ring.capacity (Header.activeWord count) used := by
  rw [hs.flash, Layout.log_settled]

theorem contents_log (hs : store.Settled active count used) :
    SlotLog.contents (store.flash active).log = used.contents := by
  rw [hs.log, SlotLog.contents_append_dead (isLive_replicate_free _)]

theorem newest?_log (hs : store.Settled active count used) (hk : isCallerKey key = true) :
    SlotLog.newest? (store.flash active).log key = used.contents key := by
  rw [← hs.contents_log, SlotLog.contents_of_caller hk]

theorem invalidKey (hs : store.Settled active count used) (hk : isCallerKey key = false)
    (f : Page → Unit → StoreM Ram α) :
    Performs (fenced (activePage >>= fun page => checkKey key >>= f page)) store []
      (.error (.invalidKey key)) store.roles :=
  Performs.invalidKey hs.roles hk f

theorem leads_invalidKey (hs : store.Settled active count used) (hk : isCallerKey key = false)
    (f : Page → Unit → StoreM Ram α) :
    Leads (fenced (activePage >>= fun page => checkKey key >>= f page)) store
      (.error (.invalidKey key)) (Flash.StandsFor store.ring used.contents) used.contents :=
  hs.leads_nothing (hs.invalidKey hk f)

theorem read (hs : store.Settled active count used) (hk : isCallerKey key = true) :
    Performs (Store.read key) store [] (.ok (used.contents key)) store.roles := by
  have h := Performs.read hs.attached.fits hs.roles hs.valid.1 hk
  rwa [hs.newest?_log hk] at h

theorem entries (hs : store.Settled active count used) :
    Performs Store.entries store [] (.ok used.contents.listing) store.roles := by
  have h := Performs.entries hs.attached.fits hs.roles hs.valid.1
  rwa [SlotLog.entries_eq_listing, hs.contents_log] at h

theorem survivors_log (hs : store.Settled active count used) (carried : Option Slot) :
    SlotLog.survivors ((store.flash active).log ++ carried.toList) =
      SlotLog.survivors (used ++ carried.toList) := by
  rw [hs.log, SlotLog.survivors_dead_append _ _ (isLive_replicate_free _)]

/-- The target of a rotation is clean already. -/
theorem rotate (hs : store.Settled active count used) (carried : Option Slot)
    (hlive : ∀ slot ∈ carried, slot.isLive = true)
    (hl : (SlotLog.survivors (used ++ carried.toList)).length ≤ store.ring.capacity) :
    Performs (Store.rotate carried) store
      (rotationChanges active (store.ring.next active) 0
        (Layout.nextCount store.ring active count) (SlotLog.survivors (used ++ carried.toList)))
      (.ok ()) (some ⟨store.ring.next active, none⟩) := by
  obtain ⟨ha, hlo, hhi, hu⟩ := hs.valid
  have hclean : cleaning store.flash (store.ring.next active) = [] := by
    have hb : store.flash (store.ring.next active) = .blank store.ring.capacity := by
      rw [hs.flash]
      exact Function.update_of_ne (store.ring.next_ne ha) ..
    rw [cleaning, hb, if_pos (PageContent.isBlank_blank _)]
  have hcount : (Header.decode (store.flash active).header).counterOrZero = count := by
    rw [hs.content]
    exact Header.counterOrZero_activeWord hhi
  have h := Performs.rotate_fresh hs.attached.fits ha hs.roles hlive
    (by rwa [hs.survivors_log])
  rwa [hclean, hcount, hs.survivors_log, List.nil_append] at h

theorem rotate_full (hs : store.Settled active count used) (carried : Option Slot)
    (hlive : ∀ slot ∈ carried, slot.isLive = true)
    (hl : store.ring.capacity < (SlotLog.survivors (used ++ carried.toList)).length) :
    Performs (Store.rotate carried) store []
      (.error (.storeFull (SlotLog.survivors (used ++ carried.toList)).length
        store.ring.capacity)) store.roles := by
  rw [← hs.survivors_log] at hl ⊢
  exact Performs.rotate_full hs.attached.fits hs.valid.1 hs.roles hlive hl

theorem compact (hs : store.Settled active count used) :
    Performs Store.compact store
      (rotationChanges active (store.ring.next active) 0
        (Layout.nextCount store.ring active count) used.survivors)
      (.ok ()) (some ⟨store.ring.next active, none⟩) := by
  have hl : used.survivors.length ≤ store.ring.capacity :=
    (SlotLog.length_survivors_le used).trans hs.valid.2.2.2.1
  have h := hs.rotate none (by simp) (by rwa [Option.toList_none, List.append_nil])
  rw [Option.toList_none, List.append_nil] at h
  exact h.fenced rfl

theorem leads_compact (hs : store.Settled active count used) :
    Leads Store.compact store (.ok ()) (Flash.StandsFor store.ring used.contents)
      used.contents := by
  obtain ⟨hin, hend, hvalid⟩ :=
    (Layout.path_rotation store.ring active count used).sound hs.valid
  refine ⟨_, _, _, _, hs.compact, hin, ?_, ?_, hvalid, SlotLog.contents_survivors used⟩
  · rw [hs.flash]
    exact Layout.throughout_rotation hs.valid
  · rw [hs.flash]
    exact hend

section Writing

theorem write_present (hs : store.Settled active count used) (hk : isCallerKey key = true)
    (hsame : used.contents key = some payload) :
    Performs (Store.write key payload) store [] (.ok ()) store.roles :=
  Performs.write_elided hs.attached.fits hs.roles hs.valid.1 hk (by rwa [hs.newest?_log hk])

theorem leads_write_present (hs : store.Settled active count used) (hk : isCallerKey key = true)
    (hsame : used.contents key = some payload) :
    Leads (Store.write key payload) store (.ok ())
      (Flash.StandsFor store.ring used.contents) used.contents :=
  hs.leads_nothing (hs.write_present hk hsame)

theorem write_appended (hs : store.Settled active count used) (hk : isCallerKey key = true)
    (hother : used.contents key ≠ some payload) (hroom : used.length < store.ring.capacity) :
    Performs (Store.write key payload) store
      [.slot active used.length (Slot.mk key payload).encode] (.ok ()) store.roles := by
  obtain ⟨ha, -, -, hu⟩ := hs.valid
  have happend := Performs.append hs.attached.fits ha hs.content hu.isFree hroom ⟨key, payload⟩
  exact Performs.write_absent hs.attached.fits hs.roles ha hk (by rwa [hs.newest?_log hk])
    (happend.bind_last (Performs.pure _ ())) rfl

theorem leads_write_appended (hs : store.Settled active count used) (hk : isCallerKey key = true)
    (hother : used.contents key ≠ some payload) (hroom : used.length < store.ring.capacity) :
    Leads (Store.write key payload) store (.ok ())
      (fun flash => Flash.StandsFor store.ring used.contents flash ∨
        Flash.StandsFor store.ring (used.contents.set key payload) flash)
      (used.contents.set key payload) := by
  have hlive : (Slot.mk key payload).isLive = true := hk
  have hcontents : SlotLog.contents (used ++ [⟨key, payload⟩]) = used.contents.set key payload :=
    SlotLog.contents_append hlive
  obtain ⟨hin, hflash, hvalid⟩ :=
    (Layout.Step.append active count used ⟨key, payload⟩ hlive hroom).sound hs.valid
  have h := hs.write_appended hk hother hroom
  rw [hs.roles] at h
  refine ⟨_, active, count, _, h, by simpa using hin, ?_, ?_, hvalid, hcontents⟩
  · rw [hs.flash]
    exact ⟨Or.inl ⟨_, hs.valid, rfl, rfl⟩, Or.inr ⟨_, hvalid, hflash, hcontents⟩⟩
  · rw [hs.flash]
    exact hflash

theorem write_full_page (hs : store.Settled active count used) (hk : isCallerKey key = true)
    (hother : used.contents key ≠ some payload) (hfull : used.length = store.ring.capacity)
    {changes : List Change} {out : Except Error Unit} {roles : Option Roles}
    (h : Performs (Store.rotate (some ⟨key, payload⟩)) store changes out roles)
    (hout : isCut out = false) :
    Performs (Store.write key payload) store changes out roles := by
  have hnone : ∀ slot ∈ (store.flash active).log, slot.isFree = false := by
    rw [hs.log, hfull, Nat.sub_self, List.replicate_zero, List.append_nil]
    exact hs.valid.2.2.2.isFree
  exact Performs.write_full hs.attached.fits hs.roles hs.valid.1 hk (by rwa [hs.newest?_log hk])
    hnone h hout

theorem write_rotated (hs : store.Settled active count used) (hk : isCallerKey key = true)
    (hother : used.contents key ≠ some payload) (hfull : used.length = store.ring.capacity)
    (hl : (SlotLog.survivors (used ++ [⟨key, payload⟩])).length ≤ store.ring.capacity) :
    Performs (Store.write key payload) store
      (rotationChanges active (store.ring.next active) 0
        (Layout.nextCount store.ring active count) (SlotLog.survivors (used ++ [⟨key, payload⟩])))
      (.ok ()) (some ⟨store.ring.next active, none⟩) := by
  have hrotate := hs.rotate _ (SlotLog.isLive_carried hk payload) hl
  exact hs.write_full_page hk hother hfull hrotate rfl

theorem leads_write_rotated (hs : store.Settled active count used) (hk : isCallerKey key = true)
    (hother : used.contents key ≠ some payload) (hfull : used.length = store.ring.capacity)
    (hl : (SlotLog.survivors (used ++ [⟨key, payload⟩])).length ≤ store.ring.capacity) :
    Leads (Store.write key payload) store (.ok ())
      (fun flash => Flash.StandsFor store.ring used.contents flash ∨
        Flash.StandsFor store.ring (used.contents.set key payload) flash)
      (used.contents.set key payload) := by
  have hlive : (Slot.mk key payload).isLive = true := hk
  obtain ⟨hin, hend, hvalid⟩ := (Layout.path_carrying active count hlive hl).sound hs.valid
  refine ⟨_, _, _, _, hs.write_rotated hk hother hfull hl, hin, ?_, ?_, hvalid, ?_⟩
  · rw [hs.flash]
    exact Layout.throughout_carrying hs.valid hlive hl
  · rw [hs.flash]
    exact hend
  · rw [SlotLog.contents_survivors]
    exact SlotLog.contents_append hlive

theorem write_refused (hs : store.Settled active count used) (hk : isCallerKey key = true)
    (hother : used.contents key ≠ some payload) (hfull : used.length = store.ring.capacity)
    (hl : store.ring.capacity < (SlotLog.survivors (used ++ [⟨key, payload⟩])).length) :
    Performs (Store.write key payload) store []
      (.error (.storeFull (SlotLog.survivors (used ++ [⟨key, payload⟩])).length
        store.ring.capacity)) store.roles := by
  have hrotate := hs.rotate_full _ (SlotLog.isLive_carried hk payload) hl
  exact hs.write_full_page hk hother hfull hrotate rfl

theorem leads_write_refused (hs : store.Settled active count used) (hk : isCallerKey key = true)
    (hother : used.contents key ≠ some payload) (hfull : used.length = store.ring.capacity)
    (hl : store.ring.capacity < (SlotLog.survivors (used ++ [⟨key, payload⟩])).length) :
    Leads (Store.write key payload) store
      (.error (.storeFull (SlotLog.survivors (used ++ [⟨key, payload⟩])).length
        store.ring.capacity))
      (Flash.StandsFor store.ring used.contents) used.contents :=
  hs.leads_nothing (hs.write_refused hk hother hfull hl)

/-- The contents never outgrow a page. -/
theorem size_le (hs : store.Settled active count used) :
    used.contents.size ≤ store.ring.capacity := by
  rw [← SlotLog.length_survivors]
  exact (SlotLog.length_survivors_le used).trans hs.valid.2.2.2.1

theorem length_survivors_append (hk : isCallerKey key = true) (used : SlotLog) :
    (SlotLog.survivors (used ++ [⟨key, payload⟩])).length =
      (used.contents.set key payload).size := by
  have hlive : (Slot.mk key payload).isLive = true := hk
  rw [SlotLog.length_survivors, SlotLog.contents_append hlive]

/-- A new key is refused once there are as many keys as a page has slots. -/
theorem leads_write_full (hs : store.Settled active count used) (payload : UInt16)
    (hk : isCallerKey key = true) (hnew : used.contents key = none)
    (hsize : used.contents.size = store.ring.capacity) :
    Leads (Store.write key payload) store
      (.error (.storeFull (store.ring.capacity + 1) store.ring.capacity))
      (Flash.StandsFor store.ring used.contents) used.contents := by
  have hfull : used.length = store.ring.capacity := by
    have hle := SlotLog.length_survivors_le used
    rw [SlotLog.length_survivors, hsize] at hle
    exact Nat.le_antisymm hs.valid.2.2.2.1 hle
  have hl : (SlotLog.survivors (used ++ [⟨key, payload⟩])).length = store.ring.capacity + 1 := by
    rw [length_survivors_append hk, Contents.size_set_of_none payload hnew, hsize]
  have hover : store.ring.capacity < (SlotLog.survivors (used ++ [⟨key, payload⟩])).length := by
    omega
  have h := hs.leads_write_refused hk (by simp [hnew]) hfull hover
  rwa [hl] at h

/-- Any other write sets its key, and a cut leaves the contents as they were or as they will be. -/
theorem leads_write (hs : store.Settled active count used) (payload : UInt16)
    (hk : isCallerKey key = true)
    (hroom : ¬(used.contents key = none ∧ used.contents.size = store.ring.capacity)) :
    Leads (Store.write key payload) store (.ok ())
      (fun flash => Flash.StandsFor store.ring used.contents flash ∨
        Flash.StandsFor store.ring (used.contents.set key payload) flash)
      (used.contents.set key payload) := by
  by_cases hsame : used.contents key = some payload
  · rw [Contents.set_eq_self hsame]
    exact (hs.leads_write_present hk hsame).mono fun _ => Or.inl
  · rcases Nat.lt_or_ge used.length store.ring.capacity with hlt | hge
    · exact hs.leads_write_appended hk hsame hlt
    · have hfull : used.length = store.ring.capacity := Nat.le_antisymm hs.valid.2.2.2.1 hge
      apply hs.leads_write_rotated hk hsame hfull
      have hle := hs.size_le
      rw [length_survivors_append hk]
      cases hc : used.contents key with
      | none =>
        have hne : used.contents.size ≠ store.ring.capacity := fun he => hroom ⟨hc, he⟩
        rw [Contents.size_set_of_none payload hc]
        omega
      | some old => rwa [Contents.size_set_of_some payload hc]

end Writing

end Settled

end FlashRing.Store
