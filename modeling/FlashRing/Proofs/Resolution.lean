import FlashRing.Proofs.Service

/-!
Startup on any flash whatever, also one that no store has written. Main statement: the numbers of
pages with the two statuses in use decide how startup ends, and where it succeeds it leaves one page
in use and the rest of the ring blank.
-/

namespace FlashRing

/-- Programs of slots of one page. -/
def SlotsOf (ring : PageRing) (i : Nat) (changes : List Change) : Prop :=
  ∀ change ∈ changes, ∃ place word, place < ring.capacity ∧ change = .slot i place word

theorem SlotsOf.append {ring : PageRing} {i : Nat} {first second : List Change}
    (hf : SlotsOf ring i first) (hs : SlotsOf ring i second) : SlotsOf ring i (first ++ second) := by
  intro change hc
  rcases List.mem_append.mp hc with hc | hc
  · exact hf change hc
  · exact hs change hc

theorem SlotsOf.holds {ring : PageRing} {i : Nat} {changes : List Change}
    (h : SlotsOf ring i changes) (hi : i < ring.count) :
    ∀ change ∈ changes, ring.Holds change := by
  intro change hc
  obtain ⟨place, word, hp, rfl⟩ := h change hc
  exact ⟨hi, hp⟩

/-- Programs of slots leave the header of their page and all other pages. -/
theorem SlotsOf.applyAll {ring : PageRing} {i : Nat} {changes : List Change}
    (h : SlotsOf ring i changes) (flash : Flash) :
    (flash.applyAll ring.capacity changes i).header = (flash i).header ∧
      ∀ j, j ≠ i → flash.applyAll ring.capacity changes j = flash j := by
  induction changes generalizing flash with
  | nil => exact ⟨rfl, fun _ _ => rfl⟩
  | cons change rest ih =>
    obtain ⟨place, word, -, rfl⟩ := h change (by simp)
    obtain ⟨hheader, hothers⟩ := ih (fun other ho => h other (List.mem_cons_of_mem _ ho))
      ((Change.slot i place word).apply ring.capacity flash)
    refine ⟨?_, fun j hj => ?_⟩
    · rw [Flash.applyAll_cons, hheader, Change.apply, Function.update_self]
    · rw [Flash.applyAll_cons, hothers j hj]
      exact Function.update_of_ne hj ..

namespace Store.Performs

variable {store : Store Ram} {a t i : Nat}

theorem append_any (hs : store.Fits) (hi : i < store.ring.count) (slot : Slot) :
    ∃ changes done, Performs (Store.append (store.ring.page i) slot) store changes (.ok done)
      store.roles ∧ SlotsOf store.ring i changes := by
  cases hfind : (store.flash i).log.findIdx? (·.isFree) with
  | none =>
    have hfull := append_full hs hi (List.findIdx?_eq_none_iff.mp hfind) slot
    exact ⟨[], false, hfull, by simp [SlotsOf]⟩
  | some place =>
    refine ⟨[.slot i place slot.encode], true, append_found hs hi hfind slot, ?_⟩
    intro change hc
    exact ⟨place, slot.encode, place_lt hfind, List.mem_singleton.mp hc⟩

theorem appendOrFail_any (hs : store.Fits) (hi : i < store.ring.count) (slot : Slot) :
    ∃ changes out, Performs (Store.appendOrFail (store.ring.page i) slot) store changes out
      store.roles ∧ SlotsOf store.ring i changes ∧
      (out = .ok () ∨ ∃ live capacity, out = .error (.storeFull live capacity)) := by
  obtain ⟨changes, done, happend, hslots⟩ := append_any hs hi slot
  cases done with
  | true => exact ⟨changes, .ok (), bind_last happend (pure _ ()), hslots, Or.inl rfl⟩
  | false => exact ⟨changes, _, bind_last happend (throw _ _), hslots, Or.inr ⟨_, _, rfl⟩⟩

theorem copy_any (hs : store.Fits) (hi : i < store.ring.count) (slot : Slot) :
    ∃ changes out, Performs (Store.copy (store.ring.page i) slot) store changes out store.roles ∧
      SlotsOf store.ring i changes ∧
      (out = .ok () ∨ ∃ live capacity, out = .error (.storeFull live capacity)) := by
  have hskip : SlotsOf store.ring i [] := by simp [SlotsOf]
  cases hlive : slot.isLive with
  | false =>
    refine ⟨[], .ok (), ?_, hskip, Or.inl rfl⟩
    rw [Store.copy, hlive]
    exact pure store ()
  | true =>
    cases hhas : SlotLog.hasKey (store.flash i).log.used slot.key with
    | true =>
      refine ⟨[], .ok (), ?_, hskip, Or.inl rfl⟩
      rw [Store.copy, if_pos hlive]
      refine bind_read (holds hs hi slot.key) ?_
      rw [hhas]
      exact pure store ()
    | false =>
      obtain ⟨changes, out, happend, hend⟩ := appendOrFail_any hs hi slot
      refine ⟨changes, out, ?_, hend⟩
      rw [Store.copy, if_pos hlive]
      refine bind_read (holds hs hi slot.key) ?_
      rw [hhas]
      exact happend

theorem forM_copy_any (hs : store.Fits) (hi : i < store.ring.count) (slots : List Slot) :
    ∃ changes out, Performs (slots.forM (Store.copy (store.ring.page i))) store changes out
      store.roles ∧ SlotsOf store.ring i changes ∧
      (out = .ok () ∨ ∃ live capacity, out = .error (.storeFull live capacity)) := by
  induction slots generalizing store with
  | nil => exact ⟨[], .ok (), forM_nil _ store, by simp [SlotsOf], Or.inl rfl⟩
  | cons slot rest ih =>
    obtain ⟨first, out, hfirst, hslots, hout⟩ := copy_any hs hi slot
    rcases hout with rfl | ⟨live, capacity, rfl⟩
    · obtain ⟨more, out, hmore, hrest, hend⟩ := ih (fits_after hs first store.roles) hi
      exact ⟨first ++ more, out, forM_cons hfirst hmore, hslots.append hrest, hend⟩
    · exact ⟨first, _, bind_error hfirst, hslots, Or.inr ⟨live, capacity, rfl⟩⟩

end Store.Performs

/-- One page is active, and the rest of the ring is blank. -/
structure Flash.Alone (ring : PageRing) (flash : Flash) (p : Nat) : Prop where
  inside : p < ring.count
  status : (flash p).status = .active
  others : ∀ i, i ≠ p → flash i = .blank ring.capacity

theorem Flash.alone_handover {ring : PageRing} {flash : Flash} {a t : Nat} (ht : t < ring.count)
    (hothers : ∀ i, i ≠ a → i ≠ t → flash i = .blank ring.capacity) (count : Nat) :
    (flash.applyAll ring.capacity [.header t (Header.counterWord count), .erase a,
      .header t Status.active.programWord]).Alone ring t := by
  simp only [Flash.applyAll_cons]
  generalize hm : (Change.header t (Header.counterWord count)).apply ring.capacity flash = counted
  generalize he : (Change.erase a).apply ring.capacity counted = erased
  refine ⟨ht, ?_, fun i hi => ?_⟩
  · rw [Flash.applyAll, List.foldl_nil, Change.apply, Function.update_self]
    exact Header.status_and_active _
  · rw [Flash.applyAll, List.foldl_nil, Change.apply, Function.update_of_ne hi, ← he, Change.apply]
    by_cases hia : i = a
    · rw [hia, Function.update_self]
    · rw [Function.update_of_ne hia, ← hm, Change.apply, Function.update_of_ne hi, hothers i hia hi]

namespace Store

variable {store : Store Ram} {a t : Nat}

/-- Whatever the two pages hold, a rotation ends and leaves one of them alone, or it finds that the
copy has no room. -/
theorem Performs.transfer_any (hs : store.Fits) (ha : a < store.ring.count)
    (ht : t < store.ring.count)
    (hothers : ∀ i, i ≠ a → i ≠ t → store.flash i = .blank store.ring.capacity) (log : SlotLog) :
    ∃ changes, (∀ change ∈ changes, store.ring.Holds change) ∧
      ((Performs (Store.transfer (store.ring.page a) (store.ring.page t) none log) store changes
          (.ok ()) (some ⟨t, none⟩) ∧
        (store.flash.applyAll store.ring.capacity changes).Alone store.ring t) ∨
      ∃ live capacity, Performs (Store.transfer (store.ring.page a) (store.ring.page t) none log)
        store changes (.error (.storeFull live capacity)) store.roles) := by
  have hmark := program_header hs ht Status.receiving.programWord
  have hs₁ := fits_after hs [.header t Status.receiving.programWord] store.roles
  obtain ⟨copies, out, hcopy, hslots, hout⟩ := forM_copy_any hs₁ ht log.reverse
  have hcopies : SlotsOf store.ring t copies := hslots
  rcases hout with rfl | ⟨live, capacity, rfl⟩
  · refine ⟨_, fun change hc => ?_, Or.inl ⟨bind hmark (bind_read (forM_nil _ _)
      (bind hcopy (handOver (fits_after hs₁ copies store.roles) ha ht))), ?_⟩⟩
    · simp only [List.mem_append, List.mem_cons, List.not_mem_nil, or_false] at hc
      rcases hc with rfl | hc | rfl | rfl | rfl
      · exact ht
      · exact hcopies.holds ht change hc
      · exact ht
      · exact ha
      · exact ht
    · rw [Flash.applyAll_append, Flash.applyAll_append, Flash.applyAll_cons]
      refine Flash.alone_handover ht (fun i hna hnt => ?_) _
      rw [(hcopies.applyAll _).2 i hnt, Flash.applyAll, List.foldl_cons, List.foldl_nil,
        Change.apply, Function.update_of_ne hnt, hothers i hna hnt]
  · refine ⟨_, fun change hc => ?_, Or.inr ⟨live, capacity,
      bind hmark (bind_read (forM_nil _ _) (bind_error hcopy))⟩⟩
    rcases List.mem_append.mp hc with hc | hc
    · rw [List.mem_singleton.mp hc]
      exact ht
    · exact hcopies.holds ht change hc

/-- A rotation that startup finds is gone on with. -/
theorem Performs.init_rotating (hs : store.Fits)
    (ha : store.ring.indicesOf store.flash .active = (some a).toList)
    (hr : store.ring.indicesOf store.flash .receiving = (some t).toList) {changes : List Change}
    {out : Except Error Unit} {roles : Option Roles}
    (h : Performs (Store.transfer (store.ring.page a) (store.ring.page t) none
      ((store.after store.sweeping (some ⟨a, some t⟩)).flash a).log)
      (store.after store.sweeping (some ⟨a, some t⟩)) changes out roles)
    (hout : isCut out = false) :
    Performs Store.init store (store.sweeping ++ changes) out roles := by
  have hs₁ := fits_after hs store.sweeping (some ⟨a, some t⟩)
  have ha₁ : a < store.ring.count := ((of_mem_place ha).mp rfl).1
  have hl : (SlotLog.survivors (((store.after store.sweeping (some ⟨a, some t⟩)).flash a).log ++
      (none : Option Slot).toList)).length ≤ store.ring.capacity := by
    rw [Option.toList_none, List.append_nil]
    exact (SlotLog.length_survivors_le _).trans (PageRing.length_flash ..).le
  have hrotate := rotate_receiving hs₁ ha₁ rfl (by simp) hl h
  exact (scan hs ha hr (setRoles_bind hrotate)).fenced hout

theorem Performs.init_both (hs : store.Fits)
    (ha : store.ring.indicesOf store.flash .active = (some a).toList)
    (hr : store.ring.indicesOf store.flash .receiving = (some t).toList) :
    ∃ changes, (∀ change ∈ changes, store.ring.Holds change) ∧
      ((Performs Store.init store changes (.ok ()) (some ⟨t, none⟩) ∧
        (store.flash.applyAll store.ring.capacity changes).Alone store.ring t) ∨
      ∃ live capacity, Performs Store.init store changes (.error (.storeFull live capacity))
        (some ⟨a, some t⟩)) := by
  have hia : a < store.ring.count := ((of_mem_place ha).mp rfl).1
  have hit : t < store.ring.count := ((of_mem_place hr).mp rfl).1
  have hs₁ := fits_after hs store.sweeping (some ⟨a, some t⟩)
  have hflash := flash_after hs (holds_sweeping store) (some ⟨a, some t⟩)
  -- Between the sweep and the rotation no page but these two holds anything.
  have hothers : ∀ i, i ≠ a → i ≠ t → (store.after store.sweeping (some ⟨a, some t⟩)).flash i =
      .blank store.ring.capacity := by
    intro i hna hnt
    rw [hflash]
    exact flash_sweeping_of_ne ha hr (by simpa using hna.symm) (by simpa using hnt.symm)
  obtain ⟨changes, hholds, hend⟩ := transfer_any hs₁ hia hit hothers
    ((store.after store.sweeping (some ⟨a, some t⟩)).flash a).log
  refine ⟨store.sweeping ++ changes, fun change hc => ?_, ?_⟩
  · rcases List.mem_append.mp hc with hc | hc
    · exact holds_sweeping store change hc
    · exact hholds change hc
  · rcases hend with ⟨hdone, halone⟩ | ⟨live, capacity, hfull⟩
    · refine Or.inl ⟨init_rotating hs ha hr hdone rfl, ?_⟩
      rw [Flash.applyAll_append, ← hflash]
      exact halone
    · exact Or.inr ⟨live, capacity, init_rotating hs ha hr hfull rfl⟩

end Store

/-- The byte of the header that stands for the status. -/
def PageContent.statusByte (content : PageContent) : UInt8 :=
  (content.header >>> 24).toUInt8

theorem PageContent.status_eq_active {content : PageContent} :
    content.status = .active ↔ content.statusByte = 0x00 := by
  rw [status, Header.decode, statusByte, Status.ofByte]
  split
  next h => simp [h]
  next =>
    split
    next h => simp [h]
    next =>
      split
      next h => simp [h]
      next h => simp [h]

theorem PageContent.status_eq_receiving {content : PageContent} :
    content.status = .receiving ↔ content.statusByte = 0xAA := by
  rw [status, Header.decode, statusByte, Status.ofByte]
  split
  next h => simp [h]
  next =>
    split
    next h => simp [h]
    next h =>
      split
      next => simp [h]
      next => simp [h]

theorem exists_toList {α : Type} {list : List α} (h : ¬1 < list.length) :
    ∃ place : Option α, list = place.toList := by
  match list, h with
  | [], _ => exact ⟨none, rfl⟩
  | [a], _ => exact ⟨some a, rfl⟩
  | _ :: _ :: _, h => exact absurd (by simp) h

namespace Store

/-- How many pages of the ring have the status byte. -/
def pagesWith (store : Store Ram) (byte : UInt8) : Nat :=
  (List.range store.ring.count).countP fun i => (store.flash i).statusByte = byte

/-- One page is in use, and every other page of the ring is erased. -/
structure UsesOnly (store : Store Ram) (p : Nat) : Prop where
  inside : p < store.ring.count
  roles : store.roles = some ⟨p, none⟩
  statusByte : (store.flash p).statusByte = 0x00
  others : ∀ i, i < store.ring.count → i ≠ p → store.flash i = .blank store.ring.capacity

/-- The store is ready, and one more startup would neither touch the device nor choose another
page. -/
structure IsStable (store : Store Ram) : Prop where
  receiving : store.receiving? = none
  answer : answer init store = .ok ()
  device : (left init store).device = store.device
  active : (left init store).active? = store.active?

/-- What startup makes of the flash, by the numbers of pages with the two statuses in use. -/
structure Resolves (store : Store Ram) : Prop where
  ambiguous : (∃ fault, answer init store = .error (.integrity fault)) ↔
    1 < store.pagesWith 0x00 ∨ 1 < store.pagesWith 0xAA
  untouched : 1 < store.pagesWith 0x00 ∨ 1 < store.pagesWith 0xAA →
    (left init store).device = store.device ∧ (left init store).isReady = false
  unformatted : answer init store = .error .unformatted ↔
    store.pagesWith 0x00 = 0 ∧ store.pagesWith 0xAA = 0
  cleaned : store.pagesWith 0x00 = 0 → store.pagesWith 0xAA = 0 →
    (∀ i, i < store.ring.count → (left init store).flash i = .blank store.ring.capacity) ∧
      (left init store).isReady = false
  single : store.pagesWith 0x00 + store.pagesWith 0xAA = 1 →
    answer init store = .ok () ∧ ∃ p,
      ((store.flash p).statusByte = 0x00 ∨ (store.flash p).statusByte = 0xAA) ∧
      (left init store).UsesOnly p ∧ ((left init store).flash p).log = (store.flash p).log
  resumed : store.pagesWith 0x00 = 1 → store.pagesWith 0xAA = 1 → answer init store = .ok () →
    ∃ p, (store.flash p).statusByte = 0xAA ∧ (left init store).UsesOnly p
  stable : answer init store = .ok () → (left init store).IsStable

variable {store : Store Ram} {p a t : Nat} {active receiving : Option Nat}

theorem pagesWith_active (store : Store Ram) :
    store.pagesWith 0x00 = (store.ring.indicesOf store.flash .active).length := by
  simp only [pagesWith, PageRing.indicesOf, List.countP_eq_length_filter,
    PageContent.status_eq_active]

theorem pagesWith_receiving (store : Store Ram) :
    store.pagesWith 0xAA = (store.ring.indicesOf store.flash .receiving).length := by
  simp only [pagesWith, PageRing.indicesOf, List.countP_eq_length_filter,
    PageContent.status_eq_receiving]

theorem Performs.init_alone (hs : store.Fits) (h : store.flash.Alone store.ring p) :
    Performs Store.init store [] (.ok ()) (some ⟨p, none⟩) := by
  have ha := indicesOf_single h.inside h.others .active (by decide)
  have hr := indicesOf_single h.inside h.others .receiving (by decide)
  have hclean : store.sweeping = [] := by
    apply erases_eq_nil
    intro i
    by_cases hi : i = p
    · rw [hi, PageContent.isStray, h.status]
    · rw [h.others i hi, PageContent.isStray_blank]
  rw [h.status] at ha hr
  have hinit := init_active hs ha hr
  rwa [hclean] at hinit

theorem powered_steady (hp : store.device.power = .steady) : store.powered .steady = store := by
  rw [powered, ← hp]
  rfl

theorem usesOnly_of_alone (hr : store.roles = some ⟨p, none⟩)
    (h : store.flash.Alone store.ring p) : store.UsesOnly p where
  inside := h.inside
  roles := hr
  statusByte := PageContent.status_eq_active.mp h.status
  others i _ hi := h.others i hi

/-- A second startup finds nothing to do. -/
theorem stable_of_alone (hs : store.Fits) (hp : store.device.power = .steady)
    (hr : store.roles = some ⟨p, none⟩) (h : store.flash.Alone store.ring p) :
    store.IsStable := by
  have hrun := (Performs.init_alone hs h).of_steady hp
  have hleft : left init store = store := by
    rw [left_of_run hrun, ← hr]
    exact powered_steady hp
  refine ⟨?_, answer_of_run hrun, ?_, ?_⟩
  · rw [receiving?, hr]
    rfl
  · rw [hleft]
  · rw [hleft]

theorem Performs.uses_of_init (hs : store.Fits) (hp : store.device.power = .steady)
    {changes : List Change} (hc : ∀ change ∈ changes, store.ring.Holds change)
    (h : Performs Store.init store changes (.ok ()) (some ⟨p, none⟩))
    (halone : (store.flash.applyAll store.ring.capacity changes).Alone store.ring p) :
    (left Store.init store).UsesOnly p ∧ (left Store.init store).IsStable := by
  rw [left_of_run (h.of_steady hp)]
  have hfinal : ((store.after changes (some ⟨p, none⟩)).powered .steady).flash.Alone
      store.ring p := by
    rw [← flash_after hs hc (some ⟨p, none⟩)] at halone
    exact halone
  exact ⟨usesOnly_of_alone rfl hfinal,
    stable_of_alone (fits_after hs changes _) rfl rfl hfinal⟩

theorem resolves_of_ambiguous (hs : store.Fits) (hp : store.device.power = .steady)
    (h : 1 < store.pagesWith 0x00 ∨ 1 < store.pagesWith 0xAA) : store.Resolves := by
  rw [pagesWith_active, pagesWith_receiving] at h
  obtain ⟨fault, hscan⟩ := Performs.scan_ambiguous hs h
  rw [← pagesWith_active, ← pagesWith_receiving] at h
  have hrun := (hscan.fenced rfl).of_steady hp
  have hnothing : (store.after [] none).powered .steady = { store with roles := none } :=
    powered_steady hp
  rw [hnothing] at hrun
  have hanswer : answer init store = .error (.integrity fault) := answer_of_run hrun
  have hleft : left init store = { store with roles := none } := left_of_run hrun
  constructor
  case ambiguous => exact ⟨fun _ => h, fun _ => ⟨fault, hanswer⟩⟩
  case untouched =>
    intro _
    rw [hleft]
    exact ⟨rfl, rfl⟩
  case unformatted =>
    rw [hanswer]
    refine ⟨fun hno => ?_, fun hnone => ?_⟩
    · cases hno
    · omega
  case cleaned => omega
  case single => omega
  case resumed => omega
  case stable =>
    intro hok
    rw [hanswer] at hok
    cases hok

theorem resolves_of_none (hs : store.Fits) (hp : store.device.power = .steady)
    (ha : store.ring.indicesOf store.flash .active = (none : Option Nat).toList)
    (hr : store.ring.indicesOf store.flash .receiving = (none : Option Nat).toList) :
    store.Resolves := by
  have hrun := (Performs.init_none hs ha hr).of_steady hp
  have hanswer : answer init store = .error .unformatted := answer_of_run hrun
  have hleft : left init store = (store.after store.sweeping none).powered .steady :=
    left_of_run hrun
  have hactive : store.pagesWith 0x00 = 0 := by
    rw [pagesWith_active, ha]
    rfl
  have hreceiving : store.pagesWith 0xAA = 0 := by
    rw [pagesWith_receiving, hr]
    rfl
  constructor
  case ambiguous =>
    rw [hanswer]
    refine ⟨fun ⟨fault, h⟩ => ?_, fun h => ?_⟩
    · cases h
    · omega
  case untouched => omega
  case unformatted => exact ⟨fun _ => ⟨hactive, hreceiving⟩, fun _ => hanswer⟩
  case cleaned =>
    intro _ _
    rw [hleft]
    refine ⟨fun i _ => ?_, rfl⟩
    have hflash := congrFun (flash_after hs store.holds_sweeping none) i
    exact hflash.trans (flash_sweeping_of_ne ha hr (by simp) (by simp))
  case single => omega
  case resumed => omega
  case stable =>
    intro hok
    rw [hanswer] at hok
    cases hok

/-- A page that is the only one in use is taken, active or not. -/
theorem resolves_of_single (hs : store.Fits) (hp : store.device.power = .steady)
    (hone : store.pagesWith 0x00 + store.pagesWith 0xAA = 1)
    (hst : (store.flash p).status = .active ∨ (store.flash p).status = .receiving)
    {changes : List Change} (hc : ∀ change ∈ changes, store.ring.Holds change)
    (h : Performs init store changes (.ok ()) (some ⟨p, none⟩))
    (halone : (store.flash.applyAll store.ring.capacity changes).Alone store.ring p)
    (hlog : (store.flash.applyAll store.ring.capacity changes p).log = (store.flash p).log) :
    store.Resolves := by
  have hrun := h.of_steady hp
  have hanswer : answer init store = .ok () := answer_of_run hrun
  obtain ⟨huses, hstable⟩ := Performs.uses_of_init hs hp hc h halone
  have hkept : ((left init store).flash p).log = (store.flash p).log := by
    rw [left_of_run hrun, ← hlog]
    exact congrArg PageContent.log (congrFun (flash_after hs hc _) p)
  rw [PageContent.status_eq_active, PageContent.status_eq_receiving] at hst
  constructor
  case ambiguous =>
    rw [hanswer]
    refine ⟨fun ⟨fault, h⟩ => ?_, fun h => ?_⟩
    · cases h
    · omega
  case untouched => omega
  case unformatted =>
    rw [hanswer]
    refine ⟨fun hno => ?_, fun hnone => ?_⟩
    · cases hno
    · omega
  case cleaned => omega
  case single => exact fun _ => ⟨hanswer, p, hst, huses, hkept⟩
  case resumed => omega
  case stable => exact fun _ => hstable

theorem resolves_of_both (hs : store.Fits) (hp : store.device.power = .steady)
    (ha : store.ring.indicesOf store.flash .active = (some a).toList)
    (hr : store.ring.indicesOf store.flash .receiving = (some t).toList) : store.Resolves := by
  obtain ⟨changes, hc, hend⟩ := Performs.init_both hs ha hr
  have hactive : store.pagesWith 0x00 = 1 := by
    rw [pagesWith_active, ha]
    rfl
  have hreceiving : store.pagesWith 0xAA = 1 := by
    rw [pagesWith_receiving, hr]
    rfl
  have hbyte : (store.flash t).statusByte = 0xAA :=
    PageContent.status_eq_receiving.mp ((of_mem_place hr).mp rfl).2
  have herror : ∀ e, answer init store = .error e →
      ∃ live capacity, e = .storeFull live capacity := by
    intro e he
    rcases hend with ⟨h, -⟩ | ⟨live, capacity, h⟩
    · rw [answer_of_run (h.of_steady hp)] at he
      cases he
    · rw [answer_of_run (h.of_steady hp)] at he
      exact ⟨live, capacity, (Except.error.inj he).symm⟩
  have hleft : answer init store = .ok () →
      (left init store).UsesOnly t ∧ (left init store).IsStable := by
    intro hok
    rcases hend with ⟨h, halone⟩ | ⟨live, capacity, h⟩
    · exact Performs.uses_of_init hs hp hc h halone
    · rw [answer_of_run (h.of_steady hp)] at hok
      cases hok
  constructor
  case ambiguous =>
    refine ⟨fun ⟨fault, h⟩ => ?_, fun h => ?_⟩
    · obtain ⟨live, capacity, he⟩ := herror _ h
      cases he
    · omega
  case untouched => omega
  case unformatted =>
    refine ⟨fun h => ?_, fun h => ?_⟩
    · obtain ⟨live, capacity, he⟩ := herror _ h
      cases he
    · omega
  case cleaned => omega
  case single => omega
  case resumed => exact fun _ _ hok => ⟨t, hbyte, (hleft hok).1⟩
  case stable => exact fun hok => (hleft hok).2

theorem alone_swept (ha : store.ring.indicesOf store.flash .active = (some p).toList)
    (hr : store.ring.indicesOf store.flash .receiving = (none : Option Nat).toList) :
    (store.flash.applyAll store.ring.capacity store.sweeping).Alone store.ring p := by
  obtain ⟨hi, hst⟩ := (of_mem_place ha).mp rfl
  refine ⟨hi, ?_, fun i hip => ?_⟩
  · rwa [flash_sweeping_active ha rfl]
  · exact flash_sweeping_of_ne ha hr (by simpa using hip.symm) (by simp)

theorem alone_promoted (ha : store.ring.indicesOf store.flash .active = (none : Option Nat).toList)
    (hr : store.ring.indicesOf store.flash .receiving = (some p).toList) :
    (store.flash.applyAll store.ring.capacity
      (store.sweeping ++ [.header p Status.active.programWord])).Alone store.ring p := by
  rw [Flash.applyAll_append, Flash.applyAll_cons]
  refine ⟨((of_mem_place hr).mp rfl).1, ?_, fun i hip => ?_⟩
  · rw [Flash.applyAll, List.foldl_nil, Change.apply, Function.update_self]
    exact Header.status_and_active _
  · rw [Flash.applyAll, List.foldl_nil, Change.apply, Function.update_of_ne hip]
    exact flash_sweeping_of_ne ha hr (by simp) (by simpa using hip.symm)

/-- Startup decides by the statuses alone, whatever else the flash holds. -/
theorem resolves_of_attach {device : Ram} {config : Config} (hp : device.power = .steady)
    (h : attach device config = .ok store) : store.Resolves := by
  obtain ⟨hattached, rfl⟩ := eq_of_attach h
  have hs := hattached.fits
  by_cases hmany : 1 < store.pagesWith 0x00 ∨ 1 < store.pagesWith 0xAA
  · exact resolves_of_ambiguous hs hp hmany
  obtain ⟨hfew, hfew'⟩ := not_or.mp hmany
  rw [pagesWith_active] at hfew
  rw [pagesWith_receiving] at hfew'
  obtain ⟨active, ha⟩ := exists_toList hfew
  obtain ⟨receiving, hr⟩ := exists_toList hfew'
  cases active with
  | none =>
    cases receiving with
    | none => exact resolves_of_none hs hp ha hr
    | some t =>
      obtain ⟨hi, hst⟩ := (of_mem_place hr).mp rfl
      refine resolves_of_single hs hp ?_ (Or.inr hst) ?_ (Performs.init_receiving hs ha hr)
        (alone_promoted ha hr) ?_
      · rw [pagesWith_active, pagesWith_receiving, ha, hr]
        rfl
      · intro change hc
        rcases List.mem_append.mp hc with hc | hc
        · exact holds_sweeping store change hc
        · rw [List.mem_singleton.mp hc]
          exact hi
      · rw [Flash.applyAll_append, Flash.applyAll_cons, Flash.applyAll, List.foldl_nil,
          Change.apply, Function.update_self, flash_sweeping_receiving hr rfl]
  | some a =>
    cases receiving with
    | none =>
      obtain ⟨hi, hst⟩ := (of_mem_place ha).mp rfl
      refine resolves_of_single hs hp ?_ (Or.inl hst) store.holds_sweeping
        (Performs.init_active hs ha hr) (alone_swept ha hr) ?_
      · rw [pagesWith_active, pagesWith_receiving, ha, hr]
        rfl
      · rw [flash_sweeping_active ha rfl]
    | some t => exact resolves_of_both hs hp ha hr

/-- A rotation that skipped a page, in a ring with a page of noise. -/
def soiled : Store Ram where
  device := {
    geometry := ⟨4, 3⟩
    words := #[0x00000001, 0x0001000A, 0x00020014, 0xFFFFFFFF,
      0x13572468, 0x0002FFFF, 0xFFFFFFFF, 0x00000000,
      0xAAFFFFFF, 0x00020014, 0xFFFFFFFF, 0xFFFFFFFF]
    wear := #[1, 0, 0]
    mutations := 0
    power := .steady
    size_words := rfl
    size_wear := rfl }
  config := { ringPages := 3 }
  ring := {
    geometry := ⟨4, 3⟩
    base := 0
    count := 3
    two_le_pageWords := by decide
    addressable := by decide
    two_le_count := by decide
    base_add_count_le := by decide }
  roles := none

theorem resolves_of_soiled :
    soiled.pagesWith 0x00 = 1 ∧ soiled.pagesWith 0xAA = 1 ∧ answer init soiled = .ok () ∧
      (∃ p, (soiled.flash p).statusByte = 0xAA ∧ (left init soiled).UsesOnly p) ∧
      (left init soiled).IsStable := by
  have hactive : soiled.pagesWith 0x00 = 1 := by decide
  have hreceiving : soiled.pagesWith 0xAA = 1 := by decide
  have hok : answer init soiled = .ok () := by decide +kernel
  have hattach : attach soiled.device soiled.config = .ok soiled := rfl
  have hresolves := resolves_of_attach rfl hattach
  exact ⟨hactive, hreceiving, hok, hresolves.resumed hactive hreceiving hok, hresolves.stable hok⟩

end Store

end FlashRing
