import FlashRing.Proofs.Settled
import FlashRing.Proofs.Startup
import FlashRing.Proofs.Step

/-!
Startup on every valid layout. Main statement: whatever the layout is, startup succeeds, keeps the
contents at every moment, and leaves one page in use.
-/

namespace FlashRing

theorem PageContent.status_blank (capacity : Nat) : (blank capacity).status = .erased := by
  have h : (Header.decode erasedWord).status = .erased := by decide
  exact h

theorem PageContent.isStray_blank (capacity : Nat) : (blank capacity).isStray = false := by
  rw [isStray, status_blank, isBlank_blank]
  rfl

/-- A status that one page at most has. -/
theorem PageRing.indicesOf_eq_toList {ring : PageRing} {flash : Flash} {status : Status}
    {place : Option Nat} (h : ∀ i, (flash i).status = status ↔ place = some i)
    (hlt : ∀ i, place = some i → i < ring.count) :
    ring.indicesOf flash status = place.toList := by
  apply filter_range_eq
  · cases place <;> simp
  · intro i
    rw [Option.mem_toList, decide_eq_true_iff, h]
    exact ⟨fun hp => ⟨hlt i hp, hp⟩, And.right⟩

namespace Layout

/-- The page that holds the contents. -/
def active? : Layout → Option Nat
  | .settled active _ _ => some active
  | .rotating active _ _ _ _ => some active
  | .retired _ _ _ => none

/-- The page that a rotation fills. -/
def receiving? (ring : PageRing) : Layout → Option Nat
  | .settled _ _ _ => none
  | .rotating active _ _ _ _ => some (ring.next active)
  | .retired receiving _ _ => some receiving

variable {ring : PageRing} {layout : Layout} {i : Nat}

theorem status_targetHeader (ring : PageRing) (active count : Nat) (counted : Bool) :
    (Header.decode (targetHeader ring active count counted)).status = .receiving := by
  cases counted
  · exact Header.status_receivingWord
  · exact Header.status_countedWord _

theorem active_lt (hv : layout.Valid ring) (h : layout.active? = some i) : i < ring.count := by
  cases layout with
  | settled active count used => exact Option.some.inj h ▸ hv.1
  | rotating active count used copied counted => exact Option.some.inj h ▸ hv.1
  | retired receiving count used => cases h

theorem receiving_lt (hv : layout.Valid ring) (h : layout.receiving? ring = some i) :
    i < ring.count := by
  cases layout with
  | settled active count used => cases h
  | rotating active count used copied counted => exact Option.some.inj h ▸ ring.next_lt active
  | retired receiving count used => exact Option.some.inj h ▸ hv.1

theorem flash_eq_blank (ha : layout.active? ≠ some i) (hr : layout.receiving? ring ≠ some i) :
    layout.flash ring i = .blank ring.capacity := by
  cases layout with
  | settled active count used =>
    have hne : i ≠ active := fun he => ha (congrArg some he.symm)
    exact Function.update_of_ne hne ..
  | rotating active count used copied counted =>
    have hne : i ≠ active := fun he => ha (congrArg some he.symm)
    have hne' : i ≠ ring.next active := fun he => hr (congrArg some he.symm)
    rw [flash, Function.update_of_ne hne', Function.update_of_ne hne]
    rfl
  | retired receiving count used =>
    have hne : i ≠ receiving := fun he => hr (congrArg some he.symm)
    exact Function.update_of_ne hne ..

theorem status_active (hv : layout.Valid ring) (h : layout.active? = some i) :
    (layout.flash ring i).status = .active := by
  cases layout with
  | settled active count used =>
    cases h
    rw [log_settled]
    exact Header.status_activeWord count
  | rotating active count used copied counted =>
    cases h
    rw [rotating_active hv.1]
    exact Header.status_activeWord count
  | retired receiving count used => cases h

theorem status_receiving (h : layout.receiving? ring = some i) :
    (layout.flash ring i).status = .receiving := by
  cases layout with
  | settled active count used => cases h
  | rotating active count used copied counted =>
    cases h
    rw [rotating_next]
    exact status_targetHeader ring active count counted
  | retired receiving count used =>
    cases h
    rw [log_retired]
    exact Header.status_countedWord count

theorem status_eq_active (hv : layout.Valid ring) :
    (layout.flash ring i).status = .active ↔ layout.active? = some i := by
  refine ⟨fun hs => ?_, status_active hv⟩
  by_contra ha
  by_cases hr : layout.receiving? ring = some i
  · rw [status_receiving hr] at hs
    cases hs
  · rw [flash_eq_blank ha hr, PageContent.status_blank] at hs
    cases hs

theorem status_eq_receiving (hv : layout.Valid ring) :
    (layout.flash ring i).status = .receiving ↔ layout.receiving? ring = some i := by
  refine ⟨fun hs => ?_, status_receiving⟩
  by_contra hr
  by_cases ha : layout.active? = some i
  · rw [status_active hv ha] at hs
    cases hs
  · rw [flash_eq_blank ha hr, PageContent.status_blank] at hs
    cases hs

theorem indicesOf_active (hv : layout.Valid ring) :
    ring.indicesOf (layout.flash ring) .active = layout.active?.toList :=
  PageRing.indicesOf_eq_toList (fun _ => status_eq_active hv) fun _ => active_lt hv

theorem indicesOf_receiving (hv : layout.Valid ring) :
    ring.indicesOf (layout.flash ring) .receiving = (layout.receiving? ring).toList :=
  PageRing.indicesOf_eq_toList (fun _ => status_eq_receiving hv) fun _ => receiving_lt hv

/-- Nothing has to be cleaned at startup. -/
theorem erases_stray (hv : layout.Valid ring) (indices : List Nat) :
    erases (·.isStray) (layout.flash ring) indices = [] := by
  apply erases_eq_nil
  intro i
  by_cases ha : layout.active? = some i
  · rw [PageContent.isStray, status_active hv ha]
  · by_cases hr : layout.receiving? ring = some i
    · rw [PageContent.isStray, status_receiving hr]
    · rw [flash_eq_blank ha hr, PageContent.isStray_blank]

end Layout

namespace Store

variable {store : Store Ram} {layout : Layout}

/-- Where one page is not blank, it alone can have a status. -/
theorem indicesOf_single {m : Nat} (hm : m < store.ring.count)
    (hblank : ∀ i, i ≠ m → store.flash i = .blank store.ring.capacity) (status : Status)
    (hne : status ≠ .erased) :
    store.ring.indicesOf store.flash status =
      (if (store.flash m).status = status then some m else none).toList := by
  apply PageRing.indicesOf_eq_toList
  · intro i
    by_cases hi : i = m
    · subst hi
      simp
    · rw [hblank i hi, PageContent.status_blank]
      simp [hne.symm, Ne.symm hi]
  · intro i h
    split at h
    next => exact Option.some.inj h ▸ hm
    next => cases h

theorem sweeping_layout (hv : layout.Valid store.ring)
    (hf : store.flash = layout.flash store.ring) : store.sweeping = [] := by
  rw [sweeping, hf]
  exact Layout.erases_stray hv _

/-- On a valid layout startup cleans nothing, and the roles of its pages decide. -/
theorem Performs.scan_layout (hs : store.Fits) (hv : layout.Valid store.ring)
    (hf : store.flash = layout.flash store.ring) {changes : List Change} {out : Except Error Unit}
    {roles : Option Roles}
    (h : Performs (resolve layout.active? (layout.receiving? store.ring)) (store.after [] none)
      changes out roles) :
    Performs Store.scan store changes out roles := by
  have ha := Layout.indicesOf_active hv
  have hr := Layout.indicesOf_receiving hv
  have he := sweeping_layout hv hf
  rw [← hf] at ha hr
  have hscan := scan hs ha hr (by rwa [he])
  rwa [he] at hscan

/-- Startup goes on with an unfinished rotation, and does nothing else to a valid layout. -/
theorem Performs.init_layout (hs : store.Fits) (hv : layout.Valid store.ring)
    (hf : store.flash = layout.flash store.ring) :
    ∃ changes active count used, layout.resolved store.ring = .settled active count used ∧
      Performs Store.init store changes (.ok ()) (some ⟨active, none⟩) ∧
      Layout.Path (Layout.Resuming store.ring) layout changes (.settled active count used) := by
  cases layout with
  | settled active count used =>
    have h := scan_layout hs hv hf (setRoles _ (some ⟨active, none⟩))
    exact ⟨_, active, count, used, rfl, h.fenced rfl, .nil _⟩
  | retired receiving count used =>
    have hs₁ := fits_after hs [] none
    have hpromote : Performs (resolve none (some receiving)) (store.after [] none)
        [.header receiving Status.active.programWord] (.ok ()) (some ⟨receiving, none⟩) :=
      get_bind (fun _ => rfl) ((program_header hs₁ hv.1 _).bind_last (setRoles _ _))
    have h := scan_layout hs hv hf hpromote
    exact ⟨_, receiving, count, used, rfl, h.fenced rfl, .cons (.activate ..) (.nil _)⟩
  | rotating active count used copied counted =>
    obtain ⟨ha, hlo, hhi, hu, hlive, hn, hl, hdone⟩ := id hv
    obtain ⟨slots, hslots⟩ := SlotLog.prefix_overlay copied used.reverse
    have hs₁ := fits_after hs [] (some ⟨active, some (store.ring.next active)⟩)
    have hsource := Layout.rotating_active ha count used copied counted
    have htarget := Layout.rotating_next store.ring active count used copied counted
    rw [← hf] at hsource htarget
    -- The free slots behind those in use add nothing to the copy.
    have hover : copied.overlay (store.flash active).log.reverse = copied ++ slots := by
      rw [hsource, PageContent.filled, SlotLog.overlay_dead_append _ _ (isLive_replicate_free _),
        hslots]
    have hroom : copied.length + slots.length ≤ store.ring.capacity := by
      rwa [← hslots, List.length_append] at hl
    have hrotate := rotate_resumed hs₁ ha (store.ring.next_lt active)
      (store.ring.next_ne ha) rfl htarget (fun slot h => Slot.isFree_of_isLive (hlive slot h))
      hover hroom
    have hcount : (Header.decode (store.flash active).header).counterOrZero = count := by
      rw [hsource]
      exact Header.counterOrZero_activeWord hhi
    change Performs (rotate none) _ (rotationChanges active (store.ring.next active) copied.length
      (nextCounter (store.ring.page (store.ring.next active))
        (Header.decode (store.flash active).header).counterOrZero) slots) _ _ at hrotate
    rw [hcount] at hrotate
    have h := scan_layout hs hv hf (setRoles_bind hrotate)
    refine ⟨_, store.ring.next active, Layout.nextCount store.ring active count, copied ++ slots,
      ?_, h.fenced rfl, Layout.path_resumed hslots.symm⟩
    rw [Layout.resolved, ← hslots]

/-- Startup brings back what the flash stands for, and a cut changes nothing of that. -/
theorem Retains.leads_init {contents : Contents} (h : store.Retains contents) :
    Leads Store.init store (.ok ()) (Flash.StandsFor store.ring contents) contents := by
  obtain ⟨ha, layout, hv, hf, rfl⟩ := h
  obtain ⟨changes, active, count, used, hres, hinit, hpath⟩ := Performs.init_layout ha.fits hv hf
  obtain ⟨hin, hend, hvalid⟩ := (hpath.mono fun _ _ _ => .resume).sound hv
  refine ⟨changes, active, count, used, hinit, hin, ?_, ?_, hvalid, ?_⟩
  · rw [hf]
    exact hpath.stands hv
  · rw [hf]
    exact hend
  · rw [← Layout.contents_resolved store.ring, hres]
    rfl

/-- Once every page is erased that needs it, the ring is blank. -/
theorem flash_wiped (store : Store Ram) :
    store.flash.applyAll store.ring.capacity
        (erases (!·.isBlank) store.flash (List.range store.ring.count).reverse) =
      Flash.blank store.ring := by
  funext i
  rw [erases, Flash.applyAll_erases]
  split
  next => rfl
  next hnot =>
    by_cases hi : i < store.ring.count
    · have hb : (store.flash i).isBlank = true := by
        by_contra hb
        apply hnot
        rw [List.mem_filter, List.mem_reverse, List.mem_range]
        exact ⟨hi, by simpa using hb⟩
      exact PageContent.eq_blank (PageRing.length_flash ..) hb
    · exact PageRing.flash_of_not_lt hi

theorem valid_formatted (ring : PageRing) : (Layout.settled 0 1 []).Valid ring :=
  ⟨Nat.zero_lt_of_lt ring.two_le_count, Nat.le_refl 1, by decide, by simp [Layout.Fitting]⟩

theorem flash_formatting (store : Store Ram) :
    store.flash.applyAll store.ring.capacity store.formatting =
      (Layout.settled 0 1 []).flash store.ring := by
  have hb : Flash.blank store.ring 0 = .filled store.ring.capacity erasedWord [] := rfl
  rw [formatting, Flash.applyAll_append, flash_wiped, Flash.applyAll_cons, Flash.apply_header hb,
    Flash.applyAll_cons, Flash.apply_header (Function.update_self ..), Function.update_idem,
    Header.activeWord_one]
  rfl

/-- Formatting leaves an empty ring, whatever was there. -/
theorem Attached.leads_format (ha : store.Attached) :
    Leads Store.format store (.ok ()) (fun _ => True) Contents.empty := by
  refine ⟨store.formatting, 0, 1, [], Performs.format ha.fits, store.holds_formatting,
    Flash.Throughout.of_forall (fun _ => trivial) _, store.flash_formatting,
    valid_formatted store.ring, ?_⟩
  funext key
  rw [SlotLog.contents]
  split <;> rfl

end Store

end FlashRing
