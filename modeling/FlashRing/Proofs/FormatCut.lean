import FlashRing.Proofs.Atomicity

/-!
Formatting whose power goes. Main statement: after a cut the store is unformatted or comes up with
what it had, except where one of the two pages of an unfinished rotation is erased and the other is
not; then it comes up with what the other page alone holds.
-/

namespace FlashRing

theorem PageContent.status_of_isBlank {content : PageContent} (h : content.isBlank = true) :
    content.status = .erased := by
  rw [status, beq_iff_eq.mp (Bool.and_eq_true_iff.mp h).1]
  decide

namespace Layout

variable {ring : PageRing} {layout : Layout}

theorem isBlank_flash (hv : layout.Valid ring) (i : Nat) :
    (layout.flash ring i).isBlank = false ↔
      layout.active? = some i ∨ layout.receiving? ring = some i := by
  constructor
  · intro hb
    by_contra hno
    rw [not_or] at hno
    rw [flash_eq_blank hno.1 hno.2, PageContent.isBlank_blank] at hb
    cases hb
  · intro hu
    have hs := hu.imp (status_active hv) status_receiving
    cases hb : (layout.flash ring i).isBlank with
    | false => rfl
    | true =>
      rw [PageContent.status_of_isBlank hb] at hs
      simp at hs

/-- The pages that are not blank, the first of the ring first. -/
def inUse (ring : PageRing) : Layout → List Nat
  | .settled active _ _ => [active]
  | .rotating active _ _ _ _ =>
    [min active (ring.next active), max active (ring.next active)]
  | .retired receiving _ _ => [receiving]

/-- The changes of a format: the pages in use are erased, the last one first, and the first page of
the ring is made the active one. -/
def formatChanges (ring : PageRing) (layout : Layout) : List Change :=
  (layout.inUse ring).reverse.map .erase ++
    [.header 0 (Header.counterWord 1), .header 0 Status.active.programWord]

theorem mem_inUse {i : Nat} :
    i ∈ layout.inUse ring ↔ layout.active? = some i ∨ layout.receiving? ring = some i := by
  cases layout with
  | settled active count used => simp [inUse, active?, receiving?, eq_comm]
  | rotating active count used copied counted =>
    simp only [inUse, active?, receiving?, List.mem_cons, List.not_mem_nil, or_false,
      Option.some.injEq]
    omega
  | retired receiving count used => simp [inUse, active?, receiving?, eq_comm]

theorem status_inUse (hv : layout.Valid ring) {i : Nat} (hi : i ∈ layout.inUse ring) :
    (layout.flash ring i).status = .active ∨ (layout.flash ring i).status = .receiving :=
  (mem_inUse.mp hi).imp (status_active hv) status_receiving

theorem inUse_of_both {a r : Nat} (ha : layout.active? = some a)
    (hr : layout.receiving? ring = some r) : layout.inUse ring = [min a r, max a r] := by
  cases layout with
  | settled active count used => cases hr
  | rotating active count used copied counted =>
    cases ha
    cases hr
    rfl
  | retired receiving count used => cases ha

/-- Only one erase of the two that an unfinished rotation takes leaves a page in use. -/
theorem length_inUse_le {n : Nat} (hn : n ≠ 0)
    (hhalf : ∀ a r, n = 1 → layout.active? = some a → layout.receiving? ring ≠ some r) :
    (layout.inUse ring).length ≤ n := by
  cases layout with
  | settled active count used => exact Nat.one_le_iff_ne_zero.mpr hn
  | rotating active count used copied counted =>
    have hne : n ≠ 1 := fun h => hhalf active (ring.next active) h rfl rfl
    change 2 ≤ n
    omega
  | retired receiving count used => exact Nat.one_le_iff_ne_zero.mpr hn

theorem active_ne_receiving (hv : layout.Valid ring) {a r : Nat} (ha : layout.active? = some a)
    (hr : layout.receiving? ring = some r) : a ≠ r := by
  rintro rfl
  have hs := status_active hv ha
  rw [status_receiving hr] at hs
  cases hs

theorem erases_inUse (hv : layout.Valid ring) :
    erases (!·.isBlank) (layout.flash ring) (List.range ring.count).reverse =
      (layout.inUse ring).reverse.map .erase := by
  have hfilter : (List.range ring.count).filter (fun i => !(layout.flash ring i).isBlank) =
      layout.inUse ring := by
    apply filter_range_eq
    · cases layout with
      | settled active count used => simp [inUse]
      | rotating active count used copied counted =>
        have hne := ring.next_ne hv.1
        simp only [inUse, List.pairwise_cons, List.mem_singleton, forall_eq, List.not_mem_nil,
          false_imp_iff, implies_true, List.Pairwise.nil, and_true]
        omega
      | retired receiving count used => simp [inUse]
    · intro i
      rw [Bool.not_eq_true', isBlank_flash hv, mem_inUse]
      exact ⟨fun h => ⟨h.elim (active_lt hv) (receiving_lt hv), h⟩, And.right⟩
  rw [erases, List.filter_reverse, hfilter]

end Layout

namespace Store

/-- Startup, and then a list of what is there. -/
def comeUp {δ : Type} [Device δ] : StoreM δ (List (UInt16 × UInt16)) := do
  init
  entries

variable {store : Store Ram} {contents : Contents}

theorem Performs.comeUp_erased (hs : store.Fits) (he : ∀ i, (store.flash i).status = .erased) :
    Performs comeUp store store.sweeping (.error .unformatted) none := by
  have hnone : ∀ status, status ≠ .erased → store.ring.indicesOf store.flash status =
      (none : Option Nat).toList := by
    intro status hne
    apply PageRing.indicesOf_eq_toList
    · intro i
      simp [he i, hne.symm]
    · simp
  exact bind_error (init_none hs (hnone .active (by decide)) (hnone .receiving (by decide)))

section Single

variable {m : Nat}

/-- A page that is alone in a ring is taken into use as it is, also if its rotation is not done. -/
theorem Performs.comeUp_single (hs : store.Fits) (hm : m < store.ring.count)
    (hblank : ∀ i, i ≠ m → store.flash i = .blank store.ring.capacity)
    (hst : (store.flash m).status = .active ∨ (store.flash m).status = .receiving) :
    ∃ changes, Performs comeUp store changes (.ok (store.flash m).log.entries)
      (some ⟨m, none⟩) := by
  have ha := indicesOf_single hm hblank .active (by decide)
  have hr := indicesOf_single hm hblank .receiving (by decide)
  have hkept : ∀ roles, (store.after store.sweeping roles).flash m = store.flash m := by
    intro roles
    rw [flash_after hs store.holds_sweeping, flash_sweeping, if_pos hst]
  have hs₁ := fits_after hs store.sweeping (some ⟨m, none⟩)
  rcases hst with hst | hst
  · rw [hst] at ha hr
    have hentries := entries hs₁ rfl hm
    rw [hkept] at hentries
    exact ⟨_, bind (init_active hs ha hr) hentries⟩
  · rw [hst] at ha hr
    have hs₂ := fits_after hs₁ [.header m Status.active.programWord] (some ⟨m, none⟩)
    have hentries := entries hs₂ rfl hm
    rw [flash_after_header hs₁ hm, Function.update_self, hkept, after_after] at hentries
    exact ⟨_, bind (init_receiving hs ha hr) hentries⟩

end Single

/-- The store whose power went after so many programs and erases of a format and came back. -/
def cutFormat (store : Store Ram) (count : Nat) : Store Ram :=
  (left format (store.afterEvents [.failAfter count])).afterEvents [.restorePower]

theorem Retains.comeUp (h : store.Retains contents) (hp : store.device.power = .steady) :
    answer comeUp store = .ok contents.listing := by
  rcases h.outcome_init with ⟨final, hrun, hserves, -⟩ | ⟨_, _, _, _, _, _, _, hno, -⟩
  · have hbind : Store.comeUp store = Store.entries final := run_bind hrun fun _ => Store.entries
    rw [answer, hbind]
    exact hserves.shows.2
  · exact absurd hp hno

theorem Performs.answer_steady {α : Type} {x : StoreM Ram α} {changes : List Change}
    {out : Except Error α} {roles : Option Roles} (h : Performs x store changes out roles)
    (hp : store.device.power = .steady) : answer x store = out :=
  answer_of_run (h.of_steady hp)

section Cut

variable {layout : Layout} {n : Nat}

theorem formatting_layout (hv : layout.Valid store.ring)
    (hf : store.flash = layout.flash store.ring) :
    store.formatting = layout.formatChanges store.ring := by
  rw [formatting, hf, Layout.erases_inUse hv, Layout.formatChanges]

theorem holds_formatChanges (hv : layout.Valid store.ring)
    (hf : store.flash = layout.flash store.ring) :
    ∀ change ∈ layout.formatChanges store.ring, store.ring.Holds change :=
  formatting_layout hv hf ▸ store.holds_formatting

theorem length_formatChanges (ring : PageRing) (layout : Layout) :
    (layout.formatChanges ring).length = (layout.inUse ring).length + 2 := by
  simp [Layout.formatChanges]

/-- A format that is cut has made some of its changes, and not all of them. -/
theorem cutFormat_eq (hs : store.Fits) (hv : layout.Valid store.ring)
    (hf : store.flash = layout.flash store.ring)
    (hcut : isCut (answer format (store.afterEvents [.failAfter n])) = true) :
    n < (layout.inUse store.ring).length + 2 ∧ ∃ roles, store.cutFormat n =
      (store.after ((layout.formatChanges store.ring).take n) roles).powered .steady := by
  have h := Performs.format hs
  rw [formatting_layout hv hf] at h
  refine ⟨?_, ?_⟩
  -- With power for all of its changes the format would have ended.
  · by_contra hge
    have hl : (Power.budget n).Lasts (layout.formatChanges store.ring).length := by
      rw [length_formatChanges]
      exact Nat.not_lt.mp hge
    have hok := answer_of_run ((h (.budget n)).1 hl)
    change isCut (answer format (store.powered (.budget n))) = true at hcut
    rw [hok] at hcut
    cases hcut
  · obtain ⟨roles, power, hleft⟩ := h.left_budget n
    refine ⟨roles, ?_⟩
    change (left format (store.powered (.budget n))).powered .steady = _
    rw [hleft]
    rfl

/-- Once the pages in use are erased, no page has a status until the format is complete. -/
theorem status_formatting (hv : layout.Valid store.ring)
    (hf : store.flash = layout.flash store.ring) (hlo : (layout.inUse store.ring).length ≤ n)
    (hhi : n < (layout.inUse store.ring).length + 2) (i : Nat) :
    (store.flash.applyAll store.ring.capacity ((layout.formatChanges store.ring).take n)
      i).status = .erased := by
  have hwiped := flash_wiped store
  rw [hf, Layout.erases_inUse hv, ← hf] at hwiped
  obtain ⟨k, rfl⟩ := Nat.exists_eq_add_of_le hlo
  have hk : k < 2 := by omega
  have hlen : (layout.inUse store.ring).length =
      ((layout.inUse store.ring).reverse.map Change.erase).length := by simp
  rw [Layout.formatChanges, hlen, List.take_length_add_append, Flash.applyAll_append, hwiped]
  cases k with
  | zero => exact PageContent.status_blank _
  | succ k =>
    -- The counter is programmed, and that leaves the status erased.
    obtain rfl : k = 0 := by omega
    have hb : Flash.blank store.ring 0 = .filled store.ring.capacity erasedWord [] := rfl
    change ((Change.header 0 (Header.counterWord 1)).apply store.ring.capacity
      (Flash.blank store.ring) i).status = .erased
    rw [Flash.apply_header hb]
    by_cases hi : i = 0
    · rw [hi, Function.update_self]
      exact (Header.status_and_counterWord erasedWord 1).trans (by decide)
    · rw [Function.update_of_ne hi]
      exact PageContent.status_blank _

/-- A format that is cut before its first change has not touched what was there. -/
theorem comeUp_cutFormat_zero (ha : store.Attached) (hv : layout.Valid store.ring)
    (hf : store.flash = layout.flash store.ring)
    (hcut : isCut (answer format (store.afterEvents [.failAfter 0])) = true) :
    answer comeUp (store.cutFormat 0) = .ok layout.contents.listing := by
  obtain ⟨-, roles, heq⟩ := cutFormat_eq ha.fits hv hf hcut
  have hkept : Retains (store.cutFormat 0) layout.contents := by
    rw [heq]
    exact ⟨ha.after [] roles .steady, layout, hv, hf, rfl⟩
  apply hkept.comeUp
  rw [heq]
  rfl

theorem comeUp_cutFormat_erased (hs : store.Fits) (hv : layout.Valid store.ring)
    (hf : store.flash = layout.flash store.ring)
    (hcut : isCut (answer format (store.afterEvents [.failAfter n])) = true)
    (hlo : (layout.inUse store.ring).length ≤ n) :
    answer comeUp (store.cutFormat n) = .error .unformatted := by
  obtain ⟨hhi, roles, heq⟩ := cutFormat_eq hs hv hf hcut
  have hflash := flash_after_take hs (holds_formatChanges hv hf) n roles
  rw [heq]
  refine Performs.answer_steady (Performs.comeUp_erased (fits_after hs _ roles) ?_) rfl
  intro i
  change ((store.after ((layout.formatChanges store.ring).take n) roles).flash i).status = _
  rw [hflash]
  exact status_formatting hv hf hlo hhi i

/-- Of the two pages of an unfinished rotation the last one in the ring is erased first. -/
theorem comeUp_cutFormat_half (hs : store.Fits) (hv : layout.Valid store.ring)
    (hf : store.flash = layout.flash store.ring)
    (hcut : isCut (answer format (store.afterEvents [.failAfter 1])) = true) {a r : Nat}
    (ha : layout.active? = some a) (hr : layout.receiving? store.ring = some r) :
    answer comeUp (store.cutFormat 1) = .ok (store.flash (min a r)).log.entries := by
  obtain ⟨-, roles, heq⟩ := cutFormat_eq hs hv hf hcut
  have hne := Layout.active_ne_receiving hv ha hr
  have hlt := Layout.active_lt hv ha
  have htake : (layout.formatChanges store.ring).take 1 = [.erase (max a r)] := by
    rw [Layout.formatChanges, Layout.inUse_of_both ha hr]
    rfl
  have hflash := flash_after_take hs (holds_formatChanges hv hf) 1 roles
  rw [htake] at heq hflash
  change _ = Function.update store.flash (max a r) (.blank store.ring.capacity) at hflash
  have hkept : (store.after [.erase (max a r)] roles).flash (min a r) = store.flash (min a r) := by
    rw [hflash, Function.update_of_ne (by omega)]
  have hblank : ∀ i, i ≠ min a r →
      (store.after [.erase (max a r)] roles).flash i = .blank store.ring.capacity := by
    intro i hi
    rw [hflash]
    by_cases hmax : i = max a r
    · rw [hmax, Function.update_self]
    · rw [Function.update_of_ne hmax, hf]
      apply Layout.flash_eq_blank
      · rw [ha, Ne, Option.some_inj]
        omega
      · rw [hr, Ne, Option.some_inj]
        omega
  have hst : ((store.after [.erase (max a r)] roles).flash (min a r)).status = .active ∨
      ((store.after [.erase (max a r)] roles).flash (min a r)).status = .receiving := by
    rw [hkept, hf]
    apply Layout.status_inUse hv
    rw [Layout.inUse_of_both ha hr]
    exact List.mem_cons_self
  obtain ⟨changes, h⟩ := Performs.comeUp_single (fits_after hs [.erase (max a r)] roles)
    (show min a r < store.ring.count by omega) hblank hst
  rw [hkept] at h
  rw [heq]
  exact (h.at_power .steady).answer_steady rfl

/-- A format that is cut leaves the store unformatted or with what it had, except at one moment: the
page of an unfinished rotation that stands last in the ring is erased, the other one is not, and
what startup would have made of both is not what the other one holds alone. -/
theorem comeUp_of_cutFormat {device : Ram} {config : Config} {attached formatted : Store Ram}
    {events : List Event} (ha : attach device config = .ok attached)
    (hf : format attached = .ok () formatted) (hd : formatted.deletesComplete events = true)
    (hstore : formatted.afterEvents events = store)
    (hcut : isCut (answer format (store.afterEvents [.failAfter n])) = true) :
    (∃ contents, answer comeUp (store.afterEvents [.restorePower]) =
      .ok (Contents.listing contents)) ∧
    (∀ a r, n = 1 → (store.flash a).status = .active → (store.flash r).status = .receiving →
      answer comeUp (store.cutFormat n) = .ok (store.flash (min a r)).log.entries) ∧
    (answer comeUp (store.cutFormat n) = .error .unformatted ∨
        answer comeUp (store.cutFormat n) = answer comeUp (store.afterEvents [.restorePower]) ↔
      ∀ a r, n = 1 → (store.flash a).status = .active → (store.flash r).status = .receiving →
        answer comeUp (store.afterEvents [.restorePower]) =
          .ok (store.flash (min a r)).log.entries) := by
  obtain ⟨contents, hsound⟩ := Sound.afterEvents (Or.inl (serves_of_format ha hf).1) hd
  rw [hstore] at hsound
  obtain ⟨hattached, layout, hv, hflash, rfl⟩ := hsound.retains
  have hrestored : answer comeUp (store.afterEvents [.restorePower]) =
      .ok layout.contents.listing := (hsound.powered .steady).retains.comeUp rfl
  have hhalf : ∀ a r, n = 1 → (store.flash a).status = .active →
      (store.flash r).status = .receiving →
      answer comeUp (store.cutFormat n) = .ok (store.flash (min a r)).log.entries := by
    rintro a r rfl hsa hsr
    rw [hflash] at hsa hsr
    exact comeUp_cutFormat_half hattached.fits hv hflash hcut
      ((Layout.status_eq_active hv).mp hsa) ((Layout.status_eq_receiving hv).mp hsr)
  refine ⟨⟨_, hrestored⟩, hhalf, ?_, ?_⟩
  · rintro hclaim a r hn hsa hsr
    rcases hclaim with hno | hsame
    · rw [hhalf a r hn hsa hsr] at hno
      cases hno
    · rw [← hsame, hhalf a r hn hsa hsr]
  · intro hall
    -- Either nothing was erased, or one page of two, or all pages in use.
    by_cases hzero : n = 0
    · subst hzero
      exact Or.inr ((comeUp_cutFormat_zero hattached hv hflash hcut).trans hrestored.symm)
    by_cases hboth : ∃ a r, n = 1 ∧ layout.active? = some a ∧
        layout.receiving? store.ring = some r
    · obtain ⟨a, r, hn, hla, hlr⟩ := hboth
      have hsa : (store.flash a).status = .active := hflash ▸ Layout.status_active hv hla
      have hsr : (store.flash r).status = .receiving := hflash ▸ Layout.status_receiving hlr
      exact Or.inr ((hhalf a r hn hsa hsr).trans (hall a r hn hsa hsr).symm)
    · apply Or.inl
      apply comeUp_cutFormat_erased hattached.fits hv hflash hcut
      apply Layout.length_inUse_le hzero
      intro a r hn hla hlr
      exact hboth ⟨a, r, hn, hla, hlr⟩

end Cut

/-- The store that is cut while it moves two keys from the last page of the ring to the first. -/
def halfRotated : Store Ram :=
  (left format small).afterEvents
    [.call .compact, .call (.write 1 10), .call (.write 2 20), .failAfter 2, .call .compact,
      .restorePower]

/-- One of the two keys is all that is left if the power goes after the first erase. -/
theorem comeUp_of_cutFormat_halfRotated :
    answer comeUp (halfRotated.afterEvents [.restorePower]) = .ok [(1, 10), (2, 20)] ∧
      answer comeUp (halfRotated.cutFormat 1) = .ok [(2, 20)] := by
  have h := comeUp_of_cutFormat attach_small format_small (by decide +kernel)
    (show _ = halfRotated from rfl) (by decide +kernel : isCut (answer format
      (halfRotated.afterEvents [.failAfter 1])) = true)
  have hhalf := h.2.1 1 0 rfl (by decide +kernel) (by decide +kernel)
  have hlog : (halfRotated.flash (min 1 0)).log.entries = [(2, 20)] := by decide +kernel
  rw [hlog] at hhalf
  exact ⟨by decide +kernel, hhalf⟩

end Store

end FlashRing
