import FlashRing.Proofs.Operation

/-!
Operations that are put together of others. Main statements: one operation after another passes
through the contents of both, and wherever the power goes the flash retains one of them.
-/

namespace FlashRing

theorem Flash.Throughout.append {P : Flash → Prop} {capacity : Nat} {flash : Flash}
    {first second : List Change} (h : Throughout P capacity flash first)
    (hm : Throughout P capacity (flash.applyAll capacity first) second) :
    Throughout P capacity flash (first ++ second) := by
  induction first generalizing flash with
  | nil => exact hm
  | cons change rest ih => exact ⟨h.1, ih h.2 hm⟩

namespace Store

variable {α β : Type} {store : Store Ram} {x : StoreM Ram α} {f : α → StoreM Ram β} {a : α}
  {e : Error} {out : Except Error β} {stages : Contents → Prop} {ends final : SlotLog → Prop}
  {active count : Nat} {used : SlotLog}

theorem Settled.after {changes : List Change} {place number : Nat} {left : SlotLog}
    (ha : store.Attached) (hin : ∀ change ∈ changes, store.ring.Holds change)
    (hend : store.flash.applyAll store.ring.capacity changes =
      (Layout.settled place number left).flash store.ring)
    (hv : (Layout.settled place number left).Valid store.ring) (power : Power) :
    ((store.after changes (some ⟨place, none⟩)).powered power).Settled place number left :=
  ⟨ha.after changes _ power, hv, (flash_after ha.fits hin _).trans hend, rfl⟩

namespace Passes

theorem mono {out : Except Error α} (h : Passes x store out stages ends)
    (he : ∀ used, ends used → final used) : Passes x store out stages final := by
  obtain ⟨changes, active, count, used, hrun, hin, hmid, hend, hv, hu⟩ := h
  exact ⟨changes, active, count, used, hrun, hin, hmid, hend, hv, he used hu⟩

theorem stages_mono {out : Except Error α} {more : Contents → Prop}
    (h : Passes x store out stages ends) (hm : ∀ contents, stages contents → more contents) :
    Passes x store out more ends := by
  obtain ⟨changes, active, count, used, hrun, hin, hmid, hrest⟩ := h
  refine ⟨changes, active, count, used, hrun, hin, hmid.mono ?_, hrest⟩
  rintro flash ⟨contents, hc, hstands⟩
  exact ⟨contents, hm contents hc, hstands⟩

/-- The second operation starts from any store that the first one may end with. -/
theorem bind (ha : store.Attached) (hx : Passes x store (.ok a) stages ends)
    (hf : ∀ middle active count used, middle.Settled active count used → ends used →
      middle.ring = store.ring → Passes (f a) middle out stages final) :
    Passes (x >>= f) store out stages final := by
  obtain ⟨first, place, number, left, hrun, hin, hmid, hend, hv, hleft⟩ := hx
  have hsettled : (store.after first (some ⟨place, none⟩)).Settled place number left :=
    ⟨ha.after first _ (store.after first none).device.power, hv,
      (flash_after ha.fits hin _).trans hend, rfl⟩
  obtain ⟨second, active, count, used, hmore, hin', hmid', hend', hrest⟩ :=
    hf _ place number left hsettled hleft rfl
  -- The changes of the second operation start from the flash that the first one leaves.
  have hflash : (store.after first (some ⟨place, none⟩)).flash =
      store.flash.applyAll store.ring.capacity first := flash_after ha.fits hin _
  rw [hflash] at hmid' hend'
  refine ⟨first ++ second, active, count, used, hrun.bind hmore, ?_, hmid.append hmid', ?_, hrest⟩
  · intro change hc
    exact (List.mem_append.mp hc).elim (hin change) (hin' change)
  · rw [Flash.applyAll_append]
    exact hend'

theorem bind_error (hx : Passes x store (.error e) stages ends) :
    Passes (x >>= f) store (.error e) stages ends := by
  obtain ⟨changes, active, count, used, hrun, hrest⟩ := hx
  exact ⟨changes, active, count, used, hrun.bind_error, hrest⟩

theorem bind_read (hx : Performs x store [] (.ok a) store.roles)
    (hf : Passes (f a) store out stages final) : Passes (x >>= f) store out stages final := by
  obtain ⟨changes, active, count, used, hrun, hrest⟩ := hf
  exact ⟨changes, active, count, used, hx.bind_read hrun, hrest⟩

/-- With steady power the operation ends. -/
theorem run {out : Except Error α} (h : Passes x store out stages ends) (ha : store.Attached)
    (hp : store.device.power = .steady) :
    ∃ after active count used, x store = ending out after ∧ after.Settled active count used ∧
      ends used ∧ after.ring = store.ring ∧ after.device.power = .steady := by
  obtain ⟨changes, active, count, used, hrun, hin, -, hend, hv, hu⟩ := h
  exact ⟨_, active, count, used, hrun.of_steady hp, Settled.after ha hin hend hv .steady, hu, rfl,
    rfl⟩

/-- Wherever the power goes, one of the contents is there once it is back. -/
theorem retains_budget {out : Except Error α} (h : Passes x store out stages ends)
    (ha : store.Attached) (n : Nat) :
    ∃ contents, stages contents ∧
      ((left x (store.powered (.budget n))).powered .steady).Retains contents := by
  obtain ⟨changes, active, count, used, hrun, hin, hmid, -⟩ := h
  obtain ⟨roles, power, hleft⟩ := hrun.left_budget n
  obtain ⟨contents, hc, hstands⟩ := hmid.take n
  rw [hleft]
  refine ⟨contents, hc, ha.after _ roles .steady, ?_⟩
  rw [← flash_after_take ha.fits hin n roles] at hstands
  exact hstands

end Passes

theorem Leads.passes {out : Except Error α} {meanwhile : Flash → Prop} {contents : Contents}
    (h : Leads x store out meanwhile contents)
    (hm : ∀ flash, meanwhile flash → flash.StandsAmong store.ring stages) :
    Passes x store out stages (·.contents = contents) := by
  obtain ⟨changes, active, count, used, hrun, hin, hmid, hrest⟩ := h
  exact ⟨changes, active, count, used, hrun, hin, hmid.mono hm, hrest⟩

theorem Settled.passes_nothing {out : Except Error α} (hs : store.Settled active count used)
    (h : Performs x store [] out store.roles) (hc : stages used.contents) (hu : ends used) :
    Passes x store out stages ends := by
  rw [hs.roles] at h
  refine ⟨[], active, count, used, h, by simp, ?_, hs.flash, hs.valid, hu⟩
  exact ⟨used.contents, hc, .settled active count used, hs.valid, hs.flash, rfl⟩

end Store

end FlashRing
