import FlashRing.Proofs.Interruption

/-!
Stores between operations. A store serves contents while it knows the one page in use, and retains
them as long as its flash is in a valid layout. Main statement: an operation that leads from one
layout to the next ends as stated, or is cut at a moment of which the stated property holds.
-/

namespace FlashRing.Store

variable {α : Type}

/-- The ring is the one that the configuration asks for. -/
def Attached (store : Store Ram) : Prop :=
  PageRing.layout store.device.geometry store.config = .ok store.ring

/-- One page is in use, and the store knows which. -/
structure Settled (store : Store Ram) (active count : Nat) (used : SlotLog) : Prop where
  attached : store.Attached
  valid : (Layout.settled active count used).Valid store.ring
  flash : store.flash = (Layout.settled active count used).flash store.ring
  roles : store.roles = some ⟨active, none⟩

/-- Callers find the contents. -/
def Serves (store : Store Ram) (contents : Contents) : Prop :=
  ∃ active count used, store.Settled active count used ∧ used.contents = contents

/-- The flash stands for the contents, whatever the store knows of it. -/
structure Retains (store : Store Ram) (contents : Contents) : Prop where
  attached : store.Attached
  stands : store.flash.StandsFor store.ring contents

/-- The operation ends with one page in use that holds the contents. Between its changes the flash
has a property. -/
def Leads (operation : StoreM Ram α) (store : Store Ram) (out : Except Error α)
    (meanwhile : Flash → Prop) (contents : Contents) : Prop :=
  ∃ changes active count used,
    Performs operation store changes out (some ⟨active, none⟩) ∧
      (∀ change ∈ changes, store.ring.Holds change) ∧
      Flash.Throughout meanwhile store.ring.capacity store.flash changes ∧
      store.flash.applyAll store.ring.capacity changes =
        (Layout.settled active count used).flash store.ring ∧
      (Layout.settled active count used).Valid store.ring ∧ used.contents = contents

/-- The operation ends with one page in use whose log has a property. Before, between and after its
changes the flash stands for one of some contents. -/
def Passes (operation : StoreM Ram α) (store : Store Ram) (out : Except Error α)
    (stages : Contents → Prop) (ends : SlotLog → Prop) : Prop :=
  ∃ changes active count used,
    Performs operation store changes out (some ⟨active, none⟩) ∧
      (∀ change ∈ changes, store.ring.Holds change) ∧
      Flash.Throughout (Flash.StandsAmong store.ring stages) store.ring.capacity store.flash
        changes ∧
      store.flash.applyAll store.ring.capacity changes =
        (Layout.settled active count used).flash store.ring ∧
      (Layout.settled active count used).Valid store.ring ∧ ends used

theorem Leads.mono {operation : StoreM Ram α} {store : Store Ram} {out : Except Error α}
    {meanwhile other : Flash → Prop} {contents : Contents}
    (h : Leads operation store out meanwhile contents)
    (hm : ∀ flash, meanwhile flash → other flash) :
    Leads operation store out other contents := by
  obtain ⟨changes, active, count, used, hp, hin, hmid, hrest⟩ := h
  exact ⟨changes, active, count, used, hp, hin, hmid.mono hm, hrest⟩

theorem eq_of_layout {geometry : Geometry} {config : Config} {ring : PageRing}
    (h : PageRing.layout geometry config = .ok ring) :
    ring.geometry = geometry ∧ ring.base = config.basePage ∧
      ring.count = max config.ringPages 2 := by
  unfold PageRing.layout at h
  dsimp only at h
  split at h
  next => cases h
  next =>
    split at h
    next => cases h
    next =>
      split at h
      next => cases h
      next =>
        cases h
        exact ⟨rfl, rfl, rfl⟩

theorem Attached.fits {store : Store Ram} (h : store.Attached) : store.Fits :=
  (eq_of_layout h).1

theorem Attached.after {store : Store Ram} (h : store.Attached) (changes : List Change)
    (roles : Option Roles) (power : Power) :
    ((store.after changes roles).powered power).Attached := by
  have hg := PageRing.geometry_commitAll store.ring store.device changes
  change PageRing.layout (store.ring.commitAll store.device changes).geometry store.config = _
  rw [hg]
  exact h

theorem Serves.retains {store : Store Ram} {contents : Contents} (h : store.Serves contents) :
    store.Retains contents := by
  obtain ⟨active, count, used, hs, rfl⟩ := h
  exact ⟨hs.attached, .settled active count used, hs.valid, hs.flash, rfl⟩

/-- The operation ends like this with the contents at hand, unless the power goes and stays away:
then the store forgets its pages and the flash has the property. -/
def Outcome (operation : StoreM Ram α) (store : Store Ram) (out : Except Error α)
    (meanwhile : Flash → Prop) (contents : Contents) : Prop :=
  (∃ final, operation store = ending out final ∧ final.Serves contents ∧
    final.ring = store.ring ∧ (store.device.power = .steady → final.device.power = .steady)) ∨
  (∃ fault cut, operation store = .error (.blockDevice fault) cut ∧ cut.roles = none ∧
    cut.Attached ∧ cut.ring = store.ring ∧ meanwhile cut.flash ∧ store.device.power ≠ .steady ∧
    cut.device.power = .off)

/-- An operation that leads somewhere does so, unless its power goes on the way. -/
theorem Leads.outcome {operation : StoreM Ram α} {store : Store Ram} {out : Except Error α}
    {meanwhile : Flash → Prop} {contents : Contents}
    (h : Leads (fenced operation) store out meanwhile contents) (ha : store.Attached) :
    Outcome (fenced operation) store out meanwhile contents := by
  obtain ⟨changes, active, count, used, hp, hin, hmid, hend, hv, hc⟩ := h
  by_cases hl : store.device.power.Lasts changes.length
  · refine Or.inl ⟨_, (hp store.device.power).1 hl, ⟨active, count, used, ⟨?_, hv, ?_, rfl⟩, hc⟩,
      rfl, ?_⟩
    · exact ha.after changes _ _
    · exact (flash_after ha.fits hin _).trans hend
    · intro hsteady
      change store.device.power.after changes.length = .steady
      rw [hsteady]
      rfl
  · obtain ⟨fault, left, hcut⟩ := (hp store.device.power).2 hl
    have hnone := roles_of_fenced_failure hcut rfl
    refine Or.inr ⟨fault, _, hcut, hnone, ha.after _ left .off, rfl, ?_, ?_, rfl⟩
    · change meanwhile (store.after (changes.take store.device.power.reach) left).flash
      rw [flash_after_take ha.fits hin]
      exact hmid.take _
    · intro hsteady
      rw [hsteady] at hl
      exact hl trivial

theorem Performs.run_nothing {operation : StoreM Ram α} {store : Store Ram} {out : Except Error α}
    (h : Performs operation store [] out store.roles) : operation store = ending out store := by
  have hrun := (h store.device.power).1 (Power.lasts_zero _)
  rwa [List.length_nil, Power.after_zero] at hrun

theorem Settled.leads_nothing {operation : StoreM Ram α} {store : Store Ram} {out : Except Error α}
    {active count : Nat} {used : SlotLog} (hs : store.Settled active count used)
    (h : Performs operation store [] out store.roles) :
    Leads operation store out (Flash.StandsFor store.ring used.contents) used.contents := by
  rw [hs.roles] at h
  refine ⟨[], active, count, used, h, by simp, ?_, hs.flash, hs.valid, rfl⟩
  exact ⟨.settled active count used, hs.valid, hs.flash, rfl⟩

end FlashRing.Store
