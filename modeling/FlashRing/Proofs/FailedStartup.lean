import FlashRing.Device.Image
import FlashRing.Proofs.PageReading
import FlashRing.Proofs.Session

/-!
Startups that fail, on every device. Main statement: a startup that fails leaves no page in use, so
that the store answers nothing until it is started again, unless the copy of an unfinished rotation
found no room. Then both pages of that rotation are in use and the store goes on to answer.
-/

namespace FlashRing

/-- A device that fails in no other way than as a device. -/
structure FailsAsDevice (δ : Type) [Device δ] : Prop where
  read : ∀ {device : δ} {address : Nat} {e : Error},
    Device.read device address = .error e → e.isDeviceFailure = true
  program : ∀ {device after : δ} {address : Nat} {words : List UInt32} {e : Error},
    Device.program address words device = .error e after → e.isDeviceFailure = true
  erase : ∀ {device after : δ} {page : Nat} {e : Error},
    Device.erase page device = .error e after → e.isDeviceFailure = true

theorem Ram.failsAsDevice : FailsAsDevice Ram where
  read {ram address e} h := by
    change ram.read address = .error e at h
    unfold Ram.read at h
    split at h
    next => cases h
    next => exact Except.error.inj h ▸ rfl
  program {ram after address words e} h := by
    change Ram.program address words ram = .error e after at h
    unfold Ram.program at h
    split at h
    next => cases h; rfl
    next =>
      split at h
      next => cases h; rfl
      next => cases h
  erase {ram after page e} h := by
    change Ram.erase page ram = .error e after at h
    unfold Ram.erase at h
    split at h
    next => cases h; rfl
    next =>
      split at h
      next => cases h; rfl
      next => cases h

theorem Image.failsAsDevice : FailsAsDevice Image where
  read {image address e} h := by
    change image.read address = .error e at h
    unfold Image.read at h
    split at h
    next => exact Except.error.inj h ▸ rfl
    next =>
      split at h
      next => cases h
      next => exact Except.error.inj h ▸ rfl
  program {image after address words e} h := by
    change Image.program address words image = .error e after at h
    unfold Image.program at h
    split at h
    next => cases h; rfl
    next =>
      split at h
      next => cases h; rfl
      next => cases h
  erase {image after page e} h := by
    change Image.erase page image = .error e after at h
    unfold Image.erase at h
    split at h
    next => cases h; rfl
    next => cases h

/-- A reading that fails only where the device does. -/
def DeviceReading {α : Type} (reading : Except Error α) : Prop :=
  ∀ e, reading = .error e → e.isDeviceFailure = true

theorem DeviceReading.of_reads {δ α : Type} [Device δ] (hd : FailsAsDevice δ)
    {reading : δ → Except Error α} (h : Reads reading) (device : δ) :
    DeviceReading (reading device) :=
  fun _ he => h.allowed hd.read he

namespace Store

/-- The failures of a rotation: the device's, and the lack of room. -/
def RotationFailure (e : Error) : Prop :=
  e.isDeviceFailure = true ∨ ∃ live capacity, e = .storeFull live capacity

/-- Where the operation fails, the pages in use are what they were, and the failure is allowed. -/
def FailsStill {δ α : Type} (Allowed : Error → Prop) (operation : StoreM δ α) : Prop :=
  ∀ (store after : Store δ) (e : Error), operation store = .error e after →
    after.roles = store.roles ∧ Allowed e

/-- However the operation ends, the pages in use are what they were. -/
structure Still {δ α : Type} (Allowed : Error → Prop) (operation : StoreM δ α) : Prop where
  done : ∀ {store after : Store δ} {a : α}, operation store = .ok a after →
    after.roles = store.roles
  failed : FailsStill Allowed operation

section Closure

variable {δ α β : Type} {Allowed : Error → Prop}

theorem FailsStill.bind {x : StoreM δ α} {f : α → StoreM δ β} (hx : Still Allowed x)
    (hf : ∀ a, FailsStill Allowed (f a)) : FailsStill Allowed (x >>= f) := by
  intro store after e h
  cases hrun : x store with
  | ok a middle =>
    rw [run_bind hrun] at h
    obtain ⟨hroles, he⟩ := hf a middle after e h
    exact ⟨hroles.trans (hx.done hrun), he⟩
  | error fault middle =>
    rw [run_bind_error hrun] at h
    cases h
    exact hx.failed store after e hrun

theorem FailsStill.setRoles (roles : Option Roles) :
    FailsStill Allowed (Store.setRoles roles : StoreM δ Unit) :=
  fun _ _ _ h => by cases h

end Closure

namespace Still

variable {δ α β : Type} {Allowed : Error → Prop}

theorem pure (a : α) : Still Allowed (Pure.pure a : StoreM δ α) where
  done h := by cases h; rfl
  failed _ _ _ h := by cases h

theorem throw {e : Error} (he : Allowed e) :
    Still Allowed (MonadExcept.throw e : StoreM δ α) where
  done h := by cases h
  failed _ _ _ h := by cases h; exact ⟨rfl, he⟩

theorem bind {x : StoreM δ α} {f : α → StoreM δ β} (hx : Still Allowed x)
    (hf : ∀ a, Still Allowed (f a)) : Still Allowed (x >>= f) where
  done {store after b} h := by
    cases hrun : x store with
    | ok a middle =>
      rw [run_bind hrun] at h
      exact ((hf a).done h).trans (hx.done hrun)
    | error e middle =>
      rw [run_bind_error hrun] at h
      cases h
  failed := FailsStill.bind hx fun a => (hf a).failed

theorem forM {f : α → StoreM δ PUnit} (hf : ∀ a, Still Allowed (f a)) (list : List α) :
    Still Allowed (list.forM f) := by
  induction list with
  | nil => exact pure ()
  | cons a rest ih => exact bind (hf a) fun _ => ih

theorem mono {Other : Error → Prop} {x : StoreM δ α} (hx : Still Allowed x)
    (h : ∀ e, Allowed e → Other e) : Still Other x where
  done := hx.done
  failed store after e hrun := by
    obtain ⟨hroles, he⟩ := hx.failed store after e hrun
    exact ⟨hroles, h e he⟩

theorem observe {reading : δ → Except Error α} (h : ∀ device, DeviceReading (reading device)) :
    Still (·.isDeviceFailure = true) (Store.observe reading) where
  done {store after a} hrun := by
    unfold Store.observe at hrun
    split at hrun
    next => cases hrun; rfl
    next => cases hrun
  failed store after e hrun := by
    unfold Store.observe at hrun
    split at hrun
    next => cases hrun
    next hread => cases hrun; exact ⟨rfl, h _ _ hread⟩

theorem alter {change : EStateM Error δ α}
    (h : ∀ {device after : δ} {e : Error}, change device = .error e after →
      e.isDeviceFailure = true) :
    Still (·.isDeviceFailure = true) (Store.alter change) where
  done {store after a} hrun := by
    unfold Store.alter at hrun
    split at hrun
    next => cases hrun; rfl
    next => cases hrun
  failed store after e hrun := by
    unfold Store.alter at hrun
    split at hrun
    next => cases hrun
    next hfail => cases hrun; exact ⟨rfl, h hfail⟩

variable [Device δ] (hd : FailsAsDevice δ)

include hd

theorem program (address : Nat) (word : UInt32) :
    Still (·.isDeviceFailure = true) (Store.program address word : StoreM δ Unit) :=
  alter hd.program

theorem erase (page : Page) :
    Still (·.isDeviceFailure = true) (Store.erase page : StoreM δ Unit) :=
  alter hd.erase

theorem clean (page : Page) :
    Still (·.isDeviceFailure = true) (Store.clean page : StoreM δ Unit) := by
  refine bind (observe (.of_reads hd (.isErased page))) fun erased => ?_
  cases erased with
  | true => exact pure ()
  | false => exact erase hd page

theorem sweep (place : Page × Status) :
    Still (·.isDeviceFailure = true) (Store.sweep place : StoreM δ Unit) := by
  obtain ⟨page, status⟩ := place
  cases status with
  | erased => exact clean hd page
  | unknown byte => exact erase hd page
  | active => exact pure ()
  | receiving => exact pure ()

theorem append (page : Page) (slot : Slot) :
    Still (·.isDeviceFailure = true) (Store.append page slot : StoreM δ Bool) := by
  refine bind (observe (.of_reads hd (.firstFree? page))) fun place => ?_
  cases place with
  | none => exact pure false
  | some address => exact bind (program hd address slot.encode) fun _ => pure true

theorem appendOrFail (page : Page) (slot : Slot) :
    Still RotationFailure (Store.appendOrFail page slot : StoreM δ Unit) := by
  refine bind ((append hd page slot).mono fun _ => Or.inl) fun done => ?_
  cases done with
  | true => exact pure ()
  | false => exact throw (Or.inr ⟨_, _, rfl⟩)

theorem copy (page : Page) (slot : Slot) :
    Still RotationFailure (Store.copy page slot : StoreM δ Unit) := by
  unfold Store.copy
  split
  next =>
    refine bind ((observe (.of_reads hd (.holds page slot.key))).mono fun _ => Or.inl)
      fun found => ?_
    cases found with
    | true => exact pure ()
    | false => exact appendOrFail hd page slot
  next => exact pure ()

end Still

section Startup

variable {δ : Type} [Device δ] {store after : Store δ} {e : Error}

theorem FailsStill.transfer (hd : FailsAsDevice δ) (source target : Page) (log : SlotLog) :
    FailsStill RotationFailure (Store.transfer source target none log : StoreM δ Unit) := by
  have hword : ∀ address word,
      Still RotationFailure (Store.program address word : StoreM δ Unit) :=
    fun address word => (Still.program hd address word).mono fun _ => Or.inl
  have hheader : Still RotationFailure (Store.observe source.header : StoreM δ Header) :=
    (Still.observe (.of_reads hd (.header source))).mono fun _ => Or.inl
  have herase : Still RotationFailure (Store.erase source : StoreM δ Unit) :=
    (Still.erase hd source).mono fun _ => Or.inl
  refine .bind (hword _ _) fun _ => .bind (.pure ()) fun _ =>
    .bind (.forM (.copy hd target) _) fun _ => .bind hheader fun header => ?_
  exact .bind (hword _ _) fun _ => .bind herase fun _ => .bind (hword _ _) fun _ => .setRoles _

/-- A rotation that is gone on with and fails has not forgotten its two pages. -/
theorem rotate_failed (hd : FailsAsDevice δ) {a t : Nat} (hr : store.roles = some ⟨a, some t⟩)
    (h : rotate none store = .error e after) :
    after.roles = some ⟨a, some t⟩ ∧ RotationFailure e := by
  have hlog : Still RotationFailure (Store.observe (store.ring.page a).log : StoreM δ SlotLog) :=
    (Still.observe (.of_reads hd (.log _))).mono fun _ => Or.inl
  have hrest : FailsStill RotationFailure (do
      let log ← Store.observe (store.ring.page a).log
      let live := log.liveCount none
      if (store.ring.page t).capacity < live then
        MonadExcept.throw (.storeFull live (store.ring.page t).capacity)
      transfer (store.ring.page a) (store.ring.page t) none log : StoreM δ Unit) := by
    refine .bind hlog fun log => ?_
    dsimp only
    split
    next => exact .bind (Still.throw (Or.inr ⟨_, _, rfl⟩)) fun _ => .transfer hd _ _ log
    next => exact .transfer hd _ _ log
  rw [← hr]
  -- With the roles known, `rotate` comes down to these steps: the target is `t`, and it is not cleaned.
  obtain ⟨device, config, ring, roles⟩ := store
  subst hr
  exact hrest _ after e h

/-- A failure for another reason than the lack of room. -/
def NotFull (e : Error) : Prop :=
  ∀ live capacity, e ≠ .storeFull live capacity

theorem notFull_of_isDeviceFailure (h : e.isDeviceFailure = true) : NotFull e := by
  rintro live capacity rfl
  cases h

/-- Where no page is in use and the operation fails, there is none afterwards either, or there are
both pages of a rotation that failed. -/
def FailsStarting {δ α : Type} (operation : StoreM δ α) : Prop :=
  ∀ (store after : Store δ) (e : Error), store.roles = none → operation store = .error e after →
    (after.roles = none ∧ NotFull e) ∨
      ∃ a t, after.roles = some ⟨a, some t⟩ ∧ RotationFailure e

theorem FailsStill.failsStarting {δ α : Type} {x : StoreM δ α} (hx : FailsStill NotFull x) :
    FailsStarting x := by
  intro store after e hr h
  obtain ⟨hroles, he⟩ := hx store after e h
  exact Or.inl ⟨hroles.trans hr, he⟩

theorem FailsStarting.bind {δ α β : Type} {x : StoreM δ α} {f : α → StoreM δ β}
    (hx : Still NotFull x) (hf : ∀ a, FailsStarting (f a)) : FailsStarting (x >>= f) := by
  intro store after e hr h
  cases hrun : x store with
  | ok a middle =>
    rw [run_bind hrun] at h
    exact hf a middle after e ((hx.done hrun).trans hr) h
  | error fault middle =>
    rw [run_bind_error hrun] at h
    cases h
    exact hx.failed.failsStarting store after e hr hrun

theorem FailsStarting.refuse {δ α : Type} {p : Prop} [Decidable p] {e : Error}
    {x : StoreM δ α} (he : NotFull e) (hx : FailsStarting x) :
    FailsStarting (if p then (MonadExcept.throw e : StoreM δ PUnit) >>= fun _ => x else x) := by
  split
  next => exact .bind (.throw he) fun _ => hx
  next => exact hx

theorem failsStarting_resolve (hd : FailsAsDevice δ) (active receiving : Option Nat) :
    FailsStarting (resolve active receiving : StoreM δ Unit) := by
  intro store after e hr h
  match active, receiving with
  | none, none => exact (Still.throw (by simp [NotFull])).failed.failsStarting store after e hr h
  | some a, none => cases h
  | none, some t =>
    have hpromote : FailsStill NotFull (do
        Store.program (store.ring.page t).headerAddress Status.active.programWord
        setRoles (some { active := t, receiving := none }) : StoreM δ Unit) :=
      .bind ((Still.program hd _ _).mono fun _ => notFull_of_isDeviceFailure)
        fun _ => .setRoles _
    exact hpromote.failsStarting store after e hr h
  | some a, some t =>
    have hready : ({ store with roles := some ⟨a, some t⟩ } : Store δ).roles =
        some ⟨a, some t⟩ := rfl
    exact Or.inr ⟨a, t, rotate_failed hd hready h⟩

theorem failsStarting_scan (hd : FailsAsDevice δ) (pages : List Page) :
    FailsStarting (do
      let statuses ← Store.observe fun device =>
        pages.mapM fun page => return (← page.header device).status
      let active := positions statuses .active
      let receiving := positions statuses .receiving
      if 1 < active.length then MonadExcept.throw (.integrity (.severalActive active))
      if 1 < receiving.length then MonadExcept.throw (.integrity (.severalReceiving receiving))
      (pages.zip statuses).forM sweep
      resolve active.head? receiving.head? : StoreM δ Unit) := by
  have hstatuses : ∀ device : δ, DeviceReading
      (pages.mapM fun page => return (← page.header device).status) :=
    .of_reads hd (.mapM (fun page => (Reads.header page).map (·.status)) pages)
  have hrefuse : ∀ fault, NotFull (.integrity fault) := by simp [NotFull]
  refine .bind ((Still.observe hstatuses).mono fun _ => notFull_of_isDeviceFailure)
    fun statuses => ?_
  have hrest : FailsStarting (do
      (pages.zip statuses).forM sweep
      resolve (positions statuses .active).head? (positions statuses .receiving).head? :
        StoreM δ Unit) :=
    .bind (.forM (fun place => (Still.sweep hd place).mono fun _ => notFull_of_isDeviceFailure) _)
      fun _ => failsStarting_resolve hd _ _
  exact .refuse (hrefuse _) (.refuse (hrefuse _) hrest)

/-- No page is in use, and whoever asks for one is told that the store has to be started. -/
structure IsClosed (store : Store δ) : Prop where
  isReady : store.isReady = false
  active? : store.active? = none
  receiving? : store.receiving? = none
  refuses : ∀ operation : Operation, operation.isStartup = false →
    operation.run store = .error .notInitialized store

theorem isClosed_iff {store : Store δ} : store.IsClosed ↔ store.roles = none := by
  constructor
  · intro h
    exact Option.not_isSome_iff_eq_none.mp (Bool.not_eq_true _ ▸ h.isReady)
  · intro h
    refine ⟨?_, ?_, ?_, fun operation hs => run_unready h hs⟩
    · rw [Store.isReady, h]
      rfl
    · rw [Store.active?, h]
      rfl
    · rw [Store.receiving?, h]
      rfl

/-- A startup that fails leaves a closed store exactly if it did not fail for lack of room. In that
one case the two pages of the rotation that it went on with stay in use. -/
theorem closed_of_failed_init (hd : FailsAsDevice δ) (h : init store = .error e after) :
    (after.IsClosed ↔ NotFull e) ∧
      (¬NotFull e → after.isReady = true ∧ ∃ active receiving,
        after.active? = some active ∧ after.receiving? = some receiving) := by
  unfold init fenced at h
  split at h
  next => cases h
  next fault cut hscan =>
    cases h
    rw [isClosed_iff]
    -- The fence makes the store forget its pages on account of the device and of nothing else.
    by_cases hdevice : e.isDeviceFailure = true
    · have hfull := notFull_of_isDeviceFailure hdevice
      rw [if_pos hdevice]
      exact ⟨⟨fun _ => hfull, fun _ => rfl⟩, fun hno => absurd hfull hno⟩
    · rw [if_neg hdevice]
      rcases failsStarting_scan hd store.ring.pages { store with roles := none } cut e rfl hscan with
        ⟨hroles, hfull⟩ | ⟨a, t, hroles, he⟩
      · exact ⟨⟨fun _ => hfull, fun _ => hroles⟩, fun hno => absurd hfull hno⟩
      · obtain ⟨live, capacity, rfl⟩ := he.resolve_left hdevice
        refine ⟨⟨fun hnone => ?_, fun hno => absurd rfl (hno live capacity)⟩, fun _ => ?_⟩
        · rw [hroles] at hnone
          cases hnone
        · rw [isReady, active?, receiving?, hroles]
          exact ⟨rfl, a, t, rfl, rfl⟩

end Startup

/-- A page with one key, and a copy of it that three other keys have filled up. -/
def overfull : Store Ram where
  device := {
    geometry := ⟨4, 2⟩
    words := #[0x00000001, 0x00050001, 0xFFFFFFFF, 0xFFFFFFFF,
      0xAAFFFFFF, 0x00060001, 0x00070001, 0x00080001]
    wear := #[0, 0]
    mutations := 0
    power := .steady
    size_words := rfl
    size_wear := rfl }
  config := { ringPages := 2 }
  ring := small.ring
  roles := none

/-- Startup fails, and yet the store is ready and answers from the page that was not copied. -/
theorem closed_of_failed_init_overfull :
    attach overfull.device overfull.config = .ok overfull ∧
      init overfull = .error (.storeFull 4 3) (left init overfull) ∧
      ¬(left init overfull).IsClosed ∧ (left init overfull).isReady = true ∧
      answer (read 5) (left init overfull) = .ok (some 1) := by
  have hrun : init overfull = .error (.storeFull 4 3) (left init overfull) :=
    run_of_answer_error (by decide +kernel)
  have hfull : ¬NotFull (.storeFull 4 3) := fun h => h 4 3 rfl
  have h := closed_of_failed_init Ram.failsAsDevice hrun
  exact ⟨rfl, hrun, fun hclosed => hfull (h.1.mp hclosed), (h.2 hfull).1, by decide +kernel⟩

end Store

end FlashRing
