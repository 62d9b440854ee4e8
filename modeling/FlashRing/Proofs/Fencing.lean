import FlashRing.Proofs.ArrayWriting
import FlashRing.Proofs.History
import FlashRing.Proofs.PageReading
import FlashRing.Proofs.Session

/-!
Failures of the device, and the fence against what may follow. Main statement: wherever in a request
the device fails, the store refuses everything afterwards and touches nothing until it is started
again, and no other failure makes a ready store unready.
-/

namespace FlashRing

namespace Request

/-- Makes a store ready, whatever it was before. -/
def isStartup : Request → Bool
  | .init => true
  | .format => true
  | _ => false

/-- What a store that is not ready answers. The length and the keys of an array with a length prefix
are looked at first. -/
def refusal : Request → Error
  | .writeArray key bytes =>
    if bytes.length = 0 ∨ 255 < bytes.length then .invalidLength bytes.length
    else if RunFits key bytes.length then .notInitialized
    else .invalidKey key
  | _ => .notInitialized

end Request

/-- Makes a store ready, or puts a ready one in its place. -/
def Action.isStartup : Action → Bool
  | .call request => request.isStartup
  | .restart => true
  | .failAfter _ => false
  | .restorePower => false

/-- The words are the same, and nothing was programmed or erased in between. -/
structure Ram.Unchanged (before after : Ram) : Prop where
  words : after.words = before.words
  wear : after.wear = before.wear
  mutations : after.mutations = before.mutations

namespace Store

/-- Nothing is answered and nothing is touched until the store is started again, whatever else is
tried and whether or not the power is back. -/
structure IsFenced (store : Store Ram) : Prop where
  isReady : store.isReady = false
  active? : store.active? = none
  receiving? : store.receiving? = none
  refuses : ∀ actions : List Action, (∀ action ∈ actions, action.isStartup = false) →
    ∀ request : Request, request.isStartup = false → request ≠ .inspect →
      answer request.run (store.afterActions actions) = .error request.refusal ∧
        store.device.Unchanged (left request.run (store.afterActions actions)).device

variable {α β : Type}

section Closed

variable {δ : Type} {store : Store δ}

theorem readyRoles_closed (h : store.roles = none) :
    readyRoles store = .error .notInitialized store := by
  obtain ⟨device, config, ring, roles⟩ := store
  subst h
  rfl

theorem run_map_error {x : StoreM δ α} {e : Error} {after : Store δ}
    (h : x store = .error e after) (g : α → β) :
    (do return g (← x) : StoreM δ β) store = .error e after := by
  rw [run_map, h]

/-- The keys of an array are looked at before the store is. -/
theorem checkRange_closed {key : UInt16} {length : Nat} (hpos : 0 < length)
    (f : Unit → StoreM δ α) (h : ∀ u, f u store = .error .notInitialized store) :
    (checkRange key length >>= f) store =
      .error (if RunFits key length then .notInitialized else .invalidKey key) store := by
  rw [checkRange_eq key hpos]
  split
  next => exact h ()
  next => rfl

theorem left_fenced_closed (h : store.roles = none) {operation : StoreM δ α}
    (hstill : left operation store = store) : left (fenced operation) store = store := by
  unfold left fenced at *
  cases hrun : operation store with
  | ok a after =>
    rw [hrun] at hstill
    exact hstill
  | error e after =>
    rw [hrun] at hstill
    obtain rfl : after = store := hstill
    obtain ⟨device, config, ring, roles⟩ := after
    subst h
    cases he : e.isDeviceFailure with
    | false => simp [he]
    | true => simp [he]

variable [Device δ]

theorem read_closed (h : store.roles = none) (key : UInt16) :
    read key store = .error .notInitialized store :=
  fenced_activePage h _

theorem writeArray_closed (h : store.roles = none) (key : UInt16) (bytes : List UInt8) :
    writeArray key bytes store = .error (Request.writeArray key bytes).refusal store := by
  rw [writeArray, Request.refusal]
  split
  next => rfl
  next hvalid =>
    exact checkRange_closed (by omega) _ fun _ => run_bind_error (read_closed h key) _

theorem request_closed (h : store.roles = none) {request : Request}
    (hs : request.isStartup = false) (hi : request ≠ .inspect) :
    request.run store = .error request.refusal store := by
  have hoperation : ∀ operation : Operation, operation.isStartup = false →
      operation.run store = .error .notInitialized store := fun _ => run_unready h
  cases request with
  | init => cases hs
  | format => cases hs
  | inspect => exact absurd rfl hi
  | compact => exact hoperation .compact rfl
  | read key => exact hoperation (.read key) rfl
  | write key payload => exact hoperation (.write key payload) rfl
  | delete key => exact hoperation (.delete key) rfl
  | entries => exact hoperation .entries rfl
  | eraseCounter => exact run_map_error (fenced_activePage h _) _
  | readArray key => exact run_map_error (run_bind_error (read_closed h key) _) _
  | readArrayOfLength key count =>
    exact run_map_error (run_bind_error (readyRoles_closed h) _) _
  | writeArray key bytes => exact run_map_error (writeArray_closed h key bytes) _
  | writeArrayOfLength key bytes =>
    exact run_map_error (run_bind_error (readyRoles_closed h) _) _
  | deleteArray key => exact run_map_error (run_bind_error (read_closed h key) _) _
  | add key amount => exact run_bind_error (read_closed h key) _

/-- A report may fail, but it changes nothing of a store that is not ready. -/
theorem left_inspect (h : store.roles = none) : left Request.inspect.run store = store := by
  have hread := left_observe (fun device : δ => store.ring.pages.mapM fun page => do
    return PageReport.ofWords page (← page.contents device)) store
  refine (left_map _ _ store).trans (left_fenced_closed h ?_)
  exact hread

end Closed

section Fenced

variable {store : Store Ram} {action : Action} {actions : List Action}

/-- Nothing but a startup wakes the store up. -/
theorem next_closed (h : store.roles = none) (hs : action.isStartup = false) :
    (action.next store).roles = none ∧ store.device.Unchanged (action.next store).device := by
  cases action with
  | call request =>
    by_cases hi : request = .inspect
    · subst hi
      rw [Action.next, left_inspect h]
      exact ⟨h, rfl, rfl, rfl⟩
    · rw [Action.next, left, request_closed h hs hi]
      exact ⟨h, rfl, rfl, rfl⟩
  | restart => cases hs
  | failAfter count => exact ⟨h, rfl, rfl, rfl⟩
  | restorePower => exact ⟨h, rfl, rfl, rfl⟩

theorem afterActions_closed (h : store.roles = none)
    (hs : ∀ action ∈ actions, action.isStartup = false) :
    (store.afterActions actions).roles = none ∧
      store.device.Unchanged (store.afterActions actions).device := by
  induction actions generalizing store with
  | nil => exact ⟨h, rfl, rfl, rfl⟩
  | cons action rest ih =>
    obtain ⟨hnext, hwords, hwear, hmutations⟩ := next_closed h (hs action (by simp))
    obtain ⟨hlast, hsame⟩ := ih hnext fun other ho => hs other (List.mem_cons_of_mem action ho)
    exact ⟨hlast, hsame.words.trans hwords, hsame.wear.trans hwear,
      hsame.mutations.trans hmutations⟩

theorem isFenced_of_closed (h : store.roles = none) : store.IsFenced where
  isReady := by
    rw [isReady, h]
    rfl
  active? := by
    rw [active?, h]
    rfl
  receiving? := by
    rw [receiving?, h]
    rfl
  refuses actions hs request hstart hi := by
    obtain ⟨hlast, hsame⟩ := afterActions_closed h hs
    have hrun := request_closed hlast hstart hi
    rw [answer, left, hrun]
    exact ⟨rfl, hsame⟩

end Fenced

/-- The failures that flash in memory reports. -/
def RamFailure (e : Error) : Prop :=
  ∃ fault, e = .blockDevice fault

theorem ramFailure_of_read {ram : Ram} {address : Nat} {e : Error}
    (h : Device.read ram address = .error e) : RamFailure e := by
  change ram.read address = .error e at h
  unfold Ram.read at h
  split at h
  next => cases h
  next => exact ⟨_, (Except.error.inj h).symm⟩

/-- A store that was ready is ready afterwards, unless the device failed. -/
structure KeepsReady (operation : StoreM Ram α) : Prop where
  done : ∀ {store after : Store Ram} {a : α}, operation store = .ok a after →
    store.isReady = true → after.isReady = true
  failed : ∀ {store after : Store Ram} {e : Error}, operation store = .error e after →
    RamFailure e ∨
      e.isDeviceFailure = false ∧ (store.isReady = true → after.isReady = true)

namespace KeepsReady

theorem pure (a : α) : KeepsReady (Pure.pure a : StoreM Ram α) where
  done h hr := by cases h; exact hr
  failed h := by cases h

theorem throw {e : Error} (he : e.isDeviceFailure = false) :
    KeepsReady (MonadExcept.throw e : StoreM Ram α) where
  done h := by cases h
  failed h := by cases h; exact Or.inr ⟨he, id⟩

theorem bind {x : StoreM Ram α} {f : α → StoreM Ram β} (hx : KeepsReady x)
    (hf : ∀ a, KeepsReady (f a)) : KeepsReady (x >>= f) where
  done {store after b} h hr := by
    cases hrun : x store with
    | ok a middle =>
      rw [run_bind hrun] at h
      exact (hf a).done h (hx.done hrun hr)
    | error e middle =>
      rw [run_bind_error hrun] at h
      cases h
  failed {store after e} h := by
    cases hrun : x store with
    | ok a middle =>
      rw [run_bind hrun] at h
      exact ((hf a).failed h).imp id fun ⟨he, hkept⟩ => ⟨he, fun hr => hkept (hx.done hrun hr)⟩
    | error fault middle =>
      rw [run_bind_error hrun] at h
      cases h
      exact hx.failed hrun

theorem get_bind {f : Store Ram → StoreM Ram β} (hf : ∀ store, KeepsReady (f store)) :
    KeepsReady (get >>= f) where
  done {store _ _} h := (hf store).done h
  failed {store _ _} h := (hf store).failed h

theorem ite {p : Prop} [Decidable p] {x y : StoreM Ram α} (hx : KeepsReady x)
    (hy : KeepsReady y) : KeepsReady (if p then x else y) := by
  split
  · exact hx
  · exact hy

theorem forM {f : α → StoreM Ram PUnit} (hf : ∀ a, KeepsReady (f a)) (list : List α) :
    KeepsReady (list.forM f) := by
  induction list with
  | nil => exact pure ()
  | cons a rest ih => exact bind (hf a) fun _ => ih

theorem fenced {x : StoreM Ram α} (hx : KeepsReady x) : KeepsReady (Store.fenced x) where
  done {store after a} h := by
    unfold Store.fenced at h
    split at h
    next hrun => cases h; exact hx.done hrun
    next => cases h
  failed {store after e} h := by
    unfold Store.fenced at h
    split at h
    next => cases h
    next hrun =>
      cases h
      rcases hx.failed hrun with hram | ⟨he, hkept⟩
      · exact Or.inl hram
      · refine Or.inr ⟨he, ?_⟩
        rw [he]
        exact hkept

theorem observe {reading : Ram → Except Error α} (h : Reads reading) :
    KeepsReady (Store.observe reading) where
  done {store after a} hrun := by
    unfold Store.observe at hrun
    split at hrun
    next => cases hrun; exact id
    next => cases hrun
  failed {store after e} hrun := by
    unfold Store.observe at hrun
    split at hrun
    next => cases hrun
    next hread => cases hrun; exact Or.inl (h.allowed ramFailure_of_read hread)

theorem alter {change : EStateM Error Ram α}
    (h : ∀ {ram after : Ram} {e : Error}, change ram = .error e after → RamFailure e) :
    KeepsReady (Store.alter change) where
  done {store after a} hrun := by
    unfold Store.alter at hrun
    split at hrun
    next => cases hrun; exact id
    next => cases hrun
  failed {store after e} hrun := by
    unfold Store.alter at hrun
    split at hrun
    next => cases hrun
    next hfail => cases hrun; exact Or.inl (h hfail)

theorem program (address : Nat) (word : UInt32) : KeepsReady (Store.program address word) := by
  refine alter fun {ram after e} h => ?_
  change Ram.program address [word] ram = .error e after at h
  unfold Ram.program at h
  split at h
  next => cases h; exact ⟨_, rfl⟩
  next =>
    split at h
    next => cases h; exact ⟨_, rfl⟩
    next => cases h

theorem erase (page : Page) : KeepsReady (Store.erase page) := by
  refine alter fun {ram after e} h => ?_
  change Ram.erase page.devicePage ram = .error e after at h
  unfold Ram.erase at h
  split at h
  next => cases h; exact ⟨_, rfl⟩
  next =>
    split at h
    next => cases h; exact ⟨_, rfl⟩
    next => cases h

theorem setRoles (roles : Roles) : KeepsReady (Store.setRoles (some roles)) where
  done h := by cases h; exact fun _ => rfl
  failed h := by cases h

theorem readyRoles : KeepsReady (Store.readyRoles : StoreM Ram Roles) := by
  refine get_bind fun store => ?_
  cases store.roles with
  | none => exact throw rfl
  | some roles => exact pure roles

theorem activePage : KeepsReady (Store.activePage : StoreM Ram Page) :=
  bind readyRoles fun _ => get_bind fun _ => pure _

theorem checkKey (key : UInt16) : KeepsReady (Store.checkKey key : StoreM Ram Unit) :=
  ite (pure ()) (throw rfl)

theorem clean (page : Page) : KeepsReady (Store.clean page : StoreM Ram Unit) := by
  refine bind (observe (.isErased page)) fun erased => ?_
  cases erased with
  | true => exact pure ()
  | false => exact erase page

theorem append (page : Page) (slot : Slot) :
    KeepsReady (Store.append page slot : StoreM Ram Bool) := by
  refine bind (observe (.firstFree? page)) fun place => ?_
  cases place with
  | none => exact pure false
  | some address => exact bind (program address slot.encode) fun _ => pure true

theorem appendOrFail (page : Page) (slot : Slot) :
    KeepsReady (Store.appendOrFail page slot : StoreM Ram Unit) := by
  refine bind (append page slot) fun done => ?_
  cases done with
  | true => exact pure ()
  | false => exact throw rfl

theorem copy (page : Page) (slot : Slot) : KeepsReady (Store.copy page slot : StoreM Ram Unit) := by
  refine ite (bind (observe (.holds page slot.key)) fun found => ?_) (pure ())
  cases found with
  | true => exact pure ()
  | false => exact appendOrFail page slot

theorem transfer (source target : Page) (carried : Option Slot) (log : SlotLog) :
    KeepsReady (Store.transfer source target carried log : StoreM Ram Unit) :=
  bind (program _ _) fun _ => bind (forM (appendOrFail target) _) fun _ =>
    bind (forM (copy target) _) fun _ => bind (observe (.header source)) fun _ =>
    bind (program _ _) fun _ => bind (erase source) fun _ => bind (program _ _) fun _ =>
    setRoles _

theorem rotate (carried : Option Slot) : KeepsReady (Store.rotate carried : StoreM Ram Unit) := by
  refine bind readyRoles fun roles => get_bind fun store => bind (observe (.log _)) fun log => ?_
  have hlast : KeepsReady (do
      if roles.receiving.isNone then
        Store.clean (store.ring.page (roles.receiving.getD (store.ring.next roles.active)))
        Store.setRoles (some { roles with
          receiving := some (roles.receiving.getD (store.ring.next roles.active)) })
      Store.transfer (store.ring.page roles.active)
        (store.ring.page (roles.receiving.getD (store.ring.next roles.active))) carried log :
        StoreM Ram Unit) :=
    ite (bind (clean _) fun _ => bind (setRoles _) fun _ => transfer _ _ _ _) (transfer _ _ _ _)
  exact ite (bind (throw rfl) fun _ => hlast) hlast

theorem compact : KeepsReady (Store.compact : StoreM Ram Unit) :=
  fenced (rotate none)

theorem read (key : UInt16) : KeepsReady (Store.read key : StoreM Ram (Option UInt16)) :=
  fenced (bind activePage fun page => bind (checkKey key) fun _ =>
    bind (observe (.log page)) fun _ => pure _)

theorem write (key payload : UInt16) : KeepsReady (Store.write key payload : StoreM Ram Unit) := by
  refine fenced (bind activePage fun page => bind (checkKey key) fun _ =>
    bind (observe (.log page)) fun log => ite (pure ()) (bind (append page _) fun done => ?_))
  cases done with
  | true => exact pure ()
  | false => exact rotate _

theorem delete (key : UInt16) : KeepsReady (Store.delete key : StoreM Ram Bool) :=
  fenced (bind activePage fun page => bind (checkKey key) fun _ =>
    bind (observe (.log page)) fun _ => bind (forM (fun _ => program _ _) _) fun _ => pure _)

theorem entries : KeepsReady (Store.entries : StoreM Ram (List (UInt16 × UInt16))) :=
  fenced (bind activePage fun page => bind (observe (.log page)) fun _ => pure _)

theorem eraseCounter : KeepsReady (Store.eraseCounter : StoreM Ram Nat) :=
  fenced (bind activePage fun page => bind (observe (.header page)) fun _ => pure _)

theorem inspect : KeepsReady (Store.inspect : StoreM Ram (List PageReport)) :=
  fenced (get_bind fun _ => observe (.reports _))

theorem composable : Composable @KeepsReady where
  pure := pure
  throw := throw
  bind := bind
  readyRoles := readyRoles
  read := read
  write := write
  delete := delete

/-- However far a request gets, only the device can make a ready store unready. -/
theorem request {request : Request} (hs : request.isStartup = false) :
    KeepsReady (request.run : StoreM Ram Reply) := by
  have hno : ∀ {startup : Request}, startup.isStartup = true → request ≠ startup := by
    rintro startup hyes rfl
    rw [hs] at hyes
    cases hyes
  exact composable.request (fun he => absurd he (hno rfl)) compact eraseCounter entries inspect
    fun he => absurd he (hno rfl)

end KeepsReady

/-- A request that the device fails leaves a fenced store. After any other failure the store is as
ready as it was, unless it was to be started. -/
theorem fenced_of_request (store : Store Ram) (request : Request) :
    (∀ fault, answer request.run store = .error (.blockDevice fault) →
      (left request.run store).IsFenced) ∧
    (request.isStartup = false → ∀ e, answer request.run store = .error e →
      (∀ fault, e ≠ .blockDevice fault) →
        (left request.run store).isReady = store.isReady) := by
  constructor
  · intro fault h
    exact isFenced_of_closed (Forgets.request request _ _ _ (run_of_answer_error h) rfl)
  · intro hs e h hother
    have hrun := run_of_answer_error h
    cases hr : store.isReady with
    | true =>
      rcases (KeepsReady.request hs).failed hrun with ⟨fault, he⟩ | ⟨-, hkept⟩
      · exact absurd he (hother fault)
      · exact hkept hr
    | false =>
      -- Without a startup in between, a store that was not ready cannot have become so.
      have hclosed : store.roles = none := by simpa [isReady] using hr
      have hcall : (Action.call request).isStartup = false := hs
      have hnone : (left request.run store).roles = none :=
        (next_closed hclosed hcall).1
      rw [isReady, hnone]
      rfl

/-- A full page, and power for no more than three changes. -/
def torn : Store Ram where
  device := {
    geometry := ⟨4, 2⟩
    words := #[0x00000001, 0x0001000A, 0x0001000B, 0x00020014,
      0xFFFFFFFF, 0xFFFFFFFF, 0xFFFFFFFF, 0xFFFFFFFF]
    wear := #[1, 0]
    mutations := 6
    power := .budget 3
    size_words := rfl
    size_wear := rfl }
  config := { ringPages := 2 }
  ring := small.ring
  roles := some ⟨0, none⟩

/-- The first byte of an array makes the store rotate, and the power goes while slots are copied.
With more power the rotation succeeds, and the second byte finds no room. -/
theorem fenced_of_request_torn :
    answer (Request.writeArray 5 [7, 8]).run torn = .error (.blockDevice (.powerCut .program)) ∧
      (left (Request.writeArray 5 [7, 8]).run torn).IsFenced ∧
      answer (Request.writeArray 5 [7, 8]).run (torn.powered .steady) =
        .error (.storeFull 4 3) ∧
      (left (Request.writeArray 5 [7, 8]).run (torn.powered .steady)).isReady = true := by
  have hcut : answer (Request.writeArray 5 [7, 8]).run torn =
      .error (.blockDevice (.powerCut .program)) := by decide +kernel
  have hfull : answer (Request.writeArray 5 [7, 8]).run (torn.powered .steady) =
      .error (.storeFull 4 3) := by decide +kernel
  exact ⟨hcut, (fenced_of_request torn _).1 _ hcut, hfull,
    (fenced_of_request (torn.powered .steady) _).2 rfl _ hfull fun _ h => by cases h⟩

end Store

end FlashRing
