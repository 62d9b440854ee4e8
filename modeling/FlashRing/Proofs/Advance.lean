import FlashRing.Proofs.Service
import FlashRing.Proofs.Step

/-!
Stores whose flash is in a valid layout, whatever they know of it. Main statements: every request
but a format takes such a store along a path of steps, for every power supply, and one that the
device fails leaves it without any page in use.
-/

namespace FlashRing.Store

/-- The page in use is known, or none is. -/
def Knows (layout : Layout) (roles : Option Roles) : Prop :=
  roles = none ∨
    ∃ active count used, layout = .settled active count used ∧ roles = some ⟨active, none⟩

/-- The flash is in the layout. -/
structure At (store : Store Ram) (layout : Layout) : Prop where
  attached : store.Attached
  valid : layout.Valid store.ring
  flash : store.flash = layout.flash store.ring
  known : Knows layout store.roles

variable {α β : Type} {store : Store Ram} {layout last : Layout} {changes : List Change}
  {roles : Option Roles}

theorem Settled.at {active count : Nat} {used : SlotLog} (h : store.Settled active count used) :
    store.At (.settled active count used) :=
  ⟨h.attached, h.valid, h.flash, Or.inr ⟨active, count, used, rfl, h.roles⟩⟩

theorem At.powered (h : store.At layout) (power : Power) : (store.powered power).At layout :=
  ⟨h.attached, h.valid, h.flash, h.known⟩

theorem At.settled (h : store.At layout) (hr : store.roles ≠ none) :
    ∃ active count used, layout = .settled active count used ∧
      store.Settled active count used := by
  rcases h.known with hnone | ⟨active, count, used, rfl, hroles⟩
  · exact absurd hnone hr
  · exact ⟨active, count, used, rfl, h.attached, h.valid, h.flash, hroles⟩

theorem At.after (h : store.At layout)
    (hpath : Layout.Path (Layout.Step store.ring) layout changes last) (hk : Knows last roles) :
    (store.after changes roles).At last := by
  obtain ⟨hin, hend, hvalid⟩ := hpath.sound h.valid
  have hflash := flash_after h.attached.fits hin roles
  rw [h.flash, hend] at hflash
  exact ⟨h.attached.after changes roles store.device.power, hvalid, hflash, hk⟩

/-- A startup and a restart end in the layout that the flash is to be resolved to. -/
theorem At.starts (h : store.At layout) {start : StoreM Ram Unit}
    (hs : start = Store.init ∨ start = Store.restart) :
    ∃ changes active count used, layout.resolved store.ring = .settled active count used ∧
      Performs start store changes (.ok ()) (some ⟨active, none⟩) ∧
      Layout.Path (Layout.Resuming store.ring) layout changes (.settled active count used) := by
  rcases hs with rfl | rfl
  · exact Performs.init_layout h.attached.fits h.valid h.flash
  · have hfresh : At { store with roles := none } layout :=
      ⟨h.attached, h.valid, h.flash, Or.inl rfl⟩
    obtain ⟨changes, active, count, used, hend, hrun, hpath⟩ :=
      Performs.init_layout hfresh.attached.fits hfresh.valid hfresh.flash
    refine ⟨changes, active, count, used, hend, fun power => ?_, hpath⟩
    rw [(h.powered power).attached.restart]
    exact hrun power

/-- For every power supply the operation takes the store along a path. A store that knows its page
still does so at the end. -/
def Advances (R : PageRing → Layout → Change → Layout → Prop) (operation : StoreM Ram α) : Prop :=
  ∀ store layout, store.At layout → ∃ changes out roles last,
    Performs operation store changes out roles ∧
      Layout.Path (R store.ring) layout changes last ∧ Knows last roles ∧
      (store.roles ≠ none → roles ≠ none)

namespace Advances

theorem steps {operation : StoreM Ram α} (h : Advances Layout.Resuming operation) :
    Advances Layout.Step operation := by
  intro store layout hat
  obtain ⟨changes, out, roles, last, hrun, hpath, hrest⟩ := h store layout hat
  exact ⟨changes, out, roles, last, hrun, hpath.mono fun _ _ _ => .resume, hrest⟩

theorem map {R : PageRing → Layout → Change → Layout → Prop} {x : StoreM Ram α}
    (h : Advances R x) (g : α → β) : Advances R (do return g (← x)) := by
  intro store layout hat
  obtain ⟨changes, out, roles, last, hrun, hrest⟩ := h store layout hat
  exact ⟨changes, out.map g, roles, last, hrun.map g, hrest⟩

theorem of_still {operation : StoreM Ram α}
    (h : ∀ store layout, store.At layout → ∃ out, Performs operation store [] out store.roles) :
    Advances Layout.Step operation := by
  intro store layout hat
  obtain ⟨out, hrun⟩ := h store layout hat
  exact ⟨[], out, store.roles, layout, hrun, .nil layout, hat.known, id⟩

theorem pure (a : α) : Advances Layout.Step (Pure.pure a : StoreM Ram α) :=
  of_still fun store _ _ => ⟨_, Performs.pure store a⟩

theorem throw (e : Error) : Advances Layout.Step (MonadExcept.throw e : StoreM Ram α) :=
  of_still fun store _ _ => ⟨_, Performs.throw store e⟩

theorem bind {x : StoreM Ram α} {f : α → StoreM Ram β} (hx : Advances Layout.Step x)
    (hf : ∀ a, Advances Layout.Step (f a)) : Advances Layout.Step (x >>= f) := by
  intro store layout hat
  obtain ⟨first, out, middle, second, hrun, hpath, hknown, hready⟩ := hx store layout hat
  cases out with
  | error e => exact ⟨first, .error e, middle, second, hrun.bind_error, hpath, hknown, hready⟩
  | ok a =>
    obtain ⟨more, out, roles, last, hmore, hrest, hlast, hkept⟩ :=
      hf a _ second (hat.after hpath hknown)
    exact ⟨first ++ more, out, roles, last, hrun.bind hmore, hpath.append hrest, hlast,
      fun hr => hkept (hready hr)⟩

/-- An operation that needs the page in use. -/
theorem of_serving {operation : StoreM Ram α}
    (hnone : ∀ store : Store Ram, store.roles = none →
      operation store = .error .notInitialized store)
    (h : ∀ store active count used, store.Settled active count used → ∃ changes out roles last,
      Performs operation store changes out roles ∧
        Layout.Path (Layout.Step store.ring) (.settled active count used) changes last ∧
        Knows last roles ∧ roles ≠ none) :
    Advances Layout.Step operation := by
  intro store layout hat
  by_cases hr : store.roles = none
  · have hstill : Performs operation store [] (.error .notInitialized) none :=
      Performs.of_nothing fun power => hr ▸ hnone (store.powered power) hr
    exact ⟨[], _, none, layout, hstill, .nil layout, Or.inl rfl, fun hno => absurd hr hno⟩
  · obtain ⟨active, count, used, rfl, hs⟩ := hat.settled hr
    obtain ⟨changes, out, roles, last, hrun, hpath, hknown, hready⟩ := h store _ _ _ hs
    exact ⟨changes, out, roles, last, hrun, hpath, hknown, fun _ => hready⟩

theorem still {operation : StoreM Ram α} {active count : Nat} {used : SlotLog}
    {out : Except Error α} (hs : store.Settled active count used)
    (hrun : Performs operation store [] out store.roles) :
    ∃ changes out roles last, Performs operation store changes out roles ∧
      Layout.Path (Layout.Step store.ring) (.settled active count used) changes last ∧
      Knows last roles ∧ roles ≠ none := by
  refine ⟨[], out, store.roles, _, hrun, .nil _, hs.at.known, ?_⟩
  rw [hs.roles]
  simp

theorem readyRoles : Advances Layout.Step Store.readyRoles := by
  refine of_serving (fun store h => ?_) fun store active count used hs =>
    still hs (Performs.readyRoles hs.roles)
  obtain ⟨device, config, ring, roles⟩ := store
  subst h
  rfl

theorem read (key : UInt16) : Advances Layout.Step (Store.read key) := by
  refine of_serving (fun store h => fenced_activePage h _) fun store active count used hs => ?_
  cases hk : isCallerKey key with
  | false => exact still hs (hs.invalidKey hk _)
  | true => exact still hs (hs.read hk)

theorem write (key payload : UInt16) : Advances Layout.Step (Store.write key payload) := by
  refine of_serving (fun store h => fenced_activePage h _) fun store active count used hs => ?_
  cases hk : isCallerKey key with
  | false => exact still hs (hs.invalidKey hk _)
  | true =>
    have hlive : (Slot.mk key payload).isLive = true := hk
    by_cases hsame : used.contents key = some payload
    · exact still hs (hs.write_present hk hsame)
    rcases Nat.lt_or_ge used.length store.ring.capacity with hroom | hge
    · exact ⟨_, _, _, _, hs.write_appended hk hsame hroom,
        .cons (.append active count used _ hlive hroom) (.nil _),
        Or.inr ⟨_, _, _, rfl, hs.roles⟩, by simp [hs.roles]⟩
    · have hfull : used.length = store.ring.capacity := Nat.le_antisymm hs.valid.2.2.2.1 hge
      rcases Nat.lt_or_ge store.ring.capacity
        (SlotLog.survivors (used ++ [⟨key, payload⟩])).length with hover | hl
      · exact still hs (hs.write_refused hk hsame hfull hover)
      · exact ⟨_, _, _, _, hs.write_rotated hk hsame hfull hl,
          Layout.path_carrying active count hlive hl, Or.inr ⟨_, _, _, rfl, rfl⟩, by simp⟩

theorem delete (key : UInt16) : Advances Layout.Step (Store.delete key) := by
  refine of_serving (fun store h => fenced_activePage h _) fun store active count used hs => ?_
  cases hk : isCallerKey key with
  | false => exact still hs (hs.invalidKey hk _)
  | true =>
    obtain ⟨left, hpath⟩ := hs.path_delete hk
    exact ⟨_, _, _, _, hs.delete hk, hpath, Or.inr ⟨_, _, _, rfl, hs.roles⟩, by simp [hs.roles]⟩

theorem entries : Advances Layout.Step Store.entries :=
  of_serving (fun _ h => fenced_activePage h _) fun _ _ _ _ hs => still hs hs.entries

theorem eraseCounter : Advances Layout.Step Store.eraseCounter :=
  of_serving (fun _ h => fenced_activePage h _) fun _ _ _ _ hs =>
    still hs (Performs.eraseCounter hs.attached.fits hs.roles hs.valid.1)

theorem inspect : Advances Layout.Step Store.inspect :=
  of_still fun _ _ hat => ⟨_, Performs.inspect hat.attached.fits⟩

theorem compact : Advances Layout.Step Store.compact :=
  of_serving (fun _ h => compact_unready h) fun store active count used hs =>
    ⟨_, _, _, _, hs.compact, Layout.path_rotation store.ring active count used,
      Or.inr ⟨_, _, _, rfl, rfl⟩, by simp⟩

theorem of_starts {start : StoreM Ram Unit} (hs : start = Store.init ∨ start = Store.restart) :
    Advances Layout.Resuming start := by
  intro store layout hat
  obtain ⟨changes, active, count, used, -, hrun, hpath⟩ := hat.starts hs
  exact ⟨changes, _, _, _, hrun, hpath, Or.inr ⟨_, _, _, rfl, rfl⟩, by simp⟩

theorem init : Advances Layout.Resuming Store.init :=
  of_starts (Or.inl rfl)

theorem restart : Advances Layout.Resuming Store.restart :=
  of_starts (Or.inr rfl)

theorem composable : Composable (Advances Layout.Step ·) where
  pure := pure
  throw _ := throw _
  bind := bind
  readyRoles := readyRoles
  read := read
  write := write
  delete := delete

/-- Every request but a format takes a store along a path of steps. -/
theorem request {request : Request} (h : request ≠ .format) :
    Advances Layout.Step (request.run : StoreM Ram Reply) :=
  composable.request (fun _ => init.steps) compact eraseCounter entries inspect
    fun he => absurd he h

end Advances

/-- An operation that the device fails leaves no page in use. -/
def Forgets (operation : StoreM Ram α) : Prop :=
  ∀ store e after, operation store = .error e after → e.isDeviceFailure = true →
    after.roles = none

namespace Forgets

theorem fenced (operation : StoreM Ram α) : Forgets (Store.fenced operation) :=
  fun _ _ _ h he => roles_of_fenced_failure h he

theorem bind {x : StoreM Ram α} {f : α → StoreM Ram β} (hx : Forgets x)
    (hf : ∀ a, Forgets (f a)) : Forgets (x >>= f) := by
  intro store e after h he
  cases hrun : x store with
  | ok a middle =>
    rw [run_bind hrun] at h
    exact hf a middle e after h he
  | error fault middle =>
    rw [run_bind_error hrun] at h
    cases h
    exact hx store e after hrun he

theorem composable : Composable @Forgets where
  pure _ _ _ _ h _ := by cases h
  throw hno _ _ _ h he := by
    cases h
    rw [hno] at he
    cases he
  bind := bind
  readyRoles := by
    rintro ⟨device, config, ring, roles⟩ e after h he
    cases roles with
    | none =>
      cases h
      rfl
    | some roles => cases h
  read _ := fenced _
  write _ _ := fenced _
  delete _ := fenced _

theorem request (request : Request) : Forgets (request.run : StoreM Ram Reply) :=
  composable.request (fun _ => fenced _) (fenced _) (fenced _) (fenced _) (fenced _)
    fun _ => fenced _

theorem isDeviceFailure_of_layout {geometry : Geometry} {config : Config} {e : Error}
    (h : PageRing.layout geometry config = .error e) : e.isDeviceFailure = false := by
  unfold PageRing.layout at h
  dsimp only at h
  split at h
  next => exact Except.error.inj h ▸ rfl
  next =>
    split at h
    next => exact Except.error.inj h ▸ rfl
    next =>
      split at h
      next => exact Except.error.inj h ▸ rfl
      next => cases h

theorem restart : Forgets Store.restart := by
  intro store e after h he
  rw [Store.restart] at h
  cases hattach : attach store.device store.config with
  | ok fresh =>
    rw [hattach] at h
    exact fenced _ fresh e after h he
  | error fault =>
    rw [hattach] at h
    cases h
    rw [attach] at hattach
    cases hring : PageRing.layout (Device.geometry store.device) store.config with
    | ok ring =>
      rw [hring] at hattach
      cases hattach
    | error fault =>
      rw [hring] at hattach
      cases hattach
      rw [isDeviceFailure_of_layout hring] at he
      cases he

end Forgets

end FlashRing.Store
