import FlashRing.Proofs.Deletion
import FlashRing.Proofs.Recovery
import FlashRing.Store.Request

/-!
The operations on single payloads as steps of a bounded map. Main statement: on a store that serves
contents every operation answers what the map answers, and leaves the contents that the map leaves.
-/

namespace FlashRing

namespace Store

section Results

variable {δ α β : Type}

/-- What an operation answers. -/
def answer (operation : StoreM δ α) (store : Store δ) : Except Error α :=
  match operation store with
  | .ok a _ => .ok a
  | .error e _ => .error e

/-- The store that an operation leaves. -/
def left (operation : StoreM δ α) (store : Store δ) : Store δ :=
  match operation store with
  | .ok _ after => after
  | .error _ after => after

/-- A new store on the device takes the place of this one and is made ready. -/
def restart [Device δ] : StoreM δ Unit := fun store =>
  match attach store.device store.config with
  | .ok fresh => init fresh
  | .error e => .error e store

end Results

end Store

/-- The operations on single payloads, and the start of a new store on the same device. -/
inductive Operation where
  | init
  | restart
  | compact
  | read (key : UInt16)
  | write (key payload : UInt16)
  | delete (key : UInt16)
  | entries
deriving DecidableEq

/-- Carries an operation out. -/
def Operation.run {δ : Type} [Device δ] : Operation → StoreM δ Reply
  | .init => Request.init.run
  | .restart => do Store.restart; return .done
  | .compact => Request.compact.run
  | .read key => (Request.read key).run
  | .write key payload => (Request.write key payload).run
  | .delete key => (Request.delete key).run
  | .entries => Request.entries.run

/-- Makes a store ready with what its flash holds. -/
def Operation.isStartup : Operation → Bool
  | .init => true
  | .restart => true
  | _ => false

namespace Contents

/-- A key that is not there finds no room. -/
def Refuses (capacity : Nat) (contents : Contents) (key : UInt16) : Prop :=
  contents key = none ∧ contents.size = capacity

instance (capacity : Nat) (contents : Contents) (key : UInt16) :
    Decidable (contents.Refuses capacity key) :=
  inferInstanceAs (Decidable (_ ∧ _))

/-- What a map with room for so many keys answers. -/
def reply (capacity : Nat) (contents : Contents) : Operation → Except Error Reply
  | .init => .ok .done
  | .restart => .ok .done
  | .compact => .ok .done
  | .read key =>
    if isCallerKey key then .ok (.payload (contents key)) else .error (.invalidKey key)
  | .write key _ =>
    if isCallerKey key then
      if contents.Refuses capacity key then .error (.storeFull (capacity + 1) capacity)
      else .ok .done
    else .error (.invalidKey key)
  | .delete key =>
    if isCallerKey key then .ok (.existed (contents key).isSome) else .error (.invalidKey key)
  | .entries => .ok (.entries contents.listing)

/-- What the map holds afterwards. -/
def next (capacity : Nat) (contents : Contents) : Operation → Contents
  | .write key payload =>
    if isCallerKey key ∧ ¬contents.Refuses capacity key then contents.set key payload else contents
  | .delete key => if isCallerKey key then contents.erase key else contents
  | _ => contents

end Contents

namespace Store

variable {α β : Type} {store : Store Ram} {contents : Contents}

theorem answer_of_run {x : StoreM Ram α} {out : Except Error α} {final : Store Ram}
    (h : x store = ending out final) : answer x store = out := by
  rw [answer, h]
  cases out <;> rfl

theorem left_of_run {x : StoreM Ram α} {out : Except Error α} {final : Store Ram}
    (h : x store = ending out final) : left x store = final := by
  rw [left, h]
  cases out <;> rfl

theorem Performs.left_budget {x : StoreM Ram α} {changes : List Change} {out : Except Error α}
    {roles : Option Roles} (h : Performs x store changes out roles) (n : Nat) :
    ∃ roles power, left x (store.powered (.budget n)) =
      (store.after (changes.take n) roles).powered power := by
  by_cases hl : (Power.budget n).Lasts changes.length
  · rw [List.take_of_length_le hl]
    exact ⟨_, _, left_of_run ((h (.budget n)).1 hl)⟩
  · obtain ⟨fault, roles, hrun⟩ := (h (.budget n)).2 hl
    refine ⟨roles, .off, ?_⟩
    rw [left, hrun]
    rfl

theorem Performs.of_steady {x : StoreM Ram α} {changes : List Change} {out : Except Error α}
    {roles : Option Roles} (h : Performs x store changes out roles)
    (hp : store.device.power = .steady) :
    x store = ending out ((store.after changes roles).powered .steady) := by
  have hall := (h store.device.power).1 (by rw [hp]; trivial)
  have hafter : store.device.power.after changes.length = .steady := by
    rw [hp]
    rfl
  rw [hafter] at hall
  exact hall

theorem Performs.of_not_isCut {x : StoreM Ram α} {changes : List Change} {out : Except Error α}
    {roles : Option Roles} (h : Performs x store changes out roles)
    (hcut : isCut (answer x store) = false) :
    x store = ending out
      ((store.after changes roles).powered (store.device.power.after changes.length)) := by
  by_cases hl : store.device.power.Lasts changes.length
  · exact (h store.device.power).1 hl
  · obtain ⟨fault, final, hstop⟩ := (h store.device.power).2 hl
    rw [answer, show x store = _ from hstop] at hcut
    cases hcut

theorem left_bind {δ : Type} (x : StoreM δ α) (f : α → StoreM δ β) (store : Store δ) :
    left (x >>= f) store =
      match x store with
      | .ok a after => left (f a) after
      | .error _ after => after := by
  cases h : x store with
  | ok a after =>
    rw [left, run_bind h]
    rfl
  | error e after =>
    rw [left, run_bind_error h]

theorem run_map {δ : Type} (x : StoreM δ α) (g : α → β) (store : Store δ) :
    (do return g (← x) : StoreM δ β) store =
      match x store with
      | .ok a after => .ok (g a) after
      | .error e after => .error e after := by
  cases h : x store with
  | ok a after => exact run_bind h _
  | error e after => exact run_bind_error h _

theorem left_map {δ : Type} (x : StoreM δ α) (g : α → β) (store : Store δ) :
    left (do return g (← x)) store = left x store := by
  rw [left, run_map, left]
  cases x store <;> rfl

theorem Performs.map {x : StoreM Ram α} {changes : List Change} {out : Except Error α}
    {roles : Option Roles} (h : Performs x store changes out roles) (g : α → β) :
    Performs (do return g (← x)) store changes (out.map g) roles := by
  intro power
  rw [run_map]
  refine ⟨fun hl => ?_, fun hn => ?_⟩
  · rw [(h power).1 hl]
    cases out <;> rfl
  · obtain ⟨fault, final, hcut⟩ := (h power).2 hn
    exact ⟨fault, final, by rw [hcut]⟩

theorem Outcome.map {x : StoreM Ram α} {out : Except Error α} {meanwhile : Flash → Prop}
    (h : Outcome x store out meanwhile contents) (g : α → β) :
    Outcome (do return g (← x)) store (out.map g) meanwhile contents := by
  rcases h with ⟨final, hrun, hrest⟩ | ⟨fault, cut, hrun, hrest⟩
  · refine Or.inl ⟨final, ?_, hrest⟩
    rw [run_map, hrun]
    cases out <;> rfl
  · refine Or.inr ⟨fault, cut, ?_, hrest⟩
    rw [run_map, hrun]

theorem Outcome.mono {x : StoreM Ram α} {out : Except Error α} {meanwhile other : Flash → Prop}
    (h : Outcome x store out meanwhile contents) (hm : ∀ flash, meanwhile flash → other flash) :
    Outcome x store out other contents := by
  rcases h with hdone | ⟨fault, cut, hrun, hnone, ha, hring, hmid, hpower⟩
  · exact Or.inl hdone
  · exact Or.inr ⟨fault, cut, hrun, hnone, ha, hring, hm _ hmid, hpower⟩

theorem eq_of_attach {device : Ram} {config : Config} (h : attach device config = .ok store) :
    store.Attached ∧ store.device = device := by
  rw [attach] at h
  cases hr : PageRing.layout (Device.geometry device) config with
  | error e =>
    rw [hr] at h
    cases h
  | ok ring =>
    rw [hr] at h
    cases h
    exact ⟨hr, rfl⟩

/-- A restart is a startup of the store that has forgotten its pages. -/
theorem Attached.restart (h : store.Attached) :
    Store.restart store = Store.init { store with roles := none } := by
  have hattach : attach store.device store.config = .ok { store with roles := none } := by
    have hring : PageRing.layout (Device.geometry store.device) store.config = .ok store.ring := h
    rw [attach, hring]
    rfl
  rw [Store.restart, hattach]

/-- What the flash may stand for when an operation is cut. -/
def Meanwhile (ring : PageRing) (contents : Contents) (operation : Operation) (flash : Flash) :
    Prop :=
  (∃ key, operation = .delete key) ∨ flash.StandsFor ring contents ∨
    flash.StandsFor ring (contents.next ring.capacity operation)

section Unready

variable {δ : Type} {store : Store δ}

theorem fenced_activePage (h : store.roles = none) (f : Page → StoreM δ α) :
    fenced (activePage >>= f) store = .error .notInitialized store := by
  obtain ⟨device, config, ring, roles⟩ := store
  subst h
  rfl

variable [Device δ]

theorem compact_unready (h : store.roles = none) :
    Store.compact store = .error .notInitialized store := by
  obtain ⟨device, config, ring, roles⟩ := store
  subst h
  rfl

/-- A store that is not ready answers so and does nothing, unless it is started. -/
theorem run_unready (h : store.roles = none) {operation : Operation}
    (hs : operation.isStartup = false) :
    operation.run store = .error .notInitialized store := by
  cases operation with
  | init => cases hs
  | restart => cases hs
  | compact =>
    refine (run_map _ _ store).trans ?_
    rw [compact_unready h]
  | read key =>
    refine (run_map _ _ store).trans ?_
    rw [Store.read, fenced_activePage h]
  | write key payload =>
    refine (run_map _ _ store).trans ?_
    rw [Store.write, fenced_activePage h]
  | delete key =>
    refine (run_map _ _ store).trans ?_
    rw [Store.delete, fenced_activePage h]
  | entries =>
    refine (run_map _ _ store).trans ?_
    rw [Store.entries, fenced_activePage h]

end Unready

theorem Retains.outcome_init (h : store.Retains contents) :
    Outcome Store.init store (.ok ()) (Flash.StandsFor store.ring contents) contents :=
  h.leads_init.outcome h.attached

theorem Retains.outcome_restart (h : store.Retains contents) :
    Outcome Store.restart store (.ok ()) (Flash.StandsFor store.ring contents) contents := by
  have hfresh : Retains { store with roles := none } contents := ⟨h.attached, h.stands⟩
  have hinit := hfresh.outcome_init
  unfold Outcome at hinit ⊢
  rwa [h.attached.restart]

/-- A startup needs no more than what the flash stands for. -/
theorem Retains.outcome_startup {operation : Operation} (h : store.Retains contents)
    (hs : operation.isStartup = true) :
    Outcome operation.run store (contents.reply store.ring.capacity operation)
      (Meanwhile store.ring contents operation)
      (contents.next store.ring.capacity operation) := by
  have hsame : ∀ flash, flash.StandsFor store.ring contents →
      Meanwhile store.ring contents operation flash := fun _ h => Or.inr (Or.inl h)
  cases operation with
  | init => exact (h.outcome_init.map fun _ => Reply.done).mono hsame
  | restart => exact (h.outcome_restart.map fun _ => Reply.done).mono hsame
  | _ => cases hs

section Serving

variable {active count : Nat} {used : SlotLog} {key payload : UInt16}

theorem Settled.outcome_invalidKey (hs : store.Settled active count used)
    (hk : isCallerKey key = false) (f : Page → Unit → StoreM Ram α) :
    Outcome (fenced (activePage >>= fun page => checkKey key >>= f page)) store
      (.error (.invalidKey key)) (Flash.StandsFor store.ring used.contents) used.contents :=
  (hs.leads_invalidKey hk f).outcome hs.attached

theorem Settled.outcome_read (hs : store.Settled active count used) (key : UInt16) :
    Outcome (Operation.read key).run store
      (used.contents.reply store.ring.capacity (.read key))
      (Flash.StandsFor store.ring used.contents) used.contents := by
  rw [Contents.reply]
  cases hk : isCallerKey key with
  | false => exact (hs.outcome_invalidKey hk _).map Reply.payload
  | true => exact ((hs.leads_nothing (hs.read hk)).outcome hs.attached).map Reply.payload

theorem Settled.outcome_write (hs : store.Settled active count used) (key payload : UInt16) :
    Outcome (Operation.write key payload).run store
      (used.contents.reply store.ring.capacity (.write key payload))
      (Meanwhile store.ring used.contents (.write key payload))
      (used.contents.next store.ring.capacity (.write key payload)) := by
  rw [Contents.reply, Contents.next]
  cases hk : isCallerKey key with
  | false =>
    have hmid : ∀ flash, flash.StandsFor store.ring used.contents →
        Meanwhile store.ring used.contents (.write key payload) flash :=
      fun _ h => Or.inr (Or.inl h)
    simp only [Bool.false_eq_true, ↓reduceIte, false_and]
    exact ((hs.outcome_invalidKey hk _).map fun _ => Reply.done).mono hmid
  | true =>
    by_cases hr : used.contents.Refuses store.ring.capacity key
    · have hmid : ∀ flash, flash.StandsFor store.ring used.contents →
          Meanwhile store.ring used.contents (.write key payload) flash :=
        fun _ h => Or.inr (Or.inl h)
      have h := (hs.leads_write_full payload hk hr.1 hr.2).outcome hs.attached
      simp only [hr, ↓reduceIte, not_true_eq_false, and_false]
      exact (h.map fun _ => Reply.done).mono hmid
    · -- Only here may the flash stand for the new contents at a cut.
      have hnext : used.contents.next store.ring.capacity (.write key payload) =
          used.contents.set key payload := if_pos ⟨hk, hr⟩
      have h := (hs.leads_write payload hk hr).outcome hs.attached
      simp only [hr, ↓reduceIte, not_false_eq_true, and_true]
      apply (h.map fun _ => Reply.done).mono
      rintro flash (hold | hnew)
      · exact Or.inr (Or.inl hold)
      · exact Or.inr (Or.inr (hnext ▸ hnew))

theorem Settled.isCallerKey_of_write (hs : store.Settled active count used)
    (hok : answer (write key payload) store = .ok ()) : isCallerKey key = true := by
  by_contra hno
  rw [Bool.not_eq_true] at hno
  have hrefused : answer (write key payload) store = .error (.invalidKey key) :=
    answer_of_run (hs.invalidKey hno _).run_nothing
  rw [hrefused] at hok
  cases hok

/-- What is written to a full page leaves no more than a page can take. -/
theorem Settled.room_of_write (hs : store.Settled active count used)
    (hok : answer (write key payload) store = .ok ()) (hother : used.contents key ≠ some payload)
    (hfull : used.length = store.ring.capacity) :
    (SlotLog.survivors (used ++ [⟨key, payload⟩])).length ≤ store.ring.capacity := by
  have hk := hs.isCallerKey_of_write hok
  by_contra hover
  have hrefused :=
    answer_of_run (hs.write_refused hk hother hfull (Nat.lt_of_not_le hover)).run_nothing
  rw [hrefused] at hok
  cases hok

theorem Settled.outcome_delete (hs : store.Settled active count used) (key : UInt16) :
    Outcome (Operation.delete key).run store
      (used.contents.reply store.ring.capacity (.delete key))
      (Meanwhile store.ring used.contents (.delete key))
      (used.contents.next store.ring.capacity (.delete key)) := by
  have hmid : ∀ {P : Flash → Prop} flash, P flash →
      Meanwhile store.ring used.contents (.delete key) flash := fun _ _ => Or.inl ⟨key, rfl⟩
  rw [Contents.reply, Contents.next]
  cases hk : isCallerKey key with
  | false => exact ((hs.outcome_invalidKey hk _).map Reply.existed).mono hmid
  | true => exact (((hs.leads_delete hk).outcome hs.attached).map Reply.existed).mono hmid

/-- Every operation does what the map does. -/
theorem Serves.outcome (h : store.Serves contents) (operation : Operation) :
    Outcome operation.run store (contents.reply store.ring.capacity operation)
      (Meanwhile store.ring contents operation)
      (contents.next store.ring.capacity operation) := by
  obtain ⟨active, count, used, hs, rfl⟩ := h
  have hsame : ∀ flash, flash.StandsFor store.ring used.contents →
      Meanwhile store.ring used.contents operation flash := fun _ h => Or.inr (Or.inl h)
  have hretains : store.Retains used.contents := Serves.retains ⟨active, count, used, hs, rfl⟩
  cases operation with
  | init => exact hretains.outcome_startup rfl
  | restart => exact hretains.outcome_startup rfl
  | compact =>
    exact ((hs.leads_compact.outcome hs.attached).map fun _ => Reply.done).mono hsame
  | read key => exact (hs.outcome_read key).mono hsame
  | write key payload => exact hs.outcome_write key payload
  | delete key => exact hs.outcome_delete key
  | entries =>
    exact (((hs.leads_nothing hs.entries).outcome hs.attached).map Reply.entries).mono hsame

end Serving

/-- A store that was attached and formatted is empty. -/
theorem serves_of_format {device : Ram} {config : Config} {formatted : Store Ram}
    (ha : attach device config = .ok store) (hf : format store = .ok () formatted) :
    formatted.Serves Contents.empty ∧ formatted.ring = store.ring ∧
      (device.power = .steady → formatted.device.power = .steady) := by
  obtain ⟨hattached, rfl⟩ := eq_of_attach ha
  have hout : Outcome format store (.ok ()) (fun _ => True) Contents.empty :=
    hattached.leads_format.outcome hattached
  rcases hout with ⟨final, hrun, hserves, hring, hpower⟩ | ⟨_, _, hrun, -⟩
  · rw [hf] at hrun
    cases hrun
    exact ⟨hserves, hring, hpower⟩
  · rw [hf] at hrun
    cases hrun

/-- A new store in a ring of two pages with three slots each. -/
def small : Store Ram where
  device := .fresh ⟨4, 2⟩
  config := { ringPages := 2 }
  ring := {
    geometry := ⟨4, 2⟩
    base := 0
    count := 2
    two_le_pageWords := by decide
    addressable := by decide
    two_le_count := by decide
    base_add_count_le := by decide }
  roles := none

theorem attach_small : attach (.fresh ⟨4, 2⟩) { ringPages := 2 } = .ok small := rfl

theorem format_small : format small = .ok () (left format small) := by
  have hattached := (eq_of_attach attach_small).1
  have hout : Outcome format small (.ok ()) (fun _ => True) Contents.empty :=
    hattached.leads_format.outcome hattached
  rcases hout with ⟨final, hrun, -⟩ | ⟨_, _, _, _, _, _, _, hno, -⟩
  · exact hrun.trans (congrArg (EStateM.Result.ok ()) (left_of_run hrun).symm)
  · exact absurd rfl hno

end Store

end FlashRing
