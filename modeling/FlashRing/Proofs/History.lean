import FlashRing.Proofs.Advance
import FlashRing.Proofs.Effect

/-!
What happens to a store in the course of time: requests, restarts, and a power supply that goes and
comes back at any moment. Main statement: as long as nothing is formatted, all of it is one path of
steps, and the flash passes through the layouts of that path and nothing else.
-/

namespace FlashRing

/-- What happens to a store. -/
inductive Action where
  | call (request : Request)
  /-- A new store on the device takes the place of this one. -/
  | restart
  /-- The power goes after so many more programs and erases. -/
  | failAfter (count : Nat)
  | restorePower
deriving DecidableEq

/-- The pages before, between and after changes. -/
def Flash.course (capacity : Nat) : Flash → List Change → List Flash
  | flash, [] => [flash]
  | flash, change :: rest => flash :: course capacity (change.apply capacity flash) rest

theorem Flash.course_append (capacity : Nat) (flash : Flash) (first second : List Change) :
    flash.course capacity (first ++ second) =
      (List.range first.length).map (fun n => flash.applyAll capacity (first.take n)) ++
        (flash.applyAll capacity first).course capacity second := by
  induction first generalizing flash with
  | nil => rfl
  | cons change rest ih =>
    have hcons : ∀ n, flash.applyAll capacity ((change :: rest).take (n + 1)) =
        (change.apply capacity flash).applyAll capacity (rest.take n) := fun _ => rfl
    rw [List.cons_append, course, ih, List.length_cons, List.range_succ_eq_map, List.map_cons,
      List.map_map, applyAll_cons]
    simp only [Function.comp_def, Nat.succ_eq_add_one, hcons]
    rfl

theorem Flash.head?_course (capacity : Nat) (flash : Flash) (changes : List Change) :
    (flash.course capacity changes).head? = some flash := by
  cases changes <;> rfl

theorem Flash.getLast?_course (capacity : Nat) (flash : Flash) (changes : List Change) :
    (flash.course capacity changes).getLast? = some (flash.applyAll capacity changes) := by
  induction changes generalizing flash with
  | nil => rfl
  | cons change rest ih =>
    rw [course, List.getLast?_cons, ih, Option.getD_some, applyAll_cons]

namespace Store

variable {α : Type}

/-- The flash after so many programs and erases of an operation. -/
def moment (operation : StoreM Ram α) (store : Store Ram) (n : Nat) : Flash :=
  (left operation (store.powered (.budget n))).flash

/-- The flash before each program and erase that an operation makes. -/
def moments (operation : StoreM Ram α) (store : Store Ram) : List Flash :=
  (List.range ((left operation store).device.mutations - store.device.mutations)).map
    (moment operation store)

end Store

namespace Action

/-- The store after an action. -/
def next (store : Store Ram) : Action → Store Ram
  | .call request => store.left request.run
  | .restart => store.left Store.restart
  | .failAfter count => { store with device := store.device.failAfter count }
  | .restorePower => { store with device := store.device.restorePower }

/-- The flash before each program and erase of an action. -/
def moments (store : Store Ram) : Action → List Flash
  | .call request => store.moments request.run
  | .restart => store.moments Store.restart
  | .failAfter _ => []
  | .restorePower => []

end Action

namespace Store

variable {α : Type}

/-- The store after actions that happen one after the other. -/
def afterActions (store : Store Ram) (actions : List Action) : Store Ram :=
  actions.foldl Action.next store

/-- Every state that the flash is in while actions happen, the first and the last included. -/
def trail (store : Store Ram) : List Action → List Flash
  | [] => [store.flash]
  | action :: rest => action.moments store ++ trail (action.next store) rest

/-- One store comes from another along a path. -/
structure Travels (R : Layout → Change → Layout → Prop) (store : Store Ram) (layout : Layout)
    (changes : List Change) (final : Store Ram) (last : Layout) : Prop where
  path : Layout.Path R layout changes last
  eq : final = (store.after changes final.roles).powered final.device.power
  known : Knows last final.roles

namespace Travels

variable {R S : Layout → Change → Layout → Prop} {store middle final : Store Ram}
  {layout second last : Layout} {changes more : List Change}

theorem ring_eq (h : Travels R store layout changes final last) : final.ring = store.ring := by
  rw [h.eq]
  rfl

theorem still (power : Power) (hk : Knows layout store.roles) :
    Travels R store layout [] (store.powered power) layout :=
  ⟨.nil layout, rfl, hk⟩

theorem append (h : Travels R store layout changes middle second)
    (hm : Travels R middle second more final last) :
    Travels R store layout (changes ++ more) final last := by
  refine ⟨h.path.append hm.path, ?_, hm.known⟩
  have hfinal := hm.eq
  rw [h.eq, powered_after, after_after] at hfinal
  exact hfinal

theorem mono (h : Travels R store layout changes final last)
    (hrs : ∀ before change after, R before change after → S before change after) :
    Travels S store layout changes final last :=
  ⟨h.path.mono hrs, h.eq, h.known⟩

theorem at_last (h : Travels (Layout.Step store.ring) store layout changes final last)
    (hat : store.At layout) : final.At last := by
  have hlast := (hat.after h.path h.known).powered final.device.power
  rwa [← h.eq] at hlast

theorem device_eq (h : Travels R store layout changes final last) :
    final.device = (store.ring.commitAll store.device changes).powered final.device.power := by
  have hdevice := congrArg Store.device h.eq
  exact hdevice

end Travels

section Running

variable {R : PageRing → Layout → Change → Layout → Prop} {store : Store Ram}
  {layout last : Layout} {operation : StoreM Ram α} {changes : List Change}
  {out : Except Error α} {roles : Option Roles}

/-- An operation makes the first of its changes, all of them unless it is cut. -/
theorem Performs.left_eq (hrun : Performs operation store changes out roles)
    (hforget : Forgets operation) :
    ∃ n final power, left operation store = (store.after (changes.take n) final).powered power ∧
      ((store.device.power.Lasts changes.length ∧ n = changes.length ∧ final = roles) ∨
        (n = store.device.power.reach ∧ final = none ∧ isCut (answer operation store) = true)) := by
  by_cases hl : store.device.power.Lasts changes.length
  · refine ⟨changes.length, roles, store.device.power.after changes.length, ?_,
      Or.inl ⟨hl, rfl, rfl⟩⟩
    rw [List.take_length]
    exact left_of_run ((hrun store.device.power).1 hl)
  · obtain ⟨fault, final, hcut⟩ := (hrun store.device.power).2 hl
    have hstop : operation store = .error (.blockDevice fault) _ := hcut
    have hnone : final = none := hforget _ _ _ hstop rfl
    have hanswer : answer operation store = .error (.blockDevice fault) := by
      rw [answer, hstop]
    refine ⟨store.device.power.reach, final, .off, ?_, Or.inr ⟨rfl, hnone, ?_⟩⟩
    · rw [left, hstop]
    · rw [hanswer]
      rfl

theorem Performs.moments_eq (hrun : Performs operation store changes out roles) (hs : store.Fits)
    (hin : ∀ change ∈ changes, store.ring.Holds change) {n : Nat} {final : Option Roles}
    {power : Power}
    (hleft : left operation store = (store.after (changes.take n) final).powered power) :
    store.moments operation = (List.range (changes.take n).length).map fun m =>
      store.flash.applyAll store.ring.capacity ((changes.take n).take m) := by
  have hmade : (left operation store).device.mutations - store.device.mutations =
      (changes.take n).length := by
    have hcount := PageRing.mutations_commitAll store.ring store.device (changes.take n)
    have hdevice : (left operation store).device.mutations =
        (store.ring.commitAll store.device (changes.take n)).mutations := by
      rw [hleft]
      rfl
    omega
  rw [moments, hmade]
  apply List.map_congr_left
  intro m hm
  have hlt := List.mem_range.mp hm
  obtain ⟨some, power, hbudget⟩ := hrun.left_budget m
  have hflash : (store.after (changes.take m) some).flash =
      store.flash.applyAll store.ring.capacity (changes.take m) := flash_after_take hs hin m some
  have htake : (changes.take n).take m = changes.take m := by
    rw [List.length_take] at hlt
    rw [List.take_take, Nat.min_eq_left (by omega)]
  rw [moment, hbudget, htake, ← hflash]
  rfl

/-- Where the power goes, the operation has gone a part of its path. -/
theorem Advances.travels (hadvance : Advances R operation) (hforget : Forgets operation)
    (hr : ∀ before change after,
      R store.ring before change after → Layout.Step store.ring before change after)
    (hat : store.At layout) :
    ∃ changes last, Travels (R store.ring) store layout changes (left operation store) last ∧
      store.moments operation = (List.range changes.length).map (fun m =>
        store.flash.applyAll store.ring.capacity (changes.take m)) ∧
      (isCut (answer operation store) = false → store.roles ≠ none →
        (left operation store).roles ≠ none) := by
  obtain ⟨all, out, roles, last, hrun, hpath, hk, hready⟩ := hadvance store layout hat
  obtain ⟨hin, -, -⟩ := (hpath.mono hr).sound hat.valid
  obtain ⟨n, final, power, hleft, hend⟩ := hrun.left_eq hforget
  have hmoments := hrun.moments_eq hat.attached.fits hin hleft
  have heq : left operation store = (store.after (all.take n) (left operation store).roles).powered
      (left operation store).device.power := by
    rw [hleft]
    rfl
  have hroles : (left operation store).roles = final := by
    rw [hleft]
    rfl
  rcases hend with ⟨-, rfl, rfl⟩ | ⟨-, rfl, hcut⟩
  · rw [List.take_length] at heq hmoments
    refine ⟨all, last, ⟨hpath, heq, hroles ▸ hk⟩, hmoments, fun _ h => ?_⟩
    rw [hroles]
    exact hready h
  · obtain ⟨reached, hreached⟩ := hpath.take n
    refine ⟨all.take n, reached, ⟨hreached, heq, Or.inl hroles⟩, hmoments, fun h => ?_⟩
    rw [hcut] at h
    cases h

/-- A startup that is not cut succeeds and goes on with what is left of a rotation. -/
theorem At.comeUp (hat : store.At layout) {start : StoreM Ram Unit}
    (hs : start = init ∨ start = restart)
    (hend : store.device.power = .steady ∨ isCut (answer start store) = false) :
    answer start store = .ok () ∧ ∃ changes active count used,
      layout.resolved store.ring = .settled active count used ∧
      (left start store).Settled active count used ∧
      store.Travels (Layout.Resuming store.ring) layout changes (left start store)
        (.settled active count used) := by
  obtain ⟨changes, active, count, used, hres, hrun, hpath⟩ := hat.starts hs
  obtain ⟨power, hdone⟩ : ∃ power, start store =
      ending (.ok ()) ((store.after changes (some ⟨active, none⟩)).powered power) := by
    rcases hend with hp | hcut
    · exact ⟨_, hrun.of_steady hp⟩
    · exact ⟨_, hrun.of_not_isCut hcut⟩
  have hk : Knows (.settled active count used) (some ⟨active, none⟩) :=
    Or.inr ⟨_, _, _, rfl, rfl⟩
  have hlast := (hat.after (hpath.mono fun _ _ _ => .resume) hk).powered power
  refine ⟨answer_of_run hdone, changes, active, count, used, hres, ?_, hpath, ?_, ?_⟩
  · rw [left_of_run hdone]
    exact ⟨hlast.attached, hlast.valid, hlast.flash, rfl⟩
  · rw [left_of_run hdone]
    rfl
  · rw [left_of_run hdone]
    exact hk

end Running

end Store

namespace Action

variable {R : PageRing → Layout → Change → Layout → Prop} {store : Store Ram} {layout : Layout}

/-- The operation that an action carries out, if any, takes stores along paths. -/
def Advances (R : PageRing → Layout → Change → Layout → Prop) : Action → Prop
  | .call request => Store.Advances R (request.run : StoreM Ram Reply)
  | .restart => Store.Advances R Store.restart
  | .failAfter _ => True
  | .restorePower => True

theorem advances {action : Action} (h : action ≠ .call .format) :
    action.Advances Layout.Step := by
  cases action with
  | call request => exact Store.Advances.request fun he => h (congrArg Action.call he)
  | restart => exact Store.Advances.restart.steps
  | failAfter count => trivial
  | restorePower => trivial

theorem travels {action : Action} (h : action.Advances R)
    (hr : ∀ before change after,
      R store.ring before change after → Layout.Step store.ring before change after)
    (hat : store.At layout) :
    ∃ changes last, store.Travels (R store.ring) layout changes (action.next store) last ∧
      action.moments store = (List.range changes.length).map fun m =>
        store.flash.applyAll store.ring.capacity (changes.take m) := by
  cases action with
  | call request =>
    obtain ⟨changes, last, htravel, hmoments, -⟩ :=
      Store.Advances.travels h (.request request) hr hat
    exact ⟨changes, last, htravel, hmoments⟩
  | restart =>
    obtain ⟨changes, last, htravel, hmoments, -⟩ := Store.Advances.travels h .restart hr hat
    exact ⟨changes, last, htravel, hmoments⟩
  | failAfter count => exact ⟨[], layout, .still (.budget count) hat.known, rfl⟩
  | restorePower => exact ⟨[], layout, .still .steady hat.known, rfl⟩

end Action

namespace Store

variable {R : PageRing → Layout → Change → Layout → Prop} {store : Store Ram} {layout : Layout}

/-- All that happens to a store is one path, and the flash takes the course of its changes. -/
theorem At.travels {actions : List Action} (hat : store.At layout)
    (hr : ∀ ring before change after,
      R ring before change after → Layout.Step ring before change after)
    (h : ∀ action ∈ actions, action.Advances R) :
    ∃ changes last, store.Travels (R store.ring) layout changes (store.afterActions actions) last ∧
      store.trail actions = store.flash.course store.ring.capacity changes := by
  induction actions generalizing store layout with
  | nil => exact ⟨[], layout, .still store.device.power hat.known, rfl⟩
  | cons action rest ih =>
    obtain ⟨first, second, htravel, hmoments⟩ :=
      Action.travels (h action (by simp)) (hr store.ring) hat
    have hring := htravel.ring_eq
    have hnext := (htravel.mono (hr store.ring)).at_last hat
    obtain ⟨more, last, hrest, htrail⟩ :=
      ih hnext fun other ho => h other (List.mem_cons_of_mem action ho)
    rw [hring] at hrest htrail
    refine ⟨first ++ more, last, htravel.append hrest, ?_⟩
    obtain ⟨hin, -, -⟩ := (htravel.path.mono (hr store.ring)).sound hat.valid
    have hflash : (action.next store).flash =
        store.flash.applyAll store.ring.capacity first := by
      have hafter := flash_after hat.attached.fits hin (action.next store).roles
      rw [htravel.eq, ← hafter]
      rfl
    rw [trail, htrail, hmoments, Flash.course_append, hflash]

end Store

end FlashRing
