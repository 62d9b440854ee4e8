import FlashRing.Proofs.Operation

/-!
Stores whose power may go at any moment. Main statement: as long as no delete is cut, every startup
whose power does not go succeeds, and what callers find then is told by the calls so far, where a
write that was cut counts as a whole or not at all.
-/

namespace FlashRing

/-- What happens to a store: a call, or a change of its power supply. -/
inductive Event where
  | call (operation : Operation)
  /-- The power goes after so many more programs and erases. -/
  | failAfter (count : Nat)
  | restorePower
deriving DecidableEq

namespace Store

/-- What callers find under every key, and what the store lists. -/
def Shows (store : Store Ram) (contents : Contents) : Prop :=
  (∀ key, isCallerKey key = true → answer (read key) store = .ok (contents key)) ∧
    answer entries store = .ok contents.listing

end Store

namespace Operation

/-- What an answer tells of the contents: a call that succeeded has had its effect, a write that was
cut may have had it, and nothing else changes anything. -/
def Explains (operation : Operation) (answer : Except Error Reply) (before later : Contents) :
    Prop :=
  match operation, answer with
  | .write key payload, .ok _ => later = before.set key payload
  | .write key payload, .error (.blockDevice _) =>
    later = before ∨ later = before.set key payload
  | .delete key, .ok _ => later = before.erase key
  | _, _ => later = before

/-- What comes of a call with the contents at hand. -/
structure Tells (operation : Operation) (store : Store Ram) (before later : Contents) : Prop where
  explains : operation.Explains (store.answer operation.run) before later
  /-- Only where the power has gone does the device fail. -/
  cut : Store.isCut (store.answer operation.run) = true →
    store.device.power ≠ .steady ∧ (store.left operation.run).device.power = .off
  /-- With steady power, with power left afterwards, and whenever it is not cut, startup makes the
  store ready. -/
  starts : operation.isStartup = true →
    store.device.power = .steady ∨ (store.left operation.run).device.power ≠ .off ∨
      Store.isCut (store.answer operation.run) = false →
    store.answer operation.run = .ok .done ∧ (store.left operation.run).isReady = true

variable {contents : Contents}

/-- A map does not fail as a device does. -/
theorem isCut_reply (capacity : Nat) (contents : Contents) (operation : Operation) :
    Store.isCut (contents.reply capacity operation) = false := by
  cases operation with
  | read key =>
    rw [Contents.reply]
    split <;> rfl
  | write key payload =>
    rw [Contents.reply]
    split
    next => split <;> rfl
    next => rfl
  | delete key =>
    rw [Contents.reply]
    split <;> rfl
  | _ => rfl

theorem explains_reply (operation : Operation) (capacity : Nat) (contents : Contents) :
    Explains operation (contents.reply capacity operation) contents
      (contents.next capacity operation) := by
  cases operation with
  | write key payload =>
    rw [Contents.reply, Contents.next]
    cases hk : isCallerKey key with
    | false => simp [Operation.Explains]
    | true =>
      by_cases hr : contents.Refuses capacity key
      · simp [Operation.Explains, hr]
      · simp [Operation.Explains, hr]
  | delete key =>
    rw [Contents.reply, Contents.next]
    cases hk : isCallerKey key with
    | false => simp [Operation.Explains]
    | true => simp [Operation.Explains]
  | _ => rfl

theorem explains_cut {operation : Operation} {capacity : Nat} {fault : DeviceFault}
    {later : Contents} (hd : ∀ key, operation ≠ .delete key)
    (hl : later = contents ∨ later = contents.next capacity operation) :
    operation.Explains (.error (.blockDevice fault)) contents later := by
  have hread : contents.next capacity operation = contents → later = contents :=
    fun h => hl.elim id fun he => he.trans h
  cases operation with
  | write key payload =>
    rw [Contents.next] at hl
    split at hl
    next => exact hl
    next => exact Or.inl (hl.elim id id)
  | delete key => exact absurd rfl (hd key)
  | _ => exact hread rfl

end Operation

namespace Event

/-- The store after an event. -/
def next (store : Store Ram) : Event → Store Ram
  | .call operation => store.left operation.run
  | .failAfter count => { store with device := store.device.failAfter count }
  | .restorePower => { store with device := store.device.restorePower }

/-- The power goes while a key is deleted. -/
def cutsDelete (store : Store Ram) : Event → Bool
  | .call (.delete key) => Store.isCut (store.answer (Operation.delete key).run)
  | _ => false

/-- The contents change as the answer tells. -/
def Tells (store : Store Ram) (before later : Contents) : Event → Prop
  | .call operation => operation.Tells store before later
  | .failAfter _ => later = before
  | .restorePower => later = before

end Event

namespace Store

/-- The store after events that happen one after the other. -/
def afterEvents (store : Store Ram) (events : List Event) : Store Ram :=
  events.foldl Event.next store

/-- No delete is cut in the course of the events. -/
def deletesComplete (store : Store Ram) : List Event → Bool
  | [] => true
  | event :: rest => !event.cutsDelete store && deletesComplete (event.next store) rest

/-- From these contents on there is one history of the contents that the answers tell, and
whenever the store is ready it shows the contents of that moment. -/
def Story (store : Store Ram) (contents : Contents) : List Event → Prop
  | [] => True
  | event :: rest => ∃ later, event.Tells store contents later ∧
      ((event.next store).isReady = true → (event.next store).Shows later) ∧
      Story (event.next store) later rest

/-- The store serves the contents, or startup will bring them back. -/
def Sound (store : Store Ram) (contents : Contents) : Prop :=
  store.Serves contents ∨ store.roles = none ∧ store.Retains contents

variable {store : Store Ram} {contents : Contents}

theorem Serves.isReady (h : store.Serves contents) : store.isReady = true := by
  obtain ⟨active, count, used, hs, -⟩ := h
  rw [Store.isReady, hs.roles]
  rfl

theorem Serves.shows (h : store.Serves contents) : store.Shows contents := by
  obtain ⟨active, count, used, hs, rfl⟩ := h
  exact ⟨fun key hk => answer_of_run (hs.read hk).run_nothing, answer_of_run hs.entries.run_nothing⟩

theorem Sound.shows (h : store.Sound contents) (hr : store.isReady = true) :
    store.Shows contents := by
  rcases h with h | ⟨hnone, -⟩
  · exact h.shows
  · rw [Store.isReady, hnone] at hr
    cases hr

theorem Sound.retains (h : store.Sound contents) : store.Retains contents := by
  rcases h with h | ⟨-, h⟩
  · exact h.retains
  · exact h

theorem Sound.powered (h : store.Sound contents) (power : Power) :
    (store.powered power).Sound contents := by
  rcases h with ⟨active, count, used, hs, hc⟩ | ⟨hnone, hr⟩
  · exact Or.inl ⟨active, count, used, ⟨hs.attached, hs.valid, hs.flash, hs.roles⟩, hc⟩
  · exact Or.inr ⟨hnone, hr.attached, hr.stands⟩

/-- An operation that is not cut leaves a ready store, and what the map makes of the contents. -/
theorem sound_of_ending {operation : Operation} {final : Store Ram}
    (hrun : operation.run store = ending (contents.reply store.ring.capacity operation) final)
    (hserves : final.Serves (contents.next store.ring.capacity operation)) :
    ∃ later, (Event.call operation).Tells store contents later ∧
      ((Event.call operation).next store).Sound later := by
  have hanswer := answer_of_run hrun
  have hleft := left_of_run hrun
  have hexplains : operation.Explains (answer operation.run store) contents
      (contents.next store.ring.capacity operation) := by
    rw [hanswer]
    exact operation.explains_reply store.ring.capacity contents
  have hcut : isCut (answer operation.run store) = false := by
    rw [hanswer]
    exact Operation.isCut_reply _ _ operation
  have hstartup : operation.isStartup = true → answer operation.run store = .ok .done ∧
      (left operation.run store).isReady = true := by
    intro hs
    rw [hanswer, hleft]
    refine ⟨?_, hserves.isReady⟩
    cases operation with
    | init => rfl
    | restart => rfl
    | _ => cases hs
  have hnext : (Event.call operation).next store = final := hleft
  refine ⟨_, ⟨hexplains, fun hyes => ?_, fun hs _ => hstartup hs⟩, Or.inl (hnext.symm ▸ hserves)⟩
  rw [hcut] at hyes
  cases hyes

/-- An operation that is cut leaves a store that is not ready, and the flash stands for what was
there before or what the operation would have left. -/
theorem sound_of_cut {operation : Operation} {fault : DeviceFault} {cut : Store Ram}
    (hrun : operation.run store = .error (.blockDevice fault) cut)
    (hdelete : ∀ key, operation ≠ .delete key) (hnone : cut.roles = none) (ha : cut.Attached)
    (hring : cut.ring = store.ring) (hmid : Meanwhile store.ring contents operation cut.flash)
    (hbefore : store.device.power ≠ .steady) (hoff : cut.device.power = .off) :
    ∃ later, (Event.call operation).Tells store contents later ∧
      ((Event.call operation).next store).Sound later := by
  have hanswer : answer operation.run store = .error (.blockDevice fault) := by
    rw [answer, hrun]
  have hleft : left operation.run store = cut := by
    rw [left, hrun]
  have hnext : (Event.call operation).next store = cut := hleft
  -- A delete that is cut may leave neither, which is why there is none here.
  obtain ⟨later, hlater, hflash⟩ : ∃ later, (later = contents ∨
      later = contents.next store.ring.capacity operation) ∧
        cut.flash.StandsFor store.ring later := by
    rcases hmid with ⟨key, he⟩ | hold | hnew
    · exact absurd he (hdelete key)
    · exact ⟨contents, Or.inl rfl, hold⟩
    · exact ⟨_, Or.inr rfl, hnew⟩
  have hexplains : operation.Explains (answer operation.run store) contents later := by
    rw [hanswer]
    exact Operation.explains_cut hdelete hlater
  have hcut : isCut (answer operation.run store) = true := by
    rw [hanswer]
    rfl
  have hretains : cut.Retains later := ⟨ha, hring ▸ hflash⟩
  refine ⟨later, ⟨hexplains, fun _ => ⟨hbefore, hleft.symm ▸ hoff⟩, fun _ hend => ?_⟩,
    Or.inr (hnext.symm ▸ ⟨hnone, hretains⟩)⟩
  rw [hleft, hcut] at hend
  rcases hend with hsteady | hon | hno
  · exact absurd hsteady hbefore
  · exact absurd hoff hon
  · cases hno

/-- However an operation ends, the store is sound and the answer explains the contents. -/
theorem Outcome.sound {operation : Operation}
    (h : Outcome operation.run store (contents.reply store.ring.capacity operation)
      (Meanwhile store.ring contents operation) (contents.next store.ring.capacity operation))
    (hd : (Event.call operation).cutsDelete store = false) :
    ∃ later, (Event.call operation).Tells store contents later ∧
      ((Event.call operation).next store).Sound later := by
  rcases h with ⟨final, hrun, hserves, -, -⟩ |
    ⟨fault, cut, hrun, hnone, ha, hring, hmid, hbefore, hoff⟩
  · exact sound_of_ending hrun hserves
  · have hdelete : ∀ key, operation ≠ .delete key := by
      rintro key rfl
      rw [Event.cutsDelete, answer, hrun] at hd
      cases hd
    exact sound_of_cut hrun hdelete hnone ha hring hmid hbefore hoff

/-- A call to a store that is not ready is refused and changes nothing, unless it is a startup. -/
theorem sound_of_unready {operation : Operation} (hnone : store.roles = none)
    (hretains : store.Retains contents) (hs : operation.isStartup = false) :
    (Event.call operation).Tells store contents contents ∧
      ((Event.call operation).next store).Sound contents := by
  have hrun := run_unready hnone hs
  have hanswer : answer operation.run store = .error .notInitialized := by
    rw [answer, hrun]
  have hnext : (Event.call operation).next store = store := by
    rw [Event.next, left, hrun]
  have hexplains : operation.Explains (answer operation.run store) contents contents := by
    rw [hanswer]
    cases operation <;> rfl
  refine ⟨⟨hexplains, fun h => ?_, fun h => ?_⟩, ?_⟩
  · rw [hanswer] at h
    cases h
  · rw [hs] at h
    cases h
  · rw [hnext]
    exact Or.inr ⟨hnone, hretains⟩

theorem Sound.next (h : store.Sound contents) {event : Event}
    (hd : event.cutsDelete store = false) :
    ∃ later, event.Tells store contents later ∧ (event.next store).Sound later := by
  cases event with
  | failAfter count => exact ⟨contents, rfl, h.powered (.budget count)⟩
  | restorePower => exact ⟨contents, rfl, h.powered .steady⟩
  | call operation =>
    rcases h with hserves | ⟨hnone, hretains⟩
    · exact (hserves.outcome operation).sound hd
    · cases hs : operation.isStartup with
      | false => exact ⟨contents, sound_of_unready hnone hretains hs⟩
      | true => exact (hretains.outcome_startup hs).sound hd

theorem Sound.story (h : store.Sound contents) {events : List Event}
    (hd : store.deletesComplete events = true) : store.Story contents events := by
  -- `Sound` is what every event keeps, also one that cuts an operation.
  induction events generalizing store contents with
  | nil => trivial
  | cons event rest ih =>
    obtain ⟨hfirst, hrest⟩ := Bool.and_eq_true_iff.mp hd
    obtain ⟨later, htells, hsound⟩ := h.next (by simpa using hfirst)
    exact ⟨later, htells, hsound.shows, ih hsound hrest⟩

/-- Wherever the events end, startup will bring back some contents. -/
theorem Sound.afterEvents (h : store.Sound contents) {events : List Event}
    (hd : store.deletesComplete events = true) :
    ∃ later, (store.afterEvents events).Sound later := by
  induction events generalizing store contents with
  | nil => exact ⟨contents, h⟩
  | cons event rest ih =>
    obtain ⟨hfirst, hrest⟩ := Bool.and_eq_true_iff.mp hd
    obtain ⟨later, -, hsound⟩ := h.next (by simpa using hfirst)
    exact ih hsound hrest

/-- However the power goes and comes back, writes and rotations are atomic. -/
theorem story_of_format {device : Ram} {config : Config} {formatted : Store Ram}
    {events : List Event} (ha : attach device config = .ok store)
    (hf : format store = .ok () formatted) (hd : formatted.deletesComplete events = true) :
    formatted.Story Contents.empty events :=
  Sound.story (Or.inl (serves_of_format ha hf).1) hd

/-- A rotation and a write are cut here, and so is the startup that goes on with the rotation. -/
theorem story_of_small : (left format small).Story Contents.empty
    [.call (.write 1 10), .call (.write 2 20), .failAfter 2, .call .compact, .restorePower,
      .failAfter 1, .call .init, .restorePower, .call .restart, .call (.delete 1), .failAfter 0,
      .call (.write 2 21), .restorePower, .call .init, .call .entries] :=
  story_of_format attach_small format_small (by decide +kernel)

end Store

end FlashRing
