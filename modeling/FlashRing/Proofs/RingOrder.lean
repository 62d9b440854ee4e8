import FlashRing.Proofs.History

/-!
What the pages of a ring look like, at rest and at every moment at which the power may go. Main
statement: a store that is ready has one page in use and a blank rest of the ring, and whatever
state the flash passes through has enough in it for startup to go on.
-/

namespace FlashRing

namespace Flash

/-- The statuses and pages of a ring at any moment. -/
structure InOrder (ring : PageRing) (flash : Flash) : Prop where
  active_le : (ring.indicesOf flash .active).length ≤ 1
  receiving_le : (ring.indicesOf flash .receiving).length ≤ 1
  in_use : ring.indicesOf flash .active ≠ [] ∨ ring.indicesOf flash .receiving ≠ []
  spare : ∀ i, i < ring.count → (flash i).status ≠ .active → (flash i).status ≠ .receiving →
    flash i = .blank ring.capacity
  /-- A page that is being filled has no key twice and no used slot behind a free one. -/
  target : ∀ i, i < ring.count → (flash i).status = .receiving → ∃ used free,
    (flash i).log = used ++ List.replicate free .free ∧
      (∀ slot ∈ used, slot.isFree = false) ∧ (used.map (·.key)).Nodup

/-- If a change leaves no page active, the page that takes over has its last counter by then, and
holds all that counts in the page that is given up and in a slot that was to be written. -/
def Handover (ring : PageRing) (before after : Flash) : Prop :=
  (∀ i, i < ring.count → (after i).status ≠ .active) →
    ∃ (source target : Nat) (carried : Option Slot),
      (before source).status = .active ∧ (before target).status = .receiving ∧
      after target = before target ∧
      (Header.decode (after target).header).counter? = some (Store.nextCounter
        (ring.page target) (Header.decode (before source).header).counterOrZero) ∧
      SlotLog.contents (after target).log =
        SlotLog.contents ((before source).log ++ carried.toList)

end Flash

namespace Store

/-- One page is in use, and the rest of the ring is blank. -/
structure AtRest (store : Store Ram) (active : Nat) : Prop where
  roles : store.roles = some ⟨active, none⟩
  status : ∀ i, i < store.ring.count → ((store.flash i).status = .active ↔ i = active)
  inside : active < store.ring.count
  counter : ∃ count, (Header.decode (store.flash active).header).counter? = some count ∧
    1 ≤ count ∧ count ≤ Header.maxCounter
  log : ∃ used free, (store.flash active).log = used ++ List.replicate free .free ∧
    ∀ slot ∈ used, slot.key = 0 ∨ isCallerKey slot.key = true
  others : ∀ i, i < store.ring.count → i ≠ active → store.flash i = .blank store.ring.capacity

/-- How the ring stands after actions, and all the time while they happen. -/
structure Orderly (store : Store Ram) (actions : List Action) : Prop where
  rest : (store.afterActions actions).isReady = true →
    ∃ active, (store.afterActions actions).AtRest active
  order : ∀ flash ∈ store.trail actions, flash.InOrder store.ring
  handover : (store.trail actions).IsChain (Flash.Handover store.ring)
  ends : (store.trail actions).getLast? = some (store.afterActions actions).flash
  /-- A request that is not cut leaves a ready store ready. -/
  stays : ∀ request : Request, request ≠ .format → (store.afterActions actions).isReady = true →
    isCut ((store.afterActions actions).answer request.run) = false →
    ((store.afterActions actions).left request.run).isReady = true
  /-- With steady power, and whenever it is not cut, startup makes the store ready. -/
  starts : ∀ start, start = init ∨ start = restart →
    (store.afterActions actions).device.power = .steady ∨
      isCut ((store.afterActions actions).answer start) = false →
    (store.afterActions actions).answer start = .ok () ∧
      ((store.afterActions actions).left start).isReady = true

end Store

namespace Layout

/-- Where the slots of a page that is being filled come from. -/
def Tidy : Layout → Prop
  | .settled _ _ _ => True
  | .rotating _ _ used copied _ => ∃ carried : Option Slot,
    (∀ slot ∈ carried, slot.isLive = true) ∧ carried.toList <+: copied ∧
      copied <+: SlotLog.overlay carried.toList used.reverse
  | .retired _ _ used => (used.map (·.key)).Nodup

variable {ring : PageRing} {first last layout : Layout} {change : Change} {changes : List Change}

theorem Resuming.tidy (h : Resuming ring first change last) (hv : first.Valid ring)
    (ht : first.Tidy) : last.Tidy := by
  cases h with
  | mark active count used copied counted => exact ht
  | copy active count used copied counted slot h =>
    obtain ⟨carried, hlive, hfirst, hcopied⟩ := ht
    rw [SlotLog.overlay_of_prefix hfirst hcopied] at h
    exact ⟨carried, hlive, hfirst.trans (List.prefix_append copied [slot]), h⟩
  | count active count used copied counted h => exact ht
  | retire active count used copied => exact hv.2.2.2.2.2.1
  | activate receiving count used => trivial

theorem Step.tidy (h : Step ring first change last) (hv : first.Valid ring) (ht : first.Tidy) :
    last.Tidy := by
  cases h with
  | append active count used slot hlive hroom => trivial
  | strike active count before slot behind => trivial
  | start active count used => exact ⟨none, by simp, List.nil_prefix, List.nil_prefix⟩
  | carry active count used slot hlive hroom =>
    exact ⟨some slot, by simpa using hlive, List.prefix_refl _, SlotLog.prefix_overlay _ _⟩
  | resume h => exact h.tidy hv ht

theorem inOrder (hv : layout.Valid ring) (ht : layout.Tidy) :
    (layout.flash ring).InOrder ring where
  active_le := by
    rw [indicesOf_active hv]
    cases layout.active? <;> simp
  receiving_le := by
    rw [indicesOf_receiving hv]
    cases layout.receiving? ring <;> simp
  in_use := by
    rw [indicesOf_active hv, indicesOf_receiving hv]
    cases layout <;> simp [active?, receiving?]
  spare i _ ha hr := by
    rw [Ne, status_eq_active hv] at ha
    rw [Ne, status_eq_receiving hv] at hr
    exact flash_eq_blank ha hr
  target i _ hr := by
    rw [status_eq_receiving hv] at hr
    cases layout with
    | settled active count used => cases hr
    | rotating active count used copied counted =>
      cases hr
      rw [rotating_next]
      exact ⟨copied, _, rfl, fun slot hs => Slot.isFree_of_isLive (hv.2.2.2.2.1 slot hs),
        hv.2.2.2.2.2.1⟩
    | retired receiving count used =>
      cases hr
      rw [log_retired]
      exact ⟨used, _, rfl, hv.2.2.2.isFree, ht⟩

theorem handover_of_active {before : Flash} {i : Nat} (hv : layout.Valid ring)
    (ha : layout.active? = some i) : before.Handover ring (layout.flash ring) :=
  fun hno => absurd (status_active hv ha) (hno i (active_lt hv ha))

/-- The page that is given up has nothing left that its successor lacks. -/
theorem handover_retire {active count : Nat} {used copied : SlotLog}
    (hv : (rotating active count used copied true).Valid ring)
    (ht : (rotating active count used copied true).Tidy) :
    ((rotating active count used copied true).flash ring).Handover ring
      ((retired (ring.next active) (nextCount ring active count) copied).flash ring) := by
  obtain ⟨carried, hlive, hfirst, hcopied⟩ := ht
  obtain ⟨ha, -, hhi, -, -, -, -, hdone⟩ := id hv
  have hsource := rotating_active ha count used copied true
  have htarget := rotating_next ring active count used copied true
  have hall : copied = SlotLog.survivors (used ++ carried.toList) := by
    have hsame := SlotLog.overlay_of_prefix hfirst hcopied
    rw [hdone rfl] at hsame
    cases carried with
    | none =>
      rw [Option.toList_none, List.append_nil]
      exact hsame
    | some slot =>
      rw [Option.toList_some, SlotLog.survivors_concat (hlive slot rfl)]
      exact hsame
  intro _
  refine ⟨active, ring.next active, carried, status_active hv rfl, status_receiving rfl, ?_, ?_, ?_⟩
  · rw [log_retired, htarget]
    rfl
  · rw [log_retired, hsource]
    change (Header.decode (Header.countedWord _)).counter? = some (Store.nextCounter _
      (Header.decode (Header.activeWord count)).counterOrZero)
    rw [Header.counterOrZero_activeWord hhi, Header.counter?_countedWord]
    exact Header.counter?_activeWord (nextCount_le hhi)
  · rw [log_retired, hsource, PageContent.filled, PageContent.filled,
      SlotLog.contents_append_dead (isLive_replicate_free _), hall, SlotLog.contents_survivors,
      ← SlotLog.contents_survivors (used ++ _ ++ _),
      SlotLog.survivors_dead_append _ _ (isLive_replicate_free _), SlotLog.contents_survivors]

theorem Step.handover (h : Step ring first change last) (hv : first.Valid ring)
    (ht : first.Tidy) : (first.flash ring).Handover ring (last.flash ring) := by
  have hlast := (h.sound hv).2.2
  cases h with
  | append | strike | start | carry => exact handover_of_active hlast rfl
  | resume h =>
    cases h with
    | retire active count used copied => exact handover_retire hv ht
    | _ => exact handover_of_active hlast rfl

/-- The states that the flash passes through are those of layouts, and one step apart. -/
theorem Path.orderly (h : Path (Step ring) first changes last) (hv : first.Valid ring)
    (ht : first.Tidy) :
    (∀ flash ∈ (first.flash ring).course ring.capacity changes, flash.InOrder ring) ∧
      ((first.flash ring).course ring.capacity changes).IsChain (Flash.Handover ring) := by
  induction h with
  | nil layout =>
    refine ⟨fun flash hf => ?_, .singleton _⟩
    exact List.mem_singleton.mp hf ▸ inOrder hv ht
  | @cons before middle last change rest hstep _ ih =>
    obtain ⟨-, hflash, hmiddle⟩ := hstep.sound hv
    obtain ⟨horder, hchain⟩ := ih hmiddle (hstep.tidy hv ht)
    rw [Flash.course, hflash]
    refine ⟨fun flash hf => ?_, ?_⟩
    · rcases List.mem_cons.mp hf with rfl | hf
      · exact inOrder hv ht
      · exact horder flash hf
    · obtain ⟨further, hfurther⟩ := List.head?_eq_some_iff.mp
        (Flash.head?_course ring.capacity (middle.flash ring) rest)
      rw [hfurther] at hchain ⊢
      exact .cons_cons (hstep.handover hv ht) hchain

end Layout

namespace Store

variable {store : Store Ram} {active count : Nat} {used : SlotLog} {layout : Layout}

theorem Settled.atRest (hs : store.Settled active count used) : store.AtRest active where
  roles := hs.roles
  status i _ := by
    rw [hs.flash, Layout.status_eq_active hs.valid]
    exact ⟨fun h => (Option.some.inj h).symm, fun h => congrArg some h.symm⟩
  inside := hs.valid.1
  counter := by
    obtain ⟨-, hlo, hhi, -⟩ := hs.valid
    rw [hs.content]
    exact ⟨count, Header.counter?_activeWord hhi, hlo, hhi⟩
  log := by
    refine ⟨used, _, hs.log, fun slot hslot => ?_⟩
    have hno := hs.valid.2.2.2.2 slot hslot
    by_cases hzero : slot.key = 0
    · exact Or.inl hzero
    · exact Or.inr (by simp [isCallerKey, hno, hzero])
  others i _ hne := by
    rw [hs.flash]
    exact Function.update_of_ne hne ..

theorem At.orderly (hat : store.At layout) (ht : layout.Tidy) {actions : List Action}
    (hno : Action.call .format ∉ actions) : store.Orderly actions := by
  have hadvance : ∀ action ∈ actions, action.Advances Layout.Step :=
    fun action ha => Action.advances fun he => hno (he ▸ ha)
  obtain ⟨changes, last, htravel, htrail⟩ := hat.travels (fun _ _ _ _ => id) hadvance
  obtain ⟨horder, hchain⟩ := htravel.path.orderly hat.valid ht
  have hfinal := htravel.at_last hat
  rw [← hat.flash, ← htrail] at horder hchain
  refine ⟨fun hready => ?_, horder, hchain, ?_, fun request hr hready hcut => ?_,
    fun start hs hend => ?_⟩
  · have hroles : (store.afterActions actions).roles ≠ none := by
      intro hnone
      rw [isReady, hnone] at hready
      cases hready
    obtain ⟨active, count, used, rfl, hsettled⟩ := hfinal.settled hroles
    exact ⟨active, hsettled.atRest⟩
  · have hend := (htravel.path.sound hat.valid).2.1
    rw [htrail, Flash.getLast?_course, hat.flash, hend, ← htravel.ring_eq, ← hfinal.flash]
  · obtain ⟨_, _, _, _, hstays⟩ :=
      (Advances.request hr).travels (.request request) (fun _ _ _ => id) hfinal
    exact Option.isSome_iff_ne_none.mpr
      (hstays hcut (Option.isSome_iff_ne_none.mp hready))
  · obtain ⟨hanswer, _, _, _, _, -, hsettled, -⟩ := hfinal.comeUp hs hend
    refine ⟨hanswer, ?_⟩
    rw [isReady, hsettled.roles]
    rfl

/-- The ring is in order at rest and wherever the power goes, as long as nothing is formatted. -/
theorem orderly_of_format {device : Ram} {config : Config} {formatted : Store Ram}
    {actions : List Action} (ha : attach device config = .ok store)
    (hf : format store = .ok () formatted) (hno : Action.call .format ∉ actions) :
    formatted.Orderly actions := by
  obtain ⟨active, count, used, hs, -⟩ := (serves_of_format ha hf).1
  exact hs.at.orderly trivial hno

/-- A write that rotates is cut while slots are copied, and startup before the old page is gone. -/
theorem orderly_of_small : (left format small).Orderly
    [.call (.writeArray 1 [10, 20]), .call (.write 1 11), .failAfter 3, .call (.write 1 12),
      .restorePower, .failAfter 3, .call .init, .restorePower, .restart, .call (.deleteArray 1)] :=
  orderly_of_format attach_small format_small (by decide)

end Store

end FlashRing
