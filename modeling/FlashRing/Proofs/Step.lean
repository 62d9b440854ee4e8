import FlashRing.Proofs.Interruption

/-!
The programs and erases that a store in order makes, as steps from one layout to the next. Main
statements: every step keeps a layout valid and changes the flash as it says, and a rotation, a
delete and the end of an unfinished rotation are paths of such steps.
-/

namespace FlashRing.Layout

/-- A step by which a rotation that has begun goes on. -/
inductive Resuming (ring : PageRing) : Layout → Change → Layout → Prop where
  | mark (active count : Nat) (used copied : SlotLog) (counted : Bool) :
    Resuming ring (.rotating active count used copied counted)
      (.header (ring.next active) Status.receiving.programWord)
      (.rotating active count used copied counted)
  | copy (active count : Nat) (used copied : SlotLog) (counted : Bool) (slot : Slot)
    (h : copied ++ [slot] <+: copied.overlay used.reverse) :
    Resuming ring (.rotating active count used copied counted)
      (.slot (ring.next active) copied.length slot.encode)
      (.rotating active count used (copied ++ [slot]) counted)
  | count (active count : Nat) (used copied : SlotLog) (counted : Bool)
    (h : copied.overlay used.reverse = copied) :
    Resuming ring (.rotating active count used copied counted)
      (.header (ring.next active) (Header.counterWord (nextCount ring active count)))
      (.rotating active count used copied true)
  | retire (active count : Nat) (used copied : SlotLog) :
    Resuming ring (.rotating active count used copied true) (.erase active)
      (.retired (ring.next active) (nextCount ring active count) copied)
  | activate (receiving count : Nat) (used : SlotLog) :
    Resuming ring (.retired receiving count used)
      (.header receiving Status.active.programWord) (.settled receiving count used)

/-- A program or erase that takes one layout to the next. -/
inductive Step (ring : PageRing) : Layout → Change → Layout → Prop where
  | append (active count : Nat) (used : SlotLog) (slot : Slot) (hlive : slot.isLive = true)
    (hroom : used.length < ring.capacity) :
    Step ring (.settled active count used) (.slot active used.length slot.encode)
      (.settled active count (used ++ [slot]))
  | strike (active count : Nat) (before : SlotLog) (slot : Slot) (behind : SlotLog) :
    Step ring (.settled active count (before ++ slot :: behind))
      (.slot active before.length Slot.tombstoneWord)
      (.settled active count (before ++ slot.struck :: behind))
  | start (active count : Nat) (used : SlotLog) :
    Step ring (.settled active count used)
      (.header (ring.next active) Status.receiving.programWord)
      (.rotating active count used [] false)
  /-- The slot to be written goes first. -/
  | carry (active count : Nat) (used : SlotLog) (slot : Slot) (hlive : slot.isLive = true)
    (hroom : (SlotLog.survivors (used ++ [slot])).length ≤ ring.capacity) :
    Step ring (.rotating active count used [] false)
      (.slot (ring.next active) 0 slot.encode) (.rotating active count used [slot] false)
  | resume {first last : Layout} {change : Change} (h : Resuming ring first change last) :
    Step ring first change last

/-- Steps one after the other, with the changes that they make. -/
inductive Path (R : Layout → Change → Layout → Prop) : Layout → List Change → Layout → Prop where
  | nil (layout : Layout) : Path R layout [] layout
  | cons {first second last : Layout} {change : Change} {rest : List Change}
    (h : R first change second) (hrest : Path R second rest last) :
    Path R first (change :: rest) last

namespace Path

variable {R S : Layout → Change → Layout → Prop} {first second last : Layout}
  {changes more : List Change}

theorem append (h : Path R first changes second) (hm : Path R second more last) :
    Path R first (changes ++ more) last := by
  induction h with
  | nil => exact hm
  | cons hstep _ ih => exact .cons hstep (ih hm)

theorem mono (h : Path R first changes last)
    (hrs : ∀ before change after, R before change after → S before change after) :
    Path S first changes last := by
  induction h with
  | nil => exact .nil _
  | cons hstep _ ih => exact .cons (hrs _ _ _ hstep) ih

theorem take (h : Path R first changes last) (n : Nat) :
    ∃ layout, Path R first (changes.take n) layout := by
  induction h generalizing n with
  | nil layout =>
    rw [List.take_nil]
    exact ⟨layout, .nil layout⟩
  | @cons before second last change rest hstep _ ih =>
    cases n with
    | zero => exact ⟨before, .nil before⟩
    | succ n =>
      obtain ⟨layout, hpath⟩ := ih n
      exact ⟨layout, .cons hstep hpath⟩

end Path

section Soundness

variable {ring : PageRing} {first last : Layout} {change : Change} {changes : List Change}

theorem Resuming.sound (h : Resuming ring first change last) (hv : first.Valid ring) :
    ring.Holds change ∧ change.apply ring.capacity (first.flash ring) = last.flash ring ∧
      last.Valid ring := by
  cases h with
  | mark active count used copied counted =>
    exact ⟨ring.next_lt active, apply_mark_rotating .., hv⟩
  | copy active count used copied counted slot h =>
    have hroom : copied.length < ring.capacity := by
      have hle := h.length_le.trans hv.2.2.2.2.2.2.1
      rwa [List.length_append] at hle
    exact ⟨⟨ring.next_lt active, hroom⟩, apply_append_rotating hroom,
      (valid_further hv (List.prefix_append copied [slot]) h).1⟩
  | count active count used copied counted h =>
    obtain ⟨ha, hlo, hhi, hu, hlive, hn, hl, -⟩ := hv
    exact ⟨ring.next_lt active, apply_count_rotating .., ha, hlo, hhi, hu, hlive, hn, hl,
      fun _ => h⟩
  | retire active count used copied =>
    obtain ⟨ha, hlo, hhi, hu, hlive, hn, hl, hdone⟩ := hv
    rw [hdone rfl] at hl
    exact ⟨ha, apply_erase_rotating ha .., ring.next_lt active, one_le_nextCount hlo,
      nextCount_le hhi, fitting_of_live hl hlive⟩
  | activate receiving count used =>
    exact ⟨hv.1, apply_activate_retired .., hv⟩

theorem apply_strike_settled (ring : PageRing) (active count : Nat) (before : SlotLog)
    (slot : Slot) (behind : SlotLog) :
    (Change.slot active before.length Slot.tombstoneWord).apply ring.capacity
        ((settled active count (before ++ slot :: behind)).flash ring) =
      (settled active count (before ++ slot.struck :: behind)).flash ring := by
  have hlen : (before ++ slot.struck :: behind).length = (before ++ slot :: behind).length := by
    rw [List.length_append, List.length_cons, List.length_append, List.length_cons]
  rw [Change.apply, log_settled, PageContent.filled, List.append_assoc, List.cons_append,
    modify_append_cons, Slot.masked_tombstoneWord, flash, Function.update_idem, flash,
    PageContent.filled, hlen, List.append_assoc, List.cons_append]

theorem Fitting.struck {before : SlotLog} {slot : Slot} {behind : SlotLog}
    (h : Fitting ring (before ++ slot :: behind)) :
    Fitting ring (before ++ slot.struck :: behind) := by
  refine ⟨?_, fun other ho => ?_⟩
  · have hl := h.1
    rwa [List.length_append, List.length_cons] at hl ⊢
  · rcases List.mem_append.mp ho with ho | ho
    · exact h.2 other (List.mem_append_left _ ho)
    · rcases List.mem_cons.mp ho with rfl | ho
      · simp [Slot.struck]
      · exact h.2 other (List.mem_append_right _ (List.mem_cons_of_mem slot ho))

/-- A step stays inside the ring, changes the flash as it says and keeps the layout valid. -/
theorem Step.sound (h : Step ring first change last) (hv : first.Valid ring) :
    ring.Holds change ∧ change.apply ring.capacity (first.flash ring) = last.flash ring ∧
      last.Valid ring := by
  cases h with
  | append active count used slot hlive hroom =>
    obtain ⟨ha, hlo, hhi, hu⟩ := hv
    refine ⟨⟨ha, hroom⟩, apply_append_settled hroom, ha, hlo, hhi, ?_, ?_⟩
    · rwa [List.length_append, List.length_singleton]
    · intro other ho
      rcases List.mem_append.mp ho with ho | ho
      · exact hu.2 other ho
      · exact List.mem_singleton.mp ho ▸ Slot.key_of_isLive hlive
  | strike active count before slot behind =>
    obtain ⟨ha, hlo, hhi, hu⟩ := hv
    have hroom : before.length < ring.capacity := by
      have hl := hu.1
      rw [List.length_append, List.length_cons] at hl
      omega
    exact ⟨⟨ha, hroom⟩, apply_strike_settled .., ha, hlo, hhi, hu.struck⟩
  | start active count used =>
    exact ⟨ring.next_lt active, apply_mark_settled hv.1 .., (valid_marked hv).1⟩
  | carry active count used slot hlive hroom =>
    obtain ⟨ha, hlo, hhi, hu, -⟩ := hv
    rw [SlotLog.survivors_concat hlive] at hroom
    have hcap : ([] : SlotLog).length < ring.capacity := by
      have hle := (SlotLog.prefix_overlay [slot] used.reverse).length_le.trans hroom
      exact Nat.lt_of_lt_of_le Nat.zero_lt_one hle
    exact ⟨⟨ring.next_lt active, hcap⟩, apply_append_rotating hcap, ha, hlo, hhi, hu,
      by simpa using hlive, by simp, hroom, by simp⟩
  | resume h => exact h.sound hv

theorem Path.sound (h : Path (Step ring) first changes last) (hv : first.Valid ring) :
    (∀ change ∈ changes, ring.Holds change) ∧
      (first.flash ring).applyAll ring.capacity changes = last.flash ring ∧ last.Valid ring := by
  induction h with
  | nil => exact ⟨by simp, rfl, hv⟩
  | @cons before second last change rest hstep _ ih =>
    obtain ⟨hin, hflash, hnext⟩ := hstep.sound hv
    obtain ⟨hrest, hend, hlast⟩ := ih hnext
    refine ⟨?_, ?_, hlast⟩
    · intro other ho
      rcases List.mem_cons.mp ho with rfl | ho
      · exact hin
      · exact hrest other ho
    · rw [Flash.applyAll_cons, hflash, hend]

end Soundness

section Resolution

variable {ring : PageRing} {first last : Layout} {change : Change} {changes : List Change}

/-- The layout in which startup ends. -/
def resolved (ring : PageRing) : Layout → Layout
  | .settled active count used => .settled active count used
  | .rotating active count used copied _ =>
    .settled (ring.next active) (nextCount ring active count) (copied.overlay used.reverse)
  | .retired receiving count used => .settled receiving count used

theorem contents_resolved (ring : PageRing) (layout : Layout) :
    (layout.resolved ring).contents = layout.contents := by
  cases layout <;> rfl

/-- A rotation that goes on ends as it would have ended before. -/
theorem Resuming.resolved_eq (h : Resuming ring first change last) (hv : first.Valid ring) :
    last.resolved ring = first.resolved ring := by
  cases h with
  | mark active count used copied counted => rfl
  | copy active count used copied counted slot h =>
    rw [resolved, resolved, SlotLog.overlay_of_prefix (List.prefix_append copied [slot]) h]
  | count active count used copied counted h => rfl
  | retire active count used copied =>
    rw [resolved, resolved, hv.2.2.2.2.2.2.2 rfl]
  | activate receiving count used => rfl

theorem Path.resuming_sound (h : Path (Resuming ring) first changes last)
    (hv : first.Valid ring) : last.Valid ring ∧ last.resolved ring = first.resolved ring := by
  induction h with
  | nil => exact ⟨hv, rfl⟩
  | cons hstep _ ih =>
    obtain ⟨hlast, hsame⟩ := ih (hstep.sound hv).2.2
    exact ⟨hlast, hsame.trans (hstep.resolved_eq hv)⟩

/-- A rotation that goes on never stands for anything but what it ends with. -/
theorem Path.stands (h : Path (Resuming ring) first changes last) (hv : first.Valid ring) :
    Flash.Throughout (Flash.StandsFor ring first.contents) ring.capacity (first.flash ring)
      changes := by
  induction h with
  | nil => exact ⟨_, hv, rfl, rfl⟩
  | cons hstep _ ih =>
    obtain ⟨-, hflash, hnext⟩ := hstep.sound hv
    refine ⟨⟨_, hv, rfl, rfl⟩, ?_⟩
    rw [hflash, ← contents_resolved ring, ← hstep.resolved_eq hv, contents_resolved]
    exact ih hnext

end Resolution

section Rotations

variable {ring : PageRing} {active count : Nat} {used copied : SlotLog} {counted : Bool}

theorem path_appends {slots : List Slot} (h : copied.overlay used.reverse = copied ++ slots) :
    Path (Resuming ring) (rotating active count used copied counted)
      (appends (ring.next active) copied.length slots)
      (rotating active count used (copied ++ slots) counted) := by
  induction slots generalizing copied with
  | nil =>
    rw [List.append_nil]
    exact .nil _
  | cons slot rest ih =>
    have hone : copied ++ [slot] <+: copied.overlay used.reverse := by
      have hp := List.prefix_append (copied ++ [slot]) rest
      rwa [List.append_assoc, List.singleton_append, ← h] at hp
    have hmore : (copied ++ [slot]).overlay used.reverse = copied ++ [slot] ++ rest := by
      rw [SlotLog.overlay_of_prefix (List.prefix_append copied [slot]) hone, h, List.append_assoc,
        List.singleton_append]
    have hpath := ih hmore
    rw [List.length_append, List.length_singleton, List.append_assoc,
      List.singleton_append] at hpath
    exact .cons (.copy active count used copied counted slot hone) hpath

/-- What is left of a rotation leads to the layout in which it ends. -/
theorem path_remaining {slots : List Slot} (h : copied.overlay used.reverse = copied ++ slots) :
    Path (Resuming ring) (rotating active count used copied counted)
      (remaining ring active count copied slots)
      (settled (ring.next active) (nextCount ring active count) (copied ++ slots)) := by
  have hkept : (copied ++ slots).overlay used.reverse = copied ++ slots := by
    rw [SlotLog.overlay_of_prefix (List.prefix_append copied slots) (h ▸ List.prefix_refl _), h]
  refine (path_appends h).append ?_
  exact .cons (.count _ _ _ _ _ hkept) (.cons (.retire _ _ _ _) (.cons (.activate _ _ _) (.nil _)))

theorem path_resumed {slots : List Slot} (h : copied.overlay used.reverse = copied ++ slots) :
    Path (Resuming ring) (rotating active count used copied counted)
      (rotationChanges active (ring.next active) copied.length (nextCount ring active count) slots)
      (settled (ring.next active) (nextCount ring active count) (copied ++ slots)) :=
  .cons (.mark _ _ _ _ _) (path_remaining h)

theorem path_marked (ring : PageRing) (active count : Nat) (used : SlotLog) :
    Path (Resuming ring) (rotating active count used [] false)
      (remaining ring active count [] used.survivors)
      (settled (ring.next active) (nextCount ring active count) used.survivors) :=
  path_remaining rfl

theorem path_rotation (ring : PageRing) (active count : Nat) (used : SlotLog) :
    Path (Step ring) (settled active count used)
      (rotationChanges active (ring.next active) 0 (nextCount ring active count) used.survivors)
      (settled (ring.next active) (nextCount ring active count) used.survivors) :=
  .cons (.start _ _ _) ((path_marked ring active count used).mono fun _ _ _ => .resume)

/-- Once the slot to be written is copied, its rotation goes on like any other. -/
theorem path_carried (ring : PageRing) (active count : Nat) (used : SlotLog) {slot : Slot}
    (hlive : slot.isLive = true) :
    ∃ rest, SlotLog.survivors (used ++ [slot]) = slot :: rest ∧
      Path (Resuming ring) (rotating active count used [slot] false)
        (remaining ring active count [slot] rest)
        (settled (ring.next active) (nextCount ring active count) (slot :: rest)) := by
  obtain ⟨rest, hrest⟩ := SlotLog.prefix_overlay [slot] used.reverse
  exact ⟨rest, by rw [SlotLog.survivors_concat hlive, ← hrest, List.singleton_append],
    path_remaining hrest.symm⟩

theorem path_carrying (active count : Nat) {slot : Slot} (hlive : slot.isLive = true)
    (hroom : (SlotLog.survivors (used ++ [slot])).length ≤ ring.capacity) :
    Path (Step ring) (settled active count used)
      (rotationChanges active (ring.next active) 0 (nextCount ring active count)
        (SlotLog.survivors (used ++ [slot])))
      (settled (ring.next active) (nextCount ring active count)
        (SlotLog.survivors (used ++ [slot]))) := by
  obtain ⟨rest, hrest, hpath⟩ := path_carried ring active count used hlive
  have hcarry : Step ring (rotating active count used [] false)
      (.slot (ring.next active) 0 slot.encode) (rotating active count used [slot] false) :=
    .carry active count used slot hlive hroom
  rw [hrest]
  exact .cons (.start _ _ _) (.cons hcarry (hpath.mono fun _ _ _ => .resume))

/-- A rotation for its own sake keeps the contents at every moment. -/
theorem throughout_rotation (hv : (settled active count used).Valid ring) :
    Flash.Throughout (Flash.StandsFor ring used.contents) ring.capacity
      ((settled active count used).flash ring)
      (rotationChanges active (ring.next active) 0 (nextCount ring active count)
        used.survivors) := by
  obtain ⟨hmarked, hcontents⟩ := valid_marked hv
  have hrest := (path_marked ring active count used).stands hmarked
  rw [hcontents] at hrest
  refine ⟨⟨_, hv, rfl, rfl⟩, ?_⟩
  rw [apply_mark_settled hv.1]
  exact hrest

/-- A rotation that brings a slot along stands for the old contents until that slot is copied, and
for the new ones from then on. -/
theorem throughout_carrying (hv : (settled active count used).Valid ring) {slot : Slot}
    (hlive : slot.isLive = true)
    (hroom : (SlotLog.survivors (used ++ [slot])).length ≤ ring.capacity) :
    Flash.Throughout
      (fun flash => Flash.StandsFor ring used.contents flash ∨
        Flash.StandsFor ring (used.contents.set slot.key slot.payload) flash) ring.capacity
      ((settled active count used).flash ring)
      (rotationChanges active (ring.next active) 0 (nextCount ring active count)
        (SlotLog.survivors (used ++ [slot]))) := by
  obtain ⟨hmarked, hcontents⟩ := valid_marked hv
  obtain ⟨rest, hrest, hpath⟩ := path_carried ring active count used hlive
  obtain ⟨-, hflash, hcarried⟩ :=
    (Step.carry active count used slot hlive hroom).sound hmarked
  have hnew : (rotating active count used [slot] false).contents =
      used.contents.set slot.key slot.payload := by
    rw [contents, ← SlotLog.survivors_concat hlive, SlotLog.contents_survivors,
      SlotLog.contents_append hlive]
  have hmore := hpath.stands hcarried
  rw [hnew] at hmore
  rw [hrest]
  refine ⟨Or.inl ⟨_, hv, rfl, rfl⟩, ?_⟩
  rw [apply_mark_settled hv.1]
  refine ⟨Or.inl ⟨_, hmarked, rfl, hcontents⟩, ?_⟩
  rw [hflash]
  exact hmore.mono fun _ => Or.inr

end Rotations

end FlashRing.Layout
