import FlashRing.Proofs.Layout

/-!
What holds of the flash between changes, and when it stands for contents. Main statements: a copy
that is broken off or goes on is as valid as before and stands for the same contents, and so does a
rotation that has only marked its target.
-/

namespace FlashRing

/-- A property holds before, between and after changes. -/
def Flash.Throughout (P : Flash → Prop) (capacity : Nat) : Flash → List Change → Prop
  | flash, [] => P flash
  | flash, change :: rest => P flash ∧ Throughout P capacity (change.apply capacity flash) rest

namespace Flash.Throughout

variable {P Q : Flash → Prop} {capacity : Nat} {flash : Flash} {changes : List Change}

theorem of_forall (h : ∀ flash, P flash) (changes : List Change) :
    Throughout P capacity flash changes := by
  induction changes generalizing flash with
  | nil => exact h flash
  | cons change rest ih => exact ⟨h flash, ih⟩

theorem take (h : Throughout P capacity flash changes) (n : Nat) :
    P (flash.applyAll capacity (changes.take n)) := by
  induction changes generalizing flash n with
  | nil =>
    rw [List.take_nil]
    exact h
  | cons change rest ih =>
    cases n with
    | zero => exact h.1
    | succ n => exact ih h.2 n

theorem of_take (h : ∀ n, P (flash.applyAll capacity (changes.take n))) :
    Throughout P capacity flash changes := by
  induction changes generalizing flash with
  | nil => exact h 0
  | cons change rest ih => exact ⟨h 0, ih fun n => h (n + 1)⟩

theorem mono (h : Throughout P capacity flash changes) (hpq : ∀ flash, P flash → Q flash) :
    Throughout Q capacity flash changes := by
  induction changes generalizing flash with
  | nil => exact hpq _ h
  | cons change rest ih => exact ⟨hpq _ h.1, ih h.2⟩

end Flash.Throughout

/-- The flash is in a valid layout that stands for the contents. -/
def Flash.StandsFor (ring : PageRing) (contents : Contents) (flash : Flash) : Prop :=
  ∃ layout : Layout, layout.Valid ring ∧ flash = layout.flash ring ∧ layout.contents = contents

/-- The flash stands for one of some contents. -/
def Flash.StandsAmong (ring : PageRing) (stages : Contents → Prop) (flash : Flash) : Prop :=
  ∃ contents, stages contents ∧ flash.StandsFor ring contents

namespace Layout

variable {ring : PageRing} {active count : Nat} {used copied : SlotLog} {counted : Bool}

/-- The last changes of a rotation. -/
def handover (ring : PageRing) (active count : Nat) : List Change :=
  [.header (ring.next active) (Header.counterWord (nextCount ring active count)), .erase active,
    .header (ring.next active) Status.active.programWord]

/-- The changes of a rotation that has copied some slots already. -/
def remaining (ring : PageRing) (active count : Nat) (copied : SlotLog) (slots : List Slot) :
    List Change :=
  appends (ring.next active) copied.length slots ++ handover ring active count

theorem valid_further {further : SlotLog}
    (hv : (rotating active count used copied counted).Valid ring) (hc : copied <+: further)
    (hf : further <+: copied.overlay used.reverse) :
    (rotating active count used further counted).Valid ring ∧
      (rotating active count used further counted).contents =
        (rotating active count used copied counted).contents := by
  obtain ⟨ha, hlo, hhi, hu, hlive, hn, hl, hdone⟩ := hv
  have hsame := SlotLog.overlay_of_prefix hc hf
  refine ⟨⟨ha, hlo, hhi, hu, ?_, ?_, ?_, ?_⟩, ?_⟩
  · intro slot hs
    exact SlotLog.isLive_overlay hlive slot (hf.subset hs)
  · have hsub : (further.map (·.key)).Sublist ((copied.overlay used.reverse).map (·.key)) :=
      hf.sublist.map _
    exact hsub.nodup (SlotLog.nodup_overlay hn)
  · rwa [hsame]
  · intro hcounted
    have hall := hdone hcounted
    rw [hall] at hf
    rw [hsame, hall, hc.eq_of_length_le hf.length_le]
  · rw [contents, contents, hsame]

/-- Before the first slot is copied a rotation has changed nothing. -/
theorem valid_marked (hv : (settled active count used).Valid ring) :
    (rotating active count used [] false).Valid ring ∧
      (rotating active count used [] false).contents = used.contents := by
  obtain ⟨ha, hlo, hhi, hu⟩ := hv
  have hl := (SlotLog.length_survivors_le used).trans hu.1
  refine ⟨⟨ha, hlo, hhi, hu, by simp, List.nodup_nil, hl, by simp⟩, ?_⟩
  exact SlotLog.contents_survivors used

end Layout

end FlashRing
