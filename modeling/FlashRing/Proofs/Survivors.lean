import FlashRing.Proofs.Contents
import Mathlib.Data.List.Induction

/-!
What a rotation keeps of a log. Main statements: the survivors hold the same contents, a copy that
stopped early goes on to the same end, and listing a log is listing its contents.
-/

namespace FlashRing.SlotLog

theorem overlay_append (log : SlotLog) (first second : List Slot) :
    overlay log (first ++ second) = overlay (overlay log first) second := by
  induction first generalizing log with
  | nil => rfl
  | cons slot rest ih =>
    rw [List.cons_append, overlay, overlay]
    split
    next => exact ih _
    next => exact ih _

theorem overlay_dead (log : SlotLog) {slots : List Slot}
    (h : ∀ slot ∈ slots, slot.isLive = false) : overlay log slots = log := by
  induction slots with
  | nil => rfl
  | cons slot rest ih =>
    rw [overlay, if_neg (by simp [h slot])]
    exact ih fun other ho => h other (List.mem_cons_of_mem slot ho)

theorem isLive_overlay {log : SlotLog} {slots : List Slot} (h : ∀ slot ∈ log, slot.isLive = true) :
    ∀ slot ∈ overlay log slots, slot.isLive = true := by
  induction slots generalizing log with
  | nil => exact h
  | cons slot rest ih =>
    rw [overlay]
    split
    next hs =>
      apply ih
      intro other ho
      rcases List.mem_append.mp ho with ho | ho
      · exact h other ho
      · rw [List.mem_singleton.mp ho]
        exact (Bool.and_eq_true_iff.mp hs).1
    next => exact ih h

theorem isLive_survivors {log : SlotLog} : ∀ slot ∈ survivors log, slot.isLive = true :=
  isLive_overlay (by simp)

theorem overlay_dead_append (copied log : SlotLog) {rest : SlotLog}
    (h : ∀ slot ∈ rest, slot.isLive = false) :
    overlay copied (log ++ rest).reverse = overlay copied log.reverse := by
  rw [List.reverse_append, overlay_append,
    overlay_dead _ fun slot hs => h slot (List.mem_reverse.mp hs)]

theorem survivors_dead_append (log carried : SlotLog) {rest : SlotLog}
    (h : ∀ slot ∈ rest, slot.isLive = false) :
    survivors (log ++ rest ++ carried) = survivors (log ++ carried) := by
  rw [survivors, List.reverse_append, overlay_append, overlay_dead_append _ log h, survivors,
    List.reverse_append, overlay_append]

theorem survivors_concat {log : SlotLog} {slot : Slot} (h : slot.isLive = true) :
    survivors (log ++ [slot]) = overlay [slot] log.reverse := by
  rw [survivors, List.reverse_append, List.reverse_singleton, overlay_append]
  simp [overlay, h, hasKey]

theorem overlay_concat (log : SlotLog) (slots : List Slot) (slot : Slot) :
    overlay log (slots ++ [slot]) =
      if slot.isLive && !(overlay log slots).hasKey slot.key then overlay log slots ++ [slot]
      else overlay log slots := by
  rw [overlay_append, overlay, overlay, overlay]

/-- What is copied onto a log is what would be copied onto none, less the keys that are there. -/
theorem overlay_eq_append (log : SlotLog) (slots : List Slot) :
    overlay log slots = log ++ (overlay [] slots).filter (!log.hasKey ·.key) := by
  induction slots using List.reverseRecOn with
  | nil => simp [overlay]
  | append_singleton rest slot ih =>
    have hhas : (overlay log rest).hasKey slot.key =
        (log.hasKey slot.key || (overlay [] rest).hasKey slot.key) := by
      rw [hasKey_overlay, hasKey_overlay]
      rfl
    rw [overlay_concat, overlay_concat, hhas, ih]
    by_cases hnew : (slot.isLive && !(overlay [] rest).hasKey slot.key) = true
    · rw [if_pos hnew, List.filter_append]
      obtain ⟨hlive, hno⟩ := Bool.and_eq_true_iff.mp hnew
      rw [Bool.not_eq_true'] at hno
      cases hold : log.hasKey slot.key with
      | true => simp [hold]
      | false => simp [hold, hlive, hno]
    · rw [if_neg hnew, if_neg]
      intro hboth
      simp_all

/-- A slot to be written comes first, and the survivors with another key follow. -/
theorem survivors_write (log : SlotLog) {slot : Slot} (h : slot.isLive = true) :
    survivors (log ++ [slot]) = slot :: log.survivors.filter (·.key != slot.key) := by
  rw [survivors_concat h, overlay_eq_append, List.singleton_append]
  congr 1
  apply List.filter_congr
  intro other _
  rw [hasKey_cons, bne_comm]
  simp [hasKey, bne]

/-- A copy that stopped early and starts over ends with the same slots. -/
theorem overlay_of_prefix {log copied : SlotLog} {slots : List Slot} (hl : log <+: copied)
    (hc : copied <+: overlay log slots) : overlay copied slots = overlay log slots := by
  induction slots generalizing log with
  | nil => rw [overlay, overlay, hl.eq_of_length_le hc.length_le]
  | cons slot rest ih =>
    by_cases hs : (slot.isLive && !log.hasKey slot.key) = true
    · have hstep : overlay log (slot :: rest) = overlay (log ++ [slot]) rest := by
        rw [overlay, if_pos hs]
      rw [hstep] at hc ⊢
      -- The log grows up to the copy; from there on both overlays are one.
      rcases Nat.lt_or_ge log.length copied.length with hlt | hge
      · have hl' : log ++ [slot] <+: copied :=
          List.prefix_of_prefix_length_le (prefix_overlay _ rest) hc
            (by rw [List.length_append]; exact hlt)
        have hhas : copied.hasKey slot.key = true := by
          obtain ⟨more, rfl⟩ := hl'
          simp [hasKey_append, hasKey_cons]
        rw [overlay, if_neg (by simp [hhas])]
        exact ih hl' hc
      · rw [← hl.eq_of_length_le hge, hstep]
    · have hstep : overlay log (slot :: rest) = overlay log rest := by
        rw [overlay, if_neg hs]
      have hskip : (slot.isLive && !copied.hasKey slot.key) = false := by
        obtain ⟨more, rfl⟩ := hl
        rw [hasKey_append]
        cases hlive : slot.isLive
        · rfl
        · simp_all
      rw [hstep] at hc ⊢
      rw [overlay, if_neg (by simp [hskip])]
      exact ih hl hc

section Lookup

variable {key : UInt16}

theorem find?_overlay (hk : isCallerKey key = true) (log : SlotLog) (slots : List Slot) :
    (overlay log slots).find? (·.key == key) =
      (log.find? (·.key == key)).or (slots.find? (·.key == key)) := by
  induction slots generalizing log with
  | nil => rw [overlay, List.find?_nil, Option.or_none]
  | cons slot rest ih =>
    rw [overlay, List.find?_cons]
    cases he : slot.key == key with
    | false =>
      split
      next => rw [ih, List.find?_append, List.find?_cons, he, List.find?_nil, Option.or_none]
      next => exact ih log
    | true =>
      have hlive : slot.isLive = true := by rw [Slot.isLive, beq_iff_eq.mp he, hk]
      cases hh : log.find? (·.key == key) with
      | none =>
        have hno : log.hasKey slot.key = false := by
          rw [beq_iff_eq.mp he]
          simpa [hasKey] using hh
        rw [if_pos (by simp [hlive, hno]), ih, List.find?_append, hh, List.find?_cons, he]
        rfl
      | some found =>
        split
        next => rw [ih, List.find?_append, hh]; rfl
        next => rw [ih, hh]; rfl

theorem find?_reverse {log : SlotLog} (hn : (log.map (·.key)).Nodup) :
    log.reverse.find? (·.key == key) = log.find? (·.key == key) := by
  induction log with
  | nil => rfl
  | cons slot rest ih =>
    obtain ⟨hnot, hrest⟩ := List.nodup_cons.mp hn
    rw [List.reverse_cons, List.find?_append, ih hrest, List.find?_cons]
    cases he : slot.key == key with
    | false => rw [List.find?_cons, he, List.find?_nil, Option.or_none]
    | true =>
      have hno : rest.find? (·.key == key) = none := by
        apply List.find?_eq_none.mpr
        intro other ho heq
        apply hnot
        change slot.key ∈ _
        rw [beq_iff_eq.mp he, ← beq_iff_eq.mp heq]
        exact List.mem_map_of_mem ho
      rw [hno, List.find?_cons, he]
      rfl

/-- Where no key occurs twice, every slot is the newest one of its key. -/
theorem newest?_eq_some {log : SlotLog} (hn : (log.map (·.key)).Nodup) {payload : UInt16} :
    newest? log key = some payload ↔ ⟨key, payload⟩ ∈ log := by
  rw [newest?, find?_reverse hn]
  constructor
  · intro h
    obtain ⟨found, hf, hp⟩ := Option.map_eq_some_iff.mp h
    have hkey : found.key = key := by simpa using List.find?_some hf
    rw [← hkey, ← hp]
    exact List.mem_of_find?_eq_some hf
  · intro h
    cases hf : log.find? (·.key == key) with
    | none => exact absurd (List.find?_eq_none.mp hf _ h) (by simp)
    | some found =>
      have hkey : found.key = key := by simpa using List.find?_some hf
      have heq : found = ⟨key, payload⟩ :=
        List.inj_on_of_nodup_map hn (List.mem_of_find?_eq_some hf) h hkey
      rw [heq]
      rfl

/-- A slot of the log hides every copy of its key. -/
theorem newest?_overlay (hk : isCallerKey key = true) (log slots : SlotLog) :
    newest? (overlay log slots.reverse) key = (newest? log key).or (newest? slots key) := by
  rw [overlay_eq_append, newest?_append]
  cases hhas : log.hasKey key with
  | true =>
    have hnone : newest? ((overlay [] slots.reverse).filter (!log.hasKey ·.key)) key = none := by
      rw [newest?_eq_none]
      apply List.any_eq_false.mpr
      intro slot hs he
      have hno := (List.mem_filter.mp hs).2
      rw [beq_iff_eq.mp he, hhas] at hno
      cases hno
    obtain ⟨payload, hp⟩ := Option.isSome_iff_exists.mp ((isSome_newest? log key).trans hhas)
    rw [hnone, hp, Option.none_or, Option.some_or]
  | false =>
    have hnodup : (((overlay [] slots.reverse).filter (!log.hasKey ·.key)).map (·.key)).Nodup :=
      (nodup_survivors slots).sublist (List.filter_sublist.map _)
    rw [newest?_eq_none.mpr hhas, Option.or_none, Option.none_or, newest?, newest?,
      find?_reverse hnodup, List.find?_filter]
    -- The keys that are dropped are others than this one.
    have hsame : (fun slot : Slot => !log.hasKey slot.key && slot.key == key) =
        fun slot => slot.key == key := by
      funext slot
      cases he : slot.key == key with
      | false => rw [Bool.and_false]
      | true => rw [beq_iff_eq.mp he, hhas]; rfl
    simp only [Bool.decide_and, Bool.decide_eq_true, hsame]
    rw [find?_overlay hk, List.find?_nil, Option.none_or]

end Lookup

/-- What is copied from a page does not hide what was there. -/
theorem contents_overlay (log slots : SlotLog) (key : UInt16) :
    contents (overlay log slots.reverse) key = (contents log key).or (contents slots key) := by
  by_cases hk : isCallerKey key = true
  · rw [contents_of_caller hk, contents_of_caller hk, contents_of_caller hk, newest?_overlay hk]
  · rw [Bool.not_eq_true] at hk
    rw [contents_of_not_caller hk, contents_of_not_caller hk, contents_of_not_caller hk]
    rfl

theorem contents_survivors (log : SlotLog) : contents (survivors log) = contents log := by
  funext key
  rw [survivors, contents_overlay]
  by_cases hk : isCallerKey key = true
  · rw [contents_of_caller hk]
    rfl
  · rw [Bool.not_eq_true] at hk
    rw [contents_of_not_caller hk]
    rfl

theorem mem_survivors {log : SlotLog} {key payload : UInt16} :
    ⟨key, payload⟩ ∈ survivors log ↔ contents log key = some payload := by
  rw [← contents_survivors, ← newest?_eq_some (nodup_survivors log)]
  by_cases hk : isCallerKey key = true
  · rw [contents_of_caller hk]
  · have hno : ¬contents (survivors log) key = some payload := by
      rw [contents_of_not_caller (by simpa using hk)]
      simp
    refine iff_of_false (fun h => ?_) hno
    exact hk (isLive_survivors _ ((newest?_eq_some (nodup_survivors log)).mp h))

/-- Listing a log is listing its contents. -/
theorem entries_eq_listing (log : SlotLog) : entries log = (contents log).listing :=
  Contents.eq_listing (pairwise_entries log) fun _ _ => mem_entries.trans mem_survivors

theorem length_insertEntry (entry : UInt16 × UInt16) (list : List (UInt16 × UInt16)) :
    (insertEntry entry list).length = list.length + 1 := by
  induction list with
  | nil => rfl
  | cons other rest ih =>
    rw [insertEntry]
    split
    next => rfl
    next => rw [List.length_cons, ih, List.length_cons]

theorem length_survivors (log : SlotLog) : (survivors log).length = (contents log).size := by
  rw [Contents.size, ← entries_eq_listing, entries]
  induction survivors log with
  | nil => rfl
  | cons slot rest ih => rw [List.foldr_cons, length_insertEntry, ← ih, List.length_cons]

theorem length_overlay_le (log : SlotLog) (slots : List Slot) :
    (overlay log slots).length ≤ log.length + slots.length := by
  induction slots generalizing log with
  | nil => simp [overlay]
  | cons slot rest ih =>
    rw [overlay]
    split
    next =>
      have h := ih (log ++ [slot])
      simp only [List.length_append, List.length_cons, List.length_nil] at h ⊢
      omega
    next =>
      have h := ih log
      simp only [List.length_cons]
      omega

theorem length_survivors_le (log : SlotLog) : (survivors log).length ≤ log.length := by
  have h := length_overlay_le [] log.reverse
  simpa [survivors] using h

/-- What a page adds to a copy is no less than what counts in it. -/
theorem length_survivors_le_overlay (copied log : SlotLog) :
    (survivors log).length ≤ (overlay copied log.reverse).length := by
  -- No key occurs twice among the survivors, so it is enough that each of their keys is there.
  have hsub : (survivors log).map (·.key) ⊆ (overlay copied log.reverse).map (·.key) := by
    intro key hk
    obtain ⟨slot, hs, rfl⟩ := List.mem_map.mp hk
    have hh : hasKey (overlay [] log.reverse) slot.key = true :=
      List.any_eq_true.mpr ⟨slot, hs, beq_self_eq_true _⟩
    have ho : hasKey (overlay copied log.reverse) slot.key = true := by
      rw [hasKey_overlay] at hh ⊢
      rw [show hasKey [] slot.key = false from rfl, Bool.false_or] at hh
      rw [hh, Bool.or_true]
    obtain ⟨other, hm, he⟩ := List.any_eq_true.mp ho
    exact List.mem_map.mpr ⟨other, hm, beq_iff_eq.mp he⟩
  have hle := List.Nodup.length_le_of_subset (nodup_survivors log) hsub
  simpa using hle

end FlashRing.SlotLog
