import FlashRing.Proofs.Survivors
import Mathlib.Data.Finset.Card

/-!
The keys of a log, and what a copy onto slots that are there already takes of it. Main statements:
a copy takes the survivors whose keys the target lacks, in their order, and it grows by as many
slots as there are such keys.
-/

namespace FlashRing.SlotLog

variable {log used : SlotLog} {slots : List Slot} {slot : Slot} {key : UInt16}

/-- The survivors that a copy onto some slots adds to them. -/
def missing (log used : SlotLog) : List Slot :=
  log.survivors.filter (!used.hasKey ·.key)

theorem overlay_reverse (log used : SlotLog) :
    used.overlay log.reverse = used ++ log.missing used :=
  overlay_eq_append used log.reverse

/-- The keys under which callers find something in a log. -/
def keys (log : SlotLog) : Finset UInt16 :=
  ((log.filter (·.isLive)).map (·.key)).toFinset

theorem mem_keys : key ∈ log.keys ↔ isCallerKey key = true ∧ log.hasKey key = true := by
  simp only [keys, List.mem_toFinset, List.mem_map, List.mem_filter, hasKey, List.any_eq_true,
    beq_iff_eq]
  constructor
  · rintro ⟨slot, ⟨hm, hlive⟩, rfl⟩
    exact ⟨hlive, slot, hm, rfl⟩
  · rintro ⟨hk, slot, hm, rfl⟩
    exact ⟨slot, ⟨hm, hk⟩, rfl⟩

theorem keys_append_live (log : SlotLog) (h : slot.isLive = true) :
    keys (log ++ [slot]) = insert slot.key log.keys := by
  ext key
  simp only [keys, List.filter_append, List.map_append, List.mem_toFinset, List.mem_append,
    Finset.mem_insert, List.filter_cons, h, if_true, List.filter_nil, List.map_cons, List.map_nil,
    List.mem_singleton]
  exact or_comm

theorem mem_keys_survivors : key ∈ log.survivors.map (·.key) ↔ key ∈ log.keys := by
  rw [List.mem_map, mem_keys]
  constructor
  · rintro ⟨slot, hm, rfl⟩
    have hlive := isLive_survivors slot hm
    have hsome := mem_survivors.mp hm
    rw [contents_of_caller hlive] at hsome
    refine ⟨hlive, ?_⟩
    rw [← isSome_newest?, hsome]
    rfl
  · rintro ⟨hk, hhas⟩
    rw [← isSome_newest?] at hhas
    obtain ⟨payload, hp⟩ := Option.isSome_iff_exists.mp hhas
    exact ⟨⟨key, payload⟩, mem_survivors.mpr (by rwa [contents_of_caller hk]), rfl⟩

theorem toFinset_survivors (log : SlotLog) : (log.survivors.map (·.key)).toFinset = log.keys := by
  ext key
  rw [List.mem_toFinset, mem_keys_survivors]

theorem liveKeys_concat (log : SlotLog) (slot : Slot) :
    liveKeys (log ++ [slot]) =
      if slot.isLive then log.liveKeys.insert slot.key else log.liveKeys := by
  rw [liveKeys, List.foldl_append]
  rfl

theorem nodup_liveKeys (log : SlotLog) : log.liveKeys.Nodup := by
  induction log using List.reverseRecOn with
  | nil => exact List.nodup_nil
  | append_singleton log slot ih =>
    rw [liveKeys_concat]
    split
    next => exact ih.insert
    next => exact ih

theorem toFinset_liveKeys (log : SlotLog) : log.liveKeys.toFinset = log.keys := by
  induction log using List.reverseRecOn with
  | nil => rfl
  | append_singleton log slot ih =>
    rw [liveKeys_concat]
    split
    next hlive =>
      ext key
      rw [keys_append_live log hlive, ← ih, Finset.mem_insert, List.mem_toFinset,
        List.mem_insert_iff, List.mem_toFinset]
    next hdead =>
      rw [ih, keys, keys, List.filter_append, List.filter_cons_of_neg hdead, List.filter_nil,
        List.append_nil]

theorem length_liveKeys (log : SlotLog) : log.liveKeys.length = log.keys.card := by
  rw [← toFinset_liveKeys, List.toFinset_card_of_nodup log.nodup_liveKeys]

theorem length_survivors_eq_card (log : SlotLog) : log.survivors.length = log.keys.card := by
  rw [← toFinset_survivors, List.toFinset_card_of_nodup log.nodup_survivors, List.length_map]

/-- A slot with the key of a caller is carried over. -/
theorem isLive_carried (hk : isCallerKey key = true) (payload : UInt16) :
    ∀ slot ∈ some (Slot.mk key payload), slot.isLive = true := by
  rintro _ ⟨⟩
  exact hk

/-- As many slots survive as there are keys, a slot that is to be written included. -/
theorem liveCount_eq (log : SlotLog) {carried : Option Slot}
    (hlive : ∀ slot ∈ carried, slot.isLive = true) :
    log.liveCount carried = (survivors (log ++ carried.toList)).length := by
  rw [length_survivors_eq_card, ← length_liveKeys, liveCount]
  cases carried with
  | none => rw [Option.toList_none, List.append_nil, Option.elim_none]
  | some slot =>
    rw [Option.toList_some, liveKeys_concat, if_pos (hlive slot rfl), Option.elim_some]

theorem length_missing (log used : SlotLog) :
    (log.missing used).length = (log.keys.filter fun key => used.hasKey key = false).card := by
  have hnodup : ((log.missing used).map (·.key)).Nodup :=
    log.nodup_survivors.sublist (List.filter_sublist.map _)
  have hkeys : ((log.missing used).map (·.key)).toFinset =
      log.keys.filter fun key => used.hasKey key = false := by
    ext key
    rw [List.mem_toFinset, Finset.mem_filter, ← mem_keys_survivors]
    simp only [missing, List.mem_map, List.mem_filter, Bool.not_eq_true']
    constructor
    · rintro ⟨slot, ⟨hm, hno⟩, rfl⟩
      exact ⟨⟨slot, hm, rfl⟩, hno⟩
    · rintro ⟨⟨slot, hm, rfl⟩, hno⟩
      exact ⟨slot, ⟨hm, hno⟩, rfl⟩
  rw [← hkeys, List.toFinset_card_of_nodup hnodup, List.length_map]

end FlashRing.SlotLog
