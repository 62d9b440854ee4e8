import FlashRing.Page.Slot

/-!
The slots of a page, head first, read as a log: of several slots with one key the one nearest to
the tail counts. Main definitions: `newest?` looks a key up, `survivors` keeps what counts, newest
first, `entries` lists it by key, and `liveKeys` are the keys there are.
-/

namespace FlashRing

/-- The slots of a page, head first. -/
abbrev SlotLog := List Slot

namespace SlotLog

/-- The payload of the last slot with the key. -/
def newest? (log : SlotLog) (key : UInt16) : Option UInt16 :=
  (log.reverse.find? (·.key == key)).map (·.payload)

/-- Some slot has the key. -/
def hasKey (log : SlotLog) (key : UInt16) : Bool :=
  log.any (·.key == key)

/-- Appends the live slots whose keys are not there yet, in the order given. -/
def overlay (log : SlotLog) : List Slot → SlotLog
  | [] => log
  | slot :: rest =>
    if slot.isLive && !log.hasKey slot.key then overlay (log ++ [slot]) rest
    else overlay log rest

/-- The last live slot of each key, the one nearest to the tail first. -/
def survivors (log : SlotLog) : List Slot :=
  overlay [] log.reverse

/-- Puts an entry in front of the first one with a larger key. -/
def insertEntry (entry : UInt16 × UInt16) : List (UInt16 × UInt16) → List (UInt16 × UInt16)
  | [] => [entry]
  | other :: rest =>
    if entry.1 < other.1 then entry :: other :: rest else other :: insertEntry entry rest

/-- The keys and payloads that count, in ascending order of the keys. -/
def entries (log : SlotLog) : List (UInt16 × UInt16) :=
  log.survivors.foldr (fun slot list => insertEntry (slot.key, slot.payload) list) []

/-- The keys of the live slots, each of them once. -/
def liveKeys (log : SlotLog) : List UInt16 :=
  log.foldl (fun keys slot => if slot.isLive then keys.insert slot.key else keys) []

/-- The number of live keys once a slot has been added, if there is one to add. -/
def liveCount (log : SlotLog) (carried : Option Slot) : Nat :=
  (carried.elim log.liveKeys (log.liveKeys.insert ·.key)).length

/-- The slots before the first free one. -/
def used (log : SlotLog) : List Slot :=
  log.takeWhile (!·.isFree)

theorem hasKey_append (log rest : SlotLog) (key : UInt16) :
    hasKey (log ++ rest) key = (hasKey log key || hasKey rest key) := by
  simp [hasKey]

theorem hasKey_cons (slot : Slot) (rest : SlotLog) (key : UInt16) :
    hasKey (slot :: rest) key = (slot.key == key || hasKey rest key) := rfl

/-- Slots already in the log stay where they are. -/
theorem prefix_overlay (log : SlotLog) (slots : List Slot) : log <+: log.overlay slots := by
  induction slots generalizing log with
  | nil => exact List.prefix_refl log
  | cons slot rest ih =>
    unfold overlay
    split
    next => exact (List.prefix_append log [slot]).trans (ih _)
    next => exact ih log

/-- A key is in the result if it was there or if a live slot brings it. -/
theorem hasKey_overlay (log : SlotLog) (slots : List Slot) (key : UInt16) :
    (log.overlay slots).hasKey key =
      (log.hasKey key || hasKey (slots.filter (·.isLive)) key) := by
  induction slots generalizing log with
  | nil => simp [overlay, hasKey]
  | cons slot rest ih =>
    unfold overlay
    cases hl : slot.isLive
    · simp [ih, hl]
    · cases hk : log.hasKey slot.key
      · simp [ih, hl, hasKey_append, hasKey_cons, show hasKey [] key = false from rfl,
          Bool.or_assoc]
      · by_cases he : slot.key = key
        · subst he
          simp [ih, hk]
        · simp [ih, hl, hasKey_cons, beq_eq_false_iff_ne.mpr he]

/-- No key is taken twice. -/
theorem nodup_overlay {log : SlotLog} {slots : List Slot} (h : (log.map (·.key)).Nodup) :
    ((log.overlay slots).map (·.key)).Nodup := by
  induction slots generalizing log with
  | nil => exact h
  | cons slot rest ih =>
    unfold overlay
    split
    next hs =>
      have hk : log.hasKey slot.key = false := by simp_all
      apply ih
      rw [List.map_append, List.nodup_append]
      refine ⟨h, by simp, ?_⟩
      intro a ha b hb
      obtain ⟨s, hs, rfl⟩ := List.mem_map.mp ha
      obtain rfl : b = slot.key := by simpa using hb
      simpa using List.any_eq_false.mp hk s hs
    next => exact ih h

theorem nodup_survivors (log : SlotLog) : (log.survivors.map (·.key)).Nodup :=
  nodup_overlay List.nodup_nil

theorem mem_insertEntry {entry other : UInt16 × UInt16} {list : List (UInt16 × UInt16)} :
    other ∈ insertEntry entry list ↔ other = entry ∨ other ∈ list := by
  induction list with
  | nil => simp [insertEntry]
  | cons first rest ih =>
    unfold insertEntry
    split
    next => simp
    next =>
      rw [List.mem_cons, ih, List.mem_cons]
      constructor
      · rintro (h | h | h)
        · exact Or.inr (Or.inl h)
        · exact Or.inl h
        · exact Or.inr (Or.inr h)
      · rintro (h | h | h)
        · exact Or.inr (Or.inl h)
        · exact Or.inl h
        · exact Or.inr (Or.inr h)

theorem pairwise_insertEntry {entry : UInt16 × UInt16} {list : List (UInt16 × UInt16)}
    (hs : list.Pairwise (·.1 < ·.1)) (hn : ∀ other ∈ list, other.1 ≠ entry.1) :
    (insertEntry entry list).Pairwise (·.1 < ·.1) := by
  induction list with
  | nil => simp [insertEntry]
  | cons first rest ih =>
    have hfirst := (List.pairwise_cons.mp hs).1
    unfold insertEntry
    split
    next hlt =>
      refine List.pairwise_cons.mpr ⟨?_, hs⟩
      intro other ho
      rcases List.mem_cons.mp ho with rfl | ho
      · exact hlt
      · exact UInt16.lt_trans hlt (hfirst other ho)
    next hge =>
      refine List.pairwise_cons.mpr ⟨?_, ih (List.pairwise_cons.mp hs).2 ?_⟩
      · intro other ho
        rcases mem_insertEntry.mp ho with rfl | ho
        · have hne := hn first (by simp)
          exact UInt16.lt_of_le_of_ne (UInt16.not_lt.mp hge) hne
        · exact hfirst other ho
      · exact fun other ho => hn other (List.mem_cons_of_mem first ho)

/-- The entries are the survivors as pairs. -/
theorem mem_entries {log : SlotLog} {key payload : UInt16} :
    (key, payload) ∈ log.entries ↔ ⟨key, payload⟩ ∈ log.survivors := by
  unfold entries
  induction log.survivors with
  | nil => simp
  | cons slot rest ih =>
    rw [List.foldr_cons, mem_insertEntry, ih, List.mem_cons]
    constructor
    · rintro (h | h)
      · obtain ⟨hk, hp⟩ := Prod.mk.inj h
        exact Or.inl (by rw [hk, hp])
      · exact Or.inr h
    · rintro (h | h)
      · exact Or.inl (by rw [← h])
      · exact Or.inr h

/-- The entries stand in strictly ascending order of their keys. -/
theorem pairwise_entries (log : SlotLog) : log.entries.Pairwise (·.1 < ·.1) := by
  have hn := log.nodup_survivors
  unfold entries
  suffices h : ∀ slots : List Slot, (slots.map (·.key)).Nodup →
      (slots.foldr (fun slot list => insertEntry (slot.key, slot.payload) list) []).Pairwise
        (·.1 < ·.1) ∧
      ∀ entry ∈ slots.foldr (fun slot list => insertEntry (slot.key, slot.payload) list) [],
        entry.1 ∈ slots.map (·.key) from (h _ hn).1
  intro slots hd
  induction slots with
  | nil => simp
  | cons slot rest ih =>
    obtain ⟨hnot, hrest⟩ := List.nodup_cons.mp hd
    obtain ⟨hsorted, hkeys⟩ := ih hrest
    refine ⟨pairwise_insertEntry hsorted ?_, ?_⟩
    · intro other ho he
      have hk := hkeys other ho
      rw [he] at hk
      exact hnot hk
    · intro entry he
      rcases mem_insertEntry.mp he with rfl | he
      · simp
      · exact List.mem_cons_of_mem _ (hkeys entry he)

end SlotLog

end FlashRing
