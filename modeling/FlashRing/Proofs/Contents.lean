import FlashRing.Page.Log
import Mathlib.Data.List.Sort
import Mathlib.Logic.Function.Basic

/-!
What callers find under their keys, and how it is kept in a log of slots. Main statements: appending
a slot sets one key, survivors keep the contents, and the entries of a log list them.
-/

namespace FlashRing

/-- What callers find under their keys. -/
abbrev Contents := UInt16 → Option UInt16

namespace Contents

def empty : Contents := fun _ => none

def set (contents : Contents) (key payload : UInt16) : Contents :=
  Function.update contents key (some payload)

def erase (contents : Contents) (key : UInt16) : Contents :=
  Function.update contents key none

/-- Every key that holds something with its payload, in ascending order of the keys. -/
def listing (contents : Contents) : List (UInt16 × UInt16) :=
  (List.range 0x10000).filterMap fun n =>
    (contents (.ofNat n)).map fun payload => (.ofNat n, payload)

/-- The number of keys that hold something. -/
def size (contents : Contents) : Nat :=
  contents.listing.length

theorem mem_listing {contents : Contents} {key payload : UInt16} :
    (key, payload) ∈ contents.listing ↔ contents key = some payload := by
  unfold listing
  rw [List.mem_filterMap]
  constructor
  · rintro ⟨n, -, h⟩
    obtain ⟨found, hf, he⟩ := Option.map_eq_some_iff.mp h
    obtain ⟨rfl, rfl⟩ := Prod.mk.inj he
    exact hf
  · intro h
    refine ⟨key.toNat, List.mem_range.mpr key.toNat_lt, ?_⟩
    rw [UInt16.ofNat_toNat, h]
    rfl

theorem pairwise_listing (contents : Contents) : contents.listing.Pairwise (·.1 < ·.1) := by
  apply List.pairwise_filterMap.mpr
  apply List.pairwise_lt_range.imp_of_mem
  intro m n hm hn hlt a ha b hb
  obtain ⟨-, -, rfl⟩ := Option.map_eq_some_iff.mp ha
  obtain ⟨-, -, rfl⟩ := Option.map_eq_some_iff.mp hb
  rw [List.mem_range] at hm hn
  rw [UInt16.lt_iff_toNat_lt, UInt16.toNat_ofNat_of_lt' hm, UInt16.toNat_ofNat_of_lt' hn]
  exact hlt

/-- A list in ascending order that has the same pairs is the listing. -/
theorem eq_listing {contents : Contents} {list : List (UInt16 × UInt16)}
    (hs : list.Pairwise (·.1 < ·.1))
    (h : ∀ key payload, (key, payload) ∈ list ↔ contents key = some payload) :
    list = contents.listing := by
  have hi : Std.Irrefl fun a b : UInt16 × UInt16 => a.1 < b.1 := ⟨fun a => UInt16.lt_irrefl a.1⟩
  have ha : Std.Antisymm fun a b : UInt16 × UInt16 => a.1 < b.1 :=
    ⟨fun _ _ hab hba => absurd (UInt16.lt_trans hab hba) (UInt16.lt_irrefl _)⟩
  apply List.Pairwise.eq_of_mem_iff hs contents.pairwise_listing
  rintro ⟨key, payload⟩
  rw [h, mem_listing]

@[simp] theorem set_self (contents : Contents) (key payload : UInt16) :
    contents.set key payload key = some payload :=
  Function.update_self ..

theorem set_of_ne (contents : Contents) {key other : UInt16} (payload : UInt16)
    (h : other ≠ key) : contents.set key payload other = contents other :=
  Function.update_of_ne h ..

theorem nodup_listing (contents : Contents) : contents.listing.Nodup := by
  apply contents.pairwise_listing.imp
  rintro a b hlt rfl
  exact UInt16.lt_irrefl _ hlt

theorem size_set_of_none {contents : Contents} {key : UInt16} (payload : UInt16)
    (h : contents key = none) : (contents.set key payload).size = contents.size + 1 := by
  have hnot : (key, payload) ∉ contents.listing := by
    simp [mem_listing, h]
  have hperm : (contents.set key payload).listing.Perm ((key, payload) :: contents.listing) := by
    apply (List.perm_ext_iff_of_nodup (nodup_listing _)
      (List.nodup_cons.mpr ⟨hnot, nodup_listing _⟩)).mpr
    rintro ⟨other, value⟩
    rw [mem_listing, List.mem_cons, mem_listing]
    by_cases he : other = key
    · subst he
      simp [h, eq_comm]
    · simp [set_of_ne _ _ he, he]
  rw [size, hperm.length_eq, List.length_cons, size]

theorem size_set_of_some {contents : Contents} {key old : UInt16} (payload : UInt16)
    (h : contents key = some old) : (contents.set key payload).size = contents.size := by
  have hnone : contents.erase key key = none := Function.update_self ..
  have herase : (contents.erase key).size + 1 = contents.size := by
    rw [← size_set_of_none old hnone, set, erase, Function.update_idem, ← h,
      Function.update_eq_self]
  rw [← herase, ← size_set_of_none payload hnone, set, erase, set, Function.update_idem]

theorem set_eq_self {contents : Contents} {key payload : UInt16}
    (h : contents key = some payload) : contents.set key payload = contents := by
  rw [set, ← h, Function.update_eq_self]

end Contents

namespace SlotLog

theorem newest?_append (log rest : SlotLog) (key : UInt16) :
    newest? (log ++ rest) key = (newest? rest key).or (newest? log key) := by
  rw [newest?, List.reverse_append, List.find?_append, newest?, newest?]
  cases rest.reverse.find? (·.key == key) <;> rfl

theorem newest?_cons (slot : Slot) (rest : SlotLog) (key : UInt16) :
    newest? (slot :: rest) key =
      (newest? rest key).or (if slot.key = key then some slot.payload else none) := by
  rw [← List.singleton_append, newest?_append]
  congr 1
  by_cases h : slot.key = key
  · simp [newest?, h]
  · simp [newest?, h]

theorem newest?_eq_none {log : SlotLog} {key : UInt16} :
    newest? log key = none ↔ hasKey log key = false := by
  simp [newest?, hasKey]

theorem isSome_newest? (log : SlotLog) (key : UInt16) :
    (newest? log key).isSome = hasKey log key := by
  cases hn : newest? log key with
  | none => exact (newest?_eq_none.mp hn).symm
  | some payload =>
    cases hk : hasKey log key with
    | false =>
      rw [newest?_eq_none.mpr hk] at hn
      cases hn
    | true => rfl

/-- What callers find in a log. -/
def contents (log : SlotLog) : Contents := fun key =>
  if isCallerKey key then newest? log key else none

theorem contents_of_caller {log : SlotLog} {key : UInt16} (h : isCallerKey key = true) :
    contents log key = newest? log key :=
  if_pos h

theorem contents_of_not_caller {log : SlotLog} {key : UInt16} (h : isCallerKey key = false) :
    contents log key = none :=
  if_neg (by simp [h])

theorem contents_append {log : SlotLog} {slot : Slot} (h : slot.isLive = true) :
    contents (log ++ [slot]) = Contents.set (contents log) slot.key slot.payload := by
  funext key
  by_cases hk : isCallerKey key = true
  · rw [contents_of_caller hk, newest?_append, newest?_cons]
    by_cases he : slot.key = key
    · subst he
      simp [newest?]
    · rw [Contents.set_of_ne _ _ (Ne.symm he), contents_of_caller hk]
      simp [newest?, he]
  · have hne : key ≠ slot.key := fun he => hk (he ▸ h)
    rw [Bool.not_eq_true] at hk
    rw [Contents.set_of_ne _ _ hne, contents_of_not_caller hk, contents_of_not_caller hk]

/-- Slots that no caller sees do not change the contents. -/
theorem contents_append_dead {log rest : SlotLog} (h : ∀ slot ∈ rest, slot.isLive = false) :
    contents (log ++ rest) = contents log := by
  funext key
  by_cases hk : isCallerKey key = true
  · rw [contents_of_caller hk, contents_of_caller hk, newest?_append]
    have hn : newest? rest key = none := by
      rw [newest?_eq_none]
      apply List.any_eq_false.mpr
      intro slot hs he
      have hl := h slot hs
      rw [Slot.isLive, beq_iff_eq.mp he, hk] at hl
      cases hl
    rw [hn, Option.none_or]
  · rw [Bool.not_eq_true] at hk
    rw [contents_of_not_caller hk, contents_of_not_caller hk]

end SlotLog

end FlashRing
