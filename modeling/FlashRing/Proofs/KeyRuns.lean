import FlashRing.Proofs.Contents
import FlashRing.Store.ByteArray
import Mathlib.Data.Finset.Card

/-!
Runs of consecutive keys. Main statements: putting payloads under a run sets one key after the
other, taking a run away clears one key after the other, and both change the keys that hold
something by the keys of the run.
-/

namespace FlashRing

variable {base key : UInt16} {offset count : Nat}

theorem isCallerKey_iff : isCallerKey key = true ↔ key.toNat ≠ 0 ∧ key.toNat < 0xFFFF := by
  have hlt := key.toNat_lt
  have hfree : (0xFFFF : UInt16).toNat = 0xFFFF := rfl
  have hzero : (0 : UInt16).toNat = 0 := rfl
  simp only [isCallerKey, Bool.and_eq_true, bne_iff_ne, ne_eq, ← UInt16.toNat_inj, hfree, hzero]
  omega

theorem offsetKey_eq_some :
    offsetKey base offset = some key ↔
      isCallerKey key = true ∧ key.toNat = base.toNat + offset := by
  have hlt := key.toNat_lt
  unfold offsetKey
  dsimp only
  rw [isCallerKey_iff]
  split
  next h =>
    have hsmall : base.toNat + offset < UInt16.size := by
      have hs : UInt16.size = 0x10000 := rfl
      omega
    rw [Option.some.injEq, ← UInt16.toNat_inj, UInt16.toNat_ofNat_of_lt' hsmall]
    omega
  next h =>
    simp only [reduceCtorEq, false_iff]
    omega

theorem offsetKey_eq_none (h : base ≠ 0) :
    offsetKey base offset = none ↔ 0xFFFF ≤ base.toNat + offset := by
  have hne : base.toNat ≠ 0 := fun he => h (UInt16.toNat_inj.mp he)
  unfold offsetKey
  dsimp only
  split
  next hin => simp only [reduceCtorEq, false_iff]; omega
  next hout => simp only [true_iff]; omega

theorem offsetKey_zero (h : isCallerKey key = true) : offsetKey key 0 = some key :=
  offsetKey_eq_some.mpr ⟨h, rfl⟩

/-- The length that a first payload tells is its high byte. -/
theorem arrayLength_eq (head : UInt16) : arrayLength head = head.toNat / 256 := by
  rw [arrayLength, UInt16.toNat_shiftRight, Nat.shiftRight_eq_div_pow]
  rfl

/-- Every key of a run is one that callers may use. -/
def RunFits (base : UInt16) (count : Nat) : Prop :=
  base ≠ 0 ∧ base.toNat + count ≤ 0xFFFF

instance : Decidable (RunFits base count) :=
  inferInstanceAs (Decidable (_ ∧ _))

theorem RunFits.mono {smaller : Nat} (h : RunFits base count) (hle : smaller ≤ count) :
    RunFits base smaller :=
  ⟨h.1, by have := h.2; omega⟩

theorem toNat_ne_zero (h : base ≠ 0) : base.toNat ≠ 0 :=
  fun he => h (UInt16.toNat_inj.mp he)

theorem RunFits.offsetKey (h : RunFits base count) (hlt : offset < count) :
    ∃ key, offsetKey base offset = some key := by
  have hne := toNat_ne_zero h.1
  have hle := h.2
  exact ⟨_, if_pos (by omega)⟩

/-- The keys of a run are the numbers that follow its first. -/
theorem RunFits.offsetKey_eq_some (h : RunFits base count) (hlt : offset < count) :
    FlashRing.offsetKey base offset = some key ↔ key.toNat = base.toNat + offset := by
  have hne := toNat_ne_zero h.1
  have hle := h.2
  rw [FlashRing.offsetKey_eq_some, isCallerKey_iff]
  omega

theorem RunFits.isCallerKey (h : RunFits base count) (hpos : 0 < count) :
    FlashRing.isCallerKey base = true := by
  have hend := h.2
  exact isCallerKey_iff.mpr ⟨toNat_ne_zero h.1, by omega⟩

/-- A run is one of callers if its first and its last key are. -/
theorem runFits_iff (hpos : 0 < count) :
    RunFits base count ↔ isCallerKey base = true ∧ (offsetKey base (count - 1)).isSome := by
  constructor
  · intro h
    obtain ⟨last, hlast⟩ := h.offsetKey (Nat.sub_lt hpos Nat.one_pos)
    exact ⟨h.isCallerKey hpos, by rw [hlast, Option.isSome_some]⟩
  · rintro ⟨hk, hlast⟩
    obtain ⟨last, hlast⟩ := Option.isSome_iff_exists.mp hlast
    obtain ⟨hcaller, he⟩ := offsetKey_eq_some.mp hlast
    have hend := (isCallerKey_iff.mp hcaller).2
    have hne := (isCallerKey_iff.mp hk).1
    exact ⟨fun hz => hne (by rw [hz]; rfl), by omega⟩

/-- The keys of a run that callers may use: the numbers from the base on, between 0 and 0xFFFF. -/
def runKeys (base : UInt16) (count : Nat) : Finset UInt16 :=
  (((List.range' base.toNat count).filter fun n => 0 < n ∧ n < 0xFFFF).map UInt16.ofNat).toFinset

theorem mem_runKeys :
    key ∈ runKeys base count ↔
      isCallerKey key = true ∧ base.toNat ≤ key.toNat ∧ key.toNat < base.toNat + count := by
  simp only [runKeys, List.mem_toFinset, List.mem_map, List.mem_filter, List.mem_range'_1,
    decide_eq_true_eq, isCallerKey_iff]
  constructor
  · rintro ⟨n, ⟨⟨hle, hlt⟩, hpos, hmax⟩, rfl⟩
    have hn : (UInt16.ofNat n).toNat = n :=
      UInt16.toNat_ofNat_of_lt' (show n < 0x10000 by omega)
    omega
  · rintro ⟨hk, hle, hlt⟩
    exact ⟨key.toNat, by omega, UInt16.ofNat_toNat⟩

theorem runKeys_mono {smaller : Nat} (hle : smaller ≤ count) :
    runKeys base smaller ⊆ runKeys base count := by
  intro key hm
  obtain ⟨hk, hlo, hhi⟩ := mem_runKeys.mp hm
  exact mem_runKeys.mpr ⟨hk, hlo, by omega⟩

theorem mem_runKeys_of_offsetKey (h : offsetKey base offset = some key) :
    key ∈ runKeys base count ↔ offset < count := by
  obtain ⟨hk, he⟩ := offsetKey_eq_some.mp h
  rw [mem_runKeys]
  exact ⟨fun hm => by have := hm.2.2; omega, fun hlt => ⟨hk, by omega, by omega⟩⟩

theorem runKeys_zero (base : UInt16) : runKeys base 0 = ∅ := rfl

theorem runKeys_succ (h : offsetKey base count = some key) :
    runKeys base (count + 1) = insert key (runKeys base count) := by
  obtain ⟨hk, he⟩ := offsetKey_eq_some.mp h
  ext other
  rw [Finset.mem_insert, mem_runKeys, mem_runKeys, ← UInt16.toNat_inj]
  constructor
  · rintro ⟨ho, hle, hlt⟩
    by_cases hlast : other.toNat = key.toNat
    · exact Or.inl hlast
    · exact Or.inr ⟨ho, hle, by omega⟩
  · rintro (hlast | ⟨ho, hle, hlt⟩)
    · exact ⟨UInt16.toNat_inj.mp hlast ▸ hk, by omega, by omega⟩
    · exact ⟨ho, hle, by omega⟩

/-- A run ends with the last key of callers. -/
theorem runKeys_add_of_none (hbase : base ≠ 0) (h : offsetKey base count = none) (more : Nat) :
    runKeys base (count + more) = runKeys base count := by
  have hend := (offsetKey_eq_none hbase).mp h
  ext key
  rw [mem_runKeys, mem_runKeys]
  constructor
  · rintro ⟨hk, hle, -⟩
    have hlt := (isCallerKey_iff.mp hk).2
    exact ⟨hk, hle, by omega⟩
  · rintro ⟨hk, hle, hlt⟩
    exact ⟨hk, hle, by omega⟩

namespace Contents

variable {contents : Contents} {dropped : Finset UInt16} {payload : UInt16}
  {payloads : List UInt16}

/-- The keys that hold something. -/
def keys (contents : Contents) : Finset UInt16 :=
  (contents.listing.map (·.1)).toFinset

theorem mem_keys : key ∈ contents.keys ↔ contents key ≠ none := by
  rw [keys, List.mem_toFinset, List.mem_map, Option.ne_none_iff_exists']
  constructor
  · rintro ⟨⟨found, payload⟩, hm, rfl⟩
    exact ⟨payload, mem_listing.mp hm⟩
  · rintro ⟨payload, hp⟩
    exact ⟨(key, payload), mem_listing.mpr hp, rfl⟩

theorem card_keys (contents : Contents) : contents.keys.card = contents.size := by
  have hn : (contents.listing.map (·.1)).Nodup := by
    apply List.Pairwise.map _ _ contents.pairwise_listing
    intro a b hlt he
    rw [he] at hlt
    exact UInt16.lt_irrefl _ hlt
  rw [keys, List.toFinset_card_of_nodup hn, List.length_map, size]

/-- The contents without some keys. -/
def without (contents : Contents) (dropped : Finset UInt16) : Contents := fun key =>
  if key ∈ dropped then none else contents key

theorem without_empty (contents : Contents) : contents.without ∅ = contents := by
  funext key
  exact if_neg (Finset.notMem_empty key)

theorem without_of_mem (h : key ∈ dropped) : contents.without dropped key = none :=
  if_pos h

theorem without_of_notMem (h : key ∉ dropped) : contents.without dropped key = contents key :=
  if_neg h

theorem without_insert (contents : Contents) (key : UInt16) (dropped : Finset UInt16) :
    contents.without (insert key dropped) = (contents.without dropped).erase key := by
  funext other
  rw [erase]
  by_cases he : other = key
  · rw [he, Function.update_self, without_of_mem (Finset.mem_insert_self key dropped)]
  · rw [Function.update_of_ne he]
    simp only [without, Finset.mem_insert, he, false_or]

theorem keys_without (contents : Contents) (dropped : Finset UInt16) :
    (contents.without dropped).keys = contents.keys \ dropped := by
  ext key
  rw [mem_keys, Finset.mem_sdiff, mem_keys, without]
  split
  next hm => simp [hm]
  next hm => simp [hm]

theorem size_without_le (contents : Contents) (dropped : Finset UInt16) :
    (contents.without dropped).size ≤ contents.size := by
  rw [← card_keys, ← card_keys, keys_without]
  exact Finset.card_le_card Finset.sdiff_subset

/-- The contents with payloads under consecutive keys. -/
def put (contents : Contents) (base : UInt16) (payloads : List UInt16) : Contents := fun key =>
  if base ≤ key then payloads[key.toNat - base.toNat]?.or (contents key) else contents key

theorem put_nil (contents : Contents) (base : UInt16) : contents.put base [] = contents := by
  funext key
  simp [put]

theorem put_of_offsetKey (contents : Contents) (h : offsetKey base offset = some key)
    (payloads : List UInt16) :
    contents.put base payloads key = payloads[offset]?.or (contents key) := by
  obtain ⟨-, he⟩ := offsetKey_eq_some.mp h
  rw [put, if_pos (UInt16.le_iff_toNat_le.mpr (by omega)),
    show key.toNat - base.toNat = offset by omega]

theorem put_of_notMem (hfits : RunFits base payloads.length)
    (h : key ∉ runKeys base payloads.length) : contents.put base payloads key = contents key := by
  rw [put]
  split
  next hle =>
    rw [UInt16.le_iff_toNat_le] at hle
    have hne := toNat_ne_zero hfits.1
    have hend := hfits.2
    have hout : payloads.length ≤ key.toNat - base.toNat := by
      by_contra hin
      have hk : isCallerKey key = true := isCallerKey_iff.mpr ⟨by omega, by omega⟩
      exact h (mem_runKeys.mpr ⟨hk, hle, by omega⟩)
    rw [List.getElem?_eq_none hout, Option.none_or]
  next => rfl

theorem put_concat (h : offsetKey base payloads.length = some key) :
    contents.put base (payloads ++ [payload]) = (contents.put base payloads).set key payload := by
  obtain ⟨-, he⟩ := offsetKey_eq_some.mp h
  funext other
  by_cases ho : other = key
  · rw [ho, set_self, put_of_offsetKey contents h, List.getElem?_concat_length, Option.some_or]
  · rw [set_of_ne _ _ ho, put, put]
    split
    next hle =>
      rw [UInt16.le_iff_toNat_le] at hle
      have hne : other.toNat ≠ key.toNat := fun h => ho (UInt16.toNat_inj.mp h)
      rcases Nat.lt_or_ge (other.toNat - base.toNat) payloads.length with hlt | hge
      · rw [List.getElem?_append_left hlt]
      · rw [List.getElem?_eq_none hge, List.getElem?_eq_none]
        rw [List.length_append, List.length_singleton]
        omega
    next => rfl

theorem put_take_succ (contents : Contents) (h : offsetKey base offset = some key)
    (hlt : offset < payloads.length) :
    contents.put base (payloads.take (offset + 1)) =
      (contents.put base (payloads.take offset)).set key payloads[offset] := by
  have hlen : (payloads.take offset).length = offset := List.length_take_of_le hlt.le
  rw [List.take_succ_eq_append_getElem hlt, put_concat (hlen.symm ▸ h)]

theorem keys_put (contents : Contents) (hfits : RunFits base payloads.length) :
    (contents.put base payloads).keys = contents.keys ∪ runKeys base payloads.length := by
  ext key
  rw [Finset.mem_union, mem_keys, mem_keys]
  by_cases hm : key ∈ runKeys base payloads.length
  · obtain ⟨hk, hle, hlt⟩ := mem_runKeys.mp hm
    have hoffset : offsetKey base (key.toNat - base.toNat) = some key :=
      offsetKey_eq_some.mpr ⟨hk, by omega⟩
    have hin : key.toNat - base.toNat < payloads.length := by omega
    rw [put_of_offsetKey contents hoffset, List.getElem?_eq_getElem hin, Option.some_or]
    simp [hm]
  · rw [put_of_notMem hfits hm]
    simp [hm]

theorem size_put_le (contents : Contents) {first second : List UInt16}
    (hfits : RunFits base (first ++ second).length) :
    (contents.put base first).size ≤ (contents.put base (first ++ second)).size := by
  have hle : first.length ≤ (first ++ second).length := by simp
  rw [← card_keys, ← card_keys, keys_put contents (hfits.mono hle), keys_put contents hfits]
  exact Finset.card_le_card (Finset.union_subset_union_right (runKeys_mono hle))

end Contents

end FlashRing
