import FlashRing.Proofs.ArrayEffect
import FlashRing.Proofs.History
import FlashRing.Proofs.Keys

/-!
Writes of arrays whose power goes. Main statement: an array is never mixed with the one of another
length whose place it takes, if every key has one slot before: readers find the older array, none,
the first bytes of the new one, or all of it.
-/

namespace FlashRing

/-- What a reader may find: an array in full, none, or the first bytes of the new one. -/
def Unmixed (old new : List UInt8) (out : Except Error (Option (List UInt8))) : Prop :=
  out = .ok (some old) ∨ out = .ok none ∨ out = .ok (some new) ∨
    ∃ n, 0 < n ∧ n < new.length ∧ out = .error (.partialArrayRead (new.take n) new.length)

namespace SlotLog

variable {log : SlotLog} {key : UInt16}

/-- No key has a second slot. -/
def Single (log : SlotLog) : Prop :=
  ∀ key, (log.copies key).length ≤ 1

theorem single_survivors (log : SlotLog) : Single (survivors log) := by
  intro key
  have hcount := List.nodup_iff_count_le_one.mp log.nodup_survivors key
  rw [copies, List.length_map, ← List.countP_eq_length_filter, List.countP_reverse]
  rwa [List.count, List.countP_map] at hcount

/-- Where a key has one slot, it has its payload or nothing. -/
theorem Single.getElem?_copies (h : log.Single) (hk : isCallerKey key = true) (n : Nat) :
    (log.copies key)[n]? = log.contents key ∨ (log.copies key)[n]? = none := by
  cases n with
  | zero =>
    rw [contents_of_caller hk, newest?_eq_head?, List.head?_eq_getElem?]
    exact Or.inl rfl
  | succ n =>
    have hle := h key
    exact Or.inr (List.getElem?_eq_none (by omega))

end SlotLog

namespace Contents

variable {contents stage : Contents} {key other : UInt16} {old new : List UInt8}

/-- The contents while an array takes the place of one of another length: first keys of the older
one are gone, then the new one grows. -/
inductive Replacing (contents : Contents) (key : UInt16) (bytes : List UInt8) :
    Contents → Prop where
  | clearing (n : Nat) : runKeys key n ⊆ contents.replaced key bytes.length →
    Replacing contents key bytes (contents.without (runKeys key n))
  | filling (n : Nat) : n ≤ bytes.length →
    Replacing contents key bytes ((contents.without (contents.replaced key bytes.length)).put key
      ((prefixedPayloads bytes).take n))

theorem exists_replaced (contents : Contents) (key : UInt16) (length : Nat) :
    ∃ count, contents.replaced key length = runKeys key count := by
  unfold replaced
  split
  next => exact ⟨0, rfl⟩
  next =>
    split
    next => exact ⟨0, rfl⟩
    next => exact ⟨_, rfl⟩

/-- An array that is there in full has as many bytes as its head says. -/
theorem exists_head_of_arrayAt (h : contents.arrayAt key = .ok (some old)) (hne : old ≠ []) :
    ∃ head, contents key = some head ∧ head.toNat / 256 = old.length := by
  unfold arrayAt at h
  split at h
  next => cases h
  next head hhead =>
    refine ⟨head, hhead, ?_⟩
    split at h
    next => cases h; exact absurd rfl hne
    next =>
      rw [(contents.longestRun_bytesFrom key 0 _).bytesAt (by simp [hhead])] at h
      split at h
      next hlen => cases h; exact hlen.symm
      next => cases h

theorem replaced_of_arrayAt (h : contents.arrayAt key = .ok (some old)) (hne : old ≠ [])
    (hlen : new.length ≠ old.length) :
    contents.replaced key new.length = runKeys key old.length := by
  obtain ⟨head, hhead, hl⟩ := exists_head_of_arrayAt h hne
  have hpos : 0 < old.length := List.length_pos_iff.mpr hne
  rw [replaced]
  simp only [hhead, hl, if_neg (Ne.symm hlen)]
  rw [Nat.max_eq_left hpos]

theorem arrayAt_of_none (h : contents key = none) : contents.arrayAt key = .ok none := by
  rw [arrayAt, h]

theorem Replacing.unmixed (hs : contents.Replacing key new stage)
    (hold : contents.arrayAt key = .ok (some old)) (hne : old ≠ [])
    (hlen : new.length ≠ old.length) (hpos : 0 < new.length) (hle : new.length ≤ 255)
    (hfits : RunFits key new.length)
    (habsent : ∀ other ∈ runKeys key new.length, other ∉ runKeys key old.length →
      contents other = none) : Unmixed old new (stage.arrayAt key) := by
  have hreplaced := replaced_of_arrayAt hold hne hlen
  have hself := offsetKey_zero (hfits.isCallerKey hpos)
  have hgone : ∀ n, 0 < n → contents.without (runKeys key n) key = none := fun n hn =>
    without_of_mem ((mem_runKeys_of_offsetKey hself).mpr hn)
  cases hs with
  | clearing n hn =>
    cases n with
    | zero =>
      rw [runKeys_zero, without_empty]
      exact Or.inl hold
    | succ n => exact Or.inr (Or.inl (arrayAt_of_none (hgone _ n.succ_pos)))
  | filling n hn =>
    rw [hreplaced]
    cases n with
    | zero =>
      rw [List.take_zero, put_nil]
      exact Or.inr (Or.inl (arrayAt_of_none (hgone _ (List.length_pos_iff.mpr hne))))
    | succ n =>
      have hread := (contents.without (runKeys key old.length)).arrayAt_put_take hfits hle
        n.succ_pos hn fun hlt => ?_
      · rw [hread]
        split
        next => exact Or.inr (Or.inr (Or.inl rfl))
        next hne => exact Or.inr (Or.inr (Or.inr ⟨_, n.succ_pos, by omega, rfl⟩))
      -- The key behind the bytes is one of the older array or never held anything.
      · obtain ⟨other, hother⟩ := hfits.offsetKey hlt
        rw [byteAt_of_offsetKey _ hother, Option.map_eq_none_iff]
        by_cases hin : other ∈ runKeys key old.length
        · exact without_of_mem hin
        · rw [without_of_notMem hin]
          exact habsent other ((mem_runKeys_of_offsetKey hother).mpr hlt) hin

theorem Replacing.of_notMem (hs : contents.Replacing key new stage)
    (hold : contents.arrayAt key = .ok (some old)) (hne : old ≠ [])
    (hlen : new.length ≠ old.length) (hfits : RunFits key new.length)
    (hout : other ∉ runKeys key (max old.length new.length)) : stage other = contents other := by
  have hreplaced := replaced_of_arrayAt hold hne hlen
  have hnot : other ∉ runKeys key old.length := fun hin =>
    hout (runKeys_mono (Nat.le_max_left ..) hin)
  cases hs with
  | clearing n hn => exact without_of_notMem fun hin => hnot (hreplaced ▸ hn hin)
  | filling n hn =>
    have hl : ((prefixedPayloads new).take n).length ≤ new.length := by
      rw [List.length_take, length_prefixedPayloads]
      omega
    rw [put_of_notMem (hfits.mono hl), hreplaced, without_of_notMem hnot]
    exact fun hin => hout (runKeys_mono (hl.trans (Nat.le_max_right ..)) hin)

end Contents

namespace Store

variable {store : Store Ram} {active count : Nat} {used : SlotLog} {key : UInt16}
  {bytes : List UInt8}

theorem Settled.compacted (hs : store.Settled active count used)
    (hp : store.device.power = .steady) :
    (left Store.compact store).Settled (store.ring.next active)
        (Layout.nextCount store.ring active count) (SlotLog.survivors used) ∧
      (left Store.compact store).device.power = .steady := by
  obtain ⟨hin, hend, hvalid⟩ :=
    (Layout.path_rotation store.ring active count used).sound hs.valid
  rw [left_of_run (hs.compact.of_steady hp)]
  exact ⟨.after hs.attached hin (hs.flash ▸ hend) hvalid .steady, rfl⟩

theorem Settled.passes_replacing (hs : store.Settled active count used) (hsingle : used.Single)
    (hpos : 0 < bytes.length) (hle : bytes.length ≤ 255) (hfits : RunFits key bytes.length)
    (hroom : ((used.contents.without (used.contents.replaced key bytes.length)).put key
      (prefixedPayloads bytes)).size ≤ store.ring.capacity) :
    Passes (writeArray key bytes) store (.ok ()) (used.contents.Replacing key bytes)
      fun _ => True := by
  refine hs.passes_writeArray hpos hle hfits (fun i other n hother hin => ?_) ?_
  · obtain ⟨total, htotal⟩ := used.contents.exists_replaced key bytes.length
    have hk := (offsetKey_eq_some.mp hother).1
    have hlt : i < total := (mem_runKeys_of_offsetKey hother).mp (htotal ▸ hin)
    have hnot : other ∉ runKeys key i := fun h =>
      Nat.lt_irrefl i ((mem_runKeys_of_offsetKey hother).mp h)
    -- Between two programs of a delete the key is as before or gone: it has no second slot.
    rcases hsingle.getElem?_copies hk n with hcopy | hcopy
    · have hsame : used.contents.without (runKeys key i) other = used.contents other :=
        Contents.without_of_notMem hnot
      rw [hcopy, ← hsame, Function.update_eq_self]
      exact .clearing i (htotal ▸ runKeys_mono hlt.le)
    · rw [hcopy, ← Contents.erase, ← Contents.without_insert, ← runKeys_succ hother]
      exact .clearing (i + 1) (htotal ▸ runKeys_mono hlt)
  · intro middle place number rest hmiddle hcleared hring
    rw [← length_prefixedPayloads] at hfits
    rw [← hcleared.contents, ← hring] at hroom
    refine (hmiddle.passes_put hfits (.all hroom) fun n hn => ?_).mono fun _ _ => trivial
    rw [hcleared.contents]
    rw [length_prefixedPayloads] at hn
    exact .filling n hn

/-- The store whose power went after so many programs and erases of a write and came back. -/
def cutWriteArray (store : Store Ram) (key : UInt16) (bytes : List UInt8) (count : Nat) :
    Store Ram :=
  store.afterActions [.failAfter count, .call (.writeArray key bytes), .restorePower]

theorem cutWriteArray_eq (store : Store Ram) (key : UInt16) (bytes : List UInt8) (count : Nat) :
    store.cutWriteArray key bytes count =
      (left (writeArray key bytes) (store.powered (.budget count))).powered .steady := by
  have hcall := left_map (writeArray key bytes) (fun _ => Reply.done)
    (store.powered (.budget count))
  exact congrArg (fun cut : Store Ram => cut.powered .steady) hcall

theorem Settled.retains_cutWriteArray (hs : store.Settled active count used)
    (hsingle : used.Single) (hp : store.device.power = .steady)
    (hok : answer (writeArray key bytes) store = .ok ()) (n : Nat) :
    ∃ stage, used.contents.Replacing key bytes stage ∧
      (store.cutWriteArray key bytes n).Retains stage := by
  obtain ⟨hpos, hle, hfits⟩ := valid_of_writeArray hok (by simp) (by simp)
  obtain ⟨out, later, after, hw, hrun, -⟩ :=
    Serves.run_writeArray ⟨active, count, used, hs, rfl⟩ hp hpos hle hfits
  have hroom := (hw.ok_iff ((length_prefixedPayloads bytes).symm ▸ hfits)).mp
    ((answer_of_run hrun).symm.trans hok)
  rw [cutWriteArray_eq]
  exact (hs.passes_replacing hsingle hpos hle hfits hroom).retains_budget hs.attached n

theorem Serves.read_eq {contents : Contents} (h : store.Serves contents) (key : UInt16) :
    answer (read key) store =
      if isCallerKey key then .ok (contents key) else .error (.invalidKey key) := by
  obtain ⟨active, count, used, hs, rfl⟩ := h
  cases hk : isCallerKey key with
  | false => exact answer_of_run (hs.invalidKey hk _).run_nothing
  | true => exact answer_of_run (hs.read hk).run_nothing

/-- Wherever the power goes, readers find an array in full, none, or the first bytes of the new
one; all other keys are as before. -/
theorem unmixed_of_cutWriteArray {device : Ram} {config : Config}
    {attached formatted before : Store Ram} {old new : List UInt8}
    (hp : device.power = .steady) (ha : attach device config = .ok attached)
    (hf : format attached = .ok () formatted) (hr : Reachable formatted before)
    (hc : left compact before = store)
    (hold : answer (readArray key) store = .ok (some old)) (hne : old ≠ [])
    (hok : answer (writeArray key new) store = .ok ()) (hlen : new.length ≠ old.length)
    (habsent : ∀ other ∈ runKeys key new.length, other ∉ runKeys key old.length →
      answer (read other) store = .ok none) (n : Nat) :
    answer init (store.cutWriteArray key new n) = .ok () ∧
      Unmixed old new
        (answer (readArray key) (left init (store.cutWriteArray key new n))) ∧
      ∀ other, other ∉ runKeys key (max old.length new.length) →
        answer (read other) (left init (store.cutWriteArray key new n)) =
          answer (read other) store := by
  obtain ⟨hsteady, -, active, count, used, hused, -⟩ :=
    hr.inService (inService_of_format hp ha hf)
  obtain ⟨hs, hpower⟩ := hused.compacted hsteady
  rw [hc] at hs hpower
  obtain ⟨hpos, hle, hfits⟩ := valid_of_writeArray hok (by simp) (by simp)
  obtain ⟨stage, hstage, hretains⟩ :=
    hs.retains_cutWriteArray (SlotLog.single_survivors used) hpower hok n
  have hserves : store.Serves (SlotLog.contents (SlotLog.survivors used)) := ⟨_, _, _, hs, rfl⟩
  have hk := hfits.isCallerKey hpos
  rw [answer_of_run (hserves.readArray hk)] at hold
  rcases hretains.outcome_init with ⟨final, hrun, hfinal, -⟩ | ⟨_, _, _, _, _, _, _, hno, -⟩
  · rw [left_of_run hrun, answer_of_run (hfinal.readArray hk)]
    refine ⟨answer_of_run hrun, ?_, fun other hout => ?_⟩
    · refine hstage.unmixed hold hne hlen hpos hle hfits fun other hin hnot => ?_
      have hread := habsent other hin hnot
      rw [hserves.shows.1 other (mem_runKeys.mp hin).1] at hread
      exact Except.ok.inj hread
    · rw [hserves.read_eq, hfinal.read_eq, hstage.of_notMem hold hne hlen hfits hout]
  · exact absurd rfl hno

/-- Cut after the older byte is gone and the first new one is there. -/
theorem unmixed_of_cutWriteArray_oneByte :
    answer (readArray 5) (left init ((left compact oneByte).cutWriteArray 5 [2, 3] 2)) =
        .error (.partialArrayRead [2] 2) ∧
      Unmixed [1] [2, 3]
        (answer (readArray 5) (left init ((left compact oneByte).cutWriteArray 5 [2, 3] 2))) := by
  have hr : Reachable (left format small) oneByte := .request _ .start
  have hold : answer (readArray 5) (left compact oneByte) = .ok (some [1]) := by decide +kernel
  have hok : answer (writeArray 5 [2, 3]) (left compact oneByte) = .ok () := by decide +kernel
  have habsent : ∀ other ∈ runKeys 5 2, other ∉ runKeys 5 1 →
      answer (read other) (left compact oneByte) = .ok none := by
    intro other hin hnot
    have hnext : other = 6 := by
      obtain ⟨hk, hlo, hhi⟩ := mem_runKeys.mp hin
      have hfive : (5 : UInt16).toNat = 5 := rfl
      have hne : ¬other.toNat < 6 := fun hlt => hnot (mem_runKeys.mpr ⟨hk, hlo, hlt⟩)
      exact UInt16.toNat_inj.mp (show other.toNat = 6 by omega)
    rw [hnext]
    decide +kernel
  exact ⟨by decide +kernel, (unmixed_of_cutWriteArray rfl attach_small format_small hr rfl hold
    (by decide) hok (by decide) habsent 2).2.1⟩

end Store

end FlashRing
