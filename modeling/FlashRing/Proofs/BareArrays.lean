import FlashRing.Proofs.ArrayRefusal

/-!
Arrays without a length prefix, of any length. Main statement: such an array is refused exactly if it
leaves the keys of callers or its keys find no room beside those that are there; otherwise its bytes
stand under its keys, nothing else has changed, and every part of it from the start on is read back.
-/

namespace FlashRing

/-- A run fits as long as its last key is one of callers. -/
theorem runFits_iff_last {key : UInt16} (hk : isCallerKey key = true) (count : Nat) :
    RunFits key count ↔ key.toNat + count - 1 ≤ 0xFFFE := by
  have hne := (isCallerKey_iff.mp hk).1
  rw [RunFits]
  constructor
  · rintro ⟨-, hend⟩
    omega
  · intro hlast
    exact ⟨fun hz => hne (by rw [hz]; rfl), by omega⟩

namespace Contents

variable {key : UInt16} {bytes : List UInt8}

/-- Of bytes under a run, every part from the start on is there. -/
theorem longestRun_put_bytes (contents : Contents) (hfits : RunFits key bytes.length) {count : Nat}
    (hle : count ≤ bytes.length) :
    (contents.put key (bytes.map (·.toUInt16))).LongestRun key 0 count (bytes.take count) := by
  have hlen : (bytes.take count).length = count := List.length_take_of_le hle
  refine ⟨hlen.le, fun i hi => ?_, fun hlt => absurd hlen (Nat.ne_of_lt hlt)⟩
  rw [hlen] at hi
  obtain ⟨other, hother⟩ := hfits.offsetKey (Nat.lt_of_lt_of_le hi hle)
  have hin : i < (bytes.map (·.toUInt16)).length := by
    rw [List.length_map]
    omega
  rw [Nat.zero_add, byteAt_put contents hother hin, List.getElem_map, UInt8.toUInt8_toUInt16,
    List.getElem_take]

theorem bytesAt_put (contents : Contents) (hfits : RunFits key bytes.length) {count : Nat}
    (hpos : 0 < count) (hle : count ≤ bytes.length) :
    (contents.put key (bytes.map (·.toUInt16))).bytesAt key count =
      .ok (some (bytes.take count)) := by
  have hin : 0 < bytes.length := Nat.lt_of_lt_of_le hpos hle
  have hthere : contents.put key (bytes.map (·.toUInt16)) key ≠ none := by
    rw [put_of_offsetKey contents (offsetKey_zero (hfits.isCallerKey hin)), List.getElem?_map,
      List.getElem?_eq_getElem hin]
    exact Option.some_ne_none _
  rw [(contents.longestRun_put_bytes hfits hle).bytesAt hthere, if_pos (List.length_take_of_le hle)]

end Contents

namespace Store

variable {store : Store Ram} {contents : Contents} {key : UInt16} {bytes : List UInt8}

/-- What writing an array without a length prefix does where the contents are found. -/
structure WritesBare (store : Store Ram) (contents : Contents) (key : UInt16)
    (bytes : List UInt8) : Prop where
  invalid_key_iff : answer (writeArrayOfLength key bytes) store = .error (.invalidKey key) ↔
    0xFFFE < key.toNat + bytes.length - 1
  untouched : 0xFFFE < key.toNat + bytes.length - 1 →
    left (writeArrayOfLength key bytes) store = store
  /-- The keys that are there and those of the array find room. -/
  written_iff : key.toNat + bytes.length - 1 ≤ 0xFFFE →
    (answer (writeArrayOfLength key bytes) store = .ok () ↔
      (contents.keys ∪ runKeys key bytes.length).card ≤ store.ring.capacity)
  refused : key.toNat + bytes.length - 1 ≤ 0xFFFE →
    store.ring.capacity < (contents.keys ∪ runKeys key bytes.length).card →
      answer (writeArrayOfLength key bytes) store =
        .error (.storeFull (store.ring.capacity + 1) store.ring.capacity)
  later : answer (writeArrayOfLength key bytes) store = .ok () →
    (left (writeArrayOfLength key bytes) store).Shows
      (contents.put key (bytes.map (·.toUInt16)))
  read : answer (writeArrayOfLength key bytes) store = .ok () →
    ∀ count, 1 ≤ count → count ≤ bytes.length →
      readArrayOfLength key count (left (writeArrayOfLength key bytes) store) =
        .ok (some (bytes.take count)) (left (writeArrayOfLength key bytes) store)

theorem Serves.writesBare_outside (h : store.Serves contents) (hk : isCallerKey key = true)
    (hb : bytes ≠ []) (hout : 0xFFFE < key.toNat + bytes.length - 1) :
    store.WritesBare contents key bytes := by
  obtain ⟨active, count, used, hs, rfl⟩ := h
  have hnot : ¬RunFits key bytes.length := fun hfits =>
    absurd ((runFits_iff_last hk _).mp hfits) (Nat.not_le_of_lt hout)
  have hrun := (hs.writeArrayOfLength_nothing fun hgood => hnot hgood.2).run_nothing
  rw [if_neg fun hempty => hb hempty.2] at hrun
  have hanswer := answer_of_run hrun
  have hfalse : answer (writeArrayOfLength key bytes) store ≠ .ok () := by
    rw [hanswer]
    simp
  exact {
    invalid_key_iff := iff_of_true hanswer hout
    untouched := fun _ => left_of_run hrun
    written_iff := fun hin => absurd hin (Nat.not_le_of_lt hout)
    refused := fun hin => absurd hin (Nat.not_le_of_lt hout)
    later := fun hok => absurd hok hfalse
    read := fun hok => absurd hok hfalse }

theorem Serves.writesBare_inside (h : store.Serves contents)
    (hp : store.device.power = .steady) (hk : isCallerKey key = true) (hb : bytes ≠ [])
    (hin : key.toNat + bytes.length - 1 ≤ 0xFFFE) : store.WritesBare contents key bytes := by
  have hpos := List.length_pos_iff.mpr hb
  have hfits := (runFits_iff_last hk _).mpr hin
  have hpayloads : RunFits key (bytes.map (·.toUInt16)).length := by
    rwa [List.length_map]
  obtain ⟨out, later, after, hw, hrun, hserves⟩ := h.run_writeArrayOfLength hp hpos hfits
  have hiff := hw.ok_iff hpayloads
  rw [← Contents.card_keys, Contents.keys_put contents hpayloads, List.length_map] at hiff
  have hnot : ¬0xFFFE < key.toNat + bytes.length - 1 := Nat.not_lt.mpr hin
  rw [← answer_of_run hrun] at hiff
  constructor
  case invalid_key_iff =>
    refine iff_of_false ?_ hnot
    rw [answer_of_run hrun]
    cases hw <;> simp
  case untouched => exact fun hout => absurd hout hnot
  case written_iff => exact fun _ => hiff
  case refused =>
    intro _ hover
    cases hw with
    | all => exact absurd (hiff.mp (answer_of_run hrun)) (Nat.not_le_of_lt hover)
    | refused => exact answer_of_run hrun
  all_goals
    intro hok
    rw [answer_of_run hrun] at hok
    subst hok
    cases hw with
    | all => ?_
    rw [left_of_run hrun]
  case later => exact hserves.shows
  case read =>
    intro count hone hle
    have hmax : count ≤ 0x7FFFFFFFFFFFFFFF := by have := hfits.2; omega
    have hread := hserves.readArrayOfLength hk hone hmax
    rwa [contents.bytesAt_put hfits hone hle] at hread

/-- Arrays without a length prefix are written in full or refused for their keys or for lack of
room, and what is written is read back from its start on. -/
theorem writesBare_of_format {device : Ram} {config : Config} {attached formatted : Store Ram}
    (hp : device.power = .steady) (ha : attach device config = .ok attached)
    (hf : format attached = .ok () formatted) (hr : Reachable formatted store) :
    ∃ contents, store.Shows contents ∧ ∀ key bytes, isCallerKey key = true → bytes ≠ [] →
      store.WritesBare contents key bytes := by
  obtain ⟨hsteady, contents, hserves⟩ := hr.inService (inService_of_format hp ha hf)
  refine ⟨contents, hserves.shows, fun key bytes hk hb => ?_⟩
  rcases Nat.lt_or_ge 0xFFFE (key.toNat + bytes.length - 1) with hout | hin
  · exact hserves.writesBare_outside hk hb hout
  · exact hserves.writesBare_inside hsteady hk hb hin

/-- The last of three bytes finds the page full of stale slots and of the two before it. -/
theorem writesBare_of_oneByte :
    answer (writeArrayOfLength 5 [7, 8, 9]) oneByte = .ok () ∧
      answer (readArrayOfLength 5 2) (left (writeArrayOfLength 5 [7, 8, 9]) oneByte) =
        .ok (some [7, 8]) ∧
      answer (writeArrayOfLength 0xFFFD [1, 2, 3]) oneByte = .error (.invalidKey 0xFFFD) ∧
      answer (writeArrayOfLength 9 [1, 2, 3]) oneByte = .error (.storeFull 4 3) := by
  have hr : Reachable (left format small) oneByte := .request _ .start
  obtain ⟨contents, -, hwrites⟩ := writesBare_of_format rfl attach_small format_small hr
  have hok : answer (writeArrayOfLength 5 [7, 8, 9]) oneByte = .ok () := by decide +kernel
  have hread := (hwrites 5 [7, 8, 9] rfl (by simp)).read hok 2 (by decide) (by decide)
  refine ⟨hok, ?_, ?_, by decide +kernel⟩
  · rw [answer, hread]
    rfl
  · exact (hwrites 0xFFFD [1, 2, 3] rfl (by simp)).invalid_key_iff.mpr (by decide)

end Store

end FlashRing
