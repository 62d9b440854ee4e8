import FlashRing.Proofs.ArrayReading
import FlashRing.Proofs.ArrayWriting

/-!
The effect of writing an array. Main statements: an array with a length prefix is written exactly
if its keys and those that stay find room in a page, and is read back then; a write that is refused
has deleted the array of another length, and has left the payloads before the one without room.
-/

namespace FlashRing

section Payloads

variable {length : Nat} {bytes : List UInt8}

/-- The first payload of an array with a length prefix. -/
def headPayload (length : Nat) (first : UInt8) : UInt16 :=
  .ofNat (256 * length + first.toNat)

theorem toNat_headPayload (h : length ≤ 255) (first : UInt8) :
    (headPayload length first).toNat = 256 * length + first.toNat := by
  have hfirst := first.toNat_lt
  exact UInt16.toNat_ofNat_of_lt' (show _ < 65536 by omega)

theorem headPayload_div (h : length ≤ 255) (first : UInt8) :
    (headPayload length first).toNat / 256 = length := by
  have hfirst := first.toNat_lt
  rw [toNat_headPayload h]
  omega

theorem toUInt8_headPayload (h : length ≤ 255) (first : UInt8) :
    (headPayload length first).toUInt8 = first := by
  have hfirst := first.toNat_lt
  rw [← UInt8.toNat_inj, UInt16.toNat_toUInt8, toNat_headPayload h]
  omega

theorem prefixedPayloads_cons {first : UInt8} {rest : List UInt8}
    (h : (first :: rest).length ≤ 255) :
    prefixedPayloads (first :: rest) =
      headPayload (first :: rest).length first :: rest.map (·.toUInt16) := by
  have hfirst := first.toNat_lt
  rw [List.length_cons] at h ⊢
  rw [prefixedPayloads]
  congr 1
  rw [← UInt16.toNat_inj, toNat_headPayload h, UInt16.toNat_or, UInt16.toNat_shiftLeft,
    UInt16.toNat_ofNat_of_lt' (show _ < 65536 by omega), UInt8.toNat_toUInt16]
  change (rest.length + 1) <<< 8 % 65536 ||| first.toNat = _
  rw [Nat.mod_eq_of_lt (by rw [Nat.shiftLeft_eq]; omega),
    ← Nat.shiftLeft_add_eq_or_of_lt hfirst, Nat.shiftLeft_eq, Nat.mul_comm]

/-- What an array with a length prefix is kept as. -/
def arrayPayloads : List UInt8 → List UInt16
  | [] => []
  | first :: rest => headPayload (rest.length + 1) first :: rest.map (·.toUInt16)

theorem prefixedPayloads_eq (h : bytes.length ≤ 255) :
    prefixedPayloads bytes = arrayPayloads bytes := by
  cases bytes with
  | nil => rfl
  | cons first rest => exact prefixedPayloads_cons h

theorem length_prefixedPayloads (bytes : List UInt8) :
    (prefixedPayloads bytes).length = bytes.length := by
  cases bytes <;> simp [prefixedPayloads]

theorem toUInt8_prefixedPayloads (h : bytes.length ≤ 255) (i : Nat) :
    (prefixedPayloads bytes)[i]?.map (·.toUInt8) = bytes[i]? := by
  cases bytes with
  | nil => rfl
  | cons first rest =>
    rw [prefixedPayloads_cons h]
    cases i with
    | zero => exact congrArg some (toUInt8_headPayload h first)
    | succ i => simp [Function.comp_def]

end Payloads

namespace Contents

variable {contents later : Contents} {key : UInt16} {bytes : List UInt8}

theorem put_take_self (contents : Contents) {first : UInt8} {rest : List UInt8}
    (hfits : RunFits key (first :: rest).length) (hle : (first :: rest).length ≤ 255) {n : Nat}
    (hpos : 0 < n) :
    contents.put key ((prefixedPayloads (first :: rest)).take n) key =
      some (headPayload (first :: rest).length first) := by
  rw [put_of_offsetKey contents (offsetKey_zero (hfits.isCallerKey (Nat.succ_pos _))),
    List.getElem?_take_of_lt hpos, prefixedPayloads_cons hle]
  rfl

theorem longestRun_put_take (contents : Contents) (hfits : RunFits key bytes.length)
    (hle : bytes.length ≤ 255) {n : Nat} (hn : n ≤ bytes.length)
    (hmissing : n < bytes.length → contents.byteAt key n = none) :
    (contents.put key ((prefixedPayloads bytes).take n)).LongestRun key 0 bytes.length
      (bytes.take n) := by
  have hlen : (bytes.take n).length = n := List.length_take_of_le hn
  refine ⟨by omega, fun i hi => ?_, fun hlt => ?_⟩
  · rw [hlen] at hi
    obtain ⟨other, hother⟩ := hfits.offsetKey (Nat.lt_of_lt_of_le hi hn)
    have hin : i < ((prefixedPayloads bytes).take n).length := by
      rw [List.length_take, length_prefixedPayloads]
      omega
    have hbyte := toUInt8_prefixedPayloads hle i
    rw [← List.getElem?_take_of_lt hi, List.getElem?_eq_getElem hin,
      List.getElem?_eq_getElem (by omega), Option.map_some, Option.some.injEq] at hbyte
    rw [Nat.zero_add, byteAt_put contents hother hin, hbyte, List.getElem_take]
  · rw [hlen] at hlt ⊢
    obtain ⟨other, hother⟩ := hfits.offsetKey hlt
    have hout : ((prefixedPayloads bytes).take n)[n]? = none :=
      List.getElem?_eq_none (by rw [List.length_take]; omega)
    rw [Nat.zero_add, ← hmissing hlt, byteAt_of_offsetKey _ hother, byteAt_of_offsetKey _ hother,
      put_of_offsetKey contents hother, hout, Option.none_or]

/-- An array of which so many bytes are there, and none right behind them. -/
theorem arrayAt_put_take (contents : Contents) (hfits : RunFits key bytes.length)
    (hle : bytes.length ≤ 255) {n : Nat} (hpos : 0 < n) (hn : n ≤ bytes.length)
    (hmissing : n < bytes.length → contents.byteAt key n = none) :
    (contents.put key ((prefixedPayloads bytes).take n)).arrayAt key =
      if n = bytes.length then .ok (some bytes)
      else .error (.partialArrayRead (bytes.take n) bytes.length) := by
  have hrun := contents.longestRun_put_take hfits hle hn hmissing
  obtain ⟨first, rest, rfl⟩ := List.exists_cons_of_length_pos (Nat.lt_of_lt_of_le hpos hn)
  have hhead := contents.put_take_self hfits hle hpos
  rw [arrayAt, hhead]
  dsimp only
  rw [headPayload_div hle, if_neg (Nat.ne_of_gt (Nat.lt_of_lt_of_le hpos hn)),
    hrun.bytesAt (by rw [hhead]; exact Option.some_ne_none _), List.length_take,
    Nat.min_eq_left hn]
  split
  next h => rw [h, List.take_length]
  next => rfl

theorem arrayAt_put (contents : Contents) (hfits : RunFits key bytes.length)
    (hle : bytes.length ≤ 255) (hpos : 0 < bytes.length) :
    (contents.put key (prefixedPayloads bytes)).arrayAt key = .ok (some bytes) := by
  have h := contents.arrayAt_put_take hfits hle hpos (Nat.le_refl _)
    fun hlt => absurd hlt (Nat.lt_irrefl _)
  rwa [if_pos rfl, List.take_of_length_le (length_prefixedPayloads bytes).le] at h

/-- What contents become when an array is written. -/
structure Rewritten (contents : Contents) (key : UInt16) (bytes : List UInt8)
    (later : Contents) : Prop where
  head : ∀ first, bytes.head? = some first → later key = some (headPayload bytes.length first)
  rest : ∀ i other, 0 < i → i < bytes.length → other.toNat = key.toNat + i →
    later other = bytes[i]?.map (·.toUInt16)
  /-- Of the other keys those of an array of another length are gone. -/
  others : ∀ other, other ∉ runKeys key bytes.length →
    later other = if other ∈ contents.replaced key bytes.length then none else contents other

theorem rewritten_put (hfits : RunFits key bytes.length) (hle : bytes.length ≤ 255)
    (hpos : 0 < bytes.length) :
    contents.Rewritten key bytes ((contents.without (contents.replaced key bytes.length)).put key
      (prefixedPayloads bytes)) := by
  obtain ⟨first, rest, rfl⟩ := List.exists_cons_of_length_pos hpos
  refine ⟨fun found hfound => ?_, fun i other hi hlt hother => ?_, fun other hout => ?_⟩
  · cases hfound
    rw [put_of_offsetKey _ (offsetKey_zero (hfits.isCallerKey hpos)),
      prefixedPayloads_cons hle]
    rfl
  · obtain ⟨i, rfl⟩ := Nat.exists_eq_add_one.mpr hi
    have hin : i < rest.length := Nat.lt_of_succ_lt_succ hlt
    rw [put_of_offsetKey _ ((hfits.offsetKey_eq_some hlt).mpr hother), prefixedPayloads_cons hle]
    simp [hin]
  · rw [put_of_notMem]
    · rfl
    · rwa [length_prefixedPayloads]
    · rwa [length_prefixedPayloads]

end Contents

namespace Store

variable {store : Store Ram} {contents : Contents} {key : UInt16} {bytes : List UInt8}

theorem writeArray_of_invalidLength (key : UInt16) (h : bytes.length = 0 ∨ 255 < bytes.length)
    (store : Store Ram) :
    writeArray key bytes store = .error (.invalidLength bytes.length) store := by
  rw [writeArray, if_pos h]
  rfl

theorem writeArray_of_not_fits (hpos : 0 < bytes.length) (hle : bytes.length ≤ 255)
    (h : ¬RunFits key bytes.length) (store : Store Ram) :
    writeArray key bytes store = .error (.invalidKey key) store := by
  rw [writeArray, if_neg (by omega), checkRange_eq key hpos, if_neg h]
  rfl

/-- With any other answer neither the length nor the key is at fault. -/
theorem valid_of_writeArray {out : Except Error Unit}
    (h : answer (writeArray key bytes) store = out)
    (hlen : out ≠ .error (.invalidLength bytes.length)) (hkey : out ≠ .error (.invalidKey key)) :
    0 < bytes.length ∧ bytes.length ≤ 255 ∧ RunFits key bytes.length := by
  by_cases hinvalid : bytes.length = 0 ∨ 255 < bytes.length
  · rw [answer, writeArray_of_invalidLength key hinvalid] at h
    exact absurd h.symm hlen
  · have hpos : 0 < bytes.length := by omega
    have hle : bytes.length ≤ 255 := by omega
    by_cases hfits : RunFits key bytes.length
    · exact ⟨hpos, hle, hfits⟩
    · rw [answer, writeArray_of_not_fits hpos hle hfits] at h
      exact absurd h.symm hkey

theorem Serves.run_writeArray (h : store.Serves contents)
    (hp : store.device.power = .steady) (hpos : 0 < bytes.length) (hle : bytes.length ≤ 255)
    (hfits : RunFits key bytes.length) :
    ∃ out later after,
      (contents.without (contents.replaced key bytes.length)).Writes store.ring.capacity key
        (prefixedPayloads bytes) out later ∧
      writeArray key bytes store = ending out after ∧ after.Serves later := by
  obtain ⟨active, count, used, hs, rfl⟩ := h
  have hpayloads : RunFits key (prefixedPayloads bytes).length := by
    rwa [length_prefixedPayloads]
  obtain ⟨out, later, hw⟩ := Contents.Writes.exists_of_fits hpayloads
    ((used.contents.size_without_le (used.contents.replaced key bytes.length)).trans hs.size_le)
  have hpasses : Passes (writeArray key bytes) store out (fun _ => True)
      (·.contents = later) := by
    refine hs.passes_writeArray hpos hle hfits (fun _ _ _ _ _ => trivial) ?_
    intro middle place number left hmiddle hcleared hring
    refine hmiddle.passes_put hpayloads ?_ fun _ _ => trivial
    rwa [hcleared.contents, hring]
  obtain ⟨after, place, number, left, hrun, hafter, hleft, -⟩ := hpasses.run hs.attached hp
  exact ⟨out, later, after, hw, hrun, place, number, left, hafter, hleft⟩

theorem Serves.run_writeArrayOfLength (h : store.Serves contents)
    (hp : store.device.power = .steady) (hpos : 0 < bytes.length)
    (hfits : RunFits key bytes.length) :
    ∃ out later after,
      contents.Writes store.ring.capacity key (bytes.map (·.toUInt16)) out later ∧
      writeArrayOfLength key bytes store = ending out after ∧ after.Serves later := by
  obtain ⟨active, count, used, hs, rfl⟩ := h
  have hpayloads : RunFits key (bytes.map (·.toUInt16)).length := by
    rwa [List.length_map]
  obtain ⟨out, later, hw⟩ := Contents.Writes.exists_of_fits hpayloads hs.size_le
  have hpasses : Passes (writeArrayOfLength key bytes) store out (fun _ => True)
      (·.contents = later) :=
    hs.passes_writeArrayOfLength hpos hfits hw fun _ _ => trivial
  obtain ⟨after, place, number, left, hrun, hafter, hleft, -⟩ := hpasses.run hs.attached hp
  exact ⟨out, later, after, hw, hrun, place, number, left, hafter, hleft⟩

/-- What writing an array does where the contents are found. -/
structure WritesArray (store : Store Ram) (contents : Contents) (key : UInt16)
    (bytes : List UInt8) : Prop where
  invalid_length : bytes.length = 0 ∨ 255 < bytes.length →
    writeArray key bytes store = .error (.invalidLength bytes.length) store
  invalid_key : 0 < bytes.length → bytes.length ≤ 255 → ¬RunFits key bytes.length →
    writeArray key bytes store = .error (.invalidKey key) store
  /-- The keys that stay and those of the array find room. -/
  written : 0 < bytes.length → bytes.length ≤ 255 → RunFits key bytes.length →
    (contents.keys \ contents.replaced key bytes.length ∪ runKeys key bytes.length).card ≤
      store.ring.capacity →
    ∃ later final, writeArray key bytes store = .ok () final ∧ final.Shows later ∧
      contents.Rewritten key bytes later ∧ readArray key final = .ok (some bytes) final
  refused : 0 < bytes.length → bytes.length ≤ 255 → RunFits key bytes.length →
    store.ring.capacity <
      (contents.keys \ contents.replaced key bytes.length ∪ runKeys key bytes.length).card →
    answer (writeArray key bytes) store =
      .error (.storeFull (store.ring.capacity + 1) store.ring.capacity)

theorem Serves.writesArray (h : store.Serves contents) (hp : store.device.power = .steady)
    (key : UInt16) (bytes : List UInt8) : store.WritesArray contents key bytes := by
  have hsize : RunFits key bytes.length →
      ((contents.without (contents.replaced key bytes.length)).put key
        (prefixedPayloads bytes)).size =
      (contents.keys \ contents.replaced key bytes.length ∪ runKeys key bytes.length).card := by
    intro hfits
    rw [← length_prefixedPayloads bytes] at hfits
    rw [← Contents.card_keys, Contents.keys_put _ hfits, Contents.keys_without,
      length_prefixedPayloads]
  refine ⟨fun hlen => writeArray_of_invalidLength key hlen store,
    fun hpos hle hfits => writeArray_of_not_fits hpos hle hfits store,
    fun hpos hle hfits hroom => ?written, fun hpos hle hfits hover => ?refused⟩
  all_goals
    obtain ⟨out, later, after, hw, hrun, hserves⟩ := h.run_writeArray hp hpos hle hfits
    have hok := hw.ok_iff ((length_prefixedPayloads bytes).symm ▸ hfits)
    rw [hsize hfits] at hok
  case written =>
    cases hw with
    | all =>
      have hread := hserves.readArray (hfits.isCallerKey hpos)
      rw [Contents.arrayAt_put _ hfits hle hpos] at hread
      exact ⟨_, after, hrun, hserves.shows, Contents.rewritten_put hfits hle hpos, hread⟩
    | refused => cases hok.mpr hroom
  case refused =>
    cases hw with
    | all => exact absurd (hok.mp rfl) (Nat.not_le_of_lt hover)
    | refused => exact answer_of_run hrun

theorem writesArray_of_format {device : Ram} {config : Config} {attached formatted : Store Ram}
    (hp : device.power = .steady) (ha : attach device config = .ok attached)
    (hf : format attached = .ok () formatted) (hr : Reachable formatted store) :
    ∃ contents, store.Shows contents ∧ ∀ key bytes, store.WritesArray contents key bytes := by
  obtain ⟨hsteady, contents, hserves⟩ := hr.inService (inService_of_format hp ha hf)
  exact ⟨contents, hserves.shows, hserves.writesArray hsteady⟩

/-- An array of one byte under a key. -/
def oneByte : Store Ram :=
  left (Request.writeArray 5 [1]).run (left format small)

theorem writesArray_of_oneByte :
    ∃ contents, oneByte.Shows contents ∧ oneByte.WritesArray contents 5 [2, 3] ∧
      answer (writeArray 5 [2, 3]) oneByte = .ok () ∧
      answer (readArray 5) (left (writeArray 5 [2, 3]) oneByte) = .ok (some [2, 3]) := by
  have hr : Reachable (left format small) oneByte := .request _ .start
  obtain ⟨contents, hshows, hwrites⟩ := writesArray_of_format rfl attach_small format_small hr
  exact ⟨contents, hshows, hwrites 5 [2, 3], by decide +kernel, by decide +kernel⟩

end Store

end FlashRing
