import FlashRing.Proofs.ArrayEffect

/-!
Writes of arrays that are refused. Main statements: what is left has the payloads before the one
without room, and not the array of another length that was there; readers notice nothing of it
exactly if there was no such array and those payloads were there before.
-/

namespace FlashRing

namespace Contents

variable {contents other : Contents} {key base : UInt16} {bytes : List UInt8}
  {payloads : List UInt16}

theorem listing_injective : Function.Injective listing := by
  intro contents other h
  funext key
  apply Option.ext
  intro payload
  rw [← mem_listing, h, mem_listing]

theorem put_eq_self_iff (hfits : RunFits base payloads.length) :
    contents.put base payloads = contents ↔
      ∀ i key, i < payloads.length → key.toNat = base.toNat + i →
        contents key = payloads[i]? := by
  constructor
  · intro h i key hi hkey
    have hput := contents.put_of_offsetKey ((hfits.offsetKey_eq_some hi).mpr hkey) payloads
    rwa [h, List.getElem?_eq_getElem hi, Option.some_or, ← List.getElem?_eq_getElem hi] at hput
  · intro h
    funext key
    by_cases hin : key ∈ runKeys base payloads.length
    · obtain ⟨hk, hlo, hhi⟩ := mem_runKeys.mp hin
      have hkey : key.toNat = base.toNat + (key.toNat - base.toNat) := by omega
      rw [put_of_offsetKey contents (offsetKey_eq_some.mpr ⟨hk, hkey⟩), ← h _ key (by omega) hkey,
        Option.or_self]
    · exact put_of_notMem hfits hin

/-- Where an array of another length was deleted, the contents are not what they were. -/
theorem replaced_eq_empty_of_put {n : Nat} (hfits : RunFits key bytes.length)
    (hle : bytes.length ≤ 255) (hpos : 0 < bytes.length)
    (h : (contents.without (contents.replaced key bytes.length)).put key
      ((prefixedPayloads bytes).take n) = contents) :
    contents.replaced key bytes.length = ∅ := by
  have hself := offsetKey_zero (hfits.isCallerKey hpos)
  have hkey := congrFun h key
  rw [replaced] at hkey ⊢
  cases hc : contents key with
  | none => rfl
  | some head =>
    by_cases heq : head.toNat / 256 = bytes.length
    · exact if_pos heq
    -- The key had the head of an array of another length, and has not any more.
    · have hin : key ∈ runKeys key (max (head.toNat / 256) 1) :=
        (mem_runKeys_of_offsetKey hself).mpr (by omega)
      simp only [hc, if_neg heq] at hkey
      cases n with
      | zero =>
        rw [List.take_zero, put_nil, without_of_mem hin] at hkey
        cases hkey
      | succ n =>
        obtain ⟨first, rest, rfl⟩ := List.exists_cons_of_length_pos hpos
        rw [put_take_self _ hfits hle n.succ_pos, Option.some.injEq] at hkey
        rw [← hkey, headPayload_div hle] at heq
        exact absurd rfl heq

end Contents

namespace Store

variable {store final : Store Ram} {contents later : Contents} {key : UInt16}
  {bytes : List UInt8}

/-- No reader can tell one store from the other. -/
def ReadsAlike (store final : Store Ram) : Prop :=
  answer entries final = answer entries store ∧
    ∀ key, answer (readArray key) final = answer (readArray key) store

theorem Serves.readArray_invalidKey (h : store.Serves contents) (hk : isCallerKey key = false) :
    answer (Store.readArray key) store = .error (.invalidKey key) := by
  obtain ⟨active, count, used, hs, rfl⟩ := h
  exact answer_of_run (Performs.bind_error (hs.invalidKey hk _)).run_nothing

theorem Serves.readsAlike_iff (h : store.Serves contents) (hf : final.Serves later) :
    store.ReadsAlike final ↔ later = contents := by
  constructor
  · rintro ⟨hentries, -⟩
    rw [h.shows.2, hf.shows.2, Except.ok.injEq] at hentries
    exact Contents.listing_injective hentries
  · rintro rfl
    refine ⟨by rw [h.shows.2, hf.shows.2], fun key => ?_⟩
    cases hk : isCallerKey key with
    | false => rw [h.readArray_invalidKey hk, hf.readArray_invalidKey hk]
    | true => rw [answer_of_run (h.readArray hk), answer_of_run (hf.readArray hk)]

/-- An array without bytes, or one that leaves the keys of callers, is not written. -/
theorem Settled.writeArrayOfLength_nothing {active count : Nat} {used : SlotLog}
    (hs : store.Settled active count used)
    (h : ¬(0 < bytes.length ∧ RunFits key bytes.length)) :
    Performs (writeArrayOfLength key bytes) store []
      (if isCallerKey key ∧ bytes = [] then .ok () else .error (.invalidKey key)) store.roles := by
  refine .bind_read (.readyRoles hs.roles) ?_
  cases hk : isCallerKey key with
  | false => exact .bind_error (.checkKey_error hk)
  | true =>
    refine .bind_read (.checkKey hk) ?_
    cases bytes with
    | nil => exact .pure store ()
    | cons first rest =>
      have hpos : 0 < (first :: rest).length := Nat.succ_pos _
      rw [if_neg (by simp), checkRange_eq key hpos, if_neg fun hfits => h ⟨hpos, hfits⟩,
        if_neg (by simp)]
      exact .bind_error (.throw store _)

/-- Some keys were dropped, and payloads were put under a run until one of them found no room.
Readers notice nothing of it exactly if no key was dropped and those payloads were there before. -/
def BrokenOff (store : Store Ram) (contents : Contents) (dropped : Finset UInt16) (base : UInt16)
    (payloads : List UInt16) (final : Store Ram) : Prop :=
  ∃ n key, n < payloads.length ∧ isCallerKey key = true ∧ key.toNat = base.toNat + n ∧
    ((contents.without dropped).put base (payloads.take n)).Refuses store.ring.capacity key ∧
    final.Shows ((contents.without dropped).put base (payloads.take n)) ∧
    (store.ReadsAlike final ↔
      dropped = ∅ ∧ ∀ i key, i < n → key.toNat = base.toNat + i → contents key = payloads[i]?)

theorem Serves.brokenOff {dropped : Finset UInt16} {base : UInt16} {payloads : List UInt16}
    {needed room : Nat} (h : store.Serves contents) (hf : final.Serves later)
    (hfits : RunFits base payloads.length)
    (hw : (contents.without dropped).Writes store.ring.capacity base payloads
      (.error (.storeFull needed room)) later)
    (hdropped : ∀ n, (contents.without dropped).put base (payloads.take n) = contents →
      dropped = ∅) : store.BrokenOff contents dropped base payloads final := by
  cases hw with
  | @refused n key hn hkey hfull =>
    obtain ⟨hk, hplace⟩ := offsetKey_eq_some.mp hkey
    refine ⟨n, key, hn, hk, hplace, hfull, hf.shows, (h.readsAlike_iff hf).trans ?_⟩
    have hlen : (payloads.take n).length = n := List.length_take_of_le hn.le
    have hsame : contents.put base (payloads.take n) = contents ↔
        ∀ i key, i < n → key.toNat = base.toNat + i → contents key = payloads[i]? := by
      rw [Contents.put_eq_self_iff (hfits.mono (by omega)), hlen]
      refine forall_congr' fun i => forall_congr' fun key => forall_congr' fun hi => ?_
      rw [List.getElem?_take_of_lt hi]
    rw [← hsame]
    constructor
    · intro heq
      have hempty := hdropped n heq
      rw [hempty, Contents.without_empty] at heq
      exact ⟨hempty, heq⟩
    · rintro ⟨rfl, heq⟩
      rwa [Contents.without_empty]

theorem Serves.brokenOff_writeArray {needed room : Nat} (h : store.Serves contents)
    (hp : store.device.power = .steady)
    (hfull : answer (writeArray key bytes) store = .error (.storeFull needed room)) :
    store.BrokenOff contents (contents.replaced key bytes.length) key (arrayPayloads bytes)
      (left (writeArray key bytes) store) := by
  obtain ⟨hpos, hle, hfits⟩ := valid_of_writeArray hfull (by simp) (by simp)
  rw [← prefixedPayloads_eq hle]
  obtain ⟨out, later, after, hw, hrun, hserves⟩ := h.run_writeArray hp hpos hle hfits
  rw [answer_of_run hrun] at hfull
  rw [left_of_run hrun]
  subst hfull
  exact h.brokenOff hserves (by rwa [length_prefixedPayloads]) hw fun n heq =>
    Contents.replaced_eq_empty_of_put hfits hle hpos heq

theorem Serves.brokenOff_writeArrayOfLength {needed room : Nat} (h : store.Serves contents)
    (hp : store.device.power = .steady)
    (hfull : answer (writeArrayOfLength key bytes) store = .error (.storeFull needed room)) :
    store.BrokenOff contents ∅ key (bytes.map (·.toUInt16))
      (left (writeArrayOfLength key bytes) store) := by
  by_cases hgood : 0 < bytes.length ∧ RunFits key bytes.length
  · obtain ⟨hpos, hfits⟩ := hgood
    obtain ⟨out, later, after, hw, hrun, hserves⟩ := h.run_writeArrayOfLength hp hpos hfits
    rw [answer_of_run hrun] at hfull
    rw [left_of_run hrun]
    subst hfull
    rw [← Contents.without_empty contents] at hw
    exact h.brokenOff hserves (by rwa [List.length_map]) hw fun _ _ => rfl
  · obtain ⟨active, count, used, hs, rfl⟩ := h
    rw [answer_of_run (hs.writeArrayOfLength_nothing hgood).run_nothing] at hfull
    split at hfull <;> cases hfull

/-- A write of an array that finds no room is broken off at a byte, with those before it written. -/
theorem brokenOff_of_format {device : Ram} {config : Config} {attached formatted : Store Ram}
    (hp : device.power = .steady) (ha : attach device config = .ok attached)
    (hf : format attached = .ok () formatted) (hr : Reachable formatted store) :
    ∃ contents, store.Shows contents ∧ ∀ key bytes needed room,
      (answer (writeArray key bytes) store = .error (.storeFull needed room) →
        store.BrokenOff contents (contents.replaced key bytes.length) key (arrayPayloads bytes)
          (left (writeArray key bytes) store)) ∧
      (answer (writeArrayOfLength key bytes) store = .error (.storeFull needed room) →
        store.BrokenOff contents ∅ key (bytes.map (·.toUInt16))
          (left (writeArrayOfLength key bytes) store)) := by
  obtain ⟨hsteady, contents, hserves⟩ := hr.inService (inService_of_format hp ha hf)
  exact ⟨contents, hserves.shows, fun _ _ _ _ => ⟨hserves.brokenOff_writeArray hsteady,
    hserves.brokenOff_writeArrayOfLength hsteady⟩⟩

/-- A page with room for three keys holds an array of one byte and two other keys. -/
def cramped : Store Ram :=
  left (Request.write 101 8).run (left (Request.write 100 7).run
    (left (Request.writeArray 5 [1]).run (left format small)))

theorem reachable_cramped : Reachable (left format small) cramped :=
  .request _ (.request _ (.request _ .start))

/-- The array is lost by a write of a longer one that is refused. -/
theorem readArray_of_refused_cramped :
    Reachable (left format small) cramped ∧
      answer (readArray 5) cramped = .ok (some [1]) ∧
      answer (writeArray 5 [1, 2]) cramped = .error (.storeFull 4 3) ∧
      answer (readArray 5) (left (writeArray 5 [1, 2]) cramped) =
        .error (.partialArrayRead [1] 2) :=
  ⟨reachable_cramped, by decide +kernel, by decide +kernel, by decide +kernel⟩

theorem brokenOff_of_cramped :
    answer (writeArray 5 [1, 2]) cramped = .error (.storeFull 4 3) ∧
      ∃ contents, cramped.Shows contents ∧
        cramped.BrokenOff contents (contents.replaced 5 2) 5 (arrayPayloads [1, 2])
          (left (writeArray 5 [1, 2]) cramped) := by
  have hfull : answer (writeArray 5 [1, 2]) cramped = .error (.storeFull 4 3) := by
    decide +kernel
  obtain ⟨contents, hshows, hleft⟩ :=
    brokenOff_of_format rfl attach_small format_small reachable_cramped
  exact ⟨hfull, contents, hshows, (hleft 5 [1, 2] 4 3).1 hfull⟩

end Store

end FlashRing
