import FlashRing.Proofs.Atomicity
import FlashRing.Proofs.KeyRuns
import FlashRing.Proofs.Service

/-!
What the array operations read. Main statement: an array is given in full where every key of its
run holds something; otherwise the failure brings the longest run of bytes that is there.
-/

namespace FlashRing

namespace Contents

variable {contents : Contents} {base key : UInt16} {offset count : Nat}

/-- The byte at a position of a run, if callers may use the key and it holds something: the run goes
up number by number and ends below 0xFFFF. -/
def byteAt (contents : Contents) (base : UInt16) (offset : Nat) : Option UInt8 :=
  if 0 < base.toNat + offset ∧ base.toNat + offset < 0xFFFF then
    (contents (.ofNat (base.toNat + offset))).map (·.toUInt8)
  else none

/-- The bytes of a run from a position on, up to the first that is missing. -/
def bytesFrom (contents : Contents) (base : UInt16) (offset count : Nat) : List UInt8 :=
  (((List.range' offset count).map (contents.byteAt base)).takeWhile (·.isSome)).filterMap id

/-- The bytes are there from a position on, and after them one is missing unless they are as many as
asked for. -/
structure LongestRun (contents : Contents) (base : UInt16) (offset count : Nat)
    (bytes : List UInt8) : Prop where
  length_le : bytes.length ≤ count
  there : ∀ i (hi : i < bytes.length), contents.byteAt base (offset + i) = some bytes[i]
  missing : bytes.length < count → contents.byteAt base (offset + bytes.length) = none

/-- What a reader who expects so many bytes under a key is answered. -/
def bytesAt (contents : Contents) (key : UInt16) (count : Nat) :
    Except Error (Option (List UInt8)) :=
  if contents key = none then .ok none
  else if ∀ i < count, (contents.byteAt key i).isSome then
    .ok (some (contents.bytesFrom key 0 count))
  else .error (.partialArrayRead (contents.bytesFrom key 0 count) count)

/-- What a reader is answered who takes the length from the first payload. -/
def arrayAt (contents : Contents) (key : UInt16) : Except Error (Option (List UInt8)) :=
  match contents key with
  | none => .ok none
  | some head =>
    if head.toNat / 256 = 0 then .ok (some []) else contents.bytesAt key (head.toNat / 256)

theorem byteAt_of_offsetKey (contents : Contents) (h : offsetKey base offset = some key) :
    contents.byteAt base offset = (contents key).map (·.toUInt8) := by
  obtain ⟨hk, he⟩ := offsetKey_eq_some.mp h
  have hin := isCallerKey_iff.mp hk
  rw [byteAt, ← he, if_pos (by omega), UInt16.ofNat_toNat]

theorem byteAt_put (contents : Contents) (h : offsetKey base offset = some key)
    {payloads : List UInt16} (hin : offset < payloads.length) :
    (contents.put base payloads).byteAt base offset = some payloads[offset].toUInt8 := by
  rw [byteAt_of_offsetKey _ h, put_of_offsetKey contents h, List.getElem?_eq_getElem hin]
  rfl

theorem byteAt_of_none (contents : Contents) (h : offsetKey base offset = none) :
    contents.byteAt base offset = none := by
  unfold offsetKey at h
  dsimp only at h
  split at h
  next => cases h
  next hout => exact if_neg (by omega)

theorem bytesFrom_zero (contents : Contents) (base : UInt16) (offset : Nat) :
    contents.bytesFrom base offset 0 = [] := rfl

theorem bytesFrom_of_none (h : contents.byteAt base offset = none) (count : Nat) :
    contents.bytesFrom base offset count = [] := by
  cases count with
  | zero => rfl
  | succ count => simp [bytesFrom, List.range'_succ, h]

theorem bytesFrom_of_some {byte : UInt8} (h : contents.byteAt base offset = some byte)
    (count : Nat) :
    contents.bytesFrom base offset (count + 1) =
      byte :: contents.bytesFrom base (offset + 1) count := by
  simp [bytesFrom, List.range'_succ, h]

namespace LongestRun

theorem cons {byte : UInt8} {bytes : List UInt8} (hb : contents.byteAt base offset = some byte)
    (h : contents.LongestRun base (offset + 1) count bytes) :
    contents.LongestRun base offset (count + 1) (byte :: bytes) := by
  have hshift : ∀ i, offset + (i + 1) = offset + 1 + i := by omega
  refine ⟨Nat.succ_le_succ h.length_le, fun i hi => ?_, fun hlt => ?_⟩
  · cases i with
    | zero => exact hb
    | succ i =>
      rw [hshift]
      exact h.there i (Nat.lt_of_succ_lt_succ hi)
  · rw [List.length_cons, hshift]
    exact h.missing (Nat.lt_of_succ_lt_succ hlt)

/-- There is no other longest run. -/
theorem eq_bytesFrom {bytes : List UInt8} (h : contents.LongestRun base offset count bytes) :
    bytes = contents.bytesFrom base offset count := by
  induction bytes generalizing offset count with
  | nil =>
    cases count with
    | zero => rfl
    | succ count => exact (bytesFrom_of_none (h.missing (Nat.succ_pos count)) _).symm
  | cons byte rest ih =>
    have hshift : ∀ i, offset + (i + 1) = offset + 1 + i := by omega
    have hfirst : contents.byteAt base offset = some byte := h.there 0 (Nat.succ_pos _)
    obtain ⟨count, rfl⟩ := Nat.exists_eq_add_one.mpr (Nat.zero_lt_of_lt h.length_le)
    rw [bytesFrom_of_some hfirst, ← ih]
    refine ⟨Nat.le_of_succ_le_succ h.length_le, fun i hi => ?_, fun hlt => ?_⟩
    · rw [← hshift]
      exact h.there (i + 1) (Nat.succ_lt_succ hi)
    · rw [← hshift]
      exact h.missing (Nat.succ_lt_succ hlt)

end LongestRun

theorem longestRun_bytesFrom (contents : Contents) (base : UInt16) (offset count : Nat) :
    contents.LongestRun base offset count (contents.bytesFrom base offset count) := by
  induction count generalizing offset with
  | zero => exact ⟨Nat.le_refl 0, by simp [bytesFrom_zero], fun h => absurd h (Nat.lt_irrefl 0)⟩
  | succ count ih =>
    cases hb : contents.byteAt base offset with
    | none =>
      rw [bytesFrom_of_none hb]
      exact ⟨Nat.zero_le _, by simp, fun _ => hb⟩
    | some byte =>
      rw [bytesFrom_of_some hb]
      exact (ih (offset + 1)).cons hb

theorem length_bytesFrom_lt (contents : Contents) (base : UInt16) (offset count : Nat) :
    (contents.bytesFrom base offset count).length < count ↔
      ¬∀ i < count, (contents.byteAt base (offset + i)).isSome := by
  have hrun := contents.longestRun_bytesFrom base offset count
  refine ⟨fun hlt hall => ?_, fun hnot => ?_⟩
  · have hthere := hall _ hlt
    rw [hrun.missing hlt] at hthere
    cases hthere
  · by_contra hge
    apply hnot
    intro i hi
    rw [hrun.there i (by omega), Option.isSome_some]

theorem LongestRun.bytesAt {bytes : List UInt8} (h : contents.LongestRun key 0 count bytes)
    (hthere : contents key ≠ none) :
    contents.bytesAt key count =
      if bytes.length = count then .ok (some bytes)
      else .error (.partialArrayRead bytes count) := by
  have hlt := contents.length_bytesFrom_lt key 0 count
  have hle := h.length_le
  simp only [Nat.zero_add, ← h.eq_bytesFrom] at hlt
  rw [Contents.bytesAt, if_neg hthere, ← h.eq_bytesFrom]
  by_cases hall : ∀ i < count, (contents.byteAt key i).isSome
  · have hge : count ≤ bytes.length := Nat.le_of_not_lt fun hshort => hlt.mp hshort hall
    rw [if_pos hall, if_pos (Nat.le_antisymm hle hge)]
  · rw [if_neg hall, if_neg (Nat.ne_of_lt (hlt.mpr hall))]

theorem arrayAt_ne_invalidKey (contents : Contents) (key other : UInt16) :
    contents.arrayAt key ≠ .error (.invalidKey other) ∧
      ∀ count, contents.bytesAt key count ≠ .error (.invalidKey other) := by
  have hbytes : ∀ count, contents.bytesAt key count ≠ .error (.invalidKey other) := by
    intro count
    unfold bytesAt
    split
    next => simp
    next => split <;> simp
  refine ⟨?_, hbytes⟩
  unfold arrayAt
  split
  next => simp
  next head _ =>
    split
    next => simp
    next => exact hbytes _

end Contents

namespace Store

variable {store : Store Ram} {active count : Nat} {used : SlotLog} {key : UInt16}

/-- What is left to do once the bytes are read. -/
theorem Performs.complete (store : Store Ram) {contents : Contents} (hthere : contents key ≠ none)
    (length : Nat) :
    Performs (do return some (← Store.complete (contents.bytesFrom key 0 length) length)) store []
      (contents.bytesAt key length) store.roles := by
  have hrun := contents.longestRun_bytesFrom key 0 length
  have hle := hrun.length_le
  rw [hrun.bytesAt hthere, Store.complete]
  by_cases hlt : (contents.bytesFrom key 0 length).length < length
  · rw [if_pos hlt, if_neg (Nat.ne_of_lt hlt)]
    exact bind_error (throw store _)
  · rw [if_neg hlt, if_pos (by omega)]
    exact bind_read (pure store _) (pure store _)

namespace Settled

theorem readRun (hs : store.Settled active count used) (base : UInt16) (offset length : Nat) :
    Performs (Store.readRun base offset length) store []
      (.ok (used.contents.bytesFrom base offset length)) store.roles := by
  induction length generalizing offset with
  | zero => exact .pure store []
  | succ length ih =>
    rw [Store.readRun]
    cases hkey : offsetKey base offset with
    | none =>
      rw [Contents.bytesFrom_of_none (Contents.byteAt_of_none _ hkey)]
      exact .pure store []
    | some key =>
      refine .bind_read (hs.read (offsetKey_eq_some.mp hkey).1) ?_
      have hbyte := used.contents.byteAt_of_offsetKey hkey
      cases hc : used.contents key with
      | none =>
        rw [hc, Option.map_none] at hbyte
        rw [Contents.bytesFrom_of_none hbyte]
        exact .pure store []
      | some payload =>
        rw [hc, Option.map_some] at hbyte
        rw [Contents.bytesFrom_of_some hbyte]
        exact .bind_read (ih (offset + 1)) (.pure store _)

theorem readArray (hs : store.Settled active count used) (hk : isCallerKey key = true) :
    Performs (Store.readArray key) store [] (used.contents.arrayAt key) store.roles := by
  refine .bind_read (hs.read hk) ?_
  rw [Contents.arrayAt]
  cases hc : used.contents key with
  | none => exact .pure store none
  | some head =>
    have hbyte := used.contents.byteAt_of_offsetKey (offsetKey_zero hk)
    rw [hc, Option.map_some] at hbyte
    dsimp only
    rw [arrayLength_eq]
    cases hn : head.toNat / 256 with
    | zero => exact .pure store (some [])
    | succ rest =>
      have hthere : used.contents key ≠ none := by simp [hc]
      have hfinish := Performs.complete store hthere (rest + 1)
      rw [Contents.bytesFrom_of_some hbyte] at hfinish
      simp only [Nat.add_one_ne_zero, ↓reduceIte]
      exact .bind_read (hs.readRun key 1 rest) hfinish

theorem readArrayOfLength (hs : store.Settled active count used) (hk : isCallerKey key = true)
    {length : Nat} (hpos : 0 < length) (hmax : length ≤ 0x7FFFFFFFFFFFFFFF) :
    Performs (Store.readArrayOfLength key length) store [] (used.contents.bytesAt key length)
      store.roles := by
  have hreserve : (reserve length : StoreM Ram Unit) = pure () := if_pos hmax
  refine .bind_read (.readyRoles hs.roles) (.bind_read (.checkKey hk) ?_)
  rw [hreserve]
  refine .bind_read (.pure store ()) (.bind_read (hs.readRun key 0 length) ?_)
  obtain ⟨rest, rfl⟩ := Nat.exists_eq_add_one.mpr hpos
  have hbyte := used.contents.byteAt_of_offsetKey (offsetKey_zero hk)
  cases hc : used.contents key with
  | none =>
    rw [hc, Option.map_none] at hbyte
    rw [Contents.bytesFrom_of_none hbyte, Contents.bytesAt, if_pos hc,
      if_pos ⟨List.isEmpty_nil, hpos⟩]
    exact .pure store none
  | some head =>
    rw [hc, Option.map_some] at hbyte
    rw [if_neg]
    · exact .complete store (by simp [hc]) (rest + 1)
    · rw [Contents.bytesFrom_of_some hbyte]
      simp

end Settled

namespace Serves

variable {contents : Contents}

theorem readArray (h : store.Serves contents) (hk : isCallerKey key = true) :
    Store.readArray key store = ending (contents.arrayAt key) store := by
  obtain ⟨active, count, used, hs, rfl⟩ := h
  exact (hs.readArray hk).run_nothing

theorem readArrayOfLength (h : store.Serves contents) (hk : isCallerKey key = true)
    {length : Nat} (hpos : 0 < length) (hmax : length ≤ 0x7FFFFFFFFFFFFFFF) :
    Store.readArrayOfLength key length store = ending (contents.bytesAt key length) store := by
  obtain ⟨active, count, used, hs, rfl⟩ := h
  exact (hs.readArrayOfLength hk hpos hmax).run_nothing

end Serves

/-- Whatever the contents are, and also where a run leaves the keys of callers, reads of arrays
give the longest run of bytes that is there, and change nothing, as long as a vector can hold the
bytes that are asked for. -/
theorem reads_arrays_of_format {device : Ram} {config : Config} {attached formatted : Store Ram}
    (hp : device.power = .steady) (ha : attach device config = .ok attached)
    (hf : format attached = .ok () formatted) (hr : Reachable formatted store)
    (hk : isCallerKey key = true) {length : Nat} (hpos : 0 < length)
    (hmax : length ≤ 0x7FFFFFFFFFFFFFFF) :
    ∃ contents, store.Shows contents ∧
      readArray key store = ending (contents.arrayAt key) store ∧
      readArrayOfLength key length store = ending (contents.bytesAt key length) store ∧
      (∀ count, contents.LongestRun key 0 count (contents.bytesFrom key 0 count)) ∧
      ∀ other, contents.arrayAt key ≠ .error (.invalidKey other) ∧
        contents.bytesAt key length ≠ .error (.invalidKey other) := by
  obtain ⟨-, contents, hserves⟩ := hr.inService (inService_of_format hp ha hf)
  have hvalid := contents.arrayAt_ne_invalidKey key
  exact ⟨contents, hserves.shows, hserves.readArray hk, hserves.readArrayOfLength hk hpos hmax,
    contents.longestRun_bytesFrom key 0, fun other => ⟨(hvalid other).1, (hvalid other).2 length⟩⟩

/-- The last key of callers tells of an array of three bytes. -/
def tailed : Store Ram :=
  left (Request.write 0xFFFE 0x0301).run (left format small)

theorem reads_arrays_of_tailed :
    ∃ contents, tailed.Shows contents ∧
      contents.arrayAt 0xFFFE = .error (.partialArrayRead [1] 3) ∧
      readArray 0xFFFE tailed = ending (contents.arrayAt 0xFFFE) tailed ∧
      contents.bytesAt 0xFFFE 1 = .ok (some [1]) ∧
      readArrayOfLength 0xFFFE 1 tailed = ending (contents.bytesAt 0xFFFE 1) tailed := by
  have hr : Reachable (left format small) tailed := .request (.write 0xFFFE 0x0301) .start
  obtain ⟨contents, hshows, hread, hknown, -⟩ := reads_arrays_of_format rfl attach_small
    format_small hr (by decide : isCallerKey 0xFFFE = true) Nat.one_pos (by decide)
  have hpartial : answer (readArray 0xFFFE) tailed = .error (.partialArrayRead [1] 3) := by
    decide +kernel
  have hone : answer (readArrayOfLength 0xFFFE 1) tailed = .ok (some [1]) := by decide +kernel
  rw [answer_of_run hread] at hpartial
  rw [answer_of_run hknown] at hone
  exact ⟨contents, hshows, hpartial, hread, hone, hknown⟩

/-- Nothing is there to be read, and yet to make room for one byte too many is a panic. -/
theorem readArrayOfLength_overlong :
    Reachable (left format small) (left format small) ∧ isCallerKey 5 = true ∧
      answer (read 5) (left format small) = .ok none ∧
      readArrayOfLength 5 0x8000000000000000 (left format small) =
        .error .capacityOverflow (left format small) ∧
      answer (readArrayOfLength 5 0x8000000000000000) (left format small) ≠ .ok none :=
  ⟨.start, rfl, by decide +kernel, rfl, by decide +kernel⟩

end Store

end FlashRing
