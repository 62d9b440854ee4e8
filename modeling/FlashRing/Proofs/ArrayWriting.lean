import FlashRing.Proofs.Chaining
import FlashRing.Proofs.KeyRuns

/-!
What the loops of the array operations do to a store in order. Main statements: payloads are put
under a run of keys until one of them finds no room, a run of keys is deleted copy by copy, and
writing an array deletes the older one of another length first.
-/

namespace FlashRing

namespace SlotLog

/-- Of the copies in the first log, the second has all but those of some keys. -/
def Cleared (log : SlotLog) (dropped : Finset UInt16) (used : SlotLog) : Prop :=
  ∀ key, isCallerKey key = true → used.copies key = if key ∈ dropped then [] else log.copies key

variable {log used : SlotLog} {dropped : Finset UInt16} {key : UInt16}

theorem Cleared.empty (log : SlotLog) : log.Cleared ∅ log :=
  fun key _ => (if_neg (Finset.notMem_empty key)).symm

theorem Cleared.contents (h : log.Cleared dropped used) :
    used.contents = log.contents.without dropped := by
  funext key
  by_cases hk : isCallerKey key = true
  · rw [contents_of_caller hk, newest?_eq_head?, h key hk, Contents.without]
    split
    next => rfl
    next => rw [contents_of_caller hk, newest?_eq_head?]
  · rw [Bool.not_eq_true] at hk
    rw [contents_of_not_caller hk, Contents.without, contents_of_not_caller hk, ite_self]

theorem Cleared.struck (h : log.Cleared dropped used) (hk : isCallerKey key = true) :
    log.Cleared (insert key dropped) (used.struck key (used.copies key).length) := by
  intro other ho
  by_cases he : other = key
  · rw [he, copies_struck (ne_zero_of_caller hk), List.drop_length,
      if_pos (Finset.mem_insert_self key dropped)]
  · rw [copies_struck_of_ne he (ne_zero_of_caller ho), h other ho]
    simp only [Finset.mem_insert, he, false_or]

end SlotLog

namespace Contents

variable {contents : Contents} {capacity : Nat} {base : UInt16} {payloads : List UInt16}

/-- Where payloads do not all find room, there is a first that is refused. -/
theorem exists_refused (hfits : RunFits base payloads.length) (hle : contents.size ≤ capacity)
    (hover : capacity < (contents.put base payloads).size) :
    ∃ n key, n < payloads.length ∧ offsetKey base n = some key ∧
      (contents.put base (payloads.take n)).Refuses capacity key := by
  have hsome : ∃ n, capacity < (contents.put base (payloads.take n)).size :=
    ⟨payloads.length, by rwa [List.take_length]⟩
  -- The step to the first size beyond the capacity adds a key.
  cases hfind : Nat.find hsome with
  | zero =>
    have hzero := Nat.find_spec hsome
    rw [hfind, List.take_zero, put_nil] at hzero
    omega
  | succ n =>
    have hlast := Nat.find_spec hsome
    have hbefore := Nat.find_min hsome (m := n) (by omega)
    rw [hfind] at hlast
    have hn : n < payloads.length := by
      by_contra hge
      rw [List.take_of_length_le (by omega)] at hlast hbefore
      exact hbefore hlast
    obtain ⟨key, hkey⟩ := hfits.offsetKey hn
    rw [put_take_succ contents hkey hn] at hlast
    refine ⟨n, key, hn, hkey, ?_⟩
    cases hc : contents.put base (payloads.take n) key with
    | none =>
      rw [size_set_of_none _ hc] at hlast
      exact ⟨hc, by omega⟩
    | some old =>
      rw [size_set_of_some _ hc] at hlast
      exact absurd hlast hbefore

/-- How a write of payloads under a run ends, and the contents that it leaves. -/
inductive Writes (capacity : Nat) (contents : Contents) (base : UInt16) (payloads : List UInt16) :
    Except Error Unit → Contents → Prop where
  | all : (contents.put base payloads).size ≤ capacity →
    Writes capacity contents base payloads (.ok ()) (contents.put base payloads)
  /-- The payload finds no room, those before it are there. -/
  | refused {n : Nat} {key : UInt16} : n < payloads.length → offsetKey base n = some key →
    (contents.put base (payloads.take n)).Refuses capacity key →
    Writes capacity contents base payloads (.error (.storeFull (capacity + 1) capacity))
      (contents.put base (payloads.take n))

namespace Writes

theorem exists_of_fits (hfits : RunFits base payloads.length) (hle : contents.size ≤ capacity) :
    ∃ out later, contents.Writes capacity base payloads out later := by
  by_cases hsize : (contents.put base payloads).size ≤ capacity
  · exact ⟨_, _, .all hsize⟩
  · obtain ⟨n, key, hn, hkey, hfull⟩ := exists_refused hfits hle (Nat.lt_of_not_le hsize)
    exact ⟨_, _, .refused hn hkey hfull⟩

theorem ok_iff {out : Except Error Unit} {later : Contents}
    (h : contents.Writes capacity base payloads out later)
    (hfits : RunFits base payloads.length) :
    out = .ok () ↔ (contents.put base payloads).size ≤ capacity := by
  cases h with
  | all hsize => exact iff_of_true rfl hsize
  | @refused n key hn hkey hfull =>
    refine iff_of_false (by simp) (Nat.not_le_of_lt ?_)
    have hsplit := List.take_append_drop (n + 1) payloads
    have hle := contents.size_put_le (hsplit.symm ▸ hfits)
    rw [hsplit, put_take_succ contents hkey hn, size_set_of_none _ hfull.1, hfull.2] at hle
    exact hle

end Writes

/-- The keys that are deleted before an array of some length is written. -/
def replaced (contents : Contents) (key : UInt16) (length : Nat) : Finset UInt16 :=
  match contents key with
  | none => ∅
  | some head =>
    if head.toNat / 256 = length then ∅ else runKeys key (max (head.toNat / 256) 1)

end Contents

namespace Store

variable {α : Type} {store : Store Ram} {active count : Nat} {used log : SlotLog}
  {contents : Contents} {stages : Contents → Prop} {ends : SlotLog → Prop} {key base : UInt16}
  {payload : UInt16}

theorem checkRange_eq {δ : Type} (key : UInt16) (hpos : 0 < count) :
    (checkRange key count : StoreM δ Unit) =
      if RunFits key count then pure () else throw (.invalidKey key) := by
  rw [checkRange, checkKey]
  by_cases hk : isCallerKey key = true
  · cases hlast : offsetKey key (count - 1) <;> simp [runFits_iff hpos, hk, hlast]
  · rw [if_neg hk, if_neg fun h => hk ((runFits_iff hpos).mp h).1]
    rfl

section Runs

variable {δ : Type} [Device δ] {offset : Nat}

theorem writeRun_cons (h : offsetKey base offset = some key) (payload : UInt16)
    (rest : List UInt16) :
    (writeRun base offset (payload :: rest) : StoreM δ Unit) =
      (do write key payload; writeRun base (offset + 1) rest) := by
  simp [writeRun, h]

theorem writeRun_append (base : UInt16) (offset : Nat) (first second : List UInt16) :
    (writeRun base offset (first ++ second) : StoreM δ Unit) =
      (do writeRun base offset first; writeRun base (offset + first.length) second) := by
  induction first generalizing offset with
  | nil => simp [writeRun]
  | cons payload rest ih =>
    simp only [List.cons_append, writeRun, ih, List.length_cons, bind_assoc, Nat.add_assoc,
      Nat.add_comm 1]

theorem deleteRun_bind (h : offsetKey base offset = some key) (more : Nat)
    (f : Bool → StoreM δ α) :
    (deleteRun base offset (more + 1) >>= f) = (do
      let here ← delete key
      let later ← deleteRun base (offset + 1) more
      f (here || later)) := by
  simp [deleteRun, h]

theorem deleteRun_bind_none (h : offsetKey base offset = none) (more : Nat)
    (f : Bool → StoreM δ α) : (deleteRun base offset (more + 1) >>= f) = f false := by
  simp [deleteRun, h]

end Runs

namespace Settled

theorem passes_write (hs : store.Settled active count used) (hk : isCallerKey key = true)
    (payload : UInt16) (hroom : ¬used.contents.Refuses store.ring.capacity key)
    (hold : stages used.contents) (hnew : stages (used.contents.set key payload)) :
    Passes (Store.write key payload) store (.ok ()) stages
      (·.contents = used.contents.set key payload) := by
  apply (hs.leads_write payload hk hroom).passes
  rintro flash (hstands | hstands)
  · exact ⟨_, hold, hstands⟩
  · exact ⟨_, hnew, hstands⟩

theorem passes_write_full (hs : store.Settled active count used) (hk : isCallerKey key = true)
    (payload : UInt16) (hfull : used.contents.Refuses store.ring.capacity key)
    (hold : stages used.contents) :
    Passes (Store.write key payload) store
      (.error (.storeFull (store.ring.capacity + 1) store.ring.capacity)) stages
      (·.contents = used.contents) :=
  (hs.leads_write_full payload hk hfull.1 hfull.2).passes fun _ hstands => ⟨_, hold, hstands⟩

theorem passes_writeRun (done : List UInt16) {payloads : List UInt16}
    (hs : store.Settled active count used) (hc : used.contents = contents.put base done)
    (hfits : RunFits base (done ++ payloads).length)
    (hsize : (contents.put base (done ++ payloads)).size ≤ store.ring.capacity)
    (hstages : ∀ n, n ≤ payloads.length → stages (contents.put base (done ++ payloads.take n))) :
    Passes (writeRun base done.length payloads) store (.ok ()) stages
      (·.contents = contents.put base (done ++ payloads)) := by
  induction payloads generalizing store active count used done with
  | nil =>
    rw [List.append_nil]
    have hnow := hstages 0 (Nat.le_refl 0)
    rw [List.take_zero, List.append_nil] at hnow
    exact hs.passes_nothing (Performs.pure store ()) (hc ▸ hnow) hc
  | cons payload rest ih =>
    obtain ⟨key, hkey⟩ := hfits.offsetKey (show done.length < _ by simp)
    have hset : used.contents.set key payload = contents.put base (done ++ [payload]) := by
      rw [hc, Contents.put_concat hkey]
    have happend : done ++ payload :: rest = done ++ [payload] ++ rest := by simp
    -- Where all payloads find room, so does this one.
    have hroom : ¬used.contents.Refuses store.ring.capacity key := by
      rintro ⟨hnone, hfull⟩
      have hgrown := Contents.size_set_of_none payload hnone
      have hle := Contents.size_put_le contents (happend ▸ hfits)
      rw [hset] at hgrown
      rw [happend] at hsize
      omega
    have hnow := hstages 0 (Nat.zero_le _)
    have hnext := hstages 1 (by simp)
    rw [List.take_zero, List.append_nil, ← hc] at hnow
    rw [List.take_succ_cons, List.take_zero, ← hset] at hnext
    rw [writeRun_cons hkey]
    refine (hs.passes_write (offsetKey_eq_some.mp hkey).1 payload hroom hnow hnext).bind
      hs.attached ?_
    intro middle place number left hmiddle hleft hring
    rw [happend]
    have hmore := ih (done ++ [payload]) hmiddle (hleft.trans hset) (happend ▸ hfits)
      (by rwa [hring, ← happend]) fun n hn => by
        have hlater := hstages (n + 1) (Nat.succ_le_succ hn)
        rwa [List.take_succ_cons, List.append_cons] at hlater
    rwa [List.length_append, List.length_singleton] at hmore

/-- The payload that finds no room ends the run. -/
theorem passes_writeRun_refused {payloads : List UInt16} (hs : store.Settled active count used)
    (hfits : RunFits base payloads.length) {n : Nat} (hn : n < payloads.length)
    (hkey : offsetKey base n = some key)
    (hfull : (used.contents.put base (payloads.take n)).Refuses store.ring.capacity key)
    (hstages : ∀ m, m ≤ n → stages (used.contents.put base (payloads.take m))) :
    Passes (writeRun base 0 payloads) store
      (.error (.storeFull (store.ring.capacity + 1) store.ring.capacity)) stages
      (·.contents = used.contents.put base (payloads.take n)) := by
  have hlen : (payloads.take n).length = n := List.length_take_of_le hn.le
  -- The run is split before the payload that finds no room.
  have hsplit : payloads = payloads.take n ++ payloads[n] :: payloads.drop (n + 1) := by
    rw [List.getElem_cons_drop, List.take_append_drop]
  have hbefore : Passes (writeRun base 0 (payloads.take n)) store (.ok ()) stages
      (·.contents = used.contents.put base (payloads.take n)) := by
    refine passes_writeRun [] hs (Contents.put_nil ..).symm ?_ hfull.2.le fun m hm => ?_
    · exact hfits.mono (by rw [List.nil_append, hlen]; omega)
    · rw [List.nil_append, List.take_take, Nat.min_eq_left (hlen ▸ hm)]
      exact hstages m (hlen ▸ hm)
  have hall : (writeRun base 0 payloads : StoreM Ram Unit) = (do
      writeRun base 0 (payloads.take n)
      writeRun base (0 + (payloads.take n).length) (payloads[n] :: payloads.drop (n + 1))) := by
    rw [← writeRun_append, ← hsplit]
  rw [hall, hlen, Nat.zero_add]
  refine hbefore.bind hs.attached ?_
  intro middle place number left hmiddle hleft hring
  rw [writeRun_cons hkey, ← hring]
  rw [← hleft, ← hring] at hfull
  have hnow := hstages n (Nat.le_refl n)
  rw [← hleft] at hnow ⊢
  exact (hmiddle.passes_write_full (offsetKey_eq_some.mp hkey).1 _ hfull hnow).bind_error

theorem passes_put {payloads : List UInt16} {out : Except Error Unit} {later : Contents}
    (hs : store.Settled active count used) (hfits : RunFits base payloads.length)
    (hw : used.contents.Writes store.ring.capacity base payloads out later)
    (hstages : ∀ n, n ≤ payloads.length → stages (used.contents.put base (payloads.take n))) :
    Passes (writeRun base 0 payloads) store out stages (·.contents = later) := by
  cases hw with
  | all hsize =>
    exact passes_writeRun [] hs (Contents.put_nil ..).symm hfits hsize hstages
  | refused hn hkey hfull =>
    exact hs.passes_writeRun_refused hfits hn hkey hfull fun m hm => hstages m (by omega)

/-- The keys of a run are deleted one after the other. While one of them is deleted, copies of it
come to light. -/
theorem passes_deleteRun {offset more : Nat} {f : Bool → StoreM Ram α} {out : Except Error α}
    (hs : store.Settled active count used) (hbase : base ≠ 0)
    (hcleared : log.Cleared (runKeys base offset) used)
    (hstages : ∀ (i : Nat) (key : UInt16) (n : Nat), offset ≤ i → i < offset + more →
      offsetKey base i = some key →
      stages (Function.update (log.contents.without (runKeys base i)) key (log.copies key)[n]?))
    (hf : ∀ found middle active count used, middle.Settled active count used →
      log.Cleared (runKeys base (offset + more)) used → middle.ring = store.ring →
      Passes (f found) middle out stages ends) :
    Passes (deleteRun base offset more >>= f) store out stages ends := by
  induction more generalizing offset store active count used f with
  | zero => exact hf false store active count used hs hcleared rfl
  | succ more ih =>
    cases hkey : offsetKey base offset with
    -- Behind the last key of callers there is nothing to delete.
    | none =>
      rw [deleteRun_bind_none hkey]
      refine hf false store active count used hs ?_ rfl
      rwa [runKeys_add_of_none hbase hkey]
    | some key =>
      have hk := (offsetKey_eq_some.mp hkey).1
      have hnot : key ∉ runKeys base offset := by
        rw [mem_runKeys_of_offsetKey hkey]
        exact Nat.lt_irrefl offset
      have hcopies : used.copies key = log.copies key := by rw [hcleared key hk, if_neg hnot]
      rw [deleteRun_bind hkey]
      have hdelete : Passes (Store.delete key) store (.ok (used.contents key).isSome) stages
          (· = used.struck key (used.copies key).length) := by
        refine (hs.passes_delete hk).stages_mono ?_
        rintro contents ⟨n, rfl⟩
        rw [hcleared.contents, hcopies]
        exact hstages offset key n (Nat.le_refl offset) (by omega) hkey
      refine hdelete.bind hs.attached ?_
      rintro middle place number left hmiddle rfl hring
      have hnext := hcleared.struck hk
      rw [← runKeys_succ hkey] at hnext
      refine ih hmiddle hnext (fun i key n hlo hhi => ?_) ?_
      · exact hstages i key n (by omega) (by omega)
      · intro found last place number left hlast hleft hsame
        rw [Nat.add_assoc, Nat.add_comm 1] at hleft
        exact hf _ last place number left hlast hleft (hsame.trans hring)

theorem passes_writeArray {bytes : List UInt8} {out : Except Error Unit}
    (hs : store.Settled active count used) (hpos : 0 < bytes.length) (hle : bytes.length ≤ 255)
    (hfits : RunFits key bytes.length)
    (hstages : ∀ (i : Nat) (other : UInt16) (n : Nat), offsetKey key i = some other →
      other ∈ used.contents.replaced key bytes.length →
      stages (Function.update (used.contents.without (runKeys key i)) other
        (used.copies other)[n]?))
    (hf : ∀ middle active count left, middle.Settled active count left →
      used.Cleared (used.contents.replaced key bytes.length) left → middle.ring = store.ring →
      Passes (writeRun key 0 (prefixedPayloads bytes)) middle out stages ends) :
    Passes (writeArray key bytes) store out stages ends := by
  have hk := hfits.isCallerKey hpos
  rw [writeArray, if_neg (by omega), checkRange_eq key hpos, if_pos hfits]
  refine .bind_read (.pure store ()) (.bind_read (hs.read hk) ?_)
  rw [Contents.replaced] at hstages hf
  cases hc : used.contents key with
  | none =>
    simp only [hc] at hf
    exact hf store active count used hs (.empty used) rfl
  | some head =>
    simp only [hc] at hstages hf
    dsimp only
    rw [arrayLength_eq]
    split
    next hne =>
      rw [if_neg hne] at hstages hf
      refine hs.passes_deleteRun hfits.1 (.empty used) (fun i other n _ hi hother => ?_) ?_
      · exact hstages i other n hother ((mem_runKeys_of_offsetKey hother).mpr (by omega))
      · rw [Nat.zero_add]
        exact fun _ => hf
    next heq =>
      rw [if_pos (not_not.mp heq)] at hf
      exact hf store active count used hs (.empty used) rfl

theorem passes_writeArrayOfLength {bytes : List UInt8} {out : Except Error Unit}
    {later : Contents} (hs : store.Settled active count used) (hpos : 0 < bytes.length)
    (hfits : RunFits key bytes.length)
    (hw : used.contents.Writes store.ring.capacity key (bytes.map (·.toUInt16)) out later)
    (hstages : ∀ n, n ≤ bytes.length →
      stages (used.contents.put key ((bytes.map (·.toUInt16)).take n))) :
    Passes (writeArrayOfLength key bytes) store out stages (·.contents = later) := by
  have hne : ¬bytes.isEmpty = true := by
    rw [List.isEmpty_iff_length_eq_zero]
    omega
  refine .bind_read (.readyRoles hs.roles) (.bind_read (.checkKey (hfits.isCallerKey hpos)) ?_)
  rw [if_neg hne, checkRange_eq key hpos, if_pos hfits]
  refine .bind_read (.pure store ()) (hs.passes_put ?_ hw ?_)
  · rwa [List.length_map]
  · rwa [List.length_map]

end Settled

end Store

end FlashRing
