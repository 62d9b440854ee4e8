import FlashRing.Proofs.Atomicity
import FlashRing.Proofs.Transparency
import Mathlib.Data.List.Count

/-!
How many programs and erases the operations on single payloads take. Main statement: a write that
finds a free slot takes one program, a rotation takes one for each key that it keeps and four more,
of which one is the erase of the page that is left, and deleting takes one program for each copy.
-/

namespace FlashRing

theorem length_appends (index place : Nat) (slots : List Slot) :
    (appends index place slots).length = slots.length := by
  induction slots generalizing place with
  | nil => rfl
  | cons slot rest ih => rw [appends, List.length_cons, ih, List.length_cons]

theorem length_rotationChanges (source target place count : Nat) (slots : List Slot) :
    (rotationChanges source target place count slots).length = slots.length + 4 := by
  rw [rotationChanges, List.length_cons, List.length_append, length_appends]
  rfl

theorem count_erase_appends (index place : Nat) (slots : List Slot) (i : Nat) :
    (appends index place slots).count (.erase i) = 0 := by
  induction slots generalizing place with
  | nil => rfl
  | cons slot rest ih => simp [appends, ih]

theorem count_erase_rotationChanges (source target place count : Nat) (slots : List Slot)
    (i : Nat) : (rotationChanges source target place count slots).count (.erase i) =
      if source = i then 1 else 0 := by
  by_cases h : source = i
  · simp [rotationChanges, count_erase_appends, h]
  · simp [rotationChanges, count_erase_appends, h]

theorem count_erase_strikes (index : Nat) (key : UInt16) (slots : List Slot) (i : Nat) :
    (strikes index key slots).count (.erase i) = 0 := by
  induction slots with
  | nil => rfl
  | cons slot rest ih =>
    rw [strikes]
    split
    next => simp [ih]
    next => exact ih

namespace Store

variable {α : Type} {x : StoreM Ram α} {store : Store Ram} {contents : Contents}
  {active count : Nat} {used : SlotLog} {key payload : UInt16}

/-- The operation takes so many programs and erases, and these are the pages that it erases. -/
structure Costs (x : StoreM Ram α) (store : Store Ram) (changes : Nat) (erased : List Nat) :
    Prop where
  mutations : (left x store).device.mutations = store.device.mutations + changes
  erases : ∀ page, page < store.device.geometry.pageCount →
    (left x store).device.eraseCount page = store.device.eraseCount page + erased.count page

theorem costs_of_unchanged (h : left x store = store) : Costs x store 0 [] := by
  constructor
  · rw [h, Nat.add_zero]
  · intro page _
    rw [h, List.count_nil, Nat.add_zero]

namespace Performs

variable {changes : List Change} {out : Except Error α} {roles : Option Roles}

theorem costs_nothing (h : Performs x store [] out store.roles) : Costs x store 0 [] :=
  costs_of_unchanged (left_of_run h.run_nothing)

/-- Each change costs one, and an erase is one of a page of the ring. -/
theorem costs (h : Performs x store changes out roles) (hs : store.Fits)
    (hp : store.device.power = .steady) (hin : ∀ change ∈ changes, store.ring.Holds change)
    {places : List Nat} (hplaces : ∀ i ∈ places, i < store.ring.count)
    (he : ∀ i, changes.count (.erase i) = places.count i) :
    Costs x store changes.length (places.map (store.ring.base + ·)) := by
  have hleft := left_of_run (h.of_steady hp)
  constructor
  · rw [hleft]
    exact PageRing.mutations_commitAll store.ring store.device changes
  · intro page hpage
    rw [hleft]
    change (store.ring.commitAll store.device changes).eraseCount page = _
    by_cases hring : store.ring.base ≤ page ∧ page < store.ring.base + store.ring.count
    · obtain ⟨i, rfl⟩ := Nat.exists_eq_add_of_le hring.1
      have hi : i < store.ring.count := by omega
      rw [PageRing.eraseCount_commitAll hs hi, he,
        List.count_map_of_injective places _ (fun _ _ => Nat.add_left_cancel)]
    · have hnone : (places.map (store.ring.base + ·)).count page = 0 := by
        rw [List.count_eq_zero, List.mem_map]
        rintro ⟨i, hi, rfl⟩
        have hlt := hplaces i hi
        omega
      rw [PageRing.eraseCount_outside hs hin hpage (by omega), hnone, Nat.add_zero]

theorem costs_programs (h : Performs x store changes out roles) (hs : store.Fits)
    (hp : store.device.power = .steady) (hin : ∀ change ∈ changes, store.ring.Holds change)
    (he : ∀ i, changes.count (.erase i) = 0) : Costs x store changes.length [] :=
  have hplaces : ∀ i ∈ ([] : List Nat), i < store.ring.count := by simp
  h.costs hs hp hin hplaces he

theorem costs_rotation {target number : Nat} {slots : List Slot}
    (h : Performs x store (rotationChanges active target 0 number slots) out roles)
    (hs : store.Fits) (hp : store.device.power = .steady) (ha : active < store.ring.count)
    (ht : target < store.ring.count) (hl : slots.length ≤ store.ring.capacity) :
    Costs x store (slots.length + 4) [store.ring.base + active] := by
  have hin : ∀ change ∈ rotationChanges active target 0 number slots,
      store.ring.Holds change := holds_rotationChanges ha ht (by omega) number
  have hplaces : ∀ i ∈ [active], i < store.ring.count := by simpa using ha
  rw [← length_rotationChanges active target 0 number]
  refine h.costs hs hp hin hplaces fun i => ?_
  rw [count_erase_rotationChanges, List.count_singleton]
  simp only [beq_iff_eq]

end Performs

/-- What each operation takes where the contents are found and the page is the active one. -/
structure Prices (store : Store Ram) (contents : Contents) (active : Nat) : Prop where
  elided : ∀ key payload, contents key = some payload → Costs (write key payload) store 0 []
  refused : ∀ key payload, answer (write key payload) store ≠ .ok () →
    Costs (write key payload) store 0 []
  appended : ∀ key payload, contents key ≠ some payload →
    answer (write key payload) store = .ok () →
    (∃ slot ∈ (store.flash active).log, slot.isFree = true) →
      Costs (write key payload) store 1 []
  /-- The key that is written counts with those that are kept. -/
  rotated : ∀ key payload, contents key ≠ some payload →
    answer (write key payload) store = .ok () →
    (∀ slot ∈ (store.flash active).log, slot.isFree = false) →
      Costs (write key payload) store ((contents.set key payload).size + 4)
        [store.ring.base + active]
  compacted : Costs compact store (contents.size + 4) [store.ring.base + active]
  deleted : ∀ key, isCallerKey key = true →
    Costs (delete key) store ((store.flash active).log.countP (·.key == key)) []
  /-- A key that callers may not use is not looked for. -/
  reserved : ∀ key, isCallerKey key = false → Costs (delete key) store 0 []
  started : ∀ start : StoreM Ram Unit, start = init ∨ start = restart → Costs start store 0 []

namespace Settled

theorem costs_delete (hs : store.Settled active count used) (hp : store.device.power = .steady)
    (hk : isCallerKey key = true) :
    Costs (Store.delete key) store ((store.flash active).log.countP (·.key == key)) [] := by
  have hcosts := (hs.delete hk).costs_programs hs.attached.fits hp
    (holds_strikes_log hs.valid.1 key) (count_erase_strikes active key _)
  rwa [length_strikes, ← List.countP_eq_length_filter, List.countP_reverse] at hcosts

theorem costs_compact (hs : store.Settled active count used)
    (hp : store.device.power = .steady) :
    Costs Store.compact store (used.contents.size + 4) [store.ring.base + active] := by
  have hl := hs.size_le
  rw [← SlotLog.length_survivors] at hl ⊢
  exact hs.compact.costs_rotation hs.attached.fits hp hs.valid.1 (store.ring.next_lt active) hl

theorem costs_elided (hs : store.Settled active count used)
    (hsame : used.contents key = some payload) : Costs (Store.write key payload) store 0 [] := by
  cases hk : isCallerKey key with
  | false =>
    rw [SlotLog.contents_of_not_caller hk] at hsame
    cases hsame
  | true => exact (hs.write_present hk hsame).costs_nothing

theorem costs_appended (hs : store.Settled active count used)
    (hp : store.device.power = .steady) (hok : answer (Store.write key payload) store = .ok ())
    (hother : used.contents key ≠ some payload) (hroom : used.length < store.ring.capacity) :
    Costs (Store.write key payload) store 1 [] := by
  have hk := hs.isCallerKey_of_write hok
  have hin : store.ring.Holds (.slot active used.length (Slot.mk key payload).encode) :=
    ⟨hs.valid.1, hroom⟩
  exact (hs.write_appended hk hother hroom).costs_programs hs.attached.fits hp
    (by simpa using hin) fun i => rfl

theorem costs_rotated (hs : store.Settled active count used) (hp : store.device.power = .steady)
    (hok : answer (Store.write key payload) store = .ok ())
    (hother : used.contents key ≠ some payload) (hfull : used.length = store.ring.capacity) :
    Costs (Store.write key payload) store ((used.contents.set key payload).size + 4)
      [store.ring.base + active] := by
  have hk := hs.isCallerKey_of_write hok
  have hl := hs.room_of_write hok hother hfull
  rw [← length_survivors_append hk used]
  exact (hs.write_rotated hk hother hfull hl).costs_rotation hs.attached.fits hp hs.valid.1
    (store.ring.next_lt active) hl

theorem costs_refused (hs : store.Settled active count used) (hp : store.device.power = .steady)
    (hno : answer (Store.write key payload) store ≠ .ok ()) :
    Costs (Store.write key payload) store 0 [] := by
  cases hk : isCallerKey key with
  | false => exact (hs.invalidKey hk _).costs_nothing
  | true =>
    by_cases hsame : used.contents key = some payload
    · exact hs.costs_elided hsame
    -- Wherever there is room the write is carried out.
    rcases Nat.lt_or_eq_of_le hs.valid.2.2.2.1 with hlt | hfull
    · exact absurd (answer_of_run ((hs.write_appended hk hsame hlt).of_steady hp)) hno
    · rcases Nat.lt_or_ge store.ring.capacity
        (SlotLog.survivors (used ++ [⟨key, payload⟩])).length with hover | hroom
      · exact (hs.write_refused hk hsame hfull hover).costs_nothing
      · exact absurd (answer_of_run ((hs.write_rotated hk hsame hfull hroom).of_steady hp)) hno

theorem prices (hs : store.Settled active count used) (hp : store.device.power = .steady) :
    store.Prices used.contents active where
  elided _ _ hsame := hs.costs_elided hsame
  refused _ _ hno := hs.costs_refused hp hno
  appended _ _ hother hok hfree := hs.costs_appended hp hok hother (hs.exists_free_iff.mp hfree)
  rotated _ _ hother hok hnone := hs.costs_rotated hp hok hother (hs.length_of_full hnone)
  compacted := hs.costs_compact hp
  deleted _ hk := hs.costs_delete hp hk
  reserved _ hk := (hs.invalidKey hk _).costs_nothing
  started start h := by
    have hrun : start store = ending (.ok ()) store := hs.start h
    exact costs_of_unchanged (left_of_run hrun)

end Settled

/-- What the operations take is known in every state that operations lead to. -/
theorem prices_of_format {device : Ram} {config : Config} {attached formatted : Store Ram}
    (hp : device.power = .steady) (ha : attach device config = .ok attached)
    (hf : format attached = .ok () formatted) (hr : Reachable formatted store) :
    ∃ contents active, store.Shows contents ∧ store.roles = some ⟨active, none⟩ ∧
      store.Prices contents active := by
  obtain ⟨hsteady, contents, hserves⟩ := hr.inService (inService_of_format hp ha hf)
  have hshows := hserves.shows
  obtain ⟨active, count, used, hs, rfl⟩ := hserves
  exact ⟨used.contents, active, hshows, hs.roles, hs.prices hsteady⟩

/-- The small store with a full page, of which one slot is stale. -/
def brimming : Store Ram :=
  left (Request.write 2 20).run (left (Request.write 1 11).run
    (left (Request.write 1 10).run (left format small)))

theorem prices_of_brimming :
    answer (write 3 30) brimming = .ok () ∧ Costs (write 3 30) brimming 7 [0] ∧
      Costs compact brimming 6 [0] ∧ Costs (delete 1) brimming 2 [] ∧
      Costs (write 1 11) brimming 0 [] := by
  have hr : Reachable (left format small) brimming :=
    .request _ (.request _ (.request _ .start))
  obtain ⟨contents, active, hshows, hroles, hprices⟩ :=
    prices_of_format rfl attach_small format_small hr
  have hroles₀ : brimming.roles = some ⟨0, none⟩ := by decide +kernel
  obtain rfl : active = 0 := by
    rw [hroles₀] at hroles
    cases hroles
    rfl
  have hread : ∀ key out, isCallerKey key = true → answer (read key) brimming = .ok out →
      contents key = out := fun key out hk hout => Except.ok.inj ((hshows.1 key hk).symm.trans hout)
  have hone := hread 1 (some 11) rfl (by decide +kernel)
  have hthree := hread 3 none rfl (by decide +kernel)
  have hentries : answer entries brimming = .ok [(1, 11), (2, 20)] := by decide +kernel
  have hsize : contents.size = 2 := by
    have hlisting : contents.listing = [(1, 11), (2, 20)] :=
      Except.ok.inj (hshows.2.symm.trans hentries)
    rw [Contents.size, hlisting]
    rfl
  have hok : answer (write 3 30) brimming = .ok () := by decide +kernel
  have hwrite := hprices.rotated 3 30 (by simp [hthree]) hok (by decide +kernel)
  rw [Contents.size_set_of_none 30 hthree, hsize] at hwrite
  have hcompact := hprices.compacted
  rw [hsize] at hcompact
  have hdelete := hprices.deleted 1 rfl
  rw [show (brimming.flash 0).log.countP (·.key == 1) = 2 by decide +kernel] at hdelete
  exact ⟨hok, hwrite, hcompact, hdelete, hprices.elided 1 11 hone⟩

/-- The small store with the slot of a payload that was deleted. -/
def tombstoned : Store Ram :=
  left (Request.delete 5).run (left (Request.write 5 1).run (left format small))

/-- A key that callers may not use is refused although a slot has it. -/
theorem delete_not_priced_tombstoned :
    Reachable (left format small) tombstoned ∧ tombstoned.roles = some ⟨0, none⟩ ∧
      (tombstoned.flash 0).log.countP (·.key == 0) = 1 ∧
      answer (delete 0) tombstoned = .error (.invalidKey 0) ∧
      (left (delete 0) tombstoned).device.mutations ≠
        tombstoned.device.mutations + (tombstoned.flash 0).log.countP (·.key == 0) := by
  refine ⟨.request _ (.request _ .start), ?_⟩
  decide +kernel

end Store

end FlashRing
