import FlashRing.Proofs.Confinement
import FlashRing.Proofs.Keys

/-!
Stores at work on pages of any contents: stale copies, deleted slots, gaps, slots that were half
written. Main statement: a write finds no room exactly if no slot is free and the keys that count in
the page outnumber its slots together with the one to be written; then nothing has changed.
-/

namespace FlashRing.Store

/-- The store is ready and no rotation is under way. Of what the pages hold nothing is asked. -/
structure ReadyOn (store : Store Ram) (active : Nat) : Prop where
  attached : store.Attached
  steady : store.device.power = .steady
  roles : store.roles = some ⟨active, none⟩
  inside : active < store.ring.count

/-- The store is ready, possibly in the middle of a rotation. Of what the pages hold nothing is
asked. -/
structure Ready (store : Store Ram) (roles : Roles) : Prop where
  attached : store.Attached
  steady : store.device.power = .steady
  within : roles.Within store.ring
  roles : store.roles = some roles

variable {store : Store Ram} {active : Nat} {key payload : UInt16}

/-- Whatever the flash held at first and whatever was called since, a ready store is on one of its
pages. -/
theorem ready_of_journal {device : Ram} {config : Config} (hp : device.power = .steady)
    (ha : attach device config = .ok store) {calls : List Call}
    {entry : Except Error Reply × Store Ram}
    (he : entry ∈ journal (Call.run reattach) store calls) {roles : Roles}
    (hr : entry.2.roles = some roles) : entry.2.Ready roles := by
  obtain ⟨-, -, -, hlayout⟩ := parts_of_attach ha
  have hg : store.ring.geometry = device.geometry := (eq_of_layout hlayout).1
  have hhosts : (enclosing config store.ring device).Hosts store :=
    Counterpart.hosts_of_attach ha rfl ⟨hg, hp, ⟨fun _ _ => rfl, fun _ _ _ => rfl⟩⟩
  obtain ⟨-, hentries⟩ := Counterpart.journal_over
    (fun call => Counterpart.Agrees.call (c := enclosing config store.ring device) .reattach call)
    hhosts calls
  obtain ⟨hafter, -⟩ := hentries entry he
  refine ⟨hafter.attached, hafter.fine.2.1, ?_, hr⟩
  rw [hafter.ring]
  exact hafter.within _ hr

theorem readyOn_of_journal {device : Ram} {config : Config} (hp : device.power = .steady)
    (ha : attach device config = .ok store) {calls : List Call}
    {entry : Except Error Reply × Store Ram}
    (he : entry ∈ journal (Call.run reattach) store calls)
    (hr : entry.2.roles = some ⟨active, none⟩) : entry.2.ReadyOn active := by
  have hready := ready_of_journal hp ha he hr
  exact ⟨hready.attached, hready.steady, hr, hready.within.active⟩

theorem length_survivors_write (log : SlotLog) (hk : isCallerKey key = true)
    (payload : UInt16) :
    (SlotLog.survivors (log ++ [⟨key, payload⟩])).length = (insert key log.keys).card := by
  have hlive : (Slot.mk key payload).isLive = true := hk
  rw [SlotLog.length_survivors_eq_card, SlotLog.keys_append_live log hlive]

namespace ReadyOn

theorem write_refused (h : store.ReadyOn active) (hk : isCallerKey key = true)
    (hother : SlotLog.newest? (store.flash active).log key ≠ some payload)
    (hfull : ∀ slot ∈ (store.flash active).log, slot.isFree = false)
    (hover : store.ring.capacity < (insert key (store.flash active).log.keys).card) :
    write key payload store =
      .error (.storeFull (insert key (store.flash active).log.keys).card store.ring.capacity)
        store := by
  have hs := h.attached.fits
  rw [← length_survivors_write _ hk payload] at hover ⊢
  have hrotate : Performs (rotate (some ⟨key, payload⟩)) store [] _ store.roles :=
    Performs.rotate_full hs h.inside h.roles (SlotLog.isLive_carried hk payload) hover
  exact (Performs.write_full hs h.roles h.inside hk hother hfull hrotate rfl).run_nothing

theorem write_elided (h : store.ReadyOn active) (hk : isCallerKey key = true)
    (hsame : SlotLog.newest? (store.flash active).log key = some payload) :
    write key payload store = .ok () store :=
  (Performs.write_elided h.attached.fits h.roles h.inside hk hsame).run_nothing

theorem write_found (h : store.ReadyOn active) (hk : isCallerKey key = true)
    (hother : SlotLog.newest? (store.flash active).log key ≠ some payload)
    (hfree : ¬∀ slot ∈ (store.flash active).log, slot.isFree = false) :
    answer (write key payload) store = .ok () := by
  cases hfind : (store.flash active).log.findIdx? (·.isFree) with
  | none => exact absurd (List.findIdx?_eq_none_iff.mp hfind) hfree
  | some place =>
    have hrun := Performs.write_found h.attached.fits h.roles h.inside hk hother hfind
    exact answer_of_run (hrun.of_steady h.steady)

/-- A full page with few enough keys is rotated, whatever the next page holds. -/
theorem write_rotated (h : store.ReadyOn active) (hk : isCallerKey key = true)
    (hother : SlotLog.newest? (store.flash active).log key ≠ some payload)
    (hfull : ∀ slot ∈ (store.flash active).log, slot.isFree = false)
    (hroom : (insert key (store.flash active).log.keys).card ≤ store.ring.capacity) :
    Performs (write key payload) store
      (cleaning store.flash (store.ring.next active) ++
        rotationChanges active (store.ring.next active) 0
          (nextCounter (store.ring.page (store.ring.next active))
            (Header.decode (store.flash active).header).counterOrZero)
          (SlotLog.survivors ((store.flash active).log ++ [⟨key, payload⟩])))
      (.ok ()) (some ⟨store.ring.next active, none⟩) := by
  have hs := h.attached.fits
  rw [← length_survivors_write _ hk payload] at hroom
  have hrotate :=
    Performs.rotate_fresh hs h.inside h.roles (SlotLog.isLive_carried hk payload) hroom
  exact Performs.write_full hs h.roles h.inside hk hother hfull hrotate rfl

end ReadyOn

/-- A write is refused for lack of room if it has something to write, every slot is taken and the
keys do not fit, and in no other case. The refusal tells how many they are, and changes nothing. -/
theorem storeFull_iff_of_readyOn (h : store.ReadyOn active) (hk : isCallerKey key = true)
    (payload : UInt16) :
    ((∃ live capacity, answer (write key payload) store = .error (.storeFull live capacity)) ↔
      SlotLog.newest? (store.flash active).log key ≠ some payload ∧
        (∀ slot ∈ (store.flash active).log, slot.isFree = false) ∧
        store.ring.capacity < (insert key (store.flash active).log.keys).card) ∧
    ∀ live capacity, answer (write key payload) store = .error (.storeFull live capacity) →
      live = (insert key (store.flash active).log.keys).card ∧ capacity = store.ring.capacity ∧
        left (write key payload) store = store := by
  by_cases hsame : SlotLog.newest? (store.flash active).log key = some payload
  · -- Nothing is to be written, however full the page is.
    have hok : answer (write key payload) store = .ok () := by
      rw [answer, h.write_elided hk hsame]
    simp [hok, hsame]
  by_cases hfull : ∀ slot ∈ (store.flash active).log, slot.isFree = false
  · rcases Nat.lt_or_ge store.ring.capacity (insert key (store.flash active).log.keys).card with
      hover | hroom
    · have hrun := h.write_refused hk hsame hfull hover
      rw [answer, left, hrun]
      refine ⟨⟨fun _ => ⟨hsame, hfull, hover⟩, fun _ => ⟨_, _, rfl⟩⟩, ?_⟩
      rintro live capacity ⟨⟩
      exact ⟨rfl, rfl, rfl⟩
    · have hok : answer (write key payload) store = .ok () :=
        answer_of_run ((h.write_rotated hk hsame hfull hroom).of_steady h.steady)
      have hfits : ¬store.ring.capacity < (insert key (store.flash active).log.keys).card := by
        omega
      simp [hok, hfits]
  · have hok := h.write_found hk hsame hfull
    simp [hok, hfull]

/-- A page without a free slot that holds three keys. The page after it is soiled. -/
def crowded : Store Ram where
  device := {
    geometry := ⟨4, 2⟩
    words := #[0x00FFFFFF, 0x0001000A, 0x00020014, 0x0003FFFF,
      0xFFFFFFFF, 0x00050032, 0xFFFFFFFF, 0xFFFFFFFF]
    wear := #[0, 1]
    mutations := 5
    power := .steady
    size_words := rfl
    size_wear := rfl }
  config := { ringPages := 2 }
  ring := small.ring
  roles := some ⟨0, none⟩

/-- A fourth key finds no room there, but another payload for one of the three does. -/
theorem storeFull_iff_of_readyOn_crowded :
    crowded.ReadyOn 0 ∧ answer (write 4 40) crowded = .error (.storeFull 4 3) ∧
      left (write 4 40) crowded = crowded ∧
      ¬∃ live capacity, answer (write 2 21) crowded = .error (.storeFull live capacity) := by
  have hready : crowded.ReadyOn 0 := ⟨rfl, rfl, rfl, by decide⟩
  have hfour : isCallerKey 4 = true := rfl
  have htwo : isCallerKey 2 = true := rfl
  obtain ⟨hiff, hsame⟩ := storeFull_iff_of_readyOn hready hfour 40
  have hfull : ∀ slot ∈ (crowded.flash 0).log, slot.isFree = false := by decide +kernel
  have hcard : (insert 4 (crowded.flash 0).log.keys).card = 4 := by decide +kernel
  obtain ⟨live, capacity, hanswer⟩ := hiff.mpr ⟨by decide +kernel, hfull, by decide +kernel⟩
  obtain ⟨rfl, rfl, hleft⟩ := hsame live capacity hanswer
  rw [hcard] at hanswer
  refine ⟨hready, hanswer, hleft, fun h => ?_⟩
  have hover := ((storeFull_iff_of_readyOn hready htwo 21).1.mp h).2.2
  exact absurd hover (by decide +kernel)

end FlashRing.Store
