import FlashRing.Proofs.Refusal
import FlashRing.Proofs.Resolution

/-!
What a rotation leaves of pages of any contents, word by word. Main statement: on any two pages a
rotation succeeds, and so does a write that finds no free slot and is not refused; the next page
then holds the slots that count, newest first, and nothing else.
-/

namespace FlashRing.Store

/-- The next page has taken over from the source with these slots, and nothing else has changed. -/
structure Relocated (store final : Store Ram) (source : Nat) (slots : List Slot) : Prop where
  roles : final.roles = some ⟨store.ring.next source, none⟩
  statusByte : (final.flash (store.ring.next source)).statusByte = 0x00
  slotWords : (final.device.pageWords (store.ring.base + store.ring.next source)).tail =
    slots.map Slot.encode ++ List.replicate (store.ring.capacity - slots.length) erasedWord
  counter : (Header.decode (final.flash (store.ring.next source)).header).counter? =
    some (if store.ring.next source = 0 then
        min ((Header.decode (store.flash source).header).counterOrZero + 1) 0xFFFFFE
      else (Header.decode (store.flash source).header).counterOrZero)
  sourceWords : final.device.pageWords (store.ring.base + source) =
    List.replicate store.ring.geometry.pageWords erasedWord
  otherWords : ∀ page, page < store.ring.geometry.pageCount → page ≠ store.ring.base + source →
    page ≠ store.ring.base + store.ring.next source →
      final.device.pageWords page = store.device.pageWords page

variable {store : Store Ram} {active : Nat} {key payload : UInt16} {changes : List Change}

theorem Fits.pageWords (hs : store.Fits) {i : Nat} (hi : i < store.ring.count) :
    store.device.pageWords (store.ring.base + i) =
      (store.flash i).header :: (store.flash i).log.map Slot.encode := by
  rw [PageRing.pageWords_page hs hi, flash, PageRing.flash_of_lt hi]

/-- A page that holds what it held has the words that it had. -/
theorem Fits.pageWords_after (hs : store.Fits) (roles : Option Roles) {i : Nat}
    (hi : i < store.ring.count) (h : (store.after changes roles).flash i = store.flash i) :
    (store.after changes roles).device.pageWords (store.ring.base + i) =
      store.device.pageWords (store.ring.base + i) := by
  refine ((fits_after hs changes roles).pageWords hi).trans ?_
  rw [hs.pageWords hi, h]

theorem encode_filled (capacity : Nat) (header : UInt32) (slots : List Slot) :
    (PageContent.filled capacity header slots).log.map Slot.encode =
      slots.map Slot.encode ++ List.replicate (capacity - slots.length) erasedWord := by
  rw [PageContent.filled, List.map_append, List.map_replicate]
  rfl

theorem words_blank (ring : PageRing) :
    (PageContent.blank ring.capacity).header ::
        (PageContent.blank ring.capacity).log.map Slot.encode =
      List.replicate ring.geometry.pageWords erasedWord := by
  have hw : ring.geometry.pageWords = ring.capacity + 1 := by
    have h := ring.two_le_pageWords
    unfold PageRing.capacity
    omega
  rw [hw, List.replicate_succ, PageContent.blank, List.map_replicate]
  rfl

/-- The pages that a rotation leaves, in terms of words. -/
theorem relocated_of_flash {final : Store Ram} {count : Nat} {slots : List Slot}
    (hs : final.Fits) (hring : final.ring = store.ring) (ha : active < store.ring.count)
    (hcount : nextCounter (store.ring.page (store.ring.next active))
      (Header.decode (store.flash active).header).counterOrZero = count)
    (hroles : final.roles = some ⟨store.ring.next active, none⟩)
    (hflash : final.flash =
      Function.update (Function.update store.flash active (.blank store.ring.capacity))
        (store.ring.next active) (.filled store.ring.capacity (Header.activeWord count) slots))
    (hothers : ∀ page, page < store.ring.geometry.pageCount → page ≠ store.ring.base + active →
      page ≠ store.ring.base + store.ring.next active →
        final.device.pageWords page = store.device.pageWords page) :
    store.Relocated final active slots := by
  have ht := store.ring.next_lt active
  have hta := (store.ring.next_ne ha).symm
  have hmax : count ≤ Header.maxCounter :=
    hcount ▸ Layout.nextCount_le (Header.counterOrZero_le _)
  have hwords : ∀ i, i < store.ring.count → final.device.pageWords (store.ring.base + i) =
      (final.flash i).header :: (final.flash i).log.map Slot.encode := by
    rw [← hring]
    exact fun i hi => hs.pageWords hi
  have htarget : final.flash (store.ring.next active) =
      .filled store.ring.capacity (Header.activeWord count) slots := by
    rw [hflash, Function.update_self]
  have hsource : final.flash active = .blank store.ring.capacity := by
    rw [hflash, Function.update_of_ne hta, Function.update_self]
  constructor
  case roles => exact hroles
  case statusByte =>
    rw [← PageContent.status_eq_active, htarget]
    exact Header.status_activeWord count
  case slotWords => rw [hwords _ ht, List.tail_cons, htarget, encode_filled]
  case counter =>
    have hkept : (PageContent.filled store.ring.capacity (Header.activeWord count) slots).header =
        Header.activeWord count := rfl
    rw [htarget, hkept, Header.counter?_activeWord hmax, ← hcount]
    rfl
  case sourceWords => rw [hwords _ ha, hsource, words_blank]
  case otherWords => exact hothers

namespace ReadyOn

theorem relocated (h : store.ReadyOn active) {x : StoreM Ram Unit} {slots : List Slot}
    (hl : slots.length ≤ store.ring.capacity)
    (hrun : Performs x store
      (cleaning store.flash (store.ring.next active) ++
        rotationChanges active (store.ring.next active) 0
          (nextCounter (store.ring.page (store.ring.next active))
            (Header.decode (store.flash active).header).counterOrZero) slots)
      (.ok ()) (some ⟨store.ring.next active, none⟩)) :
    answer x store = .ok () ∧ store.Relocated (left x store) active slots := by
  have hs := h.attached.fits
  have ht := store.ring.next_lt active
  have hta := store.ring.next_ne h.inside
  generalize hcount : nextCounter (store.ring.page (store.ring.next active))
    (Header.decode (store.flash active).header).counterOrZero = count at hrun
  have hin : ∀ change ∈ cleaning store.flash (store.ring.next active) ++
      rotationChanges active (store.ring.next active) 0 count slots, store.ring.Holds change := by
    intro change hc
    rcases List.mem_append.mp hc with hc | hc
    · exact holds_cleaning ht change hc
    · exact holds_rotationChanges h.inside ht (by omega) count change hc
  -- The next page is cleaned first, so what it held does not matter.
  have hflash := flash_after_rotation hs h.inside ht hta hl count
    (some ⟨store.ring.next active, none⟩)
  have hend := hrun.of_steady h.steady
  refine ⟨answer_of_run hend, ?_⟩
  rw [left_of_run hend]
  have hfits := fits_after hs (cleaning store.flash (store.ring.next active) ++
    rotationChanges active (store.ring.next active) 0 count slots)
    (some ⟨store.ring.next active, none⟩)
  refine relocated_of_flash hfits rfl h.inside hcount rfl hflash ?_
  intro page hp hsource htarget
  by_cases hring : store.ring.base ≤ page ∧ page < store.ring.base + store.ring.count
  · obtain ⟨i, rfl⟩ := Nat.exists_eq_add_of_le hring.1
    refine hs.pageWords_after _ (by omega) ?_
    rw [hflash, Function.update_of_ne (by rintro rfl; exact htarget rfl),
      Function.update_of_ne (by rintro rfl; exact hsource rfl)]
  · exact PageRing.pageWords_outside hs hin (hs ▸ hp) (by omega)

theorem compacts (h : store.ReadyOn active) :
    answer compact store = .ok () ∧
      store.Relocated (left compact store) active (store.flash active).log.survivors := by
  have hl : (store.flash active).log.survivors.length ≤ store.ring.capacity :=
    (SlotLog.length_survivors_le _).trans (PageRing.length_flash ..).le
  have hlive : ∀ slot ∈ (none : Option Slot), slot.isLive = true := by simp
  have hrotate := Performs.rotate_fresh h.attached.fits h.inside h.roles hlive
    (by rwa [Option.toList_none, List.append_nil])
  rw [Option.toList_none, List.append_nil] at hrotate
  exact h.relocated hl (hrotate.fenced rfl)

theorem writes (h : store.ReadyOn active) (hk : isCallerKey key = true)
    (hother : SlotLog.newest? (store.flash active).log key ≠ some payload)
    (hfull : ∀ slot ∈ (store.flash active).log, slot.isFree = false)
    (hroom : (insert key (store.flash active).log.keys).card ≤ store.ring.capacity) :
    answer (write key payload) store = .ok () ∧
      store.Relocated (left (write key payload) store) active
        (⟨key, payload⟩ :: (store.flash active).log.survivors.filter (·.key != key)) := by
  have hlive : (Slot.mk key payload).isLive = true := hk
  have hl := hroom
  rw [← length_survivors_write _ hk payload] at hl
  have hend := h.relocated hl (h.write_rotated hk hother hfull hroom)
  rwa [SlotLog.survivors_write _ hlive] at hend

end ReadyOn

/-- On any two pages compacting succeeds, and so does a write that finds no free slot unless it is
refused. The next page holds the slots that count, from the newest on; a slot that was to be written
stands before them, in place of the one with its key. -/
theorem relocated_of_readyOn (h : store.ReadyOn active) :
    (answer compact store = .ok () ∧
      store.Relocated (left compact store) active (store.flash active).log.survivors) ∧
    ∀ key payload, (∀ slot ∈ (store.flash active).log, slot.isFree = false) →
      SlotLog.newest? (store.flash active).log key ≠ some payload →
      answer (write key payload) store ≠ .error (.invalidKey key) →
      (∀ live capacity, answer (write key payload) store ≠ .error (.storeFull live capacity)) →
        answer (write key payload) store = .ok () ∧
          store.Relocated (left (write key payload) store) active
            (⟨key, payload⟩ :: (store.flash active).log.survivors.filter (·.key != key)) := by
  refine ⟨h.compacts, fun key payload hfull hother hkey hroom => ?_⟩
  have hk : isCallerKey key = true := by
    by_contra hno
    rw [Bool.not_eq_true] at hno
    exact hkey (answer_of_run (Performs.invalidKey h.roles hno _).run_nothing)
  refine h.writes hk hother hfull ?_
  by_contra hover
  have hrun := h.write_refused hk hother hfull (Nat.lt_of_not_le hover)
  exact hroom (insert key (store.flash active).log.keys).card store.ring.capacity
    (by rw [answer, hrun])

/-- A full page at the end of a ring, with a stale copy, a slot that was half written and a deleted
one, and without a counter. The first page of the ring is soiled. -/
def jumbled : Store Ram where
  device := {
    geometry := ⟨6, 3⟩
    words := #[0x00000009, 0x00010001, 0x12345678, 0xFFFFFFFF, 0xFFFFFFFF, 0x00000000,
      0x55FFFFFF, 0x00010002, 0xFFFFFFFF, 0x00020002, 0xFFFFFFFF, 0xFFFFFFFF,
      0x00FFFFFF, 0x0001000A, 0xFFFF0007, 0x00020014, 0x0001000B, 0x00000014]
    wear := #[0, 1, 0]
    mutations := 8
    power := .steady
    size_words := rfl
    size_wear := rfl }
  config := { basePage := 1, ringPages := 2 }
  ring := { small.ring with
    geometry := ⟨6, 3⟩
    base := 1
    two_le_pageWords := by decide
    addressable := by decide
    base_add_count_le := by decide }
  roles := some ⟨1, none⟩

theorem relocated_of_readyOn_jumbled :
    jumbled.ReadyOn 1 ∧
      (answer compact jumbled = .ok () ∧
        jumbled.Relocated (left compact jumbled) 1 [⟨1, 11⟩, ⟨2, 20⟩]) ∧
      answer (write 2 21) jumbled = .ok () ∧
        jumbled.Relocated (left (write 2 21) jumbled) 1 [⟨2, 21⟩, ⟨1, 11⟩] := by
  have hready : jumbled.ReadyOn 1 := ⟨rfl, rfl, rfl, by decide⟩
  have hsurvivors : (jumbled.flash 1).log.survivors = [⟨1, 11⟩, ⟨2, 20⟩] := by decide +kernel
  have hok : answer (write 2 21) jumbled = .ok () := by decide +kernel
  obtain ⟨hcompact, hwrite⟩ := relocated_of_readyOn hready
  have hwritten := hwrite 2 21 (by decide +kernel) (by decide +kernel) (by simp [hok])
    (by simp [hok])
  rw [hsurvivors] at hcompact hwritten
  exact ⟨hready, hcompact, hwritten⟩

end FlashRing.Store
