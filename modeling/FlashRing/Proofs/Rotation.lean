import FlashRing.Proofs.Copying
import FlashRing.Proofs.HeaderWord
import FlashRing.Proofs.Keys

/-!
The changes of a whole rotation, fresh or resumed, for any log of the page that is left: the target
is cleaned if needed, marked, filled, given its counter, and takes over once the source is erased.
-/

namespace FlashRing.Store

variable {store : Store Ram} {a t : Nat}

/-- The erase that cleaning a page costs, if any. -/
def cleaning (flash : Flash) (index : Nat) : List Change :=
  if (flash index).isBlank then [] else [.erase index]

theorem Performs.clean (hs : store.Fits) (ht : t < store.ring.count) :
    Performs (Store.clean (store.ring.page t)) store (cleaning store.flash t) (.ok ())
      store.roles := by
  apply bind_read (isErased hs ht)
  rw [cleaning]
  split
  next => exact pure store ()
  next => exact erase hs ht

theorem flash_after_cleaning (hs : store.Fits) (ht : t < store.ring.count)
    (roles : Option Roles) :
    (store.after (cleaning store.flash t) roles).flash =
      Function.update store.flash t (.blank store.ring.capacity) := by
  rw [cleaning]
  split
  next hb =>
    have hl : (store.flash t).log.length = store.ring.capacity := PageRing.length_flash ..
    rw [← PageContent.eq_blank hl hb, Function.update_eq_self]
    rfl
  next =>
    have hin : store.ring.Holds (.erase t) := ht
    exact flash_after_one hs hin roles

theorem holds_cleaning (ht : t < store.ring.count) :
    ∀ change ∈ cleaning store.flash t, store.ring.Holds change := by
  intro change hc
  rw [cleaning] at hc
  split at hc
  next => cases hc
  next =>
    rw [List.mem_singleton.mp hc]
    exact ht

/-- What a rotation onto a page that is cleaned first leaves, whatever that page held. -/
theorem flash_after_rotation (hs : store.Fits) (ha : a < store.ring.count)
    (ht : t < store.ring.count) (hta : t ≠ a) {slots : List Slot}
    (hl : slots.length ≤ store.ring.capacity) (count : Nat) (roles : Option Roles) :
    (store.after (cleaning store.flash t ++ rotationChanges a t 0 count slots) roles).flash =
      Function.update (Function.update store.flash a (.blank store.ring.capacity)) t
        (.filled store.ring.capacity (Header.activeWord count) slots) := by
  have hl : ([] : SlotLog).length + slots.length ≤ store.ring.capacity := by
    rwa [List.length_nil, Nat.zero_add]
  have hs₁ := fits_after hs (cleaning store.flash t) roles
  have hc₁ : (store.after (cleaning store.flash t) roles).flash t =
      .filled store.ring.capacity erasedWord [] := by
    rw [flash_after_cleaning hs ht, Function.update_self]
    rfl
  have hin : ∀ change ∈ rotationChanges a t 0 count slots, store.ring.Holds change :=
    holds_rotationChanges ha ht hl count
  rw [← after_after (a := roles)]
  refine (flash_after hs₁ hin roles).trans ?_
  refine (Flash.applyAll_rotationChanges hta hc₁ hl count).trans ?_
  rw [flash_after_cleaning hs ht, Header.erasedWord_and_activeWord, Function.update_comm hta,
    Function.update_idem]
  rfl

theorem flash_after_header (hs : store.Fits) (ht : t < store.ring.count) (word : UInt32)
    (roles : Option Roles) :
    (store.after [.header t word] roles).flash =
      Function.update store.flash t
        { store.flash t with header := (store.flash t).header &&& word } := by
  have hin : store.ring.Holds (.header t word) := ht
  exact flash_after_one hs hin roles

variable {carried : Option Slot}

/-- The slot to be written and the copies fill a page before anything else is done. -/
theorem Performs.fill_bind {α : Type} (hs : store.Fits) (ht : t < store.ring.count)
    {header : UInt32} {copied log : SlotLog} {slots : List Slot}
    (hc : store.flash t = .filled store.ring.capacity header copied)
    (hfree : ∀ slot ∈ copied, slot.isFree = false) (hlive : ∀ slot ∈ carried, slot.isLive = true)
    (hslots : (copied ++ carried.toList).overlay log.reverse = copied ++ slots)
    (hl : copied.length + slots.length ≤ store.ring.capacity) {last : StoreM Ram α}
    {changes : List Change} {out : Except Error α} {roles : Option Roles}
    (hlast : Performs last (store.after (appends t copied.length slots) store.roles) changes out
      roles) :
    Performs (do
      carried.toList.forM (Store.appendOrFail (store.ring.page t))
      log.reverse.forM (Store.copy (store.ring.page t))
      last) store (appends t copied.length slots ++ changes) out roles := by
  obtain ⟨rest, hrest⟩ : ∃ rest, slots = carried.toList ++ rest := by
    have hp := SlotLog.prefix_overlay (copied ++ carried.toList) log.reverse
    rw [hslots] at hp
    obtain ⟨rest, h⟩ := (List.prefix_append_right_inj copied).mp hp
    exact ⟨rest, h.symm⟩
  subst hrest
  have hlive' : ∀ slot ∈ carried.toList, slot.isLive = true := by
    intro slot hm
    exact hlive slot (Option.mem_toList.mp hm)
  have hfree' : ∀ slot ∈ copied ++ carried.toList, slot.isFree = false := by
    intro slot hm
    rcases List.mem_append.mp hm with hm | hm
    · exact hfree slot hm
    · exact Slot.isFree_of_isLive (hlive' slot hm)
  have hsplit := appends_append t copied.length carried.toList rest
  rw [← List.length_append] at hsplit
  rw [← List.append_assoc] at hslots
  rw [List.length_append, ← Nat.add_assoc, ← List.length_append] at hl
  have hfirst : copied.length + carried.toList.length ≤ store.ring.capacity := by
    rw [List.length_append] at hl
    omega
  have hs₁ := fits_after hs (appends t copied.length carried.toList) store.roles
  have hc₁ := (congrFun (flash_after_appends hs ht hc hfirst store.roles) t).trans
    (Function.update_self ..)
  rw [hsplit, ← after_after] at hlast
  rw [hsplit, List.append_assoc]
  refine bind (appendAll hs ht hc hfree hlive' hfirst) ?_
  exact bind (copy_all hs₁ ht hc₁ hfree' hslots hl) hlast

/-- A filled page gets its counter, and takes over once the page it was filled from is erased. -/
theorem Performs.handOver (hs : store.Fits) (ha : a < store.ring.count)
    (ht : t < store.ring.count) :
    Performs (do
      let header ← Store.observe (store.ring.page a).header
      Store.program (store.ring.page t).headerAddress
        (Header.counterWord (nextCounter (store.ring.page t) header.counterOrZero))
      Store.erase (store.ring.page a)
      Store.program (store.ring.page t).headerAddress Status.active.programWord
      Store.setRoles (some ⟨t, none⟩)) store
      [.header t (Header.counterWord (nextCounter (store.ring.page t)
        (Header.decode (store.flash a).header).counterOrZero)), .erase a,
        .header t Status.active.programWord]
      (.ok ()) (some ⟨t, none⟩) := by
  refine bind_read (Performs.header hs ha) ?_
  refine bind (program_header hs ht _) ?_
  have hs₁ := fits_after hs [.header t (Header.counterWord (nextCounter (store.ring.page t)
    (Header.decode (store.flash a).header).counterOrZero))] store.roles
  refine bind (erase hs₁ ha) ?_
  exact bind_last (program_header (fits_after hs₁ [.erase a] store.roles) ht _) (setRoles _ _)

theorem Performs.transfer (hs : store.Fits) (ha : a < store.ring.count) (ht : t < store.ring.count)
    (hta : t ≠ a) {header : UInt32} {copied log : SlotLog} {slots : List Slot}
    (hc : store.flash t = .filled store.ring.capacity header copied)
    (hfree : ∀ slot ∈ copied, slot.isFree = false) (hlive : ∀ slot ∈ carried, slot.isLive = true)
    (hslots : (copied ++ carried.toList).overlay log.reverse = copied ++ slots)
    (hl : copied.length + slots.length ≤ store.ring.capacity) :
    Performs (Store.transfer (store.ring.page a) (store.ring.page t) carried log) store
      (rotationChanges a t copied.length (nextCounter (store.ring.page t)
        (Header.decode (store.flash a).header).counterOrZero) slots)
      (.ok ()) (some ⟨t, none⟩) := by
  have hs₁ := fits_after hs [.header t Status.receiving.programWord] store.roles
  have hf₁ := flash_after_header hs ht Status.receiving.programWord store.roles
  have hc₁ : (store.after [.header t Status.receiving.programWord] store.roles).flash t =
      .filled store.ring.capacity (header &&& Status.receiving.programWord) copied := by
    rw [hf₁, Function.update_self, hc]
    rfl
  have hs₂ := fits_after hs₁ (appends t copied.length slots) store.roles
  have hsource : ((store.after [.header t Status.receiving.programWord] store.roles).after
      (appends t copied.length slots) store.roles).flash a = store.flash a := by
    rw [flash_after_appends hs₁ ht hc₁ hl, Function.update_of_ne hta.symm, hf₁,
      Function.update_of_ne hta.symm]
  have hover := handOver hs₂ ha ht
  rw [hsource] at hover
  exact bind (program_header hs ht _) (fill_bind hs₁ ht hc₁ hfree hlive hslots hl hover)

/-- A rotation into the next page. -/
theorem Performs.rotate_fresh (hs : store.Fits) (ha : a < store.ring.count)
    (hr : store.roles = some ⟨a, none⟩) (hlive : ∀ slot ∈ carried, slot.isLive = true)
    (hl : (SlotLog.survivors ((store.flash a).log ++ carried.toList)).length ≤
      store.ring.capacity) :
    Performs (Store.rotate carried) store
      (cleaning store.flash (store.ring.next a) ++ rotationChanges a (store.ring.next a) 0
        (nextCounter (store.ring.page (store.ring.next a))
          (Header.decode (store.flash a).header).counterOrZero)
        (SlotLog.survivors ((store.flash a).log ++ carried.toList)))
      (.ok ()) (some ⟨store.ring.next a, none⟩) := by
  have ht := store.ring.next_lt a
  have hta := store.ring.next_ne ha
  refine bind_read (readyRoles hr) (get_bind (fun _ => rfl) ?_)
  refine bind_read (log hs ha) ?_
  simp only [Option.getD_none, Option.isNone_none, ↓reduceIte, PageRing.capacity_page,
    SlotLog.liveCount_eq _ hlive, if_neg (Nat.not_lt.mpr hl)]
  refine bind (clean hs ht) (setRoles_bind ?_)
  have hs₁ := fits_after (fits_after hs (cleaning store.flash (store.ring.next a)) store.roles) []
    (some ⟨a, some (store.ring.next a)⟩)
  have hf₁ := flash_after_cleaning hs ht store.roles
  have hc₁ : ((store.after (cleaning store.flash (store.ring.next a)) store.roles).after []
      (some ⟨a, some (store.ring.next a)⟩)).flash (store.ring.next a) =
        .filled store.ring.capacity erasedWord [] :=
    (congrFun hf₁ (store.ring.next a)).trans (Function.update_self ..)
  have ha₁ : ((store.after (cleaning store.flash (store.ring.next a)) store.roles).after []
      (some ⟨a, some (store.ring.next a)⟩)).flash a = store.flash a :=
    (congrFun hf₁ a).trans (Function.update_of_ne hta.symm ..)
  have hslots : SlotLog.overlay ([] ++ carried.toList) (store.flash a).log.reverse =
      [] ++ SlotLog.survivors ((store.flash a).log ++ carried.toList) := by
    cases hcar : carried with
    | none => simp [SlotLog.survivors]
    | some slot =>
      rw [Option.toList_some, SlotLog.survivors_concat (hlive slot hcar)]
      rfl
  have h := transfer hs₁ ha ht hta hc₁ (by simp) hlive hslots
    (by rw [List.length_nil, Nat.zero_add]; exact hl)
  rw [ha₁] at h
  exact h

/-- A rotation into a page that is being filled already does not clean it. -/
theorem Performs.rotate_receiving (hs : store.Fits) (ha : a < store.ring.count)
    (hr : store.roles = some ⟨a, some t⟩) (hlive : ∀ slot ∈ carried, slot.isLive = true)
    (hl : (SlotLog.survivors ((store.flash a).log ++ carried.toList)).length ≤
      store.ring.capacity)
    {changes : List Change} {out : Except Error Unit} {roles : Option Roles}
    (h : Performs (Store.transfer (store.ring.page a) (store.ring.page t) carried
      (store.flash a).log) store changes out roles) :
    Performs (Store.rotate carried) store changes out roles := by
  refine bind_read (readyRoles hr) (get_bind (fun _ => rfl) ?_)
  refine bind_read (log hs ha) ?_
  simp only [Option.getD_some, Option.isNone_some, Bool.false_eq_true, ↓reduceIte,
    PageRing.capacity_page, SlotLog.liveCount_eq _ hlive, if_neg (Nat.not_lt.mpr hl)]
  exact h

/-- A rotation that goes on where an earlier one stopped. -/
theorem Performs.rotate_resumed (hs : store.Fits) (ha : a < store.ring.count)
    (ht : t < store.ring.count) (hta : t ≠ a) (hr : store.roles = some ⟨a, some t⟩)
    {header : UInt32} {copied : SlotLog} {slots : List Slot}
    (hc : store.flash t = .filled store.ring.capacity header copied)
    (hfree : ∀ slot ∈ copied, slot.isFree = false)
    (hslots : copied.overlay (store.flash a).log.reverse = copied ++ slots)
    (hl : copied.length + slots.length ≤ store.ring.capacity) :
    Performs (Store.rotate none) store
      (rotationChanges a t copied.length (nextCounter (store.ring.page t)
        (Header.decode (store.flash a).header).counterOrZero) slots)
      (.ok ()) (some ⟨t, none⟩) := by
  have hroom : (SlotLog.survivors ((store.flash a).log ++ (none : Option Slot).toList)).length ≤
      store.ring.capacity := by
    have h := SlotLog.length_survivors_le_overlay copied (store.flash a).log
    rw [hslots, List.length_append] at h
    rw [Option.toList_none, List.append_nil]
    omega
  refine rotate_receiving hs ha hr (by simp) hroom (transfer hs ha ht hta hc hfree (by simp) ?_ hl)
  rw [Option.toList_none, List.append_nil]
  exact hslots

/-- A rotation that cannot fit touches nothing. -/
theorem Performs.rotate_full (hs : store.Fits) (ha : a < store.ring.count) {receiving : Option Nat}
    (hr : store.roles = some ⟨a, receiving⟩) (hlive : ∀ slot ∈ carried, slot.isLive = true)
    (hl : store.ring.capacity <
      (SlotLog.survivors ((store.flash a).log ++ carried.toList)).length) :
    Performs (Store.rotate carried) store []
      (.error (.storeFull (SlotLog.survivors ((store.flash a).log ++ carried.toList)).length
        store.ring.capacity)) store.roles := by
  refine bind_read (readyRoles hr) (get_bind (fun _ => rfl) ?_)
  refine bind_read (log hs ha) ?_
  simp only [PageRing.capacity_page, SlotLog.liveCount_eq _ hlive, if_pos hl]
  exact bind_error (throw store _)

end FlashRing.Store
