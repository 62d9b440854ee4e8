import FlashRing.Proofs.Rotation
import FlashRing.Store.Startup

/-!
What startup and formatting do to any flash: the pages that are erased, and what the statuses that
are left decide.
-/

namespace FlashRing

/-- The numbers with a property, given in ascending order. -/
theorem filter_range_eq {n : Nat} {p : Nat → Bool} {list : List Nat} (hs : list.Pairwise (· < ·))
    (h : ∀ i, i ∈ list ↔ i < n ∧ p i = true) : (List.range n).filter p = list := by
  apply List.Pairwise.eq_of_mem_iff (List.pairwise_lt_range.filter p) hs
  intro i
  rw [List.mem_filter, List.mem_range, h]

/-- The pages with a status, by their positions. -/
def PageRing.indicesOf (ring : PageRing) (flash : Flash) (status : Status) : List Nat :=
  (List.range ring.count).filter fun i => (flash i).status = status

/-- Neither contents nor the start of a rotation, but not erased either. -/
def PageContent.isStray (content : PageContent) : Bool :=
  match content.status with
  | .erased => !content.isBlank
  | .unknown _ => true
  | .active => false
  | .receiving => false

/-- The erases of the pages that need one, in the order given. -/
def erases (needed : PageContent → Bool) (flash : Flash) (indices : List Nat) : List Change :=
  (indices.filter fun i => needed (flash i)).map .erase

theorem holds_erases {ring : PageRing} {needed : PageContent → Bool} {flash : Flash}
    {indices : List Nat} (h : ∀ i ∈ indices, i < ring.count) :
    ∀ change ∈ erases needed flash indices, ring.Holds change := by
  intro change hc
  obtain ⟨i, hi, rfl⟩ := List.mem_map.mp hc
  exact h i (List.mem_filter.mp hi).1

theorem erases_eq_nil {needed : PageContent → Bool} {flash : Flash}
    (h : ∀ i, needed (flash i) = false) (indices : List Nat) :
    erases needed flash indices = [] := by
  rw [erases, List.filter_eq_nil_iff.mpr fun i _ => by simp [h i], List.map_nil]

theorem Flash.applyAll_erases (capacity : Nat) (flash : Flash) (indices : List Nat) (i : Nat) :
    flash.applyAll capacity (indices.map .erase) i =
      if i ∈ indices then .blank capacity else flash i := by
  induction indices generalizing flash with
  | nil => rfl
  | cons j rest ih =>
    rw [List.map_cons, applyAll_cons, ih, Change.apply]
    by_cases hr : i ∈ rest
    · rw [if_pos hr, if_pos (List.mem_cons_of_mem j hr)]
    · rw [if_neg hr]
      by_cases hij : i = j
      · subst hij
        rw [Function.update_self, if_pos (by simp)]
      · rw [Function.update_of_ne hij, if_neg (by simp [hij, hr])]

namespace Store

theorem positions_map_range (n : Nat) (f : Nat → Status) (status : Status) :
    positions ((List.range n).map f) status = (List.range n).filter fun i => f i = status := by
  induction n with
  | zero => rfl
  | succ n ih =>
    unfold positions at ih ⊢
    rw [List.range_succ, List.map_append, List.zipIdx_append, List.filterMap_append, ih,
      List.filter_append]
    congr 1
    by_cases h : f n = status
    · simp [h]
    · simp [h]

section Sweep

variable {store : Store Ram} {p : Nat}

/-- The erases with which startup begins. -/
def sweeping (store : Store Ram) : List Change :=
  erases (·.isStray) store.flash (List.range store.ring.count)

theorem holds_sweeping (store : Store Ram) : ∀ change ∈ store.sweeping, store.ring.Holds change :=
  holds_erases fun _ hi => List.mem_range.mp hi

/-- Only pages in one of the two statuses outlast the sweep. -/
theorem flash_sweeping (store : Store Ram) (i : Nat) :
    store.flash.applyAll store.ring.capacity store.sweeping i =
      if (store.flash i).status = .active ∨ (store.flash i).status = .receiving then store.flash i
      else .blank store.ring.capacity := by
  rw [sweeping, erases, Flash.applyAll_erases]
  simp only [List.mem_filter, List.mem_range]
  by_cases hi : i < store.ring.count
  · rw [PageContent.isStray]
    cases hst : (store.flash i).status with
    | active => simp
    | receiving => simp
    | unknown byte => simp [hi]
    | erased =>
      cases hb : (store.flash i).isBlank with
      | false => simp [hi]
      | true =>
        have hblank : store.flash i = .blank store.ring.capacity :=
          PageContent.eq_blank (PageRing.length_flash ..) hb
        simpa using hblank
  · have hblank : store.flash i = .blank store.ring.capacity := PageRing.flash_of_not_lt hi
    rw [if_neg (fun h => hi h.1), hblank, ite_self]

theorem mem_indicesOf {status : Status} {i : Nat} :
    i ∈ store.ring.indicesOf store.flash status ↔
      i < store.ring.count ∧ (store.flash i).status = status := by
  simp [PageRing.indicesOf]

variable {active receiving : Option Nat}

theorem of_mem_place {status : Status} {place : Option Nat}
    (h : store.ring.indicesOf store.flash status = place.toList) {i : Nat} :
    place = some i ↔ i < store.ring.count ∧ (store.flash i).status = status := by
  rw [← mem_indicesOf, h, Option.mem_toList]

theorem flash_sweeping_of_ne (ha : store.ring.indicesOf store.flash .active = active.toList)
    (hr : store.ring.indicesOf store.flash .receiving = receiving.toList) {i : Nat}
    (hna : active ≠ some i) (hnr : receiving ≠ some i) :
    store.flash.applyAll store.ring.capacity store.sweeping i = .blank store.ring.capacity := by
  by_cases hi : i < store.ring.count
  · rw [flash_sweeping, if_neg]
    rintro (hst | hst)
    · exact hna ((of_mem_place ha).mpr ⟨hi, hst⟩)
    · exact hnr ((of_mem_place hr).mpr ⟨hi, hst⟩)
  · have hblank : store.flash i = .blank store.ring.capacity := PageRing.flash_of_not_lt hi
    rw [flash_sweeping, hblank, ite_self]

theorem flash_sweeping_active (ha : store.ring.indicesOf store.flash .active = active.toList)
    (hp : active = some p) :
    store.flash.applyAll store.ring.capacity store.sweeping p = store.flash p := by
  rw [flash_sweeping, if_pos (Or.inl ((of_mem_place ha).mp hp).2)]

theorem flash_sweeping_receiving
    (hr : store.ring.indicesOf store.flash .receiving = receiving.toList)
    (hp : receiving = some p) :
    store.flash.applyAll store.ring.capacity store.sweeping p = store.flash p := by
  rw [flash_sweeping, if_pos (Or.inr ((of_mem_place hr).mp hp).2)]

end Sweep

/-- The changes of a format: pages that are not blank are erased from the last one on, then the
first page of the ring becomes the active one. -/
def formatting (store : Store Ram) : List Change :=
  erases (!·.isBlank) store.flash (List.range store.ring.count).reverse ++
    [.header 0 (Header.counterWord 1), .header 0 Status.active.programWord]

theorem holds_formatting (store : Store Ram) :
    ∀ change ∈ store.formatting, store.ring.Holds change := by
  have hcount : 0 < store.ring.count := Nat.zero_lt_of_lt store.ring.two_le_count
  intro change hc
  rcases List.mem_append.mp hc with hc | hc
  · exact holds_erases (fun i hi => List.mem_range.mp (List.mem_reverse.mp hi)) change hc
  · simp only [List.mem_cons, List.not_mem_nil, or_false] at hc
    rcases hc with rfl | rfl
    · exact hcount
    · exact hcount

namespace Performs

variable {store : Store Ram} {p : Nat}

/-- Each page is erased if it needs to be, and no other page is touched on the way. -/
theorem forM_erases {flash : Flash} {needed : PageContent → Bool} {f : Nat → StoreM Ram PUnit}
    {indices : List Nat} (hs : store.Fits) (hsame : ∀ i ∈ indices, store.flash i = flash i)
    (hn : indices.Nodup) (hi : ∀ i ∈ indices, i < store.ring.count)
    (hf : ∀ i ∈ indices, ∀ other : Store Ram, other.Fits → other.ring = store.ring →
      other.flash i = flash i →
      Performs (f i) other (if needed (flash i) then [.erase i] else []) (.ok ()) other.roles) :
    Performs (indices.forM f) store (erases needed flash indices) (.ok ()) store.roles := by
  induction indices generalizing store with
  | nil => exact forM_nil f store
  | cons i rest ih =>
    obtain ⟨hnot, hrest⟩ := List.nodup_cons.mp hn
    have hfirst := hf i (by simp) store hs rfl (hsame i (by simp))
    have hsplit : erases needed flash (i :: rest) =
        (if needed (flash i) then [Change.erase i] else []) ++ erases needed flash rest := by
      rw [erases, List.filter_cons]
      cases needed (flash i) <;> rfl
    rw [hsplit]
    have hchange : ∀ change ∈ (if needed (flash i) then [Change.erase i] else []),
        change = .erase i := by
      intro change hc
      split at hc
      next => exact List.mem_singleton.mp hc
      next => cases hc
    refine forM_cons hfirst (ih (fits_after hs _ store.roles) ?_ hrest ?_ ?_)
    -- No position occurs twice, so the pages still to come are as they were.
    · intro j hj
      have hne : j ≠ i := fun he => hnot (he ▸ hj)
      rw [flash_after hs fun change hc => hchange change hc ▸ hi i (by simp),
        ← hsame j (by simp [hj])]
      split
      next => exact Function.update_of_ne hne ..
      next => rfl
    · exact fun j hj => hi j (List.mem_cons_of_mem i hj)
    · exact fun j hj => hf j (List.mem_cons_of_mem i hj)

theorem statuses (hs : store.Fits) :
    Performs (Store.observe fun device =>
        store.ring.pages.mapM fun page => return (← page.header device).status) store []
      (.ok ((List.range store.ring.count).map fun i => (store.flash i).status)) store.roles := by
  apply observe
  intro power
  rw [PageRing.pages, List.mapM_map]
  apply mapM_eq_ok
  intro i hi
  have hh : (store.ring.page i).header (store.device.powered power) =
      .ok (.decode (store.flash i).header) := PageRing.header_page hs (List.mem_range.mp hi)
  rw [Function.comp_apply, hh]
  rfl

theorem sweep (hs : store.Fits) {i : Nat} (hi : i < store.ring.count) {content : PageContent}
    (hc : store.flash i = content) :
    Performs (Store.sweep (store.ring.page i, content.status)) store
      (if content.isStray then [.erase i] else []) (.ok ()) store.roles := by
  subst hc
  unfold PageContent.isStray
  cases (store.flash i).status with
  | erased =>
    have h := clean hs hi
    rw [cleaning] at h
    change Performs (Store.clean (store.ring.page i)) store
      (if !(store.flash i).isBlank then [.erase i] else []) (.ok ()) store.roles
    cases hb : (store.flash i).isBlank
    · simpa [hb] using h
    · simpa [hb] using h
  | unknown byte => exact erase hs hi
  | active => exact pure store ()
  | receiving => exact pure store ()

/-- Startup looks at the statuses of the ring before it touches anything. -/
theorem scan_statuses (hs : store.Fits) {changes : List Change} {out : Except Error Unit}
    {roles : Option Roles}
    (h : Performs (do
        let active := store.ring.indicesOf store.flash .active
        let receiving := store.ring.indicesOf store.flash .receiving
        if 1 < active.length then MonadExcept.throw (.integrity (.severalActive active))
        if 1 < receiving.length then MonadExcept.throw (.integrity (.severalReceiving receiving))
        ((List.range store.ring.count).map fun i =>
          (store.ring.page i, (store.flash i).status)).forM Store.sweep
        resolve active.head? receiving.head?)
      (store.after [] none) changes out roles) :
    Performs Store.scan store changes out roles := by
  have hst : Performs (Store.observe fun device =>
      store.ring.pages.mapM fun page => return (← page.header device).status) (store.after [] none)
      [] (.ok ((List.range store.ring.count).map fun i => (store.flash i).status)) none :=
    statuses (fits_after hs [] none)
  have hpos : ∀ status, positions
      ((List.range store.ring.count).map fun i => (store.flash i).status) status =
        store.ring.indicesOf store.flash status :=
    positions_map_range store.ring.count fun i => (store.flash i).status
  have hpages : (store.after [] none).ring.pages.zip
      ((List.range store.ring.count).map fun i => (store.flash i).status) =
        (List.range store.ring.count).map fun i => (store.ring.page i, (store.flash i).status) :=
    List.zip_map' ..
  refine setRoles_bind (get_bind (fun _ => rfl) (bind_read hst ?_))
  rw [hpages]
  simp only [hpos]
  exact h

/-- Where two pages claim one role startup touches nothing. -/
theorem scan_ambiguous (hs : store.Fits)
    (h : 1 < (store.ring.indicesOf store.flash .active).length ∨
      1 < (store.ring.indicesOf store.flash .receiving).length) :
    ∃ fault, Performs Store.scan store [] (.error (.integrity fault)) none := by
  by_cases ha : 1 < (store.ring.indicesOf store.flash .active).length
  · refine ⟨.severalActive (store.ring.indicesOf store.flash .active), scan_statuses hs ?_⟩
    simp only [if_pos ha]
    exact bind_error (throw _ _)
  · refine ⟨.severalReceiving (store.ring.indicesOf store.flash .receiving),
      scan_statuses hs ?_⟩
    simp only [if_neg ha, if_pos (h.resolve_left ha)]
    exact bind_error (throw _ _)

/-- Startup erases the stray pages; then the pages in use decide. -/
theorem scan (hs : store.Fits) {active receiving : Option Nat}
    (ha : store.ring.indicesOf store.flash .active = active.toList)
    (hr : store.ring.indicesOf store.flash .receiving = receiving.toList) {changes : List Change}
    {out : Except Error Unit} {roles : Option Roles}
    (h : Performs (resolve active receiving) (store.after store.sweeping none) changes out roles) :
    Performs Store.scan store (store.sweeping ++ changes) out roles := by
  have hs₁ := fits_after hs [] none
  have hone : ∀ place : Option Nat, ¬1 < place.toList.length := by
    intro place
    cases place <;> simp
  apply scan_statuses hs
  simp only [ha, hr, hone, ↓reduceIte, Option.head?_toList]
  rw [List.forM_eq_forM, List.forM_map, ← List.forM_eq_forM]
  refine bind (forM_erases hs₁ (fun _ _ => rfl) List.nodup_range
    (fun i hi => List.mem_range.mp hi) ?_) h
  intro i hi other ho hring hflash
  have hr : other.ring = store.ring := hring
  rw [← hr]
  exact sweep ho (hr ▸ List.mem_range.mp hi) hflash

theorem init_none (hs : store.Fits)
    (ha : store.ring.indicesOf store.flash .active = (none : Option Nat).toList)
    (hr : store.ring.indicesOf store.flash .receiving = (none : Option Nat).toList) :
    Performs Store.init store store.sweeping (.error .unformatted) none := by
  have h := scan hs ha hr (throw _ .unformatted)
  rw [List.append_nil] at h
  exact h.fenced rfl

theorem init_active (hs : store.Fits)
    (ha : store.ring.indicesOf store.flash .active = (some p).toList)
    (hr : store.ring.indicesOf store.flash .receiving = (none : Option Nat).toList) :
    Performs Store.init store store.sweeping (.ok ()) (some ⟨p, none⟩) := by
  have h := scan hs ha hr (setRoles _ (some ⟨p, none⟩))
  rw [List.append_nil] at h
  exact h.fenced rfl

theorem init_receiving (hs : store.Fits)
    (ha : store.ring.indicesOf store.flash .active = (none : Option Nat).toList)
    (hr : store.ring.indicesOf store.flash .receiving = (some p).toList) :
    Performs Store.init store
      (store.sweeping ++ [.header p Status.active.programWord]) (.ok ()) (some ⟨p, none⟩) := by
  have hp : p < store.ring.count := ((of_mem_place hr).mp rfl).1
  have hpromote : Performs (resolve none (some p)) (store.after store.sweeping none)
      [.header p Status.active.programWord] (.ok ()) (some ⟨p, none⟩) :=
    get_bind (fun _ => rfl)
      ((program_header (fits_after hs _ none) hp _).bind_last (setRoles _ _))
  exact (scan hs ha hr hpromote).fenced rfl

/-- Formatting erases the whole ring from its last page on. -/
theorem wipe (hs : store.Fits) :
    Performs Store.wipe store store.formatting (.ok ()) (some ⟨0, none⟩) := by
  have hcount : 0 < store.ring.count := Nat.zero_lt_of_lt store.ring.two_le_count
  have hin : ∀ i ∈ (List.range store.ring.count).reverse, i < store.ring.count :=
    fun i hi => List.mem_range.mp (List.mem_reverse.mp hi)
  have hs₁ := fits_after hs [] none
  have hclean : Performs (store.ring.pages.reverse.forM Store.clean) (store.after [] none)
      (erases (!·.isBlank) store.flash (List.range store.ring.count).reverse) (.ok ()) none := by
    rw [PageRing.pages, ← List.map_reverse, List.forM_eq_forM, List.forM_map,
      ← List.forM_eq_forM]
    refine forM_erases hs₁ (fun _ _ => rfl) (List.nodup_reverse.mpr List.nodup_range) hin ?_
    intro i hi other ho hring hflash
    have hr : other.ring = store.ring := hring
    have hc := clean ho (hr ▸ hin i hi)
    rw [cleaning, hflash] at hc
    rw [← hr]
    cases hb : (store.flash i).isBlank
    · simpa [hb] using hc
    · simpa [hb] using hc
  have hs₂ := fits_after hs₁
    (erases (!·.isBlank) store.flash (List.range store.ring.count).reverse) none
  have hs₃ := fits_after hs₂ [.header 0 (Header.counterWord 1)] none
  refine setRoles_bind (get_bind (fun _ => rfl) (bind hclean ?_))
  refine bind (program_header hs₂ hcount _) ?_
  exact bind_last (program_header hs₃ hcount _) (setRoles _ _)

theorem format (hs : store.Fits) :
    Performs Store.format store store.formatting (.ok ()) (some ⟨0, none⟩) :=
  (wipe hs).fenced rfl

end Performs

end Store

end FlashRing
