import FlashRing.Proofs.Performs

/-!
What is read of a page in memory: every reading of a ring page succeeds, and its result depends on
the words of that page alone.
-/

namespace FlashRing

section Lists

variable {α β ε : Type}

theorem mapM_eq_ok {f : α → Except ε β} {g : α → β} {list : List α}
    (h : ∀ a ∈ list, f a = .ok (g a)) : list.mapM f = .ok (list.map g) := by
  induction list with
  | nil => rfl
  | cons a rest ih =>
    rw [List.mapM_cons, h a (by simp), ih fun b hb => h b (List.mem_cons_of_mem a hb)]
    rfl

theorem allM_eq_ok {f : α → Except ε Bool} {g : α → Bool} {list : List α}
    (h : ∀ a ∈ list, f a = .ok (g a)) : list.allM f = .ok (list.all g) := by
  induction list with
  | nil => rfl
  | cons a rest ih =>
    rw [List.allM_cons, h a (by simp), ih fun b hb => h b (List.mem_cons_of_mem a hb),
      List.all_cons]
    cases g a <;> rfl

theorem findSomeM?_eq_ok {f : α → Except ε (Option β)} {g : α → Option β} {list : List α}
    (h : ∀ a ∈ list, f a = .ok (g a)) : list.findSomeM? f = .ok (list.findSome? g) := by
  induction list with
  | nil => rfl
  | cons a rest ih =>
    rw [List.findSomeM?_cons, h a (by simp), List.findSome?_cons,
      ih fun b hb => h b (List.mem_cons_of_mem a hb)]
    cases g a <;> rfl

theorem findM?_eq_ok {f : α → Except ε Bool} {g : α → Bool} {list : List α}
    (h : ∀ a ∈ list, f a = .ok (g a)) : list.findM? f = .ok (list.find? g) := by
  induction list with
  | nil => rfl
  | cons a rest ih =>
    have hr := ih fun b hb => h b (List.mem_cons_of_mem a hb)
    rw [List.findM?, h a (by simp), List.find?_cons]
    cases g a with
    | true => rfl
    | false => exact hr

/-- In a run of numbers the first with a property is found by its position. -/
theorem find?_range' (start count : Nat) (p : Nat → Bool) :
    (List.range' start count).find? p =
      ((List.range' start count).findIdx? p).map (start + ·) := by
  induction count generalizing start with
  | zero => rfl
  | succ count ih =>
    rw [List.range'_succ, List.find?_cons, List.findIdx?_cons, ih]
    cases p start with
    | true => rfl
    | false =>
      simp only [Bool.false_eq_true, ↓reduceIte, Option.map_map]
      congr 1
      funext place
      simp only [Function.comp_apply]
      omega

end Lists

theorem Slot.isFree_iff {slot : Slot} : slot.isFree = true ↔ slot = .free := by
  cases slot
  simp [isFree, free]

/-- Every word of the page is erased. -/
def PageContent.isBlank (content : PageContent) : Bool :=
  content.header == erasedWord && content.log.all (·.isFree)

/-- The status in the header of the page. -/
def PageContent.status (content : PageContent) : Status :=
  (Header.decode content.header).status

theorem PageContent.isBlank_blank (capacity : Nat) : (blank capacity).isBlank = true := by
  simp [isBlank, blank, Slot.isFree, Slot.free]

theorem PageContent.eq_blank {content : PageContent} {capacity : Nat}
    (hl : content.log.length = capacity) (h : content.isBlank = true) :
    content = .blank capacity := by
  obtain ⟨hh, ha⟩ := Bool.and_eq_true_iff.mp h
  apply PageContent.ext
  · exact beq_iff_eq.mp hh
  · rw [blank, ← hl]
    apply List.eq_replicate_of_mem
    intro slot hs
    exact Slot.isFree_iff.mp (List.all_eq_true.mp ha slot hs)

/-- Looking for a key until the first free slot. -/
theorem SlotLog.getD_findSome? (log : SlotLog) (key : UInt16) :
    (log.findSome? fun slot =>
      if slot.isFree then some false else if slot.key == key then some true else none).getD false =
      hasKey log.used key := by
  induction log with
  | nil => rfl
  | cons slot rest ih =>
    rw [List.findSome?_cons, used, List.takeWhile_cons]
    cases hf : slot.isFree
    · cases hk : slot.key == key
      · simpa [hk, hasKey_cons, used] using ih
      · simp [hk, hasKey_cons]
    · rfl

namespace PageRing

variable {ring : PageRing} {ram : Ram} {i : Nat}

theorem read_headerAddress (hg : ring.geometry = ram.geometry) (hi : i < ring.count) :
    Device.read ram (ring.page i).headerAddress =
      .ok (ram.word (ring.page i).headerAddress) :=
  have hw : 0 < ring.geometry.pageWords := Nat.zero_lt_of_lt ring.capacity_lt
  Ram.read_eq_word (hg ▸ start_add_lt hi hw)

theorem read_slotAddress (hg : ring.geometry = ram.geometry) (hi : i < ring.count) :
    ∀ address ∈ (ring.page i).slotAddresses, Device.read ram address = .ok (ram.word address) := by
  intro address ha
  have hb := List.mem_range'_1.mp ha
  have hlt := ring.page_start_add_words_le hi
  have hcap : (ring.page i).capacity = (ring.page i).words - 1 := rfl
  apply Ram.read_eq_word
  rw [← hg]
  omega

theorem header_page (hg : ring.geometry = ram.geometry) (hi : i < ring.count) :
    (ring.page i).header ram = .ok (.decode (ring.flash ram i).header) := by
  rw [Page.header, read_headerAddress hg hi, flash_of_lt hi]
  rfl

theorem log_page (hg : ring.geometry = ram.geometry) (hi : i < ring.count) :
    (ring.page i).log ram = .ok (ring.flash ram i).log := by
  rw [flash_of_lt hi]
  apply mapM_eq_ok
  intro address ha
  rw [read_slotAddress hg hi address ha]
  rfl

theorem addresses_page (ring : PageRing) (i : Nat) :
    (ring.page i).addresses = (ring.page i).headerAddress :: (ring.page i).slotAddresses := by
  have hw : (ring.page i).words = ring.capacity + 1 := by
    have := ring.two_le_pageWords
    change ring.geometry.pageWords = ring.geometry.pageWords - 1 + 1
    omega
  rw [Page.addresses, hw, List.range'_succ]
  rfl

theorem read_addresses (hg : ring.geometry = ram.geometry) (hi : i < ring.count) :
    ∀ address ∈ (ring.page i).addresses, Device.read ram address = .ok (ram.word address) := by
  intro address ha
  rw [addresses_page] at ha
  rcases List.mem_cons.mp ha with rfl | ha
  · exact read_headerAddress hg hi
  · exact read_slotAddress hg hi address ha

theorem contents_page (hg : ring.geometry = ram.geometry) (hi : i < ring.count) :
    (ring.page i).contents ram = .ok ((ring.page i).addresses.map ram.word) :=
  mapM_eq_ok (read_addresses hg hi)

theorem isErased_page (hg : ring.geometry = ram.geometry) (hi : i < ring.count) :
    (ring.page i).isErased ram = .ok (ring.flash ram i).isBlank := by
  rw [Page.isErased, allM_eq_ok (g := fun address => ram.word address == erasedWord),
    addresses_page, List.all_cons, PageContent.isBlank, flash_of_lt hi]
  · simp only [content, List.all_map, Function.comp_def, Slot.isFree_decode]
  · intro address ha
    rw [read_addresses hg hi address ha]
    rfl

theorem firstFree?_page (hg : ring.geometry = ram.geometry) (hi : i < ring.count) :
    (ring.page i).firstFree? ram =
      .ok (((ring.flash ram i).log.findIdx? (·.isFree)).map (ring.page i).slotAddress) := by
  rw [Page.firstFree?, findM?_eq_ok (g := fun address => (Slot.decode (ram.word address)).isFree)]
  · simp only [flash_of_lt hi, Page.slotAddresses, find?_range', content, List.findIdx?_map,
      Function.comp_def]
    rfl
  · intro address ha
    rw [read_slotAddress hg hi address ha]
    rfl

theorem holds_page (hg : ring.geometry = ram.geometry) (hi : i < ring.count) (key : UInt16) :
    (ring.page i).holds key ram = .ok (SlotLog.hasKey (ring.flash ram i).log.used key) := by
  rw [Page.holds, findSomeM?_eq_ok (g := fun address =>
    let slot := Slot.decode (ram.word address)
    if slot.isFree then some false else if slot.key == key then some true else none)]
  · rw [← SlotLog.getD_findSome?, flash_of_lt hi, content, List.findSome?_map]
    rfl
  · intro address ha
    rw [read_slotAddress hg hi address ha]
    rfl

end PageRing

namespace Store.Performs

variable {store : Store Ram} {i : Nat}

theorem header (hs : store.Fits) (hi : i < store.ring.count) :
    Performs (Store.observe (store.ring.page i).header) store []
      (.ok (.decode (store.flash i).header)) store.roles :=
  observe fun _ => PageRing.header_page hs hi

theorem log (hs : store.Fits) (hi : i < store.ring.count) :
    Performs (Store.observe (store.ring.page i).log) store [] (.ok (store.flash i).log)
      store.roles :=
  observe fun _ => PageRing.log_page hs hi

theorem isErased (hs : store.Fits) (hi : i < store.ring.count) :
    Performs (Store.observe (store.ring.page i).isErased) store [] (.ok (store.flash i).isBlank)
      store.roles :=
  observe fun _ => PageRing.isErased_page hs hi

theorem firstFree? (hs : store.Fits) (hi : i < store.ring.count) :
    Performs (Store.observe (store.ring.page i).firstFree?) store []
      (.ok (((store.flash i).log.findIdx? (·.isFree)).map (store.ring.page i).slotAddress))
      store.roles :=
  observe fun _ => PageRing.firstFree?_page hs hi

theorem holds (hs : store.Fits) (hi : i < store.ring.count) (key : UInt16) :
    Performs (Store.observe ((store.ring.page i).holds key)) store []
      (.ok (SlotLog.hasKey (store.flash i).log.used key)) store.roles :=
  observe fun _ => PageRing.holds_page hs hi key

end Store.Performs

end FlashRing
