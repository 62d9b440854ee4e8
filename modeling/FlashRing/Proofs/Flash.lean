import FlashRing.Device.Ram
import FlashRing.Device.Reading
import FlashRing.Page.Ring
import Mathlib.Logic.Function.Basic

/-!
The words of a ring seen page by page, and the programs and erases that change them. Main
statement: a change of the device is the same change of the one page it names.
-/

namespace FlashRing

/-- The words of a page, its slots decoded. -/
@[ext]
structure PageContent where
  header : UInt32
  log : SlotLog
deriving DecidableEq

/-- What the pages of a ring hold, by their positions. -/
abbrev Flash := Nat → PageContent

/-- A program of one word or an erase, by the position of the page. -/
inductive Change where
  | header (index : Nat) (word : UInt32)
  | slot (index place : Nat) (word : UInt32)
  | erase (index : Nat)
deriving DecidableEq

/-- A slot that was never written. -/
def Slot.free : Slot := ⟨0xFFFF, 0xFFFF⟩

/-- What is left of a slot when a word is programmed over it. -/
def Slot.masked (slot : Slot) (word : UInt32) : Slot :=
  decode (slot.encode &&& word)

/-- An erased page. -/
def PageContent.blank (capacity : Nat) : PageContent where
  header := erasedWord
  log := List.replicate capacity .free

/-- What a change does to the pages. -/
def Change.apply (capacity : Nat) (flash : Flash) : Change → Flash
  | .header i word => Function.update flash i { flash i with header := (flash i).header &&& word }
  | .slot i place word =>
    Function.update flash i { flash i with log := (flash i).log.modify place (·.masked word) }
  | .erase i => Function.update flash i (.blank capacity)

/-- What several changes do to the pages, the first of them first. -/
def Flash.applyAll (capacity : Nat) (flash : Flash) (changes : List Change) : Flash :=
  changes.foldl (Change.apply capacity) flash

namespace Ram

/-- The word at an address; beyond the device nothing was ever written. -/
def word (ram : Ram) (address : Nat) : UInt32 :=
  ram.words.getD address erasedWord

/-- The device after a program of one word. -/
def programmed (ram : Ram) (address : Nat) (value : UInt32) : Ram :=
  { ram with
    words := Memory.program ram.words address [value]
    mutations := ram.mutations + 1
    size_words := by rw [Memory.size_program, ram.size_words] }

/-- The device after an erase. -/
def erased (ram : Ram) (page : Nat) : Ram :=
  { ram with
    words := Memory.erase ram.words (ram.geometry.pageAddress page) ram.geometry.pageWords
    wear := ram.wear.modify page (· + 1)
    mutations := ram.mutations + 1
    size_words := by rw [Memory.size_erase, ram.size_words]
    size_wear := by rw [Array.size_modify, ram.size_wear] }

/-- The device with another power supply. -/
def powered (ram : Ram) (power : Power) : Ram :=
  { ram with power := power }

theorem read_eq_word {ram : Ram} {address : Nat} (h : address < ram.geometry.totalWords) :
    ram.read address = .ok (ram.word address) := by
  have hs := ram.size_words
  simp only [read, word, Array.getD_eq_getD_getElem?, hs, h, ↓reduceDIte,
    Array.getElem?_eq_getElem (show address < ram.words.size by omega), Option.getD_some]

theorem word_programmed {ram : Ram} {address i : Nat} {value : UInt32}
    (h : address < ram.geometry.totalWords) :
    (ram.programmed address value).word i =
      if i = address then ram.word i &&& value else ram.word i := by
  have hs := ram.size_words
  simp only [word, programmed, Array.getD_eq_getD_getElem?, Memory.getElem?_program,
    List.length_singleton]
  by_cases hi : i = address
  · subst hi
    rw [if_pos (by omega), if_pos rfl, Array.getElem?_eq_getElem (by omega)]
    simp
  · rw [if_neg (by omega), if_neg hi]

theorem word_erased {ram : Ram} {page i : Nat} :
    (ram.erased page).word i =
      if ram.geometry.pageAddress page ≤ i ∧
          i < ram.geometry.pageAddress page + ram.geometry.pageWords
      then erasedWord else ram.word i := by
  simp only [word, erased, Array.getD_eq_getD_getElem?, Memory.getElem?_erase]
  by_cases hi : ram.geometry.pageAddress page ≤ i ∧
      i < ram.geometry.pageAddress page + ram.geometry.pageWords
  · rw [if_pos hi]
    split
    next => rfl
    next hn =>
      rw [Array.getElem?_eq_none (by omega)]
      rfl
  · rw [if_neg hi, if_neg (by omega)]

end Ram

namespace PageRing

/-- What a page holds on a device. -/
def content (ring : PageRing) (ram : Ram) (i : Nat) : PageContent where
  header := ram.word (ring.page i).headerAddress
  log := (ring.page i).slotAddresses.map fun address => .decode (ram.word address)

/-- What the pages of the ring hold on a device; beyond the ring there is nothing. -/
def flash (ring : PageRing) (ram : Ram) : Flash := fun i =>
  if i < ring.count then ring.content ram i else .blank ring.capacity

/-- A change that stays inside the ring. -/
def Holds (ring : PageRing) : Change → Prop
  | .header i _ => i < ring.count
  | .slot i place _ => i < ring.count ∧ place < ring.capacity
  | .erase i => i < ring.count

/-- The device after a change. -/
def commit (ring : PageRing) (ram : Ram) : Change → Ram
  | .header i word => ram.programmed (ring.page i).headerAddress word
  | .slot i place word => ram.programmed ((ring.page i).slotAddress place) word
  | .erase i => ram.erased (ring.page i).devicePage

/-- The device after several changes, the first of them first. -/
def commitAll (ring : PageRing) (ram : Ram) (changes : List Change) : Ram :=
  changes.foldl ring.commit ram

/-- The addresses of the ring's pages never wrap. -/
theorem start_page {ring : PageRing} {i : Nat} (hi : i < ring.count) :
    (ring.page i).start = (ring.base + i) * ring.geometry.pageWords :=
  Geometry.pageAddress_eq ring.addressable (by have := ring.base_add_count_le; omega)

theorem start_add_inj {ring : PageRing} {i j m n : Nat} (hi : i < ring.count)
    (hj : j < ring.count) (hm : m < ring.geometry.pageWords) (hn : n < ring.geometry.pageWords)
    (h : (ring.page i).start + m = (ring.page j).start + n) : i = j ∧ m = n := by
  rw [start_page hi, start_page hj] at h
  have hw : 0 < ring.geometry.pageWords := by omega
  have hd := congrArg (· / ring.geometry.pageWords) h
  simp only [Nat.mul_comm _ ring.geometry.pageWords, Nat.mul_add_div hw, Nat.div_eq_of_lt hm,
    Nat.div_eq_of_lt hn] at hd
  obtain rfl : i = j := by omega
  exact ⟨rfl, by omega⟩

theorem start_add_lt {ring : PageRing} {i m : Nat} (hi : i < ring.count)
    (hm : m < ring.geometry.pageWords) : (ring.page i).start + m < ring.geometry.totalWords := by
  have h := ring.page_start_add_words_le hi
  have hw : (ring.page i).words = ring.geometry.pageWords := rfl
  omega

theorem capacity_lt (ring : PageRing) : ring.capacity < ring.geometry.pageWords := by
  have h := ring.two_le_pageWords
  unfold capacity
  omega

theorem slotAddress_lt {ring : PageRing} {i place : Nat} (hi : i < ring.count)
    (hp : place < ring.capacity) :
    (ring.page i).slotAddress place < ring.geometry.totalWords := by
  have hm : 1 + place < ring.geometry.pageWords := by
    unfold capacity at hp
    omega
  have hlt := start_add_lt hi hm
  rwa [← Nat.add_assoc] at hlt

theorem getElem?_log (ring : PageRing) (ram : Ram) (i place : Nat) :
    (ring.content ram i).log[place]? =
      if place < ring.capacity then
        some (Slot.decode (ram.word ((ring.page i).slotAddress place)))
      else none := by
  simp only [content, Page.slotAddresses, Page.slotAddress, List.getElem?_map, capacity_page]
  split
  next hp =>
    rw [List.getElem?_range' hp, Nat.one_mul]
    rfl
  next hp =>
    rw [List.getElem?_eq_none (by simpa using hp)]
    rfl

theorem length_log (ring : PageRing) (ram : Ram) (i : Nat) :
    (ring.content ram i).log.length = ring.capacity := by
  simp [content, Page.slotAddresses, capacity_page]

theorem content_ext {ring : PageRing} {a b : Ram} {i : Nat}
    (h : ∀ m, m < ring.geometry.pageWords →
      a.word ((ring.page i).start + m) = b.word ((ring.page i).start + m)) :
    ring.content a i = ring.content b i := by
  have hcap := ring.capacity_lt
  have hheader : (ring.content a i).header = (ring.content b i).header :=
    h 0 (by omega)
  have hlog : (ring.content a i).log = (ring.content b i).log := by
    apply List.ext_getElem?
    intro place
    rw [getElem?_log, getElem?_log]
    split
    next hp =>
      have hw := h (1 + place) (by unfold capacity at hp hcap; omega)
      rw [Page.slotAddress, Nat.add_assoc, hw]
    next => rfl
  exact PageContent.ext hheader hlog

theorem content_programmed_of_ne {ring : PageRing} {ram : Ram} {i j m : Nat} {value : UInt32}
    (hg : ring.geometry = ram.geometry) (hi : i < ring.count) (hj : j < ring.count)
    (hm : m < ring.geometry.pageWords) (h : j ≠ i) :
    ring.content (ram.programmed ((ring.page i).start + m) value) j = ring.content ram j := by
  apply content_ext
  intro n hn
  rw [Ram.word_programmed (hg ▸ start_add_lt hi hm), if_neg]
  intro he
  exact h (start_add_inj hj hi hn hm he).1

theorem content_programmed_header {ring : PageRing} {ram : Ram} {i : Nat} {value : UInt32}
    (hg : ring.geometry = ram.geometry) (hi : i < ring.count) :
    ring.content (ram.programmed (ring.page i).headerAddress value) i =
      { ring.content ram i with header := (ring.content ram i).header &&& value } := by
  have hcap := ring.capacity_lt
  have hlt : (ring.page i).headerAddress < ram.geometry.totalWords :=
    hg ▸ start_add_lt hi (by omega : 0 < _)
  have hlog : (ring.content (ram.programmed (ring.page i).headerAddress value) i).log =
      (ring.content ram i).log := by
    apply List.ext_getElem?
    intro place
    rw [getElem?_log, getElem?_log]
    split
    next hp =>
      rw [Ram.word_programmed hlt, if_neg]
      simp only [Page.slotAddress, Page.headerAddress]
      omega
    next => rfl
  have hheader : (ring.content (ram.programmed (ring.page i).headerAddress value) i).header =
      (ring.content ram i).header &&& value := by
    change (ram.programmed _ value).word _ = _
    rw [Ram.word_programmed hlt]
    exact if_pos rfl
  exact PageContent.ext hheader hlog

theorem content_programmed_slot {ring : PageRing} {ram : Ram} {i place : Nat} {value : UInt32}
    (hg : ring.geometry = ram.geometry) (hi : i < ring.count) (hp : place < ring.capacity) :
    ring.content (ram.programmed ((ring.page i).slotAddress place) value) i =
      { ring.content ram i with
        log := (ring.content ram i).log.modify place (·.masked value) } := by
  have hlt : (ring.page i).slotAddress place < ram.geometry.totalWords := hg ▸ slotAddress_lt hi hp
  have hheader : (ring.content (ram.programmed ((ring.page i).slotAddress place) value) i).header =
      (ring.content ram i).header := by
    change (ram.programmed _ value).word _ = _
    rw [Ram.word_programmed hlt, if_neg]
    · rfl
    · simp only [Page.headerAddress, Page.slotAddress]
      omega
  have hlog : (ring.content (ram.programmed ((ring.page i).slotAddress place) value) i).log =
      (ring.content ram i).log.modify place (·.masked value) := by
    apply List.ext_getElem?
    intro other
    rw [List.getElem?_modify, getElem?_log, getElem?_log]
    split
    next ho =>
      rw [Ram.word_programmed hlt]
      by_cases he : place = other
      · subst he
        simp [Slot.masked, Slot.encode_decode]
      · rw [if_neg (by simp only [Page.slotAddress]; omega)]
        simp [he]
    next => rfl
  exact PageContent.ext hheader hlog

theorem word_erased {ring : PageRing} {ram : Ram} {i j m : Nat}
    (hg : ring.geometry = ram.geometry) (hi : i < ring.count) (hj : j < ring.count)
    (hm : m < ring.geometry.pageWords) :
    (ram.erased (ring.page i).devicePage).word ((ring.page j).start + m) =
      if j = i then erasedWord else ram.word ((ring.page j).start + m) := by
  have hs : ram.geometry.pageAddress (ring.page i).devicePage = (ring.page i).start := by
    rw [← hg]
    rfl
  rw [Ram.word_erased, hs, ← hg]
  by_cases hji : j = i
  · subst hji
    rw [if_pos (by omega), if_pos rfl]
  · rw [if_neg hji, if_neg]
    rintro ⟨hle, hlt⟩
    have hrest : (ring.page j).start + m - (ring.page i).start < ring.geometry.pageWords := by
      omega
    exact hji (start_add_inj hj hi hm hrest (by omega)).1

theorem content_erased {ring : PageRing} {ram : Ram} {i : Nat}
    (hg : ring.geometry = ram.geometry) (hi : i < ring.count) :
    ring.content (ram.erased (ring.page i).devicePage) i = .blank ring.capacity := by
  have hcap := ring.capacity_lt
  have hheader : (ring.content (ram.erased (ring.page i).devicePage) i).header = erasedWord := by
    have hw := word_erased hg hi hi (by omega : 0 < _)
    rwa [if_pos rfl] at hw
  have hlog : (ring.content (ram.erased (ring.page i).devicePage) i).log =
      List.replicate ring.capacity .free := by
    apply List.ext_getElem?
    intro place
    rw [getElem?_log, List.getElem?_replicate]
    split
    next hp =>
      rw [Page.slotAddress, Nat.add_assoc,
        word_erased hg hi hi (by unfold capacity at hp hcap; omega), if_pos rfl]
      rfl
    next => rfl
  exact PageContent.ext hheader hlog

theorem flash_of_lt {ring : PageRing} {ram : Ram} {i : Nat} (h : i < ring.count) :
    ring.flash ram i = ring.content ram i :=
  if_pos h

theorem flash_of_not_lt {ring : PageRing} {ram : Ram} {i : Nat} (h : ¬i < ring.count) :
    ring.flash ram i = .blank ring.capacity :=
  if_neg h

theorem length_flash (ring : PageRing) (ram : Ram) (i : Nat) :
    (ring.flash ram i).log.length = ring.capacity := by
  by_cases h : i < ring.count
  · rw [flash_of_lt h, length_log]
  · rw [flash_of_not_lt h, PageContent.blank, List.length_replicate]

theorem apply_of_not_lt {ring : PageRing} {change : Change} {flash : Flash} {j : Nat}
    (h : ring.Holds change) (hj : ¬j < ring.count) :
    change.apply ring.capacity flash j = flash j := by
  have hne : ∀ i, i < ring.count → j ≠ i := fun i hi he => hj (he ▸ hi)
  cases change with
  | header i word => exact Function.update_of_ne (hne i h) ..
  | slot i place word => exact Function.update_of_ne (hne i h.1) ..
  | erase i => exact Function.update_of_ne (hne i h) ..

/-- A change of the device changes the page it names and no other. -/
theorem flash_commit {ring : PageRing} {ram : Ram} {change : Change}
    (hg : ring.geometry = ram.geometry) (h : ring.Holds change) :
    ring.flash (ring.commit ram change) = change.apply ring.capacity (ring.flash ram) := by
  have hcap := ring.capacity_lt
  funext j
  by_cases hlt : j < ring.count
  · rw [flash_of_lt hlt]
    cases change with
    | header i word =>
      have hi : i < ring.count := h
      by_cases hj : j = i
      · subst hj
        rw [Change.apply, Function.update_self, flash_of_lt hlt]
        exact content_programmed_header hg hi
      · rw [Change.apply, Function.update_of_ne hj, flash_of_lt hlt]
        exact content_programmed_of_ne hg hi hlt (by omega : 0 < _) hj
    | slot i place word =>
      obtain ⟨hi, hp⟩ := h
      by_cases hj : j = i
      · subst hj
        rw [Change.apply, Function.update_self, flash_of_lt hlt]
        exact content_programmed_slot hg hi hp
      · rw [Change.apply, Function.update_of_ne hj, flash_of_lt hlt, commit, Page.slotAddress,
          Nat.add_assoc]
        exact content_programmed_of_ne hg hi hlt (by unfold capacity at hp; omega) hj
    | erase i =>
      by_cases hj : j = i
      · subst hj
        rw [Change.apply, Function.update_self]
        exact content_erased hg hlt
      · rw [Change.apply, Function.update_of_ne hj, flash_of_lt hlt]
        apply content_ext
        intro m hm
        rw [commit, word_erased hg h hlt hm, if_neg hj]
  · rw [flash_of_not_lt hlt, apply_of_not_lt h hlt, flash_of_not_lt hlt]

theorem geometry_commitAll (ring : PageRing) (ram : Ram) (changes : List Change) :
    (ring.commitAll ram changes).geometry = ram.geometry := by
  induction changes generalizing ram with
  | nil => rfl
  | cons change rest ih =>
    rw [commitAll, List.foldl_cons]
    refine (ih _).trans ?_
    cases change <;> rfl

theorem flash_commitAll {ring : PageRing} {ram : Ram} {changes : List Change}
    (hg : ring.geometry = ram.geometry) (h : ∀ change ∈ changes, ring.Holds change) :
    ring.flash (ring.commitAll ram changes) =
      (ring.flash ram).applyAll ring.capacity changes := by
  induction changes generalizing ram with
  | nil => rfl
  | cons change rest ih =>
    have hc := flash_commit hg (h change (by simp))
    have hg' : ring.geometry = (ring.commit ram change).geometry := by
      rw [hg]
      exact (geometry_commitAll ring ram [change]).symm
    have hr := ih hg' fun other ho => h other (List.mem_cons_of_mem change ho)
    rw [hc] at hr
    exact hr

end PageRing

end FlashRing
