import FlashRing.Proofs.Performs

/-!
What changes of a ring do to the device as a whole: to its erase counts, to the number of its
changes and to the words beyond the ring. Main statement: changes that leave the same pages and
erase every page equally often leave the same words and the same erase counts.
-/

namespace FlashRing

/-- The address is one of a word of the page. -/
def Page.Covers (page : Page) (address : Nat) : Prop :=
  page.start ≤ address ∧ address < page.start + page.words

namespace Ram

theorem words_eq_of_word {a b : Ram} (hg : a.geometry = b.geometry)
    (h : ∀ address, a.word address = b.word address) : a.words = b.words := by
  have hs : a.words.size = b.words.size := by rw [a.size_words, b.size_words, hg]
  apply Array.ext hs
  intro address ha hb
  have hw := h address
  rwa [word, word, Array.getD_eq_getD_getElem?, Array.getD_eq_getD_getElem?,
    Array.getElem?_eq_getElem ha, Array.getElem?_eq_getElem hb] at hw

theorem getElem?_pageWords (ram : Ram) (page m : Nat) :
    (ram.pageWords page)[m]? =
      if m < ram.geometry.pageWords ∧ ram.geometry.pageAddress page + m < ram.geometry.totalWords
      then some (ram.word (ram.geometry.pageAddress page + m)) else none := by
  have hs := ram.size_words
  rw [pageWords, Array.getElem?_toList, Array.getElem?_extract, word,
    Array.getD_eq_getD_getElem?]
  by_cases hm : m < ram.geometry.pageWords ∧
      ram.geometry.pageAddress page + m < ram.geometry.totalWords
  · rw [if_pos hm, if_pos (by omega), Array.getElem?_eq_getElem (by omega)]
    rfl
  · rw [if_neg hm]
    split
    next => exact Array.getElem?_eq_none (by omega)
    next => rfl

theorem pageWords_congr {a b : Ram} (hg : a.geometry = b.geometry) {page : Nat}
    (h : ∀ m, m < b.geometry.pageWords →
      a.word (b.geometry.pageAddress page + m) = b.word (b.geometry.pageAddress page + m)) :
    a.pageWords page = b.pageWords page := by
  apply List.ext_getElem?
  intro m
  rw [getElem?_pageWords, getElem?_pageWords, hg]
  split
  next hm => rw [h m hm.1]
  next => rfl

theorem wear_eq_of_eraseCount {a b : Ram} (hg : a.geometry = b.geometry)
    (h : ∀ page, page < a.geometry.pageCount → a.eraseCount page = b.eraseCount page) :
    a.wear = b.wear := by
  have hs : a.wear.size = b.wear.size := by rw [a.size_wear, b.size_wear, hg]
  apply Array.ext hs
  intro page ha hb
  have hw := h page (a.size_wear ▸ ha)
  rwa [eraseCount, eraseCount, Array.getD_eq_getD_getElem?, Array.getD_eq_getD_getElem?,
    Array.getElem?_eq_getElem ha, Array.getElem?_eq_getElem hb] at hw

theorem eraseCount_erased {ram : Ram} {page other : Nat} (h : other < ram.geometry.pageCount) :
    (ram.erased page).eraseCount other =
      ram.eraseCount other + if other = page then 1 else 0 := by
  have hs := ram.size_wear
  simp only [eraseCount, erased, Array.getD_eq_getD_getElem?, Array.getElem?_modify,
    Array.getElem?_eq_getElem (show other < ram.wear.size by omega)]
  by_cases he : other = page
  · subst he
    simp
  · rw [if_neg (Ne.symm he), if_neg he]
    rfl

end Ram

namespace PageRing

variable {ring : PageRing} {ram : Ram} {change : Change} {changes : List Change}

theorem mutations_commitAll (ring : PageRing) (ram : Ram) (changes : List Change) :
    (ring.commitAll ram changes).mutations = ram.mutations + changes.length := by
  induction changes generalizing ram with
  | nil => rfl
  | cons change rest ih =>
    have hc : (ring.commit ram change).mutations = ram.mutations + 1 := by cases change <;> rfl
    rw [commitAll, List.foldl_cons, List.length_cons]
    refine (ih _).trans ?_
    rw [hc]
    omega

theorem geometry_commit (ring : PageRing) (ram : Ram) (change : Change) :
    (ring.commit ram change).geometry = ram.geometry :=
  geometry_commitAll ring ram [change]

section Wear

theorem eraseCount_commit (hg : ring.geometry = ram.geometry) {i : Nat} (hi : i < ring.count)
    (change : Change) :
    (ring.commit ram change).eraseCount (ring.base + i) =
      ram.eraseCount (ring.base + i) + if change = .erase i then 1 else 0 := by
  have hlt : ring.base + i < ram.geometry.pageCount := by
    have h := ring.base_add_count_le
    rw [hg] at h
    omega
  cases change with
  | header j word => rw [if_neg (by simp)]; rfl
  | slot j place word => rw [if_neg (by simp)]; rfl
  | erase j =>
    rw [commit, Ram.eraseCount_erased hlt]
    change _ + (if ring.base + i = ring.base + j then 1 else 0) = _
    by_cases hj : i = j
    · rw [hj, if_pos rfl, if_pos rfl]
    · rw [if_neg (by omega), if_neg (by simpa using Ne.symm hj)]

/-- Each erase of a page counts once. -/
theorem eraseCount_commitAll (hg : ring.geometry = ram.geometry) {i : Nat} (hi : i < ring.count)
    (changes : List Change) :
    (ring.commitAll ram changes).eraseCount (ring.base + i) =
      ram.eraseCount (ring.base + i) + changes.count (.erase i) := by
  induction changes generalizing ram with
  | nil => rfl
  | cons change rest ih =>
    have hrest := ih (hg.trans (geometry_commit ring ram change).symm)
    rw [commitAll, List.foldl_cons]
    refine hrest.trans ?_
    rw [eraseCount_commit hg hi, List.count_cons, Nat.add_assoc, Nat.add_comm (List.count _ rest)]
    simp only [beq_iff_eq]

theorem eraseCount_outside (hg : ring.geometry = ram.geometry)
    (hc : ∀ change ∈ changes, ring.Holds change) {page : Nat} (hp : page < ram.geometry.pageCount)
    (hout : page < ring.base ∨ ring.base + ring.count ≤ page) :
    (ring.commitAll ram changes).eraseCount page = ram.eraseCount page := by
  induction changes generalizing ram with
  | nil => rfl
  | cons change rest ih =>
    have hsame := geometry_commit ring ram change
    have hfirst : (ring.commit ram change).eraseCount page = ram.eraseCount page := by
      have hin := hc change (by simp)
      cases change with
      | header j word => rfl
      | slot j place word => rfl
      | erase j =>
        have hj : j < ring.count := hin
        rw [commit, Ram.eraseCount_erased hp]
        change _ + (if page = ring.base + j then 1 else 0) = _
        rw [if_neg (by omega), Nat.add_zero]
    rw [commitAll, List.foldl_cons, ← hfirst]
    exact ih (hg.trans hsame.symm) (fun other ho => hc other (List.mem_cons_of_mem change ho))
      (hsame ▸ hp)

end Wear

section Words

theorem word_commit_outside (hg : ring.geometry = ram.geometry) (hc : ring.Holds change)
    {address : Nat} (hout : ∀ i, i < ring.count → ¬(ring.page i).Covers address) :
    (ring.commit ram change).word address = ram.word address := by
  have hcap := ring.capacity_lt
  have hne : ∀ i m, i < ring.count → m < ring.geometry.pageWords →
      address ≠ (ring.page i).start + m := by
    intro i m hi hm he
    exact hout i hi ⟨by omega, by rw [he]; exact Nat.add_lt_add_left hm _⟩
  cases change with
  | header i word =>
    have hi : i < ring.count := hc
    have hlt : (ring.page i).headerAddress < ram.geometry.totalWords :=
      hg ▸ start_add_lt hi (by omega : 0 < ring.geometry.pageWords)
    rw [commit, Ram.word_programmed hlt, if_neg]
    exact hne i 0 hi (by omega)
  | slot i place word =>
    obtain ⟨hi, hp⟩ := hc
    have hm : 1 + place < ring.geometry.pageWords := by unfold capacity at hp; omega
    have hlt : (ring.page i).slotAddress place < ram.geometry.totalWords :=
      hg ▸ slotAddress_lt hi hp
    rw [commit, Ram.word_programmed hlt, if_neg]
    have h := hne i (1 + place) hi hm
    rwa [← Nat.add_assoc] at h
  | erase i =>
    have hi : i < ring.count := hc
    have hs : ram.geometry.pageAddress (ring.page i).devicePage = (ring.page i).start := by
      rw [← hg]
      rfl
    rw [commit, Ram.word_erased, hs, ← hg, if_neg]
    exact hout i hi

theorem word_commitAll_outside (hg : ring.geometry = ram.geometry)
    (hc : ∀ change ∈ changes, ring.Holds change) {address : Nat}
    (hout : ∀ i, i < ring.count → ¬(ring.page i).Covers address) :
    (ring.commitAll ram changes).word address = ram.word address := by
  induction changes generalizing ram with
  | nil => rfl
  | cons change rest ih =>
    rw [commitAll, List.foldl_cons, ← word_commit_outside hg (hc change (by simp)) hout]
    exact ih (hg.trans (geometry_commit ring ram change).symm)
      fun other ho => hc other (List.mem_cons_of_mem change ho)

/-- What a page holds determines each of its words. -/
theorem word_eq_of_content {a b : Ram} {i m : Nat} (h : ring.content a i = ring.content b i)
    (hm : m < ring.geometry.pageWords) :
    a.word ((ring.page i).start + m) = b.word ((ring.page i).start + m) := by
  cases m with
  | zero => exact congrArg PageContent.header h
  | succ place =>
    have hp : place < ring.capacity := by unfold capacity; omega
    have hslot := congrArg (fun content => content.log[place]?) h
    simp only [getElem?_log, if_pos hp, Option.some.injEq] at hslot
    have hword := congrArg Slot.encode hslot
    rwa [Slot.encode_decode, Slot.encode_decode, Page.slotAddress, Nat.add_assoc,
      Nat.add_comm 1] at hword

theorem words_eq_of_flash {a b : Ram} (hg : a.geometry = b.geometry)
    (hf : ring.flash a = ring.flash b)
    (hout : ∀ address, (∀ i, i < ring.count → ¬(ring.page i).Covers address) →
      a.word address = b.word address) : a.words = b.words := by
  apply Ram.words_eq_of_word hg
  intro address
  by_cases hin : ∃ i, i < ring.count ∧ (ring.page i).Covers address
  · obtain ⟨i, hi, hlo, hhi⟩ := hin
    obtain ⟨m, rfl⟩ := Nat.exists_eq_add_of_le hlo
    have hc := congrFun hf i
    rw [flash_of_lt hi, flash_of_lt hi] at hc
    exact word_eq_of_content hc (Nat.lt_of_add_lt_add_left hhi)
  · exact hout address fun i hi hc => hin ⟨i, hi, hc⟩

end Words

section PageWords

/-- The words of a page, header first, are what the page holds. -/
theorem pageWords_page (hg : ring.geometry = ram.geometry) {i : Nat} (hi : i < ring.count) :
    ram.pageWords (ring.base + i) =
      (ring.content ram i).header :: (ring.content ram i).log.map Slot.encode := by
  have hstart : ram.geometry.pageAddress (ring.base + i) = (ring.page i).start := by
    rw [← hg]
    rfl
  apply List.ext_getElem?
  intro m
  rw [Ram.getElem?_pageWords, hstart, ← hg]
  cases m with
  | zero =>
    have hw : 0 < ring.geometry.pageWords := Nat.zero_lt_of_lt ring.capacity_lt
    rw [if_pos ⟨hw, start_add_lt hi hw⟩]
    rfl
  | succ place =>
    rw [List.getElem?_cons_succ, List.getElem?_map, getElem?_log]
    by_cases hp : place < ring.capacity
    · have hm : place + 1 < ring.geometry.pageWords := by
        unfold capacity at hp
        omega
      rw [if_pos ⟨hm, start_add_lt hi hm⟩, if_pos hp, Option.map_some, Slot.encode_decode,
        Page.slotAddress, Nat.add_assoc, Nat.add_comm 1]
    · have hm : ¬place + 1 < ring.geometry.pageWords := by
        unfold capacity at hp
        omega
      rw [if_neg fun h => hm h.1, if_neg hp]
      rfl

/-- Pages beyond the ring keep their words. -/
theorem pageWords_outside (hg : ring.geometry = ram.geometry)
    (hc : ∀ change ∈ changes, ring.Holds change) {page : Nat} (hp : page < ram.geometry.pageCount)
    (hout : page < ring.base ∨ ring.base + ring.count ≤ page) :
    (ring.commitAll ram changes).pageWords page = ram.pageWords page := by
  refine Ram.pageWords_congr (geometry_commitAll ring ram changes) fun m hm => ?_
  refine word_commitAll_outside hg hc fun i hi hcovers => ?_
  rw [← hg] at hm hp hcovers
  have hstart := Geometry.pageAddress_eq ring.addressable (Nat.le_of_lt hp)
  rw [Page.Covers, start_page hi, hstart] at hcovers
  obtain ⟨hlo, hhi⟩ := hcovers
  -- A word lies in one page only.
  have hupper : (ring.base + i) * ring.geometry.pageWords <
      (page + 1) * ring.geometry.pageWords := by
    rw [Nat.succ_mul]
    exact Nat.lt_of_le_of_lt hlo (Nat.add_lt_add_left hm _)
  have hlower : page * ring.geometry.pageWords <
      (ring.base + i + 1) * ring.geometry.pageWords := by
    rw [Nat.succ_mul]
    exact Nat.lt_of_le_of_lt (Nat.le_add_right _ m) hhi
  have hle := Nat.lt_of_mul_lt_mul_right hupper
  have hge := Nat.lt_of_mul_lt_mul_right hlower
  omega

end PageWords

/-- The pages that are left and the erases of each page determine the device. -/
theorem commitAll_eq {first second : List Change} (hg : ring.geometry = ram.geometry)
    (hfirst : ∀ change ∈ first, ring.Holds change)
    (hsecond : ∀ change ∈ second, ring.Holds change)
    (hf : (ring.flash ram).applyAll ring.capacity first =
      (ring.flash ram).applyAll ring.capacity second)
    (he : ∀ i, first.count (.erase i) = second.count (.erase i)) :
    (ring.commitAll ram first).words = (ring.commitAll ram second).words ∧
      (ring.commitAll ram first).wear = (ring.commitAll ram second).wear := by
  have hg₁ := geometry_commitAll ring ram first
  have hsame : (ring.commitAll ram first).geometry = (ring.commitAll ram second).geometry :=
    hg₁.trans (geometry_commitAll ring ram second).symm
  constructor
  · apply words_eq_of_flash hsame
    · rw [flash_commitAll hg hfirst, flash_commitAll hg hsecond, hf]
    · intro address hout
      rw [word_commitAll_outside hg hfirst hout, word_commitAll_outside hg hsecond hout]
  · apply Ram.wear_eq_of_eraseCount hsame
    intro page hp
    rw [hg₁] at hp
    by_cases hin : ring.base ≤ page ∧ page < ring.base + ring.count
    · obtain ⟨i, rfl⟩ := Nat.exists_eq_add_of_le hin.1
      have hi : i < ring.count := by omega
      rw [eraseCount_commitAll hg hi, eraseCount_commitAll hg hi, he]
    · rw [eraseCount_outside hg hfirst hp (by omega), eraseCount_outside hg hsecond hp (by omega)]

end PageRing

end FlashRing
