import FlashRing.Proofs.Agreement

/-!
A store keeps to its ring. Main statement: on any flash whatsoever it works as well in an enclosure
that refuses every word and every page beyond the ring; its addresses have 32 bits, the device never
fails, and beyond the ring nothing changes.
-/

namespace FlashRing

/-- Memory of which only some consecutive pages may be touched. -/
structure Enclosure where
  ram : Ram
  /-- The first of these pages. -/
  first : Nat
  /-- The page behind the last of them. -/
  stop : Nat

namespace Enclosure

/-- The words lie in pages that may be touched. -/
def Admits (enclosure : Enclosure) (address count : Nat) : Prop :=
  enclosure.first * enclosure.ram.geometry.pageWords ≤ address ∧
    address + count ≤ enclosure.stop * enclosure.ram.geometry.pageWords

instance (enclosure : Enclosure) (address count : Nat) :
    Decidable (enclosure.Admits address count) :=
  inferInstanceAs (Decidable (_ ∧ _))

/-- Changes the memory inside. -/
def inside (change : EStateM Error Ram Unit) : EStateM Error Enclosure Unit := fun enclosure =>
  match change enclosure.ram with
  | .ok _ ram => .ok () { enclosure with ram := ram }
  | .error e ram => .error e { enclosure with ram := ram }

instance : Device Enclosure where
  geometry enclosure := enclosure.ram.geometry
  read enclosure address :=
    if enclosure.Admits address 1 then Device.read enclosure.ram address
    else .error (enclosure.ram.geometry.outOfRange .ram address 1)
  program address words := fun enclosure =>
    if enclosure.Admits address words.length then inside (Device.program address words) enclosure
    else .error (enclosure.ram.geometry.outOfRange .ram address words.length) enclosure
  erase page := fun enclosure =>
    if enclosure.first ≤ page ∧ page < enclosure.stop then inside (Device.erase page) enclosure
    else .error (enclosure.ram.geometry.noSuchPage .ram page) enclosure

end Enclosure

namespace PageRing

variable {ring : PageRing} {page : Page} {address : Nat} {ram before : Ram}

/-- The memory, of which only the pages of the ring may be touched. -/
def enclose (ring : PageRing) (ram : Ram) : Enclosure :=
  ⟨ram, ring.base, ring.base + ring.count⟩

theorem bounds_of_owns (h : ring.Owns address) :
    ring.base * ring.geometry.pageWords ≤ address ∧
      address + 1 ≤ (ring.base + ring.count) * ring.geometry.pageWords := by
  obtain ⟨page, hp, hle, hlt⟩ := h
  obtain ⟨i, hi, rfl⟩ := exists_of_mem_pages hp
  have hstart := start_page hi
  have hfirst : ring.base * ring.geometry.pageWords ≤ (ring.base + i) * ring.geometry.pageWords :=
    Nat.mul_le_mul_right _ (Nat.le_add_right ..)
  have hlast : (ring.base + i) * ring.geometry.pageWords + (ring.page i).words ≤
      (ring.base + ring.count) * ring.geometry.pageWords := by
    have hnext : (ring.base + i) * ring.geometry.pageWords + (ring.page i).words =
        (ring.base + i + 1) * ring.geometry.pageWords := (Nat.succ_mul ..).symm
    rw [hnext]
    exact Nat.mul_le_mul_right _ (by omega)
  omega

theorem admits_of_owns (hg : ring.geometry = ram.geometry) (h : ring.Owns address) :
    (ring.enclose ram).Admits address 1 := by
  have hin := bounds_of_owns h
  rwa [hg] at hin

theorem bounds_of_mem_pages (h : page ∈ ring.pages) :
    ring.base ≤ page.devicePage ∧ page.devicePage < ring.base + ring.count := by
  obtain ⟨i, hi, rfl⟩ := exists_of_mem_pages h
  have hdevice : (ring.page i).devicePage = ring.base + i := rfl
  omega

/-- Beyond the ring every word and every erase count is what it was. -/
structure Spares (ring : PageRing) (before after : Ram) : Prop where
  words : ∀ address, address < ring.base * ring.geometry.pageWords ∨
    (ring.base + ring.count) * ring.geometry.pageWords ≤ address →
      after.word address = before.word address
  eraseCounts : ∀ page, page < ring.geometry.pageCount →
    page < ring.base ∨ ring.base + ring.count ≤ page →
      after.eraseCount page = before.eraseCount page

theorem Spares.programmed (h : ring.Spares before ram) (hg : ring.geometry = ram.geometry)
    (ha : ring.Owns address) (word : UInt32) :
    ring.Spares before (ram.programmed address word) where
  words other ho := by
    have hin := bounds_of_owns ha
    rw [Ram.word_programmed (hg ▸ lt_totalWords_of_owns ha), if_neg (by omega)]
    exact h.words other ho
  eraseCounts := h.eraseCounts

theorem Spares.erased (h : ring.Spares before ram) (hg : ring.geometry = ram.geometry)
    (hp : page ∈ ring.pages) : ring.Spares before (ram.erased page.devicePage) where
  words address ha := by
    rw [Ram.word_erased, ← hg, if_neg]
    · exact h.words address ha
    · intro hcovers
      obtain ⟨i, hi, rfl⟩ := exists_of_mem_pages hp
      have hin := bounds_of_owns ⟨ring.page i, hp, hcovers⟩
      omega
  eraseCounts other hlt ho := by
    have hin := bounds_of_mem_pages hp
    rw [Ram.eraseCount_erased (hg ▸ hlt), if_neg (by omega), Nat.add_zero]
    exact h.eraseCounts other hlt ho

end PageRing

/-- The enclosure of a ring, as the counterpart of memory that keeps what is beyond the ring. -/
def enclosing (config : Config) (ring : PageRing) (before : Ram) : Counterpart Enclosure where
  config := config
  ring := ring
  of := ring.enclose
  Fine ram := ring.geometry = ram.geometry ∧ ram.power = .steady ∧ ring.Spares before ram
  ring_geometry h := h.1
  power h := h.2.1
  fine_programmed h ha word := ⟨h.1, h.2.1, h.2.2.programmed h.1 ha word⟩
  fine_erased h hp := ⟨h.1, h.2.1, h.2.2.erased h.1 hp⟩
  geometry _ := rfl
  shows h address ha :=
    (if_pos (PageRing.admits_of_owns h.1 ha)).trans (Ram.shows h.1 address ha)
  program {ram address} h ha word := by
    refine (if_pos (PageRing.admits_of_owns h.1 ha)).trans ?_
    rw [Enclosure.inside, show (ring.enclose ram).ram = ram from rfl,
      Ram.program_steady h.2.1 (h.1 ▸ PageRing.lt_totalWords_of_owns ha)]
    rfl
  erase {ram page} h hp := by
    refine (if_pos (PageRing.bounds_of_mem_pages hp)).trans ?_
    rw [Enclosure.inside, show (ring.enclose ram).ram = ram from rfl,
      Ram.erase_steady h.2.1 (h.1 ▸ PageRing.devicePage_lt hp)]
    rfl

/-- Every number by which the page and its words are found has 32 bits. -/
structure Page.Addressed (geometry : Geometry) (page : Page) : Prop where
  devicePage : page.devicePage < 0x100000000
  start_eq : page.start = page.devicePage * geometry.pageWords
  words_eq : page.words = geometry.pageWords
  word : ∀ offset, offset < page.words → page.start + offset < 0x100000000
  header : page.headerAddress < 0x100000000
  slot : ∀ slot, slot < page.capacity → page.slotAddress slot < 0x100000000

theorem PageRing.addressed {ring : PageRing} {page : Page} (h : page ∈ ring.pages) :
    page.Addressed ring.geometry := by
  obtain ⟨i, hi, rfl⟩ := exists_of_mem_pages h
  have haddressable : ring.geometry.totalWords < 0x100000000 := ring.addressable
  have hend := ring.page_start_add_words_le hi
  have hwords := ring.two_le_pageWords
  have hw : (ring.page i).words = ring.geometry.pageWords := rfl
  have hcapacity : (ring.page i).capacity = ring.geometry.pageWords - 1 := rfl
  have hpages : ring.geometry.pageCount ≤ ring.geometry.totalWords :=
    Nat.le_mul_of_pos_left _ (by omega)
  have hdevice := devicePage_lt h
  refine ⟨by omega, start_page hi, rfl, fun offset ho => by omega, ?_, fun slot hs => ?_⟩
  · rw [Page.headerAddress]
    omega
  · rw [Page.slotAddress]
    omega

namespace Store

/-- Whatever the flash holds and whatever is called, a store touches nothing beyond its ring: it
works the same in an enclosure of the ring. -/
theorem confined_of_attach {device : Ram} {config : Config} {store : Store Ram}
    (hp : device.power = .steady) (ha : attach device config = .ok store) (calls : List Call) :
    (store.ring.base = config.basePage ∧ store.ring.count = max config.ringPages 2) ∧
      (∀ page ∈ store.ring.pages, page.Addressed device.geometry) ∧
      journal (Call.run reattach) (store.over store.ring.enclose) calls =
        (journal (Call.run reattach) store calls).map
          (Prod.map id (·.over store.ring.enclose)) ∧
      ∀ entry ∈ journal (Call.run reattach) store calls,
        isCut entry.1 = false ∧ entry.2.ring = store.ring ∧
          store.ring.Spares device entry.2.device := by
  obtain ⟨-, -, -, hlayout⟩ := parts_of_attach ha
  obtain ⟨hg, hplace⟩ : store.ring.geometry = device.geometry ∧ _ := eq_of_layout hlayout
  have hhosts : (enclosing config store.ring device).Hosts store :=
    Counterpart.hosts_of_attach ha rfl ⟨hg, hp, ⟨fun _ _ => rfl, fun _ _ _ => rfl⟩⟩
  obtain ⟨hsame, hentries⟩ := Counterpart.journal_over
    (fun call => Counterpart.Agrees.call (c := enclosing config store.ring device) .reattach call)
    hhosts calls
  refine ⟨hplace, fun page hm => hg ▸ PageRing.addressed hm, hsame,
    fun entry he => ?_⟩
  obtain ⟨hh, hcut⟩ := hentries entry he
  exact ⟨hcut, hh.ring, hh.fine.2.2⟩

/-- A ring between two pages of others, with a rotation under way. -/
def between : Store Ram where
  device := {
    geometry := ⟨4, 4⟩
    words := #[1, 2, 3, 4, 0xAAFFFFFF, 0x00060001, 0xFFFFFFFF, 0xFFFFFFFF,
      0x00000001, 0x00050001, 0x00060002, 0x00050003, 13, 14, 15, 16]
    wear := #[0, 0, 0, 0]
    mutations := 0
    power := .steady
    size_words := rfl
    size_wear := rfl }
  config := { ringPages := 1, basePage := 1 }
  ring := { small.ring with
    geometry := ⟨4, 4⟩
    base := 1
    two_le_pageWords := by decide
    addressable := by decide
    base_add_count_le := by decide }
  roles := none

def bustle : List Call :=
  [.ask .init, .ask (.write 7 7), .ask .compact, .restart, .ask .entries, .ask (.read 0)]

/-- The rotation goes on, and the pages of others are as they were. -/
theorem confined_of_attach_between :
    between.device.power = .steady ∧ attach between.device between.config = .ok between ∧
      journal (Call.run reattach) (between.over between.ring.enclose) bustle =
        (journal (Call.run reattach) between bustle).map
          (Prod.map id (·.over between.ring.enclose)) ∧
      (∀ entry ∈ journal (Call.run reattach) between bustle,
        isCut entry.1 = false ∧ between.ring.Spares between.device entry.2.device) ∧
      (journal (Call.run reattach) between bustle).map (fun entry => (entry.1, entry.2.device.wear)) =
        [(.ok .done, #[0, 0, 1, 0]), (.ok .done, #[0, 0, 1, 0]), (.ok .done, #[0, 1, 1, 0]),
          (.ok .done, #[0, 1, 1, 0]), (.ok (.entries [(5, 3), (6, 1), (7, 7)]), #[0, 1, 1, 0]),
          (.error (.invalidKey 0), #[0, 1, 1, 0])] := by
  have ha : attach between.device between.config = .ok between := rfl
  have h := confined_of_attach rfl ha bustle
  refine ⟨rfl, ha, h.2.2.1, fun entry he => ?_, by decide +kernel⟩
  obtain ⟨hcut, -, hspares⟩ := h.2.2.2 entry he
  exact ⟨hcut, hspares⟩

end Store

end FlashRing
