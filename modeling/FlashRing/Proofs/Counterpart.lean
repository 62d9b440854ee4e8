import FlashRing.Proofs.Composition
import FlashRing.Proofs.Effect
import FlashRing.Proofs.Service

/-!
Devices that behave, as far as a ring reaches, like flash in memory whose power lasts. Main
statement: every request answers the same on both, and leaves stores that correspond again; none
of them fails on account of the device.
-/

namespace FlashRing

namespace PageRing

variable {ring : PageRing} {page : Page} {address : Nat}

/-- The address lies in a page of the ring. -/
def Owns (ring : PageRing) (address : Nat) : Prop :=
  ∃ page ∈ ring.pages, page.Covers address

theorem page_mem_pages {i : Nat} (h : i < ring.count) : ring.page i ∈ ring.pages :=
  List.mem_map_of_mem (List.mem_range.mpr h)

theorem exists_of_mem_pages (h : page ∈ ring.pages) : ∃ i, i < ring.count ∧ page = ring.page i := by
  obtain ⟨i, hi, rfl⟩ := List.mem_map.mp h
  exact ⟨i, List.mem_range.mp hi, rfl⟩

theorem owns_header (h : page ∈ ring.pages) : ring.Owns page.headerAddress := by
  refine ⟨page, h, ?_⟩
  obtain ⟨i, -, rfl⟩ := exists_of_mem_pages h
  have hw := ring.two_le_pageWords
  have hwords : (ring.page i).words = ring.geometry.pageWords := rfl
  simp only [Page.Covers, Page.headerAddress]
  omega

theorem owns_address (h : page ∈ ring.pages) (ha : address ∈ page.addresses) :
    ring.Owns address :=
  ⟨page, h, List.mem_range'_1.mp ha⟩

theorem owns_slot (h : page ∈ ring.pages) (ha : address ∈ page.slotAddresses) :
    ring.Owns address := by
  refine ⟨page, h, ?_⟩
  have hb := List.mem_range'_1.mp ha
  simp only [Page.capacity] at hb
  simp only [Page.Covers]
  omega

theorem lt_totalWords_of_owns (h : ring.Owns address) : address < ring.geometry.totalWords := by
  obtain ⟨page, hp, hc⟩ := h
  obtain ⟨i, hi, rfl⟩ := exists_of_mem_pages hp
  have hle := ring.page_start_add_words_le hi
  simp only [Page.Covers] at hc
  omega

theorem devicePage_lt (h : page ∈ ring.pages) : page.devicePage < ring.geometry.pageCount := by
  obtain ⟨i, hi, rfl⟩ := exists_of_mem_pages h
  have hle := ring.base_add_count_le
  have hdevice : (ring.page i).devicePage = ring.base + i := rfl
  omega

end PageRing

section Readings

variable {δ : Type} [Device δ] {device : δ} {words : Nat → UInt32} {ring : PageRing} {page : Page}

/-- The words that a ring has on a device, all of which can be read. -/
def PageRing.Shows (ring : PageRing) (device : δ) (words : Nat → UInt32) : Prop :=
  ∀ address, ring.Owns address → Device.read device address = .ok (words address)

namespace PageRing.Shows

theorem header (h : ring.Shows device words) (hp : page ∈ ring.pages) :
    page.header device = .ok (.decode (words page.headerAddress)) := by
  rw [Page.header, h _ (owns_header hp)]
  rfl

theorem log (h : ring.Shows device words) (hp : page ∈ ring.pages) :
    page.log device = .ok (page.slotAddresses.map fun address => .decode (words address)) := by
  apply mapM_eq_ok
  intro address ha
  rw [h _ (owns_slot hp ha)]
  rfl

theorem contents (h : ring.Shows device words) (hp : page ∈ ring.pages) :
    page.contents device = .ok (page.addresses.map words) :=
  mapM_eq_ok fun _ ha => h _ (owns_address hp ha)

theorem isErased (h : ring.Shows device words) (hp : page ∈ ring.pages) :
    page.isErased device = .ok (page.addresses.all fun address => words address == erasedWord) := by
  apply allM_eq_ok
  intro address ha
  rw [h _ (owns_address hp ha)]
  rfl

theorem firstFree? (h : ring.Shows device words) (hp : page ∈ ring.pages) :
    page.firstFree? device =
      .ok (page.slotAddresses.find? fun address => (Slot.decode (words address)).isFree) := by
  apply findM?_eq_ok
  intro address ha
  rw [h _ (owns_slot hp ha)]
  rfl

theorem holds (h : ring.Shows device words) (hp : page ∈ ring.pages) (key : UInt16) :
    page.holds key device =
      .ok ((page.slotAddresses.findSome? fun address =>
        let slot := Slot.decode (words address)
        if slot.isFree then some false else if slot.key == key then some true else none).getD
          false) := by
  rw [Page.holds, findSomeM?_eq_ok (g := fun address =>
    let slot := Slot.decode (words address)
    if slot.isFree then some false else if slot.key == key then some true else none)]
  · rfl
  · intro address ha
    rw [h _ (owns_slot hp ha)]
    rfl

theorem statuses (h : ring.Shows device words) :
    (ring.pages.mapM fun page => return (← page.header device).status) =
      .ok (ring.pages.map fun page => (Header.decode (words page.headerAddress)).status) := by
  apply mapM_eq_ok
  intro page hp
  rw [h.header hp]
  rfl

theorem reports (h : ring.Shows device words) :
    (ring.pages.mapM fun page => return PageReport.ofWords page (← page.contents device)) =
      .ok (ring.pages.map fun page => .ofWords page (page.addresses.map words)) := by
  apply mapM_eq_ok
  intro page hp
  rw [h.contents hp]
  rfl

end PageRing.Shows

end Readings

/-- A device that behaves, as far as a ring reaches, like flash in memory whose power lasts. -/
structure Counterpart (ε : Type) [Device ε] where
  config : Config
  ring : PageRing
  /-- What the device is where the memory is this. -/
  of : Ram → ε
  /-- The states of the memory that have a counterpart. -/
  Fine : Ram → Prop
  ring_geometry : ∀ {ram : Ram}, Fine ram → ring.geometry = ram.geometry
  power : ∀ {ram : Ram}, Fine ram → ram.power = .steady
  fine_programmed : ∀ {ram : Ram} {address : Nat}, Fine ram → ring.Owns address →
    ∀ word, Fine (ram.programmed address word)
  fine_erased : ∀ {ram : Ram} {page : Page}, Fine ram → page ∈ ring.pages →
    Fine (ram.erased page.devicePage)
  geometry : ∀ {ram : Ram}, Fine ram → Device.geometry (of ram) = ram.geometry
  shows : ∀ {ram : Ram}, Fine ram → ring.Shows (of ram) ram.word
  program : ∀ {ram : Ram} {address : Nat}, Fine ram → ring.Owns address → ∀ word,
    Device.program address [word] (of ram) = .ok () (of (ram.programmed address word))
  erase : ∀ {ram : Ram} {page : Page}, Fine ram → page ∈ ring.pages →
    Device.erase page.devicePage (of ram) = .ok () (of (ram.erased page.devicePage))

namespace Ram

variable {ram : Ram} {address : Nat}

theorem program_steady (hp : ram.power = .steady) (ha : address < ram.geometry.totalWords)
    (word : UInt32) :
    Device.program address [word] ram = .ok () (ram.programmed address word) := by
  change Ram.program address [word] ram = _
  have hr : ¬ram.geometry.totalWords < address + [word].length := Nat.not_lt.mpr ha
  obtain ⟨geometry, words, wear, mutations, power, hw, he⟩ := ram
  obtain rfl : power = .steady := hp
  rw [Ram.program, if_neg hr]
  rfl

theorem erase_steady {page : Nat} (hp : ram.power = .steady) (hi : page < ram.geometry.pageCount) :
    Device.erase page ram = .ok () (ram.erased page) := by
  change Ram.erase page ram = _
  obtain ⟨geometry, words, wear, mutations, power, hw, he⟩ := ram
  obtain rfl : power = .steady := hp
  rw [Ram.erase, if_neg (Nat.not_le.mpr hi)]
  rfl

theorem shows {ring : PageRing} (hg : ring.geometry = ram.geometry) : ring.Shows ram ram.word :=
  fun _ h => read_eq_word (hg ▸ PageRing.lt_totalWords_of_owns h)

end Ram

/-- The positions are those of pages of the ring. -/
structure Roles.Within (ring : PageRing) (roles : Roles) : Prop where
  active : roles.active < ring.count
  receiving : ∀ index, roles.receiving = some index → index < ring.count

/-- The same store on another device. -/
def Store.over {ε : Type} (f : Ram → ε) (store : Store Ram) : Store ε where
  device := f store.device
  config := store.config
  ring := store.ring
  roles := store.roles

section Over

variable {ε : Type} (f : Ram → ε) (store : Store Ram)

@[simp] theorem Store.device_over : (store.over f).device = f store.device := rfl
@[simp] theorem Store.config_over : (store.over f).config = store.config := rfl
@[simp] theorem Store.ring_over : (store.over f).ring = store.ring := rfl

end Over

theorem Store.attach_over {ε : Type} [Device ε] {f : Ram → ε} {device : Ram}
    (h : Device.geometry (f device) = device.geometry) (config : Config) :
    attach (f device) config = (attach device config).map (·.over f) := by
  rw [attach, attach, h]
  change _ = Except.map _ (PageRing.layout device.geometry config >>= _)
  cases PageRing.layout device.geometry config <;> rfl

namespace Counterpart

open Store

variable {ε α β : Type} [Device ε]

/-- A store on the memory that has a counterpart. -/
structure Hosts (c : Counterpart ε) (store : Store Ram) : Prop where
  config : store.config = c.config
  ring : store.ring = c.ring
  fine : c.Fine store.device
  attached : store.Attached
  within : ∀ roles, store.roles = some roles → Roles.Within c.ring roles

/-- Wherever a store has a counterpart, the two operations end alike on both and leave such stores
again. What they return has the property, and they do not fail on account of the device. -/
def Agrees (c : Counterpart ε) (Q : α → Prop) (x : StoreM Ram α) (y : StoreM ε α) : Prop :=
  ∀ store, c.Hosts store →
    (∃ a after, x store = .ok a after ∧ y (store.over c.of) = .ok a (after.over c.of) ∧
      c.Hosts after ∧ Q a) ∨
    (∃ e after, x store = .error e after ∧ y (store.over c.of) = .error e (after.over c.of) ∧
      c.Hosts after ∧ e.isDeviceFailure = false)

variable {c : Counterpart ε} {Q : α → Prop} {R : β → Prop}

namespace Agrees

theorem pure {a : α} (h : Q a) : c.Agrees Q (Pure.pure a) (Pure.pure a) :=
  fun store hs => .inl ⟨a, store, rfl, rfl, hs, h⟩

theorem throw {e : Error} (he : e.isDeviceFailure = false) :
    c.Agrees Q (MonadExcept.throw e) (MonadExcept.throw e) :=
  fun store hs => .inr ⟨e, store, rfl, rfl, hs, he⟩

theorem bind {x : StoreM Ram α} {y : StoreM ε α} {f : α → StoreM Ram β} {g : α → StoreM ε β}
    (hx : c.Agrees Q x y) (hf : ∀ a, Q a → c.Agrees R (f a) (g a)) :
    c.Agrees R (x >>= f) (y >>= g) := by
  intro store hs
  rcases hx store hs with ⟨a, middle, hrun, hover, hm, ha⟩ | ⟨e, after, hrun, hover, hm, he⟩
  · rw [run_bind hrun, run_bind hover]
    exact hf a ha middle hm
  · exact .inr ⟨e, after, run_bind_error hrun f, run_bind_error hover g, hm, he⟩

theorem mono {x : StoreM Ram α} {y : StoreM ε α} {P : α → Prop} (h : c.Agrees Q x y)
    (hq : ∀ a, Q a → P a) : c.Agrees P x y := by
  intro store hs
  rcases h store hs with ⟨a, after, hrun, hover, hm, ha⟩ | hfail
  · exact .inl ⟨a, after, hrun, hover, hm, hq a ha⟩
  · exact .inr hfail

theorem congr {x : StoreM Ram α} {y y' : StoreM ε α} (h : c.Agrees Q x y)
    (hy : ∀ store, c.Hosts store → y' (store.over c.of) = y (store.over c.of)) :
    c.Agrees Q x y' := by
  intro store hs
  rw [hy store hs]
  exact h store hs

theorem fenced {x : StoreM Ram α} {y : StoreM ε α} (h : c.Agrees Q x y) :
    c.Agrees Q (fenced x) (fenced y) := by
  intro store hs
  rcases h store hs with ⟨a, after, hrun, hover, hm, ha⟩ | ⟨e, after, hrun, hover, hm, he⟩
  · refine .inl ⟨a, after, ?_, ?_, hm, ha⟩
    · rw [Store.fenced, hrun]
    · rw [Store.fenced, hover]
  · refine .inr ⟨e, after, ?_, ?_, hm, he⟩
    · simp [Store.fenced, hrun, he]
    · simp [Store.fenced, hover, he]

theorem get_bind {f : Store Ram → StoreM Ram β} {g : Store ε → StoreM ε β}
    (h : ∀ store, c.Hosts store → c.Agrees R (f store) (g (store.over c.of))) :
    c.Agrees R (get >>= f) (get >>= g) :=
  fun store hs => h store hs store hs

theorem forM {list : List α} {f : α → StoreM Ram PUnit} {g : α → StoreM ε PUnit}
    (h : ∀ a ∈ list, c.Agrees (fun _ => True) (f a) (g a)) :
    c.Agrees (fun _ => True) (list.forM f) (list.forM g) := by
  induction list with
  | nil => exact pure trivial
  | cons a rest ih =>
    exact bind (h a (by simp)) fun _ _ => ih fun b hb => h b (List.mem_cons_of_mem a hb)

theorem ite {p : Prop} [Decidable p] {x x' : StoreM Ram α} {y y' : StoreM ε α}
    (h : p → c.Agrees Q x y) (h' : ¬p → c.Agrees Q x' y') :
    c.Agrees Q (if p then x else x') (if p then y else y') := by
  split
  next hp => exact h hp
  next hp => exact h' hp

/-- What is found depends on the words that the ring shows and on nothing else. -/
theorem observe {reading : ∀ {δ : Type} [Device δ], δ → Except Error α}
    {value : (Nat → UInt32) → α}
    (h : ∀ {δ : Type} [Device δ] {device : δ} {words : Nat → UInt32}, c.ring.Shows device words →
      reading device = .ok (value words)) (hq : ∀ words, Q (value words)) :
    c.Agrees Q (Store.observe reading) (Store.observe reading) := by
  intro store hs
  refine .inl ⟨value store.device.word, store, ?_, ?_, hs, hq _⟩
  · rw [Store.observe, h (Ram.shows (c.ring_geometry hs.fine))]
  · rw [Store.observe, Store.device_over,
      h (c.shows hs.fine)]

theorem setRoles {roles : Option Roles} (h : ∀ some, roles = .some some → Roles.Within c.ring some) :
    c.Agrees (fun _ => True) (Store.setRoles roles) (Store.setRoles roles) :=
  fun store hs => .inl ⟨(), { store with roles := roles }, rfl, rfl,
    ⟨hs.config, hs.ring, hs.fine, hs.attached, h⟩, trivial⟩

theorem readyRoles : c.Agrees (Roles.Within c.ring) Store.readyRoles Store.readyRoles := by
  rintro ⟨device, config, ring, roles⟩ hs
  cases roles with
  | none => exact .inr ⟨_, _, rfl, rfl, hs, rfl⟩
  | some roles => exact .inl ⟨_, _, rfl, rfl, hs, hs.within roles rfl⟩

theorem activePage : c.Agrees (· ∈ c.ring.pages) Store.activePage Store.activePage := by
  refine bind readyRoles fun roles hin => get_bind fun store hs => ?_
  change c.Agrees _ (Pure.pure (store.ring.page _)) (Pure.pure (store.ring.page _))
  rw [hs.ring]
  exact pure (PageRing.page_mem_pages hin.active)

theorem checkKey (key : UInt16) :
    c.Agrees (fun _ => True) (Store.checkKey key) (Store.checkKey key) :=
  ite (fun _ => pure trivial) fun _ => throw rfl

theorem program {address : Nat} (h : c.ring.Owns address) (word : UInt32) :
    c.Agrees (fun _ => True) (Store.program address word) (Store.program address word) := by
  intro store hs
  have hlt : address < store.device.geometry.totalWords :=
    c.ring_geometry hs.fine ▸ PageRing.lt_totalWords_of_owns h
  refine .inl ⟨(), { store with device := store.device.programmed address word }, ?_, ?_,
    ⟨hs.config, hs.ring, c.fine_programmed hs.fine h word, hs.attached, hs.within⟩, trivial⟩
  · rw [Store.program, Store.alter, Ram.program_steady (c.power hs.fine) hlt]
  · rw [Store.program, Store.alter, Store.device_over,
      c.program hs.fine h]
    rfl

theorem erase {page : Page} (h : page ∈ c.ring.pages) :
    c.Agrees (fun _ => True) (Store.erase page) (Store.erase page) := by
  intro store hs
  have hlt : page.devicePage < store.device.geometry.pageCount :=
    c.ring_geometry hs.fine ▸ PageRing.devicePage_lt h
  refine .inl ⟨(), { store with device := store.device.erased page.devicePage }, ?_, ?_,
    ⟨hs.config, hs.ring, c.fine_erased hs.fine h, hs.attached, hs.within⟩, trivial⟩
  · rw [Store.erase, Store.alter, Ram.erase_steady (c.power hs.fine) hlt]
  · rw [Store.erase, Store.alter, Store.device_over,
      c.erase hs.fine h]
    rfl

end Agrees

end Counterpart

end FlashRing
