import FlashRing.Proofs.Imaging

/-!
The image file and the memory as devices of a store, under everything that a caller can do: requests
to the store, words and pages asked of the device itself, and a store made anew. Main statement: all
answers agree but for the name of the medium in a refusal, and the file stays the encoding of the
words.
-/

namespace FlashRing

/-- Image files as counterparts of memory, in a ring. -/
def imaging (config : Config) (ring : PageRing) : Counterpart Image where
  config := config
  ring := ring
  of := Ram.image
  Fine ram := ring.geometry = ram.geometry ∧ ram.power = .steady
  ring_geometry h := h.1
  power h := h.2
  fine_programmed h _ _ := h
  fine_erased h _ := h
  geometry _ := rfl
  shows {ram} h address ho := by
    rw [Ram.read_image, Ram.shows h.1 address ho]
    rfl
  program {ram address} h ho word := by
    have hlt : address < ram.geometry.totalWords := h.1 ▸ PageRing.lt_totalWords_of_owns ho
    exact (Mirrors.program address [word]).run_ok h.2 (Ram.program_steady h.2 hlt word)
  erase {ram page} h hp := by
    have hlt : page.devicePage < ram.geometry.pageCount := h.1 ▸ PageRing.devicePage_lt hp
    exact (Mirrors.erase page.devicePage).run_ok h.2 (Ram.erase_steady h.2 hlt)

/-- What a caller does with a store and with the device under it. -/
inductive Move where
  | call (request : Request)
  | readWord (address : Nat)
  | programWords (address : Nat) (words : List UInt32)
  | eraseBlock (page : Nat)
  /-- A new store on the device takes the place of the old one. -/
  | reopen
deriving DecidableEq

/-- Carries a move out. What is asked of the device itself passes by the store. -/
def Move.run {δ : Type} [Device δ] (reopen : StoreM δ Unit) : Move → StoreM δ (Reply ⊕ UInt32)
  | .call request => do return .inl (← request.run)
  | .readWord address => do return .inr (← Store.observe (Device.read · address))
  | .programWords address words => do
    Store.alter (Device.program address words)
    return .inl .done
  | .eraseBlock page => do
    Store.alter (Device.erase page)
    return .inl .done
  | .reopen => do
    reopen
    return .inl .done

/-- A new store on the image file at a path, opened again with the shape it had. -/
def Store.reopenImage (path : String) : StoreM Image Unit := fun store =>
  match Image.load path store.device.geometry (.file store.device.content) with
  | .error e => .error e store
  | .ok image => reattach { store with device := image }

namespace Image

variable {path : String} {geometry : Geometry} {image : Image}

/-- A file that did not exist begins as the encoding of words that were never written. -/
theorem eq_of_load (h : load path geometry .missing = .ok image) :
    image = (Ram.fresh geometry).image := by
  unfold load at h
  dsimp only at h
  split at h
  next => cases h
  next =>
    cases h
    exact congrArg (Image.mk geometry) (FileContent.encode_replicate geometry.totalWords).symm

/-- A file that holds the words is accepted with their shape, if a ring fits on them. -/
theorem load_image {ring : PageRing} {ram : Ram} (h : ring.geometry = ram.geometry)
    (path : String) : load path ram.geometry (.file ram.image.content) = .ok ram.image := by
  have hsize : ram.image.content.size = 4 * ram.geometry.totalWords := by
    rw [← ram.size_words]
    exact FileContent.size_encode ram.words
  have hwords := ring.two_le_pageWords
  have hcount := ring.two_le_count
  have hpages := ring.base_add_count_le
  have haddressable := ring.addressable
  rw [h] at hwords hpages haddressable
  have haccept : ¬(ram.geometry.pageWords < 2 ∨ ram.geometry.pageCount = 0 ∨
      ¬ram.geometry.Addressable) := by
    rintro (hless | hnone | hlarge)
    · omega
    · omega
    · exact hlarge haddressable
  unfold load
  dsimp only
  rw [if_neg haccept, if_pos hsize]
  rfl

end Image

namespace Store

variable {α : Type} {config : Config} {ring : PageRing}

/-- To open the file again is to put a new store in the place of the old one. -/
theorem reopenImage_matches (path : String) :
    (imaging config ring).Matches reattach (reopenImage path) := by
  refine Counterpart.Agrees.reattach.congr fun store hs => ?_
  change reopenImage path (store.over Ram.image) = reattach (store.over Ram.image)
  rw [reopenImage, device_over, Ram.geometry_image, Image.load_image hs.fine.1 path]
  rfl

/-- Two operations whose answers agree but for the name of the medium, and that leave the file the
encoding of the words. -/
def Interchanges (config : Config) (ring : PageRing) (x : StoreM Ram α) (y : StoreM Image α) : Prop :=
  ∀ store, (imaging config ring).Hosts store →
    answer y (store.over Ram.image) = (answer x store).mapError (·.about .image) ∧
      left y (store.over Ram.image) = (left x store).over Ram.image ∧
      (imaging config ring).Hosts (left x store)

namespace Interchanges

theorem of_matches {x : StoreM Ram α} {y : StoreM Image α} (h : (imaging config ring).Matches x y) :
    Interchanges config ring x y := by
  intro store hs
  obtain ⟨hanswer, hleft, hhosts, hcut⟩ := h.ends hs
  refine ⟨hanswer.trans ?_, hleft, hhosts⟩
  cases he : answer x store with
  | ok a => rfl
  | error e =>
    rw [he] at hcut
    exact congrArg Except.error (Error.about_of_not_isDeviceFailure hcut .image).symm

theorem map {β : Type} {x : StoreM Ram α} {y : StoreM Image α} (h : Interchanges config ring x y)
    (g : α → β) : Interchanges config ring (do return g (← x)) (do return g (← y)) := by
  intro store hs
  obtain ⟨hanswer, hleft, hhosts⟩ := h store hs
  rw [answer_map, answer_map, hanswer, left_map, left_map]
  refine ⟨?_, hleft, hhosts⟩
  cases answer x store <;> rfl

theorem readWord (address : Nat) :
    Interchanges config ring (observe (Device.read · address)) (observe (Device.read · address)) := by
  intro store hs
  rw [answer_observe, answer_observe, left_observe, left_observe]
  exact ⟨Ram.read_image store.device address, rfl, hs⟩

theorem alter {change : EStateM Error Ram Unit} {mirror : EStateM Error Image Unit}
    (h : Mirrors change mirror) : Interchanges config ring (alter change) (alter mirror) := by
  intro store hs
  unfold answer left Store.alter
  rw [device_over]
  rcases h store.device hs.fine.2 with ⟨after, hok, himage, hg, hp⟩ | ⟨e, hfail, himage⟩
  · rw [hok, himage]
    refine ⟨rfl, rfl, hs.config, hs.ring, ⟨hs.fine.1.trans hg.symm, hp⟩, ?_, hs.within⟩
    change PageRing.layout after.geometry store.config = .ok store.ring
    rw [hg]
    exact hs.attached
  · rw [hfail, himage]
    exact ⟨rfl, rfl, hs⟩

theorem move (path : String) (move : Move) :
    Interchanges config ring (move.run reattach) (move.run (reopenImage path)) := by
  cases move with
  | call request => exact (of_matches (.request request)).map Sum.inl
  | readWord address => exact (readWord address).map Sum.inr
  | programWords address words =>
    exact (alter (.program address words)).map fun _ => Sum.inl Reply.done
  | eraseBlock page => exact (alter (.erase page)).map fun _ => Sum.inl Reply.done
  | reopen => exact (of_matches (reopenImage_matches path)).map fun _ => Sum.inl Reply.done

end Interchanges

/-- Flash kept in an image file and flash kept in memory are interchangeable. Both begin unwritten;
whatever is done to both, the answers agree but for the name of the medium, and the bytes of the
file are those of the words. -/
theorem image_interchanges_ram {path : String} {geometry : Geometry} {config : Config}
    {image : Image} {store : Store Ram} (hload : Image.load path geometry .missing = .ok image)
    (hattach : attach (Ram.fresh geometry) config = .ok store) (moves : List Move) :
    attach image config = .ok (store.over Ram.image) ∧
      journal (Move.run (reopenImage path)) (store.over Ram.image) moves =
        (journal (Move.run reattach) store moves).map
          (Prod.map (·.mapError (·.about .image)) (·.over Ram.image)) := by
  obtain ⟨hattached, hdevice⟩ := eq_of_attach hattach
  have hg : store.ring.geometry = geometry := by
    rw [hattached.fits, hdevice]
    rfl
  have hhosts : (imaging config store.ring).Hosts store :=
    Counterpart.hosts_of_attach hattach rfl ⟨hg, rfl⟩
  refine ⟨?_, journal_map (fun store move hs => Interchanges.move path move store hs) hhosts
    moves⟩
  rw [Image.eq_of_load hload, attach_over rfl, hattach]
  rfl

/-- Words programmed across the border of two pages and beyond the device, between requests. -/
def excursion : List Move :=
  [.call .format, .call (.write 5 7), .programWords 3 [0x0005FFFF, 0xAAFFFFFF],
    .programWords 7 [0, 0], .eraseBlock 2, .reopen, .call .init, .readWord 3, .call (.read 5)]

/-- Both go on with the rotation that the words in between pretend. -/
theorem image_interchanges_ram_excursion :
    Image.load "eeprom.img" ⟨4, 2⟩ .missing = .ok (Ram.fresh ⟨4, 2⟩).image ∧
      attach (Ram.fresh ⟨4, 2⟩) { ringPages := 2 } = .ok small ∧
      attach (Ram.fresh ⟨4, 2⟩).image { ringPages := 2 } = .ok (small.over Ram.image) ∧
      journal (Move.run (reopenImage "eeprom.img")) (small.over Ram.image) excursion =
        (journal (Move.run reattach) small excursion).map
          (Prod.map (·.mapError (·.about .image)) (·.over Ram.image)) ∧
      (journal (Move.run reattach) small excursion).map (·.1) =
        [.ok (.inl .done), .ok (.inl .done), .ok (.inl .done),
          .error (.blockDevice (.outOfRange .ram 7 9 8)),
          .error (.blockDevice (.noSuchPage .ram 2 2)), .ok (.inl .done), .ok (.inl .done),
          .ok (.inr 0xFFFFFFFF), .ok (.inl (.payload (some 0xFFFF)))] := by
  have hload : Image.load "eeprom.img" ⟨4, 2⟩ .missing = .ok (Ram.fresh ⟨4, 2⟩).image := rfl
  have h := image_interchanges_ram hload attach_small excursion
  exact ⟨hload, attach_small, h.1, h.2, by decide +kernel⟩

end Store

end FlashRing
