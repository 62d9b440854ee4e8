import FlashRing.Proofs.Settled
import FlashRing.Store.Image

/-!
What is left at the path of an image that a configuration does not open. Main statement: a file that
was there keeps its bytes, but one that was not is created before the ring is laid out, so that it
stays behind where the ring alone has no room.
-/

namespace FlashRing

namespace Config

/-- An image of this shape can be. -/
structure ShapeFits (config : Config) : Prop where
  words : 2 ≤ config.pageWords
  pages : 0 < config.devicePages
  addressable : config.imageGeometry.Addressable

/-- The ring ends with the device or before. -/
def RingFits (config : Config) : Prop :=
  config.basePage + max config.ringPages 2 ≤ config.devicePages

instance (config : Config) : Decidable config.RingFits :=
  inferInstanceAs (Decidable (_ ≤ _))

theorem shapeFits_iff {config : Config} : config.ShapeFits ↔
    ¬(config.imageGeometry.pageWords < 2 ∨ config.imageGeometry.pageCount = 0 ∨
      ¬config.imageGeometry.Addressable) := by
  constructor
  · rintro ⟨hwords, hpages, haddressable⟩ (hless | hnone | hlarge)
    · exact absurd hwords (Nat.not_le_of_lt hless)
    · exact absurd hnone (Nat.ne_of_gt hpages)
    · exact hlarge haddressable
  · intro h
    obtain ⟨hwords, hpages, haddressable⟩ := not_or.mp h |>.imp_right not_or.mp
    exact ⟨Nat.le_of_not_lt hwords, Nat.pos_of_ne_zero hpages, Decidable.not_not.mp haddressable⟩

end Config

namespace Image

variable {config : Config}

theorem load_unshaped (h : ¬config.ShapeFits) (entry : HostEntry) :
    load config.imagePath config.imageGeometry entry =
      .error (.config (.imageGeometry config.devicePages config.pageWords)) := by
  rw [Config.shapeFits_iff, Decidable.not_not] at h
  unfold load
  dsimp only
  rw [if_pos h]
  rfl

theorem load_missing (h : config.ShapeFits) :
    load config.imagePath config.imageGeometry .missing =
      .ok ⟨config.imageGeometry, .erased config.imageGeometry.totalWords⟩ := by
  unfold load
  dsimp only
  rw [if_neg (Config.shapeFits_iff.mp h)]

theorem load_file (h : config.ShapeFits) (content : FileContent) :
    load config.imagePath config.imageGeometry (.file content) =
      if content.size = 4 * config.imageGeometry.totalWords then
        .ok ⟨config.imageGeometry, content⟩
      else .error (.config (.imageLength config.imagePath content.size
        (4 * config.imageGeometry.totalWords))) := by
  unfold load
  dsimp only
  rw [if_neg (Config.shapeFits_iff.mp h)]

end Image

namespace Store

variable {config other : Config}

theorem attach_outside (hs : config.ShapeFits) (hr : ¬config.RingFits) (content : FileContent) :
    attach (Image.mk config.imageGeometry content) config =
      .error (.config (.ringOutside config.basePage (config.basePage + max config.ringPages 2)
        config.devicePages)) := by
  have hwords : ¬config.imageGeometry.pageWords < 2 := Nat.not_lt.mpr hs.words
  have hstop : config.imageGeometry.pageCount < config.basePage + max config.ringPages 2 :=
    Nat.lt_of_not_le hr
  have hlayout : PageRing.layout config.imageGeometry config =
      .error (.config (.ringOutside config.basePage (config.basePage + max config.ringPages 2)
        config.devicePages)) := by
    unfold PageRing.layout
    dsimp only
    rw [dif_neg hwords, dif_neg (Decidable.not_not.mpr hs.addressable), dif_pos hstop]
    rfl
  change (PageRing.layout config.imageGeometry config >>= _) = _
  rw [hlayout]
  rfl

theorem attach_inside (hs : config.ShapeFits) (hr : config.RingFits) (content : FileContent) :
    ∃ store, attach (Image.mk config.imageGeometry content) config = .ok store := by
  have hwords : ¬config.imageGeometry.pageWords < 2 := Nat.not_lt.mpr hs.words
  have hstop : ¬config.imageGeometry.pageCount < config.basePage + max config.ringPages 2 :=
    Nat.not_lt.mpr hr
  have hlayout : ∃ ring, PageRing.layout config.imageGeometry config = .ok ring := by
    unfold PageRing.layout
    dsimp only
    rw [dif_neg hwords, dif_neg (Decidable.not_not.mpr hs.addressable), dif_neg hstop]
    exact ⟨_, rfl⟩
  obtain ⟨ring, hring⟩ := hlayout
  refine ⟨⟨⟨config.imageGeometry, content⟩, config, ring, none⟩, ?_⟩
  change (PageRing.layout config.imageGeometry config >>= _) = _
  rw [hring]
  rfl

theorem openImage_unshaped (h : ¬config.ShapeFits) (entry : HostEntry) :
    openImage config entry =
      (.error (.config (.imageGeometry config.devicePages config.pageWords)), entry) := by
  rw [openImage, Image.load_unshaped h]

/-- The file is there before it is known whether the ring has room in it. -/
theorem openImage_missing (h : config.ShapeFits) :
    openImage config .missing =
      (attach ⟨config.imageGeometry, .erased config.imageGeometry.totalWords⟩ config,
        .file (.erased config.imageGeometry.totalWords)) := by
  rw [openImage, Image.load_missing h]

theorem openImage_file (config : Config) (content : FileContent) :
    (openImage config (.file content)).2 = .file content := by
  by_cases h : config.ShapeFits
  · rw [openImage, Image.load_file h]
    by_cases hsize : content.size = 4 * config.imageGeometry.totalWords
    · rw [if_pos hsize]
    · rw [if_neg hsize]
  · rw [openImage_unshaped h]

/-- What is left at the path of an image by the time that it is open or refused. -/
structure Opens (config : Config) : Prop where
  kept : ∀ content, (openImage config (.file content)).2 = .file content
  refused_iff : (∃ fault, (openImage config .missing).1 = .error (.config fault)) ↔
    ¬(config.ShapeFits ∧ config.RingFits)
  /-- Only where the image itself cannot be has nothing been created. -/
  uncreated_iff : ∀ fault, (openImage config .missing).1 = .error (.config fault) →
    ((openImage config .missing).2 = .missing ↔ ¬config.ShapeFits)
  created : config.ShapeFits → ¬config.RingFits → openImage config .missing =
    (.error (.config (.ringOutside config.basePage (config.basePage + max config.ringPages 2)
      config.devicePages)), .file (.erased config.imageGeometry.totalWords))

/-- A refused configuration leaves a new file exactly if nothing but the ring is wrong with it. -/
theorem opens_of_config (config : Config) : Opens config := by
  have hcreated : config.ShapeFits → ¬config.RingFits → openImage config .missing =
      (.error (.config (.ringOutside config.basePage (config.basePage + max config.ringPages 2)
        config.devicePages)), .file (.erased config.imageGeometry.totalWords)) := by
    intro hs hr
    rw [openImage_missing hs, attach_outside hs hr]
  constructor
  case kept => exact openImage_file config
  case refused_iff =>
    constructor
    · rintro ⟨fault, hfault⟩ ⟨hs, hr⟩
      obtain ⟨store, hstore⟩ := attach_inside hs hr (.erased config.imageGeometry.totalWords)
      rw [openImage_missing hs, hstore] at hfault
      cases hfault
    · intro hno
      by_cases hs : config.ShapeFits
      · rw [hcreated hs fun hr => hno ⟨hs, hr⟩]
        exact ⟨_, rfl⟩
      · rw [openImage_unshaped hs]
        exact ⟨_, rfl⟩
  case uncreated_iff =>
    intro _ _
    by_cases hs : config.ShapeFits
    · rw [openImage_missing hs]
      simp [hs]
    · rw [openImage_unshaped hs]
      simp [hs]
  case created => exact hcreated

/-- A ring of three pages on an image of two. -/
theorem opens_of_wideRing :
    openImage { ringPages := 3, pageWords := 2, devicePages := 2 } .missing =
      (.error (.config (.ringOutside 0 3 2)), .file (.erased 4)) :=
  (opens_of_config { ringPages := 3, pageWords := 2, devicePages := 2 }).created
    ⟨by decide, by decide, by decide⟩ (by decide)

/-- The file that is left stands in the way of an image of another size. -/
theorem openImage_after_created (hs : config.ShapeFits) (ho : other.ShapeFits)
    (hne : config.imageGeometry.totalWords ≠ other.imageGeometry.totalWords) :
    (openImage other (openImage config .missing).2).1 =
      .error (.config (.imageLength other.imagePath (4 * config.imageGeometry.totalWords)
        (4 * other.imageGeometry.totalWords))) := by
  have hsize : (FileContent.erased config.imageGeometry.totalWords).size =
      4 * config.imageGeometry.totalWords := Array.size_replicate
  rw [openImage_missing hs, openImage, Image.load_file ho, hsize, if_neg (by omega)]

end Store

end FlashRing
