import FlashRing.Proofs.History
import FlashRing.Proofs.Service

/-!
How often each page of a ring is erased. Main statement: the number of rotations alone tells which
page is in use, how often each page was erased, and what the erase counter is, so no two pages
differ by more than one erase.
-/

namespace FlashRing

namespace Flash

/-- Some page has become the active one. -/
def turnsTo (ring : PageRing) (before after : Flash) : Bool :=
  (List.range ring.count).any fun i => (after i).status = .active ∧ (before i).status ≠ .active

/-- How many rotations were completed while the flash passed through some states: one for each time
that a page became the active one. -/
def rotations (ring : PageRing) : List Flash → Nat
  | before :: after :: rest =>
    (if before.turnsTo ring after then 1 else 0) + rotations ring (after :: rest)
  | _ => 0

end Flash

/-- The change erases some page. -/
def Change.isErase : Change → Bool
  | .erase _ => true
  | .header _ _ => false
  | .slot _ _ _ => false

namespace Layout

/-- The page whose counter tells how far the ring has come. -/
def leading : Layout → Nat
  | .settled active _ _ => active
  | .rotating active _ _ _ _ => active
  | .retired receiving _ _ => receiving

/-- The counter of that page. -/
def leadingCount : Layout → Nat
  | .settled _ count _ => count
  | .rotating _ count _ _ _ => count
  | .retired _ count _ => count

/-- The rotations that lack nothing but the status of their page. -/
def unannounced : Layout → Nat
  | .settled _ _ _ => 0
  | .rotating _ _ _ _ _ => 0
  | .retired _ _ _ => 1

/-- The wear of a ring whose pages were left so many times in turn. -/
structure Worn (ring : PageRing) (turns : Nat) (wear : Nat → Nat) (layout : Layout) : Prop where
  leading : layout.leading = turns % ring.count
  count : layout.leadingCount = min (1 + turns / ring.count) Header.maxCounter
  wear : ∀ i, i < ring.count → wear i = (turns + ring.count - 1 - i) / ring.count

variable {ring : PageRing} {first last : Layout} {change : Change} {changes : List Change}
  {turns : Nat} {wear : Nat → Nat}

section Turning

theorem dvd_add_sub_iff {p i : Nat} (hi : i < p) (turns : Nat) :
    p ∣ turns + p - i ↔ i = turns % p := by
  have hp : 0 < p := Nat.zero_lt_of_lt hi
  have hr := Nat.mod_lt turns hp
  have hsplit : turns + p - i = p * (turns / p) + (turns % p + p - i) := by
    have hdiv := Nat.div_add_mod turns p
    omega
  rw [hsplit, Nat.dvd_add_right (Nat.dvd_mul_right p (turns / p))]
  constructor
  · rintro ⟨k, hk⟩
    match k with
    | 0 => omega
    | 1 => omega
    | k + 2 =>
      have hle : p * 2 ≤ p * (k + 2) := Nat.mul_le_mul_left p (by omega)
      omega
  · intro he
    exact ⟨1, by omega⟩

/-- The page that is left is the one that is due for an erase. -/
theorem wear_succ {p i : Nat} (hi : i < p) (turns : Nat) :
    (turns + p - 1 - i) / p + (if i = turns % p then 1 else 0) =
      (turns + 1 + p - 1 - i) / p := by
  have hsucc : turns + 1 + p - 1 - i = (turns + p - 1 - i) + 1 := by omega
  have hdue : turns + p - 1 - i + 1 = turns + p - i := by omega
  rw [hsucc, Nat.succ_div, hdue]
  simp only [dvd_add_sub_iff hi turns]

theorem nextCount_turns (ring : PageRing) (turns : Nat) :
    nextCount ring (turns % ring.count) (min (1 + turns / ring.count) Header.maxCounter) =
      min (1 + (turns + 1) / ring.count) Header.maxCounter := by
  have hindex : (ring.page (ring.next (turns % ring.count))).index =
      (turns + 1) % ring.count := Nat.mod_add_mod turns ring.count 1
  rw [nextCount, Store.nextCounter, hindex, Nat.succ_div]
  simp only [Nat.dvd_iff_mod_eq_zero]
  split
  next => omega
  next => rw [Nat.add_zero]

end Turning

theorem Worn.without_erase {other : Layout} (h : first.Worn ring turns wear)
    (hl : other.leading = first.leading) (hc : other.leadingCount = first.leadingCount)
    (he : change.isErase = false) :
    other.Worn ring (turns + if change.isErase then 1 else 0)
      (fun i => wear i + if change = .erase i then 1 else 0) := by
  have hno : ∀ i, change ≠ .erase i := by
    rintro i rfl
    cases he
  simp only [he, Bool.false_eq_true, hno, ↓reduceIte, Nat.add_zero]
  exact ⟨hl.trans h.leading, hc.trans h.count, h.wear⟩

/-- The one step that erases a page leaves the page that is due. -/
theorem Worn.retire {active count : Nat} {used copied : SlotLog} {counted : Bool}
    (h : (rotating active count used copied counted).Worn ring turns wear) :
    (retired (ring.next active) (nextCount ring active count) copied).Worn ring (turns + 1)
      (fun i => wear i + if Change.erase active = .erase i then 1 else 0) := by
  have hactive : active = turns % ring.count := h.leading
  have hcount : count = min (1 + turns / ring.count) Header.maxCounter := h.count
  subst hactive
  subst hcount
  refine ⟨Nat.mod_add_mod turns ring.count 1, nextCount_turns ring turns, fun i hi => ?_⟩
  rw [h.wear i hi, ← wear_succ hi turns]
  simp only [Change.erase.injEq, eq_comm]

theorem Step.worn (h : Step ring first change last) (hw : first.Worn ring turns wear) :
    last.Worn ring (turns + if change.isErase then 1 else 0)
      (fun i => wear i + if change = .erase i then 1 else 0) := by
  cases h with
  | append | strike | start | carry => exact hw.without_erase rfl rfl rfl
  | resume h =>
    cases h with
    | retire active count used copied => exact hw.retire
    | _ => exact hw.without_erase rfl rfl rfl

theorem turnsTo_iff {before after : Flash} :
    before.turnsTo ring after = true ↔
      ∃ i, i < ring.count ∧ (after i).status = .active ∧ (before i).status ≠ .active := by
  simp [Flash.turnsTo]

/-- A rotation that was erased from is completed by the change of a status. -/
theorem Step.rotations (h : Step ring first change last) (hv : first.Valid ring) :
    (if (first.flash ring).turnsTo ring (last.flash ring) then 1 else 0) + last.unannounced =
      first.unannounced + if change.isErase then 1 else 0 := by
  have hlast := (h.sound hv).2.2
  have hsame : last.active? = first.active? ∨ last.active? = none →
      (first.flash ring).turnsTo ring (last.flash ring) = false := by
    intro hcase
    rw [Bool.eq_false_iff, Ne, turnsTo_iff]
    rintro ⟨i, -, hafter, hbefore⟩
    rw [status_eq_active hlast] at hafter
    rw [Ne, status_eq_active hv] at hbefore
    rcases hcase with he | he
    · exact hbefore (he ▸ hafter)
    · rw [he] at hafter
      cases hafter
  cases h with
  | append | strike | start | carry =>
    rw [hsame (Or.inl rfl)]
    rfl
  | resume h =>
    cases h with
    | retire active count used copied =>
      rw [hsame (Or.inr rfl)]
      rfl
    | activate receiving count used =>
      have hturns : ((retired receiving count used).flash ring).turnsTo ring
          ((settled receiving count used).flash ring) = true :=
        turnsTo_iff.mpr ⟨receiving, hv.1, status_active hlast rfl, by
          rw [status_receiving rfl]
          simp⟩
      rw [hturns]
      rfl
    | _ =>
      rw [hsame (Or.inl rfl)]
      rfl

theorem Path.worn (h : Path (Step ring) first changes last) (hw : first.Worn ring turns wear) :
    last.Worn ring (turns + changes.countP (·.isErase))
      (fun i => wear i + changes.count (.erase i)) := by
  induction h generalizing turns wear with
  | nil => simpa using hw
  | @cons before middle last change rest hstep _ ih =>
    have hrest := ih (hstep.worn hw)
    simp only [List.countP_cons, List.count_cons, beq_iff_eq]
    simp only [Nat.add_assoc, Nat.add_comm (ite _ _ _)] at hrest
    exact hrest

/-- Each erase belongs to a rotation that the course of the flash shows sooner or later. -/
theorem Path.rotations (h : Path (Step ring) first changes last) (hv : first.Valid ring) :
    Flash.rotations ring ((first.flash ring).course ring.capacity changes) + last.unannounced =
      first.unannounced + changes.countP (·.isErase) := by
  induction h with
  | nil layout => simp [Flash.course, Flash.rotations]
  | @cons before middle last change rest hstep _ ih =>
    obtain ⟨-, hflash, hmiddle⟩ := hstep.sound hv
    have hfirst := hstep.rotations hv
    have hrest := ih hmiddle
    obtain ⟨further, hfurther⟩ := List.head?_eq_some_iff.mp
      (Flash.head?_course ring.capacity (middle.flash ring) rest)
    rw [hfurther] at hrest
    rw [Flash.course, hflash, hfurther, Flash.rotations, List.countP_cons]
    omega

end Layout

namespace Ram

theorem word_fresh (geometry : Geometry) (address : Nat) :
    (fresh geometry).word address = erasedWord := by
  simp only [word, fresh, Array.getD_eq_getD_getElem?, Array.getElem?_replicate]
  split <;> rfl

theorem eraseCount_fresh (geometry : Geometry) (page : Nat) :
    (fresh geometry).eraseCount page = 0 := by
  simp only [eraseCount, fresh, Array.getD_eq_getD_getElem?, Array.getElem?_replicate]
  split <;> rfl

end Ram

theorem PageRing.flash_fresh (ring : PageRing) (geometry : Geometry) :
    ring.flash (.fresh geometry) = Flash.blank ring := by
  funext i
  by_cases hi : i < ring.count
  · rw [flash_of_lt hi]
    apply PageContent.eq_blank (length_log ring _ i)
    have hfree : (Slot.decode erasedWord).isFree = true := by decide
    simp [PageContent.isBlank, content, Ram.word_fresh, hfree]
  · exact flash_of_not_lt hi

namespace Store

variable {store formatted : Store Ram}

theorem formatting_fresh {geometry : Geometry} (h : store.device = .fresh geometry) :
    store.formatting = [.header 0 (Header.counterWord 1), .header 0 Status.active.programWord] := by
  have hblank : store.flash = Flash.blank store.ring := by
    rw [flash, h, PageRing.flash_fresh]
  have hnone : ∀ i, (!(Flash.blank store.ring i).isBlank) = false := by
    intro i
    rw [Bool.not_eq_false']
    exact PageContent.isBlank_blank store.ring.capacity
  rw [formatting, hblank, erases_eq_nil hnone, List.nil_append]

/-- A formatted store on such a device starts with its first page, and no page was erased yet. -/
theorem settled_of_format_fresh {geometry : Geometry} {config : Config}
    (ha : attach (.fresh geometry) config = .ok store) (hf : format store = .ok () formatted) :
    formatted.Settled 0 1 [] ∧ ∀ i, i < formatted.ring.count →
      formatted.device.eraseCount (formatted.ring.base + i) = 0 := by
  obtain ⟨hattached, hdevice⟩ := eq_of_attach ha
  have hrun := (Performs.format hattached.fits).of_steady (by rw [hdevice]; rfl)
  obtain rfl : (store.after store.formatting (some ⟨0, none⟩)).powered .steady = formatted := by
    rw [hf] at hrun
    cases hrun
    rfl
  refine ⟨⟨hattached.after .., valid_formatted store.ring, ?_, rfl⟩, fun i hi => ?_⟩
  · exact (flash_after hattached.fits store.holds_formatting _).trans store.flash_formatting
  · have hcount := PageRing.eraseCount_commitAll hattached.fits hi store.formatting
    have hfirst : store.device.eraseCount (store.ring.base + i) = 0 := by
      rw [hdevice, Ram.eraseCount_fresh]
    have hnone : store.formatting.count (.erase i) = 0 := by
      rw [formatting_fresh hdevice]
      simp
    rw [hfirst, hnone] at hcount
    exact hcount

/-- The rotations so far tell the wear of a ready store. -/
theorem Settled.worn {active count : Nat} {used : SlotLog} {turns : Nat}
    (hs : store.Settled active count used)
    (hw : (Layout.settled active count used).Worn store.ring turns fun i =>
      store.device.eraseCount (store.ring.base + i))
    {actions : List Action} (hno : Action.call .format ∉ actions)
    (hready : (store.afterActions actions).isReady = true) :
    ∃ active count used, (store.afterActions actions).Settled active count used ∧
      (Layout.settled active count used).Worn store.ring
        (turns + Flash.rotations store.ring (store.trail actions)) fun i =>
          (store.afterActions actions).device.eraseCount (store.ring.base + i) := by
  have hadvance : ∀ action ∈ actions, action.Advances Layout.Step :=
    fun action ha => Action.advances fun he => hno (he ▸ ha)
  obtain ⟨changes, last, htravel, htrail⟩ := hs.at.travels (fun _ _ _ _ => id) hadvance
  have hroles : (store.afterActions actions).roles ≠ none := Option.isSome_iff_ne_none.mp hready
  obtain ⟨a, c, u, rfl, hfinal⟩ := (htravel.at_last hs.at).settled hroles
  have hrotations := htravel.path.rotations hs.valid
  rw [← hs.flash, ← htrail] at hrotations
  obtain ⟨hleading, hcount, hwear⟩ := htravel.path.worn hw
  have hturns : Flash.rotations store.ring (store.trail actions) =
      changes.countP (·.isErase) := by
    simp only [Layout.unannounced] at hrotations
    omega
  rw [hturns]
  refine ⟨a, c, u, hfinal, hleading, hcount, fun i hi => ?_⟩
  rw [← hwear i hi, ← PageRing.eraseCount_commitAll hs.attached.fits hi, htravel.device_eq]
  rfl

/-- However the power goes and comes back, the pages of a ring wear evenly. -/
theorem levelled_of_format {geometry : Geometry} {config : Config} {actions : List Action}
    (ha : attach (.fresh geometry) config = .ok store) (hf : format store = .ok () formatted)
    (hno : Action.call .format ∉ actions)
    (hready : (formatted.afterActions actions).isReady = true) :
    let final := formatted.afterActions actions
    let pages := formatted.ring.count
    let turns := Flash.rotations formatted.ring (formatted.trail actions)
    final.active? = some (turns % pages) ∧
      (∀ i, i < pages → final.device.eraseCount (formatted.ring.base + i) =
        (turns + pages - 1 - i) / pages) ∧
      (∀ i j, i < pages → j < pages → final.device.eraseCount (formatted.ring.base + i) ≤
        final.device.eraseCount (formatted.ring.base + j) + 1) ∧
      answer eraseCounter final = .ok (min (1 + turns / pages) Header.maxCounter) := by
  intro final pages turns
  obtain ⟨hs, hunworn⟩ := settled_of_format_fresh ha hf
  have hpages : 0 < pages := Nat.zero_lt_of_lt formatted.ring.two_le_count
  have hw : (Layout.settled 0 1 []).Worn formatted.ring 0 fun i =>
      formatted.device.eraseCount (formatted.ring.base + i) := by
    refine ⟨(Nat.zero_mod pages).symm, ?_, fun i hi => ?_⟩
    · rw [Nat.zero_div]
      rfl
    · rw [hunworn i hi, Nat.div_eq_of_lt (by omega)]
  obtain ⟨active, count, used, hfinal, hworn⟩ := hs.worn hw hno hready
  rw [Nat.zero_add] at hworn
  obtain ⟨hactive, hcount, hwear⟩ := hworn
  refine ⟨?_, hwear, fun i j hi hj => ?_, ?_⟩
  · rw [← show active = turns % pages from hactive, active?, hfinal.roles]
    rfl
  · rw [hwear i hi, hwear j hj]
    have hhigh : (turns + pages - 1 - i) / pages ≤ (turns + pages) / pages :=
      Nat.div_le_div_right (by omega)
    have hlow : turns / pages ≤ (turns + pages - 1 - j) / pages :=
      Nat.div_le_div_right (by omega)
    rw [Nat.add_div_right turns hpages] at hhigh
    exact hhigh.trans (Nat.succ_le_succ hlow)
  · have hrun := Performs.eraseCounter hfinal.attached.fits hfinal.roles hfinal.valid.1
    rw [answer_of_run hrun.run_nothing, hfinal.content]
    change Except.ok (Header.decode (Header.activeWord count)).counterOrZero = _
    rw [Header.counterOrZero_activeWord hfinal.valid.2.2.1]
    exact congrArg Except.ok hcount

/-- Three rotations, the first of them cut twice. -/
theorem levelled_of_small :
    let actions : List Action := [.failAfter 2, .call .compact, .restorePower, .failAfter 2,
      .restart, .restorePower, .call .init, .call .compact, .call .compact]
    let final := (left format small).afterActions actions
    Flash.rotations (left format small).ring ((left format small).trail actions) = 3 ∧
      final.active? = some 1 ∧ final.device.eraseCount 0 = 2 ∧ final.device.eraseCount 1 = 1 ∧
      answer eraseCounter final = .ok 2 := by
  intro actions final
  have hturns : Flash.rotations (left format small).ring
      ((left format small).trail actions) = 3 := by decide +kernel
  have hready : final.isReady = true := by decide +kernel
  have hno : Action.call .format ∉ actions := by decide
  have hlevelled := levelled_of_format attach_small format_small hno hready
  simp only [hturns] at hlevelled
  obtain ⟨hactive, hwear, -, hcounter⟩ := hlevelled
  exact ⟨hturns, hactive, hwear 0 (by decide), hwear 1 (by decide), hcounter⟩

end Store

end FlashRing
