import FlashRing.Device.Reading
import FlashRing.Store.Report

/-!
Whatever is read of a page is put together of readings of single words. Main statement: a reading
fails in no other way than the device fails to read a word.
-/

namespace FlashRing

variable {δ α β : Type} [Device δ]

/-- The reading consists of readings of words and of computations with their results. -/
inductive Reads : {α : Type} → (δ → Except Error α) → Prop where
  | pure {α : Type} (a : α) : Reads fun _ => .ok a
  | word (address : Nat) : Reads fun device => Device.read device address
  | bind {α β : Type} {first : δ → Except Error α} {next : α → δ → Except Error β}
      (hfirst : Reads first) (hnext : ∀ a, Reads (next a)) :
      Reads fun device => first device >>= fun a => next a device

namespace Reads

/-- Every failure of a reading is one of the device. -/
theorem allowed {reading : δ → Except Error α} (h : Reads reading) {Allowed : Error → Prop}
    (hword : ∀ {device : δ} {address : Nat} {e : Error},
      Device.read device address = .error e → Allowed e) {device : δ} {e : Error}
    (he : reading device = .error e) : Allowed e := by
  induction h with
  | pure a => cases he
  | word address => exact hword he
  | @bind α β first next _ _ ihfirst ihnext =>
    dsimp only at he
    cases hrun : first device with
    | ok a =>
      rw [hrun] at he
      exact ihnext a he
    | error fault =>
      rw [hrun] at he
      cases he
      exact ihfirst hrun

theorem map {reading : δ → Except Error α} (h : Reads reading) (f : α → β) :
    Reads fun device => do return f (← reading device) :=
  h.bind fun a => .pure (f a)

section Lists

theorem mapM {f : α → δ → Except Error β} (hf : ∀ a, Reads (f a)) (list : List α) :
    Reads fun device => list.mapM fun a => f a device := by
  induction list with
  | nil => exact .pure []
  | cons a rest ih =>
    simp only [List.mapM_cons]
    exact (hf a).bind fun b => ih.map (b :: ·)

theorem allM {f : α → δ → Except Error Bool} (hf : ∀ a, Reads (f a)) (list : List α) :
    Reads fun device => list.allM fun a => f a device := by
  induction list with
  | nil => exact .pure true
  | cons a rest ih =>
    simp only [List.allM]
    refine (hf a).bind fun found => ?_
    cases found with
    | true => exact ih
    | false => exact .pure false

theorem findM? {f : α → δ → Except Error Bool} (hf : ∀ a, Reads (f a)) (list : List α) :
    Reads fun device => list.findM? fun a => f a device := by
  induction list with
  | nil => exact .pure none
  | cons a rest ih =>
    simp only [List.findM?]
    refine (hf a).bind fun found => ?_
    cases found with
    | true => exact .pure (some a)
    | false => exact ih

theorem findSomeM? {f : α → δ → Except Error (Option β)} (hf : ∀ a, Reads (f a))
    (list : List α) : Reads fun device => list.findSomeM? fun a => f a device := by
  induction list with
  | nil => exact .pure none
  | cons a rest ih =>
    simp only [List.findSomeM?]
    refine (hf a).bind fun found => ?_
    cases found with
    | some b => exact .pure (some b)
    | none => exact ih

end Lists

section Pages

variable (page : Page)

theorem header : Reads (page.header (δ := δ)) :=
  (word page.headerAddress).map Header.decode

theorem log : Reads (page.log (δ := δ)) :=
  mapM (fun address => (word address).map Slot.decode) _

theorem contents : Reads (page.contents (δ := δ)) :=
  mapM word _

theorem isErased : Reads (page.isErased (δ := δ)) :=
  allM (fun address => (word address).map (· == erasedWord)) _

theorem firstFree? : Reads (page.firstFree? (δ := δ)) :=
  findM? (fun address => (word address).map fun found => (Slot.decode found).isFree) _

theorem holds (key : UInt16) : Reads (page.holds key (δ := δ)) :=
  (findSomeM? (fun address => (word address).bind fun _ => .pure _) _).map (·.getD false)

theorem reports (pages : List Page) : Reads fun device : δ =>
    pages.mapM fun page => do return PageReport.ofWords page (← page.contents device) :=
  mapM (fun page => (contents page).map (PageReport.ofWords page)) pages

end Pages

end Reads

end FlashRing
