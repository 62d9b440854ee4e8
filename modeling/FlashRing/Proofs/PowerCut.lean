import FlashRing.Proofs.Effect
import Mathlib.Data.List.Induction

/-!
Flash in memory whose power is cut before a program or an erase. Main statement: of the programs and
erases that keep to the device exactly the first ones succeed, as many as there is power for, and
they alone make the words, the erase counts and the count of mutations what they are. No device is
left out: one with more words than addresses has its pages where arithmetic of 32 bits puts them.
-/

namespace FlashRing

/-- A call of a device. -/
inductive Access where
  | read (address : Nat)
  | program (address : Nat) (values : List UInt32)
  | erase (page : Nat)
deriving DecidableEq

namespace Access

variable {geometry : Geometry} {access : Access} {address : Nat}

/-- Carries the call out. Only a reading answers with a word. -/
def run {δ : Type} [Device δ] : Access → EStateM Error δ (Option UInt32)
  | .read address => fun device =>
    match Device.read device address with
    | .ok word => .ok (some word) device
    | .error e => .error e device
  | .program address values => do
    Device.program address values
    return none
  | .erase page => do
    Device.erase page
    return none

/-- The call keeps to the device. -/
def Fits (geometry : Geometry) : Access → Prop
  | .read address => address < geometry.totalWords
  | .program address values => address + values.length ≤ geometry.totalWords
  | .erase page => page < geometry.pageCount

instance (geometry : Geometry) (access : Access) : Decidable (access.Fits geometry) :=
  match access with
  | .read _ => inferInstanceAs (Decidable (_ < _))
  | .program _ _ => inferInstanceAs (Decidable (_ ≤ _))
  | .erase _ => inferInstanceAs (Decidable (_ < _))

/-- The call needs power: it keeps to the device and does more than to read. -/
def draws (geometry : Geometry) : Access → Bool
  | .read _ => false
  | access => access.Fits geometry

/-- The value that the call programs to a word. -/
def value? (address : Nat) : Access → Option UInt32
  | .program first values => if first ≤ address then values[address - first]? else none
  | _ => none

/-- The call erases a word, which lies in the page. The page begins at a product of 32 bits, which
starts over on a device with more words. -/
def clears (geometry : Geometry) (address : Nat) : Access → Bool
  | .erase page => page * geometry.pageWords % 0x100000000 ≤ address ∧
    address < page * geometry.pageWords % 0x100000000 + geometry.pageWords
  | _ => false

/-- What a call that succeeds leaves of a word. -/
def leaves (geometry : Geometry) (address : Nat) (word : UInt32) (access : Access) : UInt32 :=
  if access.clears geometry address then erasedWord
  else (access.value? address).elim word (· &&& word)

/-- The values programmed to a word since it was last erased, the last of them first. -/
def sinceCleared (geometry : Geometry) (address : Nat) (calls : List Access) : List UInt32 :=
  (calls.reverse.takeWhile (!·.clears geometry address)).filterMap (·.value? address)

/-- The values programmed to a word since a page was last erased, the last of them first. -/
def sinceErased (page address : Nat) (calls : List Access) : List UInt32 :=
  (calls.reverse.takeWhile (· ≠ .erase page)).filterMap (·.value? address)

/-- A program or an erase has its full effect. -/
structure Takes (access : Access) (before after : Ram) : Prop where
  geometry : after.geometry = before.geometry
  word : ∀ address, after.word address =
    access.leaves before.geometry address (before.word address)
  eraseTally : ∀ page, page < before.geometry.pageCount → after.eraseTally page =
    before.eraseTally page + if access = .erase page then 1 else 0
  mutations : after.mutations = before.mutations + 1

theorem fits_of_draws (h : access.draws geometry = true) : access.Fits geometry := by
  cases access with
  | read address => cases h
  | program address values => exact of_decide_eq_true h
  | erase page => exact of_decide_eq_true h

/-- The pages of an addressable device are the words that follow each other, and each word lies in
one of them. -/
theorem clears_of_addressable (ha : geometry.Addressable) (hf : access.Fits geometry)
    (hin : address < geometry.totalWords) :
    access.clears geometry address = decide (access = .erase (address / geometry.pageWords)) := by
  cases access with
  | read other => simp [clears]
  | program first values => simp [clears]
  | erase page =>
    have hstart : page * geometry.pageWords % 0x100000000 = page * geometry.pageWords :=
      Geometry.pageAddress_eq ha (Nat.le_of_lt hf)
    have hw : 0 < geometry.pageWords := Nat.pos_of_mul_pos_right (Nat.zero_lt_of_lt hin)
    have hpage : address / geometry.pageWords = page ↔
        page * geometry.pageWords ≤ address ∧
          address < page * geometry.pageWords + geometry.pageWords := by
      rw [Nat.div_eq_iff hw]
      omega
    simp only [clears, hstart, Access.erase.injEq, eq_comm (a := page), hpage]

/-- On a device with a page too many for its addresses the last page starts where the first does. -/
example : ¬Geometry.Addressable ⟨0x10000, 0x10001⟩ ∧
    (erase 0x10000).clears ⟨0x10000, 0x10001⟩ 0 = true := by decide

theorem sinceCleared_eq {page : Nat} {calls : List Access}
    (h : ∀ access ∈ calls, access.clears geometry address = decide (access = .erase page)) :
    sinceCleared geometry address calls = sinceErased page address calls := by
  have htake : ∀ rest : List Access, (∀ access ∈ rest, access ∈ calls) →
      rest.takeWhile (!·.clears geometry address) = rest.takeWhile (· ≠ .erase page) := by
    intro rest hrest
    induction rest with
    | nil => rfl
    | cons access rest ih =>
      have hsame := h access (hrest access List.mem_cons_self)
      rw [List.takeWhile_cons, List.takeWhile_cons, hsame,
        ih fun other ho => hrest other (List.mem_cons_of_mem access ho)]
      simp only [decide_not]
  rw [sinceCleared, sinceErased, htake _ fun access ha => List.mem_reverse.mp ha]

theorem leaves_program (geometry : Geometry) (address first : Nat) (values : List UInt32)
    (word : UInt32) : (program first values).leaves geometry address word =
      if first ≤ address ∧ address < first + values.length then
        word &&& values.getD (address - first) 0
      else word := by
  rw [leaves, if_neg (by simp [clears]), value?]
  by_cases hin : first ≤ address ∧ address < first + values.length
  · have hplace : address - first < values.length := by omega
    rw [if_pos hin, if_pos hin.1, List.getD_eq_getElem?_getD, List.getElem?_eq_getElem hplace,
      UInt32.and_comm]
    rfl
  · rw [if_neg hin]
    split
    next hfirst =>
      rw [List.getElem?_eq_none (by omega)]
      rfl
    next => rfl

end Access

namespace Power

/-- The power that is left after so many calls for it. -/
def drained (power : Power) (n : Nat) : Power :=
  if power.Lasts n then power.after n else .off

/-- Those of some calls for power that it is enough for. -/
def admits {α : Type} : Power → List α → List α
  | .steady, calls => calls
  | .budget left, calls => calls.take left
  | .off, _ => []

theorem drained_zero (power : Power) : power.drained 0 = power := by
  rw [drained, if_pos power.lasts_zero, after_zero]

theorem drained_succ {power : Power} (h : power.Lasts 1) (n : Nat) :
    power.drained (n + 1) = (power.after 1).drained n := by
  have hiff : power.Lasts (1 + n) ↔ (power.after 1).Lasts n := by
    rw [lasts_add]
    exact and_iff_right h
  simp only [drained, Nat.add_comm n 1, hiff, after_add]

theorem drained_of_not_lasts {power : Power} (h : ¬power.Lasts 1) (n : Nat) :
    power.drained (n + 1) = .off := by
  rw [drained, if_neg]
  rw [Nat.add_comm, lasts_add]
  exact fun hl => h hl.1

theorem drained_off (n : Nat) : off.drained n = off := by
  unfold drained
  split <;> rfl

theorem lasts_drained_budget {left n : Nat} :
    ((budget left).drained n).Lasts 1 ↔ n < left := by
  unfold drained
  split
  next h =>
    simp only [Lasts, after] at h ⊢
    omega
  next h =>
    simp only [Lasts] at h ⊢
    omega

variable {α : Type} {call : α} {calls : List α}

theorem admits_cons {power : Power} (h : power.Lasts 1) :
    power.admits (call :: calls) = call :: (power.after 1).admits calls := by
  match power, h with
  | .steady, _ => rfl
  | .budget (_ + 1), _ => rfl
  | .budget 0, h => exact absurd h (by simp [Lasts])
  | .off, h => exact absurd h (by simp [Lasts])

theorem admits_of_not_lasts {power : Power} (h : ¬power.Lasts 1) : power.admits calls = [] := by
  match power, h with
  | .steady, h => exact absurd trivial h
  | .budget (_ + 1), h => exact absurd (show 1 ≤ _ + 1 by omega) h
  | .budget 0, _ => rfl
  | .off, _ => rfl

theorem mem_of_mem_admits {power : Power} (h : call ∈ power.admits calls) : call ∈ calls := by
  cases power with
  | steady => exact h
  | budget left => exact List.mem_of_mem_take h
  | off => cases h

end Power

namespace Ram

variable {ram : Ram} {access : Access} {calls : List Access} {address : Nat}

/-- The device after a call that succeeded. -/
def performed (ram : Ram) : Access → Ram
  | .read _ => ram
  | .program address values => { ram with
    words := Memory.program ram.words address values
    mutations := ram.mutations + 1
    size_words := by rw [Memory.size_program, ram.size_words] }
  | .erase page => ram.erased page

/-- The device that a call leaves, whatever comes of it. -/
def left (ram : Ram) (access : Access) : Ram :=
  match access.run ram with
  | .ok _ after => after
  | .error _ after => after

/-- The device that calls made one after the other leave. -/
def leftAll (ram : Ram) (calls : List Access) : Ram :=
  calls.foldl left ram

/-- The programs and erases among calls made one after the other that succeed. -/
def accomplished (ram : Ram) : List Access → List Access
  | [] => []
  | access :: rest =>
    match access.run ram with
    | .ok none after => access :: accomplished after rest
    | .ok (some _) after => accomplished after rest
    | .error _ after => accomplished after rest

theorem run_of_ok {change : EStateM Error Ram Unit} {after : Ram} (h : change ram = .ok () after) :
    (do change; return (none : Option UInt32)) ram = .ok none after := by
  simp only [bind, EStateM.bind, h]
  rfl

theorem run_of_error {change : EStateM Error Ram Unit} {after : Ram} {e : Error}
    (h : change ram = .error e after) :
    (do change; return (none : Option UInt32)) ram = .error e after := by
  simp only [bind, EStateM.bind, h]

theorem run_of_lasts (hd : access.draws ram.geometry = true) (hl : ram.power.Lasts 1) :
    access.run ram = .ok none ((ram.performed access).powered (ram.power.after 1)) := by
  have hf := Access.fits_of_draws hd
  cases access with
  | read address => cases hd
  | program address values =>
    apply run_of_ok
    change Ram.program address values ram = _
    rw [Ram.program, if_neg (Nat.not_lt.mpr hf), Power.draw_of_lasts .program hl]
    rfl
  | erase page =>
    apply run_of_ok
    change Ram.erase page ram = _
    rw [Ram.erase, if_neg (Nat.not_le.mpr hf), Power.draw_of_lasts .erase hl]
    rfl

theorem run_of_not_lasts (hd : access.draws ram.geometry = true) (hl : ¬ram.power.Lasts 1) :
    ∃ fault, access.run ram = .error (.blockDevice fault) (ram.powered .off) := by
  have hf := Access.fits_of_draws hd
  cases access with
  | read address => cases hd
  | program address values =>
    obtain ⟨fault, hdraw⟩ := Power.draw_of_not_lasts .program hl
    refine ⟨fault, run_of_error ?_⟩
    change Ram.program address values ram = _
    rw [Ram.program, if_neg (Nat.not_lt.mpr hf), hdraw]
    rfl
  | erase page =>
    obtain ⟨fault, hdraw⟩ := Power.draw_of_not_lasts .erase hl
    refine ⟨fault, run_of_error ?_⟩
    change Ram.erase page ram = _
    rw [Ram.erase, if_neg (Nat.not_le.mpr hf), hdraw]
    rfl

theorem run_read (h : address < ram.geometry.totalWords) :
    (Access.read address).run ram = .ok (some (ram.word address)) ram := by
  change (match Ram.read ram address with
    | .ok word => EStateM.Result.ok (some word) ram
    | .error e => .error e ram) = _
  rw [read_eq_word h]

theorem run_of_not_fits (h : ¬access.Fits ram.geometry) :
    ∃ fault, access.run ram = .error (.blockDevice fault) ram := by
  cases access with
  | read address =>
    have hr : Ram.read ram address = .error (ram.geometry.outOfRange .ram address 1) := by
      rw [Ram.read, dif_neg (by rw [ram.size_words]; exact h)]
    refine ⟨.outOfRange .ram address (address + 1) ram.geometry.totalWords, ?_⟩
    change (match Ram.read ram address with
      | .ok word => EStateM.Result.ok (some word) ram
      | .error e => .error e ram) = _
    rw [hr]
    rfl
  | program address values =>
    refine ⟨.outOfRange .ram address (address + values.length) ram.geometry.totalWords,
      run_of_error ?_⟩
    change Ram.program address values ram = _
    rw [Ram.program, if_pos (Nat.lt_of_not_le h)]
    rfl
  | erase page =>
    refine ⟨.noSuchPage .ram page ram.geometry.pageCount, run_of_error ?_⟩
    change Ram.erase page ram = _
    rw [Ram.erase, if_pos (Nat.le_of_not_lt h)]
    rfl

/-- A call that needs no power leaves the device as it is. -/
theorem idle_of_not_draws (h : ¬access.draws ram.geometry = true) (rest : List Access) :
    ram.left access = ram ∧ ram.accomplished (access :: rest) = ram.accomplished rest := by
  by_cases hf : access.Fits ram.geometry
  · cases access with
    | read address =>
      have hr := run_read hf
      rw [left, accomplished, hr]
      exact ⟨rfl, rfl⟩
    | program address values => exact absurd (decide_eq_true hf) h
    | erase page => exact absurd (decide_eq_true hf) h
  · obtain ⟨fault, hr⟩ := run_of_not_fits hf
    rw [left, accomplished, hr]
    exact ⟨rfl, rfl⟩

theorem geometry_performed (ram : Ram) (access : Access) :
    (ram.performed access).geometry = ram.geometry := by
  cases access <;> rfl

theorem accomplished_eq (ram : Ram) (calls : List Access) :
    ram.accomplished calls = ram.power.admits (calls.filter (·.draws ram.geometry)) := by
  induction calls generalizing ram with
  | nil => cases ram.power <;> simp [accomplished, Power.admits]
  | cons access rest ih =>
    by_cases hd : access.draws ram.geometry = true
    · rw [List.filter_cons_of_pos hd]
      by_cases hl : ram.power.Lasts 1
      · have hg : ((ram.performed access).powered (ram.power.after 1)).geometry = ram.geometry :=
          geometry_performed ram access
        rw [accomplished, run_of_lasts hd hl, Power.admits_cons hl]
        dsimp only
        rw [ih, hg]
        rfl
      · obtain ⟨fault, hr⟩ := run_of_not_lasts hd hl
        rw [accomplished, hr, Power.admits_of_not_lasts hl]
        dsimp only
        rw [ih]
        rfl
    · rw [(idle_of_not_draws hd rest).2, ih, List.filter_cons_of_neg hd]

theorem performed_powered (ram : Ram) (power : Power) (access : Access) :
    (ram.powered power).performed access = (ram.performed access).powered power := by
  cases access <;> rfl

theorem foldl_performed_powered (ram : Ram) (power : Power) (calls : List Access) :
    calls.foldl performed (ram.powered power) = (calls.foldl performed ram).powered power := by
  induction calls generalizing ram with
  | nil => rfl
  | cons access rest ih => rw [List.foldl_cons, List.foldl_cons, performed_powered, ih]

/-- What is left is what the calls that succeed make of the device; the others only use up power. -/
theorem leftAll_eq (ram : Ram) (calls : List Access) :
    ram.leftAll calls = ((ram.accomplished calls).foldl performed ram).powered
      (ram.power.drained (calls.countP (·.draws ram.geometry))) := by
  induction calls generalizing ram with
  | nil =>
    rw [List.countP_nil, Power.drained_zero]
    rfl
  | cons access rest ih =>
    rw [leftAll, List.foldl_cons]
    change (ram.left access).leftAll rest = _
    rw [ih]
    by_cases hd : access.draws ram.geometry = true
    · rw [List.countP_cons_of_pos hd]
      by_cases hl : ram.power.Lasts 1
      · have hr := run_of_lasts hd hl
        have hg : ((ram.performed access).powered (ram.power.after 1)).geometry = ram.geometry :=
          geometry_performed ram access
        rw [left, accomplished, hr, Power.drained_succ hl]
        dsimp only
        rw [hg, List.foldl_cons, foldl_performed_powered]
        rfl
      · obtain ⟨fault, hr⟩ := run_of_not_lasts hd hl
        rw [left, accomplished, hr, Power.drained_of_not_lasts hl]
        dsimp only
        -- The refused call has put the power out, and no later call can bring it back.
        rw [foldl_performed_powered]
        have hoff : (ram.powered .off).power = .off := rfl
        rw [hoff, Power.drained_off]
        rfl
    · obtain ⟨hleft, hdone⟩ := idle_of_not_draws hd rest
      rw [List.countP_cons_of_neg hd, hleft, hdone]

theorem word_performed (hd : access.draws ram.geometry = true) (address : Nat) :
    (ram.performed access).word address =
      access.leaves ram.geometry address (ram.word address) := by
  cases access with
  | read address => cases hd
  | program first values =>
    have hsize := ram.size_words
    have hfits : first + values.length ≤ ram.geometry.totalWords := of_decide_eq_true hd
    change (Memory.program ram.words first values).getD address erasedWord = _
    rw [Array.getD_eq_getD_getElem?, Memory.getElem?_program, Access.leaves_program, word,
      Array.getD_eq_getD_getElem?]
    split
    next hin =>
      rw [Array.getElem?_eq_getElem (by omega)]
      rfl
    next => rfl
  | erase page =>
    rw [performed, word_erased, Access.leaves, Geometry.pageAddress]
    simp only [Access.clears, decide_eq_true_eq, Access.value?, Option.elim_none]

theorem takes_performed (hd : access.draws ram.geometry = true) (power : Power) :
    access.Takes ram ((ram.performed access).powered power) := by
  constructor
  case geometry => exact geometry_performed ram access
  case word => exact word_performed hd
  case eraseTally =>
    intro page hp
    cases access with
    | read address => cases hd
    | program address values => exact (UInt32.add_zero _).symm
    | erase other =>
      have hcount : ((ram.performed (.erase other)).powered power).eraseCount page =
        ram.eraseCount page + if page = other then 1 else 0 := eraseCount_erased hp
      rw [eraseTally, hcount, UInt32.ofNat_add]
      simp only [eraseTally, Access.erase.injEq, eq_comm (a := page)]
      split <;> rfl
  case mutations =>
    cases access with
    | read address => cases hd
    | program address values => rfl
    | erase page => rfl

/-- Calls that succeeded one after the other add up. -/
structure Adds (before : Ram) (done : List Access) (after : Ram) : Prop where
  geometry : after.geometry = before.geometry
  mutations : after.mutations = before.mutations + done.length
  eraseTally : ∀ page, page < before.geometry.pageCount →
    after.eraseTally page = before.eraseTally page + .ofNat (done.count (.erase page))
  word : ∀ address, after.word address =
    (Access.sinceCleared before.geometry address done).foldr (· &&& ·)
      (if done.any (·.clears before.geometry address) then erasedWord else before.word address)

/-- Each word is what it was, or all ones if its page has been erased, and what was programmed to it
since. -/
def Accrues (before : Ram) (done : List Access) (after : Ram) : Prop :=
  ∀ address, address < before.geometry.totalWords → after.word address =
    (Access.sinceErased (address / before.geometry.pageWords) address done).foldr (· &&& ·)
      (if .erase (address / before.geometry.pageWords) ∈ done then erasedWord
        else before.word address)

theorem Adds.accrues {before : Ram} {done : List Access} (h : before.Adds done ram)
    (ha : before.geometry.Addressable) (hf : ∀ access ∈ done, access.Fits before.geometry) :
    before.Accrues done ram := by
  intro address hin
  have hpage : ∀ access ∈ done, access.clears before.geometry address =
      decide (access = .erase (address / before.geometry.pageWords)) :=
    fun access hm => Access.clears_of_addressable ha (hf access hm) hin
  have hany : done.any (·.clears before.geometry address) =
      decide (.erase (address / before.geometry.pageWords) ∈ done) := by
    rw [Bool.eq_iff_iff, List.any_eq_true, decide_eq_true_eq]
    refine ⟨?_, fun hm => ⟨_, hm, by rw [hpage _ hm, decide_eq_true rfl]⟩⟩
    rintro ⟨access, hm, hclears⟩
    rw [hpage access hm] at hclears
    exact of_decide_eq_true hclears ▸ hm
  rw [h.word, Access.sinceCleared_eq hpage, hany]
  simp only [decide_eq_true_eq]

theorem adds_nil (ram : Ram) : ram.Adds [] ram :=
  ⟨rfl, rfl, fun _ _ => (UInt32.add_zero _).symm, fun _ => rfl⟩

/-- An erase makes what was programmed before it irrelevant, and a program adds one more value. -/
theorem Adds.concat {before : Ram} {done : List Access} (h : before.Adds done ram) {after : Ram}
    (ht : access.Takes ram after) : before.Adds (done ++ [access]) after := by
  constructor
  case geometry => rw [ht.geometry, h.geometry]
  case mutations =>
    rw [ht.mutations, h.mutations, List.length_append, List.length_singleton, Nat.add_assoc]
  case eraseTally =>
    intro page hp
    rw [ht.eraseTally page (h.geometry ▸ hp), h.eraseTally page hp, List.count_append,
      List.count_singleton, UInt32.ofNat_add, UInt32.add_assoc]
    congr 2
    simp only [beq_iff_eq]
    split <;> rfl
  case word =>
    intro address
    rw [ht.word, h.word, h.geometry, Access.leaves, Access.sinceCleared, Access.sinceCleared,
      List.reverse_append, List.reverse_singleton, List.singleton_append, List.any_append,
      List.any_cons, List.any_nil, Bool.or_false]
    by_cases hc : access.clears before.geometry address = true
    · rw [if_pos hc, hc, Bool.or_true, List.takeWhile_cons_of_neg (by simp [hc])]
      rfl
    · rw [if_neg hc, eq_false_of_ne_true hc, Bool.or_false,
        List.takeWhile_cons_of_pos (by simp [hc])]
      cases hv : access.value? address with
      | none => rw [List.filterMap_cons_none hv]; rfl
      | some value => rw [List.filterMap_cons_some hv]; rfl

theorem adds_foldl {done : List Access} (hd : ∀ access ∈ done, access.draws ram.geometry = true) :
    ram.Adds done (done.foldl performed ram) := by
  induction done using List.reverseRecOn with
  | nil => exact ram.adds_nil
  | append_singleton done access ih =>
    have h := ih fun other ho => hd other (by simp [ho])
    have hdraws : access.draws (done.foldl performed ram).geometry = true := by
      rw [h.geometry]
      exact hd access (by simp)
    rw [List.foldl_append]
    exact h.concat (takes_performed hdraws _)

theorem adds_accomplished (ram : Ram) (calls : List Access) :
    ram.Adds (ram.accomplished calls) (ram.leftAll calls) := by
  have hd : ∀ access ∈ ram.accomplished calls, access.draws ram.geometry = true := by
    intro access ha
    rw [accomplished_eq] at ha
    exact (List.mem_filter.mp (Power.mem_of_mem_admits ha)).2
  have h := adds_foldl hd
  rw [leftAll_eq]
  exact ⟨h.geometry, h.mutations, h.eraseTally, h.word⟩

/-- What calls add up to does not depend on the power that they found. -/
theorem Adds.of_powered {before : Ram} {power : Power} {done : List Access}
    (h : (before.powered power).Adds done ram) : before.Adds done ram :=
  ⟨h.geometry, h.mutations, h.eraseTally, h.word⟩

/-- What comes of calls when the power is cut after `count` programs and erases: those that were
done, and the device. -/
structure CutsAfter (ram : Ram) (count : Nat) (calls done : List Access) (device : Ram) :
    Prop where
  done_eq : done = (calls.filter (·.draws ram.geometry)).take count
  adds : ram.Adds done device
  /-- Where every word has an address, its page is the quotient of the address. -/
  accrues : ram.geometry.Addressable → ram.Accrues done device
  astray : ∀ access : Access, ¬access.Fits ram.geometry →
    ∃ fault, access.run device = .error (.blockDevice fault) device
  reads : ∀ address < ram.geometry.totalWords,
    (Access.read address).run device = .ok (some (device.word address)) device
  succeeds : ∀ access : Access, access.draws ram.geometry = true → done.length < count →
    ∃ after, access.run device = .ok none after ∧ access.Takes device after
  fails : ∀ access : Access, access.draws ram.geometry = true → count ≤ done.length →
    ∃ fault, access.run device = .error (.blockDevice fault) (device.powered .off)
  restored : ∀ more, device.restorePower.accomplished more =
      more.filter (·.draws ram.geometry) ∧
    device.Adds (more.filter (·.draws ram.geometry)) (device.restorePower.leftAll more)
  again : ∀ other more, (device.failAfter other).accomplished more =
    (more.filter (·.draws ram.geometry)).take other

end Ram

end FlashRing
