import FlashRing.Command.Arguments
import FlashRing.Proofs.Digits
import Mathlib.Data.Nat.Digits.Lemmas

/-!
Keys and payloads as they are typed. Main statement: a word is taken exactly if it is a numeral in
one of the two bases for a number of sixteen bits, and the number that is taken is that number.
-/

namespace FlashRing.Number

variable {base limit value n m : Nat} {overflow : Fault} {text rest : List Char}

/-- One digit or more of a base, the first of them the most significant, and their number. -/
def Numeral (base : Nat) (text : List Char) (n : Nat) : Prop :=
  text ≠ [] ∧ ∃ values, List.Forall₂ (Text.Stands base) text values ∧
    Nat.ofDigits base values.reverse = n

/-- A numeral, or a plus and a numeral. -/
def PlusNumeral (base : Nat) (text : List Char) (n : Nat) : Prop :=
  Numeral base text n ∨ ∃ rest, text = '+' :: rest ∧ Numeral base rest n

/-- The number is written in base ten, or in base sixteen after a mark. -/
def Spells (text : String) (n : Nat) : Prop :=
  PlusNumeral 10 text.toList n ∨ ∃ mark rest, (mark = 'x' ∨ mark = 'X') ∧
    text.toList = '0' :: mark :: rest ∧ PlusNumeral 16 rest n

theorem ofDigits_reverse (base : Nat) (values : List Nat) :
    Nat.ofDigits base values.reverse = values.foldl (fun n value => value + base * n) 0 := by
  rw [Nat.ofDigits_eq_foldr, List.foldr_reverse]
  rfl

/-- Digits that follow never make a number smaller. -/
theorem le_foldl_digits (hb : 0 < base) (values : List Nat) (value : Nat) :
    value ≤ values.foldl (fun n value => value + base * n) value := by
  induction values generalizing value with
  | nil => exact le_rfl
  | cons digit values ih =>
    have hstep : value ≤ digit + base * value := by
      have := Nat.le_mul_of_pos_left value hb
      omega
    exact hstep.trans (ih _)

theorem magnitude_of_stands (hb : base ≤ 16) {values : List Nat}
    (hs : List.Forall₂ (Text.Stands base) text values) (hv : value ≤ limit) :
    magnitude base limit overflow value text =
      if values.foldl (fun n value => value + base * n) value ≤ limit then
        .ok (values.foldl (fun n value => value + base * n) value)
      else .error overflow := by
  induction hs generalizing value with
  | nil => rw [magnitude, List.foldl_nil, if_pos hv]
  | @cons c digit text values hc hs ih =>
    have hdigit := (digit?_eq_some_iff hb).mpr hc
    have hvalue : value * base + digit = digit + base * value := by
      rw [Nat.mul_comm, Nat.add_comm]
    rw [magnitude, hdigit, List.foldl_cons]
    dsimp only
    rw [hvalue]
    -- The limit is checked at each digit: a number that is past it at one stays past it.
    by_cases hover : limit < digit + base * value
    · have hle := le_foldl_digits (Nat.zero_lt_of_lt hc.1) values (digit + base * value)
      rw [if_pos hover, if_neg (by omega)]
    · rw [if_neg hover, ih (by omega)]

theorem stands_of_magnitude (hb : base ≤ 16)
    (h : magnitude base limit overflow value text = .ok n) :
    ∃ values, List.Forall₂ (Text.Stands base) text values := by
  induction text generalizing value with
  | nil => exact ⟨[], .nil⟩
  | cons c rest ih =>
    unfold magnitude at h
    split at h
    next => cases h
    next digit hdigit =>
      split at h
      next => cases h
      next =>
        obtain ⟨values, hs⟩ := ih h
        exact ⟨digit :: values, .cons ((digit?_eq_some_iff hb).mp hdigit) hs⟩

theorem magnitude_of_numeral (hb : base ≤ 16) (h : Numeral base text n) :
    magnitude base limit overflow 0 text = if n ≤ limit then .ok n else .error overflow := by
  obtain ⟨-, values, hs, rfl⟩ := h
  rw [magnitude_of_stands hb hs (Nat.zero_le limit), ofDigits_reverse]

theorem magnitude_eq_ok_iff (hb : base ≤ 16) (hne : text ≠ []) :
    magnitude base limit overflow 0 text = .ok n ↔ Numeral base text n ∧ n ≤ limit := by
  constructor
  · intro h
    obtain ⟨values, hs⟩ := stands_of_magnitude hb h
    have hm := h.symm.trans (magnitude_of_stands hb hs (Nat.zero_le limit))
    split at hm
    next hle =>
      cases hm
      exact ⟨⟨hne, values, hs, ofDigits_reverse base values⟩, hle⟩
    next => cases hm
  · rintro ⟨hn, hle⟩
    rw [magnitude_of_numeral hb hn, if_pos hle]

/-- Every character of a numeral is a digit. -/
theorem Numeral.exists_stands (h : Numeral base text n) {c : Char} (hc : c ∈ text) :
    ∃ value, Text.Stands base c value := by
  obtain ⟨-, values, hs, -⟩ := h
  obtain ⟨i, hi, rfl⟩ := List.mem_iff_getElem.mp hc
  exact ⟨_, hs.get hi (hs.length_eq ▸ hi)⟩

theorem not_stands_plus (hb : base ≤ 16) (value : Nat) : ¬Text.Stands base '+' value := by
  rw [Text.stands_iff hb]
  have hc : '+'.toNat = 0x2B := rfl
  omega

theorem not_numeral_plus (hb : base ≤ 16) : ¬Numeral base ('+' :: rest) n := by
  intro h
  obtain ⟨value, hvalue⟩ := h.exists_stands List.mem_cons_self
  exact not_stands_plus hb value hvalue

theorem plusNumeral_plus (hb : base ≤ 16) :
    PlusNumeral base ('+' :: rest) n ↔ Numeral base rest n := by
  simp [PlusNumeral, not_numeral_plus hb]

theorem plusNumeral_of_head (h : ∀ rest, text ≠ '+' :: rest) :
    PlusNumeral base text n ↔ Numeral base text n := by
  simp [PlusNumeral, h]

theorem unsigned_of_head (hne : text ≠ []) (h : ∀ rest, text ≠ '+' :: rest) :
    unsigned base limit text = magnitude base limit .tooLarge 0 text := by
  unfold unsigned
  split
  next => exact absurd rfl hne
  next => exact absurd rfl (h [])
  next rest _ => exact absurd rfl (h rest)
  next => rfl

theorem unsigned_plus (hne : rest ≠ []) :
    unsigned base limit ('+' :: rest) = magnitude base limit .tooLarge 0 rest := by
  cases rest with
  | nil => exact absurd rfl hne
  | cons c rest => rfl

theorem unsigned_eq_ok_iff (hb : base ≤ 16) :
    unsigned base limit text = .ok n ↔ PlusNumeral base text n ∧ n ≤ limit := by
  by_cases hplus : ∃ rest, text = '+' :: rest
  · obtain ⟨rest, rfl⟩ := hplus
    rw [plusNumeral_plus hb]
    by_cases hne : rest = []
    · subst hne
      simp [unsigned, Numeral]
    · rw [unsigned_plus hne, magnitude_eq_ok_iff hb hne]
  · have hhead : ∀ rest, text ≠ '+' :: rest := fun rest he => hplus ⟨rest, he⟩
    rw [plusNumeral_of_head hhead]
    by_cases hne : text = []
    · subst hne
      simp [unsigned, Numeral]
    · rw [unsigned_of_head hne hhead, magnitude_eq_ok_iff hb hne]

theorem unsigned_eq_tooLarge (hb : base ≤ 16) (h : PlusNumeral base text n) (hn : limit < n) :
    unsigned base limit text = .error .tooLarge := by
  rcases h with h | ⟨rest, rfl, h⟩
  · have hhead : ∀ rest, text ≠ '+' :: rest := by
      rintro rest rfl
      exact not_numeral_plus hb h
    rw [unsigned_of_head h.1 hhead, magnitude_of_numeral hb h, if_neg (by omega)]
  · rw [unsigned_plus h.1, magnitude_of_numeral hb h, if_neg (by omega)]

section Half

variable {text : String}

theorem toNat_ofNat_of_le (h : n ≤ 0xFFFF) : (UInt16.ofNat n).toNat = n := by
  rw [UInt16.toNat_ofNat']
  omega

/-- Whether it is marked or not, a text is read as a numeral of one base after a possible plus. -/
theorem exists_base (text : String) : ∃ base digits, base ≤ 16 ∧
    parseHalf text = (unsigned base 0xFFFF digits).map UInt16.ofNat ∧
      ∀ n, Spells text n ↔ PlusNumeral base digits n := by
  by_cases hmarked : ∃ mark rest, (mark = 'x' ∨ mark = 'X') ∧ text.toList = '0' :: mark :: rest
  · obtain ⟨mark, rest, hmark, htext⟩ := hmarked
    refine ⟨16, rest, le_rfl, ?_, fun n => ?_⟩
    · unfold parseHalf
      rw [htext]
      rcases hmark with rfl | rfl <;> rfl
    · have hten : ¬PlusNumeral 10 text.toList n := by
        rw [htext, plusNumeral_of_head (by simp)]
        intro h
        obtain ⟨value, hvalue⟩ := h.exists_stands (c := mark) (by simp)
        rw [Text.stands_iff (by omega)] at hvalue
        have hsmall : 'x'.toNat = 0x78 := rfl
        have hcapital : 'X'.toNat = 0x58 := rfl
        rcases hmark with rfl | rfl <;> omega
      constructor
      · rintro (h | ⟨other, digits, -, hother, h⟩)
        · exact absurd h hten
        · rw [htext] at hother
          cases hother
          exact h
      · exact fun h => Or.inr ⟨mark, rest, hmark, htext, h⟩
  · refine ⟨10, text.toList, by omega, ?_, fun n => ?_⟩
    · unfold parseHalf
      split
      next rest htext => exact absurd ⟨'x', rest, Or.inl rfl, htext⟩ hmarked
      next rest htext => exact absurd ⟨'X', rest, Or.inr rfl, htext⟩ hmarked
      next => rfl
    · constructor
      · rintro (h | ⟨mark, rest, hmark, htext, -⟩)
        · exact h
        · exact absurd ⟨mark, rest, hmark, htext⟩ hmarked
      · exact Or.inl

theorem parseHalf_eq_ok_iff {value : UInt16} :
    parseHalf text = .ok value ↔ Spells text value.toNat := by
  obtain ⟨base, digits, hb, hparse, hspells⟩ := exists_base text
  have hlt := value.toNat_lt
  rw [hparse, hspells]
  constructor
  · intro h
    cases hu : unsigned base 0xFFFF digits with
    | error fault =>
      rw [hu] at h
      cases h
    | ok n =>
      rw [hu] at h
      cases h
      obtain ⟨hn, hle⟩ := (unsigned_eq_ok_iff hb).mp hu
      rwa [toNat_ofNat_of_le hle]
  · intro h
    have hu : unsigned base 0xFFFF digits = .ok value.toNat :=
      (unsigned_eq_ok_iff hb).mpr ⟨h, by omega⟩
    rw [hu, Except.map, UInt16.ofNat_toNat]

theorem parseHalf_eq_tooLarge (h : Spells text n) (hn : 0xFFFF < n) :
    parseHalf text = .error .tooLarge := by
  obtain ⟨base, digits, hb, hparse, hspells⟩ := exists_base text
  rw [hparse, unsigned_eq_tooLarge hb ((hspells n).mp h) hn]
  rfl

theorem parseHalf_of_le (h : Spells text n) (hn : n ≤ 0xFFFF) :
    parseHalf text = .ok (UInt16.ofNat n) := by
  rw [parseHalf_eq_ok_iff, toNat_ofNat_of_le hn]
  exact h

/-- No text spells another number than the one it is taken for. -/
theorem Spells.eq_toNat (h : Spells text n) {value : UInt16} (hp : parseHalf text = .ok value) :
    n = value.toNat := by
  by_cases hn : n ≤ 0xFFFF
  · rw [parseHalf_of_le h hn] at hp
    cases hp
    rw [toNat_ofNat_of_le hn]
  · rw [parseHalf_eq_tooLarge h (by omega)] at hp
    cases hp

theorem refused_iff : (∃ fault, parseHalf text = .error fault) ↔
    ∀ n, Spells text n → 0xFFFF < n := by
  constructor
  · rintro ⟨fault, hfault⟩ n hn
    by_contra hle
    rw [parseHalf_of_le hn (by omega)] at hfault
    cases hfault
  · intro h
    cases hp : parseHalf text with
    | error fault => exact ⟨fault, rfl⟩
    | ok value =>
      have hlarge := h _ (parseHalf_eq_ok_iff.mp hp)
      have hlt := value.toNat_lt
      omega

theorem PlusNumeral.isHexDigit_or {digits : List Char} (h : PlusNumeral base digits n)
    (hb : base ≤ 16) {c : Char} (hc : c ∈ digits) : c = '+' ∨ c.isHexDigit = true := by
  have hdigit : ∀ text, Numeral base text n → c ∈ text → c.isHexDigit = true := by
    intro text hn hm
    obtain ⟨value, hlt, hvalue⟩ := hn.exists_stands hm
    exact Text.exists_stands_iff.mp ⟨value, by omega, hvalue⟩
  rcases h with h | ⟨rest, rfl, h⟩
  · exact Or.inr (hdigit digits h hc)
  · rcases List.mem_cons.mp hc with rfl | hc
    · exact Or.inl rfl
    · exact Or.inr (hdigit rest h hc)

/-- A letter that is no digit stands after a zero at the start, or nowhere. -/
theorem Spells.eq_zero_of_mark (h : Spells text n) {front rest : List Char} {mark : Char}
    (hmark : mark = 'x' ∨ mark = 'X') (htext : text.toList = front ++ mark :: rest) :
    front = ['0'] := by
  have hno : ¬(mark = '+' ∨ mark.isHexDigit = true) := by
    rcases hmark with rfl | rfl <;> decide
  rcases h with h | ⟨other, digits, -, hother, h⟩
  · exact absurd (h.isHexDigit_or (by omega) (by simp [htext])) hno
  · rw [hother] at htext
    cases front with
    | nil =>
      cases htext
      rcases hmark with hmark | hmark <;> cases hmark
    | cons zero front =>
      cases front with
      | nil =>
        cases htext
        rfl
      | cons first front =>
        simp only [List.cons_append, List.cons.injEq] at htext
        exact absurd (h.isHexDigit_or le_rfl (by simp [htext])) hno

theorem Spells.mem_alphabet (h : Spells text n) {c : Char} (hc : c ∈ text.toList) :
    c = '+' ∨ c = 'x' ∨ c = 'X' ∨ c.isHexDigit = true := by
  rcases h with h | ⟨mark, digits, hmark, htext, h⟩
  · rcases h.isHexDigit_or (by omega) hc with hplus | hdigit
    · exact Or.inl hplus
    · exact Or.inr (Or.inr (Or.inr hdigit))
  · rw [htext] at hc
    rcases List.mem_cons.mp hc with rfl | hc
    · exact Or.inr (Or.inr (Or.inr rfl))
    · rcases List.mem_cons.mp hc with rfl | hc
      · rcases hmark with hmark | hmark
        · exact Or.inr (Or.inl hmark)
        · exact Or.inr (Or.inr (Or.inl hmark))
      · rcases h.isHexDigit_or le_rfl hc with hplus | hdigit
        · exact Or.inl hplus
        · exact Or.inr (Or.inr (Or.inr hdigit))

/-- Nothing is spelled with a minus, with white space or with characters beyond ASCII. -/
theorem Spells.not_mem (h : Spells text n) {c : Char} (hc : c ∈ text.toList) :
    ¬(c = '-' ∨ Text.isBlank c = true ∨ 0x80 ≤ c.toNat) := by
  have hcode : c.toNat = 0x2B ∨ c.toNat = 0x78 ∨ c.toNat = 0x58 ∨
      0x30 ≤ c.toNat ∧ c.toNat ≤ 0x66 := by
    rcases h.mem_alphabet hc with rfl | rfl | rfl | hdigit
    · exact Or.inl rfl
    · exact Or.inr (Or.inl rfl)
    · exact Or.inr (Or.inr (Or.inl rfl))
    · rw [Text.isHexDigit_iff] at hdigit
      omega
  have hseen := Text.isBlank_of_seen (c := c) (by omega) (by omega)
  rintro (rfl | hblank | hfar)
  · have hminus : '-'.toNat = 0x2D := rfl
    omega
  · rw [hseen] at hblank
    cases hblank
  · omega

/-- What comes of a text that is read as a key or a payload. -/
structure ReadsHalf (text : String) : Prop where
  ok_iff : ∀ value, parseHalf text = .ok value ↔ Spells text value.toNat
  /-- A text spells no other number than the one that is taken. -/
  whole : ∀ value n, parseHalf text = .ok value → Spells text n → n = value.toNat
  refused_iff : (∃ fault, parseHalf text = .error fault) ↔ ¬∃ n ≤ 0xFFFF, Spells text n
  large : ∀ n, Spells text n → 0xFFFF < n → parseHalf text = .error .tooLarge
  /-- A sign or a mark with no digits after it. -/
  bare : text ∈ ["", "+", "-", "0x", "0X", "0x+", "0X+"] →
    ∃ fault, parseHalf text = .error fault
  /-- A mark that is not the one at the start, such as a second one. -/
  misplaced : ∀ front mark rest, text.toList = front ++ mark :: rest → mark = 'x' ∨ mark = 'X' →
    front ≠ ['0'] → ∃ fault, parseHalf text = .error fault
  alien : ∀ c ∈ text.toList, c = '-' ∨ Text.isBlank c = true ∨ 0x80 ≤ c.toNat →
    ∃ fault, parseHalf text = .error fault
  /-- What the command line takes, and what it says of the rest. -/
  taken_iff : ∀ place value, halfArgument place text = .ok value ↔ Spells text value.toNat
  reason : (¬∃ n ≤ 0xFFFF, Spells text n) → ∃ fault, parseHalf text = .error fault ∧
    ∀ place, halfArgument place text =
      .error (.invalidValue text place ("invalid number '" ++ text ++ "': " ++ fault.text))

theorem readsHalf_of_text (text : String) : ReadsHalf text := by
  have hrefused : (∃ fault, parseHalf text = .error fault) ↔ ¬∃ n ≤ 0xFFFF, Spells text n := by
    rw [refused_iff]
    constructor
    · rintro h ⟨n, hle, hn⟩
      have hlarge := h n hn
      omega
    · intro h n hn
      by_contra hle
      exact h ⟨n, by omega, hn⟩
  have hspells : (∀ n, ¬Spells text n) → ∃ fault, parseHalf text = .error fault :=
    fun h => hrefused.mpr fun ⟨n, _, hn⟩ => h n hn
  constructor
  case ok_iff => exact fun value => parseHalf_eq_ok_iff
  case whole => exact fun value n hp hn => hn.eq_toNat hp
  case refused_iff => exact hrefused
  case large => exact fun n => parseHalf_eq_tooLarge
  case bare =>
    intro h
    simp only [List.mem_cons, List.not_mem_nil, or_false] at h
    rcases h with rfl | rfl | rfl | rfl | rfl | rfl | rfl <;> exact ⟨_, rfl⟩
  case misplaced =>
    intro front mark rest htext hmark hfront
    exact hspells fun n hn => hfront (hn.eq_zero_of_mark hmark htext)
  case alien => exact fun c hc halien => hspells fun n hn => hn.not_mem hc halien
  case taken_iff =>
    intro place value
    rw [← parseHalf_eq_ok_iff, halfArgument]
    cases parseHalf text <;> simp
  case reason =>
    intro h
    obtain ⟨fault, hfault⟩ := hrefused.mpr h
    refine ⟨fault, hfault, fun place => ?_⟩
    rw [halfArgument, hfault]

/-- The sign stands after the mark, digits have either case and zeros may lead; one more than the
largest number is refused, and so is a second mark. -/
theorem readsHalf_of_padded : parseHalf "0X+00fF" = .ok 255 ∧
    parseHalf "65536" = .error .tooLarge ∧ ∃ fault, parseHalf "0x0x1" = .error fault := by
  have hpadded : Spells "0X+00fF" 255 :=
    Or.inr ⟨'X', ['+', '0', '0', 'f', 'F'], Or.inr rfl, rfl, Or.inr ⟨['0', '0', 'f', 'F'], rfl,
      by decide, [0, 0, 15, 15], by simp [Text.Stands], rfl⟩⟩
  have hlarge : Spells "65536" 65536 :=
    Or.inl (Or.inl ⟨by decide, [6, 5, 5, 3, 6], by simp [Text.Stands], rfl⟩)
  exact ⟨((readsHalf_of_text _).ok_iff 255).mpr hpadded,
    (readsHalf_of_text _).large _ hlarge (by decide),
    (readsHalf_of_text _).misplaced ['0', 'x', '0'] 'x' ['1'] rfl (Or.inl rfl) (by decide)⟩

end Half

end FlashRing.Number
