import FlashRing.Command.Arguments
import FlashRing.Proofs.Digits
import Mathlib.Algebra.Group.Nat.Even
import Mathlib.Data.List.Induction

/-!
Byte strings as they are typed. Main statement: a text is read as the bytes whose digits are left of
it without white space and in small letters; any other text is refused for its odd length, or else
at the first byte that is no digit.
-/

namespace FlashRing.HexBytes

variable {text : String} {octets front rest bytes : List UInt8} {byte value : UInt8}
  {position : Nat}

/-- The text without its white space. -/
def bare (text : String) : String :=
  String.ofList (text.toList.filter (!Text.isBlank ·))

/-- The bytes of a text in UTF-8. -/
def utf8 (text : String) : List UInt8 :=
  text.toUTF8.data.toList

/-- The byte of a digit in ASCII. -/
def IsDigit (byte : UInt8) : Prop :=
  (Char.ofUInt8 byte).isHexDigit = true

instance (byte : UInt8) : Decidable (IsDigit byte) :=
  inferInstanceAs (Decidable (_ = true))

/-- The character of a byte as a small letter. -/
def letter (byte : UInt8) : Char :=
  (Char.ofUInt8 byte).toLower

/-- White space is put into a word anywhere. -/
inductive Spaced : List Char → List Char → Prop where
  | done : Spaced [] []
  | keep (c : Char) {word text : List Char} (h : Spaced word text) : Spaced (c :: word) (c :: text)
  | blank {c : Char} (hc : Text.isBlank c = true) {word text : List Char} (h : Spaced word text) :
    Spaced word (c :: text)

theorem utf8_eq_flatMap (text : String) :
    utf8 text = text.toList.flatMap String.utf8EncodeChar := by
  conv_lhs => rw [← String.ofList_toList (s := text)]
  rw [utf8, String.toUTF8_eq_toByteArray]
  exact congrArg Array.toList List.data_toByteArray

theorem significant_eq_utf8 (text : String) : significant text = utf8 (bare text) := by
  rw [utf8_eq_flatMap, bare, String.toList_ofList, significant]

theorem isDigit_iff : IsDigit byte ↔ ∃ value, value? byte = some value := by
  rw [IsDigit, ← Text.exists_stands_iff]
  constructor
  · rintro ⟨n, hn⟩
    have hlt : n < 16 := hn.1
    refine ⟨UInt8.ofNat n, value?_eq_some_iff.mpr ?_⟩
    rwa [UInt8.toNat_ofNat', Nat.mod_eq_of_lt (by omega)]
  · rintro ⟨value, hvalue⟩
    exact ⟨value.toNat, value?_eq_some_iff.mp hvalue⟩

theorem IsDigit.lt (h : IsDigit byte) : byte.toNat < 0x80 := by
  have hcode := Text.isHexDigit_iff.mp h
  rw [toNat_ofUInt8] at hcode
  omega

theorem digitAt_of_value (h : value? byte = some value) : digitAt position byte = .ok value := by
  rw [digitAt, h]

theorem digitAt_of_isDigit (position : Nat) (h : IsDigit byte) :
    ∃ value, digitAt position byte = .ok value :=
  (isDigit_iff.mp h).imp fun _ => digitAt_of_value

theorem digitAt_of_not_isDigit (h : ¬IsDigit byte) :
    digitAt position byte = .error (.badByte byte position) := by
  rw [isDigit_iff] at h
  cases hv : value? byte with
  | none => rw [digitAt, hv]
  | some value => exact absurd ⟨value, hv⟩ h

theorem decodePairs_of_not_isDigit (hf : ∀ digit ∈ front, IsDigit digit) (hb : ¬IsDigit byte)
    (he : Even (front ++ byte :: rest).length) :
    decodePairs position (front ++ byte :: rest) =
      .error (.badByte byte (position + front.length)) := by
  -- The bytes are read in pairs, so that the bad one is the first or the second of its pair.
  induction front using List.twoStepInduction generalizing position with
  | nil =>
    cases rest with
    | nil => simp at he
    | cons low rest =>
      rw [List.nil_append, decodePairs, digitAt_of_not_isDigit hb]
      rfl
  | singleton high =>
    obtain ⟨h, hh⟩ := digitAt_of_isDigit position (hf high (by simp))
    rw [List.cons_append, List.nil_append, decodePairs, hh, digitAt_of_not_isDigit hb]
    rfl
  | cons_cons high low front ih _ =>
    obtain ⟨h, hh⟩ := digitAt_of_isDigit position (hf high (by simp))
    obtain ⟨l, hl⟩ := digitAt_of_isDigit (position + 1) (hf low (by simp))
    have hrest : Even (front ++ byte :: rest).length := by
      simp only [List.cons_append, List.length_cons] at he
      rw [Nat.even_iff] at he ⊢
      omega
    have hlater : decodePairs (position + 2) (front ++ byte :: rest) =
        .error (.badByte byte (position + 2 + front.length)) :=
      ih (fun digit hd => hf digit (by simp [hd])) hrest
    have hposition : position + 2 + front.length = position + (front.length + 1 + 1) := by omega
    rw [List.cons_append, List.cons_append, decodePairs, hh, hl, hlater, hposition]
    rfl

theorem decodePairs_of_letters (h : octets.map letter = bytes.flatMap digits) :
    decodePairs position octets = .ok bytes := by
  induction bytes generalizing octets position with
  | nil =>
    obtain rfl : octets = [] := List.map_eq_nil_iff.mp h
    rfl
  | cons byte bytes ih =>
    have hlt := byte.toNat_lt
    rw [List.flatMap_cons, digits, List.cons_append, List.cons_append, List.nil_append] at h
    obtain ⟨high, others, rfl, hhigh, h⟩ := List.map_eq_cons_iff.mp h
    obtain ⟨low, others, rfl, hlow, h⟩ := List.map_eq_cons_iff.mp h
    have hh : value? high = some (byte / 16) := by
      rw [value?_eq_some_iff, UInt8.toNat_div]
      exact ⟨by simp only [UInt8.reduceToNat]; omega, hhigh⟩
    have hl : value? low = some (byte % 16) := by
      rw [value?_eq_some_iff, UInt8.toNat_mod]
      exact ⟨by simp only [UInt8.reduceToNat]; omega, hlow⟩
    have hbyte : byte / 16 * 16 + byte % 16 = byte := by
      rw [← UInt8.toNat_inj]
      simp only [UInt8.toNat_add, UInt8.toNat_mul, UInt8.toNat_div, UInt8.toNat_mod,
        UInt8.reduceToNat]
      omega
    rw [decodePairs, digitAt_of_value hh, digitAt_of_value hl, ih h]
    exact congrArg (fun first => Except.ok (first :: bytes)) hbyte

theorem exists_bytes_of_isDigit {octets : List UInt8} (he : Even octets.length)
    (hd : ∀ digit ∈ octets, IsDigit digit) :
    ∃ bytes : List UInt8, octets.map letter = bytes.flatMap digits := by
  induction octets using List.twoStepInduction with
  | nil => exact ⟨[], rfl⟩
  | singleton high => simp at he
  | cons_cons high low rest ih _ =>
    obtain ⟨h, hh, hhigh⟩ := Text.exists_stands_iff.mpr (hd high (by simp))
    obtain ⟨l, hl, hlow⟩ := Text.exists_stands_iff.mpr (hd low (by simp))
    have hrest : Even rest.length := by
      simp only [List.length_cons] at he
      rw [Nat.even_iff] at he ⊢
      omega
    obtain ⟨bytes, hbytes⟩ := ih hrest fun digit hm => hd digit (by simp [hm])
    have hbyte : (UInt8.ofNat (h * 16 + l)).toNat = h * 16 + l := by
      rw [UInt8.toNat_ofNat']
      omega
    have hhalf : (h * 16 + l) / 16 = h ∧ (h * 16 + l) % 16 = l := by omega
    refine ⟨UInt8.ofNat (h * 16 + l) :: bytes, ?_⟩
    rw [List.map_cons, List.map_cons, hbytes, List.flatMap_cons, digits, hbyte, hhalf.1, hhalf.2,
      letter, hhigh, letter, hlow]
    rfl

theorem length_flatMap_digits (bytes : List UInt8) :
    (bytes.flatMap digits).length = 2 * bytes.length := by
  induction bytes with
  | nil => rfl
  | cons byte bytes ih =>
    rw [List.flatMap_cons, List.length_append, ih]
    simp only [digits, List.length_cons, List.length_nil]
    omega

theorem isHexDigit_of_mem_digits {c : Char} (h : c.toLower ∈ bytes.flatMap digits) :
    c.isHexDigit = true := by
  obtain ⟨byte, -, hm⟩ := List.mem_flatMap.mp h
  have hlt := byte.toNat_lt
  simp only [digits, List.mem_cons, List.not_mem_nil, or_false] at hm
  rcases hm with hm | hm
  · exact Text.exists_stands_iff.mp ⟨byte.toNat / 16, by omega, hm⟩
  · exact Text.exists_stands_iff.mp ⟨byte.toNat % 16, by omega, hm⟩

theorem isDigit_of_letters (h : octets.map letter = bytes.flatMap digits) :
    Even octets.length ∧ ∀ digit ∈ octets, IsDigit digit := by
  have hlength := congrArg List.length h
  rw [List.length_map, length_flatMap_digits] at hlength
  refine ⟨Nat.even_iff.mpr (by omega), fun digit hd => ?_⟩
  have hm : letter digit ∈ bytes.flatMap digits := h ▸ List.mem_map_of_mem hd
  exact isHexDigit_of_mem_digits hm

theorem exists_not_isDigit {octets : List UInt8} (h : ¬∀ digit ∈ octets, IsDigit digit) :
    ∃ front byte rest, octets = front ++ byte :: rest ∧ (∀ digit ∈ front, IsDigit digit) ∧
      ¬IsDigit byte := by
  cases hfind : octets.find? (fun digit => !decide (IsDigit digit)) with
  | none =>
    rw [List.find?_eq_none] at hfind
    exact absurd (fun digit hd => by simpa using hfind digit hd) h
  | some byte =>
    obtain ⟨hbyte, front, rest, heq, hfront⟩ := List.find?_eq_some_iff_append.mp hfind
    exact ⟨front, byte, rest, heq, fun digit hd => by simpa using hfront digit hd,
      by simpa using hbyte⟩

theorem decode_of_odd (h : ¬Even octets.length) : decode octets = .error .oddLength := by
  rw [decode, if_pos (Nat.not_even_iff.mp h)]

theorem decode_of_even (h : Even octets.length) : decode octets = decodePairs 0 octets := by
  rw [decode, if_neg (by rw [Nat.even_iff] at h; omega)]

theorem decode_of_not_isDigit (hf : ∀ digit ∈ front, IsDigit digit) (hb : ¬IsDigit byte)
    (he : Even (front ++ byte :: rest).length) :
    decode (front ++ byte :: rest) = .error (.badByte byte front.length) := by
  rw [decode_of_even he, decodePairs_of_not_isDigit hf hb he, Nat.zero_add]

theorem decode_eq_ok_iff : decode octets = .ok bytes ↔ octets.map letter = bytes.flatMap digits := by
  constructor
  · intro h
    by_cases he : Even octets.length
    · by_cases hd : ∀ digit ∈ octets, IsDigit digit
      · obtain ⟨found, hfound⟩ := exists_bytes_of_isDigit he hd
        rw [decode_of_even he, decodePairs_of_letters hfound] at h
        cases h
        exact hfound
      · obtain ⟨front, byte, rest, rfl, hf, hb⟩ := exists_not_isDigit hd
        rw [decode_of_not_isDigit hf hb he] at h
        cases h
    · rw [decode_of_odd he] at h
      cases h
  · intro h
    rw [decode_of_even (isDigit_of_letters h).1, decodePairs_of_letters h]

theorem exists_decode_iff : (∃ bytes, decode octets = .ok bytes) ↔
    Even octets.length ∧ ∀ digit ∈ octets, IsDigit digit := by
  simp only [decode_eq_ok_iff]
  constructor
  · rintro ⟨bytes, h⟩
    exact isDigit_of_letters h
  · rintro ⟨he, hd⟩
    exact exists_bytes_of_isDigit he hd

theorem decode_eq_oddLength_iff : decode octets = .error .oddLength ↔ ¬Even octets.length := by
  refine ⟨fun h he => ?_, decode_of_odd⟩
  by_cases hd : ∀ digit ∈ octets, IsDigit digit
  · obtain ⟨bytes, hbytes⟩ := exists_decode_iff.mpr ⟨he, hd⟩
    rw [hbytes] at h
    cases h
  · obtain ⟨front, byte, rest, rfl, hf, hb⟩ := exists_not_isDigit hd
    rw [decode_of_not_isDigit hf hb he] at h
    cases h

theorem decode_eq_badByte_iff : decode octets = .error (.badByte byte position) ↔
    Even octets.length ∧ ∃ front rest, octets = front ++ byte :: rest ∧
      (∀ digit ∈ front, IsDigit digit) ∧ ¬IsDigit byte ∧ front.length = position := by
  constructor
  · intro h
    have he : Even octets.length := by
      by_contra hodd
      rw [decode_of_odd hodd] at h
      cases h
    have hd : ¬∀ digit ∈ octets, IsDigit digit := by
      intro hd
      obtain ⟨bytes, hbytes⟩ := exists_decode_iff.mpr ⟨he, hd⟩
      rw [hbytes] at h
      cases h
    obtain ⟨front, bad, rest, rfl, hf, hb⟩ := exists_not_isDigit hd
    rw [decode_of_not_isDigit hf hb he] at h
    cases h
    exact ⟨he, front, rest, rfl, hf, hb, rfl⟩
  · rintro ⟨he, front, rest, rfl, hf, hb, rfl⟩
    exact decode_of_not_isDigit hf hb he

theorem utf8EncodeChar_of_lt {c : Char} (h : c.toNat < 0x80) :
    String.utf8EncodeChar c = [UInt8.ofNat c.toNat] := by
  have hval : c.val.toNat = c.toNat := rfl
  unfold String.utf8EncodeChar
  exact if_pos (by omega)

theorem exists_mem_utf8EncodeChar {c : Char} (h : ¬c.toNat < 0x80) :
    ∃ byte ∈ String.utf8EncodeChar c, 0x80 ≤ byte.toNat := by
  have hval : c.val.toNat = c.toNat := rfl
  unfold String.utf8EncodeChar
  dsimp only
  rw [if_neg (by omega)]
  split
  · refine ⟨_, List.mem_cons_self, ?_⟩
    rw [UInt8.toNat_ofNat']
    omega
  · split
    · refine ⟨_, List.mem_cons_self, ?_⟩
      rw [UInt8.toNat_ofNat']
      omega
    · refine ⟨_, List.mem_cons_self, ?_⟩
      rw [UInt8.toNat_ofNat']
      omega

theorem lt_of_utf8 (h : ∀ byte ∈ utf8 text, byte.toNat < 0x80) :
    ∀ c ∈ text.toList, c.toNat < 0x80 := by
  intro c hc
  by_contra hfar
  obtain ⟨byte, hm, hbyte⟩ := exists_mem_utf8EncodeChar hfar
  have hlt := h byte (by rw [utf8_eq_flatMap]; exact List.mem_flatMap.mpr ⟨c, hc, hm⟩)
  omega

/-- A text of ASCII has one byte for each character. -/
theorem map_ofUInt8_utf8 (h : ∀ c ∈ text.toList, c.toNat < 0x80) :
    (utf8 text).map Char.ofUInt8 = text.toList := by
  rw [utf8_eq_flatMap]
  revert h
  generalize text.toList = chars
  intro h
  induction chars with
  | nil => rfl
  | cons c rest ih =>
    have hc := h c (by simp)
    have hchar : Char.ofUInt8 (UInt8.ofNat c.toNat) = c := by
      rw [← Char.toNat_inj, toNat_ofUInt8, UInt8.toNat_ofNat']
      omega
    rw [List.flatMap_cons, List.map_append, ih fun d hd => h d (by simp [hd]),
      utf8EncodeChar_of_lt hc, List.map_singleton, hchar]
    rfl

theorem toList_toLower (text : String) : text.toLower.toList = text.toList.map Char.toLower :=
  String.toList_map

theorem map_letter_utf8 (h : ∀ c ∈ text.toList, c.toNat < 0x80) :
    (utf8 text).map letter = text.toLower.toList := by
  rw [toList_toLower, ← map_ofUInt8_utf8 h, List.map_map]
  rfl

theorem isHexDigit_of_toLower (h : encode bytes = text.toLower) :
    ∀ c ∈ text.toList, c.isHexDigit = true := by
  intro c hc
  have hm : c.toLower ∈ bytes.flatMap digits := by
    rw [← String.toList_ofList (l := bytes.flatMap digits), ← encode, h, toList_toLower]
    exact List.mem_map_of_mem hc
  exact isHexDigit_of_mem_digits hm

theorem letters_iff : (utf8 text).map letter = bytes.flatMap digits ↔
    encode bytes = text.toLower := by
  have hlists : encode bytes = text.toLower ↔ bytes.flatMap digits = text.toLower.toList := by
    rw [encode, ← String.toList_inj, String.toList_ofList]
  constructor
  · intro h
    have hascii := lt_of_utf8 fun byte hb => ((isDigit_of_letters h).2 byte hb).lt
    rw [hlists, ← map_letter_utf8 hascii, h]
  · intro h
    have hascii : ∀ c ∈ text.toList, c.toNat < 0x80 := by
      intro c hc
      have hcode := Text.isHexDigit_iff.mp (isHexDigit_of_toLower h c hc)
      omega
    rw [map_letter_utf8 hascii, hlists.mp h]

theorem parse_eq_ok_iff : parse text = .ok bytes ↔ encode bytes = (bare text).toLower := by
  rw [parse, significant_eq_utf8, decode_eq_ok_iff, letters_iff]

theorem Spaced.filter_eq {word text : List Char} (h : Spaced word text) :
    text.filter (!Text.isBlank ·) = word.filter (!Text.isBlank ·) := by
  induction h with
  | done => rfl
  | keep c _ ih => rw [List.filter_cons, List.filter_cons, ih]
  | blank hc _ ih => rw [List.filter_cons, hc, ih]; rfl

/-- White space in any place is gone from a word that has none itself. -/
theorem bare_of_spaced {word : String} (hw : ∀ c ∈ word.toList, c.isHexDigit = true)
    (h : Spaced word.toList text.toList) : bare text = word := by
  have hseen : ∀ c ∈ word.toList, (!Text.isBlank c) = true := by
    intro c hc
    have hcode := Text.isHexDigit_iff.mp (hw c hc)
    rw [Text.isBlank_of_seen (by omega) (by omega)]
    rfl
  rw [bare, h.filter_eq, List.filter_eq_self.mpr hseen, String.ofList_toList]

/-- What comes of a text that is read as a byte string. -/
structure ReadsBytes (text : String) : Prop where
  accepted_iff : (∃ bytes, parse text = .ok bytes) ↔
    Even (utf8 (bare text)).length ∧ ∀ byte ∈ utf8 (bare text), IsDigit byte
  ok_iff : ∀ bytes, parse text = .ok bytes ↔ encode bytes = (bare text).toLower
  odd_iff : parse text = .error .oddLength ↔ ¬Even (utf8 (bare text)).length
  /-- The fault is the first byte that is no digit, and the number of bytes before it. -/
  badByte_iff : ∀ byte position, parse text = .error (.badByte byte position) ↔
    Even (utf8 (bare text)).length ∧ ∃ front rest, utf8 (bare text) = front ++ byte :: rest ∧
      (∀ digit ∈ front, IsDigit digit) ∧ ¬IsDigit byte ∧ front.length = position
  spaced : ∀ bytes (word : String), word.toLower = encode bytes → Spaced word.toList text.toList →
    parse text = .ok bytes
  /-- What the command line takes, and what it says of the rest. -/
  taken_iff : ∀ place bytes,
    bytesArgument place text = .ok bytes ↔ encode bytes = (bare text).toLower
  odd_reason : ¬Even (utf8 (bare text)).length → ∀ place, bytesArgument place text =
    .error (.invalidValue text place ("invalid hex '" ++ text ++ "': " ++ "Odd number of digits"))
  badByte_reason : ∀ front byte rest, Even (utf8 (bare text)).length →
    utf8 (bare text) = front ++ byte :: rest → (∀ digit ∈ front, IsDigit digit) →
      ¬IsDigit byte → ∀ place, bytesArgument place text =
        .error (.invalidValue text place ("invalid hex '" ++ text ++ "': " ++
          ("Invalid character " ++ quoted byte ++ (" at position " ++ toString front.length))))

theorem readsBytes_of_text (text : String) : ReadsBytes text := by
  have hparse : parse text = decode (utf8 (bare text)) := by rw [parse, significant_eq_utf8]
  have hodd : parse text = .error .oddLength ↔ ¬Even (utf8 (bare text)).length := by
    rw [hparse, decode_eq_oddLength_iff]
  constructor
  case accepted_iff => rw [hparse, exists_decode_iff]
  case ok_iff => exact fun bytes => parse_eq_ok_iff
  case odd_iff => exact hodd
  case badByte_iff =>
    intro byte position
    rw [hparse, decode_eq_badByte_iff]
  case spaced =>
    intro bytes word hword hspaced
    have hbare := bare_of_spaced (isHexDigit_of_toLower hword.symm) hspaced
    rw [parse_eq_ok_iff, hbare, hword]
  case taken_iff =>
    intro place bytes
    rw [← parse_eq_ok_iff, bytesArgument]
    cases parse text <;> simp
  case odd_reason =>
    intro h place
    rw [bytesArgument, hodd.mpr h]
    rfl
  case badByte_reason =>
    intro front byte rest he htext hf hb place
    have hfault : parse text = .error (.badByte byte front.length) := by
      rw [hparse, htext]
      exact decode_of_not_isDigit hf hb (htext ▸ he)
    rw [bytesArgument, hfault]
    rfl

/-- White space of any kind may part the digits of a byte, and a character beyond ASCII counts for
as many bytes as it has in UTF-8. -/
theorem readsBytes_of_spread : parse "0 1\u2003aF" = .ok [0x01, 0xAF] ∧
    parse "0é1" = .error (.badByte 0xC3 1) ∧ parse "é1" = .error .oddLength := by
  have hspread : Spaced ['0', '1', 'a', 'F'] "0 1\u2003aF".toList :=
    .keep '0' (.blank rfl (.keep '1' (.blank rfl (.keep 'a' (.keep 'F' .done)))))
  have hlower : "01aF".toLower = encode [0x01, 0xAF] := by
    rw [← String.toList_inj, toList_toLower]
    rfl
  have hfirst : utf8 (bare "0é1") = [0x30] ++ 0xC3 :: [0xA9, 0x31] := by decide
  have heven : Even (utf8 (bare "0é1")).length := by
    rw [hfirst]
    exact Nat.even_iff.mpr rfl
  have hodd : utf8 (bare "é1") = [0xC3, 0xA9, 0x31] := by decide
  exact ⟨(readsBytes_of_text _).spaced _ "01aF" hlower hspread,
    ((readsBytes_of_text _).badByte_iff 0xC3 1).mpr
      ⟨heven, [0x30], [0xA9, 0x31], hfirst, List.forall_mem_singleton.mpr rfl, by decide, rfl⟩,
    (readsBytes_of_text _).odd_iff.mpr (by rw [hodd]; exact Nat.not_even_iff.mpr rfl)⟩

end FlashRing.HexBytes
