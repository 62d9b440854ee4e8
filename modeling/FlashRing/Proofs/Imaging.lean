import FlashRing.Device.Image
import FlashRing.Proofs.Agreement

/-!
An image file whose bytes are those of words in memory. Main statement: reading, programming and
erasing do the same to both, whatever is asked, so that the file stays the encoding of the words.
-/

namespace FlashRing

namespace Word

theorem getElem?_flatMap_toBytes (words : List UInt32) (i : Nat) :
    (words.flatMap toBytes)[i]? = words[i / 4]?.bind fun word => (toBytes word)[i % 4]? := by
  induction words generalizing i with
  | nil => rfl
  | cons word rest ih =>
    rw [List.flatMap_cons]
    rcases Nat.lt_or_ge i 4 with h | h
    · rw [List.getElem?_append_left (by rwa [length_toBytes]), Nat.div_eq_of_lt h,
        Nat.mod_eq_of_lt h]
      rfl
    · rw [List.getElem?_append_right (by rwa [length_toBytes]), length_toBytes, ih,
        show i / 4 = (i - 4) / 4 + 1 by omega, show (i - 4) % 4 = i % 4 by omega]
      rfl

theorem length_flatMap_toBytes (words : List UInt32) :
    (words.flatMap toBytes).length = 4 * words.length := by
  induction words with
  | nil => rfl
  | cons word rest ih =>
    rw [List.flatMap_cons, List.length_append, length_toBytes, ih, List.length_cons]
    omega

theorem flatMap_toBytes_replicate (count : Nat) :
    (List.replicate count erasedWord).flatMap toBytes = List.replicate (4 * count) 0xFF := by
  induction count with
  | zero => rfl
  | succ count ih =>
    rw [List.replicate_succ, List.flatMap_cons, ih, show 4 * (count + 1) = 4 + 4 * count by omega,
      List.replicate_add]
    rfl

theorem toBytes_ofBytes (b₀ b₁ b₂ b₃ : UInt8) :
    toBytes (ofBytes b₀ b₁ b₂ b₃) = [b₀, b₁, b₂, b₃] := by
  have h₀ := b₀.toNat_lt
  have h₁ := b₁.toNat_lt
  have h₂ := b₂.toNat_lt
  have h₃ := b₃.toNat_lt
  have hbyte : ∀ (shift : UInt32) (n : Nat) (b : UInt8), shift.toNat % 32 = n →
      (ofBytes b₀ b₁ b₂ b₃).toNat / 2 ^ n % 256 = b.toNat →
      ((ofBytes b₀ b₁ b₂ b₃) >>> shift).toUInt8 = b := by
    intro shift n b hn hb
    apply UInt8.toNat_inj.mp
    rw [UInt32.toNat_toUInt8, UInt32.toNat_shiftRight, hn, Nat.shiftRight_eq_div_pow, ← hb]
  have hword := toNat_ofBytes b₀ b₁ b₂ b₃
  have hzero : (ofBytes b₀ b₁ b₂ b₃).toUInt8 = b₀ := by
    apply UInt8.toNat_inj.mp
    rw [UInt32.toNat_toUInt8]
    omega
  rw [toBytes, hzero, hbyte 8 8 b₁ rfl (by omega), hbyte 16 16 b₂ rfl (by omega),
    hbyte 24 24 b₃ rfl (by omega)]

end Word

namespace FileContent

/-- The bytes of words, one word after the other. -/
def encode (words : Array UInt32) : FileContent :=
  (words.toList.flatMap Word.toBytes).toArray

@[simp] theorem size_encode (words : Array UInt32) : (encode words).size = 4 * words.size := by
  rw [encode, List.size_toArray, Word.length_flatMap_toBytes, Array.length_toList]

theorem getElem?_encode (words : Array UInt32) (i : Nat) :
    (encode words)[i]? = words[i / 4]?.bind fun word => (Word.toBytes word)[i % 4]? := by
  rw [encode, List.getElem?_toArray, Word.getElem?_flatMap_toBytes, Array.getElem?_toList]

theorem word?_encode {words : Array UInt32} {address : Nat} (h : address < words.size) :
    (encode words).word? address = some words[address] := by
  have hs : 4 * address + 4 ≤ (encode words).size := by
    rw [size_encode]
    omega
  have hbyte : ∀ n (_ : n < 4) (hb : 4 * address + n < (encode words).size),
      some (encode words)[4 * address + n] = (Word.toBytes words[address])[n]? := by
    intro n hn hb
    rw [← Array.getElem?_eq_getElem, getElem?_encode, show (4 * address + n) / 4 = address by omega,
      show (4 * address + n) % 4 = n by omega, Array.getElem?_eq_getElem h, Option.bind_some]
  have h₀ : (encode words)[4 * address] = _ := Option.some.inj (hbyte 0 (by decide) (by omega))
  have h₁ : (encode words)[4 * address + 1] = _ := Option.some.inj (hbyte 1 (by decide) (by omega))
  have h₂ : (encode words)[4 * address + 2] = _ := Option.some.inj (hbyte 2 (by decide) (by omega))
  have h₃ : (encode words)[4 * address + 3] = _ := Option.some.inj (hbyte 3 (by decide) (by omega))
  rw [word?, dif_pos hs, h₀, h₁, h₂, h₃]
  exact congrArg some (Word.ofBytes_toBytes words[address])

theorem wordsFrom?_encode {words : Array UInt32} {address count : Nat}
    (h : address + count ≤ words.size) :
    Image.wordsFrom? (encode words) address count =
      some ((words.toList.drop address).take count) := by
  induction count generalizing address with
  | zero => rw [Image.wordsFrom?, List.take_zero]
  | succ count ih =>
    have hlt : address < words.size := by omega
    have hl : address < words.toList.length := by rwa [Array.length_toList]
    rw [Image.wordsFrom?, word?_encode hlt, ih (by omega), List.drop_eq_getElem_cons hl,
      List.take_succ_cons]
    rfl

/-- Writing the bytes of words over the bytes of others writes the words. -/
theorem overwrite_encode {words changed : Array UInt32} {address : Nat} {values : List UInt32}
    (h : address + values.length ≤ words.size)
    (hc : ∀ i : Nat, changed[i]? =
      if address ≤ i ∧ i < address + values.length then values[i - address]? else words[i]?) :
    (encode words).overwrite (4 * address) (values.flatMap Word.toBytes) = encode changed := by
  apply Array.ext_getElem?
  intro i
  have hl := Word.length_flatMap_toBytes values
  rw [getElem?_overwrite (by rw [hl, size_encode]; omega), getElem?_encode changed, hc, hl]
  by_cases hi : address ≤ i / 4 ∧ i / 4 < address + values.length
  · rw [if_pos (by omega), if_pos hi, Word.getElem?_flatMap_toBytes,
      show (i - 4 * address) / 4 = i / 4 - address by omega,
      show (i - 4 * address) % 4 = i % 4 by omega]
  · rw [if_neg (by omega), if_neg hi, getElem?_encode]

theorem overwrite_program {words : Array UInt32} {address : Nat} {values : List UInt32}
    (h : address + values.length ≤ words.size) :
    (encode words).overwrite (4 * address)
        ((List.zipWith (· &&& ·) ((words.toList.drop address).take values.length)
          values).flatMap Word.toBytes) =
      encode (Memory.program words address values) := by
  have hl : (List.zipWith (· &&& ·) ((words.toList.drop address).take values.length)
      values).length = values.length := by
    simp only [List.length_zipWith, List.length_take, List.length_drop, Array.length_toList]
    omega
  apply overwrite_encode (by rwa [hl])
  intro i
  rw [hl, Memory.getElem?_program]
  split
  next hi =>
    have hv : i - address < values.length := by omega
    have hw : i < words.size := by omega
    have hi : address + (i - address) = i := by omega
    simp [List.getElem?_zipWith, hv, hw, hi]
  next => rfl

theorem overwrite_erase {words : Array UInt32} {address count : Nat}
    (h : address + count ≤ words.size) :
    (encode words).overwrite (4 * address) (List.replicate (4 * count) 0xFF) =
      encode (Memory.erase words address count) := by
  have hl : (List.replicate count erasedWord).length = count := List.length_replicate
  rw [← Word.flatMap_toBytes_replicate]
  apply overwrite_encode (by rwa [hl])
  intro i
  rw [hl, Memory.getElem?_erase, List.getElem?_replicate]
  by_cases hi : address ≤ i ∧ i < address + count
  · rw [if_pos hi, if_pos ⟨hi.1, hi.2, by omega⟩, if_pos (by omega)]
  · rw [if_neg hi, if_neg fun hc => hi ⟨hc.1, hc.2.1⟩]

theorem encode_replicate (count : Nat) :
    encode (Array.replicate count erasedWord) = erased count := by
  rw [encode, erased, Array.toList_replicate, Word.flatMap_toBytes_replicate,
    List.toArray_replicate]

/-- The words of a file that holds so many. -/
def decode (content : FileContent) (count : Nat) : Array UInt32 :=
  Array.ofFn fun i : Fin count => (content.word? i).getD erasedWord

theorem size_decode (content : FileContent) (count : Nat) : (decode content count).size = count :=
  Array.size_ofFn

theorem encode_decode {content : FileContent} {count : Nat} (h : content.size = 4 * count) :
    encode (decode content count) = content := by
  -- Byte `r` of word `q`. Beyond the last word both files have ended.
  apply Array.ext_getElem?
  intro i
  obtain ⟨q, r, hr, rfl⟩ : ∃ q r, r < 4 ∧ i = 4 * q + r := ⟨i / 4, i % 4, by omega, by omega⟩
  rw [getElem?_encode, show (4 * q + r) / 4 = q by omega, show (4 * q + r) % 4 = r by omega]
  by_cases hq : q < count
  · have hword : content.word? q = some _ := dif_pos (show 4 * q + 4 ≤ content.size by omega)
    have hdecode : (decode content count)[q]? = some ((content.word? q).getD erasedWord) := by
      rw [decode, Array.getElem?_ofFn, dif_pos hq]
    rw [hdecode, hword, Option.getD_some, Option.bind_some, Word.toBytes_ofBytes,
      Array.getElem?_eq_getElem (show 4 * q + r < content.size by omega)]
    match r, hr with
    | 0, _ => rfl
    | 1, _ => rfl
    | 2, _ => rfl
    | 3, _ => rfl
  · have hs := size_decode content count
    rw [Array.getElem?_eq_none (by omega), Array.getElem?_eq_none (by omega)]
    rfl

end FileContent

/-- The failure as it reads where the words are kept elsewhere. -/
def Error.about (medium : Medium) : Error → Error
  | .blockDevice (.outOfRange _ first stop words) =>
    .blockDevice (.outOfRange medium first stop words)
  | .blockDevice (.noSuchPage _ page pages) => .blockDevice (.noSuchPage medium page pages)
  | e => e

theorem Error.about_of_not_isDeviceFailure {e : Error} (h : e.isDeviceFailure = false)
    (medium : Medium) : e.about medium = e := by
  cases e with
  | blockDevice fault => cases h
  | _ => rfl

namespace Ram

/-- The image file that holds the words. -/
def image (ram : Ram) : Image where
  geometry := ram.geometry
  content := .encode ram.words

@[simp] theorem geometry_image (ram : Ram) : ram.image.geometry = ram.geometry := rfl

theorem read_image (ram : Ram) (address : Nat) :
    Device.read ram.image address = (Device.read ram address).mapError (·.about .image) := by
  change ram.image.read address = (ram.read address).mapError _
  have hs := ram.size_words
  by_cases h : address < ram.geometry.totalWords
  · have hw : address < ram.words.size := by omega
    have hr : ¬ram.image.geometry.totalWords < address + 1 := Nat.not_lt.mpr h
    rw [Image.read, if_neg hr, Ram.read, dif_pos hw,
      show ram.image.content.word? address = _ from FileContent.word?_encode hw]
    rfl
  · have hr : ram.image.geometry.totalWords < address + 1 := by
      change ram.geometry.totalWords < address + 1
      omega
    rw [Image.read, if_pos hr, Ram.read, dif_neg (by omega)]
    rfl

end Ram

/-- A change of the memory and one of the file that succeed together and leave corresponding
contents, or that are both refused and leave all as it was. -/
def Mirrors (change : EStateM Error Ram Unit) (mirror : EStateM Error Image Unit) : Prop :=
  ∀ ram : Ram, ram.power = .steady →
    (∃ after, change ram = .ok () after ∧ mirror ram.image = .ok () after.image ∧
      after.geometry = ram.geometry ∧ after.power = .steady) ∨
    (∃ e, change ram = .error e ram ∧ mirror ram.image = .error (e.about .image) ram.image)

namespace Mirrors

theorem run_ok {change : EStateM Error Ram Unit} {mirror : EStateM Error Image Unit}
    {ram after : Ram} (h : Mirrors change mirror) (hp : ram.power = .steady)
    (hrun : change ram = .ok () after) : mirror ram.image = .ok () after.image := by
  rcases h ram hp with ⟨final, hok, himage, -⟩ | ⟨e, hfail, -⟩
  · rw [hrun] at hok
    cases hok
    exact himage
  · rw [hrun] at hfail
    cases hfail

theorem program (address : Nat) (values : List UInt32) :
    Mirrors (Device.program address values) (Device.program address values) := by
  intro ram hp
  obtain ⟨geometry, words, wear, mutations, power, hw, he⟩ := ram
  obtain rfl : power = .steady := hp
  by_cases h : geometry.totalWords < address + values.length
  · refine .inr ⟨geometry.outOfRange .ram address values.length, if_pos h, if_pos h⟩
  · have hstored : Image.wordsFrom? (.encode words) address values.length =
        some ((words.toList.drop address).take values.length) :=
      FileContent.wordsFrom?_encode (by omega)
    refine .inl ⟨_, if_neg h, (if_neg h).trans ?_, rfl, rfl⟩
    dsimp only [Ram.image]
    rw [hstored]
    exact congrArg (fun content => EStateM.Result.ok () (Image.mk geometry content))
      (FileContent.overwrite_program (by omega))

theorem erase (page : Nat) : Mirrors (Device.erase page) (Device.erase page) := by
  intro ram hp
  obtain ⟨geometry, words, wear, mutations, power, hw, he⟩ := ram
  obtain rfl : power = .steady := hp
  by_cases h : geometry.pageCount ≤ page
  · exact .inr ⟨geometry.noSuchPage .ram page, if_pos h, if_pos h⟩
  · have hend : geometry.pageAddress page + geometry.pageWords ≤ words.size :=
      hw ▸ Geometry.pageAddress_add_pageWords_le (Nat.lt_of_not_le h)
    refine .inl ⟨_, if_neg h, (if_neg h).trans ?_, rfl, rfl⟩
    exact congrArg (fun content => EStateM.Result.ok () (Image.mk geometry content))
      (FileContent.overwrite_erase hend)

end Mirrors

end FlashRing
