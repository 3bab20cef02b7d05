import Mathlib
import NebularOs.PercentCoding

/-!
# Blob filenames

An object key becomes the filename of its blob by one of two schemes. The
plain scheme escapes the slash and the percent sign only. The portable scheme,
for filesystems that ignore case, keeps lowercase letters, digits and harmless
punctuation and escapes every other byte of the key's UTF-8 form. Both are
spellings of the key's bytes, so a filename determines its key, whichever of
the two schemes wrote it.
-/

namespace NebularOs.BlobFilenames

open PercentCoding List

/-- Text as the source's strings hold it: a sequence of Unicode scalars. -/
abbrev Text := List Char

/-- The bytes of a text, as `as_bytes` returns them. -/
def utf8 (text : Text) : List UInt8 :=
  text.flatMap String.utf8EncodeChar

/-- Filename scheme of every release: the slash and the percent sign are
escaped, every other character is kept. -/
def encodePlain (key : Text) : Text :=
  key.flatMap fun ch =>
    if ch = '/' then ['%', '2', 'F']
    else if ch = '%' then ['%', '2', '5']
    else [ch]

/-- Reserved device names of Windows, with any extension and in any case. -/
def isWindowsDeviceName (key : Text) : Bool :=
  let stem := (key.takeWhile (· ≠ '.')).map Char.toUpper
  (stem == "CON".toList || stem == "PRN".toList || stem == "AUX".toList ||
      stem == "NUL".toList) ||
    (("COM".toList.isPrefixOf stem || "LPT".toList.isPrefixOf stem) &&
      (utf8 stem).length==4 &&
      ((utf8 stem)[3]?.any fun b => 0x30≤b ∧ b≤0x39))

/-- Punctuation the portable scheme keeps. -/
def harmlessPunctuation : List UInt8 :=
  utf8 " -_.()[]\x7b\x7d+,;=@!#$&'~^`".toList

/-- Bytes the portable scheme may keep: lowercase letters, digits and
harmless punctuation. -/
def isPortableByte (b : UInt8) : Bool :=
  (0x61≤b && b≤0x7A) || (0x30≤b && b≤0x39) || harmlessPunctuation.contains b

/-- One byte of a portable filename, from its position, the length of the key
and whether the key is a reserved device name. -/
def encodePortableByte (reserved : Bool) (length : ℕ) (b : UInt8) (i : ℕ) : Text :=
  let trailing := i+1==length && (b==0x2E || b==0x20)
  let keep := !(trailing || (i==0 && reserved)) && isPortableByte b
  if keep then [Char.ofNat b.toNat]
  else (escapeByte b).map fun digit => Char.ofNat digit.toNat

/-- Filename that keys differing only in case cannot share: portable bytes are
kept, except a trailing dot or space and the first byte of a device name. -/
def encodePortable (key : Text) : Text :=
  let bytes := utf8 key
  let reserved := isWindowsDeviceName key
  bytes.zipIdx.flatMap fun entry => encodePortableByte reserved bytes.length entry.1 entry.2

/-- Filename of new blobs, by the scheme the data directory's filesystem
selected when the process started. -/
def encodeBlobFilename (portable : Bool) (key : Text) : Text :=
  if portable then encodePortable key else encodePlain key

theorem utf8_injective : Function.Injective utf8 := by
  intro first second h
  induction first generalizing second with
  | nil =>
    cases second with
    | nil => rfl
    | cons c second =>
      have hne := String.utf8EncodeChar_ne_nil (c := c)
      simp [utf8] at h
  | cons c first ih =>
    cases second with
    | nil => simp [utf8] at h
    | cons d second =>
      have hbytes : (c::first).utf8Encode=(d::second).utf8Encode := by
        exact congrArg List.toByteArray h
      have hhead : some c=some d := by
        rw [← List.utf8DecodeChar?_utf8Encode_cons (l := first),hbytes,
          List.utf8DecodeChar?_utf8Encode_cons]
      cases hhead
      have htail : utf8 first=utf8 second := by
        simpa only [utf8,flatMap_cons,append_cancel_left_eq] using h
      rw [ih htail]

theorem utf8_append (first second : Text) : utf8 (first++second)=utf8 first++utf8 second :=
  flatMap_append

theorem ne_percentSign_of_mem_utf8EncodeChar {c : Char} (h : c ≠ '%') {b : UInt8}
    (hb : b∈String.utf8EncodeChar c) : b≠percentSign := by
  have hv : c.toNat≠0x25 := fun heq => h (Char.ext (UInt32.toNat_inj.mp heq))
  rintro rfl
  unfold String.utf8EncodeChar at hb
  dsimp only at hb
  split_ifs at hb with h₁ h₂ h₃ <;>
    simp [percentSign,← UInt8.toNat_inj] at hb h₁ <;> omega

theorem isPortableByte_spec {b : UInt8} (h : isPortableByte b=true) :
    b≠percentSign ∧ b.toNat<0x80 := by
  have hall : ∀ n : Fin 256,isPortableByte (UInt8.ofNat n.val)=true →
      UInt8.ofNat n.val≠percentSign ∧ n.val<0x80 := by decide +kernel
  have hb := hall ⟨b.toNat,b.toNat_lt⟩
  rw [UInt8.ofNat_toNat] at hb
  exact hb h

theorem utf8EncodeChar_ofNat {b : UInt8} (h : b.toNat<0x80) :
    String.utf8EncodeChar (Char.ofNat b.toNat)=[b] := by
  have hall : ∀ n : Fin 128,
      String.utf8EncodeChar (Char.ofNat n.val)=[UInt8.ofNat n.val] := by decide +kernel
  have hb := hall ⟨b.toNat,h⟩
  rwa [UInt8.ofNat_toNat] at hb

theorem utf8_escapeByte (b : UInt8) :
    utf8 ((escapeByte b).map fun digit => Char.ofNat digit.toNat)=escapeByte b := by
  have hall : ∀ n : Fin 256,
      utf8 ((escapeByte (UInt8.ofNat n.val)).map fun digit => Char.ofNat digit.toNat)=
        escapeByte (UInt8.ofNat n.val) := by decide +kernel
  have hb := hall ⟨b.toNat,b.toNat_lt⟩
  rwa [UInt8.ofNat_toNat] at hb

theorem spells_encodePlain_char (ch : Char) :
    Spells (String.utf8EncodeChar ch) (utf8 (if ch = '/' then ['%', '2', 'F']
      else if ch = '%' then ['%', '2', '5'] else [ch])) := by
  by_cases hslash : ch = '/'
  · subst hslash
    have hescape : utf8 ['%', '2', 'F']=escapeByte 0x2F++[] := by decide
    rw [if_pos rfl,hescape]
    exact Spells.cons SpellsByte.escaped Spells.nil
  · rw [if_neg hslash]
    by_cases hpercent : ch = '%'
    · subst hpercent
      have hescape : utf8 ['%', '2', '5']=escapeByte percentSign++[] := by decide
      rw [if_pos rfl,hescape]
      exact Spells.cons SpellsByte.escaped Spells.nil
    · rw [if_neg hpercent]
      have hself : utf8 [ch]=String.utf8EncodeChar ch := by simp [utf8]
      rw [hself]
      exact spells_self fun b hb => ne_percentSign_of_mem_utf8EncodeChar hpercent hb

theorem spells_encodePlain (key : Text) : Spells (utf8 key) (utf8 (encodePlain key)) := by
  induction key with
  | nil => exact Spells.nil
  | cons ch key ih =>
    have hsplit : encodePlain (ch::key)=(if ch = '/' then ['%', '2', 'F']
        else if ch = '%' then ['%', '2', '5'] else [ch])++encodePlain key := rfl
    rw [hsplit,utf8_append]
    exact (spells_encodePlain_char ch).append ih

theorem spellsByte_encodePortableByte (reserved : Bool) (length : ℕ) (b : UInt8) (i : ℕ) :
    SpellsByte b (utf8 (encodePortableByte reserved length b i)) := by
  unfold encodePortableByte
  dsimp only
  split_ifs with hkeep
  · obtain ⟨hpercent,hascii⟩ := isPortableByte_spec (Bool.and_eq_true_iff.mp hkeep).2
    have hself : utf8 [Char.ofNat b.toNat]=[b] := by
      simpa [utf8] using utf8EncodeChar_ofNat hascii
    rw [hself]
    exact SpellsByte.literal hpercent
  · rw [utf8_escapeByte]
    exact SpellsByte.escaped

theorem spells_encodePortable (key : Text) : Spells (utf8 key) (utf8 (encodePortable key)) := by
  have hall : ∀ (bytes : List UInt8) (start : ℕ),
      Spells bytes (utf8 ((bytes.zipIdx start).flatMap fun entry =>
        encodePortableByte (isWindowsDeviceName key) (utf8 key).length entry.1 entry.2)) := by
    intro bytes
    induction bytes with
    | nil => exact fun _ => Spells.nil
    | cons b bytes ih =>
      intro start
      rw [zipIdx_cons,flatMap_cons,utf8_append]
      exact Spells.cons (spellsByte_encodePortableByte _ _ b start) (ih (start+1))
  exact hall (utf8 key) 0

/-- Filenames that a key may have been stored under, by either scheme. -/
def FlatName (key name : Text) : Prop :=
  name=encodePlain key ∨ name=encodePortable key

theorem FlatName.spells {key name : Text} (h : FlatName key name) :
    Spells (utf8 key) (utf8 name) := by
  rcases h with rfl | rfl
  · exact spells_encodePlain key
  · exact spells_encodePortable key

theorem FlatName.unique {key₁ key₂ name : Text} (h₁ : FlatName key₁ name)
    (h₂ : FlatName key₂ name) : key₁=key₂ :=
  utf8_injective (h₁.spells.unique h₂.spells)

end NebularOs.BlobFilenames
