import Mathlib

/-!
# Percent coding of byte strings

A byte string may be written with some of its bytes replaced by a percent sign
and two hexadecimal digits. Different writers escape different bytes; one
reader undoes all of them. This file treats the reader and every possible
writer at once: a spelling escapes whichever bytes it likes, and must escape
the percent sign itself. Reading back a spelling gives the spelled bytes, so
two spellings that agree anywhere spell the same bytes.
-/

namespace PercentCoding

open List

/-- The percent sign, the only byte the reader treats specially. -/
def percentSign : UInt8 := 0x25

/-- Uppercase hexadecimal digit of a number below sixteen. -/
def upperHexDigit (n : ℕ) : UInt8 :=
  if n<10 then UInt8.ofNat (0x30+n) else UInt8.ofNat (0x41+(n-10))

/-- Value of one hexadecimal digit of either case. -/
def hexDigitValue (b : UInt8) : Option ℕ :=
  if 0x30≤b ∧ b≤0x39 then some (b.toNat-0x30)
  else if 0x41≤b ∧ b≤0x46 then some (b.toNat-0x41+10)
  else if 0x61≤b ∧ b≤0x66 then some (b.toNat-0x61+10)
  else none

/-- Two characters read as a byte in base sixteen. A plus sign is accepted in
front of a single digit, as integer parsers with an optional sign do. -/
def hexPair (b₁ b₂ : UInt8) : Option UInt8 :=
  match hexDigitValue b₂ with
  | none => none
  | some low =>
    if b₁=0x2B then some (UInt8.ofNat low)
    else match hexDigitValue b₁ with
      | none => none
      | some high => some (UInt8.ofNat (16*high+low))

/-- The escape of one byte: the percent sign and two uppercase digits. -/
def escapeByte (b : UInt8) : List UInt8 :=
  [percentSign,upperHexDigit (b.toNat/16),upperHexDigit (b.toNat%16)]

/-- Reader of escaped byte strings: a percent sign with two readable digits
becomes the byte they name, every other byte is kept. -/
def unescape : List UInt8 → List UInt8
  | [] => []
  | b::[] => [b]
  | b::b₁::[] => [b,b₁]
  | b::b₁::b₂::rest =>
    if b=percentSign then
      match hexPair b₁ b₂ with
      | some byte => byte::unescape rest
      | none => b::unescape (b₁::b₂::rest)
    else b::unescape (b₁::b₂::rest)

/-- One byte as a writer may spell it: itself, unless it is the percent sign,
or its escape. -/
inductive SpellsByte (b : UInt8) : List UInt8→Prop
  | literal (h : b≠percentSign) : SpellsByte b [b]
  | escaped : SpellsByte b (escapeByte b)

/-- A byte string spelled byte by byte. -/
inductive Spells : List UInt8 → List UInt8→Prop
  | nil : Spells [] []
  | cons {b : UInt8} {bytes spelledByte spelled : List UInt8}
      (head : SpellsByte b spelledByte) (tail : Spells bytes spelled) :
      Spells (b::bytes) (spelledByte++spelled)

theorem hexPair_escape (b : UInt8) :
    hexPair (upperHexDigit (b.toNat/16)) (upperHexDigit (b.toNat%16))=some b := by
  have hall : ∀ n : Fin 256,
      hexPair (upperHexDigit (n.val/16)) (upperHexDigit (n.val%16))=
        some (UInt8.ofNat n.val) := by decide +kernel
  have hb := hall ⟨b.toNat,b.toNat_lt⟩
  rwa [UInt8.ofNat_toNat] at hb

theorem unescape_literal {b : UInt8} (h : b≠percentSign) (rest : List UInt8) :
    unescape (b::rest)=b::unescape rest := by
  match rest with
  | [] => rfl
  | [_] => rfl
  | _::_::_ => rw [unescape,if_neg h]

theorem unescape_escapeByte (b : UInt8) (rest : List UInt8) :
    unescape (escapeByte b++rest)=b::unescape rest := by
  show unescape (percentSign::upperHexDigit (b.toNat/16)::upperHexDigit (b.toNat%16)::rest)=_
  rw [unescape,if_pos rfl,hexPair_escape]

theorem unescape_of_spells {bytes spelled : List UInt8} (h : Spells bytes spelled) :
    unescape spelled=bytes := by
  induction h with
  | nil => rfl
  | cons head tail ih =>
    cases head with
    | literal hb => rw [singleton_append,unescape_literal hb,ih]
    | escaped => rw [unescape_escapeByte,ih]

theorem Spells.unique {first second spelled : List UInt8} (h₁ : Spells first spelled)
    (h₂ : Spells second spelled) : first=second := by
  rw [← unescape_of_spells h₁,← unescape_of_spells h₂]

theorem Spells.append {first second spelled₁ spelled₂ : List UInt8}
    (h₁ : Spells first spelled₁) (h₂ : Spells second spelled₂) :
    Spells (first++second) (spelled₁++spelled₂) := by
  induction h₁ with
  | nil => exact h₂
  | cons head tail ih =>
    rw [cons_append,append_assoc]
    exact Spells.cons head ih

theorem spells_self {bytes : List UInt8} (h : ∀ b∈bytes,b≠percentSign) : Spells bytes bytes := by
  induction bytes with
  | nil => exact Spells.nil
  | cons b bytes ih =>
    rw [← singleton_append]
    exact Spells.cons (SpellsByte.literal (h b mem_cons_self))
      (ih fun c hc => h c (mem_cons_of_mem b hc))

end PercentCoding
