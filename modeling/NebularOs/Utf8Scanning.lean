import Mathlib

/-!
# Reading byte strings as text

A byte string is scanned from the front: a well-formed UTF-8 sequence gives its
character, and a broken one is marked and skipped as far as it could have been
the start of a sequence. A strict reader refuses a byte string with a mark, a
lossy one puts the replacement character in its place.

Bytes below 128 are never part of a longer sequence, so both readers show them
exactly where they stand.
-/

namespace Utf8Scanning

open List

/-- What a leading byte announces. -/
structure Lead where
  /-- Number of bytes that follow. -/
  further : ℕ
  /-- Least second byte. -/
  low : UInt8
  /-- Greatest second byte. -/
  high : UInt8

/-- Leading bytes of longer sequences. Second bytes that would make the sequence
overlong, a surrogate or too large are left out. -/
def leadOf (b : UInt8) : Option Lead :=
  if 0xC2≤b ∧ b≤0xDF then some ⟨1,0x80,0xBF⟩
  else if b=0xE0 then some ⟨2,0xA0,0xBF⟩
  else if b=0xED then some ⟨2,0x80,0x9F⟩
  else if 0xE1≤b ∧ b≤0xEF then some ⟨2,0x80,0xBF⟩
  else if b=0xF0 then some ⟨3,0x90,0xBF⟩
  else if 0xF1≤b ∧ b≤0xF3 then some ⟨3,0x80,0xBF⟩
  else if b=0xF4 then some ⟨3,0x80,0x8F⟩
  else none

/-- Bytes that continue a sequence. -/
def isContinuation (b : UInt8) : Bool :=
  0x80≤b && b≤0xBF

/-- Character of a sequence of two bytes. -/
def charOf₂ (b₀ b₁ : UInt8) : Char :=
  Char.ofNat ((b₀.toNat-0xC0)*64+(b₁.toNat-0x80))

/-- Character of a sequence of three bytes. -/
def charOf₃ (b₀ b₁ b₂ : UInt8) : Char :=
  Char.ofNat ((b₀.toNat-0xE0)*4096+(b₁.toNat-0x80)*64+(b₂.toNat-0x80))

/-- Character of a sequence of four bytes. -/
def charOf₄ (b₀ b₁ b₂ b₃ : UInt8) : Char :=
  Char.ofNat ((b₀.toNat-0xF0)*262144+(b₁.toNat-0x80)*4096+(b₂.toNat-0x80)*64+(b₃.toNat-0x80))

/-- The characters of a byte string, with a mark for each broken sequence. -/
def scan : List UInt8 → List (Option Char)
  | [] => []
  | b₀::rest =>
    if b₀<0x80 then some (Char.ofNat b₀.toNat)::scan rest
    else match leadOf b₀,rest with
      | none,rest => none::scan rest
      | some _,[] => [none]
      | some lead,b₁::rest₁ =>
        if b₁<lead.low ∨ lead.high<b₁ then none::scan (b₁::rest₁)
        else if lead.further=1 then some (charOf₂ b₀ b₁)::scan rest₁
        else match rest₁ with
          | [] => [none]
          | b₂::rest₂ =>
            if !isContinuation b₂ then none::scan (b₂::rest₂)
            else if lead.further=2 then some (charOf₃ b₀ b₁ b₂)::scan rest₂
            else match rest₂ with
              | [] => [none]
              | b₃::rest₃ =>
                if !isContinuation b₃ then none::scan (b₃::rest₃)
                else some (charOf₄ b₀ b₁ b₂ b₃)::scan rest₃

/-- The text of a byte string, unless a sequence is broken. -/
def fromUtf8 (bytes : List UInt8) : Option (List Char) :=
  (scan bytes).mapM id

/-- The text of a byte string, with a replacement for each broken sequence. -/
def fromUtf8Lossy (bytes : List UInt8) : List Char :=
  (scan bytes).map fun c => c.getD (Char.ofNat 0xFFFD)

theorem toNat_ofNat {n : ℕ} (h : n<0xD800 ∨ 0xDFFF<n ∧ n<0x110000) : (Char.ofNat n).toNat=n := by
  have hvalid : n.isValidChar := h
  rw [Char.toNat_ofNat,if_pos hvalid]

theorem leadOf_lead {b : UInt8} {lead : Lead} (h : leadOf b=some lead) :
    (lead.further=1 ∧ 0xC2≤b.toNat ∧ b.toNat≤0xDF ∧ lead.low=0x80 ∧ lead.high=0xBF) ∨
      (lead.further=2 ∧ 0xE0≤b.toNat ∧ b.toNat≤0xEF ∧ 0x80≤lead.low.toNat ∧
        lead.high.toNat≤0xBF ∧ (b.toNat=0xE0→0xA0≤lead.low.toNat) ∧
          (b.toNat=0xED→lead.high.toNat≤0x9F)) ∨
      (lead.further=3 ∧ 0xF0≤b.toNat ∧ b.toNat≤0xF4 ∧ 0x80≤lead.low.toNat ∧
        lead.high.toNat≤0xBF ∧ (b.toNat=0xF0→0x90≤lead.low.toNat) ∧
          (b.toNat=0xF4→lead.high.toNat≤0x8F)) := by
  unfold leadOf at h
  simp only [UInt8.le_iff_toNat_le,← UInt8.toNat_inj] at h
  split_ifs at h <;> cases h <;> simp <;> simp at * <;> omega

theorem charOf₂_ge {b₀ b₁ : UInt8} {lead : Lead} (h : leadOf b₀=some lead)
    (hfurther : lead.further=1) (hsecond : ¬(b₁<lead.low ∨ lead.high<b₁)) :
    0x80≤(charOf₂ b₀ b₁).toNat := by
  simp only [UInt8.lt_iff_toNat_lt,not_or,Nat.not_lt] at hsecond
  rcases leadOf_lead h with ⟨-,hlow,hhigh,hl,hh⟩ | ⟨hthree,-⟩ | ⟨hfour,-⟩
  · rw [hl,hh] at hsecond
    have hb₁ : 0x80≤b₁.toNat ∧ b₁.toNat≤0xBF := hsecond
    unfold charOf₂
    rw [toNat_ofNat] <;> omega
  · omega
  · omega

theorem charOf₃_ge {b₀ b₁ b₂ : UInt8} {lead : Lead} (h : leadOf b₀=some lead)
    (hfurther : lead.further=2) (hsecond : ¬(b₁<lead.low ∨ lead.high<b₁))
    (hthird : isContinuation b₂=true) : 0x80≤(charOf₃ b₀ b₁ b₂).toNat := by
  simp only [UInt8.lt_iff_toNat_lt,not_or,Nat.not_lt] at hsecond
  have hb₂ : 0x80≤b₂.toNat ∧ b₂.toNat≤0xBF := by
    simpa [isContinuation,UInt8.le_iff_toNat_le] using hthird
  rcases leadOf_lead h with ⟨htwo,-⟩ | ⟨-,hlow,hhigh,hl,hh,hover,hsurrogate⟩ | ⟨hfour,-⟩
  · omega
  · unfold charOf₃
    by_cases hfirst : b₀.toNat=0xED
    · have hbound := hsurrogate hfirst
      rw [toNat_ofNat] <;> omega
    · rw [toNat_ofNat] <;> omega
  · omega

theorem charOf₄_ge {b₀ b₁ b₂ b₃ : UInt8} {lead : Lead} (h : leadOf b₀=some lead)
    (hone : lead.further≠1) (htwo : lead.further≠2) (hsecond : ¬(b₁<lead.low ∨ lead.high<b₁))
    (hthird : isContinuation b₂=true) (hfourth : isContinuation b₃=true) :
    0x80≤(charOf₄ b₀ b₁ b₂ b₃).toNat := by
  simp only [UInt8.lt_iff_toNat_lt,not_or,Nat.not_lt] at hsecond
  have hb₂ : 0x80≤b₂.toNat ∧ b₂.toNat≤0xBF := by
    simpa [isContinuation,UInt8.le_iff_toNat_le] using hthird
  have hb₃ : 0x80≤b₃.toNat ∧ b₃.toNat≤0xBF := by
    simpa [isContinuation,UInt8.le_iff_toNat_le] using hfourth
  rcases leadOf_lead h with ⟨htwo',-⟩ | ⟨hthree,-⟩ | ⟨-,hlow,hhigh,hl,hh,hover,hlarge⟩
  · omega
  · omega
  · unfold charOf₄
    by_cases hfirst : b₀.toNat=0xF4
    · have hbound := hlarge hfirst
      rw [toNat_ofNat] <;> omega
    · rw [toNat_ofNat] <;> omega

/-- A character below 128 is read exactly where its byte stands. -/
theorem mem_scan_ascii {b : UInt8} (h : b<0x80) (bytes : List UInt8) :
    some (Char.ofNat b.toNat)∈scan bytes ↔ b∈bytes := by
  have hb : b.toNat<0x80 := UInt8.lt_iff_toNat_lt.mp h
  have hsmall : (Char.ofNat b.toNat).toNat=b.toNat := toNat_ofNat (by omega)
  have hbig : ∀ {c : Char},0x80 ≤ c.toNat→Char.ofNat b.toNat≠c := by
    intro c hc heq
    rw [← heq,hsmall] at hc
    omega
  have hnot : ∀ {other : UInt8},¬other<0x80→b≠other := by
    rintro other hother rfl
    exact hother h
  have hcont : ∀ {other : UInt8},isContinuation other=true→b≠other := by
    rintro other hother rfl
    simp only [isContinuation,UInt8.le_iff_toNat_le,Bool.and_eq_true,decide_eq_true_eq] at hother
    have hlow : 0x80≤b.toNat := hother.1
    omega
  have hsec : ∀ {b₀ b₁ : UInt8} {lead : Lead},leadOf b₀=some lead →
      ¬(b₁<lead.low ∨ lead.high<b₁)→b≠b₁ := by
    rintro b₀ b₁ lead hlead hsecond rfl
    simp only [UInt8.lt_iff_toNat_lt,not_or,Nat.not_lt] at hsecond
    rcases leadOf_lead hlead with ⟨-,-,-,hl,-⟩ | ⟨-,-,-,hl,-⟩ | ⟨-,-,-,hl,-⟩
    · rw [hl] at hsecond
      have hlow : 0x80≤b.toNat := hsecond.1
      omega
    · omega
    · omega
  fun_induction scan bytes with
  | case1 => simp
  | case2 b₀ rest hlt ih =>
    have hb₀ : b₀.toNat<0x80 := UInt8.lt_iff_toNat_lt.mp hlt
    have hchar : Char.ofNat b.toNat=Char.ofNat b₀.toNat ↔ b=b₀ := by
      constructor
      · intro heq
        have hnat : b.toNat=b₀.toNat := by
          rw [← hsmall,heq,toNat_ofNat (by omega)]
        exact UInt8.toNat_inj.mp hnat
      · rintro rfl
        rfl
    simp [ih,hchar]
  | case3 b₀ hlt rest hlead ih => simp [ih,hnot hlt]
  | case4 b₀ hlt lead hlead => simp [hnot hlt]
  | case5 b₀ hlt lead b₁ rest₁ hlead hsecond ih => simp [ih,hnot hlt]
  | case6 b₀ hlt lead b₁ rest₁ hlead hsecond hfurther ih =>
    simp [ih,hnot hlt,hsec hlead hsecond,hbig (charOf₂_ge hlead hfurther hsecond)]
  | case7 b₀ hlt lead b₁ hlead hsecond hone => simp [hnot hlt,hsec hlead hsecond]
  | case8 b₀ hlt lead b₁ hlead hsecond hone b₂ rest₂ hthird ih =>
    simp [ih,hnot hlt,hsec hlead hsecond]
  | case9 b₀ hlt lead b₁ hlead hsecond hone b₂ rest₂ hthird htwo ih =>
    have hthird' : isContinuation b₂=true := by simpa using hthird
    simp [ih,hnot hlt,hsec hlead hsecond,hcont hthird',
      hbig (charOf₃_ge hlead htwo hsecond hthird')]
  | case10 b₀ hlt lead b₁ hlead hsecond hone b₂ hthird htwo =>
    have hthird' : isContinuation b₂=true := by simpa using hthird
    simp [hnot hlt,hsec hlead hsecond,hcont hthird']
  | case11 b₀ hlt lead b₁ hlead hsecond hone b₂ hthird htwo b₃ rest₃ hfourth ih =>
    have hthird' : isContinuation b₂=true := by simpa using hthird
    simp [ih,hnot hlt,hsec hlead hsecond,hcont hthird']
  | case12 b₀ hlt lead b₁ hlead hsecond hone b₂ hthird htwo b₃ rest₃ hfourth ih =>
    have hthird' : isContinuation b₂=true := by simpa using hthird
    have hfourth' : isContinuation b₃=true := by simpa using hfourth
    simp [ih,hnot hlt,hsec hlead hsecond,hcont hthird',hcont hfourth',
      hbig (charOf₄_ge hlead hone htwo hsecond hthird' hfourth')]

theorem mem_fromUtf8Lossy_ascii {b : UInt8} (h : b<0x80) (bytes : List UInt8) :
    Char.ofNat b.toNat∈fromUtf8Lossy bytes ↔ b∈bytes := by
  rw [← mem_scan_ascii h bytes]
  have hb : b.toNat<0x80 := UInt8.lt_iff_toNat_lt.mp h
  have hne : Char.ofNat 0xFFFD≠Char.ofNat b.toNat := by
    intro heq
    have hnat := congrArg Char.toNat heq
    rw [toNat_ofNat (by omega),toNat_ofNat (by omega)] at hnat
    omega
  unfold fromUtf8Lossy
  rw [mem_map]
  constructor
  · rintro ⟨c,hc,heq⟩
    cases c with
    | none => exact absurd heq hne
    | some c =>
      obtain rfl : c=Char.ofNat b.toNat := heq
      exact hc
  · intro hc
    exact ⟨_,hc,rfl⟩

example : fromUtf8Lossy [0x61,0xC3,0xA9,0xE2,0x82,0x2B]=['a', 'é', Char.ofNat 0xFFFD, '+'] := by
  decide

section RoundTrip

theorem leadOf_two {b : UInt8} (hlow : 0xC2≤b.toNat) (hhigh : b.toNat≤0xDF) :
    leadOf b=some ⟨1,0x80,0xBF⟩ := by
  unfold leadOf
  rw [if_pos ⟨UInt8.le_iff_toNat_le.mpr hlow,UInt8.le_iff_toNat_le.mpr hhigh⟩]

theorem leadOf_three {b₀ b₁ : UInt8} (hlow : 0xE0≤b₀.toNat) (hhigh : b₀.toNat≤0xEF)
    (hsecond : 0x80≤b₁.toNat ∧ b₁.toNat≤0xBF) (hover : b₀.toNat=0xE0→0xA0≤b₁.toNat)
    (hsurrogate : b₀.toNat=0xED→b₁.toNat≤0x9F) :
    ∃ lead,leadOf b₀=some lead ∧ lead.further=2 ∧ ¬(b₁<lead.low ∨ lead.high<b₁) := by
  unfold leadOf
  simp only [UInt8.le_iff_toNat_le,UInt8.lt_iff_toNat_lt,← UInt8.toNat_inj]
  split_ifs <;> simp at * <;> omega

theorem leadOf_four {b₀ b₁ : UInt8} (hlow : 0xF0≤b₀.toNat) (hhigh : b₀.toNat≤0xF4)
    (hsecond : 0x80≤b₁.toNat ∧ b₁.toNat≤0xBF) (hover : b₀.toNat=0xF0→0x90≤b₁.toNat)
    (hlarge : b₀.toNat=0xF4→b₁.toNat≤0x8F) :
    ∃ lead,leadOf b₀=some lead ∧ lead.further=3 ∧ ¬(b₁<lead.low ∨ lead.high<b₁) := by
  unfold leadOf
  simp only [UInt8.le_iff_toNat_le,UInt8.lt_iff_toNat_lt,← UInt8.toNat_inj]
  split_ifs <;> simp at * <;> omega

theorem toNat_byte {n : ℕ} (h : n<256) : (UInt8.ofNat n).toNat=n := by
  rw [UInt8.toNat_ofNat',Nat.mod_eq_of_lt h]

theorem isContinuation_byte {n : ℕ} (h : n<64) : isContinuation (UInt8.ofNat (n+128))=true := by
  have hbyte := toNat_byte (show n+128<256 by omega)
  unfold isContinuation
  rw [Bool.and_eq_true_iff,decide_eq_true_iff,decide_eq_true_iff,UInt8.le_iff_toNat_le,
    UInt8.le_iff_toNat_le,hbyte]
  exact ⟨show 128≤n+128 by omega,show n+128≤191 by omega⟩

theorem leadOf_not_ascii {b : UInt8} {lead : Lead} (h : leadOf b=some lead) : ¬b<0x80 := by
  rw [UInt8.lt_iff_toNat_lt]
  change ¬b.toNat<128
  rcases leadOf_lead h with ⟨_,hlow,_⟩ | ⟨_,hlow,_⟩ | ⟨_,hlow,_⟩ <;> omega

section Sequences

variable {b₀ b₁ b₂ b₃ : UInt8} {lead : Lead} (hlead : leadOf b₀=some lead)
  (hsecond : ¬(b₁<lead.low ∨ lead.high<b₁)) (rest : List UInt8)
include hlead hsecond

theorem scan_two (hfurther : lead.further=1) :
    scan (b₀::b₁::rest)=some (charOf₂ b₀ b₁)::scan rest := by
  rw [scan.eq_def]
  dsimp only
  rw [if_neg (leadOf_not_ascii hlead),hlead]
  dsimp only
  rw [if_neg hsecond,if_pos hfurther]

theorem scan_three (hfurther : lead.further=2) (hthird : isContinuation b₂=true) :
    scan (b₀::b₁::b₂::rest)=some (charOf₃ b₀ b₁ b₂)::scan rest := by
  rw [scan.eq_def]
  dsimp only
  rw [if_neg (leadOf_not_ascii hlead),hlead]
  dsimp only
  rw [if_neg hsecond,if_neg (by omega),hthird,if_neg (by decide),if_pos hfurther]

theorem scan_four (hfurther : lead.further=3) (hthird : isContinuation b₂=true)
    (hfourth : isContinuation b₃=true) :
    scan (b₀::b₁::b₂::b₃::rest)=some (charOf₄ b₀ b₁ b₂ b₃)::scan rest := by
  rw [scan.eq_def]
  dsimp only
  rw [if_neg (leadOf_not_ascii hlead),hlead]
  dsimp only
  rw [if_neg hsecond,if_neg (by omega),hthird,if_neg (by decide),if_neg (by omega),hfourth,
    if_neg (by decide)]

end Sequences

theorem utf8EncodeChar_eq (c : Char) : String.utf8EncodeChar c=
    if c.toNat≤127 then [UInt8.ofNat c.toNat]
    else if c.toNat≤2047 then [UInt8.ofNat (c.toNat/64%32+192), UInt8.ofNat (c.toNat%64+128)]
    else if c.toNat≤65535 then [UInt8.ofNat (c.toNat/4096%16+224),
      UInt8.ofNat (c.toNat/64%64+128), UInt8.ofNat (c.toNat%64+128)]
    else [UInt8.ofNat (c.toNat/262144%8+240), UInt8.ofNat (c.toNat/4096%64+128),
      UInt8.ofNat (c.toNat/64%64+128), UInt8.ofNat (c.toNat%64+128)] :=
  rfl

/-- Scanning begins with the character whose bytes come first. -/
theorem scan_utf8EncodeChar (c : Char) (rest : List UInt8) :
    scan (String.utf8EncodeChar c++rest)=some c::scan rest := by
  have hvalid : c.toNat<0xD800 ∨ 0xDFFF<c.toNat ∧ c.toNat<0x110000 := c.valid
  have hself : Char.ofNat c.toNat=c := Char.ofNat_toNat c
  rw [utf8EncodeChar_eq]
  generalize c.toNat=v at hvalid hself ⊢
  have hlast : (UInt8.ofNat (v%64+128)).toNat=v%64+128 := toNat_byte (by omega)
  have hmiddle : (UInt8.ofNat (v/64%64+128)).toNat=v/64%64+128 := toNat_byte (by omega)
  split_ifs with hone htwo hthree
  · have hb : (UInt8.ofNat v).toNat=v := toNat_byte (by omega)
    have hascii : UInt8.ofNat v<0x80 := by
      rw [UInt8.lt_iff_toNat_lt,hb]
      exact Nat.lt_succ_of_le hone
    rw [singleton_append,scan.eq_def]
    dsimp only
    rw [if_pos hascii,hb,hself]
  · have hfirst : (UInt8.ofNat (v/64%32+192)).toNat=v/64+192 := by
      rw [toNat_byte (by omega)]
      omega
    have hchar : charOf₂ (UInt8.ofNat (v/64%32+192)) (UInt8.ofNat (v%64+128))=c := by
      have hnumber : (v/64+192-0xC0)*64+(v%64+128-0x80)=v := by omega
      unfold charOf₂
      rw [hfirst,hlast,hnumber,hself]
    have hlead := leadOf_two (b := UInt8.ofNat (v/64%32+192)) (by omega) (by omega)
    have hsecond : ¬(UInt8.ofNat (v%64+128)<0x80 ∨ 0xBF<UInt8.ofNat (v%64+128)) := by
      rw [UInt8.lt_iff_toNat_lt,UInt8.lt_iff_toNat_lt,hlast]
      change ¬(v%64+128<128 ∨ 191<v%64+128)
      omega
    rw [cons_append,singleton_append,scan_two hlead hsecond rest rfl,hchar]
  · have hfirst : (UInt8.ofNat (v/4096%16+224)).toNat=v/4096+224 := by
      rw [toNat_byte (by omega)]
      omega
    have hchar : charOf₃ (UInt8.ofNat (v/4096%16+224)) (UInt8.ofNat (v/64%64+128))
        (UInt8.ofNat (v%64+128))=c := by
      have hnumber : (v/4096+224-0xE0)*4096+(v/64%64+128-0x80)*64+(v%64+128-0x80)=v := by omega
      unfold charOf₃
      rw [hfirst,hmiddle,hlast,hnumber,hself]
    obtain ⟨lead,hlead,hfurther,hsecond⟩ := @leadOf_three (UInt8.ofNat (v/4096%16+224))
      (UInt8.ofNat (v/64%64+128)) (by omega) (by omega) (by omega) (by omega) (by omega)
    rw [cons_append,cons_append,singleton_append,
      scan_three hlead hsecond rest hfurther (isContinuation_byte (Nat.mod_lt _ (by decide))),hchar]
  · have hfirst : (UInt8.ofNat (v/262144%8+240)).toNat=v/262144+240 := by
      rw [toNat_byte (by omega)]
      omega
    have hupper : (UInt8.ofNat (v/4096%64+128)).toNat=v/4096%64+128 := toNat_byte (by omega)
    have hchar : charOf₄ (UInt8.ofNat (v/262144%8+240)) (UInt8.ofNat (v/4096%64+128))
        (UInt8.ofNat (v/64%64+128)) (UInt8.ofNat (v%64+128))=c := by
      have hnumber : (v/262144+240-0xF0)*262144+(v/4096%64+128-0x80)*4096+(v/64%64+128-0x80)*64+
          (v%64+128-0x80)=v := by
        omega
      unfold charOf₄
      rw [hfirst,hupper,hmiddle,hlast,hnumber,hself]
    obtain ⟨lead,hlead,hfurther,hsecond⟩ := @leadOf_four (UInt8.ofNat (v/262144%8+240))
      (UInt8.ofNat (v/4096%64+128)) (by omega) (by omega) (by omega) (by omega) (by omega)
    rw [cons_append,cons_append,cons_append,singleton_append,
      scan_four hlead hsecond rest hfurther (isContinuation_byte (Nat.mod_lt _ (by decide)))
        (isContinuation_byte (Nat.mod_lt _ (by decide))),hchar]

theorem fromUtf8Lossy_utf8 (text : List Char) :
    fromUtf8Lossy (text.flatMap String.utf8EncodeChar)=text := by
  unfold fromUtf8Lossy
  induction text with
  | nil => decide
  | cons c text ih =>
    rw [flatMap_cons,scan_utf8EncodeChar,map_cons,ih]
    rfl

end RoundTrip

end Utf8Scanning
