import Mathlib
import NebularOs.SeparatedText
import NebularOs.UrlEncoding

/-!
# Signature values

Signatures travel as lowercase hexadecimal text and are compared without an early
exit. The comparison is equality, and the text determines the bytes it stands for.

The hash functions are parameters: the results that use them treat them as
injective.
-/

namespace NebularOs.Signatures

open UrlEncoding SeparatedText List

/-- Bytes of a text of ASCII characters. -/
def ascii (text : String) : Bytes :=
  text.toList.map fun c => UInt8.ofNat c.toNat

/-- The hash functions that signatures are built from. -/
structure Digests where
  /-- SHA-256 of a byte string. -/
  sha256 : Bytes→Bytes
  /-- HMAC-SHA256 of a key and a byte string. -/
  hmac : Bytes→Bytes→Bytes

/-- Hash functions without collisions. -/
structure Digests.CollisionFree (digests : Digests) : Prop where
  /-- Different byte strings have different hashes. -/
  sha256 : Function.Injective digests.sha256
  /-- Different keys or byte strings have different codes. -/
  hmac : Function.Injective2 digests.hmac

/-- Hash functions that keep everything they are given: the length of the key in
ones, a zero, the key and the text. -/
def plainDigests : Digests :=
  ⟨id,fun key text => List.replicate key.length 1++0::(key++text)⟩

theorem plainDigests_collisionFree : plainDigests.CollisionFree := by
  refine ⟨Function.injective_id,fun key key' text text' h => ?_⟩
  have hzero : ∀ n,(0 : UInt8)∉List.replicate n 1 := fun n hmem => by
    have hone := eq_of_mem_replicate hmem
    revert hone
    decide
  obtain ⟨hlength,hrest⟩ := append_cons_inj_of_first (hzero _) (hzero _) h
  have hkeys : key.length=key'.length := by simpa using congrArg List.length hlength
  exact append_inj hrest hkeys

/-- Comparison that looks at every byte. -/
def constantTimeEq (a b : Bytes) : Bool :=
  if a.length≠b.length then false
  else (a.zip b).foldl (fun result pair => result ||| (pair.1 ^^^ pair.2)) 0==0

/-- Lowercase hexadecimal digit of a number below sixteen. -/
def lowerHexDigit (n : ℕ) : UInt8 :=
  if n<10 then UInt8.ofNat (0x30+n) else UInt8.ofNat (0x61+(n-10))

/-- Hexadecimal text of a byte string. -/
def hexEncode (bytes : Bytes) : Bytes :=
  bytes.flatMap fun b => [lowerHexDigit (b.toNat/16),lowerHexDigit (b.toNat%16)]

/-- The byte string of a hexadecimal text in either case. -/
def hexDecode : Bytes→Option Bytes
  | [] => some []
  | [_] => none
  | b₁::b₂::rest =>
    match hexByte b₁ b₂,hexDecode rest with
    | some byte,some bytes => some (byte::bytes)
    | _,_ => none

theorem foldl_xor_eq_zero (pairs : List (UInt8×UInt8)) (start : UInt8) :
    pairs.foldl (fun result pair => result ||| (pair.1 ^^^ pair.2)) start=0 ↔
      start=0 ∧ ∀ pair∈pairs,pair.1=pair.2 := by
  induction pairs generalizing start with
  | nil => simp
  | cons pair pairs ih =>
    rw [foldl_cons,ih,UInt8.or_eq_zero_iff,UInt8.xor_eq_zero_iff]
    simp [and_assoc]

theorem constantTimeEq_iff {a b : Bytes} : constantTimeEq a b=true ↔ a=b := by
  unfold constantTimeEq
  by_cases hlength : a.length=b.length
  · rw [if_neg (not_not.mpr hlength),beq_iff_eq,foldl_xor_eq_zero]
    constructor
    · rintro ⟨_,hpairs⟩
      refine ext_getElem hlength fun i hi hi' => ?_
      have hmem : (a[i],b[i])∈a.zip b :=
        mem_iff_getElem.mpr ⟨i,by simp [hi,hi'],getElem_zip⟩
      exact hpairs _ hmem
    · rintro rfl
      refine ⟨rfl,fun pair hpair => ?_⟩
      obtain ⟨i,hi,rfl⟩ := mem_iff_getElem.mp hpair
      rw [getElem_zip]
  · rw [if_pos hlength]
    constructor
    · intro h
      cases h
    · rintro rfl
      exact absurd rfl hlength

theorem hexByte_lowerHexDigit (b : UInt8) :
    hexByte (lowerHexDigit (b.toNat/16)) (lowerHexDigit (b.toNat%16))=some b := by
  have hall : ∀ n : Fin 256,hexByte (lowerHexDigit (n.val/16)) (lowerHexDigit (n.val%16))=
      some (UInt8.ofNat n.val) := by decide +kernel
  have hb := hall ⟨b.toNat,b.toNat_lt⟩
  rwa [UInt8.ofNat_toNat] at hb

theorem hexDecode_hexEncode (bytes : Bytes) : hexDecode (hexEncode bytes)=some bytes := by
  induction bytes with
  | nil => rfl
  | cons b bytes ih =>
    have hcons : hexEncode (b::bytes)=
        lowerHexDigit (b.toNat/16)::lowerHexDigit (b.toNat%16)::hexEncode bytes := rfl
    rw [hcons,hexDecode,hexByte_lowerHexDigit,ih]

theorem hexEncode_injective : Function.Injective hexEncode := by
  intro first second h
  have hdecode := congrArg hexDecode h
  rw [hexDecode_hexEncode,hexDecode_hexEncode] at hdecode
  exact Option.some.inj hdecode

theorem newline_not_mem_hexEncode (bytes : Bytes) : (0x0A : UInt8)∉hexEncode bytes := by
  intro hmem
  obtain ⟨b,_,hb⟩ := mem_flatMap.mp hmem
  have hdigit : ∀ n : Fin 16,lowerHexDigit n.val≠0x0A := by decide +kernel
  have hlt := b.toNat_lt
  simp only [mem_cons,not_mem_nil,or_false] at hb
  rcases hb with hb | hb
  · exact hdigit ⟨b.toNat/16,by omega⟩ hb.symm
  · exact hdigit ⟨b.toNat%16,by omega⟩ hb.symm

end NebularOs.Signatures
