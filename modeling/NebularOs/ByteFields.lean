import Mathlib

/-!
# Fixed-width fields of byte strings

Numbers as little-endian fields of a fixed width, and reading fields at offsets
of a byte string that was put together from parts.
-/

namespace ByteFields

open List

/-- Bytes of a file or of a message. -/
abbrev Bytes := List UInt8

/-- Little-endian bytes of a number, cut off at a width. -/
def le : ℕ→ℕ→Bytes
  | 0,_ => []
  | width+1,n => UInt8.ofNat n::le width (n/256)

/-- The number that little-endian bytes stand for. -/
def fromLe : Bytes→ℕ
  | [] => 0
  | byte::bytes => byte.toNat+256*fromLe bytes

/-- A part of a byte string. -/
def slice (start length : ℕ) (bytes : Bytes) : Bytes :=
  (bytes.drop start).take length

@[simp]
theorem le_length (width n : ℕ) : (le width n).length=width := by
  induction width generalizing n with
  | zero => rfl
  | succ width ih =>
    unfold le
    rw [length_cons,ih]

theorem fromLe_le (width n : ℕ) : fromLe (le width n)=n%256^width := by
  induction width generalizing n with
  | zero =>
    have hone : n%256^0=0 := by rw [pow_zero,Nat.mod_one]
    rw [hone]
    rfl
  | succ width ih =>
    have hbyte : (UInt8.ofNat n).toNat=n%256 := UInt8.toNat_ofNat'
    have hsplit : n%(256*256^width)=n%256+256*(n/256%256^width) := Nat.mod_mul
    unfold le fromLe
    rw [ih,hbyte,pow_succ,mul_comm (256^width),hsplit]

theorem fromLe_le_of_lt {width n : ℕ} (h : n<256^width) : fromLe (le width n)=n := by
  rw [fromLe_le,Nat.mod_eq_of_lt h]

theorem fromLe_lt (bytes : Bytes) : fromLe bytes<256^bytes.length := by
  induction bytes with
  | nil => exact Nat.one_pos
  | cons byte bytes ih =>
    have hbyte : byte.toNat<256 := byte.toNat_lt
    have hpow : 256^(bytes.length+1)=256*256^bytes.length := by rw [pow_succ,mul_comm]
    unfold fromLe
    rw [length_cons,hpow]
    omega

section Slices

variable {first second third : Bytes} {start length : ℕ}

theorem slice_append_right (first second : Bytes) (start length : ℕ) :
    slice (first.length+start) length (first++second)=slice start length second := by
  unfold slice
  rw [drop_append,drop_eq_nil_of_le (Nat.le_add_right _ _),nil_append,
    Nat.add_sub_cancel_left]

theorem slice_append_left (h : start+length≤first.length) :
    slice start length (first++second)=slice start length first := by
  unfold slice
  rw [drop_append_of_le_length (by omega),take_append_of_le_length]
  rw [length_drop]
  omega

theorem slice_zero_append (h : first.length=length) : slice 0 length (first++second)=first := by
  unfold slice
  rw [drop_zero,take_left' h]

theorem slice_middle (hstart : first.length=start) (hlength : second.length=length) :
    slice start length (first++(second++third))=second := by
  have hright := slice_append_right first (second++third) 0 length
  rw [Nat.add_zero,hstart] at hright
  rw [hright,slice_zero_append hlength]

theorem slice_length {bytes : Bytes} (h : start+length≤bytes.length) :
    (slice start length bytes).length=length := by
  unfold slice
  rw [length_take,length_drop]
  omega

theorem slice_take {bytes : Bytes} {count : ℕ} (h : start+length ≤ count) :
    slice start length (bytes.take count)=slice start length bytes := by
  unfold slice
  rw [drop_take,take_take]
  congr 1
  omega

theorem slice_add (start first second : ℕ) (bytes : Bytes) : slice start (first+second) bytes=
      slice start first bytes++slice (start+first) second bytes := by
  unfold slice
  rw [take_add,drop_drop]

theorem slice_all (bytes : Bytes) : slice 0 bytes.length bytes=bytes :=
  take_length

theorem slice_flatten {parts : List Bytes} {part : Bytes} {number : ℕ}
    (hpart : parts[number]?=some part) (h : start+length≤part.length) :
    slice ((parts.take number).flatten.length+start) length parts.flatten=
      slice start length part := by
  obtain ⟨hnumber,hget⟩ := List.getElem?_eq_some_iff.mp hpart
  have hsplit : parts.flatten=
      (parts.take number).flatten++(part++(parts.drop (number+1)).flatten) := by
    rw [← flatten_cons,← flatten_append,← hget,← drop_eq_getElem_cons hnumber,
      take_append_drop]
  rw [hsplit,slice_append_right,slice_append_left h]

end Slices

end ByteFields
