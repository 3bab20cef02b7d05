import Mathlib
import NebularOs.Chunks

/-!
# Reads that return less than asked

A read from a file may return fewer items than the buffer has room for, and returns none
only at the end. A loop that reads until its buffer is full, or the file at its end, fills
the buffer with the same items however the reads were split.
-/

namespace SplitReads

open Chunks List

variable {α : Type}

/-- A file that is being read: what is left of it, and how many items the next reads
return at most. A read with nothing in its way returns all that it is asked for. -/
structure Source (α : Type) where
  /-- Items that are left. -/
  left : List α
  /-- Bounds of the next reads. -/
  sizes : List ℕ

/-- How many items a read for some room may return. -/
def Source.share (source : Source α) (room : ℕ) : ℕ :=
  match source.sizes with
  | [] => room
  | size::_ => min (max size 1) room

/-- One read. -/
def Source.read (source : Source α) (room : ℕ) : List α×Source α :=
  (source.left.take (source.share room),
    ⟨source.left.drop (source.share room),source.sizes.tail⟩)

/-- Reads until a buffer is full or nothing is returned, at most as many as the fuel
says. -/
def fill : ℕ→ℕ→Source α → List α×Source α
  | 0,_,source => ([],source)
  | fuel+1,room,source =>
    if room=0 then ([],source)
    else
      match source.read room with
      | ([],source) => ([],source)
      | (first::items,source) =>
        let (rest,source) := fill fuel (room-(first::items).length) source
        (first::items++rest,source)

/-- Fillings of a buffer until nothing more is read, at most as many as the fuel says. -/
def fillings (size : ℕ) : ℕ→Source α → List (List α)
  | 0,_ => []
  | fuel+1,source =>
    match fill size size source with
    | ([],_) => []
    | (first::items,source) => (first::items)::fillings size fuel source

/-- All fillings of a buffer. -/
def fills (size : ℕ) (source : Source α) : List (List α) :=
  fillings size source.left.length source

section Rules

variable {source : Source α} {room fuel : ℕ}

theorem read_eq (source : Source α) (hroom : 0 < room) : ∃ count sizes,0<count ∧ count ≤ room ∧
      source.read room=(source.left.take count,⟨source.left.drop count,sizes⟩) := by
  refine ⟨source.share room,source.sizes.tail,?_,?_,rfl⟩
  · unfold Source.share
    split
    · exact hroom
    · omega
  · unfold Source.share
    split
    · exact le_rfl
    · omega

/-- However the reads are split, the buffer is filled with what comes next. -/
theorem fill_eq (hfuel : room≤fuel) :
    ∃ sizes,fill fuel room source=(source.left.take room,⟨source.left.drop room,sizes⟩) := by
  induction fuel generalizing room source with
  | zero =>
    obtain rfl : room=0 := Nat.le_zero.mp hfuel
    exact ⟨source.sizes,rfl⟩
  | succ fuel ih =>
    unfold fill
    by_cases hzero : room=0
    · rw [if_pos hzero,hzero]
      exact ⟨source.sizes,rfl⟩
    rw [if_neg hzero]
    obtain ⟨count,sizes,hsome,hle,hread⟩ := read_eq source (Nat.pos_of_ne_zero hzero)
    rw [hread]
    cases hitems : source.left.take count with
    | nil =>
      have hleft : source.left=[] := by
        rcases take_eq_nil_iff.mp hitems with hnone | hempty
        · omega
        · exact hempty
      rw [hleft]
      refine ⟨sizes,?_⟩
      simp
    | cons first items =>
      have hlength : (first::items).length=min count source.left.length := by
        rw [← hitems,length_take]
      obtain ⟨sizes',hrest⟩ := @ih ⟨source.left.drop count,sizes⟩
        (room-(first::items).length) (by
          have hpositive : 0<(first::items).length := Nat.succ_pos _
          omega)
      refine ⟨sizes',?_⟩
      dsimp only
      rw [hrest,← hitems]
      rw [← hitems] at hlength
      rcases Nat.lt_or_ge count source.left.length with hmore | hall
      · have hcount : (source.left.take count).length=count := by omega
        have hsplit : room=count+(room-count) := by omega
        rw [hcount]
        conv_rhs => rw [hsplit]
        rw [take_add,drop_drop]
      · have hend : source.left.drop count=[] := drop_eq_nil_of_le hall
        have htaken : source.left.take count=source.left := take_of_length_le hall
        rw [hend,htaken,take_nil,drop_nil,append_nil,
          take_of_length_le (by omega),drop_eq_nil_of_le (by omega)]

theorem fillings_eq {size : ℕ} (hsize : 0<size) (hfuel : source.left.length≤fuel) :
    fillings size fuel source=chunks size source.left := by
  induction fuel generalizing source with
  | zero =>
    have hleft : source.left=[] := eq_nil_of_length_eq_zero (Nat.le_zero.mp hfuel)
    rw [hleft]
    rfl
  | succ fuel ih =>
    obtain ⟨sizes,hfill⟩ := @fill_eq α source size size le_rfl
    unfold fillings
    rw [hfill]
    by_cases hleft : source.left=[]
    · rw [hleft,take_nil]
      rfl
    have hpositive := length_pos_iff.mpr hleft
    rw [chunks_of_ne_nil hsize hleft]
    cases hitems : source.left.take size with
    | nil =>
      rcases take_eq_nil_iff.mp hitems with hnone | hempty
      · omega
      · exact absurd hempty hleft
    | cons first items =>
      dsimp only
      rw [@ih ⟨source.left.drop size,sizes⟩ (by
        dsimp only
        rw [length_drop]
        omega)]

theorem fills_eq_chunks {size : ℕ} (hsize : 0<size) (source : Source α) :
    fills size source=chunks size source.left :=
  fillings_eq hsize le_rfl

end Rules

end SplitReads
