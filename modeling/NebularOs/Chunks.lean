import Mathlib

/-!
# Chunks of a list

A list cut into pieces of one size, the last of which may be shorter.
-/

namespace Chunks

open List

variable {α : Type}

/-- Pieces cut off the front of a list, at most as many as the fuel says. -/
def cut (size : ℕ) : ℕ → List α → List (List α)
  | 0,_ => []
  | _,[] => []
  | fuel+1,first::rest =>
    (first::rest).take size::cut size fuel ((first::rest).drop size)

/-- The pieces of a list. -/
def chunks (size : ℕ) (items : List α) : List (List α) :=
  cut size items.length items

section Pieces

variable {size : ℕ} {items : List α}

theorem cut_fuel (hsize : 0<size) {fuel : ℕ} (h : items.length≤fuel) :
    cut size fuel items=chunks size items := by
  unfold chunks
  induction fuel using Nat.strong_induction_on generalizing items with
  | _ fuel ih =>
    cases items with
    | nil => cases fuel <;> rfl
    | cons first rest =>
      obtain ⟨less,rfl⟩ : ∃ less,fuel=less+1 := Nat.exists_eq_succ_of_ne_zero (by
        have hlength : (first::rest).length=rest.length+1 := rfl
        omega)
      have hshorter : ((first::rest).drop size).length ≤ rest.length := by
        rw [length_drop,length_cons]
        omega
      have hroom : rest.length≤less := by
        rw [length_cons] at h
        omega
      simp only [cut,length_cons]
      rw [ih less (Nat.lt_succ_self _) (hshorter.trans hroom)]
      rcases Nat.lt_or_ge rest.length (less+1) with hlt | hge
      · rw [ih rest.length hlt hshorter]
      · omega

theorem chunks_of_ne_nil (hsize : 0<size) (h : items≠[]) :
    chunks size items=items.take size::chunks size (items.drop size) := by
  cases items with
  | nil => exact absurd rfl h
  | cons first rest =>
    have hshorter : ((first::rest).drop size).length ≤ rest.length := by
      rw [length_drop,length_cons]
      omega
    rw [← cut_fuel hsize hshorter]
    rfl

theorem chunks_induction (hsize : 0<size) {motive : List α→Prop} (nil : motive [])
    (step : ∀ items,items≠[]→motive (items.drop size)→motive items) (items : List α) :
    motive items := by
  induction hlength : items.length using Nat.strong_induction_on generalizing items with
  | _ count ih =>
    by_cases hitems : items=[]
    · rwa [hitems]
    · have hpositive := length_pos_iff.mpr hitems
      refine step items hitems (ih _ ?_ _ rfl)
      rw [length_drop]
      omega

/-- Chunks joined again are the whole. -/
theorem chunks_flatten (hsize : 0<size) (items : List α) : (chunks size items).flatten=items := by
  induction items using chunks_induction hsize with
  | nil => rfl
  | step items hitems ih =>
    rw [chunks_of_ne_nil hsize hitems,flatten_cons,ih,take_append_drop]

theorem mem_chunks (hsize : 0<size) {piece : List α} (h : piece∈chunks size items) :
    piece≠[] ∧ piece.length ≤ size := by
  induction items using chunks_induction hsize with
  | nil => cases h
  | step items hitems ih =>
    rw [chunks_of_ne_nil hsize hitems] at h
    rcases mem_cons.mp h with rfl | hlater
    · have hpositive := length_pos_iff.mpr hitems
      refine ⟨ne_nil_of_length_pos ?_,?_⟩
      · rw [length_take]
        omega
      · rw [length_take]
        omega
    · exact ih hlater

theorem chunks_length (hsize : 0<size) (items : List α) :
    (chunks size items).length=(items.length+size-1)/size := by
  induction items using chunks_induction hsize with
  | nil =>
    have hzero : (0+size-1)/size=0 := Nat.div_eq_of_lt (by omega)
    exact hzero.symm
  | step items hitems ih =>
    have hpositive := length_pos_iff.mpr hitems
    rw [chunks_of_ne_nil hsize hitems,length_cons,ih,length_drop]
    rcases Nat.lt_or_ge items.length size with hless | hmore
    · have hnone : (items.length-size+size-1)/size=0 := Nat.div_eq_of_lt (by omega)
      have hone : (items.length+size-1)/size=1 := by
        rw [Nat.div_eq_iff hsize]
        omega
      omega
    · have hsplit : items.length+size-1=(items.length-size+size-1)+size := by omega
      rw [hsplit,Nat.add_div_right _ hsize]

end Pieces

end Chunks
