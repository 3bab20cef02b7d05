import Mathlib

/-!
# Steps that can fail

Inversion of computations that stop at the first error: a sequence of steps that
succeeds is a success of every step, a passed check is a condition that does not
hold.
-/

namespace FallibleSteps

open List

theorem bind_eq_ok {ε α β : Type} {x : Except ε α} {f : α→Except ε β} {b : β} :
    (x >>= f)=.ok b ↔ ∃ a,x=.ok a ∧ f a=.ok b := by
  cases x with
  | error e | ok a => simp [Bind.bind,Except.bind]

theorem mapM_eq_ok {ε α β : Type} {f : α→Except ε β} {list : List α} {results : List β} :
    list.mapM f=.ok results ↔ List.Forall₂ (fun a b => f a=.ok b) list results := by
  induction list generalizing results with
  | nil =>
    rw [mapM_nil,forall₂_nil_left_iff]
    exact ⟨fun h => (Except.ok.inj h).symm,fun h => h ▸ rfl⟩
  | cons a list ih =>
    rw [mapM_cons,bind_eq_ok,forall₂_cons_left_iff]
    constructor
    · rintro ⟨b,hb,h⟩
      obtain ⟨rest,hrest,h⟩ := bind_eq_ok.mp h
      exact ⟨b,rest,hb,ih.mp hrest,(Except.ok.inj h).symm⟩
    · rintro ⟨b,rest,hb,hrest,rfl⟩
      exact ⟨b,hb,bind_eq_ok.mpr ⟨rest,ih.mpr hrest,rfl⟩⟩

theorem exists_of_mem_mapM {α β : Type} {f : α→Option β} {list : List α} {results : List β}
    (h : list.mapM f=some results) : ∀ b∈results,∃ a,f a=some b := by
  induction list generalizing results with
  | nil =>
    rw [mapM_nil] at h
    cases h
    intro b hb
    cases hb
  | cons a list ih =>
    rw [mapM_cons] at h
    obtain ⟨first,hfirst,h⟩ := Option.bind_eq_some_iff.mp h
    obtain ⟨rest,hrest,h⟩ := Option.bind_eq_some_iff.mp h
    cases h
    intro b hb
    rcases mem_cons.mp hb with rfl | hb
    · exact ⟨a,hfirst⟩
    · exact ih hrest b hb

theorem ite_error_eq_ok {ε α : Type} {p : Prop} [Decidable p] {e : ε} {x : Except ε α} {a : α} :
    (if p then .error e else x)=.ok a ↔ ¬p ∧ x=.ok a := by
  by_cases hp : p
  · simp [hp]
  · simp [hp]

end FallibleSteps
