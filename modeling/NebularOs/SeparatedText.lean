import Mathlib

/-!
# Parts of a text with separators

A text joined from parts by a separator determines its parts as long as no part
contains the separator. Where only the first or only the last part is known to be
free of it, the text still determines that part.
-/

namespace SeparatedText

open List

variable {α : Type*}

theorem intercalate_inj [DecidableEq α] {x : α} {parts others : List (List α)}
    (hparts : ∀ part∈parts,x∉part) (hothers : ∀ part∈others,x∉part) (hne : parts≠[])
    (hne' : others≠[]) (h : [x].intercalate parts=[x].intercalate others) : parts=others := by
  rw [← splitOn_intercalate x hparts hne,← splitOn_intercalate x hothers hne',h]

theorem append_cons_inj_of_first {x : α} {first first' rest rest' : List α} (h : x∉first)
    (h' : x∉first') (heq : first++x::rest=first'++x::rest') : first=first' ∧ rest=rest' := by
  rcases append_eq_append_iff.mp heq with ⟨gap,hfirst,hgap⟩ | ⟨gap,hfirst,hgap⟩
  · cases gap with
    | nil =>
      rw [append_nil] at hfirst
      exact ⟨hfirst.symm,(List.cons.inj hgap).2⟩
    | cons y gap =>
      cases hgap
      exact absurd (hfirst ▸ mem_append_right first mem_cons_self) h'
  · cases gap with
    | nil =>
      rw [append_nil] at hfirst
      exact ⟨hfirst,(List.cons.inj hgap).2.symm⟩
    | cons y gap =>
      cases hgap
      exact absurd (hfirst ▸ mem_append_right first' mem_cons_self) h

theorem eq_of_append_cons_of_last {x : α} {rest rest' last last' : List α} (h : x∉last)
    (h' : x∉last') (heq : rest++x::last=rest'++x::last') : last=last' := by
  have hreverse : last.reverse++x::rest.reverse=last'.reverse++x::rest'.reverse := by
    have hboth := congrArg List.reverse heq
    simpa using hboth
  have hfirst := (append_cons_inj_of_first (by simpa using h) (by simpa using h') hreverse).1
  exact reverse_injective hfirst

theorem not_mem_intercalate {x y : α} {parts : List (List α)} (hne : x≠y)
    (hparts : ∀ part∈parts,x∉part) : x∉[y].intercalate parts := by
  induction parts with
  | nil => simp [List.intercalate]
  | cons part parts ih =>
    cases parts with
    | nil => simpa [List.intercalate] using hparts
    | cons next parts =>
      rw [intercalate_cons_cons]
      have hpart := hparts part mem_cons_self
      have hrest := ih fun other hmem => hparts other (mem_cons_of_mem part hmem)
      simp only [mem_append,mem_singleton,not_or]
      exact ⟨⟨hpart,hne⟩,hrest⟩

theorem not_of_mem_splitOnP {separates : α→Bool} {text part : List α} {x : α}
    (hpart : part∈text.splitOnP separates) (hx : x∈part) : separates x=false := by
  induction text generalizing part with
  | nil =>
    rw [splitOnP_nil,mem_singleton] at hpart
    rw [hpart] at hx
    cases hx
  | cons y text ih =>
    rw [splitOnP_cons_eq_if_modifyHead] at hpart
    by_cases hy : separates y=true
    · rw [if_pos hy] at hpart
      rcases mem_cons.mp hpart with rfl | hpart
      · cases hx
      · exact ih hpart hx
    · rw [if_neg hy] at hpart
      obtain ⟨first,rest,hrest⟩ := exists_cons_of_ne_nil (splitOnP_ne_nil separates text)
      rw [hrest,modifyHead_cons] at hpart
      rcases mem_cons.mp hpart with rfl | hpart
      · rcases mem_cons.mp hx with rfl | hx
        · exact Bool.eq_false_iff.mpr hy
        · exact ih (hrest ▸ mem_cons_self) hx
      · exact ih (hrest ▸ mem_cons_of_mem first hpart) hx

theorem intercalate_append {x : α} (parts : List (List α)) {others : List (List α)}
    (hne : others≠[]) : [x].intercalate (parts++others)=
      parts.flatMap (fun part => part++[x])++[x].intercalate others := by
  induction parts with
  | nil => rfl
  | cons part parts ih =>
    have happend : parts++others≠[] := by simp [hne]
    obtain ⟨next,rest,hrest⟩ := exists_cons_of_ne_nil happend
    rw [cons_append,hrest,intercalate_cons_cons,← hrest,ih,flatMap_cons]
    simp only [append_assoc]

theorem splitOn_intercalate_flatMap [DecidableEq α] (x : α) {parts : List (List α)}
    (hne : parts≠[]) :
    ([x].intercalate parts).splitOn x=parts.flatMap fun part => part.splitOn x := by
  induction parts with
  | nil => exact absurd rfl hne
  | cons part parts ih =>
    cases parts with
    | nil => simp
    | cons next parts =>
      have hsplit : (part++x::[x].intercalate (next::parts)).splitOn x=
          part.splitOn x++([x].intercalate (next::parts)).splitOn x :=
        splitOn_append_cons_self part _
      rw [intercalate_cons_cons,append_assoc,singleton_append,hsplit,
        ih (cons_ne_nil next parts)]
      exact flatMap_cons.symm

section Once

variable [DecidableEq α] {x : α} {text first rest : List α}

/-- What stands before the first separator and behind it. -/
def splitOnce (x : α) (text : List α) : Option (List α×List α) :=
  match text.span (fun c => decide (c≠x)) with
  | (_,[]) => none
  | (first,_::rest) => some (first,rest)

theorem splitOnce_append_cons (h : x∉first) : splitOnce x (first++x::rest)=some (first,rest) := by
  have hclean : ∀ c∈first,decide (c≠x)=true := fun c hc =>
    decide_eq_true fun heq => h (heq ▸ hc)
  unfold splitOnce
  rw [span_eq_takeWhile_dropWhile,takeWhile_append_of_pos hclean,
    dropWhile_append_of_pos hclean]
  simp

theorem splitOnce_of_not_mem (h : x∉text) : splitOnce x text=none := by
  have hclean : ∀ c∈text,decide (c≠x)=true := fun c hc =>
    decide_eq_true fun heq => h (heq ▸ hc)
  unfold splitOnce
  rw [span_eq_takeWhile_dropWhile,dropWhile_eq_nil_iff.mpr hclean]

theorem splitOnce_eq_some_iff : splitOnce x text=some (first,rest) ↔
    text=first++x::rest ∧ x∉first := by
  refine ⟨fun h => ?_,fun h => h.1 ▸ splitOnce_append_cons h.2⟩
  by_cases hmem : x∈text
  · obtain ⟨before,after,htext,hbefore⟩ := eq_append_cons_of_mem hmem
    subst htext
    rw [splitOnce_append_cons hbefore] at h
    cases h
    exact ⟨rfl,hbefore⟩
  · rw [splitOnce_of_not_mem hmem] at h
    cases h

end Once

end SeparatedText
