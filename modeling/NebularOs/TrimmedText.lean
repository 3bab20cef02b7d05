import Mathlib

/-!
# Text without blanks around it

Trimming drops the letters of one kind from both ends of a text. What is left begins
and ends with a letter of another kind, and what was dropped is of that kind, so a text
is determined by the blanks around it and what is left.
-/

namespace TrimmedText

open List

variable {α : Type*} {drop : α→Bool} {text before after : List α}

/-- A text without the letters to drop at either end. -/
def trim (drop : α→Bool) (text : List α) : List α := (text.dropWhile drop).rdropWhile drop

/-- White space of texts. -/
def isWhitespace (c : Char) : Bool :=
  let n := c.toNat
  (9≤n && n≤13) || n==0x20 || n==0x85 || n==0xA0 || n==0x1680 || (0x2000≤n && n≤0x200A) ||
    n==0x2028 || n==0x2029 || n==0x202F || n==0x205F || n==0x3000

theorem trim_blank_append (hbefore : ∀ c∈before,drop c=true) :
    trim drop (before++text)=trim drop text := by
  unfold trim
  rw [dropWhile_append_of_pos hbefore]

theorem trim_blank (h : ∀ c∈text,drop c=true) : trim drop text=[] := by
  unfold trim
  rw [dropWhile_eq_nil_iff.mpr h,rdropWhile_nil]

theorem trim_append_blank (hafter : ∀ c∈after,drop c=true) :
    trim drop (text++after)=trim drop text := by
  by_cases hblank : ∀ c∈text,drop c=true
  · rw [trim_blank hblank,trim_blank fun c hc => (mem_append.mp hc).elim (hblank c) (hafter c)]
  · have hne : text.dropWhile drop≠[] := fun hnil => hblank (dropWhile_eq_nil_iff.mp hnil)
    unfold trim
    rw [dropWhile_append,if_neg (by simpa using hne),List.rdropWhile,reverse_append,
      dropWhile_append_of_pos (by simpa using hafter),List.rdropWhile]

theorem trim_eq_nil_iff : trim drop text=[] ↔ ∀ c∈text,drop c=true := by
  refine ⟨fun h => ?_,trim_blank⟩
  have hnil : text.dropWhile drop=[] := by
    by_contra hne
    have hall := rdropWhile_eq_nil_iff.mp h
    exact absurd (hall _ (head_mem hne)) (by simpa using head_dropWhile_not drop hne)
  exact dropWhile_eq_nil_iff.mp hnil

theorem exists_blanks (drop : α→Bool) (text : List α) :
    ∃ before after,text=before++trim drop text++after ∧ (∀ c∈before,drop c=true) ∧
      ∀ c∈after,drop c=true := by
  refine ⟨text.takeWhile drop,(text.dropWhile drop).rtakeWhile drop,?_,?_,?_⟩
  · rw [trim,append_assoc,rdropWhile_append_rtakeWhile,takeWhile_append_dropWhile]
  · exact fun c hc => mem_takeWhile_imp hc
  · exact fun c hc => mem_rtakeWhile_imp hc

theorem trim_eq_self (hhead : ∀ c,text.head?=some c→drop c=false)
    (hlast : ∀ c,text.getLast?=some c→drop c=false) : trim drop text=text := by
  cases text with
  | nil => rfl
  | cons first rest =>
    have hdropped : (first::rest).dropWhile drop=first::rest :=
      dropWhile_cons_of_neg (by rw [hhead first rfl]; decide)
    unfold trim
    rw [hdropped,rdropWhile_eq_self_iff]
    intro hne
    rw [hlast _ (List.getLast?_eq_some_getLast hne)]
    decide

theorem trim_of_clean (h : ∀ c∈text,drop c=false) : trim drop text=text :=
  trim_eq_self (fun c hc => h c (mem_of_head? hc)) fun c hc => h c (mem_of_getLast? hc)

theorem head_of_trim_eq_self (h : trim drop text=text) {c : α} (hc : text.head?=some c) :
    drop c=false := by
  cases text with
  | nil => cases hc
  | cons first rest =>
    obtain rfl := Option.some.inj hc
    by_contra hdrop
    have hshort : (trim drop (first::rest)).length ≤ rest.length := by
      have hfirst : (first::rest).dropWhile drop=rest.dropWhile drop :=
        dropWhile_cons_of_pos (by simpa using hdrop)
      unfold trim
      rw [hfirst]
      exact ((List.rdropWhile_prefix drop (l := rest.dropWhile drop)).length_le).trans
        (dropWhile_suffix drop (l := rest)).length_le
    rw [h] at hshort
    exact absurd hshort (by simp)

theorem last_of_trim_eq_self (h : trim drop text=text) {c : α} (hc : text.getLast?=some c) :
    drop c=false := by
  have hne : text≠[] := by
    rintro rfl
    cases hc
  have hwhole : text.dropWhile drop≠[] := fun hnil => hne (by
    rw [← h,trim,hnil,rdropWhile_nil])
  by_contra hdrop
  have hlast : (text.dropWhile drop).getLast hwhole=c := by
    have hsuffix := dropWhile_suffix drop (l := text)
    have hsame := hsuffix.getLast hwhole
    rw [hsame]
    exact Option.some.inj ((List.getLast?_eq_some_getLast hne).symm.trans hc)
  have hkept : ¬(text.dropWhile drop).rdropWhile drop=text.dropWhile drop := by
    rw [rdropWhile_eq_self_iff]
    intro hall
    exact hall hwhole (by rw [hlast]; simpa using hdrop)
  have hlength : ((text.dropWhile drop).rdropWhile drop).length=text.length := by
    rw [show (text.dropWhile drop).rdropWhile drop=text from h]
  have hdropped : (text.dropWhile drop).length≤text.length :=
    (dropWhile_suffix drop (l := text)).length_le
  exact hkept ((List.rdropWhile_prefix drop (l := text.dropWhile drop)).eq_of_length (le_antisymm
    (List.rdropWhile_prefix drop (l := text.dropWhile drop)).length_le (by omega)))

theorem trim_between {first last : List α} (middle : List α) (hfirst : first≠[])
    (htrim : trim drop first=first) (hlast : last≠[]) (htrim' : trim drop last=last) :
    trim drop (first++middle++last)=first++middle++last := by
  refine trim_eq_self (fun c hc => ?_) fun c hc => ?_
  · rw [append_assoc,List.head?_append_of_ne_nil _ hfirst] at hc
    exact head_of_trim_eq_self htrim hc
  · rw [List.getLast?_append_of_ne_nil _ hlast] at hc
    exact last_of_trim_eq_self htrim' hc

end TrimmedText
