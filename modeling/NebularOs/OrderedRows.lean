import Mathlib

/-!
# Rows in the order of their keys

A table answers ordered queries: the rows that pass a test, sorted by a key that
no two rows share. Then a test may be applied before or after sorting, and the
rows behind a cursor are the ones that follow the cursor's row. For keys that are
words in lexicographic order, the words with a common beginning stand together.
-/

namespace OrderedRows

open List

variable {ρ κ α : Type} [LinearOrder κ] [LinearOrder α]

/-- Rows sorted by a key. -/
def sortedBy (key : ρ→κ) (rows : List ρ) : List ρ :=
  rows.insertionSort fun first second => key first≤key second

/-- The rows up to a limit. A negative limit is none. -/
def limitRows (limit : ℤ) (rows : List ρ) : List ρ :=
  if limit<0 then rows else rows.take limit.toNat

/-- Rows whose keys grow. -/
def Ascending (key : ρ→κ) (rows : List ρ) : Prop :=
  rows.Pairwise fun first second => key first<key second

instance total_le (key : ρ→κ) : Std.Total fun first second => key first≤key second :=
  ⟨fun first second => le_total (key first) (key second)⟩

instance trans_le (key : ρ→κ) : IsTrans ρ fun first second => key first≤key second :=
  ⟨fun _ _ _ hfirst hsecond => hfirst.trans hsecond⟩

theorem sortedBy_perm (key : ρ→κ) (rows : List ρ) : (sortedBy key rows).Perm rows :=
  perm_insertionSort _ rows

@[simp]
theorem mem_sortedBy {key : ρ→κ} {rows : List ρ} {row : ρ} : row∈sortedBy key rows ↔ row∈rows :=
  (sortedBy_perm key rows).mem_iff

theorem sortedBy_ascending {key : ρ→κ} {rows : List ρ} (h : (rows.map key).Nodup) :
    Ascending key (sortedBy key rows) := by
  have hsorted : (sortedBy key rows).Pairwise fun first second => key first≤key second :=
    pairwise_insertionSort _ rows
  have hnodup : ((sortedBy key rows).map key).Nodup :=
    ((sortedBy_perm key rows).map key).nodup_iff.mpr h
  have hne : (sortedBy key rows).Pairwise fun first second => key first≠key second :=
    pairwise_map.mp hnodup
  exact (hsorted.and hne).imp fun hboth => lt_of_le_of_ne hboth.1 hboth.2

theorem Ascending.eq_of_perm {key : ρ→κ} {rows rows' : List ρ} (h : Ascending key rows)
    (h' : Ascending key rows') (hperm : rows.Perm rows') : rows=rows' :=
  hperm.eq_of_pairwise (fun _ _ _ _ hlt hlt' => absurd hlt (not_lt_of_gt hlt')) h h'

theorem sortedBy_filter {key : ρ→κ} {rows : List ρ} (h : (rows.map key).Nodup)
    (test : ρ→Bool) : sortedBy key (rows.filter test)=(sortedBy key rows).filter test := by
  have hpart : ((rows.filter test).map key).Nodup :=
    h.sublist (filter_sublist.map key)
  have hleft : Ascending key (sortedBy key (rows.filter test)) := sortedBy_ascending hpart
  have hright : Ascending key ((sortedBy key rows).filter test) :=
    List.Pairwise.filter test (sortedBy_ascending h)
  refine hleft.eq_of_perm hright ?_
  exact (sortedBy_perm key _).trans ((sortedBy_perm key rows).symm.filter test)

theorem Ascending.filter_after {key : ρ→κ} {before after : List ρ} {row : ρ}
    {test : ρ→Bool} (h : Ascending key (before++row::after))
    (htest : ∀ other,test other=true ↔ key row<key other) :
    (before++row::after).filter test=after := by
  obtain ⟨_,htail,hacross⟩ := pairwise_append.mp h
  have hbefore : before.filter test=[] := by
    refine filter_eq_nil_iff.mpr fun other hother => ?_
    have hlt : key other<key row := hacross other hother row mem_cons_self
    rw [htest]
    exact not_lt_of_gt hlt
  have hafter : after.filter test=after := by
    refine filter_eq_self.mpr fun other hother => ?_
    rw [htest]
    exact (pairwise_cons.mp htail).1 other hother
  have hself : test row≠true := by
    rw [ne_eq,htest]
    exact lt_irrefl _
  rw [filter_append,hbefore,nil_append,filter_cons_of_neg hself,hafter]

theorem Ascending.eq_of_key {key : ρ→κ} {rows : List ρ} (h : Ascending key rows)
    {row other : ρ} (hrow : row∈rows) (hother : other∈rows) (hkey : key row=key other) :
    row=other := by
  have hnodup : (rows.map key).Nodup :=
    pairwise_map.mpr (List.Pairwise.imp (fun hlt => ne_of_lt hlt) h)
  exact inj_on_of_nodup_map hnodup hrow hother hkey

theorem cons_le_cons_word {first second : α} {rest rest' : List α} :
    first::rest ≤ second::rest' ↔ first<second ∨ first=second ∧ rest ≤ rest' := by
  have hlt : second::rest'<first::rest ↔ second<first ∨ second=first ∧ rest' < rest :=
    cons_lt_cons_iff
  rw [← not_lt,hlt]
  rcases lt_trichotomy first second with h | h | h
  · simp [h,h.not_gt,h.ne']
  · subst h
    simp [not_lt]
  · simp [h,h.not_gt,h.ne']

theorem prefix_of_between {common low middle high : List α} (hlow : common<+:low)
    (hhigh : common<+:high) (hfirst : low ≤ middle) (hsecond : middle≤high) : common<+:middle := by
  induction common generalizing low middle high with
  | nil => exact List.nil_prefix
  | cons letter common ih =>
    obtain ⟨lowRest,rfl⟩ := hlow
    obtain ⟨highRest,rfl⟩ := hhigh
    cases middle with
    | nil =>
      have hlt : []<letter::(common++lowRest) := nil_lt_cons _ _
      exact absurd hfirst (not_le_of_gt hlt)
    | cons second middle =>
      rcases cons_le_cons_word.mp hfirst with hlt | ⟨rfl,hrest⟩
      · rcases cons_le_cons_word.mp hsecond with hlt' | ⟨heq,_⟩
        · exact absurd hlt (not_lt_of_gt hlt')
        · exact absurd heq (ne_of_gt hlt)
      · rcases cons_le_cons_word.mp hsecond with hlt' | ⟨_,hrest'⟩
        · exact absurd hlt' (lt_irrefl _)
        have hcommon : common<+:middle := ih ⟨lowRest,rfl⟩ ⟨highRest,rfl⟩ hrest hrest'
        exact (prefix_cons_inj letter).mpr hcommon

end OrderedRows
