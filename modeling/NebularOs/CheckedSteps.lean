import Mathlib
import NebularOs.ByteFields

/-!
# Steps that may fault

Arithmetic on machine words, indexing, slicing and reserving memory stop the program when
they leave their range. A checked run makes every such step explicit: it ends with a result,
which may itself be an error that the program reports, or with the fault that stopped it. A
walk over a list faults exactly if a step does that all the steps before let it reach.
-/

namespace NebularOs.CheckedSteps

open ByteFields List

/-- What stops a program. -/
inductive Fault
  /-- Arithmetic that leaves the range of a word. -/
  | overflow
  /-- An index or a slice outside of its list. -/
  | outOfBounds
  /-- More memory than can be asked for. -/
  | capacity
  deriving DecidableEq

/-- Runs that end with a result or with a fault. -/
abbrev Checked (α : Type) := Except Fault α

variable {α β ι ε : Type}

/-- Runs without a fault. -/
def Sound (run : Checked α) : Prop :=
  ∃ result,run=.ok result

theorem sound_ok (result : α) : Sound (.ok result : Checked α) :=
  ⟨result,rfl⟩

theorem not_sound_error (fault : Fault) : ¬Sound (.error fault : Checked α) := by
  rintro ⟨result,hresult⟩
  cases hresult

@[simp]
theorem ok_bind (result : α) (later : α→Checked β) :
    ((.ok result : Checked α) >>= later)=later result :=
  rfl

@[simp]
theorem error_bind (fault : Fault) (later : α→Checked β) :
    ((.error fault : Checked α) >>= later)=.error fault :=
  rfl

theorem sound_bind_iff {run : Checked α} {later : α→Checked β} (h : ∀ result,Sound (later result)) :
    Sound (run >>= later) ↔ Sound run := by
  cases run with
  | error fault => exact iff_of_false (not_sound_error fault) (not_sound_error fault)
  | ok result => exact iff_of_true (h result) (sound_ok result)

/-- Numbers of a machine word. -/
def wordLimit : ℕ := 2^64

/-- Bytes that can be asked for. -/
def memoryLimit : ℕ := 2^63

/-- Adding two words. -/
def add (first second : ℕ) : Checked ℕ :=
  if first+second<wordLimit then .ok (first+second) else .error .overflow

/-- Multiplying two words. -/
def mul (first second : ℕ) : Checked ℕ :=
  if first*second<wordLimit then .ok (first*second) else .error .overflow

/-- Subtracting a word from another. -/
def sub (first second : ℕ) : Checked ℕ :=
  if second≤first then .ok (first-second) else .error .overflow

/-- An entry of a list. -/
def item (list : List α) (index : ℕ) : Checked α :=
  match list[index]? with
  | some entry => .ok entry
  | none => .error .outOfBounds

/-- The bytes between two offsets. -/
def range (start stop : ℕ) (data : Bytes) : Checked Bytes :=
  if start ≤ stop ∧ stop≤data.length then .ok (slice start (stop-start) data)
  else .error .outOfBounds

/-- Asking for memory. -/
def reserve (bytes : ℕ) : Checked Unit :=
  if bytes < memoryLimit then .ok () else .error .capacity

section Ranges

variable {first second start stop index bytes : ℕ} {list : List α} {data : Bytes}

theorem add_eq (h : first+second<2^64) : add first second=.ok (first+second) :=
  if_pos h

theorem add_overflow (h : 2^64≤first+second) : add first second=.error .overflow :=
  if_neg (not_lt.mpr h)

theorem mul_eq (h : first*second<2^64) : mul first second=.ok (first*second) :=
  if_pos h

theorem sub_eq (h : second≤first) : sub first second=.ok (first-second) :=
  if_pos h

theorem item_eq {entry : α} (h : list[index]?=some entry) : item list index=.ok entry := by
  unfold item
  rw [h]

theorem range_eq (hstart : start ≤ stop) (hstop : stop≤data.length) :
    range start stop data=.ok (slice start (stop-start) data) :=
  if_pos ⟨hstart,hstop⟩

theorem reserve_eq (h : bytes<2^63) : reserve bytes=.ok () :=
  if_pos h

theorem reserve_capacity (h : 2^63≤bytes) : reserve bytes=.error .capacity :=
  if_neg (not_lt.mpr h)

end Ranges

section Walks

variable (step : ι→Checked (Except ε α))

/-- Taking a step for every entry of a list, up to one that reports an error. -/
def walk : List ι→Checked (Except ε (List α))
  | [] => .ok (.ok [])
  | entry::later => do
    match ← step entry with
    | .error e => .ok (.error e)
    | .ok result =>
      match ← walk later with
      | .error e => .ok (.error e)
      | .ok results => .ok (.ok (result::results))

variable {step}

/-- A walk has no fault exactly if every step has none that the steps before let it reach. -/
theorem walk_sound_iff (entries : List ι) :
    Sound (walk step entries) ↔ ∀ before entry after,entries=before++entry::after →
      (∀ earlier∈before,∃ result,step earlier=.ok (.ok result))→Sound (step entry) := by
  induction entries with
  | nil =>
    refine iff_of_true (sound_ok _) ?_
    rintro before entry after hsplit
    cases before <;> cases hsplit
  | cons first later ih =>
    rw [walk]
    cases hfirst : step first with
    | error fault =>
      refine iff_of_false (not_sound_error fault) fun hsteps => ?_
      have hsound := hsteps [] first later rfl (forall_mem_nil _)
      rw [hfirst] at hsound
      exact not_sound_error fault hsound
    | ok outcome =>
      rw [ok_bind]
      cases outcome with
      | error e =>
        refine iff_of_true (sound_ok _) fun before entry after hsplit hbefore => ?_
        cases before with
        | nil =>
          obtain rfl := (List.cons.inj hsplit).1
          exact ⟨_,hfirst⟩
        | cons head before =>
          obtain rfl := (List.cons.inj hsplit).1
          obtain ⟨result,hresult⟩ := hbefore first (mem_cons_self)
          cases hfirst.symm.trans hresult
      | ok result =>
        rw [sound_bind_iff (fun outcome => by cases outcome <;> exact sound_ok _)]
        refine ih.trans ⟨fun hsteps => ?_,fun hsteps => ?_⟩
        · rintro (_ | ⟨head,before⟩) entry after hsplit hbefore
          · obtain rfl := (List.cons.inj hsplit).1
            exact ⟨_,hfirst⟩
          · exact hsteps before entry after (List.cons.inj hsplit).2
              fun earlier hearlier => hbefore earlier (mem_cons_of_mem _ hearlier)
        · intro before entry after hsplit hbefore
          refine hsteps (first::before) entry after (congrArg (first::·) hsplit) ?_
          rintro earlier (_ | ⟨_,hearlier⟩)
          · exact ⟨result,hfirst⟩
          · exact hbefore earlier hearlier

/-- A walk over the first numbers has no fault exactly if every step has none that the steps
before let it reach. -/
theorem walk_range_sound_iff {step : ℕ→Checked (Except ε α)} (count : ℕ) :
    Sound (walk step (List.range count)) ↔ ∀ index<count,
      (∀ earlier < index,∃ result,step earlier=.ok (.ok result))→Sound (step index) := by
  rw [walk_sound_iff]
  constructor
  · intro hsteps index hindex hbefore
    have hsplit : List.range count=List.range index++index::(List.range' (index+1) (count-index-1)) := by
      have hjoin := List.range'_append_1 (s := 0) (m := index) (n := count-index-1+1)
      rw [Nat.zero_add,List.range'_succ] at hjoin
      rw [range_eq_range',range_eq_range',hjoin]
      congr 1
      omega
    exact hsteps (List.range index) index _ hsplit
      fun earlier hearlier => hbefore earlier (mem_range.mp hearlier)
  · intro hsteps before index after hsplit hbefore
    have hlength : before.length<count := by
      have hcount := congrArg List.length hsplit
      rw [length_range,length_append,length_cons] at hcount
      omega
    have hindex : before.length=index := by
      have hget := congrArg (·[before.length]?) hsplit
      rw [List.getElem?_range hlength,List.getElem?_append_right le_rfl,Nat.sub_self] at hget
      exact Option.some.inj hget
    subst hindex
    refine hsteps before.length hlength fun earlier hearlier => hbefore earlier ?_
    have hget := congrArg (·[earlier]?) hsplit
    rw [List.getElem?_range (hearlier.trans hlength),List.getElem?_append_left hearlier] at hget
    exact mem_of_getElem? hget.symm

/-- A walk whose good steps do what a run without checks does, while the others fault and are
errors there, has no fault exactly if an error comes before each of those. -/
theorem walk_range_sound_iff_of_agrees {step : ℕ→Checked (Except ε α)} {plain : ℕ→Except ε α}
    {good : ℕ→Prop} {count : ℕ} (hgood : ∀ index<count,good index→step index=.ok (plain index))
    (hbad : ∀ index<count,¬good index→¬Sound (step index) ∧ ∀ result,plain index≠.ok result) :
    Sound (walk step (List.range count)) ↔ ∀ index<count,¬good index →
      ∃ earlier < index,∀ result,plain earlier≠.ok result := by
  rw [walk_range_sound_iff]
  constructor
  · intro hsteps index hindex hnot
    by_contra hnone
    refine (hbad index hindex hnot).1 (hsteps index hindex fun earlier hearlier => ?_)
    have hinside := hearlier.trans hindex
    obtain ⟨result,hresult⟩ : ∃ result,plain earlier=.ok result := by
      by_contra herror
      exact hnone ⟨earlier,hearlier,not_exists.mp herror⟩
    have hearlierGood : good earlier := by
      by_contra hother
      exact (hbad earlier hinside hother).2 result hresult
    exact ⟨result,(hgood earlier hinside hearlierGood).trans (congrArg Except.ok hresult)⟩
  · intro herrors index hindex hbefore
    by_cases hnot : good index
    · exact ⟨_,hgood index hindex hnot⟩
    obtain ⟨earlier,hearlier,herror⟩ := herrors index hindex hnot
    obtain ⟨result,hresult⟩ := hbefore earlier hearlier
    have hinside := hearlier.trans hindex
    by_cases hearlierGood : good earlier
    · have hplain := (hgood earlier hinside hearlierGood).symm.trans hresult
      exact absurd (Except.ok.inj hplain) (herror result)
    · exact absurd ⟨_,hresult⟩ (hbad earlier hinside hearlierGood).1

/-- Whether a test holds for every entry of a list, up to one for which it does not. -/
def all (test : ι→Checked Bool) : List ι→Checked Bool
  | [] => .ok true
  | entry::later => do
    if ← test entry then all test later else .ok false

theorem all_sound {test : ι→Checked Bool} (entries : List ι)
    (h : ∀ entry∈entries,Sound (test entry)) : Sound (all test entries) := by
  induction entries with
  | nil => exact sound_ok true
  | cons first later ih =>
    rw [forall_mem_cons] at h
    obtain ⟨passed,hpassed⟩ := h.1
    rw [all,hpassed,ok_bind]
    cases passed with
    | false => exact sound_ok false
    | true => exact ih h.2

end Walks

end NebularOs.CheckedSteps
