import Mathlib

/-!
# Removing keys page by page from several parts

Each part holds keys in growing order and removes at most a limit of them in one
round: the first ones behind a cursor. One cursor drives every part. It is the
last key of the page of the first part that has more, so it says nothing about
where the pages of the other parts end.

A round that leaves a key at or before its cursor leaves it for good. The rounds
therefore empty every part exactly if each cursor lies before the next key of
each part.
-/

namespace PagedRemoval

open List

variable {κ : Type} [LinearOrder κ]

/-- Keys of a list behind a cursor. -/
def behind (cursor : Option κ) (keys : List κ) : List κ :=
  keys.filter fun key => cursor.all fun last => decide (last<key)

/-- A part: its keys and how many of them one round removes. -/
structure KeyPart (κ : Type) [LinearOrder κ] where
  /-- Most keys removed in one round. -/
  limit : ℕ
  /-- Keys that are left. -/
  keys : List κ
  /-- A round may remove something. -/
  positive : 0<limit
  /-- Keys grow. -/
  ascending : keys.Pairwise (· < ·)

namespace KeyPart

/-- Keys removed in the round of a cursor. -/
def page (cursor : Option κ) (part : KeyPart κ) : List κ :=
  (behind cursor part.keys).take part.limit

/-- Whether keys behind the cursor are left after its round. -/
def more (cursor : Option κ) (part : KeyPart κ) : Bool :=
  decide (part.limit<(behind cursor part.keys).length)

/-- The part after the round of a cursor. -/
def swept (cursor : Option κ) (part : KeyPart κ) : KeyPart κ where
  limit := part.limit
  keys := part.keys.filter fun key => decide (key∉part.page cursor)
  positive := part.positive
  ascending := part.ascending.filter _

/-- The part without the keys of its first rounds. -/
def after (rounds : ℕ) (part : KeyPart κ) : KeyPart κ where
  limit := part.limit
  keys := part.keys.drop (rounds*part.limit)
  positive := part.positive
  ascending := part.ascending.drop

/-- Whether some rounds do not suffice for a part. -/
def exceeds (rounds : ℕ) (part : KeyPart κ) : Bool :=
  decide (rounds*part.limit<part.keys.length)

end KeyPart

/-- The next cursor: the end of the page of the first part that has more. -/
def leadEnd (cursor : Option κ) (parts : List (KeyPart κ)) : Option κ :=
  (parts.find? (KeyPart.more cursor)).bind fun lead => (lead.page cursor).getLast?

/-- Rounds until no part has more. -/
inductive Sweeps : List (KeyPart κ)→Option κ → List (KeyPart κ)→Prop
  | last {parts : List (KeyPart κ)} {cursor : Option κ}
      (hlast : parts.any (KeyPart.more cursor)=false) :
      Sweeps parts cursor (parts.map (KeyPart.swept cursor))
  | more {parts final : List (KeyPart κ)} {cursor : Option κ}
      (hmore : parts.any (KeyPart.more cursor)=true)
      (hrest : Sweeps (parts.map (KeyPart.swept cursor)) (leadEnd cursor parts) final) :
      Sweeps parts cursor final

/-- The cursor after some rounds that lost no key. -/
def cursorAfter (parts : List (KeyPart κ)) (rounds : ℕ) : Option κ :=
  if rounds=0 then none
  else (parts.find? (KeyPart.exceeds rounds)).bind fun lead => lead.keys[rounds*lead.limit-1]?

/-- The cursor after some rounds lies before the next key of each part. -/
def AlignedAfter (parts : List (KeyPart κ)) (rounds : ℕ) : Prop :=
  ∀ last,cursorAfter parts rounds=some last→∀ part∈parts,∀ next,
    part.keys[rounds*part.limit]?=some next→last<next

/-- Whether the cursor after some rounds lies so can be computed. -/
instance (parts : List (KeyPart κ)) (rounds : ℕ) : Decidable (AlignedAfter parts rounds) :=
  decidable_of_iff ((cursorAfter parts rounds).all (fun last => parts.all fun part =>
    part.keys[rounds*part.limit]?.all fun next => decide (last<next))=true) (by
      simp only [AlignedAfter,Option.all_eq_true,all_eq_true,decide_eq_true_iff])

section Rounds

variable {part : KeyPart κ} {parts final : List (KeyPart κ)} {cursor : Option κ}

theorem mem_behind {keys : List κ} {key : κ} :
    key∈behind cursor keys ↔ key∈keys ∧ ∀ last,cursor=some last→last<key := by
  cases cursor with
  | none | some last => simp [behind]

theorem KeyPart.lt_of_mem_page {key last : κ} (h : key∈part.page (some last)) : last<key :=
  (mem_behind.mp (mem_of_mem_take h)).2 last rfl

theorem KeyPart.mem_swept {key : κ} :
    key∈(part.swept cursor).keys ↔ key∈part.keys ∧ key∉part.page cursor := by
  unfold KeyPart.swept
  rw [mem_filter,decide_eq_true_iff]

theorem KeyPart.ext_of_mem {part part' : KeyPart κ} (hlimit : part.limit=part'.limit)
    (hmem : ∀ key,key∈part.keys ↔ key∈part'.keys) : part=part' := by
  have hnodup : ∀ part : KeyPart κ,part.keys.Nodup := fun part => part.ascending.imp ne_of_lt
  have hperm : part.keys.Perm part'.keys :=
    (perm_ext_iff_of_nodup (hnodup part) (hnodup part')).mpr hmem
  have hkeys : part.keys=part'.keys :=
    hperm.eq_of_pairwise (fun first second _ _ hlt hgt => absurd hgt (not_lt_of_gt hlt))
      part.ascending part'.ascending
  cases part
  cases part'
  simp_all

theorem behind_eq_self {keys : List κ} (h : ∀ last,cursor=some last→∀ key∈keys,last<key) :
    behind cursor keys=keys := by
  refine filter_eq_self.mpr fun key hkey => ?_
  cases cursor with
  | none => rfl
  | some last => exact decide_eq_true (h last rfl key hkey)

theorem filter_notMem_take {keys : List κ} (h : keys.Nodup) (count : ℕ) :
    (keys.filter fun key => decide (key∉keys.take count))=keys.drop count := by
  have hsplit : keys.take count++keys.drop count=keys := take_append_drop _ _
  have hapart : ∀ key∈keys.drop count,key∉keys.take count := by
    have hnodup : (keys.take count++keys.drop count).Nodup := by rwa [hsplit]
    intro key hkey hmem
    exact (nodup_append.mp hnodup).2.2 key hmem key hkey rfl
  have hfilter : ∀ rows : List κ,rows=keys.take count++keys.drop count →
      (rows.filter fun key => decide (key∉keys.take count))=keys.drop count := by
    rintro rows rfl
    rw [filter_append,filter_eq_nil_iff.mpr,nil_append,filter_eq_self.mpr]
    · exact fun key hkey => decide_eq_true (hapart key hkey)
    · intro key hkey
      simpa using hkey
  exact hfilter keys hsplit.symm

theorem KeyPart.swept_ahead {rounds : ℕ}
    (h : ∀ last,cursor=some last→∀ key∈(part.after rounds).keys,last<key) :
    (part.after rounds).swept cursor=part.after (rounds+1) := by
  have hnodup : (part.after rounds).keys.Nodup := (part.after rounds).ascending.imp ne_of_lt
  have hkeys : ((part.after rounds).swept cursor).keys=(part.after (rounds+1)).keys := by
    have hpage : (part.after rounds).page cursor=(part.after rounds).keys.take part.limit := by
      unfold KeyPart.page
      rw [behind_eq_self h]
      rfl
    unfold KeyPart.swept
    dsimp only
    rw [hpage,filter_notMem_take hnodup]
    simp only [KeyPart.after,drop_drop]
    congr 1
    ring
  exact (KeyPart.mk.injEq ..).mpr ⟨rfl,hkeys⟩

theorem KeyPart.more_ahead {rounds : ℕ}
    (h : ∀ last,cursor=some last→∀ key∈(part.after rounds).keys,last<key) :
    (part.after rounds).more cursor=part.exceeds (rounds+1) := by
  unfold KeyPart.more KeyPart.exceeds
  rw [behind_eq_self h]
  simp only [KeyPart.after,length_drop,decide_eq_decide]
  have hsplit : (rounds+1)*part.limit=rounds*part.limit+part.limit := by ring
  omega

theorem KeyPart.page_last_ahead {rounds : ℕ}
    (h : ∀ last,cursor=some last→∀ key∈(part.after rounds).keys,last<key)
    (hfull : part.exceeds (rounds+1)=true) :
    ((part.after rounds).page cursor).getLast?=part.keys[(rounds+1)*part.limit-1]? := by
  have hlong : (rounds+1)*part.limit<part.keys.length := of_decide_eq_true hfull
  have hsplit : (rounds+1)*part.limit=rounds*part.limit+part.limit := by ring
  have hpositive := part.positive
  unfold KeyPart.page
  rw [behind_eq_self h,List.getLast?_eq_getElem?]
  simp only [KeyPart.after,length_take,length_drop,List.getElem?_take,List.getElem?_drop]
  rw [if_pos (by omega)]
  congr 1
  omega

theorem KeyPart.ahead_of_head {rounds : ℕ} {last : κ}
    (h : ∀ next,part.keys[rounds*part.limit]?=some next→last<next) :
    ∀ key∈(part.after rounds).keys,last<key := by
  intro key hkey
  have hascending : (part.after rounds).keys.Pairwise (· < ·) := (part.after rounds).ascending
  cases hkeys : (part.after rounds).keys with
  | nil =>
    rw [hkeys] at hkey
    cases hkey
  | cons next others =>
    have hnext : part.keys[rounds*part.limit]?=some next := by
      have hhead : (part.keys.drop (rounds*part.limit)).head?=some next := by
        change (part.after rounds).keys.head?=some next
        rw [hkeys]
        rfl
      rwa [List.head?_drop] at hhead
    rw [hkeys] at hkey hascending
    rcases mem_cons.mp hkey with rfl | hother
    · exact h key hnext
    · exact (h next hnext).trans ((pairwise_cons.mp hascending).1 key hother)

end Rounds

section Runs

variable {parts final original : List (KeyPart κ)} {cursor : Option κ} {rounds : ℕ}

theorem KeyPart.exists_page_last {part : KeyPart κ} (h : part.more cursor=true) :
    ∃ last∈part.page cursor,(part.page cursor).getLast?=some last := by
  have hlong : part.limit<(behind cursor part.keys).length := of_decide_eq_true h
  have hpositive := part.positive
  have hne : part.page cursor≠[] := by
    intro hnil
    have hlength : (part.page cursor).length=0 := by rw [hnil]; rfl
    unfold KeyPart.page at hlength
    rw [length_take] at hlength
    omega
  exact ⟨_,getLast_mem hne,List.getLast?_eq_some_getLast hne⟩

theorem leadEnd_eq_none : leadEnd cursor parts=none ↔ parts.any (KeyPart.more cursor)=false := by
  constructor
  · intro h
    cases hfind : parts.find? (KeyPart.more cursor) with
    | none =>
      rw [any_eq_false]
      exact List.find?_eq_none.mp hfind
    | some lead =>
      obtain ⟨last,_,hlast⟩ := lead.exists_page_last (List.find?_some hfind)
      unfold leadEnd at h
      rw [hfind,Option.bind_some,hlast] at h
      cases h
  · intro h
    have hfind : parts.find? (KeyPart.more cursor)=none :=
      List.find?_eq_none.mpr (any_eq_false.mp h)
    unfold leadEnd
    rw [hfind]
    rfl

theorem leadEnd_append_singleton (part : KeyPart κ) : leadEnd cursor (parts++[part])=
    if (leadEnd cursor parts).isNone then
      if part.more cursor then (part.page cursor).getLast? else none else leadEnd cursor parts := by
  cases hlead : leadEnd cursor parts with
  | none =>
    have hfind : parts.find? (KeyPart.more cursor)=none :=
      List.find?_eq_none.mpr (any_eq_false.mp (leadEnd_eq_none.mp hlead))
    unfold leadEnd
    rw [List.find?_append,hfind]
    cases hmore : part.more cursor with
    | false | true => simp [hmore]
  | some last =>
    unfold leadEnd at hlead ⊢
    obtain ⟨lead,hfind,_⟩ := Option.bind_eq_some_iff.mp hlead
    rw [List.find?_append,hfind,Option.some_or,← hfind,hlead]
    rfl

theorem lt_leadEnd {last next : κ} (hcursor : cursor=some last)
    (h : leadEnd cursor parts=some next) : last<next := by
  obtain ⟨lead,hlead,hnext⟩ := Option.bind_eq_some_iff.mp h
  subst hcursor
  exact KeyPart.lt_of_mem_page (mem_of_getLast? hnext)

theorem swept_length_lt {part : KeyPart κ} (h : part.more cursor=true) :
    (part.swept cursor).keys.length<part.keys.length := by
  obtain ⟨last,hlast,_⟩ := part.exists_page_last h
  have hmem : last∈part.keys := (mem_behind.mp (mem_of_mem_take hlast)).1
  refine length_filter_lt_length_iff_exists.mpr ⟨last,hmem,?_⟩
  simpa using hlast

/-- Sweeping page by page ends. -/
theorem exists_sweeps (parts : List (KeyPart κ)) (cursor : Option κ) :
    ∃ final,Sweeps parts cursor final := by
  -- Induction on the number of keys: a round with more to come removes at least one.
  induction hleft : (parts.map fun part => part.keys.length).sum using Nat.strong_induction_on
    generalizing parts cursor with
  | _ count ih =>
    cases hmore : parts.any (KeyPart.more cursor) with
    | false => exact ⟨_,.last hmore⟩
    | true =>
      obtain ⟨part,hpart,hpartMore⟩ := any_eq_true.mp hmore
      have hfewer : ((parts.map (KeyPart.swept cursor)).map fun part => part.keys.length).sum <
          count := by
        rw [← hleft,map_map]
        refine sum_lt_sum _ _ (fun part _ => ?_) ⟨part,hpart,swept_length_lt hpartMore⟩
        exact length_filter_le _ _
      obtain ⟨final,hfinal⟩ := ih _ hfewer (parts.map (KeyPart.swept cursor)) (leadEnd cursor parts) rfl
      exact ⟨final,.more hmore hfinal⟩

theorem Sweeps.left_of_passed (h : Sweeps parts cursor final) {key last : κ}
    (hcursor : cursor=some last) (hpassed : key≤last) (hkey : ∃ part∈parts,key∈part.keys) :
    ∃ part∈final,key∈part.keys := by
  have hswept : ∀ {parts : List (KeyPart κ)} {cursor : Option κ} {last : κ},cursor=some last →
      key≤last→(∃ part∈parts,key∈part.keys) →
        ∃ part∈parts.map (KeyPart.swept cursor),key∈part.keys := by
    rintro parts _ last rfl hpassed ⟨part,hpart,hmem⟩
    refine ⟨part.swept (some last),mem_map_of_mem hpart,mem_filter.mpr ⟨hmem,?_⟩⟩
    refine decide_eq_true fun hpage => ?_
    exact absurd (KeyPart.lt_of_mem_page hpage) (not_lt.mpr hpassed)
  induction h generalizing last with
  | last _ => exact hswept hcursor hpassed hkey
  | @more parts final cursor hmore _ ih =>
    obtain ⟨part,hpart,hpartMore⟩ := any_eq_true.mp hmore
    cases hfind : parts.find? (KeyPart.more cursor) with
    | none => exact absurd hpartMore (List.find?_eq_none.mp hfind part hpart)
    | some lead =>
      obtain ⟨next,_,hnext⟩ := lead.exists_page_last (List.find?_some hfind)
      have hlead : leadEnd cursor parts=some next := by
        unfold leadEnd
        rwa [hfind]
      have hlt : last<next := lt_leadEnd hcursor hlead
      exact ih hlead (hpassed.trans hlt.le) (hswept hcursor hpassed hkey)

theorem KeyPart.exceeds_mono {part : KeyPart κ} {fewer : ℕ} (hle : fewer ≤ rounds)
    (h : part.exceeds rounds=true) : part.exceeds fewer=true := by
  have hlong : rounds*part.limit<part.keys.length := of_decide_eq_true h
  exact decide_eq_true ((Nat.mul_le_mul_right _ hle).trans_lt hlong)

/-- One round of parts none of which lost a key. -/
theorem aligned_round (haligned : AlignedAfter original rounds) :
    (original.map (KeyPart.after rounds)).map (KeyPart.swept (cursorAfter original rounds))=
      original.map (KeyPart.after (rounds+1)) ∧
    (original.map (KeyPart.after rounds)).any (KeyPart.more (cursorAfter original rounds))=
      original.any (KeyPart.exceeds (rounds+1)) ∧
    leadEnd (cursorAfter original rounds) (original.map (KeyPart.after rounds))=
      cursorAfter original (rounds+1) := by
  have hahead : ∀ part∈original,∀ last,cursorAfter original rounds=some last →
      ∀ key∈(part.after rounds).keys,last<key := fun part hpart last hlast =>
    KeyPart.ahead_of_head (haligned last hlast part hpart)
  have hmore : ∀ part∈original,(part.after rounds).more (cursorAfter original rounds)=
      part.exceeds (rounds+1) := fun part hpart => KeyPart.more_ahead (hahead part hpart)
  refine ⟨?_,?_,?_⟩
  · rw [map_map]
    exact map_congr_left fun part hpart => KeyPart.swept_ahead (hahead part hpart)
  · rw [any_map,Bool.eq_iff_iff,any_eq_true,any_eq_true]
    refine exists_congr fun part => and_congr_right fun hpart => ?_
    rw [Function.comp_apply,hmore part hpart]
  · have hfind : (original.map (KeyPart.after rounds)).find?
        (KeyPart.more (cursorAfter original rounds))=
          (original.find? (KeyPart.exceeds (rounds+1))).map (KeyPart.after rounds) := by
      rw [List.find?_map]
      congr 1
      exact List.find?_congr fun part hpart => hmore part hpart
    have hnext : cursorAfter original (rounds+1)=(original.find? (KeyPart.exceeds (rounds+1))).bind
        fun lead => lead.keys[(rounds+1)*lead.limit-1]? := if_neg (Nat.succ_ne_zero _)
    unfold leadEnd
    rw [hfind,hnext]
    cases hlead : original.find? (KeyPart.exceeds (rounds+1)) with
    | none => rfl
    | some lead =>
      have hmem : lead∈original := mem_of_find?_eq_some hlead
      exact KeyPart.page_last_ahead (hahead lead hmem) (List.find?_some hlead)

theorem Sweeps.not_emptied (h : Sweeps (original.map (KeyPart.after rounds))
    (cursorAfter original rounds) final) (hpassed : ¬AlignedAfter original rounds) :
    ∃ part∈final,part.keys≠[] := by
  unfold AlignedAfter at hpassed
  push Not at hpassed
  obtain ⟨last,hlast,part,hpart,next,hnext,hle⟩ := hpassed
  have hmem : next∈(part.after rounds).keys := by
    have hhead : (part.after rounds).keys.head?=some next := by
      change (part.keys.drop (rounds*part.limit)).head?=some next
      rwa [List.head?_drop]
    exact mem_of_mem_head? hhead
  obtain ⟨other,hother,hleft⟩ := h.left_of_passed hlast hle
    ⟨part.after rounds,mem_map_of_mem hpart,hmem⟩
  exact ⟨other,hother,ne_nil_of_mem hleft⟩

theorem emptied_of_not_exceeds (h : original.any (KeyPart.exceeds rounds)=false) :
    (∀ part∈original.map (KeyPart.after rounds),part.keys=[]) ∧
      ∀ later,rounds≤later → AlignedAfter original later := by
  have hshort : ∀ part∈original,part.exceeds rounds=false := by simpa using h
  constructor
  · intro part hpart
    obtain ⟨whole,hwhole,rfl⟩ := mem_map.mp hpart
    exact drop_eq_nil_of_le (not_lt.mp (of_decide_eq_false (hshort whole hwhole)))
  · intro later hlater last hlast part hpart next hnext
    have hexceeds : part.exceeds later=true :=
      decide_eq_true (List.getElem?_eq_some_iff.mp hnext).1
    have hnot := hshort part hpart
    rw [KeyPart.exceeds_mono hlater hexceeds] at hnot
    cases hnot

/-- Rounds that have lost nothing so far empty every part exactly if they never
lose a key. -/
theorem Sweeps.emptied_iff_from (h : Sweeps parts cursor final)
    (hparts : parts=original.map (KeyPart.after rounds)) (hcursor : cursor=cursorAfter original rounds)
    (hbefore : ∀ earlier < rounds,AlignedAfter original earlier) :
    (∀ part∈final,part.keys=[]) ↔ ∀ rounds,AlignedAfter original rounds := by
  induction h generalizing rounds with
  | @last parts cursor hlast =>
    by_cases haligned : AlignedAfter original rounds
    · obtain ⟨hswept,hany,_⟩ := aligned_round haligned
      subst hparts hcursor
      rw [hany] at hlast
      rw [hswept]
      obtain ⟨hempty,hlater⟩ := emptied_of_not_exceeds hlast
      refine iff_of_true hempty fun other => ?_
      rcases lt_trichotomy other rounds with hlt | rfl | hgt
      · exact hbefore other hlt
      · exact haligned
      · exact hlater other hgt
    · subst hparts hcursor
      obtain ⟨part,hpart,hkeys⟩ := Sweeps.not_emptied (.last hlast) haligned
      exact iff_of_false (fun hempty => hkeys (hempty part hpart)) fun hall => haligned (hall rounds)
  | @more parts final cursor hmore hrest ih =>
    by_cases haligned : AlignedAfter original rounds
    · obtain ⟨hswept,_,hlead⟩ := aligned_round haligned
      subst hparts hcursor
      refine ih hswept hlead fun earlier hearlier => ?_
      rcases Nat.lt_succ_iff_lt_or_eq.mp hearlier with hlt | rfl
      · exact hbefore earlier hlt
      · exact haligned
    · subst hparts hcursor
      obtain ⟨part,hpart,hkeys⟩ := Sweeps.not_emptied (.more hmore hrest) haligned
      exact iff_of_false (fun hempty => hkeys (hempty part hpart)) fun hall => haligned (hall rounds)

/-- A sweep empties every part iff the parts stay aligned. -/
theorem Sweeps.emptied_iff (h : Sweeps original none final) :
    (∀ part∈final,part.keys=[]) ↔ ∀ rounds,AlignedAfter original rounds := by
  have hstart : original=original.map (KeyPart.after 0) := by
    have hid : (KeyPart.after 0 : KeyPart κ→KeyPart κ)=id := by
      funext part
      simp [KeyPart.after]
    rw [hid,map_id]
  exact h.emptied_iff_from hstart rfl fun earlier hlt => absurd hlt (Nat.not_lt_zero _)

end Runs

end PagedRemoval
