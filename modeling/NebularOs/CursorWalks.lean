import Mathlib

/-!
# Walks that go on behind a key

A walk reads rows page by page. A page that is not the last names a key, and the page
after it has rows behind that key only. What a turn of the walk sees may differ from
turn to turn. A row that every turn would see is listed by one of them; and when every
turn sees the same rows, the pages together list each of them once, and the walk ends.
-/

namespace CursorWalks

open List

variable {ρ κ ι : Type} [LinearOrder κ]

/-- A page of a walk. -/
structure Page (ρ κ : Type) where
  /-- Rows of the page. -/
  rows : List ρ
  /-- The key behind which the walk goes on, unless it has ended. -/
  next : Option κ

/-- Keys behind a cursor. Every key is behind no cursor. -/
def Behind (start : Option κ) (key : κ) : Prop := ∀ cursor∈start,cursor<key

instance (start : Option κ) (key : κ) : Decidable (Behind start key) :=
  match start with
  | none => .isTrue fun _ h => nomatch h
  | some cursor => decidable_of_iff (cursor<key) (by simp [Behind])

theorem behind_none (key : κ) : Behind none key := fun _ h => nomatch h

@[simp]
theorem behind_some {cursor key : κ} : Behind (some cursor) key ↔ cursor<key := by
  simp [Behind]

theorem Behind.trans_lt {start : Option κ} {key key' : κ} (h : Behind start key) (hlt : key<key') :
    Behind start key' :=
  fun cursor hcursor => (h cursor hcursor).trans hlt

/-- Turns of which each goes on where the one before it stopped, up to a last page. -/
inductive Walk (turn : ι→Option κ→Page ρ κ) : Option κ → List ι→Prop
  | last {start : Option κ} {i : ι} (h : (turn i start).next=none) : Walk turn start [i]
  | more {start : Option κ} {i : ι} {next : κ} {rest : List ι}
      (h : (turn i start).next=some next) (hrest : Walk turn (some next) rest) :
      Walk turn start (i::rest)

/-- Pages of the turns of a walk. -/
def pages (turn : ι→Option κ→Page ρ κ) : Option κ → List ι → List (Page ρ κ)
  | _,[] => []
  | start,i::rest => turn i start::pages turn (turn i start).next rest

/-- Rows that the turns of a walk list. -/
def listed (turn : ι→Option κ→Page ρ κ) (start : Option κ) (turns : List ι) : List ρ :=
  (pages turn start turns).flatMap Page.rows

omit [LinearOrder κ] in
theorem listed_cons (turn : ι→Option κ→Page ρ κ) (start : Option κ) (i : ι) (rest : List ι) :
    listed turn start (i::rest)=(turn i start).rows++listed turn (turn i start).next rest :=
  flatMap_cons

section Rules

variable {turn : ι→Option κ→Page ρ κ} {start : Option κ} {turns : List ι}

/-- A walk does not pass over what each turn lists or leaves ahead. -/
theorem Walk.lists (h : Walk turn start turns) {key : κ} {sought : ρ→Prop}
    (hturn : ∀ i∈turns,∀ cursor,Behind cursor key→(∃ row∈(turn i cursor).rows,sought row) ∨
      ∃ next∈(turn i cursor).next,next<key)
    (hstart : Behind start key) : ∃ row∈listed turn start turns,sought row := by
  induction h with
  | @last start i hlast =>
    rw [listed_cons]
    rcases hturn i mem_cons_self start hstart with ⟨row,hrow,hsought⟩ | ⟨next,hnext,_⟩
    · exact ⟨row,mem_append_left _ hrow,hsought⟩
    · rw [hlast] at hnext
      cases hnext
  | @more start i next rest hmore hrest ih =>
    rw [listed_cons,hmore]
    rcases hturn i mem_cons_self start hstart with ⟨row,hrow,hsought⟩ | ⟨next',hnext,hlt⟩
    · exact ⟨row,mem_append_left _ hrow,hsought⟩
    · rw [hmore] at hnext
      cases hnext
      obtain ⟨row,hrow,hsought⟩ := ih (fun j hj => hturn j (mem_cons_of_mem i hj))
        (behind_some.mpr hlt)
      exact ⟨row,mem_append_right _ hrow,hsought⟩

/-- A turn that sees a fixed list of rows. -/
structure Sees (key : ρ→κ) (all : List ρ) (page : Option κ→Page ρ κ) : Prop where
  /-- A page lists rows behind the cursor, up to the key that it names. -/
  rows : ∀ start,∀ row∈(page start).rows,row∈all ∧ Behind start (key row) ∧
    ∀ next∈(page start).next,key row≤next
  /-- A page lists no row twice. -/
  nodup : ∀ start,(page start).rows.Nodup
  /-- What a page does not list is behind the key that it names. -/
  lists : ∀ start,∀ row∈all,Behind start (key row) → row∈(page start).rows ∨
    ∃ next∈(page start).next,next<key row
  /-- The key that a page names is the key of a row behind the cursor. -/
  moves : ∀ start,∀ next∈(page start).next,∃ row∈all,key row=next ∧ Behind start next

variable {key : ρ→κ} {all : List ρ}

/-- No row of a steady table is listed twice. -/
theorem Walk.listed_nodup (h : Walk turn start turns) (hsees : ∀ i∈turns,Sees key all (turn i)) :
    (listed turn start turns).Nodup ∧
      ∀ row∈listed turn start turns,row∈all ∧ Behind start (key row) := by
  induction h with
  | @last start i hlast =>
    have hpage := hsees i mem_cons_self
    have hlisted : listed turn start [i]=(turn i start).rows := append_nil _
    rw [hlisted]
    exact ⟨hpage.nodup start,fun row hrow =>
      ⟨(hpage.rows start row hrow).1,(hpage.rows start row hrow).2.1⟩⟩
  | @more start i next rest hmore hrest ih =>
    have hpage := hsees i mem_cons_self
    obtain ⟨hnodup,hbehind⟩ := ih fun j hj => hsees j (mem_cons_of_mem i hj)
    rw [listed_cons,hmore]
    constructor
    · refine nodup_append.mpr ⟨hpage.nodup start,hnodup,?_⟩
      rintro row hrow _ hrow' rfl
      have hle : key row≤next := (hpage.rows start row hrow).2.2 next hmore
      exact absurd (behind_some.mp (hbehind row hrow').2) hle.not_gt
    · intro row hrow
      rcases mem_append.mp hrow with hrow | hrow
      · exact ⟨(hpage.rows start row hrow).1,(hpage.rows start row hrow).2.1⟩
      · obtain ⟨hmem,hlt⟩ := hbehind row hrow
        obtain ⟨_,_,_,hnext⟩ := hpage.moves start next hmore
        exact ⟨hmem,hnext.trans_lt (behind_some.mp hlt)⟩

/-- A walk over a steady table lists each row after its start once. -/
theorem Walk.perm (h : Walk turn start turns) (hsees : ∀ i∈turns,Sees key all (turn i))
    (hall : all.Nodup) :
    (listed turn start turns).Perm (all.filter fun row => decide (Behind start (key row))) := by
  obtain ⟨hnodup,hbehind⟩ := h.listed_nodup hsees
  refine (perm_ext_iff_of_nodup hnodup (hall.filter _)).mpr fun row => ?_
  rw [mem_filter,decide_eq_true_iff]
  refine ⟨hbehind row,fun hrow => ?_⟩
  have hturn : ∀ i∈turns,∀ cursor,Behind cursor (key row) →
      (∃ row'∈(turn i cursor).rows,row'=row) ∨ ∃ next∈(turn i cursor).next,next<key row := by
    intro i hi cursor hcursor
    refine ((hsees i hi).lists cursor row hrow.1 hcursor).imp_left fun hmem => ?_
    exact ⟨row,hmem,rfl⟩
  obtain ⟨row',hrow',rfl⟩ := h.lists hturn hrow.2
  exact hrow'

/-- Turns that see a fixed list of rows come to an end. -/
theorem exists_walk (feed : ℕ→ι) (hsees : ∀ n,Sees key all (turn (feed n))) (start : Option κ) :
    ∃ n,Walk turn start ((List.range n).map feed) := by
  -- The rows behind the cursor get fewer with every page.
  induction hrest : (all.filter fun row => decide (Behind start (key row))).length using
    Nat.strong_induction_on generalizing feed start with
  | _ count ih =>
    subst hrest
    cases hnext : (turn (feed 0) start).next with
    | none => exact ⟨1,.last hnext⟩
    | some next =>
      obtain ⟨row,hrow,hkey,hbehind⟩ := (hsees 0).moves start next hnext
      have hfewer : (all.filter fun row => decide (Behind (some next) (key row))).length <
          (all.filter fun row => decide (Behind start (key row))).length := by
        have hsplit : all.filter (fun row => decide (Behind (some next) (key row)))=
            (all.filter fun row => decide (Behind start (key row))).filter
              fun row => decide (Behind (some next) (key row)) := by
          rw [filter_filter]
          refine filter_congr fun other _ => ?_
          by_cases hlt : next<key other
          · have hboth := hbehind.trans_lt hlt
            simp [hlt,hboth]
          · simp [hlt]
        rw [hsplit]
        refine length_filter_lt_length_iff_exists.mpr ⟨row,?_,?_⟩
        · rw [mem_filter,decide_eq_true_iff,hkey]
          exact ⟨hrow,hbehind⟩
        · simp [hkey]
      obtain ⟨n,hwalk⟩ := ih _ hfewer (fun n => feed (n+1)) (fun n => hsees (n+1)) (some next) rfl
      refine ⟨n+1,?_⟩
      rw [range_succ_eq_map,map_cons,map_map]
      exact .more hnext hwalk

end Rules

end CursorWalks
