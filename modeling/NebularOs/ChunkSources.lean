import Mathlib

/-!
# Sources that are read chunk by chunk

A source has a state and gives a next chunk, its end, or an error. What a reader
gets from a source that it reads to the end is the concatenation of the chunks,
wherever they are cut. A source that keeps a promise of what it still has to give,
and comes nearer to its end with every chunk, gives exactly that.
-/

namespace ChunkSources

variable {σ α : Type}

/-- One read: a chunk, the end, or an error, and the next state. -/
abbrev Source (σ α : Type) := σ→Except String (Option (List α))×σ

/-- Reading chunks up to the end or an error, at most as many as the fuel says. -/
def collect (read : Source σ α) : ℕ→σ→Option (Except String (List α))×σ
  | 0,s => (none,s)
  | fuel+1,s =>
    match read s with
    | (.error e,s) => (some (.error e),s)
    | (.ok none,s) => (some (.ok []),s)
    | (.ok (some chunk),s) =>
      match collect read fuel s with
      | (some (.ok rest),s) => (some (.ok (chunk++rest)),s)
      | (other,s) => (other,s)

/-- The source gives some items and then ends without an error, in some state. -/
def Yields (read : Source σ α) (s : σ) (items : List α) (s' : σ) : Prop :=
  ∃ fuel,collect read fuel s=(some (.ok items),s')

section Rules

variable {read : Source σ α} {s s' next : σ} {chunk items rest : List α}

theorem yields_stop (h : read s=(.ok none,s')) : Yields read s [] s' := by
  refine ⟨1,?_⟩
  unfold collect
  rw [h]

theorem yields_more (h : read s=(.ok (some chunk),next)) (hrest : Yields read next rest s') :
    Yields read s (chunk++rest) s' := by
  obtain ⟨fuel,hrest⟩ := hrest
  refine ⟨fuel+1,?_⟩
  unfold collect
  rw [h]
  dsimp only
  rw [hrest]

/-- What the first read of a source can have been. -/
theorem collect_cases {fuel : ℕ} (h : collect read fuel s=(some (.ok items),s')) :
    (read s=(.ok none,s') ∧ items=[]) ∨
      ∃ chunk next less rest,fuel=less+1 ∧ read s=(.ok (some chunk),next) ∧
        collect read less next=(some (.ok rest),s') ∧ items=chunk++rest := by
  cases fuel with
  | zero => cases h
  | succ less =>
    unfold collect at h
    rcases hread : read s with ⟨outcome,next⟩
    rw [hread] at h
    cases outcome with
    | error e => cases h
    | ok found =>
      cases found with
      | none =>
        obtain ⟨hitems,rfl⟩ := Prod.mk.inj h
        exact Or.inl ⟨rfl,(Except.ok.inj (Option.some.inj hitems)).symm⟩
      | some chunk =>
        dsimp only at h
        cases hrest : collect read less next with
        | mk outcome last =>
          rw [hrest] at h
          match outcome,hrest,h with
          | some (.ok rest),hrest,h =>
            obtain ⟨hitems,rfl⟩ := Prod.mk.inj h
            exact Or.inr ⟨chunk,next,less,rest,rfl,rfl,hrest,
              (Except.ok.inj (Option.some.inj hitems)).symm⟩
          | some (.error e),_,h => cases h
          | none,_,h => cases h

theorem Yields.induct {motive : σ → List α→σ→Prop}
    (stop : ∀ s s',read s=(.ok none,s')→motive s [] s')
    (more : ∀ s chunk next rest s',read s=(.ok (some chunk),next)→Yields read next rest s' →
      motive next rest s' → motive s (chunk++rest) s')
    (h : Yields read s items s') : motive s items s' := by
  obtain ⟨fuel,h⟩ := h
  induction fuel generalizing s items with
  | zero => cases h
  | succ fuel ih =>
    rcases collect_cases h with ⟨hread,rfl⟩ | ⟨chunk,next,less,rest,hfuel,hread,hrest,rfl⟩
    · exact stop s s' hread
    · obtain rfl := Nat.succ.inj hfuel
      exact more s chunk next rest s' hread ⟨fuel,hrest⟩ (ih hrest)

theorem Yields.cases (h : Yields read s items s') : (read s=(.ok none,s') ∧ items=[]) ∨
      ∃ chunk next rest,read s=(.ok (some chunk),next) ∧ Yields read next rest s' ∧
        items=chunk++rest := by
  obtain ⟨fuel,h⟩ := h
  rcases collect_cases h with hstop | ⟨chunk,next,less,rest,_,hread,hrest,hitems⟩
  · exact Or.inl hstop
  · exact Or.inr ⟨chunk,next,rest,hread,⟨less,hrest⟩,hitems⟩

/-- A promise of what a source still has to give, kept by every read. -/
structure Promise (read : Source σ α) (owes : σ → List α→Prop) (left : σ→ℕ) : Prop where
  /-- The source ends if it owes nothing more, or gives a part of what it owes and
  comes nearer to its end. -/
  step : ∀ {s items},owes s items →
    (items=[] ∧ ∃ s',read s=(.ok none,s') ∧ owes s' []) ∨
      ∃ chunk next rest,read s=(.ok (some chunk),next) ∧ items=chunk++rest ∧ owes next rest ∧
        left next<left s

/-- A source that keeps its promise yields what it owes. -/
theorem Promise.yields {owes : σ → List α→Prop} {left : σ→ℕ} (h : Promise read owes left)
    (howes : owes s items) : ∃ s',Yields read s items s' ∧ owes s' [] := by
  induction hleft : left s using Nat.strong_induction_on generalizing s items with
  | _ count ih =>
    rcases h.step howes with ⟨rfl,s',hread,hend⟩ | ⟨chunk,next,rest,hread,rfl,hnext,hless⟩
    · exact ⟨s',yields_stop hread,hend⟩
    · obtain ⟨s',hrest,hend⟩ := ih _ (hleft ▸ hless) hnext rfl
      exact ⟨s',yields_more hread hrest,hend⟩

/-- A source yields one content. -/
theorem Yields.unique {items' : List α} {t : σ} (h : Yields read s items s')
    (h' : Yields read s items' t) : items=items' ∧ s'=t := by
  refine Yields.induct (motive := fun s items s' => ∀ items' t,Yields read s items' t →
    items=items' ∧ s'=t) ?_ ?_ h items' t h'
  · intro s s' hread items' t h'
    rcases h'.cases with ⟨hstop,rfl⟩ | ⟨chunk,next,rest,hmore,_,_⟩
    · rw [hread] at hstop
      exact ⟨rfl,(Prod.mk.inj hstop).2⟩
    · rw [hread] at hmore
      cases (Prod.mk.inj hmore).1
  · intro s chunk next rest s' hread _ ih items' t h'
    rcases h'.cases with ⟨hstop,_⟩ | ⟨chunk',next',rest',hmore,hrest,rfl⟩
    · rw [hread] at hstop
      cases (Prod.mk.inj hstop).1
    · rw [hread] at hmore
      obtain ⟨hchunk,rfl⟩ := Prod.mk.inj hmore
      obtain ⟨rfl,rfl⟩ := ih rest' t hrest
      exact ⟨by rw [Option.some.inj (Except.ok.inj hchunk)],rfl⟩

theorem Yields.embed {τ : Type} {outer : Source τ α} {into : σ→τ}
    (hinto : ∀ s,outer (into s)=((read s).1,into (read s).2)) (h : Yields read s items s') :
    Yields outer (into s) items (into s') := by
  refine Yields.induct (motive := fun s items s' => Yields outer (into s) items (into s')) ?_ ?_ h
  · intro s s' hread
    exact yields_stop (by rw [hinto,hread])
  · intro s chunk next rest s' hread _ ih
    exact yields_more (by rw [hinto,hread]) ih

theorem Yields.project {τ : Type} {outer : Source τ α} {into : σ→τ} {t : τ}
    (hinto : ∀ s,outer (into s)=((read s).1,into (read s).2))
    (h : Yields outer (into s) items t) : ∃ s',Yields read s items s' := by
  obtain ⟨start,hstart⟩ : ∃ start,start=into s := ⟨_,rfl⟩
  rw [← hstart] at h
  refine Yields.induct (motive := fun start items _ => ∀ s,start=into s →
    ∃ s',Yields read s items s') ?_ ?_ h s hstart
  · rintro start t hread s rfl
    rw [hinto] at hread
    exact ⟨_,yields_stop (Prod.ext (Prod.mk.inj hread).1 rfl)⟩
  · rintro start chunk next rest t hread _ ih s rfl
    rw [hinto] at hread
    obtain ⟨hchunk,hnext⟩ := Prod.mk.inj hread
    obtain ⟨s',hrest⟩ := ih (read s).2 hnext.symm
    exact ⟨s',yields_more (Prod.ext hchunk rfl) hrest⟩

end Rules

section Ends

variable {read : Source σ α} {s s' next : σ} {chunk : List α} {outcome : Except String (List α)}

/-- The source is read to its end or to an error, with that outcome. -/
def Ends (read : Source σ α) (s : σ) (outcome : Except String (List α)) : Prop :=
  ∃ fuel s',collect read fuel s=(some outcome,s')

theorem Yields.ends {items : List α} (h : Yields read s items s') : Ends read s (.ok items) := by
  obtain ⟨fuel,h⟩ := h
  exact ⟨fuel,s',h⟩

theorem ends_error {e : String} (h : read s=(.error e,s')) : Ends read s (.error e) := by
  refine ⟨1,s',?_⟩
  unfold collect
  rw [h]

theorem ends_more (h : read s=(.ok (some chunk),next)) (hrest : Ends read next outcome) :
    Ends read s (outcome.map (chunk++·)) := by
  obtain ⟨fuel,s',hrest⟩ := hrest
  refine ⟨fuel+1,s',?_⟩
  unfold collect
  rw [h]
  dsimp only
  rw [hrest]
  cases outcome with
  | error e | ok rest => rfl

theorem collect_mono {fuel fuel' : ℕ} (h : collect read fuel s=(some outcome,s'))
    (hle : fuel≤fuel') : collect read fuel' s=(some outcome,s') := by
  induction fuel generalizing fuel' s s' outcome with
  | zero => cases h
  | succ fuel ih =>
    obtain ⟨more,rfl⟩ : ∃ more,fuel'=more+1 := Nat.exists_eq_succ_of_ne_zero (by omega)
    unfold collect at h ⊢
    rcases hread : read s with ⟨first,next⟩
    rw [hread] at h
    match first,h with
    | .error e,h => exact h
    | .ok none,h => exact h
    | .ok (some chunk),h =>
      dsimp only at h ⊢
      cases hrest : collect read fuel next with
      | mk inner last =>
        rw [hrest] at h
        match inner,hrest,h with
        | none,_,h => cases h
        | some (.ok rest),hrest,h =>
          rwa [ih hrest (by omega)]
        | some (.error e),hrest,h =>
          rwa [ih hrest (by omega)]

theorem Ends.unique {outcome' : Except String (List α)} (h : Ends read s outcome)
    (h' : Ends read s outcome') : outcome=outcome' := by
  obtain ⟨fuel,t,h⟩ := h
  obtain ⟨fuel',t',h'⟩ := h'
  have hsame := (collect_mono h (Nat.le_max_left fuel fuel')).symm.trans
    (collect_mono h' (Nat.le_max_right fuel fuel'))
  exact Option.some.inj (Prod.mk.inj hsame).1

/-- A source inside another one is read there as it is by itself. -/
theorem collect_embed {τ : Type} {outer : Source τ α} {into : σ→τ}
    (hinto : ∀ s,outer (into s)=((read s).1,into (read s).2)) {fuel : ℕ}
    (h : collect read fuel s=(some outcome,s')) :
    collect outer fuel (into s)=(some outcome,into s') := by
  induction fuel generalizing s s' outcome with
  | zero => cases h
  | succ fuel ih =>
    unfold collect at h ⊢
    rw [hinto]
    rcases hread : read s with ⟨first,next⟩
    rw [hread] at h
    match first,h with
    | .error e,h =>
      obtain ⟨houtcome,rfl⟩ := Prod.mk.inj h
      exact Prod.ext houtcome rfl
    | .ok none,h =>
      obtain ⟨houtcome,rfl⟩ := Prod.mk.inj h
      exact Prod.ext houtcome rfl
    | .ok (some chunk),h =>
      dsimp only at h ⊢
      cases hrest : collect read fuel next with
      | mk inner last =>
        rw [hrest] at h
        match inner,hrest,h with
        | none,_,h => cases h
        | some (.ok rest),hrest,h =>
          obtain ⟨houtcome,rfl⟩ := Prod.mk.inj h
          rw [ih hrest]
          exact Prod.ext houtcome rfl
        | some (.error e),hrest,h =>
          obtain ⟨houtcome,rfl⟩ := Prod.mk.inj h
          rw [ih hrest]
          exact Prod.ext houtcome rfl

theorem Ends.embed {τ : Type} {outer : Source τ α} {into : σ→τ}
    (hinto : ∀ s,outer (into s)=((read s).1,into (read s).2)) (h : Ends read s outcome) :
    Ends outer (into s) outcome := by
  obtain ⟨fuel,s',h⟩ := h
  exact ⟨fuel,into s',collect_embed hinto h⟩

/-- A source that counts down the items it has to give: it ends without an error only
when none is left, and comes nearer to its end with every chunk. -/
structure Metered (read : Source σ α) (owed left : σ→ℕ) : Prop where
  /-- Ends come at zero. -/
  stop : ∀ {s s'},read s=(.ok none,s') → owed s=0
  /-- Chunks are counted. -/
  more : ∀ {s chunk next},read s=(.ok (some chunk),next) →
    owed s=chunk.length+owed next ∧ left next<left s

theorem Metered.ends {owed left : σ→ℕ} (h : Metered read owed left) (s : σ) :
    ∃ outcome,Ends read s outcome ∧ ∀ items,outcome=.ok items → items.length=owed s := by
  induction hleft : left s using Nat.strong_induction_on generalizing s with
  | _ count ih =>
    rcases hread : read s with ⟨first,next⟩
    match first,hread with
    | .error e,hread => exact ⟨.error e,ends_error hread,fun items heq => nomatch heq⟩
    | .ok none,hread =>
      refine ⟨.ok [],(yields_stop hread).ends,fun items heq => ?_⟩
      rw [← Except.ok.inj heq,h.stop hread]
      rfl
    | .ok (some chunk),hread =>
      obtain ⟨hcount,hless⟩ := h.more hread
      obtain ⟨outcome,hends,hlength⟩ := ih _ (hleft ▸ hless) next rfl
      refine ⟨outcome.map (chunk++·),ends_more hread hends,fun items heq => ?_⟩
      cases outcome with
      | error e => cases heq
      | ok rest =>
        rw [← Except.ok.inj heq,List.length_append,hlength rest rfl,hcount]

theorem Metered.collects {owed left : σ→ℕ} (h : Metered read owed left) {fuel : ℕ}
    (hfuel : left s<fuel) : ∃ outcome s',collect read fuel s=(some outcome,s') := by
  induction fuel generalizing s with
  | zero => omega
  | succ fuel ih =>
    unfold collect
    rcases hread : read s with ⟨first,next⟩
    match first,hread with
    | .error e,hread => exact ⟨_,_,rfl⟩
    | .ok none,hread => exact ⟨_,_,rfl⟩
    | .ok (some chunk),hread =>
      have hless := (h.more hread).2
      obtain ⟨outcome,last,hrest⟩ := @ih next (by omega)
      dsimp only
      rw [hrest]
      cases outcome with
      | error e | ok rest => exact ⟨_,_,rfl⟩

/-- A source that answers as another does yields the same. -/
theorem Yields.transfer {read' : Source σ α}
    (hreads : ∀ s found next,read s=(.ok found,next) → read' s=(.ok found,next))
    (h : Yields read s items s') : Yields read' s items s' := by
  refine Yields.induct (motive := fun s items s' => Yields read' s items s') ?_ ?_ h
  · intro s s' hread
    exact yields_stop (hreads s none s' hread)
  · intro s chunk next rest s' hread _ ih
    exact yields_more (hreads s (some chunk) next hread) ih

end Ends

end ChunkSources
