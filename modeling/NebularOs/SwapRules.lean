import Mathlib
import NebularOs.OperationRules

/-!
# Rules for the steps of a swap

A swap looks for the previous blobs, reserves capacity and renames a staged file into
place, on another device through a copy beside the destination. These rules say once what
such a step has done when it ends and wherever it is stopped. Which operations may fail
is a parameter here too.
-/

namespace NebularOs.SwapRules

open RequestPrograms EngineState WritePath OperationRules Program Machine

variable {K P B α : Type} [DecidableEq P]

/-- States with the same rows, reference counts and bytes in flight. -/
structure SameTables (w w' : World K P B) : Prop where
  /-- No row changed. -/
  rows : w'.rows=w.rows
  /-- No reference count changed. -/
  dedup : w'.dedup=w.dedup
  /-- The bytes in flight are the same. -/
  inFlight : w'.inFlight=w.inFlight

omit [DecidableEq P] in
theorem SameTables.trans {w w' w'' : World K P B} (h : SameTables w w') (h' : SameTables w' w'') :
    SameTables w w'' :=
  ⟨h'.rows.trans h.rows,h'.dedup.trans h.dedup,h'.inFlight.trans h.inFlight⟩

/-- Copies made beside a destination. -/
def IsBeside (name : Scratch) : Prop :=
  name.1=.beside

/-- States that agree on tables and blobs, and on temporary files outside an exempt set. -/
structure SameFiles (exempt : Scratch→Prop) (w w' : World K P B) : Prop extends
    SameTables w w' where
  /-- No blob changed. -/
  blobs : w'.blobs=w.blobs
  /-- No other temporary file changed. -/
  scratch : ∀ name,¬exempt name→w'.scratch.lookup name=w.scratch.lookup name

omit [DecidableEq P] in
theorem SameFiles.refl (exempt : Scratch→Prop) (w : World K P B) : SameFiles exempt w w :=
  ⟨⟨rfl,rfl,rfl⟩,rfl,fun _ _ => rfl⟩

/-- States that agree on everything a failed commit must leave alone. -/
structure SameStore (w w' : World K P B) : Prop extends SameTables w w' where
  /-- Every path holds the same content. -/
  contents : ∀ path,w'.contentAt path=w.contentAt path

theorem SameStore.refl (w : World K P B) : SameStore w w :=
  ⟨⟨rfl,rfl,rfl⟩,fun _ => rfl⟩

theorem SameStore.trans {w w' w'' : World K P B} (h : SameStore w w') (h' : SameStore w' w'') :
    SameStore w w'' :=
  ⟨h.toSameTables.trans h'.toSameTables,fun path => (h'.contents path).trans (h.contents path)⟩

theorem SameFiles.sameStore {exempt : Scratch→Prop} {w w' : World K P B} (h : SameFiles exempt w w') :
    SameStore w w' := by
  refine ⟨h.toSameTables,fun path => ?_⟩
  unfold World.contentAt
  rw [h.blobs]

/-- What a rename into place did when it succeeded. -/
structure Placed (w w' : World K P B) (source : Scratch) (target : P) : Prop extends
    SameTables w w' where
  /-- The journal is the same. -/
  intents : w'.intents=w.intents
  /-- No other blob changed. -/
  others : ∀ path,path≠target→w'.blobs.lookup path=w.blobs.lookup path
  /-- No other temporary file changed, except copies beside a destination. -/
  scratch : ∀ name,name≠source→¬IsBeside name→w'.scratch.lookup name=w.scratch.lookup name
  /-- The destination is a link to the source's inode already, or it is now the
  source's file, or a copy of it with an inode of its own. -/
  target : ∃ file placed,w.scratch.lookup source=some file ∧
    w'.blobs.lookup target=some placed ∧
      ((w.blobs.lookup target=some placed ∧ placed.inode=file.inode) ∨
        (placed=file ∧ ∀ old,w.blobs.lookup target=some old → old.inode≠file.inode) ∨
        placed=⟨w.freshInode,file.content⟩)

/-- What a rename into place can have done so far, wherever it is stopped. -/
structure Moving (w w' : World K P B) (source : Scratch) (target : P) : Prop where
  /-- The rows are the same. -/
  rows : w'.rows=w.rows
  /-- The journal is the same. -/
  intents : w'.intents=w.intents
  /-- Other blobs are the same. -/
  others : ∀ path,path≠target→w'.blobs.lookup path=w.blobs.lookup path
  /-- The destination is as before, or holds the source's content. -/
  target : w'.blobs.lookup target=w.blobs.lookup target ∨ ∃ file placed,
    w.scratch.lookup source=some file ∧ w'.blobs.lookup target=some placed ∧
      placed.content=file.content

section Placing

variable {w w' : World K P B} {source : Scratch} {target : P}

theorem SameFiles.moving {exempt : Scratch→Prop} (h : SameFiles exempt w w')
    (hintents : w'.intents=w.intents) : Moving w w' source target :=
  ⟨h.rows,hintents,fun _ _ => by rw [h.blobs],.inl (by rw [h.blobs])⟩

theorem Placed.moving (h : Placed w w' source target) : Moving w w' source target := by
  refine ⟨h.rows,h.intents,h.others,?_⟩
  obtain ⟨file,placed,hfile,hplaced,⟨hold,_⟩ | ⟨rfl,_⟩ | rfl⟩ := h.target
  · exact .inl (hplaced.trans hold.symm)
  · exact .inr ⟨_,_,hfile,hplaced,rfl⟩
  · exact .inr ⟨_,_,hfile,hplaced,rfl⟩

theorem Placed.eraseSource (h : Placed w w' source target) :
    Placed w { w' with scratch := w'.scratch.erase source } source target :=
  ⟨⟨h.rows,h.dedup,h.inFlight⟩,h.intents,h.others,fun name hname hbeside =>
    (AList.lookup_erase_ne hname).trans (h.scratch name hname hbeside),h.target⟩

/-- A rename of the source, or of a copy beside the destination, places the source. -/
theorem placed_renameOver {moved : Scratch} {file copy : StoredFile B}
    (hsame : SameFiles IsBeside w w') (hintents : w'.intents=w.intents)
    (hfile : w.scratch.lookup source=some file)
    (hcopy : copy=file ∨ copy=⟨w.freshInode,file.content⟩) (hmoved : moved=source ∨ IsBeside moved) :
    Placed w (w'.renameOver moved target copy) source target := by
  unfold World.renameOver
  rw [hsame.blobs]
  by_cases hlinked : (w.blobs.lookup target).any (·.inode==copy.inode)=true
  · obtain ⟨old,hold,hinode⟩ := (Option.any_eq_true _ _).mp hlinked
    rw [if_pos hlinked]
    have hown : old.inode=copy.inode := beq_iff_eq.mp hinode
    refine ⟨hsame.toSameTables,hintents,fun _ _ => by rw [hsame.blobs],
      fun name _ hbeside => hsame.scratch name hbeside,file,old,hfile,by rw [hsame.blobs,hold],.inl ?_⟩
    rcases hcopy with rfl | rfl
    · exact ⟨hold,hown⟩
    · exact absurd hown (World.blob_inode_ne_fresh hold)
  · rw [if_neg hlinked]
    refine ⟨⟨hsame.rows,hsame.dedup,hsame.inFlight⟩,hintents,
      fun path hpath => AList.lookup_insert_ne hpath,fun name hname hbeside => ?_,
      file,copy,hfile,AList.lookup_insert _,.inr ?_⟩
    · have hother : name≠moved := by
        rintro rfl
        exact hmoved.elim hname hbeside
      exact (AList.lookup_erase_ne hother).trans (hsame.scratch name hbeside)
    · refine hcopy.imp (fun hown => ⟨hown,fun old hold hinode => hlinked ?_⟩) id
      rw [hold,hown,Option.any_some]
      exact beq_iff_eq.mpr hinode

end Placing

section Rules

variable [DecidableEq K] {t : ℕ} {w : World K P B} {post : α→World K P B→Prop}
  {mayFail : Action K P B→Bool} {invariant : World K P B→Prop} {engine : Engine K P B}

/-- A rename into place may fail: an operation of its role may, or there is no source. -/
def MayFail (mayFail : Action K P B→Bool) (role : Role) (source : Scratch) (w : World K P B) :
    Prop :=
  (∃ a : Action K P B,a.isCleanup=decide (role=.cleanup) ∧ mayFail a=true) ∨
    w.scratch.lookup source=none

/-- A rename into place places its source, or changes no table and no blob. -/
theorem maintains_renameIntoPlace {role : Role} {source : Scratch} {target : P}
    {rest : Bool→Prog K P B α} (hinv : ∀ w',Moving w w' source target → invariant w')
    (hplaced : ∀ w',Placed w w' source target →
      (guarded mayFail).maintains t invariant (rest true) post w')
    (hfailed : MayFail mayFail role source w→∀ w',SameFiles IsBeside w w' → w'.intents=w.intents →
      (guarded mayFail).maintains t invariant (rest false) post w') :
    (guarded mayFail).maintains t invariant ((renameIntoPlace role source target).bind rest)
      post w := by
  have hself : SameFiles IsBeside w w := .refl _ w
  have hbeside : ∀ name,¬IsBeside name→name≠(.beside,w.nextId) :=
    fun name hname heq => hname (by rw [heq]; rfl)
  have hstay : ∀ w',SameFiles IsBeside w w' → w'.intents=w.intents→invariant w' :=
    fun w' hsame hintents => hinv w' (hsame.moving hintents)
  simp only [renameIntoPlace,monad_bind_eq,op_eq_ask,ask_bind,pure_eq_done,done_bind,maintains_ask,
    ensures_rename,ensures_done]
  refine ⟨hstay w hself rfl,fun hmay => hfailed (.inl ⟨_,rfl,hmay⟩) w hself rfl,fun _ => ?_,?_⟩
  · have hgiveUp : MayFail mayFail role source w→∀ w',SameFiles IsBeside w w' →
        w'.intents=w.intents→(guarded mayFail).maintains t invariant
          (.ask (.removeScratch .cleanup (.beside,w.nextId)) fun _ => rest false) post w' := by
      intro hwhy w' hsame hintents
      simp only [maintains_ask,ensures_removeScratch]
      refine ⟨hstay w' hsame hintents,fun _ => hfailed hwhy w' hsame hintents,
        hfailed hwhy _ ⟨⟨hsame.rows,hsame.dedup,hsame.inFlight⟩,hsame.blobs,fun name hname => ?_⟩
          hintents⟩
      exact (AList.lookup_erase_ne (hbeside name hname)).trans (hsame.scratch name hname)
    have hdrawn : SameFiles IsBeside w { w with nextId := w.nextId+1 } :=
      ⟨⟨rfl,rfl,rfl⟩,rfl,fun _ _ => rfl⟩
    simp only [placeCopy,monad_bind_eq,op_eq_ask,ask_bind,done_bind,pure_eq_done,maintains_ask,
      ensures_freshId,ensures_done,ensures_copyScratch]
    refine ⟨hstay w hself rfl,hstay _ hdrawn rfl,
      fun hmay => hgiveUp (.inl ⟨_,rfl,hmay⟩) _ hdrawn rfl,?_⟩
    cases hfile : w.scratch.lookup source with
    | none => exact hgiveUp (.inr hfile) _ hdrawn rfl
    | some file =>
      have hcopied : SameFiles IsBeside w { w with
          nextId := w.nextId+1
          scratch := w.scratch.insert (.beside,w.nextId) ⟨w.freshInode,file.content⟩ } :=
        ⟨⟨rfl,rfl,rfl⟩,rfl,fun name hname => AList.lookup_insert_ne (hbeside name hname)⟩
      simp only [if_true,ask_bind,done_bind,maintains_ask,ensures_sync,ensures_rename,ensures_done,
        AList.lookup_insert]
      refine ⟨hstay _ hcopied rfl,fun hmay => hgiveUp (.inl ⟨_,rfl,hmay⟩) _ hcopied rfl,
        hstay _ hcopied rfl,fun hmay => hgiveUp (.inl ⟨_,rfl,hmay⟩) _ hcopied rfl,
        fun hfar => absurd rfl hfar,?_⟩
      have hmoved : Placed w _ source target := placed_renameOver hcopied rfl hfile (.inr rfl)
        (.inr (rfl : IsBeside (.beside,w.nextId)))
      simp only [decide_true,if_true,ask_bind,done_bind,maintains_ask,ensures_removeScratch]
      exact ⟨hinv _ hmoved.moving,fun _ => hplaced _ hmoved,hplaced _ hmoved.eraseSource⟩
  · cases hfile : w.scratch.lookup source with
    | none => exact hfailed (.inr hfile) w hself rfl
    | some file => exact hplaced _ (placed_renameOver hself rfl hfile (.inl rfl) (.inl rfl))

theorem ensures_renameIntoPlace {role : Role} {source : Scratch} {target : P}
    {rest : Bool→Prog K P B α}
    (hplaced : ∀ w',Placed w w' source target→(guarded mayFail).ensures t (rest true) post w')
    (hfailed : MayFail mayFail role source w→∀ w',SameFiles IsBeside w w' →
      (guarded mayFail).ensures t (rest false) post w') :
    (guarded mayFail).ensures t ((renameIntoPlace role source target).bind rest) post w :=
  ensures_iff_maintains.mpr (maintains_renameIntoPlace (fun _ _ => trivial)
    (fun w' h => ensures_iff_maintains.mp (hplaced w' h))
    fun hwhy w' h _ => ensures_iff_maintains.mp (hfailed hwhy w' h))

variable {paths : List P}

theorem maintains_existingPaths {rest : List P→Prog K P B α} (hinv : invariant w)
    (h : ∀ found,(guarded mayFail).maintains t invariant (rest found) post w) :
    (guarded mayFail).maintains t invariant ((existingPaths paths).bind rest) post w := by
  induction paths generalizing rest with
  | nil => exact h []
  | cons path paths ih =>
    simp only [existingPaths,monad_bind_eq,op_eq_ask,ask_bind,bind_assoc,pure_eq_done,done_bind,
      maintains_ask,ensures_pathExists,ensures_done]
    exact ⟨hinv,ih fun found => h _⟩

theorem ensures_existingPaths {rest : List P→Prog K P B α}
    (h : ∀ found,(guarded mayFail).ensures t (rest found) post w) :
    (guarded mayFail).ensures t ((existingPaths paths).bind rest) post w :=
  ensures_iff_maintains.mpr (maintains_existingPaths trivial fun found =>
    ensures_iff_maintains.mp (h found))

theorem maintains_previousRefs {rest : List BlockRef→Prog K P B α}
    (hinv : invariant w) (h : ∀ refs,(guarded mayFail).maintains t invariant (rest refs) post w) :
    (guarded mayFail).maintains t invariant ((previousRefs engine paths).bind rest) post w := by
  induction paths generalizing rest with
  | nil => exact h []
  | cons path paths ih =>
    simp only [previousRefs,manifestEntries,monad_bind_eq,op_eq_ask,ask_bind,bind_assoc,pure_eq_done,
      done_bind,maintains_ask,ensures_readBlob,ensures_done]
    exact ⟨hinv,fun _ => ih fun refs => h _,ih fun refs => h _⟩

theorem ensures_previousRefs {rest : List BlockRef→Prog K P B α}
    (h : ∀ refs,(guarded mayFail).ensures t (rest refs) post w) :
    (guarded mayFail).ensures t ((previousRefs engine paths).bind rest) post w :=
  ensures_iff_maintains.mpr (maintains_previousRefs trivial fun refs =>
    ensures_iff_maintains.mp (h refs))

variable {existingBytes : ℤ} {incomingBytes : ℕ}
  {rest : Except StorageError (Option Int64)→Prog K P B α}

/-- A reservation counts what it answers, and a refused one leaves the state as it was. -/
theorem maintains_reserveCapacity
    (hinv : ∀ lock inFlight,invariant { w with capacityLock := lock,inFlight := inFlight })
    (hadmitted : admits engine w existingBytes incomingBytes→∀ reserved : Option Int64,
      (guarded mayFail).maintains t invariant (rest (.ok reserved)) post
        { w with inFlight := w.inFlight+reserved.getD 0 })
    (hrefused : ∀ e,(guarded mayFail).maintains t invariant (rest (.error e)) post w) :
    (guarded mayFail).maintains t invariant
      ((reserveCapacity engine existingBytes incomingBytes).bind rest) post w := by
  unfold reserveCapacity
  split
  · rename_i hnocap
    have hnone := hadmitted (.inl hnocap) none
    rwa [Option.getD_none,Int64.add_zero] at hnone
  simp only [monad_bind_eq,op_eq_ask,ask_bind,done_bind,pure_eq_done,maintains_ask,
    ensures_lockCapacity,ensures_loadInFlight,ensures_totalBytes,ensures_done]
  refine ⟨hinv _ _,fun hfree => ?_⟩
  have hunlocked : ∀ inFlight : Int64,
      { w with capacityLock := none,inFlight := inFlight }={ w with inFlight := inFlight } :=
    fun inFlight => by rw [← hfree]
  have hunlock : ∀ e,(guarded mayFail).maintains t invariant
      (.ask .unlockCapacity fun _ => rest (.error e)) post { w with capacityLock := some t } := by
    intro e
    simp only [maintains_ask,ensures_unlockCapacity,ensures_done]
    refine ⟨hinv _ _,fun _ => ?_⟩
    rw [hunlocked]
    exact hrefused e
  refine ⟨hinv _ _,hinv _ _,fun _ => hunlock _,?_⟩
  split
  · exact hunlock _
  rename_i current hcurrent
  split
  · exact hunlock _
  rename_i hprojected
  have hrange : (-2^63≤w.activeBytes ∧ w.activeBytes<2^63) ∧ w.activeBytes=current := by
    have hite : (if -2^63≤w.activeBytes ∧ w.activeBytes<2^63 then some w.activeBytes
        else none)=some current := hcurrent
    simpa [Option.ite_none_right_eq_some] using hite
  obtain ⟨hrange,rfl⟩ := hrange
  simp only [ask_bind,done_bind,maintains_ask,ensures_addInFlight,ensures_unlockCapacity,
    ensures_done]
  refine ⟨hinv _ _,hinv _ _,fun _ => ?_⟩
  rw [hunlocked]
  exact hadmitted (.inr ⟨hrange,not_lt.mp hprojected⟩) (some _)

theorem ensures_reserveCapacity
    (hadmitted : admits engine w existingBytes incomingBytes→∀ reserved : Option Int64,
      (guarded mayFail).ensures t (rest (.ok reserved)) post
        { w with inFlight := w.inFlight+reserved.getD 0 })
    (hrefused : ∀ e,(guarded mayFail).ensures t (rest (.error e)) post w) :
    (guarded mayFail).ensures t ((reserveCapacity engine existingBytes incomingBytes).bind rest)
      post w :=
  ensures_iff_maintains.mpr (maintains_reserveCapacity (fun _ _ => trivial)
    (fun hadmits reserved => ensures_iff_maintains.mp (hadmitted hadmits reserved))
    fun e => ensures_iff_maintains.mp (hrefused e))

end Rules

end NebularOs.SwapRules
