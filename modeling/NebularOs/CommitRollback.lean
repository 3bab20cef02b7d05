import Mathlib
import NebularOs.SwapRules

/-!
# A failed commit leaves no trace

A commit of a staged blob can fail at many places: a veto of the hook, a
precondition, the byte cap, the backup, the journal, the rename or the row's
own statement. Each has its own compensation. This file runs the commit
symbolically, with every operation before the commit free to fail and every
undo operation succeeding, and shows that an error leaves the object's row, the
content its reads find, the bytes in flight and all reference counts as they
were before the staged blob's references were counted.
-/

namespace NebularOs.CommitRollback

open RequestPrograms EngineState WritePath OperationRules SwapRules List Option Program Machine

variable {K P B α : Type} [DecidableEq K] [DecidableEq P]

/-- Operations that may fail while undo and clean-up operations succeed. The
hook after the commit is left out: its error comes after the change. -/
def failsBeforeCommit : Action K P B→Bool
  | .hookAfter _ => false
  | a => !a.isCleanup

/-- The engine in which undo operations succeed. -/
abbrev undoing (K P B : Type) [DecidableEq K] [DecidableEq P] :
    Machine (Action K P B) Answer ℕ (World K P B) (Choice) :=
  guarded failsBeforeCommit

section Placing

variable {t : ℕ} {w : World K P B} {post : α→World K P B→Prop}

/-- The backup of the current version under an id, if there is a current one: a
link to it, or a copy with an inode no temporary file had. -/
def BacksUp (w w' : World K P B) (path : P) (backup : Option ℕ) : Prop :=
  match backup with
  | none => w.blobs.lookup path=none
  | some id => ∃ file kept,w.blobs.lookup path=some file ∧
      w'.scratch.lookup (.backup,id)=some kept ∧ kept.content=file.content ∧
        (kept=file ∨ (kept.inode≠file.inode ∧
          ∀ name other,w.scratch.lookup name=some other→kept.inode≠other.inode))

variable {engine : Engine K P B} {key : K} {id : ℕ}

theorem ensures_backUpCurrent {rest : Except StorageError (Option ℕ)→Prog K P B α}
    (hbacked : ∀ backup w',SameFiles (·=(.backup,id)) w w' →
      BacksUp w w' (engine.current key) backup→(∀ i,backup=some i → i=id) →
        (undoing K P B).ensures t (rest (.ok backup)) post w')
    (hfailed : ∀ e w',SameFiles (·=(.backup,id)) w w' →
      (undoing K P B).ensures t (rest (.error e)) post w') :
    (undoing K P B).ensures t ((backUpCurrent engine key id).bind rest) post w := by
  simp only [backUpCurrent,monad_bind_eq,op_eq_ask,ask_bind,
    pure_eq_done,ensures_pathExists]
  cases hfile : w.blobs.lookup (engine.current key) with
  | none => exact hbacked none w (.refl _ _) hfile (fun _ hnone => by cases hnone)
  | some file =>
    have hcopy : (undoing K P B).ensures t
        (.ask (.copyFile (engine.current key) (.backup,id)) fun copied =>
          (if copied=true then (.done (.ok (some id)) : Prog K P B _)
            else .ask (.removeScratch .cleanup (.backup,id)) fun _ =>
              .done (.error .internal)).bind rest) post w := by
      have hgiveUp : (undoing K P B).ensures t
          (.ask (.removeScratch .cleanup (.backup,id)) fun _ => rest (.error .internal)) post w := by
        simp only [ensures_removeScratch]
        exact ⟨fun hmay => by simp [failsBeforeCommit,Action.isCleanup] at hmay,
          hfailed _ _ ⟨⟨rfl,rfl,rfl⟩,rfl,fun name hname => AList.lookup_erase_ne hname⟩⟩
      simp only [ensures_copyFile,hfile]
      refine ⟨fun _ => hgiveUp,?_⟩
      refine hbacked (some id) _ ⟨⟨rfl,rfl,rfl⟩,rfl,fun name hname => AList.lookup_insert_ne hname⟩
        ⟨file,_,hfile,AList.lookup_insert _,rfl,Or.inr ⟨?_,fun name other hother => ?_⟩⟩
        (fun i hi => (Option.some.inj hi).symm)
      · exact (World.blob_inode_ne_fresh hfile).symm
      · exact (World.scratch_inode_ne_fresh hother).symm
    simp only [isSome_some,Bool.not_true,Bool.false_eq_true,if_false,ask_bind,
      done_bind,ensures_hardLink,hfile]
    refine ⟨fun _ => hcopy,hcopy,?_⟩
    cases hfree : w.scratch.lookup (.backup,id) with
    | some taken => exact hcopy
    | none =>
      exact hbacked (some id) _ ⟨⟨rfl,rfl,rfl⟩,rfl,fun name hname => AList.lookup_insert_ne hname⟩
        ⟨file,file,hfile,AList.lookup_insert _,rfl,Or.inl rfl⟩
        (fun i hi => (Option.some.inj hi).symm)

variable {rest : Unit→Prog K P B α} {backup : Option ℕ}

theorem ensures_removeBackup (h : ∀ w',SameFiles (fun name => name.1=.backup) w w' →
      (undoing K P B).ensures t (rest ()) post w') :
    (undoing K P B).ensures t ((removeBackup backup).bind rest) post w := by
  cases backup with
  | none => exact h w (.refl _ _)
  | some id =>
    simp only [removeBackup,monad_bind_eq,op_eq_ask,ask_bind,pure_eq_done,
      done_bind,ensures_removeScratch]
    refine ⟨fun hmay => by simp [failsBeforeCommit,Action.isCleanup] at hmay,
      h _ ⟨⟨rfl,rfl,rfl⟩,rfl,fun name hname => AList.lookup_erase_ne fun heq => ?_⟩⟩
    exact hname (by rw [heq])

theorem ensures_removeJournal {intent : Option ℕ}
    (h : ∀ w',SameFiles (fun _ => False) w w' → (undoing K P B).ensures t (rest ()) post w') :
    (undoing K P B).ensures t ((removeJournal intent).bind rest) post w := by
  cases intent with
  | none => exact h w (.refl _ _)
  | some id =>
    simp only [removeJournal,monad_bind_eq,op_eq_ask,ask_bind,pure_eq_done,
      done_bind,ensures_removeIntent]
    exact ⟨fun hmay => by simp [failsBeforeCommit,Action.isCleanup] at hmay,
      h _ ⟨⟨rfl,rfl,rfl⟩,rfl,fun _ _ => rfl⟩⟩

theorem ensures_writeSwapIntent {intent : SwapIntent K} {rest : Bool→Prog K P B α}
    (h : ∀ written w',SameFiles (fun _ => False) w w' →
      (undoing K P B).ensures t (rest written) post w') :
    (undoing K P B).ensures t ((writeSwapIntent engine id intent).bind rest) post w := by
  have hany : ∀ (written : Bool) (intents : Table ℕ (IntentFile K)),
      (undoing K P B).ensures t (rest written) post { w with intents := intents } :=
    fun written intents => h written _ ⟨⟨rfl,rfl,rfl⟩,rfl,fun _ _ => rfl⟩
  simp only [writeSwapIntent,monad_bind_eq,op_eq_ask,ask_bind,
    pure_eq_done,done_bind,ensures_createIntent]
  constructor
  · intro _
    simpa using hany false w.intents
  · simp only [if_true,ask_bind,ensures_fillIntent]
    constructor
    · intro _
      simpa using hany false _
    · cases hsync : engine.fsyncWrites with
      | false => simpa using hany true _
      | true =>
        simp only [done_bind,Bool.and_self,if_true,ask_bind,ensures_sync,
          Bool.false_eq_true,if_false]
        exact ⟨fun _ => hany false _,fun _ => hany false _,hany true _⟩

theorem ensures_journalSwap {change : MetaCommit} {existing : Option ObjectMetadata}
    {rest : Except StorageError (Option ℕ)→Prog K P B α}
    (hwritten : ∀ intent w',SameFiles (fun _ => False) w w' →
      (undoing K P B).ensures t (rest (.ok intent)) post w')
    (hfailed : ∀ e w',SameFiles (fun name => name.1=.backup) w w' →
      (undoing K P B).ensures t (rest (.error e)) post w') :
    (undoing K P B).ensures t ((journalSwap engine key change existing id backup).bind rest)
      post w := by
  unfold journalSwap
  split
  · rw [Program.monad_bind_eq,Program.bind_assoc]
    refine ensures_writeSwapIntent fun written w' hw' => ?_
    cases written with
    | true => exact hwritten _ w' hw'
    | false =>
      simp only [Bool.false_eq_true,if_false,Program.monad_bind_eq,op_eq_ask,Program.ask_bind,
        Program.bind_assoc,Program.done_bind,ensures_removeIntent]
      refine ⟨fun hmay => by simp [failsBeforeCommit,Action.isCleanup] at hmay,?_⟩
      refine ensures_removeBackup fun w'' hw'' => hfailed _ w'' ?_
      have htables : SameTables w' w'' := ⟨hw''.rows,hw''.dedup,hw''.inFlight⟩
      exact ⟨hw'.toSameTables.trans htables,hw''.blobs.trans hw'.blobs,
        fun name hname => (hw''.scratch name hname).trans (hw'.scratch name not_false)⟩
  · exact hwritten none w (.refl _ _)

/-- A backup from which the content of the current path can be brought back. -/
def Restorable (w : World K P B) (path : P) (content : Option B) (backup : Option ℕ) : Prop :=
  match backup with
  | none => content=none
  | some id => ∃ kept,w.scratch.lookup (.backup,id)=some kept ∧ content=some kept.content ∧
      ∀ file,w.blobs.lookup path=some file→file.inode=kept.inode→file.content=kept.content

/-- Undoing a swap brings the content of the current path back. -/
theorem ensures_undoSwap {intent : Option ℕ} {content : Option B}
    (hrestorable : Restorable w (engine.current key) content backup)
    (h : ∀ w',SameTables w w' →
      (∀ path,path≠engine.current key→w'.contentAt path=w.contentAt path) →
      w'.contentAt (engine.current key)=content→(undoing K P B).ensures t (rest ()) post w') :
    (undoing K P B).ensures t ((undoSwap engine key backup intent).bind rest) post w := by
  have hfinish : ∀ (restored : Bool) w',SameTables w w' →
      (∀ path,path≠engine.current key→w'.contentAt path=w.contentAt path) →
      w'.contentAt (engine.current key)=content→(undoing K P B).ensures t
        ((if restored=true then removeJournal intent else pure ()).bind rest) post w' := by
    intro restored w' htables hothers hcurrent
    cases restored with
    | false => exact h w' htables hothers hcurrent
    | true =>
      refine ensures_removeJournal fun w'' hw'' => ?_
      exact h w'' (htables.trans hw''.toSameTables)
        (fun path hpath => (hw''.sameStore.contents path).trans (hothers path hpath))
        ((hw''.sameStore.contents _).trans hcurrent)
  unfold undoSwap
  rw [Program.monad_bind_eq,Program.bind_assoc]
  cases backup with
  | none =>
    simp only [restorePrevious,op_eq_ask,ask_bind,done_bind,ensures_removeBlob]
    refine ⟨fun hmay => by simp [failsBeforeCommit,Action.isCleanup] at hmay,
      hfinish _ _ ⟨rfl,rfl,rfl⟩ (fun path hpath => ?_) ?_⟩
    · simp only [World.contentAt,AList.lookup_erase_ne hpath]
    · have hnone : content=none := hrestorable
      simp only [World.contentAt,AList.lookup_erase,hnone,map_none]
  | some id =>
    obtain ⟨kept,hkept,hcontent,hlinked⟩ := hrestorable
    refine ensures_renameIntoPlace (fun w' hplaced => ?_) (fun hwhy => ?_)
    · refine hfinish true w' hplaced.toSameTables (fun path hpath => ?_) ?_
      · simp only [World.contentAt,hplaced.others path hpath]
      · obtain ⟨file,placed,hfile,hlookup,hcase⟩ := hplaced.target
        obtain rfl : file=kept := Option.some.inj (hfile.symm.trans hkept)
        have hsame : placed.content=file.content := by
          rcases hcase with ⟨hold,hinode⟩ | ⟨rfl,_⟩ | rfl
          · exact hlinked placed hold hinode
          · rfl
          · rfl
        simp only [World.contentAt,hlookup,map_some,hsame,hcontent]
    · rcases hwhy with ⟨a,ha,hmay⟩ | hgone
      · cases a <;> simp_all [failsBeforeCommit]
      rw [hkept] at hgone
      cases hgone

omit [DecidableEq K] in
theorem Restorable.of_placed {w₁ w₂ w₃ : World K P B} {exempt : Scratch→Prop} {staged : Scratch}
    {path : P} (hstaged : staged.1≠.backup) (hbacksUp : BacksUp w w₁ path backup)
    (hkept : SameFiles exempt w w₁) (hexempt : ∀ name,exempt name→name.1=.backup)
    (hjournal : SameFiles (fun _ => False) w₁ w₂) (hplaced : Placed w₂ w₃ staged path) :
    Restorable w₃ path (w.contentAt path) backup := by
  cases backup with
  | none =>
    have hnone : w.blobs.lookup path=none := hbacksUp
    simp only [Restorable,World.contentAt,hnone,map_none]
  | some id =>
    obtain ⟨file,kept,hfile,hlookup,hcontent,hlink⟩ := hbacksUp
    have hbackup : w₃.scratch.lookup (.backup,id)=some kept := by
      have hne : ((.backup,id) : Scratch)≠staged := fun heq => hstaged (by rw [← heq])
      rw [hplaced.scratch _ hne (by simp [IsBeside]),hjournal.scratch _ not_false,hlookup]
    have hsame : w₂.blobs.lookup path=some file := by rw [hjournal.blobs,hkept.blobs,hfile]
    refine ⟨kept,hbackup,?_,fun now hnow hinode => ?_⟩
    · simp only [World.contentAt,hfile,map_some,hcontent]
    obtain ⟨source,placed,hsource,hplacedAt,hcase⟩ := hplaced.target
    obtain rfl : now=placed := Option.some.inj (hnow.symm.trans hplacedAt)
    rcases hcase with ⟨hold,_⟩ | ⟨rfl,hdistinct⟩ | rfl
    · -- The rename was between two links, so the old version is still there.
      rw [hsame] at hold
      rw [← Option.some.inj hold,hcontent]
    · -- The staged file has an inode of its own, and so does a copied backup.
      have hstagedBefore : w.scratch.lookup staged=some now := by
        rw [← hkept.scratch staged fun hex => hstaged (hexempt staged hex),
          ← hjournal.scratch staged not_false,hsource]
      rcases hlink with rfl | ⟨_,hfresh⟩
      · exact absurd hinode.symm (hdistinct kept hsame)
      · exact absurd hinode.symm (hfresh staged now hstagedBefore)
    · -- The copy across devices has an inode no file had.
      have hbefore : w₂.scratch.lookup (.backup,id)=some kept := by
        rw [hjournal.scratch _ not_false,hlookup]
      exact absurd hinode.symm (World.scratch_inode_ne_fresh hbefore)

end Placing

section Commit

variable {t : ℕ} {w : World K P B}

/-- A postcondition about errors. -/
def OnError (holds : World K P B→Prop) (result : Except StorageError ObjectMetadata)
    (w : World K P B) : Prop :=
  ∀ e,result=.error e→holds w

theorem ensures_ok {program : Prog K P B Unit} {value : ObjectMetadata}
    {holds : World K P B→Prop} :
    (undoing K P B).ensures t (program.bind fun _ => .done (.ok value)) (OnError holds) w := by
  rw [ensures_bind]
  exact ensures_of_forall fun _ w' e herror => by cases herror

variable {engine : Engine K P B} {key : K} {staged : Scratch}

/-- An admitted swap that fails stores what it found. -/
theorem ensures_swapAdmitted {change : MetaCommit} {existing : Option ObjectMetadata}
    (hstaged : staged.1≠.backup) :
    (undoing K P B).ensures t (swapAdmitted engine key staged change existing)
      (OnError (SameStore w)) w := by
  unfold swapAdmitted
  rw [monad_bind_eq]
  refine ensures_existingPaths fun previous => ?_
  rw [monad_bind_eq]
  refine ensures_previousRefs fun oldRefs => ?_
  simp only [monad_bind_eq,op_eq_ask,ask_bind,done_bind,
    ensures_createDirAll,Bool.not_true,Bool.false_eq_true,if_false,ensures_freshId]
  refine ⟨fun _ e _ => .refl w,?_⟩
  have hdrawn : SameFiles (fun _ => False) w { w with nextId := w.nextId+1 } :=
    ⟨⟨rfl,rfl,rfl⟩,rfl,fun _ _ => rfl⟩
  refine ensures_backUpCurrent (fun backup w₁ hkept hbacksUp _ => ?_) (fun e w₁ hkept => ?_)
  swap
  · exact fun e' _ => hdrawn.sameStore.trans hkept.sameStore
  refine ensures_journalSwap (fun intent w₂ hjournal => ?_) (fun e w₂ hjournal => ?_)
  swap
  · exact fun e' _ => (hdrawn.sameStore.trans hkept.sameStore).trans hjournal.sameStore
  have hstore : SameStore w w₂ :=
    (hdrawn.sameStore.trans hkept.sameStore).trans hjournal.sameStore
  refine ensures_renameIntoPlace (fun w₃ hplaced => ?_) (fun _ w₃ hfailed => ?_)
  · have hundo : (undoing K P B).ensures t ((undoSwap engine key backup intent).bind fun _ =>
        .done (.error .internal)) (OnError (SameStore w)) w₃ := by
      have hrestorable := Restorable.of_placed hstaged hbacksUp hkept (by simp) hjournal hplaced
      refine ensures_undoSwap hrestorable fun w₄ htables hothers hcurrent e _ => ?_
      refine ⟨(hstore.toSameTables.trans hplaced.toSameTables).trans htables,fun path => ?_⟩
      by_cases hpath : path=engine.current key
      · rw [hpath,hcurrent]
        rfl
      · rw [hothers path hpath,← hstore.contents path]
        simp only [World.contentAt,hplaced.others path hpath]
    have hsettle : ∀ previous,(undoing K P B).ensures t
        (settleSwap engine key change previous backup intent oldRefs) (OnError (SameStore w))
        w₃ := by
      intro previous
      unfold settleSwap commitMetadata
      cases engine.blobOnly with
      | true => exact ensures_ok
      | false =>
        simp only [Bool.false_eq_true,if_false,monad_bind_eq,op_eq_ask,ask_bind,
          done_bind,ensures_upsertObject]
        exact ⟨fun _ => hundo,ensures_ok⟩
    -- A failed sync of the directory is only logged.
    unfold syncParent
    cases engine.fsyncWrites with
    | false => exact hsettle _
    | true =>
      simp only [Bool.not_true,Bool.false_eq_true,if_false,if_true,op_eq_ask,ask_bind,
        done_bind,ensures_sync]
      exact ⟨fun _ => hsettle _,hsettle _⟩
  · refine ensures_removeBackup fun w₄ hw₄ => ensures_removeJournal fun w₅ hw₅ e _ => ?_
    exact ((hstore.trans hfailed.sameStore).trans hw₄.sameStore).trans hw₅.sameStore

variable {post : α→World K P B→Prop}

theorem ensures_releaseCapacity {reserved : Option Int64} {rest : Unit→Prog K P B α}
    (h : (undoing K P B).ensures t (rest ()) post
      { w with inFlight := w.inFlight-reserved.getD 0 }) :
    (undoing K P B).ensures t ((releaseCapacity reserved).bind rest) post w := by
  cases reserved with
  | none => simpa [releaseCapacity] using h
  | some bytes =>
    simp only [releaseCapacity,op_eq_ask,ask_bind,done_bind,ensures_subInFlight]
    exact h

theorem ensures_swapReserved {change : MetaCommit} {existing : Option ObjectMetadata}
    (hstaged : staged.1≠.backup) :
    (undoing K P B).ensures t (swapReserved engine key staged change existing)
      (OnError (SameStore w)) w := by
  refine ensures_reserveCapacity (fun _ reserved => ?_) (fun _ _ _ => .refl w)
  simp only [monad_bind_eq]
  rw [ensures_bind]
  refine ensures_mono (ensures_swapAdmitted hstaged) fun result w' hresult => ?_
  refine ensures_releaseCapacity fun e herror => ?_
  have hstore := hresult e herror
  have hinFlight : w'.inFlight=w.inFlight+reserved.getD 0 := hstore.inFlight
  refine ⟨⟨hstore.rows,hstore.dedup,?_⟩,hstore.contents⟩
  simp only [hinFlight]
  exact Int64.add_sub_cancel _ _

variable {conditions : WriteConditions}

theorem ensures_swapInStaged {change : MetaCommit} (hstaged : staged.1≠.backup) :
    (undoing K P B).ensures t (swapInStaged engine key staged change conditions)
      (OnError (SameStore w)) w := by
  have hsame : ∀ e,(undoing K P B).ensures t (.done (.error e)) (OnError (SameStore w)) w :=
    fun _ _ _ => .refl w
  unfold swapInStaged existingRow
  cases engine.blobOnly with
  | true =>
    simp only [if_true,monad_bind_eq,pure_eq_done,done_bind]
    split
    · exact hsame _
    · exact ensures_swapReserved hstaged
  | false =>
    simp only [Bool.false_eq_true,if_false,monad_bind_eq,op_eq_ask,ask_bind,
      done_bind,ensures_fetchActive]
    refine ⟨fun _ => hsame _,?_⟩
    split
    · exact hsame _
    · exact ensures_swapReserved hstaged

theorem ensures_swapUnlessVetoed {change : MetaCommit} (hstaged : staged.1≠.backup) :
    (undoing K P B).ensures t (swapUnlessVetoed engine key staged change conditions)
      (OnError (SameStore w)) w := by
  unfold swapUnlessVetoed whenHooked
  cases conditions.hook with
  | false => exact ensures_swapInStaged hstaged
  | true =>
    simp only [if_true,monad_bind_eq,op_eq_ask,ask_bind,done_bind,
      ensures_hookBefore]
    exact ⟨fun _ _ _ => .refl w,ensures_swapInStaged hstaged⟩

/-- References to a block among entries. -/
def entriesTo (block : BlockHash) (entries : List BlockRef) : ℕ :=
  (entries.map Prod.fst).count block

theorem ensures_releaseRefs {entries : List BlockRef}
    {rest : Unit→Prog K P B α}
    (h : ∀ w',w'.rows=w.rows→w'.blobs=w.blobs→w'.inFlight=w.inFlight →
      (∀ block,w'.refcount block=w.refcount block-entriesTo block entries) →
        (undoing K P B).ensures t (rest ()) post w') :
    (undoing K P B).ensures t ((releaseRefs entries).bind rest) post w := by
  have hdrop : ∀ now (w₁ : World K P B) (next : Bool→Prog K P B α),
      (∀ w',w'.rows=w₁.rows→w'.blobs=w₁.blobs→w'.inFlight=w₁.inFlight →
        (∀ block,w'.refcount block=w₁.refcount block-entriesTo block entries) →
          (undoing K P B).ensures t (next true) post w') →
      (undoing K P B).ensures t ((decRefsAt now entries).bind next) post w₁ := by
    intro now
    clear h
    induction entries with
    | nil => exact fun w₁ next hnext => hnext w₁ rfl rfl rfl fun _ => rfl
    | cons entry entries ih =>
      intro w₁ next hnext
      simp only [decRefsAt,monad_bind_eq,op_eq_ask,ask_bind,done_bind,
        ensures_decRef]
      refine ⟨fun hmay => by simp [failsBeforeCommit,Action.isCleanup] at hmay,?_⟩
      obtain ⟨dedup,hframe⟩ := w₁.decRef_frame entry.1 now
      refine ih _ _ fun w' hrows hblobs hinFlight hcounts => ?_
      rw [hframe] at hrows hblobs hinFlight
      refine hnext w' hrows hblobs hinFlight fun block => ?_
      rw [hcounts,World.refcount_decRef]
      simp only [entriesTo,map_cons,count_cons,beq_iff_eq]
      omega
  unfold releaseRefs
  split
  · rename_i hempty
    rw [isEmpty_iff.mp hempty] at h
    exact h w rfl rfl rfl fun _ => rfl
  · simp only [decRefs,Program.monad_bind_eq,op_eq_ask,Program.ask_bind,Program.done_bind,
      ensures_unixNow,Program.bind_assoc]
    exact hdrop _ w _ h

theorem ensures_incRefs {entries : List BlockRef} :
    (undoing K P B).ensures t (incRefs entries) (fun counted w' => counted=true →
      w'.rows=w.rows ∧ w'.blobs=w.blobs ∧ w'.inFlight=w.inFlight ∧
        ∀ block,w'.refcount block=w.refcount block+entriesTo block entries) w := by
  induction entries generalizing w with
  | nil => exact fun _ => ⟨rfl,rfl,rfl,fun _ => rfl⟩
  | cons entry entries ih =>
    simp only [incRefs,monad_bind_eq,op_eq_ask,ask_bind,done_bind,
      ensures_incRef,if_true,Bool.false_eq_true,if_false]
    refine ⟨fun _ hfalse => absurd hfalse Bool.false_ne_true,
      ensures_mono ih fun counted w' hw' htrue => ?_⟩
    obtain ⟨hrows,hblobs,hinFlight,hcounts⟩ := hw' htrue
    refine ⟨hrows,hblobs,hinFlight,fun block => ?_⟩
    rw [hcounts,World.refcount_incRef]
    simp only [entriesTo,map_cons,count_cons,beq_iff_eq]
    omega

/-- A failed commit gives all back but the staged references. -/
theorem ensures_commitStagedLocked {newRefs : List BlockRef} {change : MetaCommit}
    (hstaged : staged.1≠.backup) :
    (undoing K P B).ensures t (commitStagedLocked engine key staged newRefs change conditions)
      (OnError fun w' => w'.rows=w.rows ∧ (∀ path,w'.contentAt path=w.contentAt path) ∧
        w'.inFlight=w.inFlight ∧
          ∀ block,w'.refcount block=w.refcount block-entriesTo block newRefs) w := by
  unfold commitStagedLocked
  rw [monad_bind_eq,ensures_bind]
  refine ensures_mono (ensures_swapUnlessVetoed hstaged) fun result w₁ hresult => ?_
  cases result with
  | error e =>
    have hstore := hresult e rfl
    refine ensures_releaseRefs fun w₂ hrows hblobs hinFlight hcounts e' _ => ?_
    refine ⟨hrows.trans hstore.rows,fun path => ?_,hinFlight.trans hstore.inFlight,
      fun block => ?_⟩
    · rw [← hstore.contents path]
      simp only [World.contentAt,hblobs]
    · rw [hcounts]
      simp only [World.refcount,hstore.dedup]
  | ok committed =>
    -- The hook after the commit does not fail here, so the result is no error.
    simp only [whenHooked]
    cases conditions.hook with
    | false => exact fun e herror => by cases herror
    | true =>
      simp only [if_true,monad_bind_eq,op_eq_ask,ask_bind,done_bind,
        pure_eq_done,ensures_hookAfter,ensures_done]
      exact ⟨fun hmay => (by cases hmay),fun e herror => (by cases herror)⟩

end Commit

/-- A commit that fails leaves no trace: the object's row, what its reads find,
the bytes in flight and every reference count are as before the references of
the staged blob were counted. -/
theorem failed_commit_restores {engine : Engine K P B} {key : K} {staged : Scratch}
    {newRefs : List BlockRef} {change : MetaCommit} {conditions : WriteConditions} {t : ℕ}
    {before counted after : World K P B} {e : StorageError}
    (hstaged : staged.1=.stage ∨ staged.1=.upload)
    (hcount : (undoing K P B).Exec t (incRefs newRefs) before true counted)
    (hcommit : (undoing K P B).Exec t
      (commitStagedLocked engine key staged newRefs change conditions) counted (.error e) after) :
    after.activeRow key=before.activeRow key ∧ engine.served after key=engine.served before key ∧
      after.inFlight=before.inFlight ∧ ∀ block,after.refcount block=before.refcount block := by
  have hnotBackup : staged.1≠.backup := by
    rcases hstaged with h | h <;> simp [h]
  obtain ⟨hrows,hblobs,hinFlight,hcounts⟩ := ensures_sound ensures_incRefs hcount rfl
  obtain ⟨hrows',hcontents',hinFlight',hcounts'⟩ :=
    ensures_sound (ensures_commitStagedLocked hnotBackup) hcommit e rfl
  have hcontents : ∀ path,after.contentAt path=before.contentAt path := by
    intro path
    rw [hcontents' path]
    simp only [World.contentAt,hblobs]
  have hexists : ∀ path,(after.blobs.lookup path).isSome=(before.blobs.lookup path).isSome := by
    intro path
    have hpath := congrArg Option.isSome (hcontents path)
    simpa [World.contentAt] using hpath
  refine ⟨?_,?_,hinFlight'.trans hinFlight,fun block => ?_⟩
  · simp only [World.activeRow,hrows',hrows]
  · simp only [Engine.served,Engine.resolve,hexists]
    exact bind_congr fun path _ => hcontents path
  · rw [hcounts',hcounts]
    omega

/-- A state with one object, its blob and a staged one. -/
def overwriteStart : World ℕ ℕ ℕ :=
  { (World.empty : World ℕ ℕ ℕ) with
    rows := (∅ : Table ℕ ObjectMetadata).insert 0 ⟨3,none,some ['a'],none,none,none,none⟩
    blobs := (∅ : Table ℕ (StoredFile ℕ)).insert 0 ⟨1,10⟩
    scratch := (∅ : Table Scratch (StoredFile ℕ)).insert (.stage,0) ⟨2,20⟩
    nextId := 1 }

/-- An engine without a byte cap, with one fallback path per key. -/
def overwriteEngine : Engine ℕ ℕ ℕ where
  fallbacks := fun key => [2*key+1]
  current := fun key => 2*key
  stripe := id
  blobOnly := false
  fsyncWrites := false
  maxLogicalBytes := 0
  manifestEntries := fun _ => some []

/-- The row's own statement fails after the new blob was swapped in. -/
theorem failed_row_restores : ∃ counted after,
    (undoing ℕ ℕ ℕ).Exec 0 (incRefs [(7,4)]) overwriteStart true counted ∧
    (undoing ℕ ℕ ℕ).Exec 0 (commitStagedLocked overwriteEngine 0 (.stage,0) [(7,4)]
      (.upsert 4 none ['b'] none) ⟨none,none,false⟩) counted (.error .internal) after ∧
    overwriteEngine.served after 0=overwriteEngine.served overwriteStart 0 := by
  have hcount : (undoing ℕ ℕ ℕ).Exec 0 (incRefs [(7,4)]) overwriteStart true
      (overwriteStart.incRef 7) := run_sound [.ok] rfl
  have hcommit : ∃ after,(undoing ℕ ℕ ℕ).run 0 (commitStagedLocked overwriteEngine 0 (.stage,0)
      [(7,4)] (.upsert 4 none ['b'] none) ⟨none,none,false⟩)
      [.ok,.ok,.ok,.ok,.ok,.ok,.ok,.ok,.ok,.ok,.ok,.fail,.ok,.ok,.ok,.ok]
      (overwriteStart.incRef 7)=some (.error .internal,after) := ⟨_,rfl⟩
  obtain ⟨after,hafter⟩ := hcommit
  have hexec := run_sound _ hafter
  exact ⟨_,after,hcount,hexec,(failed_commit_restores (Or.inl rfl) hcount hexec).2.1⟩

end NebularOs.CommitRollback
