import Mathlib
import NebularOs.Layout
import NebularOs.SwapRules

/-!
# Crashes while an object moves to its current path

Reads find an object at the first of its candidate paths that exists. An
overwrite of an object whose blob is only at a fallback path puts the new file
at the current path, where there is nothing to back up, so the swap is not
journaled. A crash before the row is committed leaves the new content under the
old row, and the next start has no record to undo it from.

This file runs such an overwrite up to every crash point, then the recovery, and
shows exactly when reads find the content the row names.
-/

namespace NebularOs.FallbackCrash

open BlobFilenames RequestPrograms EngineState WritePath OperationRules SwapRules List Function
  Option Program

variable {K P B α : Type} [DecidableEq K] [DecidableEq P]

/-- The engine in which every operation may fail. -/
abbrev failing (K P B : Type) [DecidableEq K] [DecidableEq P] :
    Machine (Action K P B) Answer ℕ (World K P B) (Choice) :=
  guarded fun _ => true

/-- The key's row names the entity tag of the content its reads find. -/
def NamesServed (engine : Engine K P B) (etagOf : B→Text) (w : World K P B) (key : K) : Prop :=
  ∃ row content,w.activeRow key=some row ∧ engine.served w key=some content ∧
    row.etag=some (etagOf content)

/-- No journal record concerns the candidates of a key. -/
def Unrecorded (engine : Engine K P B) (w : World K P B) (key : K) : Prop :=
  ∀ id intent,w.recordAt id=some intent→engine.current intent.key∉engine.variants key

/-- What recovery leaves alone for a key without records. -/
structure Untouched (engine : Engine K P B) (key : K) (w w' : World K P B) : Prop where
  /-- The rows are the same. -/
  rows : w'.rows=w.rows
  /-- The key's candidates are the same. -/
  blobs : ∀ path∈engine.variants key,w'.blobs.lookup path=w.blobs.lookup path
  /-- No record has appeared. -/
  records : ∀ id intent,w'.recordAt id=some intent→w.recordAt id=some intent

omit [DecidableEq K] in
theorem Untouched.refl (engine : Engine K P B) (key : K) (w : World K P B) :
    Untouched engine key w w :=
  ⟨rfl,fun _ _ => rfl,fun _ _ h => h⟩

omit [DecidableEq K] in
theorem Untouched.trans {engine : Engine K P B} {key : K} {w w' w'' : World K P B}
    (h : Untouched engine key w w') (h' : Untouched engine key w' w'') :
    Untouched engine key w w'' :=
  ⟨h'.rows.trans h.rows,fun path hpath => (h'.blobs path hpath).trans (h.blobs path hpath),
    fun id intent hrecord => h.records id intent (h'.records id intent hrecord)⟩

omit [DecidableEq K] in
theorem Untouched.served {engine : Engine K P B} {key : K} {w w' : World K P B}
    (h : Untouched engine key w w') : engine.served w' key=engine.served w key := by
  have hfind : engine.resolve w' key=engine.resolve w key := by
    refine List.find?_congr fun path hpath => ?_
    rw [h.blobs path hpath]
  unfold Engine.served
  rw [hfind]
  cases hpath : engine.resolve w key with
  | none => rfl
  | some path =>
    have hmem : path∈engine.variants key := mem_of_find?_eq_some hpath
    simp only [bind_some,World.contentAt,h.blobs path hmem]

section Steps

variable {t : ℕ} {w : World K P B} {post : α→World K P B→Prop}
  {mayFail : Action K P B→Bool} {invariant : World K P B→Prop}

variable {w' : World K P B} {source : Scratch}

variable {engine : Engine K P B} {key : K}

omit [DecidableEq K] in
theorem Untouched.aside {w'' : World K P B} (h : Untouched engine key w w')
    (hrows : w''.rows=w'.rows) (hblobs : w''.blobs=w'.blobs) (hintents : w''.intents=w'.intents) :
    Untouched engine key w w'' := by
  refine h.trans ⟨hrows,fun path _ => by rw [hblobs],fun id intent hrecord => ?_⟩
  unfold World.recordAt at hrecord ⊢
  rwa [hintents] at hrecord

omit [DecidableEq K] in
theorem Untouched.moving {w'' : World K P B} {target : P} (h : Untouched engine key w w')
    (hmoving : Moving w' w'' source target) (htarget : target∉engine.variants key) :
    Untouched engine key w w'' := by
  refine h.trans ⟨hmoving.rows,fun path hpath => hmoving.others path ?_,
    fun id intent hrecord => ?_⟩
  · rintro rfl
    exact htarget hpath
  · unfold World.recordAt at hrecord ⊢
    rwa [hmoving.intents] at hrecord

variable {id : ℕ} {rest : Except StorageError ℕ→Prog K P B α}

theorem maintains_restoreInterrupted {intent : SwapIntent K} (h : Untouched engine key w w')
    (hother : engine.current intent.key∉engine.variants key)
    (hrest : ∀ result w'',Untouched engine key w w'' →
      (guarded mayFail).maintains t (Untouched engine key w) (rest result) post w'') :
    (guarded mayFail).maintains t (Untouched engine key w)
      ((restoreInterrupted engine id intent).bind rest) post w' := by
  simp only [restoreInterrupted,monad_bind_eq,op_eq_ask,ask_bind,
    pure_eq_done,done_bind,Machine.maintains_ask,ensures_fetchActive,ensures_done]
  refine ⟨h,fun _ => hrest _ w' h,?_⟩
  split
  · simp only [ask_bind,Machine.maintains_ask,ensures_scratchExists,ensures_done]
    refine ⟨h,?_⟩
    split
    · rw [Program.bind_assoc]
      refine maintains_renameIntoPlace (fun w'' hw'' => h.moving hw'' hother)
        (fun w'' hw'' => ?_)
        (fun _ w'' hw'' hintents => hrest _ w'' (h.aside hw''.rows hw''.blobs hintents))
      have hmoved := h.moving hw''.moving hother
      simp only [if_true,syncParent]
      split
      · simp only [op_eq_ask,ask_bind,done_bind,Machine.maintains_ask,ensures_sync,
          ensures_done]
        exact ⟨hmoved,fun _ => hrest _ w'' hmoved,hrest _ w'' hmoved⟩
      · exact hrest _ w'' hmoved
    · exact hrest _ w' h
  · exact hrest _ w' h

theorem maintains_clearRecord {count : ℕ} (h : Untouched engine key w w')
    (hrest : ∀ result w'',Untouched engine key w w'' →
      (guarded mayFail).maintains t (Untouched engine key w) (rest result) post w'') :
    (guarded mayFail).maintains t (Untouched engine key w)
      ((clearRecord id count).bind rest) post w' := by
  have hcleared : ∀ w'',Untouched engine key w w'' →
      Untouched engine key w { w'' with intents := w''.intents.erase id } := by
    refine fun w'' hw'' => hw''.trans ⟨rfl,fun _ _ => rfl,fun other intent hrecord => ?_⟩
    simp only [World.recordAt] at hrecord ⊢
    by_cases hid : other=id
    · rw [hid,AList.lookup_erase] at hrecord
      cases hrecord
    · rwa [AList.lookup_erase_ne hid] at hrecord
  simp only [clearRecord,monad_bind_eq,op_eq_ask,ask_bind,pure_eq_done,
    done_bind,Machine.maintains_ask,ensures_removeScratch,ensures_removeIntent,ensures_done]
  have herased : Untouched engine key w { w' with scratch := w'.scratch.erase (.backup,id) } :=
    h.aside rfl rfl rfl
  exact ⟨h,fun _ => ⟨h,fun _ => hrest _ _ h,hrest _ _ (hcleared _ h)⟩,
    herased,fun _ => hrest _ _ herased,hrest _ _ (hcleared _ herased)⟩

theorem maintains_recoverSwap (hclear : Unrecorded engine w key) (h : Untouched engine key w w')
    (hrest : ∀ result w'',Untouched engine key w w'' →
      (guarded mayFail).maintains t (Untouched engine key w) (rest result) post w'') :
    (guarded mayFail).maintains t (Untouched engine key w)
      ((recoverSwap engine id).bind rest) post w' := by
  have hcleared : ∀ count w'',Untouched engine key w w'' →
      (guarded mayFail).maintains t (Untouched engine key w)
        ((clearRecord id count).bind rest) post w'' :=
    fun count w'' hw'' => maintains_clearRecord hw'' hrest
  simp only [recoverSwap,monad_bind_eq,op_eq_ask,ask_bind,done_bind,
    Program.bind_assoc,Machine.maintains_ask,ensures_readIntent,ensures_done]
  refine ⟨h,fun _ => hcleared 0 w' h,?_⟩
  cases hrecord : w'.recordAt id with
  | none => exact hcleared 0 w' h
  | some intent =>
    have hother := hclear id intent (h.records id intent hrecord)
    simp only [restoreRecord,Program.monad_bind_eq,op_eq_ask,Program.ask_bind,Program.done_bind,
      Program.pure_eq_done,Program.bind_assoc,Machine.maintains_ask,ensures_lockKey,ensures_done]
    refine ⟨h,fun _ => maintains_restoreInterrupted (h.aside rfl rfl rfl) hother
      fun result w'' hw'' => ?_⟩
    simp only [Machine.maintains_ask,ensures_unlockKey,ensures_done]
    refine ⟨hw'',fun _ => ?_⟩
    cases result with
    | error e => exact hrest _ _ (hw''.aside rfl rfl rfl)
    | ok count => exact hcleared count _ (hw''.aside rfl rfl rfl)

theorem maintains_recoverSwaps {ids : List ℕ} (hclear : Unrecorded engine w key)
    (h : Untouched engine key w w') :
    (guarded mayFail).maintains t (Untouched engine key w) (recoverSwaps engine ids)
      (fun _ _ => True) w' := by
  induction ids generalizing w' with
  | nil => exact ⟨h,trivial⟩
  | cons id ids ih =>
    rw [recoverSwaps,monad_bind_eq]
    refine maintains_recoverSwap hclear h fun result w'' hw'' => ?_
    cases result with
    | error e => exact ⟨hw'',trivial⟩
    | ok count =>
      exact Machine.maintains_bind (Machine.maintains_mono (ih hw'') (fun _ hw => hw)
        fun _ _ _ hend => ⟨hend,trivial⟩)

theorem untouched_recovery {result : Except StorageError ℕ} (hclear : Unrecorded engine w key)
    (hexec : (guarded mayFail).Exec t (recoverInterruptedSwaps engine) w result w') :
    Untouched engine key w w' := by
  have hself := Untouched.refl engine key w
  have hrecovery : (guarded mayFail).maintains t (Untouched engine key w)
      (recoverInterruptedSwaps engine) (fun _ _ => True) w := by
    simp only [recoverInterruptedSwaps,monad_bind_eq,op_eq_ask,ask_bind,
      done_bind,Machine.maintains_ask,ensures_listIntents,ensures_done]
    exact ⟨hself,fun _ => ⟨hself,trivial⟩,fun order _ => maintains_recoverSwaps hclear hself⟩
  exact (Machine.maintains_end hrecovery hexec).1

end Steps

section Completion

variable {t : ℕ} {w : World K P B} {mayFail : Action K P B→Bool}

/-- A successful end of a recovery step that keeps the locks. -/
def EndsWell (intents : Table ℕ (IntentFile K)) (keyLocks : ℕ→Option ℕ)
    (result : Except StorageError ℕ) (w : World K P B) : Prop :=
  (∃ count,result=.ok count) ∧ w.intents=intents ∧ w.keyLocks=keyLocks

theorem allows_restoreInterrupted (engine : Engine K P B) (id : ℕ) (intent : SwapIntent K) :
    (guarded mayFail).allows t (restoreInterrupted engine id intent)
      (EndsWell w.intents w.keyLocks) w := by
  simp only [restoreInterrupted,monad_bind_eq,op_eq_ask,ask_bind,
    pure_eq_done,done_bind]
  refine allows_ok rfl ?_
  dsimp only
  split
  · refine allows_ok rfl ?_
    cases hkept : w.scratch.lookup (.backup,id) with
    | none => exact Machine.allows_done ⟨⟨0,rfl⟩,rfl,rfl⟩
    | some file =>
      have hrenamed : exec t (.rename .essential (.backup,id)
          (engine.current intent.key) : Action K P B) .ok w=
          some (.moved,w.renameOver (.backup,id) (engine.current intent.key) file) := by
        simp only [exec,hkept]
      have hends : EndsWell w.intents w.keyLocks (.ok 1)
          (w.renameOver (.backup,id) (engine.current intent.key) file) := by
        unfold World.renameOver
        split <;> exact ⟨⟨1,rfl⟩,rfl,rfl⟩
      refine allows_ok hrenamed ?_
      simp only [done_bind,syncParent]
      split
      · exact allows_ok rfl (Machine.allows_done hends)
      · exact Machine.allows_done hends
  · exact Machine.allows_done ⟨⟨0,rfl⟩,rfl,rfl⟩

theorem allows_recoverSwap (engine : Engine K P B) {id : ℕ} (hfree : ∀ stripe,
    w.keyLocks stripe=none) (hlisted : (w.intents.lookup id).isSome=true) :
    (guarded mayFail).allows t (recoverSwap engine id)
      (EndsWell (w.intents.erase id) w.keyLocks) w := by
  have hclear : ∀ count (v : World K P B),v.intents=w.intents→v.keyLocks=w.keyLocks →
      (guarded mayFail).allows t (clearRecord id count)
        (EndsWell (w.intents.erase id) w.keyLocks) v := by
    intro count v hintents hlocks
    simp only [clearRecord,monad_bind_eq,op_eq_ask,ask_bind,pure_eq_done,
      done_bind]
    refine allows_ok rfl (allows_ok rfl (Machine.allows_done ⟨⟨count,?_⟩,?_,hlocks⟩))
    · simp only [hintents,hlisted,if_true]
    · simp only [hintents]
  refine allows_ok rfl ?_
  cases w.recordAt id with
  | none => exact hclear 0 w rfl rfl
  | some intent =>
    have hlock : exec t (.lockKey (engine.stripe intent.key) : Action K P B) .ok w=
        some ((),{ w with
          keyLocks := update w.keyLocks (engine.stripe intent.key) (some t) }) := by
      simp only [exec,hfree,if_true]
      rfl
    simp only [restoreRecord,Program.monad_bind_eq,op_eq_ask,Program.ask_bind,Program.done_bind,
      Program.pure_eq_done,Program.bind_assoc]
    refine allows_ok hlock (Machine.allows_bind (Machine.allows_mono
      (allows_restoreInterrupted engine id intent) ?_))
    rintro result v ⟨⟨count,rfl⟩,hintents,hlocks⟩
    have hunlock : exec t (.unlockKey (engine.stripe intent.key) : Action K P B) .ok v=
        some ((),{ v with
          keyLocks := update v.keyLocks (engine.stripe intent.key) none }) := by
      simp only [exec,hlocks,update_self,if_true]
      rfl
    refine allows_ok hunlock (hclear count _ hintents ?_)
    rw [hlocks]
    funext stripe
    by_cases hstripe : stripe=engine.stripe intent.key <;> simp [hstripe,hfree]

/-- Recovery can run to its end. -/
theorem recovery_completes (engine : Engine K P B) (hfree : ∀ stripe,w.keyLocks stripe=none) :
    ∃ count w',(guarded mayFail).Exec t (recoverInterruptedSwaps engine) w (.ok count) w' := by
  have hrecords : ∀ (ids : List ℕ) (v : World K P B),ids.Nodup →
      (∀ id∈ids,(v.intents.lookup id).isSome=true)→(∀ stripe,v.keyLocks stripe=none) →
      (guarded mayFail).allows t (recoverSwaps engine ids) (fun result _ =>
        ∃ count,result=.ok count) v := by
    intro ids
    induction ids with
    | nil => exact fun v _ _ _ => Machine.allows_done ⟨0,rfl⟩
    | cons id ids ih =>
      intro v hnodup hlisted hlocks
      rw [recoverSwaps,monad_bind_eq]
      refine Machine.allows_bind (Machine.allows_mono (allows_recoverSwap engine hlocks
        (hlisted id mem_cons_self)) ?_)
      rintro result v' ⟨⟨count,rfl⟩,hintents,hlocks'⟩
      obtain ⟨hnotin,hnodup'⟩ := nodup_cons.mp hnodup
      refine Machine.allows_bind (Machine.allows_mono (ih v' hnodup' (fun other hother => ?_)
        fun stripe => by rw [hlocks',hlocks]) ?_)
      · have hne : other≠id := fun heq => hnotin (heq ▸ hother)
        rw [hintents,AList.lookup_erase_ne hne]
        exact hlisted other (mem_cons_of_mem id hother)
      · rintro result v'' ⟨count',rfl⟩
        exact Machine.allows_done ⟨count+count',rfl⟩
  have hlisted : ∀ id∈w.intents.keys,(w.intents.lookup id).isSome=true := fun id hid =>
    AList.lookup_isSome.mpr hid
  have hexec : (guarded mayFail).exec t (.listIntents : Action K P B) (.ids w.intents.keys) w=
      some (some w.intents.keys,w) :=
    guarded_exec_eq_some.mpr ⟨by simp,if_pos (List.Perm.refl _)⟩
  have hall := hrecords w.intents.keys w (AList.keys_nodup w.intents) hlisted hfree
  have hrun : (guarded mayFail).allows t (recoverInterruptedSwaps engine)
      (fun result _ => ∃ count,result=.ok count) w := by
    simp only [recoverInterruptedSwaps,monad_bind_eq,op_eq_ask,ask_bind,
      done_bind]
    exact Machine.allows_ask hexec hall
  obtain ⟨result,w',hrun,count,rfl⟩ := hrun
  exact ⟨count,w',hrun⟩

end Completion

/-- An overwrite, in full metadata mode, of an active object whose blob is only at
a fallback path. The staged file's content has the entity tag the write names,
and no record of an earlier overwrite concerns the object. -/
structure FallbackOverwrite (engine : Engine K P B) (etagOf : B→Text) (w : World K P B) (key : K)
    (staged : Scratch) (change : MetaCommit) (old : Text) : Prop where
  /-- The engine keeps rows. -/
  full : engine.blobOnly=false
  /-- The object's row names the old entity tag. -/
  row : ∃ row,w.activeRow key=some row ∧ row.etag=some old
  /-- Nothing is at the current path. -/
  absent : w.blobs.lookup (engine.current key)=none
  /-- Reads find the old content at a fallback path. -/
  fallback : ∃ content,engine.served w key=some content ∧ etagOf content=old
  /-- The staged file holds the content the write names. -/
  staged : ∃ file,w.scratch.lookup staged=some file ∧ change.etag=some (etagOf file.content)
  /-- No other write is being admitted. -/
  free : w.capacityLock=none
  /-- No record concerns the object. -/
  clear : Unrecorded engine w key

section Sufficiency

variable {t : ℕ} {w : World K P B} {engine : Engine K P B} {etagOf : B→Text} {key : K}
  {old : Text}

/-- What a state after a crash must still have: the row names the old entity tag,
reads find content with it, and no record concerns the object. -/
structure Sound (engine : Engine K P B) (etagOf : B→Text) (key : K) (old : Text)
    (w : World K P B) : Prop where
  /-- The row names the entity tag. -/
  row : ∃ row,w.activeRow key=some row ∧ row.etag=some old
  /-- Reads find content with it. -/
  served : ∃ content,engine.served w key=some content ∧ etagOf content=old
  /-- No record concerns the object. -/
  clear : Unrecorded engine w key

variable {w' : World K P B}

theorem Sound.recovered {result : Except StorageError ℕ} {mayFail : Action K P B→Bool}
    (h : Sound engine etagOf key old w)
    (hexec : (guarded mayFail).Exec t (recoverInterruptedSwaps engine) w.crashed result w') :
    NamesServed engine etagOf w' key := by
  have hclear : Unrecorded engine w.crashed key := h.clear
  have hcrash : Untouched engine key w w.crashed :=
    (Untouched.refl engine key w).aside rfl rfl rfl
  have hsame : Untouched engine key w w' := hcrash.trans (untouched_recovery hclear hexec)
  obtain ⟨row,hrow,hetag⟩ := h.row
  obtain ⟨content,hcontent,hold⟩ := h.served
  refine ⟨row,content,?_,by rw [hsame.served,hcontent],by rw [hetag,hold]⟩
  rw [← hrow]
  simp only [World.activeRow,hsame.rows]

omit [DecidableEq K] in
theorem served_current {file : StoredFile B} (h : w.blobs.lookup (engine.current key)=some file) :
    engine.served w key=some file.content := by
  simp only [Engine.served,Engine.resolve,Engine.variants,List.find?_cons,h,isSome_some,
    bind_some,World.contentAt,map_some]

/-- Before the commit: only the current path may have changed, and what is there
has the old entity tag as well. -/
structure Pending (engine : Engine K P B) (etagOf : B→Text) (key : K) (old : Text)
    (w w' : World K P B) : Prop where
  /-- The rows are the same. -/
  rows : w'.rows=w.rows
  /-- The journal is the same. -/
  intents : w'.intents=w.intents
  /-- The other paths are the same. -/
  others : ∀ path,path≠engine.current key→w'.blobs.lookup path=w.blobs.lookup path
  /-- The current path is empty or holds content with the entity tag. -/
  current : ∀ file,w'.blobs.lookup (engine.current key)=some file→etagOf file.content=old

theorem Pending.sound (h : Pending engine etagOf key old w w')
    (habsent : w.blobs.lookup (engine.current key)=none) (hsound : Sound engine etagOf key old w) :
    Sound engine etagOf key old w' := by
  refine ⟨?_,?_,fun id intent hrecord => ?_⟩
  · obtain ⟨row,hrow,hetag⟩ := hsound.row
    refine ⟨row,?_,hetag⟩
    rw [← hrow]
    simp only [World.activeRow,h.rows]
  · cases hcurrent : w'.blobs.lookup (engine.current key) with
    | some file => exact ⟨file.content,served_current hcurrent,h.current file hcurrent⟩
    | none =>
      have hsame : Untouched engine key w w' := by
        refine ⟨h.rows,fun path _ => ?_,fun id intent hrecord => ?_⟩
        · by_cases hpath : path=engine.current key
          · rw [hpath,hcurrent,habsent]
          · exact h.others path hpath
        · unfold World.recordAt at hrecord ⊢
          rwa [h.intents] at hrecord
      rw [hsame.served]
      exact hsound.served
  · unfold World.recordAt at hrecord
    rw [h.intents] at hrecord
    exact hsound.clear id intent hrecord

/-- After the commit: the row and the current path agree. -/
structure Committed (engine : Engine K P B) (etagOf : B→Text) (key : K) (old : Text)
    (w : World K P B) : Prop where
  /-- The row names the entity tag. -/
  row : ∃ row,w.activeRow key=some row ∧ row.etag=some old
  /-- The current path holds content with it. -/
  current : ∃ file,w.blobs.lookup (engine.current key)=some file ∧ etagOf file.content=old
  /-- No record concerns the object. -/
  clear : Unrecorded engine w key

theorem Committed.sound (h : Committed engine etagOf key old w) :
    Sound engine etagOf key old w := by
  obtain ⟨file,hfile,hetag⟩ := h.current
  exact ⟨h.row,⟨file.content,served_current hfile,hetag⟩,h.clear⟩

variable {mayFail : Action K P B→Bool}

theorem Committed.aside (h : Committed engine etagOf key old w) (hrows : w'.rows=w.rows)
    (hcurrent : w'.blobs.lookup (engine.current key)=w.blobs.lookup (engine.current key))
    (hintents : w'.intents=w.intents) : Committed engine etagOf key old w' := by
  refine ⟨?_,by rw [hcurrent]; exact h.current,fun id intent hrecord => ?_⟩
  · obtain ⟨row,hrow,hetag⟩ := h.row
    refine ⟨row,?_,hetag⟩
    rw [← hrow]
    simp only [World.activeRow,hrows]
  · unfold World.recordAt at hrecord
    rw [hintents] at hrecord
    exact h.clear id intent hrecord

theorem maintains_finishSwap {previous : List P} {oldRefs : List BlockRef}
    {value : Except StorageError ObjectMetadata} (h : Committed engine etagOf key old w) :
    (guarded mayFail).maintains t (Sound engine etagOf key old)
      ((finishSwap engine key previous none none oldRefs).bind fun _ => .done value)
      (fun _ _ => True) w := by
  have hkeeps : ∀ a,Finishes engine key none none a→∀ w,Committed engine etagOf key old w →
      (guarded mayFail).ensures t (.ask a .done) (fun _ => Committed engine etagOf key old) w := by
    intro a ha w hw
    unfold Finishes at ha
    split at ha
    · simp only [ensures_removeBlob]
      exact ⟨fun _ => hw,hw.aside rfl (AList.lookup_erase_ne ha.symm) rfl⟩
    · obtain ⟨_,hnone,_⟩ := ha
      cases hnone
    · cases ha
    · exact ensures_unixNow.mpr hw
    · simp only [ensures_decRef]
      obtain ⟨dedup,hframe⟩ := w.decRef_frame _ _
      rw [hframe]
      exact ⟨fun _ => hw,hw.aside rfl rfl rfl⟩
    · cases ha
  have hfinish := Machine.maintains_of_issues
    (finishSwap_issues engine key previous none none oldRefs) hkeeps h
  exact Machine.maintains_bind (Machine.maintains_mono hfinish (fun _ hw => hw.sound)
    fun _ _ _ hsound => ⟨hsound,trivial⟩)

variable {post : α→World K P B→Prop} {invariant : World K P B→Prop}

theorem maintains_settleSwap {change : MetaCommit} {previous : List P} {oldRefs : List BlockRef}
    (hfull : engine.blobOnly=false) (hchange : change.row.etag=some old)
    (hsound : Sound engine etagOf key old w) (habsent : w.blobs.lookup (engine.current key)=none)
    (h : Pending engine etagOf key old w w')
    (hplaced : (w'.blobs.lookup (engine.current key)).isSome=true) :
    (guarded mayFail).maintains t (Sound engine etagOf key old)
      (settleSwap engine key change previous none none oldRefs) (fun _ _ => True) w' := by
  have hnow := h.sound habsent hsound
  obtain ⟨file,hfile⟩ := isSome_iff_exists.mp hplaced
  simp only [settleSwap,commitMetadata,hfull,Bool.false_eq_true,if_false,monad_bind_eq,
    op_eq_ask,ask_bind,done_bind,Machine.maintains_ask,ensures_upsertObject,
    ensures_done,if_true]
  refine ⟨hnow,fun _ => ?_,?_⟩
  · -- The new file goes again, and reads find the fallback.
    simp only [undoSwap,restorePrevious,removeJournal,monad_bind_eq,op_eq_ask,
      ask_bind,done_bind,Machine.maintains_ask,ensures_removeBlob,ensures_done]
    have hremoved : Pending engine etagOf key old w
        { w' with blobs := w'.blobs.erase (engine.current key) } := by
      refine ⟨h.rows,h.intents,fun path hpath => ?_,fun file hfile => ?_⟩
      · simp only [AList.lookup_erase_ne hpath,h.others path hpath]
      · simp at hfile
    have hgone := hremoved.sound habsent hsound
    refine ⟨hnow,fun _ => ⟨hnow,trivial⟩,?_⟩
    split <;> exact ⟨hgone,trivial⟩
  · have hrow : ({ w' with rows := w'.rows.insert key (w'.upserted key change.row) } :
        World K P B).activeRow key=some (w'.upserted key change.row) := by
      simp only [World.activeRow,AList.lookup_insert]
      rfl
    exact maintains_finishSwap ⟨⟨_,hrow,hchange⟩,⟨file,hfile,h.current file hfile⟩,hnow.clear⟩

/-- An overwrite with content of the same entity tag, stopped anywhere, is sound. -/
theorem maintains_swapAdmitted {staged : Scratch} {change : MetaCommit} {file : StoredFile B}
    {existing : Option ObjectMetadata} (hfull : engine.blobOnly=false)
    (hchange : change.row.etag=some old) (hsound : Sound engine etagOf key old w)
    (habsent : w.blobs.lookup (engine.current key)=none)
    (hfile : w.scratch.lookup staged=some file) (hetag : etagOf file.content=old) :
    (guarded mayFail).maintains t (Sound engine etagOf key old)
      (swapAdmitted engine key staged change existing) (fun _ _ => True) w := by
  unfold swapAdmitted existingBlobPaths
  rw [monad_bind_eq]
  refine maintains_existingPaths hsound fun previous => ?_
  rw [monad_bind_eq]
  refine maintains_previousRefs hsound fun oldRefs => ?_
  have hdrawn : Sound engine etagOf key old { w with nextId := w.nextId+1 } :=
    ⟨hsound.row,hsound.served,hsound.clear⟩
  simp only [backUpCurrent,journalSwap,monad_bind_eq,op_eq_ask,ask_bind,
    pure_eq_done,done_bind,Machine.maintains_ask,ensures_createDirAll,
    ensures_freshId,ensures_pathExists,ensures_done,Bool.not_true,Bool.false_eq_true,if_false,
    habsent,isSome_none,Bool.not_false,if_true]
  refine ⟨hsound,fun _ => ⟨hsound,trivial⟩,hsound,hdrawn,?_⟩
  have hpending : ∀ w',Moving { w with nextId := w.nextId+1 } w' staged (engine.current key) →
      Pending engine etagOf key old w w' := by
    refine fun w' hmoving => ⟨hmoving.rows,hmoving.intents,hmoving.others,fun now hnow => ?_⟩
    rcases hmoving.target with hsame | ⟨origin,placed,horigin,hplaced,hcontent⟩
    · rw [hsame,habsent] at hnow
      cases hnow
    · obtain rfl : now=placed := Option.some.inj (hnow.symm.trans hplaced)
      obtain rfl : origin=file := Option.some.inj (horigin.symm.trans hfile)
      rw [hcontent,hetag]
  refine maintains_renameIntoPlace (fun w' hw' => (hpending w' hw').sound habsent hsound)
    (fun w' hw' => ?_)
    (fun _ w' hw' hintents => ⟨(hpending w' (hw'.moving hintents)).sound habsent hsound,trivial⟩)
  have hnow := (hpending w' hw'.moving).sound habsent hsound
  have hplaced : (w'.blobs.lookup (engine.current key)).isSome=true := by
    obtain ⟨_,placed,_,hat,_⟩ := hw'.target
    rw [hat,isSome_some]
  have hsettle : (guarded mayFail).maintains t (Sound engine etagOf key old)
      (settleSwap engine key change previous none none oldRefs) (fun _ _ => True) w' :=
    maintains_settleSwap hfull hchange hsound habsent (hpending w' hw'.moving) hplaced
  unfold syncParent
  cases engine.fsyncWrites with
  | true =>
    simp only [Bool.not_true,Bool.false_eq_true,if_false,if_true,op_eq_ask,ask_bind,
      done_bind,Machine.maintains_ask,ensures_sync,ensures_done]
    exact ⟨hnow,fun _ => hsettle,hsettle⟩
  | false => exact hsettle

theorem maintains_swapInStaged {staged : Scratch} {change : MetaCommit}
    {conditions : WriteConditions} (h : FallbackOverwrite engine etagOf w key staged change old)
    (hsafe : change.etag=some old ∨ checkConditions engine conditions (w.activeRow key)≠.ok () ∨
      ¬admits engine w (((w.activeRow key).map ObjectMetadata.size).getD 0) change.size) :
    (guarded mayFail).maintains t (Sound engine etagOf key old)
      (swapInStaged engine key staged change conditions) (fun _ _ => True) w := by
  have hsound : Sound engine etagOf key old w := ⟨h.row,h.fallback,h.clear⟩
  have hlater : ∀ lock inFlight,Sound engine etagOf key old
      { w with capacityLock := lock,inFlight := inFlight } :=
    fun _ _ => ⟨h.row,h.fallback,h.clear⟩
  simp only [swapInStaged,existingRow,h.full,Bool.false_eq_true,if_false,monad_bind_eq,
    op_eq_ask,ask_bind,done_bind,Machine.maintains_ask,ensures_fetchActive,
    ensures_done]
  refine ⟨hsound,fun _ => ⟨hsound,trivial⟩,?_⟩
  split
  · exact ⟨hsound,trivial⟩
  rename_i hchecked
  unfold swapReserved
  rw [monad_bind_eq]
  refine maintains_reserveCapacity hlater (fun hadmits reserved => ?_)
    (fun e => ⟨hsound,trivial⟩)
  have hetag : change.etag=some old := by
    rcases hsafe with hsame | hrefused | hrefused
    · exact hsame
    · exact absurd hchecked hrefused
    · exact absurd hadmits hrefused
  obtain ⟨file,hfile,hnamed⟩ := h.staged
  have hcontent : etagOf file.content=old := Option.some.inj (hnamed.symm.trans hetag)
  simp only [monad_bind_eq]
  refine Machine.maintains_bind (Machine.maintains_mono (maintains_swapAdmitted h.full
    (MetaCommit.row_etag hetag) (hlater w.capacityLock _) h.absent hfile hcontent)
    (fun _ hw => hw) fun result w' _ hw' => ?_)
  cases reserved with
  | none => exact ⟨hw',trivial⟩
  | some bytes =>
    simp only [releaseCapacity,op_eq_ask,ask_bind,done_bind,
      Machine.maintains_ask,ensures_subInFlight,ensures_done]
    exact ⟨hw',⟨hw'.row,hw'.served,hw'.clear⟩,trivial⟩

end Sufficiency

section Necessity

variable {t : ℕ} {w : World K P B} {engine : Engine K P B} {etagOf : B→Text} {key : K}
  {old : Text} {mayFail : Action K P B→Bool}

theorem allows_existingPaths (paths : List P) :
    (guarded mayFail).allows t (existingPaths paths) (fun _ w' => w'=w) w := by
  induction paths with
  | nil => exact Machine.allows_done rfl
  | cons path paths ih =>
    simp only [existingPaths,monad_bind_eq,op_eq_ask,ask_bind,done_bind]
    refine allows_ok rfl (Machine.allows_bind (Machine.allows_mono ih ?_))
    rintro found w' rfl
    exact Machine.allows_done rfl

theorem allows_previousRefs (paths : List P) :
    (guarded mayFail).allows t (previousRefs engine paths) (fun _ w' => w'=w) w := by
  induction paths with
  | nil => exact Machine.allows_done rfl
  | cons path paths ih =>
    simp only [previousRefs,manifestEntries,monad_bind_eq,op_eq_ask,ask_bind,
      pure_eq_done,done_bind]
    refine allows_ok rfl (Machine.allows_bind (Machine.allows_mono ih ?_))
    rintro refs w' rfl
    exact Machine.allows_done rfl

theorem allows_reserveCapacity {existingBytes : ℤ} {incomingBytes : ℕ}
    (hadmits : admits engine w existingBytes incomingBytes) (hfree : w.capacityLock=none) :
    (guarded mayFail).allows t (reserveCapacity engine existingBytes incomingBytes)
      (fun result w' => ∃ reserved inFlight,result=.ok reserved ∧
        w'={ w with inFlight := inFlight }) w := by
  unfold reserveCapacity
  split
  · exact Machine.allows_done ⟨none,w.inFlight,rfl,rfl⟩
  rename_i hcap
  obtain ⟨hrange,hprojected⟩ := hadmits.resolve_left hcap
  have hlock : exec t (.lockCapacity : Action K P B) .ok w=
      some ((),{ w with capacityLock := some t }) := by
    simp only [exec,hfree,if_true]
    rfl
  have htotal : exec t (.totalBytes : Action K P B) .ok { w with capacityLock := some t }=
      some (some w.activeBytes,{ w with capacityLock := some t }) := by
    have hsum : ({ w with capacityLock := some t } : World K P B).activeBytes=w.activeBytes := rfl
    simp only [exec,fallible,hsum,hrange,and_self,if_true]
  refine allows_ok hlock (allows_ok rfl (allows_ok htotal ?_))
  simp only [pure_eq_done,done_bind,monad_bind_eq,op_eq_ask,
    ask_bind,if_neg (not_lt.mpr hprojected)]
  have hunlock : ∀ v : World K P B,v.capacityLock=some t →
      exec t (.unlockCapacity : Action K P B) .ok v=some ((),{ v with capacityLock := none }) := by
    intro v hv
    simp only [exec,hv,if_true]
    rfl
  refine allows_ok rfl (allows_ok (hunlock _ rfl) (Machine.allows_done
    ⟨_,w.inFlight+Int64.ofInt (min incomingBytes (2^63-1)),rfl,?_⟩))
  rw [← hfree]

theorem mayReach_renamed {staged : Scratch} {change : MetaCommit} {conditions : WriteConditions}
    {file : StoredFile B} (h : FallbackOverwrite engine etagOf w key staged change old)
    (hfile : w.scratch.lookup staged=some file)
    (hchecked : checkConditions engine conditions (w.activeRow key)=.ok ())
    (hadmits : admits engine w (((w.activeRow key).map ObjectMetadata.size).getD 0) change.size) :
    (guarded mayFail).mayReach t (swapInStaged engine key staged change conditions) (fun w' =>
      w'.rows=w.rows ∧ w'.intents=w.intents ∧
        w'.blobs.lookup (engine.current key)=some file) w := by
  simp only [swapInStaged,existingRow,h.full,Bool.false_eq_true,if_false,monad_bind_eq,
    op_eq_ask,ask_bind,done_bind]
  refine mayReach_ok rfl ?_
  simp only [hchecked,swapReserved,monad_bind_eq]
  refine Machine.mayReach_bind (Machine.allows_mono (allows_reserveCapacity hadmits h.free) ?_)
  rintro result w₁ ⟨reserved,inFlight,rfl,rfl⟩
  refine Machine.mayReach_left ?_
  refine Machine.mayReach_bind (Machine.allows_mono (allows_existingPaths _) ?_)
  rintro previous w₂ rfl
  refine Machine.mayReach_bind (Machine.allows_mono (allows_previousRefs _) ?_)
  rintro oldRefs w₃ rfl
  simp only [backUpCurrent,journalSwap,op_eq_ask,monad_bind_eq,ask_bind,
    pure_eq_done,done_bind]
  refine mayReach_ok rfl (mayReach_ok rfl (mayReach_ok rfl ?_))
  simp only [h.absent,isSome_none,Bool.not_false,if_true,done_bind]
  refine Machine.mayReach_left ?_
  have hrename : ∀ v : World K P B,v.scratch.lookup staged=some file →
      exec t (.rename .essential staged (engine.current key) : Action K P B) .ok v=
        some (.moved,v.renameOver staged (engine.current key) file) := by
    intro v hv
    simp only [exec,hv]
  simp only [renameIntoPlace,monad_bind_eq,op_eq_ask,ask_bind]
  refine mayReach_ok (hrename _ hfile) (Machine.mayReach_here ?_)
  simp only [World.renameOver,h.absent,any_none,Bool.false_eq_true,if_false,
    AList.lookup_insert,and_self]

end Necessity

/-- After a crash anywhere in the overwrite of an object that is only at a fallback
path, and the recovery that follows, reads find the content the row names exactly
when the new content has the old entity tag, or the overwrite is refused by its
preconditions or by the byte cap. -/
theorem fallback_overwrite_recovers_iff {engine : Engine K P B} {etagOf : B→Text}
    {w : World K P B} {key : K} {staged : Scratch} {change : MetaCommit} {old : Text}
    {conditions : WriteConditions} {t : ℕ}
    (h : FallbackOverwrite engine etagOf w key staged change old) : (∀ stopped recovered count,
      (machine K P B).Reaches t (swapInStaged engine key staged change conditions) w stopped →
      (machine K P B).Exec t (recoverInterruptedSwaps engine) stopped.crashed (.ok count)
        recovered→NamesServed engine etagOf recovered key) ↔
    change.etag=some old ∨ checkConditions engine conditions (w.activeRow key)≠.ok () ∨
      ¬admits engine w (((w.activeRow key).map ObjectMetadata.size).getD 0) change.size := by
  rw [← guarded_true]
  constructor
  · intro hall
    by_contra hnone
    push Not at hnone
    obtain ⟨hdiffers,hchecked,hadmits⟩ := hnone
    obtain ⟨file,hfile,hnamed⟩ := h.staged
    have hstop : (failing K P B).mayReach t (swapInStaged engine key staged change conditions)
        (fun w' => w'.rows=w.rows ∧ w'.intents=w.intents ∧
          w'.blobs.lookup (engine.current key)=some file) w :=
      mayReach_renamed h hfile hchecked hadmits
    obtain ⟨stopped,hreach,hrows,hintents,hcurrent⟩ := hstop
    have hcomplete : ∃ count w',(failing K P B).Exec t (recoverInterruptedSwaps engine)
        stopped.crashed (.ok count) w' := recovery_completes engine fun _ => rfl
    obtain ⟨count,recovered,hexec⟩ := hcomplete
    obtain ⟨row,content,hrow,hserved,hetag⟩ := hall stopped recovered count hreach hexec
    -- The row is still the old one, and reads find the new file.
    have hclear : Unrecorded engine stopped.crashed key := by
      intro id intent hrecord
      refine h.clear id intent ?_
      rw [← hrecord]
      simp only [World.recordAt,World.crashed,hintents]
    have hsame := untouched_recovery hclear hexec
    obtain ⟨oldRow,holdRow,hold⟩ := h.row
    have hsameRow : row=oldRow := by
      refine Option.some.inj (hrow.symm.trans ?_)
      rw [← holdRow]
      simp only [World.activeRow,hsame.rows,World.crashed,hrows]
    have hnew : content=file.content := by
      refine Option.some.inj (hserved.symm.trans ?_)
      rw [hsame.served]
      exact served_current hcurrent
    refine hdiffers ?_
    rw [hnamed,← hold,← hsameRow,hetag,hnew]
  · intro hsafe stopped recovered count hreach hexec
    have hsound := Machine.maintains_sound (maintains_swapInStaged h hsafe) hreach
    exact hsound.recovered hexec

section Nested

open Layout BlobPaths

/-- A bucket whose key `a/b` is stored at its nested path. -/
def nestedEngine : Engine Text PosixFile ℕ :=
  layoutEngine (fun _ => 0) false ['d'] ['k'] (plainSettings ℕ)

/-- The nested blob holds content 1, the staged one content 2. -/
def nestedStart : World Text PosixFile ℕ :=
  { (World.empty : World Text PosixFile ℕ) with
    rows := (∅ : Table Text ObjectMetadata).insert ['a', '/', 'b']
      ⟨3,none,some ['1'],none,none,none,none⟩
    blobs := (∅ : Table PosixFile (StoredFile ℕ)).insert
      ⟨false,[['d'],['k'],['0', '0'],['a'],['b']]⟩ ⟨1,1⟩
    scratch := (∅ : Table Scratch (StoredFile ℕ)).insert (.upload,0) ⟨2,2⟩
    nextId := 1 }

/-- Entity tags of the contents below. -/
def nestedEtag (content : ℕ) : Text :=
  [Char.ofNat (48+content)]

/-- An upload over `a/b`, stopped once its file is in place: after the recovery
the row names content 1 and reads find content 2. -/
theorem nested_overwrite_torn : ∃ stopped recovered,
    (machine Text PosixFile ℕ).Reaches 0 (swapInStaged nestedEngine ['a', '/', 'b'] (.upload,0)
      (.upsert 3 none ['2'] none) ⟨none,none,false⟩) nestedStart stopped ∧
    (machine Text PosixFile ℕ).Exec 0 (recoverInterruptedSwaps nestedEngine) stopped.crashed
      (.ok 0) recovered ∧
    (recovered.activeRow ['a', '/', 'b']).bind ObjectMetadata.etag=some ['1'] ∧
    (nestedEngine.served recovered ['a', '/', 'b']).map nestedEtag=some ['2'] := by
  exact ⟨_,_,Machine.stop_sound [.ok,.ok,.ok,.ok,.ok,.ok,.ok,.ok] rfl,
    Machine.run_sound [.ids []] rfl,by decide +kernel,by decide +kernel⟩

/-- An upload over `a/b` of the content it has already is safe. -/
theorem nested_overwrite_unchanged :
    (MetaCommit.upsert 3 none ['1'] none : MetaCommit).etag=some ['1'] ∧
    ∀ stopped recovered count,
    (machine Text PosixFile ℕ).Reaches 0 (swapInStaged nestedEngine ['a', '/', 'b'] (.upload,0)
      (.upsert 3 none ['1'] none) ⟨none,none,false⟩)
      { nestedStart with scratch := (∅ : Table Scratch (StoredFile ℕ)).insert (.upload,0) ⟨2,1⟩ }
      stopped →
    (machine Text PosixFile ℕ).Exec 0 (recoverInterruptedSwaps nestedEngine) stopped.crashed
      (.ok count) recovered→NamesServed nestedEngine nestedEtag recovered ['a', '/', 'b'] := by
  refine ⟨rfl,(fallback_overwrite_recovers_iff ⟨rfl,⟨_,rfl,rfl⟩,by decide +kernel,
    ⟨1,by decide +kernel,by decide⟩,⟨⟨2,1⟩,rfl,by decide⟩,rfl,?_⟩).mpr (Or.inl rfl)⟩
  intro id intent hrecord
  cases hrecord

end Nested

end NebularOs.FallbackCrash
