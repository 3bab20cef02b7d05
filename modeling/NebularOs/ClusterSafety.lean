import Mathlib
import NebularOs.ReplicatedCluster

/-!
# Operations of replicated nodes are justified

Each operation of a node, interleaved with any others, issues only justified requests
and leaves its keys at rest. The proofs follow the programs: what a task reads under a
key's lock stays true until it drops the lock.
-/

namespace NebularOs.ReplicatedCluster

open BlobFilenames RequestPrograms TaskPools ReplicationLog ReplicatedNode Program List Function
open EngineState (StorageError)

variable {I K C T : Type} {α β : Type} [LinearOrder I] [DecidableEq K] {cluster : Cluster K}

/-- Safety of a program on a node. -/
def SafeAt (theory : Theory I K C T cluster) (i : I) (t : T) (program : Prog I K C α)
    (post : α→World I K C T→Prop) (known : World I K C T) : Prop :=
  safe theory.machine theory.discipline t (atNode i program)
    (fun value w _ => post value w) known ()

variable {theory : Theory I K C T cluster} {i : I} {t : T} {known : World I K C T}

theorem safeAt_done {value : α} {post : α→World I K C T→Prop} (h : post value known) :
    SafeAt theory i t (.done value) post known := h

theorem SafeAt.mono {program : Prog I K C α} {post post' : α→World I K C T→Prop}
    (h : SafeAt theory i t program post known) (himp : ∀ value w,post value w→post' value w) :
    SafeAt theory i t program post' known :=
  safe_mono h fun value w _ hpost => himp value w hpost

theorem safeAt_bind {program : Prog I K C α} {rest : α→Prog I K C β}
    {post : β→World I K C T→Prop}
    (h : SafeAt theory i t program (fun value w => SafeAt theory i t (rest value) post w) known) :
    SafeAt theory i t (program.bind rest) post known := by
  unfold SafeAt
  rw [atNode_bind]
  exact safe_bind h

theorem safeAt_attempt {first : Prog I K C (Except StorageError α)}
    {next : α→Prog I K C (Except StorageError β)}
    {post : Except StorageError β→World I K C T→Prop}
    (h : SafeAt theory i t first (fun result w => (∀ e,result=.error e→post (.error e) w) ∧
        ∀ value,result=.ok value→SafeAt theory i t (next value) post w) known) :
    SafeAt theory i t (attempt first next) post known := by
  refine safeAt_bind (h.mono fun result w hresult => ?_)
  cases result with
  | error e => exact hresult.1 e rfl
  | ok value => exact hresult.2 value rfl

theorem safeAt_forEach {xs : List α} {body : α→Prog I K C Unit}
    {carried : List α→World I K C T→Prop} (hbody : ∀ x rest w,carried (x::rest) w →
      SafeAt theory i t (body x) (fun _ => carried rest) w) (h : carried xs known) :
    SafeAt theory i t (Program.forEach xs body) (fun _ => carried []) known := by
  unfold SafeAt
  rw [atNode_forEach]
  exact safe_forEach (fun x rest w _ hw => hbody x rest w hw) h

theorem safeAt_op {a : Action I K C} {post : Answer a→World I K C T→Prop}
    (hjustified : ∀ w,theory.inv w→Respected t known w →
      Justified cluster theory.toStandards w t i a)
    (h : ∀ w choice answer node,theory.inv w→Respected t known w →
      theory.permits t (i,a) choice w=true→exec i t a choice (w i)=some (answer,node) →
        Grows w (update w i node)→post answer (update w i node)) :
    SafeAt theory i t (op a) post known := by
  intro w _ hinv hrely
  have hgood := hjustified w hinv hrely
  refine ⟨hgood,fun choice answer w' hstep => ?_⟩
  obtain ⟨hpermits,hexec⟩ := Machine.restrict_exec_eq_some.mp hstep
  have hgrows := grows_of_justified hgood hexec
  have hkeeps : theory.discipline.Keeps t w () w' () :=
    ⟨⟨theory.coreStep hinv.1 hgood hpermits hexec,theory.atRest_step hinv.2 hgood hexec⟩,
      fun u hne => respected_of_justified hgood hexec hne⟩
  obtain ⟨node,hnode,rfl⟩ := clusterExec_eq_some.mp hexec
  exact ⟨(),hkeeps,h w choice answer node hinv hrely hpermits hnode hgrows⟩

/-- A task holds a key's lock and knows its content and version. -/
structure Owns (w : World I K C T) (t : T) (i : I) (key : K) (content : Option C)
    (state : Option (KeyVersion I)) : Prop where
  /-- The lock is held. -/
  holder : (w i).holder key=some t
  /-- The content is known. -/
  content : (w i).content key=content
  /-- The version is known. -/
  versions : (w i).db.versions key=state

/-- A task holds a key's lock, and the key is settled. -/
structure Rests (theory : Theory I K C T cluster) (w : World I K C T) (t : T) (i : I) (key : K) :
    Prop where
  /-- The lock is held. -/
  holder : (w i).holder key=some t
  /-- The key is settled. -/
  settled : theory.settled w i key

variable {key : K}

variable {w' w : World I K C T} {state : Option (KeyVersion I)}

omit [DecidableEq K] in
theorem Owns.lasts {content : Option C} (h : Owns w t i key content state)
    (hrely : Respected t w w') : Owns w' t i key content state := by
  have hsame := hrely.held i key h.holder
  exact ⟨hsame.holder.trans h.holder,(content_eq_of_rows hsame.rows).trans h.content,
    hsame.versions.trans h.versions⟩

theorem Owns.rests {content : Option C} (h : Owns w t i key content state)
    (h' : Owns w' t i key content state) (hgrows : Grows w w') (hsettled : theory.settled w i key) :
    Rests theory w' t i key :=
  ⟨h'.holder,theory.lasts hsettled (h'.content.trans h.content.symm)
    (h'.versions.trans h.versions.symm) hgrows⟩

theorem Rests.lasts (h : Rests theory w t i key) (hrely : Respected t w w') : Rests theory w' t i key := by
  have hsame := hrely.held i key h.holder
  exact ⟨hsame.holder.trans h.holder,
    theory.lasts h.settled (content_eq_of_rows hsame.rows) hsame.versions hrely.toGrows⟩

theorem Rests.frame {w : World I K C T} {node : Node I K C T} {key : K} {a : Action I K C}
    {choice : Choice} {answer : Answer a} (h : Rests theory w t i key)
    (hexec : exec i t a choice (w i)=some (answer,node)) (hkey : ¬Writes key a)
    (hgrows : Grows w (update w i node)) :
    Rests theory (update w i node) t i key := by
  have hsame := exec_sameKey hexec hkey
  have hnode : update w i node i=node := update_self i node w
  refine ⟨?_,theory.lasts h.settled ?_ ?_ hgrows⟩
  · rw [hnode,hsame.holder]
    exact h.holder
  · rw [hnode]
    exact content_eq_of_rows hsame.rows
  · rw [hnode]
    exact hsame.versions

theorem safeAt_lock (key : K) :
    SafeAt theory i t (op (.lock key)) (fun _ w => Grows known w ∧ Rests theory w t i key ∧
      ∀ other,Rests theory known t i other→Rests theory w t i other) known := by
  refine safeAt_op (fun _ _ _ => trivial) fun w choice answer node hinv hrely _ hexec hgrows => ?_
  have hexec' := hexec
  simp only [exec] at hexec'
  split_ifs at hexec' with hfree
  have hnone : (w i).holder key=none := by simpa using hfree
  cases hexec'
  have hrests : Rests theory (update w i
      {w i with holder := update (w i).holder key (some t)}) t i key :=
    ⟨by simp,theory.lasts (hinv.2 i key hnone) (by simp [Node.content]) (by simp) hgrows⟩
  refine ⟨hrely.toGrows.trans hgrows,hrests,fun other hother => ?_⟩
  by_cases heq : other=key
  · rwa [heq]
  · exact (hother.lasts hrely).frame hexec (fun hwrites => heq (Eq.symm hwrites)) hgrows

theorem safeAt_unlock (h : Rests theory known t i key) :
    SafeAt theory i t (op (.unlock key)) (fun _ w => Grows known w ∧
      ∀ other,other≠key→Rests theory known t i other→Rests theory w t i other) known := by
  refine safeAt_op (fun w _ hrely => ?_) fun w choice answer node _ hrely _ hexec hgrows => ?_
  · have hrests := h.lasts hrely
    exact ⟨hrests.holder,hrests.settled⟩
  · refine ⟨hrely.toGrows.trans hgrows,fun other hne hother => ?_⟩
    exact (hother.lasts hrely).frame hexec (fun hwrites => hne (Eq.symm hwrites)) hgrows

theorem safeAt_fetchRow (key : K) : SafeAt theory i t (op (.fetchRow key))
      (fun existing w => existing=(w i).rows key ∧ Respected t known w) known := by
  refine safeAt_op (fun _ _ _ => trivial) fun w choice answer node _ hrely _ hexec _ => ?_
  cases hexec
  rw [update_eq_self]
  exact ⟨rfl,hrely⟩

theorem safeAt_keyVersion (key : K) : SafeAt theory i t (op (.keyVersion key))
      (fun current w => current=(w i).db.versions key ∧ Respected t known w) known := by
  refine safeAt_op (fun _ _ _ => trivial) fun w choice answer node _ hrely _ hexec _ => ?_
  cases hexec
  rw [update_eq_self]
  exact ⟨rfl,hrely⟩

variable {existing : Option C}

/-- Writing an object whose lock is held. A commit that fails leaves it. -/
theorem safeAt_commitPut {writer : Writer I K C} {content : C} {done : World I K C T→Prop}
    (h : Owns known t i key existing state)
    (hentitled : ∀ w,Owns w t i key existing state→Entitled (w i) key content writer)
    (hdone : ∀ w choice node,theory.inv w→Owns w t i key existing state →
      theory.permits t (i,.commitPut writer key content) choice w=true →
      exec i t (.commitPut writer key content) choice (w i)=some (true,node) →
        done (update w i node)) :
    SafeAt theory i t (op (.commitPut writer key content)) (fun committed w => Grows known w ∧
      (committed=false→Owns w t i key existing state) ∧
      (committed=true→Owns w t i key (some content) state ∧ done w)) known := by
  refine safeAt_op (fun w _ hrely => ?_) fun w choice answer node hinv hrely hpermits hexec hgrows => ?_
  · have howns := h.lasts hrely
    exact ⟨howns.holder,hentitled w howns⟩
  · have howns := h.lasts hrely
    refine ⟨hrely.toGrows.trans hgrows,fun hfailed => ?_,fun hcommitted => ?_⟩
    · subst hfailed
      cases choice with
      | clock stamp => cases hexec
      | _ =>
        cases hexec
        rwa [update_eq_self]
    · subst hcommitted
      refine ⟨?_,hdone w choice node hinv howns hpermits hexec⟩
      cases choice <;> cases hexec
      refine ⟨?_,?_,?_⟩
      · rw [update_self]
        exact howns.holder
      · rw [update_self]
        simp [Node.content]
      · rw [update_self]
        exact howns.versions

/-- A task holds the lock of a key that has no object. -/
structure Emptied (w : World I K C T) (t : T) (i : I) (key : K) : Prop where
  /-- The lock is held. -/
  holder : (w i).holder key=some t
  /-- The object is not there. -/
  content : (w i).content key=none

omit [DecidableEq K] in
theorem Emptied.lasts (h : Emptied w t i key) (hrely : Respected t w w') : Emptied w' t i key := by
  have hsame := hrely.held i key h.holder
  exact ⟨hsame.holder.trans h.holder,(content_eq_of_rows hsame.rows).trans h.content⟩

variable {writeClass : Text}

theorem safeAt_recordLocalChange {committed : Committed C} {group : Text}
    (h : Owns known t i key committed.content state) (hreplicates : cluster.replicates key=true) :
    SafeAt theory i t (op (.recordLocalChange key committed writeClass group))
      (fun _ w => Rests theory w t i key ∧ (∀ other,Emptied known t i other→Emptied w t i other) ∧
        ∀ other,other≠key→Rests theory known t i other→Rests theory w t i other) known := by
  have hjustified : ∀ w,Respected t known w→Justified cluster theory.toStandards w t i
      (.recordLocalChange key committed writeClass group) := fun w hrely =>
    ⟨(h.lasts hrely).holder,(h.lasts hrely).content,hreplicates⟩
  refine safeAt_op (fun w _ hrely => hjustified w hrely)
    fun w choice answer node hinv hrely hpermits hexec hgrows => ?_
  have hsettled := theory.recorded hinv.1 (hjustified w hrely) hpermits
    (clusterExec_eq_some.mpr ⟨node,hexec,rfl⟩)
  have hrows : node.rows=(w i).rows ∧ node.holder=(w i).holder := by
    rcases exec_recordLocalChange hexec with ⟨_,rfl⟩ | ⟨stamp,_,_,_,rfl⟩
    all_goals exact ⟨rfl,rfl⟩
  refine ⟨⟨?_,hsettled⟩,fun other hother => ⟨?_,?_⟩,fun other hne hother => ?_⟩
  · rw [update_self,hrows.2]
    exact (h.lasts hrely).holder
  · rw [update_self,hrows.2]
    exact (hother.lasts hrely).holder
  · rw [update_self,Node.content,hrows.1]
    exact (hother.lasts hrely).content
  · exact (hother.lasts hrely).frame hexec (fun hwrites => hne (Eq.symm hwrites)) hgrows

variable {event : Event I K C}

theorem safeAt_recordRemoteChange (h : Owns known t i event.key event.content state)
    (hnewer : ∀ current,state=some current → current.version<event.effectiveVersion)
    (hmade : theory.deliverable known event) :
    SafeAt theory i t (op (.recordRemoteChange event.key event))
      (fun _ w => Rests theory w t i event.key) known := by
  have hjustified : ∀ w,Respected t known w→Justified cluster theory.toStandards w t i
      (.recordRemoteChange event.key event) := fun w hrely => by
    have howns := h.lasts hrely
    refine ⟨howns.holder,rfl,howns.content,fun current hcurrent => ?_,
      theory.deliverableLasts hmade hrely.toGrows⟩
    exact hnewer current (howns.versions.symm.trans hcurrent)
  refine safeAt_op (fun w _ hrely => hjustified w hrely)
    fun w choice answer node hinv hrely hpermits hexec hgrows => ⟨?_,?_⟩
  · cases hexec
    rw [update_self]
    exact (h.lasts hrely).holder
  · cases hexec
    exact theory.applied hinv.1 (hjustified w hrely)

theorem safeAt_localAfter {committed : Committed C} (h : Owns known t i key committed.content state) :
    SafeAt theory i t ((localChange cluster writeClass).after key committed)
      (fun _ w => Rests theory w t i key ∧ (∀ other,Emptied known t i other→Emptied w t i other) ∧
        ∀ other,other≠key→Rests theory known t i other→Rests theory w t i other) known := by
  unfold localChange
  by_cases hreplicates : cluster.replicates key=true
  · simp only [hreplicates,if_true]
    exact safeAt_recordLocalChange h hreplicates
  · have hunreplicated : cluster.replicates key=false := by simpa using hreplicates
    simp only [hunreplicated,Bool.false_eq_true,if_false]
    exact safeAt_done ⟨⟨h.holder,theory.unreplicated hunreplicated⟩,fun _ hother => hother,
      fun _ _ hother => hother⟩

omit [DecidableEq K] in
theorem isOutdated_eq_false {current : Option (KeyVersion I)} : isOutdated event current=false ↔
      ∀ state,current=some state→state.version<event.effectiveVersion := by
  unfold isOutdated
  cases current with
  | none | some state => simp

omit [DecidableEq K] in
theorem covered_of_isOutdated {node : Node I K C T}
    (h : isOutdated event (node.db.versions event.key)=true) : Covered node event := by
  unfold isOutdated at h
  cases hstate : node.db.versions event.key with
  | none =>
    rw [hstate] at h
    cases h
  | some state =>
    rw [hstate] at h
    exact ⟨state,hstate,by simpa using h⟩

theorem safeAt_remoteBefore (h : Owns known t i event.key existing state) :
    SafeAt theory i t (runBefore (some (remoteChange event)) event.key) (fun result w =>
      Respected t known w ∧
      (result=.ok ()→∀ current,state=some current → current.version<event.effectiveVersion) ∧
      (result=.error .preconditionFailed→ Covered (w i) event)) known := by
  refine safeAt_bind ((safeAt_keyVersion event.key).mono fun current w hread => ?_)
  obtain ⟨hcurrent,hrely⟩ := hread
  have hstate : current=state := hcurrent.trans (h.lasts hrely).versions
  by_cases houtdated : isOutdated event current=true
  · rw [if_pos houtdated]
    refine safeAt_done ⟨hrely,(fun hok => by cases hok),fun _ => ?_⟩
    exact covered_of_isOutdated (hcurrent ▸ houtdated)
  · rw [if_neg houtdated]
    refine safeAt_done ⟨hrely,fun _ => ?_,(fun herror => by cases herror)⟩
    rw [← hstate]
    exact isOutdated_eq_false.mp (by simpa using houtdated)

theorem safeAt_locked {body : Prog I K C (Except StorageError Unit)}
    {post : Except StorageError Unit→World I K C T→Prop}
    (hgrows : ∀ result w w',post result w→Grows w w' → post result w')
    (hbody : ∀ w existing state,Grows known w→Owns w t i key existing state →
      theory.settled w i key →
        SafeAt theory i t body (fun result w' => Rests theory w' t i key ∧ post result w') w) :
    SafeAt theory i t (locked key body) post known := by
  refine safeAt_bind ((safeAt_lock key).mono fun _ w hlocked => ?_)
  obtain ⟨hgrown,hrests,_⟩ := hlocked
  have howns : Owns w t i key ((w i).content key) ((w i).db.versions key) := ⟨hrests.holder,rfl,rfl⟩
  refine safeAt_bind ((hbody w _ _ hgrown howns hrests.settled).mono fun result w' hended => ?_)
  refine safeAt_bind ((safeAt_unlock hended.1).mono fun _ w'' hunlocked => ?_)
  exact safeAt_done (hgrows result w' w'' hended.2 hunlocked.1)

/-- The write of an object under its lock leaves the key settled, if its hook does so
from the states in which it runs. -/
theorem safeAt_commitStagedLocked {writer : Writer I K C} {content : C}
    {conditions : Option C→Bool} {hook : Option (CommitHook I K C)} {ready : Prop}
    (done refused : World I K C T→Prop) (howns : Owns known t i key existing state)
    (hsettled : theory.settled known i key)
    (hbefore : SafeAt theory i t (runBefore hook key) (fun result w => Respected t known w ∧
      (result=.ok () → ready) ∧ (result=.error .preconditionFailed → refused w)) known)
    (hconditions : conditions existing=false→∀ w,refused w)
    (hentitled : ready → conditions existing=true→∀ w,Owns w t i key existing state →
      Entitled (w i) key content writer)
    (hdone : ready→∀ w choice node,theory.inv w→Owns w t i key existing state →
      theory.permits t (i,.commitPut writer key content) choice w=true →
      exec i t (.commitPut writer key content) choice (w i)=some (true,node) →
        done (update w i node))
    (hafter : ready → conditions existing=true→∀ w,Grows known w →
      Owns w t i key (some content) state→done w →
        SafeAt theory i t (runAfter hook key (.written content))
          (fun _ w' => Rests theory w' t i key) w) :
    SafeAt theory i t (commitStagedLocked writer key content conditions hook)
      (fun result w => Rests theory w t i key ∧ (result=.error .preconditionFailed → refused w))
      known := by
  refine safeAt_attempt (hbefore.mono fun result w hresult => ?_)
  obtain ⟨hrely,hready,hrefused⟩ := hresult
  have hrests := howns.rests (howns.lasts hrely) hrely.toGrows hsettled
  refine ⟨fun e he => ⟨hrests,fun herror => hrefused (he.trans herror)⟩,fun _ hok => ?_⟩
  replace hready := hready hok
  refine safeAt_bind ((safeAt_fetchRow key).mono fun row w' hread => ?_)
  obtain ⟨hrow,hrely'⟩ := hread
  have howns' := (howns.lasts hrely).lasts hrely'
  have hexisting : row.map Row.content=existing := by
    rw [hrow]
    exact howns'.content
  refine safeAt_attempt (safeAt_done ⟨fun e he => ?_,fun _ hchecked => ?_⟩)
  · refine ⟨hrests.lasts hrely',fun _ => hconditions ?_ w'⟩
    rw [hexisting] at he
    by_contra hcondition
    rw [Bool.not_eq_false] at hcondition
    rw [hcondition] at he
    cases he
  · have hcondition : conditions existing=true := by
      rw [hexisting] at hchecked
      by_contra hcondition
      rw [if_neg hcondition] at hchecked
      cases hchecked
    refine safeAt_bind ((safeAt_commitPut howns' (hentitled hready hcondition)
      (hdone hready)).mono fun committed w'' hcommit => ?_)
    obtain ⟨hgrows,hfailed,hcommitted⟩ := hcommit
    refine safeAt_attempt (safeAt_done ⟨fun e he => ?_,fun _ hensured => ?_⟩)
    · cases committed with
      | true => cases he
      | false =>
        cases he
        exact ⟨howns'.rests (hfailed rfl) hgrows (hrests.lasts hrely').settled,
          fun herror => by cases herror⟩
    · cases committed with
      | false => cases hensured
      | true =>
        obtain ⟨howns'',hdone''⟩ := hcommitted rfl
        have hgrown := (hrely.toGrows.trans hrely'.toGrows).trans hgrows
        refine safeAt_bind ((hafter hready hcondition w'' hgrown howns'' hdone'').mono
          fun finished w''' hrests' => ?_)
        exact safeAt_done ⟨hrests',fun herror => by cases finished <;> cases herror⟩

/-- Deleting an object whose lock is held. A commit that fails leaves it. -/
theorem safeAt_deleteObjectLocked {hasRow : Bool} (h : Owns known t i key existing state)
    (hrow : hasRow=existing.isSome) :
    SafeAt theory i t (deleteObjectLocked key hasRow) (fun result w => Grows known w ∧
      (result=.ok ()→Owns w t i key none state) ∧
      (∀ e,result=.error e→e≠.preconditionFailed ∧ Owns w t i key existing state)) known := by
  unfold deleteObjectLocked
  by_cases hsome : hasRow=true
  · rw [if_pos hsome]
    have hjustified : ∀ w,Respected t known w →
        Justified cluster theory.toStandards w t i (.commitDelete [key]) := fun w hrely other hother => by
      rw [mem_singleton.mp hother]
      exact (h.lasts hrely).holder
    refine safeAt_bind (safeAt_op (fun w _ hrely => hjustified w hrely)
      fun w choice committed node _ hrely _ hexec hgrows => ?_)
    have howns := h.lasts hrely
    have hgrown := hrely.toGrows.trans hgrows
    cases choice with
    | work =>
      cases hexec
      refine safeAt_done ⟨hgrown,fun _ => ⟨?_,?_,?_⟩,fun e he => by cases he⟩
      · rw [update_self]
        exact howns.holder
      · rw [update_self]
        simp [Node.content]
      · rw [update_self]
        exact howns.versions
    | _ =>
      cases hexec
      rw [update_eq_self] at hgrown ⊢
      refine safeAt_done ⟨hgrown,(fun hok => by cases hok),fun e he => ?_⟩
      cases he
      exact ⟨(fun hsame => by cases hsame),howns⟩
  · rw [if_neg hsome]
    have hnone : existing=none := by
      rw [hrow] at hsome
      simpa using hsome
    subst hnone
    exact safeAt_done ⟨(Respected.refl t known).toGrows,fun _ => h,fun e he => by cases he⟩

/-- The deletion of an object leaves the key settled, if its hook does so from the
states in which it runs. -/
theorem safeAt_deleteObjectConditional {conditions : Option C→Bool}
    {hook : Option (CommitHook I K C)} (ready : Option (KeyVersion I)→Prop)
    (refused : World I K C T→Prop) (hrefused : ∀ w w',refused w→Grows w w' → refused w')
    (hbefore : ∀ w existing state,Grows known w→Owns w t i key existing state →
      SafeAt theory i t (runBefore hook key) (fun result w' => Respected t w w' ∧
        (result=.ok () → ready state) ∧ (result=.error .preconditionFailed → refused w')) w)
    (hconditions : ∀ existing,conditions existing=false→∀ w,refused w)
    (hafter : ∀ w state storageClass,Grows known w→Owns w t i key none state → ready state →
      SafeAt theory i t (runAfter hook key (.deleted storageClass))
        (fun _ w' => Rests theory w' t i key) w) :
    SafeAt theory i t (deleteObjectConditional key conditions hook)
      (fun result w => result=.error .preconditionFailed → refused w) known := by
  refine safeAt_locked (fun result w w' hpost hgrows herror => hrefused w w' (hpost herror) hgrows)
    fun w existing state hgrows howns hsettled => ?_
  refine safeAt_bind ((safeAt_fetchRow key).mono fun row w₁ hread => ?_)
  obtain ⟨hrow,hrely₁⟩ := hread
  have howns₁ := howns.lasts hrely₁
  have hrests₁ := howns.rests howns₁ hrely₁.toGrows hsettled
  have hexisting : row.map Row.content=existing := by
    rw [hrow]
    exact howns₁.content
  refine safeAt_attempt (safeAt_done ⟨fun e he => ?_,fun _ _ => ?_⟩)
  · refine ⟨hrests₁,fun _ => hconditions (row.map Row.content) ?_ w₁⟩
    by_contra hcondition
    rw [Bool.not_eq_false] at hcondition
    rw [hcondition] at he
    cases he
  · have hgrown := hgrows.trans hrely₁.toGrows
    refine safeAt_attempt ((hbefore w₁ existing state hgrown howns₁).mono fun result w₂ hresult => ?_)
    obtain ⟨hrely₂,hready,hrefused₂⟩ := hresult
    have howns₂ := howns₁.lasts hrely₂
    refine ⟨fun e he => ⟨hrests₁.lasts hrely₂,fun herror => hrefused₂ (he.trans herror)⟩,
      fun _ hok => ?_⟩
    have hisSome : row.isSome=existing.isSome := by
      rw [← hexisting,Option.isSome_map]
    refine safeAt_attempt ((safeAt_deleteObjectLocked howns₂ hisSome).mono fun deleted w₃ hdeleted => ?_)
    obtain ⟨hgrows₃,hdone,hfailed⟩ := hdeleted
    refine ⟨fun e he => ?_,fun _ hdeletion => ?_⟩
    · obtain ⟨hne,howns₃⟩ := hfailed e he
      refine ⟨howns₂.rests howns₃ hgrows₃ (hrests₁.lasts hrely₂).settled,fun herror => ?_⟩
      exact (hne (Except.error.inj herror)).elim
    · have hgrown₃ := (hgrown.trans hrely₂.toGrows).trans hgrows₃
      refine safeAt_bind ((hafter w₃ state _ hgrown₃ (hdone hdeletion) (hready hok)).mono
        fun finished w₄ hrests₄ => ?_)
      exact safeAt_done ⟨hrests₄,fun herror => by cases finished <;> cases herror⟩

theorem safeAt_clientPut (key : K) (content : C) (conditions : Option C→Bool)
    (writeClass : Text) : SafeAt theory i t
      (putObjectConditional .client key content conditions (some (localChange cluster writeClass)))
      (fun _ _ => True) known := by
  refine safeAt_locked (fun _ _ _ _ _ => trivial) fun w existing state _ howns hsettled => ?_
  have hbefore : SafeAt theory i t (runBefore (some (localChange cluster writeClass)) key)
      (fun result w' => Respected t w w' ∧ (result=.ok ()→True) ∧
        (result=.error .preconditionFailed→True)) w :=
    safeAt_done ⟨Respected.refl t w,fun _ => trivial,fun _ => trivial⟩
  refine SafeAt.mono (safeAt_commitStagedLocked (fun _ => True) (fun _ => True) howns hsettled
    hbefore (fun _ _ => trivial) (fun _ _ _ _ => trivial) (fun _ _ _ _ _ _ _ _ => trivial)
    fun _ _ w' _ howns' _ => ?_) fun result w' hresult => ⟨hresult.1,trivial⟩
  exact (safeAt_localAfter howns').mono fun _ _ hafter => hafter.1

theorem safeAt_clientDelete (key : K) (conditions : Option C→Bool) (writeClass : Text) :
    SafeAt theory i t
      (deleteObjectConditional key conditions (some (localChange cluster writeClass)))
      (fun _ _ => True) known := by
  refine SafeAt.mono (safeAt_deleteObjectConditional (fun _ => True) (fun _ => True)
    (fun _ _ _ _ => trivial) (fun w _ _ _ _ => ?_) (fun _ _ _ => trivial)
    fun w state storageClass _ howns _ => ?_) fun _ _ _ => trivial
  · exact safeAt_done ⟨Respected.refl t w,fun _ => trivial,fun _ => trivial⟩
  · exact (safeAt_localAfter howns).mono fun _ _ hafter => hafter.1

omit [DecidableEq K] in
theorem Covered.grows (h : Covered (w i) event) (hgrows : Grows w w') : Covered (w' i) event := by
  obtain ⟨state,hstate,hle⟩ := h
  obtain ⟨state',hstate',hle'⟩ := hgrows.versions i event.key state hstate
  exact ⟨state',hstate',hle.trans hle'⟩

theorem safeAt_remoteAfter {committed : Committed C}
    (h : Owns known t i event.key event.content state)
    (hnewer : ∀ current,state=some current → current.version<event.effectiveVersion)
    (hmade : theory.deliverable known event) :
    SafeAt theory i t (runAfter (some (remoteChange event)) event.key committed)
      (fun _ w => Rests theory w t i event.key) known :=
  safeAt_bind ((safeAt_recordRemoteChange h hnewer hmade).mono fun _ _ hrests => safeAt_done hrests)

/-- The write or deletion of an event is refused only if it is covered. -/
theorem safeAt_applyChange (hmade : theory.deliverable known event) :
    SafeAt theory i t (applyChange event) (fun result w =>
      result=.error .preconditionFailed→ Covered (w i) event ∧ theory.deliverable w event) known := by
  have hlasts : ∀ w w' : World I K C T,Covered (w i) event ∧ theory.deliverable w event→Grows w w' →
      Covered (w' i) event ∧ theory.deliverable w' event := fun w w' h hgrows =>
    ⟨h.1.grows hgrows,theory.deliverableLasts h.2 hgrows⟩
  have hbefore : ∀ w existing state,Grows known w→Owns w t i event.key existing state →
      SafeAt theory i t (runBefore (some (remoteChange event)) event.key) (fun result w' =>
        Respected t w w' ∧
        (result=.ok ()→∀ current,state=some current → current.version<event.effectiveVersion) ∧
        (result=.error .preconditionFailed→ Covered (w' i) event ∧ theory.deliverable w' event)) w := by
    intro w existing state hgrows howns
    refine (safeAt_remoteBefore howns).mono fun result w' hresult => ?_
    refine ⟨hresult.1,hresult.2.1,fun herror => ⟨hresult.2.2 herror,?_⟩⟩
    exact theory.deliverableLasts (theory.deliverableLasts hmade hgrows) hresult.1.toGrows
  unfold applyChange
  cases hcontent : event.content with
  | none =>
    refine safeAt_deleteObjectConditional
      (fun state => ∀ current,state=some current → current.version<event.effectiveVersion)
      (fun w => Covered (w i) event ∧ theory.deliverable w event) hlasts hbefore
      (fun _ hfalse => by cases hfalse)
      fun w state storageClass hgrows howns hready => ?_
    rw [← hcontent] at howns
    exact safeAt_remoteAfter howns hready (theory.deliverableLasts hmade hgrows)
  | some content =>
    refine safeAt_locked (fun _ w w' hpost hgrows herror => hlasts w w' (hpost herror) hgrows)
      fun w existing state hgrows howns hsettled => ?_
    refine safeAt_commitStagedLocked (fun _ => True)
      (fun w' => Covered (w' i) event ∧ theory.deliverable w' event)
      howns hsettled (hbefore w existing state hgrows howns) (fun hfalse => by cases hfalse)
      (fun hready _ w' howns' => ?_) (fun _ _ _ _ _ _ _ _ => trivial)
      fun hready _ w' hgrows' howns' _ => ?_
    · refine ⟨rfl,hcontent,fun current hcurrent => hready current ?_⟩
      exact howns'.versions.symm.trans hcurrent
    · rw [← hcontent] at howns'
      exact safeAt_remoteAfter howns' hready (theory.deliverableLasts hmade (hgrows.trans hgrows'))

theorem safeAt_recordApplied (hcovered : Covered (known i) event)
    (hmade : theory.deliverable known event) :
    SafeAt theory i t (op (.recordApplied event)) (fun _ _ => True) known := by
  refine safeAt_op (fun w _ hrely => ?_) fun _ _ _ _ _ _ _ _ _ => trivial
  exact ⟨hcovered.grows hrely.toGrows,theory.deliverableLasts hmade hrely.toGrows⟩

/-- Applying a peer's event is safe. -/
theorem safeAt_applyEvent (hmade : theory.deliverable known event) :
    SafeAt theory i t (applyEvent event) (fun _ _ => True) known := by
  have hread : SafeAt theory i t (op (.hasEvent event.id)) (fun _ w => theory.deliverable w event) known := by
    refine safeAt_op (fun _ _ _ => trivial) fun w choice found node _ hrely _ hexec hgrows => ?_
    exact theory.deliverableLasts hmade (hrely.toGrows.trans hgrows)
  refine safeAt_bind (hread.mono fun found w hmade₁ => ?_)
  by_cases hfound : found=true
  · rw [if_pos hfound]
    exact safeAt_done trivial
  rw [if_neg hfound]
  refine safeAt_bind ((safeAt_keyVersion event.key).mono fun current w₁ hcurrent => ?_)
  have hmade₂ : theory.deliverable w₁ event := theory.deliverableLasts hmade₁ hcurrent.2.toGrows
  by_cases houtdated : isOutdated event current=true
  · rw [if_pos houtdated]
    have hcovered : Covered (w₁ i) event := covered_of_isOutdated (hcurrent.1 ▸ houtdated)
    exact safeAt_bind ((safeAt_recordApplied hcovered hmade₂).mono fun _ _ _ => safeAt_done trivial)
  rw [if_neg houtdated]
  refine safeAt_bind ((safeAt_applyChange hmade₂).mono fun result w₂ hrefused => ?_)
  match result,hrefused with
  | .ok _,_ => exact safeAt_done trivial
  | .error .preconditionFailed,hrefused =>
    obtain ⟨hcovered,hmade₃⟩ := hrefused rfl
    exact safeAt_bind
      ((safeAt_recordApplied hcovered hmade₃).mono fun _ _ _ => safeAt_done trivial)
  | .error .notFound,_ | .error .insufficientStorage,_ | .error .internal,_ =>
    exact safeAt_done trivial

/-- Removing the row of an object whose blob is missing. -/
theorem safeAt_reconcileKey (hdropped : ∀ w w',theory.settled w i key →
      (w' i).content key=none→(w' i).db.versions key=(w i).db.versions key→Grows w w' →
        theory.settled w' i key) :
    SafeAt theory i t (reconcileKey key) (fun _ _ => True) known := by
  have hread : ∀ w : World I K C T,SafeAt theory i t (op (.blobExists key))
      (fun _ w' => Respected t w w') w := fun w => by
    refine safeAt_op (fun _ _ _ => trivial) fun w' choice found node _ hrely _ hexec _ => ?_
    cases hexec
    rwa [update_eq_self]
  refine safeAt_bind ((hread known).mono fun found w _ => ?_)
  by_cases hfound : found=true
  · rw [if_pos hfound]
    exact safeAt_done trivial
  rw [if_neg hfound]
  refine safeAt_locked (fun _ _ _ _ _ => trivial) fun w₁ existing state _ howns hsettled => ?_
  refine safeAt_bind ((hread w₁).mono fun found' w₂ hrely₂ => ?_)
  refine safeAt_bind ((safeAt_fetchRow key).mono fun row w₃ hrow => ?_)
  have hrely₃ := hrely₂.trans hrow.2
  have howns₃ := howns.lasts hrely₃
  have hrests₃ := howns.rests howns₃ hrely₃.toGrows hsettled
  split_ifs
  · refine safeAt_bind (safeAt_op (fun w' _ hrely => (howns₃.lasts hrely).holder)
      fun w' choice answer node _ hrely _ hexec hgrows => ?_)
    have howns₄ := howns₃.lasts hrely
    cases hexec
    refine safeAt_done ⟨⟨?_,hdropped w' _ (hrests₃.lasts hrely).settled ?_ ?_ hgrows⟩,trivial⟩
    · rw [update_self]
      exact howns₄.holder
    · rw [update_self]
      simp [Node.content]
    · rw [update_self]
  · exact safeAt_done ⟨hrests₃,trivial⟩

theorem safeAt_healDamaged {etag : C→Text} {copy : C}
    (hrepaired : ∀ w w' content,theory.settled w i key→(w i).content key=some content →
      etag content=etag copy→(w' i).content key=some copy →
      (w' i).db.versions key=(w i).db.versions key→Grows w w' → theory.settled w' i key) :
    SafeAt theory i t (healDamaged etag key copy) (fun _ _ => True) known := by
  refine safeAt_locked (fun _ _ _ _ _ => trivial) fun w existing state _ howns hsettled => ?_
  have hbefore : SafeAt theory i t (runBefore (none : Option (CommitHook I K C)) key)
      (fun result w' => Respected t w w' ∧ (result=.ok ()→True) ∧
        (result=.error .preconditionFailed→True)) w :=
    safeAt_done ⟨Respected.refl t w,fun _ => trivial,fun _ => trivial⟩
  have hexisting : (existing.map etag==some (etag copy))=true →
      ∃ content,existing=some content ∧ etag content=etag copy := fun hcondition => by
    rwa [beq_iff_eq,Option.map_eq_some_iff] at hcondition
  refine SafeAt.mono (safeAt_commitStagedLocked (fun _ => True) (fun _ => True) howns hsettled
    hbefore (fun _ _ => trivial) (fun _ hcondition w' howns' => ?_)
    (fun _ _ _ _ _ _ _ _ => trivial) fun _ hcondition w' hgrows howns' _ => ?_)
    fun result w' hresult => ⟨hresult.1,trivial⟩
  · obtain ⟨content,hcontent,_⟩ := hexisting hcondition
    intro hnone
    rw [howns'.content,hcontent] at hnone
    cases hnone
  · obtain ⟨content,hcontent,hetag⟩ := hexisting hcondition
    refine safeAt_done ⟨howns'.holder,?_⟩
    exact hrepaired w w' content hsettled (howns.content.trans hcontent) hetag howns'.content
      (howns'.versions.trans howns.versions.symm) hgrows

/-- What a repaired key is: its version is settled as it is, or the version of the copy
is newer and may be recorded. -/
def Healed (theory : Theory I K C T cluster) (i : I) (key : K) (version : Option (Version I))
    (state : Option (KeyVersion I)) (w : World I K C T) : Prop :=
  (∀ copied,version=some copied→(∀ current,state=some current → current.version<copied) →
    theory.restorable w i key copied) ∧
  ((∀ copied,version=some copied→∃ current,state=some current ∧ copied ≤ current.version) →
    theory.settled w i key)

/-- Repair of a missing object. -/
theorem safeAt_healMissing {copy : C} {version : Option (Version I)}
    (hhealed : ∀ w choice node state,theory.inv w→Owns w t i key none state →
      theory.permits t (i,.commitPut (.heal version) key copy) choice w=true →
      exec i t (.commitPut (.heal version) key copy) choice (w i)=some (true,node) →
        Healed theory i key version state (update w i node)) :
    SafeAt theory i t (healMissing key copy version) (fun _ _ => True) known := by
  refine safeAt_locked (fun _ _ _ _ _ => trivial) fun w existing state _ howns hsettled => ?_
  have hbefore : SafeAt theory i t (runBefore (some (restore version)) key) (fun result w' =>
      Respected t w w' ∧
      (result=.ok ()→∀ current,state=some current → current.deleted=false) ∧
      (result=.error .preconditionFailed→True)) w := by
    refine safeAt_bind ((safeAt_keyVersion key).mono fun current w' hread => ?_)
    have hstate : current=state := hread.1.trans (howns.lasts hread.2).versions
    by_cases hdeleted : current.any KeyVersion.deleted=true
    · rw [if_pos hdeleted]
      exact safeAt_done ⟨hread.2,(fun hok => by cases hok),fun _ => trivial⟩
    · rw [if_neg hdeleted]
      refine safeAt_done ⟨hread.2,fun _ found hfound => ?_,fun _ => trivial⟩
      rw [hstate,hfound] at hdeleted
      simpa using hdeleted
  refine SafeAt.mono (safeAt_commitStagedLocked
    (fun w' => existing=none→Healed theory i key version state w') (fun _ => True) howns hsettled
    hbefore (fun _ _ => trivial) (fun hready hcondition w' howns' => ?_)
    (fun _ w' choice node hinv howns' hpermits hexec hnone => ?_)
    fun hready hcondition w' hgrows howns' hdone => ?_)
    fun result w' hresult => ⟨hresult.1,trivial⟩
  · have hnone : existing=none := by simpa using hcondition
    exact fun _ current hcurrent => hready current (howns'.versions.symm.trans hcurrent)
  · subst hnone
    exact hhealed w' choice node state hinv howns' hpermits hexec
  · have hnone : existing=none := by simpa using hcondition
    obtain ⟨hrestorable,hsettles⟩ := hdone hnone
    cases version with
    | none => exact safeAt_done ⟨howns'.holder,hsettles fun copied hcopied => by cases hcopied⟩
    | some copied =>
      refine safeAt_bind ((safeAt_keyVersion key).mono fun current w₁ hread => ?_)
      have howns₁ := howns'.lasts hread.2
      have hstate : current=state := hread.1.trans howns₁.versions
      subst hstate
      by_cases hnewer : current.all (fun found => decide (found.version<copied))=true
      · rw [if_pos hnewer]
        have hlater : ∀ found,current=some found→found.version<copied := fun found hfound => by
          rw [hfound] at hnewer
          simpa using hnewer
        have hjustified : ∀ w₂,Respected t w₁ w₂→Justified cluster theory.toStandards w₂ t i
            (.recordRestored key copied) := fun w₂ hrely => by
          have howns₂ := howns₁.lasts hrely
          refine ⟨howns₂.holder,⟨copy,howns₂.content⟩,fun found hfound => ?_,fun found hfound => ?_,?_⟩
          · exact hready found (howns₂.versions.symm.trans hfound)
          · exact hlater found (howns₂.versions.symm.trans hfound)
          · exact theory.restorableLasts (hrestorable copied rfl hlater)
              (howns₂.content.trans howns'.content.symm) (hread.2.toGrows.trans hrely.toGrows)
        refine safeAt_bind (safeAt_op (fun w₂ _ hrely => hjustified w₂ hrely)
          fun w₂ choice answer node hinv hrely hpermits hexec hgrows₂ => safeAt_done ⟨?_,?_⟩)
        · cases hexec
          rw [update_self]
          exact (howns₁.lasts hrely).holder
        · cases hexec
          exact theory.restored hinv.1 (hjustified w₂ hrely)
      · rw [if_neg hnewer]
        have hcurrent : ∀ found,some copied=some found →
            ∃ recorded,current=some recorded ∧ found ≤ recorded.version := fun found hfound => by
          cases hfound
          cases current with
          | none => exact (hnewer rfl).elim
          | some recorded => exact ⟨recorded,rfl,by simpa using hnewer⟩
        exact safeAt_done (howns'.rests howns₁ hread.2.toGrows (hsettles hcurrent))

theorem safeAt_lockAll (keys : List K) :
    SafeAt theory i t (Program.forEach keys.dedup fun key => op (.lock key))
      (fun _ w => ∀ key∈keys,Rests theory w t i key) known := by
  let carried (rest : List K) (w : World I K C T) : Prop :=
    ∀ key∈keys,key∉rest→Rests theory w t i key
  have hloop : SafeAt theory i t (Program.forEach keys.dedup fun key => op (.lock key))
      (fun _ => carried []) known := by
    refine safeAt_forEach (fun key rest w hcarried => ?_) fun key hkey hnot => ?_
    · refine (safeAt_lock key).mono fun _ w' hlocked other hother hnot => ?_
      by_cases heq : other=key
      · rw [heq]
        exact hlocked.2.1
      · exact hlocked.2.2 other (hcarried other hother (by simp [heq,hnot]))
    · exact (hnot (mem_dedup.mpr hkey)).elim
  exact hloop.mono fun _ w hcarried key hkey => hcarried key hkey not_mem_nil

theorem safeAt_unlockAll {keys : List K} (hnodup : keys.Nodup)
    (h : ∀ key∈keys,Rests theory known t i key) :
    SafeAt theory i t (Program.forEach keys fun key => op (.unlock key)) (fun _ _ => True) known := by
  let carried (rest : List K) (w : World I K C T) : Prop :=
    rest.Nodup ∧ ∀ key∈rest,Rests theory w t i key
  have hloop : SafeAt theory i t (Program.forEach keys fun key => op (.unlock key))
      (fun _ => carried []) known := by
    refine safeAt_forEach (fun key rest w hcarried => ?_) ⟨hnodup,h⟩
    obtain ⟨hnot,hrest⟩ := nodup_cons.mp hcarried.1
    refine (safeAt_unlock (hcarried.2 key mem_cons_self)).mono fun _ w' hunlocked => ?_
    refine ⟨hrest,fun other hother => ?_⟩
    have hne : other≠key := fun heq => hnot (heq ▸ hother)
    exact hunlocked.2 other hne (hcarried.2 other (mem_cons_of_mem key hother))
  exact hloop.mono fun _ _ _ => trivial

theorem safeAt_commitDelete {keys : List K} (h : ∀ key∈keys,Rests theory known t i key) :
    SafeAt theory i t (op (.commitDelete keys)) (fun committed w =>
      (committed=false→∀ key∈keys,Rests theory w t i key) ∧
      (committed=true→∀ key∈keys,Emptied w t i key)) known := by
  refine safeAt_op (fun w _ hrely key hkey => ((h key hkey).lasts hrely).holder)
    fun w choice committed node _ hrely _ hexec _ => ?_
  cases choice with
  | work =>
    cases hexec
    refine ⟨(fun hfailed => by cases hfailed),fun _ key hkey => ⟨?_,?_⟩⟩
    · rw [update_self]
      exact ((h key hkey).lasts hrely).holder
    · rw [update_self]
      simp [Node.content,hkey]
  | _ =>
    cases hexec
    rw [update_eq_self]
    exact ⟨fun _ key hkey => (h key hkey).lasts hrely,fun hcommitted => by cases hcommitted⟩

/-- Recording the deletions of some objects one by one settles them all. -/
theorem safeAt_recordAll {chunk : List (DeletedObjectRef K)}
    (h : ∀ key∈chunk.map DeletedObjectRef.key,Emptied known t i key) :
    SafeAt theory i t (reportBulkDeletes (localChange cluster writeClass) chunk)
      (fun _ w => ∀ key∈chunk.map DeletedObjectRef.key,Rests theory w t i key) known := by
  let carried (rest : List (DeletedObjectRef K)) (w : World I K C T) : Prop :=
    (∃ recorded,recorded++rest=chunk) ∧
    (∀ key∈chunk.map DeletedObjectRef.key,Emptied w t i key) ∧
    ∀ key∈chunk.map DeletedObjectRef.key,key∉rest.map DeletedObjectRef.key →
      Rests theory w t i key
  have hloop : SafeAt theory i t (reportBulkDeletes (localChange cluster writeClass) chunk)
      (fun _ => carried []) known := by
    refine safeAt_forEach (fun object rest w hcarried => ?_) ⟨⟨[],rfl⟩,h,fun _ hkey hnot =>
      (hnot hkey).elim⟩
    obtain ⟨⟨recorded,hchunk⟩,hempty,hrests⟩ := hcarried
    have hmem : object.key∈chunk.map DeletedObjectRef.key := by
      rw [← hchunk]
      simp
    have howns : Owns w t i object.key (Committed.deleted object.storageClass : Committed C).content
        ((w i).db.versions object.key) :=
      ⟨(hempty object.key hmem).holder,(hempty object.key hmem).content,rfl⟩
    refine safeAt_bind ((safeAt_localAfter howns).mono fun _ w' hafter =>
      safeAt_done ⟨⟨recorded++[object],?_⟩,?_,?_⟩)
    · rw [← hchunk,append_assoc,singleton_append]
    · exact fun key hkey => hafter.2.1 key (hempty key hkey)
    · intro key hkey hnot
      by_cases heq : key=object.key
      · rw [heq]
        exact hafter.1
      · refine hafter.2.2 key heq (hrests key hkey fun hin => ?_)
        rw [map_cons,mem_cons] at hin
        exact hin.elim heq hnot
  exact hloop.mono fun _ w hcarried key hkey => hcarried.2.2 key hkey not_mem_nil

theorem safeAt_deleteChunk (chunk : List (DeletedObjectRef K)) (writeClass : Text) :
    SafeAt theory i t (deleteChunk (localChange cluster writeClass : CommitHook I K C) chunk)
      (fun _ _ => True) known := by
  refine safeAt_bind ((safeAt_lockAll _).mono fun _ w hlocked => ?_)
  refine safeAt_bind ((safeAt_commitDelete hlocked).mono fun committed w₁ hcommit => ?_)
  have hrecord : SafeAt theory i t
      (if committed then reportBulkDeletes (localChange cluster writeClass) chunk else .done ())
      (fun _ w₂ => ∀ key∈chunk.map DeletedObjectRef.key,Rests theory w₂ t i key) w₁ := by
    cases committed with
    | true => exact safeAt_recordAll (hcommit.2 rfl)
    | false => exact safeAt_done (hcommit.1 rfl)
  refine safeAt_bind (hrecord.mono fun _ w₂ hrests => ?_)
  exact safeAt_unlockAll (nodup_dedup _) fun key hkey => hrests key (mem_dedup.mp hkey)

theorem safeAt_deleteObjectsInternal (chunks : List (List (DeletedObjectRef K)))
    (writeClass : Text) : SafeAt theory i t
      (deleteObjectsInternal (localChange cluster writeClass : CommitHook I K C) chunks)
      (fun _ _ => True) known := by
  let carried (_ : List (List (DeletedObjectRef K))) (_ : World I K C T) : Prop := True
  have hloop : SafeAt theory i t
      (deleteObjectsInternal (localChange cluster writeClass : CommitHook I K C) chunks)
      (fun _ => carried []) known :=
    safeAt_forEach (fun chunk _ _ _ => safeAt_deleteChunk chunk writeClass) trivial
  exact hloop.mono fun _ _ _ => trivial

end NebularOs.ReplicatedCluster
