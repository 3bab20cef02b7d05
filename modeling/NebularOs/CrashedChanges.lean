import Mathlib
import NebularOs.ClusterRuns

/-!
# Local changes and crashes

A local change is committed in the object metadata and then recorded in the system
database: one transaction gives the key its next version and queues the event. A crash
between the two, or a transaction that fails, leaves a change that clients see and peers
never hear of, and a restart does not look for such changes.

At every other crash point a change that is visible is recorded.
-/

namespace NebularOs.CrashedChanges

open BlobFilenames RequestPrograms TaskHistories ReplicationLog ReplicatedNode ReplicatedCluster
open Program
open EngineState (StorageError)

variable {I K C T : Type} {α β : Type} [LinearOrder I] [DecidableEq K]

/-- How far the change of a key has come. -/
structure Progress where
  /-- The object metadata is committed. -/
  committed : Bool
  /-- The version and the event are recorded. -/
  recorded : Bool
  deriving DecidableEq

/-- A request has committed a change of a key. -/
def commits (key : K) : (a : Action I K C) → Answer a→Bool
  | .commitPut _ other _,committed => decide (other=key) && (committed : Bool)
  | .commitDelete keys,committed => decide (key∈keys) && (committed : Bool)
  | _,_ => false

/-- A request has recorded a change of a key. -/
def records (key : K) : (a : Action I K C) → Answer a→Bool
  | .recordLocalChange other _ _ _,recorded => decide (other=key) && (recorded : Bool)
  | _,_ => false

/-- The progress of the change of a key along a run. -/
def progress (I C T : Type) (key : K) :
    Recorder (Action I K C) Answer T (Node I K C T) Progress where
  request _ a answer _ _ history :=
    ⟨history.committed || commits key a answer,history.recorded || records key a answer⟩
  environment _ _ history := history
  crash history := history

/-- What a restart finds: the databases and blobs, and no locks. -/
def restart (node : Node I K C T) : Node I K C T := {node with holder := fun _ => none}

/-- A change of a key is recorded: its version is newer than before, and the log holds a
new event with that version and the content that is there. -/
structure Recorded (origin : I) (key : K) (before after : Node I K C T) : Prop where
  /-- The version is newer, and the event describes the change. -/
  event : ∃ state event,after.db.versions key=some state ∧
    (∀ earlier,before.db.versions key=some earlier→earlier.version<state.version) ∧
    event∈after.db.events ∧ event.key=key ∧ event.content=after.content key ∧
    ⟨event.version,event.origin⟩=state.version ∧ event.id.1=origin ∧ before.nextId≤event.id.2

/-- What is known of a key on the way. -/
structure Tracked (origin : I) (before : Node I K C T) (key : K) (s : Node I K C T×Progress) :
    Prop where
  /-- The object is the same until a change is committed. -/
  rows : s.2.committed=false→s.1.rows key=before.rows key
  /-- The version is the same until a change is recorded. -/
  unrecorded : s.2.recorded=false→s.1.db.versions key=before.db.versions key
  /-- What is recorded describes the object. -/
  recorded : s.2.recorded=true→Recorded origin key before s.1
  /-- Numbers of events grow. -/
  nextId : before.nextId ≤ s.1.nextId

/-- Requests that leave the object and the version of a key. -/
def Quiet (key : K) (a : Action I K C) : Prop :=
  ¬Writes key a ∨ (∃ other,a=.lock other) ∨ ∃ other,a=.unlock other

variable {a : Action I K C} {answer : Answer a} {choice : Choice} {node : Node I K C T}

theorem exec_quiet {self : I} {t : T} {node' : Node I K C T} {key : K}
    (h : exec self t a choice node=some (answer,node')) (hquiet : Quiet key a) :
    node'.rows key=node.rows key ∧ node'.db.versions key=node.db.versions key := by
  rcases hquiet with hother | ⟨other,rfl⟩ | ⟨other,rfl⟩
  · have hsame := exec_sameKey h hother
    exact ⟨hsame.rows,hsame.versions⟩
  · simp only [exec] at h
    split_ifs at h
    cases h
    exact ⟨rfl,rfl⟩
  · cases h
    exact ⟨rfl,rfl⟩

omit [LinearOrder I] in
theorem quiet_progress {key : K} (hquiet : Quiet key a) (answer : Answer a) :
    commits key a answer=false ∧ records key a answer=false := by
  rcases hquiet with hother | ⟨other,rfl⟩ | ⟨other,rfl⟩
  · cases a with
    | commitPut writer other content =>
      have hne : other≠key := hother
      simp [commits,records,hne]
    | commitDelete keys =>
      have hnot : key∉keys := hother
      simp [commits,records,hnot]
    | recordLocalChange other committed writeClass group =>
      have hne : other≠key := hother
      simp [commits,records,hne]
    | _ => exact ⟨rfl,rfl⟩
  · exact ⟨rfl,rfl⟩
  · exact ⟨rfl,rfl⟩

theorem exec_nextId_le {self : I} {t : T} {node' : Node I K C T}
    (h : exec self t a choice node=some (answer,node')) : node.nextId≤node'.nextId := by
  by_cases hmakes : MakesEvent a
  · cases a with
    | recordLocalChange key committed writeClass group =>
      rcases exec_recordLocalChange h with ⟨_,rfl⟩ | ⟨stamp,_,_,_,rfl⟩
      · exact le_rfl
      · exact Nat.le_succ _
    | insertPending key content storageClass group version =>
      cases choice <;> cases h
      exact Nat.le_succ _
    | _ => exact hmakes.elim
  · exact (exec_nextId h hmakes).ge

variable {self : I} {before : Node I K C T} {key : K} {t : T}

theorem Tracked.quiet {s : Node I K C T×Progress} (h : Tracked self before key s)
    (hexec : exec self t a choice s.1=some (answer,node)) (hquiet : Quiet key a) :
    Tracked self before key (node,s.2) := by
  obtain ⟨hrows,hversions⟩ := exec_quiet hexec hquiet
  refine ⟨fun hcommitted => ?_,fun hrecorded => ?_,fun hrecorded => ?_,?_⟩
  · exact hrows.trans (h.rows hcommitted)
  · exact hversions.trans (h.unrecorded hrecorded)
  · obtain ⟨state,event,hstate,hnewer,hevent,hkey,hcontent,hrest⟩ := (h.recorded hrecorded).event
    have hsame : node.content key=s.1.content key := content_eq_of_rows hrows
    exact ⟨state,event,hversions.trans hstate,hnewer,exec_events hexec hevent,hkey,
      hcontent.trans hsame.symm,hrest⟩
  · exact h.nextId.trans (exec_nextId_le hexec)

/-- The node with the progress of a key along. -/
def tracking (self : I) (key : K) :
    Machine (Action I K C) Answer T (Node I K C T×Progress) Choice :=
  recorded (machine self) (progress I C T key)

/-- What is known of the key holds wherever the program stops. -/
def Follows (self : I) (before : Node I K C T) (key : K) (t : T) (program : Prog I K C α)
    (post : α→Node I K C T×Progress→Prop) (s : Node I K C T×Progress) : Prop :=
  (tracking self key).maintains t (Tracked self before key) program post s

variable {s : Node I K C T×Progress}

theorem follows_bind {program : Prog I K C α} {rest : α→Prog I K C β}
    {post : β→Node I K C T×Progress→Prop}
    (h : Follows self before key t program (fun value s' =>
      Tracked self before key s' → Follows self before key t (rest value) post s') s) :
    Follows self before key t (program.bind rest) post s :=
  Machine.maintains_bind h

theorem follows_done {value : α} {post : α→Node I K C T×Progress→Prop}
    (h : Tracked self before key s) (hpost : post value s) :
    Follows self before key t (.done value) post s := ⟨h,hpost⟩

theorem Follows.mono {program : Prog I K C α} {post post' : α→Node I K C T×Progress→Prop}
    (h : Follows self before key t program post s)
    (himp : ∀ value s',post value s' → post' value s') : Follows self before key t program post' s :=
  Machine.maintains_mono h (fun _ hinv => hinv) himp

theorem follows_attempt {first : Prog I K C (Except StorageError α)}
    {next : α→Prog I K C (Except StorageError β)}
    {post : Except StorageError β→Node I K C T×Progress→Prop}
    (h : Follows self before key t first (fun result s' =>
      (∀ e,result=.error e→post (.error e) s') ∧ ∀ value,result=.ok value →
        Tracked self before key s' → Follows self before key t (next value) post s') s) :
    Follows self before key t (attempt first next) post s := by
  refine follows_bind (h.mono fun result s' hresult htracked => ?_)
  cases result with
  | error e => exact follows_done htracked (hresult.1 e rfl)
  | ok value => exact hresult.2 value rfl htracked

theorem follows_op {post : Answer a→Node I K C T×Progress→Prop} (h : Tracked self before key s)
    (hstep : ∀ choice answer node,exec self t a choice s.1=some (answer,node) →
      let s' := (node,(⟨s.2.committed || commits key a answer,
        s.2.recorded || records key a answer⟩ : Progress))
      Tracked self before key s' ∧ post answer s') :
    Follows self before key t (op a) post s := by
  refine ⟨h,fun choice answer s' hexec => ?_⟩
  obtain ⟨hnode,hnote⟩ := recorded_exec_eq_some.mp hexec
  obtain ⟨node,history⟩ := s'
  dsimp only at hnote
  subst hnote
  exact hstep choice answer node hnode

theorem follows_quiet {post : Answer a→Node I K C T×Progress→Prop}
    (h : Tracked self before key s) (hquiet : Quiet key a)
    (hpost : ∀ choice answer node,exec self t a choice s.1=some (answer,node) →
      Tracked self before key (node,s.2)→node.content key=s.1.content key →
        post answer (node,s.2)) : Follows self before key t (op a) post s := by
  refine follows_op h fun choice answer node hexec => ?_
  obtain ⟨hcommits,hrecords⟩ := quiet_progress hquiet answer
  rw [hcommits,hrecords,Bool.or_false,Bool.or_false]
  have htracked := h.quiet hexec hquiet
  exact ⟨htracked,hpost choice answer node hexec htracked
    (content_eq_of_rows (exec_quiet hexec hquiet).1)⟩

omit [DecidableEq K] in
theorem Tracked.committed (h : Tracked self before key s)
    (hcontent : s.2.recorded=true→node.content key=s.1.content key) (hdb : node.db=s.1.db)
    (hnext : node.nextId=s.1.nextId) : Tracked self before key (node,⟨true,s.2.recorded⟩) := by
  refine ⟨(fun hfalse => by cases hfalse),fun hrecorded => ?_,fun hrecorded => ?_,?_⟩
  · rw [hdb]
    exact h.unrecorded hrecorded
  · obtain ⟨state,event,hstate,hnewer,hevent,hkey,hsame,hrest⟩ := (h.recorded hrecorded).event
    refine ⟨state,event,?_,hnewer,?_,hkey,hsame.trans (hcontent hrecorded).symm,hrest⟩
    · rwa [hdb]
    · rwa [hdb]
  · rw [hnext]
    exact h.nextId

theorem follows_commitPut {content : C} (h : Tracked self before key s)
    (hrecorded : s.2.recorded=false) :
    Follows self before key t (op (.commitPut .client key content)) (fun committed s' =>
      committed=true→s'.1.content key=some content) s := by
  refine follows_op h fun choice committed node hexec => ?_
  cases choice with
  | clock stamp =>
    have hdb : node.db=s.1.db ∧ node.nextId=s.1.nextId ∧ node.content key=some content := by
      cases hexec
      exact ⟨rfl,rfl,by simp [Node.content]⟩
    have htracked := h.committed (fun htrue => by rw [hrecorded] at htrue; cases htrue) hdb.1 hdb.2.1
    cases hexec
    refine ⟨?_,fun _ => hdb.2.2⟩
    simpa [commits,records] using htracked
  | _ =>
    cases hexec
    refine ⟨?_,fun hfalse => by cases hfalse⟩
    simpa [commits,records] using h

theorem follows_commitDelete {keys : List K} (h : Tracked self before key s) (hkey : key∈keys)
    (hrecorded : s.2.recorded=true→s.1.content key=none) :
    Follows self before key t (op (.commitDelete keys)) (fun committed s' =>
      s'.2.recorded=s.2.recorded ∧ (committed=true→s'.1.content key=none) ∧
        (committed=false→s'=s)) s := by
  refine follows_op h fun choice committed node hexec => ?_
  cases choice with
  | work =>
    have hdb : node.db=s.1.db ∧ node.nextId=s.1.nextId ∧ node.content key=none := by
      cases hexec
      exact ⟨rfl,rfl,by simp [Node.content,hkey]⟩
    have htracked := h.committed (fun htrue => hdb.2.2.trans (hrecorded htrue).symm) hdb.1 hdb.2.1
    cases hexec
    refine ⟨?_,by simp [records],fun _ => hdb.2.2,fun hfalse => by cases hfalse⟩
    simpa [commits,records,hkey] using htracked
  | _ =>
    cases hexec
    have hsame : (s.1,(⟨s.2.committed || commits key (.commitDelete keys : Action I K C) false,
        s.2.recorded || records key (.commitDelete keys : Action I K C) false⟩ : Progress))=s := by
      simp [commits,records]
    rw [hsame]
    exact ⟨h,rfl,(fun hfalse => by cases hfalse),fun _ => rfl⟩

omit [DecidableEq K] in
theorem Tracked.le {earlier : KeyVersion I} (h : Tracked self before key s)
    (hearlier : before.db.versions key=some earlier) :
    ∃ current,s.1.db.versions key=some current ∧ earlier.version ≤ current.version := by
  cases hrecorded : s.2.recorded with
  | false => exact ⟨earlier,(h.unrecorded hrecorded).trans hearlier,le_rfl⟩
  | true =>
    obtain ⟨state,_,hstate,hnewer,_⟩ := (h.recorded hrecorded).event
    exact ⟨state,hstate,(hnewer earlier hearlier).le⟩

theorem follows_recordLocalChange {committed : Committed C} {writeClass group : Text}
    (h : Tracked self before key s) (hcontent : s.1.content key=committed.content) :
    Follows self before key t (op (.recordLocalChange key committed writeClass group))
      (fun _ s' => s'.1.content key=committed.content) s := by
  refine follows_op h fun choice answer node hexec => ?_
  rcases exec_recordLocalChange hexec with ⟨rfl,rfl⟩ | ⟨stamp,_,rfl,_,rfl⟩
  · refine ⟨?_,hcontent⟩
    simpa [commits,records] using h
  refine ⟨⟨fun hcommitted => h.rows (by simpa [commits] using hcommitted),fun hfalse => ?_,
    fun _ => ?_,h.nextId.trans (Nat.le_succ _)⟩,hcontent⟩
  · simp [records] at hfalse
  · let event := s.1.db.localEvent self (self,s.1.nextId) key committed writeClass group stamp
    refine ⟨⟨⟨s.1.db.nextMicros key stamp.now,self⟩,committed.content.isNone⟩,event,
      withLocalChange_versions.trans (if_pos rfl),fun earlier hearlier => ?_,
      Database.mem_events_insertPending.mpr (Or.inr rfl),rfl,hcontent.symm,rfl,rfl,h.nextId⟩
    obtain ⟨current,hcurrent,hle⟩ := h.le hearlier
    exact lt_of_le_of_lt hle
      (Version.lt_of_micros_lt (Database.lt_nextMicros hcurrent stamp.now))

section Operations

variable {cluster : Cluster K}

variable {writeClass : Text}

theorem follows_localAfter (committed : Committed C) (hreplicates : cluster.replicates key=true)
    (h : Tracked self before key s) (hcontent : s.1.content key=committed.content) :
    Follows self before key t (runAfter (some (localChange cluster writeClass)) key committed)
      (fun _ s' => s'.1.content key=committed.content) s := by
  unfold runAfter localChange
  simp only [hreplicates,if_true]
  exact follows_recordLocalChange h hcontent

theorem follows_locked {body : Prog I K C (Except StorageError Unit)}
    (h : Tracked self before key s) (hbody : ∀ node,Tracked self before key (node,s.2) →
      Follows self before key t body (fun _ _ => True) (node,s.2)) :
    Follows self before key t (locked key body) (fun _ _ => True) s := by
  have hlock : Quiet key (.lock key : Action I K C) := Or.inr (Or.inl ⟨key,rfl⟩)
  have hunlock : Quiet key (.unlock key : Action I K C) := Or.inr (Or.inr ⟨key,rfl⟩)
  refine follows_bind (follows_quiet h hlock fun _ _ node _ htracked _ _ => ?_)
  refine follows_bind ((hbody node htracked).mono fun result s' _ htracked' => ?_)
  refine follows_bind (follows_quiet htracked' hunlock fun _ _ node' _ htracked'' _ _ => ?_)
  exact follows_done htracked'' trivial

theorem follows_put {content : C} {conditions : Option C→Bool}
    (hreplicates : cluster.replicates key=true) (h : Tracked self before key s)
    (hrecorded : s.2.recorded=false) : Follows self before key t
      (putObjectConditional .client key content conditions (some (localChange cluster writeClass)))
      (fun _ _ => True) s := by
  refine follows_locked h fun node htracked => ?_
  refine follows_attempt (follows_done htracked ⟨fun _ _ => trivial,fun _ _ _ => ?_⟩)
  have hfetch : Quiet key (.fetchRow key : Action I K C) := Or.inl fun hwrites => hwrites.elim
  refine follows_bind (follows_quiet htracked hfetch fun _ _ node₁ _ htracked₁ _ _ => ?_)
  refine follows_attempt (follows_done htracked₁ ⟨fun _ _ => trivial,fun _ _ _ => ?_⟩)
  refine follows_bind ((follows_commitPut htracked₁ hrecorded).mono
    fun committed s₂ hcommitted htracked₂ => ?_)
  refine follows_attempt (follows_done htracked₂ ⟨fun _ _ => trivial,fun _ hensured _ => ?_⟩)
  have htrue : committed=true := by
    cases committed with
    | true => rfl
    | false => cases hensured
  refine follows_bind ((follows_localAfter (.written content) hreplicates htracked₂ (hcommitted htrue)).mono
    fun _ s₃ _ htracked₃ => ?_)
  exact follows_done htracked₃ trivial

theorem follows_deleteObjectLocked {hasRow : Bool} (h : Tracked self before key s)
    (hrecorded : s.2.recorded=false) (hrow : hasRow=false→s.1.content key=none) :
    Follows self before key t (deleteObjectLocked key hasRow)
      (fun result s' => result=.ok ()→s'.1.content key=none) s := by
  cases hasRow with
  | false => exact follows_done h fun _ => hrow rfl
  | true =>
    have hnot : s.2.recorded=true→s.1.content key=none := fun htrue => by
      rw [hrecorded] at htrue
      cases htrue
    refine follows_bind ((follows_commitDelete h (List.mem_singleton_self key) hnot).mono
      fun committed s' hcommitted htracked => ?_)
    refine follows_done htracked fun hok => hcommitted.2.1 ?_
    cases committed with
    | true => rfl
    | false => cases hok

theorem follows_delete {conditions : Option C→Bool} (hreplicates : cluster.replicates key=true)
    (h : Tracked self before key s) (hrecorded : s.2.recorded=false) : Follows self before key t
      (deleteObjectConditional key conditions (some (localChange cluster writeClass)))
      (fun _ _ => True) s := by
  refine follows_locked h fun node htracked => ?_
  have hfetch : Quiet key (.fetchRow key : Action I K C) := Or.inl fun hwrites => hwrites.elim
  refine follows_bind (follows_quiet htracked hfetch fun _ existing node₁ hfetched htracked₁ _ _ => ?_)
  have hexisting : existing=node₁.rows key := by
    cases hfetched
    rfl
  refine follows_attempt (follows_done htracked₁ ⟨fun _ _ => trivial,fun _ _ _ => ?_⟩)
  refine follows_attempt (follows_done htracked₁ ⟨fun _ _ => trivial,fun _ _ _ => ?_⟩)
  have hrow : existing.isSome=false→node₁.content key=none := fun hnone => by
    have hnothing : existing=none := by simpa using hnone
    rw [Node.content,← hexisting,hnothing]
    rfl
  refine follows_attempt ((follows_deleteObjectLocked htracked₁ hrecorded hrow).mono
    fun result s₂ hdeleted => ⟨fun _ _ => trivial,fun _ hok htracked₂ => ?_⟩)
  refine follows_bind ((follows_localAfter (.deleted _) hreplicates htracked₂ (hdeleted hok)).mono
    fun _ s₃ _ htracked₃ => ?_)
  exact follows_done htracked₃ trivial

/-- The key is as it was, or it is deleted for good. -/
def Deletable (key : K) (s : Node I K C T×Progress) : Prop :=
  s.2.recorded=true→s.1.content key=none

theorem follows_of_quiet {program : Prog I K C α} (hissues : program.Issues (Quiet key))
    (h : Tracked self before key s) {content : Option C} (hcontent : s.1.content key=content)
    {history : Progress} (hhistory : s.2=history) : Follows self before key t program
      (fun _ s' => s'.1.content key=content ∧ s'.2=history) s := by
  induction program generalizing s with
  | done value => exact follows_done h ⟨hcontent,hhistory⟩
  | ask a next ih =>
    have hfirst : Follows self before key t (op a) (fun answer s' =>
        Tracked self before key s' → Follows self before key t (next answer)
          (fun _ s'' => s''.1.content key=content ∧ s''.2=history) s') s :=
      follows_quiet h hissues.1 fun _ answer node _ _ hsame htracked =>
        ih answer (hissues.2 answer) htracked (hsame.trans hcontent) hhistory
    exact follows_bind hfirst

theorem follows_deletable {program : Prog I K C α} (hissues : program.Issues (Quiet key))
    (h : Tracked self before key s) (hdeletable : Deletable key s) :
    Follows self before key t program (fun _ => Deletable key) s := by
  refine (follows_of_quiet hissues h rfl rfl).mono fun _ s' hsame hrecorded => ?_
  rw [hsame.2] at hrecorded
  exact hsame.1.trans (hdeletable hrecorded)

omit [LinearOrder I] [DecidableEq K] in
theorem issues_localAfter {other : K} (hne : other≠key) (committed : Committed C)
    (writeClass : Text) :
    ((localChange cluster writeClass : CommitHook I K C).after other committed).Issues (Quiet key) := by
  unfold localChange
  by_cases hreplicates : cluster.replicates other=true
  · simp only [hreplicates,if_true]
    exact ⟨Or.inl hne,fun _ => trivial⟩
  · have hunreplicated : cluster.replicates other=false := by simpa using hreplicates
    simp only [hunreplicated,Bool.false_eq_true,if_false]
    trivial

theorem follows_recordAll {chunk : List (DeletedObjectRef K)}
    (hreplicates : cluster.replicates key=true) (h : Tracked self before key s)
    (hcontent : s.1.content key=none) :
    Follows self before key t (reportBulkDeletes (localChange cluster writeClass) chunk)
      (fun _ s' => s'.1.content key=none) s := by
  unfold reportBulkDeletes
  induction chunk generalizing s with
  | nil => exact follows_done h hcontent
  | cons object rest ih =>
    rw [Program.forEach_cons]
    have hfirst : Follows self before key t
        ((localChange cluster writeClass).after object.key (.deleted object.storageClass))
        (fun _ s' => s'.1.content key=none) s := by
      by_cases hkey : object.key=key
      · rw [hkey]
        exact follows_localAfter (.deleted object.storageClass) hreplicates h hcontent
      · exact (follows_of_quiet (issues_localAfter hkey _ writeClass) h hcontent rfl).mono
          fun _ _ hafter => hafter.1
    exact follows_bind (follows_bind (hfirst.mono fun _ s' hcontent' htracked =>
      follows_done htracked fun htracked' => ih htracked' hcontent'))

omit [LinearOrder I] [DecidableEq K] in
theorem issues_recordAll {chunk : List (DeletedObjectRef K)}
    (hkey : key∉chunk.map DeletedObjectRef.key) :
    (reportBulkDeletes (localChange cluster writeClass : CommitHook I K C) chunk).Issues
      (Quiet key) := by
  refine Program.Issues.forEach fun object hobject => ?_
  have hne : object.key≠key := fun heq => hkey (heq ▸ List.mem_map_of_mem hobject)
  exact (issues_localAfter hne _ writeClass).bind fun _ => trivial

/-- A bulk deletion of some objects. -/
theorem follows_deleteChunk {chunk : List (DeletedObjectRef K)}
    (hreplicates : cluster.replicates key=true) (h : Tracked self before key s)
    (hdeletable : Deletable key s) :
    Follows self before key t (deleteChunk (localChange cluster writeClass) chunk)
      (fun _ => Deletable key) s := by
  have hlocks : ∀ keys : List K,(Program.forEach keys fun other =>
      (op (.lock other) : Prog I K C Unit)).Issues (Quiet key) := fun keys =>
    Program.Issues.forEach fun other _ => ⟨Or.inr (Or.inl ⟨other,rfl⟩),fun _ => trivial⟩
  have hunlocks : ∀ keys : List K,(Program.forEach keys fun other =>
      (op (.unlock other) : Prog I K C Unit)).Issues (Quiet key) := fun keys =>
    Program.Issues.forEach fun other _ => ⟨Or.inr (Or.inr ⟨other,rfl⟩),fun _ => trivial⟩
  -- Once the hooks are done, the locks are dropped.
  have hend : ∀ (committed : Bool) (s' : Node I K C T×Progress),Follows self before key t
      (if committed then reportBulkDeletes (localChange cluster writeClass) chunk else .done ())
      (fun _ => Deletable key) s' → Follows self before key t
        ((if committed then reportBulkDeletes (localChange cluster writeClass) chunk
        else .done ()).bind fun _ => Program.forEach (chunk.map DeletedObjectRef.key).dedup
        fun other => op (.unlock other)) (fun _ => Deletable key) s' := fun committed s' hhooks =>
    follows_bind (hhooks.mono fun _ s₃ hdeletable₃ htracked₃ =>
      follows_deletable (hunlocks _) htracked₃ hdeletable₃)
  refine follows_bind ((follows_deletable (hlocks _) h hdeletable).mono
    fun _ s₁ hdeletable₁ htracked₁ => ?_)
  by_cases hkey : key∈chunk.map DeletedObjectRef.key
  · refine follows_bind ((follows_commitDelete htracked₁ hkey hdeletable₁).mono
      fun committed s₂ hcommitted htracked₂ => ?_)
    refine hend committed s₂ ?_
    cases committed with
    | true =>
      exact (follows_recordAll hreplicates htracked₂ (hcommitted.2.1 rfl)).mono
        fun _ _ hnone _ => hnone
    | false =>
      rw [hcommitted.2.2 rfl] at htracked₂ ⊢
      exact follows_done htracked₂ hdeletable₁
  · have hquiet : Quiet key (.commitDelete (chunk.map DeletedObjectRef.key) : Action I K C) :=
      Or.inl hkey
    refine follows_bind (follows_quiet htracked₁ hquiet
      fun _ committed node _ _ hsame htracked₂ => ?_)
    have hdeletable₂ : Deletable key (node,s₁.2) := fun hrecorded =>
      hsame.trans (hdeletable₁ hrecorded)
    refine hend committed (node,s₁.2) ?_
    cases committed with
    | true => exact follows_deletable (issues_recordAll hkey) htracked₂ hdeletable₂
    | false => exact follows_done htracked₂ hdeletable₂

theorem follows_deleteMany {chunks : List (List (DeletedObjectRef K))}
    (hreplicates : cluster.replicates key=true) (h : Tracked self before key s)
    (hdeletable : Deletable key s) :
    Follows self before key t (deleteObjectsInternal (localChange cluster writeClass) chunks)
      (fun _ => Deletable key) s := by
  unfold deleteObjectsInternal
  induction chunks generalizing s with
  | nil => exact follows_done h hdeletable
  | cons chunk chunks ih =>
    rw [Program.forEach_cons]
    exact follows_bind ((follows_deleteChunk hreplicates h hdeletable).mono
      fun _ _ hdeletable' htracked => ih htracked hdeletable')

/-- Local changes of a key. -/
def ChangesLocally (key : K) : Operation I K C→Prop
  | .put other _ _ _ | .delete other _ _ => other=key
  | .deleteMany _ _ => True
  | _ => False

theorem follows_operation {operation : Operation I K C} {etag : C→Text}
    (hoperation : ChangesLocally key operation) (hreplicates : cluster.replicates key=true)
    (h : Tracked self before key s) (hrecorded : s.2.recorded=false) :
    Follows self before key t (operation.program cluster etag) (fun _ _ => True) s := by
  cases operation with
  | put other content conditions writeClass =>
    obtain rfl : other=key := hoperation
    exact follows_bind ((follows_put hreplicates h hrecorded).mono
      fun _ _ _ htracked => follows_done htracked trivial)
  | delete other conditions writeClass =>
    obtain rfl : other=key := hoperation
    exact follows_bind ((follows_delete hreplicates h hrecorded).mono
      fun _ _ _ htracked => follows_done htracked trivial)
  | deleteMany chunks writeClass =>
    have hdeletable : Deletable key s := fun htrue => by
      rw [hrecorded] at htrue
      cases htrue
    exact (follows_deleteMany hreplicates h hdeletable).mono fun _ _ _ => trivial
  | _ => exact hoperation.elim

/-- A local change of a replicated key is stopped by a crash. If it is visible after the
restart, then it is recorded exactly if the crash did not come after the commit of the
object metadata and before the record. -/
theorem visible_change_recorded_iff {operation : Operation I K C} {etag : C→Text}
    {node node' : Node I K C T} {history : Progress} (hoperation : ChangesLocally key operation)
    (hreplicates : cluster.replicates key=true)
    (hcrash : (tracking self key).Reaches t (operation.program cluster etag)
      (node,⟨false,false⟩) (node',history)) (hvisible : (restart node').rows key≠node.rows key) :
    Recorded self key node (restart node') ↔
      ¬(history.committed=true ∧ history.recorded=false) := by
  have hstart : Tracked self node key (node,⟨false,false⟩) :=
    ⟨fun _ => rfl,fun _ => rfl,(fun htrue => by cases htrue),le_rfl⟩
  have hfollows : Follows self node key t (operation.program cluster etag) (fun _ _ => True)
      (node,⟨false,false⟩) := follows_operation hoperation hreplicates hstart rfl
  have htracked : Tracked self node key (node',history) := Machine.maintains_sound hfollows hcrash
  cases hrecorded : history.recorded with
  | true =>
    have hrecord := (htracked.recorded hrecorded).event
    exact iff_of_true ⟨hrecord⟩ fun hwindow => by cases hwindow.2
  | false =>
    have hcommitted : history.committed=true := by
      by_contra hnot
      exact hvisible (htracked.rows (by simpa using hnot))
    refine iff_of_false (fun hrecord => ?_) fun hnot => hnot ⟨hcommitted,rfl⟩
    obtain ⟨state,_,hstate,hnewer,_⟩ := hrecord.event
    have hsame : node.db.versions key=some state := (htracked.unrecorded hrecorded).symm.trans hstate
    exact lt_irrefl _ (hnewer state hsame)

end Operations

/-- The requests of the write up to its commit. -/
def untilCommit : List Choice := [.work,.work,.clock ⟨5,0⟩]

/-- The write is stopped after its record: it is visible and recorded. -/
theorem sample_visible_change_recorded : ∃ node' history,
      (tracking 0 0).Reaches 0 ((samplePut 1).program (wholeCluster ℕ) fun _ => [])
        (freshNode ℕ ℕ ℕ ℕ,⟨false,false⟩) (node',history) ∧
      (restart node').rows 0≠(freshNode ℕ ℕ ℕ ℕ).rows 0 ∧
      Recorded 0 0 (freshNode ℕ ℕ ℕ ℕ) (restart node') := by
  have hstop : ((tracking 0 0).stop 0 ((samplePut 1).program (wholeCluster ℕ) fun _ => [])
      (untilCommit++[.clock ⟨5,0⟩]) (freshNode ℕ ℕ ℕ ℕ,⟨false,false⟩)).map
        (fun s => decide ((restart s.1).rows 0≠(freshNode ℕ ℕ ℕ ℕ).rows 0 ∧
          s.2=⟨true,true⟩))=some true := by
    decide +kernel
  obtain ⟨⟨node',history⟩,hstop,hvalues⟩ := Option.map_eq_some_iff.mp hstop
  obtain ⟨hvisible,rfl⟩ := of_decide_eq_true hvalues
  have hcrash := Machine.stop_sound _ hstop
  have hlocal : ChangesLocally 0 (samplePut 1) := rfl
  have hiff := visible_change_recorded_iff hlocal rfl hcrash hvisible
  exact ⟨node',_,hcrash,hvisible,hiff.mpr fun hwindow => by cases hwindow.2⟩

/-- The write is stopped after its commit: it is visible, the key has no version and the
log is empty. -/
theorem crash_loses_committed_change : ∃ node',
      (machine 0).Reaches 0 ((samplePut 1).program (wholeCluster ℕ) fun _ => [])
        (freshNode ℕ ℕ ℕ ℕ) node' ∧
      (restart node').content 0=some 1 ∧ (restart node').db.versions 0=none ∧
      (restart node').db.log=[] ∧ ¬Recorded 0 0 (freshNode ℕ ℕ ℕ ℕ) (restart node') := by
  have hstop : ((machine 0).stop 0 ((samplePut 1).program (wholeCluster ℕ) fun _ => [])
      untilCommit (freshNode ℕ ℕ ℕ ℕ)).map
        (fun node' => decide ((restart node').content 0=some 1 ∧
          (restart node').db.versions 0=none ∧ (restart node').db.log=[]))=some true := by
    decide +kernel
  obtain ⟨node',hstop,hvalues⟩ := Option.map_eq_some_iff.mp hstop
  obtain ⟨hcontent,hversion,hlog⟩ := of_decide_eq_true hvalues
  refine ⟨node',Machine.stop_sound _ hstop,hcontent,hversion,hlog,fun hrecorded => ?_⟩
  obtain ⟨state,_,hstate,_⟩ := hrecorded.event
  rw [hversion] at hstate
  cases hstate

end NebularOs.CrashedChanges
