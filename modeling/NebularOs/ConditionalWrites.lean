import Mathlib
import NebularOs.ClusterRuns

/-!
# Conditions hold when an operation commits

Any operations run on the nodes of a cluster with full metadata, any events may be delivered
and any copies restored. Versions of keys and logs of events only grow then, also where the
transaction of a local change fails. And an operation that looks at an object before it
changes it changes the object that it has seen: a write or a deletion under conditions commits
only while they are met, and a repair only while the object is missing, or damaged but the one
of the copy.
-/

namespace NebularOs.ConditionalWrites

open BlobFilenames RequestPrograms TaskPools ReplicationLog ReplicatedNode ReplicatedCluster
open Program Function
open EngineState (StorageError)

variable {I K C T : Type} [LinearOrder I] [DecidableEq K]

variable {cluster : Cluster K} {etag : C→Text} {allowed : World I K C T→Operation I K C→Prop}

section Runs

variable [DecidableEq T]
  {start pool : ClusterPool I K C T}

theorem unconditional_holds (hidle : ∀ t,start.tasks t=none)
    (hreach : Reachable (clusterMachine I K C T) (operations cluster etag allowed) start pool) :
    Holds (unconditional I K C T cluster).machine (unconditional I K C T cluster).discipline
      (fun _ _ _ _ => True) pool := by
  rw [← unconditional_machine cluster] at hreach
  exact holds_of_reachable (unconditional_handles cluster etag) hidle (unconditional_inv _) hreach

/-- Whatever runs on the nodes of a cluster, the recorded version of a key never decreases and no
event leaves a log. -/
theorem versions_never_decrease (hidle : ∀ t,start.tasks t=none)
    (hreach : Reachable (clusterMachine I K C T) (operations cluster etag allowed) start pool) :
    Grows start.world pool.world := by
  induction hreach with
  | start => exact ⟨fun _ _ hevent => hevent,fun _ _ state hstate => ⟨state,hstate,le_rfl⟩⟩
  | step hbefore hstep ih =>
    cases hstep with
    | run htask hexec =>
      exact ih.trans (grows_of_justified ((unconditional_holds hidle hbefore).good htask) hexec)
    | start _ _ => exact ih
    | environment hmove => exact ih.trans hmove.grows
    | crash hcrash => exact hcrash.elim

end Runs

/-- Nodes with a recorded version of every key. -/
def recordedPool (micros : ℤ) : ClusterPool ℕ ℕ ℕ ℕ :=
  ⟨fun _ => {freshNode ℕ ℕ ℕ ℕ with db := ⟨fun _ => some ⟨⟨micros,0⟩,false⟩,[]⟩},fun _ => none⟩

/-- Such nodes after a write on the first one. -/
def writtenPool (micros : ℤ) : Option (ClusterPool ℕ ℕ ℕ ℕ) :=
  plays (clusterMachine ℕ ℕ ℕ ℕ) (wholeCluster ℕ) (fun _ => []) (fun _ _ => True)
    (recordedPool micros) [.operation 0 0 (samplePut 10) (putMoves 0 ⟨5,0⟩)]

/-- A write while the clock is behind the recorded version gets a later one. After the greatest
version there is none, and the write is not recorded. -/
theorem sample_versions_never_decrease :
    (∃ pool,writtenPool 7=some pool ∧ (pool.world 0).db.versions 0=some ⟨⟨8,0⟩,false⟩ ∧
      Grows (recordedPool 7).world pool.world) ∧
    ∃ pool,writtenPool (2^63-1)=some pool ∧ (pool.world 0).content 0=some 10 ∧
      (pool.world 0).db.versions 0=some ⟨⟨2^63-1,0⟩,false⟩ ∧
      Grows (recordedPool (2^63-1)).world pool.world := by
  have hruns : (writtenPool 7).map (fun pool => (pool.world 0).db.versions 0)=
        some (some ⟨⟨8,0⟩,false⟩) ∧ (writtenPool (2^63-1)).map (fun pool =>
        ((pool.world 0).content 0,(pool.world 0).db.versions 0))=
          some (some 10,some ⟨⟨2^63-1,0⟩,false⟩) := by
    decide +kernel
  have hgrows : ∀ micros pool,writtenPool micros=some pool →
      Grows (recordedPool micros).world pool.world := fun micros pool hpool =>
    versions_never_decrease (fun _ => rfl) (reachable_of_plays .start hpool)
  obtain ⟨pool,hpool,hversion⟩ := Option.map_eq_some_iff.mp hruns.1
  obtain ⟨pool',hpool',hvalues⟩ := Option.map_eq_some_iff.mp hruns.2
  obtain ⟨hcontent,hversion'⟩ := Prod.mk.inj hvalues
  exact ⟨⟨pool,hpool,hversion,hgrows 7 pool hpool⟩,
    pool',hpool',hcontent,hversion',hgrows _ pool' hpool'⟩

section Vouching

/-- Something more is true whenever a task issues a request on a node. -/
abbrev Vouched (cluster : Cluster K) (extra : World I K C T→ClusterAction I K C→Prop) (t : T) (i : I)
    (program : Prog I K C Unit) (known : World I K C T) : Prop :=
  vouched (unconditional I K C T cluster).machine (unconditional I K C T cluster).discipline t
    extra (atNode i program)
    known ()

/-- Requests that do not commit. -/
def commits : Action I K C→Bool
  | .commitPut _ _ _ | .commitDelete _ => true
  | _ => false

variable {extra : World I K C T→ClusterAction I K C→Prop} {t : T} {i : I} {known : World I K C T}
  {key : K}

theorem vouched_ask {a : Action I K C} {next : Answer a→Prog I K C Unit}
    (hextra : ∀ w,Respected t known w→Justified cluster (unconditional I K C T cluster).toStandards w t i a →
      extra w (i,a))
    (hnext : ∀ w choice answer node,Respected t known w→exec i t a choice (w i)=some (answer,node) →
      Vouched cluster extra t i (next answer) (update w i node)) :
    Vouched cluster extra t i (.ask a next) known := by
  refine fun w g _ hrely hgood => ⟨hextra w hrely hgood,fun choice answer w' hexec _ => ?_⟩
  rw [unconditional_machine cluster] at hexec
  obtain ⟨node,hnode,rfl⟩ := clusterExec_eq_some.mp hexec
  exact hnext w choice answer node hrely hnode

theorem vouched_always {program : Prog I K C Unit} (h : ∀ w a,extra w (i,a)) :
    Vouched cluster extra t i program known := by
  refine vouched_of_issues ?_
  induction program with
  | done value => trivial
  | ask a next ih => exact ⟨fun w => h w a,ih⟩

variable (hfree : ∀ w a,commits a=false→extra w (i,a))

include hfree

theorem vouched_rest {program : Prog I K C Unit}
    (hissues : program.Issues fun a => commits a=false) : Vouched cluster extra t i program known := by
  refine vouched_of_issues ?_
  induction program with
  | done value => trivial
  | ask a next ih => exact ⟨fun w => hfree w a hissues.1,fun answer => ih answer (hissues.2 answer)⟩

theorem vouched_lock {next : Unit→Prog I K C Unit}
    (hnext : ∀ w,(w i).holder key=some t→Vouched cluster extra t i (next ()) w) :
    Vouched cluster extra t i (.ask (.lock key) next) known := by
  refine vouched_ask (fun w _ _ => hfree w _ rfl) fun w choice answer node _ hexec => hnext _ ?_
  simp only [exec] at hexec
  split_ifs at hexec
  cases hexec
  simp

theorem vouched_fetchRow {next : Option (Row C)→Prog I K C Unit}
    (hheld : (known i).holder key=some t)
    (hnext : ∀ w,SameKey (known i) (w i) key→Vouched cluster extra t i (next ((w i).rows key)) w) :
    Vouched cluster extra t i (.ask (.fetchRow key) next) known := by
  refine vouched_ask (fun w _ _ => hfree w _ rfl) fun w choice answer node hrely hexec => ?_
  cases hexec
  rw [update_eq_self]
  exact hnext w (hrely.held i key hheld)

theorem vouched_commit {a : Action I K C} {next : Answer a→Prog I K C Unit}
    (hheld : (known i).holder key=some t)
    (hextra : ∀ w : World I K C T,SameKey (known i) (w i) key→extra w (i,a))
    (hissues : ∀ answer,(next answer).Issues fun a => commits a=false) :
    Vouched cluster extra t i (.ask a next) known :=
  vouched_ask (fun w hrely _ => hextra w (hrely.held i key hheld))
    fun _ _ answer _ _ _ => vouched_rest hfree (hissues answer)

/-- What a hook does around a commit: by the version of the key it refuses some commits, and it
commits nothing itself. -/
structure Looks (hook : Option (CommitHook I K C)) (key : K)
    (refuses : Option (KeyVersion I)→Bool) : Prop where
  /-- It lets every commit pass, or looks up the version of the key. -/
  before : runBefore hook key=.done (.ok ()) ∧ (∀ current,refuses current=false) ∨
    runBefore hook key=.ask (.keyVersion key) fun current =>
      if refuses current then .done (.error .preconditionFailed) else .done (.ok ())
  /-- It commits nothing after. -/
  after : ∀ committed,(runAfter hook key committed).Issues fun a => commits a=false

/-- The end of a locked operation. -/
def ending (key : K) (rest : Except StorageError Unit→Prog I K C Unit)
    (result : Except StorageError Unit) : Prog I K C Unit :=
  .ask (.unlock key) fun _ => rest result

variable {rest : Except StorageError Unit→Prog I K C Unit} {hook : Option (CommitHook I K C)}
  {refuses : Option (KeyVersion I)→Bool} {conditions : Option C→Bool}

omit [LinearOrder I] [DecidableEq K] in
omit hfree in
theorem locked_ends (body : Prog I K C (Except StorageError Unit)) :
    (locked key body).bind rest=.ask (.lock key) fun _ => body.bind (ending key rest) := by
  refine congrArg (Program.ask (Action.lock key)) (funext fun _ => ?_)
  exact bind_assoc body _ _

variable (hrest : ∀ result,(rest result).Issues fun a => commits a=false)

include hrest in
theorem vouched_ending (result : Except StorageError Unit) :
    Vouched cluster extra t i (ending key rest result) known :=
  vouched_rest hfree ⟨rfl,fun _ => hrest result⟩

include hrest in
theorem vouched_before {body : Unit→Prog I K C (Except StorageError Unit)}
    (hlooks : Looks hook key refuses) (hheld : (known i).holder key=some t)
    (hnext : ∀ w,SameKey (known i) (w i) key→ refuses ((w i).db.versions key)=false →
      Vouched cluster extra t i ((body ()).bind (ending key rest)) w) :
    Vouched cluster extra t i (((runBefore hook key).attempt body).bind (ending key rest)) known := by
  rcases hlooks.before with ⟨hbefore,hnever⟩ | hbefore
  · rw [hbefore]
    exact hnext known ⟨rfl,rfl,rfl⟩ (hnever _)
  · rw [hbefore]
    refine vouched_ask (fun w _ _ => hfree w _ rfl) fun w choice current node hrely hexec => ?_
    cases hexec
    rw [update_eq_self]
    cases hrefused : refuses ((w i).db.versions key) with
    | true =>
      simp only [hrefused,if_true]
      exact vouched_ending hfree hrest _
    | false =>
      simp only [hrefused,Bool.false_eq_true,if_false]
      exact hnext w (hrely.held i key hheld) hrefused

omit [LinearOrder I] [DecidableEq K] in
include hrest in
omit hfree in
theorem issues_settled (h : Looks hook key refuses) (committed : Committed C)
    (done : Bool) : (((ensureCommitted done).attempt fun _ =>
      (runAfter hook key committed).bind ensureCommitted).bind (ending key rest)).Issues
        fun a => commits a=false := by
  refine Program.Issues.bind ?_ fun result => ⟨rfl,fun _ => hrest result⟩
  cases done with
  | true =>
    change ((runAfter hook key committed).bind _).Issues _
    exact Program.Issues.bind (h.after committed) fun _ => trivial
  | false => trivial

include hrest in
theorem vouched_put {writer : Writer I K C} {content : C} (hlooks : Looks hook key refuses)
    (hcommit : ∀ w : World I K C T,conditions ((w i).content key)=true →
      refuses ((w i).db.versions key)=false→extra w (i,.commitPut writer key content)) :
    Vouched cluster extra t i
      ((putObjectConditional writer key content conditions hook).bind rest) known := by
  rw [putObjectConditional,locked_ends]
  refine vouched_lock hfree fun w hheld => ?_
  refine vouched_before hfree hrest hlooks hheld fun w' hsame hpasses => ?_
  have hheld' := hsame.holder.trans hheld
  refine vouched_fetchRow hfree hheld' fun w'' hsame' => ?_
  change Vouched cluster extra t i
    (((checkConditions conditions ((w'' i).rows key)).attempt _).bind _) w''
  by_cases hmet : conditions (((w'' i).rows key).map Row.content)=true
  · rw [checkConditions,if_pos hmet]
    refine vouched_commit hfree (hsame'.holder.trans hheld') (fun last hsame'' => hcommit last ?_ ?_)
      fun answer => issues_settled hrest hlooks _ answer
    · rwa [content_eq_of_rows hsame''.rows]
    · rwa [hsame''.versions,hsame'.versions]
  · rw [checkConditions,if_neg hmet]
    exact vouched_ending hfree hrest _

include hrest in
theorem vouched_delete (hlooks : Looks hook key refuses)
    (hcommit : ∀ w : World I K C T,((w i).content key).isSome=true →
      conditions ((w i).content key)=true→ refuses ((w i).db.versions key)=false →
        extra w (i,.commitDelete [key])) :
    Vouched cluster extra t i ((deleteObjectConditional key conditions hook).bind rest) known := by
  rw [deleteObjectConditional,locked_ends]
  refine vouched_lock hfree fun w hheld => vouched_fetchRow hfree hheld fun w' hsame => ?_
  have hheld' := hsame.holder.trans hheld
  change Vouched cluster extra t i
    (((checkConditions conditions ((w' i).rows key)).attempt _).bind _) w'
  by_cases hmet : conditions (((w' i).rows key).map Row.content)=true
  · rw [checkConditions,if_pos hmet]
    refine vouched_before hfree hrest hlooks hheld' fun w'' hsame' hpasses => ?_
    cases hrow : (w' i).rows key with
    | none => exact vouched_rest hfree (issues_settled hrest hlooks _ true)
    | some row =>
      refine vouched_commit hfree (hsame'.holder.trans hheld') (fun last hsame'' => ?_)
        fun answer => issues_settled hrest hlooks _ answer
      have hcontent : (last i).content key=(w' i).content key :=
        content_eq_of_rows (hsame''.rows.trans hsame'.rows)
      refine hcommit last ?_ (by rwa [hcontent]) (by rwa [hsame''.versions])
      rw [hcontent,Node.content,hrow]
      rfl
  · rw [checkConditions,if_neg hmet]
    exact vouched_ending hfree hrest _

end Vouching

/-- What is true of an object when an operation commits. -/
def Meets (etag : C→Text) (w : World I K C T) : Operation I K C→ClusterAction I K C→Prop
  | .put _ _ conditions _,(i,.commitPut _ key _) => conditions ((w i).content key)=true
  | .delete _ conditions _,(i,.commitDelete keys) =>
    ∀ key∈keys,((w i).content key).isSome=true ∧ conditions ((w i).content key)=true
  | .apply event,(i,.commitPut _ key _) => key=event.key ∧ Newer (w i) event
  | .apply event,(i,.commitDelete keys) => keys=[event.key] ∧ Newer (w i) event
  | .healMissing _ _ _,(i,.commitPut _ key _) => (w i).content key=none ∧ NotDeleted (w i) key
  | .healDamaged _ copy,(i,.commitPut _ key _) =>
    ((w i).content key).map etag=some (etag copy)
  | _,_ => True

omit [LinearOrder I] [DecidableEq K] in
theorem looks_local {writeClass : Text} {key : K} :
    Looks (some (localChange cluster writeClass : CommitHook I K C)) key fun _ => false := by
  refine ⟨Or.inl ⟨rfl,fun _ => rfl⟩,fun committed => ?_⟩
  unfold runAfter localChange
  dsimp only
  split
  · exact ⟨rfl,fun _ => trivial⟩
  · trivial

omit [DecidableEq K] in
theorem looks_remote {event : Event I K C} {key : K} :
    Looks (some (remoteChange event)) key (isOutdated event) :=
  ⟨Or.inr rfl,fun _ => ⟨rfl,fun _ => trivial⟩⟩

omit [DecidableEq K] in
theorem looks_restore {version : Option (Version I)} {key : K} :
    Looks (some (restore version : CommitHook I K C)) key
      fun current => current.any KeyVersion.deleted := by
  refine ⟨Or.inr rfl,fun committed => ?_⟩
  cases version with
  | none => trivial
  | some version =>
    refine ⟨rfl,fun current => ?_⟩
    dsimp only [done_bind]
    split
    · exact ⟨rfl,fun _ => trivial⟩
    · trivial

theorem vouched_apply {event : Event I K C} {t : T} {i : I} {known : World I K C T} :
    Vouched cluster (fun w => Meets etag w (.apply event)) t i
      ((Operation.apply event).program cluster etag) known := by
  have hfree : ∀ w a,commits a=false→Meets etag (w : World I K C T) (.apply event) (i,a) := by
    intro w a ha
    cases a <;> trivial
  have hchange : ∀ {w rest},(∀ result,(rest result).Issues fun a => commits a=false) →
      Vouched cluster (fun w => Meets etag w (.apply event)) t i ((applyChange event).bind rest) w := by
    intro w rest hrest
    unfold applyChange
    cases event.content with
    | none =>
      exact vouched_delete hfree hrest looks_remote
        fun _ _ _ hnewer => ⟨rfl,isOutdated_eq_false.mp hnewer⟩
    | some content =>
      exact vouched_put hfree hrest looks_remote
        fun _ _ hnewer => ⟨rfl,isOutdated_eq_false.mp hnewer⟩
  refine vouched_ask (fun w _ _ => hfree w _ rfl) fun _ _ found _ _ _ => ?_
  cases found with
  | true => trivial
  | false =>
    refine vouched_ask (fun w _ _ => hfree w _ rfl) fun _ _ current _ _ _ => ?_
    dsimp only [done_bind]
    split
    · exact vouched_rest hfree ⟨rfl,fun _ => trivial⟩
    · rw [bind_assoc]
      refine hchange fun result => ?_
      split
      · exact ⟨rfl,fun _ => trivial⟩
      · trivial

theorem vouched_operation (operation : Operation I K C) {t : T} {i : I} {known : World I K C T} :
    Vouched cluster (fun w => Meets etag w operation) t i (operation.program cluster etag) known := by
  have hfree : ∀ w a,commits a=false→Meets etag (w : World I K C T) operation (i,a) := by
    intro w a ha
    cases operation <;> cases a <;> trivial
  have hdone : ∀ result : Except StorageError Unit,
      (.done () : Prog I K C Unit).Issues fun a => commits a=false := fun _ => trivial
  cases operation with
  | put key content conditions writeClass =>
    exact vouched_put hfree hdone looks_local fun _ hmet _ => hmet
  | delete key conditions writeClass =>
    refine vouched_delete hfree hdone looks_local fun w hsome hmet _ other hother => ?_
    obtain rfl : other=key := by simpa using hother
    exact ⟨hsome,hmet⟩
  | healMissing key copy version =>
    refine vouched_put hfree hdone looks_restore fun w hmissing hpasses =>
      ⟨Option.isNone_iff_eq_none.mp hmissing,fun state hstate => ?_⟩
    rwa [hstate] at hpasses
  | healDamaged key copy =>
    exact vouched_put hfree hdone ⟨Or.inl ⟨rfl,fun _ => rfl⟩,fun _ => trivial⟩
      fun w hmet _ => eq_of_beq hmet
  | deleteMany chunks writeClass => exact vouched_always fun w a => by cases a <;> trivial
  | apply event => exact vouched_apply
  | reconcile key => exact vouched_always fun w a => by cases a <;> trivial

/-- Operations that are assigned to tasks, before the first step. -/
def assignedPool (cluster : Cluster K) (etag : C→Text) (assigned : T→Option (I×Operation I K C))
    (w : World I K C T) : ClusterPool I K C T :=
  ⟨w,fun t => (assigned t).map fun task => atNode task.1 (task.2.program cluster etag)⟩

/-- On nodes with full metadata, whatever runs beside it and on other nodes, an operation commits
only while what it asks of the object is true. -/
theorem conditions_hold_at_commit [DecidableEq T] {assigned : T→Option (I×Operation I K C)}
    {w : World I K C T}
    {pool : ClusterPool I K C T}
    (hreach : Reachable (clusterMachine I K C T) (operations cluster etag fun _ _ => False)
      (assignedPool cluster etag assigned w) pool) {t : T} {i : I} {operation : Operation I K C}
    (hassigned : assigned t=some (i,operation)) {a : ClusterAction I K C}
    {next : ClusterAnswer a→Program (ClusterAction I K C) ClusterAnswer Unit}
    (htask : pool.tasks t=some (.ask a next)) : Meets etag pool.world operation a := by
  rw [← unconditional_machine cluster] at hreach
  have hrules : Respects (unconditional I K C T cluster).machine (operations cluster etag fun _ _ => False)
      ((unconditional I K C T cluster).discipline.with fun t => (assigned t).elim (fun _ _ => True)
        fun task w => Meets etag w task.2) fun _ _ _ _ => True := by
    refine ⟨fun _ _ _ _ _ hstarts => ?_,fun w _ w' hmove _ => ⟨unconditional_inv w',hmove.respected⟩,
      fun _ _ _ hcrash => hcrash.elim⟩
    obtain ⟨_,_,hnever,_⟩ := hstarts
    exact hnever.elim
  have hmeets := ((Holds.reachable hrules ?_ hreach).good htask).2
  · beta_reduce at hmeets
    rwa [hassigned] at hmeets
  refine ⟨(),unconditional_inv w,fun u program hprogram => ⟨w,(),Respected.refl u w,?_⟩⟩
  obtain ⟨task,htask,rfl⟩ := Option.map_eq_some_iff.mp hprogram
  have hany : Handles (unconditional I K C T cluster) etag fun _ _ => True :=
    unconditional_handles cluster etag
  refine safe_of_vouched (safeAt_operation hany trivial) ?_
  rw [htask]
  exact vouched_operation task.2

/-- A create-only write. -/
def sampleAssigned : ℕ→Option (ℕ×Operation ℕ ℕ ℕ)
  | 0 => some (0,.put 1 2 Option.isNone [])
  | _ => none

/-- It has seen no object and is about to commit. -/
theorem sample_conditions_hold :
    ∃ (pool : ClusterPool ℕ ℕ ℕ ℕ) (next : Bool→Program (ClusterAction ℕ ℕ ℕ) ClusterAnswer Unit),
    pool.tasks 0=some (.ask (0,.commitPut .client 1 2) next) ∧
      Meets (fun _ => []) pool.world (.put 1 2 Option.isNone []) (0,.commitPut .client 1 2) := by
  obtain ⟨pool,hruns,next,htask⟩ : ∃ pool,(assignedPool (wholeCluster ℕ) (fun _ => [])
      sampleAssigned fun _ => freshNode ℕ ℕ ℕ ℕ).runs (clusterMachine ℕ ℕ ℕ ℕ)
        [(0,.work),(0,.work)]=some pool ∧
          ∃ next,pool.tasks 0=some (.ask (0,.commitPut .client 1 2) next) := ⟨_,rfl,_,rfl⟩
  exact ⟨pool,next,htask,conditions_hold_at_commit (.runs .start hruns) rfl htask⟩

end NebularOs.ConditionalWrites
