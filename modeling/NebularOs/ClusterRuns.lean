import Mathlib
import NebularOs.ClusterSafety
import NebularOs.TaskHistories

/-!
# Runs of a replicated cluster

Any number of operations run on the nodes of a cluster, one request at a time and in any
order, while blobs may get lost. A theory whose invariant such runs keep only has to say
how it takes the deliveries, repairs and reconciliations that are started.
-/

namespace NebularOs.ReplicatedCluster

open BlobFilenames RequestPrograms TaskPools ReplicationLog ReplicatedNode Program Function
open EngineState (StorageError)

section Recorded

variable {I K C T : Type} [LinearOrder I] [DecidableEq K] {cluster : Cluster K}

/-- Local changes are recorded: their transactions do not fail. -/
def recordsChanges (a : ClusterAction I K C) (choice : Choice) (w : World I K C T) : Bool :=
  match a.2,choice with
  | .recordLocalChange key _ _ _,.clock stamp =>
    decide ((w a.1).db.nextMicros key stamp.now<2^63)
  | .recordLocalChange _ _ _ _,_ => false
  | _,_ => true

theorem recordsChanges_exec {w w' : World I K C T} {t : T} {i : I} {key : K} {choice : Choice}
    {committed : Committed C} {writeClass group : Text} {answer : Bool}
    (h : recordsChanges (i,.recordLocalChange key committed writeClass group) choice w=true)
    (hexec : (clusterMachine I K C T).exec t (i,.recordLocalChange key committed writeClass group)
      choice w=some (answer,w')) :
    ∃ stamp,choice=.clock stamp ∧
      w'=update w i ((w i).withLocalChange i key committed writeClass group stamp) := by
  obtain ⟨node,hnode,rfl⟩ := clusterExec_eq_some.mp hexec
  cases choice with
  | clock stamp =>
    have hfits : (w i).db.nextMicros key stamp.now<2^63 := of_decide_eq_true h
    simp only [exec,Database.recordLocalChange,Database.storeLocal,if_pos hfits,Option.map_some] at hnode
    cases hnode
    exact ⟨stamp,rfl,rfl⟩
  | _ => cases h

end Recorded

/-- Operations of a node. -/
inductive Operation (I K C : Type)
  /-- A client writes an object: an upload, a copy or a completed multipart upload. -/
  | put (key : K) (content : C) (conditions : Option C→Bool) (writeClass : Text)
  /-- A client deletes an object. -/
  | delete (key : K) (conditions : Option C→Bool) (writeClass : Text)
  /-- A client deletes many objects. -/
  | deleteMany (chunks : List (List (DeletedObjectRef K))) (writeClass : Text)
  /-- A peer delivers an event. -/
  | apply (event : Event I K C)
  /-- A missing object is repaired with a peer's copy. -/
  | healMissing (key : K) (copy : C) (version : Option (Version I))
  /-- A damaged object is repaired with a peer's copy. -/
  | healDamaged (key : K) (copy : C)
  /-- The rows of missing blobs are dropped. -/
  | reconcile (key : K)

variable {I K C T : Type} [LinearOrder I] [DecidableEq K]

/-- Program of an operation. -/
def Operation.program (cluster : Cluster K) (etag : C→Text) : Operation I K C→Prog I K C Unit
  | .put key content conditions writeClass =>
    (putObjectConditional .client key content conditions (some (localChange cluster writeClass))).bind
      fun _ => .done ()
  | .delete key conditions writeClass =>
    (deleteObjectConditional key conditions (some (localChange cluster writeClass))).bind
      fun _ => .done ()
  | .deleteMany chunks writeClass => deleteObjectsInternal (localChange cluster writeClass) chunks
  | .apply event => (applyEvent event).bind fun _ => .done ()
  | .healMissing key copy version =>
    (ReplicatedNode.healMissing key copy version).bind fun _ => .done ()
  | .healDamaged key copy => (ReplicatedNode.healDamaged etag key copy).bind fun _ => .done ()
  | .reconcile key => (reconcileKey key).bind fun _ => .done ()

/-- Only blobs may differ. -/
def BlobsChange (w w' : World I K C T) : Prop :=
  ∀ i,∃ blobs,w' i={w i with blobs := blobs}

/-- Runs of the allowed operations, while blobs come and go. -/
def operations (cluster : Cluster K) (etag : C→Text)
    (allowed : World I K C T→Operation I K C→Prop) :
    Rules (ClusterAction I K C) ClusterAnswer (World I K C T) Unit where
  starts w program := ∃ i operation,allowed w operation ∧
    program=atNode i (operation.program cluster etag)
  environment := BlobsChange
  crash _ _ := False

variable {cluster : Cluster K} {etag : C→Text} {allowed : World I K C T→Operation I K C→Prop}

/-- An event is in the log of the node that made it. -/
def Made (w : World I K C T) (event : Event I K C) : Prop :=
  event∈(w event.origin).db.events

instance [DecidableEq C] (w : World I K C T) (event : Event I K C) : Decidable (Made w event) :=
  inferInstanceAs (Decidable (event∈_))

omit [DecidableEq K] in
theorem Made.grows {w w' : World I K C T} {event : Event I K C} (h : Made w event)
    (hgrows : Grows w w') : Made w' event :=
  hgrows.events event.origin event h

/-- A node that knows nothing. -/
def freshNode (I K C T : Type) : Node I K C T :=
  ⟨fun _ => none,fun _ => false,⟨fun _ => none,[]⟩,fun _ => none,0,[]⟩

/-- Nodes that know nothing. -/
structure Fresh (w : World I K C T) : Prop where
  /-- There are no objects. -/
  rows : ∀ i key,(w i).rows key=none
  /-- There are no versions. -/
  versions : ∀ i key,(w i).db.versions key=none
  /-- There are no events. -/
  log : ∀ i,(w i).db.log=[]

omit [LinearOrder I] [DecidableEq K] in
theorem Fresh.not_mem {w : World I K C T} (h : Fresh w) (i : I) (event : Event I K C) :
    event∉(w i).db.events := by
  rw [Database.events,h.log i]
  exact List.not_mem_nil

/-- A part of a run. -/
inductive Stage (I K C T : Type)
  /-- An operation is started on a node, and some requests follow. -/
  | operation (t : T) (i : I) (operation : Operation I K C) (moves : List (T×Choice))
  /-- A node loses its blobs. -/
  | blobsLost (i : I)

/-- A run in parts, as far as its operations may be started. -/
def plays [DecidableEq T] (machine : Machine (ClusterAction I K C) ClusterAnswer T (World I K C T) Choice)
    (cluster : Cluster K) (etag : C→Text) (allowed : World I K C T→Operation I K C→Prop)
    [∀ w operation,Decidable (allowed w operation)] :
    ClusterPool I K C T → List (Stage I K C T)→Option (ClusterPool I K C T)
  | pool,[] => some pool
  | pool,.operation t i operation moves::stages =>
    if (pool.tasks t).isNone=true ∧ allowed pool.world operation then
      ((⟨pool.world,update pool.tasks t (some (atNode i (operation.program cluster etag)))⟩ :
        ClusterPool I K C T).runs machine moves).bind fun next =>
          plays machine cluster etag allowed next stages
    else none
  | pool,.blobsLost i::stages => plays machine cluster etag allowed
    ⟨update pool.world i {pool.world i with blobs := fun _ => false},pool.tasks⟩ stages

/-- What is played can be reached. -/
theorem reachable_of_plays [DecidableEq T] [∀ w operation,Decidable (allowed w operation)]
    {machine : Machine (ClusterAction I K C) ClusterAnswer T (World I K C T) Choice}
    {start pool pool' : ClusterPool I K C T} {stages : List (Stage I K C T)}
    (hreach : Reachable machine (operations cluster etag allowed) start pool)
    (h : plays machine cluster etag allowed pool stages=some pool') :
    Reachable machine (operations cluster etag allowed) start pool' := by
  induction stages generalizing pool with
  | nil => exact Option.some.inj h ▸ hreach
  | cons stage stages ih =>
    cases stage with
    | operation t i operation moves =>
      rw [plays] at h
      split_ifs at h with hready
      obtain ⟨next,hnext,hrest⟩ := Option.bind_eq_some_iff.mp h
      refine ih ((Reachable.step hreach (.start ?_ ⟨i,operation,hready.2,rfl⟩)).runs hnext) hrest
      simpa using hready.1
    | blobsLost i =>
      refine ih (.step hreach (.environment fun j => ?_)) h
      by_cases hj : j=i
      · subst hj
        exact ⟨fun _ => false,update_self j _ _⟩
      · exact ⟨(pool.world j).blobs,update_of_ne hj _ _⟩

/-- How a theory takes the operations that may be started. -/
structure Handles (theory : Theory I K C T cluster) (etag : C→Text)
    (allowed : World I K C T→Operation I K C→Prop) : Prop where
  /-- Events that are delivered may be delivered. -/
  apply : ∀ {w event},allowed w (.apply event)→theory.deliverable w event
  /-- A repair of a missing object leaves what can be settled. -/
  healMissing : ∀ {w key copy version},allowed w (.healMissing key copy version) →
    ∀ {t : T} {i : I} w choice node state,theory.inv w→Owns w t i key none state →
      theory.permits t (i,.commitPut (.heal version) key copy) choice w=true →
      exec i t (.commitPut (.heal version) key copy) choice (w i)=some (true,node) →
        Healed theory i key version state (update w i node)
  /-- A repair of a damaged object keeps its key settled. -/
  healDamaged : ∀ {w key copy},allowed w (.healDamaged key copy) →
    ∀ {i : I} w w' content,theory.settled w i key→(w i).content key=some content →
      etag content=etag copy→(w' i).content key=some copy →
      (w' i).db.versions key=(w i).db.versions key→Grows w w' → theory.settled w' i key
  /-- Dropping a row keeps its key settled. -/
  reconcile : ∀ {w key},allowed w (.reconcile key) →
    ∀ {i : I} w w',theory.settled w i key→(w' i).content key=none →
      (w' i).db.versions key=(w i).db.versions key→Grows w w' → theory.settled w' i key
  /-- The invariant does not depend on blobs. -/
  blobs : ∀ {w w'},theory.inv w→BlobsChange w w' → theory.inv w'

omit [DecidableEq K] in
theorem BlobsChange.grows {w w' : World I K C T} (h : BlobsChange w w') : Grows w w' := by
  refine ⟨fun i event hevent => ?_,fun i key state hstate => ?_⟩
  · obtain ⟨blobs,hw⟩ := h i
    rwa [hw]
  · obtain ⟨blobs,hw⟩ := h i
    rw [hw]
    exact ⟨state,hstate,le_rfl⟩

omit [DecidableEq K] in
theorem BlobsChange.respected {w w' : World I K C T} (h : BlobsChange w w') (t : T) :
    Respected t w w' := by
  refine ⟨h.grows,fun i key hholder => ?_,fun i key hholder => ?_⟩
  · obtain ⟨blobs,hw⟩ := h i
    rw [hw]
    exact ⟨rfl,rfl,rfl⟩
  · obtain ⟨blobs,hw⟩ := h i
    rwa [hw]

theorem Theory.atRest_blobs (theory : Theory I K C T cluster) {w w' : World I K C T}
    (h : theory.AtRest w) (hblobs : BlobsChange w w') : theory.AtRest w' := by
  intro i key hfree
  have hgrows := hblobs.grows
  obtain ⟨blobs,hw⟩ := hblobs i
  rw [hw] at hfree
  refine theory.lasts (h i key hfree) ?_ ?_ hgrows
  · rw [hw]
    rfl
  · rw [hw]

theorem safeAt_operation {theory : Theory I K C T cluster} (h : Handles theory etag allowed)
    {i : I} {t : T} {known : World I K C T} {operation : Operation I K C}
    (hallowed : allowed known operation) :
    SafeAt theory i t (operation.program cluster etag) (fun _ _ => True) known := by
  cases operation with
  | put key content conditions writeClass =>
    exact safeAt_bind (safeAt_clientPut key content conditions writeClass)
  | delete key conditions writeClass =>
    exact safeAt_bind (safeAt_clientDelete key conditions writeClass)
  | deleteMany chunks writeClass => exact safeAt_deleteObjectsInternal chunks writeClass
  | apply event => exact safeAt_bind (safeAt_applyEvent (h.apply hallowed))
  | healMissing key copy version => exact safeAt_bind (safeAt_healMissing (h.healMissing hallowed))
  | healDamaged key copy => exact safeAt_bind (safeAt_healDamaged (h.healDamaged hallowed))
  | reconcile key => exact safeAt_bind (safeAt_reconcileKey (h.reconcile hallowed))

theorem operations_respect {theory : Theory I K C T cluster} (h : Handles theory etag allowed) :
    Respects theory.machine (operations cluster etag allowed) theory.discipline
      fun _ _ _ _ => True where
  starts w _ t program _ hstarts := by
    obtain ⟨i,operation,hallowed,rfl⟩ := hstarts
    exact safeAt_operation h hallowed
  environment w _ w' hblobs hinv := ⟨h.blobs hinv hblobs,fun t => hblobs.respected t⟩
  crash _ _ _ hcrash := hcrash.elim

theorem holds_of_reachable [DecidableEq T] {theory : Theory I K C T cluster} (h : Handles theory etag allowed)
    {start pool : ClusterPool I K C T}
    (hidle : ∀ t,start.tasks t=none) (hinv : theory.inv start.world)
    (hreach : Reachable theory.machine (operations cluster etag allowed) start pool) :
    Holds theory.machine theory.discipline (fun _ _ _ _ => True) pool := by
  have hstart : Holds theory.machine theory.discipline (fun _ _ _ _ => True) start := by
    refine ⟨(),hinv,fun t program htask => ?_⟩
    rw [hidle t] at htask
    cases htask
  exact hstart.reachable (operations_respect h) hreach

/-- Nothing is asked of the operations: their requests are justified in every run. -/
def unconditional (I K C T : Type) [LinearOrder I] [DecidableEq K] (cluster : Cluster K) :
    Theory I K C T cluster where
  deliverable _ _ := True
  settled _ _ _ := True
  restorable _ _ _ _ := True
  permits _ _ _ _ := true
  core _ := True
  coreStep _ _ _ _ := trivial
  lasts _ _ _ _ := trivial
  deliverableLasts _ _ := trivial
  restorableLasts _ _ _ := trivial
  recorded _ _ _ _ := trivial
  applied _ _ := trivial
  restored _ _ := trivial
  unreplicated _ := trivial

theorem unconditional_inv (w : World I K C T) : (unconditional I K C T cluster).inv w :=
  ⟨trivial,fun _ _ _ => trivial⟩

theorem unconditional_handles (cluster : Cluster K) (etag : C→Text) :
    Handles (unconditional I K C T cluster) etag allowed where
  apply _ := trivial
  healMissing _ _ _ _ _ _ _ _ _ _ _ := ⟨fun _ _ _ => trivial,fun _ => trivial⟩
  healDamaged _ _ _ _ _ _ _ _ _ _ _ := trivial
  reconcile _ _ _ _ _ _ _ _ := trivial
  blobs _ _ := unconditional_inv _

theorem unconditional_machine (cluster : Cluster K) :
    (unconditional I K C T cluster).machine=clusterMachine I K C T := by
  unfold Theory.machine Machine.restrict unconditional
  simp

/-- Fresh nodes on which no operation was started. -/
def freshPool (I K C T : Type) : ClusterPool I K C T :=
  ⟨fun _ => freshNode I K C T,fun _ => none⟩

omit [LinearOrder I] [DecidableEq K] in
theorem freshPool_fresh : Fresh (freshPool I K C T).world :=
  ⟨fun _ _ => rfl,fun _ _ => rfl,fun _ => rfl⟩

/-- The requests of a task that writes an object, the change being recorded at a given time. -/
def putMoves (t : T) (stamp : Stamp) : List (T×Choice) :=
  [(t,.work),(t,.work),(t,.clock stamp),(t,.clock stamp),(t,.work)]

/-- The requests of a task that applies a peer's write. -/
def applyMoves (t : T) : List (T×Choice) :=
  [(t,.work),(t,.work),(t,.work),(t,.work),(t,.work),(t,.clock ⟨0,0⟩),(t,.work),(t,.work)]

/-- A write of an object. -/
def samplePut (content : ℕ) : Operation ℕ ℕ ℕ := .put 0 content (fun _ => true) []

/-- The first event of a node, made in a given second. -/
def sampleEvent (node content : ℕ) (createdAt version : ℤ) : Event ℕ ℕ ℕ :=
  ⟨(node,0),node,0,some content,[],[],createdAt,version⟩

end NebularOs.ReplicatedCluster
