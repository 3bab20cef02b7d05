import Mathlib
import NebularOs.DeliveryLog
import NebularOs.EngineState
import NebularOs.TaskPools

/-!
# A replicated node

Operations of one node on its objects and on its replication state. Writes and
deletions hold the key's write lock from the checks to the hook that runs after the
commit; the metadata commit and the transaction of the hook are separate steps. What
is read without the lock, and the outdated events that are kept without it, may
interleave with them.

Staging and swapping the blob happen inside the commit, which changes the object or
fails and leaves it. The transaction that records a local change fails too, at the latest
when the next version of the key is no 64-bit integer; the other statements on the system
database do not. Nodes keep full metadata: in blob-only mode, which has no rows, writes and
deletions skip their conditions.
-/

namespace NebularOs.ReplicatedNode

open BlobFilenames RequestPrograms EngineState ReplicationLog Program Function

/-- Row of an active object. -/
structure Row (C : Type) where
  /-- Content of the object, with the metadata that is replicated. -/
  content : C
  /-- Time of the last write in microseconds. -/
  updatedAt : ℤ
  /-- Storage class of the object. -/
  storageClass : Option Text
  deriving DecidableEq

/-- State of a node. -/
structure Node (I K C T : Type) where
  /-- Rows of active objects. -/
  rows : K→Option (Row C)
  /-- Keys whose blob is on disk. -/
  blobs : K→Bool
  /-- The system database. -/
  db : Database I K C
  /-- Tasks that hold the write lock of a key. -/
  holder : K→Option T
  /-- Number of the next event made here. -/
  nextId : ℕ
  /-- Deliveries that the worker has taken from the log. -/
  listed : List (PendingDelivery I K C)

/-- Content of an object, if it is active. -/
def Node.content {I K C T : Type} (node : Node I K C T) (key : K) : Option C :=
  (node.rows key).map Row.content

/-- On whose behalf an object is written. -/
inductive Writer (I K C : Type)
  /-- A client of this node. -/
  | client
  /-- A peer, by an event. -/
  | peer (event : Event I K C)
  /-- The repair of a missing or damaged object with a peer's copy, which may come with
  its version. -/
  | heal (version : Option (Version I))
  deriving DecidableEq

/-- Requests of the operations. A version is stored for the content that the task has
read. -/
inductive Action (I K C : Type)
  | lock (key : K)
  | unlock (key : K)
  | fetchRow (key : K)
  | blobExists (key : K)
  | keyVersion (key : K)
  | hasEvent (id : I×ℕ)
  | commitPut (writer : Writer I K C) (key : K) (content : C)
  | commitDelete (keys : List K)
  | deleteRow (key : K)
  | recordLocalChange (key : K) (committed : Committed C) (writeClass group : Text)
  | recordRemoteChange (key : K) (event : Event I K C)
  | recordApplied (event : Event I K C)
  | recordRestored (key : K) (version : Version I)
  | storeIfAbsent (key : K) (read : C) (state : KeyVersion I)
  | insertPending (key : K) (content : C) (storageClass group : Text) (version : ℤ)
  | listPendingDeliveries
  | setStatus (id : I×ℕ) (status : Status)
  | markDelivered (id : I×ℕ) (peer : Text)
  | attempts (id : I×ℕ)
  | recordFailure (id : I×ℕ) (attempts maxAttempts : ℕ)
  | replayDeadLetter (id : I×ℕ)

/-- Answers of the requests. -/
abbrev Answer {I K C : Type} : Action I K C→Type
  | .fetchRow _ => Option (Row C)
  | .blobExists _ | .hasEvent _ | .commitPut _ _ _ | .commitDelete _
  | .recordLocalChange _ _ _ _ => Bool
  | .keyVersion _ => Option (KeyVersion I)
  | .storeIfAbsent _ _ _ => Version I
  | .listPendingDeliveries => List (LogRow I K C)
  | .attempts _ => ℕ
  | _ => Unit

/-- What the scheduler picks: that a step is done, that a commit or a transaction fails, and
what the clocks show. -/
inductive Choice
  | work
  | fail
  | clock (stamp : Stamp)
  deriving DecidableEq

section Steps

variable {I K C T : Type} [DecidableEq I] [DecidableEq K]

/-- The event of a backfilled object. -/
def backfillEvent (self : I) (node : Node I K C T) (key : K) (content : C)
    (storageClass group : Text) (version createdAt : ℤ) : Event I K C :=
  ⟨(self,node.nextId),self,key,some content,storageClass,group,createdAt,version⟩

/-- The node once a local change is recorded. -/
def Node.withLocalChange (self : I) (node : Node I K C T) (key : K) (committed : Committed C)
    (writeClass group : Text) (stamp : Stamp) : Node I K C T :=
  {node with
    db := node.db.withLocalChange self (self,node.nextId) key committed writeClass group stamp
    nextId := node.nextId+1}

/-- Outcomes of a request of a task on the node `self`. -/
def exec (self : I) (t : T) :
    (a : Action I K C)→Choice→Node I K C T→Option (Answer a×Node I K C T)
  | .lock key,_,node =>
    if (node.holder key).isNone then
      some ((),{node with holder := update node.holder key (some t)})
    else none
  | .unlock key,_,node => some ((),{node with holder := update node.holder key none})
  | .fetchRow key,_,node => some (node.rows key,node)
  | .blobExists key,_,node => some (node.blobs key,node)
  | .keyVersion key,_,node => some (node.db.versions key,node)
  | .hasEvent id,_,node => some (node.db.hasEvent id,node)
  | .commitPut _ key content,choice,node =>
    match choice with
    | .clock stamp =>
      some (true,{node with
        rows := update node.rows key
          (some ⟨content,stamp.now,(node.rows key).bind Row.storageClass⟩)
        blobs := update node.blobs key true})
    | _ => some (false,node)
  | .commitDelete keys,choice,node =>
    match choice with
    | .work =>
      some (true,{node with rows := fun key => if key∈keys then none else node.rows key})
    | _ => some (false,node)
  | .deleteRow key,_,node => some ((),{node with rows := update node.rows key none})
  | .recordLocalChange key committed writeClass group,choice,node =>
    match choice with
    | .clock stamp =>
      match node.db.recordLocalChange self (self,node.nextId) key committed writeClass group stamp with
      | some db => some (true,{node with db := db,nextId := node.nextId+1})
      | none => some (false,node)
    | _ => some (false,node)
  | .recordRemoteChange key event,_,node =>
    some ((),{node with db := node.db.recordRemoteChange key event})
  | .recordApplied event,_,node => some ((),{node with db := node.db.insertApplied event})
  | .recordRestored key version,_,node =>
    some ((),{node with db := node.db.recordRestored key version})
  | .storeIfAbsent key _ state,_,node =>
    some (node.db.versionOr key state,{node with db := node.db.storeIfAbsent key state})
  | .insertPending key content storageClass group version,choice,node =>
    match choice with
    | .clock stamp =>
      some ((),{node with
        db := node.db.insertPending
          (backfillEvent self node key content storageClass group version stamp.createdAt)
        nextId := node.nextId+1})
    | _ => none
  | .listPendingDeliveries,choice,node =>
    match choice with
    | .clock stamp =>
      some (node.db.listDue stamp.createdAt,{node with
        listed := node.listed++(node.db.listDue stamp.createdAt).map LogRow.delivery})
    | _ => none
  | .setStatus id status,_,node => some ((),{node with db := node.db.setStatus id status})
  | .markDelivered id peer,_,node => some ((),{node with db := node.db.markDelivered id peer})
  | .attempts id,_,node => some (node.db.attempts id,node)
  | .recordFailure id attempts maxAttempts,choice,node =>
    match choice with
    | .clock stamp =>
      some ((),{node with db := node.db.recordFailure id attempts maxAttempts stamp.createdAt})
    | _ => none
  | .replayDeadLetter id,_,node => some ((),{node with db := node.db.replayDeadLetter id})

/-- A local change is recorded at some time, or the transaction fails and changes nothing. -/
theorem exec_recordLocalChange {self : I} {t : T} {key : K} {committed : Committed C}
    {writeClass group : Text} {choice : Choice} {node node' : Node I K C T} {answer : Bool}
    (h : exec self t (.recordLocalChange key committed writeClass group) choice node=
      some (answer,node')) :
    answer=false ∧ node'=node ∨ ∃ stamp,choice=.clock stamp ∧ answer=true ∧
      node.db.nextMicros key stamp.now<2^63 ∧
        node'=node.withLocalChange self key committed writeClass group stamp := by
  cases choice with
  | clock stamp =>
    simp only [exec] at h
    split at h
    next db hdb =>
      obtain ⟨hfits,rfl⟩ := Database.recordLocalChange_eq_some.mp hdb
      cases h
      exact Or.inr ⟨stamp,rfl,rfl,hfits,rfl⟩
    next =>
      cases h
      exact Or.inl ⟨rfl,rfl⟩
  | _ =>
    cases h
    exact Or.inl ⟨rfl,rfl⟩

/-- The machine of a node. -/
def machine (self : I) : Machine (Action I K C) Answer T (Node I K C T) Choice := ⟨exec self⟩

end Steps

section Programs

variable {I K C : Type}

/-- Programs of a node. -/
abbrev Prog (I K C α : Type) := Program (Action I K C) Answer α

/-- A single request. -/
def op (a : Action I K C) : Prog I K C (Answer a) := Program.request a

/-- What runs around a commit under the key's write lock. -/
structure CommitHook (I K C : Type) where
  /-- Before the commit; a failure refuses it. -/
  before : K→Prog I K C (Except StorageError Unit)
  /-- After the commit; tells whether it succeeded. -/
  after : K→ Committed C→Prog I K C Bool

/-- What the hooks and operations depend on. -/
structure Cluster (K : Type) where
  /-- Keys whose changes are replicated. -/
  replicates : K→Bool
  /-- Replication group of the node. -/
  group : Text

/-- A cluster that replicates every key. -/
def wholeCluster (K : Type) : Cluster K := ⟨fun _ => true,[]⟩

/-- ETags that tell numbers apart. -/
def sampleEtag (content : ℕ) : Text := List.replicate content 'a'

/-- Hook of a change made here: once committed it gets a version and is queued. -/
def localChange (cluster : Cluster K) (writeClass : Text) : CommitHook I K C where
  before _ := .done (.ok ())
  after key committed :=
    if cluster.replicates key then
      op (.recordLocalChange key committed writeClass cluster.group)
    else .done true

/-- An event that is not newer than the state of its key. -/
def isOutdated [LinearOrder I] (event : Event I K C) (current : Option (KeyVersion I)) : Bool :=
  current.any fun state => decide (event.effectiveVersion ≤ state.version)

/-- Hook of a change of a peer: it is refused unless it is newer. -/
def remoteChange [LinearOrder I] (event : Event I K C) : CommitHook I K C where
  before key := (op (.keyVersion key)).bind fun current =>
    if isOutdated event current then .done (.error .preconditionFailed) else .done (.ok ())
  after key _ := (op (.recordRemoteChange key event)).bind fun _ => .done true

/-- Hook of the repair of a missing object: it is refused where the key was deleted,
and the version of the copy is recorded if it is newer. -/
def restore [LinearOrder I] (version : Option (Version I)) : CommitHook I K C where
  before key := (op (.keyVersion key)).bind fun current =>
    if current.any KeyVersion.deleted then .done (.error .preconditionFailed) else .done (.ok ())
  after key _ :=
    match version with
    | none => .done true
    | some version => (op (.keyVersion key)).bind fun current =>
      if current.all fun state => decide (state.version<version) then
        (op (.recordRestored key version)).bind fun _ => .done true
      else .done true

/-- Running a hook before a commit. -/
def runBefore (hook : Option (CommitHook I K C)) (key : K) : Prog I K C (Except StorageError Unit) :=
  match hook with
  | none => .done (.ok ())
  | some hook => hook.before key

/-- Running a hook after a commit. -/
def runAfter (hook : Option (CommitHook I K C)) (key : K) (committed : Committed C) :
    Prog I K C Bool :=
  match hook with
  | none => .done true
  | some hook => hook.after key committed

/-- An operation that holds a key's write lock. -/
def locked (key : K) (body : Prog I K C (Except StorageError Unit)) :
    Prog I K C (Except StorageError Unit) :=
  (op (.lock key)).bind fun _ =>
  body.bind fun result =>
  (op (.unlock key)).bind fun _ => .done result

/-- A commit, or a hook after it, that may have failed. -/
def ensureCommitted (committed : Bool) : Prog I K C (Except StorageError Unit) :=
  .done (if committed then .ok () else .error .internal)

/-- The content of the object must meet the conditions of the request. -/
def checkConditions (conditions : Option C→Bool) (existing : Option (Row C)) :
    Prog I K C (Except StorageError Unit) :=
  .done (if conditions (existing.map Row.content) then .ok () else .error .preconditionFailed)

/-- Swapping in a staged object under the key's write lock, with the hook around it. -/
def commitStagedLocked (writer : Writer I K C) (key : K) (content : C) (conditions : Option C→Bool)
    (hook : Option (CommitHook I K C)) : Prog I K C (Except StorageError Unit) :=
  attempt (runBefore hook key) fun _ =>
  (op (.fetchRow key)).bind fun existing =>
  attempt (checkConditions conditions existing) fun _ =>
  (op (.commitPut writer key content)).bind fun committed =>
  attempt (ensureCommitted committed) fun _ =>
  (runAfter hook key (.written content)).bind ensureCommitted

/-- Write of an object. -/
def putObjectConditional (writer : Writer I K C) (key : K) (content : C)
    (conditions : Option C→Bool) (hook : Option (CommitHook I K C)) :
    Prog I K C (Except StorageError Unit) :=
  locked key (commitStagedLocked writer key content conditions hook)

/-- Deleting the row of an object, if there is one. -/
def deleteObjectLocked (key : K) (hasRow : Bool) : Prog I K C (Except StorageError Unit) :=
  if hasRow then (op (.commitDelete [key])).bind ensureCommitted else .done (.ok ())

/-- Deletion of an object. The hook runs whether or not there is one. -/
def deleteObjectConditional (key : K) (conditions : Option C→Bool)
    (hook : Option (CommitHook I K C)) : Prog I K C (Except StorageError Unit) :=
  locked key <|
    (op (.fetchRow key)).bind fun existing =>
    attempt (checkConditions conditions existing) fun _ =>
    attempt (runBefore hook key) fun _ =>
    attempt (deleteObjectLocked key existing.isSome) fun _ =>
    (runAfter hook key (.deleted (existing.bind Row.storageClass))).bind ensureCommitted

/-- An object chosen for deletion, with its storage class. -/
structure DeletedObjectRef (K : Type) where
  /-- Key of the object. -/
  key : K
  /-- Storage class that was listed. -/
  storageClass : Option Text

/-- Running the hook for each deleted object, also after one that failed. -/
def reportBulkDeletes (hook : CommitHook I K C) (chunk : List (DeletedObjectRef K)) :
    Prog I K C Unit :=
  Program.forEach chunk fun object =>
    (hook.after object.key (.deleted object.storageClass)).bind fun _ => .done ()

/-- Deletion of some objects in one metadata transaction, with all their write locks
held. The hook runs for each of them. -/
def deleteChunk [DecidableEq K] (hook : CommitHook I K C) (chunk : List (DeletedObjectRef K)) :
    Prog I K C Unit :=
  let keys := chunk.map DeletedObjectRef.key
  (Program.forEach keys.dedup fun key => op (.lock key)).bind fun _ =>
  (op (.commitDelete keys)).bind fun committed =>
  (if committed then reportBulkDeletes hook chunk else .done ()).bind fun _ =>
  Program.forEach keys.dedup fun key => op (.unlock key)

/-- Deletion of many objects, chunk by chunk. -/
def deleteObjectsInternal [DecidableEq K] (hook : CommitHook I K C)
    (chunks : List (List (DeletedObjectRef K))) : Prog I K C Unit :=
  Program.forEach chunks fun chunk => deleteChunk hook chunk

/-- The write or deletion of an event. -/
def applyChange [LinearOrder I] (event : Event I K C) : Prog I K C (Except StorageError Unit) :=
  match event.content with
  | none => deleteObjectConditional event.key (fun _ => true) (some (remoteChange event))
  | some content =>
    putObjectConditional (.peer event) event.key content (fun _ => true) (some (remoteChange event))

/-- Applying an event of a peer, once and only if it is newer. -/
def applyEvent [LinearOrder I] (event : Event I K C) : Prog I K C (Except StorageError Unit) :=
  (op (.hasEvent event.id)).bind fun known =>
  if known then .done (.ok ())
  else
    (op (.keyVersion event.key)).bind fun current =>
    if isOutdated event current then (op (.recordApplied event)).bind fun _ => .done (.ok ())
    else
      (applyChange event).bind fun applied =>
      match applied with
      | .error .preconditionFailed => (op (.recordApplied event)).bind fun _ => .done (.ok ())
      | result => .done result

/-- Repair of a missing object with a peer's copy, which may come with its version. -/
def healMissing [LinearOrder I] (key : K) (copy : C) (version : Option (Version I)) :
    Prog I K C (Except StorageError Unit) :=
  putObjectConditional (.heal version) key copy Option.isNone (some (restore version))

/-- Repair of a damaged object with a peer's copy of the same ETag. -/
def healDamaged (etag : C→Text) (key : K) (copy : C) : Prog I K C (Except StorageError Unit) :=
  putObjectConditional (.heal none) key copy
    (fun existing => existing.map etag==some (etag copy)) none

/-- Removing the row of an object whose blob is missing. -/
def reconcileKey (key : K) : Prog I K C (Except StorageError Unit) :=
  (op (.blobExists key)).bind fun found =>
  if found then .done (.ok ())
  else
    locked key <|
      (op (.blobExists key)).bind fun found =>
      (op (.fetchRow key)).bind fun existing =>
      if !found && existing.isSome then (op (.deleteRow key)).bind fun _ => .done (.ok ())
      else .done (.ok ())

/-- Queueing an object that is there, under the version of its key or, if there is
none, under the time of its last write. -/
def enqueuePut (self : I) (cluster : Cluster K) (key : K) (row : Row C) : Prog I K C Unit :=
  (op (.storeIfAbsent key row.content ⟨⟨row.updatedAt,self⟩,false⟩)).bind fun version =>
  op (.insertPending key row.content (row.storageClass.getD "default".toList) cluster.group
    version.micros)

/-- Queueing the object of a listed key, if it should be replicated. -/
def backfillKey (self : I) (cluster : Cluster K) (key : K) : Prog I K C Unit :=
  if cluster.replicates key then
    (op (.fetchRow key)).bind fun existing =>
    match existing with
    | none => .done ()
    | some row =>
      (op (.blobExists key)).bind fun found =>
      if found then enqueuePut self cluster key row else .done ()
  else .done ()

/-- Queueing the objects of a page of keys. -/
def backfillReplication (self : I) (cluster : Cluster K) (page : List K) : Prog I K C Unit :=
  Program.forEach page fun key => backfillKey self cluster key

end Programs

end NebularOs.ReplicatedNode
