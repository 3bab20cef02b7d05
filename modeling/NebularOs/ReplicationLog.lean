import Mathlib
import NebularOs.BlobFilenames

/-!
# Versions and events of replication

Every change to a replicated key gets a version: the time of the change on the node
that made it, with the node's id as a tie-break. The system database of a node keeps
the version of each key's last change, deletions included, and a log of events: the
node's own changes, which wait for delivery to peers, and the changes of peers that
it has applied or found outdated.

The statements of this file are the transactions and single statements that the
replication code runs on that database. Times and event ids are arguments.
-/

namespace NebularOs.ReplicationLog

open BlobFilenames

/-- When and where a change was made. -/
structure Version (I : Type) where
  /-- Time of the change in microseconds, by the clock of its node. -/
  micros : ℤ
  /-- Node that made the change. -/
  origin : I
  deriving DecidableEq

/-- Versions are ordered by time, then by node. -/
instance {I : Type} [LinearOrder I] : LinearOrder (Version I) :=
  LinearOrder.lift' (fun version => toLex (version.micros,version.origin)) fun v w h => by
    obtain ⟨micros,origin⟩ := v
    obtain ⟨micros',origin'⟩ := w
    simpa using h

theorem Version.lt_iff {I : Type} [LinearOrder I] {v w : Version I} :
    v<w ↔ v.micros<w.micros ∨ v.micros=w.micros ∧ v.origin<w.origin :=
  Prod.Lex.toLex_lt_toLex

theorem Version.lt_of_micros_lt {I : Type} [LinearOrder I] {v w : Version I}
    (h : v.micros<w.micros) : v<w :=
  Version.lt_iff.mpr (Or.inl h)

/-- State of a key: the version of its last change and whether that deleted it. -/
structure KeyVersion (I : Type) where
  /-- Version of the last change. -/
  version : Version I
  /-- The last change was a deletion. -/
  deleted : Bool
  deriving DecidableEq

/-- One change, as it is sent to peers. -/
structure Event (I K C : Type) where
  /-- Identifier of the event: no two events share one. -/
  id : I×ℕ
  /-- Node that made the change. -/
  origin : I
  /-- Key that was changed. -/
  key : K
  /-- Content that was put, with its metadata; nothing for a deletion. -/
  content : Option C
  /-- Storage class of the object. -/
  storageClass : Text
  /-- Replication group of the node. -/
  group : Text
  /-- Time the event was made, in seconds. -/
  createdAt : ℤ
  /-- Time of the change in microseconds; not positive where it is unknown. -/
  version : ℤ
  deriving DecidableEq

/-- Product of 64-bit integers that stops at their bounds. -/
def saturatingMul (a b : ℤ) : ℤ := max (-2^63) (min (a*b) (2^63-1))

/-- The version of a change, ordered against recorded versions. -/
def Event.effectiveVersion {I K C : Type} (event : Event I K C) : Version I :=
  ⟨if 0<event.version then event.version else saturatingMul event.createdAt 1000000,event.origin⟩

/-- The key's state after a change. -/
def Event.keyVersion {I K C : Type} (event : Event I K C) : KeyVersion I :=
  ⟨event.effectiveVersion,event.content.isNone⟩

/-- Where an event of the log stands. -/
inductive Status
  | pending
  | failed
  | deadLetter
  | sent
  | superseded
  | applied
  deriving DecidableEq

/-- Row of the log. -/
structure LogRow (I K C : Type) where
  /-- The event. -/
  event : Event I K C
  /-- Where it stands. -/
  status : Status
  /-- Failed attempts to deliver it. -/
  attempts : ℕ
  /-- Time of the next attempt, in seconds. -/
  nextRetryAt : Option ℤ
  /-- Peers that have the event, separated by commas. -/
  deliveredTo : Option Text
  deriving DecidableEq

/-- The system database of a node, as far as replication uses it. -/
structure Database (I K C : Type) where
  /-- State of each key with a recorded change. -/
  versions : K→Option (KeyVersion I)
  /-- Rows of the log. -/
  log : List (LogRow I K C)

/-- What a change did to the object. -/
inductive Committed (C : Type)
  /-- The object was written. -/
  | written (content : C)
  /-- The object was deleted; it had this storage class. -/
  | deleted (storageClass : Option Text)
  deriving DecidableEq

/-- Content that a change leaves. -/
def Committed.content {C : Type} : Committed C→Option C
  | .written content => some content
  | .deleted _ => none

/-- What a node stamps on its own changes. The clock is read once for each, and it shows
no times before the epoch. -/
structure Stamp where
  /-- Clock of the version, in microseconds. -/
  now : ℕ
  /-- Clock of the event, in seconds. -/
  createdAt : ℕ
  deriving DecidableEq

namespace Database

variable {I K C : Type} [DecidableEq K]

/-- Events of the log. -/
def events (db : Database I K C) : List (Event I K C) := db.log.map LogRow.event

/-- Recording a state of a key, whatever was recorded. -/
def store (db : Database I K C) (key : K) (state : KeyVersion I) : Database I K C :=
  {db with versions := Function.update db.versions key (some state)}

/-- Time of the next local change of a key: now, but later than the recorded one. -/
def nextMicros (db : Database I K C) (key : K) (now : ℤ) : ℤ :=
  match db.versions key with
  | none => now
  | some current => max now (current.version.micros+1)

/-- Recording a local change. The statement fails if its version is no 64-bit integer. -/
def storeLocal (db : Database I K C) (origin : I) (key : K) (deleted : Bool) (now : ℤ) :
    Option (Database I K C) :=
  if db.nextMicros key now<2^63 then some (db.store key ⟨⟨db.nextMicros key now,origin⟩,deleted⟩)
  else none

/-- Recording a state of a key unless there is one. -/
def storeIfAbsent (db : Database I K C) (key : K) (state : KeyVersion I) : Database I K C :=
  match db.versions key with
  | none => db.store key state
  | some _ => db

/-- Version of a key after recording a state unless there was one. -/
def versionOr (db : Database I K C) (key : K) (state : KeyVersion I) : Version I :=
  match db.versions key with
  | none => state.version
  | some current => current.version

/-- Queueing an event for delivery. -/
def insertPending (db : Database I K C) (event : Event I K C) : Database I K C :=
  {db with log := db.log++[⟨event,.pending,0,none,none⟩]}

/-- The event with an id is in the log. -/
def hasEvent [DecidableEq I] (db : Database I K C) (id : I×ℕ) : Bool :=
  db.log.any fun row => row.event.id==id

/-- Keeping an event of a peer as applied, unless it is there. -/
def insertApplied [DecidableEq I] (db : Database I K C) (event : Event I K C) : Database I K C :=
  if db.hasEvent event.id then db
  else {db with log := db.log++[⟨event,.applied,0,none,none⟩]}

/-- The event of a local change. -/
def localEvent (db : Database I K C) (origin : I) (id : I×ℕ) (key : K) (committed : Committed C)
    (writeClass group : Text) (stamp : Stamp) : Event I K C where
  id := id
  origin := origin
  key := key
  content := committed.content
  storageClass := match committed with
    | .written _ => writeClass
    | .deleted storageClass => storageClass.getD writeClass
  group := group
  createdAt := stamp.createdAt
  version := db.nextMicros key stamp.now

/-- One transaction: the key takes its next version, and the change is queued. -/
def recordLocalChange (db : Database I K C) (origin : I) (id : I×ℕ) (key : K)
    (committed : Committed C) (writeClass group : Text) (stamp : Stamp) :
    Option (Database I K C) :=
  (db.storeLocal origin key committed.content.isNone stamp.now).map fun stored =>
    stored.insertPending (db.localEvent origin id key committed writeClass group stamp)

/-- The database once a local change is recorded. -/
def withLocalChange (db : Database I K C) (origin : I) (id : I×ℕ) (key : K)
    (committed : Committed C) (writeClass group : Text) (stamp : Stamp) : Database I K C :=
  (db.store key ⟨⟨db.nextMicros key stamp.now,origin⟩,committed.content.isNone⟩).insertPending
    (db.localEvent origin id key committed writeClass group stamp)

/-- One transaction: the key takes the version of a peer's change, and its event is
kept. -/
def recordRemoteChange [DecidableEq I] (db : Database I K C) (key : K) (event : Event I K C) :
    Database I K C :=
  (db.store key event.keyVersion).insertApplied event

/-- Recording the version of a restored copy. -/
def recordRestored (db : Database I K C) (key : K) (version : Version I) : Database I K C :=
  db.store key ⟨version,false⟩

section Lemmas

variable {db : Database I K C} {key : K}

/-- A local change is recorded exactly if its version is a 64-bit integer. -/
theorem recordLocalChange_eq_some {db' : Database I K C} {origin : I} {id : I×ℕ}
    {committed : Committed C} {writeClass group : Text} {stamp : Stamp} :
    db.recordLocalChange origin id key committed writeClass group stamp=some db' ↔
      db.nextMicros key stamp.now<2^63 ∧
        db'=db.withLocalChange origin id key committed writeClass group stamp := by
  unfold recordLocalChange storeLocal
  split_ifs with hfits
  · rw [Option.map_some,Option.some.injEq,and_iff_right hfits]
    exact eq_comm
  · exact iff_of_false (by simp) fun hrecorded => hfits hrecorded.1

@[simp]
theorem store_versions (state : KeyVersion I) (other : K) :
    (db.store key state).versions other=if other=key then some state else db.versions other :=
  Function.update_apply db.versions key (some state) other

@[simp]
theorem store_events (state : KeyVersion I) : (db.store key state).events=db.events := rfl

omit [DecidableEq K] in
@[simp]
theorem insertPending_versions (event : Event I K C) :
    (db.insertPending event).versions=db.versions := rfl

omit [DecidableEq K] in
@[simp]
theorem mem_events_insertPending {event other : Event I K C} :
    other∈(db.insertPending event).events ↔ other∈db.events ∨ other=event := by
  simp [events,insertPending]

omit [DecidableEq K] in
theorem hasEvent_iff [DecidableEq I] {id : I×ℕ} :
    db.hasEvent id=true ↔ ∃ event∈db.events,event.id=id := by
  simp [hasEvent,events,List.any_eq_true]

omit [DecidableEq K] in
@[simp]
theorem insertApplied_versions [DecidableEq I] (event : Event I K C) :
    (db.insertApplied event).versions=db.versions := by
  unfold insertApplied
  by_cases h : db.hasEvent event.id=true
  · rw [if_pos h]
  · rw [if_neg h]

omit [DecidableEq K] in
theorem mem_events_insertApplied [DecidableEq I] {event other : Event I K C} :
    other∈(db.insertApplied event).events ↔
      other∈db.events ∨ (other=event ∧ db.hasEvent event.id=false) := by
  unfold insertApplied
  by_cases h : db.hasEvent event.id=true
  · rw [if_pos h]
    simp [h]
  · rw [if_neg h]
    simp [events,h]

omit [DecidableEq K] in
theorem lt_nextMicros {current : KeyVersion I} (h : db.versions key=some current) (now : ℤ) :
    current.version.micros<db.nextMicros key now := by
  simp only [nextMicros,h]
  omega

end Lemmas

end Database

end NebularOs.ReplicationLog
