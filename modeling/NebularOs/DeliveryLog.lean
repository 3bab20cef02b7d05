import Mathlib
import NebularOs.ReplicationLog

/-!
# Statements of the delivery worker on the log

The worker lists the events that are due, notes the peers that have one, and sets where
each stands. The peers are kept in one text column, separated by commas; ids of peers hold
no commas, so the column is read back as it was written.
-/

namespace NebularOs.ReplicationLog

open BlobFilenames List

/-- Events taken from the log per batch. -/
def batchSize : ℕ := 64

/-- Peers named in the column of a row. -/
def deliveredPeers (column : Option Text) : List Text :=
  ((column.getD []).splitOn ',').filter fun peer => !peer.isEmpty

/-- The column with one more peer. -/
def appendPeer (column : Option Text) (peer : Text) : Text :=
  match column with
  | none => peer
  | some peers => peers++ ','::peer

/-- Ids of peers that the column can hold. -/
structure PlainId (peer : Text) : Prop where
  /-- It is not empty. -/
  nonempty : peer≠[]
  /-- It holds no comma. -/
  comma : ','∉peer

theorem deliveredPeers_appendPeer (column : Option Text) {peer : Text} (hpeer : PlainId peer) :
    deliveredPeers (some (appendPeer column peer))=deliveredPeers column++[peer] := by
  have hsingle : (peer.splitOn ',').filter (fun other => !other.isEmpty)=[peer] := by
    rw [splitOn_eq_singleton hpeer.comma]
    simp [hpeer.nonempty]
  cases column with
  | none => simpa [deliveredPeers,appendPeer] using hsingle
  | some peers =>
    have hsplit : (peers++ ','::peer).splitOn ','=peers.splitOn ','++peer.splitOn ',' :=
      splitOn_append_cons_self peers peer
    unfold deliveredPeers appendPeer
    simp only [Option.getD_some]
    rw [hsplit,filter_append,hsingle]

/-- An event of the log that is due, and the peers that have it. -/
structure PendingDelivery (I K C : Type) where
  /-- The event. -/
  event : Event I K C
  /-- Peers that have it. -/
  deliveredTo : List Text
  deriving DecidableEq

namespace LogRow

variable {I K C : Type}

/-- A new event, or a failed one whose time has come. -/
def isDue (now : ℤ) (row : LogRow I K C) : Bool :=
  row.status==.pending || row.status==.failed && row.nextRetryAt.all fun time => decide (time≤now)

/-- An event that need not be sent any more. -/
def isFinished (row : LogRow I K C) : Bool :=
  row.status==.sent || row.status==.applied || row.status==.superseded

/-- The delivery of a listed row. -/
def delivery (row : LogRow I K C) : PendingDelivery I K C := ⟨row.event,deliveredPeers row.deliveredTo⟩

/-- Seconds until the next attempt. -/
def backoff (attempts : ℕ) : ℕ := min (2^min attempts 10) 3600

/-- The row after a failed attempt: it waits for its next one, or it is given up. -/
def failed (attempts maxAttempts : ℕ) (now : ℤ) (row : LogRow I K C) : LogRow I K C :=
  if max maxAttempts 1≤attempts then {row with status := .deadLetter,attempts := attempts}
  else {row with
    status := .failed
    attempts := attempts
    nextRetryAt := some (now+backoff attempts)}

/-- The row of an event that was given up and is sent again. -/
def replayed (row : LogRow I K C) : LogRow I K C :=
  if row.status==.deadLetter then {row with status := .pending,attempts := 0,nextRetryAt := none}
  else row

end LogRow

namespace Database

variable {I K C : Type}

/-- Events that are due, oldest first. -/
def listDue (db : Database I K C) (now : ℤ) : List (LogRow I K C) :=
  ((db.log.filter fun row => row.isDue now).insertionSort
    fun row other => row.event.createdAt≤other.event.createdAt).take batchSize

/-- Changing the row of an event. -/
def updateRow [DecidableEq I] (db : Database I K C) (id : I×ℕ)
    (change : LogRow I K C → LogRow I K C) : Database I K C :=
  {db with log := db.log.map fun row => if row.event.id=id then change row else row}

/-- Setting where an event stands. -/
def setStatus [DecidableEq I] (db : Database I K C) (id : I×ℕ) (status : Status) :
    Database I K C :=
  db.updateRow id fun row => {row with status := status}

/-- Noting that a peer has an event. -/
def markDelivered [DecidableEq I] (db : Database I K C) (id : I×ℕ) (peer : Text) :
    Database I K C :=
  db.updateRow id fun row => {row with deliveredTo := some (appendPeer row.deliveredTo peer)}

/-- Failed attempts to deliver an event so far. -/
def attempts [DecidableEq I] (db : Database I K C) (id : I×ℕ) : ℕ :=
  ((db.log.find? fun row => decide (row.event.id=id)).map LogRow.attempts).getD 0

/-- Noting a failed attempt. -/
def recordFailure [DecidableEq I] (db : Database I K C) (id : I×ℕ) (attempts maxAttempts : ℕ)
    (now : ℤ) : Database I K C :=
  db.updateRow id fun row => row.failed attempts maxAttempts now

/-- Sending an event again that was given up. -/
def replayDeadLetter [DecidableEq I] (db : Database I K C) (id : I×ℕ) : Database I K C :=
  db.updateRow id LogRow.replayed

theorem mem_log_of_mem_listDue {db : Database I K C} {now : ℤ} {row : LogRow I K C}
    (h : row∈db.listDue now) : row∈db.log ∧ row.isDue now=true :=
  mem_filter.mp ((mem_insertionSort _).mp (mem_of_mem_take h))

section Lemmas

variable [DecidableEq I] {db : Database I K C} {id : I×ℕ} {change : LogRow I K C → LogRow I K C}

@[simp]
theorem updateRow_versions : (db.updateRow id change).versions=db.versions := rfl

theorem mem_log_updateRow {row : LogRow I K C} (h : row∈(db.updateRow id change).log) :
    row∈db.log ∧ row.event.id≠id ∨ ∃ old∈db.log,old.event.id=id ∧ row=change old := by
  obtain ⟨old,hold,hrow⟩ := mem_map.mp h
  by_cases hid : old.event.id=id
  · rw [if_pos hid] at hrow
    exact Or.inr ⟨old,hold,hid,hrow.symm⟩
  · rw [if_neg hid] at hrow
    subst hrow
    exact Or.inl ⟨hold,hid⟩

theorem mem_updateRow_log {row : LogRow I K C} (h : row∈db.log) :
    (if row.event.id=id then change row else row)∈(db.updateRow id change).log :=
  mem_map_of_mem h

theorem updateRow_events (hchange : ∀ row,(change row).event=row.event) :
    (db.updateRow id change).events=db.events := by
  unfold events updateRow
  rw [map_map]
  refine map_congr_left fun row _ => ?_
  simp only [Function.comp_apply]
  split_ifs
  · exact hchange row
  · rfl

end Lemmas

end Database

@[simp]
theorem LogRow.failed_event {I K C : Type} (attempts maxAttempts : ℕ) (now : ℤ)
    (row : LogRow I K C) : (row.failed attempts maxAttempts now).event=row.event := by
  unfold LogRow.failed
  split_ifs
  · rfl
  · rfl

@[simp]
theorem LogRow.replayed_event {I K C : Type} (row : LogRow I K C) :
    row.replayed.event=row.event := by
  unfold LogRow.replayed
  split_ifs
  · rfl
  · rfl

namespace Database

variable {I K C : Type} [DecidableEq I] {db : Database I K C} {id : I×ℕ}

@[simp]
theorem setStatus_events (status : Status) : (db.setStatus id status).events=db.events :=
  updateRow_events fun _ => rfl

@[simp]
theorem markDelivered_events (peer : Text) : (db.markDelivered id peer).events=db.events :=
  updateRow_events fun _ => rfl

@[simp]
theorem recordFailure_events (attempts maxAttempts : ℕ) (now : ℤ) :
    (db.recordFailure id attempts maxAttempts now).events=db.events :=
  updateRow_events fun row => row.failed_event attempts maxAttempts now

@[simp]
theorem replayDeadLetter_events : (db.replayDeadLetter id).events=db.events :=
  updateRow_events LogRow.replayed_event

end Database

end NebularOs.ReplicationLog
