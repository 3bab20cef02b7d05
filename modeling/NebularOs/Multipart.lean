import Mathlib
import NebularOs.BodyStreams
import NebularOs.OrderedRows
import NebularOs.TaskHistories
import NebularOs.TrimmedText

/-!
# Multipart uploads

The parts of an upload arrive in any order, each into a scratch file that replaces
the part's file once it is complete. Then the part's row is written. A completion
lists the rows, picks the parts of the object and copies their files into a temporary
file, which it commits. No lock is held: uploads, retries of the same part, aborts
and other completions may happen between any two of these steps.

One upload is modelled, with all tasks that work on it. Reading ends at the end of
the bytes or at a failure, and its chunks are of any size.
-/

namespace NebularOs.Multipart

open BlobFilenames RequestPrograms TaskPools TaskHistories TrimmedText Program Function

/-- Byte strings. -/
abbrev Bytes := List UInt8

/-- Why an operation fails. -/
inductive Failure
  | invalidKey
  | payloadTooLarge
  | notFound
  | insufficientStorage
  | preconditionFailed
  | invalidRequest (message : String)
  | internal
  deriving DecidableEq

/-- Bytes as they are read: chunk by chunk, up to the end or to a failure. -/
structure Reading where
  /-- Chunks in their order. -/
  chunks : List Bytes
  /-- The end was reached. -/
  complete : Bool
  /-- An empty chunk would be the end. -/
  nonempty : ∀ chunk∈chunks,chunk≠[]

/-- All bytes that were read. -/
def Reading.bytes (reading : Reading) : Bytes := reading.chunks.flatten

/-- Row of an uploaded part. -/
structure PartRow where
  /-- Number of the part. -/
  partNumber : ℤ
  /-- Number of its bytes. -/
  size : ℕ
  /-- Hash of its bytes. -/
  etag : Text
  deriving DecidableEq

/-- One entry of a client's part list. -/
structure CompletedPart where
  /-- Number of the part. -/
  partNumber : ℤ
  /-- Hash the upload answered, if the client sends it. -/
  etag : Option Text
  deriving DecidableEq

/-- Metadata of a committed object. -/
structure Committed where
  /-- Number of bytes. -/
  size : ℕ
  /-- Hash of the bytes. -/
  etag : Text
  /-- Content type of the session. -/
  contentType : Option Text
  /-- Custom metadata sent with the completion. -/
  customMeta : Option Text
  deriving DecidableEq

/-- Name of a part's file: its number with at least five digits. -/
def partName (partNumber : ℤ) : Text :=
  match partNumber with
  | .ofNat n => (Nat.toDigits 10 n).leftpad 5 '0'
  | .negSucc n => '-'::(Nat.toDigits 10 (n+1)).leftpad 4 '0'

/-- Text without the quotation marks at its ends. -/
def trimQuotes (text : Text) : Text :=
  trim (· == '"') text

/-- Recorded parts must be numbered from a number on without gaps. -/
def checkNumbers (expected : ℤ) : List PartRow→Except Failure Unit
  | [] => .ok ()
  | row::rows =>
    if row.partNumber≠expected then
      .error (.invalidRequest s!"part {expected} is missing; upload it or send the part list")
    else checkNumbers (expected+1) rows

/-- Recorded parts that a client's list names. -/
def pickParts (recorded : List PartRow) (previous : ℤ) :
    List CompletedPart→Except Failure (List PartRow)
  | [] => .ok []
  | part::parts =>
    if part.partNumber≤previous then
      .error (.invalidRequest "part numbers must be listed in ascending order")
    else
      match recorded.find? fun row => row.partNumber==part.partNumber with
      | none => .error (.invalidRequest s!"part {part.partNumber} was not uploaded")
      | some found =>
        if part.etag.any fun etag => trimQuotes etag != found.etag then
          .error (.invalidRequest s!"part {part.partNumber} ETag does not match the uploaded part")
        else (pickParts recorded part.partNumber parts).map (found::·)

/-- The recorded parts that form the object, in their order. -/
def selectParts (recorded : List PartRow) (requested : Option (List CompletedPart)) :
    Except Failure (List PartRow) :=
  match requested with
  | none =>
    if recorded.isEmpty then .error (.invalidRequest "no parts were uploaded")
    else (checkNumbers 1 recorded).map fun _ => recorded
  | some [] => .error (.invalidRequest "the part list is empty")
  | some list => pickParts recorded 0 list

section World

variable {T : Type}

/-- State of one upload and of the object it is for. -/
structure World (T : Type) where
  /-- Content type of the open session. -/
  session : Option (Option Text)
  /-- Rows of uploaded parts. -/
  rows : List PartRow
  /-- Part files by their names. -/
  files : Text→Option Bytes
  /-- Scratch file of each task that uploads a part. -/
  partials : T→Option Bytes
  /-- Temporary file of each task that completes the upload. -/
  temps : T→Bytes
  /-- Content and metadata of the object. -/
  object : Option (Bytes×Committed)

/-- Requests of the operations on an upload. -/
inductive Action
  | fetchSession
  | ensureCapacity
  | createPartial
  | appendPartial (chunk : Bytes)
  | flushPartial
  | publish (name : Text)
  | dropPartial
  | upsertPart (row : PartRow)
  | listParts
  | createTemp
  | openPart (name : Text)
  | appendTemp (chunk : Bytes)
  | flushTemp
  | commitUpload (info : Committed)
  | dropTemp
  | deleteParts
  | deleteSession
  | removeDir

/-- What a request answers if it does not fail. -/
abbrev Result : Action→Type
  | .fetchSession => Option (Option Text)
  | .listParts => List PartRow
  | .openPart _ => Reading
  | _ => Unit

/-- Answers of the requests. -/
abbrev Answer (a : Action) : Type := Except Failure (Result a)

/-- What the scheduler picks among the outcomes of a request. -/
inductive Choice (T : Type)
  /-- The request does its work. -/
  | work
  /-- The request fails, after writing some bytes if it writes. -/
  | fail (error : Failure) (written : Bytes)
  /-- The file is read like this. -/
  | read (reading : Reading)
  /-- These files survive the removal of their directory. -/
  | sweep (file : Text→Bool) (scratch : T→Bool)

variable [DecidableEq T]

/-- A request that does its work or fails. -/
def attempted {α : Type} (choice : Choice T) (done : α×World T)
    (broken : Bytes→World T) : Option (Except Failure α×World T) :=
  match choice with
  | .work => some (.ok done.1,done.2)
  | .fail error written => some (.error error,broken written)
  | _ => none

/-- Bytes added to a task's scratch file. Where it was unlinked they go nowhere. -/
def World.appendPartial (world : World T) (t : T) (chunk : Bytes) : World T :=
  {world with
    partials := update world.partials t ((world.partials t).map (· ++ chunk))}

/-- Bytes added to a task's temporary file. -/
def World.appendTemp (world : World T) (t : T) (chunk : Bytes) : World T :=
  {world with temps := update world.temps t (world.temps t++chunk)}

@[simp]
theorem World.appendPartial_partials_self (world : World T) (t : T) (chunk : Bytes) :
    (world.appendPartial t chunk).partials t=(world.partials t).map (· ++ chunk) :=
  update_self t _ world.partials

@[simp]
theorem World.appendTemp_temps_self (world : World T) (t : T) (chunk : Bytes) :
    (world.appendTemp t chunk).temps t=world.temps t++chunk :=
  update_self t _ world.temps

/-- Outcomes of a request of a task. -/
def exec (t : T) : (a : Action)→Choice T→World T→Option (Answer a×World T)
  | .fetchSession,choice,world => attempted choice (world.session,world) fun _ => world
  | .ensureCapacity,choice,world => attempted choice ((),world) fun _ => world
  | .createPartial,choice,world =>
    attempted choice
      ((),{world with partials := update world.partials t (some [])}) fun _ => world
  | .appendPartial chunk,choice,world =>
    attempted choice ((),world.appendPartial t chunk) (world.appendPartial t)
  | .flushPartial,choice,world => attempted choice ((),world) fun _ => world
  | .publish name,choice,world =>
    match world.partials t with
    | none => some (.error .internal,world)
    | some body =>
      attempted choice
        ((),{world with
          files := update world.files name (some body)
          partials := update world.partials t none}) fun _ => world
  | .dropPartial,_,world =>
    some (.ok (),{world with partials := update world.partials t none})
  | .upsertPart row,choice,world =>
    attempted choice
      ((),{world with
        rows := world.rows.filter (fun other => other.partNumber != row.partNumber)++[row]})
      fun _ => world
  | .listParts,choice,world =>
    attempted choice (OrderedRows.sortedBy PartRow.partNumber world.rows,world) fun _ => world
  | .createTemp,choice,world =>
    attempted choice ((),{world with temps := update world.temps t []}) fun _ => world
  | .openPart name,choice,world =>
    match world.files name,choice with
    | some content,.read reading =>
      if reading.bytes.isPrefixOf content && (!reading.complete || reading.bytes==content) then
        some (.ok reading,world)
      else none
    | _,.fail error _ => some (.error error,world)
    | _,_ => none
  | .appendTemp chunk,choice,world =>
    attempted choice ((),world.appendTemp t chunk) (world.appendTemp t)
  | .flushTemp,choice,world => attempted choice ((),world) fun _ => world
  | .commitUpload info,choice,world =>
    attempted choice ((),{world with object := some (world.temps t,info)}) fun _ => world
  | .dropTemp,_,world => some (.ok (),{world with temps := update world.temps t []})
  | .deleteParts,choice,world => attempted choice ((),{world with rows := []}) fun _ => world
  | .deleteSession,choice,world =>
    attempted choice ((),{world with session := none}) fun _ => world
  | .removeDir,choice,world =>
    match choice with
    | .sweep file scratch =>
      some (.ok (),{world with
        files := fun name => if file name then world.files name else none
        partials := fun u => if scratch u then world.partials u else none})
    | _ => none

/-- The machine of an upload. -/
def machine (T : Type) [DecidableEq T] : Machine Action Answer T (World T) (Choice T) := ⟨exec⟩

end World

/-- Programs that work on an upload. -/
abbrev Prog (α : Type) := Program Action Answer α

/-- A single request. -/
def op (a : Action) : Prog (Except Failure (Result a)) := Program.request a

/-- What the operations depend on. -/
structure Settings where
  /-- Hash of a byte string. -/
  hash : Bytes→UInt64
  /-- Largest part. -/
  partSize : ℕ

/-- The hash of some bytes as text. -/
def Settings.etag (settings : Settings) (bytes : Bytes) : Text :=
  (SharedBlocks.hexText (settings.hash bytes)).toList

/-- The session must be open. -/
def ensureMultipartSession : Prog (Except Failure (Option Text)) :=
  attempt (op .fetchSession) fun
    | none => .done (.error .notFound)
    | some contentType => .done (.ok contentType)

/-- Writing the body of a part to the scratch file. The hasher has seen `hashed`. -/
def receivePart (settings : Settings) : List Bytes→Bytes→ℕ→Prog (Except Failure (Bytes×ℕ))
  | [],hashed,size => .done (.ok (hashed,size))
  | chunk::chunks,hashed,size =>
    if settings.partSize<size+chunk.length then .done (.error .payloadTooLarge)
    else
      attempt (op (.appendPartial chunk)) fun _ =>
        receivePart settings chunks (hashed++chunk) (size+chunk.length)

/-- Receiving a part, replacing its file and writing its row. -/
def storePart (settings : Settings) (partNumber : ℤ) (body : Reading) :
    Prog (Except Failure Text) :=
  attempt (op .createPartial) fun _ =>
  attempt (receivePart settings body.chunks [] 0) fun received =>
  if body.complete then
    attempt (op .flushPartial) fun _ =>
    attempt (op (.publish (partName partNumber))) fun _ =>
    attempt (op (.upsertPart ⟨partNumber,received.2,settings.etag received.1⟩)) fun _ =>
    .done (.ok (settings.etag received.1))
  else .done (.error .internal)

/-- Upload of a part. The scratch file is removed at the end. -/
def uploadPart (settings : Settings) (partNumber : ℤ) (body : Reading) :
    Prog (Except Failure Text) :=
  if partNumber<1 then .done (.error .invalidKey)
  else
    attempt ensureMultipartSession fun _ =>
    (storePart settings partNumber body).bind fun result =>
    (op .dropPartial).bind fun _ => .done result

/-- Copying the chunks of a part into the temporary file. The hashers have seen the
bytes of the part and of the whole object so far. -/
def copyPart : List Bytes→Bytes→Bytes→Prog (Except Failure (Bytes×Bytes))
  | [],part,whole => .done (.ok (part,whole))
  | chunk::chunks,part,whole =>
    attempt (op (.appendTemp chunk)) fun _ => copyPart chunks (part++chunk) (whole++chunk)

/-- Copying the selected parts, each checked against its row. -/
def assembleParts (settings : Settings) : List PartRow→Bytes→ℕ→Prog (Except Failure (Bytes×ℕ))
  | [],whole,total => .done (.ok (whole,total))
  | row::rows,whole,total =>
    attempt (op (.openPart (partName row.partNumber))) fun reading =>
    attempt (copyPart reading.chunks [] whole) fun copied =>
    if !reading.complete then .done (.error .internal)
    else if copied.1.length≠row.size ∨ settings.etag copied.1≠row.etag then
      .done (.error (.invalidRequest
        s!"part {row.partNumber} does not match its recorded upload; upload it again"))
    else assembleParts settings rows copied.2 (total+copied.1.length)

/-- Removing rows and files of the upload. -/
def cleanupMultipart : Prog (Except Failure Unit) :=
  attempt (op .deleteParts) fun _ =>
  attempt (op .deleteSession) fun _ =>
  (op .removeDir).bind fun _ => .done (.ok ())

/-- Assembling the selected parts, committing them and cleaning up. -/
def commitParts (settings : Settings) (selected : List PartRow) (contentType customMeta : Option Text) :
    Prog (Except Failure Committed) :=
  attempt (op .createTemp) fun _ =>
  attempt (assembleParts settings selected [] 0) fun assembled =>
  attempt (op .flushTemp) fun _ =>
  let info : Committed := ⟨assembled.2,settings.etag assembled.1,contentType,customMeta⟩
  attempt (op (.commitUpload info)) fun _ =>
  attempt cleanupMultipart fun _ => .done (.ok info)

/-- Completion of the upload. The temporary file is removed at the end. -/
def completeMultipart (settings : Settings) (requested : Option (List CompletedPart))
    (customMeta : Option Text) : Prog (Except Failure Committed) :=
  attempt ensureMultipartSession fun contentType =>
  attempt (op .ensureCapacity) fun _ =>
  attempt (op .listParts) fun recorded =>
  match selectParts recorded requested with
  | .error e => .done (.error e)
  | .ok selected =>
    (commitParts settings selected contentType customMeta).bind fun result =>
    (op .dropTemp).bind fun _ => .done result

/-- Abort of the upload. -/
def abortMultipart : Prog (Except Failure Unit) :=
  attempt ensureMultipartSession fun _ => cleanupMultipart

end NebularOs.Multipart
