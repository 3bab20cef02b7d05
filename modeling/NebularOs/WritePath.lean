import Mathlib
import NebularOs.EngineState
import NebularOs.TrimmedText

/-!
# Write path

The functions through which an object's blob is replaced: staging an upload or
a copy, checking preconditions and capacity under the key's write lock, and
swapping the staged file in. An overwrite keeps a backup and a journal record
until its row is committed; a start of the engine settles the records that a
crash left behind.

Every function is written as the source has it, operation by operation, with
its error paths.
-/

namespace NebularOs.WritePath

open BlobFilenames RequestPrograms EngineState TrimmedText

variable {K P B : Type}

/-- One operation as a program. -/
def op (a : Action K P B) : Prog K P B (Answer a) :=
  Program.request a

@[simp]
theorem op_eq_ask (a : Action K P B) : op a=.ask a .done := rfl

/-- Whether a client's list of entity tags names the stored one. -/
def etagMatches (stored candidate : Text) : Bool :=
  (candidate.splitOn ',').any fun tag =>
    let tag := trim isWhitespace tag
    let tag := if ['W', '/'].isPrefixOf tag then tag.drop 2 else tag
    trim (· == '"') tag == stored

/-- If-Match and If-None-Match of a write, and whether a commit hook is set. -/
structure WriteConditions where
  /-- Entity tags the current version must match. -/
  ifMatch : Option Text
  /-- Star when the object must not exist. -/
  ifNoneMatch : Option Text
  /-- Whether a hook runs around the change. -/
  hook : Bool

/-- Whether neither precondition was sent. -/
def WriteConditions.isEmpty (conditions : WriteConditions) : Bool :=
  conditions.ifMatch.isNone && conditions.ifNoneMatch.isNone

/-- Preconditions of a write against the current row. -/
def checkWritePreconditions (existing : Option ObjectMetadata) (ifMatch ifNoneMatch : Option Text) :
    Except StorageError Unit :=
  if ifNoneMatch == some ['*'] && existing.isSome then .error .preconditionFailed
  else match ifMatch with
    | none => .ok ()
    | some matchVal =>
      match existing with
      | none => .error .preconditionFailed
      | some row =>
        if matchVal == ['*'] then .ok ()
        else match row.etag with
          | none => .error .preconditionFailed
          | some stored =>
            if etagMatches stored matchVal then .ok () else .error .preconditionFailed

/-- Metadata committed with a staged blob: an upload's own, or a copy of the
source's row. -/
inductive MetaCommit
  | upsert (size : ℕ) (contentType : Option Text) (etag : Text) (customMeta : Option Text)
  | copyOf (source : ObjectMetadata)

/-- An unsigned 64-bit number cast to a signed one. -/
def asI64 (n : ℕ) : ℤ :=
  if n<2^63 then n else n-2^64

/-- Size in bytes that admission counts. -/
def MetaCommit.size : MetaCommit→ℕ
  | .upsert size _ _ _ => size
  | .copyOf source => (max source.size 0).toNat

/-- Entity tag the journal names as the new version. -/
def MetaCommit.etag : MetaCommit→Option Text
  | .upsert _ _ etag _ => some etag
  | .copyOf source => source.etag

/-- The row that the commit writes. A copy of a row without an entity tag gets
an empty one. -/
def MetaCommit.row : MetaCommit→ObjectMetadata
  | .upsert size contentType etag customMeta =>
    ⟨asI64 size,contentType,some etag,customMeta,none,none,none⟩
  | .copyOf source =>
    ⟨source.size,source.mimeType,some (source.etag.getD []),source.customMeta,none,
      source.storageClass,source.originNode⟩

theorem MetaCommit.row_etag {change : MetaCommit} {etag : Text} (h : change.etag=some etag) :
    change.row.etag=some etag := by
  cases change with
  | upsert size contentType tag customMeta => exact h
  | copyOf source =>
    have hsource : source.etag=some etag := h
    simp only [MetaCommit.row,hsource,Option.getD_some]

/-- Metadata reported for a write that keeps no row. -/
def MetaCommit.blobOnlyMetadata : MetaCommit→ObjectMetadata
  | .upsert size contentType etag customMeta =>
    ⟨asI64 size,contentType,some etag,customMeta,none,none,none⟩
  | .copyOf source => ⟨source.size,source.mimeType,source.etag,source.customMeta,none,none,none⟩

/-- Saturation at the bounds of a signed 64-bit integer. -/
def saturate (n : ℤ) : ℤ :=
  max (-2^63) (min (2^63-1) n)

/-- Bytes that the store would hold if the write were admitted. -/
def projectedBytes (current inFlight existing incoming : ℤ) : ℤ :=
  saturate (saturate (saturate (current+inFlight)-existing)+incoming)

/-- Admission of a write under the byte cap. Answers the reserved bytes, which
stay in flight until the write has finished, or nothing without a cap. -/
def reserveCapacity (engine : Engine K P B) (existingBytes : ℤ) (incomingBytes : ℕ) :
    Prog K P B (Except StorageError (Option Int64)) :=
  if engine.maxLogicalBytes≤0 then pure (.ok none)
  else do
    op .lockCapacity
    let inFlight : Int64 ← op .loadInFlight
    let total : Option ℤ ← op .totalBytes
    match total with
    | none => do
      op .unlockCapacity
      pure (.error .internal)
    | some current => do
      let incoming : ℤ := min incomingBytes (2^63-1)
      if engine.maxLogicalBytes<
          projectedBytes current inFlight.toInt existingBytes incoming then do
        op .unlockCapacity
        pure (.error .insufficientStorage)
      else do
        op (.addInFlight (Int64.ofInt incoming))
        op .unlockCapacity
        pure (.ok (some (Int64.ofInt incoming)))

/-- Whether a write is admitted under the byte cap. -/
def admits (engine : Engine K P B) [DecidableEq K] (w : World K P B) (existingBytes : ℤ)
    (incomingBytes : ℕ) : Prop :=
  engine.maxLogicalBytes≤0 ∨ (-2^63≤w.activeBytes ∧ w.activeBytes<2^63) ∧
    projectedBytes w.activeBytes w.inFlight.toInt existingBytes (min incomingBytes (2^63-1)) ≤
      engine.maxLogicalBytes

/-- The end of a reservation. -/
def releaseCapacity (reserved : Option Int64) : Prog K P B Unit :=
  match reserved with
  | none => pure ()
  | some bytes => op (.subInFlight bytes)

/-- The paths of a list that exist, in order. -/
def existingPaths : List P→Prog K P B (List P)
  | [] => pure []
  | path::paths => do
    let found : Bool ← op (.pathExists path)
    let rest ← existingPaths paths
    pure (if found then path::rest else rest)

/-- The candidates that hold the key's blob, in order. -/
def existingBlobPaths (engine : Engine K P B) (key : K) : Prog K P B (List P) :=
  existingPaths (engine.variants key)

/-- References held by the blob at a path, unless they cannot be read. -/
def manifestEntries (engine : Engine K P B) (path : P) : Prog K P B (Option (List BlockRef)) := do
  let content : Option B ← op (.readBlob path)
  pure (content.bind engine.manifestEntries)

/-- References of all previous blobs; those that cannot be read are skipped. -/
def previousRefs (engine : Engine K P B) : List P→Prog K P B (List BlockRef)
  | [] => pure []
  | path::paths => do
    let refs ← manifestEntries engine path
    let rest ← previousRefs engine paths
    pure (refs.getD []++rest)

/-- Dropping one reference per entry, up to the first failing statement. -/
def decRefsAt (now : ℤ) : List BlockRef→Prog K P B Bool
  | [] => pure true
  | entry::entries => do
    let dropped : Bool ← op (.decRef entry.1 now)
    if dropped then decRefsAt now entries else pure false

/-- Dropping one reference per entry, all stamped with one time. -/
def decRefs (entries : List BlockRef) : Prog K P B Bool := do
  let now : ℤ ← op .unixNow
  decRefsAt now entries

/-- Dropping references where there are any, going on after a failure. -/
def releaseRefs (entries : List BlockRef) : Prog K P B Unit :=
  if entries.isEmpty then pure ()
  else do
    let _dropped ← decRefs entries
    pure ()

/-- Counting one reference per entry, up to the first failing statement. -/
def incRefs : List BlockRef→Prog K P B Bool
  | [] => pure true
  | entry::entries => do
    let counted : Bool ← op (.incRef entry.1)
    if counted then incRefs entries else pure false

/-- Copying a file beside a destination on another device and renaming the copy
over it, so that the destination still changes in one step. -/
def placeCopy (role : Role) (source : Scratch) (id : ℕ) (target : P) : Prog K P B Bool := do
  let copied : Bool ← op (.copyScratch role source (.beside,id))
  if copied then do
    let synced : Bool ← op (.sync role)
    if synced then do
      let outcome : MoveOutcome ← op (.rename role (.beside,id) target)
      pure (outcome=.moved)
    else pure false
  else pure false

/-- Rename over a destination, on another device through a copy. -/
def renameIntoPlace (role : Role) (source : Scratch) (target : P) : Prog K P B Bool := do
  let outcome : MoveOutcome ← op (.rename role source target)
  match outcome with
  | .moved => pure true
  | .failed => pure false
  | .crossDevice => do
    let id : ℕ ← op .freshId
    let placed ← placeCopy role source id target
    if placed then do
      let _removed : Bool ← op (.removeScratch .cleanup source)
      pure true
    else do
      let _removed : Bool ← op (.removeScratch .cleanup (.beside,id))
      pure false

/-- Removing each of some blob files, ignoring failures. -/
def removeBlobs (paths : List P) : Prog K P B Unit :=
  Program.forEach paths fun path => do
    let _removed : Bool ← op (.removeBlob path)
    pure ()

/-- Removing a backup, if there is one. -/
def removeBackup (backup : Option ℕ) : Prog K P B Unit :=
  match backup with
  | none => pure ()
  | some id => do
    let _removed : Bool ← op (.removeScratch .cleanup (.backup,id))
    pure ()

/-- Removing a journal record, if there is one. -/
def removeJournal (intent : Option ℕ) : Prog K P B Unit :=
  match intent with
  | none => pure ()
  | some id => do
    let _removed : Bool ← op (.removeIntent .cleanup id)
    pure ()

/-- Writing a journal record durably: the file is created, filled and synced. -/
def writeSwapIntent (engine : Engine K P B) (id : ℕ) (intent : SwapIntent K) :
    Prog K P B Bool := do
  let created : Bool ← op (.createIntent id)
  let filled : Bool ← if created then op (.fillIntent id intent) else pure false
  if filled && engine.fsyncWrites then do
    let file : Bool ← op (.sync .essential)
    if file then op (.sync .essential) else pure false
  else pure filled

/-- Keeping the current version reachable: a hard link to it, else a copy. A
key without a blob at its current path needs none. -/
def backUpCurrent (engine : Engine K P B) (key : K) (id : ℕ) :
    Prog K P B (Except StorageError (Option ℕ)) := do
  let found : Bool ← op (.pathExists (engine.current key))
  if !found then pure (.ok none)
  else do
    let linked : MoveOutcome ← op (.hardLink (engine.current key) (.backup,id))
    if linked=.moved then pure (.ok (some id))
    else do
      let copied : Bool ← op (.copyFile (engine.current key) (.backup,id))
      if copied then pure (.ok (some id))
      else do
        let _removed : Bool ← op (.removeScratch .cleanup (.backup,id))
        pure (.error .internal)

/-- Journaling an overwrite, so that a crash between the rename and the commit
can be undone. Only an overwrite with a backup and an entity tag is journaled. -/
def journalSwap (engine : Engine K P B) (key : K) (change : MetaCommit)
    (existing : Option ObjectMetadata) (id : ℕ) (backup : Option ℕ) :
    Prog K P B (Except StorageError (Option ℕ)) :=
  match backup,engine.blobOnly,change.etag with
  | some _,false,some newEtag => do
    let written ← writeSwapIntent engine id ⟨key,newEtag,existing.bind ObjectMetadata.etag⟩
    if written then pure (.ok (some id))
    else do
      let _removed : Bool ← op (.removeIntent .cleanup id)
      removeBackup backup
      pure (.error .internal)
  | _,_,_ => pure (.ok none)

/-- After the commit: previous blobs, backup and journal record go, then the
references of the previous blobs are dropped. -/
def finishSwap (engine : Engine K P B) [DecidableEq P] (key : K) (previous : List P)
    (backup intent : Option ℕ) (oldRefs : List BlockRef) : Prog K P B Unit := do
  removeBlobs (previous.filter (· ≠ engine.current key))
  removeBackup backup
  removeJournal intent
  releaseRefs oldRefs

theorem releaseRefs_issues {allowed : Action K P B→Prop} {entries : List BlockRef}
    (hnow : allowed .unixNow)
    (hdrop : ∀ block now,allowed (.decRef block now)) :
    (releaseRefs entries).Issues allowed := by
  have hat : ∀ now,(decRefsAt now entries).Issues allowed := by
    intro now
    induction entries with
    | nil => trivial
    | cons entry entries ih =>
      refine ⟨hdrop entry.1 now,fun dropped => ?_⟩
      cases dropped with
      | true => exact ih
      | false => trivial
  unfold releaseRefs
  split
  · trivial
  · exact Program.Issues.bind ⟨hnow,fun now => hat now⟩ fun _ => trivial

/-- What cleaning up after a commit can do. -/
def Finishes (engine : Engine K P B) (key : K) (backup intent : Option ℕ) : Action K P B→Prop
  | .removeBlob path => path≠engine.current key
  | .removeScratch .cleanup file => ∃ id,backup=some id ∧ file=(.backup,id)
  | .removeIntent .cleanup id => intent=some id
  | .unixNow => True
  | .decRef _ _ => True
  | _ => False

theorem finishSwap_issues (engine : Engine K P B) [DecidableEq P] (key : K) (previous : List P)
    (backup intent : Option ℕ) (oldRefs : List BlockRef) :
    (finishSwap engine key previous backup intent oldRefs).Issues
      (Finishes engine key backup intent) := by
  refine Program.Issues.bind (Program.Issues.forEach fun path hpath => ?_) fun _ =>
    Program.Issues.bind ?_ fun _ => Program.Issues.bind ?_ fun _ =>
      releaseRefs_issues trivial fun _ _ => trivial
  · have hne : path≠engine.current key := by simpa using (List.mem_filter.mp hpath).2
    exact ⟨hne,fun _ => trivial⟩
  · cases backup with
    | none => trivial
    | some id => exact ⟨⟨id,rfl,rfl⟩,fun _ => trivial⟩
  · cases intent with
    | none => trivial
    | some id => exact ⟨rfl,fun _ => trivial⟩

/-- Bringing the previous version back, or removing the new file if there was
none. -/
def restorePrevious (engine : Engine K P B) (key : K) (backup : Option ℕ) : Prog K P B Bool :=
  match backup with
  | some id => renameIntoPlace .cleanup (.backup,id) (engine.current key)
  | none => op (.removeBlob (engine.current key))

/-- After a failed commit the previous state comes back. The journal record goes only once that succeeded. -/
def undoSwap (engine : Engine K P B) (key : K) (backup intent : Option ℕ) :
    Prog K P B Unit := do
  let restored ← restorePrevious engine key backup
  if restored then removeJournal intent else pure ()

/-- Syncing the blob's directory, whose failure is only logged. -/
def syncParent (engine : Engine K P B) : Prog K P B Bool :=
  if engine.fsyncWrites then op (.sync .essential) else pure true

/-- Committing the row. Writes that leave the metadata to an external index have
none. -/
def commitMetadata (engine : Engine K P B) (key : K) (change : MetaCommit) : Prog K P B Bool :=
  if engine.blobOnly then pure true else op (.upsertObject key change.row)

/-- The commit with the new file in place, and what follows from its outcome. -/
def settleSwap (engine : Engine K P B) [DecidableEq P] (key : K) (change : MetaCommit)
    (previous : List P) (backup intent : Option ℕ) (oldRefs : List BlockRef) :
    Prog K P B (Except StorageError ObjectMetadata) := do
  let committed ← commitMetadata engine key change
  if committed then do
    finishSwap engine key previous backup intent oldRefs
    pure (.ok (if engine.blobOnly then change.blobOnlyMetadata else change.row))
  else do
    undoSwap engine key backup intent
    pure (.error .internal)

/-- The swap once the write is admitted. -/
def swapAdmitted (engine : Engine K P B) [DecidableEq P] (key : K) (staged : Scratch)
    (change : MetaCommit) (existing : Option ObjectMetadata) :
    Prog K P B (Except StorageError ObjectMetadata) := do
  let previous ← existingBlobPaths engine key
  let oldRefs ← previousRefs engine previous
  let made : Bool ← op .createDirAll
  if !made then pure (.error .internal)
  else do
    let id : ℕ ← op .freshId
    let backup ← backUpCurrent engine key id
    match backup with
    | .error e => pure (.error e)
    | .ok backup => do
      let intent ← journalSwap engine key change existing id backup
      match intent with
      | .error e => pure (.error e)
      | .ok intent => do
        let renamed ← renameIntoPlace .essential staged (engine.current key)
        if !renamed then do
          removeBackup backup
          removeJournal intent
          pure (.error .internal)
        else do
          let _synced ← syncParent engine
          settleSwap engine key change previous backup intent oldRefs

/-- The current row. Writes that leave the metadata to an external index know
none. -/
def existingRow (engine : Engine K P B) (key : K) :
    Prog K P B (Option (Option ObjectMetadata)) :=
  if engine.blobOnly then pure (some none) else op (.fetchActive key)

/-- Preconditions of a write, where the engine has a row to check them against. -/
def checkConditions (engine : Engine K P B) (conditions : WriteConditions)
    (existing : Option ObjectMetadata) : Except StorageError Unit :=
  if !conditions.isEmpty && !engine.blobOnly then
    checkWritePreconditions existing conditions.ifMatch conditions.ifNoneMatch
  else .ok ()

/-- The swap with its reservation, which ends with it. -/
def swapReserved (engine : Engine K P B) [DecidableEq P] (key : K) (staged : Scratch)
    (change : MetaCommit) (existing : Option ObjectMetadata) :
    Prog K P B (Except StorageError ObjectMetadata) := do
  let reserved ← reserveCapacity engine ((existing.map ObjectMetadata.size).getD 0) change.size
  match reserved with
  | .error e => pure (.error e)
  | .ok reservation => do
    let result ← swapAdmitted engine key staged change existing
    releaseCapacity reservation
    pure result

/-- Making a staged blob the object's blob: preconditions, admission, swap. -/
def swapInStaged (engine : Engine K P B) [DecidableEq P] (key : K) (staged : Scratch)
    (change : MetaCommit) (conditions : WriteConditions) :
    Prog K P B (Except StorageError ObjectMetadata) := do
  let fetched ← existingRow engine key
  match fetched with
  | none => pure (.error .internal)
  | some existing =>
    match checkConditions engine conditions existing with
    | .error e => pure (.error e)
    | .ok _ => swapReserved engine key staged change existing

/-- A call of the commit hook, when one is set. -/
def whenHooked (conditions : WriteConditions) (call : Prog K P B Bool) : Prog K P B Bool :=
  if conditions.hook then call else pure true

/-- The swap, unless the hook vetoes it. -/
def swapUnlessVetoed (engine : Engine K P B) [DecidableEq P] (key : K) (staged : Scratch)
    (change : MetaCommit) (conditions : WriteConditions) :
    Prog K P B (Except StorageError ObjectMetadata) := do
  let admitted ← whenHooked conditions (op (.hookBefore key))
  if admitted then swapInStaged engine key staged change conditions
  else pure (.error .internal)

/-- Committing a staged blob with the key's write lock held. References counted
for it are dropped again when nothing was committed. -/
def commitStagedLocked (engine : Engine K P B) [DecidableEq P] (key : K) (staged : Scratch)
    (newRefs : List BlockRef) (change : MetaCommit) (conditions : WriteConditions) :
    Prog K P B (Except StorageError ObjectMetadata) := do
  let result ← swapUnlessVetoed engine key staged change conditions
  match result with
  | .error e => do
    releaseRefs newRefs
    pure (.error e)
  | .ok committed => do
    let seen ← whenHooked conditions (op (.hookAfter key))
    pure (if seen then .ok committed else .error .internal)

/-- Putting a backup back, when the object's row still names the version it
holds. Answers how many objects were rolled back. -/
def restoreInterrupted (engine : Engine K P B) (id : ℕ) (intent : SwapIntent K) :
    Prog K P B (Except StorageError ℕ) := do
  let fetched : Option (Option ObjectMetadata) ← op (.fetchActive intent.key)
  match fetched with
  | none => pure (.error .internal)
  | some row =>
    let current := row.bind ObjectMetadata.etag
    let committed := current == some intent.newEtag
    let stillPrevious := intent.oldEtag.isSome && current == intent.oldEtag
    if !committed && stillPrevious then do
      let kept : Bool ← op (.scratchExists (.backup,id))
      if kept then do
        let renamed ← renameIntoPlace .essential (.backup,id) (engine.current intent.key)
        if renamed then do
          let synced ← syncParent engine
          pure (if synced then .ok 1 else .error .internal)
        else pure (.error .internal)
      else pure (.ok 0)
    else pure (.ok 0)

/-- Restoring under the write lock of the record's key. A record that cannot be
read was torn while it was written, so nothing has to be restored. -/
def restoreRecord (engine : Engine K P B) (id : ℕ) (intent : Option (SwapIntent K)) :
    Prog K P B (Except StorageError ℕ) :=
  match intent with
  | none => pure (.ok 0)
  | some intent => do
    op (.lockKey (engine.stripe intent.key))
    let restored ← restoreInterrupted engine id intent
    op (.unlockKey (engine.stripe intent.key))
    pure restored

/-- Removing a settled record with its backup. -/
def clearRecord (id count : ℕ) : Prog K P B (Except StorageError ℕ) := do
  let _removed : Bool ← op (.removeScratch .cleanup (.backup,id))
  let cleared : Bool ← op (.removeIntent .essential id)
  pure (if cleared then .ok count else .error .internal)

/-- Settling one journal record and removing it with its backup. -/
def recoverSwap (engine : Engine K P B) (id : ℕ) : Prog K P B (Except StorageError ℕ) := do
  let intent : Option (SwapIntent K) ← op (.readIntent id)
  let restored ← restoreRecord engine id intent
  match restored with
  | .error e => pure (.error e)
  | .ok count => clearRecord id count

/-- Settling records in order, up to the first error. -/
def recoverSwaps (engine : Engine K P B) : List ℕ→Prog K P B (Except StorageError ℕ)
  | [] => pure (.ok 0)
  | id::ids => do
    let first ← recoverSwap engine id
    match first with
    | .error e => pure (.error e)
    | .ok count => do
      let others ← recoverSwaps engine ids
      pure (others.map (count+·))

/-- Finishing or undoing the overwrites that a crash interrupted. Runs when the
engine starts, before any request. -/
def recoverInterruptedSwaps (engine : Engine K P B) : Prog K P B (Except StorageError ℕ) := do
  let ids : Option (List ℕ) ← op .listIntents
  match ids with
  | none => pure (.error .internal)
  | some ids => recoverSwaps engine ids

end NebularOs.WritePath
