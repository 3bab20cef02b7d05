import Mathlib
import NebularOs.BlobEncoding
import NebularOs.BlockReferences
import NebularOs.KeyPages
import NebularOs.Scrubbing

/-!
# Recompressing and migrating stored blobs

Two maintenance jobs walk over the active objects and rewrite blobs. Recompression
re-encodes blobs in place: raw ones, those of older formats, and containers of a lower
level or an older dictionary. Migration moves blobs to the path of new writes, and
re-encodes older formats and outdated containers on the way.

A job looks at a blob and makes a plan for it: to leave it, to swap in other bytes, or
to move it. No other writers are about, so a blob is still what was read when the plan
is carried out.
-/

namespace NebularOs.BlobMaintenance

open ByteFields BlobFilenames EngineState BlobFormats SharedBlocks Compressibility BlobEncoding
open ChunkSources BlobDecoding RawStreams BodyStreams Scrubbing BlockReferences KeyPages

/-- Settings of a node, and where it keeps the blobs of objects. -/
structure MaintenanceEngine (P : Type) where
  /-- How blobs are read. -/
  readContext : ReadContext
  /-- The level of the background jobs. -/
  zstdLevel : ℤ
  /-- Bytes of a block. -/
  blockSize : ℕ
  /-- The least size that is compressed. -/
  compressMinSize : ℕ
  /-- Extensions that are not compressed. -/
  compressExcludeExtensions : List Text
  /-- Whether chunks are shared. -/
  dedupEnabled : Bool
  /-- The dictionary of new writes and its name. -/
  writeDictionary : Option (UInt16×Bytes)
  /-- Path of new writes. -/
  blobPath : Text→Text→P
  /-- Further paths at which a blob may lie, in the order in which they are tried. -/
  olderPaths : Text→Text → List P

/-- Blobs and shared blocks on disk. -/
structure DiskState (P : Type) where
  /-- File of each path. -/
  blobs : Table P Bytes
  /-- Files of shared blocks. -/
  blocks : BlockFiles

/-- What re-encoding a blob gives. -/
inductive Reencoded
  | indexed (staging : Bytes) (refs : List BlockRef)
  | raw (decoded : Option Bytes)
  | undecodable

/-- What a job does with a blob. -/
inductive Plan
  | skip
  | fail
  | encoded (staging : Bytes) (refs : List BlockRef)
  | relocate
  deriving DecidableEq

section Headers

/-- Formats that are no longer written. -/
def isLegacyFormat (format : BlobFormat) : Bool :=
  decide (format=.nosd ∨ format=.nosb ∨ format=.nosz ∨ format=.nos2)

/-- Formats that are one frame. -/
def isZstdBlob (data : Bytes) : Bool :=
  decide (detectBlobFormat data=.nosz ∨ detectBlobFormat data=.nos2)

/-- The dictionary that the header of a container names. -/
def readIndexedDictId (data : Bytes) : Option ℕ :=
  if detectBlobFormat data=.nosi ∧ fixedHeaderLenV1≤data.length then some (fromLe (slice 20 2 data))
  else none

/-- The level that the header of a container names. -/
def readIndexedZstdLevel (data : Bytes) : Option ℕ :=
  if detectBlobFormat data≠.nosi ∨ data.length<fixedHeaderLenV1 then none
  else
    let flags := fromLe (slice 22 2 data)
    let level := (nosiHeaderInfo data flags).2
    if flags&&&nosiFlagHasLevel≠0 ∧ 0<level then some level else none

/-- The level that the header of a frame names. -/
def readStoredZstdLevel (data : Bytes) : Option ℕ :=
  if detectBlobFormat data=.nos2 ∧ headerLenV2≤data.length then some (fromLe (slice 14 1 data))
  else none

/-- The dictionary that the header of a frame names. -/
def readStoredDictId (data : Bytes) : Option ℕ :=
  if detectBlobFormat data=.nos2 ∧ headerLenV2≤data.length then some (fromLe (slice 12 2 data))
  else none

/-- The level that a header names. -/
def readBlobStoredZstdLevel (data : Bytes) : Option ℕ :=
  (readIndexedZstdLevel data).or (readStoredZstdLevel data)

end Headers

section Encoding

variable {P : Type} (engine : MaintenanceEngine P)

/-- Reading with the shared blocks that are there. -/
def MaintenanceEngine.withBlocks (blocks : BlockFiles) : ReadContext :=
  { engine.readContext with env := { engine.readContext.env with blocks := some blocks } }

/-- How many chunks a body can still give. -/
def bodyLeft : BodyReader Unit→ℕ
  | .raw _ => 0
  | .dedup reader => reader.blocks.length
  | .indexed reader => reader.1.layout.blockCount-reader.1.blockIdx
  | .frame reader => reader.out.length
  | .frameRange range => range.inner.out.length

/-- Streaming the logical bytes of a blob that is not raw. A body gives no more chunks
than it has left. -/
def decodeBlobToFile (ctx : ReadContext) (pace : Pace) (file : Bytes) (size : ℕ) :
    Except String Bytes :=
  match openObjectBodyStream ctx file (none : Option (BlockDecodeCache Unit)) size 0 size with
  | .error e => .error e
  | .ok body =>
    match (collect (readChunk ctx pace () file) (bodyLeft body+1) body).1 with
    | some (.ok content) =>
      if content.length≠size then .error s!"decoded {content.length} bytes, expected {size}"
      else .ok content
    | some (.error e) => .error e
    | none => .error "the body gives more chunks than it has"

/-- Options of the encoder in the background jobs. -/
def MaintenanceEngine.encodeOptions : EncodeOptions :=
  ⟨(engine.writeDictionary.map Prod.fst).getD 0,engine.writeDictionary.map Prod.snd,
    engine.dedupEnabled⟩

/-- Encoding logical bytes at the background level. -/
def encodeForMaintenance (blocks : BlockFiles) (source : Bytes) (key : Text) (size : ℕ) :
    EncodeResult :=
  encodeFileForStorage engine.readContext.env.zstd engine.readContext.env.hash .none
    engine.zstdLevel engine.encodeOptions source size engine.blockSize
    (.new (some key) none size engine.compressMinSize engine.compressExcludeExtensions) blocks

/-- What the encoder's result means for a blob. -/
def reencodedOf (decoded : Option Bytes) (result : EncodeResult) : Reencoded :=
  match result.outcome,result.out with
  | .ok (.indexed refs),some staging => .indexed staging refs
  | .ok .raw,_ => .raw decoded
  | _,_ => .undecodable

/-- A fresh encoding of a blob: blobs that are not raw are decoded first. -/
def reencodeToStaging (pace : Pace) (blocks : BlockFiles) (file : Bytes) (format : BlobFormat)
    (key : Text) (size : ℕ) : Reencoded×BlockFiles :=
  if format=.raw then
    let result := encodeForMaintenance engine blocks file key size
    (reencodedOf none result,result.files)
  else match decodeBlobToFile (engine.withBlocks blocks) pace file size with
    | .error _ => (.undecodable,blocks)
    | .ok decoded =>
      let result := encodeForMaintenance engine blocks decoded key size
      (reencodedOf (some decoded) result,result.files)

/-- Whether a container was written with a lower level or an older dictionary than new
writes, or in an older format. -/
def indexedNeedsUpgrade (layout : Option BlobLayout) (format : BlobFormat) : Bool :=
  if format=.nosb then true
  else if format≠.nosi then false
  else match layout with
    | none => true
    | some layout =>
      if layout.format=.v0 then true
      else if layout.zstdLevel=0 ∨ (layout.zstdLevel : ℤ)<engine.zstdLevel then true
      else decide (engine.writeDictionary.isSome ∧
        layout.dictId<((engine.writeDictionary.map Prod.fst).getD 0).toNat)

/-- Whether an encoding is swapped in. -/
def shouldReplaceEncoded (oldLen encodedLen : ℕ) (upgradingLevel migratingLegacy : Bool) : Bool :=
  migratingLegacy || upgradingLevel || decide (encodedLen<oldLen)

/-- Whether a blob looks outdated, apart from raw ones. -/
def upgradesIndexed (format : BlobFormat) (file : Bytes) : Bool :=
  indexedNeedsUpgrade engine
    (if format=.nosi ∨ format=.nosb then indexedLayout file else none) format

/-- Whether the level in a header is below that of the background jobs. -/
def storedLevelBelow (head : Bytes) : Bool :=
  decide ((((readBlobStoredZstdLevel head).getD 0 : ℕ) : ℤ)<engine.zstdLevel)

/-- A size as an unsigned number. -/
def sizeU64 (size : ℤ) : ℕ := (size%2^64).toNat

/-- Whether recompression re-encodes a blob: the checks before it does. -/
def recompressWanted (size : ℤ) (file : Bytes) : Bool :=
  let (head,oldLen) := blobHead file
  let format := storedBlobFormat head oldLen size.toNat
  let migratingLegacy := isLegacyFormat format
  let upgradingIndexed := upgradesIndexed engine format file
  if format=.raw ∧ WritePath.asI64 oldLen≠size then false
  else if format=.nosi ∧ upgradingIndexed=false then false
  else if isZstdBlob head=true ∧ migratingLegacy=false then
    let storedDict := ((readIndexedDictId head).or (readStoredDictId head)).getD 0
    storedLevelBelow engine head || decide (format=.nosz) ||
      decide (engine.writeDictionary.isSome ∧ storedDict=0 ∧ format=.nos2)
  else !(!migratingLegacy && decide (format≠.raw) && !upgradingIndexed)

/-- What recompression does with a blob. -/
def recompressPlan (pace : Pace) (blocks : BlockFiles) (key : Text) (size : ℤ) (file : Bytes) :
    Plan×BlockFiles :=
  if !recompressWanted engine size file then (.skip,blocks)
  else
    let (head,oldLen) := blobHead file
    let format := storedBlobFormat head oldLen size.toNat
    let migratingLegacy := isLegacyFormat format
    match reencodeToStaging engine pace blocks file format key (sizeU64 size) with
    | (.indexed staging refs,blocks) =>
      let upgradingLevel := migratingLegacy || upgradesIndexed engine format file ||
        storedLevelBelow engine head
      if shouldReplaceEncoded oldLen staging.length upgradingLevel migratingLegacy then
        (.encoded staging refs,blocks)
      else (.skip,blocks)
    | (_,blocks) => (.skip,blocks)

/-- What migration does with a blob that lies at the path of new writes or elsewhere. -/
def migratePlan (pace : Pace) (blocks : BlockFiles) (key : Text) (size : ℤ) (needsRelocate : Bool)
    (file : Bytes) : Plan×BlockFiles :=
  let (head,currentLen) := blobHead file
  let format := storedBlobFormat head currentLen size.toNat
  let needsReencode := isLegacyFormat format || upgradesIndexed engine format file ||
    (decide (format=.raw) && needsRelocate)
  if !needsRelocate && !needsReencode then (.skip,blocks)
  else
    match (if needsReencode then
        reencodeToStaging engine pace blocks file format key (sizeU64 size)
      else (.raw none,blocks)) with
    | (.indexed staging refs,blocks) => (.encoded staging refs,blocks)
    | (.raw (some decoded),blocks) => (.encoded decoded [],blocks)
    | (.raw none,blocks) => (if needsRelocate then .relocate else .skip,blocks)
    | (.undecodable,blocks) => (.fail,blocks)

end Encoding

section Jobs

variable {P : Type} [DecidableEq P]

/-- The two jobs. -/
inductive MaintenanceJob
  | recompress
  | migrate
  deriving DecidableEq

/-- Paths at which the blob of an object may lie, in the order in which they are tried. -/
def MaintenanceEngine.variants (engine : MaintenanceEngine P) (row : KeyRow) : List P :=
  engine.blobPath row.bucket row.key::engine.olderPaths row.bucket row.key

/-- The first path of an object with a file, and the file. -/
def firstExisting (state : DiskState P) (paths : List P) : Option (P×Bytes) :=
  paths.findSome? fun path => (state.blobs.lookup path).map fun file => (path,file)

/-- What a job does with the blob of an object at a path. -/
def MaintenanceJob.plan (job : MaintenanceJob) (engine : MaintenanceEngine P) (pace : Pace)
    (blocks : BlockFiles) (row : KeyRow) (current : P) (file : Bytes) : Plan×BlockFiles :=
  match job with
  | .recompress => recompressPlan engine pace blocks row.key row.size file
  | .migrate => migratePlan engine pace blocks row.key row.size
      (decide (current≠engine.blobPath row.bucket row.key)) file

/-- Where a job puts what it swaps in. -/
def MaintenanceJob.target (job : MaintenanceJob) (engine : MaintenanceEngine P) (row : KeyRow)
    (current : P) : P :=
  match job with
  | .recompress => current
  | .migrate => engine.blobPath row.bucket row.key

/-- Putting a file in place of a blob. -/
def placeBlob (blobs : Table P Bytes) (current target : P) (file : Bytes) : Table P Bytes :=
  let placed := blobs.insert target file
  if current≠target then placed.erase current else placed

/-- Swapping in what a plan says, once the references of the old bytes are read. -/
def replaceBlobIfUnchanged (state : DiskState P) (current target : P) (file : Bytes) (plan : Plan) :
    Except String (Bool×DiskState P) :=
  match plan with
  | .encoded staging _ =>
    match manifestEntries file with
    | .error e => .error e
    | .ok _ => .ok (true,{ state with blobs := placeBlob state.blobs current target staging })
  | .relocate => .ok (true,{ state with blobs := placeBlob state.blobs current target file })
  | .skip => .ok (false,state)
  | .fail => .ok (false,state)

/-- What became of an object: replaced, with the bytes that were saved, skipped or
failed. -/
inductive RowOutcome
  | replaced (saved : ℤ)
  | skipped
  | failed
  deriving DecidableEq

/-- Whether the blob was replaced. -/
def RowOutcome.isReplaced : RowOutcome→Bool
  | .replaced _ => true
  | .skipped => false
  | .failed => false

/-- Bytes that became free. -/
def RowOutcome.saved : RowOutcome→ℤ
  | .replaced saved => saved
  | .skipped => 0
  | .failed => 0

/-- The outcome for a plan that was carried out. -/
def outcomeOf (file : Bytes) (plan : Plan) : RowOutcome :=
  match plan with
  | .encoded staging _ => .replaced (file.length-staging.length)
  | .relocate => .replaced 0
  | .skip => .skipped
  | .fail => .failed

/-- One object of a job. An error ends the call. -/
def MaintenanceJob.step (job : MaintenanceJob) (engine : MaintenanceEngine P) (pace : Pace)
    (state : DiskState P) (row : KeyRow) : Except String (RowOutcome×DiskState P) :=
  match firstExisting state (engine.variants row) with
  | none => .ok (.skipped,state)
  | some (current,file) =>
    let planned := job.plan engine pace state.blocks row current file
    match replaceBlobIfUnchanged { state with blocks := planned.2 } current
        (job.target engine row current) file planned.1 with
    | .error e => .error e
    | .ok (_,state) => .ok (outcomeOf file planned.1,state)

/-- The objects of a page, one after the other. -/
def MaintenanceJob.run (job : MaintenanceJob) (engine : MaintenanceEngine P) (pace : Pace) :
    List KeyRow→DiskState P→Except String (List RowOutcome×DiskState P)
  | [],state => .ok ([],state)
  | row::rows,state =>
    match job.step engine pace state row with
    | .error e => .error e
    | .ok (outcome,state) =>
      match job.run engine pace rows state with
      | .error e => .error e
      | .ok (outcomes,state) => .ok (outcome::outcomes,state)

/-- What one call sees. -/
structure MaintenanceTurn where
  /-- The table at its queries. -/
  reads : PageReads
  /-- How fast files are read. -/
  pace : Pace

/-- What a call reports. -/
structure MaintenanceReport where
  /-- Objects of the page. -/
  scanned : ℕ
  /-- Objects with a replaced blob. -/
  replaced : ℕ
  /-- Objects that were left alone. -/
  skipped : ℕ
  /-- Objects whose blob could not be decoded or encoded. -/
  failed : ℕ
  /-- Bytes that became free. -/
  bytesSaved : ℤ
  /-- The key that the page ends at. -/
  nextStartAfter : Option Text
  /-- Whether there are more objects. -/
  isTruncated : Bool

/-- The report of a page. -/
def MaintenanceReport.of (page : KeyPage) (outcomes : List RowOutcome) : MaintenanceReport where
  scanned := outcomes.length
  replaced := outcomes.countP RowOutcome.isReplaced
  skipped := outcomes.count .skipped
  failed := outcomes.count .failed
  bytesSaved := (outcomes.map RowOutcome.saved).sum
  nextStartAfter := page.lastKey
  isTruncated := page.isTruncated

/-- One call of a job: a page behind a key. -/
def MaintenanceJob.call (job : MaintenanceJob) (engine : MaintenanceEngine P) (limit : ℕ)
    (turn : MaintenanceTurn) (startAfter : Option Text) (state : DiskState P) :
    Except String (MaintenanceReport×DiskState P) :=
  let page := listKeyPage turn.reads (wrapI64 (max limit 1)) startAfter
  match job.run engine turn.pace page.rows state with
  | .error e => .error e
  | .ok (outcomes,state) => .ok (.of page outcomes,state)

/-- Where the call after a report starts. Recompression keeps the key as text in the
maintenance state, where an empty text stands for none; migration leaves it to the
caller. -/
def MaintenanceReport.next (report : MaintenanceReport) : Option Text :=
  if report.isTruncated then report.nextStartAfter else none

/-- Calls from one behind a key up to the last page, with their reports and the state
that they leave. -/
inductive CompleteWalk (job : MaintenanceJob) (engine : MaintenanceEngine P) (limit : ℕ) :
    Option Text→DiskState P → List MaintenanceTurn → List MaintenanceReport→DiskState P→Prop
  | last {start : Option Text} {state state' : DiskState P} {turn : MaintenanceTurn}
      {report : MaintenanceReport}
      (hcall : job.call engine limit turn start state=.ok (report,state')) (hlast : report.next=none) :
      CompleteWalk job engine limit start state [turn] [report] state'
  | more {start : Option Text} {state state' final : DiskState P} {turn : MaintenanceTurn}
      {report : MaintenanceReport} {next : Text} {turns : List MaintenanceTurn}
      {reports : List MaintenanceReport}
      (hcall : job.call engine limit turn start state=.ok (report,state'))
      (hnext : report.next=some next)
      (hrest : CompleteWalk job engine limit (some next) state' turns reports final) :
      CompleteWalk job engine limit start state (turn::turns) (report::reports) final

end Jobs

end NebularOs.BlobMaintenance
