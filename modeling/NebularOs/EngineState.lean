import Mathlib
import NebularOs.BlobFilenames
import NebularOs.RequestPrograms

/-!
# State and operations of the storage engine

The engine keeps object rows and dedup reference counts in a database, blobs at
their candidate paths, and temporary files below `.tmp`. Its functions are
programs over atomic operations: one SQL statement, one file operation, taking
or releasing a lock. This file gives the state, the operations with the data
they carry and answer, and what each of them does, including the ways it can
fail.

Keys, candidate files and blob contents are parameters, so that every result
holds for all layouts and all contents.
-/

namespace NebularOs.EngineState

open BlobFilenames RequestPrograms Function

/-- Finite tables: directories of files and database tables. -/
abbrev Table (K V : Type) := AList fun _ : K => V

/-- Content hash under which a dedup block is stored. -/
abbrev BlockHash := UInt64

/-- A reference to a dedup block: its hash and the length of its bytes. -/
abbrev BlockRef := BlockHash×ℕ

/-- Errors of the storage layer that the embedded functions return. -/
inductive StorageError
  | notFound
  | insufficientStorage
  | preconditionFailed
  | internal
  deriving DecidableEq

/-- The row of an object. A row with a deletion time is soft-deleted. -/
structure ObjectMetadata where
  /-- Logical size of the object. -/
  size : ℤ
  /-- Content type sent with the upload. -/
  mimeType : Option Text
  /-- Entity tag of the object's content. -/
  etag : Option Text
  /-- Custom metadata sent with the upload. -/
  customMeta : Option Text
  /-- Unix time of a soft delete. -/
  deletedAt : Option ℤ
  /-- Storage class, kept over an overwrite that names none. -/
  storageClass : Option Text
  /-- Node the object came from, kept like the storage class. -/
  originNode : Option Text
  deriving DecidableEq

/-- Rows that reads and listings see. -/
def ObjectMetadata.isActive (row : ObjectMetadata) : Bool :=
  row.deletedAt.isNone

/-- A file: its inode, which hard links share, and its bytes. -/
structure StoredFile (B : Type) where
  /-- Identity shared by hard links. -/
  inode : ℕ
  /-- What the file holds. -/
  content : B
  deriving DecidableEq

/-- Purpose of a temporary file: an upload's body, a staged blob, the backup of
an overwrite, or the copy made beside a destination on another device. -/
inductive ScratchKind
  | upload
  | stage
  | backup
  | beside
  deriving DecidableEq

/-- Name of a temporary file: its purpose and its unique id. -/
abbrev Scratch := ScratchKind×ℕ

/-- Journal record of an overwrite in progress. -/
structure SwapIntent (K : Type) where
  /-- Object being overwritten. -/
  key : K
  /-- Entity tag of the new version. -/
  newEtag : Text
  /-- Entity tag of the version the backup holds. -/
  oldEtag : Option Text
  deriving DecidableEq

/-- Content of a journal file: torn while it is written, then the record. -/
inductive IntentFile (K : Type)
  | torn
  | written (intent : SwapIntent K)
  deriving DecidableEq

/-- Row of a dedup block. -/
structure DedupRow where
  /-- References counted to the block. -/
  refcount : ℕ
  /-- Unix time at which the count last reached zero. -/
  releasedAt : Option ℤ
  deriving DecidableEq

/-- Whether an operation belongs to a change itself, or cleans up after it or
undoes it. -/
inductive Role
  | essential
  | cleanup
  deriving DecidableEq

/-- Outcome of a rename or of making a hard link. -/
inductive MoveOutcome
  | moved
  | crossDevice
  | failed
  deriving DecidableEq

/-- Atomic operations. -/
inductive Action (K P B : Type)
  | lockKey (stripe : ℕ)
  | unlockKey (stripe : ℕ)
  | lockCapacity
  | unlockCapacity
  | loadInFlight
  | addInFlight (bytes : Int64)
  | subInFlight (bytes : Int64)
  | unixNow
  | freshId
  | hookBefore (key : K)
  | hookAfter (key : K)
  | fetchActive (key : K)
  | totalBytes
  | upsertObject (key : K) (row : ObjectMetadata)
  | pathExists (path : P)
  | readBlob (path : P)
  | createDirAll
  | sync (role : Role)
  | scratchExists (file : Scratch)
  | hardLink (source : P) (target : Scratch)
  | copyFile (source : P) (target : Scratch)
  | copyScratch (role : Role) (source target : Scratch)
  | rename (role : Role) (source : Scratch) (target : P)
  | removeScratch (role : Role) (file : Scratch)
  | removeBlob (path : P)
  | createIntent (id : ℕ)
  | fillIntent (id : ℕ) (intent : SwapIntent K)
  | listIntents
  | readIntent (id : ℕ)
  | removeIntent (role : Role) (id : ℕ)
  | incRef (block : BlockHash)
  | decRef (block : BlockHash) (now : ℤ)

/-- What each operation answers; a fallible operation answers whether it
succeeded, or nothing instead of what it reads. -/
abbrev Answer {K P B : Type} : Action K P B→Type
  | .lockKey _ => Unit
  | .unlockKey _ => Unit
  | .lockCapacity => Unit
  | .unlockCapacity => Unit
  | .loadInFlight => Int64
  | .addInFlight _ => Unit
  | .subInFlight _ => Unit
  | .unixNow => ℤ
  | .freshId => ℕ
  | .hookBefore _ => Bool
  | .hookAfter _ => Bool
  | .fetchActive _ => Option (Option ObjectMetadata)
  | .totalBytes => Option ℤ
  | .upsertObject _ _ => Bool
  | .pathExists _ => Bool
  | .readBlob _ => Option B
  | .createDirAll => Bool
  | .sync _ => Bool
  | .scratchExists _ => Bool
  | .hardLink _ _ => MoveOutcome
  | .copyFile _ _ => Bool
  | .copyScratch _ _ _ => Bool
  | .rename _ _ _ => MoveOutcome
  | .removeScratch _ _ => Bool
  | .removeBlob _ => Bool
  | .createIntent _ => Bool
  | .fillIntent _ _ => Bool
  | .listIntents => Option (List ℕ)
  | .readIntent _ => Option (SwapIntent K)
  | .removeIntent _ _ => Bool
  | .incRef _ => Bool
  | .decRef _ _ => Bool

/-- The scheduler's choice of an outcome: success, failure, a rename across
devices, or what a listing answers. -/
inductive Choice
  | ok
  | fail
  | crossDevice
  | ids (order : List ℕ)
  deriving DecidableEq

/-- Everything the operations read and change. -/
structure World (K P B : Type) where
  /-- The objects table. -/
  rows : Table K ObjectMetadata
  /-- Files at candidate paths. -/
  blobs : Table P (StoredFile B)
  /-- Temporary files. -/
  scratch : Table Scratch (StoredFile B)
  /-- Journal files. -/
  intents : Table ℕ (IntentFile K)
  /-- Reference counts of dedup blocks. -/
  dedup : Table BlockHash DedupRow
  /-- Holder of each write-locked key stripe. -/
  keyLocks : ℕ→Option ℕ
  /-- Holder of the capacity lock. -/
  capacityLock : Option ℕ
  /-- Bytes admitted for writes in progress. -/
  inFlight : Int64
  /-- Nanoseconds since the Unix epoch. -/
  clock : ℕ
  /-- The next unique id. -/
  nextId : ℕ

section Operations

variable {K P B α : Type} [DecidableEq K] [DecidableEq P]

/-- An operation that always completes. -/
def always (c : Choice) (outcome : α) : Option α :=
  match c with
  | .ok => some outcome
  | _ => none

/-- An operation that may fail and then changes nothing. -/
def fallible (c : Choice) (failed : α) (outcome : Option α) : Option α :=
  match c with
  | .ok => outcome
  | .fail => some failed
  | _ => none

namespace World

/-- A store that holds nothing. -/
def empty : World K P B where
  rows := ∅
  blobs := ∅
  scratch := ∅
  intents := ∅
  dedup := ∅
  keyLocks := fun _ => none
  capacityLock := none
  inFlight := 0
  clock := 0
  nextId := 0

/-- The active row of a key, as reads select it. -/
def activeRow (w : World K P B) (key : K) : Option ObjectMetadata :=
  (w.rows.lookup key).filter ObjectMetadata.isActive

/-- Keys with an active row. -/
def activeKeys (w : World K P B) : List K :=
  w.rows.keys.filter fun key => (w.activeRow key).isSome

/-- Total size of active objects. -/
def activeBytes (w : World K P B) : ℤ :=
  (w.activeKeys.filterMap fun key => (w.activeRow key).map ObjectMetadata.size).sum

/-- What the file at a path holds. -/
def contentAt (w : World K P B) (path : P) : Option B :=
  (w.blobs.lookup path).map StoredFile.content

/-- References counted to a block; a missing row counts none. -/
def refcount (w : World K P B) (block : BlockHash) : ℕ :=
  ((w.dedup.lookup block).map DedupRow.refcount).getD 0

/-- The journal record under an id, unless it is torn or missing. -/
def recordAt (w : World K P B) (id : ℕ) : Option (SwapIntent K) :=
  match w.intents.lookup id with
  | some (.written intent) => some intent
  | _ => none

/-- An inode no file has. -/
def freshInode (w : World K P B) : ℕ :=
  (w.blobs.entries.map fun entry => entry.2.inode).foldr max
    ((w.scratch.entries.map fun entry => entry.2.inode).foldr max 0)+1

/-- The row an upsert leaves: storage class and origin fall back to the row it
replaces. -/
def upserted (w : World K P B) (key : K) (row : ObjectMetadata) : ObjectMetadata :=
  { row with
    deletedAt := none
    storageClass := row.storageClass.or ((w.rows.lookup key).bind ObjectMetadata.storageClass)
    originNode := row.originNode.or ((w.rows.lookup key).bind ObjectMetadata.originNode) }

/-- A rename over a path. Between two links to one inode it does nothing. -/
def renameOver (w : World K P B) (source : Scratch) (target : P) (file : StoredFile B) :
    World K P B :=
  if (w.blobs.lookup target).any (·.inode==file.inode) then w
  else { w with blobs := w.blobs.insert target file, scratch := w.scratch.erase source }

/-- One more reference to a block. -/
def incRef (w : World K P B) (block : BlockHash) : World K P B :=
  { w with dedup := w.dedup.insert block ⟨w.refcount block+1,none⟩ }

/-- One reference less to a block; a count of zero stays, and a count that
reaches zero is stamped. -/
def decRef (w : World K P B) (block : BlockHash) (now : ℤ) : World K P B :=
  match w.dedup.lookup block with
  | none => w
  | some row =>
    if row.refcount=0 then w
    else
      { w with
        dedup := w.dedup.insert block
          ⟨row.refcount-1,if row.refcount≤1 then some now else row.releasedAt⟩ }

/-- What a crash leaves: files and tables stay, everything in memory is gone. -/
def crashed (w : World K P B) : World K P B :=
  { w with
    keyLocks := fun _ => none
    capacityLock := none
    inFlight := 0 }

omit [DecidableEq K] [DecidableEq P] in
theorem refcount_incRef (w : World K P B) (block other : BlockHash) :
    (w.incRef block).refcount other=w.refcount other+if block=other then 1 else 0 := by
  unfold incRef
  by_cases h : block=other
  · subst h
    simp [refcount]
  · simp [refcount,h,AList.lookup_insert_ne (Ne.symm h)]

omit [DecidableEq K] [DecidableEq P] in
theorem refcount_decRef (w : World K P B) (block other : BlockHash) (now : ℤ) :
    (w.decRef block now).refcount other=w.refcount other-if block=other then 1 else 0 := by
  unfold decRef
  by_cases h : block=other
  · subst h
    split
    · rename_i hnone
      simp [refcount,hnone]
    · rename_i row hrow
      by_cases hzero : row.refcount=0 <;> simp [refcount,hrow,hzero]
  · split
    · simp [h]
    · rename_i row hrow
      by_cases hzero : row.refcount=0
      · simp [hzero,h]
      · simp [refcount,hzero,h,AList.lookup_insert_ne (Ne.symm h)]

omit [DecidableEq K] [DecidableEq P] in
theorem decRef_frame (w : World K P B) (block : BlockHash) (now : ℤ) :
    ∃ dedup,w.decRef block now={ w with dedup := dedup } := by
  unfold decRef
  split
  · exact ⟨w.dedup,rfl⟩
  · split
    · exact ⟨w.dedup,rfl⟩
    · exact ⟨_,rfl⟩

theorem inode_lt_foldr_max {I : Type} [DecidableEq I] {files : Table I (StoredFile B)} {name : I}
    {file : StoredFile B} (h : files.lookup name=some file) (start : ℕ) :
    file.inode≤(files.entries.map fun entry => entry.2.inode).foldr max start := by
  have hmem : (⟨name,file⟩ : Sigma fun _ : I => StoredFile B)∈files.entries :=
    AList.mem_lookup_iff.mp h
  have hmap : file.inode∈files.entries.map fun entry => entry.2.inode :=
    List.mem_map.mpr ⟨⟨name,file⟩,hmem,rfl⟩
  generalize (files.entries.map fun entry => entry.2.inode)=inodes at hmap
  induction inodes with
  | nil => cases hmap
  | cons n inodes ih =>
    rcases List.mem_cons.mp hmap with rfl | htail
    · exact le_max_left _ _
    · exact (ih htail).trans (le_max_right _ _)

omit [DecidableEq K] [DecidableEq P] in
theorem scratch_inode_ne_fresh {w : World K P B} {name : Scratch} {file : StoredFile B}
    (h : w.scratch.lookup name=some file) : file.inode≠w.freshInode := by
  have hle := inode_lt_foldr_max h 0
  have hfold : ∀ (inodes : List ℕ) (n : ℕ),n ≤ inodes.foldr max n := by
    intro inodes n
    induction inodes with
    | nil => exact le_rfl
    | cons m inodes ih => exact ih.trans (le_max_right _ _)
  have hblobs := hfold (w.blobs.entries.map fun entry => entry.2.inode)
    ((w.scratch.entries.map fun entry => entry.2.inode).foldr max 0)
  unfold World.freshInode
  omega

omit [DecidableEq K] in
theorem blob_inode_ne_fresh {w : World K P B} {path : P} {file : StoredFile B}
    (h : w.blobs.lookup path=some file) : file.inode≠w.freshInode := by
  have hle := inode_lt_foldr_max h
    ((w.scratch.entries.map fun entry => entry.2.inode).foldr max 0)
  unfold World.freshInode
  omega

end World

/-- What each operation of a task does and answers. -/
def exec (t : ℕ) (a : Action K P B) (c : Choice) (w : World K P B) :
    Option (Answer a×World K P B) :=
  match a with
  | .lockKey stripe =>
    if w.keyLocks stripe=none then
      always c ((),{ w with keyLocks := update w.keyLocks stripe (some t) })
    else none
  | .unlockKey stripe =>
    if w.keyLocks stripe=some t then
      always c ((),{ w with keyLocks := update w.keyLocks stripe none })
    else none
  | .lockCapacity =>
    if w.capacityLock=none then always c ((),{ w with capacityLock := some t }) else none
  | .unlockCapacity =>
    if w.capacityLock=some t then always c ((),{ w with capacityLock := none }) else none
  | .loadInFlight => always c (w.inFlight,w)
  | .addInFlight bytes => always c ((),{ w with inFlight := w.inFlight+bytes })
  | .subInFlight bytes => always c ((),{ w with inFlight := w.inFlight-bytes })
  | .unixNow => always c (Int.ofNat (w.clock/1000000000),w)
  | .freshId => always c (w.nextId,{ w with nextId := w.nextId+1 })
  | .hookBefore _ => fallible c (false,w) (some (true,w))
  | .hookAfter _ => fallible c (false,w) (some (true,w))
  | .fetchActive key => fallible c (none,w) (some (some (w.activeRow key),w))
  -- The sum is an error once it leaves the range of a 64-bit integer.
  | .totalBytes => fallible c (none,w)
      (some (if -2^63≤w.activeBytes ∧ w.activeBytes<2^63 then some w.activeBytes else none,w))
  | .upsertObject key row => fallible c (false,w)
      (some (true,{ w with rows := w.rows.insert key (w.upserted key row) }))
  | .pathExists path => always c ((w.blobs.lookup path).isSome,w)
  | .readBlob path => fallible c (none,w)
      (some ((w.blobs.lookup path).map StoredFile.content,w))
  | .createDirAll => fallible c (false,w) (some (true,w))
  | .sync _ => fallible c (false,w) (some (true,w))
  | .scratchExists file => always c ((w.scratch.lookup file).isSome,w)
  | .hardLink source target =>
    match c with
    | .fail => some (.failed,w)
    | .crossDevice => some (.crossDevice,w)
    | .ok =>
      match w.blobs.lookup source,w.scratch.lookup target with
      | some file,none => some (.moved,{ w with scratch := w.scratch.insert target file })
      | _,_ => some (.failed,w)
    | _ => none
  | .copyFile source target => fallible c (false,w)
      (match w.blobs.lookup source with
        | some file => some (true,{ w with
            scratch := w.scratch.insert target ⟨w.freshInode,file.content⟩ })
        | none => some (false,w))
  | .copyScratch _ source target => fallible c (false,w)
      (match w.scratch.lookup source with
        | some file => some (true,{ w with
            scratch := w.scratch.insert target ⟨w.freshInode,file.content⟩ })
        | none => some (false,w))
  | .rename _ source target =>
    match c with
    | .fail => some (.failed,w)
    -- A copy beside the destination is on its device.
    | .crossDevice => if source.1=.beside then none else some (.crossDevice,w)
    | .ok =>
      match w.scratch.lookup source with
      | none => some (.failed,w)
      | some file => some (.moved,w.renameOver source target file)
    | _ => none
  | .removeScratch _ file => fallible c (false,w)
      (some ((w.scratch.lookup file).isSome,{ w with scratch := w.scratch.erase file }))
  | .removeBlob path => fallible c (false,w)
      (some ((w.blobs.lookup path).isSome,{ w with blobs := w.blobs.erase path }))
  | .createIntent id => fallible c (false,w)
      (some (true,{ w with intents := w.intents.insert id .torn }))
  | .fillIntent id intent => fallible c (false,w)
      (some (true,{ w with intents := w.intents.insert id (.written intent) }))
  | .listIntents =>
    match c with
    | .fail => some (none,w)
    | .ids order => if order.Perm w.intents.keys then some (some order,w) else none
    | _ => none
  | .readIntent id => fallible c (none,w) (some (w.recordAt id,w))
  | .removeIntent _ id => fallible c (false,w)
      (some ((w.intents.lookup id).isSome,{ w with intents := w.intents.erase id }))
  | .incRef block => fallible c (false,w) (some (true,w.incRef block))
  | .decRef block now => fallible c (false,w) (some (true,w.decRef block now))

/-- The engine as a machine. -/
def machine (K P B : Type) [DecidableEq K] [DecidableEq P] :
    Machine (Action K P B) Answer ℕ (World K P B) (Choice) where
  exec := exec

end Operations

/-- Programs over the engine's operations. -/
abbrev Prog (K P B α : Type) := Program (Action K P B) Answer α

/-- Settings of an engine, and how its keys map to candidate files. -/
structure Engine (K P B : Type) where
  /-- Candidate files of a key, the current one first. -/
  fallbacks : K → List P
  /-- File that new writes of a key go to. -/
  current : K→P
  /-- Stripe of the write lock that guards a key. -/
  stripe : K→ℕ
  /-- Writes leave the metadata to an external index. -/
  blobOnly : Bool
  /-- Files and directories are synced before they are relied on. -/
  fsyncWrites : Bool
  /-- Cap on the logical bytes stored; no cap when not positive. -/
  maxLogicalBytes : ℤ
  /-- References a blob holds, when they can be read from its bytes. -/
  manifestEntries : B→Option (List BlockRef)

/-- Candidate files of a key, in the order they are looked up. -/
def Engine.variants {K P B : Type} (engine : Engine K P B) (key : K) : List P :=
  engine.current key::engine.fallbacks key

/-- The candidate that reads of a key use: the first that exists. -/
def Engine.resolve {K P B : Type} [DecidableEq P] (engine : Engine K P B) (w : World K P B)
    (key : K) : Option P :=
  (engine.variants key).find? fun path => (w.blobs.lookup path).isSome

/-- What reads of a key find: the content of its first existing candidate. -/
def Engine.served {K P B : Type} [DecidableEq P] (engine : Engine K P B) (w : World K P B)
    (key : K) : Option B :=
  (engine.resolve w key).bind w.contentAt

/-- Operations that clean up after a change or undo it. -/
def Action.isCleanup {K P B : Type} : Action K P B→Bool
  | .sync role => role=.cleanup
  | .copyScratch role _ _ => role=.cleanup
  | .rename role _ _ => role=.cleanup
  | .removeScratch role _ => role=.cleanup
  | .removeIntent role _ => role=.cleanup
  | .removeBlob _ => true
  | .decRef _ _ => true
  | _ => false

end NebularOs.EngineState
