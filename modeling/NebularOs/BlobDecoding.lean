import Mathlib
import NebularOs.ChunkSources
import NebularOs.SharedBlocks

/-!
# Decoding stored blobs

Blocks of a container are read one by one, decoded with the dictionary that their
frame names, and checked for length and checksum. Decoded blocks are kept in a
cache that drops what was used least recently. A cache whose entries for a file are
what its blocks decode to changes nothing that a reader sees.
-/

namespace NebularOs.BlobDecoding

open ByteFields EngineState BlobFormats SharedBlocks ChunkSources List

/-- What decoding depends on besides the blob. -/
structure ReadEnv where
  /-- The compressor. -/
  zstd : Zstd
  /-- Checksums and hashes of chunks. -/
  hash : Bytes→BlockHash
  /-- Dictionaries that were loaded, by the name that frames give them. -/
  dictionaries : ℕ→Option Bytes
  /-- A dictionary to fall back on. -/
  dict : Option Bytes
  /-- Files of shared blocks, if there is a data directory. -/
  blocks : Option BlockFiles

/-- A frame names a dictionary that is not available. -/
def unknownDictionary (id : ℕ) : String :=
  s!"data was compressed with zstd dictionary {id}, which is not in the data directory's .dict/"

section Blocks

variable (env : ReadEnv)

/-- The dictionary that a frame needs. -/
def dictionaryForFrame (frame : Bytes) : Except String (Option Bytes) :=
  match env.zstd.frameDictId frame with
  | none => .ok none
  | some id =>
    match env.dictionaries id with
    | some dict => .ok (some dict)
    | none =>
      match env.dict with
      | some hint =>
        if env.zstd.dictId hint=some id then .ok (some hint)
        else .error (unknownDictionary id)
      | none => .error (unknownDictionary id)

/-- Decoding one frame, up to one byte past the length it should have. -/
def decodeCompressedPayload (payload : Bytes) (expectedLen : ℕ) : Except String Bytes :=
  match dictionaryForFrame env payload with
  | .error e => .error e
  | .ok dict => decodeUpTo env.zstd (dict.getD []) payload (expectedLen+1)

/-- Checking a decoded chunk against its checksum, if there is one. -/
def verifyChecksum (decoded : Bytes) (expected : Option ℕ) : Except String Unit :=
  match expected with
  | none => .ok ()
  | some expected =>
    if (env.hash decoded).toNat≠expected then .error "block checksum mismatch" else .ok ()

/-- Reading a shared block that a container names. -/
def loadDedupBlock (files : BlockFiles) (name : BlockHash) (expectedLen : ℕ)
    (expectedChecksum : Option ℕ) : Except String Bytes :=
  match readLogicalBlock env.zstd env.hash files name expectedLen with
  | .error e => .error e
  | .ok data =>
    match verifyChecksum env data expectedChecksum with
    | .error e => .error e
    | .ok () => .ok data

/-- The chunk of a block, before it is checked. -/
def decodeByType (payload : Bytes) (parsed : ParsedBlockHeader) (expectedLen : ℕ) :
    Except String Bytes :=
  if parsed.blockType=blockCompressed then decodeCompressedPayload env payload expectedLen
  else if parsed.blockType=blockStored then .ok payload
  else if parsed.blockType=blockDedupRef then
    if payload.length≠12 then .error "invalid dedup ref"
    else if fromLe (slice 8 4 payload)≠expectedLen then .error "dedup ref size mismatch"
    else match env.blocks with
      | none => .error "dedup block read requires data_dir"
      | some files => loadDedupBlock env files (UInt64.ofNat (fromLe (slice 0 8 payload))) expectedLen
          parsed.logicalChecksum
  else .error s!"unknown block type: {parsed.blockType}"

/-- The chunk of a block, with its length and checksum checked. -/
def decodeBlockPayload (payload : Bytes) (parsed : ParsedBlockHeader) (expectedLen : ℕ) :
    Except String Bytes :=
  match decodeByType env payload parsed expectedLen with
  | .error e => .error e
  | .ok decoded =>
    if decoded.length≠expectedLen then
      .error s!"block size mismatch: got {decoded.length} expected {expectedLen}"
    else match verifyChecksum env decoded parsed.logicalChecksum with
      | .error e => .error e
      | .ok () => .ok decoded

end Blocks

section Cache

variable {Path : Type} [DecidableEq Path]

/-- What a decoded block is kept under: the path of the blob, the number of the
block and a tag of its content. -/
abbrev BlockKey (Path : Type) := Path×ℕ×ℕ

/-- Decoded blocks, the most recently used first, with bounds on their number and
their bytes. -/
structure BlockDecodeCache (Path : Type) where
  /-- The blocks. -/
  entries : List (BlockKey Path×Bytes)
  /-- Most blocks that are kept. -/
  capacity : ℕ
  /-- Bytes of the blocks. -/
  bytes : ℕ
  /-- Most bytes that are kept. -/
  maxBytes : ℕ

namespace BlockDecodeCache

/-- Looking up a block, which becomes the most recently used one. -/
def get (cache : BlockDecodeCache Path) (key : BlockKey Path) :
    Option Bytes×BlockDecodeCache Path :=
  match cache.entries.find? (fun entry => entry.1=key) with
  | none => (none,cache)
  | some entry =>
    (some entry.2,{ cache with entries := entry::cache.entries.filter (fun other => other.1≠key) })

/-- Dropping least recently used blocks until the bounds are met. -/
def evict : ℕ→BlockDecodeCache Path→BlockDecodeCache Path
  | 0,cache => cache
  | fuel+1,cache =>
    if cache.maxBytes<cache.bytes ∨ cache.capacity<cache.entries.length then
      match cache.entries.getLast? with
      | none => cache
      | some (_,evicted) =>
        evict fuel { cache with
          entries := cache.entries.dropLast
          bytes := cache.bytes-evicted.length }
    else cache

/-- Keeping a block, unless it is over the bound by itself. -/
def insert (cache : BlockDecodeCache Path) (key : BlockKey Path) (block : Bytes) :
    BlockDecodeCache Path :=
  if cache.maxBytes<block.length then cache
  else
    let replaced := cache.entries.find? fun entry => entry.1=key
    let bytes := match replaced with
      | none => cache.bytes
      | some entry => cache.bytes-entry.2.length
    let entries := (key,block)::cache.entries.filter fun other => other.1≠key
    evict entries.length { cache with entries := entries, bytes := bytes+block.length }

end BlockDecodeCache

/-- A cached block of the length that is expected. -/
def lookupCached (cache : Option (BlockDecodeCache Path)) (key : BlockKey Path) (expectedLen : ℕ) :
    Option Bytes×Option (BlockDecodeCache Path) :=
  match cache with
  | none => (none,none)
  | some cache =>
    let (hit,cache) := cache.get key
    (hit.filter fun block => block.length=expectedLen,some cache)

end Cache

section Readers

variable {Path : Type} [DecidableEq Path] (env : ReadEnv) (path : Path) (file : Bytes)

/-- Decoding a block, unless the cache has it. -/
def decodeWithCache (payload : Bytes) (parsed : ParsedBlockHeader) (layout : BlobLayout)
    (blockIdx : ℕ) (cache : Option (BlockDecodeCache Path)) (populate : Bool) :
    Except String Bytes×Option (BlockDecodeCache Path) :=
  let expectedLen := layout.logicalLen blockIdx
  let tag := parsed.logicalChecksum.getD (env.hash payload).toNat
  match lookupCached cache (path,blockIdx,tag) expectedLen with
  | (some hit,cache) => (.ok hit,cache)
  | (none,cache) =>
    match decodeBlockPayload env payload parsed expectedLen with
    | .error e => (.error e,cache)
    | .ok decoded =>
      (.ok decoded,
        if populate then cache.map (fun cache => cache.insert (path,blockIdx,tag) decoded) else cache)

/-- The look into the cache before the bytes of a block with a checksum are read. -/
def lookupChecksum (parsed : ParsedBlockHeader) (layout : BlobLayout) (blockIdx : ℕ)
    (cache : Option (BlockDecodeCache Path)) : Option Bytes×Option (BlockDecodeCache Path) :=
  match parsed.logicalChecksum with
  | none => (none,cache)
  | some checksum => lookupCached cache (path,blockIdx,checksum) (layout.logicalLen blockIdx)

/-- Where a block ends: at the next one, or with the file. -/
def blockStop (layout : BlobLayout) (blockIdx : ℕ) : ℕ :=
  if blockIdx+1<layout.blockCount then layout.fileOffsetForBlock (blockIdx+1) else file.length

/-- Reading one block of an open container. -/
def readBlockFromFile (layout : BlobLayout) (blockIdx : ℕ) (cache : Option (BlockDecodeCache Path))
    (populate : Bool) : Except String Bytes×Option (BlockDecodeCache Path) :=
  let start := layout.fileOffsetForBlock blockIdx
  let stop := blockStop file layout blockIdx
  let headerLen := layout.blockHeaderLen
  if file.length<stop ∨ stop<start+headerLen then
    (.error s!"block {blockIdx} extends past the blob",cache)
  else match parseBlockHeaderAt (slice start headerLen file) 0 layout with
    | .error e => (.error e,cache)
    | .ok parsed =>
      match lookupChecksum path parsed layout blockIdx cache with
      | (some hit,cache) => (.ok hit,cache)
      | (none,cache) =>
        if stop-start<headerLen+parsed.payloadLen then (.error "block payload truncated",cache)
        else decodeWithCache env path (slice (start+headerLen) parsed.payloadLen file) parsed layout
          blockIdx cache populate

/-- Reading one block without a cache. -/
def readBlock (layout : BlobLayout) (blockIdx : ℕ) : Except String Bytes :=
  (readBlockFromFile env () file layout blockIdx none false).1

/-- Reading the header of an open container of an object of a known size. -/
def readIndexedLayout (logicalSize : ℕ) : Except String BlobLayout :=
  match readBlobLayout file with
  | .error e => .error e
  | .ok layout =>
    if layout.logicalSize≠logicalSize then .error "blob header size mismatch" else .ok layout

/-- A reader of a range of a container. -/
structure IndexedBlobReader where
  /-- Header and block table. -/
  layout : BlobLayout
  /-- Whether decoded blocks go into the cache. -/
  populateCache : Bool
  /-- The next block. -/
  blockIdx : ℕ
  /-- The next byte of the object. -/
  pos : ℕ
  /-- Where the range ends. -/
  stop : ℕ

/-- A reader of some bytes of an object from an offset on. -/
def IndexedBlobReader.fromFile (logicalSize rangeStart length : ℕ) :
    Except String IndexedBlobReader :=
  match readIndexedLayout file logicalSize with
  | .error e => .error e
  | .ok layout =>
    if rangeStart+length≤logicalSize then
      .ok ⟨layout,!(rangeStart==0 && length==logicalSize),layout.blockForOffset rangeStart,rangeStart,
        rangeStart+length⟩
    else .error s!"range {rangeStart}+{length} is outside an object of {logicalSize} bytes"

/-- The blocks from the next one on, up to one that holds a byte of the range. -/
def nextBlock : ℕ → IndexedBlobReader×Option (BlockDecodeCache Path) →
    Except String (Option Bytes)×IndexedBlobReader×Option (BlockDecodeCache Path)
  | 0,(reader,cache) =>
    (.error s!"blob index ends before logical offset {reader.pos}",reader,cache)
  | fuel+1,(reader,cache) =>
    let blockIdx := reader.blockIdx
    match readBlockFromFile env path file reader.layout blockIdx cache reader.populateCache with
    | (.error e,cache) => (.error e,{ reader with blockIdx := blockIdx+1 },cache)
    | (.ok block,cache) =>
      let skip := reader.pos-reader.layout.logicalStart blockIdx
      if block.length ≤ skip then nextBlock fuel ({ reader with blockIdx := blockIdx+1 },cache)
      else
        let take := min (reader.stop-reader.pos) (block.length-skip)
        (.ok (some (slice skip take block)),
          { reader with blockIdx := blockIdx+1, pos := reader.pos+take },cache)

/-- The next piece of the range, at most one block. -/
def nextChunk : Source (IndexedBlobReader×Option (BlockDecodeCache Path)) UInt8
  | (reader,cache) =>
    if reader.stop ≤ reader.pos then (.ok none,reader,cache)
    else nextBlock env path file (reader.layout.blockCount-reader.blockIdx) (reader,cache)

/-- The bytes of a block that lie in a blob held in memory. -/
def blockPayload (blob : Bytes) (parsed : ParsedBlockHeader) (fileOffset : ℕ) :
    Except String Bytes :=
  if blob.length<fileOffset+parsed.headerLen+parsed.payloadLen then .error "block payload truncated"
  else .ok (slice (fileOffset+parsed.headerLen) parsed.payloadLen blob)

/-- Reading one block of a blob held in memory. -/
def readBlockPayloadBytes (blob : Bytes) (layout : BlobLayout) (blockIdx : ℕ) :
    Except String Bytes :=
  let fileOffset := layout.fileOffsetForBlock blockIdx
  match parseBlockHeaderAt blob fileOffset layout with
  | .error e => .error e
  | .ok parsed =>
    match blockPayload blob parsed fileOffset with
    | .error e => .error e
    | .ok payload => (decodeWithCache env () payload parsed layout blockIdx none true).1

/-- Blocks of a blob held in memory, one after the other. -/
def readBlocks (blob : Bytes) (layout : BlobLayout) : List ℕ→Except String Bytes
  | [] => .ok []
  | blockIdx::later =>
    match readBlockPayloadBytes env blob layout blockIdx with
    | .error e => .error e
    | .ok block =>
      match readBlocks blob layout later with
      | .error e => .error e
      | .ok rest => .ok (block++rest)

/-- Decoding a container held in memory. -/
def decompressIndexedBlob (blob : Bytes) (expectedSize : ℕ) : Except String Bytes :=
  match parseLayoutBytes blob with
  | .error e => .error e
  | .ok layout =>
    if layout.logicalSize≠expectedSize then
      .error s!"blob header size mismatch: header={layout.logicalSize} metadata={expectedSize}"
    else readBlocks env blob layout (List.range layout.blockCount)

/-- Decoding a blob of the formats that are one frame. -/
def decompressZstdBlob (blob : Bytes) (expectedSize : ℕ) : Except String Bytes :=
  let frameBehind (headerLen : ℕ) : Except String Bytes :=
    let storedSize := fromLe (slice 4 8 blob)
    if storedSize≠expectedSize then
      .error s!"blob header size mismatch: header={storedSize} metadata={expectedSize}"
    else match decodeCompressedPayload env (blob.drop headerLen) expectedSize with
      | .error e => .error e
      | .ok decompressed =>
        if decompressed.length≠expectedSize then
          .error s!"decompressed size mismatch: got {decompressed.length} expected {expectedSize}"
        else .ok decompressed
  match detectBlobFormat blob with
  | .raw => .ok blob
  | .nosd => .error "decompress_blob called on dedup manifest"
  | .nosz => frameBehind headerLen
  | .nos2 => frameBehind headerLenV2
  | _ => .error "not a legacy zstd blob"

/-- Decoding a blob held in memory. -/
def decompressBlob (blob : Bytes) (expectedSize : ℕ) : Except String Bytes :=
  match detectBlobFormat blob with
  | .raw => .ok blob
  | .nosd => .error "decompress_blob called on dedup manifest"
  | .nosb => decompressIndexedBlob env blob expectedSize
  | .nosi => decompressIndexedBlob env blob expectedSize
  | .nosz => decompressZstdBlob env blob expectedSize
  | .nos2 => decompressZstdBlob env blob expectedSize

end Readers

section CacheContents

variable {Path : Type} [DecidableEq Path] {cache : BlockDecodeCache Path} {key : BlockKey Path}
  {block : Bytes}

theorem BlockDecodeCache.get_mem (h : (cache.get key).1=some block) :
    (key,block)∈cache.entries := by
  unfold get at h
  split at h
  · cases h
  rename_i entry hfound
  have htest := List.find?_some hfound
  have hkey : entry.1=key := of_decide_eq_true htest
  cases h
  exact hkey ▸ mem_of_find?_eq_some hfound

theorem BlockDecodeCache.get_subset : (cache.get key).2.entries⊆cache.entries := by
  unfold get
  split
  · exact List.Subset.refl _
  · rename_i entry hfound
    exact cons_subset.mpr ⟨mem_of_find?_eq_some hfound,filter_subset_self _⟩

omit [DecidableEq Path] in
theorem BlockDecodeCache.evict_subset (fuel : ℕ) (cache : BlockDecodeCache Path) :
    (evict fuel cache).entries⊆cache.entries := by
  induction fuel generalizing cache with
  | zero => exact List.Subset.refl _
  | succ fuel ih =>
    unfold evict
    split
    · split
      · exact List.Subset.refl _
      · exact List.Subset.trans (ih _) (dropLast_subset _)
    · exact List.Subset.refl _

theorem BlockDecodeCache.insert_subset :
    (cache.insert key block).entries⊆(key,block)::cache.entries := by
  unfold insert
  split
  · exact subset_cons_self _ _
  · exact List.Subset.trans (evict_subset _ _)
      (cons_subset_cons _ (filter_subset_self _))

end CacheContents

section Agreement

variable {Path : Type} [DecidableEq Path] {env : ReadEnv} {path : Path} {file : Bytes}
  {layout : BlobLayout} {cache : Option (BlockDecodeCache Path)} {blockIdx : ℕ}

/-- Every block that is cached for a file is what that block of the file decodes to. -/
def Agrees (env : ReadEnv) (path : Path) (file : Bytes) (layout : BlobLayout)
    (cache : Option (BlockDecodeCache Path)) : Prop :=
  ∀ kept∈cache,∀ entry∈kept.entries,entry.1.1=path →
    readBlock env file layout entry.1.2.1=.ok entry.2

/-- Reading a block without a cache. -/
theorem readBlock_eq (env : ReadEnv) (file : Bytes) (layout : BlobLayout) (blockIdx : ℕ) :
    readBlock env file layout blockIdx=
      if file.length<blockStop file layout blockIdx ∨ blockStop file layout blockIdx<
          layout.fileOffsetForBlock blockIdx+layout.blockHeaderLen then
        .error s!"block {blockIdx} extends past the blob" else match parseBlockHeaderAt
          (slice (layout.fileOffsetForBlock blockIdx) layout.blockHeaderLen file) 0 layout with
        | .error e => .error e | .ok parsed =>
          if blockStop file layout blockIdx-layout.fileOffsetForBlock blockIdx<
              layout.blockHeaderLen+parsed.payloadLen then .error "block payload truncated"
          else decodeBlockPayload env
            (slice (layout.fileOffsetForBlock blockIdx+layout.blockHeaderLen) parsed.payloadLen file)
            parsed (layout.logicalLen blockIdx) := by
  unfold readBlock readBlockFromFile
  dsimp only
  split
  · rfl
  cases parseBlockHeaderAt
      (slice (layout.fileOffsetForBlock blockIdx) layout.blockHeaderLen file) 0 layout with
  | error e => rfl
  | ok parsed =>
    have hnone : lookupChecksum () parsed layout blockIdx none=(none,none) := by
      unfold lookupChecksum
      split <;> rfl
    dsimp only
    rw [hnone]
    dsimp only
    split
    · rfl
    unfold decodeWithCache
    dsimp only [lookupCached]
    cases decodeBlockPayload env
      (slice (layout.fileOffsetForBlock blockIdx+layout.blockHeaderLen) parsed.payloadLen file)
      parsed (layout.logicalLen blockIdx) with
    | error e => rfl
    | ok decoded => rfl

theorem lookupCached_agrees {tag expectedLen : ℕ} (hagrees : Agrees env path file layout cache) :
    (∀ hit,(lookupCached cache (path,blockIdx,tag) expectedLen).1=some hit →
        readBlock env file layout blockIdx=.ok hit) ∧
      Agrees env path file layout (lookupCached cache (path,blockIdx,tag) expectedLen).2 := by
  cases cache with
  | none => exact ⟨(fun hit h => nomatch h),hagrees⟩
  | some kept =>
    constructor
    · intro hit h
      have hfound : (kept.get (path,blockIdx,tag)).1=some hit :=
        (Option.filter_eq_some_iff.mp h).1
      exact hagrees kept rfl _ (BlockDecodeCache.get_mem hfound) rfl
    · intro later hlater entry hentry
      cases hlater
      exact hagrees kept rfl entry (BlockDecodeCache.get_subset hentry)

theorem Agrees.insert {tag : ℕ} {block : Bytes} (hagrees : Agrees env path file layout cache)
    (hblock : readBlock env file layout blockIdx=.ok block) :
    Agrees env path file layout (cache.map fun kept => kept.insert (path,blockIdx,tag) block) := by
  intro later hlater entry hentry hpath
  obtain ⟨kept,hkept,rfl⟩ := Option.mem_map.mp hlater
  rcases mem_cons.mp (BlockDecodeCache.insert_subset hentry) with rfl | hearlier
  · exact hblock
  · exact hagrees kept hkept entry hearlier hpath

/-- Decoding what a block holds, with a cache that agrees. -/
theorem decodeWithCache_agrees {payload : Bytes} {parsed : ParsedBlockHeader}
    (hagrees : Agrees env path file layout cache) (populate : Bool)
    (hread : readBlock env file layout blockIdx=
      decodeBlockPayload env payload parsed (layout.logicalLen blockIdx)) :
    (decodeWithCache env path payload parsed layout blockIdx cache populate).1=
        readBlock env file layout blockIdx ∧ Agrees env path file layout
        (decodeWithCache env path payload parsed layout blockIdx cache populate).2 := by
  unfold decodeWithCache
  dsimp only
  set tag := parsed.logicalChecksum.getD (env.hash payload).toNat
  have hlook := @lookupCached_agrees Path _ env path file layout cache blockIdx tag
    (layout.logicalLen blockIdx) hagrees
  rcases hfirst : lookupCached cache (path,blockIdx,tag) (layout.logicalLen blockIdx) with
      ⟨found,later⟩
  rw [hfirst] at hlook
  cases found with
  | some hit => exact ⟨(hlook.1 hit rfl).symm,hlook.2⟩
  | none =>
    dsimp only
    cases hdecode : decodeBlockPayload env payload parsed (layout.logicalLen blockIdx) with
    | error e =>
      rw [hdecode] at hread
      exact ⟨hread.symm,hlook.2⟩
    | ok decoded =>
      rw [hdecode] at hread
      refine ⟨hread.symm,?_⟩
      cases populate with
      | false => exact hlook.2
      | true => exact hlook.2.insert hread

/-- A cache that agrees changes nothing that a reader sees, and goes on to agree. -/
theorem readBlockFromFile_agrees (hagrees : Agrees env path file layout cache) (populate : Bool) :
    (readBlockFromFile env path file layout blockIdx cache populate).1=
        readBlock env file layout blockIdx ∧ Agrees env path file layout
        (readBlockFromFile env path file layout blockIdx cache populate).2 := by
  have hread := readBlock_eq env file layout blockIdx
  unfold readBlockFromFile
  dsimp only
  split
  · rename_i hbad
    rw [if_pos hbad] at hread
    exact ⟨hread.symm,hagrees⟩
  rename_i hgood
  rw [if_neg hgood] at hread
  split
  · rename_i e hparse
    rw [hparse] at hread
    exact ⟨hread.symm,hagrees⟩
  rename_i parsed hparse
  rw [hparse] at hread
  dsimp only at hread
  -- the look for a checksum finds nothing, or what would be read
  have hlook : (∀ hit,(lookupChecksum path parsed layout blockIdx cache).1=some hit →
      readBlock env file layout blockIdx=.ok hit) ∧
      Agrees env path file layout (lookupChecksum path parsed layout blockIdx cache).2 := by
    unfold lookupChecksum
    split
    · exact ⟨(fun hit h => nomatch h),hagrees⟩
    · exact lookupCached_agrees hagrees
  rcases hfirst : lookupChecksum path parsed layout blockIdx cache with ⟨found,cache⟩
  rw [hfirst] at hlook
  cases found with
  | some hit => exact ⟨(hlook.1 hit rfl).symm,hlook.2⟩
  | none =>
    dsimp only
    split
    · rename_i hshort
      rw [if_pos hshort] at hread
      exact ⟨hread.symm,hlook.2⟩
    · rename_i hlong
      rw [if_neg hlong] at hread
      exact decodeWithCache_agrees hlook.2 populate hread

end Agreement

/-- An environment without dictionaries and shared blocks. -/
def plainEnv : ReadEnv :=
  ⟨plainZstd,plainHash,fun _ => none,none,none⟩

end NebularOs.BlobDecoding
