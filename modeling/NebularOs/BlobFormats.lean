import Mathlib
import NebularOs.ByteFields

/-!
# Formats of stored blobs

A blob is told apart by its first bytes: the object's own bytes, an indexed
container with a block table, a single compressed stream of an earlier release,
or a manifest of shared blocks. An indexed container begins with a fixed header,
the table of its blocks and then the blocks, each behind a header of its own.
-/

namespace NebularOs.BlobFormats

open ByteFields List

/-- Magic of a compressed blob of the first release. -/
def blobMagic : Bytes := [0x4E, 0x4F, 0x53, 0x5A]

/-- Its header: the magic and the logical size. -/
def headerLen : ℕ := 12

/-- Magic of a compressed blob that names its dictionary and level. -/
def blobMagicV2 : Bytes := [0x4E, 0x4F, 0x53, 0x32]

/-- Its header. -/
def headerLenV2 : ℕ := 16

/-- Magic of a manifest of shared blocks. -/
def dedupMagic : Bytes := [0x4E, 0x4F, 0x53, 0x44]

/-- Its header: the magic, the logical size and the number of blocks. -/
def dedupHeaderLen : ℕ := 16

/-- One block of a manifest: its hash and its length. -/
def dedupEntryLen : ℕ := 12

/-- Magic of the first indexed format. -/
def nosbMagic : Bytes := [0x4E, 0x4F, 0x53, 0x42]

/-- Its fixed header. -/
def fixedHeaderLen : ℕ := 20

/-- Header of its blocks. -/
def blockHeaderLen : ℕ := 8

/-- Magic of the indexed format of new writes. -/
def nosiMagic : Bytes := [0x4E, 0x4F, 0x53, 0x49]

/-- Its fixed header without a level. -/
def fixedHeaderLenV1 : ℕ := 24

/-- Its fixed header with the level. -/
def fixedHeaderLenV1Level : ℕ := 25

/-- Header of its blocks, with a checksum. -/
def blockHeaderLenV1 : ℕ := 16

/-- A block that holds a compressed chunk. -/
def blockCompressed : ℕ := 0

/-- A block that holds a chunk as it is. -/
def blockStored : ℕ := 1

/-- A block that names a shared block. -/
def blockDedupRef : ℕ := 2

/-- Flag of containers whose blocks may be shared ones. -/
def nosiFlagDedup : ℕ := 1

/-- Flag of containers that name their level. -/
def nosiFlagHasLevel : ℕ := 0x8000

/-- One entry of the block table. -/
def indexEntryLen : ℕ := 16

/-- Most blocks that a reader accepts. -/
def maxBlockCount : ℕ := 16777216

/-- Formats of a stored blob. -/
inductive BlobFormat
  | raw
  | nosz
  | nos2
  | nosd
  | nosb
  | nosi
  deriving DecidableEq

/-- The format that the first bytes of a blob announce. -/
def detectBlobFormat (data : Bytes) : BlobFormat :=
  if headerLen≤data.length ∧ nosiMagic.isPrefixOf data then .nosi
  else if headerLen≤data.length ∧ nosbMagic.isPrefixOf data then .nosb
  else if headerLen≤data.length ∧ blobMagic.isPrefixOf data then .nosz
  else if headerLenV2≤data.length ∧ blobMagicV2.isPrefixOf data then .nos2
  else if dedupHeaderLen≤data.length ∧ dedupMagic.isPrefixOf data then .nosd
  else .raw

/-- The format a stored blob is read as. A file of the object's own size whose
header names another size is a raw upload that happens to start with a magic. -/
def storedBlobFormat (head : Bytes) (fileLen logicalSize : ℕ) : BlobFormat :=
  let format := detectBlobFormat head
  if format≠.raw ∧ fileLen=logicalSize ∧ 12≤head.length ∧ fromLe (slice 4 8 head)≠logicalSize then
    .raw
  else format

/-- An entry of the block table: where a block begins behind the header, and where
its chunk ends in the object. -/
structure IndexEntry where
  /-- Offset of the block. -/
  compressedOffset : ℕ
  /-- End of its chunk. -/
  logicalEnd : ℕ
  deriving DecidableEq

/-- The two indexed formats. -/
inductive IndexedFormat
  | v0
  | v1
  deriving DecidableEq

/-- Header and block table of an indexed blob. -/
structure BlobLayout where
  /-- Which indexed format it is. -/
  format : IndexedFormat
  /-- Size of the object. -/
  logicalSize : ℕ
  /-- Size of its chunks. -/
  blockSize : ℕ
  /-- Dictionary that the writer used. -/
  dictId : ℕ
  /-- Flags. -/
  flags : ℕ
  /-- Level that the writer used. -/
  zstdLevel : ℕ
  /-- The block table. -/
  index : List IndexEntry
  /-- Where the blocks begin. -/
  dataOffset : ℕ
  deriving DecidableEq

/-- Length of the fixed header and the level it names. -/
def nosiHeaderInfo (data : Bytes) (flags : ℕ) : ℕ×ℕ :=
  if flags&&&nosiFlagHasLevel≠0 ∧ fixedHeaderLenV1Level≤data.length then
    (fixedHeaderLenV1Level,fromLe (slice 24 1 data))
  else (fixedHeaderLenV1,0)

namespace BlobLayout

/-- Length of a block's header. -/
def blockHeaderLen (layout : BlobLayout) : ℕ :=
  match layout.format with
  | .v0 => BlobFormats.blockHeaderLen
  | .v1 => blockHeaderLenV1

/-- Number of blocks. -/
def blockCount (layout : BlobLayout) : ℕ :=
  layout.index.length

/-- Where the chunk of a block begins. -/
def logicalStart (layout : BlobLayout) (block : ℕ) : ℕ :=
  if block=0 then 0
  else (layout.index[block-1]?.map IndexEntry.logicalEnd).getD 0

/-- Where the chunk of a block ends. -/
def logicalEnd (layout : BlobLayout) (block : ℕ) : ℕ :=
  (layout.index[block]?.map IndexEntry.logicalEnd).getD 0

/-- Length of the chunk of a block. -/
def logicalLen (layout : BlobLayout) (block : ℕ) : ℕ :=
  layout.logicalEnd block-layout.logicalStart block

/-- The halving search for the block that holds an offset: the first one that ends
behind it. -/
def searchBlock (layout : BlobLayout) (offset : ℕ) : ℕ→ℕ→ℕ→ℕ
  | 0,low,_ => low
  | fuel+1,low,high =>
    if low<high then
      let middle := low+(high-low)/2
      if offset<layout.logicalEnd middle then searchBlock layout offset fuel low middle
      else searchBlock layout offset fuel (middle+1) high
    else low

/-- The block that holds an offset. -/
def blockForOffset (layout : BlobLayout) (offset : ℕ) : ℕ :=
  if layout.index.isEmpty then 0
  else min (searchBlock layout offset layout.index.length 0 layout.index.length)
    (layout.index.length-1)

/-- Where a block begins in the file, as a 64-bit number. -/
def fileOffsetForBlock (layout : BlobLayout) (block : ℕ) : ℕ :=
  (layout.dataOffset+(layout.index[block]?.map IndexEntry.compressedOffset).getD 0)%2^64

end BlobLayout

/-- Header of a block. -/
structure ParsedBlockHeader where
  /-- How the block holds its chunk. -/
  blockType : ℕ
  /-- Length of its bytes. -/
  payloadLen : ℕ
  /-- Checksum of the chunk, in the newer format. -/
  logicalChecksum : Option ℕ
  /-- Length of the header. -/
  headerLen : ℕ
  deriving DecidableEq

/-- A table in which chunks grow within the object and offsets do not go back. -/
def validateIndex (logicalSize : ℕ) : ℕ→ℕ → List IndexEntry→Except String Unit
  | _,_,[] => .ok ()
  | prevLogical,prevCompressed,entry::entries =>
    if entry.logicalEnd≤prevLogical ∨ logicalSize<entry.logicalEnd then
      .error "invalid index logical_end"
    else if entry.compressedOffset<prevCompressed then .error "invalid index compressed_offset"
    else validateIndex logicalSize entry.logicalEnd entry.compressedOffset entries

/-- Reading entries of the block table. -/
def readIndex : ℕ→Bytes → List IndexEntry
  | 0,_ => []
  | count+1,data =>
    ⟨fromLe (slice 0 8 data),fromLe (slice 8 8 data)⟩::readIndex count (data.drop indexEntryLen)

/-- Checking a block table against the size of the object. -/
def checkIndex (index : List IndexEntry) (logicalSize : ℕ) : Except String (List IndexEntry) :=
  match validateIndex logicalSize 0 0 index with
  | .error e => .error e
  | .ok () =>
    match index.getLast? with
    | some last =>
      if last.logicalEnd≠logicalSize then
        .error s!"index logical_end mismatch: index={last.logicalEnd} header={logicalSize}"
      else .ok index
    | none => if logicalSize≠0 then .error "empty index for non-empty object" else .ok index

/-- The block table behind a fixed header. -/
def parseIndex (data : Bytes) (fixedLen logicalSize : ℕ) : Except String (List IndexEntry) :=
  if data.length<fixedLen+4 then .error "block index truncated"
  else if maxBlockCount<fromLe (slice 16 4 data) then .error "block count exceeds limit"
  else if data.length<fixedLen+fromLe (slice 16 4 data)*indexEntryLen then
    .error "block index truncated"
  else checkIndex (readIndex (fromLe (slice 16 4 data)) (data.drop fixedLen)) logicalSize

/-- Header and block table from bytes. -/
def parseLayoutBytes (data : Bytes) : Except String BlobLayout :=
  match detectBlobFormat data with
  | .nosi =>
    if data.length<fixedHeaderLenV1 then .error "not an indexed blob"
    else
      let logicalSize := fromLe (slice 4 8 data)
      let flags := fromLe (slice 22 2 data)
      let (fixedLen,zstdLevel) := nosiHeaderInfo data flags
      match parseIndex data fixedLen logicalSize with
      | .error e => .error e
      | .ok index => .ok ⟨.v1,logicalSize,fromLe (slice 12 4 data),fromLe (slice 20 2 data),flags,
          zstdLevel,index,fixedLen+index.length*indexEntryLen⟩
  | .nosb =>
    if data.length<fixedHeaderLen then .error "not a block-compressed blob"
    else
      let logicalSize := fromLe (slice 4 8 data)
      match parseIndex data fixedHeaderLen logicalSize with
      | .error e => .error e
      | .ok index => .ok ⟨.v0,logicalSize,fromLe (slice 12 4 data),0,0,0,index,
          fixedHeaderLen+index.length*indexEntryLen⟩
  | _ => .error "not an indexed blob"

/-- Reading exactly some bytes: they and what follows. -/
def readExact (count : ℕ) (source : Bytes) : Except String (Bytes×Bytes) :=
  if source.length<count then .error "failed to fill whole buffer"
  else .ok (source.take count,source.drop count)

/-- Reading the block table behind a fixed header that was read. -/
def readLayoutBehind (header rest : Bytes) : Except String BlobLayout :=
  let blockCount := fromLe (slice 16 4 header)
  if maxBlockCount<blockCount then .error "block count exceeds limit"
  else match readExact (blockCount*indexEntryLen) rest with
    | .error e => .error e
    | .ok (table,_) => parseLayoutBytes (header++table)

/-- Header and block table from the start of a file, without its blocks. -/
def readBlobLayout (file : Bytes) : Except String BlobLayout :=
  match readExact fixedHeaderLen file with
  | .error e => .error e
  | .ok (header,rest) =>
    match detectBlobFormat header with
    | .nosb => readLayoutBehind header rest
    | .nosi =>
      match readExact (fixedHeaderLenV1-fixedHeaderLen) rest with
      | .error e => .error e
      | .ok (more,rest) =>
        let header := header++more
        if fromLe (slice 22 2 header)&&&nosiFlagHasLevel≠0 then
          match readExact (fixedHeaderLenV1Level-fixedHeaderLenV1) rest with
          | .error e => .error e
          | .ok (level,rest) => readLayoutBehind (header++level) rest
        else readLayoutBehind header rest
    | _ => .error "not an indexed blob"

/-- The size that the header of a compressed blob names. -/
def readBlobLogicalSize (file : Bytes) : Except String ℕ :=
  let header := file.take headerLenV2
  match detectBlobFormat header with
  | .raw => .error "not a compressed blob"
  | .nosd => .error "not a compressed blob"
  | _ => .ok (fromLe (slice 4 8 header))

/-- Bytes of an entry of the block table. -/
def writeIndexEntry (entry : IndexEntry) : Bytes :=
  le 8 entry.compressedOffset++le 8 entry.logicalEnd

/-- Header and block table of new writes. -/
def writeBlobHeaderV1 (logicalSize blockSize : ℕ) (index : List IndexEntry)
    (dictId flags zstdLevel : ℕ) : Bytes :=
  nosiMagic++le 8 logicalSize++le 4 blockSize++le 4 index.length++le 2 dictId++
    le 2 (flags|||nosiFlagHasLevel)++le 1 zstdLevel++index.flatMap writeIndexEntry

/-- Header of a block of new writes. -/
def writeBlockHeaderV1 (blockType payloadLen logicalChecksum : ℕ) : Bytes :=
  le 1 blockType++[0, 0, 0]++le 4 payloadLen++le 8 logicalChecksum

/-- The header of a block at an offset. -/
def parseBlockHeaderAt (blob : Bytes) (offset : ℕ) (layout : BlobLayout) :
    Except String ParsedBlockHeader :=
  let headerLen := layout.blockHeaderLen
  if blob.length<offset+headerLen then .error "block header truncated"
  else
    let header := slice offset headerLen blob
    .ok ⟨fromLe (slice 0 1 header),fromLe (slice 4 4 header),
      match layout.format with
      | .v0 => none
      | .v1 => some (fromLe (slice 8 8 header)),
      headerLen⟩

section Detection

variable {data rest : Bytes}

theorem detectBlobFormat_take {count : ℕ} (h : 16 ≤ count) :
    detectBlobFormat (data.take count)=detectBlobFormat data := by
  have hbegins : ∀ magic : Bytes,magic.length≤16 →
      (magic.isPrefixOf (data.take count)=true ↔ magic.isPrefixOf data=true) := by
    intro magic hmagic
    rw [List.isPrefixOf_iff_prefix,List.isPrefixOf_iff_prefix]
    exact ⟨fun hle => hle.trans (List.take_prefix _ _),
      fun hle => prefix_take_iff.mpr ⟨hle,by omega⟩⟩
  have hlength : ∀ least : ℕ,least≤16 →
      (least≤(data.take count).length ↔ least≤data.length) := by
    intro least hleast
    rw [length_take]
    omega
  unfold detectBlobFormat
  simp only [hlength headerLen (by decide),hlength headerLenV2 (by decide),
    hlength dedupHeaderLen (by decide),hbegins nosiMagic (by decide),hbegins nosbMagic (by decide),
    hbegins blobMagic (by decide),hbegins blobMagicV2 (by decide),hbegins dedupMagic (by decide)]

theorem detectBlobFormat_nosi (hlength : 12≤data.length) (hmagic : nosiMagic<+:data) :
    detectBlobFormat data=.nosi :=
  if_pos ⟨hlength,List.isPrefixOf_iff_prefix.mpr hmagic⟩

end Detection

section Headers

variable {logicalSize blockSize count dictId flags zstdLevel : ℕ} {index : List IndexEntry}
  {rest : Bytes}

/-- The fixed header of new writes, before the block table. -/
def fixedHeader (logicalSize blockSize count dictId flags zstdLevel : ℕ) : Bytes :=
  nosiMagic++(le 8 logicalSize++(le 4 blockSize++(le 4 count++(le 2 dictId++
    (le 2 (flags|||nosiFlagHasLevel)++le 1 zstdLevel)))))

theorem writeBlobHeaderV1_eq : writeBlobHeaderV1 logicalSize blockSize index dictId flags zstdLevel=
    fixedHeader logicalSize blockSize index.length dictId flags zstdLevel++
      index.flatMap writeIndexEntry := by
  unfold writeBlobHeaderV1 fixedHeader
  simp only [append_assoc]

theorem fixedHeader_length :
    (fixedHeader logicalSize blockSize count dictId flags zstdLevel).length=25 := by
  simp [fixedHeader,nosiMagic]

theorem fields_of_fixed (rest : Bytes) :
    slice 4 8 (fixedHeader logicalSize blockSize count dictId flags zstdLevel++rest)=
      le 8 logicalSize ∧
    slice 12 4 (fixedHeader logicalSize blockSize count dictId flags zstdLevel++rest)=
      le 4 blockSize ∧
    slice 16 4 (fixedHeader logicalSize blockSize count dictId flags zstdLevel++rest)=le 4 count ∧
    slice 20 2 (fixedHeader logicalSize blockSize count dictId flags zstdLevel++rest)=le 2 dictId ∧
    slice 22 2 (fixedHeader logicalSize blockSize count dictId flags zstdLevel++rest)=
      le 2 (flags|||nosiFlagHasLevel) ∧
    slice 24 1 (fixedHeader logicalSize blockSize count dictId flags zstdLevel++rest)=
      le 1 zstdLevel := by
  exact ⟨rfl,rfl,rfl,rfl,rfl,rfl⟩

theorem nosiMagic_prefix_fixedHeader :
    nosiMagic<+:fixedHeader logicalSize blockSize count dictId flags zstdLevel :=
  prefix_append _ _

theorem writeIndexEntry_length (entry : IndexEntry) :
    (writeIndexEntry entry).length=indexEntryLen := by
  simp [writeIndexEntry,indexEntryLen]

theorem readIndex_cons (entry : IndexEntry) (index : List IndexEntry) (rest : Bytes) :
    readIndex (entry::index).length ((entry::index).flatMap writeIndexEntry++rest)=
      ⟨fromLe (le 8 entry.compressedOffset),fromLe (le 8 entry.logicalEnd)⟩::
        readIndex index.length (index.flatMap writeIndexEntry++rest) := by
  rw [flatMap_cons,append_assoc,length_cons,readIndex,drop_left' (writeIndexEntry_length entry)]
  rfl

theorem readIndex_flatMap (hentries : ∀ entry∈index,
      entry.compressedOffset<256^8 ∧ entry.logicalEnd<256^8) (rest : Bytes) :
    readIndex index.length (index.flatMap writeIndexEntry++rest)=index := by
  induction index with
  | nil => rfl
  | cons entry index ih =>
    have hentry := hentries entry mem_cons_self
    rw [readIndex_cons,fromLe_le_of_lt hentry.1,fromLe_le_of_lt hentry.2,
      ih fun other hother => hentries other (mem_cons_of_mem _ hother)]

theorem flatMap_writeIndexEntry_length (index : List IndexEntry) :
    (index.flatMap writeIndexEntry).length=index.length*indexEntryLen := by
  induction index with
  | nil => rfl
  | cons entry index ih =>
    rw [flatMap_cons,length_append,ih,writeIndexEntry_length,length_cons]
    ring

theorem hasLevel_of_written (flags : ℕ) :
    fromLe (le 2 (flags|||nosiFlagHasLevel))&&&nosiFlagHasLevel≠0 := by
  have hread : fromLe (le 2 (flags|||nosiFlagHasLevel))=(flags|||nosiFlagHasLevel)%2^16 := by
    rw [fromLe_le]
    norm_num
  have hbit : (fromLe (le 2 (flags|||nosiFlagHasLevel))&&&nosiFlagHasLevel).testBit 15=true := by
    rw [hread,Nat.testBit_and,Nat.testBit_mod_two_pow,Nat.testBit_or]
    have hflag : nosiFlagHasLevel.testBit 15=true := by decide
    rw [hflag]
    simp
  intro hzero
  rw [hzero,Nat.zero_testBit] at hbit
  cases hbit

theorem readBlobLayout_fixed (rest : Bytes) :
    readBlobLayout (fixedHeader logicalSize blockSize count dictId flags zstdLevel++rest)=
      readLayoutBehind (fixedHeader logicalSize blockSize count dictId flags zstdLevel) rest := by
  set fixed := fixedHeader logicalSize blockSize count dictId flags zstdLevel with hfixed
  have hlength : fixed.length=25 := fixedHeader_length
  have htake : (fixed++rest).take 20=fixed.take 20 := rfl
  have hdrop : (fixed++rest).drop 20=fixed.drop 20++rest := rfl
  have hdetect : detectBlobFormat (fixed.take 20)=.nosi := by
    rw [detectBlobFormat_take (by decide)]
    exact detectBlobFormat_nosi (by omega) nosiMagic_prefix_fixedHeader
  have hmore : ((fixed.drop 20++rest).take 4)=(fixed.drop 20).take 4 := rfl
  have hbehind : (fixed.drop 20++rest).drop 4=fixed.drop 24++rest := rfl
  have hhead : fixed.take 20++(fixed.drop 20).take 4=fixed.take 24 := rfl
  have hflags : slice 22 2 (fixed.take 24)=le 2 (flags|||nosiFlagHasLevel) := rfl
  have hlevel : (fixed.drop 24++rest).take 1=fixed.drop 24 := rfl
  have hend : (fixed.drop 24++rest).drop 1=rest := rfl
  unfold readBlobLayout readExact fixedHeaderLen fixedHeaderLenV1 fixedHeaderLenV1Level
  rw [if_neg (by rw [length_append]; omega)]
  dsimp only
  rw [htake,hdrop,hdetect]
  rw [if_neg (by rw [length_append,length_drop]; omega)]
  dsimp only
  rw [hmore,hbehind,hhead,hflags,if_pos (hasLevel_of_written flags),
    if_neg (by rw [length_append,length_drop]; omega)]
  dsimp only
  rw [hlevel,hend,take_append_drop]

/-- A block table that a reader accepts for an object. -/
structure ValidIndex (logicalSize : ℕ) (index : List IndexEntry) : Prop where
  /-- Chunks grow within the object and offsets do not go back. -/
  validated : validateIndex logicalSize 0 0 index=.ok ()
  /-- The last chunk ends the object. -/
  covers : (index.getLast?.map IndexEntry.logicalEnd).getD 0=logicalSize
  /-- Offsets and ends fit their fields. -/
  bounded : ∀ entry∈index,entry.compressedOffset<256^8 ∧ entry.logicalEnd<256^8

/-- Values of a header that fit their fields. -/
structure FitsHeader (logicalSize blockSize dictId flags zstdLevel : ℕ) : Prop where
  /-- Size of the object. -/
  logicalSize : logicalSize<256^8
  /-- Size of a chunk. -/
  blockSize : blockSize<256^4
  /-- Name of the dictionary. -/
  dictId : dictId<256^2
  /-- Flags with the level flag. -/
  flags : flags|||nosiFlagHasLevel<256^2
  /-- The level. -/
  zstdLevel : zstdLevel<256^1

/-- What a reader makes of the header of new writes. -/
def writtenLayout (logicalSize blockSize : ℕ) (index : List IndexEntry)
    (dictId flags zstdLevel : ℕ) : BlobLayout :=
  ⟨.v1,logicalSize,blockSize,dictId,flags|||nosiFlagHasLevel,zstdLevel,index,
    fixedHeaderLenV1Level+index.length*indexEntryLen⟩

/-- Bytes that begin with a written fixed header are parsed as far as their table. -/
theorem parseLayoutBytes_fixed (hsize : logicalSize<256^8) (rest : Bytes) :
    parseLayoutBytes (fixedHeader logicalSize blockSize count dictId flags zstdLevel++rest)=
      match parseIndex (fixedHeader logicalSize blockSize count dictId flags zstdLevel++rest)
          fixedHeaderLenV1Level logicalSize with
      | .error e => .error e
      | .ok index => .ok ⟨.v1,logicalSize,fromLe (le 4 blockSize),fromLe (le 2 dictId),
          fromLe (le 2 (flags|||nosiFlagHasLevel)),fromLe (le 1 zstdLevel),index,
          fixedHeaderLenV1Level+index.length*indexEntryLen⟩ := by
  have hlength := @fixedHeader_length logicalSize blockSize count dictId flags zstdLevel
  set data := fixedHeader logicalSize blockSize count dictId flags zstdLevel++rest with hdata
  have hlong : 25≤data.length := by
    rw [hdata,length_append]
    omega
  obtain ⟨hsizeField,hblock,_,hdict,hflags,hlevel⟩ :=
    @fields_of_fixed logicalSize blockSize count dictId flags zstdLevel rest
  have hdetect : detectBlobFormat data=.nosi :=
    detectBlobFormat_nosi (by omega)
      (nosiMagic_prefix_fixedHeader.trans (prefix_append _ _))
  have hinfo : nosiHeaderInfo data (fromLe (slice 22 2 data))=
      (fixedHeaderLenV1Level,fromLe (le 1 zstdLevel)) := by
    unfold nosiHeaderInfo
    rw [hflags,if_pos ⟨hasLevel_of_written flags,hlong⟩,hlevel]
  have hnotShort : ¬data.length<fixedHeaderLenV1 := by
    unfold fixedHeaderLenV1
    omega
  unfold parseLayoutBytes
  rw [hdetect]
  dsimp only
  rw [if_neg hnotShort,hinfo,hsizeField,hblock,hdict,hflags,fromLe_le_of_lt hsize]

theorem checkIndex_valid (hvalid : ValidIndex logicalSize index) :
    checkIndex index logicalSize=.ok index := by
  have hcovers := hvalid.covers
  unfold checkIndex
  rw [hvalid.validated]
  cases hlast : index.getLast? with
  | some last =>
    rw [hlast] at hcovers
    exact if_neg (not_not.mpr hcovers)
  | none =>
    rw [hlast] at hcovers
    exact if_neg (not_not.mpr hcovers.symm)

theorem checkIndex_covers {accepted : List IndexEntry}
    (h : checkIndex index logicalSize=.ok accepted) :
    accepted=index ∧ (index.getLast?.map IndexEntry.logicalEnd).getD 0=logicalSize := by
  unfold checkIndex at h
  split at h
  · cases h
  split at h
  · rename_i last hlast
    split at h
    · cases h
    rename_i hends
    rw [hlast]
    exact ⟨(Except.ok.inj h).symm,not_not.mp hends⟩
  · rename_i hnone
    split at h
    · cases h
    rename_i hzero
    rw [hnone]
    exact ⟨(Except.ok.inj h).symm,(not_not.mp hzero).symm⟩

/-- The table behind a written header is accepted. -/
theorem parseIndex_written (hcount : index.length ≤ maxBlockCount) (hnonempty : index≠[])
    (hvalid : ValidIndex logicalSize index) (rest : Bytes) :
    parseIndex (fixedHeader logicalSize blockSize index.length dictId flags zstdLevel++
      (index.flatMap writeIndexEntry++rest)) fixedHeaderLenV1Level logicalSize=.ok index := by
  have hlength := @fixedHeader_length logicalSize blockSize index.length dictId flags zstdLevel
  have htable := flatMap_writeIndexEntry_length index
  have hpositive := length_pos_iff.mpr hnonempty
  have hfield := (@fields_of_fixed logicalSize blockSize index.length dictId flags zstdLevel
    (index.flatMap writeIndexEntry++rest)).2.2.1
  have hcountRead : fromLe (le 4 index.length)=index.length :=
    fromLe_le_of_lt (hcount.trans_lt (by decide))
  have hdrop : (fixedHeader logicalSize blockSize index.length dictId flags zstdLevel++
      (index.flatMap writeIndexEntry++rest)).drop fixedHeaderLenV1Level=
        index.flatMap writeIndexEntry++rest := drop_left' hlength
  have hlong : fixedHeaderLenV1Level+index.length*indexEntryLen ≤
      (fixedHeader logicalSize blockSize index.length dictId flags zstdLevel++
        (index.flatMap writeIndexEntry++rest)).length := by
    rw [length_append,length_append,hlength,htable]
    unfold fixedHeaderLenV1Level
    omega
  have hfour : 4 ≤ index.length*indexEntryLen := by
    unfold indexEntryLen
    omega
  unfold parseIndex
  rw [hfield,hcountRead,if_neg (by omega),if_neg (by omega),if_neg (by omega),hdrop,
    readIndex_flatMap hvalid.bounded rest]
  exact checkIndex_valid hvalid

theorem parseLayoutBytes_written (hfits : FitsHeader logicalSize blockSize dictId flags zstdLevel)
    (hcount : index.length ≤ maxBlockCount) (hnonempty : index≠[])
    (hvalid : ValidIndex logicalSize index) (rest : Bytes) :
    parseLayoutBytes (writeBlobHeaderV1 logicalSize blockSize index dictId flags zstdLevel++rest)=
      .ok (writtenLayout logicalSize blockSize index dictId flags zstdLevel) := by
  rw [writeBlobHeaderV1_eq,append_assoc,parseLayoutBytes_fixed hfits.logicalSize,
    parseIndex_written hcount hnonempty hvalid]
  rw [fromLe_le_of_lt hfits.blockSize,fromLe_le_of_lt hfits.dictId,fromLe_le_of_lt hfits.flags,
    fromLe_le_of_lt hfits.zstdLevel]
  rfl

theorem readBlobLayout_written (hfits : FitsHeader logicalSize blockSize dictId flags zstdLevel)
    (hcount : index.length ≤ maxBlockCount) (hnonempty : index≠[])
    (hvalid : ValidIndex logicalSize index) (rest : Bytes) :
    readBlobLayout (writeBlobHeaderV1 logicalSize blockSize index dictId flags zstdLevel++rest)=
      .ok (writtenLayout logicalSize blockSize index dictId flags zstdLevel) := by
  have htable := flatMap_writeIndexEntry_length index
  have hfield : slice 16 4 (fixedHeader logicalSize blockSize index.length dictId flags zstdLevel)=
      le 4 index.length := rfl
  have hcountRead : fromLe (le 4 index.length)=index.length :=
    fromLe_le_of_lt (hcount.trans_lt (by decide))
  have hexact : readExact (index.length*indexEntryLen) (index.flatMap writeIndexEntry++rest)=
      .ok (index.flatMap writeIndexEntry,rest) := by
    unfold readExact
    rw [if_neg (by rw [length_append,htable]; omega),take_left' htable,
      drop_left' htable]
  have hparsed := @parseLayoutBytes_written logicalSize blockSize dictId flags zstdLevel index
    hfits hcount hnonempty hvalid []
  rw [append_nil,writeBlobHeaderV1_eq] at hparsed
  rw [writeBlobHeaderV1_eq,append_assoc,readBlobLayout_fixed]
  unfold readLayoutBehind
  rw [hfield,hcountRead]
  dsimp only
  rwa [if_neg (by omega),hexact]

theorem readIndex_ends (hends : ∀ entry∈index,entry.logicalEnd<256^8) (rest : Bytes) :
    (readIndex index.length (index.flatMap writeIndexEntry++rest)).map IndexEntry.logicalEnd=
      index.map IndexEntry.logicalEnd := by
  induction index with
  | nil => rfl
  | cons entry index ih =>
    rw [readIndex_cons,map_cons,map_cons,fromLe_le_of_lt (hends entry mem_cons_self),
      ih fun other hother => hends other (mem_cons_of_mem _ hother)]

theorem parseIndex_covers {data : Bytes} {fixedLen : ℕ}
    (h : parseIndex data fixedLen logicalSize=.ok index) :
    index=readIndex (fromLe (slice 16 4 data)) (data.drop fixedLen) ∧
      (index.getLast?.map IndexEntry.logicalEnd).getD 0=logicalSize := by
  unfold parseIndex at h
  split at h
  · cases h
  split at h
  · cases h
  split at h
  · cases h
  obtain ⟨rfl,hcovers⟩ := checkIndex_covers h
  exact ⟨rfl,hcovers⟩

theorem flatMap_writeIndexEntry_take (index : List IndexEntry) (upto : ℕ) (rest : Bytes)
    (h : upto ≤ index.length) : (index.flatMap writeIndexEntry++rest).take (upto*indexEntryLen)=
      (index.take upto).flatMap writeIndexEntry := by
  have hsplit : index.flatMap writeIndexEntry=
      (index.take upto).flatMap writeIndexEntry++(index.drop upto).flatMap writeIndexEntry := by
    rw [← flatMap_append,take_append_drop]
  have hlength : ((index.take upto).flatMap writeIndexEntry).length=upto*indexEntryLen := by
    rw [flatMap_writeIndexEntry_length,length_take,Nat.min_eq_left h]
  rw [hsplit,append_assoc,take_left' hlength]

theorem getLast?_take_lt {ends : List ℕ} {upto total : ℕ} (hgrow : ends.Pairwise (· < ·))
    (hlast : ends.getLast?=some total) (hpositive : 0<total) (hupto : upto<ends.length) :
    (ends.take upto).getLast?.getD 0<total := by
  cases hshort : (ends.take upto).getLast? with
  | none => exact hpositive
  | some last =>
    obtain ⟨before,hsplit⟩ := List.getLast?_eq_some_iff.mp hlast
    have hmem : last∈ends.take upto := mem_of_getLast? hshort
    have hprefixed : ends.take upto=before.take upto := by
      rw [hsplit] at hupto ⊢
      rw [length_append,length_singleton] at hupto
      exact take_append_of_le_length (by omega)
    rw [hprefixed] at hmem
    rw [hsplit] at hgrow
    exact (pairwise_append.mp hgrow).2.2 last (mem_of_mem_take hmem) total
      mem_cons_self

/-- A file with more blocks than a reader accepts is refused: the number of blocks
that its header names is over the limit, or it was cut off and the table read ends
before the object does. -/
theorem readBlobLayout_refuses (hmany : maxBlockCount < index.length)
    (hsize : logicalSize<256^8) (hpositive : 0<logicalSize)
    (hgrow : (index.map IndexEntry.logicalEnd).Pairwise (· < ·))
    (hlast : (index.map IndexEntry.logicalEnd).getLast?=some logicalSize)
    (hends : ∀ entry∈index,entry.logicalEnd≤logicalSize) (rest : Bytes) (layout : BlobLayout) :
    readBlobLayout (writeBlobHeaderV1 logicalSize blockSize index dictId flags zstdLevel++rest)≠
      .ok layout := by
  intro hread
  have hfield : slice 16 4 (fixedHeader logicalSize blockSize index.length dictId flags zstdLevel)=
      le 4 index.length := rfl
  rw [writeBlobHeaderV1_eq,append_assoc,readBlobLayout_fixed] at hread
  unfold readLayoutBehind at hread
  rw [hfield] at hread
  set upto := fromLe (le 4 index.length) with hupto
  dsimp only at hread
  split at hread
  · cases hread
  rename_i hfew
  have hfewer : upto < index.length := by omega
  have htable := flatMap_writeIndexEntry_take index upto rest hfewer.le
  have hexact : readExact (upto*indexEntryLen) (index.flatMap writeIndexEntry++rest)=
      .ok ((index.take upto).flatMap writeIndexEntry,
        (index.flatMap writeIndexEntry++rest).drop (upto*indexEntryLen)) := by
    have hlong : ¬(index.flatMap writeIndexEntry++rest).length<upto*indexEntryLen := by
      have hle := Nat.mul_le_mul_right indexEntryLen hfewer.le
      rw [length_append,flatMap_writeIndexEntry_length]
      omega
    unfold readExact
    rw [if_neg hlong,htable]
  rw [hexact] at hread
  dsimp only at hread
  rw [parseLayoutBytes_fixed hsize] at hread
  split at hread
  · cases hread
  rename_i accepted haccepted
  obtain ⟨hindex,hcovers⟩ := parseIndex_covers haccepted
  have hcountField := (@fields_of_fixed logicalSize blockSize index.length dictId flags zstdLevel
    ((index.take upto).flatMap writeIndexEntry)).2.2.1
  have hdrop : (fixedHeader logicalSize blockSize index.length dictId flags zstdLevel++
      (index.take upto).flatMap writeIndexEntry).drop fixedHeaderLenV1Level=
        (index.take upto).flatMap writeIndexEntry := drop_left' fixedHeader_length
  have htaken : (index.take upto).length=upto := by
    rw [length_take]
    omega
  have hbounded : ∀ entry∈index.take upto,entry.logicalEnd<256^8 := fun entry hentry =>
    (hends entry (mem_of_mem_take hentry)).trans_lt hsize
  have hreadEnds := readIndex_ends hbounded []
  rw [append_nil,htaken] at hreadEnds
  rw [hcountField,← hupto,hdrop] at hindex
  rw [hindex,← List.getLast?_map,hreadEnds,map_take] at hcovers
  have hlt := getLast?_take_lt hgrow hlast hpositive
    (show upto<(index.map IndexEntry.logicalEnd).length by rwa [length_map])
  omega

end Headers

end NebularOs.BlobFormats
