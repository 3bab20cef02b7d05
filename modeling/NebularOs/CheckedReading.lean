import Mathlib
import NebularOs.BlockReferences
import NebularOs.CheckedSteps
import NebularOs.LayoutAgreement

/-!
# Reading hostile containers

Offsets of a container come from its block table and are added to lengths on 64-bit words.
The functions that read containers are given here once more with every addition,
subtraction, index, slice and reservation checked, as a build that traps overflow runs them.
A table whose offsets leave the words stops some read, and so does an object that is larger
than memory can be. All other tables are read without a fault, and then as in the model that
does not check.
-/

namespace NebularOs.CheckedReading

open ByteFields EngineState BlobFormats SharedBlocks BlobDecoding BodyStreams BlockReferences
  CheckedSteps List

section Layouts

/-- Length of the fixed header and the level it names. -/
def nosiHeaderInfo (data : Bytes) (flags : ℕ) : Checked (ℕ×ℕ) := do
  if flags&&&nosiFlagHasLevel≠0 ∧ fixedHeaderLenV1Level≤data.length then
    let level ← item data 24
    .ok (fixedHeaderLenV1Level,level.toNat)
  else .ok (fixedHeaderLenV1,0)

/-- Entries of a block table, from an offset on. -/
def readIndex (data : Bytes) : ℕ→ℕ→Checked (List IndexEntry)
  | 0,_ => .ok []
  | count+1,pos => do
    let middle ← add pos 8
    let offset ← range pos middle data
    let stop ← add pos 16
    let logicalEnd ← range middle stop data
    let next ← add pos indexEntryLen
    let later ← readIndex data count next
    .ok (⟨fromLe offset,fromLe logicalEnd⟩::later)

/-- The block table behind a fixed header. -/
def parseIndex (data : Bytes) (fixedLen logicalSize : ℕ) :
    Checked (Except String (List IndexEntry)) := do
  let least ← add fixedLen 4
  if data.length<least then .ok (.error "block index truncated")
  else
    let field ← range 16 20 data
    let blockCount := fromLe field
    if maxBlockCount<blockCount then .ok (.error "block count exceeds limit")
    -- The length of the table is computed with checks of the source's own.
    else if wordLimit≤blockCount*indexEntryLen then .ok (.error "block index overflow")
    else if wordLimit≤fixedLen+blockCount*indexEntryLen then .ok (.error "header length overflow")
    else if data.length<fixedLen+blockCount*indexEntryLen then .ok (.error "block index truncated")
    else
      reserve (blockCount*indexEntryLen)
      let index ← readIndex data blockCount fixedLen
      .ok (checkIndex index logicalSize)

/-- Header and block table from bytes. -/
def parseLayoutBytes (data : Bytes) : Checked (Except String BlobLayout) :=
  match detectBlobFormat data with
  | .nosi => do
    if data.length<fixedHeaderLenV1 then .ok (.error "not an indexed blob")
    else
      let logicalSize ← range 4 12 data
      let blockSize ← range 12 16 data
      let dictId ← range 20 22 data
      let flags ← range 22 24 data
      let (fixedLen,zstdLevel) ← nosiHeaderInfo data (fromLe flags)
      match ← parseIndex data fixedLen (fromLe logicalSize) with
      | .error e => .ok (.error e)
      | .ok index =>
        let table ← mul index.length indexEntryLen
        let needed ← add fixedLen table
        .ok (.ok ⟨.v1,fromLe logicalSize,fromLe blockSize,fromLe dictId,fromLe flags,zstdLevel,index,
          needed⟩)
  | .nosb => do
    if data.length<fixedHeaderLen then .ok (.error "not a block-compressed blob")
    else
      let logicalSize ← range 4 12 data
      let blockSize ← range 12 16 data
      match ← parseIndex data fixedHeaderLen (fromLe logicalSize) with
      | .error e => .ok (.error e)
      | .ok index =>
        let table ← mul index.length indexEntryLen
        let needed ← add fixedHeaderLen table
        .ok (.ok ⟨.v0,fromLe logicalSize,fromLe blockSize,0,0,0,index,needed⟩)
  | _ => .ok (.error "not an indexed blob")

/-- Reading the block table behind a fixed header that was read. -/
def readLayoutBehind (header rest : Bytes) : Checked (Except String BlobLayout) := do
  let field ← range 16 20 header
  let blockCount := fromLe field
  if maxBlockCount<blockCount then .ok (.error "block count exceeds limit")
  else
    let table ← mul blockCount indexEntryLen
    let total ← add header.length table
    reserve total
    match readExact table rest with
    | .error e => .ok (.error e)
    | .ok (table,_) => parseLayoutBytes (header++table)

/-- Header and block table from the start of a file, without its blocks. -/
def readBlobLayout (file : Bytes) : Checked (Except String BlobLayout) :=
  match readExact fixedHeaderLen file with
  | .error e => .ok (.error e)
  | .ok (header,rest) =>
    match detectBlobFormat header with
    | .nosb => readLayoutBehind header rest
    | .nosi =>
      match readExact (fixedHeaderLenV1-fixedHeaderLen) rest with
      | .error e => .ok (.error e)
      | .ok (more,rest) => do
        let flags ← range 22 24 (header++more)
        if fromLe flags&&&nosiFlagHasLevel≠0 then
          match readExact (fixedHeaderLenV1Level-fixedHeaderLenV1) rest with
          | .error e => .ok (.error e)
          | .ok (level,rest) => readLayoutBehind (header++more++level) rest
        else readLayoutBehind (header++more) rest
    | _ => .ok (.error "not an indexed blob")

variable (layout : BlobLayout)

/-- Where the chunk of a block begins. -/
def logicalStart (block : ℕ) : Checked ℕ := do
  if block=0 then .ok 0
  else
    let previous ← sub block 1
    let entry ← item layout.index previous
    .ok entry.logicalEnd

/-- Length of the chunk of a block. -/
def logicalLen (block : ℕ) : Checked ℕ := do
  let entry ← item layout.index block
  let start ← logicalStart layout block
  .ok (entry.logicalEnd-start)

/-- The halving search for the block that holds an offset. -/
def searchBlock (offset : ℕ) : ℕ→ℕ→ℕ→Checked ℕ
  | 0,low,_ => .ok low
  | fuel+1,low,high => do
    if low<high then
      let width ← sub high low
      let middle ← add low (width/2)
      let entry ← item layout.index middle
      if offset<entry.logicalEnd then searchBlock offset fuel low middle
      else
        let next ← add middle 1
        searchBlock offset fuel next high
    else .ok low

/-- The block that holds an offset. -/
def blockForOffset (offset : ℕ) : Checked ℕ := do
  if layout.index.isEmpty then .ok 0
  else
    let found ← searchBlock layout offset layout.index.length 0 layout.index.length
    .ok (min found (layout.index.length-1))

/-- Where a block begins in the file. -/
def fileOffsetForBlock (block : ℕ) : Checked ℕ := do
  let entry ← item layout.index block
  add layout.dataOffset entry.compressedOffset

/-- The header of a block at an offset. -/
def parseBlockHeaderAt (blob : Bytes) (offset : ℕ) : Checked (Except String ParsedBlockHeader) := do
  let headerLen := layout.blockHeaderLen
  let stop ← add offset headerLen
  if blob.length<stop then .ok (.error "block header truncated")
  else
    let header ← range offset stop blob
    let blockType ← item header 0
    let payloadLen ← range 4 8 header
    match layout.format with
    | .v0 => .ok (.ok ⟨blockType.toNat,fromLe payloadLen,none,headerLen⟩)
    | .v1 =>
      let checksum ← range 8 16 header
      .ok (.ok ⟨blockType.toNat,fromLe payloadLen,some (fromLe checksum),headerLen⟩)

end Layouts

section Parsing

variable {data : Bytes}

theorem item_byte {index : ℕ} (h : index<data.length) :
    ∃ byte,item data index=.ok byte ∧ byte.toNat=fromLe (slice index 1 data) := by
  refine ⟨data[index],item_eq (List.getElem?_eq_getElem h),?_⟩
  unfold slice
  rw [drop_eq_getElem_cons h]
  exact (Nat.add_zero _).symm

theorem nosiHeaderInfo_eq (data : Bytes) (flags : ℕ) :
    nosiHeaderInfo data flags=.ok (BlobFormats.nosiHeaderInfo data flags) := by
  unfold nosiHeaderInfo BlobFormats.nosiHeaderInfo
  split
  · rename_i hlevel
    obtain ⟨level,hitem,hvalue⟩ := @item_byte data 24 hlevel.2
    rw [hitem,ok_bind,hvalue]
  · rfl

theorem readIndex_eq (hdata : data.length<2^63) (count pos : ℕ)
    (h : pos+count*indexEntryLen≤data.length) :
    readIndex data count pos=.ok (BlobFormats.readIndex count (data.drop pos)) := by
  induction count generalizing pos with
  | zero => rfl
  | succ count ih =>
    unfold indexEntryLen at h
    have hoffset : range pos (pos+8) data=.ok (slice 0 8 (data.drop pos)) := by
      rw [range_eq (by omega) (by omega),Nat.add_sub_cancel_left]
      rfl
    have hend : range (pos+8) (pos+16) data=.ok (slice 8 8 (data.drop pos)) := by
      rw [range_eq (by omega) (by omega)]
      unfold slice
      rw [drop_drop,show pos+16-(pos+8)=8 by omega]
    have hnext : add pos indexEntryLen=.ok (pos+indexEntryLen) :=
      add_eq (by unfold indexEntryLen; omega)
    rw [readIndex,add_eq (by omega),ok_bind,hoffset,ok_bind,add_eq (by omega),ok_bind,hend,ok_bind,
      hnext,ok_bind,ih (pos+indexEntryLen) (by unfold indexEntryLen; omega),ok_bind,
      BlobFormats.readIndex,drop_drop]

theorem parseIndex_eq (hdata : data.length<2^63) {fixedLen : ℕ} (hleast : 16≤fixedLen)
    (hmost : fixedLen≤25) (logicalSize : ℕ) :
    parseIndex data fixedLen logicalSize=.ok (BlobFormats.parseIndex data fixedLen logicalSize) := by
  unfold parseIndex BlobFormats.parseIndex
  rw [add_eq (by omega),ok_bind]
  split
  · rfl
  rename_i hlong
  have hfield : range 16 20 data=.ok (slice 16 4 data) := range_eq (by decide) (by omega)
  rw [hfield,ok_bind]
  dsimp only
  split
  · rfl
  rename_i hcount
  have hbytes : fromLe (slice 16 4 data)*indexEntryLen≤268435456 := by
    unfold maxBlockCount at hcount
    unfold indexEntryLen
    omega
  have hword : wordLimit=2^64 := rfl
  rw [if_neg (show ¬wordLimit≤fromLe (slice 16 4 data)*indexEntryLen by omega),
    if_neg (show ¬wordLimit≤fixedLen+fromLe (slice 16 4 data)*indexEntryLen by omega)]
  split
  · rfl
  rename_i hinside
  rw [reserve_eq (by omega),ok_bind,readIndex_eq hdata _ _ (by omega),ok_bind]

theorem readIndex_length (count : ℕ) (data : Bytes) :
    (BlobFormats.readIndex count data).length=count := by
  induction count generalizing data with
  | zero => rfl
  | succ count ih => rw [BlobFormats.readIndex,length_cons,ih]

theorem parseIndex_length {fixedLen logicalSize : ℕ} {index : List IndexEntry}
    (h : BlobFormats.parseIndex data fixedLen logicalSize=.ok index) :
    index.length ≤ maxBlockCount := by
  obtain ⟨rfl,_⟩ := parseIndex_covers h
  rw [readIndex_length]
  unfold BlobFormats.parseIndex at h
  split at h
  · cases h
  split at h
  · cases h
  rename_i hcount
  exact not_lt.mp hcount

theorem headerLength_eq {fixedLen logicalSize : ℕ} {index : List IndexEntry} (hmost : fixedLen≤25)
    (h : BlobFormats.parseIndex data fixedLen logicalSize=.ok index) :
    mul index.length indexEntryLen=.ok (index.length*indexEntryLen) ∧
      add fixedLen (index.length*indexEntryLen)=.ok (fixedLen+index.length*indexEntryLen) := by
  have hcount := parseIndex_length h
  unfold maxBlockCount at hcount
  unfold indexEntryLen
  exact ⟨mul_eq (by omega),add_eq (by omega)⟩

/-- Headers are parsed without a fault. -/
theorem parseLayoutBytes_eq (hdata : data.length<2^63) :
    parseLayoutBytes data=.ok (BlobFormats.parseLayoutBytes data) := by
  unfold parseLayoutBytes BlobFormats.parseLayoutBytes
  cases detectBlobFormat data with
  | nosi =>
    dsimp only
    split
    · rfl
    rename_i hlong
    unfold fixedHeaderLenV1 at hlong
    have hsize : range 4 12 data=.ok (slice 4 8 data) := range_eq (by decide) (by omega)
    have hblock : range 12 16 data=.ok (slice 12 4 data) := range_eq (by decide) (by omega)
    have hdict : range 20 22 data=.ok (slice 20 2 data) := range_eq (by decide) (by omega)
    have hflags : range 22 24 data=.ok (slice 22 2 data) := range_eq (by decide) (by omega)
    have hfixed : 16≤(BlobFormats.nosiHeaderInfo data (fromLe (slice 22 2 data))).1 ∧
        (BlobFormats.nosiHeaderInfo data (fromLe (slice 22 2 data))).1≤25 := by
      unfold BlobFormats.nosiHeaderInfo
      split
      · exact ⟨show 16≤25 by decide,show 25≤25 by decide⟩
      · exact ⟨show 16≤24 by decide,show 24≤25 by decide⟩
    rw [hsize,ok_bind,hblock,ok_bind,hdict,ok_bind,hflags,ok_bind,nosiHeaderInfo_eq,ok_bind,
      parseIndex_eq hdata hfixed.1 hfixed.2,ok_bind]
    cases hindex : BlobFormats.parseIndex data
        (BlobFormats.nosiHeaderInfo data (fromLe (slice 22 2 data))).1 (fromLe (slice 4 8 data)) with
    | error e => rfl
    | ok index =>
      obtain ⟨htable,hneeded⟩ := headerLength_eq hfixed.2 hindex
      dsimp only
      rw [htable,ok_bind,hneeded,ok_bind]
  | nosb =>
    dsimp only
    split
    · rfl
    rename_i hlong
    unfold fixedHeaderLen at hlong
    have hsize : range 4 12 data=.ok (slice 4 8 data) := range_eq (by decide) (by omega)
    have hblock : range 12 16 data=.ok (slice 12 4 data) := range_eq (by decide) (by omega)
    rw [hsize,ok_bind,hblock,ok_bind,parseIndex_eq hdata (by decide) (by decide),ok_bind]
    cases hindex : BlobFormats.parseIndex data fixedHeaderLen (fromLe (slice 4 8 data)) with
    | error e => rfl
    | ok index =>
      obtain ⟨htable,hneeded⟩ := headerLength_eq (by decide) hindex
      dsimp only
      rw [htable,ok_bind,hneeded,ok_bind]
  | raw | nosz | nos2 | nosd => rfl

theorem readExact_length {count : ℕ} {source : Bytes} {parts : Bytes×Bytes}
    (h : readExact count source=.ok parts) : parts.1.length=count := by
  unfold readExact at h
  split at h
  · cases h
  rename_i hlong
  cases h
  rw [length_take]
  omega

theorem readLayoutBehind_eq {header : Bytes} (rest : Bytes) (hleast : 20≤header.length)
    (hmost : header.length≤25) :
    readLayoutBehind header rest=.ok (BlobFormats.readLayoutBehind header rest) := by
  have hfield : range 16 20 header=.ok (slice 16 4 header) := range_eq (by decide) hleast
  unfold readLayoutBehind BlobFormats.readLayoutBehind
  rw [hfield,ok_bind]
  dsimp only
  split
  · rfl
  rename_i hcount
  have hbytes : fromLe (slice 16 4 header)*indexEntryLen≤268435456 := by
    unfold maxBlockCount at hcount
    unfold indexEntryLen
    omega
  rw [mul_eq (by omega),ok_bind,add_eq (by omega),ok_bind,reserve_eq (by omega),ok_bind]
  cases htable : readExact (fromLe (slice 16 4 header)*indexEntryLen) rest with
  | error e => rfl
  | ok parts =>
    have hlength := readExact_length htable
    exact parseLayoutBytes_eq (by rw [length_append]; omega)

theorem readBlobLayout_eq (file : Bytes) :
    readBlobLayout file=.ok (BlobFormats.readBlobLayout file) := by
  unfold readBlobLayout BlobFormats.readBlobLayout
  cases hheader : readExact fixedHeaderLen file with
  | error e => rfl
  | ok parts =>
    have hfirst : parts.1.length=20 := readExact_length hheader
    dsimp only
    cases detectBlobFormat parts.1 with
    | nosb => exact readLayoutBehind_eq _ (by omega) (by omega)
    | nosi =>
      dsimp only
      cases hmore : readExact (fixedHeaderLenV1-fixedHeaderLen) parts.2 with
      | error e => rfl
      | ok more =>
        have hsecond : more.1.length=4 := readExact_length hmore
        have hjoined : (parts.1++more.1).length=24 := by
          rw [length_append]
          omega
        have hflags : range 22 24 (parts.1++more.1)=.ok (slice 22 2 (parts.1++more.1)) :=
          range_eq (by decide) (by omega)
        dsimp only
        rw [hflags,ok_bind]
        split
        · cases hlevel : readExact (fixedHeaderLenV1Level-fixedHeaderLenV1) more.2 with
          | error e => rfl
          | ok level =>
            have hthird : level.1.length=1 := readExact_length hlevel
            exact readLayoutBehind_eq _ (by rw [length_append]; omega)
              (by rw [length_append]; omega)
        · exact readLayoutBehind_eq _ (by omega) (by omega)
    | raw | nosz | nos2 | nosd => rfl

end Parsing

section Decoding

variable (env : ReadEnv)

/-- The bytes of a block that lie in a blob held in memory. -/
def blockPayload (blob : Bytes) (parsed : ParsedBlockHeader) (fileOffset : ℕ) :
    Checked (Except String Bytes) := do
  let payloadStart ← add fileOffset parsed.headerLen
  if wordLimit≤payloadStart+parsed.payloadLen then .ok (.error "block payload overflow")
  else if blob.length<payloadStart+parsed.payloadLen then .ok (.error "block payload truncated")
  else
    let payload ← range payloadStart (payloadStart+parsed.payloadLen) blob
    .ok (.ok payload)

/-- Most bytes that are reserved before a block is decoded. -/
def maxBlockPrealloc : ℕ := 8*1024*1024

/-- Decoding one frame, up to one byte past the length it should have. That length saturates. -/
def decodeCompressedPayload (payload : Bytes) (expectedLen : ℕ) : Checked (Except String Bytes) := do
  reserve (min expectedLen maxBlockPrealloc)
  .ok (BlobDecoding.decodeCompressedPayload env payload expectedLen)

/-- Logical bytes of the file of a block. -/
def blockContent (name : BlockHash) (data : Bytes) (expectedLen : ℕ) :
    Checked (Except String Bytes) := do
  if blockChunkHeaderLen≤data.length ∧ blockChunkMagic.isPrefixOf data then
    let logicalLen ← range 4 8 data
    if fromLe logicalLen≠expectedLen then
      .ok (.error s!"dedup block logical size mismatch for {hexText name}")
    else
      reserve expectedLen
      let frame ← range blockChunkHeaderLen data.length data
      let limit ← add expectedLen 1
      .ok (decodeUpTo env.zstd [] frame limit)
  else .ok (.ok data)

/-- Reading a shared block and checking it against its hash. -/
def readLogicalBlock (files : BlockFiles) (name : BlockHash) (expectedLen : ℕ) :
    Checked (Except String Bytes) :=
  match files.lookup name with
  | none =>
    .ok (.error s!"missing dedup block {hexText name}: No such file or directory (os error 2)")
  | some data => do
    match ← blockContent env name data expectedLen with
    | .error e => .ok (.error e)
    | .ok block =>
      if block.length≠expectedLen then
        .ok (.error s!"dedup block size mismatch for {hexText name}")
      else if env.hash block≠name then
        .ok (.error s!"dedup block {hexText name} does not match its content hash")
      else .ok (.ok block)

/-- Reading a shared block that a container names. -/
def loadDedupBlock (files : BlockFiles) (name : BlockHash) (expectedLen : ℕ)
    (expectedChecksum : Option ℕ) : Checked (Except String Bytes) := do
  match ← readLogicalBlock env files name expectedLen with
  | .error e => .ok (.error e)
  | .ok data =>
    match verifyChecksum env data expectedChecksum with
    | .error e => .ok (.error e)
    | .ok () => .ok (.ok data)

/-- The chunk of a block, before it is checked. -/
def decodeByType (payload : Bytes) (parsed : ParsedBlockHeader) (expectedLen : ℕ) :
    Checked (Except String Bytes) := do
  if parsed.blockType=blockCompressed then decodeCompressedPayload env payload expectedLen
  else if parsed.blockType=blockStored then .ok (.ok payload)
  else if parsed.blockType=blockDedupRef then
    if payload.length≠12 then .ok (.error "invalid dedup ref")
    else
      let name ← range 0 8 payload
      let size ← range 8 12 payload
      if fromLe size≠expectedLen then .ok (.error "dedup ref size mismatch")
      else match env.blocks with
        | none => .ok (.error "dedup block read requires data_dir")
        | some files =>
          loadDedupBlock env files (UInt64.ofNat (fromLe name)) expectedLen parsed.logicalChecksum
  else .ok (.error s!"unknown block type: {parsed.blockType}")

/-- The chunk of a block, with its length and checksum checked. -/
def decodeBlockPayload (payload : Bytes) (parsed : ParsedBlockHeader) (expectedLen : ℕ) :
    Checked (Except String Bytes) := do
  match ← decodeByType env payload parsed expectedLen with
  | .error e => .ok (.error e)
  | .ok decoded =>
    if decoded.length≠expectedLen then
      .ok (.error s!"block size mismatch: got {decoded.length} expected {expectedLen}")
    else match verifyChecksum env decoded parsed.logicalChecksum with
      | .error e => .ok (.error e)
      | .ok () => .ok (.ok decoded)

variable {Path : Type} [DecidableEq Path] (path : Path)

/-- Decoding a block, unless the cache has it. -/
def decodeWithCache (payload : Bytes) (parsed : ParsedBlockHeader) (layout : BlobLayout)
    (blockIdx : ℕ) (cache : Option (BlockDecodeCache Path)) (populate : Bool) :
    Checked (Except String Bytes×Option (BlockDecodeCache Path)) := do
  let expectedLen ← logicalLen layout blockIdx
  let tag := parsed.logicalChecksum.getD (env.hash payload).toNat
  match lookupCached cache (path,blockIdx,tag) expectedLen with
  | (some hit,cache) => .ok (.ok hit,cache)
  | (none,cache) =>
    match ← decodeBlockPayload env payload parsed expectedLen with
    | .error e => .ok (.error e,cache)
    | .ok decoded =>
      .ok (.ok decoded,
        if populate then cache.map (fun cache => cache.insert (path,blockIdx,tag) decoded) else cache)

end Decoding

section Agreement

variable {env : ReadEnv} {layout : BlobLayout}

theorem blockContent_eq (name : BlockHash) (data : Bytes) {expectedLen : ℕ}
    (h : expectedLen<2^63) : blockContent env name data expectedLen=
      .ok (SharedBlocks.blockContent env.zstd name data expectedLen) := by
  unfold blockContent SharedBlocks.blockContent
  split
  · rename_i hwrapped
    have hlong : 8≤data.length := hwrapped.1
    have hfield : range 4 8 data=.ok (slice 4 4 data) := range_eq (by decide) hlong
    have hframe : range blockChunkHeaderLen data.length data=.ok (data.drop blockChunkHeaderLen) := by
      rw [range_eq hwrapped.1 le_rfl]
      unfold slice
      rw [← length_drop,take_length]
    rw [hfield,ok_bind]
    split
    · rfl
    · rw [reserve_eq h,ok_bind,hframe,ok_bind,add_eq (by omega),ok_bind]
  · rfl

theorem loadDedupBlock_eq (files : BlockFiles) (name : BlockHash) {expectedLen : ℕ}
    (h : expectedLen<2^63) (checksum : Option ℕ) :
    loadDedupBlock env files name expectedLen checksum=
      .ok (BlobDecoding.loadDedupBlock env files name expectedLen checksum) := by
  have hread : readLogicalBlock env files name expectedLen=
      .ok (SharedBlocks.readLogicalBlock env.zstd env.hash files name expectedLen) := by
    unfold readLogicalBlock SharedBlocks.readLogicalBlock
    cases files.lookup name with
    | none => rfl
    | some data =>
      dsimp only
      rw [blockContent_eq name data h,ok_bind]
      cases SharedBlocks.blockContent env.zstd name data expectedLen with
      | error e => rfl
      | ok block =>
        dsimp only
        split
        · rfl
        · split <;> rfl
  unfold loadDedupBlock BlobDecoding.loadDedupBlock
  rw [hread,ok_bind]
  cases SharedBlocks.readLogicalBlock env.zstd env.hash files name expectedLen with
  | error e => rfl
  | ok data =>
    dsimp only
    cases verifyChecksum env data checksum <;> rfl

theorem decodeBlockPayload_eq (payload : Bytes) (parsed : ParsedBlockHeader) (expectedLen : ℕ) :
    decodeBlockPayload env payload parsed expectedLen=
      .ok (BlobDecoding.decodeBlockPayload env payload parsed expectedLen) := by
  have htype : decodeByType env payload parsed expectedLen=
      .ok (BlobDecoding.decodeByType env payload parsed expectedLen) := by
    unfold decodeByType BlobDecoding.decodeByType
    split
    · unfold decodeCompressedPayload maxBlockPrealloc
      rw [reserve_eq (by omega),ok_bind]
    split
    · rfl
    split
    · split
      · rfl
      rename_i hlength
      rw [not_not] at hlength
      have hname : range 0 8 payload=.ok (slice 0 8 payload) := range_eq (by decide) (by omega)
      have hsize : range 8 12 payload=.ok (slice 8 4 payload) := range_eq (by decide) (by omega)
      have hbound : fromLe (slice 8 4 payload)<256^4 := by
        have hlt := fromLe_lt (slice 8 4 payload)
        rwa [slice_length (by omega)] at hlt
      rw [hname,ok_bind,hsize,ok_bind]
      split
      · rfl
      rename_i hexpected
      rw [not_not] at hexpected
      cases env.blocks with
      | none => rfl
      | some files => exact loadDedupBlock_eq files _ (by omega) _
    · rfl
  unfold decodeBlockPayload BlobDecoding.decodeBlockPayload
  rw [htype,ok_bind]
  cases BlobDecoding.decodeByType env payload parsed expectedLen with
  | error e => rfl
  | ok decoded =>
    dsimp only
    split
    · rfl
    · cases verifyChecksum env decoded parsed.logicalChecksum <;> rfl

theorem logicalStart_eq {block : ℕ} (h : block≤layout.blockCount) :
    logicalStart layout block=.ok (layout.logicalStart block) := by
  unfold logicalStart BlobLayout.logicalStart
  split
  · rfl
  rename_i hblock
  have hinside : block-1<layout.index.length := by
    unfold BlobLayout.blockCount at h
    omega
  have hentry : layout.index[block-1]?=some layout.index[block-1] := List.getElem?_eq_getElem hinside
  rw [sub_eq (by omega),ok_bind,item_eq hentry,ok_bind,hentry]
  rfl

theorem logicalLen_eq {block : ℕ} (h : block<layout.blockCount) :
    logicalLen layout block=.ok (layout.logicalLen block) := by
  have hentry : layout.index[block]?=some layout.index[block] := List.getElem?_eq_getElem h
  unfold logicalLen BlobLayout.logicalLen BlobLayout.logicalEnd
  rw [item_eq hentry,ok_bind,logicalStart_eq h.le,ok_bind,hentry]
  rfl

variable {Path : Type} [DecidableEq Path] {path : Path}

theorem decodeWithCache_eq (payload : Bytes) (parsed : ParsedBlockHeader) {blockIdx : ℕ}
    (h : blockIdx<layout.blockCount) (cache : Option (BlockDecodeCache Path)) (populate : Bool) :
    decodeWithCache env path payload parsed layout blockIdx cache populate=
      .ok (BlobDecoding.decodeWithCache env path payload parsed layout blockIdx cache populate) := by
  unfold decodeWithCache BlobDecoding.decodeWithCache
  rw [logicalLen_eq h,ok_bind]
  dsimp only
  rcases lookupCached cache (path,blockIdx,parsed.logicalChecksum.getD (env.hash payload).toNat)
      (layout.logicalLen blockIdx) with ⟨hit,later⟩
  cases hit with
  | some block => rfl
  | none =>
    dsimp only
    rw [decodeBlockPayload_eq,ok_bind]
    cases BlobDecoding.decodeBlockPayload env payload parsed (layout.logicalLen blockIdx) <;> rfl

/-- Where a block begins, before it is made a word. -/
def offsetOf (layout : BlobLayout) (block : ℕ) : ℕ :=
  layout.dataOffset+(layout.index[block]?.map IndexEntry.compressedOffset).getD 0

theorem fileOffsetForBlock_eq {block : ℕ} (h : block<layout.blockCount)
    (hword : offsetOf layout block<2^64) :
    fileOffsetForBlock layout block=.ok (layout.fileOffsetForBlock block) ∧
      layout.fileOffsetForBlock block=offsetOf layout block := by
  have hentry : layout.index[block]?=some layout.index[block] := List.getElem?_eq_getElem h
  have hmodel : layout.fileOffsetForBlock block=offsetOf layout block := Nat.mod_eq_of_lt hword
  rw [hmodel]
  refine ⟨?_,rfl⟩
  unfold offsetOf at hword ⊢
  rw [hentry] at hword ⊢
  unfold fileOffsetForBlock
  rw [item_eq hentry,ok_bind]
  exact add_eq hword

theorem fileOffsetForBlock_overflow {block : ℕ} (h : block<layout.blockCount)
    (hword : 2^64≤offsetOf layout block) : fileOffsetForBlock layout block=.error .overflow := by
  have hentry : layout.index[block]?=some layout.index[block] := List.getElem?_eq_getElem h
  unfold offsetOf at hword
  rw [hentry] at hword
  unfold fileOffsetForBlock
  rw [item_eq hentry,ok_bind]
  exact add_overflow hword

theorem parseBlockHeaderAt_eq (blob : Bytes) {offset : ℕ} (h : offset+layout.blockHeaderLen<2^64) :
    parseBlockHeaderAt layout blob offset=.ok (BlobFormats.parseBlockHeaderAt blob offset layout) := by
  unfold parseBlockHeaderAt BlobFormats.parseBlockHeaderAt
  dsimp only
  rw [add_eq h,ok_bind]
  split
  · rfl
  rename_i hlong
  have hheader : range offset (offset+layout.blockHeaderLen) blob=
      .ok (slice offset layout.blockHeaderLen blob) := by
    rw [range_eq (by omega) (by omega),Nat.add_sub_cancel_left]
  have hlength : (slice offset layout.blockHeaderLen blob).length=layout.blockHeaderLen :=
    slice_length (by omega)
  have hleast : 8≤layout.blockHeaderLen := by
    unfold BlobLayout.blockHeaderLen
    cases layout.format <;> decide
  obtain ⟨byte,hbyte,hvalue⟩ := @item_byte (slice offset layout.blockHeaderLen blob) 0
    (by omega)
  have hpayload : range 4 8 (slice offset layout.blockHeaderLen blob)=
      .ok (slice 4 4 (slice offset layout.blockHeaderLen blob)) := range_eq (by decide) (by omega)
  rw [hheader,ok_bind,hbyte,ok_bind,hpayload,ok_bind,hvalue]
  cases hformat : layout.format with
  | v0 => rfl
  | v1 =>
    have hsixteen : layout.blockHeaderLen=16 := by
      unfold BlobLayout.blockHeaderLen
      rw [hformat]
      rfl
    have hchecksum : range 8 16 (slice offset layout.blockHeaderLen blob)=
        .ok (slice 8 8 (slice offset layout.blockHeaderLen blob)) := range_eq (by decide) (by omega)
    dsimp only
    rw [hchecksum,ok_bind]

end Agreement

section InMemory

/-- Reading one block of a blob held in memory. -/
def readBlockPayloadBytes (env : ReadEnv) (blob : Bytes) (layout : BlobLayout) (blockIdx : ℕ) :
    Checked (Except String Bytes) := do
  let fileOffset ← fileOffsetForBlock layout blockIdx
  match ← parseBlockHeaderAt layout blob fileOffset with
  | .error e => .ok (.error e)
  | .ok parsed =>
    match ← blockPayload blob parsed fileOffset with
    | .error e => .ok (.error e)
    | .ok payload =>
      let decoded ← decodeWithCache env () payload parsed layout blockIdx none true
      .ok decoded.1

/-- Decoding a container held in memory. -/
def decompressIndexedBlob (env : ReadEnv) (blob : Bytes) (expectedSize : ℕ) :
    Checked (Except String Bytes) := do
  match ← parseLayoutBytes blob with
  | .error e => .ok (.error e)
  | .ok layout =>
    if layout.logicalSize≠expectedSize then
      .ok (.error
        s!"blob header size mismatch: header={layout.logicalSize} metadata={expectedSize}")
    else
      reserve expectedSize
      match ← walk (readBlockPayloadBytes env blob layout) (List.range layout.blockCount) with
      | .error e => .ok (.error e)
      | .ok blocks => .ok (.ok blocks.flatten)

/-- Decoding a blob held in memory. -/
def decompressBlob (env : ReadEnv) (blob : Bytes) (expectedSize : ℕ) : Checked (Except String Bytes) :=
  match detectBlobFormat blob with
  | .raw => .ok (.ok blob)
  | .nosd => .ok (.error "decompress_blob called on dedup manifest")
  | .nosb => decompressIndexedBlob env blob expectedSize
  | .nosi => decompressIndexedBlob env blob expectedSize
  | .nosz => .ok (decompressZstdBlob env blob expectedSize)
  | .nos2 => .ok (decompressZstdBlob env blob expectedSize)

/-- Checking every block of a container held in memory. -/
def verifyIndexedBlob (env : ReadEnv) (blob : Bytes) (expectedSize : ℕ) :
    Checked (Except String Unit) := do
  match ← parseLayoutBytes blob with
  | .error e => .ok (.error e)
  | .ok layout =>
    if layout.logicalSize≠expectedSize then
      .ok (.error
        s!"blob header size mismatch: header={layout.logicalSize} metadata={expectedSize}")
    else
      match ← walk (readBlockPayloadBytes env blob layout) (List.range layout.blockCount) with
      | .error e => .ok (.error e)
      | .ok _ => .ok (.ok ())

/-- The shared block that a block of a container names, if it does. -/
def dedupRefAt (data : Bytes) (layout : BlobLayout) (blockIdx : ℕ) :
    Checked (Except String (Option BlockRef)) := do
  let fileOffset ← fileOffsetForBlock layout blockIdx
  match ← parseBlockHeaderAt layout data fileOffset with
  | .error e => .ok (.error e)
  | .ok parsed =>
    if parsed.blockType≠blockDedupRef then .ok (.ok none)
    else
      let payloadStart ← add fileOffset parsed.headerLen
      let payloadStop ← add payloadStart parsed.payloadLen
      if data.length<payloadStop then .ok (.error "dedup ref truncated")
      else
        let payload ← range payloadStart payloadStop data
        if payload.length≠12 then .ok (.error "invalid dedup ref payload")
        else
          let name ← range 0 8 payload
          let size ← range 8 12 payload
          .ok (.ok (some (UInt64.ofNat (fromLe name),fromLe size)))

/-- Shared blocks that a blob names. -/
def collectDedupRefs (data : Bytes) : Checked (Except String (List BlockRef)) :=
  match detectBlobFormat data with
  | .nosd => do
    let logical ← range 4 12 data
    .ok (parseDedupManifest data (fromLe logical))
  | .nosi => do
    match ← parseLayoutBytes data with
    | .error e => .ok (.error e)
    | .ok layout =>
      if !usesDedupBlocks layout then .ok (.ok [])
      else
        match ← walk (dedupRefAt data layout) (List.range layout.blockCount) with
        | .error e => .ok (.error e)
        | .ok found => .ok (.ok found.reduceOption)
  | _ => .ok (.ok [])

/-- Where a block ends: at the next one, or with the file. -/
def blockStop (layout : BlobLayout) (fileLen blockIdx : ℕ) : Checked ℕ := do
  let next ← add blockIdx 1
  if next<layout.blockCount then fileOffsetForBlock layout next else .ok fileLen

/-- Whether every block of a container lies in its file and has room for a header. -/
def indexedExtentsFit (layout : BlobLayout) (expectedSize fileLen : ℕ) : Checked Bool :=
  if layout.logicalSize≠expectedSize then .ok false
  else all (fun blockIdx => do
    let start ← fileOffsetForBlock layout blockIdx
    let stop ← blockStop layout fileLen blockIdx
    -- The end of the header saturates.
    .ok (decide (min (start+layout.blockHeaderLen) (wordLimit-1) ≤ stop ∧ stop≤fileLen)))
    (List.range layout.blockCount)

variable {env : ReadEnv} {data : Bytes} {layout : BlobLayout} {block : ℕ}

theorem parseBlockHeaderAt_within {offset : ℕ} {parsed : ParsedBlockHeader}
    (h : BlobFormats.parseBlockHeaderAt data offset layout=.ok parsed) :
    parsed.headerLen=layout.blockHeaderLen ∧ offset+layout.blockHeaderLen≤data.length ∧
      parsed.payloadLen<2^32 := by
  unfold BlobFormats.parseBlockHeaderAt at h
  dsimp only at h
  split at h
  · cases h
  rename_i hlong
  cases h
  refine ⟨rfl,not_lt.mp hlong,?_⟩
  have hfield := fromLe_lt (slice 4 4 (slice offset layout.blockHeaderLen data))
  have hshort : (slice 4 4 (slice offset layout.blockHeaderLen data)).length≤4 :=
    length_take_le _ _
  exact hfield.trans_le (Nat.pow_le_pow_right (by decide) hshort)

theorem blockPayload_eq (hdata : data.length<2^63) {offset : ℕ} {parsed : ParsedBlockHeader}
    (h : BlobFormats.parseBlockHeaderAt data offset layout=.ok parsed) :
    blockPayload data parsed offset=.ok (BlobDecoding.blockPayload data parsed offset) := by
  obtain ⟨hheader,hinside,hpayload⟩ := parseBlockHeaderAt_within h
  have hword : wordLimit=2^64 := rfl
  unfold blockPayload BlobDecoding.blockPayload
  rw [add_eq (by omega),ok_bind,if_neg (by omega)]
  split
  · rfl
  · rw [range_eq (by omega) (by omega),ok_bind,Nat.add_sub_cancel_left]

section Steps

variable (hdata : data.length<2^63) (hblock : block<layout.blockCount)
include hdata hblock

theorem readBlockPayloadBytes_eq (hword : offsetOf layout block+layout.blockHeaderLen<2^64) :
    readBlockPayloadBytes env data layout block=
      .ok (BlobDecoding.readBlockPayloadBytes env data layout block) := by
  obtain ⟨hoffset,hsame⟩ := fileOffsetForBlock_eq hblock (by omega)
  unfold readBlockPayloadBytes BlobDecoding.readBlockPayloadBytes
  rw [hoffset,ok_bind,parseBlockHeaderAt_eq data (by rw [hsame]; exact hword),ok_bind]
  dsimp only
  cases hparse : BlobFormats.parseBlockHeaderAt data (layout.fileOffsetForBlock block) layout with
  | error e => rfl
  | ok parsed =>
    dsimp only
    rw [blockPayload_eq hdata hparse,ok_bind]
    cases BlobDecoding.blockPayload data parsed (layout.fileOffsetForBlock block) with
    | error e => rfl
    | ok payload =>
      dsimp only
      rw [decodeWithCache_eq payload parsed hblock,ok_bind]

theorem dedupRefAt_eq (hword : offsetOf layout block+layout.blockHeaderLen<2^64) :
    dedupRefAt data layout block=.ok (BlockReferences.dedupRefAt data layout block) := by
  obtain ⟨hoffset,hsame⟩ := fileOffsetForBlock_eq hblock (by omega)
  unfold dedupRefAt BlockReferences.dedupRefAt
  rw [hoffset,ok_bind,parseBlockHeaderAt_eq data (by rw [hsame]; exact hword),ok_bind]
  dsimp only
  cases hparse : BlobFormats.parseBlockHeaderAt data (layout.fileOffsetForBlock block) layout with
  | error e => rfl
  | ok parsed =>
    obtain ⟨hheader,hinside,hpayload⟩ := parseBlockHeaderAt_within hparse
    dsimp only
    split
    · rfl
    rw [add_eq (by omega),ok_bind,add_eq (by omega),ok_bind]
    split
    · rfl
    rw [range_eq (by omega) (by omega),ok_bind,Nat.add_sub_cancel_left]
    split
    · rfl
    rename_i hlength
    rw [not_not] at hlength
    have hname := @range_eq 0 8 _ (show 0≤8 by decide) (hlength ▸ (by decide : 8≤12))
    have hsize := @range_eq 8 12 _ (show 8≤12 by decide) hlength.ge
    rw [hname,ok_bind,hsize,ok_bind]

end Steps

end InMemory

end NebularOs.CheckedReading
