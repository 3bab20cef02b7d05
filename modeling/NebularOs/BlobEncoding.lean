import Mathlib
import NebularOs.Chunks
import NebularOs.Compressibility
import NebularOs.SharedBlocks

/-!
# The encoder of stored blobs

A payload is stored as it is, or as a container of blocks: it is read in chunks of
one size, each is shared, compressed or kept, and the blocks are written behind
room for the header, which is written last. A payload that begins like one of the
formats is always put into a container, because readers go by the first bytes.

The container is described apart from the loop that writes it: a list of chunks
with their blocks, whose table lists running offsets and ends.
-/

namespace NebularOs.BlobEncoding

open ByteFields EngineState BlobFormats SharedBlocks Compressibility Chunks List

/-- Options of the encoder. -/
structure EncodeOptions where
  /-- Name of the dictionary, kept in the header. -/
  dictId : UInt16
  /-- Dictionary for new frames. -/
  dict : Option Bytes
  /-- Chunks are shared through the block store. -/
  dedup : Bool

/-- Requests to the disk that fail while a payload is encoded. -/
structure DiskErrors where
  /-- Opening or reading the payload. -/
  read : Option String
  /-- Storing a shared block. -/
  store : BlockHash→Option String
  /-- Writing a block of the container, by its number. -/
  write : ℕ→Option String
  /-- Writing the header. -/
  header : Option String
  /-- Moving the finished container to its place. -/
  rename : Option String

/-- No request fails. -/
def DiskErrors.none : DiskErrors :=
  ⟨.none,fun _ => .none,fun _ => .none,.none,.none⟩

/-- A chunk as it goes into a container. -/
structure LogicalBlock where
  /-- Shared, compressed or kept. -/
  blockType : ℕ
  /-- Bytes behind its header. -/
  payload : Bytes
  /-- Checksum of the chunk, or the hash of the shared block. -/
  checksum : BlockHash
  deriving DecidableEq

/-- How a payload was stored. -/
inductive FileEncoding
  | raw
  | indexed (refs : List BlockRef)
  deriving DecidableEq

/-- What the encoder leaves behind. -/
structure EncodeResult where
  /-- What it returns. -/
  outcome : Except String FileEncoding
  /-- The file at the output path. -/
  out : Option Bytes
  /-- The files of the block store. -/
  files : BlockFiles

/-- Working values of the loop over the chunks. -/
structure Progress where
  /-- The block table so far. -/
  index : List IndexEntry
  /-- Shared blocks that the container names. -/
  refs : List BlockRef
  /-- Bytes behind the header. -/
  data : Bytes
  /-- Bytes of the payload that were encoded. -/
  logicalEnd : ℕ
  /-- The files of the block store. -/
  files : BlockFiles

/-- A payload that a reader would take for a container. -/
def rawWouldBeMisread (head : Bytes) : Bool :=
  detectBlobFormat (head.take fixedHeaderLenV1)≠.raw

section Encoder

variable (zstd : Zstd) (hash : Bytes→BlockHash) (disk : DiskErrors) (level : ℤ)
  (opts : EncodeOptions)

/-- Compressing a chunk, unless that does not make it smaller. -/
def compressBlock (chunk : Bytes) : Except String (ℕ×Bytes) :=
  match zstd.compress (clampZstdLevel level) (opts.dict.filter fun dict => !dict.isEmpty) chunk with
  | .error e => .error e
  | .ok compressed =>
    if compressed.length<chunk.length then .ok (blockCompressed,compressed)
    else .ok (blockStored,chunk)

/-- A chunk that stays in its container. -/
def encodeOwnBlock (chunk : Bytes) : Except String LogicalBlock :=
  match compressBlock zstd level opts chunk with
  | .error e => .error e
  | .ok (blockType,payload) => .ok ⟨blockType,payload,hash chunk⟩

/-- Sharing a chunk through the block store, or else keeping it in the container. -/
def encodeLogicalBlock (files : BlockFiles) (chunk : Bytes) :
    Except String LogicalBlock×BlockFiles :=
  if opts.dedup then
    match storeBlock zstd hash files chunk level (disk.store (hash chunk)) with
    | (.error e,files) => (.error e,files)
    | (.ok (some name),files) =>
      (.ok ⟨blockDedupRef,le 8 name.toNat++le 4 chunk.length,name⟩,files)
    | (.ok none,files) => (encodeOwnBlock zstd hash level opts chunk,files)
  else (encodeOwnBlock zstd hash level opts chunk,files)

/-- Header and bytes of a block. -/
def LogicalBlock.bytes (block : LogicalBlock) : Bytes :=
  writeBlockHeaderV1 block.blockType block.payload.length block.checksum.toNat++block.payload

/-- The loop's working values after one more block. -/
def Progress.add (progress : Progress) (chunk : Bytes) (block : LogicalBlock) (files : BlockFiles) :
    Progress :=
  ⟨progress.index++[⟨progress.data.length,progress.logicalEnd+chunk.length⟩],
    if block.blockType=blockDedupRef then progress.refs++[(block.checksum,chunk.length)]
    else progress.refs,
    progress.data++block.bytes,progress.logicalEnd+chunk.length,files⟩

/-- The loop over what the payload is read in, up to its stated size. -/
def encodeChunks (logicalSize : ℕ) : List Bytes→Progress→Except String Progress×BlockFiles
  | [],progress => (.ok progress,progress.files)
  | chunk::chunks,progress =>
    if progress.logicalEnd<logicalSize then
      match encodeLogicalBlock zstd hash disk level opts progress.files chunk with
      | (.error e,files) => (.error e,files)
      | (.ok block,files) =>
        match disk.write progress.index.length with
        | some e => (.error e,files)
        | none => encodeChunks logicalSize chunks (progress.add chunk block files)
    else (.ok progress,progress.files)

/-- Flags of the container's header. -/
def headerFlags : ℕ :=
  if opts.dedup then nosiFlagDedup else 0

/-- Writing at the start of a file. -/
def writeAtStart (file bytes : Bytes) : Bytes :=
  bytes++file.drop bytes.length

/-- Writing blocks behind room for the header, and then the header, from what the reads
of the payload fill the buffer with. The result is the length, the shared blocks and the
file. -/
def encodeFillsToFile (fills : List Bytes) (logicalSize blockSize : ℕ) (files : BlockFiles) :
    Except String (ℕ×List BlockRef×Bytes)×BlockFiles :=
  let blockCount := (logicalSize+blockSize-1)/blockSize
  let headerLen := fixedHeaderLenV1Level+blockCount*indexEntryLen
  match encodeChunks zstd hash disk level opts logicalSize fills ⟨[],[],[],0,files⟩ with
  | (.error e,files) => (.error e,files)
  | (.ok progress,files) =>
    if progress.logicalEnd≠logicalSize ∨ progress.index.length≠blockCount then
      (.error s!"block encoder size mismatch: encoded={progress.logicalEnd} expected={logicalSize}",
        files)
    else match disk.header with
      | some e => (.error e,files)
      | none =>
        let header := writeBlobHeaderV1 logicalSize blockSize progress.index opts.dictId.toNat
          (headerFlags opts) (clampZstdLevel level).toNat
        (.ok (headerLen+progress.data.length,progress.refs,
          writeAtStart (List.replicate headerLen 0++progress.data) header),files)

/-- Writing the blocks of a payload that is read in chunks of one size. -/
def encodeBlocksToFile (source : Bytes) (logicalSize blockSize : ℕ) (files : BlockFiles) :
    Except String (ℕ×List BlockRef×Bytes)×BlockFiles :=
  encodeFillsToFile zstd hash disk level opts (chunks blockSize source) logicalSize blockSize files

/-- Encoding a payload into a container, or finding that it is stored as it is, from its
first bytes and what the reads fill the buffer with. -/
def encodeFillsForStorage (head : Bytes) (fills : ℕ → List Bytes) (logicalSize blockSize : ℕ)
    (ctx : CompressionContext) (files : BlockFiles) : EncodeResult :=
  match disk.read with
  | some e => ⟨.error e,none,files⟩
  | none =>
    let mustWrap := rawWouldBeMisread head
    if !mustWrap && !shouldAttemptCompression ctx then ⟨.ok .raw,none,files⟩
    else if !mustWrap && !opts.dedup && prefixLooksIncompressible (head.take 16) then
      ⟨.ok .raw,none,files⟩
    else match encodeFillsToFile zstd hash disk level opts (fills (max blockSize 4096)) logicalSize
        (max blockSize 4096) files with
      | (.error e,files) => ⟨.error e,none,files⟩
      | (.ok (totalLen,refs,part),files) =>
        if !mustWrap && !opts.dedup && decide (logicalSize≤totalLen) then ⟨.ok .raw,none,files⟩
        else match disk.rename with
          | some e => ⟨.error e,none,files⟩
          | none => ⟨.ok (.indexed refs),some part,files⟩

/-- Encoding a payload that is read in chunks of one size. -/
def encodeFileForStorage (source : Bytes) (logicalSize blockSize : ℕ) (ctx : CompressionContext)
    (files : BlockFiles) : EncodeResult :=
  encodeFillsForStorage zstd hash disk level opts (source.take fixedHeaderLenV1)
    (fun blockSize => chunks blockSize source) logicalSize blockSize ctx files

end Encoder

/-- A chunk and the block that it became. -/
abbrev Piece := Bytes×LogicalBlock

/-- Bytes of the blocks. -/
def dataOf (pieces : List Piece) : Bytes :=
  pieces.flatMap fun piece => piece.2.bytes

/-- Bytes of the chunks. -/
def contentOf (pieces : List Piece) : Bytes :=
  pieces.flatMap Prod.fst

/-- Shared blocks that the pieces name. -/
def refsOf (pieces : List Piece) : List BlockRef :=
  pieces.filterMap fun piece =>
    if piece.2.blockType=blockDedupRef then some (piece.2.checksum,piece.1.length) else none

/-- The block table of pieces, with the offset and the start of the first. -/
def indexFrom : ℕ→ℕ → List Piece → List IndexEntry
  | _,_,[] => []
  | offset,start,piece::pieces =>
    ⟨offset,start+piece.1.length⟩::
      indexFrom (offset+piece.2.bytes.length) (start+piece.1.length) pieces

section Tables

variable {offset start logicalSize : ℕ} {pieces : List Piece}

@[simp]
theorem dataOf_cons (piece : Piece) (pieces : List Piece) :
    dataOf (piece::pieces)=piece.2.bytes++dataOf pieces := rfl

@[simp]
theorem contentOf_cons (piece : Piece) (pieces : List Piece) :
    contentOf (piece::pieces)=piece.1++contentOf pieces := rfl

theorem contentOf_eq (pieces : List Piece) : contentOf pieces=(pieces.map Prod.fst).flatten :=
  flatMap_def

@[simp]
theorem indexFrom_length : (indexFrom offset start pieces).length=pieces.length := by
  induction pieces generalizing offset start with
  | nil => rfl
  | cons piece pieces ih =>
    unfold indexFrom
    rw [length_cons,ih,length_cons]

theorem indexFrom_append (before after : List Piece) :
    indexFrom offset start (before++after)=indexFrom offset start before++
      indexFrom (offset+(dataOf before).length) (start+(contentOf before).length) after := by
  induction before generalizing offset start with
  | nil => rfl
  | cons piece before ih =>
    simp only [cons_append,indexFrom,ih,dataOf_cons,contentOf_cons,length_append,
      Nat.add_assoc]

theorem mem_indexFrom {entry : IndexEntry} (hfilled : ∀ piece∈pieces,piece.1≠[])
    (h : entry∈indexFrom offset start pieces) :
    start<entry.logicalEnd ∧ entry.logicalEnd ≤ start+(contentOf pieces).length ∧
      offset≤entry.compressedOffset ∧ entry.compressedOffset≤offset+(dataOf pieces).length := by
  induction pieces generalizing offset start with
  | nil => cases h
  | cons piece pieces ih =>
    have hpositive := length_pos_iff.mpr (hfilled piece mem_cons_self)
    rw [contentOf_cons,dataOf_cons,length_append,length_append]
    rcases mem_cons.mp h with rfl | hlater
    · dsimp only
      omega
    · have hbound := ih (fun other hother => hfilled other (mem_cons_of_mem _ hother)) hlater
      omega

theorem validateIndex_indexFrom {prevCompressed : ℕ} (hfilled : ∀ piece∈pieces,piece.1≠[])
    (hsize : start+(contentOf pieces).length≤logicalSize) (hoffset : prevCompressed≤offset) :
    validateIndex logicalSize start prevCompressed (indexFrom offset start pieces)=.ok () := by
  induction pieces generalizing offset start prevCompressed with
  | nil => rfl
  | cons piece pieces ih =>
    have hpositive := length_pos_iff.mpr (hfilled piece mem_cons_self)
    rw [contentOf_cons,length_append] at hsize
    unfold indexFrom validateIndex
    dsimp only
    rw [if_neg (by omega),if_neg (by omega)]
    exact ih (fun other hother => hfilled other (mem_cons_of_mem _ hother)) (by omega)
      (Nat.le_add_right _ _)

theorem indexFrom_getLast? (h : pieces≠[]) :
    ((indexFrom offset start pieces).map IndexEntry.logicalEnd).getLast?=
      some (start+(contentOf pieces).length) := by
  obtain ⟨before,last,rfl⟩ := eq_nil_or_concat' pieces |>.resolve_left h
  rw [indexFrom_append,map_append]
  simp [indexFrom,contentOf,Nat.add_assoc]

theorem indexFrom_ends_grow (hfilled : ∀ piece∈pieces,piece.1≠[]) :
    ((indexFrom offset start pieces).map IndexEntry.logicalEnd).Pairwise (· < ·) := by
  induction pieces generalizing offset start with
  | nil => exact List.Pairwise.nil
  | cons piece pieces ih =>
    have hrest : ∀ other∈pieces,other.1≠[] := fun other hother =>
      hfilled other (mem_cons_of_mem _ hother)
    unfold indexFrom
    rw [map_cons,pairwise_cons]
    refine ⟨?_,ih hrest⟩
    intro later hlater
    obtain ⟨entry,hentry,rfl⟩ := mem_map.mp hlater
    exact (mem_indexFrom hrest hentry).1

theorem indexFrom_valid (hfilled : ∀ piece∈pieces,piece.1≠[])
    (hcontent : (contentOf pieces).length<256^8) (hdata : (dataOf pieces).length<256^8) :
    ValidIndex (contentOf pieces).length (indexFrom 0 0 pieces) := by
  refine ⟨validateIndex_indexFrom hfilled (by omega) le_rfl,?_,?_⟩
  · by_cases hpieces : pieces=[]
    · rw [hpieces]
      rfl
    · rw [← List.getLast?_map,indexFrom_getLast? hpieces]
      exact Nat.zero_add _
  · intro entry hentry
    have hbound := mem_indexFrom hfilled hentry
    omega

end Tables

section Written

variable {zstd : Zstd} {hash : Bytes→BlockHash} {disk : DiskErrors} {level : ℤ}
  {opts : EncodeOptions} {files files' : BlockFiles} {chunk : Bytes} {block : LogicalBlock}

@[simp]
theorem LogicalBlock.bytes_length (block : LogicalBlock) :
    block.bytes.length=blockHeaderLenV1+block.payload.length := by
  unfold LogicalBlock.bytes writeBlockHeaderV1 blockHeaderLenV1
  simp only [length_append,le_length,length_cons,length_nil]

theorem encodeOwnBlock_cases (h : encodeOwnBlock zstd hash level opts chunk=.ok block) :
    block.checksum=hash chunk ∧ ((block.blockType=blockStored ∧ block.payload=chunk) ∨
        (block.blockType=blockCompressed ∧ block.payload.length<chunk.length ∧
          zstd.compress (clampZstdLevel level) (opts.dict.filter fun dict => !dict.isEmpty) chunk=
            .ok block.payload)) := by
  unfold encodeOwnBlock compressBlock at h
  cases hcompress : zstd.compress (clampZstdLevel level)
      (opts.dict.filter fun dict => !dict.isEmpty) chunk with
  | error e =>
    rw [hcompress] at h
    cases h
  | ok compressed =>
    rw [hcompress] at h
    dsimp only at h
    by_cases hsmaller : compressed.length<chunk.length
    · rw [if_pos hsmaller] at h
      cases h
      exact ⟨rfl,Or.inr ⟨rfl,hsmaller,rfl⟩⟩
    · rw [if_neg hsmaller] at h
      cases h
      exact ⟨rfl,Or.inl ⟨rfl,rfl⟩⟩

theorem encodeLogicalBlock_payload_length
    (h : encodeLogicalBlock zstd hash disk level opts files chunk=(.ok block,files')) :
    block.payload.length ≤ chunk.length+12 := by
  have hown : encodeOwnBlock zstd hash level opts chunk=.ok block →
      block.payload.length ≤ chunk.length+12 := by
    intro hblock
    rcases (encodeOwnBlock_cases hblock).2 with ⟨_,hkept⟩ | ⟨_,hshorter,_⟩
    · rw [hkept]
      omega
    · omega
  unfold encodeLogicalBlock at h
  split at h
  · split at h
    · cases (Prod.mk.inj h).1
    · obtain rfl := Except.ok.inj (Prod.mk.inj h).1
      simp
    · exact hown (Prod.mk.inj h).1
  · exact hown (Prod.mk.inj h).1

/-- The chunk became the block, with some state of the block store. -/
def Encodes (zstd : Zstd) (hash : Bytes→BlockHash) (disk : DiskErrors) (level : ℤ)
    (opts : EncodeOptions) (piece : Piece) : Prop :=
  ∃ before after,encodeLogicalBlock zstd hash disk level opts before piece.1=(.ok piece.2,after)

/-- What the loop over the chunks of a payload leaves: every chunk has become a
block, and the table lists them. -/
theorem encodeChunks_pieces {logicalSize : ℕ} {pending : List Bytes} {progress progress' : Progress}
    (h : encodeChunks zstd hash disk level opts logicalSize pending progress=(.ok progress',files'))
    (hfilled : ∀ chunk∈pending,chunk≠[])
    (hsize : progress.logicalEnd+pending.flatten.length=logicalSize) :
    ∃ pieces : List Piece,pieces.map Prod.fst=pending ∧
      (∀ piece∈pieces,Encodes zstd hash disk level opts piece) ∧ progress'.index=progress.index++
        indexFrom progress.data.length progress.logicalEnd pieces ∧
      progress'.data=progress.data++dataOf pieces ∧
      progress'.refs=progress.refs++refsOf pieces ∧ progress'.logicalEnd=logicalSize := by
  induction pending generalizing progress with
  | nil =>
    obtain rfl := Except.ok.inj (Prod.mk.inj h).1
    exact ⟨[],rfl,forall_mem_nil _,(append_nil _).symm,(append_nil _).symm,
      (append_nil _).symm,hsize⟩
  | cons chunk pending ih =>
    have hpositive := length_pos_iff.mpr (hfilled chunk mem_cons_self)
    rw [flatten_cons,length_append] at hsize
    unfold encodeChunks at h
    rw [if_pos (by omega)] at h
    rcases hencoded : encodeLogicalBlock zstd hash disk level opts progress.files chunk with
        ⟨outcome,after⟩
    rw [hencoded] at h
    cases outcome with
    | error e => cases (Prod.mk.inj h).1
    | ok block =>
      cases hwrite : disk.write progress.index.length with
      | some e =>
        rw [hwrite] at h
        cases (Prod.mk.inj h).1
      | none =>
        rw [hwrite] at h
        obtain ⟨pieces,hchunks,hencodes,hindex,hdata,hrefs,hend⟩ := ih h
          (fun other hother => hfilled other (mem_cons_of_mem _ hother))
          (show progress.logicalEnd+chunk.length+pending.flatten.length=logicalSize by omega)
        refine ⟨(chunk,block)::pieces,?_,?_,?_,?_,?_,hend⟩
        · rw [map_cons,hchunks]
        · intro piece hpiece
          rcases mem_cons.mp hpiece with rfl | hlater
          · exact ⟨progress.files,after,hencoded⟩
          · exact hencodes piece hlater
        · rw [hindex]
          simp [Progress.add,indexFrom]
        · rw [hdata]
          simp [Progress.add]
        · rw [hrefs]
          by_cases hshared : block.blockType=blockDedupRef
          · simp [Progress.add,refsOf,hshared]
          · simp [Progress.add,refsOf,hshared]

/-- The file that holds some pieces. -/
def containerFile (opts : EncodeOptions) (level : ℤ) (blockSize : ℕ) (pieces : List Piece) : Bytes :=
  writeBlobHeaderV1 (contentOf pieces).length blockSize (indexFrom 0 0 pieces) opts.dictId.toNat
    (headerFlags opts) (clampZstdLevel level).toNat++dataOf pieces

theorem writeBlobHeaderV1_length (logicalSize blockSize dictId flags zstdLevel : ℕ)
    (index : List IndexEntry) :
    (writeBlobHeaderV1 logicalSize blockSize index dictId flags zstdLevel).length=
      fixedHeaderLenV1Level+index.length*indexEntryLen := by
  rw [writeBlobHeaderV1_eq,length_append,fixedHeader_length,flatMap_writeIndexEntry_length]
  rfl

/-- The header takes up exactly the room that was left for it. -/
theorem encodeBlocksToFile_pieces {source part : Bytes} {blockSize totalLen : ℕ}
    {refs : List BlockRef} (hblock : 0<blockSize)
    (h : encodeBlocksToFile zstd hash disk level opts source source.length blockSize files=
      (.ok (totalLen,refs,part),files')) :
    ∃ pieces : List Piece,pieces.map Prod.fst=chunks blockSize source ∧
      (∀ piece∈pieces,Encodes zstd hash disk level opts piece) ∧ refs=refsOf pieces ∧
      part=containerFile opts level blockSize pieces := by
  unfold encodeBlocksToFile encodeFillsToFile at h
  dsimp only at h
  rcases hloop : encodeChunks zstd hash disk level opts source.length (chunks blockSize source)
      ⟨[],[],[],0,files⟩ with ⟨outcome,after⟩
  rw [hloop] at h
  cases outcome with
  | error e => cases (Prod.mk.inj h).1
  | ok progress =>
    have hflatten := chunks_flatten hblock source
    obtain ⟨pieces,hchunks,hencodes,hindex,hdata,hrefs,hend⟩ := encodeChunks_pieces hloop
      (fun chunk hchunk => (mem_chunks hblock hchunk).1)
      (by rw [hflatten]; exact Nat.zero_add _)
    have hcontent : contentOf pieces=source := by rw [contentOf_eq,hchunks,hflatten]
    rw [nil_append] at hindex hdata hrefs
    have hcount : progress.index.length=(source.length+blockSize-1)/blockSize := by
      rw [hindex,indexFrom_length,← chunks_length hblock,← hchunks,length_map]
    dsimp only at h
    rw [if_neg (by rw [hend,hcount]; simp)] at h
    cases hheader : disk.header with
    | some e =>
      rw [hheader] at h
      cases (Prod.mk.inj h).1
    | none =>
      rw [hheader] at h
      obtain ⟨_,hrest⟩ := Prod.mk.inj (Except.ok.inj (Prod.mk.inj h).1)
      cases hrest
      refine ⟨pieces,hchunks,hencodes,hrefs,?_⟩
      unfold writeAtStart containerFile
      rw [drop_left' (by rw [length_replicate,writeBlobHeaderV1_length,hcount]),hindex,
        hdata,hcontent]
      rfl

/-- A container is made of chunks of the payload, which is not empty. -/
theorem encodeFileForStorage_indexed {source file : Bytes} {blockSize minSize : ℕ}
    {refs : List BlockRef} {objectKey contentType : Option BlobFilenames.Text}
    {extra : List BlobFilenames.Text}
    (h : encodeFileForStorage zstd hash disk level opts source source.length blockSize
      (.new objectKey contentType source.length minSize extra) files=
        ⟨.ok (.indexed refs),some file,files'⟩) :
    source≠[] ∧ ∃ pieces : List Piece,pieces.map Prod.fst=chunks (max blockSize 4096) source ∧
      (∀ piece∈pieces,Encodes zstd hash disk level opts piece) ∧ refs=refsOf pieces ∧
      file=containerFile opts level (max blockSize 4096) pieces := by
  have hblock : 0 < max blockSize 4096 := lt_max_of_lt_right (by decide)
  unfold encodeFileForStorage encodeFillsForStorage at h
  split at h
  · cases h
  dsimp only at h
  split at h
  · cases h
  rename_i hattempt
  split at h
  · cases h
  split at h
  · cases h
  rename_i hencoded
  split at h
  · cases h
  split at h
  · cases h
  obtain ⟨hrefs,rfl⟩ : FileEncoding.indexed _=.indexed refs ∧ _=file :=
    ⟨Except.ok.inj (EncodeResult.mk.inj h).1,Option.some.inj (EncodeResult.mk.inj h).2.1⟩
  obtain rfl := FileEncoding.indexed.inj hrefs
  refine ⟨?_,encodeBlocksToFile_pieces hblock hencoded⟩
  rintro rfl
  rw [length_nil,shouldAttemptCompression_empty] at hattempt
  exact hattempt rfl

theorem contentOf_length_le {pieces : List Piece} {blockSize : ℕ}
    (h : ∀ piece∈pieces,piece.1.length≤blockSize) :
    (contentOf pieces).length≤pieces.length*blockSize := by
  induction pieces with
  | nil => exact Nat.zero_le _
  | cons piece pieces ih =>
    have hfirst := h piece mem_cons_self
    have hrest := ih fun other hother => h other (mem_cons_of_mem _ hother)
    rw [contentOf_cons,length_append,length_cons,Nat.succ_mul]
    omega

theorem dataOf_length_le {pieces : List Piece}
    (h : ∀ piece∈pieces,Encodes zstd hash disk level opts piece) :
    (dataOf pieces).length≤(contentOf pieces).length+pieces.length*28 := by
  induction pieces with
  | nil => exact Nat.zero_le _
  | cons piece pieces ih =>
    obtain ⟨before,after,hfirst⟩ := h piece mem_cons_self
    have hpayload := encodeLogicalBlock_payload_length hfirst
    have hrest := ih fun other hother => h other (mem_cons_of_mem _ hother)
    rw [dataOf_cons,contentOf_cons,length_append,length_append,length_cons,
      LogicalBlock.bytes_length,Nat.succ_mul]
    unfold blockHeaderLenV1
    omega

/-- The layout that a reader should find. -/
def containerLayout (opts : EncodeOptions) (level : ℤ) (blockSize : ℕ) (pieces : List Piece) :
    BlobLayout :=
  writtenLayout (contentOf pieces).length blockSize (indexFrom 0 0 pieces) opts.dictId.toNat
    (headerFlags opts) (clampZstdLevel level).toNat

theorem containerFits {logicalSize blockSize : ℕ} (hsize : logicalSize<256^8)
    (hblock : blockSize<2^32) :
    FitsHeader logicalSize blockSize opts.dictId.toNat (headerFlags opts)
      (clampZstdLevel level).toNat := by
  have hflags : headerFlags opts|||nosiFlagHasLevel<256^2 := by
    unfold headerFlags
    split <;> decide
  have hlevel : clampZstdLevel level≤22 := max_le (by decide) (min_le_right _ _)
  exact ⟨hsize,hblock.trans_le (by decide),opts.dictId.toNat_lt,hflags,by omega⟩

/-- Pieces cut from a payload, as the reader needs them. -/
structure Cut (zstd : Zstd) (hash : Bytes→BlockHash) (disk : DiskErrors) (level : ℤ)
    (opts : EncodeOptions) (blockSize : ℕ) (pieces : List Piece) : Prop where
  /-- There is a piece. -/
  some_piece : pieces≠[]
  /-- No chunk is empty. -/
  filled : ∀ piece∈pieces,piece.1≠[]
  /-- No chunk is longer than the size of a block. -/
  short : ∀ piece∈pieces,piece.1.length≤blockSize
  /-- Each chunk became its block. -/
  encodes : ∀ piece∈pieces,Encodes zstd hash disk level opts piece

theorem cut_of_chunks {source : Bytes} {blockSize : ℕ} {pieces : List Piece} (hblock : 0<blockSize)
    (hsource : source≠[]) (hchunks : pieces.map Prod.fst=chunks blockSize source)
    (hencodes : ∀ piece∈pieces,Encodes zstd hash disk level opts piece) :
    Cut zstd hash disk level opts blockSize pieces ∧ contentOf pieces=source := by
  have hmem : ∀ piece∈pieces,piece.1∈chunks blockSize source := fun piece hpiece =>
    hchunks ▸ mem_map_of_mem hpiece
  have hcontent : contentOf pieces=source := by rw [contentOf_eq,hchunks,chunks_flatten hblock]
  refine ⟨⟨?_,fun piece hpiece => (mem_chunks hblock (hmem piece hpiece)).1,
    fun piece hpiece => (mem_chunks hblock (hmem piece hpiece)).2,hencodes⟩,hcontent⟩
  rintro rfl
  exact hsource hcontent.symm

variable {pieces : List Piece} {blockSize : ℕ}

theorem Cut.bounded (hcut : Cut zstd hash disk level opts blockSize pieces)
    (hblock : blockSize<2^32) (hcount : pieces.length ≤ maxBlockCount) :
    (contentOf pieces).length<2^56 ∧ (dataOf pieces).length<2^57 := by
  have hcontent := contentOf_length_le hcut.short
  have hdata := dataOf_length_le hcut.encodes
  have hproduct : pieces.length*blockSize≤16777216*(2^32-1) :=
    Nat.mul_le_mul hcount (by omega)
  unfold maxBlockCount at hcount
  omega

theorem Cut.readBlobLayout (hcut : Cut zstd hash disk level opts blockSize pieces)
    (hblock : blockSize<2^32) (hcount : pieces.length ≤ maxBlockCount) :
    readBlobLayout (containerFile opts level blockSize pieces)=
      .ok (containerLayout opts level blockSize pieces) := by
  obtain ⟨hcontent,hdata⟩ := hcut.bounded hblock hcount
  have hnonempty : indexFrom 0 0 pieces≠[] := by
    rw [← length_pos_iff,indexFrom_length]
    exact length_pos_iff.mpr hcut.some_piece
  exact readBlobLayout_written (containerFits (by omega) hblock)
    (by rwa [indexFrom_length]) hnonempty (indexFrom_valid hcut.filled (by omega) (by omega)) _

theorem Cut.readBlobLayout_refused (hcut : Cut zstd hash disk level opts blockSize pieces)
    (hsize : (contentOf pieces).length<2^64) (hcount : maxBlockCount<pieces.length)
    (layout : BlobLayout) :
    BlobFormats.readBlobLayout (containerFile opts level blockSize pieces)≠.ok layout := by
  have hlast := @indexFrom_getLast? 0 0 pieces hcut.some_piece
  rw [Nat.zero_add] at hlast
  have hends : ∀ entry∈indexFrom 0 0 pieces,entry.logicalEnd≤(contentOf pieces).length := by
    intro entry hentry
    have hbound := mem_indexFrom hcut.filled hentry
    omega
  have hpositive : 0<(contentOf pieces).length := by
    obtain ⟨entry,hentry⟩ := exists_mem_of_length_pos
      (show 0<(indexFrom 0 0 pieces).length by rw [indexFrom_length]; omega)
    have hbound := mem_indexFrom hcut.filled hentry
    omega
  exact readBlobLayout_refuses (by rwa [indexFrom_length]) (hsize.trans_le (by decide)) hpositive
    (indexFrom_ends_grow hcut.filled) hlast hends _ layout

/-- A container that was written can be opened, with the size of its payload,
exactly if it has no more blocks than a reader accepts. -/
theorem container_opens_iff {source file : Bytes} {minSize : ℕ} {refs : List BlockRef}
    {objectKey contentType : Option BlobFilenames.Text} {extra : List BlobFilenames.Text}
    (hsource : source.length<2^64) (hblock : blockSize<2^32)
    (h : encodeFileForStorage zstd hash disk level opts source source.length blockSize
      (.new objectKey contentType source.length minSize extra) files=
        ⟨.ok (.indexed refs),some file,files'⟩) :
    (∃ layout,BlobFormats.readBlobLayout file=.ok layout ∧ layout.logicalSize=source.length) ↔
      (source.length+max blockSize 4096-1)/max blockSize 4096 ≤ maxBlockCount := by
  have hpositive : 0 < max blockSize 4096 := lt_max_of_lt_right (by decide)
  have hwide : max blockSize 4096<2^32 := max_lt hblock (by decide)
  obtain ⟨hne,pieces,hchunks,hencodes,_,rfl⟩ := encodeFileForStorage_indexed h
  obtain ⟨hcut,hcontent⟩ := cut_of_chunks hpositive hne hchunks hencodes
  have hcount : pieces.length=(source.length+max blockSize 4096-1)/max blockSize 4096 := by
    rw [← chunks_length hpositive,← hchunks,length_map]
  rw [← hcount]
  constructor
  · rintro ⟨layout,hread,_⟩
    by_contra hmany
    exact hcut.readBlobLayout_refused (by rwa [hcontent]) (by omega) layout hread
  · intro hfew
    exact ⟨_,hcut.readBlobLayout hwide hfew,congrArg List.length hcontent⟩

end Written

section Succeeds

variable {zstd : Zstd} (hash : Bytes→BlockHash) (level : ℤ) {opts : EncodeOptions}

theorem encodeChunks_succeeds
    (hcompress : ∀ level dict chunk,∃ frame,zstd.compress level dict chunk=.ok frame)
    (hown : opts.dedup=false) (logicalSize : ℕ) (pending : List Bytes) (progress : Progress) :
    ∃ progress',encodeChunks zstd hash .none level opts logicalSize pending progress=
      (.ok progress',progress.files) := by
  induction pending generalizing progress with
  | nil => exact ⟨progress,rfl⟩
  | cons chunk pending ih =>
    obtain ⟨frame,hframe⟩ := hcompress (clampZstdLevel level)
      (opts.dict.filter fun dict => !dict.isEmpty) chunk
    have hblock : ∃ block,encodeLogicalBlock zstd hash .none level opts progress.files chunk=
        (.ok block,progress.files) := by
      unfold encodeLogicalBlock encodeOwnBlock compressBlock
      rw [if_neg (by rw [hown]; exact Bool.false_ne_true),hframe]
      dsimp only
      by_cases hsmaller : frame.length<chunk.length
      · rw [if_pos hsmaller]
        exact ⟨_,rfl⟩
      · rw [if_neg hsmaller]
        exact ⟨_,rfl⟩
    obtain ⟨block,hblock⟩ := hblock
    unfold encodeChunks
    split
    · rw [hblock]
      exact ih (progress.add chunk block progress.files)
    · exact ⟨progress,rfl⟩

/-- A payload that begins like a container is put into one. -/
theorem encodeFileForStorage_wraps
    (hcompress : ∀ level dict chunk,∃ frame,zstd.compress level dict chunk=.ok frame)
    (hown : opts.dedup=false) {source : Bytes}
    (hmisread : rawWouldBeMisread (source.take fixedHeaderLenV1)=true) (blockSize : ℕ)
    (ctx : CompressionContext) (files : BlockFiles) :
    ∃ refs file,encodeFileForStorage zstd hash .none level opts source source.length blockSize ctx
      files=⟨.ok (.indexed refs),some file,files⟩ := by
  have hpositive : 0 < max blockSize 4096 := lt_max_of_lt_right (by decide)
  have hflatten := chunks_flatten hpositive source
  obtain ⟨progress,hloop⟩ := encodeChunks_succeeds hash level hcompress hown
    source.length (chunks (max blockSize 4096) source) ⟨[],[],[],0,files⟩
  obtain ⟨pieces,hchunks,_,hindex,_,_,hend⟩ := encodeChunks_pieces hloop
    (fun chunk hchunk => (mem_chunks hpositive hchunk).1)
    (by rw [hflatten]; exact Nat.zero_add _)
  have hcount : progress.index.length=
      (source.length+max blockSize 4096-1)/max blockSize 4096 := by
    rw [hindex,nil_append,indexFrom_length,← chunks_length hpositive,← hchunks,
      length_map]
  have hwritten : ∃ totalLen refs part,encodeBlocksToFile zstd hash .none level opts source
      source.length (max blockSize 4096) files=(.ok (totalLen,refs,part),files) := by
    unfold encodeBlocksToFile encodeFillsToFile
    rw [hloop]
    dsimp only
    rw [if_neg (by rw [hend,hcount]; simp)]
    exact ⟨_,_,_,rfl⟩
  obtain ⟨totalLen,refs,part,hwritten⟩ := hwritten
  unfold encodeBlocksToFile at hwritten
  refine ⟨refs,part,?_⟩
  unfold encodeFileForStorage encodeFillsForStorage
  dsimp only
  rw [hmisread,hwritten]
  rfl

end Succeeds

section Samples

/-- Options without a dictionary and without sharing. -/
def plainOptions : EncodeOptions :=
  ⟨0,none,false⟩

theorem plainZstd_succeeds (level : ℤ) (dict : Option Bytes) (chunk : Bytes) :
    ∃ frame,plainZstd.compress level dict chunk=.ok frame := ⟨chunk,rfl⟩

/-- A payload that begins like a container and then has zeros. -/
def magicPayload (zeros : ℕ) : Bytes :=
  nosiMagic++List.replicate zeros 0

theorem magicPayload_length (zeros : ℕ) : (magicPayload zeros).length=zeros+4 := by
  unfold magicPayload
  rw [length_append,length_replicate]
  exact Nat.add_comm _ _

theorem magicPayload_misread {zeros : ℕ} (h : 8≤zeros) :
    rawWouldBeMisread ((magicPayload zeros).take fixedHeaderLenV1)=true := by
  have hlength := magicPayload_length zeros
  have hdetect : detectBlobFormat (magicPayload zeros)=.nosi :=
    detectBlobFormat_nosi (by omega) (prefix_append _ _)
  unfold rawWouldBeMisread
  rw [detectBlobFormat_take (by decide),detectBlobFormat_take (by decide),hdetect]
  rfl

/-- With blocks of 4096 bytes, a payload of four bytes more than 2^36 is put into a
container that no reader opens. -/
theorem large_container_refused :
    ∃ refs file,encodeFileForStorage plainZstd plainHash .none 3 plainOptions (magicPayload (2^36))
        (2^36+4) 4096 (.new none none (2^36+4) 4096 []) ∅=⟨.ok (.indexed refs),some file,∅⟩ ∧
      ∀ layout,BlobFormats.readBlobLayout file≠.ok layout := by
  have hlength := magicPayload_length (2^36)
  have hne : magicPayload (2^36)≠[] := ne_nil_of_length_pos (by omega)
  have hmisread := magicPayload_misread (show 8≤2^36 by norm_num)
  obtain ⟨refs,file,hencoded⟩ := encodeFileForStorage_wraps plainHash 3 plainZstd_succeeds
    (show plainOptions.dedup=false from rfl) hmisread 4096
    (.new none none (magicPayload (2^36)).length 4096 []) ∅
  obtain ⟨_,pieces,hchunks,hencodes,_,rfl⟩ := encodeFileForStorage_indexed hencoded
  obtain ⟨hcut,hcontent⟩ := cut_of_chunks (by decide) hne hchunks hencodes
  have hcount : maxBlockCount<pieces.length := by
    rw [← length_map (f := Prod.fst),hchunks,chunks_length (by decide),hlength]
    decide
  rw [hlength] at hencoded
  exact ⟨refs,_,hencoded,hcut.readBlobLayout_refused (by rw [hcontent,hlength]; norm_num) hcount⟩

/-- A payload of 24 bytes is put into a container that can be opened. -/
theorem small_container_opens :
    ∃ refs file,encodeFileForStorage plainZstd plainHash .none 3 plainOptions (magicPayload 20)
        (magicPayload 20).length 4096 (.new none none (magicPayload 20).length 4096 []) ∅=
          ⟨.ok (.indexed refs),some file,∅⟩ ∧ ∃ layout,BlobFormats.readBlobLayout file=.ok layout ∧
        layout.logicalSize=(magicPayload 20).length := by
  have hlength := magicPayload_length 20
  obtain ⟨refs,file,hencoded⟩ := encodeFileForStorage_wraps plainHash 3 plainZstd_succeeds
    (show plainOptions.dedup=false from rfl) (magicPayload_misread (show 8≤20 by decide)) 4096
    (.new none none (magicPayload 20).length 4096 []) ∅
  refine ⟨refs,file,hencoded,(container_opens_iff ?_ ?_ hencoded).mpr ?_⟩
  · rw [hlength]
    norm_num
  · norm_num
  · rw [hlength]
    decide

end Samples

end NebularOs.BlobEncoding
