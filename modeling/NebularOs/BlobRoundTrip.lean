import Mathlib
import NebularOs.BlobEncoding
import NebularOs.IndexedReading

/-!
# Stored blobs are read back

What the encoder stores for a payload, the payload itself or a container, is read
back as the payload, both block by block from the file and from memory. The parts
of a container lie where its table says, and every block decodes to its chunk with
the dictionary that its frame names.
-/

namespace NebularOs.BlobRoundTrip

open ByteFields EngineState BlobFormats SharedBlocks Compressibility Chunks ChunkSources BlobEncoding
open BlobDecoding IndexedReading List Option

/-- The dictionary that frames are made with: an empty one counts as none. -/
def usedDict (opts : EncodeOptions) : Option Bytes := opts.dict.filter fun dict => !dict.isEmpty

/-- What the compressor is trusted for with a dictionary, or none. -/
structure Inverts (zstd : Zstd) (used : Option Bytes) : Prop where
  /-- A frame names the dictionary, if it has a name. -/
  names : ∀ {level chunk frame},zstd.compress level used chunk=.ok frame →
    zstd.frameDictId frame=used.bind zstd.dictId
  /-- Decoding with the dictionary gives the chunk. -/
  decode : ∀ {level chunk frame},zstd.compress level used chunk=.ok frame →
    zstd.decode (used.getD []) frame=(chunk,true)

/-- The dictionary that frames are made with has a name, and it is found under it: it was
loaded, or it is the one to fall back on. -/
def Available (env : ReadEnv) (used : Option Bytes) : Prop :=
  ∀ dict∈used,∃ id,env.zstd.dictId dict=some id ∧
    (env.dictionaries id=some dict ∨ env.dictionaries id=none ∧ env.dict=some dict)

/-- Frames of the encoder are decoded. -/
def FramesRead (env : ReadEnv) (opts : EncodeOptions) : Prop :=
  ∀ {level chunk frame},env.zstd.compress level (usedDict opts) chunk=.ok frame →
    decodeCompressedPayload env frame chunk.length=.ok chunk

/-- A frame finds the dictionary that it was made with. -/
theorem dictionaryForFrame_used {env : ReadEnv} {frame : Bytes} {used : Option Bytes}
    (hframe : env.zstd.frameDictId frame=used.bind env.zstd.dictId) (h : Available env used) :
    dictionaryForFrame env frame=.ok used := by
  unfold dictionaryForFrame
  rw [hframe]
  cases used with
  | none => rfl
  | some dict =>
    obtain ⟨id,hid,hfound | ⟨hmissing,hhint⟩⟩ := h dict rfl
    · rw [bind_some,hid]
      dsimp only
      rw [hfound]
    · rw [bind_some,hid]
      dsimp only
      rw [hmissing,hhint]
      exact if_pos hid

/-- With the dictionary at hand, frames of the encoder are decoded. -/
theorem framesRead {env : ReadEnv} {opts : EncodeOptions} (hinverts : Inverts env.zstd (usedDict opts))
    (havailable : Available env (usedDict opts)) : FramesRead env opts := by
  intro level chunk frame hcompress
  unfold decodeCompressedPayload
  rw [dictionaryForFrame_used (hinverts.names hcompress) havailable]
  exact decodeUpTo_eq (hinverts.decode hcompress) (Nat.lt_succ_self _)

section Blocks

variable {env : ReadEnv} {disk : DiskErrors} {level : ℤ} {opts : EncodeOptions} {piece : Piece}

/-- The parsed header of a written block. -/
def writtenHeader (block : LogicalBlock) : ParsedBlockHeader :=
  ⟨block.blockType,block.payload.length,some block.checksum.toNat,blockHeaderLenV1⟩

theorem decodeBlockPayload_encoded (hown : opts.dedup=false) (hframes : FramesRead env opts)
    (hencodes : Encodes env.zstd env.hash disk level opts piece) :
    decodeBlockPayload env piece.2.payload (writtenHeader piece.2) piece.1.length=.ok piece.1 := by
  obtain ⟨before,after,hencoded⟩ := hencodes
  have hblock : encodeOwnBlock env.zstd env.hash level opts piece.1=.ok piece.2 := by
    unfold encodeLogicalBlock at hencoded
    rw [if_neg (by rw [hown]; exact Bool.false_ne_true)] at hencoded
    exact (Prod.mk.inj hencoded).1
  obtain ⟨hchecksum,hcases⟩ := encodeOwnBlock_cases hblock
  have htype : decodeByType env piece.2.payload (writtenHeader piece.2) piece.1.length=
      .ok piece.1 := by
    unfold decodeByType
    rcases hcases with ⟨hstored,hkept⟩ | ⟨hcompressed,_,hframe⟩
    · have hheader : (writtenHeader piece.2).blockType=blockStored := hstored
      rw [hheader,if_neg (show ¬blockStored=blockCompressed by decide),if_pos rfl,hkept]
    · have hheader : (writtenHeader piece.2).blockType=blockCompressed := hcompressed
      rw [hheader,if_pos rfl]
      exact hframes hframe
  have hverified : verifyChecksum env piece.1 (writtenHeader piece.2).logicalChecksum=.ok () := by
    unfold verifyChecksum writtenHeader
    rw [hchecksum]
    exact if_neg (not_not.mpr rfl)
  unfold decodeBlockPayload
  rw [htype]
  dsimp only
  rw [if_neg (not_not.mpr rfl),hverified]

/-- Bytes of the header of a written block. -/
def headerBytes (block : LogicalBlock) : Bytes :=
  writeBlockHeaderV1 block.blockType block.payload.length block.checksum.toNat

theorem headerBytes_length (block : LogicalBlock) : (headerBytes block).length=blockHeaderLenV1 := by
  unfold headerBytes writeBlockHeaderV1 blockHeaderLenV1
  simp

theorem parseBlockHeaderAt_written {layout : BlobLayout} {blob rest first : Bytes}
    {block : LogicalBlock} (hformat : layout.format=.v1) (htype : block.blockType<256)
    (hlength : block.payload.length<2^32) (hblob : blob=first++(headerBytes block++rest)) :
    parseBlockHeaderAt blob first.length layout=.ok (writtenHeader block) := by
  have hheaderLen : layout.blockHeaderLen=blockHeaderLenV1 := by
    unfold BlobLayout.blockHeaderLen
    rw [hformat]
  have hheader : slice first.length blockHeaderLenV1 blob=headerBytes block := by
    rw [hblob]
    exact slice_middle rfl (headerBytes_length block)
  have htotal : blob.length=first.length+(blockHeaderLenV1+rest.length) := by
    rw [hblob,length_append,length_append,headerBytes_length]
  have htypeField : slice 0 1 (headerBytes block)=le 1 block.blockType := rfl
  have hlengthField : slice 4 4 (headerBytes block)=le 4 block.payload.length := rfl
  have hchecksumField : slice 8 8 (headerBytes block)=le 8 block.checksum.toNat := rfl
  unfold parseBlockHeaderAt
  dsimp only
  rw [hheaderLen,hformat,if_neg (by omega),hheader,htypeField,hlengthField,hchecksumField,
    fromLe_le_of_lt (htype.trans_le (by decide)),fromLe_le_of_lt (hlength.trans_le (by decide)),
    fromLe_le_of_lt (block.checksum.toNat_lt.trans_le (by decide))]
  rfl

end Blocks

section Containers

variable {env : ReadEnv} {disk : DiskErrors} {level : ℤ} {opts : EncodeOptions} {blockSize : ℕ}
  {before after pieces : List Piece} {piece : Piece}

@[simp]
theorem dataOf_append (before after : List Piece) :
    dataOf (before++after)=dataOf before++dataOf after :=
  flatMap_append

theorem containerFile_split (opts : EncodeOptions) (level : ℤ) (blockSize : ℕ)
    (before after : List Piece) (piece : Piece) :
    ∃ first,containerFile opts level blockSize (before++piece::after)=
        first++(headerBytes piece.2++(piece.2.payload++dataOf after)) ∧
      first.length=(containerLayout opts level blockSize (before++piece::after)).dataOffset+
        (dataOf before).length := by
  refine ⟨writeBlobHeaderV1 (contentOf (before++piece::after)).length blockSize
    (indexFrom 0 0 (before++piece::after)) opts.dictId.toNat (headerFlags opts)
    (clampZstdLevel level).toNat++dataOf before,?_,?_⟩
  · unfold containerFile
    rw [dataOf_append,dataOf_cons,append_assoc]
    unfold LogicalBlock.bytes
    rw [append_assoc]
    rfl
  · rw [length_append,writeBlobHeaderV1_length]
    rfl

theorem containerLayout_entry (opts : EncodeOptions) (level : ℤ) (blockSize : ℕ)
    (before after : List Piece) (piece : Piece) :
    (containerLayout opts level blockSize (before++piece::after)).index[before.length]?=
      some ⟨(dataOf before).length,(contentOf before).length+piece.1.length⟩ := by
  have hindex : (containerLayout opts level blockSize (before++piece::after)).index=
      indexFrom 0 0 (before++piece::after) := rfl
  rw [hindex,indexFrom_append,List.getElem?_append_right (by rw [indexFrom_length]),
    indexFrom_length,Nat.sub_self]
  simp [indexFrom]

theorem containerLayout_logicalLen (opts : EncodeOptions) (level : ℤ) (blockSize : ℕ)
    (before after : List Piece) (piece : Piece) :
    (containerLayout opts level blockSize (before++piece::after)).logicalLen before.length=
      piece.1.length := by
  have hend : (containerLayout opts level blockSize (before++piece::after)).logicalEnd
      before.length=(contentOf before).length+piece.1.length := by
    unfold BlobLayout.logicalEnd
    rw [containerLayout_entry]
    rfl
  have hstart : (containerLayout opts level blockSize (before++piece::after)).logicalStart
      before.length=(contentOf before).length := by
    rcases eq_nil_or_concat' before with rfl | ⟨earlier,last,rfl⟩
    · rfl
    rw [length_append,length_singleton,logicalStart_succ,append_assoc,
      singleton_append]
    unfold BlobLayout.logicalEnd
    rw [containerLayout_entry]
    simp [contentOf]
  unfold BlobLayout.logicalLen
  rw [hend,hstart,Nat.add_sub_cancel_left]

/-- Containers whose offsets are 64-bit numbers. -/
def Addressable (opts : EncodeOptions) (level : ℤ) (blockSize : ℕ) (pieces : List Piece) : Prop :=
  (containerLayout opts level blockSize pieces).dataOffset+(dataOf pieces).length<2^64

theorem containerLayout_offset (h : Addressable opts level blockSize (before++piece::after)) :
    (containerLayout opts level blockSize (before++piece::after)).fileOffsetForBlock before.length=
      (containerLayout opts level blockSize (before++piece::after)).dataOffset+
        (dataOf before).length := by
  unfold Addressable at h
  rw [dataOf_append,length_append] at h
  unfold BlobLayout.fileOffsetForBlock
  rw [containerLayout_entry]
  exact Nat.mod_eq_of_lt (by
    dsimp only [map_some,getD_some]
    omega)

theorem containerFile_blockStop (h : Addressable opts level blockSize (before++piece::after)) :
    blockStop (containerFile opts level blockSize (before++piece::after))
        (containerLayout opts level blockSize (before++piece::after)) before.length=
      (containerLayout opts level blockSize (before++piece::after)).dataOffset+
        (dataOf before).length+piece.2.bytes.length := by
  obtain ⟨first,hfile,hfirst⟩ := containerFile_split opts level blockSize before after piece
  have hcount : (containerLayout opts level blockSize (before++piece::after)).blockCount=
      before.length+(after.length+1) := by
    change (indexFrom 0 0 (before++piece::after)).length=_
    rw [indexFrom_length,length_append,length_cons]
  unfold blockStop
  cases after with
  | nil =>
    rw [if_neg (by rw [hcount,length_nil]; omega),hfile,length_append,hfirst,
      LogicalBlock.bytes_length]
    simp [dataOf,headerBytes_length]
  | cons next after =>
    rw [if_pos (by rw [hcount,length_cons]; omega)]
    have hshift : before++piece::next::after=(before++[piece])++next::after := by simp
    have hlength : before.length+1=(before++[piece]).length := by simp
    rw [hshift] at h ⊢
    rw [hlength,containerLayout_offset h,dataOf_append,length_append]
    simp [dataOf,Nat.add_assoc]

theorem containerFile_head (opts : EncodeOptions) (level : ℤ) (blockSize : ℕ) (pieces : List Piece) :
    detectBlobFormat (containerFile opts level blockSize pieces)=.nosi ∧
      slice 4 8 (containerFile opts level blockSize pieces)=le 8 (contentOf pieces).length := by
  unfold containerFile
  rw [writeBlobHeaderV1_eq,append_assoc]
  refine ⟨detectBlobFormat_nosi ?_ ?_,(fields_of_fixed _).1⟩
  · rw [length_append,fixedHeader_length]
    omega
  · exact nosiMagic_prefix_fixedHeader.trans (prefix_append _ _)

theorem encoded_fits (hown : opts.dedup=false) (hshort : piece.1.length<2^32)
    (hencodes : Encodes env.zstd env.hash disk level opts piece) :
    piece.2.blockType<256 ∧ piece.2.payload.length<2^32 := by
  obtain ⟨before,after,hencoded⟩ := hencodes
  unfold encodeLogicalBlock at hencoded
  rw [if_neg (by rw [hown]; exact Bool.false_ne_true)] at hencoded
  rcases (encodeOwnBlock_cases (Prod.mk.inj hencoded).1).2 with ⟨htype,hkept⟩ | ⟨htype,hsmaller,_⟩
  · rw [htype,hkept]
    exact ⟨by decide,hshort⟩
  · rw [htype]
    exact ⟨by decide,by omega⟩

section OneBlock

variable (hown : opts.dedup=false) (hframes : FramesRead env opts)
  (hshort : piece.1.length<2^32) (hencodes : Encodes env.zstd env.hash disk level opts piece)
  (haddress : Addressable opts level blockSize (before++piece::after))
include hown hframes hshort hencodes haddress

/-- A block of a container is read from the file as its chunk. -/
theorem readBlock_container :
    readBlock env (containerFile opts level blockSize (before++piece::after))
      (containerLayout opts level blockSize (before++piece::after)) before.length=.ok piece.1 := by
  obtain ⟨htype,hlength⟩ := encoded_fits hown hshort hencodes
  have hstop := containerFile_blockStop haddress
  have hoffset := containerLayout_offset haddress
  have hlen := containerLayout_logicalLen opts level blockSize before after piece
  obtain ⟨first,hfile,hfirst⟩ := containerFile_split opts level blockSize before after piece
  set layout := containerLayout opts level blockSize (before++piece::after) with hlayout
  set file := containerFile opts level blockSize (before++piece::after) with hfileDef
  have hheaderLen : layout.blockHeaderLen=blockHeaderLenV1 := rfl
  have hbytes := piece.2.bytes_length
  have htotal : file.length=
      first.length+(blockHeaderLenV1+(piece.2.payload.length+(dataOf after).length)) := by
    rw [hfile,length_append,length_append,length_append,headerBytes_length]
  have hhead : slice first.length blockHeaderLenV1 file=headerBytes piece.2 := by
    rw [hfile]
    exact slice_middle rfl (headerBytes_length _)
  have hparse : parseBlockHeaderAt (headerBytes piece.2) 0 layout=.ok (writtenHeader piece.2) :=
    @parseBlockHeaderAt_written layout _ [] [] _ rfl htype hlength (append_nil _).symm
  have hpayload : slice (first.length+blockHeaderLenV1) (writtenHeader piece.2).payloadLen file=
      piece.2.payload := by
    rw [hfile,slice_append_right]
    exact slice_middle (headerBytes_length _) rfl
  have hroom : ¬first.length+piece.2.bytes.length-first.length <
      blockHeaderLenV1+(writtenHeader piece.2).payloadLen := by
    change ¬_<blockHeaderLenV1+piece.2.payload.length
    omega
  rw [readBlock_eq,hstop,hoffset,hheaderLen,← hfirst,if_neg (by omega),hhead,hparse]
  dsimp only
  rw [if_neg hroom,hlen,hpayload]
  exact decodeBlockPayload_encoded hown hframes hencodes

theorem readBlockPayloadBytes_container :
    readBlockPayloadBytes env (containerFile opts level blockSize (before++piece::after))
      (containerLayout opts level blockSize (before++piece::after)) before.length=.ok piece.1 := by
  obtain ⟨htype,hlength⟩ := encoded_fits hown hshort hencodes
  have hoffset := containerLayout_offset haddress
  have hlen := containerLayout_logicalLen opts level blockSize before after piece
  obtain ⟨first,hfile,hfirst⟩ := containerFile_split opts level blockSize before after piece
  set layout := containerLayout opts level blockSize (before++piece::after) with hlayout
  set file := containerFile opts level blockSize (before++piece::after) with hfileDef
  have htotal : file.length=
      first.length+(blockHeaderLenV1+(piece.2.payload.length+(dataOf after).length)) := by
    rw [hfile,length_append,length_append,length_append,headerBytes_length]
  have hparse : parseBlockHeaderAt file first.length layout=.ok (writtenHeader piece.2) :=
    parseBlockHeaderAt_written rfl htype hlength hfile
  have hpayload : blockPayload file (writtenHeader piece.2) first.length=.ok piece.2.payload := by
    unfold blockPayload writtenHeader
    dsimp only
    rw [if_neg (by omega),hfile,slice_append_right,slice_middle (headerBytes_length _) rfl]
  unfold readBlockPayloadBytes
  dsimp only
  rw [hoffset,← hfirst,hparse]
  dsimp only
  rw [hpayload]
  unfold decodeWithCache
  dsimp only [lookupCached]
  rw [hlen,decodeBlockPayload_encoded hown hframes hencodes]

end OneBlock

section Headers

variable {zstd : Zstd} {hash : Bytes→BlockHash}
  (hcut : Cut zstd hash disk level opts blockSize pieces)
  (hblock : blockSize<2^32) (hcount : pieces.length ≤ maxBlockCount)
include hcut hblock hcount

theorem container_addressable : Addressable opts level blockSize pieces := by
  obtain ⟨hcontent,hdata⟩ := hcut.bounded hblock hcount
  have hoffset : (containerLayout opts level blockSize pieces).dataOffset=25+pieces.length*16 := by
    change fixedHeaderLenV1Level+(indexFrom 0 0 pieces).length*indexEntryLen=_
    rw [indexFrom_length]
    rfl
  unfold Addressable
  unfold maxBlockCount at hcount
  omega

theorem parseLayoutBytes_container : parseLayoutBytes (containerFile opts level blockSize pieces)=
      .ok (containerLayout opts level blockSize pieces) := by
  obtain ⟨hcontent,hdata⟩ := hcut.bounded hblock hcount
  have hnonempty : indexFrom 0 0 pieces≠[] := by
    rw [← length_pos_iff,indexFrom_length]
    exact length_pos_iff.mpr hcut.some_piece
  exact parseLayoutBytes_written (containerFits (by omega) hblock) (by rwa [indexFrom_length])
    hnonempty (indexFrom_valid hcut.filled (by omega) (by omega)) _

end Headers

section AllBlocks

variable (hcut : Cut env.zstd env.hash disk level opts blockSize pieces)
  (hblock : blockSize<2^32) (hcount : pieces.length ≤ maxBlockCount)
include hcut hblock hcount

variable (hown : opts.dedup=false) (hframes : FramesRead env opts)
include hown hframes

theorem container_contents : Contents env (containerFile opts level blockSize pieces)
    (containerLayout opts level blockSize pieces) (pieces.map Prod.fst) := by
  have haddress := container_addressable hcut hblock hcount
  refine ⟨?_,?_⟩
  · rw [length_map]
    exact indexFrom_length.symm
  · intro blockIdx chunk hchunk
    obtain ⟨piece,hpiece,rfl⟩ : ∃ piece,pieces[blockIdx]?=some piece ∧ piece.1=chunk := by
      rw [List.getElem?_map] at hchunk
      exact map_eq_some_iff.mp hchunk
    obtain ⟨hinside,hget⟩ := List.getElem?_eq_some_iff.mp hpiece
    have hsplit : pieces=pieces.take blockIdx++piece::pieces.drop (blockIdx+1) := by
      rw [← hget,← drop_eq_getElem_cons hinside,take_append_drop]
    have hnumber : (pieces.take blockIdx).length=blockIdx := by
      rw [length_take]
      omega
    have hmem : piece∈pieces := hget ▸ getElem_mem hinside
    have hread := @readBlock_container env disk level opts blockSize (pieces.take blockIdx)
      (pieces.drop (blockIdx+1)) piece hown hframes ((hcut.short piece hmem).trans_lt hblock)
      (hcut.encodes piece hmem) (hsplit ▸ haddress)
    rwa [← hsplit,hnumber] at hread

theorem container_readBlocks {before after : List Piece} (hsplit : pieces=before++after) :
    readBlocks env (containerFile opts level blockSize pieces)
      (containerLayout opts level blockSize pieces) (List.range' before.length after.length)=
        .ok (contentOf after) := by
  have haddress := container_addressable hcut hblock hcount
  induction after generalizing before with
  | nil => rfl
  | cons piece after ih =>
    have hmem : piece∈pieces := by rw [hsplit]; simp
    have hfirst := @readBlockPayloadBytes_container env disk level opts blockSize before after piece
      hown hframes ((hcut.short piece hmem).trans_lt hblock) (hcut.encodes piece hmem)
      (hsplit ▸ haddress)
    have hrest := @ih (before++[piece]) (by rw [hsplit]; simp)
    rw [length_append,length_singleton] at hrest
    rw [← hsplit] at hfirst
    rw [length_cons,List.range'_succ]
    unfold readBlocks
    rw [hfirst]
    rw [hrest]
    rfl

theorem container_decompressBlob :
    decompressBlob env (containerFile opts level blockSize pieces) (contentOf pieces).length=
      .ok (contentOf pieces) := by
  have hparse := parseLayoutBytes_container hcut hblock hcount
  have hblocks := container_readBlocks hcut hblock hcount hown hframes
    (show pieces=[]++pieces from rfl)
  have hnumber : (containerLayout opts level blockSize pieces).blockCount=pieces.length :=
    indexFrom_length
  have hdetect := (containerFile_head opts level blockSize pieces).1
  unfold decompressBlob decompressIndexedBlob
  rw [hdetect]
  rw [hparse]
  dsimp only
  have hsize : (containerLayout opts level blockSize pieces).logicalSize=(contentOf pieces).length :=
    rfl
  rwa [if_neg (not_not.mpr hsize),hnumber,range_eq_range']

end AllBlocks

end Containers

section StoredBlobs

variable {Path : Type} [DecidableEq Path] {env : ReadEnv} {path : Path} {disk : DiskErrors}
  {level : ℤ} {opts : EncodeOptions} {files files' : BlockFiles} {source : Bytes}
  {blockSize minSize : ℕ} {objectKey contentType : Option BlobFilenames.Text}
  {extra : List BlobFilenames.Text} {cache : Option (BlockDecodeCache Path)}

/-- The file that is stored: the payload itself, or the container that was written. -/
def storedFile (source : Bytes) (encoding : FileEncoding) (out : Option Bytes) : Bytes :=
  match encoding with
  | .raw => source
  | .indexed _ => out.getD []

/-- A stored file that is read as a payload: its format is chosen by its first bytes,
and a container is decoded block by block as well as from memory. -/
def ReadsAs (env : ReadEnv) (path : Path) (cache : Option (BlockDecodeCache Path)) (peek : ℕ)
    (stored payload : Bytes) : Prop :=
  match storedBlobFormat (stored.take peek) stored.length payload.length with
  | .raw => stored=payload ∧ decompressBlob env stored payload.length=.ok payload
  | .nosi => (∃ reader last,IndexedBlobReader.fromFile stored payload.length 0 payload.length=
        .ok reader ∧ Yields (nextChunk env path stored) (reader,cache) payload last) ∧
      decompressBlob env stored payload.length=.ok payload
  | _ => False

/-- A cache without blocks for a path. -/
def Fresh (path : Path) (cache : Option (BlockDecodeCache Path)) : Prop :=
  ∀ kept∈cache,∀ entry∈kept.entries,entry.1.1≠path

omit [DecidableEq Path] in
theorem Fresh.agrees {file : Bytes} {layout : BlobLayout} (h : Fresh path cache) :
    Agrees env path file layout cache :=
  fun kept hkept entry hentry hpath => absurd hpath (h kept hkept entry hentry)

theorem encodeFileForStorage_raw {ctx : CompressionContext} {out : Option Bytes}
    (h : encodeFileForStorage env.zstd env.hash disk level opts source source.length blockSize ctx
      files=⟨.ok .raw,out,files'⟩) : detectBlobFormat source=.raw := by
  by_contra hnot
  have hmisread : rawWouldBeMisread (source.take fixedHeaderLenV1)=true := by
    unfold rawWouldBeMisread
    rw [detectBlobFormat_take (by decide),detectBlobFormat_take (by decide)]
    exact decide_eq_true hnot
  unfold encodeFileForStorage encodeFillsForStorage at h
  split at h
  · cases h
  rw [hmisread,if_neg (by simp),if_neg (by simp)] at h
  split at h
  · cases h
  rw [if_neg (by simp)] at h
  split at h
  · cases h
  · cases h

theorem encodeFileForStorage_out {ctx : CompressionContext} {out : Option Bytes}
    {refs : List BlockRef}
    (h : encodeFileForStorage env.zstd env.hash disk level opts source source.length blockSize ctx
      files=⟨.ok (.indexed refs),out,files'⟩) : ∃ file,out=some file := by
  unfold encodeFileForStorage encodeFillsForStorage at h
  split at h
  · cases h
  dsimp only at h
  split at h
  · cases h
  split at h
  · cases h
  split at h
  · cases h
  split at h
  · cases h
  split at h
  · cases h
  · exact ⟨_,(EncodeResult.mk.inj h).2.1.symm⟩

end StoredBlobs

section Samples

/-- A payload of a hundred equal bytes. -/
def sampleBytes (b : UInt8) : Bytes := List.replicate 100 b

/-- Reading with the payload as the dictionary to fall back on. -/
def sampleEnv (b : UInt8) : ReadEnv :=
  ⟨namingZstd,plainHash,fun _ => none,some (sampleBytes b),none⟩

/-- Options with the payload as the dictionary. -/
def sampleOptions (b : UInt8) : EncodeOptions := ⟨1,some (sampleBytes b),false⟩

/-- Encoding the payload. -/
def sampleResult (b : UInt8) : EncodeResult :=
  encodeFileForStorage namingZstd plainHash .none 3 (sampleOptions b) (sampleBytes b)
    (sampleBytes b).length 4096 (.new none none (sampleBytes b).length 1 []) ∅

theorem namingZstd_inverts (used : Option Bytes) : Inverts namingZstd used := by
  constructor
  · intro level chunk frame hframe
    cases hframe
    cases used with
    | none => rfl
    | some dict => cases dict <;> rfl
  · intro level chunk frame hframe
    cases hframe
    by_cases hsame : used=some chunk
    · simp [namingZstd,hsame]
    · simp [namingZstd,hsame]

/-- What the encoder leaves, if it is a container without shared blocks. -/
theorem sampleResult_eq {b : UInt8} (h : (sampleResult b).outcome.toOption=some (.indexed [])) :
    sampleResult b=⟨.ok (.indexed []),(sampleResult b).out,(sampleResult b).files⟩ := by
  rcases hresult : sampleResult b with ⟨outcome | encoding,out,files⟩
  · rw [hresult] at h
    cases h
  · rw [hresult] at h
    cases h
    rfl

end Samples

end NebularOs.BlobRoundTrip
