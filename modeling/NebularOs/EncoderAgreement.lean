import Mathlib
import NebularOs.BlobEncoding
import NebularOs.SplitReads

/-!
# The two encoders agree

A payload is encoded from a file, with the blocks written behind room for the header, or
from memory, with the blocks collected before the header is written. Without sharing, both
come to the same decision and to the same container, however the reads of the file are
split.
-/

namespace NebularOs.EncoderAgreement

open ByteFields EngineState BlobFormats SharedBlocks Compressibility Chunks SplitReads BlobEncoding
open List

section Encoders

variable (zstd : Zstd) (hash : Bytes→BlockHash) (disk : DiskErrors) (level : ℤ)
  (opts : EncodeOptions)

/-- Encoding a payload from a file, whose reads may return less than asked. -/
def encodeFileFromReads (source : Source UInt8) (logicalSize blockSize : ℕ)
    (ctx : CompressionContext) (files : BlockFiles) : EncodeResult :=
  encodeFillsForStorage zstd hash disk level opts (source.left.take fixedHeaderLenV1)
    (fun blockSize => fills blockSize source) logicalSize blockSize ctx files

/-- The loop over what a payload in memory is read in. It ends with the payload or once
its stated size is reached. -/
def encodeBlocksFromReader (logicalSize : ℕ) :
    List Bytes→Progress→Except String Progress×BlockFiles
  | [],progress => (.ok progress,progress.files)
  | chunk::chunks,progress =>
    match encodeLogicalBlock zstd hash disk level opts progress.files chunk with
    | (.error e,files) => (.error e,files)
    | (.ok block,files) =>
      let progress := progress.add chunk block files
      if logicalSize≤progress.logicalEnd then (.ok progress,files)
      else encodeBlocksFromReader logicalSize chunks progress

/-- Encoding a payload in memory: a container, or the payload. -/
def encodeBlobForStorage (uncompressed : Bytes) (blockSize : ℕ) (ctx : CompressionContext)
    (files : BlockFiles) : Except String Bytes×BlockFiles :=
  let mustWrap := rawWouldBeMisread uncompressed
  if !mustWrap && !shouldAttemptCompression ctx then (.ok uncompressed,files)
  else if !mustWrap && !opts.dedup && prefixLooksIncompressible (uncompressed.take 16) then
    (.ok uncompressed,files)
  else
    let logicalSize := uncompressed.length
    match encodeBlocksFromReader zstd hash disk level opts logicalSize
        (fills blockSize ⟨uncompressed,[]⟩) ⟨[],[],[],0,files⟩ with
    | (.error e,files) => (.error e,files)
    | (.ok progress,files) =>
      if progress.logicalEnd≠logicalSize then
        (.error s!"block encoder size mismatch: encoded={progress.logicalEnd} expected={logicalSize}",
          files)
      else
        let headerLen := fixedHeaderLenV1Level+progress.index.length*indexEntryLen
        let totalLen := headerLen+progress.data.length
        if !mustWrap && !opts.dedup && decide (uncompressed.length≤totalLen) then
          (.ok uncompressed,files)
        else
          (.ok (writeBlobHeaderV1 logicalSize blockSize progress.index opts.dictId.toNat
            (headerFlags opts) (clampZstdLevel level).toNat++progress.data),files)

end Encoders

section Agreement

variable {zstd : Zstd} {hash : Bytes→BlockHash} {disk : DiskErrors} {level : ℤ}
  {opts : EncodeOptions} {files files' : BlockFiles}

theorem encodeFileFromReads_eq (source : Source UInt8) (logicalSize blockSize : ℕ)
    (ctx : CompressionContext) :
    encodeFileFromReads zstd hash disk level opts source logicalSize blockSize ctx files=
      encodeFileForStorage zstd hash disk level opts source.left logicalSize blockSize ctx files := by
  have hblock : 0 < max blockSize 4096 := lt_max_of_lt_right (by decide)
  unfold encodeFileFromReads encodeFileForStorage encodeFillsForStorage
  dsimp only
  rw [fills_eq_chunks hblock]

theorem encodeLogicalBlock_own (hown : opts.dedup=false) (chunk : Bytes) :
    encodeLogicalBlock zstd hash disk level opts files chunk=
      (encodeOwnBlock zstd hash level opts chunk,files) := by
  unfold encodeLogicalBlock
  rw [if_neg (by rw [hown]; exact Bool.false_ne_true)]

/-- What the loop of the file encoder comes to, the loop in memory comes to as well. -/
theorem encodeBlocksFromReader_of_chunks {disk' : DiskErrors} (hown : opts.dedup=false)
    {logicalSize : ℕ} {pending : List Bytes} {progress progress' : Progress}
    (h : encodeChunks zstd hash disk level opts logicalSize pending progress=(.ok progress',files'))
    (hfilled : ∀ chunk∈pending,chunk≠[])
    (hsize : progress.logicalEnd+pending.flatten.length=logicalSize) :
    encodeBlocksFromReader zstd hash disk' level opts logicalSize pending progress=
      (.ok progress',progress.files) := by
  induction pending generalizing progress with
  | nil =>
    obtain rfl := Except.ok.inj (Prod.mk.inj h).1
    rfl
  | cons chunk pending ih =>
    have hpositive := length_pos_iff.mpr (hfilled chunk mem_cons_self)
    rw [flatten_cons,length_append] at hsize
    unfold encodeChunks at h
    unfold encodeBlocksFromReader
    rw [if_pos (by omega),encodeLogicalBlock_own hown] at h
    rw [encodeLogicalBlock_own hown]
    cases hblock : encodeOwnBlock zstd hash level opts chunk with
    | error e =>
      rw [hblock] at h
      cases (Prod.mk.inj h).1
    | ok block =>
      rw [hblock] at h
      dsimp only at h ⊢
      cases hwrite : disk.write progress.index.length with
      | some e =>
        rw [hwrite] at h
        cases (Prod.mk.inj h).1
      | none =>
        rw [hwrite] at h
        have hend : (progress.add chunk block progress.files).logicalEnd=
            progress.logicalEnd+chunk.length := rfl
        have hrest := ih h (fun other hother => hfilled other (mem_cons_of_mem _ hother))
          (by rw [hend]; omega)
        by_cases hlast : logicalSize≤(progress.add chunk block progress.files).logicalEnd
        · -- the payload is read, so the file encoder has no more chunks either
          have hnone : pending=[] := by
            cases pending with
            | nil => rfl
            | cons next pending =>
              have hnext := length_pos_iff.mpr
                (hfilled next (mem_cons_of_mem _ mem_cons_self))
              rw [flatten_cons,length_append] at hsize
              omega
          rw [hnone] at h
          obtain rfl := Except.ok.inj (Prod.mk.inj h).1
          rw [if_pos hlast]
        · rwa [if_neg hlast]

theorem encodeBlocksFromReader_of_file {disk' : DiskErrors} (hown : opts.dedup=false)
    {source part : Bytes} {blockSize totalLen : ℕ} {refs : List BlockRef} (hblock : 0<blockSize)
    (h : encodeFillsToFile zstd hash disk level opts (chunks blockSize source) source.length blockSize
      files=(.ok (totalLen,refs,part),files')) :
    ∃ progress,encodeBlocksFromReader zstd hash disk' level opts source.length
        (fills blockSize ⟨source,[]⟩) ⟨[],[],[],0,files⟩=(.ok progress,files) ∧
      progress.logicalEnd=source.length ∧
      totalLen=fixedHeaderLenV1Level+progress.index.length*indexEntryLen+progress.data.length ∧
      part=writeBlobHeaderV1 source.length blockSize progress.index opts.dictId.toNat
        (headerFlags opts) (clampZstdLevel level).toNat++progress.data := by
  have hfills : fills blockSize (⟨source,[]⟩ : Source UInt8)=chunks blockSize source :=
    fills_eq_chunks hblock ⟨source,[]⟩
  have hflatten := chunks_flatten hblock source
  unfold encodeFillsToFile at h
  dsimp only at h
  rcases hloop : encodeChunks zstd hash disk level opts source.length (chunks blockSize source)
      ⟨[],[],[],0,files⟩ with ⟨outcome,after⟩
  rw [hloop] at h
  cases outcome with
  | error e => cases (Prod.mk.inj h).1
  | ok progress =>
    have hmemory := @encodeBlocksFromReader_of_chunks zstd hash disk level opts after disk' hown
      source.length (chunks blockSize source) ⟨[],[],[],0,files⟩ progress hloop
      (fun chunk hchunk => (mem_chunks hblock hchunk).1) (by rw [hflatten]; exact Nat.zero_add _)
    dsimp only at h
    split at h
    · cases (Prod.mk.inj h).1
    rename_i hsizes
    obtain ⟨hend,hcount⟩ := not_or.mp hsizes
    rw [not_not] at hend hcount
    split at h
    · cases (Prod.mk.inj h).1
    obtain ⟨rfl,hrest⟩ := Prod.mk.inj (Except.ok.inj (Prod.mk.inj h).1)
    cases hrest
    rw [hfills]
    refine ⟨progress,hmemory,hend,by rw [hcount],?_⟩
    unfold writeAtStart
    rw [drop_left' (by rw [length_replicate,writeBlobHeaderV1_length,hcount])]

/-- Without sharing, where encoding a file finds that it is stored as it is, so does
encoding the payload in memory, and where it writes a container, that is what encoding in
memory gives, however the reads of the file are split. -/
theorem encoders_agree {disk' : DiskErrors} {payload stored : Bytes} {sizes : List ℕ}
    {blockSize minSize : ℕ} {objectKey contentType : Option BlobFilenames.Text}
    {extra : List BlobFilenames.Text} {encoding : FileEncoding} {out : Option Bytes}
    {later : BlockFiles} (hown : opts.dedup=false) (hblock : 4096≤blockSize)
    (hfile : encodeFileFromReads zstd hash disk level opts ⟨payload,sizes⟩ payload.length blockSize
      (.new objectKey contentType payload.length minSize extra) files=⟨.ok encoding,out,files'⟩)
    (hmemory : encodeBlobForStorage zstd hash disk' level opts payload blockSize
      (.new objectKey contentType payload.length minSize extra) files=(.ok stored,later)) :
    match encoding with | .raw => stored=payload | .indexed _ => out=some stored := by
  have hmax : max blockSize 4096=blockSize := max_eq_left hblock
  have hhead : rawWouldBeMisread (payload.take fixedHeaderLenV1)=rawWouldBeMisread payload := by
    unfold rawWouldBeMisread
    rw [take_take,min_self]
  have hprefixed : (payload.take fixedHeaderLenV1).take 16=payload.take 16 := by
    rw [take_take]
    rfl
  rw [encodeFileFromReads_eq] at hfile
  unfold encodeFileForStorage encodeFillsForStorage at hfile
  unfold encodeBlobForStorage at hmemory
  dsimp only at hfile hmemory
  rw [hhead,hprefixed,hmax] at hfile
  split at hfile
  · cases hfile
  split at hfile
  · rename_i hskip
    rw [if_pos hskip] at hmemory
    obtain rfl := Except.ok.inj (EncodeResult.mk.inj hfile).1
    exact (Except.ok.inj (Prod.mk.inj hmemory).1).symm
  · rename_i hattempt
    rw [if_neg hattempt] at hmemory
    split at hfile
    · rename_i hskip
      rw [if_pos hskip] at hmemory
      obtain rfl := Except.ok.inj (EncodeResult.mk.inj hfile).1
      exact (Except.ok.inj (Prod.mk.inj hmemory).1).symm
    · rename_i hcompressible
      rw [if_neg hcompressible] at hmemory
      split at hfile
      · cases hfile
      rename_i totalLen refs part after hencoded
      obtain ⟨progress,hloop,hend,rfl,rfl⟩ :=
        @encodeBlocksFromReader_of_file zstd hash disk level opts files after disk' hown payload
          _ blockSize _ _ (by omega) hencoded
      rw [hloop] at hmemory
      dsimp only at hmemory
      rw [if_neg (not_not.mpr hend)] at hmemory
      split at hfile
      · rename_i hlonger
        rw [if_pos hlonger] at hmemory
        obtain rfl := Except.ok.inj (EncodeResult.mk.inj hfile).1
        exact (Except.ok.inj (Prod.mk.inj hmemory).1).symm
      · rename_i hshorter
        rw [if_neg hshorter] at hmemory
        split at hfile
        · cases hfile
        obtain rfl := Except.ok.inj (EncodeResult.mk.inj hfile).1
        rw [← Except.ok.inj (Prod.mk.inj hmemory).1]
        exact (EncodeResult.mk.inj hfile).2.1.symm

end Agreement

section Samples

/-- What encoding 24 bytes that begin like a container gives in memory. -/
def sampleStored : Except String Bytes :=
  (encodeBlobForStorage plainZstd plainHash .none 3 plainOptions (magicPayload 20) 4096
    (.new none none (magicPayload 20).length 4096 []) ∅).1

/-- The 24 bytes, read from a file in pieces of at most seven, are put into the container
that encoding them in memory gives. -/
theorem sample_encoders_agree :
    ∃ refs out stored,encodeFileFromReads plainZstd plainHash .none 3 plainOptions
        ⟨magicPayload 20,[7, 7, 7]⟩ (magicPayload 20).length 4096
        (.new none none (magicPayload 20).length 4096 []) ∅=⟨.ok (.indexed refs),out,∅⟩ ∧
      sampleStored=.ok stored ∧ out=some stored := by
  obtain ⟨refs,file,hencoded⟩ := encodeFileForStorage_wraps plainHash 3 plainZstd_succeeds
    (show plainOptions.dedup=false from rfl) (magicPayload_misread (show 8≤20 by decide)) 4096
    (.new none none (magicPayload 20).length 4096 []) ∅
  have hfile := (encodeFileFromReads_eq (⟨magicPayload 20,[7, 7, 7]⟩ : Source UInt8)
    (magicPayload 20).length 4096 (.new none none (magicPayload 20).length 4096 [])).trans hencoded
  have hsucceeds : sampleStored.isOk=true := by decide +kernel
  rcases hmemory : encodeBlobForStorage plainZstd plainHash .none 3 plainOptions (magicPayload 20) 4096
      (.new none none (magicPayload 20).length 4096 []) ∅ with ⟨outcome,later⟩
  have hstored : sampleStored=outcome := by
    unfold sampleStored
    rw [hmemory]
  cases outcome with
  | error e =>
    rw [hstored] at hsucceeds
    cases hsucceeds
  | ok stored =>
    have hagree : some file=some stored :=
      encoders_agree (show plainOptions.dedup=false from rfl) le_rfl hfile hmemory
    exact ⟨refs,some file,stored,hfile,hstored,hagree⟩

end Samples

end NebularOs.EncoderAgreement
