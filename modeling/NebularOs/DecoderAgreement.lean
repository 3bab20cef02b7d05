import Mathlib
import NebularOs.IndexedReading
import NebularOs.LayoutAgreement

/-!
# The two decoders of containers agree

A container is decoded from memory as a whole, or read from a file block by block, with
a cache of decoded blocks or without. The reader from a file is the stricter one: a
block has to end before the next begins. Whatever it accepts, the other accepts with the
same bytes, also where the bytes were not written by the encoder.
-/

namespace NebularOs.DecoderAgreement

open ByteFields EngineState BlobFormats SharedBlocks ChunkSources BlobDecoding IndexedReading List

section Blocks

variable {env : ReadEnv} {file : Bytes} {layout : BlobLayout} {blockIdx : ℕ} {block : Bytes}

theorem readBlockPayloadBytes_eq (env : ReadEnv) (blob : Bytes) (layout : BlobLayout)
    (blockIdx : ℕ) : readBlockPayloadBytes env blob layout blockIdx=
      match parseBlockHeaderAt blob (layout.fileOffsetForBlock blockIdx) layout with
      | .error e => .error e | .ok parsed =>
        match blockPayload blob parsed (layout.fileOffsetForBlock blockIdx) with
        | .error e => .error e
        | .ok payload => decodeBlockPayload env payload parsed (layout.logicalLen blockIdx) := by
  unfold readBlockPayloadBytes
  dsimp only
  cases parseBlockHeaderAt blob (layout.fileOffsetForBlock blockIdx) layout with
  | error e => rfl
  | ok parsed =>
    dsimp only
    cases blockPayload blob parsed (layout.fileOffsetForBlock blockIdx) with
    | error e => rfl
    | ok payload =>
      unfold decodeWithCache
      dsimp only [lookupCached]
      cases decodeBlockPayload env payload parsed (layout.logicalLen blockIdx) with
      | error e | ok decoded => rfl

theorem parseBlockHeaderAt_slice {offset : ℕ} (h : offset+layout.blockHeaderLen≤file.length) :
    parseBlockHeaderAt (slice offset layout.blockHeaderLen file) 0 layout=
      parseBlockHeaderAt file offset layout := by
  have hlength := slice_length h
  have hwhole : slice 0 layout.blockHeaderLen (slice offset layout.blockHeaderLen file)=
      slice offset layout.blockHeaderLen file := by
    have hall := slice_all (slice offset layout.blockHeaderLen file)
    rwa [hlength] at hall
  unfold parseBlockHeaderAt
  dsimp only
  rw [if_neg (by omega),if_neg (by omega),hwhole]

theorem readBlockPayloadBytes_of_readBlock (h : readBlock env file layout blockIdx=.ok block) :
    readBlockPayloadBytes env file layout blockIdx=.ok block := by
  rw [readBlock_eq] at h
  split at h
  · cases h
  rename_i hextent
  rw [parseBlockHeaderAt_slice (by omega)] at h
  rw [readBlockPayloadBytes_eq]
  cases hparse : parseBlockHeaderAt file (layout.fileOffsetForBlock blockIdx) layout with
  | error e =>
    rw [hparse] at h
    cases h
  | ok parsed =>
    rw [hparse] at h
    dsimp only at h ⊢
    have hheader : parsed.headerLen=layout.blockHeaderLen := by
      unfold parseBlockHeaderAt at hparse
      dsimp only at hparse
      split at hparse
      · cases hparse
      cases hparse
      rfl
    split at h
    · cases h
    rename_i hpayload
    have hinside : blockPayload file parsed (layout.fileOffsetForBlock blockIdx)=
        .ok (slice (layout.fileOffsetForBlock blockIdx+layout.blockHeaderLen) parsed.payloadLen
          file) := by
      unfold blockPayload
      rw [hheader,if_neg (by omega)]
    rwa [hinside]

theorem readBlockPayloadBytes_length (h : readBlockPayloadBytes env file layout blockIdx=.ok block) :
    block.length=layout.logicalLen blockIdx := by
  rw [readBlockPayloadBytes_eq] at h
  split at h
  · cases h
  split at h
  · cases h
  · exact decodeBlockPayload_length h

end Blocks

section Whole

variable {env : ReadEnv} {file all : Bytes} {layout : BlobLayout} {contents : List Bytes}

/-- Chunks of all blocks, as they are decoded from memory. -/
structure Decoded (env : ReadEnv) (blob : Bytes) (layout : BlobLayout) (contents : List Bytes) :
    Prop where
  /-- There is one for each block. -/
  count : contents.length=layout.blockCount
  /-- Each is what its block decodes to. -/
  blocks : ∀ {blockIdx block},contents[blockIdx]?=some block →
    readBlockPayloadBytes env blob layout blockIdx=.ok block

theorem Decoded.divided (h : Decoded env file layout contents) : Divided layout contents :=
  ⟨h.count,fun hblock => readBlockPayloadBytes_length (h.blocks hblock)⟩

theorem decoded_of_contents (h : Contents env file layout contents) :
    Decoded env file layout contents :=
  ⟨h.count,fun hblock => readBlockPayloadBytes_of_readBlock (h.blocks hblock)⟩

/-- Blocks that are decoded one after the other. -/
theorem readBlocks_eq_ok {numbers : List ℕ} :
    readBlocks env file layout numbers=.ok all ↔ ∃ contents : List Bytes,all=contents.flatten ∧
      List.Forall₂ (fun blockIdx block => readBlockPayloadBytes env file layout blockIdx=.ok block)
        numbers contents := by
  induction numbers generalizing all with
  | nil =>
    constructor
    · intro h
      cases h
      exact ⟨[],rfl,.nil⟩
    · rintro ⟨contents,rfl,hall⟩
      cases hall
      rfl
  | cons number numbers ih =>
    unfold readBlocks
    cases hfirst : readBlockPayloadBytes env file layout number with
    | error e =>
      refine ⟨fun h => (nomatch h),?_⟩
      rintro ⟨contents,rfl,hall⟩
      cases hall with
      | cons hblock hrest =>
        rw [hfirst] at hblock
        cases hblock
    | ok block =>
      dsimp only
      constructor
      · intro h
        cases hlater : readBlocks env file layout numbers with
        | error e =>
          rw [hlater] at h
          cases h
        | ok rest =>
          rw [hlater] at h
          cases h
          obtain ⟨contents,rfl,hall⟩ := ih.mp hlater
          exact ⟨block::contents,rfl,.cons hfirst hall⟩
      · rintro ⟨contents,rfl,hall⟩
        cases hall with
        | @cons _ other _ contents hblock hrest =>
          rw [hfirst] at hblock
          cases hblock
          rw [ih.mpr ⟨contents,rfl,hrest⟩]
          rfl

theorem readBlocks_range_eq_ok : readBlocks env file layout (List.range layout.blockCount)=.ok all ↔
      ∃ contents,Decoded env file layout contents ∧ all=contents.flatten := by
  rw [readBlocks_eq_ok]
  constructor
  · rintro ⟨contents,rfl,hall⟩
    obtain ⟨hlength,hget⟩ := forall₂_iff_get.mp hall
    rw [length_range] at hlength
    refine ⟨contents,⟨hlength.symm,fun {blockIdx block} hblock => ?_⟩,rfl⟩
    obtain ⟨hinside,rfl⟩ := List.getElem?_eq_some_iff.mp hblock
    have hread := hget blockIdx (by rw [length_range]; omega) hinside
    simpa using hread
  · rintro ⟨contents,hdecoded,rfl⟩
    refine ⟨contents,rfl,forall₂_iff_get.mpr ⟨?_,fun number hnumber hinside => ?_⟩⟩
    · rw [length_range,hdecoded.count]
    · have hread := hdecoded.blocks (List.getElem?_eq_getElem hinside)
      simpa using hread

theorem container_of_parsed (h : parseLayoutBytes file=.ok layout) : Container file := by
  by_contra hother
  obtain ⟨e,he⟩ := (layouts_of_other hother).1
  rw [he] at h
  cases h

theorem decompressBlob_eq_ok (hparse : parseLayoutBytes file=.ok layout) {logicalSize : ℕ} :
    decompressBlob env file logicalSize=.ok all ↔ layout.logicalSize=logicalSize ∧
      ∃ contents,Decoded env file layout contents ∧ all=contents.flatten := by
  have hindexed : decompressBlob env file logicalSize=decompressIndexedBlob env file logicalSize := by
    unfold decompressBlob
    rcases container_of_parsed hparse with hformat | hformat
    · rw [hformat]
    · rw [hformat]
  rw [hindexed,← readBlocks_range_eq_ok]
  unfold decompressIndexedBlob
  rw [hparse]
  dsimp only
  by_cases hsize : layout.logicalSize=logicalSize
  · rw [if_neg (not_not.mpr hsize)]
    exact ⟨fun h => ⟨hsize,h⟩,fun h => h.2⟩
  · rw [if_pos hsize]
    exact ⟨fun h => (nomatch h),fun h => absurd h.1 hsize⟩

end Whole

section Ranges

variable {Path : Type} [DecidableEq Path] {env : ReadEnv} {path : Path} {file : Bytes}
  {layout : BlobLayout}

/-- A range that is read to its end has its length, and it is that part of what all blocks
decode to. -/
theorem range_of_yields (hvalid : ValidLayout layout)
    {state last : IndexedBlobReader×Option (BlockDecodeCache Path)} {items : Bytes}
    (hyields : Yields (nextChunk env path file) state items last)
    (hwithin : Within env path file layout state) :
    items.length=state.1.stop-state.1.pos ∧ ∀ contents,Decoded env file layout contents →
      items=slice state.1.pos (state.1.stop-state.1.pos) contents.flatten := by
  refine Yields.induct (motive := fun state items _ => Within env path file layout state →
    items.length=state.1.stop-state.1.pos ∧ ∀ contents,Decoded env file layout contents →
      items=slice state.1.pos (state.1.stop-state.1.pos) contents.flatten) ?_ ?_ hyields hwithin
  · rintro ⟨reader,cache⟩ last hread ⟨_,_,hbefore,_,_⟩
    have hdone := done_of_none hread
    have hnothing : reader.stop-reader.pos=0 := by omega
    rw [hnothing]
    exact ⟨rfl,fun contents _ => rfl⟩
  · intro state chunk next rest last hread _ ih hstate
    obtain ⟨hnext,hreader,hless,hstart,hend,hchunkLength,block,hblock,hchunk⟩ :=
      hstate.chunk hvalid hread
    obtain ⟨hlength,hrest⟩ := ih hnext
    rw [hreader] at hlength hrest
    dsimp only at hlength hrest
    have hsplit : state.1.stop-state.1.pos=
        chunk.length+(state.1.stop-(state.1.pos+chunk.length)) := by omega
    refine ⟨by rw [length_append]; omega,fun contents hcontents => ?_⟩
    -- the chunk lies within a block, which is decoded the same from memory
    have hdivided := hcontents.divided
    obtain ⟨same,hsame⟩ : ∃ same,contents[state.1.blockIdx]?=some same :=
      ⟨_,List.getElem?_eq_getElem (by rw [hcontents.count]; exact hless)⟩
    have hequal : same=block := by
      have hmemory := hcontents.blocks hsame
      rw [readBlockPayloadBytes_of_readBlock hblock] at hmemory
      exact (Except.ok.inj hmemory).symm
    rw [hequal] at hsame
    rw [hsplit,slice_add,hdivided.slice_within hvalid hsame hstart (by omega),← hchunk,
      ← hrest contents hcontents]

/-- A whole read without a cache that ends has given what the container decodes to. A
range that is read to its end, without a cache or with one that holds of this path only
what reads of the same bytes left, has the length that was asked for, and it is that part of what the
container decodes to, if it does. -/
theorem indexed_reads_agree (env : ReadEnv) (path : Path) (file : Bytes) (logicalSize : ℕ) :
    (∀ reader items last, IndexedBlobReader.fromFile file logicalSize 0 logicalSize=.ok reader →
      Yields (nextChunk env path file) (reader,none) items last →
        decompressBlob env file logicalSize=.ok items) ∧
    ∀ rangeStart length reader cache items last,
      IndexedBlobReader.fromFile file logicalSize rangeStart length=.ok reader →
      FilledBy env path file cache →
      Yields (nextChunk env path file) (reader,cache) items last →
        items.length=length ∧ ∀ all,decompressBlob env file logicalSize=.ok all →
          items=slice rangeStart length all := by
  constructor
  · intro reader items last hreader hyields
    obtain ⟨layout,hlayout,hread⟩ := fromFile_layout hreader
    obtain ⟨_,hsize⟩ := readIndexedLayout_valid hlayout
    rw [decompressBlob_eq_ok (parseLayoutBytes_of_read hread)]
    obtain ⟨contents,hcontents,hitems⟩ :=
      contents_of_whole hlayout hreader (by intro kept hkept; cases hkept) hyields
    exact ⟨hsize,contents,decoded_of_contents hcontents,hitems⟩
  · intro rangeStart length reader cache items last hreader hfilled hyields
    obtain ⟨layout,hlayout,hread⟩ := fromFile_layout hreader
    obtain ⟨hvalid,_⟩ := readIndexedLayout_valid hlayout
    obtain ⟨hwithin,hpos,hstop,_⟩ := fromFile_within hlayout hreader (hfilled.agrees hread)
    obtain ⟨hlength,hslice⟩ := range_of_yields hvalid hyields hwithin
    have hcount : reader.stop-reader.pos=length := by omega
    rw [hcount] at hlength hslice
    refine ⟨hlength,fun all hall => ?_⟩
    obtain ⟨_,contents,hcontents,rfl⟩ := (decompressBlob_eq_ok (parseLayoutBytes_of_read hread)).mp hall
    rw [hslice contents hcontents,hpos]

end Ranges

section Samples

/-- A container of the first indexed format with one block that holds three bytes. -/
def sampleContainer : Bytes :=
  nosbMagic++le 8 3++le 4 4096++le 4 1++(le 8 0++le 8 3)++([1, 0, 0, 0]++le 4 3)++[97, 98, 99]

/-- Its layout. -/
def sampleLayout : BlobLayout :=
  ⟨.v0,3,4096,0,0,0,[⟨0,3⟩],36⟩

/-- The three bytes are read from the file, and so they are decoded from memory. Of the
last two of them, read with a cache, the same is true. -/
theorem sample_reads_agree :
    (∃ last,Yields (nextChunk plainEnv () sampleContainer) (⟨sampleLayout,false,0,0,3⟩,none)
        [97, 98, 99] last) ∧ decompressBlob plainEnv sampleContainer 3=.ok [97, 98, 99] ∧
      slice 1 2 [97, 98, 99]=([98, 99] : Bytes) := by
  have hwhole : Yields (nextChunk plainEnv () sampleContainer) (⟨sampleLayout,false,0,0,3⟩,none)
      [97, 98, 99] (⟨sampleLayout,false,1,3,3⟩,none) := ⟨2,by rfl⟩
  have hrange : Yields (nextChunk plainEnv () sampleContainer)
      (⟨sampleLayout,true,0,1,3⟩,some ⟨[],4,0,64⟩) [98, 99]
      (⟨sampleLayout,true,1,3,3⟩,
        some ⟨[(((),0,(plainHash [97, 98, 99]).toNat),[97, 98, 99])],4,3,64⟩) := ⟨2,by rfl⟩
  have hagree := indexed_reads_agree plainEnv () sampleContainer 3
  have hall := hagree.1 _ _ _ (by rfl) hwhole
  have hpart := hagree.2 1 2 _ _ _ _ (by rfl)
    (.fresh fun kept hkept entry hentry => by cases hkept; cases hentry) hrange
  exact ⟨⟨_,hwhole⟩,hall,(hpart.2 _ hall).symm⟩

end Samples

end NebularOs.DecoderAgreement
