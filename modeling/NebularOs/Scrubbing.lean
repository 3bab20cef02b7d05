import Mathlib
import NebularOs.DecoderAgreement
import NebularOs.StreamLengths
import NebularOs.WritePath

/-!
# Light and deep scrubs of one blob

A scrub checks the file of an object against its metadata. A light scrub compares sizes
and looks at the extents that the block table of a container gives its blocks. A deep
scrub decodes the whole object and compares it with its ETag. What passes the deep scrub
passes the light one: a block that was decoded lay within the file.
-/

namespace NebularOs.Scrubbing

open ByteFields EngineState BlobFormats SharedBlocks ChunkSources BlobDecoding IndexedReading
  RawStreams BodyStreams DecoderAgreement

/-- How thorough a scrub is. -/
inductive ScrubMode
  | light
  | deep
  deriving DecidableEq

/-- ETags that are computed from the content: sixteen lowercase hexadecimal digits. -/
def isContentEtag (etag : String) : Bool :=
  etag.toList.length==16 &&
    etag.toList.all fun ch => ch.isDigit || (decide ('a' ≤ ch) && decide (ch≤ 'f'))

/-- The first bytes of a file, and its length. -/
def blobHead (file : Bytes) : Bytes×ℕ := (file.take 64,file.length)

/-- Header and block table of a container. -/
def indexedLayout (file : Bytes) : Option BlobLayout := (readBlobLayout file).toOption

/-- Every block of a container has room for its header, and ends within the file. -/
def indexedExtentsFit (layout : BlobLayout) (expectedSize fileLen : ℕ) : Bool :=
  layout.logicalSize==expectedSize &&
    (List.range layout.blockCount).all fun idx =>
      let start := layout.fileOffsetForBlock idx
      let stop := if idx+1<layout.blockCount then layout.fileOffsetForBlock (idx+1) else fileLen
      decide (min (start+layout.blockHeaderLen) (2^64-1) ≤ stop) && decide (stop≤fileLen)

/-- The content agrees with the ETag, where that is computed from the content. -/
def matchesEtag (env : ReadEnv) (etag : Option String) (content : Bytes) : Bool :=
  (etag.filter isContentEtag).all fun expected => hexText (env.hash content)==expected

/-- Decoding a blob from its beginning to its end, without a cache. No result means that
the fuel did not suffice. -/
def drainBlob (ctx : ReadContext) (pace : Pace) (file : Bytes) (size : ℕ) (etag : Option String)
    (fuel : ℕ) : Option (Except String Unit) :=
  match openObjectBodyStream ctx file (none : Option (BlockDecodeCache Unit)) size 0 size with
  | .error e => some (.error e)
  | .ok body =>
    match (collect (readChunk ctx pace () file) fuel body).1 with
    | none => none
    | some (.error e) => some (.error e)
    | some (.ok content) =>
      if content.length≠size then
        some (.error s!"decoded {content.length} bytes, expected {size}")
      else if !matchesEtag ctx.env etag content then
        some (.error "decoded content does not match its ETag")
      else some (.ok ())

/-- A deep scrub of a blob that is not raw. -/
def drains (ctx : ReadContext) (pace : Pace) (file : Bytes) (size : ℕ) (etag : Option String)
    (fuel : ℕ) : Option Bool :=
  (drainBlob ctx pace file size etag fuel).map fun result => result.toOption.isSome

/-- A light scrub of a blob that is not raw. -/
def scrubsLight (file : Bytes) (format : BlobFormat) (size : ℕ) : Bool :=
  match format with
  | .nosb => (indexedLayout file).any fun layout => indexedExtentsFit layout size file.length
  | .nosi => (indexedLayout file).any fun layout => indexedExtentsFit layout size file.length
  | _ => decide (8<file.length)

/-- The scrub of one blob. -/
def scrubBlobFile (ctx : ReadContext) (pace : Pace) (file : Bytes) (size : ℕ) (mode : ScrubMode)
    (etag : Option String) (fuel : ℕ) : Option Bool :=
  let (head,fileLen) := blobHead file
  match storedBlobFormat head fileLen size with
  | .raw =>
    if WritePath.asI64 fileLen≠size then some false
    else match mode with
      | .light => some true
      | .deep => some (matchesEtag ctx.env etag file)
  | format =>
    match mode with
    | .light => some (scrubsLight file format size)
    | .deep => drains ctx pace file size etag fuel

section Formats

variable {file : Bytes} {size : ℕ}

theorem storedBlobFormat_take {count : ℕ} (h : 16 ≤ count) (fileLen size : ℕ) :
    storedBlobFormat (file.take count) fileLen size=storedBlobFormat file fileLen size := by
  have hlength : 12≤(file.take count).length ↔ 12≤file.length := by
    rw [List.length_take]
    omega
  unfold storedBlobFormat
  rw [detectBlobFormat_take h,slice_take (show 4+8 ≤ count by omega)]
  simp only [hlength]

theorem bodyFormat_eq (file : Bytes) (size : ℕ) :
    bodyFormat file size=storedBlobFormat (blobHead file).1 (blobHead file).2 size := by
  unfold bodyFormat blobHead
  dsimp only
  rw [storedBlobFormat_take (by decide),storedBlobFormat_take (by decide),
    detectBlobFormat_take (by decide)]
  split
  · rfl
  rename_i hraw
  unfold storedBlobFormat
  rw [not_not.mp hraw]
  rfl

theorem length_of_bodyFormat (h : bodyFormat file size≠.raw) : 12≤file.length := by
  have hdetect : detectBlobFormat file≠.raw := by
    intro hraw
    refine h ?_
    unfold bodyFormat
    dsimp only
    rw [detectBlobFormat_take (by decide),hraw]
    rfl
  unfold detectBlobFormat at hdetect
  split_ifs at hdetect with hnosi hnosb hnosz hnos2 hnosd
  · exact hnosi.1
  · exact hnosb.1
  · exact hnosz.1
  · exact le_trans (by decide) hnos2.1
  · exact le_trans (by decide) hnosd.1
  · exact absurd rfl hdetect

end Formats

section Drains

variable {ctx : ReadContext} {pace : Pace} {file : Bytes} {size : ℕ} {etag : Option String}
  {fuel : ℕ}

theorem yields_of_drains (h : drains ctx pace file size etag fuel=some true) :
    ∃ body content last,openObjectBodyStream ctx file (none : Option (BlockDecodeCache Unit))
        size 0 size=.ok body ∧ Yields (readChunk ctx pace () file) body content last := by
  unfold drains drainBlob at h
  split at h
  · cases h
  rename_i body hopen
  rcases hcollect : collect (readChunk ctx pace () file) fuel body with ⟨outcome,last⟩
  rw [hcollect] at h
  match outcome,hcollect,h with
  | none,_,h => cases h
  | some (.error e),_,h => cases h
  | some (.ok content),hcollect,_ => exact ⟨body,content,last,hopen,fuel,hcollect⟩

theorem exists_drains (hformat : bodyFormat file size≠.raw) :
    ∃ fuel verdict,drains ctx pace file size etag fuel=some verdict := by
  cases hopen : openObjectBodyStream ctx file (none : Option (BlockDecodeCache Unit)) size 0 size with
  | error e =>
    refine ⟨0,false,?_⟩
    unfold drains drainBlob
    rw [hopen]
    rfl
  | ok body =>
    obtain ⟨outcome,⟨fuel,last,hcollect⟩,_⟩ :=
      @completes_of_format Unit _ ctx pace () file none size 0 size body hformat hopen
    refine ⟨fuel,?_⟩
    unfold drains drainBlob
    rw [hopen]
    dsimp only
    rw [hcollect]
    cases outcome with
    | error e => exact ⟨_,rfl⟩
    | ok content =>
      dsimp only
      split_ifs
      · exact ⟨_,rfl⟩
      · exact ⟨_,rfl⟩
      · exact ⟨_,rfl⟩

theorem openIndexed_of_format {body : BodyReader Unit}
    (hopen : openObjectBodyStream ctx file (none : Option (BlockDecodeCache Unit)) size 0 size=
      .ok body) (hformat : bodyFormat file size=.nosb ∨ bodyFormat file size=.nosi) :
    openIndexed file (none : Option (BlockDecodeCache Unit)) size 0 size=.ok body := by
  rw [openObjectBodyStream_eq] at hopen
  rcases hformat with hformat | hformat
  · rwa [hformat] at hopen
  · rwa [hformat] at hopen

end Drains

section Extents

variable {env : ReadEnv} {file : Bytes} {layout : BlobLayout} {contents : List Bytes} {size : ℕ}

theorem blockStop_of_readBlock {blockIdx : ℕ} {block : Bytes}
    (h : readBlock env file layout blockIdx=.ok block) :
    layout.fileOffsetForBlock blockIdx+layout.blockHeaderLen≤blockStop file layout blockIdx ∧
      blockStop file layout blockIdx≤file.length := by
  rw [readBlock_eq] at h
  split at h
  · cases h
  · omega

theorem extentsFit_of_contents (hsize : layout.logicalSize=size)
    (hcontents : Contents env file layout contents) :
    indexedExtentsFit layout size file.length=true := by
  unfold indexedExtentsFit
  rw [Bool.and_eq_true,beq_iff_eq,List.all_eq_true]
  refine ⟨hsize,fun idx hidx => ?_⟩
  have hblock : idx<contents.length := by
    rw [hcontents.count]
    exact List.mem_range.mp hidx
  obtain ⟨hstart,hstop⟩ := blockStop_of_readBlock
    (hcontents.blocks (List.getElem?_eq_getElem hblock))
  simp only [Bool.and_eq_true,decide_eq_true_eq]
  exact ⟨(min_le_left _ _).trans hstart,hstop⟩

theorem blockCount_of_empty (hvalid : ValidLayout layout) (hsize : layout.logicalSize=0) :
    layout.blockCount=0 := by
  by_contra hne
  have hgrows := hvalid.grows (Nat.pos_of_ne_zero hne)
  omega

theorem extentsFit_of_yields {path : Unit} {reader : IndexedBlobReader} {content : Bytes}
    {last : IndexedBlobReader×Option (BlockDecodeCache Unit)}
    (hlayout : readIndexedLayout file size=.ok layout)
    (hreader : IndexedBlobReader.fromFile file size 0 size=.ok reader)
    (hyields : Yields (nextChunk env path file) (reader,none) content last) :
    indexedExtentsFit layout size file.length=true := by
  obtain ⟨hvalid,hsize⟩ := readIndexedLayout_valid hlayout
  rcases Nat.eq_zero_or_pos size with rfl | hpositive
  · have hcount := blockCount_of_empty hvalid hsize
    unfold indexedExtentsFit
    simp [hsize,hcount]
  · have hagrees : Agrees env path file layout (none : Option (BlockDecodeCache Unit)) :=
      fun kept hkept => nomatch hkept
    obtain ⟨contents,hcontents,_⟩ := contents_of_whole hlayout hreader hagrees hyields
    exact extentsFit_of_contents hsize hcontents

end Extents

section Modes

variable {ctx : ReadContext} {pace : Pace} {file : Bytes} {size : ℕ} {etag : Option String}
  {fuel : ℕ}

theorem indexed_of_drains (hformat : bodyFormat file size=.nosb ∨ bodyFormat file size=.nosi)
    (h : drains ctx pace file size etag fuel=some true) :
    ((indexedLayout file).any fun layout => indexedExtentsFit layout size file.length)=true := by
  obtain ⟨body,content,last,hopen,hyields⟩ := yields_of_drains h
  have hindexed := openIndexed_of_format hopen hformat
  unfold openIndexed at hindexed
  split at hindexed
  · cases hindexed
  rename_i reader hreader
  cases hindexed
  obtain ⟨layout,hlayout,hread⟩ := fromFile_layout hreader
  obtain ⟨_,hinner⟩ : ∃ last,Yields (nextChunk ctx.env () file) (reader,none) content last :=
    hyields.project fun _ => rfl
  unfold indexedLayout
  rw [hread]
  exact extentsFit_of_yields hlayout hreader hinner

/-- A deep scrub comes to a verdict, and a blob that passes it passes the light scrub. -/
theorem light_of_deep (ctx : ReadContext) (pace : Pace) (file : Bytes) (size : ℕ)
    (etag : Option String) :
    (∃ fuel verdict,scrubBlobFile ctx pace file size .deep etag fuel=some verdict) ∧
    ∀ fuel,scrubBlobFile ctx pace file size .deep etag fuel=some true →
      ∀ fuel',scrubBlobFile ctx pace file size .light etag fuel'=some true := by
  have hformat := bodyFormat_eq file size
  unfold scrubBlobFile
  dsimp only
  rw [← hformat]
  cases hcase : bodyFormat file size with
  | raw =>
    split_ifs with hsize
    · exact ⟨⟨0,false,rfl⟩,fun fuel h => nomatch h⟩
    · exact ⟨⟨0,_,rfl⟩,fun _ _ _ => rfl⟩
  | nosb =>
    refine ⟨exists_drains (by rw [hcase]; decide),fun fuel h fuel' => congrArg some ?_⟩
    exact indexed_of_drains (.inl hcase) h
  | nosi =>
    refine ⟨exists_drains (by rw [hcase]; decide),fun fuel h fuel' => congrArg some ?_⟩
    exact indexed_of_drains (.inr hcase) h
  | nosz | nos2 | nosd =>
    have hlength := @length_of_bodyFormat file size (by rw [hcase]; decide)
    refine ⟨exists_drains (by rw [hcase]; decide),fun fuel _ fuel' => congrArg some ?_⟩
    exact decide_eq_true (by omega)

/-- A container of three bytes passes the deep scrub, which decodes it and compares it with its
ETag, and so the light one. -/
theorem sample_light_of_deep : isContentEtag (hexText (plainHash [97, 98, 99]))=true ∧
    scrubBlobFile plainContext slowPace sampleContainer 3 .deep
        (some (hexText (plainHash [97, 98, 99]))) 2=some true ∧
      scrubBlobFile plainContext slowPace sampleContainer 3 .light
        (some (hexText (plainHash [97, 98, 99]))) 0=some true := by
  have hdeep : scrubBlobFile plainContext slowPace sampleContainer 3 .deep
      (some (hexText (plainHash [97, 98, 99]))) 2=some true := by decide +kernel
  exact ⟨by decide +kernel,hdeep,(light_of_deep plainContext slowPace sampleContainer 3 _).2 2 hdeep 0⟩

end Modes

end NebularOs.Scrubbing
