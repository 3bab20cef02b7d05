import Mathlib
import NebularOs.StreamLengths

/-!
# Downloads without metadata

Without a metadata table the size of an object is taken from the header of its file, or is
the length of the file where the header names none. That size then decides again how the
file is read. A manifest names the size of its object too, but is not asked for it. So its
object is reported with the length of the manifest, and unless the two are the same the
download is wrong. A raw file that begins like a container is asked, though its bytes are
no header.
-/

namespace NebularOs.BlobOnlyReads

open ByteFields EngineState BlobFormats SharedBlocks ChunkSources BlobDecoding IndexedReading
  RawStreams BodyStreams List

variable {Path : Type} [DecidableEq Path]

/-- The size that is reported for the object of a file. -/
def blobOnlySize (file : Bytes) : ℕ :=
  match readBlobLogicalSize file with
  | .ok size => size
  | .error _ => file.length

/-- What a download depends on: no ETag is known without metadata. -/
def blobOnlyContext (ctx : ReadContext) : ReadContext := { ctx with expectedEtag := none }

/-- A download of a whole object: its size and a reader of its body. -/
def getObject (ctx : ReadContext) (file : Bytes) (cache : Option (BlockDecodeCache Path)) :
    Except String (ℕ×BodyReader Path) :=
  let totalSize := blobOnlySize file
  match openObjectBodyStream (blobOnlyContext ctx) file cache totalSize 0 totalSize with
  | .error e => .error e
  | .ok body => .ok (totalSize,body)

/-- A file that holds an object in one of the formats. -/
inductive Holds (env : ReadEnv) (file content : Bytes) : BlobFormat→Prop
  /-- The file is the object, and is taken for it by those who know its size. -/
  | raw (hfile : file=content) (hformat : bodyFormat file content.length=.raw) :
    Holds env file content .raw
  /-- The blocks of the container decode to the object. -/
  | indexed {format : BlobFormat} {layout : BlobLayout} {contents : List Bytes}
    (hdetect : detectBlobFormat file=format) (hindexed : format=.nosb ∨ format=.nosi)
    (hlayout : readIndexedLayout file content.length=.ok layout)
    (hcontents : Contents env file layout contents) (hflatten : contents.flatten=content) :
    Holds env file content format
  /-- The frame decodes to the object. -/
  | frame {format : BlobFormat} {reader : ZstdBlobReader}
    (hdetect : detectBlobFormat file=format) (hframe : format=.nosz ∨ format=.nos2)
    (hreader : ZstdBlobReader.fromFile env file content.length format=.ok reader)
    (hended : reader.ended=true) (hout : reader.out=content) : Holds env file content format
  /-- The blocks that the manifest names make up the object. -/
  | manifest {blocks : List BlockRef}
    (hparse : parseDedupManifest file content.length=.ok blocks)
    (hserve : serve env blocks content.length=some content) : Holds env file content .nosd

/-- A download reports the size of the object and streams its content. -/
def Downloads (ctx : ReadContext) (pace : Pace) (path : Path) (file : Bytes)
    (cache : Option (BlockDecodeCache Path)) (content : Bytes) : Prop :=
  ∃ body last,getObject ctx file cache=.ok (content.length,body) ∧
    Yields (readChunk (blobOnlyContext ctx) pace path file) body content last

section Headers

variable {env : ReadEnv} {file header rest : Bytes} {layout : BlobLayout} {size : ℕ}

theorem parseLayoutBytes_size (h : parseLayoutBytes header=.ok layout) :
    layout.logicalSize=fromLe (slice 4 8 header) := by
  unfold parseLayoutBytes at h
  split at h
  · split at h
    · cases h
    dsimp only at h
    split at h
    · cases h
    cases h
    rfl
  · split at h
    · cases h
    dsimp only at h
    split at h
    · cases h
    cases h
    rfl
  · cases h

theorem readLayoutBehind_size (hheader : 12≤header.length)
    (h : readLayoutBehind header rest=.ok layout) :
    layout.logicalSize=fromLe (slice 4 8 header) := by
  unfold readLayoutBehind at h
  dsimp only at h
  split at h
  · cases h
  split at h
  · cases h
  · rw [parseLayoutBytes_size h,slice_append_left (by omega)]

theorem readExact_eq_ok {count : ℕ} {first : Bytes} (h : readExact count file=.ok (first,rest)) :
    first=file.take count ∧ count≤file.length := by
  unfold readExact at h
  split at h
  · cases h
  cases h
  exact ⟨rfl,by omega⟩

theorem readBlobLayout_size (h : readBlobLayout file=.ok layout) :
    layout.logicalSize=fromLe (slice 4 8 file) := by
  unfold readBlobLayout at h
  split at h
  · cases h
  rename_i first rest hfirst
  obtain ⟨rfl,hlong⟩ := readExact_eq_ok hfirst
  have hlength : (file.take fixedHeaderLen).length=20 := by
    rw [length_take]
    exact Nat.min_eq_left hlong
  have hfield : slice 4 8 (file.take fixedHeaderLen)=slice 4 8 file := slice_take (by decide)
  have happend : ∀ more : Bytes,slice 4 8 (file.take fixedHeaderLen++more)=slice 4 8 file :=
    fun more => by rw [slice_append_left (by omega),hfield]
  split at h
  · rw [readLayoutBehind_size (by omega) h,hfield]
  · split at h
    · cases h
    rename_i more rest' _
    dsimp only at h
    split at h
    · split at h
      · cases h
      rw [readLayoutBehind_size (by simp only [length_append]; omega) h,
        append_assoc,happend]
    · rw [readLayoutBehind_size (by simp only [length_append]; omega) h,happend]
  · cases h

theorem readBlobLogicalSize_eq (file : Bytes) : readBlobLogicalSize file=
    if detectBlobFormat file=.raw ∨ detectBlobFormat file=.nosd then
      .error "not a compressed blob" else .ok (fromLe (slice 4 8 file)) := by
  have hfield : slice 4 8 (file.take headerLenV2)=slice 4 8 file := slice_take (by decide)
  unfold readBlobLogicalSize
  dsimp only
  rw [detectBlobFormat_take (by decide),hfield]
  cases detectBlobFormat file <;> simp

theorem bodyFormat_of_size (h : fromLe (slice 4 8 file)=size) :
    bodyFormat file size=detectBlobFormat file := by
  have hfield : slice 4 8 (file.take fixedHeaderLenV1)=slice 4 8 file := slice_take (by decide)
  unfold bodyFormat storedBlobFormat
  dsimp only
  rw [detectBlobFormat_take (by decide),hfield,h]
  by_cases hraw : detectBlobFormat file=.raw
  · simp [hraw]
  · simp [hraw]

end Headers

section Streams

variable {ctx : ReadContext} {pace : Pace} {path : Path} {file content : Bytes}
  {cache : Option (BlockDecodeCache Path)} {format : BlobFormat}

theorem Holds.header_size (h : Holds ctx.env file content format) (hraw : format≠.raw) :
    fromLe (slice 4 8 file)=content.length ∧ detectBlobFormat file=format := by
  cases h with
  | raw => exact absurd rfl hraw
  | indexed hdetect _ hlayout _ _ =>
    refine ⟨?_,hdetect⟩
    unfold readIndexedLayout at hlayout
    split at hlayout
    · cases hlayout
    rename_i layout hread
    split at hlayout
    · cases hlayout
    rename_i hsize
    rw [← readBlobLayout_size hread]
    exact not_not.mp hsize
  | frame hdetect hframe hreader _ _ =>
    refine ⟨?_,hdetect⟩
    have hcompressed : ¬(detectBlobFormat file=.raw ∨ detectBlobFormat file=.nosd) := by
      rw [hdetect]
      rcases hframe with rfl | rfl <;> decide
    unfold ZstdBlobReader.fromFile at hreader
    rw [readBlobLogicalSize_eq,if_neg hcompressed] at hreader
    dsimp only at hreader
    by_contra hsize
    rw [if_pos hsize] at hreader
    cases hreader
  | manifest hparse _ =>
    unfold parseDedupManifest at hparse
    split at hparse
    · cases hparse
    rename_i hdetect
    dsimp only at hparse
    split at hparse
    · cases hparse
    rename_i hsize
    exact ⟨not_not.mp hsize,not_not.mp hdetect⟩

theorem Holds.bodyFormat (h : Holds ctx.env file content format) :
    BodyStreams.bodyFormat file content.length=format := by
  by_cases hraw : format=.raw
  · subst hraw
    cases h with
    | raw _ hformat => exact hformat
    | indexed _ hindexed _ _ _ => rcases hindexed with h | h <;> cases h
    | frame _ hframe _ _ _ => rcases hframe with h | h <;> cases h
  · obtain ⟨hsize,hdetect⟩ := h.header_size hraw
    rw [bodyFormat_of_size hsize,hdetect]

omit [DecidableEq Path] in
theorem openRaw_blobOnly (ctx : ReadContext) (file : Bytes) (size : ℕ) :
    ∃ body : BodyReader Path,openRaw (blobOnlyContext ctx) file size 0 size=.ok body := by
  unfold openRaw blobOnlyContext
  simp only [ite_self]
  exact ⟨_,rfl⟩

theorem manifest_yields {blocks : List BlockRef}
    (hparse : parseDedupManifest file content.length=.ok blocks)
    (hserve : serve ctx.env blocks content.length=some content) :
    ∃ body last,openManifest file content.length 0 content.length=.ok body ∧
      Yields (readChunk (blobOnlyContext ctx) pace path file) body content last := by
  have hreader : DedupBlobReader.fromFile file content.length 0 content.length=
      .ok ⟨(seekBlock 0 0 blocks).2,0-(seekBlock 0 0 blocks).1,content.length⟩ := by
    unfold DedupBlobReader.fromFile
    rw [hparse]
  have hinner : ∃ last,Yields (dedupChunk ctx.env)
      ⟨(seekBlock 0 0 blocks).2,0-(seekBlock 0 0 blocks).1,content.length⟩ content last := by
    rcases Nat.eq_zero_or_pos content.length with hzero | hpositive
    · rw [hzero,length_eq_zero_iff.mp hzero]
      exact ⟨_,yields_stop (dedupChunk_done _ _ _)⟩
    · have hseek := @yields_of_seek ctx.env blocks content.length 0 content.length content 0 hserve
        (by omega) hpositive
      rwa [slice_all] at hseek
  obtain ⟨last,hinner⟩ := hinner
  unfold openManifest
  rw [hreader]
  exact ⟨_,_,rfl,hinner.embed fun _ => rfl⟩

/-- Who knows the size of the object streams it from the file that holds it. -/
theorem Holds.streams (h : Holds ctx.env file content format)
    (hcache : FilledBy ctx.env path file cache) :
    ∃ body last,openObjectBodyStream (blobOnlyContext ctx) file cache content.length 0
        content.length=.ok body ∧
      Yields (readChunk (blobOnlyContext ctx) pace path file) body content last := by
  rw [openObjectBodyStream_eq,h.bodyFormat]
  cases h with
  | raw hfile _ =>
    subst hfile
    obtain ⟨body,hopen⟩ := @openRaw_blobOnly Path ctx file file.length
    obtain ⟨last,hyields⟩ := @openRaw_yields Path _ (blobOnlyContext ctx) pace path file file.length
      0 file.length body hopen
    rw [slice_all] at hyields
    exact ⟨body,last,hopen,hyields⟩
  | indexed _ hindexed hlayout hcontents hflatten =>
    obtain ⟨found,hfound,hread⟩ : ∃ found,readIndexedLayout file content.length=.ok found ∧
        readBlobLayout file=.ok found := by
      obtain ⟨reader,_,hreader,_⟩ := @range_of_contents Unit _ ctx.env () file _ _ content.length 0
        content.length none hlayout hcontents (by omega) fun kept hkept => nomatch hkept
      exact fromFile_layout hreader
    obtain rfl := Except.ok.inj (hfound.symm.trans hlayout)
    obtain ⟨reader,last,hreader,hyields,_⟩ := @range_of_contents Path _ ctx.env path file _ _
      content.length 0 content.length cache hlayout hcontents (by omega) (hcache.agrees hread)
    rw [hflatten,slice_all] at hyields
    have hopen : openIndexed file cache content.length 0 content.length=
        .ok (.indexed (reader,cache)) := by
      unfold openIndexed
      rw [hreader]
    rcases hindexed with rfl | rfl
    · exact ⟨_,_,hopen,hyields.embed fun _ => rfl⟩
    · exact ⟨_,_,hopen,hyields.embed fun _ => rfl⟩
  | @frame _ reader _ hframe hreader hended hout =>
    have hremaining : reader.remaining=reader.out.length := by
      rw [fromFile_remaining hreader,hout]
    obtain ⟨last,hyields,_⟩ := (@zstdChunk_keeps pace).yields ⟨hended,hremaining,rfl⟩
    rw [hout] at hyields
    have hopen : openFrame (blobOnlyContext ctx) file format content.length 0 content.length=
        .ok (.frame reader : BodyReader Path) := by
      unfold openFrame
      rw [show ZstdBlobReader.fromFile (blobOnlyContext ctx).env file content.length format=
        .ok reader from hreader]
      exact if_pos ⟨rfl,rfl⟩
    rcases hframe with rfl | rfl
    · exact ⟨_,_,hopen,hyields.embed fun _ => rfl⟩
    · exact ⟨_,_,hopen,hyields.embed fun _ => rfl⟩
  | manifest hparse hserve => exact manifest_yields hparse hserve

theorem downloads_iff_size (h : Holds ctx.env file content format)
    (hcache : FilledBy ctx.env path file cache) :
    Downloads ctx pace path file cache content ↔ blobOnlySize file=content.length := by
  unfold Downloads getObject
  dsimp only
  constructor
  · rintro ⟨body,last,hget,_⟩
    split at hget
    · cases hget
    · exact (Prod.mk.inj (Except.ok.inj hget)).1
  · intro hsize
    obtain ⟨body,last,hopen,hyields⟩ := @Holds.streams Path _ ctx pace path file content cache
      format h hcache
    rw [hsize,hopen]
    exact ⟨body,last,rfl,hyields⟩

theorem blobOnlySize_iff (h : Holds ctx.env file content format) :
    blobOnlySize file=content.length ↔
      (format=.raw→detectBlobFormat file=.raw ∨ detectBlobFormat file=.nosd) ∧
        (format=.nosd→file.length=content.length) := by
  unfold blobOnlySize
  rw [readBlobLogicalSize_eq]
  by_cases hraw : format=.raw
  · subst hraw
    have hformat := h.bodyFormat
    obtain ⟨rfl,_⟩ : file=content ∧ True := by
      cases h with
      | raw hfile _ => exact ⟨hfile,trivial⟩
      | indexed _ hindexed _ _ _ => rcases hindexed with h | h <;> cases h
      | frame _ hframe _ _ _ => rcases hframe with h | h <;> cases h
    by_cases hplain : detectBlobFormat file=.raw ∨ detectBlobFormat file=.nosd
    · simp [hplain]
    · have hother : fromLe (slice 4 8 file)≠file.length := by
        intro hsize
        rw [bodyFormat_of_size hsize] at hformat
        exact hplain (.inl hformat)
      simp [hplain,hother]
  · obtain ⟨hsize,hdetect⟩ := h.header_size hraw
    by_cases hmanifest : format=.nosd
    · simp [hdetect,hmanifest]
    · simp [hdetect,hraw,hmanifest,hsize]

/-- A download of an object from the file that holds it reports its size and streams its
content, exactly if the file is not a raw one that begins like a container or a frame, nor a
manifest of another length than the object. -/
theorem downloads_iff (h : Holds ctx.env file content format)
    (hcache : FilledBy ctx.env path file cache) : Downloads ctx pace path file cache content ↔
      (format=.raw→detectBlobFormat file=.raw ∨ detectBlobFormat file=.nosd) ∧
        (format=.nosd→file.length=content.length) := by
  rw [downloads_iff_size h hcache,blobOnlySize_iff h]

end Streams

section Manifest

/-- One shared block. -/
def sharedBlock : Bytes := [1, 2, 3]

/-- A context with the file of the block. -/
def sharedContext : ReadContext :=
  { plainContext with
    env := { plainEnv with
      blocks := some ((∅ : BlockFiles).insert (plainHash sharedBlock) sharedBlock) } }

/-- The manifest of an object that is the block. -/
def sharedManifest : Bytes :=
  dedupMagic++le 8 3++le 4 1++le 8 (plainHash sharedBlock).toNat++le 4 3

theorem sharedManifest_holds : Holds sharedContext.env sharedManifest sharedBlock .nosd := by
  have hparse : parseDedupManifest sharedManifest sharedBlock.length=
      .ok [(plainHash sharedBlock,3)] := by decide +kernel
  have hserve : serve sharedContext.env [(plainHash sharedBlock,3)] sharedBlock.length=
      some sharedBlock := by decide +kernel
  exact .manifest hparse hserve

/-- The object is reported with the length of the manifest, and its download does not stream
it. -/
theorem manifest_size_reported : Holds sharedContext.env sharedManifest sharedBlock .nosd ∧
    blobOnlySize sharedManifest=28 ∧
    ¬Downloads sharedContext slowPace () sharedManifest (none : Option (BlockDecodeCache Unit))
      sharedBlock := by
  have hsize : blobOnlySize sharedManifest=28 := by decide +kernel
  refine ⟨sharedManifest_holds,hsize,fun ⟨body,last,hget,_⟩ => ?_⟩
  unfold getObject at hget
  dsimp only at hget
  split at hget
  · cases hget
  have hsame := (Prod.mk.inj (Except.ok.inj hget)).1
  rw [hsize] at hsame
  exact absurd hsame (by decide)

/-- A raw file is downloaded as it is. -/
theorem raw_file_downloads : Holds plainContext.env [1, 2, 3] [1, 2, 3] .raw ∧
    Downloads plainContext slowPace () [1, 2, 3] (none : Option (BlockDecodeCache Unit))
      [1, 2, 3] := by
  have hholds : Holds plainContext.env [1, 2, 3] [1, 2, 3] .raw := .raw rfl (by decide)
  have hcache : FilledBy plainContext.env () [1, 2, 3] (none : Option (BlockDecodeCache Unit)) :=
    .fresh fun kept hkept => nomatch hkept
  exact ⟨hholds,(downloads_iff hholds hcache).mpr ⟨fun _ => .inl (by decide),
    fun h => nomatch h⟩⟩

end Manifest

end NebularOs.BlobOnlyReads
