import Mathlib
import NebularOs.BodyStreams

/-!
# Streams that end early

A body is announced with its length before it is streamed, so a stream that ends before
must end with an error. Readers of manifests, containers and frames count the bytes they
still have to give, and fail when their file has no more of them. A raw file is read to
its end, and where it is shorter than the range the stream just ends there.
-/

namespace NebularOs.BodyStreams

open ByteFields EngineState BlobFormats SharedBlocks ChunkSources BlobDecoding RawStreams List

/-- Readers of manifests count down what they have to give. -/
theorem dedupChunk_metered (env : ReadEnv) : Metered (dedupChunk env) DedupBlobReader.remaining
    (fun reader => reader.blocks.length) where
  stop := by
    intro reader next h
    unfold dedupChunk at h
    dsimp only at h
    split at h
    · assumption
    · split at h
      · cases h
      · split at h <;> cases h
  more := by
    intro reader chunk next h
    unfold dedupChunk at h
    dsimp only at h
    split at h
    · cases h
    split at h
    · cases h
    rename_i name size blocks hblocks
    split at h
    · cases h
    rename_i block _
    obtain ⟨hchunk,rfl⟩ := Prod.mk.inj h
    cases hchunk
    dsimp only
    rw [slice_length (by omega),hblocks,length_cons]
    omega

/-- Readers of frames count down what they have to give. -/
theorem zstdChunk_metered (pace : Pace) : Metered (zstdChunk pace) ZstdBlobReader.remaining
    (fun reader => reader.out.length) where
  stop := by
    intro reader next h
    by_cases hout : reader.out=[]
    · obtain ⟨other,hnext⟩ := @zstdChunk_of_nil pace reader hout
      rw [hnext] at h
      have houtcome := (Prod.mk.inj h).1
      split_ifs at houtcome
      assumption
    · obtain ⟨n,other,_,_,hnext⟩ := @zstdChunk_of_ne_nil pace reader hout
      rw [hnext] at h
      split at h <;> cases h
  more := by
    intro reader chunk next h
    by_cases hout : reader.out=[]
    · obtain ⟨other,hnext⟩ := @zstdChunk_of_nil pace reader hout
      rw [hnext] at h
      have houtcome := (Prod.mk.inj h).1
      split_ifs at houtcome
      cases houtcome
    · obtain ⟨n,other,hpositive,hle,hnext⟩ := @zstdChunk_of_ne_nil pace reader hout
      rw [hnext] at h
      split at h
      · cases h
      obtain ⟨hchunk,rfl⟩ := Prod.mk.inj h
      cases hchunk
      dsimp only
      rw [length_take,length_drop]
      omega

theorem rangeChunkFrom_counts {σ : Type} {read : Source σ UInt8} {owed left : σ→ℕ}
    (hread : Metered read owed left) {fuel : ℕ} {range next : RangeOf σ} {found : Option Bytes}
    (h : rangeChunkFrom read fuel range=(.ok found,next)) :
    ∃ chunk,found=some chunk ∧ range.remaining=chunk.length+next.remaining ∧
      left next.inner<left range.inner := by
  induction fuel generalizing range with
  | zero => cases h
  | succ fuel ih =>
    unfold rangeChunkFrom at h
    split at h
    · cases h
    · cases h
    · rename_i chunk inner hchunk
      obtain ⟨_,hless⟩ := hread.more hchunk
      split at h
      · obtain ⟨tail,htail,hcount,hleft⟩ := ih h
        exact ⟨tail,htail,hcount,hleft.trans hless⟩
      · obtain ⟨htail,rfl⟩ := Prod.mk.inj h
        refine ⟨_,(Except.ok.inj htail).symm,?_,hless⟩
        have hlength := length_take_le range.remaining (chunk.drop range.skip)
        dsimp only
        omega

theorem rangeChunk_metered {σ : Type} {read : Source σ UInt8} {owed left : σ→ℕ}
    (hread : Metered read owed left) : Metered (rangeChunk read) RangeOf.remaining
      (fun range => left range.inner) where
  stop := by
    intro range next h
    unfold rangeChunk at h
    dsimp only at h
    split at h
    · assumption
    · obtain ⟨chunk,hchunk,_⟩ := rangeChunkFrom_counts hread h
      cases hchunk
  more := by
    intro range chunk next h
    unfold rangeChunk at h
    dsimp only at h
    split at h
    · cases h
    obtain ⟨given,hgiven,hcount⟩ := rangeChunkFrom_counts hread h
    cases hgiven
    exact hcount

section Containers

variable {Path : Type} [DecidableEq Path] (env : ReadEnv) (path : Path) (file : Bytes)

/-- Blocks are passed over until one holds a byte of the range. -/
theorem nextBlock_counts {fuel : ℕ} {reader : IndexedBlobReader}
    {cache : Option (BlockDecodeCache Path)} {found : Option Bytes}
    {next : IndexedBlobReader×Option (BlockDecodeCache Path)}
    (hfuel : reader.blockIdx+fuel ≤ reader.layout.blockCount)
    (h : nextBlock env path file fuel (reader,cache)=(.ok found,next)) : ∃ chunk,found=some chunk ∧
      reader.stop-reader.pos=chunk.length+(next.1.stop-next.1.pos) ∧
      next.1.layout.blockCount-next.1.blockIdx < reader.layout.blockCount-reader.blockIdx := by
  induction fuel generalizing reader cache with
  | zero => cases h
  | succ fuel ih =>
    unfold nextBlock at h
    dsimp only at h
    split at h
    · cases h
    rename_i block after _
    split at h
    · obtain ⟨chunk,hchunk,hcount,hleft⟩ := ih (by dsimp only; omega) h
      refine ⟨chunk,hchunk,hcount,hleft.trans ?_⟩
      dsimp only
      omega
    · rename_i hshort
      obtain ⟨hchunk,rfl⟩ := Prod.mk.inj h
      refine ⟨_,(Except.ok.inj hchunk).symm,?_,?_⟩
      · dsimp only
        rw [slice_length (by omega)]
        omega
      · dsimp only
        omega

/-- Readers of containers count down what they have to give. -/
theorem nextChunk_metered : Metered (nextChunk env path file)
    (fun reader => reader.1.stop-reader.1.pos)
    (fun reader => reader.1.layout.blockCount-reader.1.blockIdx) where
  stop := by
    rintro ⟨reader,cache⟩ next h
    unfold nextChunk at h
    dsimp only at h
    split at h
    · dsimp only
      omega
    · by_cases hleft : reader.blockIdx ≤ reader.layout.blockCount
      · obtain ⟨chunk,hchunk,_⟩ := nextBlock_counts env path file (by omega) h
        cases hchunk
      · rw [Nat.sub_eq_zero_of_le (by omega)] at h
        cases h
  more := by
    rintro ⟨reader,cache⟩ chunk next h
    unfold nextChunk at h
    dsimp only at h
    split at h
    · cases h
    by_cases hleft : reader.blockIdx ≤ reader.layout.blockCount
    · obtain ⟨given,hgiven,hcount⟩ := nextBlock_counts env path file (by omega) h
      cases hgiven
      exact hcount
    · rw [Nat.sub_eq_zero_of_le (by omega)] at h
      cases h

end Containers

section Bodies

variable {Path : Type} [DecidableEq Path] {ctx : ReadContext} {pace : Pace} {path : Path}
  {file : Bytes} {cache : Option (BlockDecodeCache Path)}
  {logicalSize rangeStart contentLength : ℕ} {body : BodyReader Path}

/-- The format that decides how a body is streamed. -/
def bodyFormat (file : Bytes) (logicalSize : ℕ) : BlobFormat :=
  let peek := file.take fixedHeaderLenV1
  if detectBlobFormat peek≠.raw then storedBlobFormat peek file.length logicalSize else .raw

/-- The stream of a body gives the bytes that were announced, or ends with an error. -/
def CompleteOrError (ctx : ReadContext) (pace : Pace) (path : Path) (file : Bytes)
    (body : BodyReader Path) (contentLength : ℕ) : Prop :=
  ∃ outcome,Ends (readChunk ctx pace path file) body outcome ∧
    ∀ items,outcome=.ok items → items.length=contentLength

theorem openManifest_completes
    (h : openManifest file logicalSize rangeStart contentLength=.ok body) :
    CompleteOrError ctx pace path file body contentLength := by
  unfold openManifest DedupBlobReader.fromFile at h
  split at h
  · cases h
  rename_i reader hreader
  cases h
  split at hreader
  · cases hreader
  cases hreader
  obtain ⟨outcome,hends,hlength⟩ := (dedupChunk_metered ctx.env).ends _
  exact ⟨outcome,hends.embed fun _ => rfl,hlength⟩

theorem openIndexed_completes
    (h : openIndexed file cache logicalSize rangeStart contentLength=.ok body) :
    CompleteOrError ctx pace path file body contentLength := by
  unfold openIndexed IndexedBlobReader.fromFile at h
  split at h
  · cases h
  rename_i reader hreader
  cases h
  split at hreader
  · cases hreader
  split at hreader
  · cases hreader
    obtain ⟨outcome,hends,hlength⟩ := (nextChunk_metered ctx.env path file).ends (_,cache)
    refine ⟨outcome,hends.embed fun _ => rfl,fun items heq => ?_⟩
    rw [hlength items heq]
    exact Nat.add_sub_cancel_left rangeStart contentLength
  · cases hreader

theorem openFrame_completes {format : BlobFormat}
    (h : openFrame ctx file format logicalSize rangeStart contentLength=.ok body) :
    CompleteOrError ctx pace path file body contentLength := by
  unfold openFrame at h
  split at h
  · cases h
  rename_i reader hreader
  split at h
  · rename_i hwhole
    cases h
    obtain ⟨outcome,hends,hlength⟩ := (zstdChunk_metered pace).ends reader
    refine ⟨outcome,hends.embed fun _ => rfl,fun items heq => ?_⟩
    rw [hlength items heq,fromFile_remaining hreader,hwhole.2]
  · cases h
    obtain ⟨outcome,hends,hlength⟩ := (rangeChunk_metered (zstdChunk_metered pace)).ends
      ⟨reader,rangeStart,contentLength⟩
    exact ⟨outcome,hends.embed fun _ => rfl,hlength⟩

theorem openRaw_completes_iff (h : openRaw ctx file logicalSize rangeStart contentLength=.ok body) :
    CompleteOrError ctx pace path file body contentLength ↔
      contentLength=0 ∨ rangeStart+contentLength≤file.length := by
  obtain ⟨last,hyields⟩ := @openRaw_yields Path _ ctx pace path file logicalSize rangeStart
    contentLength body h
  have hlength : (slice rangeStart contentLength file).length=
      min contentLength (file.length-rangeStart) := by
    unfold slice
    rw [length_take,length_drop]
  constructor
  · rintro ⟨outcome,hends,hcomplete⟩
    have hsame := hcomplete _ (hends.unique hyields.ends)
    rw [hlength] at hsame
    omega
  · intro hfits
    refine ⟨_,hyields.ends,fun items heq => ?_⟩
    rw [← Except.ok.inj heq,hlength]
    omega

/-- The reader of a range of a body of a known format. -/
def openReader (ctx : ReadContext) (file : Bytes) (cache : Option (BlockDecodeCache Path))
    (format : BlobFormat) (logicalSize rangeStart contentLength : ℕ) :
    Except String (BodyReader Path) :=
  match format with
  | .nosd => openManifest file logicalSize rangeStart contentLength
  | .raw => openRaw ctx file logicalSize rangeStart contentLength
  | .nosb => openIndexed file cache logicalSize rangeStart contentLength
  | .nosi => openIndexed file cache logicalSize rangeStart contentLength
  | .nosz => openFrame ctx file format logicalSize rangeStart contentLength
  | .nos2 => openFrame ctx file format logicalSize rangeStart contentLength

omit [DecidableEq Path] in
theorem openObjectBodyStream_eq (ctx : ReadContext) (file : Bytes)
    (cache : Option (BlockDecodeCache Path)) (logicalSize rangeStart contentLength : ℕ) :
    openObjectBodyStream ctx file cache logicalSize rangeStart contentLength=
      openReader ctx file cache (bodyFormat file logicalSize) logicalSize rangeStart
        contentLength := rfl

theorem completes_of_format (hformat : bodyFormat file logicalSize≠.raw)
    (hopen : openObjectBodyStream ctx file cache logicalSize rangeStart contentLength=.ok body) :
    CompleteOrError ctx pace path file body contentLength := by
  rw [openObjectBodyStream_eq] at hopen
  cases hcase : bodyFormat file logicalSize with
  | raw => exact absurd hcase hformat
  | nosd =>
    rw [hcase] at hopen
    exact openManifest_completes hopen
  | nosb | nosi =>
    rw [hcase] at hopen
    exact openIndexed_completes hopen
  | nosz | nos2 =>
    rw [hcase] at hopen
    exact openFrame_completes hopen

/-- A body that is opened gives the bytes that were announced or ends with an error, exactly
if it is not streamed as a raw file, or no bytes were announced, or the file has them. -/
theorem completeOrError_iff
    (hopen : openObjectBodyStream ctx file cache logicalSize rangeStart contentLength=.ok body) :
    CompleteOrError ctx pace path file body contentLength ↔
      bodyFormat file logicalSize≠.raw ∨ contentLength=0 ∨
        rangeStart+contentLength≤file.length := by
  by_cases hformat : bodyFormat file logicalSize=.raw
  · rw [openObjectBodyStream_eq,hformat] at hopen
    rw [openRaw_completes_iff hopen]
    simp [hformat]
  · exact iff_of_true (completes_of_format hformat hopen) (.inl hformat)

end Bodies

section Truncated

/-- The second and third byte of a raw file of three bytes are streamed. -/
theorem whole_file_completes : ∃ body,openObjectBodyStream plainContext [1, 2, 3]
        (none : Option (BlockDecodeCache Unit)) 3 1 2=.ok body ∧
      CompleteOrError plainContext slowPace () [1, 2, 3] body 2 := by
  have hopen : openObjectBodyStream plainContext [1, 2, 3]
      (none : Option (BlockDecodeCache Unit)) 3 1 2=.ok (.raw ⟨⟨⟨[2, 3],[],0⟩,0,2⟩,0⟩) := rfl
  exact ⟨_,hopen,(completeOrError_iff hopen).mpr (.inr (.inr (by decide)))⟩

/-- A raw file of one byte for an object of three is opened for all three, and its stream
ends after the one as if it were complete. -/
theorem truncated_file_ends_early : ∃ body,openObjectBodyStream plainContext [1]
        (none : Option (BlockDecodeCache Unit)) 3 0 3=.ok body ∧
      Ends (readChunk plainContext slowPace () [1]) body (.ok [1]) ∧
      ¬CompleteOrError plainContext slowPace () [1] body 3 := by
  have hends : Ends (readChunk plainContext slowPace () [1]) (.raw ⟨⟨⟨[1],[],0⟩,0,3⟩,0⟩) (.ok [1]) :=
    ⟨2,_,rfl⟩
  refine ⟨.raw ⟨⟨⟨[1],[],0⟩,0,3⟩,0⟩,rfl,hends,fun ⟨outcome,houtcome,hcomplete⟩ => ?_⟩
  exact absurd (hcomplete [1] (houtcome.unique hends)) (by decide)

end Truncated

end NebularOs.BodyStreams
