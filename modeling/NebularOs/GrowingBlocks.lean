import Mathlib
import NebularOs.BlobMaintenance

/-!
# While shared blocks are added

A blob that is decoded is decoded to the same bytes when more shared blocks are there,
and at whatever pace its file is read. The other way round nothing is said: a blob that
names a missing block is decoded once the block is stored.

Encoding adds shared blocks. Bytes that are not encoded are not encoded either when they
are encoded again with the blocks that this left and more. If all chunks can be read back as
shared blocks, the container is the same again.
-/

namespace NebularOs.BlobMaintenance

open ByteFields EngineState BlobFormats SharedBlocks Compressibility Chunks BlobEncoding
open ChunkSources BlobDecoding RawStreams BodyStreams

/-- Block files that were there are still there. -/
def Extends (blocks blocks' : BlockFiles) : Prop :=
  ∀ name data,blocks.lookup name=some data→blocks'.lookup name=some data

theorem Extends.refl (blocks : BlockFiles) : Extends blocks blocks := fun _ _ h => h

theorem Extends.trans {blocks blocks' blocks'' : BlockFiles} (h : Extends blocks blocks')
    (h' : Extends blocks' blocks'') : Extends blocks blocks'' :=
  fun name data hdata => h' name data (h name data hdata)

/-- Reading with some block files. -/
def withFiles (env : ReadEnv) (blocks : BlockFiles) : ReadEnv := { env with blocks := some blocks }

section Blocks

variable {Path : Type} [DecidableEq Path] {env : ReadEnv} {blocks blocks' : BlockFiles}
  {payload : Bytes} {parsed : ParsedBlockHeader} {expectedLen : ℕ} {path : Path} {file : Bytes}
  {layout : BlobLayout} {blockIdx : ℕ} {populate : Bool} {cache after : Option (BlockDecodeCache Path)}
  {block : Bytes}

theorem readLogicalBlock_extends (h : Extends blocks blocks') {name : BlockHash}
    (hread : readLogicalBlock env.zstd env.hash blocks name expectedLen=.ok block) :
    readLogicalBlock env.zstd env.hash blocks' name expectedLen=.ok block := by
  unfold readLogicalBlock at hread ⊢
  cases hlookup : blocks.lookup name with
  | none =>
    rw [hlookup] at hread
    cases hread
  | some data =>
    rw [hlookup] at hread
    rwa [h name data hlookup]

theorem decodeByType_extends (h : Extends blocks blocks')
    (hread : decodeByType (withFiles env blocks) payload parsed expectedLen=.ok block) :
    decodeByType (withFiles env blocks') payload parsed expectedLen=.ok block := by
  unfold decodeByType at hread ⊢
  split_ifs at hread ⊢ with hcompressed hstored href hshort hsize
  · exact hread
  · exact hread
  · -- Only references to shared blocks look at the block files.
    dsimp only [withFiles] at hread ⊢
    unfold loadDedupBlock at hread ⊢
    cases hblock : readLogicalBlock env.zstd env.hash blocks
        (UInt64.ofNat (fromLe (slice 0 8 payload))) expectedLen with
    | error e =>
      rw [hblock] at hread
      cases hread
    | ok found =>
      dsimp only at hread ⊢
      rw [hblock] at hread
      rwa [readLogicalBlock_extends h hblock]

theorem decodeBlockPayload_extends (h : Extends blocks blocks')
    (hread : decodeBlockPayload (withFiles env blocks) payload parsed expectedLen=.ok block) :
    decodeBlockPayload (withFiles env blocks') payload parsed expectedLen=.ok block := by
  unfold decodeBlockPayload at hread ⊢
  cases hdecoded : decodeByType (withFiles env blocks) payload parsed expectedLen with
  | error e =>
    rw [hdecoded] at hread
    cases hread
  | ok found =>
    rw [hdecoded] at hread
    rwa [decodeByType_extends h hdecoded]

theorem decodeWithCache_extends (h : Extends blocks blocks')
    (hread : decodeWithCache (withFiles env blocks) path payload parsed layout blockIdx cache
      populate=(.ok block,after)) :
    decodeWithCache (withFiles env blocks') path payload parsed layout blockIdx cache populate=
      (.ok block,after) := by
  unfold decodeWithCache at hread ⊢
  dsimp only [withFiles] at hread ⊢
  split at hread
  · exact hread
  cases hdecoded : decodeBlockPayload (withFiles env blocks) payload parsed
      (layout.logicalLen blockIdx) with
  | error e =>
    dsimp only [withFiles] at hdecoded
    rw [hdecoded] at hread
    cases (Prod.mk.inj hread).1
  | ok found =>
    have hmore := decodeBlockPayload_extends h hdecoded
    dsimp only [withFiles] at hdecoded hmore
    rw [hdecoded] at hread
    rwa [hmore]

theorem readBlockFromFile_extends (h : Extends blocks blocks')
    (hread : readBlockFromFile (withFiles env blocks) path file layout blockIdx cache populate=
      (.ok block,after)) :
    readBlockFromFile (withFiles env blocks') path file layout blockIdx cache populate=
      (.ok block,after) := by
  unfold readBlockFromFile at hread ⊢
  dsimp only at hread ⊢
  split_ifs at hread ⊢ with hpast
  · cases (Prod.mk.inj hread).1
  split at hread
  · cases (Prod.mk.inj hread).1
  split at hread
  · exact hread
  · split_ifs at hread ⊢ with hshort
    · cases (Prod.mk.inj hread).1
    · exact decodeWithCache_extends h hread

theorem nextBlock_extends (h : Extends blocks blocks') {fuel : ℕ} {reader : IndexedBlobReader}
    {found : Option Bytes} {next : IndexedBlobReader×Option (BlockDecodeCache Path)}
    (hread : nextBlock (withFiles env blocks) path file fuel (reader,cache)=(.ok found,next)) :
    nextBlock (withFiles env blocks') path file fuel (reader,cache)=(.ok found,next) := by
  induction fuel generalizing reader cache with
  | zero => cases (Prod.mk.inj hread).1
  | succ fuel ih =>
    unfold nextBlock at hread ⊢
    dsimp only at hread ⊢
    rcases hblock : readBlockFromFile (withFiles env blocks) path file reader.layout reader.blockIdx
        cache reader.populateCache with ⟨outcome,after⟩
    cases outcome with
    | error e =>
      rw [hblock] at hread
      cases (Prod.mk.inj hread).1
    | ok block =>
      rw [hblock] at hread
      rw [readBlockFromFile_extends h hblock]
      dsimp only at hread ⊢
      split_ifs at hread ⊢
      · exact ih hread
      · exact hread

theorem nextChunk_extends (h : Extends blocks blocks')
    (reader : IndexedBlobReader×Option (BlockDecodeCache Path)) (found : Option Bytes)
    (next : IndexedBlobReader×Option (BlockDecodeCache Path))
    (hread : nextChunk (withFiles env blocks) path file reader=(.ok found,next)) :
    nextChunk (withFiles env blocks') path file reader=(.ok found,next) := by
  unfold nextChunk at hread ⊢
  dsimp only at hread ⊢
  split_ifs at hread ⊢
  · exact hread
  · exact nextBlock_extends h hread

theorem dedupChunk_extends (h : Extends blocks blocks') (reader : DedupBlobReader)
    (found : Option Bytes) (next : DedupBlobReader)
    (hread : dedupChunk (withFiles env blocks) reader=(.ok found,next)) :
    dedupChunk (withFiles env blocks') reader=(.ok found,next) := by
  unfold dedupChunk at hread ⊢
  dsimp only [withFiles,Option.getD_some] at hread ⊢
  split_ifs at hread ⊢
  · exact hread
  split at hread
  · exact hread
  rename_i name size later hlater
  split at hread
  · cases (Prod.mk.inj hread).1
  rename_i block hblock
  rwa [readLogicalBlock_extends h hblock]

end Blocks

section Bodies

variable {ctx : ReadContext} {pace pace' : Pace} {file content : Bytes} {size : ℕ}
  {blocks blocks' : BlockFiles} {body last : BodyReader Unit}

/-- Reading with some block files. -/
def contextWith (ctx : ReadContext) (blocks : BlockFiles) : ReadContext :=
  { ctx with env := withFiles ctx.env blocks }

/-- The readers of whole blobs that are not raw. -/
inductive Decoder : BodyReader Unit→Prop
  | dedup (reader : DedupBlobReader) : Decoder (.dedup reader)
  | indexed (reader : IndexedBlobReader×Option (BlockDecodeCache Unit)) : Decoder (.indexed reader)
  | frame (reader : ZstdBlobReader) : Decoder (.frame reader)

theorem openIndexed_decoder {cache : Option (BlockDecodeCache Unit)}
    (hopen : openIndexed file cache size 0 size=.ok body) : Decoder body := by
  unfold openIndexed at hopen
  split at hopen
  · cases hopen
  cases hopen
  exact .indexed _

theorem openFrame_decoder {format : BlobFormat} (hopen : openFrame ctx file format size 0 size=.ok body) :
    Decoder body := by
  unfold openFrame at hopen
  split at hopen
  · cases hopen
  rw [if_pos ⟨rfl,rfl⟩] at hopen
  cases hopen
  exact .frame _

theorem decoder_of_open (hformat : bodyFormat file size≠.raw)
    (hopen : openObjectBodyStream ctx file (none : Option (BlockDecodeCache Unit)) size 0 size=
      .ok body) : Decoder body := by
  rw [openObjectBodyStream_eq] at hopen
  cases hcase : bodyFormat file size with
  | raw => exact absurd hcase hformat
  | nosd =>
    rw [hcase] at hopen
    dsimp only [openReader] at hopen
    unfold openManifest at hopen
    split at hopen
    · cases hopen
    cases hopen
    exact .dedup _
  | nosb | nosi =>
    rw [hcase] at hopen
    exact openIndexed_decoder hopen
  | nosz | nos2 =>
    rw [hcase] at hopen
    exact openFrame_decoder hopen

theorem collect_inside {σ : Type} {read : Source σ UInt8} (into : σ→BodyReader Unit)
    {owed left : σ→ℕ} {s : σ} (hmetered : Metered read owed left)
    (hinto : ∀ s,readChunk ctx pace () file (into s)=((read s).1,into (read s).2))
    (hyields : Yields (readChunk ctx pace () file) (into s) content last) :
    (collect (readChunk ctx pace () file) (left s+1) (into s)).1=some (.ok content) := by
  obtain ⟨outcome,s',hcollect⟩ := hmetered.collects (Nat.lt_succ_self (left s))
  have hbody := collect_embed hinto hcollect
  have hsame : outcome=.ok content := Ends.unique ⟨_,_,hbody⟩ hyields.ends
  rw [hbody,hsame]

theorem collect_of_yields (hbody : Decoder body)
    (hyields : Yields (readChunk ctx pace () file) body content last) :
    (collect (readChunk ctx pace () file) (bodyLeft body+1) body).1=some (.ok content) := by
  cases hbody with
  | dedup reader =>
    exact collect_inside .dedup (dedupChunk_metered ctx.env) (fun _ => rfl) hyields
  | indexed reader =>
    exact collect_inside .indexed (nextChunk_metered ctx.env () file) (fun _ => rfl) hyields
  | frame reader =>
    exact collect_inside .frame (zstdChunk_metered pace) (fun _ => rfl) hyields

theorem decodeBlobToFile_eq_ok (hformat : bodyFormat file size≠.raw) :
    decodeBlobToFile ctx pace file size=.ok content ↔ content.length=size ∧
      ∃ body last,openObjectBodyStream ctx file (none : Option (BlockDecodeCache Unit)) size 0 size=
        .ok body ∧ Yields (readChunk ctx pace () file) body content last := by
  constructor
  · intro h
    unfold decodeBlobToFile at h
    split at h
    · cases h
    rename_i body hopen
    split at h
    · rename_i found hcollect
      split_ifs at h with hlength
      cases h
      exact ⟨not_not.mp hlength,body,_,hopen,_,Prod.ext hcollect rfl⟩
    · cases h
    · cases h
  · rintro ⟨hlength,body,last,hopen,hyields⟩
    unfold decodeBlobToFile
    rw [hopen]
    dsimp only
    rw [collect_of_yields (decoder_of_open hformat hopen) hyields]
    dsimp only
    rw [if_neg (not_not.mpr hlength)]

theorem yields_extends (h : Extends blocks blocks') (hbody : Decoder body)
    (hyields : Yields (readChunk (contextWith ctx blocks) pace () file) body content last) :
    ∃ last',Yields (readChunk (contextWith ctx blocks') pace' () file) body content last' := by
  cases hbody with
  | dedup reader =>
    obtain ⟨_,hinner⟩ : ∃ last,Yields (dedupChunk (withFiles ctx.env blocks)) reader content last :=
      hyields.project fun _ => rfl
    exact ⟨_,(hinner.transfer (dedupChunk_extends h)).embed fun _ => rfl⟩
  | indexed reader =>
    obtain ⟨_,hinner⟩ : ∃ last,Yields (nextChunk (withFiles ctx.env blocks) () file) reader content
        last := hyields.project fun _ => rfl
    exact ⟨_,(hinner.transfer (nextChunk_extends h)).embed fun _ => rfl⟩
  | frame reader =>
    -- The pieces of a frame depend on the pace, but not what they add up to.
    obtain ⟨_,hinner⟩ : ∃ last,Yields (zstdChunk pace) reader content last :=
      hyields.project fun _ => rfl
    obtain ⟨hout,hended,hremaining⟩ := out_of_yields hinner
    have howes : reader.ended=true ∧ reader.remaining=reader.out.length ∧ content=reader.out :=
      ⟨hended,by rw [hremaining,hout],hout.symm⟩
    obtain ⟨_,hgiven,_⟩ := (@zstdChunk_keeps pace').yields howes
    exact ⟨_,hgiven.embed fun _ => rfl⟩

theorem decodeBlobToFile_extends (h : Extends blocks blocks') (hformat : bodyFormat file size≠.raw)
    (hdecoded : decodeBlobToFile (contextWith ctx blocks) pace file size=.ok content) :
    decodeBlobToFile (contextWith ctx blocks') pace' file size=.ok content := by
  obtain ⟨hlength,body,last,hopen,hyields⟩ := (decodeBlobToFile_eq_ok hformat).mp hdecoded
  obtain ⟨last',hyields⟩ := yields_extends h (decoder_of_open hformat hopen) hyields
  exact (decodeBlobToFile_eq_ok hformat).mpr ⟨hlength,body,last',hopen,hyields⟩

theorem decodeBlobToFile_of_refused {e : String} (hformat : bodyFormat file size=.nosi)
    (hrefused : readBlobLayout file=.error e) : decodeBlobToFile ctx pace file size=.error e := by
  unfold decodeBlobToFile
  rw [openObjectBodyStream_eq,hformat]
  dsimp only [openReader]
  unfold openIndexed IndexedBlobReader.fromFile readIndexedLayout
  rw [hrefused]

end Bodies

section Encoding

variable {zstd : Zstd} {hash : Bytes→BlockHash} {disk : DiskErrors} {level : ℤ}
  {opts : EncodeOptions} {blocks blocks' : BlockFiles} {logicalSize blockSize : ℕ}
  {fills : List Bytes}

/-- Block files are kept, and without sharing they are the same. -/
structure Grows (dedup : Bool) (blocks blocks' : BlockFiles) : Prop where
  /-- Block files are kept. -/
  keeps : Extends blocks blocks'
  /-- Without sharing there are no others. -/
  same : dedup=false→blocks'=blocks

theorem Grows.refl (dedup : Bool) (blocks : BlockFiles) : Grows dedup blocks blocks :=
  ⟨.refl blocks,fun _ => rfl⟩

theorem Grows.trans {dedup : Bool} {blocks'' : BlockFiles} (h : Grows dedup blocks blocks')
    (h' : Grows dedup blocks' blocks'') : Grows dedup blocks blocks'' :=
  ⟨h.keeps.trans h'.keeps,fun hdedup => (h'.same hdedup).trans (h.same hdedup)⟩

theorem storeBlock_extends (files : BlockFiles) (chunk : Bytes) (writeError : Option String) :
    Extends files (storeBlock zstd hash files chunk level writeError).2 := by
  unfold storeBlock
  dsimp only
  split
  · split
    · exact .refl files
    · exact .refl files
  rename_i hmissing
  split
  · exact .refl files
  intro name data hdata
  have hother : name≠hash chunk := by
    rintro rfl
    rw [hmissing] at hdata
    cases hdata
  rwa [AList.lookup_insert_ne hother]

theorem encodeLogicalBlock_grows (files : BlockFiles) (chunk : Bytes) :
    Grows opts.dedup files (encodeLogicalBlock zstd hash disk level opts files chunk).2 := by
  unfold encodeLogicalBlock
  by_cases hdedup : opts.dedup=true
  · rw [if_pos hdedup,hdedup]
    have hstore := @storeBlock_extends zstd hash level files chunk (disk.store (hash chunk))
    refine ⟨?_,fun hoff => nomatch hoff⟩
    rcases hcase : storeBlock zstd hash files chunk level (disk.store (hash chunk)) with
        ⟨outcome,after⟩
    rw [hcase] at hstore
    match outcome with
    | .error e => exact hstore
    | .ok (some name) => exact hstore
    | .ok none => exact hstore
  · rw [if_neg hdedup]
    exact .refl _ files

theorem encodeChunks_grows (pending : List Bytes) (progress : Progress) :
    Grows opts.dedup progress.files
      (encodeChunks zstd hash disk level opts logicalSize pending progress).2 := by
  induction pending generalizing progress with
  | nil => exact .refl _ _
  | cons chunk pending ih =>
    unfold encodeChunks
    split_ifs
    · have hblock := @encodeLogicalBlock_grows zstd hash disk level opts progress.files chunk
      rcases hcase : encodeLogicalBlock zstd hash disk level opts progress.files chunk with
          ⟨outcome,after⟩
      rw [hcase] at hblock
      cases outcome with
      | error e => exact hblock
      | ok block =>
        dsimp only at hblock ⊢
        split
        · exact hblock
        · exact hblock.trans (ih (progress.add chunk block after))
    · exact .refl _ _

theorem encodeFillsToFile_grows (fills : List Bytes) (blocks : BlockFiles) : Grows opts.dedup blocks
      (encodeFillsToFile zstd hash disk level opts fills logicalSize blockSize blocks).2 := by
  have hloop := @encodeChunks_grows zstd hash disk level opts logicalSize fills ⟨[],[],[],0,blocks⟩
  unfold encodeFillsToFile
  dsimp only
  rcases hcase : encodeChunks zstd hash disk level opts logicalSize fills ⟨[],[],[],0,blocks⟩ with
      ⟨outcome,after⟩
  rw [hcase] at hloop
  cases outcome with
  | error e => exact hloop
  | ok progress =>
    dsimp only
    split_ifs
    · exact hloop
    · split
      · exact hloop
      · exact hloop

theorem encodeFileForStorage_grows (source : Bytes) (ctx : CompressionContext) (blocks : BlockFiles) :
    Grows opts.dedup blocks
      (encodeFileForStorage zstd hash disk level opts source logicalSize blockSize ctx blocks).files := by
  have hfile := @encodeFillsToFile_grows zstd hash disk level opts logicalSize (max blockSize 4096)
    (chunks (max blockSize 4096) source) blocks
  unfold encodeFileForStorage encodeFillsForStorage
  split
  · exact .refl _ _
  dsimp only
  split_ifs
  · exact .refl _ _
  · exact .refl _ _
  · rcases hcase : encodeFillsToFile zstd hash disk level opts
        (chunks (max blockSize 4096) source) logicalSize (max blockSize 4096) blocks with
        ⟨outcome,after⟩
    rw [hcase] at hfile
    match outcome with
    | .error e => exact hfile
    | .ok (totalLen,refs,part) =>
      dsimp only
      split_ifs
      · exact hfile
      · split
        · exact hfile
        · exact hfile

section Again

/-- A chunk that is read back once it is a shared block. -/
def Kept (zstd : Zstd) (level : ℤ) (chunk : Bytes) : Prop :=
  ∀ name,blockContent zstd name (blockBytes zstd chunk level) chunk.length=.ok chunk

/-- Storing a chunk again gives the same name, or again none. -/
theorem storeBlock_again {files files' : BlockFiles} {chunk : Bytes}
    (hextends : Extends (storeBlock zstd hash files chunk level none).2 files')
    (hkept : files.lookup (hash chunk)=none→Kept zstd level chunk) :
    storeBlock zstd hash files' chunk level none=
      ((storeBlock zstd hash files chunk level none).1,files') := by
  unfold storeBlock at hextends ⊢
  dsimp only at hextends ⊢
  cases hlookup : files.lookup (hash chunk) with
  | some data =>
    rw [hlookup] at hextends
    have hsame : readLogicalBlock zstd hash files' (hash chunk) chunk.length=
        readLogicalBlock zstd hash files (hash chunk) chunk.length := by
      unfold readLogicalBlock
      rw [hlookup]
      cases hread : readLogicalBlock zstd hash files (hash chunk) chunk.length with
      | error e | ok existing =>
        rw [hread] at hextends
        rw [hextends _ _ hlookup]
    cases hread : readLogicalBlock zstd hash files (hash chunk) chunk.length with
    | error e | ok existing =>
      rw [hread] at hextends
      rw [hextends _ _ hlookup]
      dsimp only
      rw [hsame,hread]
  | none =>
    rw [hlookup] at hextends
    have hnew := hextends (hash chunk) _ (AList.lookup_insert files)
    rw [hnew]
    dsimp only
    rw [(readLogicalBlock_iff hnew).mpr (hkept hlookup _)]
    simp

/-- Encoding a chunk again gives the same block. -/
theorem encodeLogicalBlock_again {files files' : BlockFiles} {chunk : Bytes}
    (hextends : Extends (encodeLogicalBlock zstd hash .none level opts files chunk).2 files')
    (hkept : opts.dedup=true→files.lookup (hash chunk)=none→Kept zstd level chunk) :
    encodeLogicalBlock zstd hash .none level opts files' chunk=
      ((encodeLogicalBlock zstd hash .none level opts files chunk).1,files') := by
  unfold encodeLogicalBlock at hextends ⊢
  dsimp only [DiskErrors.none] at hextends ⊢
  split_ifs at hextends ⊢ with hdedup
  · have hstore : Extends (storeBlock zstd hash files chunk level none).2 files' := by
      rcases hcase : storeBlock zstd hash files chunk level none with ⟨_ | _ | _,_⟩ <;>
        rwa [hcase] at hextends
    rw [storeBlock_again hstore (hkept hdedup)]
    rcases storeBlock zstd hash files chunk level none with ⟨_ | _ | _,_⟩ <;> rfl
  · rfl

/-- A chunk that is not encoded is not encoded again. -/
theorem encodeLogicalBlock_fails {files files' : BlockFiles} {chunk : Bytes} {e : String}
    (hfails : (encodeLogicalBlock zstd hash .none level opts files chunk).1=.error e)
    (hextends : Extends (encodeLogicalBlock zstd hash .none level opts files chunk).2 files') :
    (encodeLogicalBlock zstd hash .none level opts files' chunk).1=.error e := by
  rw [encodeLogicalBlock_again hextends fun hdedup hlookup => ?_,hfails]
  -- A new chunk is stored, so that there is no error.
  unfold encodeLogicalBlock storeBlock at hfails
  rw [if_pos hdedup] at hfails
  dsimp only [DiskErrors.none] at hfails
  rw [hlookup] at hfails
  cases hfails

/-- Chunks that are encoded again fail, or give as many blocks as before. -/
theorem encodeChunks_again (pending : List Bytes) {progress other : Progress}
    (hextends : Extends (encodeChunks zstd hash .none level opts logicalSize pending progress).2
      other.files) (hend : other.logicalEnd=progress.logicalEnd)
    (hcount : other.index.length=progress.index.length) :
    (∃ e,(encodeChunks zstd hash .none level opts logicalSize pending other).1=.error e) ∨
      ∃ after after',(encodeChunks zstd hash .none level opts logicalSize pending progress).1=
          .ok after ∧
        (encodeChunks zstd hash .none level opts logicalSize pending other).1=.ok after' ∧
        after'.logicalEnd=after.logicalEnd ∧ after'.index.length=after.index.length := by
  induction pending generalizing progress other with
  | nil => exact .inr ⟨progress,other,rfl,rfl,hend,hcount⟩
  | cons chunk pending ih =>
    unfold encodeChunks at hextends ⊢
    rw [hend]
    split_ifs at hextends ⊢
    · have hgrows := (@encodeLogicalBlock_grows zstd hash .none level opts other.files chunk).keeps
      have hfails := @encodeLogicalBlock_fails zstd hash level opts progress.files other.files chunk
      rcases hfirst : encodeLogicalBlock zstd hash .none level opts progress.files chunk with
        ⟨e | block,files⟩
      · rw [hfirst] at hfails hextends
        rcases hagain : encodeLogicalBlock zstd hash .none level opts other.files chunk with
          ⟨e' | block',files'⟩
        · exact .inl ⟨e',rfl⟩
        · have herror := hfails rfl hextends
          rw [hagain] at herror
          cases herror
      · rw [hfirst] at hextends
        rcases hagain : encodeLogicalBlock zstd hash .none level opts other.files chunk with
          ⟨e' | block',files'⟩
        · exact .inl ⟨e',rfl⟩
        · rw [hagain] at hgrows
          refine @ih (progress.add chunk block files) (other.add chunk block' files')
            (hextends.trans hgrows) ?_ ?_
          · dsimp only [Progress.add]
            rw [hend]
          · dsimp only [Progress.add]
            rw [List.length_append,List.length_append,hcount]
            rfl
    · exact .inr ⟨progress,other,rfl,rfl,hend,hcount⟩

/-- Chunks that can be read back are encoded to the same blocks again. -/
theorem encodeChunks_kept (pending : List Bytes) (hkept : ∀ chunk∈pending,Kept zstd level chunk)
    {progress : Progress} {files' : BlockFiles}
    (hextends : Extends (encodeChunks zstd hash .none level opts logicalSize pending progress).2
      files') :
    encodeChunks zstd hash .none level opts logicalSize pending { progress with files := files' }=
      ((encodeChunks zstd hash .none level opts logicalSize pending progress).1.map fun after =>
        { after with files := files' },files') := by
  induction pending generalizing progress with
  | nil => rfl
  | cons chunk pending ih =>
    unfold encodeChunks at hextends ⊢
    split_ifs at hextends ⊢
    · have hagain := @encodeLogicalBlock_again zstd hash level opts progress.files files' chunk
      rcases hfirst : encodeLogicalBlock zstd hash .none level opts progress.files chunk with
        ⟨e | block,files⟩
      · rw [hfirst] at hagain hextends
        rw [hagain hextends fun _ _ => hkept chunk List.mem_cons_self]
        rfl
      · rw [hfirst] at hagain hextends
        have hloop : Grows opts.dedup files (encodeChunks zstd hash .none level opts logicalSize
            pending (progress.add chunk block files)).2 :=
          encodeChunks_grows pending (progress.add chunk block files)
        rw [hagain (hloop.keeps.trans hextends) fun _ _ => hkept chunk List.mem_cons_self]
        exact @ih (fun other hother => hkept other (List.mem_cons_of_mem chunk hother))
          (progress.add chunk block files) hextends
    · rfl

/-- Bytes that are not written as a container are not written again. -/
theorem encodeFillsToFile_fails {fills : List Bytes} {blocks blocks' : BlockFiles} {e : String}
    (hfails : (encodeFillsToFile zstd hash .none level opts fills logicalSize blockSize blocks).1=
      .error e)
    (hextends : Extends (encodeFillsToFile zstd hash .none level opts fills logicalSize blockSize
      blocks).2 blocks') :
    ∃ e',(encodeFillsToFile zstd hash .none level opts fills logicalSize blockSize blocks').1=
      .error e' := by
  have hloop := @encodeChunks_again zstd hash level opts logicalSize fills ⟨[],[],[],0,blocks⟩
    ⟨[],[],[],0,blocks'⟩
  unfold encodeFillsToFile at hfails hextends ⊢
  dsimp only [DiskErrors.none] at hfails hextends hloop ⊢
  rcases hfirst : encodeChunks zstd hash .none level opts logicalSize fills ⟨[],[],[],0,blocks⟩ with
    ⟨e | after,files⟩
  all_goals
    rcases hagain : encodeChunks zstd hash .none level opts logicalSize fills ⟨[],[],[],0,blocks'⟩
      with ⟨e' | after',files'⟩
  all_goals
    dsimp only [DiskErrors.none] at hfirst hagain
    rw [hfirst] at hfails hextends hloop
    rw [hagain] at hloop
    rw [hagain]
  · exact ⟨e',rfl⟩
  · obtain ⟨_,herror⟩ | ⟨_,_,hok,_⟩ := hloop hextends rfl rfl
    · cases herror
    · cases hok
  · exact ⟨e',rfl⟩
  · dsimp only at hfails hextends ⊢
    split_ifs at hfails hextends with hmismatch
    obtain ⟨_,herror⟩ | ⟨_,_,hok,hok',hend,hcount⟩ := hloop hextends rfl rfl
    · cases herror
    cases hok
    cases hok'
    rw [hend,hcount,if_pos hmismatch]
    exact ⟨_,rfl⟩

/-- Bytes that can be read back are written as the same container again. -/
theorem encodeFillsToFile_kept {fills : List Bytes} {blocks blocks' : BlockFiles}
    (hkept : ∀ chunk∈fills,Kept zstd level chunk)
    (hextends : Extends (encodeFillsToFile zstd hash .none level opts fills logicalSize blockSize
      blocks).2 blocks') :
    encodeFillsToFile zstd hash .none level opts fills logicalSize blockSize blocks'=
      ((encodeFillsToFile zstd hash .none level opts fills logicalSize blockSize blocks).1,
        blocks') := by
  have hloop := @encodeChunks_kept zstd hash level opts logicalSize fills hkept
    ⟨[],[],[],0,blocks⟩ blocks'
  unfold encodeFillsToFile at hextends ⊢
  dsimp only at hextends ⊢
  rcases hfirst : encodeChunks zstd hash .none level opts logicalSize fills ⟨[],[],[],0,blocks⟩ with
    ⟨e | after,files⟩
  · rw [hfirst] at hextends hloop
    rw [hloop hextends]
    rfl
  · rw [hfirst] at hextends hloop
    dsimp only [DiskErrors.none] at hextends
    have hfiles : Extends files blocks' := by
      split_ifs at hextends <;> exact hextends
    rw [hloop hfiles]
    dsimp only [Except.map,DiskErrors.none]
    split_ifs <;> rfl

variable {source : Bytes} {ctx : CompressionContext} {decoded : Option Bytes}

/-- With sharing, what is not encoded is not encoded again. -/
theorem reencodedOf_again (hdedup : opts.dedup=true)
    (hextends : Extends (encodeFileForStorage zstd hash .none level opts source logicalSize
      blockSize ctx blocks).files blocks') :
    (∃ staging refs,reencodedOf decoded (encodeFileForStorage zstd hash .none level opts source
        logicalSize blockSize ctx blocks)=.indexed staging refs) ∨
      reencodedOf decoded (encodeFileForStorage zstd hash .none level opts source logicalSize
          blockSize ctx blocks')=
        reencodedOf decoded (encodeFileForStorage zstd hash .none level opts source logicalSize
          blockSize ctx blocks) := by
  have hfails := @encodeFillsToFile_fails zstd hash level opts logicalSize (max blockSize 4096)
    (chunks (max blockSize 4096) source) blocks blocks'
  unfold encodeFileForStorage encodeFillsForStorage at hextends ⊢
  dsimp only [DiskErrors.none] at hextends hfails ⊢
  rw [hdedup] at hextends ⊢
  split_ifs at hextends ⊢
  · exact .inr rfl
  · exact .inr rfl
  · rcases hfirst : encodeFillsToFile zstd hash .none level opts (chunks (max blockSize 4096) source)
      logicalSize (max blockSize 4096) blocks with ⟨e | ⟨totalLen,refs,part⟩,files⟩
    · dsimp only [DiskErrors.none] at hfirst
      rw [hfirst] at hextends hfails ⊢
      obtain ⟨e',he'⟩ := hfails rfl hextends
      rcases hagain : encodeFillsToFile zstd hash .none level opts
        (chunks (max blockSize 4096) source) logicalSize (max blockSize 4096) blocks' with
        ⟨e'' | _,files'⟩
      · dsimp only [DiskErrors.none] at hagain
        rw [hagain]
        exact .inr rfl
      · dsimp only [DiskErrors.none] at hagain
        rw [hagain] at he'
        cases he'
    · dsimp only [DiskErrors.none] at hfirst
      rw [hfirst]
      exact .inl ⟨part,refs,by simp [reencodedOf]⟩

/-- What can be read back is encoded to the same bytes again. -/
theorem reencodedOf_kept (hkept : ∀ chunk∈chunks (max blockSize 4096) source,Kept zstd level chunk)
    (hextends : Extends (encodeFileForStorage zstd hash .none level opts source logicalSize
      blockSize ctx blocks).files blocks') :
    reencodedOf decoded (encodeFileForStorage zstd hash .none level opts source logicalSize
        blockSize ctx blocks')=
      reencodedOf decoded (encodeFileForStorage zstd hash .none level opts source logicalSize
        blockSize ctx blocks) := by
  have hsame := @encodeFillsToFile_kept zstd hash level opts logicalSize (max blockSize 4096) _
    blocks blocks' hkept
  unfold encodeFileForStorage encodeFillsForStorage at hextends ⊢
  dsimp only [DiskErrors.none] at hextends hsame ⊢
  split_ifs at hextends ⊢
  · rfl
  · rfl
  · rcases hfirst : encodeFillsToFile zstd hash .none level opts (chunks (max blockSize 4096) source)
      logicalSize (max blockSize 4096) blocks with ⟨e | ⟨totalLen,refs,part⟩,files⟩
    · dsimp only [DiskErrors.none] at hfirst
      rw [hfirst] at hextends hsame ⊢
      rw [hsame hextends]
      rfl
    · dsimp only [DiskErrors.none] at hfirst
      rw [hfirst] at hextends hsame ⊢
      have hfiles : Extends files blocks' := by
        dsimp only at hextends
        split_ifs at hextends <;> exact hextends
      rw [hsame hfiles]
      dsimp only
      split_ifs <;> rfl

end Again

end Encoding

end NebularOs.BlobMaintenance
