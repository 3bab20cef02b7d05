import Mathlib
import NebularOs.BlobRoundTrip
import NebularOs.GrowingBlocks

/-!
# Maintenance settles

A maintenance job that has walked over all objects finds nothing to do when it walks
over them again. What it writes is not outdated, what it leaves it would leave again,
and other objects' blobs lie elsewhere.

There are three exceptions. A blob that refers to a missing shared block cannot be decoded
and is passed over; when the job then stores a chunk of another object under that name,
the next walk decodes the blob and rewrites it. A raw file that begins like a container is
only replaced by a smaller one, and it may get smaller when a chunk of it cannot be read
back as a shared block and is therefore not shared again. And where two objects share a path,
the one may be skipped until the file was rewritten for the other.
-/

namespace NebularOs.BlobMaintenance

open ByteFields BlobFilenames EngineState BlobFormats SharedBlocks Compressibility BlobEncoding
open Chunks ChunkSources BlobDecoding RawStreams BodyStreams Scrubbing BlockReferences BlobRoundTrip
open CursorWalks Listing KeyPages List

/-- Settings with which blobs are encoded: a level of the compressor. -/
structure Steady {P : Type} (engine : MaintenanceEngine P) : Prop where
  /-- The level is not below the lowest. -/
  low : 1≤engine.zstdLevel
  /-- The level is not above the highest. -/
  high : engine.zstdLevel≤22

/-- A plan that changes no blob. -/
def Plan.idle : Plan→Bool
  | .skip => true
  | .fail => true
  | .encoded _ _ => false
  | .relocate => false

section Headers

variable {logicalSize blockSize count dictId flags zstdLevel : ℕ} {rest : Bytes}

theorem layout_of_fixed (hsize : logicalSize<256^8) {layout : BlobLayout}
    (h : readBlobLayout (fixedHeader logicalSize blockSize count dictId flags zstdLevel++rest)=
      .ok layout) : layout.format=.v1 ∧ layout.dictId=fromLe (le 2 dictId) ∧
        layout.zstdLevel=fromLe (le 1 zstdLevel) := by
  rw [readBlobLayout_fixed] at h
  unfold readLayoutBehind at h
  dsimp only at h
  split_ifs at h
  split at h
  · cases h
  rw [parseLayoutBytes_fixed hsize] at h
  split at h
  · cases h
  cases h
  exact ⟨rfl,rfl,rfl⟩

theorem bodyFormat_fixed (hsize : logicalSize<256^8) :
    bodyFormat (fixedHeader logicalSize blockSize count dictId flags zstdLevel++rest) logicalSize=
      .nosi := by
  have hlength := @fixedHeader_length logicalSize blockSize count dictId flags zstdLevel
  have hfield := (@fields_of_fixed logicalSize blockSize count dictId flags zstdLevel rest).1
  have hdetect : detectBlobFormat
      (fixedHeader logicalSize blockSize count dictId flags zstdLevel++rest)=.nosi :=
    detectBlobFormat_nosi (by rw [length_append]; omega)
      (nosiMagic_prefix_fixedHeader.trans (prefix_append _ _))
  rw [bodyFormat_eq]
  unfold blobHead
  rw [storedBlobFormat_take (by decide)]
  unfold storedBlobFormat
  dsimp only
  rw [hdetect,hfield,fromLe_le_of_lt hsize,if_neg (by simp)]

end Headers

section Plans

variable {P : Type} {engine : MaintenanceEngine P} {blocks blocks' : BlockFiles} {pace pace' : Pace}
  {file : Bytes} {size : ℕ} {key : Text}

variable {decoded : Option Bytes} {refs : List BlockRef}

theorem reencodedOf_indexed {result : EncodeResult} {staging : Bytes}
    (h : reencodedOf decoded result=.indexed staging refs) :
    result.outcome=.ok (.indexed refs) ∧ result.out=some staging := by
  unfold reencodedOf at h
  split at h
  · rename_i houtcome hout
    cases h
    exact ⟨houtcome,hout⟩
  · cases h
  · cases h

theorem reencodedOf_raw {kept : Option Bytes} {result : EncodeResult}
    (h : reencodedOf decoded result=.raw kept) : result.outcome=.ok .raw ∧ kept=decoded := by
  unfold reencodedOf at h
  split at h
  · cases h
  · rename_i houtcome
    exact ⟨houtcome,(Reencoded.raw.inj h).symm⟩
  · cases h

theorem header_of_written {zstd : Zstd} {hash : Bytes→BlockHash} {disk : DiskErrors} {level : ℤ}
    {opts : EncodeOptions} {fills : List Bytes} {blockSize totalLen : ℕ} {part : Bytes}
    {after : BlockFiles}
    (h : encodeFillsToFile zstd hash disk level opts fills size blockSize blocks=
      (.ok (totalLen,refs,part),after)) :
    ∃ count rest,part=fixedHeader size blockSize count opts.dictId.toNat (headerFlags opts)
      (clampZstdLevel level).toNat++rest := by
  unfold encodeFillsToFile at h
  dsimp only at h
  split at h
  · cases (Prod.mk.inj h).1
  split_ifs at h
  · cases (Prod.mk.inj h).1
  split at h
  · cases (Prod.mk.inj h).1
  obtain ⟨_,hrest⟩ := Prod.mk.inj (Except.ok.inj (Prod.mk.inj h).1)
  cases hrest
  unfold writeAtStart
  rw [writeBlobHeaderV1_eq,append_assoc]
  exact ⟨_,_,rfl⟩

theorem header_of_indexed {source staging : Bytes}
    (h : reencodedOf decoded (encodeForMaintenance engine blocks source key size)=
      .indexed staging refs) :
    ∃ blockSize count rest,staging=fixedHeader size blockSize count engine.encodeOptions.dictId.toNat
      (headerFlags engine.encodeOptions) (clampZstdLevel engine.zstdLevel).toNat++rest := by
  obtain ⟨houtcome,hout⟩ := reencodedOf_indexed h
  unfold encodeForMaintenance encodeFileForStorage encodeFillsForStorage at houtcome hout
  dsimp only [DiskErrors.none] at houtcome hout
  split_ifs at houtcome hout
  split at houtcome
  · cases houtcome
  rename_i totalLen found part after hwritten
  rw [hwritten] at hout
  dsimp only at hout houtcome
  split_ifs at houtcome hout
  cases hout
  obtain ⟨count,rest,hpart⟩ := header_of_written hwritten
  exact ⟨_,count,rest,hpart⟩

theorem upgradesIndexed_fixed (hsteady : Steady engine) (hsize : size<256^8)
    {blockSize count flags : ℕ} {rest : Bytes} {layout : BlobLayout}
    (h : readBlobLayout (fixedHeader size blockSize count engine.encodeOptions.dictId.toNat flags
      (clampZstdLevel engine.zstdLevel).toNat++rest)=.ok layout) :
    upgradesIndexed engine .nosi (fixedHeader size blockSize count
      engine.encodeOptions.dictId.toNat flags (clampZstdLevel engine.zstdLevel).toNat++rest)=
        false := by
  have hlow := hsteady.low
  have hhigh := hsteady.high
  have hclamp : clampZstdLevel engine.zstdLevel=engine.zstdLevel := by
    unfold clampZstdLevel
    omega
  obtain ⟨hformat,hdict,hlevel⟩ := layout_of_fixed hsize h
  rw [hclamp] at hlevel h ⊢
  rw [fromLe_le_of_lt (by omega)] at hlevel
  rw [fromLe_le_of_lt engine.encodeOptions.dictId.toNat_lt] at hdict
  unfold upgradesIndexed indexedLayout
  rw [if_pos (.inl rfl),h]
  dsimp only [Except.toOption]
  unfold indexedNeedsUpgrade
  dsimp only
  rw [if_neg (by decide),if_neg (by decide),hformat,if_neg (by decide),hlevel,hdict,
    if_neg (by omega)]
  simp [MaintenanceEngine.encodeOptions]

theorem encode_grows (source : Bytes) : Grows engine.dedupEnabled blocks
    (encodeForMaintenance engine blocks source key size).files :=
  @encodeFileForStorage_grows engine.readContext.env.zstd engine.readContext.env.hash .none
    engine.zstdLevel engine.encodeOptions size engine.blockSize source _ blocks

theorem reencode_grows (format : BlobFormat) : Grows engine.dedupEnabled blocks
      (reencodeToStaging engine pace blocks file format key size).2 := by
  unfold reencodeToStaging
  split_ifs
  · exact encode_grows file
  · split
    · exact .refl _ _
    · exact encode_grows _

/-- A blob needs a shared block: with some blocks it is decoded, and not without this one. -/
def Needs (engine : MaintenanceEngine P) (size : ℕ) (file : Bytes) (name : BlockHash) : Prop :=
  ∃ blocks pace content,decodeBlobToFile (engine.withBlocks blocks) pace file size=.ok content ∧
    ∀ pace',decodeBlobToFile (engine.withBlocks (blocks.erase name)) pace' file size≠.ok content

/-- With shared chunks: the shared blocks that a blob needs are there, and of a raw one that
begins like a container all chunks can be read back as shared blocks. -/
def Sound (engine : MaintenanceEngine P) (blocks : BlockFiles) (size : ℕ) (file : Bytes) : Prop :=
  engine.dedupEnabled=true →
    if bodyFormat file size=.raw then rawWouldBeMisread (file.take fixedHeaderLenV1)=true →
      ∀ chunk∈chunks (max engine.blockSize 4096) file,
        Kept engine.readContext.env.zstd engine.zstdLevel chunk
    else ∀ name,Needs engine size file name→∃ data,blocks.lookup name=some data

theorem Sound.grows (hsound : Sound engine blocks size file)
    (hgrows : Grows engine.dedupEnabled blocks blocks') : Sound engine blocks' size file := by
  intro hdedup
  have hfile := hsound hdedup
  split_ifs at hfile ⊢
  · exact hfile
  · intro name hneeds
    obtain ⟨data,hdata⟩ := hfile name hneeds
    exact ⟨data,hgrows.keeps name data hdata⟩

/-- What is found after blocks were erased. -/
theorem lookup_foldl_erase {names : List BlockHash} {name : BlockHash} {data : Bytes}
    (h : (names.foldl (fun blocks name => blocks.erase name) blocks).lookup name=some data) :
    name∉names ∧ blocks.lookup name=some data := by
  induction names generalizing blocks with
  | nil => exact ⟨not_mem_nil,h⟩
  | cons erased names ih =>
    obtain ⟨hnot,hfound⟩ := ih h
    by_cases hsame : name=erased
    · rw [hsame,AList.lookup_erase] at hfound
      cases hfound
    · rw [AList.lookup_erase_ne hsame] at hfound
      exact ⟨fun hmem => (mem_cons.mp hmem).elim hsame hnot,hfound⟩

/-- A blob is decoded without the blocks that it does not need. -/
theorem decode_foldl_erase {names : List BlockHash} (hnames : ∀ name∈names,¬Needs engine size file name)
    {content : Bytes}
    (h : ∃ pace,decodeBlobToFile (engine.withBlocks blocks) pace file size=.ok content) :
    ∃ pace,decodeBlobToFile (engine.withBlocks (names.foldl (fun blocks name => blocks.erase name)
      blocks)) pace file size=.ok content := by
  induction names generalizing blocks with
  | nil => exact h
  | cons name names ih =>
    obtain ⟨pace,hdecoded⟩ := h
    refine ih (fun other hother => hnames other (mem_cons_of_mem name hother)) ?_
    by_contra hnone
    exact hnames name mem_cons_self
      ⟨blocks,pace,content,hdecoded,fun pace' hwithout => hnone ⟨pace',hwithout⟩⟩

theorem decode_alike (hsound : Sound engine blocks size file)
    (hgrows : Grows engine.dedupEnabled blocks blocks') (hformat : bodyFormat file size≠.raw)
    {content : Bytes} : decodeBlobToFile (engine.withBlocks blocks) pace file size=.ok content ↔
      decodeBlobToFile (engine.withBlocks blocks') pace' file size=.ok content := by
  refine ⟨decodeBlobToFile_extends hgrows.keeps hformat,fun hlater => ?_⟩
  cases hdedup : engine.dedupEnabled with
  | false =>
    -- Without sharing there are no new blocks, and only the pace differs.
    rw [hgrows.same hdedup] at hlater
    exact decodeBlobToFile_extends (.refl blocks) hformat hlater
  | true =>
    have hthere := hsound hdedup
    rw [if_neg hformat] at hthere
    let added := blocks'.keys.filter fun name => (blocks.lookup name).isNone
    have hadded : ∀ name∈added,¬Needs engine size file name := by
      intro name hname hneeds
      obtain ⟨data,hdata⟩ := hthere name hneeds
      simpa [hdata] using (mem_filter.mp hname).2
    obtain ⟨_,hwithout⟩ := decode_foldl_erase hadded ⟨pace',hlater⟩
    refine decodeBlobToFile_extends (fun name data hdata => ?_) hformat hwithout
    obtain ⟨hkept,hfound⟩ := lookup_foldl_erase hdata
    cases hbefore : blocks.lookup name with
    | none =>
      have hkey : name∈blocks' := AList.lookup_isSome.mp (by rw [hfound]; rfl)
      exact absurd (mem_filter.mpr ⟨AList.mem_keys.mp hkey,by simp [hbefore]⟩) hkept
    | some data' => rw [← hfound,hgrows.keeps name data' hbefore]

/-- What is not re-encoded is not re-encoded later. -/
theorem reencode_again (hsound : Sound engine blocks size file)
    (hgrows : Grows engine.dedupEnabled
      (reencodeToStaging engine pace blocks file (bodyFormat file size) key size).2 blocks') :
    (∃ staging refs,(reencodeToStaging engine pace blocks file (bodyFormat file size) key size).1=
        .indexed staging refs) ∨
      (reencodeToStaging engine pace' blocks' file (bodyFormat file size) key size).1=
        (reencodeToStaging engine pace blocks file (bodyFormat file size) key size).1 := by
  have hencode : ∀ decoded source,Grows engine.dedupEnabled
      (encodeForMaintenance engine blocks source key size).files blocks' →
      (∃ staging refs,reencodedOf decoded (encodeForMaintenance engine blocks source key size)=
        .indexed staging refs) ∨
      reencodedOf decoded (encodeForMaintenance engine blocks' source key size)=
        reencodedOf decoded (encodeForMaintenance engine blocks source key size) := by
    intro decoded source hlater
    cases hdedup : engine.dedupEnabled with
    | false =>
      have hsame := (encode_grows source).trans hlater
      rw [hsame.same hdedup]
      exact .inr rfl
    | true => exact reencodedOf_again hdedup hlater.keeps
  have hall := (reencode_grows (bodyFormat file size)).trans hgrows
  unfold reencodeToStaging at hgrows ⊢
  split_ifs at hgrows ⊢ with hformat
  · exact hencode none file hgrows
  have hsame := fun content => @decode_alike P engine blocks blocks' pace pace' file size hsound
    hall hformat content
  cases hdecoded : decodeBlobToFile (engine.withBlocks blocks) pace file size with
  | ok content =>
    rw [hdecoded] at hgrows
    rw [(hsame content).mp hdecoded]
    exact hencode (some content) content hgrows
  | error e =>
    cases hlater : decodeBlobToFile (engine.withBlocks blocks') pace' file size with
    | error e' => exact .inr rfl
    | ok content =>
      rw [(hsame content).mpr hlater] at hdecoded
      cases hdecoded

/-- A raw blob whose chunks can be read back is re-encoded to the same bytes later. -/
theorem reencode_kept (hraw : bodyFormat file size=.raw)
    (hkept : engine.dedupEnabled=true→∀ chunk∈chunks (max engine.blockSize 4096) file,
      Kept engine.readContext.env.zstd engine.zstdLevel chunk)
    (hgrows : Grows engine.dedupEnabled
      (reencodeToStaging engine pace blocks file (bodyFormat file size) key size).2 blocks') :
    (reencodeToStaging engine pace' blocks' file (bodyFormat file size) key size).1=
      (reencodeToStaging engine pace blocks file (bodyFormat file size) key size).1 := by
  have hall := (reencode_grows (bodyFormat file size)).trans hgrows
  unfold reencodeToStaging at hgrows ⊢
  rw [if_pos hraw] at hgrows ⊢
  rw [if_pos hraw]
  cases hdedup : engine.dedupEnabled with
  | false => rw [hall.same hdedup]
  | true => exact reencodedOf_kept (hkept hdedup) hgrows.keeps

theorem sizeU64_eq {size : ℤ} (hsize : 0 ≤ size) (hmax : size<2^63) : sizeU64 size=size.toNat := by
  unfold sizeU64
  rw [Int.emod_eq_of_lt hsize (by omega)]

section Recompress

variable {size : ℤ}

/-- Whether what recompression encodes is swapped in at any length. -/
def replacesAnyway (engine : MaintenanceEngine P) (size : ℤ) (file : Bytes) : Bool :=
  isLegacyFormat (bodyFormat file size.toNat) ||
    upgradesIndexed engine (bodyFormat file size.toNat) file ||
    storedLevelBelow engine (blobHead file).1

theorem replacesAnyway_of_wanted (hwanted : recompressWanted engine size file=true)
    (hformat : bodyFormat file size.toNat≠.raw) : replacesAnyway engine size file=true := by
  have hdetect : isZstdBlob (blobHead file).1=true →
      isLegacyFormat (bodyFormat file size.toNat)=true := by
    intro hzstd
    rw [bodyFormat_eq] at hformat ⊢
    unfold storedBlobFormat at hformat ⊢
    dsimp only at hformat ⊢
    split_ifs at hformat ⊢
    · exact absurd rfl hformat
    rcases of_decide_eq_true hzstd with hzstd | hzstd
    · rw [hzstd]
      decide
    · rw [hzstd]
      decide
  unfold recompressWanted at hwanted
  unfold replacesAnyway
  dsimp only at hwanted
  rw [← bodyFormat_eq,if_neg (fun h => hformat h.1)] at hwanted
  split_ifs at hwanted with hfresh hframe
  · rw [hdetect hframe.1] at hframe
    cases hframe.2
  cases hlegacy : isLegacyFormat (bodyFormat file size.toNat) with
  | true => rfl
  | false =>
    cases hupgrade : upgradesIndexed engine (bodyFormat file size.toNat) file with
    | true => rfl
    | false =>
      rw [hlegacy,hupgrade,decide_eq_true hformat] at hwanted
      cases hwanted

theorem replacesAnyway_of_raw (hsteady : Steady engine)
    (hraw : rawWouldBeMisread (file.take fixedHeaderLenV1)=false) :
    replacesAnyway engine size file=true := by
  have hlow := hsteady.low
  have hdetect : detectBlobFormat (blobHead file).1=.raw := by
    unfold rawWouldBeMisread at hraw
    rw [take_take,detectBlobFormat_take (by decide)] at hraw
    unfold blobHead
    rw [detectBlobFormat_take (by decide)]
    exact not_not.mp (of_decide_eq_false hraw)
  have hlevel : storedLevelBelow engine (blobHead file).1=true := by
    unfold storedLevelBelow readBlobStoredZstdLevel readIndexedZstdLevel readStoredZstdLevel
    rw [hdetect,if_pos (.inl (by decide)),if_neg (by simp)]
    exact decide_eq_true (by simpa using by omega)
  unfold replacesAnyway
  rw [hlevel,Bool.or_true]

end Recompress

section Fresh

variable {decoded : Option Bytes} {source staging : Bytes} {refs : List BlockRef}

theorem fresh_container (hsteady : Steady engine) (hmax : size<2^63)
    (h : reencodedOf decoded (encodeForMaintenance engine blocks source key size)=
      .indexed staging refs) :
    bodyFormat staging size=.nosi ∧ (upgradesIndexed engine .nosi staging=false ∨
      ∀ pace blocks',reencodeToStaging engine pace blocks' staging .nosi key size=
        (.undecodable,blocks')) := by
  obtain ⟨blockSize,count,rest,rfl⟩ := header_of_indexed h
  have hformat : bodyFormat (fixedHeader size blockSize count engine.encodeOptions.dictId.toNat
      (headerFlags engine.encodeOptions) (clampZstdLevel engine.zstdLevel).toNat++rest) size=.nosi :=
    bodyFormat_fixed (hmax.trans (by decide))
  refine ⟨hformat,?_⟩
  cases hlayout : readBlobLayout (fixedHeader size blockSize count
      engine.encodeOptions.dictId.toNat (headerFlags engine.encodeOptions)
      (clampZstdLevel engine.zstdLevel).toNat++rest) with
  | ok layout => exact .inl (upgradesIndexed_fixed hsteady (hmax.trans (by decide)) hlayout)
  | error e =>
    right
    intro pace blocks'
    unfold reencodeToStaging
    rw [if_neg (by decide),decodeBlobToFile_of_refused hformat hlayout]

end Fresh

section Outcomes

variable {staging : Bytes} {refs : List BlockRef}

theorem encode_of_reencode {format : BlobFormat}
    (h : (reencodeToStaging engine pace blocks file format key size).1=.indexed staging refs) :
    ∃ decoded source,reencodedOf decoded (encodeForMaintenance engine blocks source key size)=
      .indexed staging refs := by
  unfold reencodeToStaging at h
  split_ifs at h
  · exact ⟨_,_,h⟩
  · split at h
    · cases h
    · exact ⟨_,_,h⟩

theorem raw_of_reencode {content : Bytes}
    (h : (reencodeToStaging engine pace blocks file (bodyFormat file size) key size).1=
      .raw (some content)) : bodyFormat content size=.raw := by
  unfold reencodeToStaging at h
  split_ifs at h with hformat
  · cases (reencodedOf_raw h).2
  split at h
  · cases h
  rename_i decoded hdecoded
  obtain ⟨houtcome,hkept⟩ := reencodedOf_raw h
  cases hkept
  have hlength := ((decodeBlobToFile_eq_ok hformat).mp hdecoded).1
  subst hlength
  have hresult : encodeForMaintenance engine blocks content key content.length=
      ⟨.ok .raw,(encodeForMaintenance engine blocks content key content.length).out,
        (encodeForMaintenance engine blocks content key content.length).files⟩ := by
    rw [← houtcome]
  have hdetect : detectBlobFormat content=.raw := encodeFileForStorage_raw hresult
  unfold bodyFormat
  dsimp only
  rw [detectBlobFormat_take (by decide),hdetect]
  rfl

theorem format_of_reencode
    (h : (reencodeToStaging engine pace blocks file (bodyFormat file size) key size).1=.raw none) :
    bodyFormat file size=.raw := by
  unfold reencodeToStaging at h
  split_ifs at h with hformat
  · exact hformat
  · split at h
    · cases h
    · cases (reencodedOf_raw h).2

end Outcomes

end Plans

section Jobs

variable {P : Type} [DecidableEq P] {job : MaintenanceJob} {engine : MaintenanceEngine P}
  {pace pace' : Pace} {blocks blocks' : BlockFiles} {row : KeyRow} {current : P}
  {file staging : Bytes} {refs : List BlockRef} {found : Reencoded}

/-- What recompression makes of a re-encoding. -/
def recompressChoice (engine : MaintenanceEngine P) (size : ℤ) (file : Bytes) : Reencoded→Plan
  | .indexed staging refs =>
    if shouldReplaceEncoded (blobHead file).2 staging.length (replacesAnyway engine size file)
      (isLegacyFormat (bodyFormat file size.toNat)) then .encoded staging refs else .skip
  | _ => .skip

/-- Whether migration re-encodes a blob. -/
def migrateReencodes (engine : MaintenanceEngine P) (size : ℤ) (needsRelocate : Bool)
    (file : Bytes) : Bool :=
  isLegacyFormat (bodyFormat file size.toNat) ||
    upgradesIndexed engine (bodyFormat file size.toNat) file ||
    (decide (bodyFormat file size.toNat=.raw) && needsRelocate)

/-- What migration makes of a re-encoding. -/
def migrateChoice (needsRelocate : Bool) : Reencoded→Plan
  | .indexed staging refs => .encoded staging refs
  | .raw (some decoded) => .encoded decoded []
  | .raw none => if needsRelocate then .relocate else .skip
  | .undecodable => .fail

/-- Whether a job re-encodes a blob. -/
def MaintenanceJob.reencodes (job : MaintenanceJob) (engine : MaintenanceEngine P) (row : KeyRow)
    (current : P) (file : Bytes) : Bool :=
  match job with
  | .recompress => recompressWanted engine row.size file
  | .migrate => migrateReencodes engine row.size
      (decide (current≠engine.blobPath row.bucket row.key)) file

/-- What a job makes of a re-encoding. -/
def MaintenanceJob.choice (job : MaintenanceJob) (engine : MaintenanceEngine P) (row : KeyRow)
    (current : P) (file : Bytes) : Reencoded→Plan :=
  match job with
  | .recompress => recompressChoice engine row.size file
  | .migrate => migrateChoice (decide (current≠engine.blobPath row.bucket row.key))

/-- The re-encoding that a job decides by; a blob that it does not re-encode counts as one
that stays raw. -/
def MaintenanceJob.reencoded (job : MaintenanceJob) (engine : MaintenanceEngine P) (pace : Pace)
    (blocks : BlockFiles) (row : KeyRow) (current : P) (file : Bytes) : Reencoded×BlockFiles :=
  if job.reencodes engine row current file then
    reencodeToStaging engine pace blocks file (bodyFormat file row.size.toNat) row.key row.size.toNat
  else (.raw none,blocks)

omit [DecidableEq P] in
theorem recompressPlan_eq {size : ℤ} {key : Text} (hsize : 0 ≤ size) (hmax : size<2^63) :
    recompressPlan engine pace blocks key size file=
      (if recompressWanted engine size file=true then
        reencodeToStaging engine pace blocks file (bodyFormat file size.toNat) key size.toNat
      else (.raw none,blocks)).map (recompressChoice engine size file) id := by
  unfold recompressPlan
  dsimp only
  rw [← bodyFormat_eq,sizeU64_eq hsize hmax]
  cases hwanted : recompressWanted engine size file with
  | false => rfl
  | true =>
    rw [if_neg (by decide),if_pos rfl]
    rcases reencodeToStaging engine pace blocks file (bodyFormat file size.toNat) key size.toNat with
      ⟨⟨staging,refs⟩ | decoded | _,after⟩
    · exact (apply_ite (fun plan => (plan,after)) _ _ _).symm
    · rfl
    · rfl

omit [DecidableEq P] in
theorem migratePlan_eq {size : ℤ} {key : Text} (hsize : 0 ≤ size) (hmax : size<2^63)
    (needsRelocate : Bool) : migratePlan engine pace blocks key size needsRelocate file=
      (if migrateReencodes engine size needsRelocate file=true then
        reencodeToStaging engine pace blocks file (bodyFormat file size.toNat) key size.toNat
      else (.raw none,blocks)).map (migrateChoice needsRelocate) id := by
  unfold migratePlan
  dsimp only
  rw [← bodyFormat_eq,sizeU64_eq hsize hmax]
  cases hneeds : migrateReencodes engine size needsRelocate file with
  | false =>
    unfold migrateReencodes at hneeds
    rw [hneeds]
    cases needsRelocate <;> rfl
  | true =>
    unfold migrateReencodes at hneeds
    rw [hneeds,Bool.not_true,Bool.and_false,if_neg Bool.false_ne_true,if_pos rfl]
    rcases reencodeToStaging engine pace blocks file (bodyFormat file size.toNat) key size.toNat with
      ⟨⟨staging,refs⟩ | ⟨_ | decoded⟩ | _,after⟩ <;> rfl

theorem plan_eq (hsize : 0 ≤ row.size) (hmax : row.size<2^63) :
    job.plan engine pace blocks row current file=
      (job.reencoded engine pace blocks row current file).map (job.choice engine row current file)
        id := by
  cases job with
  | recompress => exact recompressPlan_eq hsize hmax
  | migrate => exact migratePlan_eq hsize hmax _

theorem encoded_of_choice (h : job.choice engine row current file found=.encoded staging refs) :
    found=.indexed staging refs ∨ job=.migrate ∧ found=.raw (some staging) := by
  match job,found,h with
  | .recompress,.indexed staging' refs',h =>
    dsimp only [MaintenanceJob.choice,recompressChoice] at h
    split_ifs at h
    cases h
    exact .inl rfl
  | .migrate,.indexed staging' refs',h =>
    cases h
    exact .inl rfl
  | .migrate,.raw (some decoded),h =>
    cases h
    exact .inr ⟨rfl,rfl⟩
  | .migrate,.raw none,h =>
    dsimp only [MaintenanceJob.choice,migrateChoice] at h
    split_ifs at h

theorem relocate_of_choice (h : job.choice engine row current file found=.relocate) :
    job=.migrate ∧ found=.raw none := by
  match job,found,h with
  | .recompress,.indexed staging' refs',h =>
    dsimp only [MaintenanceJob.choice,recompressChoice] at h
    split_ifs at h
  | .migrate,.raw none,_ => exact ⟨rfl,rfl⟩

theorem plan_grows (hsize : 0 ≤ row.size) (hmax : row.size<2^63) :
    Grows engine.dedupEnabled blocks (job.plan engine pace blocks row current file).2 := by
  rw [plan_eq hsize hmax]
  unfold MaintenanceJob.reencoded
  split_ifs
  · exact reencode_grows _
  · exact .refl _ _

theorem encoded_idle (h : (job.choice engine row current file (.indexed staging refs)).idle=true) :
    job=.recompress ∧ replacesAnyway engine row.size file=false := by
  cases job with
  | migrate => cases h
  | recompress =>
    refine ⟨rfl,Bool.eq_false_of_not_eq_true fun hanyway => ?_⟩
    simp [MaintenanceJob.choice,recompressChoice,shouldReplaceEncoded,hanyway,Plan.idle] at h

/-- What a job leaves, it leaves again when shared blocks were added. -/
theorem plan_again (hsteady : Steady engine) (hsize : 0 ≤ row.size) (hmax : row.size<2^63)
    (hsound : Sound engine blocks row.size.toNat file)
    (hgrows : Grows engine.dedupEnabled (job.plan engine pace blocks row current file).2 blocks')
    (hidle : (job.plan engine pace blocks row current file).1.idle=true) :
    (job.plan engine pace' blocks' row current file).1.idle=true := by
  rw [plan_eq hsize hmax] at hgrows hidle ⊢
  unfold MaintenanceJob.reencoded at hgrows hidle ⊢
  split_ifs at hgrows hidle ⊢ with hwanted
  · dsimp only [Prod.map_fst,Prod.map_snd,id] at hgrows hidle ⊢
    rcases reencode_again hsound hgrows with ⟨staging,refs,hindexed⟩ | hsame
    · -- What was encoded and left is a raw file that begins like a container.
      rw [hindexed] at hidle
      obtain ⟨rfl,hanyway⟩ := encoded_idle hidle
      by_cases hraw : bodyFormat file row.size.toNat=.raw
      · cases hmisread : rawWouldBeMisread (file.take fixedHeaderLenV1) with
        | false =>
          rw [replacesAnyway_of_raw hsteady hmisread] at hanyway
          cases hanyway
        | true =>
          rw [reencode_kept hraw (fun hdedup => ?_) hgrows,hindexed]
          · exact hidle
          have hkept := hsound hdedup
          rw [if_pos hraw] at hkept
          exact hkept hmisread
      · rw [replacesAnyway_of_wanted hwanted hraw] at hanyway
        cases hanyway
    · rwa [hsame]
  · exact hidle

theorem plan_idle (hsize : 0 ≤ row.size) (hmax : row.size<2^63)
    (h : job.reencodes engine row (job.target engine row current) file=false) :
    (job.plan engine pace blocks row (job.target engine row current) file).1.idle=true := by
  rw [plan_eq hsize hmax]
  unfold MaintenanceJob.reencoded
  rw [h]
  cases job with
  | recompress => rfl
  | migrate =>
    dsimp only [MaintenanceJob.choice,MaintenanceJob.target]
    rw [decide_eq_false (not_not.mpr rfl)]
    rfl

theorem reencodes_raw (hformat : bodyFormat file row.size.toNat=.raw) :
    MaintenanceJob.migrate.reencodes engine row (MaintenanceJob.migrate.target engine row current)
      file=false := by
  dsimp only [MaintenanceJob.reencodes,MaintenanceJob.target]
  unfold migrateReencodes upgradesIndexed indexedNeedsUpgrade
  rw [hformat,decide_eq_false (not_not.mpr rfl)]
  rfl

theorem plan_fresh (hsteady : Steady engine) (hsize : 0 ≤ row.size) (hmax : row.size<2^63)
    {decoded : Option Bytes} {source : Bytes}
    (h : reencodedOf decoded (encodeForMaintenance engine blocks source row.key row.size.toNat)=
      .indexed staging refs) (pace : Pace) (blocks' : BlockFiles) :
    (job.plan engine pace blocks' row (job.target engine row current) staging).1.idle=true := by
  obtain ⟨hformat,hfresh⟩ := fresh_container hsteady (show row.size.toNat<2^63 by omega) h
  by_cases hwanted : job.reencodes engine row (job.target engine row current) staging=true
  · rcases hfresh with hfresh | hrefused
    · -- Containers that are not outdated are not wanted.
      refine plan_idle hsize hmax ?_
      cases job with
      | recompress =>
        dsimp only [MaintenanceJob.reencodes]
        unfold recompressWanted
        dsimp only
        rw [← bodyFormat_eq,hformat,hfresh,if_neg (fun h => nomatch h.1),if_pos ⟨rfl,rfl⟩]
      | migrate =>
        dsimp only [MaintenanceJob.reencodes]
        unfold migrateReencodes
        rw [hformat,hfresh]
        rfl
    · rw [plan_eq hsize hmax]
      unfold MaintenanceJob.reencoded
      rw [if_pos hwanted,hformat,hrefused]
      cases job <;> rfl
  · exact plan_idle hsize hmax (Bool.eq_false_of_not_eq_true hwanted)

theorem plan_encoded (hsteady : Steady engine) (hsize : 0 ≤ row.size) (hmax : row.size<2^63)
    (h : (job.plan engine pace blocks row current file).1=.encoded staging refs) (pace' : Pace)
    (blocks' : BlockFiles) :
    (job.plan engine pace' blocks' row (job.target engine row current) staging).1.idle=true := by
  rw [plan_eq hsize hmax] at h
  unfold MaintenanceJob.reencoded at h
  split_ifs at h with hwanted
  · rcases encoded_of_choice h with hfound | ⟨rfl,hfound⟩
    · obtain ⟨decoded,source,hencode⟩ := encode_of_reencode hfound
      exact plan_fresh hsteady hsize hmax hencode pace' blocks'
    · exact plan_idle hsize hmax (reencodes_raw (raw_of_reencode hfound))
  · rcases encoded_of_choice h with hfound | ⟨_,hfound⟩ <;> cases hfound

theorem plan_relocated (hsize : 0 ≤ row.size) (hmax : row.size<2^63)
    (h : (job.plan engine pace blocks row current file).1=.relocate) (pace' : Pace)
    (blocks' : BlockFiles) :
    (job.plan engine pace' blocks' row (job.target engine row current) file).1.idle=true := by
  rw [plan_eq hsize hmax] at h
  unfold MaintenanceJob.reencoded at h
  split_ifs at h with hwanted
  · obtain ⟨rfl,hfound⟩ := relocate_of_choice h
    exact plan_idle hsize hmax (reencodes_raw (format_of_reencode hfound))
  obtain ⟨rfl,_⟩ := relocate_of_choice h
  refine plan_idle hsize hmax ?_
  dsimp only [MaintenanceJob.reencodes,MaintenanceJob.target] at hwanted ⊢
  unfold migrateReencodes at hwanted ⊢
  rw [decide_eq_false (not_not.mpr rfl),Bool.and_false,Bool.or_false]
  exact (Bool.or_eq_false_iff.mp (Bool.eq_false_of_not_eq_true hwanted)).1

end Jobs

section Steps

variable {P : Type} [DecidableEq P] {job : MaintenanceJob} {engine : MaintenanceEngine P} {pace : Pace}
  {state state' : DiskState P} {row other : KeyRow} {current : P} {file new : Bytes}
  {paths : List P}

theorem mem_of_firstExisting (h : firstExisting state paths=some (current,file)) :
    current∈paths ∧ state.blobs.lookup current=some file := by
  obtain ⟨path,hpath,hfound⟩ := exists_of_findSome?_eq_some h
  obtain ⟨found,hlookup,hpair⟩ := Option.map_eq_some_iff.mp hfound
  cases hpair
  exact ⟨hpath,hlookup⟩

theorem firstExisting_congr (h : ∀ path∈paths,state'.blobs.lookup path=state.blobs.lookup path) :
    firstExisting state' paths=firstExisting state paths := by
  unfold firstExisting
  induction paths with
  | nil => rfl
  | cons path paths ih =>
    rw [List.findSome?_cons,List.findSome?_cons,h path mem_cons_self,
      ih fun other hother => h other (mem_cons_of_mem path hother)]

theorem firstExisting_insert (h : firstExisting state paths=some (current,file))
    (hnew : state'.blobs=state.blobs.insert current new) :
    firstExisting state' paths=some (current,new) := by
  have hlookup := (mem_of_firstExisting h).2
  unfold firstExisting at h ⊢
  rw [hnew]
  induction paths with
  | nil => cases h
  | cons path paths ih =>
    rw [List.findSome?_cons] at h ⊢
    by_cases hpath : path=current
    · rw [hpath,AList.lookup_insert]
      rfl
    rw [AList.lookup_insert_ne hpath]
    cases hearlier : state.blobs.lookup path with
    | none =>
      rw [hearlier] at h
      exact ih h
    | some earlier =>
      rw [hearlier] at h
      exact absurd (Prod.mk.inj (Option.some.inj h)).1 hpath

theorem placeBlob_self (blobs : Table P Bytes) (path : P) (new : Bytes) :
    placeBlob blobs path path new=blobs.insert path new := by
  unfold placeBlob
  rw [if_neg (not_not.mpr rfl)]

theorem lookup_placeBlob (blobs : Table P Bytes) (current target : P) (new : Bytes) :
    (placeBlob blobs current target new).lookup target=some new := by
  unfold placeBlob
  dsimp only
  split_ifs with hmoves
  · rw [AList.lookup_erase_ne (Ne.symm hmoves),AList.lookup_insert]
  · rw [AList.lookup_insert]

theorem firstExisting_place (h : firstExisting state (engine.variants row)=some (current,file))
    (hnew : state'.blobs=placeBlob state.blobs current (job.target engine row current) new) :
    firstExisting state' (engine.variants row)=some (job.target engine row current,new) := by
  cases job with
  | recompress =>
    exact firstExisting_insert h (hnew.trans (placeBlob_self state.blobs current new))
  | migrate =>
    have hlookup : state'.blobs.lookup (engine.blobPath row.bucket row.key)=some new := by
      rw [hnew]
      exact lookup_placeBlob _ _ _ _
    unfold firstExisting MaintenanceEngine.variants
    rw [List.findSome?_cons,hlookup]
    rfl

omit [DecidableEq P] in
theorem target_mem (h : current∈engine.variants row) :
    job.target engine row current∈engine.variants row := by
  cases job with
  | recompress => exact h
  | migrate => exact mem_cons_self

theorem lookup_place {blobs : Table P Bytes} {target path : P} (hcurrent : path≠current)
    (htarget : path≠target) :
    (placeBlob blobs current target new).lookup path=blobs.lookup path := by
  unfold placeBlob
  dsimp only
  split_ifs
  · rw [AList.lookup_erase_ne hcurrent,AList.lookup_insert_ne htarget]
  · rw [AList.lookup_insert_ne htarget]

/-- Nothing is left to do for the first file of an object, whatever shared blocks are
added. -/
def Settled (job : MaintenanceJob) (engine : MaintenanceEngine P) (state : DiskState P)
    (row : KeyRow) : Prop :=
  ∀ current file,firstExisting state (engine.variants row)=some (current,file) →
    ∀ pace blocks,Grows engine.dedupEnabled state.blocks blocks →
      (job.plan engine pace blocks row current file).1.idle=true

/-- The first file of an object is sound. -/
def Prepared (engine : MaintenanceEngine P) (state : DiskState P) (row : KeyRow) : Prop :=
  ∀ current file,firstExisting state (engine.variants row)=some (current,file) →
    Sound engine state.blocks row.size.toNat file

/-- What one object of a job does: it leaves the blobs, or puts a file in place that the
job leaves alone. -/
theorem step_cases (hsteady : Steady engine) (hsize : 0 ≤ row.size) (hmax : row.size<2^63)
    {outcome : RowOutcome} (h : job.step engine pace state row=.ok (outcome,state')) :
    Grows engine.dedupEnabled state.blocks state'.blocks ∧
      ((state'.blobs=state.blobs ∧ outcome.isReplaced=false ∧
          ∀ current file,firstExisting state (engine.variants row)=some (current,file) →
            (job.plan engine pace state.blocks row current file).1.idle=true ∧
            (job.plan engine pace state.blocks row current file).2=state'.blocks) ∨
        ∃ current file new,firstExisting state (engine.variants row)=some (current,file) ∧
          (job.plan engine pace state.blocks row current file).1.idle=false ∧
          state'.blobs=placeBlob state.blobs current (job.target engine row current) new ∧
          ∀ pace blocks,
            (job.plan engine pace blocks row (job.target engine row current) new).1.idle=true) := by
  unfold MaintenanceJob.step at h
  cases hfirst : firstExisting state (engine.variants row) with
  | none =>
    rw [hfirst] at h
    cases h
    exact ⟨.refl _ _,.inl ⟨rfl,rfl,fun _ _ hsome => nomatch hsome⟩⟩
  | some found =>
    obtain ⟨current,file⟩ := found
    rw [hfirst] at h
    dsimp only at h
    have hgrows := @plan_grows P _ job engine pace state.blocks row current file hsize hmax
    have hencoded := fun staging refs =>
      @plan_encoded P _ job engine pace state.blocks row current file staging refs hsteady hsize hmax
    have hrelocated := @plan_relocated P _ job engine pace state.blocks row current file hsize hmax
    rcases hplanned : job.plan engine pace state.blocks row current file with ⟨plan,after⟩
    rw [hplanned] at h hgrows hencoded hrelocated
    unfold replaceBlobIfUnchanged at h
    cases plan with
    | skip | fail =>
      cases h
      refine ⟨hgrows,.inl ⟨rfl,rfl,fun current' file' hsome => ?_⟩⟩
      cases hsome
      rw [hplanned]
      exact ⟨rfl,rfl⟩
    | encoded staging refs =>
      dsimp only at h
      split at h
      · cases h
      rename_i swapped next hswap
      split at hswap
      · cases hswap
      cases hswap
      cases h
      refine ⟨hgrows,.inr ⟨current,file,staging,rfl,?_,rfl,hencoded staging refs rfl⟩⟩
      rw [hplanned]
      rfl
    | relocate =>
      cases h
      refine ⟨hgrows,.inr ⟨current,file,file,rfl,?_,rfl,hrelocated rfl⟩⟩
      rw [hplanned]
      rfl

theorem Settled.carry (h : Settled job engine state row)
    (hfirst : firstExisting state' (engine.variants row)=firstExisting state (engine.variants row))
    (hgrows : Grows engine.dedupEnabled state.blocks state'.blocks) :
    Settled job engine state' row :=
  fun current file hfile pace blocks hblocks =>
    h current file (hfirst ▸ hfile) pace blocks (hgrows.trans hblocks)

theorem Prepared.carry (h : Prepared engine state row)
    (hfirst : firstExisting state' (engine.variants row)=firstExisting state (engine.variants row))
    (hgrows : Grows engine.dedupEnabled state.blocks state'.blocks) : Prepared engine state' row :=
  fun current file hfile => (h current file (hfirst ▸ hfile)).grows hgrows

end Steps

section Walks

variable {P : Type} [DecidableEq P] {job : MaintenanceJob} {engine : MaintenanceEngine P} {pace : Pace}
  {state state' : DiskState P} {row : KeyRow} {rows : List KeyRow}

/-- Objects of known sizes with blobs at paths of their own. -/
structure Apart (engine : MaintenanceEngine P) (rows : List KeyRow) : Prop where
  /-- Sizes are not negative. -/
  size_nonneg : ∀ row∈rows,0 ≤ row.size
  /-- Sizes are signed 64-bit numbers. -/
  size_lt : ∀ row∈rows,row.size<2^63
  /-- No two objects share a path. -/
  disjoint : ∀ row∈rows,∀ other∈rows,row≠other →
    (engine.variants row).Disjoint (engine.variants other)

/-- Some objects are settled, and the others are sound. -/
structure Underway (job : MaintenanceJob) (engine : MaintenanceEngine P) (rows : List KeyRow)
    (visited : KeyRow→Prop) (state : DiskState P) : Prop where
  /-- Objects that were visited are settled. -/
  settled : ∀ row∈rows,visited row→Settled job engine state row
  /-- The others are sound. -/
  prepared : ∀ row∈rows,¬visited row→Prepared engine state row

variable (hsteady : Steady engine) (hapart : Apart engine rows)

include hsteady hapart

variable {visited : KeyRow→Prop}

/-- An object that is visited is settled then, and the others are not touched. One that
was settled is left alone. -/
theorem step_underway {outcome : RowOutcome} (hstate : Underway job engine rows visited state)
    (hrow : row∈rows) (h : job.step engine pace state row=.ok (outcome,state')) :
    Underway job engine rows (fun other => other=row ∨ visited other) state' ∧
      (visited row→state'.blobs=state.blobs ∧ outcome.isReplaced=false) := by
  have hsize := hapart.size_nonneg row hrow
  have hmax := hapart.size_lt row hrow
  obtain ⟨hgrows,⟨hblobs,houtcome,hidle⟩ | ⟨current,file,new,hfirst,hbusy,hblobs,hidle⟩⟩ :=
    step_cases hsteady hsize hmax h
  · have hfirst : ∀ other : KeyRow,firstExisting state' (engine.variants other)=
        firstExisting state (engine.variants other) :=
      fun other => firstExisting_congr fun path _ => by rw [hblobs]
    refine ⟨⟨fun other hother hdone => ?_,fun other hother hdone => ?_⟩,fun _ => ⟨hblobs,houtcome⟩⟩
    · by_cases hbefore : visited other
      · exact (hstate.settled other hother hbefore).carry (hfirst other) hgrows
      obtain rfl := hdone.resolve_right hbefore
      intro current file hfile pace' blocks hblocks
      rw [hfirst other] at hfile
      have hsound := hstate.prepared other hother hbefore current file hfile
      obtain ⟨hleft,hadded⟩ := hidle current file hfile
      exact plan_again hsteady hsize hmax hsound (hadded ▸ hblocks) hleft
    · exact (hstate.prepared other hother fun hbefore => hdone (.inr hbefore)).carry
        (hfirst other) hgrows
  · have hcurrent := (mem_of_firstExisting hfirst).1
    have hothers : ∀ other∈rows,other≠row→firstExisting state' (engine.variants other)=
        firstExisting state (engine.variants other) := by
      intro other hother hne
      have happart := hapart.disjoint other hother row hrow hne
      refine firstExisting_congr fun path hpath => ?_
      rw [hblobs]
      refine lookup_place ?_ ?_
      · rintro rfl
        exact happart hpath hcurrent
      · rintro rfl
        exact happart hpath (target_mem hcurrent)
    refine ⟨⟨fun other hother hdone => ?_,fun other hother hdone => ?_⟩,fun hbefore => ?_⟩
    · by_cases hsame : other=row
      · intro current' file' hfile pace' blocks _
        rw [hsame,firstExisting_place hfirst hblobs] at hfile
        cases hfile
        rw [hsame]
        exact hidle pace' blocks
      · exact (hstate.settled other hother (hdone.resolve_left hsame)).carry
          (hothers other hother hsame) hgrows
    · exact (hstate.prepared other hother fun hbefore => hdone (.inr hbefore)).carry
        (hothers other hother fun hsame => hdone (.inl hsame)) hgrows
    · rw [hstate.settled row hrow hbefore current file hfirst pace state.blocks (.refl _ _)] at hbusy
      cases hbusy

theorem run_underway {page : List KeyRow} {outcomes : List RowOutcome}
    (hstate : Underway job engine rows visited state) (hpage : ∀ row∈page,row∈rows)
    (h : job.run engine pace page state=.ok (outcomes,state')) :
    Underway job engine rows (fun other => other∈page ∨ visited other) state' ∧
      ((∀ row∈rows,visited row) →
        state'.blobs=state.blobs ∧ outcomes.countP RowOutcome.isReplaced=0) := by
  induction page generalizing visited state outcomes with
  | nil =>
    cases h
    exact ⟨by simpa using hstate,fun _ => ⟨rfl,rfl⟩⟩
  | cons row page ih =>
    unfold MaintenanceJob.run at h
    split at h
    · cases h
    rename_i outcome next hstep
    split at h
    · cases h
    rename_i later last hrun
    cases h
    have hrow := hpage row mem_cons_self
    obtain ⟨hnext,hleft⟩ := step_underway hsteady hapart hstate hrow hstep
    obtain ⟨hlast,hlater⟩ := ih hnext
      (fun other hother => hpage other (mem_cons_of_mem row hother)) hrun
    have hsame : ∀ other,(other∈page ∨ other=row ∨ visited other) ↔
        (other∈row::page ∨ visited other) := by
      intro other
      rw [mem_cons]
      tauto
    refine ⟨by simpa only [hsame] using hlast,fun hall => ?_⟩
    obtain ⟨hblobs,houtcome⟩ := hleft (hall row hrow)
    obtain ⟨hrest,hcount⟩ := hlater fun other hother => .inr (hall other hother)
    refine ⟨hrest.trans hblobs,?_⟩
    rw [countP_cons,hcount,houtcome]
    rfl

omit hsteady hapart

/-- A call of a job as a turn of a walk. -/
def maintenanceTurn (limit : ℕ) (turn : MaintenanceTurn) (start : Option Text) : Page KeyRow Text :=
  keyPageTurn (wrapI64 (max limit 1)) turn.reads start

variable {limit : ℕ} {start : Option Text} {turn : MaintenanceTurn} {report : MaintenanceReport}
  {turns : List MaintenanceTurn} {reports : List MaintenanceReport} {final : DiskState P}
  {table : ObjectTable Char}

theorem call_eq_ok (h : job.call engine limit turn start state=.ok (report,state')) :
    report.next=(maintenanceTurn limit turn start).next ∧
      ∃ outcomes,report.replaced=outcomes.countP RowOutcome.isReplaced ∧
        job.run engine turn.pace (maintenanceTurn limit turn start).rows state=
          .ok (outcomes,state') := by
  unfold MaintenanceJob.call at h
  dsimp only at h
  split at h
  · cases h
  rename_i outcomes next hrun
  cases h
  exact ⟨rfl,outcomes,rfl,hrun⟩

theorem CompleteWalk.walk (h : CompleteWalk job engine limit start state turns reports final) :
    Walk (maintenanceTurn limit) start turns := by
  induction h with
  | last hcall hlast => exact .last ((call_eq_ok hcall).1.symm.trans hlast)
  | more hcall hnext _ ih => exact .more ((call_eq_ok hcall).1.symm.trans hnext) ih

theorem maintenanceTurn_sees (hreads : turn.reads.Of table) :
    Sees KeyRow.key (activeObjects table) (maintenanceTurn limit turn) :=
  keyPageTurn_sees (wrapI64_lt _) hreads

theorem CompleteWalk.visits (h : CompleteWalk job engine limit none state turns reports final)
    (hreads : ∀ turn∈turns,turn.reads.Of table) (hrow : row∈activeObjects table) :
    row∈listed (maintenanceTurn limit) none turns := by
  have hperm := h.walk.perm (fun turn hturn => maintenanceTurn_sees (hreads turn hturn))
    (activeObjects_nodup table).of_map
  exact hperm.mem_iff.mpr (mem_filter.mpr ⟨hrow,decide_eq_true (behind_none _)⟩)

/-- Objects that a walk visits are settled, and left alone if they were. -/
theorem walk_underway (hsteady : Steady engine) (hapart : Apart engine (activeObjects table))
    (h : CompleteWalk job engine limit start state turns reports final)
    (hreads : ∀ turn∈turns,turn.reads.Of table)
    (hstate : Underway job engine (activeObjects table) visited state) :
    Underway job engine (activeObjects table)
        (fun row => row∈listed (maintenanceTurn limit) start turns ∨ visited row) final ∧
      ((∀ row∈activeObjects table,visited row) →
        final.blobs=state.blobs ∧ ∀ report∈reports,report.replaced=0) := by
  have hpage : ∀ turn∈turns,∀ start,∀ row∈(maintenanceTurn limit turn start).rows,
      row∈activeObjects table := fun turn hturn start row hrow =>
    ((maintenanceTurn_sees (hreads turn hturn)).rows start row hrow).1
  induction h generalizing visited with
  | @last start state state' turn report hcall hlast =>
    obtain ⟨_,outcomes,hreplaced,hrun⟩ := call_eq_ok hcall
    have hafter := run_underway hsteady hapart hstate (hpage turn mem_cons_self start) hrun
    have hlisted : listed (maintenanceTurn limit) start [turn]=
        (maintenanceTurn limit turn start).rows := append_nil _
    rw [hlisted]
    refine ⟨hafter.1,fun hall => ⟨(hafter.2 hall).1,fun other hother => ?_⟩⟩
    rw [mem_singleton.mp hother,hreplaced,(hafter.2 hall).2]
  | @more start state state' final turn report next turns reports hcall hnext hrest ih =>
    obtain ⟨hcursor,outcomes,hreplaced,hrun⟩ := call_eq_ok hcall
    obtain ⟨hafter,hleft⟩ :=
      run_underway hsteady hapart hstate (hpage turn mem_cons_self start) hrun
    obtain ⟨hlast,hlater⟩ := ih
      (fun other hother => hreads other (mem_cons_of_mem turn hother)) hafter
      (fun other hother => hpage other (mem_cons_of_mem turn hother))
    rw [hcursor] at hnext
    have hsame : ∀ row,(row∈listed (maintenanceTurn limit) (some next) turns ∨
        row∈(maintenanceTurn limit turn start).rows ∨ visited row) ↔
          (row∈listed (maintenanceTurn limit) start (turn::turns) ∨ visited row) := by
      intro row
      rw [listed_cons,hnext,mem_append]
      tauto
    refine ⟨by simpa only [hsame] using hlast,fun hall => ?_⟩
    obtain ⟨hblobs,hcount⟩ := hleft hall
    obtain ⟨hsettled,hnone⟩ := hlater fun row hrow => .inr (hall row hrow)
    refine ⟨hsettled.trans hblobs,fun other hother => ?_⟩
    rcases mem_cons.mp hother with rfl | hother
    · rw [hreplaced,hcount]
    · exact hnone other hother

/-- After a complete walk of a job over the objects of a table, a second one replaces no
blob. With shared chunks, the blobs have to be sound before the first. -/
theorem second_walk_replaces_nothing {middle : DiskState P} {limit' : ℕ}
    {turns' : List MaintenanceTurn} {reports' : List MaintenanceReport} (hsteady : Steady engine)
    (hapart : Apart engine (activeObjects table))
    (hprepared : ∀ row∈activeObjects table,Prepared engine state row)
    (hfirst : CompleteWalk job engine limit none state turns reports middle)
    (hreads : ∀ turn∈turns,turn.reads.Of table)
    (hsecond : CompleteWalk job engine limit' none middle turns' reports' final)
    (hreads' : ∀ turn∈turns',turn.reads.Of table) :
    final.blobs=middle.blobs ∧ ∀ report∈reports',report.replaced=0 := by
  have hstart : Underway job engine (activeObjects table) (fun _ => False) state :=
    ⟨fun _ _ hnone => hnone.elim,fun row hrow _ => hprepared row hrow⟩
  have hmiddle := (walk_underway hsteady hapart hfirst hreads hstart).1
  have hsettled : Underway job engine (activeObjects table) (fun _ => True) middle :=
    ⟨fun row hrow _ => hmiddle.settled row hrow (.inl (hfirst.visits hreads hrow)),
      fun _ _ hnot => absurd trivial hnot⟩
  exact (walk_underway hsteady hapart hsecond hreads' hsettled).2 fun _ _ => trivial

end Walks

section Samples

/-- A node that keeps each blob under its bucket and key or at an older path. -/
def sampleEngine (env : ReadEnv) (dedup : Bool) (olderPaths : List (Text×Text)) :
    MaintenanceEngine (Text×Text) where
  readContext := { plainContext with env := env }
  zstdLevel := 3
  blockSize := 4096
  compressMinSize := 1
  compressExcludeExtensions := []
  dedupEnabled := dedup
  writeDictionary := none
  blobPath := fun bucket key => (bucket,key)
  olderPaths := fun _ _ => olderPaths

/-- Two objects of some sizes, as a query answers them. -/
def sizedView (first second : ℤ) : TableView where
  table := ⟨⟨[⟨(['b'],['a']),{ sampleRow with size := first }⟩,
    ⟨(['b'],['c']),{ sampleRow with size := second }⟩],
      show [((['b'],['a']) : Text×Text),(['b'],['c'])].Nodup by decide⟩,by
      intro entry hentry
      rcases mem_pair.mp hentry with rfl | rfl <;> exact cons_ne_nil _ _⟩
  rows := [⟨['b'],['a'],first⟩,⟨['b'],['c'],second⟩]
  perm := .refl _
  sorted := by
    refine pairwise_cons.mpr ⟨fun row hrow => ?_,pairwise_singleton _ _⟩
    rw [mem_singleton.mp hrow]
    exact (by decide : (['a'] : Text)≤['c'])

/-- A call that sees both objects. -/
def sizedTurn (view : TableView) : MaintenanceTurn := ⟨⟨view,view,view⟩,slowPace⟩

/-- Two walks of recompression, of one call each, that replace so many blobs. -/
def Replace (engine : MaintenanceEngine (Text×Text)) (view : TableView)
    (state : DiskState (Text×Text)) (count count' : ℕ) : Prop :=
  ∃ middle final report report',report.replaced=count ∧ report'.replaced=count' ∧
    CompleteWalk .recompress engine 2 none state [sizedTurn view] [report] middle ∧
    CompleteWalk .recompress engine 2 none middle [sizedTurn view] [report'] final

/-- One call over both objects. -/
def sampleCall (engine : MaintenanceEngine (Text×Text)) (view : TableView)
    (state : DiskState (Text×Text)) : Except String (MaintenanceReport×DiskState (Text×Text)) :=
  MaintenanceJob.recompress.call engine 2 (sizedTurn view) none state

variable {engine : MaintenanceEngine (Text×Text)} {view : TableView}

theorem sampleCall_walks {state state' : DiskState (Text×Text)} {report : MaintenanceReport}
    (h : (sampleCall engine view state).toOption=some (report,state'))
    (hlast : report.isTruncated=false) :
    CompleteWalk .recompress engine 2 none state [sizedTurn view] [report] state' := by
  have hnext : report.next=none := by
    unfold MaintenanceReport.next
    rw [hlast]
    rfl
  cases hcall : sampleCall engine view state with
  | error e =>
    rw [hcall] at h
    cases h
  | ok after =>
    rw [hcall] at h
    cases h
    exact .last hcall hnext

/-- What two calls report, one after the other: how many blobs they replace, and whether
there are more objects. -/
def sampleCalls (engine : MaintenanceEngine (Text×Text)) (view : TableView)
    (state : DiskState (Text×Text)) : Option ((ℕ×Bool)×ℕ×Bool) :=
  (sampleCall engine view state).toOption.bind fun middle =>
    (sampleCall engine view middle.2).toOption.map fun after =>
      ((middle.1.replaced,middle.1.isTruncated),after.1.replaced,after.1.isTruncated)

theorem sampleCalls_replace {state : DiskState (Text×Text)} {count count' : ℕ}
    (h : sampleCalls engine view state=some ((count,false),count',false)) :
    Replace engine view state count count' := by
  obtain ⟨⟨report,middle⟩,hfirst,hrest⟩ := Option.bind_eq_some_iff.mp h
  obtain ⟨⟨report',final⟩,hsecond,hcounts⟩ := Option.map_eq_some_iff.mp hrest
  obtain ⟨hreport,hreport'⟩ := Prod.mk.inj hcounts
  obtain ⟨hcount,hlast⟩ := Prod.mk.inj hreport
  obtain ⟨hcount',hlast'⟩ := Prod.mk.inj hreport'
  exact ⟨middle,final,report,report',hcount,hcount',sampleCall_walks hfirst hlast,
    sampleCall_walks hsecond hlast'⟩

theorem sampleEngine_steady (env : ReadEnv) (dedup : Bool) (olderPaths : List (Text×Text)) :
    Steady (sampleEngine env dedup olderPaths) :=
  ⟨show (1 : ℤ)≤3 by decide,show (3 : ℤ)≤22 by decide⟩

theorem sampleEngine_apart (env : ReadEnv) (dedup : Bool)
    (hsizes : ∀ row∈activeObjects view.table,0 ≤ row.size ∧ row.size<2^63) :
    Apart (sampleEngine env dedup []) (activeObjects view.table) := by
  refine ⟨fun row hrow => (hsizes row hrow).1,fun row hrow => (hsizes row hrow).2,?_⟩
  intro row hrow other hother hne path hpath hpath'
  have hsame := (mem_singleton.mp hpath).symm.trans (mem_singleton.mp hpath')
  exact hne (inj_on_of_nodup_map (activeObjects_nodup view.table) hrow hother hsame)

/-- A frame of one byte. -/
def sampleFrame : Bytes := blobMagic++le 8 1++[7]

/-- A file for the first object and a raw one for the second. -/
def sampleDisk (file : Bytes) : DiskState (Text×Text) :=
  ⟨((∅ : Table (Text×Text) Bytes).insert (['b'],['c']) [7]).insert (['b'],['a']) file,∅⟩

theorem sampleFrame_needs (name : BlockHash) :
    ¬Needs (sampleEngine plainEnv true []) 1 sampleFrame name := by
  have hdecodes : ∀ blocks pace,decodeBlobToFile ((sampleEngine plainEnv true []).withBlocks blocks)
      pace sampleFrame 1=.ok [7] := fun blocks pace =>
    @decodeBlobToFile_extends _ slowPace pace sampleFrame [7] 1 ∅ blocks
      (fun _ _ hnone => nomatch hnone) (by decide +kernel) rfl
  rintro ⟨blocks,pace,content,hdecoded,hwithout⟩
  rw [hdecodes] at hdecoded
  exact hwithout pace (hdecoded ▸ hdecodes _ _)

/-- Two walks over a frame and a raw file: the first one encodes both, the second replaces
none. -/
theorem sample_walks_settle :
    ∃ middle final report report',report.replaced=2 ∧
      CompleteWalk .recompress (sampleEngine plainEnv true []) 2 none (sampleDisk sampleFrame)
        [sizedTurn (sizedView 1 1)] [report] middle ∧
      CompleteWalk .recompress (sampleEngine plainEnv true []) 2 none middle
        [sizedTurn (sizedView 1 1)] [report'] final ∧
      final.blobs=middle.blobs ∧ ∀ other∈[report'],other.replaced=0 := by
  have hreads : ∀ turn∈[sizedTurn (sizedView 1 1)],turn.reads.Of (sizedView 1 1).table := by
    intro turn hturn
    rw [mem_singleton.mp hturn]
    exact ⟨rfl,rfl,rfl⟩
  have hprepared : ∀ row∈activeObjects (sizedView 1 1).table,
      Prepared (sampleEngine plainEnv true []) (sampleDisk sampleFrame) row := by
    intro row hrow current file hfile _
    rcases mem_pair.mp hrow with rfl | rfl
    · cases hfile
      exact fun name hneeds => absurd hneeds (sampleFrame_needs name)
    · cases hfile
      exact fun hmisread => nomatch hmisread
  obtain ⟨middle,final,report,report',hcount,_,hfirst,hsecond⟩ : Replace
      (sampleEngine plainEnv true []) (sizedView 1 1) (sampleDisk sampleFrame) 2 0 :=
    sampleCalls_replace (by decide +kernel)
  exact ⟨middle,final,report,report',hcount,hfirst,hsecond,second_walk_replaces_nothing
    (sampleEngine_steady _ _ _) (sampleEngine_apart _ _ (by decide +kernel)) hprepared hfirst hreads
      hsecond hreads⟩

/-- A manifest of one shared block that holds one byte. -/
def sampleManifest : Bytes :=
  dedupMagic++le 8 1++le 4 1++le 8 (plainHash [7]).toNat++le 4 1

/-- A compressor whose frames are the first bytes of chunks, and a hash by lengths. -/
def shortEnv (frameLen : ℕ→ℕ) : ReadEnv where
  zstd := { plainZstd with compress := fun _ _ chunk => .ok (chunk.take (frameLen chunk.length)) }
  hash := fun chunk => UInt64.ofNat chunk.length
  dictionaries := fun _ => none
  dict := none
  blocks := none

/-- A raw file that begins like a container of the current level. Its first chunk is not
compressed and its second one begins like a compressed block file. -/
def sampleUpload : Bytes :=
  fixedHeader 0 0 0 0 0 3++List.replicate 4071 0++blockChunkMagic++List.replicate 95 0

/-- The file, and a shared block that is none of the first chunk. -/
def uploadDisk : DiskState (Text×Text) :=
  ⟨(∅ : Table (Text×Text) Bytes).insert (['b'],['a']) sampleUpload,(∅ : BlockFiles).insert 4096 []⟩

/-- A file at an older path of both objects. -/
def sharedDisk : DiskState (Text×Text) :=
  ⟨(∅ : Table (Text×Text) Bytes).insert ([],['l']) (List.replicate 100 0),∅⟩

/-- The three ways in which a second walk replaces a blob. The shared block of a manifest is
missing and gets stored for the other object; a raw file that begins like a container gets
smaller, because a chunk of it cannot be read back and is not shared again; the container of
one object is a raw file of the other object's size. -/
theorem second_walk_replaces :
    (Apart (sampleEngine plainEnv true []) (activeObjects (sizedView 1 1).table) ∧
      Replace (sampleEngine plainEnv true []) (sizedView 1 1) (sampleDisk sampleManifest) 1 1) ∧
    (Apart (sampleEngine (shortEnv fun n => if n=4096 then n else 1) true [])
        (activeObjects (sizedView 4195 1).table) ∧ bodyFormat sampleUpload 4195=.raw ∧
      Replace (sampleEngine (shortEnv fun n => if n=4096 then n else 1) true []) (sizedView 4195 1)
        uploadDisk 0 1) ∧
    Replace (sampleEngine (shortEnv fun n => if n=100 then 20 else 1) false [([],['l'])])
      (sizedView 77 100) sharedDisk 1 1 := by
  refine ⟨⟨sampleEngine_apart _ _ (by decide +kernel),sampleCalls_replace (by decide +kernel)⟩,
    ⟨sampleEngine_apart _ _ (by decide +kernel),by decide +kernel,
      sampleCalls_replace (by decide +kernel)⟩,sampleCalls_replace (by decide +kernel)⟩

end Samples

end NebularOs.BlobMaintenance
