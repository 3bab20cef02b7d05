import Mathlib
import NebularOs.BlobRoundTrip
import NebularOs.BodyStreams

/-!
# References to shared blocks

A blob that is dropped gives back the shared blocks that it names. They are read from the
file: a manifest lists them, and a container names them in its blocks. The encoder counts
them while it writes the container, and both ways come to the same list. Unlike reading,
dropping does not look at the size in the metadata, so an upload that is stored as it is
and looks like a manifest or a container gives back blocks that it never counted.
-/

namespace NebularOs.BlockReferences

open ByteFields EngineState BlobFormats SharedBlocks Compressibility Chunks BlobEncoding
  BlobRoundTrip BodyStreams List

/-- Containers whose blocks may be shared ones. -/
def usesDedupBlocks (layout : BlobLayout) : Bool :=
  layout.format==.v1 && decide (layout.flags&&&nosiFlagDedup≠0)

/-- The shared block that a block of a container names, if it does. -/
def dedupRefAt (data : Bytes) (layout : BlobLayout) (blockIdx : ℕ) :
    Except String (Option BlockRef) :=
  let fileOffset := layout.fileOffsetForBlock blockIdx
  match parseBlockHeaderAt data fileOffset layout with
  | .error e => .error e
  | .ok parsed =>
    if parsed.blockType≠blockDedupRef then .ok none
    else
      let payloadStart := fileOffset+parsed.headerLen
      if data.length<payloadStart+parsed.payloadLen then .error "dedup ref truncated"
      else
        let payload := slice payloadStart parsed.payloadLen data
        if payload.length≠12 then .error "invalid dedup ref payload"
        else .ok (some (UInt64.ofNat (fromLe (slice 0 8 payload)),fromLe (slice 8 4 payload)))

/-- Shared blocks that some blocks of a container name, in order. -/
def collectRefs (data : Bytes) (layout : BlobLayout) : List ℕ→Except String (List BlockRef)
  | [] => .ok []
  | blockIdx::later =>
    match dedupRefAt data layout blockIdx with
    | .error e => .error e
    | .ok found =>
      match collectRefs data layout later with
      | .error e => .error e
      | .ok refs => .ok (found.toList++refs)

/-- Shared blocks that a blob names. -/
def collectDedupRefs (data : Bytes) : Except String (List BlockRef) :=
  match detectBlobFormat data with
  | .nosd => parseDedupManifest data (fromLe (slice 4 8 data))
  | .nosi =>
    match parseLayoutBytes data with
    | .error e => .error e
    | .ok layout =>
      if !usesDedupBlocks layout then .ok []
      else collectRefs data layout (List.range layout.blockCount)
  | _ => .ok []

/-- The first bytes of a blob that may name shared blocks. -/
def mayHoldRefs (head : Bytes) : Bool :=
  match detectBlobFormat head with
  | .nosd => true
  | .nosi =>
    decide (fixedHeaderLenV1≤head.length) && decide (fromLe (slice 22 2 head)&&&nosiFlagDedup≠0)
  | _ => false

/-- Shared blocks that a blob file names. Only files that may name some are read. -/
def manifestEntries (file : Bytes) : Except String (List BlockRef) :=
  if !mayHoldRefs (file.take fixedHeaderLenV1) then .ok [] else collectDedupRefs file

section Containers

variable {zstd : Zstd} {hash : Bytes→BlockHash} {disk : DiskErrors} {level : ℤ}
  {opts : EncodeOptions} {files files' : BlockFiles} {piece : Piece}

theorem encodes_cases (h : Encodes zstd hash disk level opts piece) :
    (opts.dedup=true ∧ piece.2.blockType=blockDedupRef ∧
        piece.2.payload=le 8 piece.2.checksum.toNat++le 4 piece.1.length) ∨
      piece.2.blockType≠blockDedupRef ∧ piece.2.blockType<256 ∧
        piece.2.payload.length≤piece.1.length := by
  have hown : encodeOwnBlock zstd hash level opts piece.1=.ok piece.2 →
      piece.2.blockType≠blockDedupRef ∧ piece.2.blockType<256 ∧
        piece.2.payload.length≤piece.1.length := by
    intro hblock
    rcases (encodeOwnBlock_cases hblock).2 with ⟨htype,hkept⟩ | ⟨htype,hsmaller,_⟩
    · rw [htype,hkept]
      exact ⟨by decide,by decide,le_rfl⟩
    · rw [htype]
      exact ⟨by decide,by decide,hsmaller.le⟩
  obtain ⟨before,after,hencoded⟩ := h
  unfold encodeLogicalBlock at hencoded
  split at hencoded
  · rename_i hdedup
    split at hencoded
    · cases (Prod.mk.inj hencoded).1
    · have hblock := Except.ok.inj (Prod.mk.inj hencoded).1
      rw [← hblock]
      exact Or.inl ⟨hdedup,rfl,rfl⟩
    · exact Or.inr (hown (Prod.mk.inj hencoded).1)
  · exact Or.inr (hown (Prod.mk.inj hencoded).1)

/-- The shared block that a piece names. -/
def refOf (piece : Piece) : Option BlockRef :=
  if piece.2.blockType=blockDedupRef then some (piece.2.checksum,piece.1.length) else none

theorem refsOf_cons (piece : Piece) (pieces : List Piece) :
    refsOf (piece::pieces)=(refOf piece).toList++refsOf pieces := by
  unfold refsOf refOf
  rw [filterMap_cons]
  split
  · rename_i hnone
    rw [hnone]
    rfl
  · rename_i ref hsome
    rw [hsome]
    rfl

/-- A block of a container is read back as the shared block that it names, or as none. -/
theorem dedupRefAt_container {blockSize : ℕ} {before after : List Piece}
    (hencodes : Encodes zstd hash disk level opts piece) (hshort : piece.1.length<2^32)
    (haddress : Addressable opts level blockSize (before++piece::after)) :
    dedupRefAt (containerFile opts level blockSize (before++piece::after))
      (containerLayout opts level blockSize (before++piece::after)) before.length=
        .ok (refOf piece) := by
  have hoffset := containerLayout_offset haddress
  obtain ⟨first,hfile,hfirst⟩ := containerFile_split opts level blockSize before after piece
  set layout := containerLayout opts level blockSize (before++piece::after) with hlayout
  set file := containerFile opts level blockSize (before++piece::after) with hfileDef
  have hfits : piece.2.blockType<256 ∧ piece.2.payload.length<2^32 := by
    rcases encodes_cases hencodes with ⟨_,htype,hpayload⟩ | ⟨_,htype,hlength⟩
    · rw [htype,hpayload,length_append,le_length,le_length]
      decide
    · exact ⟨htype,by omega⟩
  have htotal : file.length=
      first.length+(blockHeaderLenV1+(piece.2.payload.length+(dataOf after).length)) := by
    rw [hfile,length_append,length_append,length_append,headerBytes_length]
  have hparse : parseBlockHeaderAt file first.length layout=.ok (writtenHeader piece.2) :=
    parseBlockHeaderAt_written rfl hfits.1 hfits.2 hfile
  have hbytes : slice (first.length+(writtenHeader piece.2).headerLen)
      (writtenHeader piece.2).payloadLen file=piece.2.payload := by
    rw [hfile]
    unfold writtenHeader
    dsimp only
    rw [slice_append_right,slice_middle (headerBytes_length _) rfl]
  have hroom : ¬file.length<first.length+(writtenHeader piece.2).headerLen+
      (writtenHeader piece.2).payloadLen := by
    unfold writtenHeader
    dsimp only
    omega
  unfold dedupRefAt
  dsimp only
  rw [hoffset,← hfirst,hparse]
  dsimp only
  rw [if_neg hroom,hbytes]
  unfold refOf
  rcases encodes_cases hencodes with ⟨_,htype,hpayload⟩ | ⟨htype,_,_⟩
  · have hlength : piece.2.payload.length=12 := by
      rw [hpayload,length_append,le_length,le_length]
    have hname : slice 0 8 piece.2.payload=le 8 piece.2.checksum.toNat := by
      rw [hpayload]
      exact slice_zero_append (le_length _ _)
    have hsize : slice 8 4 piece.2.payload=le 4 piece.1.length := by
      have hmiddle := @slice_middle (le 8 piece.2.checksum.toNat) (le 4 piece.1.length) [] 8 4
        (le_length _ _) (le_length _ _)
      rwa [append_nil,← hpayload] at hmiddle
    have hwritten : (writtenHeader piece.2).blockType=blockDedupRef := htype
    rw [if_neg (not_not.mpr hwritten),if_neg (not_not.mpr hlength),hname,hsize,
      fromLe_le_of_lt (piece.2.checksum.toNat_lt.trans_le (by decide)),
      fromLe_le_of_lt (hshort.trans_le (by decide)),if_pos htype]
    simp
  · have hwritten : (writtenHeader piece.2).blockType≠blockDedupRef := htype
    rw [if_pos hwritten,if_neg htype]

variable {pieces : List Piece} {blockSize : ℕ}

theorem collectRefs_container (hcut : Cut zstd hash disk level opts blockSize pieces)
    (hblock : blockSize<2^32) (haddress : Addressable opts level blockSize pieces)
    {before after : List Piece} (hsplit : pieces=before++after) :
    collectRefs (containerFile opts level blockSize pieces)
      (containerLayout opts level blockSize pieces) (List.range' before.length after.length)=
        .ok (refsOf after) := by
  induction after generalizing before with
  | nil => rfl
  | cons piece after ih =>
    have hmem : piece∈pieces := by rw [hsplit]; simp
    have hfirst := @dedupRefAt_container zstd hash disk level opts piece blockSize before after
      (hcut.encodes piece hmem) ((hcut.short piece hmem).trans_lt hblock) (hsplit ▸ haddress)
    have hrest := @ih (before++[piece]) (by rw [hsplit]; simp)
    rw [length_append,length_singleton] at hrest
    rw [← hsplit] at hfirst
    rw [length_cons,List.range'_succ,refsOf_cons]
    unfold collectRefs
    rw [hfirst]
    rw [hrest]

theorem containerFile_flags (opts : EncodeOptions) (level : ℤ) (blockSize : ℕ)
    (pieces : List Piece) : fromLe (slice 22 2 (containerFile opts level blockSize pieces))=
      headerFlags opts|||nosiFlagHasLevel := by
  unfold containerFile
  rw [writeBlobHeaderV1_eq,append_assoc,(fields_of_fixed _).2.2.2.2.1]
  refine fromLe_le_of_lt ?_
  unfold headerFlags
  split <;> decide

theorem mayHoldRefs_container (opts : EncodeOptions) (level : ℤ) (blockSize : ℕ)
    (pieces : List Piece) :
    mayHoldRefs ((containerFile opts level blockSize pieces).take fixedHeaderLenV1)=opts.dedup := by
  have hdetect := (containerFile_head opts level blockSize pieces).1
  have hlong : 25≤(containerFile opts level blockSize pieces).length := by
    unfold containerFile
    rw [length_append,writeBlobHeaderV1_length]
    unfold fixedHeaderLenV1Level
    omega
  have hlength : ((containerFile opts level blockSize pieces).take fixedHeaderLenV1).length=
      fixedHeaderLenV1 := by
    rw [length_take]
    unfold fixedHeaderLenV1
    omega
  have hflags : slice 22 2 ((containerFile opts level blockSize pieces).take fixedHeaderLenV1)=
      slice 22 2 (containerFile opts level blockSize pieces) := slice_take (by decide)
  unfold mayHoldRefs
  rw [detectBlobFormat_take (by decide),hdetect]
  dsimp only
  rw [hlength,hflags,containerFile_flags]
  unfold headerFlags
  cases opts.dedup with
  | false | true => decide

theorem refsOf_own (hown : opts.dedup=false)
    (hencodes : ∀ piece∈pieces,Encodes zstd hash disk level opts piece) : refsOf pieces=[] := by
  unfold refsOf
  rw [filterMap_eq_nil_iff]
  intro piece hpiece
  rcases encodes_cases (hencodes piece hpiece) with ⟨hdedup,_,_⟩ | ⟨htype,_,_⟩
  · rw [hown] at hdedup
    cases hdedup
  · exact if_neg htype

/-- A container names the blocks that its pieces do. -/
theorem manifestEntries_container (hcut : Cut zstd hash disk level opts blockSize pieces)
    (hblock : blockSize<2^32) (hcount : pieces.length ≤ maxBlockCount) :
    manifestEntries (containerFile opts level blockSize pieces)=.ok (refsOf pieces) := by
  unfold manifestEntries
  rw [mayHoldRefs_container]
  cases hdedup : opts.dedup with
  | false =>
    rw [refsOf_own hdedup hcut.encodes]
    rfl
  | true =>
    have hcollect := collectRefs_container hcut hblock (container_addressable hcut hblock hcount)
      (show pieces=[]++pieces from rfl)
    have hnumber : (containerLayout opts level blockSize pieces).blockCount=pieces.length :=
      indexFrom_length
    have huses : usesDedupBlocks (containerLayout opts level blockSize pieces)=true := by
      have hflags : (containerLayout opts level blockSize pieces).flags=
          headerFlags opts|||nosiFlagHasLevel := rfl
      have hformat : (containerLayout opts level blockSize pieces).format=.v1 := rfl
      unfold usesDedupBlocks
      rw [hflags,hformat]
      unfold headerFlags
      rw [hdedup]
      decide
    unfold collectDedupRefs
    rw [(containerFile_head opts level blockSize pieces).1]
    rw [parseLayoutBytes_container hcut hblock hcount]
    dsimp only
    rwa [huses,hnumber,range_eq_range']

/-- References that the encoder counts are those that are read back from the file, in order
and with repetitions. -/
theorem refs_read_back {payload file : Bytes} {blockSize minSize : ℕ} {refs : List BlockRef}
    {objectKey contentType : Option BlobFilenames.Text} {extra : List BlobFilenames.Text}
    (hblock : blockSize<2^32)
    (hcount : (payload.length+max blockSize 4096-1)/max blockSize 4096 ≤ maxBlockCount)
    (h : encodeFileForStorage zstd hash disk level opts payload payload.length blockSize
      (.new objectKey contentType payload.length minSize extra) files=
        ⟨.ok (.indexed refs),some file,files'⟩) : manifestEntries file=.ok refs := by
  have hpositive : 0 < max blockSize 4096 := lt_max_of_lt_right (by decide)
  have hwide : max blockSize 4096<2^32 := max_lt hblock (by decide)
  obtain ⟨hne,pieces,hchunks,hencodes,rfl,rfl⟩ := encodeFileForStorage_indexed h
  obtain ⟨hcut,_⟩ := cut_of_chunks hpositive hne hchunks hencodes
  refine manifestEntries_container hcut hwide ?_
  rwa [← length_map (f := Prod.fst),hchunks,chunks_length hpositive]

/-- What encoding 24 bytes that begin like a container gives with sharing. -/
def sampleShared : EncodeResult :=
  encodeFileForStorage plainZstd plainHash .none 3 ⟨0,none,true⟩ (magicPayload 20)
    (magicPayload 20).length 4096 (.new none none (magicPayload 20).length 4096 []) ∅

/-- Containers with one shared block. -/
def holdsOneRef : EncodeResult→Bool
  | ⟨.ok (.indexed refs),some _,_⟩ => refs.length==1
  | _ => false

/-- The 24 bytes become one shared block, and its reference is read back. -/
theorem sample_refs_read_back :
    ∃ refs file files',sampleShared=⟨.ok (.indexed refs),some file,files'⟩ ∧ refs.length=1 ∧
      manifestEntries file=.ok refs := by
  have hone : holdsOneRef sampleShared=true := by decide +kernel
  rcases hsample : sampleShared with ⟨outcome,out,after⟩
  rw [hsample] at hone
  unfold holdsOneRef at hone
  split at hone
  · rename_i refs file files' hresult
    rw [hresult] at hsample
    exact ⟨refs,file,files',hresult,of_decide_eq_true hone,
      refs_read_back (by decide) (by decide) hsample⟩
  · cases hone

end Containers

section Releases

variable {file : Bytes} {layout : BlobLayout} {block : ℕ}

/-- References that are given back when a blob is dropped. Those that cannot be read stay
counted. -/
def releasedRefs (file : Bytes) : List BlockRef :=
  match manifestEntries file with
  | .ok entries => entries
  | .error _ => []

/-- Blocks that say what they are: those that are shared have a name and a size. -/
def Legible (file : Bytes) (layout : BlobLayout) (block : ℕ) : Prop :=
  ∃ parsed,parseBlockHeaderAt file (layout.fileOffsetForBlock block) layout=.ok parsed ∧
    (parsed.blockType=blockDedupRef→parsed.payloadLen=12 ∧
      layout.fileOffsetForBlock block+parsed.headerLen+12≤file.length)

/-- Blocks that say they are shared. -/
def Shared (file : Bytes) (layout : BlobLayout) (block : ℕ) : Prop :=
  ∃ parsed,parseBlockHeaderAt file (layout.fileOffsetForBlock block) layout=.ok parsed ∧
    parsed.blockType=blockDedupRef

/-- Files with the form of a manifest that is not empty. -/
structure ManifestForm (file : Bytes) : Prop where
  /-- They begin like a manifest. -/
  magic : detectBlobFormat file=.nosd
  /-- They have entries. -/
  some_entry : 0<fromLe (slice 12 4 file)
  /-- They end behind the last entry. -/
  length : file.length=fromLe (slice 12 4 file)*dedupEntryLen+dedupHeaderLen
  /-- The sizes add up to the one in the header. -/
  sizes : ((readEntries (fromLe (slice 12 4 file)) (file.drop dedupHeaderLen)).map Prod.snd).sum=
    fromLe (slice 4 8 file)

/-- Files with the form of a container that has shared blocks. -/
structure SharedForm (file : Bytes) (layout : BlobLayout) : Prop where
  /-- They begin like a container. -/
  magic : detectBlobFormat file=.nosi
  /-- The header and the block table are in order. -/
  parsed : parseLayoutBytes file=.ok layout
  /-- The header says that blocks may be shared. -/
  flagged : usesDedupBlocks layout=true
  /-- Every block says what it is. -/
  legible : ∀ block<layout.blockCount,Legible file layout block
  /-- Some block is shared. -/
  some_shared : ∃ block<layout.blockCount,Shared file layout block

/-- Files with the form of a blob that has shared blocks. -/
def NamesBlocks (file : Bytes) : Prop :=
  ManifestForm file ∨ ∃ layout,SharedForm file layout

/-- What is found in a block. -/
theorem dedupRefAt_eq_ok :
    (∃ found,dedupRefAt file layout block=.ok found) ↔ Legible file layout block := by
  unfold dedupRefAt Legible
  dsimp only
  cases hparse : parseBlockHeaderAt file (layout.fileOffsetForBlock block) layout with
  | error e => simp
  | ok parsed =>
    dsimp only
    by_cases htype : parsed.blockType=blockDedupRef
    · rw [if_neg (not_not.mpr htype)]
      split
      · rename_i hshort
        constructor
        · rintro ⟨found,hfound⟩
          cases hfound
        · rintro ⟨other,hother,hlegible⟩
          cases hother
          obtain ⟨htwelve,hinside⟩ := hlegible htype
          omega
      · rename_i hlong
        rw [slice_length (by omega)]
        split
        · rename_i hother
          constructor
          · rintro ⟨found,hfound⟩
            cases hfound
          · rintro ⟨other,hsame,hlegible⟩
            cases hsame
            exact absurd (hlegible htype).1 hother
        · rename_i htwelve
          rw [not_not] at htwelve
          exact ⟨fun _ => ⟨parsed,rfl,fun _ => ⟨htwelve,by omega⟩⟩,fun _ => ⟨_,rfl⟩⟩
    · rw [if_pos htype]
      exact ⟨fun _ => ⟨parsed,rfl,fun htype' => absurd htype' htype⟩,fun _ => ⟨none,rfl⟩⟩

/-- A block names a shared one exactly if it says so. -/
theorem dedupRefAt_isSome {found : Option BlockRef} (h : dedupRefAt file layout block=.ok found) :
    found.isSome=true ↔ Shared file layout block := by
  unfold dedupRefAt at h
  dsimp only at h
  unfold Shared
  split at h
  · cases h
  rename_i parsed hparse
  have hshared : (∃ other,parseBlockHeaderAt file (layout.fileOffsetForBlock block) layout=
      .ok other ∧ other.blockType=blockDedupRef) ↔ parsed.blockType=blockDedupRef := by
    constructor
    · rintro ⟨other,hother,htype⟩
      obtain rfl := Except.ok.inj (hparse.symm.trans hother)
      exact htype
    · exact fun htype => ⟨parsed,hparse,htype⟩
  rw [hshared]
  split at h
  · rename_i htype
    cases h
    exact ⟨(fun hsome => by cases hsome),fun htype' => absurd htype' htype⟩
  · rename_i htype
    rw [not_not] at htype
    split at h
    · cases h
    split at h
    · cases h
    cases h
    exact ⟨fun _ => htype,fun _ => rfl⟩

theorem collectRefs_cons_eq_ok {later : List ℕ} {refs : List BlockRef} :
    collectRefs file layout (block::later)=.ok refs ↔
      ∃ found rest,dedupRefAt file layout block=.ok found ∧
        collectRefs file layout later=.ok rest ∧ refs=found.toList++rest := by
  rw [collectRefs]
  cases hfound : dedupRefAt file layout block with
  | error e => simp
  | ok found =>
    cases hrest : collectRefs file layout later with
    | error e => simp
    | ok rest =>
      constructor
      · exact fun h => ⟨found,rest,rfl,rfl,(Except.ok.inj h).symm⟩
      · rintro ⟨found',rest',hsame,hsame',rfl⟩
        rw [Except.ok.inj hsame,Except.ok.inj hsame']

theorem collectRefs_legible (blocks : List ℕ) : (∃ refs,collectRefs file layout blocks=.ok refs) ↔
      ∀ block∈blocks,Legible file layout block := by
  induction blocks with
  | nil => exact ⟨fun _ => forall_mem_nil _,fun _ => ⟨[],rfl⟩⟩
  | cons block later ih =>
    rw [forall_mem_cons,← dedupRefAt_eq_ok,← ih]
    constructor
    · rintro ⟨refs,hrefs⟩
      obtain ⟨found,rest,hfound,hrest,_⟩ := collectRefs_cons_eq_ok.mp hrefs
      exact ⟨⟨found,hfound⟩,⟨rest,hrest⟩⟩
    · rintro ⟨⟨found,hfound⟩,⟨rest,hrest⟩⟩
      exact ⟨found.toList++rest,collectRefs_cons_eq_ok.mpr ⟨found,rest,hfound,hrest,rfl⟩⟩

theorem collectRefs_some (blocks : List ℕ) {refs : List BlockRef}
    (h : collectRefs file layout blocks=.ok refs) :
    refs≠[] ↔ ∃ block∈blocks,Shared file layout block := by
  induction blocks generalizing refs with
  | nil =>
    cases h
    simp
  | cons block later ih =>
    obtain ⟨found,rest,hfound,hrest,rfl⟩ := collectRefs_cons_eq_ok.mp h
    rw [exists_mem_cons_iff,← dedupRefAt_isSome hfound,← ih hrest]
    cases found with
    | none | some ref => simp

theorem readEntries_length (count : ℕ) (data : Bytes) : (readEntries count data).length=count := by
  induction count generalizing data with
  | zero => rfl
  | succ count ih =>
    unfold readEntries
    rw [length_cons,ih]

theorem parseDedupManifest_some (hmagic : detectBlobFormat file=.nosd) :
    (∃ refs,parseDedupManifest file (fromLe (slice 4 8 file))=.ok refs ∧ refs≠[]) ↔
      ManifestForm file := by
  have hsome : readEntries (fromLe (slice 12 4 file)) (file.drop dedupHeaderLen)≠[] ↔
      0<fromLe (slice 12 4 file) := by
    rw [← length_pos_iff,readEntries_length]
  unfold parseDedupManifest
  dsimp only
  rw [if_neg (not_not.mpr hmagic),if_neg (not_not.mpr rfl)]
  split
  · rename_i hlength
    exact ⟨(fun ⟨_,hrefs,_⟩ => by cases hrefs),fun hform => absurd hform.length hlength⟩
  rename_i hlength
  split
  · rename_i hsizes
    exact ⟨(fun ⟨_,hrefs,_⟩ => by cases hrefs),fun hform => absurd hform.sizes hsizes⟩
  rename_i hsizes
  rw [not_not] at hlength hsizes
  constructor
  · rintro ⟨refs,hrefs,hne⟩
    cases hrefs
    exact ⟨hmagic,hsome.mp hne,hlength,hsizes⟩
  · exact fun hform => ⟨_,rfl,hsome.mpr hform.some_entry⟩

theorem parsed_flags (hmagic : detectBlobFormat file=.nosi) (h : parseLayoutBytes file=.ok layout) :
    fixedHeaderLenV1≤file.length ∧ layout.flags=fromLe (slice 22 2 file) := by
  unfold parseLayoutBytes at h
  rw [hmagic] at h
  dsimp only at h
  split at h
  · cases h
  rename_i hlong
  split at h
  · cases h
  cases h
  exact ⟨not_lt.mp hlong,rfl⟩

theorem mayHoldRefs_of_collected {refs : List BlockRef} (h : collectDedupRefs file=.ok refs)
    (hne : refs≠[]) : mayHoldRefs (file.take fixedHeaderLenV1)=true := by
  unfold collectDedupRefs at h
  unfold mayHoldRefs
  rw [detectBlobFormat_take (by decide)]
  split at h
  · rfl
  · rename_i hmagic
    split at h
    · cases h
    rename_i layout hparse
    split at h
    · exact absurd (Except.ok.inj h).symm hne
    rename_i huses
    obtain ⟨hlong,hflags⟩ := parsed_flags hmagic hparse
    have hdedup : layout.flags&&&nosiFlagDedup≠0 := by
      rw [Bool.not_eq_true',Bool.not_eq_false] at huses
      exact of_decide_eq_true (Bool.and_eq_true_iff.mp huses).2
    have hslice : slice 22 2 (file.take fixedHeaderLenV1)=slice 22 2 file :=
      slice_take (by decide)
    rw [hslice,← hflags,length_take,min_eq_left hlong]
    exact Bool.and_eq_true_iff.mpr ⟨decide_eq_true le_rfl,decide_eq_true hdedup⟩
  · exact absurd (Except.ok.inj h).symm hne

/-- A file names blocks exactly if it has the form of a blob that does. -/
theorem collectDedupRefs_some :
    (∃ refs,collectDedupRefs file=.ok refs ∧ refs≠[]) ↔ NamesBlocks file := by
  have hempty : ¬∃ refs : List BlockRef,(.ok [] : Except String (List BlockRef))=.ok refs ∧ refs≠[] :=
    fun ⟨_,hrefs,hne⟩ => hne (Except.ok.inj hrefs).symm
  unfold NamesBlocks collectDedupRefs
  split
  · rename_i hmagic
    rw [parseDedupManifest_some hmagic,or_iff_left]
    rintro ⟨layout,hshared⟩
    cases hmagic.symm.trans hshared.magic
  · rename_i hmagic
    have hmanifest : ¬ManifestForm file := by
      intro hform
      cases hmagic.symm.trans hform.magic
    rw [or_iff_right hmanifest]
    split
    · rename_i e hparse
      constructor
      · rintro ⟨refs,hrefs,_⟩
        cases hrefs
      · rintro ⟨layout,hshared⟩
        cases hparse.symm.trans hshared.parsed
    · rename_i layout hparse
      have hlayout : (∃ other,SharedForm file other) ↔ SharedForm file layout := by
        refine ⟨?_,fun hshared => ⟨layout,hshared⟩⟩
        rintro ⟨other,hshared⟩
        rwa [Except.ok.inj (hparse.symm.trans hshared.parsed)]
      rw [hlayout]
      split
      · rename_i huses
        rw [Bool.not_eq_true'] at huses
        refine iff_of_false hempty fun hshared => ?_
        cases huses.symm.trans hshared.flagged
      · rename_i huses
        rw [Bool.not_eq_true',Bool.not_eq_false] at huses
        constructor
        · rintro ⟨refs,hrefs,hne⟩
          have hlegible := (collectRefs_legible _).mp ⟨refs,hrefs⟩
          obtain ⟨block,hblock,hshared⟩ := (collectRefs_some _ hrefs).mp hne
          exact ⟨hmagic,hparse,huses,fun block hblock => hlegible block (mem_range.mpr hblock),
            ⟨block,mem_range.mp hblock,hshared⟩⟩
        · intro hform
          obtain ⟨refs,hrefs⟩ := (collectRefs_legible (List.range layout.blockCount)).mpr
            fun block hblock => hform.legible block (mem_range.mp hblock)
          obtain ⟨block,hblock,hshared⟩ := hform.some_shared
          exact ⟨refs,hrefs,(collectRefs_some _ hrefs).mpr ⟨block,mem_range.mpr hblock,hshared⟩⟩
  · rename_i hmanifest hcontainer
    refine iff_of_false hempty ?_
    rintro (hform | ⟨layout,hshared⟩)
    · exact hmanifest hform.magic
    · exact hcontainer hshared.magic

theorem releasedRefs_some : releasedRefs file≠[] ↔ NamesBlocks file := by
  rw [← collectDedupRefs_some]
  unfold releasedRefs manifestEntries
  constructor
  · intro hne
    split at hne
    · rename_i entries hentries
      split at hentries
      · exact absurd (Except.ok.inj hentries).symm hne
      · exact ⟨entries,hentries,hne⟩
    · exact absurd rfl hne
  · rintro ⟨refs,hrefs,hne⟩
    rwa [mayHoldRefs_of_collected hrefs hne,hrefs]

theorem length_of_blob (hblob : detectBlobFormat file≠.raw) : 12≤file.length := by
  by_contra hshort
  have hlength : ∀ {least : ℕ} {magic : Bytes},12≤least →
      ¬(least≤file.length ∧ magic.isPrefixOf file) := by
    rintro least magic hleast ⟨hlong,_⟩
    omega
  refine hblob ?_
  unfold detectBlobFormat
  rw [if_neg (hlength (by decide)),if_neg (hlength (by decide)),if_neg (hlength (by decide)),
    if_neg (hlength (by decide)),if_neg (hlength (by decide))]

theorem storedBlobFormat_raw {peek logicalSize : ℕ} (hpeek : 16≤peek)
    (hblob : detectBlobFormat file≠.raw) :
    storedBlobFormat (file.take peek) file.length logicalSize=.raw ↔
      file.length=logicalSize ∧ fromLe (slice 4 8 file)≠logicalSize := by
  have hdetect : detectBlobFormat (file.take peek)=detectBlobFormat file := detectBlobFormat_take hpeek
  have hslice : slice 4 8 (file.take peek)=slice 4 8 file := slice_take (by omega)
  have hlong : 12≤(file.take peek).length := by
    have hfile := length_of_blob hblob
    rw [length_take]
    omega
  unfold storedBlobFormat
  dsimp only
  rw [hdetect,hslice]
  split
  · rename_i hraw
    exact ⟨fun _ => ⟨hraw.2.1,hraw.2.2.2⟩,fun _ => rfl⟩
  · rename_i hkept
    exact ⟨fun hraw => absurd hraw hblob,fun hother => absurd ⟨hblob,hother.1,hlong,hother.2⟩ hkept⟩

/-- An object that reads as a raw upload gives back no references when it is dropped, unless
its file has the form of a blob with shared blocks and its header names another size. -/
theorem raw_releases_none_iff {peek : ℕ} (hpeek : 16≤peek) (file : Bytes) (logicalSize : ℕ) :
    (storedBlobFormat (file.take peek) file.length logicalSize=.raw → releasedRefs file=[]) ↔
      ¬(NamesBlocks file ∧ file.length=logicalSize ∧ fromLe (slice 4 8 file)≠logicalSize) := by
  have hblob : NamesBlocks file→detectBlobFormat file≠.raw := by
    rintro (hform | ⟨layout,hshared⟩) hraw
    · cases hraw.symm.trans hform.magic
    · cases hraw.symm.trans hshared.magic
  constructor
  · rintro hnone ⟨hnames,hsizes⟩
    have hraw := (storedBlobFormat_raw hpeek (hblob hnames)).mpr hsizes
    exact releasedRefs_some.mpr hnames (hnone hraw)
  · intro hother hraw
    by_contra hsome
    have hnames := releasedRefs_some.mp hsome
    exact hother ⟨hnames,(storedBlobFormat_raw hpeek (hblob hnames)).mp hraw⟩

/-- An upload that begins like a manifest whose one block is shorter than its object. -/
def brokenUpload : Bytes :=
  dedupMagic++le 8 6++le 4 1++le 8 7++le 4 5

/-- The upload reads as it is, and dropping it gives nothing back. -/
theorem brokenUpload_releases_none :
    storedBlobFormat (brokenUpload.take fixedHeaderLenV1) brokenUpload.length 28=.raw ∧
      releasedRefs brokenUpload=[] := by
  have hraw : storedBlobFormat (brokenUpload.take fixedHeaderLenV1) brokenUpload.length 28=.raw := by
    decide
  have hnone : ¬NamesBlocks brokenUpload := by
    rintro (hform | ⟨layout,hshared⟩)
    · exact absurd hform.sizes (by decide)
    · exact absurd hshared.magic (by decide)
  exact ⟨hraw,(raw_releases_none_iff (by decide) brokenUpload 28).mpr (fun h => hnone h.1) hraw⟩

/-- An upload with the form of a manifest of one block of five bytes. -/
def manifestUpload : Bytes :=
  dedupMagic++le 8 5++le 4 1++le 8 7++le 4 5

/-- The upload reads as it is, and dropping it gives back the block that it names. -/
theorem manifestUpload_releases :
    storedBlobFormat (manifestUpload.take fixedHeaderLenV1) manifestUpload.length 28=.raw ∧
      releasedRefs manifestUpload=[(7,5)] := by
  decide

end Releases

end NebularOs.BlockReferences
