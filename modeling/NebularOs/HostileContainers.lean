import Mathlib
import NebularOs.CheckedReading

/-!
# Containers that stop the program

Of the functions that read a container, the reader of ranges may begin at any block, so every
offset of the table has to be a word. A blob that is held in memory is read from its first
block on, and the end of a header that is not a word is reached only if the blocks before can
be read. With that, and for objects that memory can hold, every call ends with a result or an
error.
-/

namespace NebularOs.HostileContainers

open ByteFields EngineState BlobFormats SharedBlocks BlobDecoding BlockReferences IndexedReading
  CheckedSteps CheckedReading

section InMemory

variable {env : ReadEnv} {data : Bytes} {layout : BlobLayout} {block : ℕ}

/-- Blocks whose header ends at a word. -/
def HeaderFits (layout : BlobLayout) (block : ℕ) : Prop :=
  offsetOf layout block+layout.blockHeaderLen<2^64

theorem header_fault {β : Type} (hblock : block<layout.blockCount) (h : ¬HeaderFits layout block)
    (later : ℕ→Except String ParsedBlockHeader→Checked β) : (do
      let fileOffset ← CheckedReading.fileOffsetForBlock layout block
      let parsed ← CheckedReading.parseBlockHeaderAt layout data fileOffset
      later fileOffset parsed : Checked β)=.error .overflow := by
  unfold HeaderFits at h
  by_cases hword : offsetOf layout block<2^64
  · obtain ⟨hoffset,hsame⟩ := fileOffsetForBlock_eq hblock hword
    rw [hoffset,ok_bind,hsame]
    unfold CheckedReading.parseBlockHeaderAt
    dsimp only
    rw [add_overflow (by omega),error_bind,error_bind]
  · rw [fileOffsetForBlock_overflow hblock (not_lt.mp hword),error_bind]

/-- Offsets that are words. -/
def OffsetsFit (layout : BlobLayout) : Prop :=
  ∀ block<layout.blockCount,offsetOf layout block<2^64

section Walks

variable (hdata : data.length<2^63) (hoffsets : OffsetsFit layout)
include hdata hoffsets

theorem parseBlockHeaderAt_past (hblock : block<layout.blockCount) (h : ¬HeaderFits layout block) :
    ∃ e,BlobFormats.parseBlockHeaderAt data (layout.fileOffsetForBlock block) layout=.error e := by
  obtain ⟨_,hsame⟩ := fileOffsetForBlock_eq hblock (hoffsets block hblock)
  unfold HeaderFits at h
  unfold BlobFormats.parseBlockHeaderAt
  rw [hsame]
  exact ⟨_,if_pos (by omega)⟩

theorem readBlocks_sound_iff :
    Sound (walk (CheckedReading.readBlockPayloadBytes env data layout) (List.range layout.blockCount)) ↔
      ∀ block<layout.blockCount,¬HeaderFits layout block →
        ∃ earlier<block,∀ chunk,BlobDecoding.readBlockPayloadBytes env data layout earlier≠.ok chunk := by
  refine walk_range_sound_iff_of_agrees (fun block hblock h => readBlockPayloadBytes_eq hdata hblock h)
    fun block hblock h => ⟨?_,?_⟩
  · unfold CheckedReading.readBlockPayloadBytes
    rw [header_fault hblock h]
    exact not_sound_error _
  · obtain ⟨e,he⟩ := parseBlockHeaderAt_past hdata hoffsets hblock h
    intro chunk hchunk
    unfold BlobDecoding.readBlockPayloadBytes at hchunk
    dsimp only at hchunk
    rw [he] at hchunk
    cases hchunk

theorem collectRefs_sound_iff :
    Sound (walk (CheckedReading.dedupRefAt data layout) (List.range layout.blockCount)) ↔
      ∀ block<layout.blockCount,¬HeaderFits layout block →
        ∃ earlier<block,¬Legible data layout earlier := by
  have hlegible : ∀ block,(∀ found,BlockReferences.dedupRefAt data layout block≠.ok found) ↔
      ¬Legible data layout block := by
    intro block
    rw [← dedupRefAt_eq_ok,not_exists]
  simp only [← hlegible]
  refine walk_range_sound_iff_of_agrees (fun block hblock h => dedupRefAt_eq hdata hblock h)
    fun block hblock h => ⟨?_,?_⟩
  · unfold CheckedReading.dedupRefAt
    rw [header_fault hblock h]
    exact not_sound_error _
  · obtain ⟨e,he⟩ := parseBlockHeaderAt_past hdata hoffsets hblock h
    intro found hfound
    unfold BlockReferences.dedupRefAt at hfound
    dsimp only at hfound
    rw [he] at hfound
    cases hfound

end Walks

end InMemory

section Readers

variable {Path : Type} [DecidableEq Path] (env : ReadEnv) (path : Path) (file : Bytes)

/-- Reading one block of an open container. -/
def readBlockFromFile (layout : BlobLayout) (blockIdx : ℕ) (cache : Option (BlockDecodeCache Path))
    (populate : Bool) : Checked (Except String Bytes×Option (BlockDecodeCache Path)) := do
  let start ← CheckedReading.fileOffsetForBlock layout blockIdx
  let stop ← CheckedReading.blockStop layout file.length blockIdx
  let headerLen := layout.blockHeaderLen
  -- The end of the header saturates.
  if file.length<stop ∨ stop < min (start+headerLen) (wordLimit-1) then
    .ok (.error s!"block {blockIdx} extends past the blob",cache)
  else
    reserve headerLen
    match ← CheckedReading.parseBlockHeaderAt layout (slice start headerLen file) 0 with
    | .error e => .ok (.error e,cache)
    | .ok parsed =>
      let _ ← CheckedReading.logicalLen layout blockIdx
      match lookupChecksum path parsed layout blockIdx cache with
      | (some hit,cache) => .ok (.ok hit,cache)
      | (none,cache) =>
        let needed ← add headerLen parsed.payloadLen
        let room ← sub stop start
        if room<needed then .ok (.error "block payload truncated",cache)
        else
          reserve parsed.payloadLen
          CheckedReading.decodeWithCache env path (slice (start+headerLen) parsed.payloadLen file) parsed
            layout blockIdx cache populate

/-- Reading the header of an open container of an object of a known size. -/
def readIndexedLayout (logicalSize : ℕ) : Checked (Except String BlobLayout) := do
  match ← CheckedReading.readBlobLayout file with
  | .error e => .ok (.error e)
  | .ok layout =>
    if layout.logicalSize≠logicalSize then .ok (.error "blob header size mismatch")
    else .ok (.ok layout)

/-- A reader of some bytes of an object from an offset on. The end of the range is added with
a check of the source's own. -/
def fromFile (logicalSize rangeStart length : ℕ) : Checked (Except String IndexedBlobReader) := do
  match ← readIndexedLayout file logicalSize with
  | .error e => .ok (.error e)
  | .ok layout =>
    if rangeStart+length<wordLimit ∧ rangeStart+length≤logicalSize then
      let blockIdx ← CheckedReading.blockForOffset layout rangeStart
      .ok (.ok ⟨layout,!(rangeStart==0 && length==logicalSize),blockIdx,rangeStart,rangeStart+length⟩)
    else .ok (.error s!"range {rangeStart}+{length} is outside an object of {logicalSize} bytes")

/-- The blocks from the next one on, up to one that holds a byte of the range. -/
def nextBlock : ℕ → IndexedBlobReader×Option (BlockDecodeCache Path) →
    Checked (Except String (Option Bytes)×IndexedBlobReader×Option (BlockDecodeCache Path))
  | 0,(reader,cache) =>
    .ok (.error s!"blob index ends before logical offset {reader.pos}",reader,cache)
  | fuel+1,(reader,cache) => do
    let blockIdx := reader.blockIdx
    let next ← add blockIdx 1
    match ← readBlockFromFile env path file reader.layout blockIdx cache reader.populateCache with
    | (.error e,cache) => .ok (.error e,{ reader with blockIdx := next },cache)
    | (.ok block,cache) =>
      let start ← CheckedReading.logicalStart reader.layout blockIdx
      let skip := reader.pos-start
      if block.length ≤ skip then nextBlock fuel ({ reader with blockIdx := next },cache)
      else
        let left ← sub reader.stop reader.pos
        let behind ← sub block.length skip
        let take := min left behind
        let pos ← add reader.pos take
        let last ← add skip take
        let piece ← range skip last block
        .ok (.ok (some piece),{ reader with blockIdx := next, pos := pos },cache)

/-- The next piece of the range, at most one block. -/
def nextChunk : IndexedBlobReader×Option (BlockDecodeCache Path) →
    Checked (Except String (Option Bytes)×IndexedBlobReader×Option (BlockDecodeCache Path))
  | (reader,cache) =>
    if reader.stop ≤ reader.pos then .ok (.ok none,reader,cache)
    else nextBlock env path file (reader.layout.blockCount-reader.blockIdx) (reader,cache)

/-- Asking a reader for some pieces, whatever the answers are. -/
def nextChunks : ℕ → IndexedBlobReader×Option (BlockDecodeCache Path) →
    Checked (IndexedBlobReader×Option (BlockDecodeCache Path))
  | 0,state => .ok state
  | count+1,state => do
    let answer ← nextChunk env path file state
    nextChunks count answer.2

/-- Opening a container and asking for some pieces of a range. -/
def readRange (logicalSize rangeStart length : ℕ) (cache : Option (BlockDecodeCache Path))
    (count : ℕ) : Checked Unit := do
  match ← fromFile file logicalSize rangeStart length with
  | .error _ => .ok ()
  | .ok reader =>
    let _ ← nextChunks env path file count (reader,cache)
    .ok ()

end Readers

section Accepted

variable {data : Bytes} {layout : BlobLayout}

/-- What accepting a header shows about it. -/
structure Accepted (layout : BlobLayout) : Prop where
  /-- Its block table was accepted. -/
  valid : ValidLayout layout
  /-- The number of blocks is bounded. -/
  count : layout.blockCount ≤ maxBlockCount
  /-- The size is a word. -/
  size : layout.logicalSize<2^64

theorem parseLayoutBytes_accepted (h : BlobFormats.parseLayoutBytes data=.ok layout) :
    Accepted layout ∧ layout.blockCount=blockCountField data := by
  have hvalid := parseLayoutBytes_valid h
  have hsize : fromLe (slice 4 8 data)<2^64 := by
    have hshort : (slice 4 8 data).length≤8 := List.length_take_le _ _
    exact (fromLe_lt _).trans_le (Nat.pow_le_pow_right (by decide) hshort)
  have hindex : ∀ {fixedLen : ℕ} {index : List IndexEntry},
      BlobFormats.parseIndex data fixedLen (fromLe (slice 4 8 data))=.ok index →
        index.length ≤ maxBlockCount ∧ index.length=blockCountField data := by
    intro fixedLen index hparsed
    refine ⟨parseIndex_length hparsed,?_⟩
    rw [(parseIndex_covers hparsed).1,readIndex_length]
    rfl
  unfold BlobFormats.parseLayoutBytes at h
  split at h
  · split at h
    · cases h
    dsimp only at h
    split at h
    · cases h
    rename_i hparsed
    obtain ⟨hcount,hnumber⟩ := hindex hparsed
    cases h
    exact ⟨⟨hvalid,hcount,hsize⟩,hnumber⟩
  · split at h
    · cases h
    dsimp only at h
    split at h
    · cases h
    rename_i hparsed
    obtain ⟨hcount,hnumber⟩ := hindex hparsed
    cases h
    exact ⟨⟨hvalid,hcount,hsize⟩,hnumber⟩
  · cases h

theorem readBlobLayout_parsed {other : BlobLayout}
    (h : BlobFormats.parseLayoutBytes data=.ok layout)
    (hother : BlobFormats.readBlobLayout data=.ok other) : other=layout := by
  rcases Nat.eq_zero_or_pos (blockCountField data) with hnone | hsome
  · obtain ⟨e,he⟩ := readBlobLayout_empty hnone
    cases he.symm.trans hother
  · have hsame := readBlobLayout_of_blocks hsome
    rw [h,hother] at hsame
    exact Option.some.inj hsame

namespace Accepted

variable (haccepted : Accepted layout)
include haccepted

theorem searchBlock_eq (offset : ℕ) (fuel : ℕ) {low high : ℕ} (hle : low≤high)
    (hhigh : high≤layout.blockCount) : CheckedReading.searchBlock layout offset fuel low high=
      .ok (layout.searchBlock offset fuel low high) := by
  have hcount := haccepted.count
  unfold maxBlockCount at hcount
  induction fuel generalizing low high with
  | zero => rfl
  | succ fuel ih =>
    unfold CheckedReading.searchBlock BlobLayout.searchBlock
    split
    · rename_i hlt
      have hmiddle : low+(high-low)/2<layout.index.length := by
        unfold BlobLayout.blockCount at hhigh
        omega
      have hentry : layout.index[low+(high-low)/2]?=some layout.index[low+(high-low)/2] :=
        List.getElem?_eq_getElem hmiddle
      have hends : layout.logicalEnd (low+(high-low)/2)=layout.index[low+(high-low)/2].logicalEnd := by
        unfold BlobLayout.logicalEnd
        rw [hentry]
        rfl
      rw [sub_eq hle,ok_bind,add_eq (by omega),ok_bind,item_eq hentry,ok_bind]
      dsimp only
      rw [hends]
      split
      · exact ih (by omega) (by omega)
      · rw [add_eq (by omega),ok_bind]
        exact ih (by omega) hhigh
    · rfl

theorem blockForOffset_eq (offset : ℕ) :
    CheckedReading.blockForOffset layout offset=.ok (layout.blockForOffset offset) := by
  unfold CheckedReading.blockForOffset BlobLayout.blockForOffset
  split
  · rfl
  have hsearch := haccepted.searchBlock_eq offset layout.index.length (Nat.zero_le _)
    (show layout.index.length≤layout.blockCount from le_rfl)
  rw [hsearch,ok_bind]

end Accepted

theorem readIndexedLayout_parsed {logicalSize : ℕ} {other : BlobLayout}
    (h : BlobFormats.parseLayoutBytes data=.ok layout)
    (hother : BlobDecoding.readIndexedLayout data logicalSize=.ok other) :
    other=layout ∧ other.logicalSize=logicalSize := by
  unfold BlobDecoding.readIndexedLayout at hother
  split at hother
  · cases hother
  rename_i hread
  split at hother
  · cases hother
  rename_i hsize
  cases hother
  exact ⟨readBlobLayout_parsed h hread,not_not.mp hsize⟩

theorem fromFile_eq (h : BlobFormats.parseLayoutBytes data=.ok layout)
    (logicalSize rangeStart length : ℕ) : fromFile data logicalSize rangeStart length=
      .ok (IndexedBlobReader.fromFile data logicalSize rangeStart length) := by
  have hlayout : readIndexedLayout data logicalSize=
      .ok (BlobDecoding.readIndexedLayout data logicalSize) := by
    unfold readIndexedLayout BlobDecoding.readIndexedLayout
    rw [CheckedReading.readBlobLayout_eq,ok_bind]
    cases BlobFormats.readBlobLayout data with
    | error e => rfl
    | ok other =>
      dsimp only
      split <;> rfl
  unfold fromFile IndexedBlobReader.fromFile
  rw [hlayout,ok_bind]
  cases hread : BlobDecoding.readIndexedLayout data logicalSize with
  | error e => rfl
  | ok other =>
    have haccepted := (parseLayoutBytes_accepted h).1
    obtain ⟨rfl,rfl⟩ := readIndexedLayout_parsed h hread
    have hsize := haccepted.size
    have hword : (rangeStart+length<wordLimit ∧ rangeStart+length≤other.logicalSize) ↔
        rangeStart+length≤other.logicalSize :=
      and_iff_right_of_imp fun hrange => hrange.trans_lt hsize
    dsimp only
    simp only [hword]
    split
    · rw [haccepted.blockForOffset_eq,ok_bind]
    · rfl

section Blocks

variable {Path : Type} [DecidableEq Path] {env : ReadEnv} {path : Path} {blockIdx : ℕ}

theorem blockStop_eq (haccepted : Accepted layout) (hoffsets : OffsetsFit layout) (file : Bytes)
    (hblock : blockIdx<layout.blockCount) : CheckedReading.blockStop layout file.length blockIdx=
      .ok (BlobDecoding.blockStop file layout blockIdx) := by
  have hcount := haccepted.count
  unfold maxBlockCount at hcount
  unfold CheckedReading.blockStop BlobDecoding.blockStop
  rw [add_eq (by omega),ok_bind]
  split
  · rename_i hnext
    exact (fileOffsetForBlock_eq hnext (hoffsets _ hnext)).1
  · rfl

theorem readBlockFromFile_eq (haccepted : Accepted layout) (hoffsets : OffsetsFit layout)
    (hdata : data.length<2^63) (hblock : blockIdx<layout.blockCount)
    (cache : Option (BlockDecodeCache Path)) (populate : Bool) :
    readBlockFromFile env path data layout blockIdx cache populate=
      .ok (BlobDecoding.readBlockFromFile env path data layout blockIdx cache populate) := by
  obtain ⟨hoffset,hsame⟩ := fileOffsetForBlock_eq hblock (hoffsets blockIdx hblock)
  have hstart := hoffsets blockIdx hblock
  have hword : wordLimit=2^64 := rfl
  have hheaderLen : layout.blockHeaderLen≤16 := by
    unfold BlobLayout.blockHeaderLen
    cases layout.format <;> decide
  unfold readBlockFromFile BlobDecoding.readBlockFromFile
  rw [hoffset,ok_bind,blockStop_eq haccepted hoffsets data hblock,ok_bind]
  set start := layout.fileOffsetForBlock blockIdx with hstartDef
  set stop := BlobDecoding.blockStop data layout blockIdx with hstopDef
  -- the end of the header saturates only where the block ends past the file
  have hsaturates : (data.length<stop ∨ stop < min (start+layout.blockHeaderLen) (wordLimit-1)) ↔
      (data.length<stop ∨ stop<start+layout.blockHeaderLen) := by
    omega
  simp only [hsaturates]
  split
  · rfl
  rename_i hroom
  rw [reserve_eq (by omega),ok_bind,parseBlockHeaderAt_eq _ (by omega),ok_bind]
  cases hparse : BlobFormats.parseBlockHeaderAt (slice start layout.blockHeaderLen data) 0 layout with
  | error e => rfl
  | ok parsed =>
    obtain ⟨_,_,hpayload⟩ := parseBlockHeaderAt_within hparse
    dsimp only
    rw [logicalLen_eq hblock,ok_bind]
    rcases lookupChecksum path parsed layout blockIdx cache with ⟨hit,later⟩
    cases hit with
    | some block => rfl
    | none =>
      dsimp only
      rw [add_eq (by omega),ok_bind,sub_eq (by omega),ok_bind]
      split
      · rfl
      rw [reserve_eq (by omega),ok_bind]
      exact decodeWithCache_eq _ parsed hblock later populate

theorem lookupCached_length {cache : Option (BlockDecodeCache Path)} {key : BlockKey Path}
    {expectedLen : ℕ} {hit : Bytes} (h : (lookupCached cache key expectedLen).1=some hit) :
    hit.length=expectedLen := by
  unfold lookupCached at h
  split at h
  · cases h
  · exact of_decide_eq_true (Option.filter_eq_some_iff.mp h).2

theorem decodeWithCache_length {payload block : Bytes} {parsed : ParsedBlockHeader}
    {cache : Option (BlockDecodeCache Path)} {populate : Bool}
    (h : (BlobDecoding.decodeWithCache env path payload parsed layout blockIdx cache populate).1=
      .ok block) : block.length=layout.logicalLen blockIdx := by
  unfold BlobDecoding.decodeWithCache at h
  dsimp only at h
  split at h
  · rename_i hit later hlookup
    cases h
    exact lookupCached_length (congrArg Prod.fst hlookup)
  · split at h
    · cases h
    rename_i hdecoded
    cases h
    exact decodeBlockPayload_length hdecoded

theorem readBlockFromFile_length {block : Bytes} {cache : Option (BlockDecodeCache Path)}
    {populate : Bool}
    (h : (BlobDecoding.readBlockFromFile env path data layout blockIdx cache populate).1=.ok block) :
    block.length=layout.logicalLen blockIdx := by
  unfold BlobDecoding.readBlockFromFile at h
  dsimp only at h
  split at h
  · cases h
  split at h
  · cases h
  split at h
  · rename_i parsed _ _ hit later hlookup
    cases h
    unfold lookupChecksum at hlookup
    split at hlookup
    · cases hlookup
    · exact lookupCached_length (congrArg Prod.fst hlookup)
  · split at h
    · cases h
    · exact decodeWithCache_length h

/-- The part of a reader's state that every call keeps in order. -/
structure InRange (layout : BlobLayout) (reader : IndexedBlobReader) : Prop where
  /-- The reader is one of this container. -/
  layout_eq : reader.layout=layout
  /-- It did not pass the end of its range. -/
  pos_le : reader.pos ≤ reader.stop
  /-- The end of its range is a word. -/
  stop_lt : reader.stop<2^64

section Runs

variable (haccepted : Accepted layout) (hoffsets : OffsetsFit layout) (hdata : data.length<2^63)
include haccepted hoffsets hdata

/-- Blocks are gone through without a fault. -/
theorem nextBlock_eq (fuel : ℕ) {reader : IndexedBlobReader}
    (cache : Option (BlockDecodeCache Path)) (hrange : InRange layout reader)
    (hfuel : reader.blockIdx+fuel≤layout.blockCount) : nextBlock env path data fuel (reader,cache)=
        .ok (BlobDecoding.nextBlock env path data fuel (reader,cache)) ∧
      InRange layout (BlobDecoding.nextBlock env path data fuel (reader,cache)).2.1 := by
  have hcount := haccepted.count
  unfold maxBlockCount at hcount
  induction fuel generalizing reader cache with
  | zero => exact ⟨rfl,hrange⟩
  | succ fuel ih =>
    have hblock : reader.blockIdx<layout.blockCount := by omega
    have hread := @readBlockFromFile_eq data layout Path _ env path reader.blockIdx haccepted hoffsets
      hdata hblock cache reader.populateCache
    rw [← hrange.layout_eq] at hread
    unfold nextBlock BlobDecoding.nextBlock
    dsimp only
    rw [add_eq (by omega),ok_bind,hread,ok_bind]
    rcases houtcome : BlobDecoding.readBlockFromFile env path data reader.layout reader.blockIdx cache
        reader.populateCache with ⟨outcome,later⟩
    cases outcome with
    | error e => exact ⟨rfl,⟨hrange.layout_eq,hrange.pos_le,hrange.stop_lt⟩⟩
    | ok block =>
      have hlength : block.length=layout.logicalLen reader.blockIdx := by
        have hsame := readBlockFromFile_length (congrArg Prod.fst houtcome)
        rwa [hrange.layout_eq] at hsame
      have hstart : CheckedReading.logicalStart reader.layout reader.blockIdx=
          .ok (reader.layout.logicalStart reader.blockIdx) :=
        logicalStart_eq (by rw [hrange.layout_eq]; exact hblock.le)
      have hword : block.length<2^64 := by
        have hends := (haccepted.valid.grows hblock).2
        have hsize := haccepted.size
        unfold BlobLayout.logicalLen at hlength
        omega
      dsimp only
      rw [hstart,ok_bind]
      split
      · exact @ih { reader with blockIdx := reader.blockIdx+1 } later
          ⟨hrange.layout_eq,hrange.pos_le,hrange.stop_lt⟩
          (by dsimp only; omega)
      rename_i hbehind
      have hpos := hrange.pos_le
      have hstop := hrange.stop_lt
      set skip := reader.pos-reader.layout.logicalStart reader.blockIdx with hskip
      have hpiece : range skip (skip+min (reader.stop-reader.pos) (block.length-skip)) block=
          .ok (slice skip (min (reader.stop-reader.pos) (block.length-skip)) block) := by
        rw [range_eq (by omega) (by omega),Nat.add_sub_cancel_left]
      rw [sub_eq hpos,ok_bind,sub_eq (by omega),ok_bind,add_eq (by omega),ok_bind,
        add_eq (by omega),ok_bind,hpiece,ok_bind]
      refine ⟨rfl,⟨hrange.layout_eq,?_,hstop⟩⟩
      dsimp only
      omega

theorem nextChunk_eq {reader : IndexedBlobReader} (cache : Option (BlockDecodeCache Path))
    (hrange : InRange layout reader) : nextChunk env path data (reader,cache)=
        .ok (BlobDecoding.nextChunk env path data (reader,cache)) ∧
      InRange layout (BlobDecoding.nextChunk env path data (reader,cache)).2.1 := by
  unfold nextChunk BlobDecoding.nextChunk
  dsimp only
  split
  · exact ⟨rfl,hrange⟩
  · rw [hrange.layout_eq]
    by_cases hmore : reader.blockIdx≤layout.blockCount
    · exact nextBlock_eq haccepted hoffsets hdata _ cache hrange (by omega)
    · rw [Nat.sub_eq_zero_of_le (by omega)]
      exact ⟨rfl,hrange⟩

theorem nextChunks_sound (count : ℕ) {reader : IndexedBlobReader}
    (cache : Option (BlockDecodeCache Path)) (hrange : InRange layout reader) :
    Sound (nextChunks env path data count (reader,cache)) := by
  induction count generalizing reader cache with
  | zero => exact sound_ok _
  | succ count ih =>
    obtain ⟨hanswer,hkept⟩ := @nextChunk_eq data layout Path _ env path haccepted hoffsets hdata reader
      cache hrange
    unfold nextChunks
    rw [hanswer,ok_bind]
    exact ih _ hkept

end Runs

theorem blockForOffset_start (hvalid : ValidLayout layout) (hblock : blockIdx<layout.blockCount) :
    layout.blockForOffset (layout.logicalStart blockIdx)=blockIdx := by
  obtain ⟨hgrows,hinside⟩ := hvalid.grows hblock
  obtain ⟨hfound,hfrom,hbehind⟩ := hvalid.blockForOffset_holds (hgrows.trans_le hinside)
  set found := layout.blockForOffset (layout.logicalStart blockIdx) with hdef
  rcases Nat.lt_trichotomy found blockIdx with hbefore | hsame | hafter
  · obtain ⟨last,rfl⟩ : ∃ last,blockIdx=last+1 := ⟨blockIdx-1,by omega⟩
    have hends := hvalid.logicalEnd_mono (show found≤last by omega) (by omega)
    rw [logicalStart_succ] at hbehind
    omega
  · exact hsame
  · obtain ⟨last,hlast⟩ : ∃ last,found=last+1 := ⟨found-1,by omega⟩
    rw [hlast,logicalStart_succ] at hfrom
    have hends := hvalid.logicalEnd_mono (show blockIdx≤last by omega) (by omega)
    omega

theorem fromFile_inRange (h : BlobFormats.parseLayoutBytes data=.ok layout)
    {logicalSize rangeStart length : ℕ} {reader : IndexedBlobReader}
    (hreader : IndexedBlobReader.fromFile data logicalSize rangeStart length=.ok reader) :
    InRange layout reader := by
  have hsize := (parseLayoutBytes_accepted h).1.size
  unfold IndexedBlobReader.fromFile at hreader
  split at hreader
  · cases hreader
  rename_i other hlayout
  obtain ⟨rfl,rfl⟩ := readIndexedLayout_parsed h hlayout
  split at hreader
  · rename_i hrange
    cases hreader
    exact ⟨rfl,Nat.le_add_right _ _,hrange.trans_lt hsize⟩
  · cases hreader

/-- Ranges are read without a fault exactly if all offsets are words. -/
theorem readRange_sound_iff (h : BlobFormats.parseLayoutBytes data=.ok layout)
    (hdata : data.length<2^63) :
    (∀ (logicalSize rangeStart length : ℕ) (cache : Option (BlockDecodeCache Path)) (count : ℕ),
      Sound (readRange env path data logicalSize rangeStart length cache count)) ↔
        OffsetsFit layout := by
  obtain ⟨haccepted,hnumber⟩ := parseLayoutBytes_accepted h
  constructor
  · intro hsound block hblock
    by_contra hword
    obtain ⟨hgrows,hinside⟩ := haccepted.valid.grows hblock
    have hcount := haccepted.count
    unfold maxBlockCount at hcount
    have hread : BlobFormats.readBlobLayout data=.ok layout := by
      have hsame := readBlobLayout_of_blocks (show 0<blockCountField data by omega)
      rw [h] at hsame
      cases hother : BlobFormats.readBlobLayout data with
      | error e =>
        rw [hother] at hsame
        cases hsame
      | ok other => rw [readBlobLayout_parsed h hother]
    have hopen : IndexedBlobReader.fromFile data layout.logicalSize (layout.logicalStart block) 1=
        .ok ⟨layout,!(layout.logicalStart block==0 && 1==layout.logicalSize),block,
          layout.logicalStart block,layout.logicalStart block+1⟩ := by
      unfold IndexedBlobReader.fromFile BlobDecoding.readIndexedLayout
      rw [hread]
      dsimp only
      rw [if_neg (not_not.mpr rfl)]
      dsimp only
      rw [if_pos (by omega),blockForOffset_start haccepted.valid hblock]
    have hfault : readRange env path data layout.logicalSize (layout.logicalStart block) 1 none 1=
        .error .overflow := by
      obtain ⟨fuel,hfuel⟩ : ∃ fuel,layout.blockCount-block=fuel+1 :=
        ⟨layout.blockCount-block-1,by omega⟩
      unfold readRange
      rw [fromFile_eq h,ok_bind,hopen]
      dsimp only
      unfold nextChunks nextChunk
      dsimp only
      rw [if_neg (by omega),hfuel]
      unfold nextBlock readBlockFromFile
      dsimp only
      rw [add_eq (by omega),ok_bind,fileOffsetForBlock_overflow hblock (not_lt.mp hword)]
      rfl
    have hrun := hsound layout.logicalSize (layout.logicalStart block) 1 none 1
    rw [hfault] at hrun
    exact not_sound_error _ hrun
  · intro hoffsets logicalSize rangeStart length cache count
    unfold readRange
    rw [fromFile_eq h,ok_bind]
    cases hopen : IndexedBlobReader.fromFile data logicalSize rangeStart length with
    | error e => exact sound_ok ()
    | ok reader =>
      obtain ⟨state,hstate⟩ := @nextChunks_sound data layout Path _ env path haccepted hoffsets hdata
        count reader cache (fromFile_inRange h hopen)
      dsimp only
      rw [hstate,ok_bind]
      exact sound_ok ()

end Blocks

end Accepted

section Calls

variable {env : ReadEnv} {data : Bytes} {layout : BlobLayout}

/-- Calls on a blob that never fault. -/
structure CallsSound (env : ReadEnv) (data : Bytes) (layout : BlobLayout) : Prop where
  /-- Decoding it. -/
  decompress : ∀ expectedSize,Sound (CheckedReading.decompressBlob env data expectedSize)
  /-- Checking its blocks. -/
  verify : ∀ expectedSize,Sound (CheckedReading.verifyIndexedBlob env data expectedSize)
  /-- Collecting the shared blocks that it names. -/
  collect : Sound (CheckedReading.collectDedupRefs data)
  /-- Checking where its blocks lie. -/
  extents : ∀ expectedSize fileLen,
    Sound (CheckedReading.indexedExtentsFit layout expectedSize fileLen)
  /-- Opening it as a file and asking for pieces of a range, with any cache. -/
  read : ∀ (Path : Type) [DecidableEq Path] (path : Path) (logicalSize rangeStart length : ℕ)
    (cache : Option (BlockDecodeCache Path)) (count : ℕ),
      Sound (readRange env path data logicalSize rangeStart length cache count)

/-- Containers whose table and size stay in range. -/
structure Bounded (env : ReadEnv) (data : Bytes) (layout : BlobLayout) : Prop where
  /-- Memory can hold the object. -/
  size : layout.logicalSize<2^63
  /-- Offsets of blocks are words. -/
  offsets : OffsetsFit layout
  /-- Before a header that does not end at a word comes a block that cannot be read. -/
  headers : ∀ block<layout.blockCount,¬HeaderFits layout block →
    ∃ earlier<block,∀ chunk,BlobDecoding.readBlockPayloadBytes env data layout earlier≠.ok chunk
  /-- And one that does not say what it is, if blocks may be shared. -/
  shared : usesDedupBlocks layout=true→∀ block<layout.blockCount,¬HeaderFits layout block →
    ∃ earlier<block,¬Legible data layout earlier

theorem indexedExtentsFit_sound (haccepted : Accepted layout) (hoffsets : OffsetsFit layout)
    (expectedSize fileLen : ℕ) :
    Sound (CheckedReading.indexedExtentsFit layout expectedSize fileLen) := by
  have hcount := haccepted.count
  unfold maxBlockCount at hcount
  unfold CheckedReading.indexedExtentsFit
  split
  · exact sound_ok false
  refine all_sound _ fun block hmem => ?_
  have hblock := List.mem_range.mp hmem
  have hstop : ∃ stop,CheckedReading.blockStop layout fileLen block=.ok stop := by
    unfold CheckedReading.blockStop
    rw [add_eq (by omega),ok_bind]
    split
    · rename_i hnext
      exact ⟨_,(fileOffsetForBlock_eq hnext (hoffsets _ hnext)).1⟩
    · exact ⟨fileLen,rfl⟩
  obtain ⟨stop,hstop⟩ := hstop
  rw [(fileOffsetForBlock_eq hblock (hoffsets _ hblock)).1,ok_bind,hstop,ok_bind]
  exact sound_ok _

section Walks

variable (h : BlobFormats.parseLayoutBytes data=.ok layout) (hdata : data.length<2^63)
include h hdata

theorem verifyIndexedBlob_sound_iff :
    (∀ expectedSize,Sound (CheckedReading.verifyIndexedBlob env data expectedSize)) ↔
      Sound (walk (CheckedReading.readBlockPayloadBytes env data layout)
        (List.range layout.blockCount)) := by
  have hcall : ∀ expectedSize,Sound (CheckedReading.verifyIndexedBlob env data expectedSize) ↔
      (layout.logicalSize=expectedSize →
        Sound (walk (CheckedReading.readBlockPayloadBytes env data layout)
          (List.range layout.blockCount))) := by
    intro expectedSize
    unfold CheckedReading.verifyIndexedBlob
    rw [CheckedReading.parseLayoutBytes_eq hdata,ok_bind,h]
    dsimp only
    by_cases hsize : layout.logicalSize=expectedSize
    · rw [if_neg (not_not.mpr hsize)]
      rw [forall_prop_of_true hsize]
      exact sound_bind_iff fun outcome => by cases outcome <;> exact sound_ok _
    · rw [if_pos hsize]
      exact iff_of_true (sound_ok _) fun hsame => absurd hsame hsize
  simp only [hcall]
  exact ⟨fun hsound => hsound _ rfl,fun hsound _ _ => hsound⟩

theorem decompressBlob_sound_iff :
    (∀ expectedSize,Sound (CheckedReading.decompressBlob env data expectedSize)) ↔
      layout.logicalSize<2^63 ∧ Sound (walk (CheckedReading.readBlockPayloadBytes env data layout)
          (List.range layout.blockCount)) := by
  have hindexed : ∀ expectedSize,CheckedReading.decompressBlob env data expectedSize=
      CheckedReading.decompressIndexedBlob env data expectedSize := by
    intro expectedSize
    unfold CheckedReading.decompressBlob
    unfold BlobFormats.parseLayoutBytes at h
    split at h
    · rename_i hformat
      rw [hformat]
    · rename_i hformat
      rw [hformat]
    · cases h
  have hcall : ∀ expectedSize,Sound (CheckedReading.decompressBlob env data expectedSize) ↔
      (layout.logicalSize=expectedSize→expectedSize<2^63 ∧
        Sound (walk (CheckedReading.readBlockPayloadBytes env data layout)
          (List.range layout.blockCount))) := by
    intro expectedSize
    rw [hindexed]
    unfold CheckedReading.decompressIndexedBlob
    rw [CheckedReading.parseLayoutBytes_eq hdata,ok_bind,h]
    dsimp only
    by_cases hsize : layout.logicalSize=expectedSize
    · rw [if_neg (not_not.mpr hsize),forall_prop_of_true hsize]
      by_cases hmemory : expectedSize<2^63
      · rw [reserve_eq hmemory,ok_bind,and_iff_right hmemory]
        exact sound_bind_iff fun outcome => by cases outcome <;> exact sound_ok _
      · rw [reserve_capacity (not_lt.mp hmemory),error_bind]
        exact iff_of_false (not_sound_error _) fun hboth => hmemory hboth.1
    · rw [if_pos hsize]
      exact iff_of_true (sound_ok _) fun hsame => absurd hsame hsize
  simp only [hcall]
  exact ⟨fun hsound => hsound _ rfl,fun hsound _ hsame => hsame ▸ hsound⟩

theorem collectDedupRefs_sound_iff :
    Sound (CheckedReading.collectDedupRefs data) ↔ (usesDedupBlocks layout=true →
      Sound (walk (CheckedReading.dedupRefAt data layout) (List.range layout.blockCount))) := by
  have hparse := h
  unfold CheckedReading.collectDedupRefs
  unfold BlobFormats.parseLayoutBytes at hparse
  split at hparse
  · rename_i hformat
    rw [hformat]
    rw [CheckedReading.parseLayoutBytes_eq hdata,ok_bind,h]
    dsimp only
    cases huses : usesDedupBlocks layout with
    | false => exact iff_of_true (sound_ok _) fun htrue => by cases htrue
    | true =>
      rw [forall_prop_of_true rfl]
      exact sound_bind_iff fun outcome => by cases outcome <;> exact sound_ok _
  · rename_i hformat
    rw [hformat]
    refine iff_of_true (sound_ok _) fun huses => ?_
    -- containers of the older format have no flags
    split at hparse
    · cases hparse
    dsimp only at hparse
    split at hparse
    · cases hparse
    cases hparse
    cases huses
  · cases hparse

end Walks

/-- For a blob whose header is accepted, no call on it faults exactly if its table and its size
stay in range. -/
theorem calls_sound_iff (h : BlobFormats.parseLayoutBytes data=.ok layout)
    (hdata : data.length<2^63) : CallsSound env data layout ↔ Bounded env data layout := by
  have haccepted := (parseLayoutBytes_accepted h).1
  constructor
  · intro hcalls
    have hoffsets := (@readRange_sound_iff data layout Unit _ env () h hdata).mp (hcalls.read Unit ())
    obtain ⟨hsize,hwalk⟩ := (decompressBlob_sound_iff h hdata).mp hcalls.decompress
    refine ⟨hsize,hoffsets,(readBlocks_sound_iff hdata hoffsets).mp hwalk,fun huses => ?_⟩
    exact (collectRefs_sound_iff hdata hoffsets).mp
      ((collectDedupRefs_sound_iff h hdata).mp hcalls.collect huses)
  · intro hbounded
    have hoffsets := hbounded.offsets
    have hwalk := (@readBlocks_sound_iff env data layout hdata hoffsets).mpr hbounded.headers
    refine ⟨(decompressBlob_sound_iff h hdata).mpr ⟨hbounded.size,hwalk⟩,
      (verifyIndexedBlob_sound_iff h hdata).mpr hwalk,
      (collectDedupRefs_sound_iff h hdata).mpr fun huses => ?_,
      indexedExtentsFit_sound haccepted hoffsets,fun Path _ path => ?_⟩
    · exact (collectRefs_sound_iff hdata hoffsets).mpr (hbounded.shared huses)
    · exact (readRange_sound_iff h hdata).mpr hoffsets

/-- A container with one block of three bytes that is said to begin at an offset. -/
def containerAt (offset : ℕ) : Bytes :=
  nosbMagic++le 8 3++le 4 4096++le 4 1++(le 8 offset++le 8 3)++([1, 0, 0, 0]++le 4 3)++[97, 98, 99]

/-- Its layout. -/
def layoutAt (offset : ℕ) : BlobLayout :=
  ⟨.v0,3,4096,0,0,0,[⟨offset,3⟩],36⟩

/-- A block that is where it is said to be is read without a fault. -/
theorem containerAt_zero_sound : BlobFormats.parseLayoutBytes (containerAt 0)=.ok (layoutAt 0) ∧
      CallsSound plainEnv (containerAt 0) (layoutAt 0) := by
  have hparse : BlobFormats.parseLayoutBytes (containerAt 0)=.ok (layoutAt 0) := by decide +kernel
  have hfits : ∀ block<(layoutAt 0).blockCount,HeaderFits (layoutAt 0) block := by
    unfold HeaderFits
    decide
  have hbounded : Bounded plainEnv (containerAt 0) (layoutAt 0) :=
    ⟨by decide,fun block hblock => lt_of_le_of_lt (Nat.le_add_right _ _) (hfits block hblock),
      fun block hblock h => absurd (hfits block hblock) h,
      fun _ block hblock h => absurd (hfits block hblock) h⟩
  exact ⟨hparse,(calls_sound_iff hparse (by decide)).mpr hbounded⟩

/-- A block that is said to begin at the largest offset stops all calls that look for it. -/
theorem containerAt_largest_faults :
    BlobFormats.parseLayoutBytes (containerAt (2^64-1))=.ok (layoutAt (2^64-1)) ∧
      CheckedReading.decompressBlob plainEnv (containerAt (2^64-1)) 3=.error .overflow ∧
      CheckedReading.verifyIndexedBlob plainEnv (containerAt (2^64-1)) 3=.error .overflow ∧
      CheckedReading.indexedExtentsFit (layoutAt (2^64-1)) 3 47=.error .overflow ∧
      readRange plainEnv () (containerAt (2^64-1)) 3 0 3 none 1=.error .overflow := by
  refine ⟨?_,?_,?_,?_,?_⟩ <;> decide +kernel

end Calls

end NebularOs.HostileContainers
