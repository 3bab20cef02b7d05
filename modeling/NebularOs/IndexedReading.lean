import Mathlib
import NebularOs.BlobDecoding

/-!
# Reading ranges of a container

A block table that was accepted divides the object into the chunks of its blocks.
A reader of a range starts at the block that holds its first byte and gives the
bytes of the range, block by block, if every block can be decoded. A reader of the
whole object needs every block, so a whole read that ends without an error shows
that all of them can be.
-/

namespace NebularOs.IndexedReading

open ByteFields EngineState BlobFormats SharedBlocks ChunkSources BlobDecoding List

/-- A layout whose block table was accepted. -/
structure ValidLayout (layout : BlobLayout) : Prop where
  /-- Chunks grow within the object and offsets do not go back. -/
  validated : validateIndex layout.logicalSize 0 0 layout.index=.ok ()
  /-- The last chunk ends the object. -/
  covers : (layout.index.getLast?.map IndexEntry.logicalEnd).getD 0=layout.logicalSize

section Layouts

variable {layout : BlobLayout} {logicalSize : ℕ} {index : List IndexEntry}

theorem parseIndex_valid {data : Bytes} {fixedLen : ℕ}
    (h : parseIndex data fixedLen logicalSize=.ok index) :
    validateIndex logicalSize 0 0 index=.ok () ∧
      (index.getLast?.map IndexEntry.logicalEnd).getD 0=logicalSize := by
  refine ⟨?_,(parseIndex_covers h).2⟩
  unfold parseIndex at h
  split at h
  · cases h
  split at h
  · cases h
  split at h
  · cases h
  obtain ⟨rfl,_⟩ := checkIndex_covers h
  unfold checkIndex at h
  split at h
  · cases h
  · assumption

theorem parseLayoutBytes_valid {data : Bytes} (h : parseLayoutBytes data=.ok layout) :
    ValidLayout layout := by
  unfold parseLayoutBytes at h
  split at h
  · split at h
    · cases h
    dsimp only at h
    split at h
    · cases h
    rename_i hindex
    obtain ⟨hvalidated,hcovers⟩ := parseIndex_valid hindex
    cases h
    exact ⟨hvalidated,hcovers⟩
  · split at h
    · cases h
    dsimp only at h
    split at h
    · cases h
    rename_i hindex
    obtain ⟨hvalidated,hcovers⟩ := parseIndex_valid hindex
    cases h
    exact ⟨hvalidated,hcovers⟩
  · cases h

theorem readBlobLayout_valid {file : Bytes} (h : readBlobLayout file=.ok layout) :
    ValidLayout layout := by
  have hbehind : ∀ {header rest : Bytes},readLayoutBehind header rest=.ok layout →
      ValidLayout layout := by
    intro header rest hread
    unfold readLayoutBehind at hread
    dsimp only at hread
    split at hread
    · cases hread
    split at hread
    · cases hread
    · exact parseLayoutBytes_valid hread
  unfold readBlobLayout at h
  split at h
  · cases h
  split at h
  · exact hbehind h
  · split at h
    · cases h
    dsimp only at h
    split at h
    · split at h
      · cases h
      · exact hbehind h
    · exact hbehind h
  · cases h

/-- Ends of chunks grow within the object. -/
theorem validateIndex_grows {prevLogical prevCompressed : ℕ}
    (h : validateIndex logicalSize prevLogical prevCompressed index=.ok ()) {block : ℕ}
    {entry : IndexEntry} (hentry : index[block]?=some entry) :
    (if block=0 then prevLogical else (index[block-1]?.map IndexEntry.logicalEnd).getD 0) <
        entry.logicalEnd ∧ entry.logicalEnd≤logicalSize := by
  induction index generalizing prevLogical prevCompressed block with
  | nil => cases hentry
  | cons first index ih =>
    unfold validateIndex at h
    split at h
    · cases h
    rename_i hends
    split at h
    · cases h
    cases block with
    | zero =>
      cases hentry
      rw [if_pos rfl]
      omega
    | succ block =>
      rw [List.getElem?_cons_succ] at hentry
      have hgrows := ih h hentry
      rw [if_neg (Nat.succ_ne_zero block),Nat.add_sub_cancel]
      cases block with
      | zero => exact hgrows
      | succ block =>
        rwa [if_neg (Nat.succ_ne_zero block),Nat.add_sub_cancel] at hgrows

theorem logicalStart_zero (layout : BlobLayout) : layout.logicalStart 0=0 :=
  if_pos rfl

theorem logicalStart_succ (layout : BlobLayout) (block : ℕ) :
    layout.logicalStart (block+1)=layout.logicalEnd block :=
  if_neg (Nat.succ_ne_zero block)

namespace ValidLayout

variable (hvalid : ValidLayout layout)
include hvalid

theorem grows {block : ℕ} (hblock : block<layout.blockCount) :
    layout.logicalStart block<layout.logicalEnd block ∧
      layout.logicalEnd block≤layout.logicalSize := by
  obtain ⟨entry,hentry⟩ : ∃ entry,layout.index[block]?=some entry :=
    ⟨_,List.getElem?_eq_getElem hblock⟩
  have hgrows := validateIndex_grows hvalid.validated hentry
  unfold BlobLayout.logicalStart BlobLayout.logicalEnd
  rwa [hentry]

theorem logicalEnd_mono {first second : ℕ} (hle : first ≤ second)
    (hsecond : second<layout.blockCount) : layout.logicalEnd first≤layout.logicalEnd second := by
  induction second with
  | zero => rw [Nat.le_zero.mp hle]
  | succ second ih =>
    rcases Nat.lt_or_ge second first with hlater | hearlier
    · rw [show first=second+1 by omega]
    · have hgrows := hvalid.grows hsecond
      rw [logicalStart_succ] at hgrows
      exact (ih hearlier (by omega)).trans hgrows.1.le

theorem logicalStart_blockCount : layout.logicalStart layout.blockCount=layout.logicalSize := by
  have hcovers := hvalid.covers
  rw [List.getLast?_eq_getElem?] at hcovers
  unfold BlobLayout.logicalStart BlobLayout.blockCount
  split
  · rename_i hzero
    rwa [length_eq_zero_iff.mp hzero] at hcovers
  · exact hcovers

/-- The search ends at the first block that ends behind the offset. -/
theorem searchBlock_spec {offset fuel low high : ℕ} (hhigh : high≤layout.blockCount)
    (hle : low≤high) (hfuel : high-low≤fuel) (hbelow : ∀ block<low,layout.logicalEnd block≤offset)
    (habove : ∀ block<layout.blockCount,high≤block → offset<layout.logicalEnd block) :
    layout.searchBlock offset fuel low high≤layout.blockCount ∧
      (∀ block<layout.searchBlock offset fuel low high,layout.logicalEnd block≤offset) ∧
      ∀ block<layout.blockCount,layout.searchBlock offset fuel low high≤block →
        offset<layout.logicalEnd block := by
  induction fuel generalizing low high with
  | zero =>
    obtain rfl : low=high := by omega
    exact ⟨hhigh,hbelow,habove⟩
  | succ fuel ih =>
    unfold BlobLayout.searchBlock
    split
    · rename_i hlt
      dsimp only
      have hmiddle : low+(high-low)/2<high := by omega
      split
      · rename_i hends
        refine ih (by omega) (by omega) (by omega) hbelow ?_
        intro block hblock hfrom
        exact hends.trans_le (hvalid.logicalEnd_mono hfrom hblock)
      · rename_i hends
        refine ih hhigh (by omega) (by omega) ?_ habove
        intro block hblock
        exact (hvalid.logicalEnd_mono (show block≤low+(high-low)/2 by omega)
          (by omega)).trans (not_lt.mp hends)
    · obtain rfl : low=high := by omega
      exact ⟨hhigh,hbelow,habove⟩

/-- The block that holds an offset within the object. -/
theorem blockForOffset_holds {offset : ℕ} (hoffset : offset<layout.logicalSize) :
    layout.blockForOffset offset<layout.blockCount ∧
      layout.logicalStart (layout.blockForOffset offset)≤offset ∧
      offset<layout.logicalEnd (layout.blockForOffset offset) := by
  have hstart := hvalid.logicalStart_blockCount
  have hsome : layout.index.isEmpty=false := by
    cases hindex : layout.index with
    | nil =>
      have hcovers := hvalid.covers
      rw [hindex] at hcovers
      have hzero : 0=layout.logicalSize := hcovers
      omega
    | cons first index => rfl
  set found := layout.searchBlock offset layout.blockCount 0 layout.blockCount with hdef
  obtain ⟨hfound,hbelow,habove⟩ : found≤layout.blockCount ∧
      (∀ block<found,layout.logicalEnd block≤offset) ∧
      ∀ block<layout.blockCount,found≤block → offset<layout.logicalEnd block :=
    hvalid.searchBlock_spec le_rfl (Nat.zero_le _) (le_of_eq (Nat.sub_zero _))
      (fun block hblock => absurd hblock (Nat.not_lt_zero block))
      (fun block hblock hfrom => absurd hblock (not_lt.mpr hfrom))
  -- some chunk ends behind the offset, because the last one ends the object
  have hinside : found<layout.blockCount := by
    by_contra hnot
    obtain ⟨last,hlast⟩ : ∃ last,layout.blockCount=last+1 := by
      cases hcount : layout.blockCount with
      | zero =>
        rw [hcount,logicalStart_zero] at hstart
        omega
      | succ last => exact ⟨last,rfl⟩
    have hends := hbelow last (by omega)
    rw [hlast,logicalStart_succ] at hstart
    omega
  have hblock : layout.blockForOffset offset=found := by
    unfold BlobLayout.blockForOffset
    rw [if_neg (by rw [hsome]; exact Bool.false_ne_true)]
    exact Nat.min_eq_left (Nat.le_sub_one_of_lt hinside)
  rw [hblock]
  refine ⟨hinside,?_,habove found hinside le_rfl⟩
  cases hcases : found with
  | zero => exact (logicalStart_zero layout).le.trans (Nat.zero_le _)
  | succ before =>
    rw [logicalStart_succ]
    exact hbelow before (by omega)

theorem holds_next {blockIdx pos stop : ℕ} (hblock : blockIdx<layout.blockCount)
    (hends : layout.logicalEnd blockIdx=pos) (hmore : pos<stop)
    (hinside : stop≤layout.logicalSize) :
    blockIdx+1<layout.blockCount ∧ layout.logicalStart (blockIdx+1)≤pos ∧
      pos<layout.logicalEnd (blockIdx+1) := by
  have hsize := hvalid.logicalStart_blockCount
  have hnot : blockIdx+1≠layout.blockCount := by
    intro hlast
    rw [← hlast,logicalStart_succ] at hsize
    omega
  have hnext : blockIdx+1<layout.blockCount := by omega
  have hgrows := (hvalid.grows hnext).1
  rw [logicalStart_succ] at hgrows ⊢
  omega

end ValidLayout

end Layouts

section Contents

variable {env : ReadEnv} {file : Bytes} {layout : BlobLayout} {contents : List Bytes}
  {blockIdx : ℕ} {block : Bytes}

/-- Chunks of all blocks of a container. -/
structure Contents (env : ReadEnv) (file : Bytes) (layout : BlobLayout) (contents : List Bytes) :
    Prop where
  /-- There is one for each block. -/
  count : contents.length=layout.blockCount
  /-- Each is what its block decodes to. -/
  blocks : ∀ {blockIdx block},contents[blockIdx]?=some block →
    readBlock env file layout blockIdx=.ok block

theorem decodeBlockPayload_length {payload : Bytes} {parsed : ParsedBlockHeader} {expectedLen : ℕ}
    (h : decodeBlockPayload env payload parsed expectedLen=.ok block) :
    block.length=expectedLen := by
  unfold decodeBlockPayload at h
  split at h
  · cases h
  split at h
  · cases h
  rename_i hlength
  split at h
  · cases h
  cases h
  exact not_not.mp hlength

theorem readBlock_length (h : readBlock env file layout blockIdx=.ok block) :
    block.length=layout.logicalLen blockIdx := by
  rw [readBlock_eq] at h
  split at h
  · cases h
  split at h
  · cases h
  split at h
  · cases h
  · exact decodeBlockPayload_length h

/-- Pieces of an object, one for each chunk of a layout and as long as it. -/
structure Divided (layout : BlobLayout) (contents : List Bytes) : Prop where
  /-- There is one for each block. -/
  count : contents.length=layout.blockCount
  /-- Each is as long as its chunk. -/
  lengths : ∀ {blockIdx block},contents[blockIdx]?=some block →
    block.length=layout.logicalLen blockIdx

theorem Contents.divided (hcontents : Contents env file layout contents) : Divided layout contents :=
  ⟨hcontents.count,fun hblock => readBlock_length (hcontents.blocks hblock)⟩

namespace Divided

variable (hcontents : Divided layout contents) (hvalid : ValidLayout layout)
include hcontents hvalid

theorem length_of_block (hblock : contents[blockIdx]?=some block) :
    layout.logicalStart blockIdx+block.length=layout.logicalEnd blockIdx := by
  have hlength := hcontents.lengths hblock
  have hinside : blockIdx<layout.blockCount := by
    rw [← hcontents.count]
    exact (List.getElem?_eq_some_iff.mp hblock).1
  have hgrows := (hvalid.grows hinside).1
  unfold BlobLayout.logicalLen at hlength
  omega

theorem length_before (hblock : blockIdx≤layout.blockCount) :
    (contents.take blockIdx).flatten.length=layout.logicalStart blockIdx := by
  induction blockIdx with
  | zero => rw [logicalStart_zero]; rfl
  | succ before ih =>
    obtain ⟨chunk,hchunk⟩ : ∃ chunk,contents[before]?=some chunk :=
      ⟨_,List.getElem?_eq_getElem (by rw [hcontents.count]; omega)⟩
    have hends := hcontents.length_of_block hvalid hchunk
    have hbefore := ih (by omega)
    rw [take_add_one,hchunk,flatten_append,length_append,hbefore,logicalStart_succ,
      ← hends]
    simp

theorem length_flatten : contents.flatten.length=layout.logicalSize := by
  have hall := hcontents.length_before hvalid (Nat.le_refl layout.blockCount)
  rwa [← hcontents.count,take_length,hcontents.count,hvalid.logicalStart_blockCount] at hall

theorem slice_within {start length : ℕ} (hget : contents[blockIdx]?=some block)
    (hstart : layout.logicalStart blockIdx ≤ start) (hend : start+length≤layout.logicalEnd blockIdx) :
    slice start length contents.flatten=slice (start-layout.logicalStart blockIdx) length block := by
  have hinside : blockIdx<layout.blockCount := by
    rw [← hcontents.count]
    exact (List.getElem?_eq_some_iff.mp hget).1
  have hlength := hcontents.length_of_block hvalid hget
  have hbytes := hcontents.length_before hvalid hinside.le
  have hpos : start=(contents.take blockIdx).flatten.length+
      (start-layout.logicalStart blockIdx) := by omega
  conv_lhs => rw [hpos]
  exact slice_flatten hget (by omega)

end Divided

end Contents

section Ranges

variable {Path : Type} [DecidableEq Path] {env : ReadEnv} {path : Path} {file : Bytes}
  {layout : BlobLayout} {contents : List Bytes}

/-- A reader within its range. -/
structure Within (env : ReadEnv) (path : Path) (file : Bytes) (layout : BlobLayout)
    (state : IndexedBlobReader×Option (BlockDecodeCache Path)) : Prop where
  /-- It reads this container. -/
  layout_eq : state.1.layout=layout
  /-- Its cache agrees with the file. -/
  agrees : Agrees env path file layout state.2
  /-- It has not run past its range. -/
  before : state.1.pos ≤ state.1.stop
  /-- The range lies within the object. -/
  inside : state.1.stop≤layout.logicalSize
  /-- Unless it is done, its next block holds its next byte. -/
  holds : state.1.pos<state.1.stop→state.1.blockIdx<layout.blockCount ∧
    layout.logicalStart state.1.blockIdx ≤ state.1.pos ∧
    state.1.pos<layout.logicalEnd state.1.blockIdx

/-- A reader within its range, and the bytes that it still owes. -/
structure Owes (env : ReadEnv) (path : Path) (file : Bytes) (layout : BlobLayout)
    (contents : List Bytes) (state : IndexedBlobReader×Option (BlockDecodeCache Path))
    (items : Bytes) : Prop extends Within env path file layout state where
  /-- It owes the rest of the range. -/
  rest : items=slice state.1.pos (state.1.stop-state.1.pos) contents.flatten

variable {cache : Option (BlockDecodeCache Path)} {reader : IndexedBlobReader}

theorem nextChunk_of_block {later : Option (BlockDecodeCache Path)} {block : Bytes}
    (hmore : reader.pos < reader.stop) (hblock : reader.blockIdx < reader.layout.blockCount)
    (hread : readBlockFromFile env path file reader.layout reader.blockIdx cache
      reader.populateCache=(.ok block,later))
    (hholds : reader.pos-reader.layout.logicalStart reader.blockIdx<block.length) :
    nextChunk env path file (reader,cache)=
      (.ok (some (slice (reader.pos-reader.layout.logicalStart reader.blockIdx)
          (min (reader.stop-reader.pos)
            (block.length-(reader.pos-reader.layout.logicalStart reader.blockIdx))) block)),
        { reader with
          blockIdx := reader.blockIdx+1
          pos := reader.pos+min (reader.stop-reader.pos)
            (block.length-(reader.pos-reader.layout.logicalStart reader.blockIdx)) },later) := by
  obtain ⟨fuel,hfuel⟩ : ∃ fuel,reader.layout.blockCount-reader.blockIdx=fuel+1 :=
    Nat.exists_eq_succ_of_ne_zero (by omega)
  unfold nextChunk
  dsimp only
  rw [if_neg (by omega),hfuel]
  unfold nextBlock
  dsimp only
  rw [hread]
  dsimp only
  rw [if_neg (by omega)]

/-- A reader within its range gives the bytes that it owes. -/
theorem nextChunk_keeps (hvalid : ValidLayout layout) (hcontents : Contents env file layout contents) :
    Promise (nextChunk env path file) (Owes env path file layout contents)
      (fun state => state.1.stop-state.1.pos) := by
  refine ⟨?_⟩
  rintro ⟨reader,cache⟩ items ⟨⟨hlayout,hagrees,hbefore,hinside,hholds⟩,hrest⟩
  dsimp only at hlayout hagrees hbefore hinside hholds hrest
  subst hlayout
  by_cases hdone : reader.stop ≤ reader.pos
  · have hnothing : reader.stop-reader.pos=0 := by omega
    have hitems : items=[] := by rw [hrest,hnothing]; rfl
    exact Or.inl ⟨hitems,(reader,cache),if_pos hdone,⟨rfl,hagrees,hbefore,hinside,hholds⟩,
      hitems ▸ hrest⟩
  · right
    have hmore : reader.pos < reader.stop := by omega
    obtain ⟨hblock,hstart,hend⟩ := hholds hmore
    obtain ⟨block,hget⟩ : ∃ block,contents[reader.blockIdx]?=some block :=
      ⟨_,List.getElem?_eq_getElem (by rw [hcontents.count]; exact hblock)⟩
    have hlength := hcontents.divided.length_of_block hvalid hget
    obtain ⟨hread,hlater⟩ := @readBlockFromFile_agrees Path _ env path file reader.layout cache
      reader.blockIdx hagrees reader.populateCache
    rw [hcontents.blocks hget] at hread
    have hnext := nextChunk_of_block hmore hblock (Prod.ext hread rfl) (by omega)
    set skip := reader.pos-reader.layout.logicalStart reader.blockIdx with hskip
    set taken := min (reader.stop-reader.pos) (block.length-skip) with htaken
    have hsplit : reader.stop-reader.pos=taken+(reader.stop-(reader.pos+taken)) := by omega
    -- the chunk is where the block lies in the object
    have hchunk : slice reader.pos taken contents.flatten=slice skip taken block :=
      hcontents.divided.slice_within hvalid hget hstart (by omega)
    refine ⟨_,_,slice (reader.pos+taken) (reader.stop-(reader.pos+taken)) contents.flatten,hnext,?_,
      ⟨⟨rfl,hlater,?_,hinside,?_⟩,rfl⟩,?_⟩
    · rw [hrest,hsplit,slice_add,hchunk]
    · dsimp only
      omega
    · dsimp only
      intro hmoreLeft
      -- the range goes on behind this block, so there is a next one
      exact hvalid.holds_next hblock (by omega) hmoreLeft hinside
    · dsimp only
      omega

variable {logicalSize : ℕ}

theorem readIndexedLayout_valid (h : readIndexedLayout file logicalSize=.ok layout) :
    ValidLayout layout ∧ layout.logicalSize=logicalSize := by
  unfold readIndexedLayout at h
  split at h
  · cases h
  rename_i hread
  split at h
  · cases h
  rename_i hsame
  cases h
  exact ⟨readBlobLayout_valid hread,not_not.mp hsame⟩

/-- A reader was made for the layout of its file. -/
theorem fromFile_layout {rangeStart length : ℕ}
    (h : IndexedBlobReader.fromFile file logicalSize rangeStart length=.ok reader) :
    ∃ layout,readIndexedLayout file logicalSize=.ok layout ∧ readBlobLayout file=.ok layout := by
  unfold IndexedBlobReader.fromFile at h
  split at h
  · cases h
  rename_i layout hlayout
  refine ⟨layout,hlayout,?_⟩
  unfold readIndexedLayout at hlayout
  split at hlayout
  · cases hlayout
  rename_i found hfound
  split at hlayout
  · cases hlayout
  · rw [hfound,Except.ok.inj hlayout]

omit [DecidableEq Path] in
/-- A reader starts within its range. -/
theorem fromFile_within {rangeStart length : ℕ}
    (hlayout : readIndexedLayout file logicalSize=.ok layout)
    (hreader : IndexedBlobReader.fromFile file logicalSize rangeStart length=.ok reader)
    (hagrees : Agrees env path file layout cache) :
    Within env path file layout (reader,cache) ∧ reader.pos=rangeStart ∧
      reader.stop=rangeStart+length ∧ reader.blockIdx=layout.blockForOffset rangeStart := by
  obtain ⟨hvalid,hsize⟩ := readIndexedLayout_valid hlayout
  unfold IndexedBlobReader.fromFile at hreader
  rw [hlayout] at hreader
  dsimp only at hreader
  split at hreader
  · rename_i hrange
    cases hreader
    refine ⟨⟨rfl,hagrees,Nat.le_add_right _ _,hsize ▸ hrange,fun hmore => ?_⟩,rfl,rfl,rfl⟩
    dsimp only at hmore
    exact hvalid.blockForOffset_holds (by omega)
  · cases hreader

omit [DecidableEq Path] in
theorem fromFile_owes {rangeStart length : ℕ}
    (hlayout : readIndexedLayout file logicalSize=.ok layout)
    (hreader : IndexedBlobReader.fromFile file logicalSize rangeStart length=.ok reader)
    (hagrees : Agrees env path file layout cache) :
    Owes env path file layout contents (reader,cache) (slice rangeStart length contents.flatten) := by
  obtain ⟨hwithin,hpos,hstop,_⟩ := fromFile_within hlayout hreader hagrees
  refine ⟨hwithin,?_⟩
  dsimp only
  rw [hstop,hpos,Nat.add_sub_cancel_left]

/-- A reader of a whole object, at the beginning of a block. -/
structure AtBlock (env : ReadEnv) (path : Path) (file : Bytes) (layout : BlobLayout)
    (state : IndexedBlobReader×Option (BlockDecodeCache Path)) : Prop
    extends Within env path file layout state where
  /-- It reads to the end of the object. -/
  stop_eq : state.1.stop=layout.logicalSize
  /-- There is a next block, or it has read all. -/
  blockIdx_le : state.1.blockIdx≤layout.blockCount
  /-- Its next byte is the first of its next block. -/
  pos_eq : state.1.pos=layout.logicalStart state.1.blockIdx

theorem nextBlock_reads {fuel : ℕ} {next : IndexedBlobReader}
    {later : Option (BlockDecodeCache Path)} {found : Option Bytes}
    (h : nextBlock env path file fuel (reader,cache)=(.ok found,next,later)) :
    found≠none ∧ ∃ block after,readBlockFromFile env path file reader.layout reader.blockIdx cache
      reader.populateCache=(.ok block,after) := by
  induction fuel generalizing reader cache with
  | zero => cases h
  | succ fuel ih =>
    unfold nextBlock at h
    dsimp only at h
    rcases hread : readBlockFromFile env path file reader.layout reader.blockIdx cache
        reader.populateCache with ⟨outcome,after⟩
    rw [hread] at h
    cases outcome with
    | error e => cases h
    | ok block =>
      dsimp only at h
      split at h
      · exact ⟨(ih h).1,block,after,rfl⟩
      · obtain ⟨hfound,_⟩ := Prod.mk.inj h
        exact ⟨by rw [← Except.ok.inj hfound]; exact Option.some_ne_none _,block,after,rfl⟩

/-- A reader that gives nothing more is done. -/
theorem done_of_none {last : IndexedBlobReader×Option (BlockDecodeCache Path)}
    (h : nextChunk env path file (reader,cache)=(.ok none,last)) : reader.stop ≤ reader.pos := by
  by_contra hmore
  unfold nextChunk at h
  dsimp only at h
  rw [if_neg hmore] at h
  exact (nextBlock_reads h).1 rfl

/-- A reader that gives a chunk has read it from its next block, and is still within its
range. -/
theorem Within.chunk (hvalid : ValidLayout layout)
    {state next : IndexedBlobReader×Option (BlockDecodeCache Path)} {chunk : Bytes}
    (h : Within env path file layout state)
    (hread : nextChunk env path file state=(.ok (some chunk),next)) :
    Within env path file layout next ∧
      next.1={ state.1 with blockIdx := state.1.blockIdx+1, pos := state.1.pos+chunk.length } ∧
      state.1.blockIdx<layout.blockCount ∧ layout.logicalStart state.1.blockIdx ≤ state.1.pos ∧
      state.1.pos<layout.logicalEnd state.1.blockIdx ∧
      chunk.length=min (state.1.stop-state.1.pos)
        (layout.logicalEnd state.1.blockIdx-state.1.pos) ∧
      ∃ block,readBlock env file layout state.1.blockIdx=.ok block ∧
        chunk=slice (state.1.pos-layout.logicalStart state.1.blockIdx) chunk.length block := by
  obtain ⟨reader,cache⟩ := state
  obtain ⟨hlayout,hagrees,hbefore,hinside,hholds⟩ := h
  dsimp only at hlayout hagrees hbefore hinside hholds ⊢
  subst hlayout
  have hmore : reader.pos < reader.stop := by
    by_contra hnot
    have hnone : nextChunk env path file (reader,cache)=(.ok none,reader,cache) := if_pos (by omega)
    rw [hnone] at hread
    cases hread
  obtain ⟨hblock,hstart,hend⟩ := hholds hmore
  obtain ⟨block,after,hfile⟩ : ∃ block after,readBlockFromFile env path file reader.layout
      reader.blockIdx cache reader.populateCache=(.ok block,after) := by
    have hsame := hread
    unfold nextChunk at hsame
    dsimp only at hsame
    rw [if_neg (by omega)] at hsame
    exact (nextBlock_reads hsame).2
  obtain ⟨hdecoded,hafter⟩ := @readBlockFromFile_agrees Path _ env path file reader.layout cache
    reader.blockIdx hagrees reader.populateCache
  rw [hfile] at hdecoded hafter
  have hlength := readBlock_length hdecoded.symm
  unfold BlobLayout.logicalLen at hlength
  rw [nextChunk_of_block hmore hblock hfile (by omega)] at hread
  obtain ⟨hchunk,rfl⟩ := Prod.mk.inj hread
  set skip := reader.pos-reader.layout.logicalStart reader.blockIdx with hskip
  set taken := min (reader.stop-reader.pos) (block.length-skip) with htaken
  have hchunkEq : slice skip taken block=chunk := Option.some.inj (Except.ok.inj hchunk)
  have hchunkLength : chunk.length=taken := by
    rw [← hchunkEq]
    exact slice_length (by omega)
  rw [hchunkLength]
  refine ⟨⟨rfl,hafter,?_,hinside,?_⟩,rfl,hblock,hstart,hend,by omega,block,hdecoded.symm,
    hchunkEq.symm⟩
  · dsimp only
    omega
  · dsimp only
    intro hmoreLeft
    exact hvalid.holds_next hblock (by omega) hmoreLeft hinside

/-- A whole read that ends without an error has decoded every block. -/
theorem blocks_of_whole (hvalid : ValidLayout layout)
    {state last : IndexedBlobReader×Option (BlockDecodeCache Path)} {items : Bytes}
    (hyields : Yields (nextChunk env path file) state items last)
    (hat : AtBlock env path file layout state) :
    ∃ tail : List Bytes,tail.length=layout.blockCount-state.1.blockIdx ∧
      ∀ {number block},tail[number]?=some block →
        readBlock env file layout (state.1.blockIdx+number)=.ok block := by
  refine Yields.induct (motive := fun state _ _ => AtBlock env path file layout state →
    ∃ tail : List Bytes,tail.length=layout.blockCount-state.1.blockIdx ∧
      ∀ {number block},tail[number]?=some block →
        readBlock env file layout (state.1.blockIdx+number)=.ok block) ?_ ?_ hyields hat
  · rintro ⟨reader,cache⟩ last hread ⟨_,hstop,hblock,hpos⟩
    dsimp only at hstop hblock hpos
    refine ⟨[],?_,fun {number block} h => by cases h⟩
    have hdone := done_of_none hread
    have hall : ¬reader.blockIdx<layout.blockCount := by
      intro hless
      have hgrows := hvalid.grows hless
      omega
    dsimp only
    rw [length_nil]
    omega
  · intro state chunk next rest last hread _ ih hat
    obtain ⟨hnext,hreader,hless,_,_,hlength,block,hblock,_⟩ := hat.toWithin.chunk hvalid hread
    have hgrows := hvalid.grows hless
    have hstop := hat.stop_eq
    have hpos := hat.pos_eq
    have hat' : AtBlock env path file layout next := by
      refine ⟨hnext,?_,?_,?_⟩
      · rw [hreader]
        exact hstop
      · rw [hreader]
        exact hless
      · rw [hreader]
        dsimp only
        rw [logicalStart_succ]
        omega
    obtain ⟨tail,hcount,htail⟩ := ih hat'
    rw [hreader] at hcount htail
    dsimp only at hcount htail
    refine ⟨block::tail,?_,?_⟩
    · rw [length_cons,hcount]
      omega
    · intro number found hfound
      cases number with
      | zero =>
        cases hfound
        exact hblock
      | succ number =>
        have hblockRead := htail hfound
        rwa [show state.1.blockIdx+(number+1)=state.1.blockIdx+1+number by omega]

omit [DecidableEq Path] in
theorem fromFile_atBlock (hpositive : 0<logicalSize)
    (hlayout : readIndexedLayout file logicalSize=.ok layout)
    (hreader : IndexedBlobReader.fromFile file logicalSize 0 logicalSize=.ok reader)
    (hagrees : Agrees env path file layout cache) :
    AtBlock env path file layout (reader,cache) ∧ reader.blockIdx=0 := by
  obtain ⟨hvalid,hsize⟩ := readIndexedLayout_valid hlayout
  obtain ⟨hwithin,hpos,hstop,hblock⟩ := fromFile_within hlayout hreader hagrees
  obtain ⟨hinside,hstart,_⟩ := hvalid.blockForOffset_holds (hsize ▸ hpositive)
  have hfirst : layout.blockForOffset 0=0 := by
    cases hfound : layout.blockForOffset 0 with
    | zero => rfl
    | succ before =>
      rw [hfound] at hinside hstart
      rw [logicalStart_succ] at hstart
      have hgrows := (hvalid.grows (show before<layout.blockCount by omega)).1
      omega
  rw [hfirst] at hblock
  refine ⟨⟨hwithin,?_,?_,?_⟩,hblock⟩
  · dsimp only
    omega
  · dsimp only
    omega
  · dsimp only
    rw [hblock,hpos,logicalStart_zero]

/-- A whole read that ends has given the contents of all blocks. -/
theorem contents_of_whole {items : Bytes} {last : IndexedBlobReader×Option (BlockDecodeCache Path)}
    (hlayout : readIndexedLayout file logicalSize=.ok layout)
    (hreader : IndexedBlobReader.fromFile file logicalSize 0 logicalSize=.ok reader)
    (hagrees : Agrees env path file layout cache)
    (hyields : Yields (nextChunk env path file) (reader,cache) items last) :
    ∃ contents,Contents env file layout contents ∧ items=contents.flatten := by
  obtain ⟨hvalid,hsize⟩ := readIndexedLayout_valid hlayout
  obtain ⟨contents,hcontents⟩ : ∃ contents,Contents env file layout contents := by
    rcases Nat.eq_zero_or_pos logicalSize with hzero | hpositive
    · have hnone : layout.blockCount=0 := by
        by_contra hsome
        have hgrows := hvalid.grows (Nat.pos_of_ne_zero hsome)
        omega
      exact ⟨[],hnone.symm,fun {blockIdx block} h => (nomatch h)⟩
    · obtain ⟨hat,hfirst⟩ := fromFile_atBlock hpositive hlayout hreader hagrees
      obtain ⟨contents,hcount,hblocks⟩ := blocks_of_whole hvalid hyields hat
      rw [hfirst] at hcount
      refine ⟨contents,hcount,fun {blockIdx block} h => ?_⟩
      have hblock := hblocks h
      rwa [hfirst,Nat.zero_add] at hblock
  refine ⟨contents,hcontents,?_⟩
  have howes : Owes env path file layout contents (reader,cache) _ :=
    fromFile_owes hlayout hreader hagrees
  obtain ⟨_,hall,_⟩ := (nextChunk_keeps hvalid hcontents).yields howes
  have htotal := hcontents.divided.length_flatten hvalid
  rw [(hyields.unique hall).1,← hsize,← htotal]
  exact slice_all _

theorem range_of_contents {contents : List Bytes} {logicalSize rangeStart length : ℕ}
    {cache : Option (BlockDecodeCache Path)}
    (hlayout : readIndexedLayout file logicalSize=.ok layout)
    (hcontents : Contents env file layout contents) (hrange : rangeStart+length≤logicalSize)
    (hagrees : Agrees env path file layout cache) :
    ∃ reader last,IndexedBlobReader.fromFile file logicalSize rangeStart length=.ok reader ∧
      Yields (nextChunk env path file) (reader,cache) (slice rangeStart length contents.flatten)
        last ∧ Agrees env path file layout last.2 := by
  obtain ⟨hvalid,_⟩ := readIndexedLayout_valid hlayout
  obtain ⟨reader,hreader⟩ : ∃ reader,
      IndexedBlobReader.fromFile file logicalSize rangeStart length=.ok reader := by
    unfold IndexedBlobReader.fromFile
    rw [hlayout]
    dsimp only
    rw [if_pos hrange]
    exact ⟨_,rfl⟩
  have howes : Owes env path file layout contents (reader,cache) _ :=
    fromFile_owes hlayout hreader hagrees
  obtain ⟨last,hyields,hlast⟩ := (nextChunk_keeps hvalid hcontents).yields howes
  exact ⟨reader,last,hreader,hyields,hlast.agrees⟩

/-- Caches that hold for a path what reads of the file there left, and anything for
other paths. -/
inductive FilledBy (env : ReadEnv) (path : Path) (file : Bytes) :
    Option (BlockDecodeCache Path)→Prop
  /-- Nothing is cached for the path. -/
  | fresh {cache : Option (BlockDecodeCache Path)}
      (h : ∀ kept∈cache,∀ entry∈kept.entries,entry.1.1≠path) : FilledBy env path file cache
  /-- A reader of the file has read a chunk. -/
  | read {cache : Option (BlockDecodeCache Path)} (h : FilledBy env path file cache)
      (reader : IndexedBlobReader) (hlayout : readBlobLayout file=.ok reader.layout) :
      FilledBy env path file (nextChunk env path file (reader,cache)).2.2
  /-- A block of another file was looked up. -/
  | otherGet {cache : BlockDecodeCache Path} (h : FilledBy env path file (some cache)) (key : BlockKey Path) :
      FilledBy env path file (some (cache.get key).2)
  /-- A block of another file was kept. -/
  | otherInsert {cache : BlockDecodeCache Path} (h : FilledBy env path file (some cache))
    (key : BlockKey Path)
      (hother : key.1≠path) (block : Bytes) :
      FilledBy env path file (some (cache.insert key block))

/-- Reading blocks keeps the agreement of the cache with the file. -/
theorem nextBlock_agrees {fuel : ℕ} (hlayout : reader.layout=layout)
    (hagrees : Agrees env path file layout cache) :
    Agrees env path file layout (nextBlock env path file fuel (reader,cache)).2.2 := by
  induction fuel generalizing reader cache with
  | zero => exact hagrees
  | succ fuel ih =>
    subst hlayout
    have hafter := (@readBlockFromFile_agrees Path _ env path file reader.layout cache
      reader.blockIdx hagrees reader.populateCache).2
    unfold nextBlock
    dsimp only
    rcases hread : readBlockFromFile env path file reader.layout reader.blockIdx cache
        reader.populateCache with ⟨outcome,after⟩
    rw [hread] at hafter
    cases outcome with
    | error e => exact hafter
    | ok block =>
      dsimp only
      split
      · exact ih rfl hafter
      · exact hafter

theorem FilledBy.agrees (h : FilledBy env path file cache)
    (hlayout : readBlobLayout file=.ok layout) : Agrees env path file layout cache := by
  induction h with
  | fresh hfresh =>
    intro kept hkept entry hentry hpath
    exact absurd hpath (hfresh kept hkept entry hentry)
  | read _ reader hreader ih =>
    have hsame : reader.layout=layout := Except.ok.inj (hreader.symm.trans hlayout)
    unfold nextChunk
    dsimp only
    split
    · exact ih
    · exact nextBlock_agrees hsame ih
  | otherGet _ key ih =>
    intro kept hkept entry hentry
    cases hkept
    exact ih _ rfl entry (BlockDecodeCache.get_subset hentry)
  | otherInsert _ key hother block ih =>
    intro kept hkept entry hentry hpath
    cases hkept
    rcases mem_cons.mp (BlockDecodeCache.insert_subset hentry) with rfl | hearlier
    · exact absurd hpath hother
    · exact ih _ rfl entry hearlier hpath

end Ranges

end NebularOs.IndexedReading
