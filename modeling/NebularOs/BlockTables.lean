import Mathlib
import NebularOs.IndexedReading

/-!
# Block tables

A block table divides an object: the ends of its chunks grow from zero to the object's
size, and offsets do not go back. A header that was written with such a table is read
back, and a table that a reader accepts is such a table. The block of an offset is the
one whose chunk holds it.
-/

namespace NebularOs.BlockTables

open ByteFields BlobFormats IndexedReading List

/-- Length of the fixed header of a layout. -/
def fixedHeaderLen (layout : BlobLayout) : ℕ :=
  match layout.format with
  | .v0 => BlobFormats.fixedHeaderLen
  | .v1 =>
    if 0<layout.zstdLevel ∨ layout.flags&&&nosiFlagHasLevel≠0 then fixedHeaderLenV1Level
    else fixedHeaderLenV1

/-- Length of the header of a layout, with its block table. -/
def headerLen (layout : BlobLayout) : ℕ :=
  fixedHeaderLen layout+layout.index.length*indexEntryLen

/-- Ends that grow up to a size, and offsets that do not go back. -/
structure Ordered (logicalSize : ℕ) (index : List IndexEntry) : Prop where
  /-- Ends of chunks grow. -/
  ends : (index.map IndexEntry.logicalEnd).Pairwise (· < ·)
  /-- The last chunk ends the object. -/
  last : (index.map IndexEntry.logicalEnd).getLast?=some logicalSize
  /-- Offsets do not go back. -/
  offsets : (index.map IndexEntry.compressedOffset).Pairwise (· ≤ ·)

/-- A table of blocks that are not empty. -/
structure Divides (logicalSize : ℕ) (index : List IndexEntry) : Prop
    extends Ordered logicalSize index where
  /-- There are not more blocks than a reader accepts. -/
  count : index.length ≤ maxBlockCount
  /-- No chunk is empty. -/
  positive : ∀ entry∈index,0<entry.logicalEnd

section Tables

variable {logicalSize prevLogical prevCompressed : ℕ} {index : List IndexEntry}

theorem validateIndex_eq_ok : validateIndex logicalSize prevLogical prevCompressed index=.ok () ↔
      (index.map IndexEntry.logicalEnd).Pairwise (· < ·) ∧
      (index.map IndexEntry.compressedOffset).Pairwise (· ≤ ·) ∧
      ∀ entry∈index,prevLogical<entry.logicalEnd ∧ entry.logicalEnd≤logicalSize ∧
        prevCompressed≤entry.compressedOffset := by
  induction index generalizing prevLogical prevCompressed with
  | nil => simp [validateIndex]
  | cons first index ih =>
    unfold validateIndex
    by_cases hend : first.logicalEnd≤prevLogical ∨ logicalSize<first.logicalEnd
    · rw [if_pos hend]
      refine iff_of_false (fun h => nomatch h) ?_
      intro h
      have hfirst := h.2.2 first mem_cons_self
      omega
    · rw [if_neg hend]
      by_cases hoffset : first.compressedOffset<prevCompressed
      · rw [if_pos hoffset]
        refine iff_of_false (fun h => nomatch h) ?_
        intro h
        have hfirst := h.2.2 first mem_cons_self
        omega
      · rw [if_neg hoffset,ih]
        simp only [map_cons,pairwise_cons,forall_mem_cons,forall_mem_map]
        constructor
        · rintro ⟨hends,hoffsets,hrest⟩
          refine ⟨⟨fun entry hentry => (hrest entry hentry).1,hends⟩,
            ⟨fun entry hentry => (hrest entry hentry).2.2,hoffsets⟩,by omega,fun entry hentry => ?_⟩
          have hentry := hrest entry hentry
          omega
        · rintro ⟨⟨hgrow,hends⟩,⟨hback,hoffsets⟩,_,hrest⟩
          refine ⟨hends,hoffsets,fun entry hentry => ?_⟩
          exact ⟨hgrow entry hentry,(hrest entry hentry).2.1,hback entry hentry⟩

theorem Ordered.le_last (h : Ordered logicalSize index) {entry : IndexEntry} (hentry : entry∈index) :
    entry.logicalEnd≤logicalSize := by
  obtain ⟨before,hbefore⟩ := List.getLast?_eq_some_iff.mp h.last
  have hends := h.ends
  rw [hbefore] at hends
  have hmem : entry.logicalEnd∈before++[logicalSize] := hbefore ▸ mem_map_of_mem hentry
  rcases mem_append.mp hmem with hmem | hmem
  · exact ((pairwise_append.mp hends).2.2 _ hmem _ (mem_singleton_self _)).le
  · exact (mem_singleton.mp hmem).le

theorem divides_iff (hsome : index≠[]) (hcount : index.length ≤ maxBlockCount) :
    Divides logicalSize index ↔ validateIndex logicalSize 0 0 index=.ok () ∧
      (index.getLast?.map IndexEntry.logicalEnd).getD 0=logicalSize := by
  have hlast : (index.map IndexEntry.logicalEnd).getLast?=some logicalSize ↔
      (index.getLast?.map IndexEntry.logicalEnd).getD 0=logicalSize := by
    rw [List.getLast?_map]
    cases hcase : index.getLast? with
    | none => exact absurd (List.getLast?_eq_none_iff.mp hcase) hsome
    | some entry => simp
  rw [validateIndex_eq_ok,← hlast]
  constructor
  · intro h
    exact ⟨⟨h.ends,h.offsets,fun entry hentry =>
      ⟨h.positive entry hentry,h.le_last hentry,Nat.zero_le _⟩⟩,h.last⟩
  · rintro ⟨⟨hends,hoffsets,hentries⟩,hend⟩
    exact ⟨⟨hends,hend,hoffsets⟩,hcount,fun entry hentry => (hentries entry hentry).1⟩

theorem parseIndex_count {data : Bytes} {fixedLen : ℕ}
    (h : parseIndex data fixedLen logicalSize=.ok index) :
    index.length ≤ maxBlockCount ∧ fixedLen+4≤data.length := by
  unfold parseIndex at h
  split_ifs at h with hshort hmany htable
  have hlength := (checkIndex_covers h).1
  have hread : ∀ count data,(readIndex count data).length=count := by
    intro count
    induction count with
    | zero => exact fun _ => rfl
    | succ count ih => exact fun data => congrArg Nat.succ (ih _)
  rw [hlength,hread]
  omega

end Tables

section Layouts

variable {layout : BlobLayout} {data : Bytes}

theorem fixedHeaderLen_of_info {flags : ℕ} (hlong : fixedHeaderLenV1+4≤data.length)
    (hformat : layout.format=.v1) (hflags : layout.flags=flags)
    (hlevel : layout.zstdLevel=(nosiHeaderInfo data flags).2) :
    fixedHeaderLen layout=(nosiHeaderInfo data flags).1 := by
  unfold fixedHeaderLen
  rw [hformat,hlevel,hflags]
  unfold nosiHeaderInfo
  -- The table needs four bytes behind the short header, so a level that is announced is there.
  have hroom : fixedHeaderLenV1Level≤data.length := by
    unfold fixedHeaderLenV1 at hlong
    unfold fixedHeaderLenV1Level
    omega
  by_cases hflag : flags&&&nosiFlagHasLevel=0
  · simp [hflag]
  · simp [hflag,hroom]

theorem le_nosiHeaderInfo (data : Bytes) (flags : ℕ) :
    fixedHeaderLenV1≤(nosiHeaderInfo data flags).1 := by
  unfold nosiHeaderInfo
  split_ifs
  · exact (show fixedHeaderLenV1≤fixedHeaderLenV1Level by decide)
  · exact le_rfl

theorem headerLen_of_parsed (h : parseLayoutBytes data=.ok layout) :
    layout.index.length ≤ maxBlockCount ∧ headerLen layout=layout.dataOffset := by
  unfold parseLayoutBytes at h
  split at h
  · split_ifs at h
    dsimp only at h
    split at h
    · cases h
    rename_i index hindex
    obtain ⟨hcount,hlong⟩ := parseIndex_count hindex
    cases h
    have hshort := le_nosiHeaderInfo data (fromLe (slice 22 2 data))
    refine ⟨hcount,congrArg (·+index.length*indexEntryLen) ?_⟩
    exact fixedHeaderLen_of_info (by omega) rfl rfl rfl
  · split_ifs at h
    dsimp only at h
    split at h
    · cases h
    rename_i index hindex
    cases h
    exact ⟨(parseIndex_count hindex).1,rfl⟩
  · cases h

/-- Headers of a table that divides its object are read back with all their values, and
a table that is read divides its object, or there are no blocks and no bytes. -/
theorem header_read_back_iff_divides :
    (∀ (logicalSize : UInt64) (blockSize : UInt32) (dictId flags : UInt16) (zstdLevel : UInt8)
        (index : List IndexEntry) (rest : Bytes),index≠[]→Divides logicalSize.toNat index →
      (∀ entry∈index,entry.compressedOffset<2^64) →
      ∃ layout,parseLayoutBytes (writeBlobHeaderV1 logicalSize.toNat blockSize.toNat index
          dictId.toNat flags.toNat zstdLevel.toNat++rest)=.ok layout ∧ layout.format=.v1 ∧
        layout.logicalSize=logicalSize.toNat ∧ layout.blockSize=blockSize.toNat ∧
        layout.dictId=dictId.toNat ∧ layout.flags=flags.toNat|||nosiFlagHasLevel ∧
        layout.zstdLevel=zstdLevel.toNat ∧ layout.index=index ∧
        layout.dataOffset=(writeBlobHeaderV1 logicalSize.toNat blockSize.toNat index dictId.toNat
          flags.toNat zstdLevel.toNat).length) ∧
    ∀ (data : Bytes) (layout : BlobLayout),parseLayoutBytes data=.ok layout →
      (layout.index=[] ∧ layout.logicalSize=0 ∨ layout.index≠[] ∧
        Divides layout.logicalSize layout.index) ∧ headerLen layout=layout.dataOffset := by
  constructor
  · intro logicalSize blockSize dictId flags zstdLevel index rest hsome hdivides hoffsets
    obtain ⟨hvalidated,hcovers⟩ := (divides_iff hsome hdivides.count).mp hdivides
    have hsize := logicalSize.toNat_lt
    have hflags : flags.toNat|||nosiFlagHasLevel<2^16 :=
      Nat.or_lt_two_pow flags.toNat_lt (by decide)
    have hvalid : ValidIndex logicalSize.toNat index := by
      refine ⟨hvalidated,hcovers,fun entry hentry => ?_⟩
      have hlast := hdivides.le_last hentry
      have hoffset := hoffsets entry hentry
      omega
    refine ⟨_,parseLayoutBytes_written ⟨?_,?_,?_,?_,?_⟩ hdivides.count hsome hvalid rest,rfl,rfl,rfl,
      rfl,rfl,rfl,rfl,?_⟩
    · omega
    · exact blockSize.toNat_lt
    · exact dictId.toNat_lt
    · exact hflags
    · exact zstdLevel.toNat_lt
    · rw [writeBlobHeaderV1_eq,length_append,fixedHeader_length,flatMap_writeIndexEntry_length]
      rfl
  · intro data layout hparsed
    obtain ⟨hcount,hheader⟩ := headerLen_of_parsed hparsed
    have hvalid := parseLayoutBytes_valid hparsed
    refine ⟨?_,hheader⟩
    by_cases hsome : layout.index=[]
    · have hcovers := hvalid.covers
      rw [hsome] at hcovers
      exact .inl ⟨hsome,hcovers.symm⟩
    · exact .inr ⟨hsome,(divides_iff hsome hcount).mpr ⟨hvalid.validated,hvalid.covers⟩⟩

/-- A header of two blocks is read back. -/
theorem two_blocks_read_back :
    ∃ layout,parseLayoutBytes (writeBlobHeaderV1 5 4096 [⟨0,3⟩,⟨7,5⟩] 0 1 3++[9])=.ok layout ∧
      layout.index=[⟨0,3⟩,⟨7,5⟩] ∧ headerLen layout=layout.dataOffset := by
  obtain ⟨layout,hparsed,_,_,_,_,_,_,hindex,_⟩ := header_read_back_iff_divides.1 5 4096 0 1 3
    [⟨0,3⟩,⟨7,5⟩] [9] (cons_ne_nil _ _) ⟨⟨by decide,rfl,by decide⟩,by decide,by decide⟩
    (by decide)
  exact ⟨layout,hparsed,hindex,(header_read_back_iff_divides.2 _ layout hparsed).2⟩

/-- A table whose first chunk is empty is refused, although its ends grow up to the
object's size. -/
theorem empty_chunk_refused : Ordered 5 [⟨0,0⟩,⟨0,5⟩] ∧
      parseLayoutBytes (writeBlobHeaderV1 5 4096 [⟨0,0⟩,⟨0,5⟩] 0 0 3)=
        .error "invalid index logical_end" :=
  ⟨⟨by decide,rfl,by decide⟩,rfl⟩

/-- The block of an offset is the one whose chunk holds it, and the chunks make up the
object. -/
theorem blockForOffset_eq_iff (h : parseLayoutBytes data=.ok layout) :
    (∀ offset<layout.logicalSize,∀ block,
      block=layout.blockForOffset offset ↔ block<layout.blockCount ∧
        layout.logicalStart block≤offset ∧
        offset<layout.logicalStart block+layout.logicalLen block) ∧
      ((List.range layout.blockCount).map layout.logicalLen).sum=layout.logicalSize := by
  have hvalid := parseLayoutBytes_valid h
  constructor
  · intro offset hoffset block
    obtain ⟨hfound,hstart,hend⟩ := hvalid.blockForOffset_holds hoffset
    set found := layout.blockForOffset offset with hdef
    constructor
    · rintro rfl
      unfold BlobLayout.logicalLen
      omega
    · rintro ⟨hblock,hfrom,hto⟩
      unfold BlobLayout.logicalLen at hto
      have hgrows := (hvalid.grows hblock).1
      -- Of two blocks the later one begins where or after the earlier one ends.
      have hearlier : ∀ first second,first<second→second<layout.blockCount →
          layout.logicalEnd first≤layout.logicalStart second := by
        intro first second hlt hsecond
        obtain ⟨before,rfl⟩ : ∃ before,second=before+1 := ⟨second-1,by omega⟩
        rw [logicalStart_succ]
        exact hvalid.logicalEnd_mono (by omega) (by omega)
      rcases Nat.lt_trichotomy block found with hlt | heq | hgt
      · have hle := hearlier block found hlt hfound
        omega
      · exact heq
      · have hle := hearlier found block hgt hblock
        omega
  · have hsum : ∀ count≤layout.blockCount,
        ((List.range count).map layout.logicalLen).sum=layout.logicalStart count := by
      intro count hcount
      induction count with
      | zero => exact (logicalStart_zero layout).symm
      | succ count ih =>
        have hgrows := (hvalid.grows (show count<layout.blockCount by omega)).1
        rw [range_succ,map_append,sum_append,ih (by omega),logicalStart_succ]
        simp only [map_cons,map_nil,sum_singleton]
        unfold BlobLayout.logicalLen
        omega
    rw [hsum _ le_rfl,hvalid.logicalStart_blockCount]

/-- The fourth byte is in the second of two blocks. -/
theorem fourth_byte_in_second_block :
    ∃ layout,parseLayoutBytes (writeBlobHeaderV1 5 4096 [⟨0,3⟩,⟨7,5⟩] 0 1 3)=.ok layout ∧
      1=layout.blockForOffset 3 := by
  have hparsed : parseLayoutBytes (writeBlobHeaderV1 5 4096 [⟨0,3⟩,⟨7,5⟩] 0 1 3)=
      .ok (writtenLayout 5 4096 [⟨0,3⟩,⟨7,5⟩] 0 1 3) := rfl
  exact ⟨_,hparsed,((blockForOffset_eq_iff hparsed).1 3 (by decide) 1).mpr (by decide)⟩

end Layouts

end NebularOs.BlockTables
