import Mathlib
import NebularOs.BlobFormats

/-!
# Two ways to read a block table

A block table is read from the start of an open file, without the blocks, or from the
bytes of the whole file. The first takes exactly the header and the entries that the
header counts and hands them to the second. Both accept the same files with the same
result, except for files that announce neither blocks nor bytes and go on behind their
header: there the second wants four more bytes, which the first never hands over.
-/

namespace NebularOs.BlobFormats

open ByteFields List

/-- Number of blocks that the header names. -/
def blockCountField (data : Bytes) : ℕ :=
  fromLe (slice 16 4 data)

/-- Length of the fixed header that a reader takes. -/
def fixedLenOf (data : Bytes) : ℕ :=
  match detectBlobFormat data with
  | .nosi =>
    if fromLe (slice 22 2 data)&&&nosiFlagHasLevel≠0 then fixedHeaderLenV1Level else fixedHeaderLenV1
  | _ => fixedHeaderLen

/-- A container that announces neither blocks nor bytes and goes on behind its header. -/
def announcesNothing (data : Bytes) : Bool :=
  (detectBlobFormat data==.nosi || detectBlobFormat data==.nosb) && blockCountField data==0 &&
    fromLe (slice 4 8 data)==0 && decide (fixedLenOf data+4≤data.length)

section Tables

variable {data : Bytes} {count : ℕ}

theorem readIndex_take (count : ℕ) (data : Bytes) :
    readIndex count (data.take (count*indexEntryLen))=readIndex count data := by
  induction count generalizing data with
  | zero => rfl
  | succ count ih =>
    have hroom : (count+1)*indexEntryLen=indexEntryLen+count*indexEntryLen := by ring
    have hlong : 16≤(count+1)*indexEntryLen := by
      unfold indexEntryLen
      omega
    have hoffset : slice 0 8 (data.take ((count+1)*indexEntryLen))=slice 0 8 data :=
      slice_take (by omega)
    have hend : slice 8 8 (data.take ((count+1)*indexEntryLen))=slice 8 8 data :=
      slice_take (by omega)
    have hrest : (data.take ((count+1)*indexEntryLen)).drop indexEntryLen=
        (data.drop indexEntryLen).take (count*indexEntryLen) := by
      rw [drop_take,hroom,Nat.add_sub_cancel_left]
    unfold readIndex
    rw [hoffset,hend,hrest,ih]

theorem parseIndex_take {fixedLen logicalSize : ℕ} (hfixed : 20≤fixedLen)
    (hcount : blockCountField data=count) (hsome : 0<count)
    (hlong : fixedLen+count*indexEntryLen≤data.length) :
    parseIndex (data.take (fixedLen+count*indexEntryLen)) fixedLen logicalSize=
      parseIndex data fixedLen logicalSize := by
  have hroom : 16 ≤ count*indexEntryLen := by
    unfold indexEntryLen
    omega
  have hlength : (data.take (fixedLen+count*indexEntryLen)).length=
      fixedLen+count*indexEntryLen := by
    rw [length_take]
    omega
  have hfield : slice 16 4 (data.take (fixedLen+count*indexEntryLen))=slice 16 4 data :=
    slice_take (by omega)
  have htable : (data.take (fixedLen+count*indexEntryLen)).drop fixedLen=
      (data.drop fixedLen).take (count*indexEntryLen) := by
    rw [drop_take,Nat.add_sub_cancel_left]
  unfold blockCountField at hcount
  unfold parseIndex
  rw [hlength,hfield,hcount,htable,readIndex_take]
  rw [if_neg (show ¬fixedLen+count*indexEntryLen<fixedLen+4 by omega),
    if_neg (show ¬data.length<fixedLen+4 by omega),
    if_neg (show ¬fixedLen+count*indexEntryLen<fixedLen+count*indexEntryLen by omega),
    if_neg (show ¬data.length<fixedLen+count*indexEntryLen by omega)]

theorem parseIndex_empty {fixedLen logicalSize : ℕ} (hcount : blockCountField data=0) :
    parseIndex data fixedLen logicalSize=
      if data.length<fixedLen+4 then .error "block index truncated"
      else if logicalSize≠0 then .error "empty index for non-empty object" else .ok [] := by
  unfold blockCountField at hcount
  unfold parseIndex
  rw [hcount]
  by_cases hshort : data.length<fixedLen+4
  · rw [if_pos hshort,if_pos hshort]
  · rw [if_neg hshort,if_neg hshort,if_neg (Nat.not_lt_zero _),
      if_neg (show ¬data.length<fixedLen+0*indexEntryLen by omega)]
    rfl

theorem parseIndex_refuses {fixedLen logicalSize : ℕ} (h : maxBlockCount<blockCountField data ∨
      data.length<fixedLen+blockCountField data*indexEntryLen) :
    ∃ e,parseIndex data fixedLen logicalSize=.error e := by
  unfold parseIndex
  by_cases hshort : data.length<fixedLen+4
  · exact ⟨_,if_pos hshort⟩
  · rw [if_neg hshort]
    by_cases hmany : maxBlockCount<fromLe (slice 16 4 data)
    · exact ⟨_,if_pos hmany⟩
    · rw [if_neg hmany]
      exact ⟨_,if_pos (h.resolve_left hmany)⟩

end Tables

/-- The layout of a container with a given table. -/
def layoutWith (data : Bytes) (index : List IndexEntry) : BlobLayout :=
  match detectBlobFormat data with
  | .nosi => ⟨.v1,fromLe (slice 4 8 data),fromLe (slice 12 4 data),fromLe (slice 20 2 data),
      fromLe (slice 22 2 data),
      if fromLe (slice 22 2 data)&&&nosiFlagHasLevel≠0 then fromLe (slice 24 1 data) else 0,
      index,fixedLenOf data+index.length*indexEntryLen⟩
  | _ => ⟨.v0,fromLe (slice 4 8 data),fromLe (slice 12 4 data),0,0,0,index,
      fixedLenOf data+index.length*indexEntryLen⟩

/-- Bytes that begin like a container. -/
def Container (data : Bytes) : Prop :=
  detectBlobFormat data=.nosi ∨ detectBlobFormat data=.nosb

section Parsing

variable {data : Bytes}

theorem fixedLenOf_cases (data : Bytes) : fixedLenOf data=fixedHeaderLen ∨
    fixedLenOf data=fixedHeaderLenV1 ∨ fixedLenOf data=fixedHeaderLenV1Level := by
  unfold fixedLenOf
  split
  · split
    · exact Or.inr (Or.inr rfl)
    · exact Or.inr (Or.inl rfl)
  · exact Or.inl rfl

theorem fixedLenOf_bounds (data : Bytes) : 20≤fixedLenOf data ∧ fixedLenOf data≤25 := by
  rcases fixedLenOf_cases data with h | h | h <;> rw [h] <;> decide

theorem fixedLenOf_take {count : ℕ} (hcount : fixedLenOf data ≤ count) :
    fixedLenOf (data.take count)=fixedLenOf data := by
  have hbound := (fixedLenOf_bounds data).1
  have hdetect : detectBlobFormat (data.take count)=detectBlobFormat data :=
    detectBlobFormat_take (by omega)
  by_cases hformat : detectBlobFormat data=.nosi
  · have hleast : 24≤fixedLenOf data := by
      unfold fixedLenOf
      rw [hformat]
      dsimp only
      split <;> decide
    have hflags : slice 22 2 (data.take count)=slice 22 2 data := slice_take (by omega)
    unfold fixedLenOf
    rw [hdetect,hflags]
  · unfold fixedLenOf
    rw [hdetect]
    split
    · contradiction
    · rfl

/-- A container whose header is there is parsed as far as its table. -/
theorem parseLayoutBytes_eq (hcontainer : Container data) (hlong : fixedLenOf data≤data.length) :
    parseLayoutBytes data=
      (parseIndex data (fixedLenOf data) (fromLe (slice 4 8 data))).map (layoutWith data) := by
  rcases hcontainer with hformat | hformat
  · unfold parseLayoutBytes
    rw [hformat]
    have hinfo : nosiHeaderInfo data (fromLe (slice 22 2 data))=(fixedLenOf data,
        if fromLe (slice 22 2 data)&&&nosiFlagHasLevel≠0 then fromLe (slice 24 1 data) else 0) := by
      unfold fixedLenOf at hlong ⊢
      rw [hformat] at hlong ⊢
      dsimp only at hlong ⊢
      unfold nosiHeaderInfo
      by_cases hlevel : fromLe (slice 22 2 data)&&&nosiFlagHasLevel≠0
      · rw [if_pos hlevel] at hlong
        rw [if_pos ⟨hlevel,hlong⟩,if_pos hlevel,if_pos hlevel]
      · rw [if_neg (fun h => hlevel h.1),if_neg hlevel,if_neg hlevel]
    have hheader : ¬data.length<fixedHeaderLenV1 := by
      have hleast : fixedHeaderLenV1≤fixedLenOf data := by
        unfold fixedLenOf
        rw [hformat]
        dsimp only
        split <;> decide
      omega
    dsimp only
    rw [if_neg hheader,hinfo]
    dsimp only
    cases parseIndex data (fixedLenOf data) (fromLe (slice 4 8 data)) with
    | error e => rfl
    | ok index =>
      refine congrArg Except.ok ?_
      unfold layoutWith
      rw [hformat]
  · have hfixed : fixedLenOf data=fixedHeaderLen := by
      unfold fixedLenOf
      rw [hformat]
    unfold parseLayoutBytes
    rw [hformat]
    dsimp only
    rw [if_neg (by omega),hfixed]
    cases parseIndex data fixedHeaderLen (fromLe (slice 4 8 data)) with
    | error e => rfl
    | ok index =>
      refine congrArg Except.ok ?_
      unfold layoutWith
      rw [hformat,hfixed]

/-- A container whose header is cut off is refused. -/
theorem parseLayoutBytes_short (hcontainer : Container data)
    (hshort : data.length<fixedLenOf data) : ∃ e,parseLayoutBytes data=.error e := by
  unfold parseLayoutBytes
  rcases hcontainer with hformat | hformat
  · rw [hformat]
    dsimp only
    by_cases hheader : data.length<fixedHeaderLenV1
    · exact ⟨_,if_pos hheader⟩
    -- only the level is missing, and then the table is
    have htable : ∀ logicalSize,∃ e,parseIndex data fixedHeaderLenV1 logicalSize=.error e := by
      intro logicalSize
      refine ⟨_,if_pos ?_⟩
      have hbound := (fixedLenOf_bounds data).2
      unfold fixedHeaderLenV1
      omega
    have hinfo : nosiHeaderInfo data (fromLe (slice 22 2 data))=(fixedHeaderLenV1,0) := by
      refine if_neg fun h => ?_
      have hbound := (fixedLenOf_bounds data).2
      have hlevel : fixedHeaderLenV1Level=25 := rfl
      omega
    obtain ⟨e,he⟩ := htable (fromLe (slice 4 8 data))
    rw [if_neg hheader,hinfo]
    dsimp only
    rw [he]
    exact ⟨e,rfl⟩
  · have hfixed : fixedLenOf data=fixedHeaderLen := by
      unfold fixedLenOf
      rw [hformat]
    rw [hformat]
    rw [hfixed] at hshort
    exact ⟨_,if_pos hshort⟩

theorem layoutWith_take {count : ℕ} (hcount : 25 ≤ count) (index : List IndexEntry) :
    layoutWith (data.take count) index=layoutWith data index := by
  have hfields : ∀ start length : ℕ,start+length≤25 →
      slice start length (data.take count)=slice start length data := by
    intro start length hwithin
    exact slice_take (by omega)
  have hbound := (fixedLenOf_bounds data).2
  have hfixed : fixedLenOf (data.take count)=fixedLenOf data := fixedLenOf_take (by omega)
  unfold layoutWith
  rw [detectBlobFormat_take (by omega),hfixed,hfields 4 8 (by decide),hfields 12 4 (by decide),
    hfields 20 2 (by decide),hfields 22 2 (by decide),hfields 24 1 (by decide)]

end Parsing

section Reading

variable {data : Bytes}

theorem readExact_of_le {count : ℕ} (h : count≤data.length) :
    readExact count data=.ok (data.take count,data.drop count) :=
  if_neg (by omega)

theorem readExact_of_lt {count : ℕ} (h : data.length<count) : ∃ e,readExact count data=.error e :=
  ⟨_,if_pos h⟩

/-- A reader takes the fixed header of a container, and then its table. -/
theorem readBlobLayout_eq (hcontainer : Container data) (hlong : fixedLenOf data≤data.length) :
    readBlobLayout data=
      readLayoutBehind (data.take (fixedLenOf data)) (data.drop (fixedLenOf data)) := by
  have hbound := (fixedLenOf_bounds data).1
  have hfirst : readExact fixedHeaderLen data=.ok (data.take 20,data.drop 20) :=
    readExact_of_le (show 20≤data.length by omega)
  unfold readBlobLayout
  rw [hfirst]
  dsimp only
  rw [detectBlobFormat_take (by decide)]
  rcases hcontainer with hformat | hformat
  · have hlength : fixedHeaderLenV1≤data.length := by
      unfold fixedLenOf at hlong
      rw [hformat] at hlong
      dsimp only at hlong
      split at hlong
      · exact le_trans (by decide) hlong
      · exact hlong
    have htwentyFour : 24≤data.length := hlength
    have hsecond : readExact (fixedHeaderLenV1-fixedHeaderLen) (data.drop 20)=
        .ok ((data.drop 20).take 4,data.drop 24) := by
      have hread : readExact 4 (data.drop 20)=.ok ((data.drop 20).take 4,(data.drop 20).drop 4) :=
        readExact_of_le (by rw [length_drop]; omega)
      rwa [drop_drop] at hread
    have hheader : data.take 20++(data.drop 20).take 4=data.take 24 :=
      (take_add (i := 20) (j := 4)).symm
    have hflags : slice 22 2 (data.take 24)=slice 22 2 data := slice_take (by decide)
    rw [hformat]
    dsimp only
    rw [hsecond]
    dsimp only
    rw [hheader,hflags]
    unfold fixedLenOf at hlong ⊢
    rw [hformat] at hlong ⊢
    dsimp only at hlong ⊢
    by_cases hlevel : fromLe (slice 22 2 data)&&&nosiFlagHasLevel≠0
    · rw [if_pos hlevel] at hlong
      have htwentyFive : 25≤data.length := hlong
      have hthird : readExact (fixedHeaderLenV1Level-fixedHeaderLenV1) (data.drop 24)=
          .ok ((data.drop 24).take 1,data.drop 25) := by
        have hread : readExact 1 (data.drop 24)=.ok ((data.drop 24).take 1,(data.drop 24).drop 1) :=
          readExact_of_le (by rw [length_drop]; omega)
        rwa [drop_drop] at hread
      have hwhole : data.take 24++(data.drop 24).take 1=data.take 25 :=
        (take_add (i := 24) (j := 1)).symm
      rw [if_pos hlevel,if_pos hlevel,hthird]
      dsimp only
      rw [hwhole]
      rfl
    · rw [if_neg hlevel,if_neg hlevel]
      rfl
  · have hfixed : fixedLenOf data=20 := by
      unfold fixedLenOf
      rw [hformat]
      rfl
    rw [hformat,hfixed]

/-- A reader refuses a container whose header is cut off. -/
theorem readBlobLayout_short (hcontainer : Container data) (hshort : data.length<fixedLenOf data) :
    ∃ e,readBlobLayout data=.error e := by
  have hbound := (fixedLenOf_bounds data).2
  unfold readBlobLayout
  by_cases hfirst : data.length<fixedHeaderLen
  · obtain ⟨e,he⟩ := readExact_of_lt hfirst
    rw [he]
    exact ⟨e,rfl⟩
  have htwenty : 20≤data.length := not_lt.mp hfirst
  have hread : readExact fixedHeaderLen data=.ok (data.take 20,data.drop 20) :=
    readExact_of_le htwenty
  rw [hread]
  dsimp only
  rw [detectBlobFormat_take (by decide)]
  rcases hcontainer with hformat | hformat
  · rw [hformat]
    by_cases hsecond : (data.drop 20).length<fixedHeaderLenV1-fixedHeaderLen
    · obtain ⟨e,he⟩ := readExact_of_lt hsecond
      rw [he]
      exact ⟨e,rfl⟩
    have hmore : readExact (fixedHeaderLenV1-fixedHeaderLen) (data.drop 20)=
        .ok ((data.drop 20).take 4,data.drop 24) := by
      have hfour := readExact_of_le (not_lt.mp hsecond)
      rwa [show fixedHeaderLenV1-fixedHeaderLen=4 from rfl,drop_drop] at hfour
    have hheader : data.take 20++(data.drop 20).take 4=data.take 24 :=
      (take_add (i := 20) (j := 4)).symm
    have hflags : slice 22 2 (data.take 24)=slice 22 2 data := slice_take (by decide)
    have htwentyFour : 24≤data.length := by
      rw [length_drop] at hsecond
      unfold fixedHeaderLenV1 fixedHeaderLen at hsecond
      omega
    -- what is missing is the level
    have hlevel : fromLe (slice 22 2 data)&&&nosiFlagHasLevel≠0 := by
      by_contra hnone
      unfold fixedLenOf at hshort
      rw [hformat] at hshort
      dsimp only at hshort
      rw [if_neg (not_not.mpr hnone)] at hshort
      unfold fixedHeaderLenV1 at hshort
      omega
    obtain ⟨e,he⟩ : ∃ e,readExact (fixedHeaderLenV1Level-fixedHeaderLenV1) (data.drop 24)=.error e :=
      readExact_of_lt (by
        rw [length_drop]
        unfold fixedHeaderLenV1Level fixedHeaderLenV1
        omega)
    rw [hmore]
    dsimp only
    rw [hheader,hflags,if_pos hlevel,he]
    exact ⟨e,rfl⟩
  · have hfixed : fixedLenOf data=20 := by
      unfold fixedLenOf
      rw [hformat]
      rfl
    omega

theorem layouts_of_other (hother : ¬Container data) :
    (∃ e,parseLayoutBytes data=.error e) ∧ ∃ e,readBlobLayout data=.error e := by
  have hnosi : detectBlobFormat data≠.nosi := fun h => hother (Or.inl h)
  have hnosb : detectBlobFormat data≠.nosb := fun h => hother (Or.inr h)
  constructor
  · unfold parseLayoutBytes
    split
    · contradiction
    · contradiction
    · exact ⟨_,rfl⟩
  · unfold readBlobLayout
    by_cases hshort : data.length<fixedHeaderLen
    · obtain ⟨e,he⟩ := readExact_of_lt hshort
      rw [he]
      exact ⟨e,rfl⟩
    have hread : readExact fixedHeaderLen data=.ok (data.take 20,data.drop 20) :=
      readExact_of_le (not_lt.mp hshort)
    rw [hread]
    dsimp only
    rw [detectBlobFormat_take (by decide)]
    split
    · contradiction
    · contradiction
    · exact ⟨_,rfl⟩

end Reading

section Agreement

variable {data : Bytes}

theorem parseLayoutBytes_take (hcontainer : Container data) (hsome : 0<blockCountField data)
    (hlong : fixedLenOf data+blockCountField data*indexEntryLen≤data.length) :
    parseLayoutBytes (data.take (fixedLenOf data+blockCountField data*indexEntryLen))=
      parseLayoutBytes data := by
  have hbound := fixedLenOf_bounds data
  have hroom : 16≤blockCountField data*indexEntryLen := by
    unfold indexEntryLen
    omega
  set count := fixedLenOf data+blockCountField data*indexEntryLen with hcount
  have hlength : (data.take count).length=count := by
    rw [length_take]
    omega
  have htaken : Container (data.take count) := by
    unfold Container
    rwa [detectBlobFormat_take (by omega)]
  have hfixed : fixedLenOf (data.take count)=fixedLenOf data := fixedLenOf_take (by omega)
  have hlayout : layoutWith (data.take count)=layoutWith data :=
    funext fun index => layoutWith_take (by omega) index
  have hsize : slice 4 8 (data.take count)=slice 4 8 data := slice_take (by omega)
  have htable : ∀ logicalSize,parseIndex (data.take count) (fixedLenOf data) logicalSize=
      parseIndex data (fixedLenOf data) logicalSize := fun logicalSize =>
    parseIndex_take hbound.1 rfl hsome hlong
  rw [parseLayoutBytes_eq htaken (by omega),parseLayoutBytes_eq hcontainer (by omega),hfixed,
    hlayout,hsize,htable]

theorem readBlobLayout_cases (hcontainer : Container data) (hlong : fixedLenOf data≤data.length) :
    readBlobLayout data=
      if maxBlockCount<blockCountField data then .error "block count exceeds limit"
      else if data.length<fixedLenOf data+blockCountField data*indexEntryLen then
        .error "failed to fill whole buffer"
      else parseLayoutBytes (data.take (fixedLenOf data+blockCountField data*indexEntryLen)) := by
  have hbound := fixedLenOf_bounds data
  have hcount : slice 16 4 (data.take (fixedLenOf data))=slice 16 4 data := slice_take (by omega)
  rw [readBlobLayout_eq hcontainer hlong]
  unfold readLayoutBehind readExact
  rw [hcount]
  rw [length_drop]
  by_cases hmany : maxBlockCount<blockCountField data
  · rw [if_pos hmany,if_pos (show maxBlockCount<fromLe (slice 16 4 data) from hmany)]
  rw [if_neg hmany,if_neg (show ¬maxBlockCount<fromLe (slice 16 4 data) from hmany)]
  by_cases hshort : data.length<fixedLenOf data+blockCountField data*indexEntryLen
  · rw [if_pos hshort,if_pos (show data.length-fixedLenOf data <
      fromLe (slice 16 4 data)*indexEntryLen by unfold blockCountField at hshort; omega)]
  · rw [if_neg hshort,if_neg (show ¬data.length-fixedLenOf data <
      fromLe (slice 16 4 data)*indexEntryLen by unfold blockCountField at hshort; omega)]
    rw [take_add]
    rfl

/-- Where there are blocks, both readings are the same. -/
theorem readBlobLayout_of_blocks (hsome : 0<blockCountField data) :
    (readBlobLayout data).toOption=(parseLayoutBytes data).toOption := by
  by_cases hcontainer : Container data
  · by_cases hlong : fixedLenOf data≤data.length
    · rw [readBlobLayout_cases hcontainer hlong]
      have hrefused : maxBlockCount<blockCountField data ∨
          data.length<fixedLenOf data+blockCountField data*indexEntryLen →
          (parseLayoutBytes data).toOption=none := by
        intro h
        obtain ⟨e,he⟩ := @parseIndex_refuses data (fixedLenOf data) (fromLe (slice 4 8 data)) h
        rw [parseLayoutBytes_eq hcontainer hlong,he]
        rfl
      split
      · rename_i hmany
        rw [hrefused (Or.inl hmany)]
        rfl
      · split
        · rename_i hshort
          rw [hrefused (Or.inr hshort)]
          rfl
        · rename_i hshort
          rw [parseLayoutBytes_take hcontainer hsome (not_lt.mp hshort)]
    · obtain ⟨e,he⟩ := readBlobLayout_short hcontainer (not_le.mp hlong)
      obtain ⟨e',he'⟩ := parseLayoutBytes_short hcontainer (not_le.mp hlong)
      rw [he,he']
      rfl
  · obtain ⟨⟨e,he⟩,e',he'⟩ := layouts_of_other hcontainer
    rw [he,he']
    rfl

theorem readBlobLayout_empty (hnone : blockCountField data=0) :
    ∃ e,readBlobLayout data=.error e := by
  by_cases hcontainer : Container data
  · by_cases hlong : fixedLenOf data≤data.length
    · have hbound := fixedLenOf_bounds data
      rw [readBlobLayout_cases hcontainer hlong,hnone,if_neg (Nat.not_lt_zero _),
        if_neg (by omega),Nat.zero_mul,Nat.add_zero]
      set header := data.take (fixedLenOf data) with hheader
      have hlength : header.length=fixedLenOf data := by
        rw [hheader,length_take]
        omega
      have hformat : Container header := by
        unfold Container
        rwa [hheader,detectBlobFormat_take (by omega)]
      have hcount : blockCountField header=0 := by
        unfold blockCountField at hnone ⊢
        rwa [hheader,slice_take (by omega)]
      have hfixed : fixedLenOf header=fixedLenOf data := fixedLenOf_take le_rfl
      rw [parseLayoutBytes_eq hformat (by omega),parseIndex_empty hcount,if_pos (by omega)]
      exact ⟨_,rfl⟩
    · exact readBlobLayout_short hcontainer (not_le.mp hlong)
  · exact (layouts_of_other hcontainer).2

theorem parseLayoutBytes_of_read {layout : BlobLayout} (h : readBlobLayout data=.ok layout) :
    parseLayoutBytes data=.ok layout := by
  rcases Nat.eq_zero_or_pos (blockCountField data) with hnone | hsome
  · obtain ⟨e,he⟩ := readBlobLayout_empty hnone
    rw [he] at h
    cases h
  have hsame := readBlobLayout_of_blocks hsome
  rw [h] at hsame
  cases hparse : parseLayoutBytes data with
  | error e =>
    rw [hparse] at hsame
    cases hsame
  | ok parsed =>
    rw [hparse] at hsame
    rw [Option.some.inj hsame]

theorem parseLayoutBytes_empty_iff (hnone : blockCountField data=0) :
    (∃ layout,parseLayoutBytes data=.ok layout) ↔ announcesNothing data=true := by
  have hannounces : announcesNothing data=true ↔
      Container data ∧ fromLe (slice 4 8 data)=0 ∧ fixedLenOf data+4≤data.length := by
    unfold announcesNothing Container
    simp only [Bool.and_eq_true,Bool.or_eq_true,beq_iff_eq,decide_eq_true_eq,hnone,and_true,
      and_assoc]
  rw [hannounces]
  by_cases hcontainer : Container data
  · by_cases hlong : fixedLenOf data≤data.length
    · rw [parseLayoutBytes_eq hcontainer hlong,parseIndex_empty hnone]
      by_cases hshort : data.length<fixedLenOf data+4
      · rw [if_pos hshort]
        exact ⟨fun ⟨layout,h⟩ => (nomatch h),fun h => absurd h.2.2 (by omega)⟩
      rw [if_neg hshort]
      by_cases hsize : fromLe (slice 4 8 data)=0
      · rw [if_neg (not_not.mpr hsize)]
        exact ⟨fun _ => ⟨hcontainer,hsize,by omega⟩,fun _ => ⟨_,rfl⟩⟩
      · rw [if_pos hsize]
        exact ⟨fun ⟨layout,h⟩ => (nomatch h),fun h => absurd h.2.1 hsize⟩
    · obtain ⟨e,he⟩ := parseLayoutBytes_short hcontainer (not_le.mp hlong)
      rw [he]
      exact ⟨fun ⟨layout,h⟩ => (nomatch h),fun h => absurd h.2.2 (by omega)⟩
  · obtain ⟨e,he⟩ := (layouts_of_other hcontainer).1
    rw [he]
    exact ⟨fun ⟨layout,h⟩ => (nomatch h),fun h => absurd h.1 hcontainer⟩

/-- Reading the header of a file and parsing all of its bytes both fail or give the same
layout, unless the file announces neither blocks nor bytes and goes on behind its
header. -/
theorem layouts_agree_iff (data : Bytes) :
    (readBlobLayout data).toOption=(parseLayoutBytes data).toOption ↔
      announcesNothing data=false := by
  rcases Nat.eq_zero_or_pos (blockCountField data) with hnone | hsome
  · obtain ⟨e,he⟩ := readBlobLayout_empty hnone
    have hempty := parseLayoutBytes_empty_iff hnone
    rw [he,← Bool.not_eq_true,← hempty]
    cases hparse : parseLayoutBytes data with
    | error e' => exact ⟨fun _ ⟨layout,h⟩ => (nomatch h),fun _ => rfl⟩
    | ok layout => exact ⟨fun h => (nomatch h),fun h => absurd ⟨layout,rfl⟩ h⟩
  · refine ⟨fun _ => ?_,fun _ => readBlobLayout_of_blocks hsome⟩
    unfold announcesNothing
    have hcount : (blockCountField data==0)=false := beq_false_of_ne (by omega)
    rw [hcount]
    simp

/-- Twenty bytes of a header that announces nothing, and four more. -/
def emptyContainer : Bytes :=
  nosbMagic++List.replicate 20 0

/-- Parsed as a whole it is an empty container, but a reader of the file refuses it. -/
theorem emptyContainer_refused : (∃ layout,parseLayoutBytes emptyContainer=.ok layout) ∧
      ∃ e,readBlobLayout emptyContainer=.error e := by
  exact ⟨⟨⟨.v0,0,0,0,0,0,[],20⟩,by decide⟩,readBlobLayout_empty (by decide)⟩

end Agreement

end NebularOs.BlobFormats
