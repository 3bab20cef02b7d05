import Mathlib
import NebularOs.IndexedReading
import NebularOs.RawStreams

/-!
# Streaming ranges of stored blobs

A body is streamed by one of five readers, which the first bytes of the file decide
between: raw files are read from an offset on, manifests and containers from the
block that holds the first byte, and single frames are decoded from the beginning,
with what precedes the range dropped. Each gives for a range the part of what it
gives for the whole object.
-/

namespace NebularOs.BodyStreams

open ByteFields EngineState BlobFormats SharedBlocks ChunkSources BlobDecoding IndexedReading
  RawStreams List

/-- Entries of a manifest. -/
def readEntries : ℕ→Bytes → List BlockRef
  | 0,_ => []
  | count+1,data =>
    (UInt64.ofNat (fromLe (slice 0 8 data)),fromLe (slice 8 4 data))::
      readEntries count (data.drop dedupEntryLen)

/-- The blocks that a manifest names, in order. -/
def parseDedupManifest (data : Bytes) (expectedLogical : ℕ) : Except String (List BlockRef) :=
  if detectBlobFormat data≠.nosd then .error "not a dedup manifest"
  else
    let logical := fromLe (slice 4 8 data)
    if logical≠expectedLogical then .error "dedup manifest logical size mismatch"
    else
      let count := fromLe (slice 12 4 data)
      if data.length≠count*dedupEntryLen+dedupHeaderLen then
        .error "dedup manifest length mismatch"
      else
        let entries := readEntries count (data.drop dedupHeaderLen)
        if (entries.map Prod.snd).sum≠logical then .error "dedup manifest sizes do not add up"
        else .ok entries

/-- A reader of a manifest. -/
structure DedupBlobReader where
  /-- Blocks that are left. -/
  blocks : List BlockRef
  /-- Bytes to skip in the next block. -/
  skip : ℕ
  /-- Bytes that are left to give. -/
  remaining : ℕ

/-- The blocks from the one that holds an offset on, and where it begins. -/
def seekBlock (rangeStart : ℕ) : ℕ → List BlockRef→ℕ×List BlockRef
  | offset,[] => (offset,[])
  | offset,(name,size)::blocks =>
    if rangeStart<offset+size then (offset,(name,size)::blocks)
    else seekBlock rangeStart (offset+size) blocks

/-- A reader of some bytes of a manifest's object. -/
def DedupBlobReader.fromFile (file : Bytes) (logicalSize rangeStart length : ℕ) :
    Except String DedupBlobReader :=
  match parseDedupManifest file logicalSize with
  | .error e => .error e
  | .ok blocks =>
    let (offset,blocks) := seekBlock rangeStart 0 blocks
    .ok ⟨blocks,rangeStart-offset,length⟩

/-- The next block of a manifest's object. -/
def dedupChunk (env : ReadEnv) : Source DedupBlobReader UInt8
  | reader =>
    if reader.remaining=0 then (.ok none,reader)
    else match reader.blocks with
      | [] => (.error "dedup manifest ends before the requested range",reader)
      | (name,size)::blocks =>
        match readLogicalBlock env.zstd env.hash (env.blocks.getD ∅) name size with
        | .error e => (.error e,{ reader with blocks := blocks })
        | .ok block =>
          let start := min reader.skip block.length
          let take := min (block.length-start) reader.remaining
          (.ok (some (slice start take block)),⟨blocks,0,reader.remaining-take⟩)

/-- A reader of a blob that is one frame. -/
structure ZstdBlobReader where
  /-- What the decoder still puts out. -/
  out : Bytes
  /-- Whether it then ends without an error. -/
  ended : Bool
  /-- Bytes of the object that are left. -/
  remaining : ℕ
  /-- Reads so far. -/
  reads : ℕ

/-- A reader of a frame from its beginning. -/
def ZstdBlobReader.fromFile (env : ReadEnv) (file : Bytes) (logicalSize : ℕ) (format : BlobFormat) :
    Except String ZstdBlobReader :=
  match readBlobLogicalSize file with
  | .error e => .error e
  | .ok stored =>
    if stored≠logicalSize then .error "blob header size mismatch"
    else
      let behind (headerLen : ℕ) : Except String ZstdBlobReader :=
        let frame := file.drop headerLen
        match dictionaryForFrame env (frame.take 18) with
        | .error e => .error e
        | .ok dict =>
          let (out,ended) := env.zstd.decode (dict.getD []) frame
          .ok ⟨out,ended,logicalSize,0⟩
      match format with
      | .nosz => behind headerLen
      | .nos2 => behind headerLenV2
      | _ => .error "not a zstd blob"

/-- The next bytes of a frame, at most 256 KiB. -/
def zstdChunk (pace : Pace) : Source ZstdBlobReader UInt8
  | reader =>
    let n := bounded (pace.decoderReads reader.reads) (min (256*1024) reader.out.length)
    let chunk := reader.out.take n
    let next := { reader with out := reader.out.drop n, reads := reader.reads+1 }
    if chunk.isEmpty then
      if !reader.ended then (.error "incomplete frame",next)
      else if reader.remaining=0 then (.ok none,next)
      else (.error "zstd stream ended before the object's size",next)
    else if reader.remaining<chunk.length then (.error "zstd stream is longer than the object",next)
    else (.ok (some chunk),{ next with remaining := reader.remaining-chunk.length })

/-- Some bytes of a source, after others that are dropped. -/
structure RangeOf (σ : Type) where
  /-- The source. -/
  inner : σ
  /-- Bytes that are left to drop. -/
  skip : ℕ
  /-- Bytes that are left to give. -/
  remaining : ℕ

/-- Chunks of the source, up to one that goes beyond the bytes to drop. Every chunk of
the source has a byte, so as many rounds as bytes to drop and one more are enough. -/
def rangeChunkFrom {σ : Type} (read : Source σ UInt8) :
    ℕ→RangeOf σ→Except String (Option Bytes)×RangeOf σ
  | 0,range => (.error "stream ended before the requested range",range)
  | fuel+1,range =>
    match read range.inner with
    | (.error e,inner) => (.error e,{ range with inner := inner })
    | (.ok none,inner) =>
      (.error "stream ended before the requested range",{ range with inner := inner })
    | (.ok (some chunk),inner) =>
      if chunk.length ≤ range.skip then
        rangeChunkFrom read fuel { range with inner := inner, skip := range.skip-chunk.length }
      else
        let tail := (chunk.drop range.skip).take range.remaining
        (.ok (some tail),⟨inner,0,range.remaining-tail.length⟩)

/-- The next chunk of a range. -/
def rangeChunk {σ : Type} (read : Source σ UInt8) : Source (RangeOf σ) UInt8
  | range =>
    if range.remaining=0 then (.ok none,range) else rangeChunkFrom read (range.skip+1) range

section Manifests

variable {env : ReadEnv} {blocks : List BlockRef} {total rangeStart length : ℕ} {whole : Bytes}

/-- Bytes of the first blocks of a manifest, as many as it takes for some length. -/
def serve (env : ReadEnv) : List BlockRef→ℕ→Option Bytes
  | _,0 => some []
  | [],_+1 => none
  | (name,size)::blocks,total+1 =>
    match readLogicalBlock env.zstd env.hash (env.blocks.getD ∅) name size with
    | .error _ => none
    | .ok block => (serve env blocks (total+1-block.length)).map (block.take (total+1)++·)

theorem readLogicalBlock_length {zstd : Zstd} {hash : Bytes→BlockHash} {files : BlockFiles}
    {name : BlockHash} {size : ℕ} {block : Bytes}
    (h : readLogicalBlock zstd hash files name size=.ok block) : block.length=size := by
  unfold readLogicalBlock at h
  split at h
  · cases h
  split at h
  · cases h
  split at h
  · cases h
  rename_i hlength
  split at h
  · cases h
  cases h
  exact not_not.mp hlength

theorem serve_cons {name : BlockHash} {size : ℕ} (hpositive : 0<total)
    (h : serve env ((name,size)::blocks) total=some whole) :
    ∃ block rest,readLogicalBlock env.zstd env.hash (env.blocks.getD ∅) name size=.ok block ∧
      block.length=size ∧ serve env blocks (total-size)=some rest ∧
      whole=block.take total++rest := by
  obtain ⟨less,rfl⟩ : ∃ less,total=less+1 := Nat.exists_eq_succ_of_ne_zero (by omega)
  unfold serve at h
  split at h
  · cases h
  rename_i block hread
  obtain ⟨rest,hrest,rfl⟩ := Option.map_eq_some_iff.mp h
  have hlength := readLogicalBlock_length hread
  exact ⟨block,rest,hread,hlength,hlength ▸ hrest,rfl⟩

/-- A whole read that ends without an error was served. -/
theorem serve_of_yields {reader last : DedupBlobReader} (hskip : reader.skip=0)
    (h : Yields (dedupChunk env) reader whole last) :
    serve env reader.blocks reader.remaining=some whole := by
  refine Yields.induct (motive := fun reader whole _ => reader.skip=0 →
    serve env reader.blocks reader.remaining=some whole) ?_ ?_ h hskip
  · rintro ⟨blocks,skip,remaining⟩ last hread _
    unfold dedupChunk at hread
    dsimp only at hread ⊢
    split at hread
    · rename_i hdone
      rw [hdone]
      cases blocks <;> rfl
    · split at hread
      · cases hread
      split at hread
      · cases hread
      · cases hread
  · rintro ⟨blocks,skip,remaining⟩ chunk next rest last hread _ ih hskip
    subst hskip
    unfold dedupChunk at hread
    dsimp only at hread ⊢
    split at hread
    · cases hread
    rename_i hmore
    split at hread
    · cases hread
    rename_i name size blocks
    split at hread
    · cases hread
    rename_i block hblock
    obtain ⟨hchunk,rfl⟩ := Prod.mk.inj hread
    cases hchunk
    obtain ⟨less,rfl⟩ : ∃ less,remaining=less+1 := Nat.exists_eq_succ_of_ne_zero hmore
    have hrest := ih rfl
    rw [show less+1-min (block.length-min 0 block.length) (less+1)=less+1-block.length by
      omega] at hrest
    have hfirst : slice (min 0 block.length)
        (min (block.length-min 0 block.length) (less+1)) block=block.take (less+1) := by
      rw [Nat.zero_min,Nat.sub_zero,Nat.min_comm]
      exact take_eq_take_min.symm
    unfold serve
    rw [hblock]
    dsimp only
    rw [hrest,hfirst]
    rfl

theorem dedupChunk_done (env : ReadEnv) (blocks : List BlockRef) (skip : ℕ) :
    dedupChunk env ⟨blocks,skip,0⟩=(.ok none,⟨blocks,skip,0⟩) := rfl

/-- A reader at the beginning of blocks that can be served gives their first bytes. -/
theorem yields_of_serve (hserve : serve env blocks total=some whole) (hlength : length≤total) :
    ∃ last,Yields (dedupChunk env) ⟨blocks,0,length⟩ (whole.take length) last := by
  induction blocks generalizing total whole length with
  | nil =>
    obtain rfl : length=0 := by
      cases total with
      | zero => omega
      | succ total => cases hserve
    exact ⟨_,yields_stop (dedupChunk_done _ _ _)⟩
  | cons first blocks ih =>
    obtain ⟨name,size⟩ := first
    by_cases hdone : length=0
    · subst hdone
      exact ⟨_,yields_stop (dedupChunk_done _ _ _)⟩
    obtain ⟨block,rest,hread,hsize,hrest,rfl⟩ := serve_cons (by omega) hserve
    obtain ⟨last,hyields⟩ := @ih (total-size) (length-size) rest hrest (by omega)
    have hnext : dedupChunk env ⟨(name,size)::blocks,0,length⟩=
        (.ok (some (block.take length)),⟨blocks,0,length-size⟩) := by
      unfold dedupChunk
      dsimp only
      rw [if_neg hdone,hread]
      dsimp only
      rw [Nat.zero_min,Nat.sub_zero,Nat.min_comm]
      have hfirst : slice 0 (min length block.length) block=block.take length :=
        take_eq_take_min.symm
      rw [hfirst,show length-min length block.length=length-size by omega]
    refine ⟨last,?_⟩
    have hparts : (block.take total++rest).take length=block.take length++rest.take (length-size) := by
      rw [take_append,take_take,Nat.min_eq_left hlength,length_take]
      rcases Nat.le_total size total with hle | hle
      · rw [Nat.min_eq_right (hsize ▸ hle),hsize]
      · rw [Nat.min_eq_left (hsize ▸ hle),show length-total=0 by omega,
          show length-size=0 by omega]
    rw [hparts]
    exact yields_more hnext hyields

/-- A reader at the block that holds the first byte of a range gives the range. -/
theorem yields_of_seek {base : ℕ} (hserve : serve env blocks total=some whole)
    (hrange : rangeStart+length≤total) (hpositive : 0<length) : ∃ last,Yields (dedupChunk env)
      ⟨(seekBlock (base+rangeStart) base blocks).2,
        base+rangeStart-(seekBlock (base+rangeStart) base blocks).1,length⟩
      (slice rangeStart length whole) last := by
  induction blocks generalizing base total whole rangeStart with
  | nil =>
    cases total with
    | zero => omega
    | succ total => cases hserve
  | cons first blocks ih =>
    obtain ⟨name,size⟩ := first
    obtain ⟨block,rest,hread,hsize,hrest,rfl⟩ := serve_cons (by omega) hserve
    unfold seekBlock
    by_cases hholds : base+rangeStart<base+size
    · rw [if_pos hholds]
      obtain ⟨last,hyields⟩ := yields_of_serve hrest
        (show length-(size-rangeStart)≤total-size by omega)
      have hnext : dedupChunk env ⟨(name,size)::blocks,base+rangeStart-base,length⟩=
          (.ok (some (slice rangeStart (min (size-rangeStart) length) block)),
            ⟨blocks,0,length-(size-rangeStart)⟩) := by
        unfold dedupChunk
        dsimp only
        rw [if_neg (by omega),hread]
        dsimp only
        rw [Nat.add_sub_cancel_left,Nat.min_eq_left (show rangeStart≤block.length by omega),hsize,
          show length-min (size-rangeStart) length=length-(size-rangeStart) by omega]
      have hparts : slice rangeStart length (block.take total++rest)=
          slice rangeStart (min (size-rangeStart) length) block++
            rest.take (length-(size-rangeStart)) := by
        have hlong : (block.take total).length=min total size := by
          rw [length_take,hsize]
        have hfirst : slice rangeStart (min (size-rangeStart) length) (block.take total++rest)=
            slice rangeStart (min (size-rangeStart) length) block := by
          rw [slice_append_left (by omega),slice_take (by omega)]
        have hsecond : slice (rangeStart+min (size-rangeStart) length) (length-(size-rangeStart))
            (block.take total++rest)=rest.take (length-(size-rangeStart)) := by
          rcases Nat.le_total length (size-rangeStart) with hle | hle
          · rw [Nat.sub_eq_zero_of_le hle]
            rfl
          · have hright := slice_append_right (block.take total) rest 0 (length-(size-rangeStart))
            rwa [hlong,show min total size+0=rangeStart+min (size-rangeStart) length by omega]
              at hright
        have hsplit := slice_add rangeStart (min (size-rangeStart) length)
          (length-(size-rangeStart)) (block.take total++rest)
        rwa [hfirst,hsecond,show min (size-rangeStart) length+(length-(size-rangeStart))=length by
          omega] at hsplit
      rw [hparts]
      exact ⟨last,yields_more hnext hyields⟩
    · rw [if_neg hholds]
      obtain ⟨last,hyields⟩ := @ih (total-size) (rangeStart-size) rest (base+size) hrest (by omega)
      rw [show base+size+(rangeStart-size)=base+rangeStart by omega] at hyields
      have hparts : slice rangeStart length (block.take total++rest)=
          slice (rangeStart-size) length rest := by
        have hright := slice_append_right block rest (rangeStart-size) length
        rw [take_of_length_le (by omega)]
        rwa [hsize,show size+(rangeStart-size)=rangeStart by omega] at hright
      rw [hparts]
      exact ⟨last,hyields⟩

theorem seekBlock_zero {offset : ℕ} {later : List BlockRef}
    (h : seekBlock 0 0 blocks=(offset,later)) :
    offset=0 ∧ seekBlock rangeStart 0 blocks=seekBlock rangeStart 0 later := by
  induction blocks with
  | nil =>
    cases h
    exact ⟨rfl,rfl⟩
  | cons first blocks ih =>
    obtain ⟨name,size⟩ := first
    unfold seekBlock at h
    split at h
    · cases h
      exact ⟨rfl,rfl⟩
    rename_i hempty
    obtain rfl : size=0 := by omega
    obtain ⟨hoffset,hsame⟩ := ih h
    refine ⟨hoffset,?_⟩
    rw [← hsame]
    exact if_neg (by omega)

theorem manifest_range {file : Bytes} {logicalSize : ℕ} {reader last : DedupBlobReader}
    (hreader : DedupBlobReader.fromFile file logicalSize 0 logicalSize=.ok reader)
    (hyields : Yields (dedupChunk env) reader whole last)
    (hrange : rangeStart+length≤logicalSize) (hpositive : 0<length) :
    ∃ reader last,DedupBlobReader.fromFile file logicalSize rangeStart length=.ok reader ∧
      Yields (dedupChunk env) reader (slice rangeStart length whole) last := by
  unfold DedupBlobReader.fromFile at hreader ⊢
  split at hreader
  · cases hreader
  rename_i blocks hparse
  dsimp only at hreader ⊢
  rcases hseek : seekBlock 0 0 blocks with ⟨offset,later⟩
  obtain ⟨rfl,hsame⟩ := @seekBlock_zero blocks rangeStart offset later hseek
  rw [hseek] at hreader
  cases hreader
  have hserve := serve_of_yields rfl hyields
  obtain ⟨last,hgiven⟩ := @yields_of_seek env later logicalSize rangeStart length whole 0 hserve
    hrange hpositive
  rw [Nat.zero_add,← hsame] at hgiven
  exact ⟨_,last,rfl,hgiven⟩

end Manifests

section Frames

variable {pace : Pace} {reader last : ZstdBlobReader} {whole : Bytes}

theorem zstdChunk_of_nil (hout : reader.out=[]) : ∃ next,zstdChunk pace reader=
      (if reader.ended=false then .error "incomplete frame" else if reader.remaining=0 then .ok none
        else .error "zstd stream ended before the object's size",next) := by
  unfold zstdChunk
  dsimp only
  rw [hout,take_nil,if_pos (show ([] : Bytes).isEmpty=true from rfl)]
  cases reader.ended with
  | false => exact ⟨_,rfl⟩
  | true =>
    by_cases hdone : reader.remaining=0
    · simp [hdone]
    · simp [hdone]

theorem zstdChunk_of_ne_nil (hout : reader.out≠[]) :
    ∃ n next,0<n ∧ n ≤ reader.out.length ∧ zstdChunk pace reader=
      if reader.remaining<n then (.error "zstd stream is longer than the object",next)
      else (.ok (some (reader.out.take n)),
        ⟨reader.out.drop n,reader.ended,reader.remaining-n,reader.reads+1⟩) := by
  have hlength := length_pos_iff.mpr hout
  obtain ⟨n,hn⟩ : ∃ n,n=bounded (pace.decoderReads reader.reads)
    (min (256*1024) reader.out.length) := ⟨_,rfl⟩
  have hpositive : 0<n := hn ▸ bounded_pos _ (lt_min (by decide) hlength)
  have hle : n ≤ reader.out.length := hn ▸ (bounded_le _ _).trans (min_le_right _ _)
  have htaken : (reader.out.take n).length=n := by
    rw [length_take]
    omega
  have hsome : ¬(reader.out.take n).isEmpty=true := by
    intro hempty
    rw [isEmpty_iff.mp hempty] at htaken
    exact hpositive.ne htaken
  refine ⟨n,{ reader with out := reader.out.drop n, reads := reader.reads+1 },hpositive,hle,?_⟩
  unfold zstdChunk
  dsimp only
  rw [← hn,if_neg hsome,htaken]

/-- A whole read that ends without an error gave all that the decoder puts out. -/
theorem out_of_yields (h : Yields (zstdChunk pace) reader whole last) :
    reader.out=whole ∧ reader.ended=true ∧ reader.remaining=whole.length := by
  refine Yields.induct (motive := fun reader whole _ =>
    reader.out=whole ∧ reader.ended=true ∧ reader.remaining=whole.length) ?_ ?_ h
  · intro reader last hread
    by_cases hout : reader.out=[]
    · obtain ⟨next,hnext⟩ := @zstdChunk_of_nil pace reader hout
      rw [hnext] at hread
      have houtcome := (Prod.mk.inj hread).1
      split at houtcome
      · cases houtcome
      rename_i hended
      split at houtcome
      · rename_i hdone
        exact ⟨hout,Bool.not_eq_false _ ▸ hended,hdone⟩
      · cases houtcome
    · obtain ⟨n,next,_,_,hnext⟩ := @zstdChunk_of_ne_nil pace reader hout
      rw [hnext] at hread
      split at hread <;> cases hread
  · intro reader chunk next rest last hread _ ih
    by_cases hout : reader.out=[]
    · obtain ⟨other,hnext⟩ := @zstdChunk_of_nil pace reader hout
      rw [hnext] at hread
      have houtcome := (Prod.mk.inj hread).1
      split at houtcome
      · cases houtcome
      · split at houtcome <;> cases houtcome
    · obtain ⟨n,other,_,hle,hnext⟩ := @zstdChunk_of_ne_nil pace reader hout
      rw [hnext] at hread
      split at hread
      · cases hread
      rename_i hroom
      obtain ⟨hchunk,rfl⟩ := Prod.mk.inj hread
      cases hchunk
      obtain ⟨hrest,hended,hremaining⟩ := ih
      dsimp only at hrest hended hremaining
      rw [← hrest] at hremaining ⊢
      refine ⟨(take_append_drop _ _).symm,hended,?_⟩
      rw [take_append_drop]
      rw [length_drop] at hremaining
      omega

theorem zstdChunk_keeps : Promise (zstdChunk pace)
    (fun reader items => reader.ended=true ∧ reader.remaining=reader.out.length ∧ items=reader.out)
    (fun reader => reader.out.length) := by
  refine ⟨?_⟩
  rintro reader items ⟨hended,hremaining,rfl⟩
  by_cases hout : reader.out=[]
  · have hdone : reader.remaining=0 := by
      rw [hremaining,hout]
      rfl
    refine Or.inl ⟨hout,{ reader with out := [], reads := reader.reads+1 },?_,hended,hdone,rfl⟩
    unfold zstdChunk
    dsimp only
    rw [hout,take_nil,drop_nil,if_pos (show ([] : Bytes).isEmpty=true from rfl),hended,
      if_pos hdone]
    rfl
  · obtain ⟨n,_,hpositive,hle,hnext⟩ := @zstdChunk_of_ne_nil pace reader hout
    rw [if_neg (by omega)] at hnext
    refine Or.inr ⟨_,_,reader.out.drop n,hnext,(take_append_drop _ _).symm,
      ⟨hended,?_,rfl⟩,?_⟩
    · dsimp only
      rw [length_drop]
      omega
    · rw [length_drop]
      omega

/-- What a range of a frame still owes. -/
structure FrameOwes (range : RangeOf ZstdBlobReader) (items : Bytes) : Prop where
  /-- The frame holds the rest of the object. -/
  fits : range.inner.out.length ≤ range.inner.remaining
  /-- The range lies within it. -/
  inside : range.skip+range.remaining ≤ range.inner.out.length
  /-- It owes its bytes. -/
  rest : items=slice range.skip range.remaining range.inner.out

/-- Chunks are dropped until one goes beyond the bytes to drop. -/
theorem rangeChunkFrom_gives {fuel : ℕ} {range : RangeOf ZstdBlobReader} {items : Bytes}
    (howes : FrameOwes range items) (hmore : 0 < range.remaining) (hfuel : range.skip<fuel) :
    ∃ chunk next rest,rangeChunkFrom (zstdChunk pace) fuel range=(.ok (some chunk),next) ∧
      items=chunk++rest ∧ FrameOwes next rest ∧ next.remaining < range.remaining := by
  induction fuel generalizing range with
  | zero => omega
  | succ fuel ih =>
    obtain ⟨hfits,hinside,hrest⟩ := howes
    have hout : range.inner.out≠[] := ne_nil_of_length_pos (by omega)
    obtain ⟨n,_,hpositive,hle,hnext⟩ := @zstdChunk_of_ne_nil pace range.inner hout
    rw [if_neg (by omega)] at hnext
    have htaken : (range.inner.out.take n).length=n := by
      rw [length_take]
      omega
    unfold rangeChunkFrom
    rw [hnext]
    dsimp only
    by_cases hskip : n ≤ range.skip
    · rw [htaken,if_pos hskip]
      refine ih ⟨?_,?_,?_⟩ hmore ?_
      · dsimp only
        rw [length_drop]
        omega
      · dsimp only
        rw [length_drop]
        omega
      · have hright := slice_append_right (range.inner.out.take n) (range.inner.out.drop n)
          (range.skip-n) range.remaining
        rw [take_append_drop,htaken,show n+(range.skip-n)=range.skip by omega] at hright
        rw [hrest,hright]
      · dsimp only
        omega
    · rw [htaken,if_neg hskip]
      have hlength : ((range.inner.out.take n).drop range.skip).length=n-range.skip := by
        rw [length_drop,htaken]
      obtain ⟨given,hgiven⟩ : ∃ given,given=min range.remaining (n-range.skip) := ⟨_,rfl⟩
      have htail : ((range.inner.out.take n).drop range.skip).take range.remaining=
          slice range.skip given range.inner.out := by
        rw [take_eq_take_min,hlength,← hgiven]
        exact slice_take (by omega)
      have htailLength : (slice range.skip given range.inner.out).length=given :=
        slice_length (by omega)
      have hbehind : slice (range.skip+given) (range.remaining-given) range.inner.out=
          slice 0 (range.remaining-given) (range.inner.out.drop n) := by
        rcases Nat.le_total range.remaining (n-range.skip) with hall | hpart
        · rw [show range.remaining-given=0 by omega]
          rfl
        · rw [show range.skip+given=n by omega]
          rfl
      rw [htail,htailLength]
      refine ⟨_,_,slice 0 (range.remaining-given) (range.inner.out.drop n),rfl,?_,⟨?_,?_,rfl⟩,?_⟩
      · have hsplit := slice_add range.skip given (range.remaining-given) range.inner.out
        rw [hbehind,show given+(range.remaining-given)=range.remaining by omega] at hsplit
        rw [hrest,hsplit]
      · dsimp only
        rw [length_drop]
        omega
      · dsimp only
        rw [length_drop]
        omega
      · dsimp only
        omega

theorem rangeChunk_keeps : Promise (rangeChunk (zstdChunk pace)) FrameOwes
    (fun range => range.remaining) := by
  refine ⟨?_⟩
  intro range items howes
  by_cases hdone : range.remaining=0
  · have hitems : items=[] := by
      rw [howes.rest,hdone]
      rfl
    exact Or.inl ⟨hitems,range,if_pos hdone,hitems ▸ howes⟩
  · obtain ⟨chunk,next,rest,hnext,hparts,hrest,hless⟩ := @rangeChunkFrom_gives pace (range.skip+1)
      range items howes (by omega) (Nat.lt_succ_self _)
    refine Or.inr ⟨chunk,next,rest,?_,hparts,hrest,hless⟩
    unfold rangeChunk
    rwa [if_neg hdone]

end Frames

section Bodies

variable {Path : Type} [DecidableEq Path]

/-- What a download depends on besides the file. -/
structure ReadContext where
  /-- What decoding depends on. -/
  env : ReadEnv
  /-- Size of a pooled buffer. -/
  bufferCapacity : ℕ
  /-- Pools make buffers of at least this size. -/
  bufferCapacity_ge : 4096≤bufferCapacity
  /-- Whole reads of raw files are checked against their ETag first. -/
  verifyOnRead : Bool
  /-- The ETag of the object. -/
  expectedEtag : Option String

/-- Checking a raw file against the ETag of its object. -/
def verifyRawEtag (env : ReadEnv) (file : Bytes) (expected : String) : Except String Unit :=
  if hexText (env.hash file)≠expected then .error "raw blob etag mismatch on read" else .ok ()

/-- The reader of a body, one of five. -/
inductive BodyReader (Path : Type)
  | raw (reader : FileReader)
  | dedup (reader : DedupBlobReader)
  | indexed (reader : IndexedBlobReader×Option (BlockDecodeCache Path))
  | frame (reader : ZstdBlobReader)
  | frameRange (range : RangeOf ZstdBlobReader)

/-- The next chunk of a body. -/
def readChunk (ctx : ReadContext) (pace : Pace) (path : Path) (file : Bytes) :
    Source (BodyReader Path) UInt8
  | .raw reader =>
    ((readerStream pace ctx.bufferCapacity reader).1,
      .raw (readerStream pace ctx.bufferCapacity reader).2)
  | .dedup reader => ((dedupChunk ctx.env reader).1,.dedup (dedupChunk ctx.env reader).2)
  | .indexed reader =>
    ((nextChunk ctx.env path file reader).1,.indexed (nextChunk ctx.env path file reader).2)
  | .frame reader => ((zstdChunk pace reader).1,.frame (zstdChunk pace reader).2)
  | .frameRange range =>
    ((rangeChunk (zstdChunk pace) range).1,.frameRange (rangeChunk (zstdChunk pace) range).2)

/-- A reader of a range of a manifest. -/
def openManifest (file : Bytes) (logicalSize rangeStart contentLength : ℕ) :
    Except String (BodyReader Path) :=
  match DedupBlobReader.fromFile file logicalSize rangeStart contentLength with
  | .error e => .error e
  | .ok reader => .ok (.dedup reader)

/-- A reader of a range of a raw file. -/
def openRaw (ctx : ReadContext) (file : Bytes) (logicalSize rangeStart contentLength : ℕ) :
    Except String (BodyReader Path) :=
  let whole := decide (rangeStart=0 ∧ contentLength=logicalSize)
  let checked := match (if ctx.verifyOnRead && whole then ctx.expectedEtag else none) with
    | some expected => verifyRawEtag ctx.env file expected
    | none => .ok ()
  match checked with
  | .error e => .error e
  | .ok () => .ok (.raw ⟨⟨⟨file.drop rangeStart,[],0⟩,0,contentLength⟩,0⟩)

/-- A reader of a range of a container. -/
def openIndexed (file : Bytes) (cache : Option (BlockDecodeCache Path))
    (logicalSize rangeStart contentLength : ℕ) : Except String (BodyReader Path) :=
  match IndexedBlobReader.fromFile file logicalSize rangeStart contentLength with
  | .error e => .error e
  | .ok reader => .ok (.indexed (reader,cache))

/-- A reader of a range of a frame. -/
def openFrame (ctx : ReadContext) (file : Bytes) (format : BlobFormat)
    (logicalSize rangeStart contentLength : ℕ) : Except String (BodyReader Path) :=
  match ZstdBlobReader.fromFile ctx.env file logicalSize format with
  | .error e => .error e
  | .ok reader =>
    if rangeStart=0 ∧ contentLength=logicalSize then .ok (.frame reader)
    else .ok (.frameRange ⟨reader,rangeStart,contentLength⟩)

/-- Choosing the reader for a range of a stored blob by its first bytes. -/
def openObjectBodyStream (ctx : ReadContext) (file : Bytes) (cache : Option (BlockDecodeCache Path))
    (logicalSize rangeStart contentLength : ℕ) : Except String (BodyReader Path) :=
  let peek := file.take fixedHeaderLenV1
  let format := if detectBlobFormat peek≠.raw then storedBlobFormat peek file.length logicalSize
    else .raw
  match format with
  | .nosd => openManifest file logicalSize rangeStart contentLength
  | .raw => openRaw ctx file logicalSize rangeStart contentLength
  | .nosb => openIndexed file cache logicalSize rangeStart contentLength
  | .nosi => openIndexed file cache logicalSize rangeStart contentLength
  | .nosz => openFrame ctx file format logicalSize rangeStart contentLength
  | .nos2 => openFrame ctx file format logicalSize rangeStart contentLength

theorem fromFile_remaining {env : ReadEnv} {file : Bytes} {logicalSize : ℕ} {format : BlobFormat}
    {reader : ZstdBlobReader} (h : ZstdBlobReader.fromFile env file logicalSize format=.ok reader) :
    reader.remaining=logicalSize := by
  unfold ZstdBlobReader.fromFile at h
  split at h
  · cases h
  split at h
  · cases h
  dsimp only at h
  split at h
  · split at h
    · cases h
    cases h
    rfl
  · split at h
    · cases h
    cases h
    rfl
  · cases h

section Ranges

variable {ctx : ReadContext} {pace pace' : Pace} {path : Path} {file whole : Bytes}
  {cache cache' : Option (BlockDecodeCache Path)} {logicalSize rangeStart contentLength : ℕ}
  {format : BlobFormat} {body last : BodyReader Path}

theorem openManifest_range (hopen : openManifest file logicalSize 0 logicalSize=.ok body)
    (hyields : Yields (readChunk ctx pace path file) body whole last)
    (hrange : rangeStart+contentLength≤logicalSize) (hpositive : 0<contentLength) :
    ∃ body last,openManifest file logicalSize rangeStart contentLength=.ok body ∧
      Yields (readChunk ctx pace' path file) body (slice rangeStart contentLength whole) last := by
  unfold openManifest at hopen ⊢
  split at hopen
  · cases hopen
  rename_i reader hreader
  cases hopen
  obtain ⟨_,hinner⟩ : ∃ last,Yields (dedupChunk ctx.env) reader whole last :=
    hyields.project fun _ => rfl
  obtain ⟨reader,last,hnew,hgiven⟩ := manifest_range hreader hinner hrange hpositive
  rw [hnew]
  exact ⟨_,_,rfl,hgiven.embed fun _ => rfl⟩

omit [DecidableEq Path] in
theorem openRaw_eq_ok (h : openRaw ctx file logicalSize rangeStart contentLength=.ok body) :
    body=.raw ⟨⟨⟨file.drop rangeStart,[],0⟩,0,contentLength⟩,0⟩ := by
  unfold openRaw at h
  dsimp only at h
  split at h
  · cases h
  · exact (Except.ok.inj h).symm

/-- A raw file that is opened gives the bytes of its range. -/
theorem openRaw_yields (h : openRaw ctx file logicalSize rangeStart contentLength=.ok body) :
    ∃ last,Yields (readChunk ctx pace path file) body (slice rangeStart contentLength file)
      last := by
  have hcapacity : 0<ctx.bufferCapacity := Nat.lt_of_lt_of_le (by decide) ctx.bufferCapacity_ge
  obtain rfl := openRaw_eq_ok h
  obtain ⟨last,hgiven,_⟩ := (@readerStream_keeps pace ctx.bufferCapacity hcapacity).yields
    (s := ⟨⟨⟨file.drop rangeStart,[],0⟩,0,contentLength⟩,0⟩) rfl
  exact ⟨_,hgiven.embed fun _ => rfl⟩

/-- A raw file that is read whole gives every range. -/
theorem openRaw_range (hopen : openRaw ctx file logicalSize 0 logicalSize=.ok body)
    (hyields : Yields (readChunk ctx pace path file) body whole last)
    (hrange : rangeStart+contentLength≤logicalSize) :
    ∃ body last,openRaw ctx file logicalSize rangeStart contentLength=.ok body ∧
      Yields (readChunk ctx pace' path file) body (slice rangeStart contentLength whole) last := by
  obtain ⟨_,hall⟩ : ∃ last,Yields (readChunk ctx pace path file) body _ last := openRaw_yields hopen
  obtain rfl : whole=slice 0 logicalSize file := (hyields.unique hall).1
  obtain ⟨body,hopened⟩ : ∃ body : BodyReader Path,
      openRaw ctx file logicalSize rangeStart contentLength=.ok body := by
    by_cases hsame : rangeStart=0 ∧ contentLength=logicalSize
    · obtain ⟨rfl,rfl⟩ := hsame
      exact ⟨body,hopen⟩
    · unfold openRaw
      dsimp only
      rw [decide_eq_false hsame,Bool.and_false]
      exact ⟨_,rfl⟩
  obtain ⟨last,hgiven⟩ : ∃ last,Yields (readChunk ctx pace' path file) body _ last :=
    openRaw_yields hopened
  have hpart : slice rangeStart contentLength (slice 0 logicalSize file)=
    slice rangeStart contentLength file := slice_take hrange
  exact ⟨_,_,hopened,hpart ▸ hgiven⟩

theorem openIndexed_range (hopen : openIndexed file cache logicalSize 0 logicalSize=.ok body)
    (hyields : Yields (readChunk ctx pace path file) body whole last)
    (hcache : FilledBy ctx.env path file cache) (hcache' : FilledBy ctx.env path file cache')
    (hrange : rangeStart+contentLength≤logicalSize) :
    ∃ body last,openIndexed file cache' logicalSize rangeStart contentLength=.ok body ∧
      Yields (readChunk ctx pace' path file) body (slice rangeStart contentLength whole) last := by
  unfold openIndexed at hopen ⊢
  split at hopen
  · cases hopen
  rename_i reader hreader
  cases hopen
  obtain ⟨_,hinner⟩ : ∃ last,Yields (nextChunk ctx.env path file) (reader,cache) whole last :=
    hyields.project fun _ => rfl
  obtain ⟨layout,hlayout,hread⟩ := fromFile_layout hreader
  obtain ⟨contents,hcontents,rfl⟩ := contents_of_whole hlayout hreader
    (hcache.agrees hread) hinner
  obtain ⟨reader,last,hnew,hgiven,_⟩ := range_of_contents hlayout hcontents hrange
    (hcache'.agrees hread)
  rw [hnew]
  exact ⟨_,_,rfl,hgiven.embed fun _ => rfl⟩

/-- A frame that is read whole gives every range. -/
theorem openFrame_range (hopen : openFrame ctx file format logicalSize 0 logicalSize=.ok body)
    (hyields : Yields (readChunk ctx pace path file) body whole last)
    (hrange : rangeStart+contentLength≤logicalSize) :
    ∃ body last,openFrame ctx file format logicalSize rangeStart contentLength=.ok body ∧
      Yields (readChunk ctx pace' path file) body (slice rangeStart contentLength whole) last := by
  unfold openFrame at hopen ⊢
  split at hopen
  · cases hopen
  rename_i reader hreader
  rw [if_pos ⟨rfl,rfl⟩] at hopen
  cases hopen
  obtain ⟨_,hinner⟩ : ∃ last,Yields (zstdChunk pace) reader whole last :=
    hyields.project fun _ => rfl
  obtain ⟨rfl,hended,hremaining⟩ := out_of_yields hinner
  have hsize := fromFile_remaining hreader
  by_cases hsame : rangeStart=0 ∧ contentLength=logicalSize
  · obtain ⟨rfl,rfl⟩ := hsame
    obtain ⟨last,hgiven,_⟩ := (@zstdChunk_keeps pace').yields ⟨hended,hremaining,rfl⟩
    have hall : slice 0 contentLength reader.out=reader.out := by
      rw [← hsize,hremaining]
      exact slice_all _
    rw [hall]
    exact ⟨_,_,if_pos ⟨rfl,rfl⟩,hgiven.embed fun _ => rfl⟩
  · have howes : FrameOwes ⟨reader,rangeStart,contentLength⟩
        (slice rangeStart contentLength reader.out) :=
      ⟨hremaining.symm.le,by dsimp only; omega,rfl⟩
    obtain ⟨last,hgiven,_⟩ := (@rangeChunk_keeps pace').yields howes
    exact ⟨_,_,if_neg hsame,hgiven.embed fun _ => rfl⟩

/-- Streaming a range gives that part of what streaming the whole object gives,
whatever the pieces are and whatever earlier reads of the file have left in the
cache. -/
theorem range_of_whole_stream
    (hopen : openObjectBodyStream ctx file cache logicalSize 0 logicalSize=.ok body)
    (hyields : Yields (readChunk ctx pace path file) body whole last)
    (hcache : FilledBy ctx.env path file cache) (hcache' : FilledBy ctx.env path file cache')
    (hrange : rangeStart+contentLength≤logicalSize) (hpositive : 0<contentLength) :
    ∃ body last,openObjectBodyStream ctx file cache' logicalSize rangeStart contentLength=.ok body ∧
      Yields (readChunk ctx pace' path file) body (slice rangeStart contentLength whole) last := by
  unfold openObjectBodyStream at hopen ⊢
  dsimp only at hopen ⊢
  generalize (if detectBlobFormat (file.take fixedHeaderLenV1)≠.raw then
    storedBlobFormat (file.take fixedHeaderLenV1) file.length logicalSize else .raw)=format
    at hopen ⊢
  cases format with
  | raw => exact openRaw_range hopen hyields hrange
  | nosd => exact openManifest_range hopen hyields hrange hpositive
  | nosb | nosi => exact openIndexed_range hopen hyields hcache hcache' hrange
  | nosz | nos2 => exact openFrame_range hopen hyields hrange

end Ranges

end Bodies

section Samples

/-- A context without dictionaries and shared blocks. -/
def plainContext : ReadContext :=
  ⟨plainEnv,4096,le_rfl,false,none⟩

/-- Requests that return one byte each. -/
def slowPace : Pace :=
  ⟨fun _ => 1,fun _ => 1,fun _ => 1⟩

/-- The second byte of a raw file of three bytes, read one by one. -/
theorem raw_second_byte : Yields (readChunk plainContext slowPace () [1, 2, 3])
        (.raw ⟨⟨⟨[1, 2, 3],[],0⟩,0,3⟩,0⟩) [1, 2, 3] (.raw ⟨⟨⟨[],[],3⟩,0,0⟩,4⟩) ∧
      ∃ body last,openObjectBodyStream plainContext [1, 2, 3]
          (none : Option (BlockDecodeCache Unit)) 3 1 1=.ok body ∧
        Yields (readChunk plainContext slowPace () [1, 2, 3]) body [2] last := by
  have hopen : openObjectBodyStream plainContext [1, 2, 3]
      (none : Option (BlockDecodeCache Unit)) 3 0 3=.ok (.raw ⟨⟨⟨[1, 2, 3],[],0⟩,0,3⟩,0⟩) := rfl
  have hyields : Yields (readChunk plainContext slowPace () [1, 2, 3])
      (.raw ⟨⟨⟨[1, 2, 3],[],0⟩,0,3⟩,0⟩) [1, 2, 3] (.raw ⟨⟨⟨[],[],3⟩,0,0⟩,4⟩) := ⟨4,rfl⟩
  have hcache : FilledBy plainEnv () [1, 2, 3] (none : Option (BlockDecodeCache Unit)) :=
    .fresh fun kept hkept => nomatch hkept
  exact ⟨hyields,range_of_whole_stream hopen hyields hcache hcache (show 1+1≤3 by decide)
    (show 0<1 by decide)⟩

end Samples

end NebularOs.BodyStreams
