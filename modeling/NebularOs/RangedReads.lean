import Mathlib
import NebularOs.BodyStreams

/-!
# Ranges of bytes that come in pieces

Two readers drop the first bytes of a sequence and stop after some others. One takes
chunks, which may be empty. The other reads into buffers, from a reader that returns
some bytes or is not ready. However the sequence is cut, whatever the buffers are and
wherever a read has to wait, both give the same bytes.
-/

namespace NebularOs.RangedReads

open ByteFields ChunkSources RawStreams BodyStreams List

section Chunks

/-- Chunks that are at hand. -/
def listChunk : Source (List Bytes) UInt8
  | [] => (.ok none,[])
  | chunk::chunks => (.ok (some chunk),chunks)

/-- The next chunk of a range of such chunks. The loop takes each of them at most once. -/
def readChunk : Source (RangeOf (List Bytes)) UInt8
  | range =>
    if range.remaining=0 then (.ok none,range)
    else rangeChunkFrom listChunk (range.inner.length+1) range

/-- What is said of a range that does not end in time. -/
def endedEarly : String := "stream ended before the requested range"

theorem rangeChunkFrom_list {chunks : List Bytes} {skip remaining : ℕ} (hremaining : 0 < remaining) :
    (chunks.flatten.length ≤ skip ∧
        ∃ range,rangeChunkFrom listChunk (chunks.length+1) ⟨chunks,skip,remaining⟩=
          (.error endedEarly,range)) ∨
      ∃ tail rest,rangeChunkFrom listChunk (chunks.length+1) ⟨chunks,skip,remaining⟩=
          (.ok (some tail),⟨rest,0,remaining-tail.length⟩) ∧ 0<tail.length ∧ tail.length ≤ remaining ∧
        (chunks.flatten.drop skip).take remaining= tail++rest.flatten.take (remaining-tail.length) ∧
        (skip+remaining ≤ chunks.flatten.length ↔ remaining-tail.length ≤ rest.flatten.length) := by
  induction chunks generalizing skip with
  | nil => exact Or.inl ⟨Nat.zero_le _,_,rfl⟩
  | cons chunk chunks ih =>
    have hlength : (chunk::chunks).flatten.length=chunk.length+chunks.flatten.length := by simp
    have hloop : rangeChunkFrom listChunk ((chunk::chunks).length+1) ⟨chunk::chunks,skip,remaining⟩=
        if chunk.length ≤ skip then
          rangeChunkFrom listChunk (chunks.length+1) ⟨chunks,skip-chunk.length,remaining⟩
        else (.ok (some ((chunk.drop skip).take remaining)),
          ⟨chunks,0,remaining-((chunk.drop skip).take remaining).length⟩) := rfl
    rw [hloop]
    by_cases hdropped : chunk.length ≤ skip
    · have hdrop : (chunk::chunks).flatten.drop skip=chunks.flatten.drop (skip-chunk.length) := by
        rw [flatten_cons,drop_append,drop_eq_nil_of_le hdropped,nil_append]
      rw [if_pos hdropped]
      rcases @ih (skip-chunk.length) with ⟨hshort,hended⟩ | ⟨tail,rest,hread,hsome,hle,hgiven,hlong⟩
      · exact Or.inl ⟨by omega,hended⟩
      · refine Or.inr ⟨tail,rest,hread,hsome,hle,hdrop ▸ hgiven,?_⟩
        rw [← hlong]
        omega
    · have htail : ((chunk.drop skip).take remaining).length=min remaining (chunk.length-skip) := by
        rw [length_take,length_drop]
      rw [if_neg hdropped]
      refine Or.inr ⟨_,chunks,rfl,by omega,by omega,?_,by omega⟩
      have hdrop : (chunk::chunks).flatten.drop skip=chunk.drop skip++chunks.flatten := by
        rw [flatten_cons,drop_append_of_le_length (by omega)]
      have hless : remaining-((chunk.drop skip).take remaining).length=
          remaining-(chunk.drop skip).length := by
        rw [htail,length_drop]
        omega
      rw [hdrop,take_append,hless]

theorem readChunk_gives (chunks : List Bytes) (skip : ℕ) {limit : ℕ} (hlimit : 0<limit) :
    (skip+limit ≤ chunks.flatten.length →
      ∃ last,Yields readChunk ⟨chunks,skip,limit⟩ ((chunks.flatten.drop skip).take limit) last) ∧
    (chunks.flatten.length<skip+limit →
      ∃ reads last,collect readChunk reads ⟨chunks,skip,limit⟩=(some (.error endedEarly),last)) := by
  induction limit using Nat.strong_induction_on generalizing chunks skip with
  | _ limit ih =>
    have hread : readChunk ⟨chunks,skip,limit⟩=
        rangeChunkFrom listChunk (chunks.length+1) ⟨chunks,skip,limit⟩ :=
      if_neg (Nat.pos_iff_ne_zero.mp hlimit)
    rcases @rangeChunkFrom_list chunks skip limit hlimit with ⟨hshort,range,hended⟩ |
      ⟨tail,rest,hnext,hsome,hle,hgiven,hlong⟩
    · refine ⟨fun henough => by omega,fun _ => ⟨1,range,?_⟩⟩
      rw [collect,hread,hended]
    · rw [hnext] at hread
      by_cases hdone : limit-tail.length=0
      · refine ⟨fun _ => ⟨⟨rest,0,limit-tail.length⟩,?_⟩,fun hless => by omega⟩
        rw [hgiven]
        refine yields_more hread ?_
        rw [hdone,take_zero]
        exact yields_stop rfl
      · obtain ⟨hyields,herror⟩ := ih (limit-tail.length) (by omega) rest 0 (by omega)
        rw [drop_zero,Nat.zero_add] at hyields
        rw [Nat.zero_add] at herror
        constructor
        · intro henough
          obtain ⟨last,hlast⟩ := hyields (hlong.mp henough)
          exact ⟨last,hgiven ▸ yields_more hread hlast⟩
        · intro hless
          obtain ⟨reads,last,hlast⟩ := herror (by omega)
          refine ⟨reads+1,last,?_⟩
          rw [collect,hread]
          dsimp only
          rw [hlast]

end Chunks

section Buffers

/-- A reader that is not always ready and then returns some of its bytes. -/
structure PartialReader where
  /-- Bytes that it has to give. -/
  rest : Bytes
  /-- How many bytes each read returns, or nothing if it has to wait. -/
  answers : ℕ→Option ℕ
  /-- Reads so far. -/
  polls : ℕ

/-- Reading into a buffer. At least one byte is returned, unless there are none. -/
def PartialReader.pollRead (reader : PartialReader) (room : ℕ) : Option Bytes×PartialReader :=
  match reader.answers reader.polls with
  | none => (none,{ reader with polls := reader.polls+1 })
  | some wished =>
    let n := bounded wished (min room reader.rest.length)
    (some (reader.rest.take n),⟨reader.rest.drop n,reader.answers,reader.polls+1⟩)

/-- Reading up to the end with buffers of some sizes, and again whenever a read has to
wait. -/
def drain (rooms : ℕ→ℕ) : ℕ→ℕ → LimitedAsyncRead PartialReader→Option Bytes
  | 0,_,_ => none
  | fuel+1,i,reader =>
    match reader.pollRead PartialReader.pollRead (rooms i) with
    | (none,reader) => drain rooms fuel (i+1) reader
    | (some [],_) => some []
    | (some chunk,reader) => (drain rooms fuel (i+1) reader).map (chunk++·)

/-- A reader that has read on: it has fewer bytes, or had to wait at every read. -/
structure Ahead (reader next : PartialReader) : Prop where
  /-- It is ready at the same times. -/
  answers : next.answers=reader.answers
  /-- It was read from. -/
  polls : reader.polls<next.polls
  /-- It has no more bytes. -/
  rest : next.rest.length ≤ reader.rest.length
  /-- If it has as many, it has waited. -/
  waited : next.rest.length=reader.rest.length → 0 < reader.rest.length →
    ∀ i,reader.polls ≤ i → i<next.polls → reader.answers i=none

theorem Ahead.trans {reader next last : PartialReader} (h : Ahead reader next)
    (h' : Ahead next last) : Ahead reader last := by
  have hrest := h.rest
  have hrest' := h'.rest
  refine ⟨h'.answers.trans h.answers,h.polls.trans h'.polls,by omega,fun hsame hsome i hi hi' => ?_⟩
  by_cases hfirst : i<next.polls
  · exact h.waited (by omega) hsome i hi hfirst
  · rw [← h.answers]
    exact h'.waited (by omega) (by omega) i (by omega) hi'

/-- A reader gives its bytes in order. -/
theorem partialReader_gives : Gives PartialReader.pollRead PartialReader.rest := by
  refine ⟨fun reader room => ?_,fun reader room => ?_,fun reader room hroom hnothing => ?_⟩
  all_goals cases hanswer : reader.answers reader.polls with
  | none => simp_all [PartialReader.pollRead]
  | some wished =>
    simp only [PartialReader.pollRead,hanswer] at *
    have hle := bounded_le wished (min room reader.rest.length)
    first
    | exact take_append_drop _ _
    | exact (length_take_le _ _).trans (hle.trans (min_le_left _ _))
    | by_contra hrest
      have hlength := length_pos_iff.mpr hrest
      have hsome := bounded_pos wished (show 0 < min room reader.rest.length by omega)
      have hnone := congrArg List.length (Option.some.inj hnothing)
      rw [length_take,length_nil] at hnone
      omega

/-- Every read gets a reader ahead. -/
theorem ahead_of_polled {reader next : PartialReader}
    (h : Relation.TransGen (Polled PartialReader.pollRead) reader next) : Ahead reader next := by
  have hone : ∀ before after,Polled PartialReader.pollRead before after → Ahead before after := by
    rintro before after ⟨room,hroom,rfl⟩
    unfold PartialReader.pollRead
    cases hanswer : before.answers before.polls with
    | none =>
      refine ⟨rfl,Nat.lt_succ_self _,le_rfl,fun _ _ i hi hi' => ?_⟩
      obtain rfl : i=before.polls := by dsimp only at hi'; omega
      exact hanswer
    | some wished =>
      have hlength : (before.rest.drop (bounded wished (min room before.rest.length))).length=
        before.rest.length-bounded wished (min room before.rest.length) := length_drop
      refine ⟨rfl,Nat.lt_succ_self _,by dsimp only; omega,fun hsame hsome => ?_⟩
      have hread := bounded_pos wished (show 0 < min room before.rest.length by omega)
      dsimp only at hsame
      omega
  induction h with
  | single hpolled => exact hone _ _ hpolled
  | tail _ hpolled ih => exact ih.trans (hone _ _ hpolled)

variable {reader : LimitedAsyncRead PartialReader}

/-- Reading to the end gives what is owed, if the bytes are enough and the reader is ready
again and again. -/
theorem drain_gives {rooms : ℕ→ℕ} (hrooms : ∀ i,0 < rooms i)
    (hready : ∀ i,∃ j,i≤j ∧ reader.inner.answers j≠none)
    (henough : (reader.owed PartialReader.rest).length=reader.remaining) (i : ℕ) :
    ∃ polls,drain rooms polls i reader=some (reader.owed PartialReader.rest) := by
  obtain ⟨bytes,hbytes⟩ : ∃ bytes,reader.inner.rest.length=bytes := ⟨_,rfl⟩
  induction bytes using Nat.strong_induction_on generalizing reader i with
  | _ bytes ih =>
    obtain ⟨j,hj,hanswer⟩ := hready reader.inner.polls
    -- for as many bytes, the reader comes nearer to the read that does not wait
    induction hwaits : j-reader.inner.polls using Nat.strong_induction_on generalizing reader i with
    | _ waits ih' =>
      rcases hread : reader.pollRead PartialReader.pollRead (rooms i) with ⟨outcome,next⟩
      obtain ⟨hparts,hend,_,hremaining,hpolled⟩ := LimitedAsyncRead.pollRead_spec
        partialReader_gives (hrooms i) hread
      by_cases hdone : reader.remaining=0
      · refine ⟨1,?_⟩
        rw [drain,LimitedAsyncRead.pollRead,if_pos hdone,LimitedAsyncRead.owed,hdone,take_zero]
      have hahead := ahead_of_polled (hpolled hdone)
      have henough' : (next.owed PartialReader.rest).length=next.remaining := by
        have hlength := congrArg List.length hparts
        rw [length_append] at hlength
        omega
      have hsome : 0 < reader.inner.rest.length := by
        have hlength : (reader.owed PartialReader.rest).length≤reader.inner.rest.length := by
          rw [LimitedAsyncRead.owed,length_take,length_drop]
          omega
        omega
      obtain ⟨polls,hpolls⟩ : ∃ polls,drain rooms polls (i+1) next=
          some (next.owed PartialReader.rest) := by
        by_cases hless : next.inner.rest.length<bytes
        · exact ih _ hless (hahead.answers ▸ hready) henough' (i+1) rfl
        have hrest := hahead.rest
        have hearly : next.inner.polls≤j := by
          by_contra hlate
          exact hanswer (hahead.waited (by omega) hsome j hj (by omega))
        have hforward := hahead.polls
        exact ih' (j-next.inner.polls) (by omega) (hahead.answers ▸ hready) henough' (i+1) (by omega)
          hearly (hahead.answers ▸ hanswer) rfl
      rcases outcome with _ | (_ | ⟨b,chunk⟩)
      · exact ⟨polls+1,by rw [drain,hread,← hparts]; exact hpolls⟩
      · exact ⟨1,by rw [drain,hread,hend rfl]⟩
      · refine ⟨polls+1,?_⟩
        rw [drain,hread,← hparts]
        dsimp only
        rw [hpolls]
        rfl

end Buffers

/-- Both readers give the bytes of a range and then end, however the bytes are cut, whatever
the sizes of the buffers are and wherever reads have to wait. A range of chunks that are too
few ends with an error. -/
theorem range_given (bytes : Bytes) (skip : ℕ) {limit : ℕ} (hlimit : 0<limit) :
    (skip+limit≤bytes.length→(∀ chunks : List Bytes,chunks.flatten=bytes →
        ∃ last,Yields readChunk ⟨chunks,skip,limit⟩ ((bytes.drop skip).take limit) last) ∧
      ∀ (rooms : ℕ→ℕ) (answers : ℕ→Option ℕ),(∀ i,0 < rooms i)→(∀ i,∃ j,i≤j ∧ answers j≠none) →
          ∃ polls,drain rooms polls 0 ⟨⟨bytes,answers,0⟩,skip,limit⟩=
            some ((bytes.drop skip).take limit)) ∧
    (bytes.length<skip+limit→∀ chunks : List Bytes,chunks.flatten=bytes →
      ∃ reads last,collect readChunk reads ⟨chunks,skip,limit⟩=(some (.error endedEarly),last)) := by
  constructor
  · intro henough
    constructor
    · rintro chunks rfl
      exact (readChunk_gives chunks skip hlimit).1 henough
    · intro rooms answers hrooms hready
      refine @drain_gives ⟨⟨bytes,answers,0⟩,skip,limit⟩ rooms hrooms hready ?_ 0
      rw [LimitedAsyncRead.owed,length_take,length_drop]
      dsimp only
      omega
  · rintro hshort chunks rfl
    exact (readChunk_gives chunks skip hlimit).2 hshort

/-- Two bytes of five, cut with an empty chunk, or read one by one where every other read
has to wait. -/
theorem two_of_five_given : (∃ last,Yields readChunk ⟨[[1,2],[],[3],[4,5]],1,2⟩ [2,3] last) ∧
      ∃ polls,drain (fun _ => 1) polls 0
        ⟨⟨[1,2,3,4,5],fun i => if i%2=0 then none else some 1,0⟩,1,2⟩=some [2,3] := by
  obtain ⟨hchunks,hbuffers⟩ := (range_given [1,2,3,4,5] 1 Nat.two_pos).1 (by decide)
  refine ⟨hchunks _ rfl,hbuffers _ _ (fun _ => Nat.one_pos) fun i => ⟨2*i+1,by omega,?_⟩⟩
  rw [if_neg (by omega)]
  exact Option.some_ne_none 1

end NebularOs.RangedReads
