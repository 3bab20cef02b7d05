import Mathlib
import NebularOs.ByteFields
import NebularOs.ChunkSources

/-!
# Streaming a file as it is

A file is read through a pooled buffer into a reader that skips some bytes and stops
after some others, and from there in pieces into the buffer of a stream. How many
bytes each request returns is up to the system, within the room that is offered.
Whatever the pieces are, the stream gives the same bytes.
-/

namespace NebularOs.RawStreams

open ByteFields ChunkSources List

/-- How many bytes the requests of a stream return, by their numbers. -/
structure Pace where
  /-- Reads of a file. -/
  fileReads : ℕ→ℕ
  /-- Room in the buffer of the stream. -/
  rooms : ℕ→ℕ
  /-- Reads of a decoder. -/
  decoderReads : ℕ→ℕ

/-- At least one and at most so many, as far as there are any. -/
def bounded (wished most : ℕ) : ℕ :=
  min (max 1 wished) most

/-- A file that is read through a pooled buffer. -/
structure PooledFileRead where
  /-- Bytes behind the position in the file. -/
  rest : Bytes
  /-- Bytes in the buffer that were not given out. -/
  cached : Bytes
  /-- Requests to the file so far. -/
  reads : ℕ

/-- Bytes that the reader still has to give. -/
def PooledFileRead.pending (reader : PooledFileRead) : Bytes :=
  reader.cached++reader.rest

/-- Giving out bytes of the buffer, which is filled again if it is empty. -/
def PooledFileRead.read (pace : Pace) (bufferCapacity room : ℕ) (reader : PooledFileRead) :
    Bytes×PooledFileRead :=
  if reader.cached≠[] then
    (reader.cached.take room,{ reader with cached := reader.cached.drop room })
  else
    let n := bounded (pace.fileReads reader.reads) (min bufferCapacity reader.rest.length)
    let chunk := reader.rest.take n
    (chunk.take room,⟨reader.rest.drop n,chunk.drop room,reader.reads+1⟩)

/-- A file is read without waiting. -/
def PooledFileRead.pollRead (pace : Pace) (bufferCapacity : ℕ) (reader : PooledFileRead) (room : ℕ) :
    Option Bytes×PooledFileRead :=
  ((reader.read pace bufferCapacity room).1,(reader.read pace bufferCapacity room).2)

/-- A reader that skips some bytes and stops after some others. -/
structure LimitedAsyncRead (R : Type) where
  /-- The reader that it reads from. -/
  inner : R
  /-- Bytes that are left to skip. -/
  skip : ℕ
  /-- Bytes that are left to give. -/
  remaining : ℕ

section Limits

variable {R : Type} (poll : R→ℕ→Option Bytes×R)

/-- Dropping the bytes to skip, at most 8192 at a time. The result says whether the inner
reader ended before, or nothing if it has to wait. -/
def LimitedAsyncRead.discard : ℕ → LimitedAsyncRead R→Option Bool×LimitedAsyncRead R
  | 0,reader => (some false,reader)
  | fuel+1,reader =>
    if reader.skip=0 then (some false,reader)
    else match poll reader.inner (min reader.skip 8192) with
      | (none,inner) => (none,{ reader with inner := inner })
      | (some dropped,inner) =>
        if dropped.isEmpty then (some true,{ reader with inner := inner })
        else discard fuel { reader with inner := inner, skip := reader.skip-dropped.length }

/-- Reading bytes within the limits. -/
def LimitedAsyncRead.pollRead (reader : LimitedAsyncRead R) (room : ℕ) :
    Option Bytes×LimitedAsyncRead R :=
  if reader.remaining=0 then (some [],reader)
  else match reader.discard poll reader.skip with
    | (none,reader) => (none,reader)
    | (some true,reader) => (some [],reader)
    | (some false,reader) =>
      let most := min reader.remaining room
      if most=0 then (some [],reader)
      else match poll reader.inner most with
        | (none,inner) => (none,{ reader with inner := inner })
        | (some chunk,inner) =>
          (some chunk,{ reader with inner := inner, remaining := reader.remaining-chunk.length })

variable {poll} {pending : R→Bytes} {reader next : LimitedAsyncRead R} {room : ℕ}

/-- A reader gives its bytes in order, and an empty read only at their end. -/
structure Gives (poll : R→ℕ→Option Bytes×R) (pending : R→Bytes) : Prop where
  /-- A read takes the next bytes, or none. -/
  parts : ∀ reader room,(poll reader room).1.getD []++pending (poll reader room).2=pending reader
  /-- It fits into the buffer. -/
  fits : ∀ reader room,((poll reader room).1.getD []).length ≤ room
  /-- It is empty at the end of the bytes. -/
  ends : ∀ reader room,0 < room→(poll reader room).1=some []→pending reader=[]

/-- One read of the inner reader, into a buffer with some room. -/
def Polled (poll : R→ℕ→Option Bytes×R) (before after : R) : Prop :=
  ∃ room,0 < room ∧ after=(poll before room).2

/-- What a limited reader still has to give. -/
def LimitedAsyncRead.owed (pending : R→Bytes) (reader : LimitedAsyncRead R) : Bytes :=
  ((pending reader.inner).drop reader.skip).take reader.remaining

/-- Dropping gets behind the bytes to skip, unless it waits or there are too few. -/
theorem LimitedAsyncRead.discard_spec (h : Gives poll pending) {fuel : ℕ} {outcome : Option Bool}
    (hfuel : reader.skip≤fuel) (hread : reader.discard poll fuel=(outcome,next)) :
    next.remaining=reader.remaining ∧
      (pending next.inner).drop next.skip=(pending reader.inner).drop reader.skip ∧
      (outcome=some true→(pending reader.inner).drop reader.skip=[]) ∧
      (outcome=some false → next.skip=0) ∧ (outcome=none→∃ before room,(poll before room).1=none) ∧
      (outcome=some false ∧ next=reader ∨ Relation.TransGen (Polled poll) reader.inner next.inner) := by
  induction fuel generalizing reader with
  | zero =>
    cases hread
    exact ⟨rfl,rfl,nofun,fun _ => by omega,nofun,Or.inl ⟨rfl,rfl⟩⟩
  | succ fuel ih =>
    unfold LimitedAsyncRead.discard at hread
    by_cases hskip : reader.skip=0
    · rw [if_pos hskip] at hread
      cases hread
      exact ⟨rfl,rfl,nofun,fun _ => hskip,nofun,Or.inl ⟨rfl,rfl⟩⟩
    rw [if_neg hskip] at hread
    have hroom : 0 < min reader.skip 8192 := by omega
    have hparts := h.parts reader.inner (min reader.skip 8192)
    have hfits := h.fits reader.inner (min reader.skip 8192)
    have hends := h.ends reader.inner _ hroom
    have hpolled : Polled poll reader.inner _ := ⟨_,hroom,rfl⟩
    rcases hpoll : poll reader.inner (min reader.skip 8192) with ⟨answer,inner⟩
    rw [hpoll] at hread hparts hfits hends hpolled
    cases answer with
    | none =>
      cases hread
      exact ⟨rfl,congrArg _ hparts,nofun,nofun,fun _ => ⟨_,_,congrArg Prod.fst hpoll⟩,
        Or.inr (.single hpolled)⟩
    | some dropped =>
      dsimp only [Option.getD_some] at hread hparts hfits
      by_cases hnothing : dropped.isEmpty=true
      · rw [if_pos hnothing] at hread
        cases hread
        obtain rfl := isEmpty_iff.mp hnothing
        exact ⟨rfl,congrArg _ hparts,fun _ => by rw [hends rfl,drop_nil],nofun,nofun,
          Or.inr (.single hpolled)⟩
      rw [if_neg hnothing] at hread
      have hpositive := length_pos_iff.mpr fun hnil => hnothing (isEmpty_iff.mpr hnil)
      have hdrop : (pending inner).drop (reader.skip-dropped.length)=
          (pending reader.inner).drop reader.skip := by
        have hall : dropped.drop reader.skip=[] := drop_eq_nil_of_le (by omega)
        rw [← hparts,drop_append,hall,nil_append]
      obtain ⟨hremaining,hlater,hended,hskipped,hwaits,hmoved⟩ := ih (by dsimp only; omega) hread
      rw [hdrop] at hlater hended
      refine ⟨hremaining,hlater,hended,hskipped,hwaits,Or.inr ?_⟩
      rcases hmoved with ⟨_,rfl⟩ | hmoved
      · exact .single hpolled
      · exact .head hpolled hmoved

/-- A read gives a part of what is owed, and an empty one only if nothing is owed. -/
theorem LimitedAsyncRead.pollRead_spec (h : Gives poll pending) {outcome : Option Bytes}
    (hroom : 0 < room) (hread : reader.pollRead poll room=(outcome,next)) :
    outcome.getD []++next.owed pending=reader.owed pending ∧
      (outcome=some [] → reader.owed pending=[]) ∧ (outcome=none→∃ before room,(poll before room).1=none) ∧
      next.remaining+(outcome.getD []).length=reader.remaining ∧
      (reader.remaining≠0→Relation.TransGen (Polled poll) reader.inner next.inner) := by
  unfold LimitedAsyncRead.pollRead at hread
  by_cases hdone : reader.remaining=0
  · rw [if_pos hdone] at hread
    cases hread
    exact ⟨rfl,fun _ => by rw [owed,hdone,take_zero],nofun,rfl,fun hmore => absurd hdone hmore⟩
  rw [if_neg hdone] at hread
  rcases hdiscard : reader.discard poll reader.skip with ⟨ended,later⟩
  obtain ⟨hremaining,hlater,hended,hskipped,hwaits,hmoved⟩ := discard_spec h le_rfl hdiscard
  have howed : later.owed pending=reader.owed pending := by
    rw [owed,hlater,hremaining]
    rfl
  rw [hdiscard] at hread
  match ended,hread with
  | none,hread =>
    cases hread
    exact ⟨howed,nofun,fun _ => hwaits rfl,hremaining,fun _ => hmoved.resolve_left (by simp)⟩
  | some true,hread =>
    cases hread
    exact ⟨howed,fun _ => by rw [owed,hended rfl,take_nil],nofun,hremaining,
      fun _ => hmoved.resolve_left (by simp)⟩
  | some false,hread =>
    have hmost : 0 < min later.remaining room := by omega
    dsimp only at hread
    rw [if_neg (by omega)] at hread
    have hparts := h.parts later.inner (min later.remaining room)
    have hfits := h.fits later.inner (min later.remaining room)
    have hends := h.ends later.inner _ hmost
    have hpolled : Polled poll later.inner _ := ⟨_,hmost,rfl⟩
    have howes : reader.owed pending=(pending later.inner).take later.remaining := by
      rw [← howed,owed,hskipped rfl,drop_zero]
    rcases hpoll : poll later.inner (min later.remaining room) with ⟨answer,inner⟩
    rw [hpoll] at hread hparts hfits hends hpolled
    have hreaches : Relation.TransGen (Polled poll) reader.inner inner := by
      rcases hmoved with ⟨_,rfl⟩ | hmoved
      · exact .single hpolled
      · exact .tail hmoved hpolled
    cases answer with
    | none =>
      cases hread
      refine ⟨?_,nofun,fun _ => ⟨_,_,congrArg Prod.fst hpoll⟩,hremaining,fun _ => hreaches⟩
      rw [howes,← hparts,owed,hskipped rfl]
      rfl
    | some chunk =>
      cases hread
      dsimp only [Option.getD_some] at hparts hfits ⊢
      refine ⟨?_,fun hnothing => ?_,nofun,by omega,fun _ => hreaches⟩
      · rw [howes,← hparts,take_append,take_of_length_le (by omega),owed,hskipped rfl,drop_zero]
      · rw [howes,hends hnothing,take_nil]

end Limits

/-- A limited reader of a file, and requests of the stream so far. -/
structure FileReader extends LimitedAsyncRead PooledFileRead where
  /-- Requests so far. -/
  polls : ℕ

/-- The next item of the stream over a limited reader. A read of nothing ends it. -/
def readerStream (pace : Pace) (bufferCapacity : ℕ) : Source FileReader UInt8
  | reader =>
    let (chunk,later) := reader.pollRead (PooledFileRead.pollRead pace bufferCapacity)
      (bounded (pace.rooms reader.polls) 4096)
    match chunk with
    | none | some [] => (.ok none,⟨later,reader.polls+1⟩)
    | some chunk => (.ok (some chunk),⟨later,reader.polls+1⟩)

section Streams

variable {pace : Pace} {bufferCapacity room : ℕ}

theorem bounded_le (wished most : ℕ) : bounded wished most ≤ most :=
  min_le_right _ _

theorem bounded_pos {most : ℕ} (wished : ℕ) (h : 0 < most) : 0<bounded wished most :=
  lt_min (lt_max_of_lt_left Nat.one_pos) h

/-- A read gives the next bytes, and some if there are any. -/
theorem PooledFileRead.read_spec (hcapacity : 0<bufferCapacity) (reader : PooledFileRead) :
    (reader.read pace bufferCapacity room).1++(reader.read pace bufferCapacity room).2.pending=
        reader.pending ∧ (reader.read pace bufferCapacity room).1.length ≤ room ∧
      (0 < room→(reader.read pace bufferCapacity room).1=[] → reader.pending=[]) := by
  unfold PooledFileRead.read
  split
  · rename_i hcached
    have hpositive := length_pos_iff.mpr hcached
    refine ⟨?_,length_take_le _ _,?_⟩
    · unfold pending
      dsimp only
      rw [← append_assoc,take_append_drop]
    · intro hroom hnothing
      have hlength := congrArg List.length hnothing
      rw [length_take,length_nil] at hlength
      omega
  · rename_i hempty
    have hcached : reader.cached=[] := not_not.mp hempty
    refine ⟨?_,length_take_le _ _,?_⟩
    · unfold pending
      dsimp only
      rw [hcached,nil_append,← append_assoc,take_append_drop,take_append_drop]
    · intro hroom hnothing
      unfold pending
      rw [hcached,nil_append]
      by_contra hrest
      have hpositive := length_pos_iff.mpr hrest
      have hn := bounded_pos (pace.fileReads reader.reads)
        (show 0 < min bufferCapacity reader.rest.length from lt_min hcapacity hpositive)
      have hlength := congrArg List.length hnothing
      rw [length_take,length_take,length_nil] at hlength
      omega

/-- A file gives its bytes in order. -/
theorem pooledFileRead_gives (hcapacity : 0<bufferCapacity) :
    Gives (PooledFileRead.pollRead pace bufferCapacity) PooledFileRead.pending where
  parts reader _ := (reader.read_spec hcapacity).1
  fits reader _ := (reader.read_spec hcapacity).2.1
  ends reader _ hroom hnothing := (reader.read_spec hcapacity).2.2 hroom (Option.some.inj hnothing)

theorem readerStream_keeps (hcapacity : 0<bufferCapacity) :
    Promise (readerStream pace bufferCapacity)
      (fun reader items => items=reader.owed PooledFileRead.pending)
      (fun reader => reader.remaining) := by
  refine ⟨?_⟩
  rintro reader items rfl
  rcases hread : reader.pollRead (PooledFileRead.pollRead pace bufferCapacity)
      (bounded (pace.rooms reader.polls) 4096) with ⟨outcome,later⟩
  obtain ⟨hparts,hend,hwaits,hremaining,_⟩ := LimitedAsyncRead.pollRead_spec
    (pooledFileRead_gives hcapacity) (bounded_pos _ (by decide)) hread
  unfold readerStream
  dsimp only
  rw [hread]
  match outcome,hparts,hend,hwaits,hremaining with
  | none,_,_,hwaits,_ =>
    obtain ⟨_,_,hnone⟩ := hwaits rfl
    cases hnone
  | some [],hparts,hend,_,_ => exact Or.inl ⟨hend rfl,_,rfl,(hparts.trans (hend rfl)).symm⟩
  | some (b::chunk),hparts,_,_,hremaining =>
    refine Or.inr ⟨b::chunk,_,later.owed PooledFileRead.pending,rfl,hparts.symm,rfl,?_⟩
    dsimp only [Option.getD_some,length_cons] at hremaining ⊢
    omega

end Streams

end NebularOs.RawStreams
