import Mathlib
import NebularOs.BlobFormats
import NebularOs.EngineState

/-!
# Compression and shared blocks

The compressor is a parameter. Decoding is a stream that may end in an error, and
readers stop one byte past the length they expect.

A shared block is stored under the hash of its chunk, as it is or compressed behind
a short header. Readers tell the two apart by the first bytes of the file.
-/

namespace NebularOs.SharedBlocks

open ByteFields EngineState BlobFormats List

/-- The compressor. -/
structure Zstd where
  /-- Compressing a chunk with a level and perhaps a dictionary. -/
  compress : ℤ→Option Bytes→Bytes→Except String Bytes
  /-- Compressing a chunk with a level. -/
  encodeAll : ℤ→Bytes→Except String Bytes
  /-- What a decoder with a dictionary puts out, and whether it then ends without an
  error. -/
  decode : Bytes→Bytes→Bytes×Bool
  /-- Name of the dictionary in the header of a frame. -/
  frameDictId : Bytes→Option ℕ
  /-- Name of a dictionary. -/
  dictId : Bytes→Option ℕ
  /-- Decoding without a dictionary gives the chunk of a frame made without one. -/
  decode_encodeAll : ∀ {level chunk frame},encodeAll level chunk=.ok frame →
    decode [] frame=(chunk,true)

/-- Levels that the compressor takes. -/
def clampZstdLevel (level : ℤ) : ℤ :=
  max 1 (min level 22)

/-- Decoding until the end of the frame or until some bytes were put out. -/
def decodeUpTo (zstd : Zstd) (dict frame : Bytes) (limit : ℕ) : Except String Bytes :=
  let (out,ended) := zstd.decode dict frame
  if limit≤out.length then .ok (out.take limit)
  else if ended then .ok out
  else .error "incomplete frame"

theorem decodeUpTo_eq {zstd : Zstd} {dict frame chunk : Bytes} {limit : ℕ}
    (h : zstd.decode dict frame=(chunk,true)) (hlimit : chunk.length<limit) :
    decodeUpTo zstd dict frame limit=.ok chunk := by
  unfold decodeUpTo
  rw [h]
  dsimp only
  rw [if_neg (by omega)]
  rfl

/-- Files of shared blocks, by the hash of their chunk. -/
abbrev BlockFiles := Table BlockHash Bytes

/-- Magic of a compressed block file. -/
def blockChunkMagic : Bytes := [0x4E, 0x4F, 0x53, 0x4B]

/-- Its header: the magic and the length of the chunk. -/
def blockChunkHeaderLen : ℕ := 8

/-- A hash as sixteen hexadecimal digits. -/
def hexText (hash : BlockHash) : String :=
  String.ofList ((Nat.toDigits 16 hash.toNat).leftpad 16 '0')

section Blocks

variable (zstd : Zstd) (hash : Bytes→BlockHash)

/-- What a new block file holds: the compressed chunk if that is smaller, or else the
chunk. -/
def blockBytes (chunk : Bytes) (zstdLevel : ℤ) : Bytes :=
  if 64 ≤ chunk.length then
    match zstd.encodeAll (clampZstdLevel zstdLevel) chunk with
    | .ok compressed =>
      if compressed.length<chunk.length then blockChunkMagic++le 4 chunk.length++compressed
      else chunk
    | .error _ => chunk
  else chunk

/-- Logical bytes of the file of a block. -/
def blockContent (name : BlockHash) (data : Bytes) (expectedLen : ℕ) : Except String Bytes :=
  if blockChunkHeaderLen≤data.length ∧ blockChunkMagic.isPrefixOf data then
    if fromLe (slice 4 4 data)≠expectedLen then
      .error s!"dedup block logical size mismatch for {hexText name}"
    else decodeUpTo zstd [] (data.drop blockChunkHeaderLen) (expectedLen+1)
  else .ok data

/-- Reading a shared block and checking it against its hash. -/
def readLogicalBlock (files : BlockFiles) (name : BlockHash) (expectedLen : ℕ) :
    Except String Bytes :=
  match files.lookup name with
  | none => .error s!"missing dedup block {hexText name}: No such file or directory (os error 2)"
  | some data =>
    match blockContent zstd name data expectedLen with
    | .error e => .error e
    | .ok block =>
      if block.length≠expectedLen then .error s!"dedup block size mismatch for {hexText name}"
      else if hash block≠name then
        .error s!"dedup block {hexText name} does not match its content hash"
      else .ok block

/-- Storing a chunk under its hash, or sharing the block that is there if it holds
exactly this chunk. The last argument is an error of writing the file. -/
def storeBlock (files : BlockFiles) (chunk : Bytes) (zstdLevel : ℤ) (writeError : Option String) :
    Except String (Option BlockHash)×BlockFiles :=
  let name := hash chunk
  match files.lookup name with
  | some _ =>
    match readLogicalBlock zstd hash files name chunk.length with
    | .ok existing => (.ok (if existing=chunk then some name else none),files)
    | .error _ => (.ok none,files)
  | none =>
    match writeError with
    | some e => (.error e,files)
    | none => (.ok (some name),files.insert name (blockBytes zstd chunk zstdLevel))

/-- A chunk that is stored compressed. -/
def StoredWrapped (chunk : Bytes) (zstdLevel : ℤ) : Prop :=
  64 ≤ chunk.length ∧ ∃ compressed,zstd.encodeAll (clampZstdLevel zstdLevel) chunk=.ok compressed ∧
    compressed.length<chunk.length

/-- A chunk that begins like a compressed block file. -/
def LooksWrapped (chunk : Bytes) : Prop :=
  blockChunkHeaderLen ≤ chunk.length ∧ blockChunkMagic<+:chunk

/-- A chunk that is a compressed block file of itself. -/
def WrapsItself (chunk : Bytes) : Prop :=
  fromLe (slice 4 4 chunk)=chunk.length ∧
    decodeUpTo zstd [] (chunk.drop blockChunkHeaderLen) (chunk.length+1)=.ok chunk

variable {zstd hash} {chunk : Bytes} {zstdLevel : ℤ} {name : BlockHash}

theorem blockBytes_of_wrapped (h : StoredWrapped zstd chunk zstdLevel) :
    ∃ compressed,zstd.encodeAll (clampZstdLevel zstdLevel) chunk=.ok compressed ∧
      blockBytes zstd chunk zstdLevel=blockChunkMagic++le 4 chunk.length++compressed := by
  obtain ⟨hlong,compressed,hencode,hshorter⟩ := h
  refine ⟨compressed,hencode,?_⟩
  unfold blockBytes
  rw [if_pos hlong,hencode]
  dsimp only
  rw [if_pos hshorter]

theorem blockBytes_of_not_wrapped (h : ¬StoredWrapped zstd chunk zstdLevel) :
    blockBytes zstd chunk zstdLevel=chunk := by
  unfold blockBytes
  split
  · rename_i hlong
    split
    · rename_i compressed hencode
      split
      · rename_i hshorter
        exact absurd ⟨hlong,compressed,hencode,hshorter⟩ h
      · rfl
    · rfl
  · rfl

theorem blockContent_wrapped {compressed : Bytes} (hlength : chunk.length<2^32)
    (hencode : zstd.encodeAll (clampZstdLevel zstdLevel) chunk=.ok compressed) :
    blockContent zstd name (blockChunkMagic++le 4 chunk.length++compressed) chunk.length=
      .ok chunk := by
  have hsize : slice 4 4 (blockChunkMagic++le 4 chunk.length++compressed)=le 4 chunk.length := by
    rw [append_assoc]
    exact slice_middle rfl (le_length _ _)
  have hread : fromLe (le 4 chunk.length)=chunk.length :=
    fromLe_le_of_lt (hlength.trans_le (by decide))
  have hheader : (blockChunkMagic++le 4 chunk.length).length=blockChunkHeaderLen := by
    simp [blockChunkMagic,blockChunkHeaderLen]
  have hmagic : blockChunkMagic.isPrefixOf (blockChunkMagic++le 4 chunk.length++compressed)=true := by
    rw [append_assoc]
    exact List.isPrefixOf_iff_prefix.mpr (prefix_append _ _)
  have hlong : blockChunkHeaderLen≤(blockChunkMagic++le 4 chunk.length++compressed).length := by
    rw [length_append,hheader]
    omega
  unfold blockContent
  rw [if_pos ⟨hlong,hmagic⟩,hsize,hread,if_neg (not_not.mpr rfl),drop_left' hheader]
  exact decodeUpTo_eq (zstd.decode_encodeAll hencode) (Nat.lt_succ_self _)

theorem blockContent_raw_iff : blockContent zstd name chunk chunk.length=.ok chunk ↔
      ¬LooksWrapped chunk ∨ WrapsItself zstd chunk := by
  unfold blockContent LooksWrapped WrapsItself
  simp only [List.isPrefixOf_iff_prefix]
  by_cases hlooks : blockChunkHeaderLen ≤ chunk.length ∧ blockChunkMagic<+:chunk
  · rw [if_pos hlooks]
    by_cases hsize : fromLe (slice 4 4 chunk)=chunk.length
    · rw [if_neg (not_not.mpr hsize)]
      simp [hlooks,hsize]
    · rw [if_pos hsize]
      simp [hlooks,hsize]
  · rw [if_neg hlooks]
    simp [hlooks]

theorem readLogicalBlock_iff {files : BlockFiles} {data : Bytes}
    (hfile : files.lookup (hash chunk)=some data) :
    readLogicalBlock zstd hash files (hash chunk) chunk.length=.ok chunk ↔
      blockContent zstd (hash chunk) data chunk.length=.ok chunk := by
  unfold readLogicalBlock
  rw [hfile]
  dsimp only
  cases hcontent : blockContent zstd (hash chunk) data chunk.length with
  | error e => simp
  | ok block =>
    dsimp only
    constructor
    · intro h
      split at h
      · cases h
      split at h
      · cases h
      · exact h
    · intro h
      cases h
      rw [if_neg (not_not.mpr rfl),if_neg (not_not.mpr rfl)]

/-- A chunk that was stored or shared is read back exactly if a block of it was
there already, it is stored compressed, it does not begin like a compressed block
file, or it is a compressed block file of itself. -/
theorem stored_block_read_iff {files files' : BlockFiles} {name : BlockHash}
    {writeError : Option String} (hlength : chunk.length<2^32)
    (hstored : storeBlock zstd hash files chunk zstdLevel writeError=(.ok (some name),files')) :
    readLogicalBlock zstd hash files' name chunk.length=.ok chunk ↔
      (files.lookup (hash chunk)).isSome=true ∨ StoredWrapped zstd chunk zstdLevel ∨
        ¬LooksWrapped chunk ∨ WrapsItself zstd chunk := by
  unfold storeBlock at hstored
  dsimp only at hstored
  cases hfile : files.lookup (hash chunk) with
  | some data =>
    rw [hfile] at hstored
    dsimp only at hstored
    cases hread : readLogicalBlock zstd hash files (hash chunk) chunk.length with
    | error e =>
      rw [hread] at hstored
      cases (Prod.mk.inj hstored).1
    | ok existing =>
      rw [hread] at hstored
      obtain ⟨hshared,rfl⟩ := Prod.mk.inj hstored
      have hname := Except.ok.inj hshared
      split at hname
      · rename_i hsame
        cases hname
        rw [hread,hsame]
        simp
      · cases hname
  | none =>
    rw [hfile] at hstored
    cases writeError with
    | some e => cases (Prod.mk.inj hstored).1
    | none =>
      obtain ⟨hname,rfl⟩ := Prod.mk.inj hstored
      cases hname
      have hnew : (files.insert (hash chunk) (blockBytes zstd chunk zstdLevel)).lookup (hash chunk)=
          some (blockBytes zstd chunk zstdLevel) := AList.lookup_insert files
      rw [readLogicalBlock_iff hnew]
      by_cases hwrapped : StoredWrapped zstd chunk zstdLevel
      · obtain ⟨compressed,hencode,hbytes⟩ := blockBytes_of_wrapped hwrapped
        rw [hbytes,blockContent_wrapped hlength hencode]
        simp [hwrapped]
      · rw [blockBytes_of_not_wrapped hwrapped,blockContent_raw_iff]
        simp [hwrapped]

end Blocks

section Samples

/-- A compressor that never makes anything smaller. -/
def plainZstd : Zstd where
  compress := fun _ _ chunk => .ok chunk
  encodeAll := fun _ chunk => .ok chunk
  decode := fun _ frame => (frame,true)
  frameDictId := fun _ => none
  dictId := fun _ => none
  decode_encodeAll := by
    intro level chunk frame hframe
    cases hframe
    rfl

/-- The name in the first byte, unless it is zero. -/
def firstName : Bytes→Option ℕ
  | [] => none
  | b::_ => if b=0 then none else some b.toNat

/-- A compressor whose frames begin with the first byte of the dictionary. A chunk that
is the dictionary takes no more bytes. -/
def namingZstd : Zstd where
  compress _ dict chunk :=
    .ok ((dict.getD []).headD 0::if dict=some chunk then [] else 1::chunk)
  encodeAll _ chunk := .ok (0::1::chunk)
  decode dict frame :=
    match frame.drop 1 with
    | [] => (dict,true)
    | _::chunk => (chunk,true)
  frameDictId := firstName
  dictId := firstName
  decode_encodeAll := by
    rintro level chunk frame hframe
    cases hframe
    rfl

/-- A hash that keeps chunks of up to eight bytes of one length apart: their bytes as
a number. -/
def plainHash (bytes : Bytes) : BlockHash :=
  UInt64.ofNat (fromLe bytes)

/-- A chunk of eight bytes that begins like a compressed block file is stored as it
is, and cannot be read back. -/
theorem magic_chunk_unreadable :
    storeBlock plainZstd plainHash ∅ (blockChunkMagic++[0, 0, 0, 0]) 3 none=
        (.ok (some (plainHash (blockChunkMagic++[0, 0, 0, 0]))),
          (∅ : BlockFiles).insert (plainHash (blockChunkMagic++[0, 0, 0, 0]))
            (blockChunkMagic++[0, 0, 0, 0])) ∧ readLogicalBlock plainZstd plainHash
          ((∅ : BlockFiles).insert (plainHash (blockChunkMagic++[0, 0, 0, 0]))
            (blockChunkMagic++[0, 0, 0, 0])) (plainHash (blockChunkMagic++[0, 0, 0, 0])) 8=
        .error ("dedup block logical size mismatch for "++
          hexText (plainHash (blockChunkMagic++[0, 0, 0, 0]))) := by
  have hstored : blockBytes plainZstd (blockChunkMagic++[0, 0, 0, 0]) 3=blockChunkMagic++[0, 0, 0, 0] :=
    rfl
  have hfile : ((∅ : BlockFiles).insert (plainHash (blockChunkMagic++[0, 0, 0, 0]))
      (blockChunkMagic++[0, 0, 0, 0])).lookup (plainHash (blockChunkMagic++[0, 0, 0, 0]))=
        some (blockChunkMagic++[0, 0, 0, 0]) := AList.lookup_insert _
  constructor
  · unfold storeBlock
    rw [hstored]
    rfl
  · unfold readLogicalBlock
    rw [hfile]
    rfl

/-- A chunk that begins otherwise is read back. -/
theorem other_chunk_readable : ([1, 2, 3] : Bytes).length<2^32 ∧
    storeBlock plainZstd plainHash ∅ [1, 2, 3] 3 none= (.ok (some (plainHash [1, 2, 3])),
          (∅ : BlockFiles).insert (plainHash [1, 2, 3]) ([1, 2, 3] : Bytes)) ∧
      readLogicalBlock plainZstd plainHash
          ((∅ : BlockFiles).insert (plainHash [1, 2, 3]) ([1, 2, 3] : Bytes)) (plainHash [1, 2, 3]) 3=
        .ok [1, 2, 3] := by
  have hlength : ([1, 2, 3] : Bytes).length<2^32 := by decide
  have hstored : storeBlock plainZstd plainHash ∅ [1, 2, 3] 3 none=
      (.ok (some (plainHash [1, 2, 3])),
        (∅ : BlockFiles).insert (plainHash [1, 2, 3]) ([1, 2, 3] : Bytes)) := rfl
  have hlooks : ¬LooksWrapped [1, 2, 3] := fun h => absurd h.1 (by decide)
  exact ⟨hlength,hstored,(stored_block_read_iff hlength hstored).mpr (Or.inr (Or.inr (Or.inl hlooks)))⟩

end Samples

end NebularOs.SharedBlocks
