import Mathlib
import NebularOs.BlobDecoding

/-!
# The cache of decoded blocks

The cache counts the bytes of its blocks and bounds their number and their bytes. Over
any sequence of operations its keys are the ones that were used last, in that order, and
each is kept with the last block that was inserted under it. An insertion drops blocks
from the other end, one by one, as long as a bound is exceeded.
-/

namespace NebularOs.BlockCaches

open ByteFields BlobDecoding Option

variable {Path : Type} [DecidableEq Path]

/-- An empty cache, unless one of its bounds is zero. -/
def withByteBudget (capacity maxBytes : ℕ) : Option (BlockDecodeCache Path) :=
  if capacity=0 ∨ maxBytes=0 then none else some ⟨[],capacity,0,maxBytes⟩

/-- What readers ask of the cache. -/
inductive Operation (Path : Type) where
  /-- They look for a block. -/
  | get (key : BlockKey Path)
  /-- They keep a block. -/
  | insert (key : BlockKey Path) (block : Bytes)

/-- The cache after an operation. -/
def Operation.apply (cache : BlockDecodeCache Path) : Operation Path→BlockDecodeCache Path
  | .get key => (cache.get key).2
  | .insert key block => cache.insert key block

/-- The cache after some operations. -/
def run (cache : BlockDecodeCache Path) (operations : List (Operation Path)) :
    BlockDecodeCache Path :=
  operations.foldl Operation.apply cache

/-- The key that an operation uses: one that is found, or one of a block that is kept. -/
def Operation.used (cache : BlockDecodeCache Path) : Operation Path→Option (BlockKey Path)
  | .get key => (cache.get key).1.map fun _ => key
  | .insert key block => if block.length ≤ cache.maxBytes then some key else none

/-- Keys that some operations use, one after the other. -/
def used : BlockDecodeCache Path → List (Operation Path) → List (BlockKey Path)
  | _,[] => []
  | cache,operation::operations =>
    (operation.used cache).toList++used (operation.apply cache) operations

/-- The block that an operation puts under a key. -/
def Operation.stored (maxBytes : ℕ) (key : BlockKey Path) : Operation Path→Option Bytes
  | .get _ => none
  | .insert key' block => if key'=key ∧ block.length ≤ maxBytes then some block else none

/-- The last block that some operations put under a key. -/
def lastStored (maxBytes : ℕ) (key : BlockKey Path) (operations : List (Operation Path)) :
    Option Bytes :=
  (operations.filterMap (Operation.stored maxBytes key)).getLast?

/-- Bytes of some blocks. -/
def bytesOf (entries : List (BlockKey Path×Bytes)) : ℕ :=
  (entries.map fun entry => entry.2.length).sum

/-- The cache with other blocks. -/
def holding (cache : BlockDecodeCache Path) (entries : List (BlockKey Path×Bytes)) :
    BlockDecodeCache Path :=
  {cache with entries := entries,bytes := bytesOf entries}

/-- Blocks with one in front, which replaces that of its key. -/
def inFront (key : BlockKey Path) (block : Bytes) (entries : List (BlockKey Path×Bytes)) :
    List (BlockKey Path×Bytes) :=
  (key,block)::entries.filter fun other => other.1≠key

/-- Some blocks are over a bound. -/
def Exceeds (cache : BlockDecodeCache Path) (entries : List (BlockKey Path×Bytes)) : Prop :=
  cache.maxBytes<bytesOf entries ∨ cache.capacity<entries.length

section Blocks

variable {cache : BlockDecodeCache Path} {entries : List (BlockKey Path×Bytes)} {key : BlockKey Path}

omit [DecidableEq Path] in
theorem evict_take {fuel count : ℕ} (hfuel : count≤fuel) (hcount : count≤entries.length) :
    ∃ kept ≤ count,(holding cache (entries.take count)).evict fuel=holding cache (entries.take kept) ∧
      (∀ more,kept < more→more ≤ count→Exceeds cache (entries.take more)) ∧
      (kept=0 ∨ ¬Exceeds cache (entries.take kept)) := by
  induction count generalizing fuel with
  | zero =>
    refine ⟨0,le_refl 0,?_,fun more hmore hle => by omega,Or.inl rfl⟩
    cases fuel with
    | zero => rfl
    | succ fuel =>
      unfold BlockDecodeCache.evict
      split_ifs <;> rfl
  | succ count ih =>
    obtain ⟨fuel,rfl⟩ : ∃ less,fuel=less+1 := ⟨fuel-1,by omega⟩
    have hlast : (entries.take (count+1)).getLast?=some entries[count] := by
      rw [List.getLast?_take,if_neg (by omega),Nat.add_sub_cancel,List.getElem?_eq_getElem hcount]
      rfl
    have hless : (entries.take (count+1)).dropLast=entries.take count := by
      rw [List.dropLast_eq_take,List.take_take,List.length_take]
      congr 1
      omega
    have hbytes : bytesOf (entries.take (count+1))=
        bytesOf (entries.take count)+(entries[count]).2.length := by
      rw [List.take_succ_eq_append_getElem hcount,bytesOf,List.map_append,List.sum_append]
      rfl
    by_cases hover : Exceeds cache (entries.take (count+1))
    · obtain ⟨kept,hle,hevict,hexceeds,hfits⟩ := ih (Nat.le_of_succ_le_succ hfuel) (by omega)
      refine ⟨kept,by omega,?_,fun more hmore hmore' => ?_,hfits⟩
      · refine (if_pos hover).trans ?_
        dsimp only [holding]
        rw [hlast]
        dsimp only
        rwa [hless,hbytes,Nat.add_sub_cancel]
      · by_cases hlast : more=count+1
        · exact hlast ▸ hover
        · exact hexceeds more hmore (by omega)
    · refine ⟨count+1,le_refl _,?_,fun more hmore hle => by omega,Or.inr hover⟩
      exact if_neg hover

theorem perm_of_find (hnodup : (entries.map Prod.fst).Nodup) {entry : BlockKey Path×Bytes}
    (hfound : entries.find? (fun entry => entry.1=key)=some entry) :
    entries.Perm (entry::entries.filter fun other => other.1≠key) := by
  have hkey : entry.1=key := by simpa using List.find?_some hfound
  have hmem := List.mem_of_find?_eq_some hfound
  have hfilter : entries.filter (fun other => other.1≠key)=entries.erase entry := by
    rw [(List.Nodup.of_map _ hnodup).erase_eq_filter]
    refine List.filter_congr fun other hother => ?_
    have hsame : other.1=key ↔ other=entry :=
      ⟨fun heq => List.inj_on_of_nodup_map hnodup hother hmem (heq.trans hkey.symm),
        fun heq => heq ▸ hkey⟩
    simp [hsame,bne,beq_eq_decide]
  rw [hfilter]
  exact List.perm_cons_erase hmem

omit [DecidableEq Path] in
theorem bytesOf_perm {others : List (BlockKey Path×Bytes)} (h : entries.Perm others) :
    bytesOf entries=bytesOf others :=
  (h.map _).sum_eq

theorem dedup_concat (uses : List (BlockKey Path)) (key : BlockKey Path) :
    (uses++[key]).dedup=uses.dedup.filter (fun other => other≠key)++[key] := by
  induction uses with
  | nil => rfl
  | cons first uses ih =>
    by_cases hmem : first∈uses
    · rw [List.cons_append,List.dedup_cons_of_mem (List.mem_append_left _ hmem),
        List.dedup_cons_of_mem hmem,ih]
    · rw [List.dedup_cons_of_notMem hmem,List.cons_append]
      by_cases hkey : first=key
      · rw [List.dedup_cons_of_mem (by simp [hkey]),List.filter_cons_of_neg (by simp [hkey]),ih]
      · rw [List.dedup_cons_of_notMem (by simp [hmem,hkey]),List.filter_cons_of_pos (by simp [hkey]),
          ih,List.cons_append]

theorem recent_cons {uses : List (BlockKey Path)}
    (h : (entries.map Prod.fst).reverse<:+uses.dedup) (key : BlockKey Path) (block : Bytes) :
    ((inFront key block entries).map Prod.fst).reverse<:+(uses++[key]).dedup := by
  have hmap : (entries.filter fun other => other.1≠key).map Prod.fst=
      (entries.map Prod.fst).filter fun other => other≠key := by
    rw [List.filter_map]
    rfl
  obtain ⟨older,holder⟩ := h.filter fun other => decide (other≠key)
  refine ⟨older,?_⟩
  rw [inFront,dedup_concat,← holder,List.map_cons,List.reverse_cons,hmap,List.filter_reverse,
    List.append_assoc]

end Blocks

/-- What holds of the cache after some operations. -/
structure Kept (start : BlockDecodeCache Path) (operations : List (Operation Path))
    (cache : BlockDecodeCache Path) : Prop where
  /-- The bound on the number of blocks is the same. -/
  capacity : cache.capacity=start.capacity
  /-- The bound on the bytes is the same. -/
  maxBytes : cache.maxBytes=start.maxBytes
  /-- The bytes are counted. -/
  bytes : cache.bytes=bytesOf cache.entries
  /-- No bound is exceeded. -/
  within : ¬Exceeds start cache.entries
  /-- The keys are those used last, in that order. -/
  recent : (cache.entries.map Prod.fst).reverse<:+(used start operations).dedup
  /-- Each has the last block that was inserted. -/
  last : ∀ entry∈cache.entries,lastStored start.maxBytes entry.1 operations=some entry.2

section Runs

variable {start cache : BlockDecodeCache Path} {operations : List (Operation Path)}
  {key : BlockKey Path} {block : Bytes}

theorem used_concat (operation : Operation Path) : used start (operations++[operation])=
    used start operations++(operation.used (run start operations)).toList := by
  induction operations generalizing start with
  | nil => simp [used,run]
  | cons first operations ih =>
    rw [List.cons_append,used,used,ih,List.append_assoc]
    rfl

theorem lastStored_concat (maxBytes : ℕ) (key : BlockKey Path) (operation : Operation Path) :
    lastStored maxBytes key (operations++[operation])=
      (operation.stored maxBytes key).or (lastStored maxBytes key operations) := by
  rw [lastStored,List.filterMap_append,List.getLast?_append,lastStored]
  cases hstored : operation.stored maxBytes key with
  | none | some block => simp [hstored]

theorem Kept.nodup (h : Kept start operations cache) : (cache.entries.map Prod.fst).Nodup :=
  List.nodup_reverse.mp ((List.nodup_dedup _).sublist h.recent.sublist)

theorem Kept.insert_eq (h : Kept start operations cache) (hblock : block.length ≤ start.maxBytes)
    (key : BlockKey Path) :
    ∃ kept,cache.insert key block=holding cache ((inFront key block cache.entries).take kept) ∧
      (∀ more,kept < more→more≤(inFront key block cache.entries).length →
        Exceeds start ((inFront key block cache.entries).take more)) ∧
      (kept=0 ∨ ¬Exceeds start ((inFront key block cache.entries).take kept)) := by
  set entries := inFront key block cache.entries with hentries
  obtain ⟨kept,_,hevict,hexceeds,hfits⟩ := @evict_take Path cache entries entries.length
    entries.length (le_refl _) (le_refl _)
  have hsame : ∀ {entries},Exceeds cache entries=Exceeds start entries := by
    intro entries
    rw [Exceeds,h.maxBytes,h.capacity,Exceeds]
  simp only [hsame] at hexceeds hfits
  refine ⟨kept,?_,hexceeds,hfits⟩
  rw [List.take_length] at hevict
  rw [← hevict,BlockDecodeCache.insert,if_neg (by rw [h.maxBytes]; omega)]
  rw [holding,h.bytes]
  cases hfound : cache.entries.find? fun entry => entry.1=key with
  | none =>
    have hothers : cache.entries.filter (fun other => other.1≠key)=cache.entries :=
      List.filter_eq_self.mpr fun other hother => by
        simpa using List.find?_eq_none.mp hfound other hother
    rw [hentries,inFront,hothers]
    simp [bytesOf,Nat.add_comm]
  | some entry =>
    rw [bytesOf_perm (perm_of_find h.nodup hfound)]
    simp [hentries,inFront,bytesOf,Nat.add_comm]

theorem Kept.get (h : Kept start operations (run start operations)) (key : BlockKey Path) :
    Kept start (operations++[.get key]) ((run start operations).get key).2 := by
  have hused : used start (operations++[.get key])=used start operations++
      (((run start operations).get key).1.map fun _ => key).toList := used_concat _
  have hstored : ∀ other,lastStored start.maxBytes other (operations++[.get key])=
      lastStored start.maxBytes other operations := fun other => lastStored_concat _ other _
  set cache := run start operations
  unfold BlockDecodeCache.get at hused ⊢
  cases hfound : cache.entries.find? (fun entry => entry.1=key) with
  | none =>
    rw [hfound,map_none,toList_none,List.append_nil] at hused
    exact ⟨h.capacity,h.maxBytes,h.bytes,h.within,hused ▸ h.recent,
      fun entry hentry => (hstored _).trans (h.last entry hentry)⟩
  | some entry =>
    have hkey : entry.1=key := by simpa using List.find?_some hfound
    have hperm := perm_of_find h.nodup hfound
    rw [hfound,map_some,toList_some] at hused
    subst hkey
    refine ⟨h.capacity,h.maxBytes,h.bytes.trans (bytesOf_perm hperm),?_,
      hused ▸ recent_cons h.recent entry.1 entry.2,
      fun entry hentry => (hstored _).trans (h.last entry (hperm.mem_iff.mpr hentry))⟩
    rw [Exceeds,← bytesOf_perm hperm,← hperm.length_eq]
    exact h.within

theorem Kept.insert (h : Kept start operations (run start operations)) (key : BlockKey Path)
    (block : Bytes) :
    Kept start (operations++[.insert key block]) ((run start operations).insert key block) := by
  have hused : used start (operations++[.insert key block])=used start operations++
      (if block.length≤(run start operations).maxBytes then some key else none).toList :=
    used_concat _
  have hstored : ∀ other,lastStored start.maxBytes other (operations++[.insert key block])=
      (if key=other ∧ block.length ≤ start.maxBytes then some block else none).or
        (lastStored start.maxBytes other operations) := fun other => lastStored_concat _ other _
  rw [h.maxBytes] at hused
  by_cases hblock : block.length ≤ start.maxBytes
  · obtain ⟨kept,hinsert,_,hfits⟩ := h.insert_eq hblock key
    rw [if_pos hblock] at hused
    have hrecent := recent_cons h.recent key block
    rw [hinsert]
    refine ⟨h.capacity,h.maxBytes,rfl,?_,?_,fun entry hentry => ?_⟩
    · rcases hfits with rfl | hfits
      · simp [holding,Exceeds,bytesOf]
      · exact hfits
    · rw [hused]
      refine List.IsSuffix.trans (List.reverse_suffix.mpr ?_) hrecent
      exact List.IsPrefix.map _ ( List.take_prefix kept _)
    · rw [hstored]
      rcases List.mem_cons.mp (List.mem_of_mem_take hentry) with rfl | hold
      · rw [if_pos ⟨rfl,hblock⟩,some_or]
      · have hother := List.mem_filter.mp hold
        have hne : entry.1≠key := by simpa using hother.2
        rw [if_neg fun heq => hne heq.1.symm,none_or]
        exact h.last entry hother.1
  · rw [if_neg hblock,toList_none,List.append_nil] at hused
    rw [BlockDecodeCache.insert,h.maxBytes,if_pos (not_le.mp hblock)]
    refine ⟨h.capacity,h.maxBytes,h.bytes,h.within,hused ▸ h.recent,fun entry hentry => ?_⟩
    rw [hstored,if_neg fun heq => hblock heq.2,none_or]
    exact h.last entry hentry

/-- The cache keeps the most recent entries after any run. -/
theorem kept_run (hbytes : start.bytes=0) (hnone : start.entries=[])
    (operations : List (Operation Path)) : Kept start operations (run start operations) := by
  induction operations using List.reverseRecOn with
  | nil =>
    refine ⟨rfl,rfl,?_,?_,?_,fun entry hentry => ?_⟩
    · rw [run,List.foldl_nil,hbytes,hnone]
      rfl
    · simp [run,hnone,Exceeds,bytesOf]
    · simp [run,hnone]
    · rw [run,List.foldl_nil,hnone] at hentry
      cases hentry
  | append_singleton operations operation ih =>
    rw [run,List.foldl_append]
    cases operation with
    | get key => exact ih.get key
    | insert key block => exact ih.insert key block

theorem Kept.get_insert (h : Kept start operations cache) (hcapacity : 0<start.capacity)
    (hblock : block.length ≤ start.maxBytes) (key : BlockKey Path) :
    ((cache.insert key block).get key).1=some block := by
  obtain ⟨kept,hinsert,hexceeds,_⟩ := h.insert_eq hblock key
  rw [hinsert]
  cases kept with
  | zero =>
    have hone := hexceeds 1 (by omega) (by simp [inFront])
    simp only [inFront,Exceeds,bytesOf,List.take_succ_cons,List.take_zero,List.map_cons,List.map_nil,
      List.sum_cons,List.sum_nil,List.length_cons,List.length_nil] at hone
    omega
  | succ kept => simp [inFront,holding,BlockDecodeCache.get]

end Runs

end NebularOs.BlockCaches
