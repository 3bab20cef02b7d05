import Mathlib
import NebularOs.FilenameDecoding
import NebularOs.PrefixDeletion

/-!
# Deleting a prefix without a metadata table

In blob-only mode the stored keys are found by walking the bucket's directories.
The walk stops as soon as it has one key more than a page, and only then are the
keys it found sorted. Which keys a page takes therefore depends on the order in
which directories list their entries, while the key to start after next is a key
of the page.

A stored key lies in one file, at the path of new writes. Directories list their
entries in any order, and each walk may see another one.
-/

namespace NebularOs.BlobOnlyDeletion

open PercentCoding BlobFilenames BlobPaths FilenameDecoding Chunks PrefixDeletion List

/-- What a directory lists: a file, a directory with its own entries, or
something else. -/
inductive DirEntry
  | file (name : Text)
  | dir (name : Text) (entries : List DirEntry)
  | other (name : Text)

mutual

/-- How many directories an entry holds. -/
def DirEntry.dirs : DirEntry→ℕ
  | .file _ => 0
  | .dir _ entries => dirsIn entries+1
  | .other _ => 0

/-- How many directories some entries hold. -/
def dirsIn : List DirEntry→ℕ
  | [] => 0
  | entry::entries => entry.dirs+dirsIn entries

end

/-- A node that keeps no metadata, and one of its buckets. -/
structure BlobOnlyStore where
  /-- Hash of keys for the shard directories. -/
  hash : List UInt8→UInt64
  /-- Whether filenames are portable ones. -/
  portable : Bool
  /-- The data directory. -/
  base : Text
  /-- The bucket. -/
  bucket : Text
  /-- Most keys of one deletion. -/
  bulkDeleteBatchLimit : ℕ
  /-- The limit was clamped when the node started. -/
  clamped : 1≤bulkDeleteBatchLimit ∧ bulkDeleteBatchLimit≤10000
  /-- The bucket's name was accepted. -/
  accepted : sanitizeBucket bucket=.ok bucket

/-- A path below the bucket's directory as text. -/
def relPath (names : List Text) : Text :=
  (List.intercalate ['/'] names).map fun ch => if ch = '\\' then '/' else ch

/-- Reading the entries of one directory, until enough keys are found.
Directories are put on the stack. -/
def readEntries (keyPrefix : Text) (limit : ℕ) (dir : List Text) :
    List DirEntry → List (List Text×List DirEntry) → List Text →
      List (List Text×List DirEntry)×List Text
  | [],stack,keys => (stack,keys)
  | entry::entries,stack,keys =>
    if limit≤keys.length then (stack,keys)
    else match entry with
      | .dir name inner =>
        readEntries keyPrefix limit dir entries ((dir++[name],inner)::stack) keys
      | .other _ => readEntries keyPrefix limit dir entries stack keys
      | .file name =>
        match objectKeyFromBlobRelpath (relPath (dir++[name])) with
        | none => readEntries keyPrefix limit dir entries stack keys
        | some key =>
          if !keyPrefix.isEmpty && !keyPrefix.isPrefixOf key then
            readEntries keyPrefix limit dir entries stack keys
          else readEntries keyPrefix limit dir entries stack (keys++[key])

/-- Walking the directories on the stack, the one put there last first. -/
def walkStack (keyPrefix : Text) (limit : ℕ) :
    ℕ → List (List Text×List DirEntry) → List Text → List Text
  | 0,_,keys => keys
  | _,[],keys => keys
  | fuel+1,(dir,entries)::stack,keys =>
    if limit≤keys.length then keys
    else
      let (stack,keys) := readEntries keyPrefix limit dir entries stack keys
      walkStack keyPrefix limit fuel stack keys

/-- Keys of a bucket that a walk finds first, sorted. -/
def listBlobOnlyKeys (root : List DirEntry) (keyPrefix : Text)
    (limit : ℕ) : List Text :=
  (walkStack keyPrefix limit (dirsIn root+1) [([],root)] []).insertionSort (· ≤ ·)

/-- The file of a key at the path of new writes. -/
def blobFile (store : BlobOnlyStore) (key : Text) : Option PosixFile :=
  fileNamed (blobPath store.hash store.portable store.base store.bucket key)

/-- Keys that a bucket stores, each in one file. -/
structure StoredKeys (store : BlobOnlyStore) where
  /-- The keys. -/
  keys : List Text
  /-- Each is stored once. -/
  nodup : keys.Nodup
  /-- Each was accepted. -/
  accepted : ∀ key∈keys,∃ raw,sanitizeKey raw=.ok key
  /-- Each has a file. -/
  filed : ∀ key∈keys,(blobFile store key).isSome=true

variable {store : BlobOnlyStore}

/-- Files of stored keys. -/
def filesOf (stored : StoredKeys store) : Files Unit :=
  stored.keys.filterMap fun key => (blobFile store key).map fun file => (file,())

/-- Some of the stored keys. -/
def StoredKeys.restrict (stored : StoredKeys store) (stays : Text→Bool) : StoredKeys store where
  keys := stored.keys.filter stays
  nodup := stored.nodup.filter _
  accepted := fun key hkey => stored.accepted key (mem_of_mem_filter hkey)
  filed := fun key hkey => stored.filed key (mem_of_mem_filter hkey)

/-- Dropping the blob of a key: every existing candidate file is unlinked. -/
def dropObjectBlob (stored : StoredKeys store) (key : Text) : StoredKeys store :=
  let files := dropCandidates store.hash store.portable store.base store.bucket key (filesOf stored)
  stored.restrict fun other =>
    (blobFile store other).any fun file => (files.lookup file).isSome

/-- Dropping the blobs of one chunk. -/
def dropChunk (progress : DeletePrefixOutcome×StoredKeys store) (chunk : List DeletedObjectRef) :
    DeletePrefixOutcome×StoredKeys store :=
  let (outcome,stored) := progress
  ({ outcome with
      deleted := outcome.deleted+chunk.length
      deletedObjects := outcome.deletedObjects++chunk },
    (chunk.map DeletedObjectRef.key).foldl dropObjectBlob stored)

/-- Deleting keys chunk by chunk. -/
def dropObjects (stored : StoredKeys store) (pending : List DeletedObjectRef) :
    DeletePrefixOutcome×StoredKeys store :=
  (chunks bulkDeleteChunk pending).foldl dropChunk (.none,stored)

/-- One page of a deletion in blob-only mode. The page is truncated when the walk
found more keys than a page has, before those up to the start are taken out. -/
def deleteBlobOnlyPrefix (stored : StoredKeys store) (root : List DirEntry) (keyPrefix : Text)
    (limit : ℕ) (startAfter : Text) : DeletePrefixOutcome×StoredKeys store :=
  let keys := listBlobOnlyKeys root keyPrefix (limit+1)
  let truncated := decide (limit<keys.length)
  let page := (keys.filter fun key => decide (startAfter<key)).take limit
  let nextStartAfter := if truncated then page.getLast? else none
  let (outcome,stored) := dropObjects stored (page.map fun key => ⟨key,none⟩)
  ({ outcome with truncated := truncated, nextStartAfter := nextStartAfter },stored)

/-- Keys of one call. -/
def blobBatchLimit (store : BlobOnlyStore) (limit : Option ℕ) : ℕ :=
  max (min (limit.getD store.bulkDeleteBatchLimit) store.bulkDeleteBatchLimit) 1

/-- Deletion by prefix in blob-only mode. -/
def deleteObjectsByPrefix (stored : StoredKeys store) (root : List DirEntry) (rawPrefix : Text)
    (limit : Option ℕ) (startAfter : Option Text) :
    Except RequestError (DeletePrefixOutcome×StoredKeys store) :=
  if rawPrefix.isEmpty then .error .invalidKey
  else match sanitizeKey rawPrefix with
    | .error _ => .error .invalidKey
    | .ok safePrefix => .ok (deleteBlobOnlyPrefix stored root safePrefix (blobBatchLimit store limit)
        (startAfter.getD []))

section Filenames

variable {key raw : Text}

theorem plain_of_accepted (h : sanitizeKey raw=.ok key) : key≠[] ∧ '\\'∉key := by
  unfold sanitizeKey at h
  dsimp only at h
  split_ifs at h with hempty hslash hdrive hdots hlines
  cases h
  refine ⟨fun hnil => hempty (isEmpty_iff.mpr (map_eq_nil_iff.mp hnil)),fun hmem => ?_⟩
  obtain ⟨ch,_,heq⟩ := mem_map.mp hmem
  split_ifs at heq with hback
  · revert heq
    decide
  · exact hback heq

theorem backslash_not_mem_encodeBlobFilename (portable : Bool) (h : '\\'∉key) :
    '\\'∉encodeBlobFilename portable key := by
  cases portable with
  | false => exact fun hmem => h (mem_encodePlain (Or.inr rfl) hmem).2
  | true => exact not_mem_encodePortable (Or.inr rfl) key

/-- The file that is written for an accepted key spells that key. -/
theorem objectKey_of_relPath (hash : List UInt8→UInt64) (portable : Bool)
    (h : sanitizeKey raw=.ok key) : objectKeyFromBlobRelpath
      (relPath [hashPrefix hash key,encodeBlobFilename portable key])=some key := by
  obtain ⟨hkey,hplain⟩ := plain_of_accepted h
  have hback : '\\'∉hashPrefix hash key ++ '/' :: encodeBlobFilename portable key := by
    simp only [mem_append,mem_cons,not_or]
    exact ⟨(hashPrefix_plain hash key).2,by decide,
      backslash_not_mem_encodeBlobFilename portable hplain⟩
  have hrel : relPath [hashPrefix hash key,encodeBlobFilename portable key]=
      hashPrefix hash key ++ '/' :: encodeBlobFilename portable key := by
    have hjoin : List.intercalate ['/'] [hashPrefix hash key,encodeBlobFilename portable key]=
        hashPrefix hash key ++ '/' :: encodeBlobFilename portable key := by
      simp [List.intercalate]
    unfold relPath
    rw [hjoin]
    refine (map_congr_left fun ch hch => ?_).trans (map_id _)
    have hother : ch ≠ '\\' := fun heq => hback (heq ▸ hch)
    exact if_neg hother
  rw [hrel]
  exact objectKeyFromBlobRelpath_candidate hash hkey (.inl (flatName_encodeBlobFilename portable key))

end Filenames

section Walks

variable {keyPrefix : Text} {limit : ℕ}

/-- Entries of a bucket's directory whose shards list some names. -/
def bucketTree (shards : List (Text×List Text)) : List DirEntry :=
  shards.map fun shard => .dir shard.1 (shard.2.map .file)

/-- Keys of the files that a directory lists. -/
def keysIn (dir : List Text) (entries : List DirEntry) : List Text :=
  entries.filterMap fun
    | .file name => objectKeyFromBlobRelpath (relPath (dir++[name]))
    | _ => none

/-- Directories that a directory lists. -/
def subdirs (dir : List Text) (entries : List DirEntry) : List (List Text×List DirEntry) :=
  entries.filterMap fun
    | .dir name inner => some (dir++[name],inner)
    | _ => none

/-- Keys of the files that a shard lists. -/
def fileKeys (shard : Text×List Text) : List Text :=
  shard.2.filterMap fun name => objectKeyFromBlobRelpath (relPath [shard.1,name])

/-- Keys in the order in which a walk comes to them: the directory that was listed
last is read first. -/
def visits (shards : List (Text×List Text)) : List Text :=
  shards.reverse.flatMap fileKeys

/-- Keys under a prefix. -/
def under (keyPrefix : Text) (keys : List Text) : List Text :=
  keys.filter fun key => keyPrefix.isPrefixOf key

theorem under_append (keys keys' : List Text) :
    under keyPrefix (keys++keys')=under keyPrefix keys++under keyPrefix keys' :=
  filter_append _ _

theorem mem_under {keys : List Text} {key : Text} :
    key∈under keyPrefix keys ↔ key∈keys ∧ keyPrefix<+:key := by
  unfold under
  rw [mem_filter,List.isPrefixOf_iff_prefix]

/-- Reading one entry puts its directory on the stack or adds the key of its file. -/
theorem readEntries_cons {keys : List Text} (h : ¬limit≤keys.length) (dir : List Text)
    (entry : DirEntry) (entries : List DirEntry) (stack : List (List Text×List DirEntry)) :
    readEntries keyPrefix limit dir (entry::entries) stack keys=
      readEntries keyPrefix limit dir entries (subdirs dir [entry]++stack)
        (keys++under keyPrefix (keysIn dir [entry])) := by
  rw [readEntries.eq_def]
  dsimp only
  rw [if_neg h]
  have hnone : keys++under keyPrefix []=keys := append_nil keys
  cases entry with
  | dir name inner | other name =>
    exact congrArg (readEntries keyPrefix limit dir entries _) hnone.symm
  | file name =>
    have hkeys : keysIn dir [.file name]=
      (objectKeyFromBlobRelpath (relPath (dir++[name]))).toList := by
        cases hkey : objectKeyFromBlobRelpath (relPath (dir++[name])) <;> simp [keysIn,hkey]
    rw [hkeys]
    dsimp only
    cases objectKeyFromBlobRelpath (relPath (dir++[name])) with
    | none => exact congrArg (readEntries keyPrefix limit dir entries stack) hnone.symm
    | some key =>
      by_cases hunder : keyPrefix.isPrefixOf key=true
      · simp [under,subdirs,hunder]
      · have hnonempty : keyPrefix≠[] := by
          rintro rfl
          exact hunder rfl
        simp [under,subdirs,hunder,hnonempty]

theorem keysIn_append (dir : List Text) (entries entries' : List DirEntry) :
    keysIn dir (entries++entries')=keysIn dir entries++keysIn dir entries' :=
  filterMap_append

/-- Reading a directory reads some of its entries, and all of them unless there are enough
keys then. -/
theorem readEntries_spec (keyPrefix : Text) (dir : List Text) (entries : List DirEntry)
    (stack : List (List Text×List DirEntry)) {keys : List Text} (hroom : keys.length≤limit) :
    ∃ read rest found,entries=read++rest ∧ found=keys++under keyPrefix (keysIn dir read) ∧
      readEntries keyPrefix limit dir entries stack keys=((subdirs dir read).reverse++stack,found) ∧
      found.length≤limit ∧ (rest≠[] → limit≤found.length) := by
  induction entries generalizing stack keys with
  | nil => exact ⟨[],[],keys,rfl,(append_nil keys).symm,rfl,hroom,fun h => absurd rfl h⟩
  | cons entry entries ih =>
    by_cases hfull : limit≤keys.length
    · refine ⟨[],entry::entries,keys,rfl,(append_nil keys).symm,?_,hroom,fun _ => hfull⟩
      unfold readEntries
      exact if_pos hfull
    have hone : (keys++under keyPrefix (keysIn dir [entry])).length≤limit := by
      have hkeys : (under keyPrefix (keysIn dir [entry])).length≤1 :=
        (length_filter_le _ _).trans (length_filterMap_le _ _)
      rw [length_append]
      omega
    obtain ⟨read,rest,found,rfl,hfound,hread,hrest⟩ := ih (subdirs dir [entry]++stack) hone
    refine ⟨entry::read,rest,found,rfl,?_,?_,hrest⟩
    · rw [hfound,append_assoc,← under_append,← keysIn_append]
      rfl
    · have hself : (subdirs dir [entry]).reverse=subdirs dir [entry] := by cases entry <;> rfl
      have hdirs : subdirs dir (entry::read)=subdirs dir [entry]++subdirs dir read :=
        filterMap_append (l := [entry])
      rw [readEntries_cons hfull,hread,hdirs,reverse_append,hself,append_assoc]

/-- Reading the files of a shard adds their keys until there are enough. -/
theorem readEntries_files (shard : Text×List Text) (stack : List (List Text×List DirEntry))
    {keys : List Text} (hroom : keys.length≤limit) :
    readEntries keyPrefix limit [shard.1] (shard.2.map .file) stack keys=
      (stack,(keys++under keyPrefix (fileKeys shard)).take limit) := by
  have hkeys : ∀ names : List Text,keysIn [shard.1] (names.map .file)=fileKeys (shard.1,names) :=
    fun names => filterMap_map
  have hdirs : ∀ names : List Text,subdirs [shard.1] (names.map .file)=[] := fun names => by simp [subdirs]
  obtain ⟨read,rest,found,hentries,rfl,hread,hle,hfull⟩ :=
    readEntries_spec keyPrefix [shard.1] (shard.2.map .file) stack hroom
  obtain ⟨names,others,hnames,rfl,rfl⟩ := map_eq_append_iff.mp hentries
  rw [hread,hdirs,← hkeys shard.2,hentries,keysIn_append,under_append,← append_assoc]
  cases others with
  | nil => exact congrArg (Prod.mk stack) (by simpa [keysIn,under] using (take_of_length_le hle).symm)
  | cons other others =>
    rw [← le_antisymm hle (hfull (cons_ne_nil _ _)),take_left]
    rfl

theorem readEntries_shards (hlimit : 0<limit) (shards : List (Text×List Text))
    (stack : List (List Text×List DirEntry)) :
    readEntries keyPrefix limit [] (bucketTree shards) stack []=
      ((shards.reverse.map fun shard => ([shard.1],shard.2.map .file))++stack,[]) := by
  induction shards generalizing stack with
  | nil => rfl
  | cons shard shards ih =>
    have htree : bucketTree (shard::shards)=
        DirEntry.dir shard.1 (shard.2.map .file)::bucketTree shards := rfl
    rw [htree,readEntries_cons (Nat.not_le.mpr hlimit)]
    refine (ih _).trans ?_
    rw [reverse_cons,map_append,append_assoc]
    rfl

theorem walkStack_shards (shards : List (Text×List Text)) {fuel : ℕ} (hfuel : shards.length≤fuel)
    {keys : List Text} (hroom : keys.length≤limit) : walkStack keyPrefix limit fuel
        (shards.map fun shard => ([shard.1],shard.2.map .file)) keys=
      (keys++under keyPrefix (shards.flatMap fileKeys)).take limit := by
  induction shards generalizing fuel keys with
  | nil =>
    have hnone : under keyPrefix (([] : List (Text×List Text)).flatMap fileKeys)=[] := rfl
    rw [hnone,append_nil,take_of_length_le hroom]
    cases fuel with
    | zero | succ fuel => rfl
  | cons shard shards ih =>
    rw [length_cons] at hfuel
    obtain ⟨less,rfl⟩ : ∃ less,fuel=less+1 := Nat.exists_eq_succ_of_ne_zero (by omega)
    rw [map_cons,flatMap_cons,under_append]
    unfold walkStack
    by_cases hfull : limit≤keys.length
    · have hlength : keys.length=limit := by omega
      rw [if_pos hfull,← hlength,take_left]
    rw [if_neg hfull,readEntries_files _ _ hroom]
    dsimp only
    have hless : shards.length≤less := by omega
    rw [ih hless (length_take_le _ _)]
    -- Keys beyond the limit are cut off either way.
    rcases Nat.le_total limit (keys++under keyPrefix (fileKeys shard)).length with hlong | hshort
    · rw [← append_assoc,take_append_of_le_length hlong]
      exact take_left' (length_take_of_le hlong)
    · rw [take_of_length_le hshort,append_assoc]

theorem dirsIn_bucketTree (shards : List (Text×List Text)) :
    dirsIn (bucketTree shards)=shards.length := by
  have hfiles : ∀ names : List Text,dirsIn (names.map .file)=0 := by
    intro names
    induction names with
    | nil => rfl
    | cons name names ih =>
      rw [map_cons,dirsIn,ih]
      rfl
  induction shards with
  | nil => rfl
  | cons shard shards ih =>
    have htree : bucketTree (shard::shards)=
        DirEntry.dir shard.1 (shard.2.map .file)::bucketTree shards := rfl
    rw [htree,dirsIn,ih,DirEntry.dirs,hfiles,length_cons]
    omega

theorem listBlobOnlyKeys_eq (hlimit : 0<limit) (shards : List (Text×List Text)) :
    listBlobOnlyKeys (bucketTree shards) keyPrefix limit=
      ((under keyPrefix (visits shards)).take limit).insertionSort (· ≤ ·) := by
  have hwalk : walkStack keyPrefix limit (dirsIn (bucketTree shards)+1)
      [([],bucketTree shards)] []=(under keyPrefix (visits shards)).take limit := by
    have hroom : ¬limit≤([] : List Text).length := by
      rw [length_nil]
      omega
    rw [dirsIn_bucketTree]
    unfold walkStack
    rw [if_neg hroom,readEntries_shards hlimit,append_nil]
    dsimp only
    have hfuel : shards.reverse.length ≤ shards.length := by rw [length_reverse]
    rw [walkStack_shards shards.reverse hfuel (Nat.zero_le _),nil_append]
    rfl
  unfold listBlobOnlyKeys
  rw [hwalk]

end Walks

section Orders

variable {stored : StoredKeys store} {shards : List (Text×List Text)}

/-- Keys of a shard. -/
def shardKeys (store : BlobOnlyStore) (keys : List Text) (shard : Text) : List Text :=
  keys.filter fun key => decide (hashPrefix store.hash key=shard)

/-- What the directories of a bucket may list: each shard once and its files in any
order. Shards without files may be listed too. -/
structure Lists (stored : StoredKeys store) (shards : List (Text×List Text)) : Prop where
  /-- A shard is listed once. -/
  names : (shards.map Prod.fst).Nodup
  /-- A shard lists its files. -/
  files : ∀ shard∈shards,shard.2.Perm
    ((shardKeys store stored.keys shard.1).map (encodeBlobFilename store.portable))
  /-- Every shard with files is listed. -/
  covers : ∀ key∈stored.keys,hashPrefix store.hash key∈shards.map Prod.fst

theorem fileKeys_of_keys {keys : List Text} (haccepted : ∀ key∈keys,∃ raw,sanitizeKey raw=.ok key)
    (shard : Text) : fileKeys
      (shard,(shardKeys store keys shard).map (encodeBlobFilename store.portable))=
        shardKeys store keys shard := by
  unfold fileKeys
  rw [filterMap_map]
  have hsome : ∀ key∈shardKeys store keys shard,
      (fun key => objectKeyFromBlobRelpath
        (relPath [shard,encodeBlobFilename store.portable key])) key=some key := by
    intro key hkey
    obtain ⟨hmem,hshard⟩ := mem_filter.mp hkey
    obtain ⟨raw,hraw⟩ := haccepted key hmem
    have hname : hashPrefix store.hash key=shard := of_decide_eq_true hshard
    rw [← hname]
    exact objectKey_of_relPath store.hash store.portable hraw
  exact (filterMap_congr hsome).trans filterMap_some

theorem Lists.visits_perm (h : Lists stored shards) : (visits shards).Perm stored.keys := by
  have hshard : ∀ shard∈shards,(fileKeys shard).Perm
      (shardKeys store stored.keys shard.1) := by
    intro shard hshard
    have hperm := (h.files shard hshard).filterMap
      fun name => objectKeyFromBlobRelpath (relPath [shard.1,name])
    rwa [← fileKeys_of_keys stored.accepted shard.1]
  have hgrouped : (visits shards).Perm
      ((shards.map Prod.fst).flatMap (shardKeys store stored.keys)) := by
    rw [flatMap_map]
    exact (shards.reverse_perm.flatMap_right _).trans (List.Perm.flatMap_left _ hshard)
  refine hgrouped.trans ((perm_ext_iff_of_nodup ?_ stored.nodup).mpr fun key => ?_)
  · refine nodup_flatMap.mpr ⟨fun shard _ => stored.nodup.filter _,?_⟩
    refine h.names.imp fun {first second} hne => ?_
    intro key hfirst hsecond
    have heq := of_decide_eq_true (mem_filter.mp hfirst).2
    have heq' := of_decide_eq_true (mem_filter.mp hsecond).2
    exact hne (heq.symm.trans heq')
  · rw [mem_flatMap]
    constructor
    · rintro ⟨shard,_,hkey⟩
      exact (mem_filter.mp hkey).1
    · intro hkey
      exact ⟨_,h.covers key hkey,mem_filter.mpr ⟨hkey,decide_eq_true rfl⟩⟩

/-- Shards that list the files of keys in the order of the keys. -/
def groupedShards (store : BlobOnlyStore) (keys names : List Text) : List (Text×List Text) :=
  names.map fun shard =>
    (shard,(shardKeys store keys shard).map (encodeBlobFilename store.portable))

theorem groupedShards_lists {keys names : List Text} (hkeys : keys.Perm stored.keys)
    (hnames : names.Nodup) (hcovers : ∀ key∈stored.keys,hashPrefix store.hash key∈names) :
    Lists stored (groupedShards store keys names) := by
  have hfst : (groupedShards store keys names).map Prod.fst=names := by
    unfold groupedShards
    rw [map_map]
    exact map_id names
  refine ⟨?_,?_,?_⟩
  · rwa [hfst]
  · intro shard hshard
    obtain ⟨name,_,rfl⟩ := mem_map.mp hshard
    exact (hkeys.filter _).map _
  · rwa [hfst]

theorem exists_lists_last {key : Text} (hkey : key∈stored.keys) :
    ∃ shards before,Lists stored shards ∧ visits shards=before++[key] := by
  set keys := stored.keys.erase key++[key] with hkeys
  set names := hashPrefix store.hash key::
    ((stored.keys.map (hashPrefix store.hash)).dedup.erase (hashPrefix store.hash key)) with hnames
  have hperm : keys.Perm stored.keys :=
    (perm_append_singleton key _).trans (perm_cons_erase hkey).symm
  have hdedup := nodup_dedup (stored.keys.map (hashPrefix store.hash))
  have hnodup : names.Nodup :=
    nodup_cons.mpr ⟨hdedup.not_mem_erase,hdedup.erase _⟩
  have hcovers : ∀ other∈stored.keys,hashPrefix store.hash other∈names := by
    intro other hother
    by_cases hsame : hashPrefix store.hash other=hashPrefix store.hash key
    · rw [hsame]
      exact mem_cons_self
    · exact mem_cons_of_mem _ ((mem_erase_of_ne hsame).mpr
        (mem_dedup.mpr (mem_map_of_mem hother)))
  have haccepted : ∀ other∈keys,∃ raw,sanitizeKey raw=.ok other :=
    fun other hother => stored.accepted other (hperm.mem_iff.mp hother)
  have hlast : shardKeys store keys (hashPrefix store.hash key)=
      shardKeys store (stored.keys.erase key) (hashPrefix store.hash key)++[key] := by
    rw [hkeys]
    unfold shardKeys
    rw [filter_append]
    simp
  have hvisits : ∃ before,visits (groupedShards store keys names)=before++[key] := by
    unfold visits groupedShards
    rw [hnames,map_cons,reverse_cons,flatMap_append,flatMap_singleton,
      fileKeys_of_keys haccepted,hlast,← append_assoc]
    exact ⟨_,rfl⟩
  obtain ⟨before,hbefore⟩ := hvisits
  exact ⟨_,before,groupedShards_lists hperm hnodup hcovers,hbefore⟩

end Orders

section Drops

variable {stored : StoredKeys store}

/-- Stored keys of which none lies at a candidate path of another. -/
def StoredKeys.Apart (stored : StoredKeys store) : Prop :=
  ∀ key₁∈stored.keys,∀ key₂∈stored.keys,key₁≠key₂→SeparateCandidates store.hash key₁ key₂

variable {key : Text} {file : PosixFile}

theorem mem_filesOf (hkey : key∈stored.keys) (hfile : blobFile store key=some file) :
    (file,())∈filesOf stored := by
  refine mem_filterMap.mpr ⟨key,hkey,?_⟩
  rw [hfile]
  rfl

theorem lookup_isSome_of_mem {files : Files Unit} (h : (file,())∈files) :
    (files.lookup file).isSome=true := by
  rw [lookup_isSome_iff]
  exact ⟨(file,()),h,beq_self_eq_true _⟩

theorem mem_of_mem_foldl_removeFile {paths : List Text} {files : Files Unit} {entry : PosixFile×Unit}
    (h : entry∈paths.foldl removeFile files) : entry∈files := by
  induction paths generalizing files with
  | nil => exact h
  | cons path paths ih => exact mem_of_mem_filter (ih h)

theorem lookup_foldl_removeFile_none {paths : List Text} {path : Text} (hpath : path∈paths)
    (hfile : fileNamed path=some file) (files : Files Unit) :
    (paths.foldl removeFile files).lookup file=none := by
  have hsub : ∀ entry∈paths.foldl removeFile files,fileNamed path≠some entry.1 := by
    obtain ⟨before,after,rfl⟩ := append_of_mem hpath
    intro entry hentry
    rw [foldl_append,foldl_cons] at hentry
    have hkept := mem_of_mem_foldl_removeFile hentry
    simpa using (mem_filter.mp hkept).2
  rw [lookup_eq_none_iff]
  intro entry hentry
  exact bne_iff_ne.mpr fun hsame => hsub entry hentry (hsame ▸ hfile)

variable {other : Text}

theorem mem_dropObjectBlob (h : other∈(dropObjectBlob stored key).keys) :
    other∈stored.keys ∧ other≠key := by
  obtain ⟨hmem,hleft⟩ := mem_filter.mp h
  refine ⟨hmem,?_⟩
  rintro rfl
  obtain ⟨file,hfile⟩ := Option.isSome_iff_exists.mp (stored.filed other hmem)
  rw [hfile,Option.any_some] at hleft
  have hpath : blobPath store.hash store.portable store.base store.bucket other∈
      existingBlobPaths store.hash store.portable store.base store.bucket other (filesOf stored) := by
    refine mem_filter.mpr ⟨?_,?_⟩
    · have hfirst : ∀ paths path,blobPath store.hash store.portable store.base store.bucket other∈paths →
          blobPath store.hash store.portable store.base store.bucket other∈pushNew paths path := by
        intro paths path hmem
        unfold pushNew
        split_ifs
        · exact hmem
        · exact mem_append_left _ hmem
      unfold blobPathVariants
      dsimp only
      split_ifs
      · exact hfirst _ _ (hfirst _ _ (hfirst _ _ mem_cons_self))
      · exact hfirst _ _ (hfirst _ _ mem_cons_self)
    · have hexists : pathExists (filesOf stored)
          (blobPath store.hash store.portable store.base store.bucket other)=true := by
        unfold pathExists
        have hfile' : fileNamed (blobPath store.hash store.portable store.base store.bucket other)=
          some file := hfile
        rw [hfile',Option.any_some,any_eq_true]
        exact ⟨(file,()),mem_filesOf hmem hfile,beq_self_eq_true _⟩
      rw [hexists]
      simp
  unfold dropCandidates at hleft
  rw [lookup_foldl_removeFile_none hpath hfile] at hleft
  cases hleft

theorem mem_dropObjectBlob_of_separate (hother : other∈stored.keys)
    (hkey : ∃ raw,sanitizeKey raw=.ok key) (hne : other≠key)
    (hapart : SeparateCandidates store.hash key other) :
    other∈(dropObjectBlob stored key).keys := by
  obtain ⟨raw,hraw⟩ := hkey
  obtain ⟨raw',hraw'⟩ := stored.accepted other hother
  obtain ⟨file,hfile⟩ := Option.isSome_iff_exists.mp (stored.filed other hother)
  have hnot : ¬CandidateFile store.hash store.portable store.base store.bucket key file := by
    intro hcandidate
    have hown : CandidateFile store.hash store.portable store.base store.bucket other file := by
      refine (exists_variant_iff (sanitizeKey_head? hraw') file).mpr ⟨_,?_,hfile⟩
      exact Or.inl (flatName_encodeBlobFilename store.portable other)
    have hshared := (exists_sharedFile_iff (sanitizeKey_head? hraw) (sanitizeKey_head? hraw')
      hne.symm).mp ⟨file,hcandidate,hown⟩
    obtain ⟨hfirst,hsecond⟩ := hapart hshared.1
    exact hshared.2.elim hfirst hsecond
  refine mem_filter.mpr ⟨hother,?_⟩
  rw [hfile,Option.any_some,lookup_dropCandidates hnot]
  exact lookup_isSome_of_mem (mem_filesOf hother hfile)

theorem mem_foldl_dropObjectBlob {gone : List Text}
    (h : other∈(gone.foldl dropObjectBlob stored).keys) : other∈stored.keys ∧ other∉gone := by
  induction gone generalizing stored with
  | nil => exact ⟨h,not_mem_nil⟩
  | cons key gone ih =>
    obtain ⟨hmem,hgone⟩ := ih h
    obtain ⟨hmem,hne⟩ := mem_dropObjectBlob hmem
    exact ⟨hmem,by rw [mem_cons]; tauto⟩

theorem mem_foldl_dropObjectBlob_of_apart {gone : List Text} (hother : other∈stored.keys)
    (hgone : ∀ key∈gone,(∃ raw,sanitizeKey raw=.ok key) ∧
      SeparateCandidates store.hash key other) (hnot : other∉gone) :
    other∈(gone.foldl dropObjectBlob stored).keys := by
  induction gone generalizing stored with
  | nil => exact hother
  | cons key gone ih =>
    rw [mem_cons,not_or] at hnot
    have hfirst := hgone key mem_cons_self
    have hleft := mem_dropObjectBlob_of_separate hother hfirst.1 hnot.1 hfirst.2
    exact ih hleft (fun later hlater => hgone later (mem_cons_of_mem _ hlater)) hnot.2

theorem dropObjects_stored (pending : List DeletedObjectRef) : (dropObjects stored pending).2=
      (pending.map DeletedObjectRef.key).foldl dropObjectBlob stored := by
  have hrun : ∀ (pieces : List (List DeletedObjectRef))
      (progress : DeletePrefixOutcome×StoredKeys store),(pieces.foldl dropChunk progress).2=
        (pieces.flatten.map DeletedObjectRef.key).foldl dropObjectBlob progress.2 := by
    intro pieces
    induction pieces with
    | nil => exact fun _ => rfl
    | cons piece pieces ih =>
      intro progress
      rw [foldl_cons,ih,flatten_cons,map_append,foldl_append]
      rfl
  have hwhole := hrun (chunks bulkDeleteChunk pending) (.none,stored)
  rwa [chunks_flatten (by decide : 0<bulkDeleteChunk)] at hwhole

end Drops

section Calls

variable {stored stored' : StoredKeys store} {shards : List (Text×List Text)}
  {rawPrefix keyPrefix : Text} {limit : Option ℕ} {startAfter : Option Text}
  {outcome : DeletePrefixOutcome} {count : ℕ}

/-- Stored keys under a prefix. -/
def StoredKeys.matching (stored : StoredKeys store) (keyPrefix : Text) : Finset Text :=
  (under keyPrefix stored.keys).toFinset

variable {key : Text}

theorem StoredKeys.mem_matching :
    key∈stored.matching keyPrefix ↔ key∈stored.keys ∧ keyPrefix<+:key := by
  unfold StoredKeys.matching
  rw [mem_toFinset,mem_under]

/-- Keys that a walk finds for a page. -/
def found (keyPrefix : Text) (count : ℕ) (shards : List (Text×List Text)) :
    List Text :=
  (under keyPrefix (visits shards)).take (count+1)

/-- The page that a call deletes. -/
def pageOf (count : ℕ) (startAfter : Option Text) (keys : List Text) : List Text :=
  ((keys.insertionSort (· ≤ ·)).filter fun key => decide (startAfter.getD []<key)).take count

/-- What a call does: it drops its page, is truncated when more keys are stored than
a page has, and names the last key of the page then. -/
structure CallSpec (keyPrefix : Text) (count : ℕ) (startAfter : Option Text)
    (shards : List (Text×List Text)) (stored stored' : StoredKeys store)
    (outcome : DeletePrefixOutcome) : Prop where
  /-- Whether more keys are stored than a page has. -/
  truncated : outcome.truncated=true ↔ count<(stored.matching keyPrefix).card
  /-- The last key of the page. -/
  next : outcome.truncated=true →
    outcome.nextStartAfter=(pageOf count startAfter (found keyPrefix count shards)).getLast?
  /-- The page is dropped. -/
  dropped : stored'=
    (pageOf count startAfter (found keyPrefix count shards)).foldl dropObjectBlob stored

theorem Lists.under_perm (h : Lists stored shards) (keyPrefix : Text) :
    (under keyPrefix (visits shards)).Perm (under keyPrefix stored.keys) :=
  h.visits_perm.filter _

theorem card_matching (stored : StoredKeys store) (keyPrefix : Text) :
    (stored.matching keyPrefix).card=(under keyPrefix stored.keys).length :=
  toFinset_card_of_nodup (stored.nodup.filter _)

theorem Lists.length_found (h : Lists stored shards) : (found keyPrefix count shards).length=
      min (count+1) (stored.matching keyPrefix).card := by
  unfold found
  rw [length_take,(h.under_perm keyPrefix).length_eq,card_matching]

theorem Lists.mem_of_mem_found (h : Lists stored shards)
    (hkey : key∈found keyPrefix count shards) : key∈stored.matching keyPrefix := by
  have hunder := (h.under_perm keyPrefix).mem_iff.mp (mem_of_mem_take hkey)
  exact mem_toFinset.mpr hunder

theorem Lists.mem_found (h : Lists stored shards)
    (hfew : (stored.matching keyPrefix).card ≤ count+1) :
    key∈found keyPrefix count shards ↔ key∈stored.matching keyPrefix := by
  refine ⟨h.mem_of_mem_found,fun hkey => ?_⟩
  have hall : found keyPrefix count shards=under keyPrefix (visits shards) := by
    rw [card_matching,← (h.under_perm keyPrefix).length_eq] at hfew
    exact take_of_length_le hfew
  rw [hall]
  exact (h.under_perm keyPrefix).mem_iff.mpr (mem_toFinset.mp hkey)

theorem Lists.nodup_found (h : Lists stored shards) : (found keyPrefix count shards).Nodup :=
  List.Nodup.sublist (take_sublist _ _)
    ((h.under_perm keyPrefix).nodup_iff.mpr (stored.nodup.filter _))

theorem deleteObjectsByPrefix_eq (hkeyPrefix : sanitizeKey rawPrefix=.ok keyPrefix)
    (root : List DirEntry) : deleteObjectsByPrefix stored root rawPrefix limit startAfter=
      .ok (deleteBlobOnlyPrefix stored root keyPrefix (blobBatchLimit store limit)
        (startAfter.getD [])) := by
  have hnonempty : rawPrefix.isEmpty=false := by
    cases rawPrefix with
    | nil => cases hkeyPrefix
    | cons letter word => rfl
  unfold deleteObjectsByPrefix
  rw [hnonempty,hkeyPrefix]
  rfl

theorem deleteObjectsByPrefix_spec (hlists : Lists stored shards)
    (hkeyPrefix : sanitizeKey rawPrefix=.ok keyPrefix)
    (hcall : deleteObjectsByPrefix stored (bucketTree shards) rawPrefix limit startAfter=
      .ok (outcome,stored')) :
    CallSpec keyPrefix (blobBatchLimit store limit) startAfter shards stored stored' outcome := by
  set count := blobBatchLimit store limit with hcount
  have hlisted : listBlobOnlyKeys (bucketTree shards) keyPrefix (count+1)=
      (found keyPrefix count shards).insertionSort (· ≤ ·) :=
    listBlobOnlyKeys_eq (Nat.succ_pos count) shards
  have hlength : count<((found keyPrefix count shards).insertionSort (· ≤ ·)).length ↔
      count<(stored.matching keyPrefix).card := by
    rw [length_insertionSort,hlists.length_found]
    omega
  rw [deleteObjectsByPrefix_eq hkeyPrefix,← hcount] at hcall
  have hresult := Except.ok.inj hcall
  unfold deleteBlobOnlyPrefix at hresult
  simp only [hlisted] at hresult
  cases hresult
  refine ⟨?_,?_,?_⟩
  · rwa [decide_eq_true_iff]
  · intro htruncated
    exact if_pos htruncated
  · rw [dropObjects_stored,map_map]
    exact congrArg (fun keys => List.foldl dropObjectBlob stored keys) (map_id _)

end Calls

section Pages

variable {keys : List Text} {count : ℕ} {startAfter : Option Text} {key last : Text}

theorem mem_of_mem_pageOf (h : key∈pageOf count startAfter keys) :
    key∈keys ∧ startAfter.getD []<key := by
  obtain ⟨hmem,hbehind⟩ := mem_filter.mp (mem_of_mem_take h)
  exact ⟨(mem_insertionSort _).mp hmem,of_decide_eq_true hbehind⟩

theorem mem_pageOf_of_short (hshort : (pageOf count startAfter keys).length<count)
    (hkey : key∈keys) (hbehind : startAfter.getD []<key) : key∈pageOf count startAfter keys := by
  unfold pageOf at hshort ⊢
  rw [length_take] at hshort
  rw [take_of_length_le (by omega)]
  exact mem_filter.mpr ⟨(mem_insertionSort _).mpr hkey,decide_eq_true hbehind⟩

theorem pageOf_ne_nil (hcount : 0<count) (hkey : key∈keys) (hbehind : startAfter.getD []<key) :
    pageOf count startAfter keys≠[] := by
  intro hnil
  have hshort : (pageOf count startAfter keys).length<count := by
    rwa [hnil]
  have hmem := mem_pageOf_of_short hshort hkey hbehind
  rw [hnil] at hmem
  cases hmem

theorem mem_pageOf_of_few (hfew : keys.length ≤ count) (hkey : key∈keys)
    (hbehind : startAfter.getD []<key) : key∈pageOf count startAfter keys := by
  have hshort : ((keys.insertionSort (· ≤ ·)).filter
      fun key => decide (startAfter.getD []<key)).length ≤ count := by
    refine (length_filter_le _ _).trans ?_
    rwa [length_insertionSort]
  unfold pageOf
  rw [take_of_length_le hshort]
  exact mem_filter.mpr ⟨(mem_insertionSort _).mpr hkey,decide_eq_true hbehind⟩

theorem lt_of_not_mem_pageOf (hkey : key∈keys)
    (hbehind : startAfter.getD []<key) (hnot : key∉pageOf count startAfter keys)
    (hlast : last∈pageOf count startAfter keys) : last<key := by
  have hsorted : (keys.insertionSort (· ≤ ·)).Pairwise (· ≤ ·) :=
    pairwise_insertionSort (· ≤ ·) keys
  set listed := (keys.insertionSort (· ≤ ·)).filter fun key => decide (startAfter.getD []<key)
    with hlisted
  have hmem : key∈listed :=
    mem_filter.mpr ⟨(mem_insertionSort _).mpr hkey,decide_eq_true hbehind⟩
  have hsplit : listed.take count++listed.drop count=listed := take_append_drop _ _
  have hdrop : key∈listed.drop count := by
    rw [← hsplit] at hmem
    exact (mem_append.mp hmem).resolve_left hnot
  have hordered : (listed.take count++listed.drop count).Pairwise (· ≤ ·) := by
    rw [hsplit]
    exact hsorted.filter _
  have hle := (pairwise_append.mp hordered).2.2 last hlast key hdrop
  exact lt_of_le_of_ne hle fun heq => hnot (heq ▸ hlast)

end Pages

section Runs

variable {stored stored' final : StoredKeys store} {shards : List (Text×List Text)}
  {rawPrefix keyPrefix : Text} {limit : Option ℕ} {startAfter : Option Text}
  {outcome : DeletePrefixOutcome} {count : ℕ}

/-- Calls of a client that passes each returned key to the next call until the page
is not truncated. Each walk may see another order. -/
inductive DeletesAll (rawPrefix : Text) (limit : Option ℕ) :
    StoredKeys store→Option Text→StoredKeys store→Prop
  | last {stored stored' : StoredKeys store} {startAfter : Option Text}
      {shards : List (Text×List Text)} {outcome : DeletePrefixOutcome}
      (hlists : Lists stored shards)
      (hcall : deleteObjectsByPrefix stored (bucketTree shards) rawPrefix limit startAfter=
        .ok (outcome,stored'))
      (hlast : outcome.truncated=false) : DeletesAll rawPrefix limit stored startAfter stored'
  | more {stored stored' final : StoredKeys store} {startAfter : Option Text}
      {shards : List (Text×List Text)} {outcome : DeletePrefixOutcome}
      (hlists : Lists stored shards)
      (hcall : deleteObjectsByPrefix stored (bucketTree shards) rawPrefix limit startAfter=
        .ok (outcome,stored'))
      (hmore : outcome.truncated=true)
      (hrest : DeletesAll rawPrefix limit stored' outcome.nextStartAfter final) :
      DeletesAll rawPrefix limit stored startAfter final

/-- However the walks go, the calls come to an end. -/
inductive Ends (rawPrefix : Text) (limit : Option ℕ) : StoredKeys store→Option Text→Prop
  | intro {stored : StoredKeys store} {startAfter : Option Text}
      (hnext : ∀ shards outcome (stored' : StoredKeys store),Lists stored shards →
        deleteObjectsByPrefix stored (bucketTree shards) rawPrefix limit startAfter=
          .ok (outcome,stored') → outcome.truncated=true →
            Ends rawPrefix limit stored' outcome.nextStartAfter) :
      Ends rawPrefix limit stored startAfter

variable {key : Text}

theorem CallSpec.left (h : CallSpec keyPrefix count startAfter shards stored stored' outcome)
    (hkey : key∈stored'.matching keyPrefix) : key∈stored.matching keyPrefix ∧
      key∉pageOf count startAfter (found keyPrefix count shards) := by
  obtain ⟨hmem,hunder⟩ := StoredKeys.mem_matching.mp hkey
  rw [h.dropped] at hmem
  obtain ⟨hmem,hnot⟩ := mem_foldl_dropObjectBlob hmem
  exact ⟨StoredKeys.mem_matching.mpr ⟨hmem,hunder⟩,hnot⟩

theorem CallSpec.card_lt (h : CallSpec keyPrefix count startAfter shards stored stored' outcome)
    (hlists : Lists stored shards)
    (hpage : pageOf count startAfter (found keyPrefix count shards)≠[]) :
    (stored'.matching keyPrefix).card<(stored.matching keyPrefix).card := by
  obtain ⟨key,hkey⟩ := exists_mem_of_ne_nil _ hpage
  refine Finset.card_lt_card (Finset.ssubset_iff_of_subset (fun other hother => (h.left hother).1)
    |>.mpr ⟨key,hlists.mem_of_mem_found (mem_of_mem_pageOf hkey).1,?_⟩)
  exact fun hleft => (h.left hleft).2 hkey

theorem nil_lt_of_mem_matching (hkey : key∈stored.matching keyPrefix) :
    (none : Option Text).getD []<key := by
  obtain ⟨raw,hraw⟩ := stored.accepted key (StoredKeys.mem_matching.mp hkey).1
  cases key with
  | nil => exact absurd rfl (plain_of_accepted hraw).1
  | cons letter word => exact nil_lt_cons letter word

theorem page_ne_nil_of_start (hlists : Lists stored shards) (hcount : 0<count)
    (hmany : count<(stored.matching keyPrefix).card) :
    pageOf count none (found keyPrefix count shards)≠[] := by
  have hlength : (found keyPrefix count shards).length=count+1 := by
    rw [hlists.length_found]
    omega
  obtain ⟨key,hkey⟩ : ∃ key,key∈found keyPrefix count shards :=
    exists_mem_of_length_pos (by omega)
  exact pageOf_ne_nil hcount hkey (nil_lt_of_mem_matching (hlists.mem_of_mem_found hkey))

theorem blobBatchLimit_pos (store : BlobOnlyStore) (limit : Option ℕ) :
    0<blobBatchLimit store limit :=
  Nat.lt_of_lt_of_le Nat.zero_lt_one (Nat.le_max_right _ _)

theorem ends_always (hkeyPrefix : sanitizeKey rawPrefix=.ok keyPrefix)
    (stored : StoredKeys store) (startAfter : Option Text) :
    Ends rawPrefix limit stored startAfter := by
  -- A truncated call deletes a key, or its page is empty and the next call starts from the
  -- beginning, where it does.
  induction hmeasure : 2*(stored.matching keyPrefix).card+(if startAfter=none then 0 else 1)
    using Nat.strong_induction_on generalizing stored startAfter with
  | _ measure ih =>
    refine .intro fun shards outcome stored' hlists hcall hmore => ?_
    have hspec := deleteObjectsByPrefix_spec hlists hkeyPrefix hcall
    have hnext := hspec.next hmore
    have hmany := hspec.truncated.mp hmore
    by_cases hpage : pageOf (blobBatchLimit store limit) startAfter
        (found keyPrefix (blobBatchLimit store limit) shards)=[]
    · have hstart : startAfter≠none := by
        rintro rfl
        exact page_ne_nil_of_start hlists (blobBatchLimit_pos store limit) hmany hpage
      have hsame : stored'=stored := by
        rw [hspec.dropped,hpage]
        rfl
      have hrestart : outcome.nextStartAfter=none := by
        rw [hnext,hpage]
        rfl
      refine ih _ ?_ stored' outcome.nextStartAfter rfl
      rw [hsame,hrestart,if_pos rfl,← hmeasure,if_neg hstart]
      omega
    · have hfewer := hspec.card_lt hlists hpage
      refine ih _ ?_ stored' outcome.nextStartAfter rfl
      split_ifs
      · omega
      · omega

theorem DeletesAll.emptied_of_few (h : DeletesAll rawPrefix limit stored startAfter final)
    (hkeyPrefix : sanitizeKey rawPrefix=.ok keyPrefix)
    (hfew : (stored.matching keyPrefix).card≤blobBatchLimit store limit)
    (hbehind : ∀ key∈stored.matching keyPrefix,startAfter.getD []<key) :
    final.matching keyPrefix=∅ := by
  cases h with
  | more hlists hcall hmore _ =>
    have hspec := deleteObjectsByPrefix_spec hlists hkeyPrefix hcall
    have hmany := hspec.truncated.mp hmore
    omega
  | @last _ _ _ shards outcome hlists hcall hlast =>
    have hspec := deleteObjectsByPrefix_spec hlists hkeyPrefix hcall
    refine Finset.eq_empty_of_forall_notMem fun key hkey => ?_
    obtain ⟨hmem,hnot⟩ := hspec.left hkey
    have hfound := (hlists.mem_found (hfew.trans (Nat.le_succ _))).mpr hmem
    refine hnot (mem_pageOf_of_few ?_ hfound (hbehind key hmem))
    rw [hlists.length_found]
    omega

theorem DeletesAll.emptied_of_fits (h : DeletesAll rawPrefix limit stored none final)
    (hkeyPrefix : sanitizeKey rawPrefix=.ok keyPrefix)
    (hfits : (stored.matching keyPrefix).card≤blobBatchLimit store limit+1) :
    final.matching keyPrefix=∅ := by
  rcases Nat.lt_or_ge (blobBatchLimit store limit) (stored.matching keyPrefix).card with hmany | hfew
  · cases h with
    | last hlists hcall hlast =>
      have hspec := deleteObjectsByPrefix_spec hlists hkeyPrefix hcall
      rw [hspec.truncated.mpr hmany] at hlast
      cases hlast
    | @more _ stored' _ _ shards outcome hlists hcall hmore hrest =>
      have hspec := deleteObjectsByPrefix_spec hlists hkeyPrefix hcall
      have hpage := page_ne_nil_of_start hlists (blobBatchLimit_pos store limit) hmany
      have hfewer := hspec.card_lt hlists hpage
      have hnext := hspec.next hmore
      rw [List.getLast?_eq_some_getLast hpage] at hnext
      rw [hnext] at hrest
      refine hrest.emptied_of_few hkeyPrefix (by omega) fun key hkey => ?_
      obtain ⟨hmem,hnot⟩ := hspec.left hkey
      exact lt_of_not_mem_pageOf ((hlists.mem_found hfits).mpr hmem) (nil_lt_of_mem_matching hmem)
        hnot (getLast_mem hpage)
  · exact h.emptied_of_few hkeyPrefix hfew fun key hkey => nil_lt_of_mem_matching hkey

theorem CallSpec.mem_left (h : CallSpec keyPrefix count startAfter shards stored stored' outcome)
    (hlists : Lists stored shards) (hapart : stored.Apart) (hkey : key∈stored.matching keyPrefix)
    (hnot : key∉pageOf count startAfter (found keyPrefix count shards)) :
    key∈stored'.matching keyPrefix := by
  obtain ⟨hmem,hunder⟩ := StoredKeys.mem_matching.mp hkey
  refine StoredKeys.mem_matching.mpr ⟨?_,hunder⟩
  rw [h.dropped]
  refine mem_foldl_dropObjectBlob_of_apart hmem (fun gone hgone => ?_) hnot
  have hstored := hlists.mem_of_mem_found (mem_of_mem_pageOf hgone).1
  have hgoneMem := (StoredKeys.mem_matching.mp hstored).1
  refine ⟨stored.accepted gone hgoneMem,hapart gone hgoneMem key hmem ?_⟩
  rintro rfl
  exact hnot hgone

theorem CallSpec.apart (h : CallSpec keyPrefix count startAfter shards stored stored' outcome)
    (hapart : stored.Apart) : stored'.Apart := by
  have hsub : ∀ key∈stored'.keys,key∈stored.keys := by
    intro key hkey
    rw [h.dropped] at hkey
    exact (mem_foldl_dropObjectBlob hkey).1
  intro key₁ hkey₁ key₂ hkey₂
  exact hapart key₁ (hsub key₁ hkey₁) key₂ (hsub key₂ hkey₂)

/-- Some run of the calls leaves a key. -/
def Loses (rawPrefix keyPrefix : Text) (limit : Option ℕ) (stored : StoredKeys store)
    (startAfter : Option Text) : Prop :=
  ∃ final,DeletesAll rawPrefix limit stored startAfter final ∧
    (final.matching keyPrefix).Nonempty

/-- A key that the start has passed, with few keys or a key behind the start left. -/
def Passed (keyPrefix : Text) (count : ℕ) (stored : StoredKeys store) (last : Text) : Prop :=
  (∃ key∈stored.matching keyPrefix,key≤last) ∧
    ((stored.matching keyPrefix).card ≤ count ∨ ∃ key∈stored.matching keyPrefix,last<key)

theorem exists_lists_not_found (hkey : key∈stored.matching keyPrefix) (count : ℕ) :
    ∃ shards,Lists stored shards ∧ (count+2≤(stored.matching keyPrefix).card →
      key∉found keyPrefix count shards) := by
  obtain ⟨hmem,hunder⟩ := StoredKeys.mem_matching.mp hkey
  obtain ⟨shards,before,hlists,hvisits⟩ := exists_lists_last hmem
  refine ⟨shards,hlists,fun hmany hfound => ?_⟩
  have hperm := hlists.under_perm keyPrefix
  have hself : under keyPrefix [key]=[key] := by
    simp [under,hunder]
  rw [hvisits,under_append,hself] at hperm
  have hlong : count+1≤(under keyPrefix before).length := by
    have hlength := hperm.length_eq
    rw [length_append,length_singleton,← card_matching] at hlength
    omega
  unfold found at hfound
  rw [hvisits,under_append,take_append_of_le_length hlong] at hfound
  have hnodup := hperm.nodup_iff.mpr (stored.nodup.filter _)
  exact (nodup_append.mp hnodup).2.2 key (mem_of_mem_take hfound) key
    mem_cons_self rfl

/-- The page of a call. -/
abbrev callPage (store : BlobOnlyStore) (keyPrefix : Text) (limit : Option ℕ)
    (startAfter : Option Text) (shards : List (Text×List Text)) : List Text :=
  pageOf (blobBatchLimit store limit) startAfter
    (found keyPrefix (blobBatchLimit store limit) shards)

theorem Loses.of_call (hkeyPrefix : sanitizeKey rawPrefix=.ok keyPrefix)
    (hlists : Lists stored shards)
    (hmany : blobBatchLimit store limit<(stored.matching keyPrefix).card)
    (hrest : ∀ outcome stored',
      CallSpec keyPrefix (blobBatchLimit store limit) startAfter shards stored stored' outcome →
        Loses rawPrefix keyPrefix limit stored'
          (callPage store keyPrefix limit startAfter shards).getLast?) :
    Loses rawPrefix keyPrefix limit stored startAfter := by
  have hcall := @deleteObjectsByPrefix_eq store stored rawPrefix keyPrefix limit startAfter
    hkeyPrefix (bucketTree shards)
  have hspec := deleteObjectsByPrefix_spec hlists hkeyPrefix hcall
  have hmore := hspec.truncated.mpr hmany
  obtain ⟨final,hfinal,hlost⟩ := hrest _ _ hspec
  rw [← hspec.next hmore] at hfinal
  exact ⟨final,.more hlists hcall hmore hfinal,hlost⟩

/-- With fewer keys stored, those that a start has passed are lost. -/
def LosesFewer (rawPrefix keyPrefix : Text) (limit : Option ℕ) (stored : StoredKeys store) : Prop :=
  ∀ stored' : StoredKeys store,stored'.Apart →
    (stored'.matching keyPrefix).card<(stored.matching keyPrefix).card →
      ∀ last,Passed keyPrefix (blobBatchLimit store limit) stored' last →
        Loses rawPrefix keyPrefix limit stored' (some last)

theorem loses_from_start (hkeyPrefix : sanitizeKey rawPrefix=.ok keyPrefix) (hapart : stored.Apart)
    (hmany : blobBatchLimit store limit+2≤(stored.matching keyPrefix).card)
    (hpassed : LosesFewer rawPrefix keyPrefix limit stored) :
    Loses rawPrefix keyPrefix limit stored none := by
  have hsmallest := Finset.min'_mem (stored.matching keyPrefix) (Finset.card_pos.mp (by omega))
  obtain ⟨shards,hlists,hmissed⟩ := exists_lists_not_found hsmallest (blobBatchLimit store limit)
  have htruncated : blobBatchLimit store limit<(stored.matching keyPrefix).card := by omega
  refine .of_call hkeyPrefix hlists htruncated fun outcome stored' hspec => ?_
  have hpage := page_ne_nil_of_start hlists (blobBatchLimit_pos store limit) htruncated
  have hlast := getLast_mem hpage
  rw [List.getLast?_eq_some_getLast hpage]
  -- One of the keys found does not fit on the page; it lies behind the page's end.
  obtain ⟨key,hkey,hnot⟩ : ∃ key∈found keyPrefix (blobBatchLimit store limit) shards,
      key∉callPage store keyPrefix limit none shards := by
    by_contra hall
    push Not at hall
    have hle := (hlists.nodup_found.subperm hall).length_le
    have hfull : (callPage store keyPrefix limit none shards).length≤blobBatchLimit store limit :=
      length_take_le _ _
    rw [hlists.length_found] at hle
    omega
  have hmem := hlists.mem_of_mem_found hkey
  have hbehind := lt_of_not_mem_pageOf hkey (nil_lt_of_mem_matching hmem) hnot hlast
  have hleft := hspec.mem_left hlists hapart hsmallest
    fun hmem => hmissed hmany (mem_of_mem_pageOf hmem).1
  have hle := Finset.min'_le (stored.matching keyPrefix) _
    (hlists.mem_of_mem_found (mem_of_mem_pageOf hlast).1)
  exact hpassed stored' (hspec.apart hapart) (hspec.card_lt hlists hpage) _
    ⟨⟨_,hleft,hle⟩,Or.inr ⟨key,hspec.mem_left hlists hapart hmem hnot,hbehind⟩⟩

theorem loses_of_truncated (hkeyPrefix : sanitizeKey rawPrefix=.ok keyPrefix)
    (hapart : stored.Apart) {last low other : Text}
    (hmany : blobBatchLimit store limit<(stored.matching keyPrefix).card)
    (hlow : low∈stored.matching keyPrefix) (hle : low≤last)
    (hother : other∈stored.matching keyPrefix) (hbehind : last<other)
    (hpassed : LosesFewer rawPrefix keyPrefix limit stored) :
    Loses rawPrefix keyPrefix limit stored (some last) := by
  have hhigh := Finset.max'_mem (stored.matching keyPrefix) ⟨low,hlow⟩
  have hgreatest := Finset.le_max' (stored.matching keyPrefix)
  obtain ⟨shards,hlists,hmissed⟩ := exists_lists_not_found hhigh (blobBatchLimit store limit)
  refine .of_call hkeyPrefix hlists hmany fun outcome stored' hspec => ?_
  by_cases hpage : callPage store keyPrefix limit (some last) shards=[]
  · have hmanyMore : blobBatchLimit store limit+2≤(stored.matching keyPrefix).card := by
      -- With one key more than a page has, the walk finds the greatest one.
      by_contra hfew
      have hfound := (hlists.mem_found (show _≤blobBatchLimit store limit+1 by omega)).mpr hhigh
      refine pageOf_ne_nil (blobBatchLimit_pos store limit) hfound ?_ hpage
      exact hbehind.trans_le (hgreatest other hother)
    have hsame : stored'=stored :=
      hspec.dropped.trans (congrArg (List.foldl dropObjectBlob stored) hpage)
    rw [hpage,hsame]
    exact loses_from_start hkeyPrefix hapart hmanyMore hpassed
  · rw [List.getLast?_eq_some_getLast hpage]
    have hfewer := hspec.card_lt hlists hpage
    obtain ⟨hend,hendBehind⟩ := mem_of_mem_pageOf (getLast_mem hpage)
    have hlowLeft := hspec.mem_left hlists hapart hlow fun hmem =>
      absurd (mem_of_mem_pageOf hmem).2 (not_lt.mpr hle)
    refine hpassed stored' (hspec.apart hapart) hfewer _
      ⟨⟨low,hlowLeft,hle.trans (le_of_lt hendBehind)⟩,?_⟩
    by_cases hmanyMore : blobBatchLimit store limit+2≤(stored.matching keyPrefix).card
    · have hnot := hmissed hmanyMore
      have hhighLeft := hspec.mem_left hlists hapart hhigh fun hmem =>
        hnot (mem_of_mem_pageOf hmem).1
      refine Or.inr ⟨_,hhighLeft,lt_of_le_of_ne (hgreatest _ (hlists.mem_of_mem_found hend)) ?_⟩
      exact fun heq => hnot (heq ▸ hend)
    · exact Or.inl (by omega)

theorem loses_behind (hkeyPrefix : sanitizeKey rawPrefix=.ok keyPrefix) (hapart : stored.Apart)
    {last : Text} (hlast : Passed keyPrefix (blobBatchLimit store limit) stored last) :
    Loses rawPrefix keyPrefix limit stored (some last) := by
  induction hcard : (stored.matching keyPrefix).card using Nat.strong_induction_on
    generalizing stored last with
  | _ size ih =>
    subst hcard
    obtain ⟨⟨low,hlow,hle⟩,hrest⟩ := hlast
    rcases Nat.lt_or_ge (blobBatchLimit store limit) (stored.matching keyPrefix).card with hmany | hfew
    · obtain ⟨other,hother,hbehind⟩ := hrest.resolve_left (by omega)
      exact loses_of_truncated hkeyPrefix hapart hmany hlow hle hother hbehind
        fun stored' hapart' hless last' hlast' => ih _ hless hapart' hlast' rfl
    · obtain ⟨shards,hlists,_⟩ := exists_lists_not_found hlow 0
      have hcall := @deleteObjectsByPrefix_eq store stored rawPrefix keyPrefix limit (some last)
        hkeyPrefix (bucketTree shards)
      have hspec := deleteObjectsByPrefix_spec hlists hkeyPrefix hcall
      refine ⟨_,.last hlists hcall (Bool.eq_false_of_not_eq_true fun h => ?_),low,
        hspec.mem_left hlists hapart hlow fun hmem => ?_⟩
      · exact absurd (hspec.truncated.mp h) (by omega)
      · exact absurd (mem_of_mem_pageOf hmem).2 (not_lt.mpr hle)

/-- In blob-only mode the calls come to an end in every order of the walks. They
leave no key under the prefix if at most one key more is stored than a page has; and
if more are stored, and no key lies at a candidate path of another, there are walks
that leave one. -/
theorem blob_only_prefix_deleted_iff (hkeyPrefix : sanitizeKey rawPrefix=.ok keyPrefix)
    (stored : StoredKeys store) : Ends rawPrefix limit stored none ∧
    ((stored.matching keyPrefix).card≤blobBatchLimit store limit+1 →
      ∀ final,DeletesAll rawPrefix limit stored none final→final.matching keyPrefix=∅) ∧
    (stored.Apart →
      ((∀ final,DeletesAll rawPrefix limit stored none final→final.matching keyPrefix=∅) ↔
        (stored.matching keyPrefix).card≤blobBatchLimit store limit+1)) := by
  have hfits : (stored.matching keyPrefix).card≤blobBatchLimit store limit+1 →
      ∀ final,DeletesAll rawPrefix limit stored none final→final.matching keyPrefix=∅ :=
    fun hfits final hfinal => hfinal.emptied_of_fits hkeyPrefix hfits
  refine ⟨ends_always hkeyPrefix stored none,hfits,fun hapart => ⟨?_,hfits⟩⟩
  intro hempty
  by_contra hfew
  have hmany : blobBatchLimit store limit+2≤(stored.matching keyPrefix).card := by omega
  obtain ⟨final,hfinal,hlost⟩ := loses_from_start hkeyPrefix hapart hmany
    fun stored' hapart' _ last hlast => loses_behind hkeyPrefix hapart' hlast
  rw [hempty final hfinal] at hlost
  exact Finset.not_nonempty_empty hlost

end Runs

section Samples

theorem sampleLimit_clamped : 1≤1000 ∧ 1000≤10000 := by decide

/-- A store whose keys share one shard. -/
def sampleStore : BlobOnlyStore where
  hash := fun _ => 0
  portable := false
  base := ['d']
  bucket := ['b']
  bulkDeleteBatchLimit := 1000
  clamped := sampleLimit_clamped
  accepted := by decide +kernel

/-- Three stored keys. -/
def threeKeys : StoredKeys sampleStore where
  keys := [['p', 'a'], ['p', 'b'], ['p', 'c']]
  nodup := by decide
  accepted := by
    intro key hkey
    have hself : ∀ key∈[['p', 'a'], ['p', 'b'], ['p', 'c']],sanitizeKey key=.ok key := by
      decide +kernel
    exact ⟨key,hself key hkey⟩
  filed := by decide +kernel

theorem threeKeys_apart : threeKeys.Apart := by
  have hall : ∀ key₁∈[['p', 'a'], ['p', 'b'], ['p', 'c']],∀ key₂∈[['p', 'a'], ['p', 'b'], ['p', 'c']],
      key₁≠key₂→SeparateCandidates (fun _ => 0) key₁ key₂ := by decide +kernel
  exact hall

theorem threeKeys_card : (threeKeys.matching ['p']).card=3 := by
  rw [card_matching]
  decide +kernel

/-- With pages of one key, walks over three keys may leave one: the first finds `pb`
and `pc`, deletes `pb` and names it, and `pa` is passed for good. -/
theorem three_keys_lose_one : ∃ final : StoredKeys sampleStore,
    DeletesAll ['p'] (some 1) threeKeys none final ∧ (final.matching ['p']).Nonempty := by
  have hkeyPrefix : sanitizeKey ['p']=.ok ['p'] := by decide +kernel
  have hmany : blobBatchLimit sampleStore (some 1)+2≤(threeKeys.matching ['p']).card := by
    rw [threeKeys_card]
    decide
  exact loses_from_start hkeyPrefix threeKeys_apart hmany
    fun stored' hapart' _ last hlast => loses_behind hkeyPrefix hapart' hlast

/-- With pages of two keys, every walk order deletes all three. -/
theorem three_keys_deleted : sanitizeKey ['p']=.ok ['p'] ∧ threeKeys.Apart ∧
    ∀ final : StoredKeys sampleStore,
      DeletesAll ['p'] (some 2) threeKeys none final→final.matching ['p']=∅ := by
  have hkeyPrefix : sanitizeKey ['p']=.ok ['p'] := by decide +kernel
  have hfits : (threeKeys.matching ['p']).card≤blobBatchLimit sampleStore (some 2)+1 := by
    rw [threeKeys_card]
    decide
  exact ⟨hkeyPrefix,threeKeys_apart,
    ((blob_only_prefix_deleted_iff hkeyPrefix threeKeys).2.2 threeKeys_apart).mpr hfits⟩

end Samples

end NebularOs.BlobOnlyDeletion
