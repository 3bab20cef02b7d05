import Mathlib
import NebularOs.BlobOnlyDeletion
import NebularOs.Listing

/-!
# Counting and listing the keys under a prefix

A listing reads the rows of the metadata table, whatever the mode of the node. A
count reads the same rows in full mode. In blob-only mode, in which writes add no
rows, it walks the bucket's directories and counts the files that spell a key under
the prefix. So a count and a listing agree where the table has as many active rows
under the prefix as the walk finds files.
-/

namespace NebularOs.PrefixCounts

open BlobFilenames BlobPaths FilenameDecoding OrderedRows PrefixDeletion BlobOnlyDeletion Listing
  List

/-- Where a node keeps what it knows of its objects. -/
inductive MetadataMode
  | full
  | blobOnly
  deriving DecidableEq

/-- A node between operations, and one of its buckets. -/
structure BucketState where
  /-- The node and the bucket. -/
  store : BlobOnlyStore
  /-- The mode of the node. -/
  metadataMode : MetadataMode
  /-- The metadata table. -/
  objectMeta : ObjectTable Char
  /-- Entries of the bucket's directory, if there is one. -/
  bucketDir : Option (List DirEntry)

/-- The answer to a count. -/
structure ListCountResult where
  /-- How many keys there are. -/
  count : ℕ
  /-- The prefix that was asked for. -/
  keyPrefix : Option Text
  deriving DecidableEq

/-- The largest signed 64-bit number. -/
def i64Max : ℕ := 2^63-1

/-- Number of active rows of a bucket under a prefix. -/
def countActiveWithPrefix (table : ObjectTable Char) (bucket keyPrefix : Text) : ℕ :=
  ((activeRows table bucket).filter fun row => keyPrefix.isPrefixOf row.key).length

/-- Keys that a walk of the bucket's directory finds. A directory that is missing
holds none. -/
def walkedKeys (state : BucketState) (keyPrefix : Text) : List Text :=
  match state.bucketDir with
  | none => []
  | some root => listBlobOnlyKeys root keyPrefix i64Max

/-- Counting the keys under a prefix. -/
def countObjectsByPrefix (state : BucketState) (keyPrefix : Option Text) : ListCountResult :=
  let asked := keyPrefix.getD []
  match state.metadataMode with
  | .blobOnly => ⟨(walkedKeys state asked).length,some asked⟩
  | .full => ⟨countActiveWithPrefix state.objectMeta state.store.bucket asked,some asked⟩

mutual

/-- Keys that the files of an entry spell. -/
def entryKeys (dir : List Text) : DirEntry → List Text
  | .file name => (objectKeyFromBlobRelpath (relPath (dir++[name]))).toList
  | .dir name entries => blobKeys (dir++[name]) entries
  | .other _ => []

/-- Keys that the files below a directory spell. -/
def blobKeys (dir : List Text) : List DirEntry → List Text
  | [] => []
  | entry::entries => entryKeys dir entry++blobKeys dir entries

end

/-- Number of files of the bucket that spell a key under a prefix. -/
def filesUnder (state : BucketState) (keyPrefix : Text) : ℕ :=
  (under keyPrefix (blobKeys [] (state.bucketDir.getD []))).length

section Walks

variable {keyPrefix : Text} {limit : ℕ}

/-- Number of files under the prefix in directories that are still to be read. -/
def pending (keyPrefix : Text) (stack : List (List Text×List DirEntry)) : ℕ :=
  (stack.map fun dir => (under keyPrefix (blobKeys dir.1 dir.2)).length).sum

/-- Number of directories that are still to be read, with those inside them. -/
def unread (stack : List (List Text×List DirEntry)) : ℕ :=
  (stack.map fun dir => dirsIn dir.2+1).sum

/-- A directory's files are those it lists and those in the directories it lists. -/
theorem length_under_blobKeys (dir : List Text) (entries : List DirEntry) :
    (under keyPrefix (blobKeys dir entries)).length=
      (under keyPrefix (keysIn dir entries)).length+pending keyPrefix (subdirs dir entries) := by
  induction entries with
  | nil => rfl
  | cons entry entries ih =>
    rw [blobKeys,under_append,length_append,ih]
    cases entry with
    | other name => exact Nat.zero_add _
    | dir name inner =>
      have hpending : pending keyPrefix (subdirs dir (.dir name inner::entries))=
        (under keyPrefix (blobKeys (dir++[name]) inner)).length+
          pending keyPrefix (subdirs dir entries) := rfl
      rw [entryKeys,hpending]
      exact Nat.add_left_comm _ _ _
    | file name =>
      have hkeys : keysIn dir (.file name::entries)=entryKeys dir (.file name)++keysIn dir entries := by
        cases hkey : objectKeyFromBlobRelpath (relPath (dir++[name])) <;> simp [keysIn,entryKeys,hkey]
      rw [hkeys,under_append,length_append,Nat.add_assoc]
      rfl

theorem unread_subdirs (dir : List Text) (entries : List DirEntry) :
    unread (subdirs dir entries)=dirsIn entries := by
  induction entries with
  | nil => rfl
  | cons entry entries ih =>
    rw [dirsIn,← ih]
    cases entry with
    | file name | other name => exact (Nat.zero_add _).symm
    | dir name inner => rfl

/-- Reading a directory loses no file, unless there are enough keys. -/
theorem readEntries_account (keyPrefix : Text) (dir : List Text) (entries : List DirEntry)
    (stack : List (List Text×List DirEntry)) {keys : List Text} (hroom : keys.length≤limit) :
    ∃ stack' found,readEntries keyPrefix limit dir entries stack keys=(stack',found) ∧
      found.length≤limit ∧ unread stack'≤dirsIn entries+unread stack ∧
      min limit (found.length+pending keyPrefix stack')=
        min limit (keys.length+pending keyPrefix ((dir,entries)::stack)) := by
  obtain ⟨read,rest,found,rfl,hfound,hread,hle,hfull⟩ :=
    readEntries_spec keyPrefix dir entries stack hroom
  refine ⟨_,found,hread,hle,?_,?_⟩
  · rw [← unread_subdirs dir]
    simp only [unread,subdirs,filterMap_append,map_append,map_reverse,sum_append,sum_reverse]
    omega
  · have hpending : pending keyPrefix ((subdirs dir read).reverse++stack)=
        pending keyPrefix (subdirs dir read)+pending keyPrefix stack := by
      simp only [pending,map_append,map_reverse,sum_append,sum_reverse]
    have hbefore : pending keyPrefix ((dir,read++rest)::stack)=
      (under keyPrefix (blobKeys dir (read++rest))).length+pending keyPrefix stack := rfl
    have hlength : found.length=keys.length+(under keyPrefix (keysIn dir read)).length := by
      rw [hfound,length_append]
    rw [hpending,hbefore,length_under_blobKeys,keysIn_append,under_append,length_append]
    cases rest with
    | nil =>
      have hnone : (under keyPrefix (keysIn dir [])).length=0 := rfl
      rw [append_nil]
      omega
    | cons entry rest =>
      have henough := hfull (cons_ne_nil _ _)
      omega

theorem walkStack_length {fuel : ℕ} {stack : List (List Text×List DirEntry)} {keys : List Text}
    (hfuel : unread stack≤fuel) (hroom : keys.length≤limit) :
    (walkStack keyPrefix limit fuel stack keys).length=
      min limit (keys.length+pending keyPrefix stack) := by
  induction fuel generalizing stack keys with
  | zero =>
    cases stack with
    | nil =>
      rw [walkStack]
      exact (Nat.min_eq_right hroom).symm
    | cons dir stack =>
      have hunread : unread (dir::stack)=dirsIn dir.2+1+unread stack := rfl
      omega
  | succ fuel ih =>
    cases stack with
    | nil =>
      rw [walkStack]
      · exact (Nat.min_eq_right hroom).symm
      · exact fun h => nomatch h
    | cons dir stack =>
      obtain ⟨dir,entries⟩ := dir
      have hunread : unread ((dir,entries)::stack)=dirsIn entries+1+unread stack := rfl
      rw [walkStack]
      by_cases hfull : limit≤keys.length
      · rw [if_pos hfull]
        omega
      rw [if_neg hfull]
      obtain ⟨stack',found,hread,hle,hdirs,hfiles⟩ :=
        readEntries_account keyPrefix dir entries stack hroom
      rw [hread]
      exact (ih (by omega) hle).trans hfiles

end Walks

theorem walkedKeys_length (state : BucketState) (keyPrefix : Text) :
    (walkedKeys state keyPrefix).length=min i64Max (filesUnder state keyPrefix) := by
  unfold walkedKeys filesUnder
  cases hdir : state.bucketDir with
  | none =>
    rw [Option.getD_none,blobKeys]
    exact (Nat.min_eq_right (Nat.zero_le _)).symm
  | some root =>
    unfold listBlobOnlyKeys
    have hfuel : unread [([],root)]≤dirsIn root+1 := Nat.le_refl _
    rw [(perm_insertionSort _ _).length_eq,walkStack_length hfuel (Nat.zero_le _)]
    congr 1
    exact Nat.zero_add _

theorem countActiveWithPrefix_eq (table : ObjectTable Char) (bucket keyPrefix : Text) :
    countActiveWithPrefix table bucket keyPrefix=(underRows table bucket keyPrefix).length := by
  unfold countActiveWithPrefix underRows
  rw [(sortedBy_perm _ _).length_eq]

theorem listing_rows (listScanCap : ℤ) (table : ObjectTable Char) (bucket : Text)
    (keyPrefix : Option Text) {limit : Option ℕ} (hlimit : limit≠some 0) :
    (∃ pages,Follows (listObjects listScanCap table bucket keyPrefix none limit) none pages) ∧
      ∀ pages,Follows (listObjects listScanCap table bucket keyPrefix none limit) none pages →
        (pages.flatMap ListResult.items).Perm (underRows table bucket (keyPrefix.getD [])) := by
  have hroom : 0<pageLimit limit := by
    unfold pageLimit
    cases limit with
    | none => decide
    | some count =>
      have hne : count≠0 := fun heq => hlimit (by rw [heq])
      rw [Option.getD_some]
      omega
  have hall := underRows_ascending table bucket (keyPrefix.getD [])
  obtain ⟨hends,hcomplete⟩ := pages_complete_iff
    (fun startAfter => listPlain_account hroom startAfter) hall rowsAfter_none
    fun _ _ hedge => hedge.elim
  refine ⟨hends,fun pages hpages => ?_⟩
  have hlisted := (hcomplete pages hpages).mpr fun _ _ _ hedge => hedge.elim
  have hrows : (underRows table bucket (keyPrefix.getD [])).Nodup :=
    hall.imp fun hlt heq => absurd (congrArg ListedRow.key heq) hlt.ne
  refine (perm_ext_iff_of_nodup hlisted.once.of_map hrows).mpr fun row => ?_
  rw [hlisted.items]
  exact and_iff_left rfl

/-- A listing under a prefix ends. A count is the number of keys that it lists in full
mode, and in blob-only mode exactly when the table has as many active rows under the
prefix as the bucket has files. -/
theorem count_eq_listed_iff (state : BucketState) (listScanCap : ℤ) (keyPrefix : Option Text)
    (limit : Option ℕ) (hlimit : limit≠some 0) :
    (∃ pages,Follows (listObjects listScanCap state.objectMeta state.store.bucket keyPrefix none
      limit) none pages) ∧
      ∀ pages,Follows (listObjects listScanCap state.objectMeta state.store.bucket keyPrefix none
          limit) none pages →
        ((countObjectsByPrefix state keyPrefix).count=(pages.flatMap ListResult.items).length ↔
          state.metadataMode=.full ∨ min i64Max (filesUnder state (keyPrefix.getD []))=
              (underRows state.objectMeta state.store.bucket (keyPrefix.getD [])).length) := by
  obtain ⟨hends,hlisted⟩ := listing_rows listScanCap state.objectMeta state.store.bucket keyPrefix
    hlimit
  refine ⟨hends,fun pages hpages => ?_⟩
  rw [(hlisted pages hpages).length_eq]
  unfold countObjectsByPrefix
  cases hmode : state.metadataMode with
  | full =>
    dsimp only
    rw [countActiveWithPrefix_eq]
    exact iff_of_true rfl (Or.inl rfl)
  | blobOnly =>
    dsimp only
    rw [walkedKeys_length,or_iff_right (by decide)]

section Samples

/-- A node in full mode with two keys under a prefix. -/
def indexedBucket : BucketState :=
  ⟨sampleStore,.full,sampleTable [['p', 'a'], ['p', 'b']] (by decide) (by decide),none⟩

/-- In full mode two keys are counted, and two are listed. -/
theorem indexedBucket_counted : Option.some 1≠some 0 ∧ ∀ pages,
      Follows (listObjects 1000 indexedBucket.objectMeta indexedBucket.store.bucket (some ['p']) none
        (some 1)) none pages→(countObjectsByPrefix indexedBucket (some ['p'])).count=
          (pages.flatMap ListResult.items).length :=
  ⟨by decide,fun pages hpages => ((count_eq_listed_iff indexedBucket 1000 (some ['p']) (some 1)
    (by decide)).2 pages hpages).mpr (Or.inl rfl)⟩

theorem nodup_uploadedKey : ([['k']] : List Text).Nodup := nodup_singleton _

/-- The key `k`, stored by an upload in blob-only mode. -/
def uploadedKey : StoredKeys sampleStore where
  keys := [['k']]
  nodup := nodup_uploadedKey
  accepted := by
    intro key hkey
    have hself : sanitizeKey ['k']=.ok ['k'] := by decide +kernel
    exact ⟨['k'],mem_singleton.mp hkey ▸ hself⟩
  filed := by decide +kernel

/-- A node in blob-only mode after one upload: the bucket has the file of the key, and
the table has no row. -/
def uploadedBucket : BucketState where
  store := sampleStore
  metadataMode := .blobOnly
  objectMeta := sampleTable [] (by decide) (by decide)
  bucketDir := some (bucketTree (groupedShards sampleStore uploadedKey.keys
    [hashPrefix sampleStore.hash ['k']]))

/-- In blob-only mode an uploaded key is counted and not listed. -/
theorem uploaded_key_not_listed : Lists uploadedKey (groupedShards sampleStore uploadedKey.keys
      [hashPrefix sampleStore.hash ['k']]) ∧ (countObjectsByPrefix uploadedBucket none).count=1 ∧
    ∃ pages,Follows (listObjects 1000 uploadedBucket.objectMeta uploadedBucket.store.bucket none none
      (some 1)) none pages ∧ (pages.flatMap ListResult.items).length=0 := by
  have hlists : Lists uploadedKey (groupedShards sampleStore uploadedKey.keys
      [hashPrefix sampleStore.hash ['k']]) := by
    refine groupedShards_lists (List.Perm.refl _) (nodup_singleton _) fun key hkey => ?_
    rw [mem_singleton.mp hkey]
    exact mem_singleton_self _
  exact ⟨hlists,by decide +kernel,_,.last (by decide +kernel),by decide +kernel⟩

end Samples

end NebularOs.PrefixCounts
