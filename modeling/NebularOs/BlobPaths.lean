import Mathlib
import NebularOs.BlobFilenames

/-!
# Candidate paths of an object's blob

A blob lives below `{base}/{bucket}/{shard}`. A key has up to three candidate
paths there: its flat filename by each of the two schemes, and, when the key
contains a slash, the nested path earlier releases wrote. Reads use the first
candidate that exists; overwrites, deletes and orphan removal remove every
candidate that exists.

This file embeds the sanitizers and the path construction, says which file a
path names on a case-sensitive POSIX filesystem, and settles exactly when two
keys of one bucket share a file.
-/

namespace NebularOs.BlobPaths

open PercentCoding BlobFilenames List

/-- A drive letter as Windows paths start with: a colon as the second byte. -/
def hasDriveLetter (text : Text) : Bool :=
  (utf8 text)[1]? == some 0x3A

/-- Object keys the server accepts, with backslashes turned into slashes. -/
def sanitizeKey (key : Text) : Except String Text :=
  if key.isEmpty then .error "key cannot be empty"
  else
    let key := key.map fun ch => if ch = '\\' then '/' else ch
    if key.head? == some '/' then .error "invalid key: absolute paths are not allowed"
    else if hasDriveLetter key then .error "invalid key: absolute paths are not allowed"
    else if (key.splitOn '/').any (· == ['.', '.']) then
      .error "invalid key: directory traversal detected"
    else if key.contains '\n' || key.contains '\x00' then
      .error "invalid key: newlines and NUL are not allowed"
    else .ok key

/-- Lowercase hexadecimal digit of a number below sixteen. -/
def lowerHexDigit (n : ℕ) : Char :=
  if n<10 then Char.ofNat (0x30+n) else Char.ofNat (0x61+(n-10))

/-- Shard directory of a key: the low byte of its hash in two digits. -/
def hashPrefix (hash : List UInt8→UInt64) (key : Text) : Text :=
  let low := (hash (utf8 key) &&& 0xFF).toNat
  [lowerHexDigit (low/16),lowerHexDigit (low%16)]

/-- Joining a path with a further one: a separator is added unless the path is
empty or ends in one, and an absolute second path replaces the first. -/
def pathJoin (path name : Text) : Text :=
  if name.head? = some '/' then name
  else if path.isEmpty || path.getLast? == some '/' then path++name
  else path ++ '/' :: name

/-- Directory that holds every candidate of a key. -/
def shardDir (hash : List UInt8→UInt64) (base bucket key : Text) : Text :=
  pathJoin (pathJoin base bucket) (hashPrefix hash key)

/-- On-disk path of new writes. -/
def blobPath (hash : List UInt8→UInt64) (portable : Bool) (base bucket key : Text) : Text :=
  pathJoin (shardDir hash base bucket key) (encodeBlobFilename portable key)

/-- The nested path of earlier releases, kept for reads and deletes. -/
def blobPathLegacy (hash : List UInt8→UInt64) (base bucket key : Text) : Text :=
  pathJoin (shardDir hash base bucket key) key

/-- Segments that move somewhere: neither empty nor a single dot. -/
def isRealSegment (segment : Text) : Bool :=
  segment != [] && segment != ['.']

/-- The directories and the name a path walks through, in order. -/
def realSegments (path : Text) : List Text :=
  (path.splitOn '/').filter isRealSegment

/-- Whether a path starts at the root directory. -/
def isAbsolute (path : Text) : Bool :=
  path.head? == some '/'

/-- Whether a relative path starts with an explicit current directory. -/
def startsInCurDir (path : Text) : Bool :=
  !isAbsolute path && (path.splitOn '/').head? == some ['.']

/-- Equality of paths as the source's path type compares them: by components,
so repeated slashes, inner dots and a trailing slash do not count. -/
def samePath (first second : Text) : Bool :=
  isAbsolute first == isAbsolute second && startsInCurDir first == startsInCurDir second &&
    realSegments first == realSegments second

/-- Appending a candidate unless an equal path is already listed. -/
def pushNew (paths : List Text) (path : Text) : List Text :=
  if paths.any (samePath · path) then paths else paths++[path]

/-- Candidate paths of a key, the current filename first, then the other
scheme, then the nested layout. -/
def blobPathVariants (hash : List UInt8→UInt64) (portable : Bool) (base bucket key : Text) :
    List Text :=
  let dir := shardDir hash base bucket key
  let variants := [blobPath hash portable base bucket key]
  let variants := pushNew variants (pathJoin dir (encodePlain key))
  let variants := pushNew variants (pathJoin dir (encodePortable key))
  if key.contains '/' then pushNew variants (blobPathLegacy hash base bucket key)
  else variants

/-- A file of a case-sensitive POSIX filesystem: whether the walk starts at the
root, and the names on the way. -/
structure PosixFile where
  /-- Whether the walk starts at the root directory. -/
  absolute : Bool
  /-- Directory names and, last, the file's own name. -/
  segments : List Text
  deriving DecidableEq

/-- Whether a path ends in a name, and not in a slash or a dot. -/
def endsInName (path : Text) : Bool :=
  (path.splitOn '/').getLast?.any isRealSegment

/-- The file a path names. Dots and repeated slashes drop out; a path that ends
in a slash or in a dot names a directory and no file. Parent segments can only
come from the base directory, which all paths of a store share. -/
def fileNamed (path : Text) : Option PosixFile :=
  if endsInName path then
    some ⟨isAbsolute path,realSegments path⟩
  else none

variable {name : Text}

theorem pathJoin_cases (path : Text) (h : name.head?≠some '/') :
    (path=[] ∧ pathJoin path name=name) ∨ ∃ body, pathJoin path name=body ++ '/' :: name ∧
        ((path=body ∧ path≠[]) ∨ path=body++['/']) := by
  unfold pathJoin
  rw [if_neg h]
  rcases eq_nil_or_concat path with rfl | ⟨body,c,rfl⟩
  · exact Or.inl ⟨rfl,rfl⟩
  · right
    by_cases hc : c = '/'
    · subst hc
      exact ⟨body,by simp,Or.inr (by simp)⟩
    · exact ⟨body++[c],by simp [hc],Or.inl ⟨by simp,by simp⟩⟩

theorem realSegments_pathJoin (path : Text) (h : name.head?≠some '/') :
    realSegments (pathJoin path name)=realSegments path++realSegments name := by
  unfold realSegments
  rcases pathJoin_cases path h with ⟨rfl,hjoin⟩ | ⟨body,hjoin,⟨rfl,hne⟩ | rfl⟩
  · rw [hjoin]
    simp [isRealSegment]
  · rw [hjoin,splitOn_append_cons_self,filter_append]
  · rw [hjoin,splitOn_append_cons_self,splitOn_append_cons_self]
    simp [isRealSegment]

theorem isAbsolute_pathJoin (path : Text) (h : name.head?≠some '/') :
    isAbsolute (pathJoin path name)=isAbsolute path := by
  unfold isAbsolute
  rcases pathJoin_cases path h with ⟨rfl,hjoin⟩ | ⟨body,hjoin,⟨rfl,hne⟩ | rfl⟩
  · rw [hjoin]
    simpa using h
  · rw [hjoin,List.head?_append_of_ne_nil _ hne]
  · rw [hjoin]
    cases body <;> rfl

theorem endsInName_pathJoin (path : Text) (h : name.head?≠some '/') :
    endsInName (pathJoin path name)=endsInName name := by
  unfold endsInName
  rcases pathJoin_cases path h with ⟨rfl,hjoin⟩ | ⟨body,hjoin,_⟩
  · rw [hjoin]
  · rw [hjoin,splitOn_append_cons_self,
      List.getLast?_append_of_ne_nil _ (splitOn_ne_nil _ _)]

theorem hashPrefix_segments (hash : List UInt8→UInt64) (key : Text) :
    (hashPrefix hash key).head?≠some '/' ∧
      realSegments (hashPrefix hash key)=[hashPrefix hash key] := by
  have hall : ∀ n : Fin 256,
      [lowerHexDigit (n.val/16),lowerHexDigit (n.val%16)].head?≠some '/' ∧
        realSegments [lowerHexDigit (n.val/16),lowerHexDigit (n.val%16)]=
          [[lowerHexDigit (n.val/16),lowerHexDigit (n.val%16)]] := by decide +kernel
  have hlow : (hash (utf8 key) &&& 0xFF).toNat<256 := by
    rw [UInt64.toNat_and]
    exact lt_of_le_of_lt Nat.and_le_right (by decide)
  exact hall ⟨_,hlow⟩

theorem fileNamed_shardDir (hash : List UInt8→UInt64) (base bucket key : Text)
    (h : name.head?≠some '/') : fileNamed (pathJoin (shardDir hash base bucket key) name)=
      if endsInName name then some ⟨isAbsolute (pathJoin base bucket),
          realSegments (pathJoin base bucket)++hashPrefix hash key::realSegments name⟩
      else none := by
  obtain ⟨hhead,hsegments⟩ := hashPrefix_segments hash key
  unfold fileNamed shardDir
  rw [endsInName_pathJoin _ h,isAbsolute_pathJoin _ h,isAbsolute_pathJoin _ hhead,
    realSegments_pathJoin _ h,realSegments_pathJoin _ hhead,hsegments,append_assoc,
    singleton_append]

theorem mem_encodePlain {ch : Char} {key : Text} (hch : ch = '/' ∨ ch = '\\')
    (h : ch∈encodePlain key) : ch ≠ '/' ∧ ch∈key := by
  have hcodes : ch∉['%', '2', 'F'] ∧ ch∉['%', '2', '5'] := by
    rcases hch with rfl | rfl <;> decide
  obtain ⟨letter,hletter,hmem⟩ := mem_flatMap.mp h
  split_ifs at hmem with hslash hpercent
  · exact absurd hmem hcodes.1
  · exact absurd hmem hcodes.2
  · obtain rfl := mem_singleton.mp hmem
    exact ⟨hslash,hletter⟩

theorem not_mem_encodePortable {ch : Char} (hch : ch = '/' ∨ ch = '\\') (key : Text) :
    ch∉encodePortable key := by
  have hkept : ∀ n : Fin 256,isPortableByte (UInt8.ofNat n.val)=true → ch≠Char.ofNat n.val := by
    rcases hch with rfl | rfl <;> decide +kernel
  have hescaped : ∀ n : Fin 256,
      ch∉(escapeByte (UInt8.ofNat n.val)).map fun digit => Char.ofNat digit.toNat := by
    rcases hch with rfl | rfl <;> decide +kernel
  simp only [encodePortable,mem_flatMap,not_exists,not_and]
  rintro ⟨b,i⟩ _ hmem
  have hb := hkept ⟨b.toNat,b.toNat_lt⟩
  have hb' := hescaped ⟨b.toNat,b.toNat_lt⟩
  rw [UInt8.ofNat_toNat] at hb hb'
  unfold encodePortableByte at hmem
  dsimp only at hmem
  split_ifs at hmem with hkeep
  · exact hb (Bool.and_eq_true_iff.mp hkeep).2 (mem_singleton.mp hmem)
  · exact hb' hmem

variable {key : Text}

theorem slash_not_mem_of_flatName (h : FlatName key name) : '/'∉name := by
  rcases h with rfl | rfl
  · exact fun hmem => (mem_encodePlain (Or.inl rfl) hmem).1 rfl
  · exact not_mem_encodePortable (Or.inl rfl) key

theorem flatName_encodeBlobFilename (portable : Bool) (key : Text) :
    FlatName key (encodeBlobFilename portable key) := by
  cases portable
  · exact Or.inl rfl
  · exact Or.inr rfl

theorem head?_ne_slash (h : '/'∉name) : name.head?≠some '/' :=
  fun hhead => h (mem_of_mem_head? hhead)

theorem realSegments_of_not_mem (h : '/'∉name) :
    realSegments name=if isRealSegment name then [name] else [] := by
  unfold realSegments
  rw [splitOn_eq_singleton h]
  cases hreal : isRealSegment name <;> simp [hreal]

theorem endsInName_of_not_mem (h : '/'∉name) : endsInName name=isRealSegment name := by
  unfold endsInName
  rw [splitOn_eq_singleton h]
  rfl

theorem realSegments_ne_nil (h : endsInName name=true) : realSegments name≠[] := by
  unfold endsInName at h
  cases hlast : (name.splitOn '/').getLast? with
  | none =>
    rw [hlast] at h
    cases h
  | some last =>
    rw [hlast] at h
    exact ne_nil_of_mem (mem_filter.mpr ⟨mem_of_getLast? hlast,h⟩)

theorem sanitizeKey_head? {raw : Text} (h : sanitizeKey raw=.ok key) : key.head?≠some '/' := by
  unfold sanitizeKey at h
  dsimp only at h
  split_ifs at h with hempty hslash hdrive hdots hlines
  cases h
  simpa using hslash

/-- Names a key may have below its shard directory. -/
def CandidateName (key name : Text) : Prop :=
  FlatName key name ∨ ('/'∈key ∧ name=key)

theorem CandidateName.head?_ne (hkey : key.head?≠some '/') (h : CandidateName key name) :
    name.head?≠some '/' := by
  rcases h with h | ⟨_,rfl⟩
  · exact head?_ne_slash (slash_not_mem_of_flatName h)
  · exact hkey

theorem exists_mem_pushNew {P : Text→Prop} {paths : List Text} {path : Text}
    (hsame : ∀ listed∈paths,samePath listed path=true→P path→P listed) :
    (∃ p∈pushNew paths path,P p) ↔ (∃ p∈paths,P p) ∨ P path := by
  unfold pushNew
  split_ifs with hany
  · obtain ⟨listed,hlisted,heq⟩ := any_eq_true.mp hany
    exact ⟨Or.inl,fun h => h.elim id fun hp => ⟨listed,hlisted,hsame listed hlisted heq hp⟩⟩
  · simp only [mem_append,mem_singleton,or_and_right,exists_or,exists_eq_left]

theorem fileNamed_of_samePath {hash : List UInt8→UInt64} {base bucket flat : Text}
    {file : PosixFile} (hflat : '/'∉flat) (hname : name.head?≠some '/')
    (hsame : samePath (pathJoin (shardDir hash base bucket key) flat)
      (pathJoin (shardDir hash base bucket key) name)=true)
    (hfile : fileNamed (pathJoin (shardDir hash base bucket key) name)=some file) :
    fileNamed (pathJoin (shardDir hash base bucket key) flat)=some file := by
  have hhead := head?_ne_slash hflat
  have hsegments : realSegments flat=realSegments name := by
    have h := (Bool.and_eq_true_iff.mp hsame).2
    rw [beq_iff_eq,realSegments_pathJoin _ hhead,realSegments_pathJoin _ hname] at h
    exact append_cancel_left h
  rw [fileNamed_shardDir _ _ _ _ hname] at hfile
  split_ifs at hfile with hends
  have hreal : isRealSegment flat=true := by
    by_contra hnot
    apply realSegments_ne_nil hends
    rw [← hsegments,realSegments_of_not_mem hflat,if_neg hnot]
  rwa [fileNamed_shardDir _ _ _ _ hhead,endsInName_of_not_mem hflat,if_pos hreal,hsegments]

section Candidates

variable {hash : List UInt8→UInt64} {portable : Bool} {base bucket : Text}

/-- Lists that hold flat candidates of a key only. -/
def FlatPaths (hash : List UInt8→UInt64) (base bucket key : Text) (paths : List Text) : Prop :=
  ∀ path∈paths,∃ name,FlatName key name ∧ path=pathJoin (shardDir hash base bucket key) name

variable {key name : Text}

theorem FlatPaths.pushNew {paths : List Text} (h : FlatPaths hash base bucket key paths)
    (hname : FlatName key name) : FlatPaths hash base bucket key
      (pushNew paths (pathJoin (shardDir hash base bucket key) name)) := by
  unfold BlobPaths.pushNew
  split_ifs
  · exact h
  · intro path hpath
    rcases mem_append.mp hpath with hold | hnew
    · exact h path hold
    · exact ⟨name,hname,mem_singleton.mp hnew⟩

theorem FlatPaths.exists_pushNew {paths : List Text} (h : FlatPaths hash base bucket key paths)
    (hname : name.head?≠some '/') (file : PosixFile) :
    (∃ path∈BlobPaths.pushNew paths (pathJoin (shardDir hash base bucket key) name),
        fileNamed path=some file) ↔ (∃ path∈paths,fileNamed path=some file) ∨
        fileNamed (pathJoin (shardDir hash base bucket key) name)=some file := by
  apply exists_mem_pushNew
  intro listed hlisted hsame hfile
  obtain ⟨flat,hflat,rfl⟩ := h listed hlisted
  exact fileNamed_of_samePath (slash_not_mem_of_flatName hflat) hname hsame hfile

/-- The candidate paths of a key name exactly the files of its candidate names. -/
theorem exists_variant_iff (hkey : key.head?≠some '/') (file : PosixFile) :
    (∃ path∈blobPathVariants hash portable base bucket key,fileNamed path=some file) ↔
      ∃ name,CandidateName key name ∧
        fileNamed (pathJoin (shardDir hash base bucket key) name)=some file := by
  have hplain : FlatName key (encodePlain key) := Or.inl rfl
  have hportable : FlatName key (encodePortable key) := Or.inr rfl
  have hcurrent := flatName_encodeBlobFilename portable key
  have hfirst : FlatPaths hash base bucket key [blobPath hash portable base bucket key] := by
    intro path hpath
    exact ⟨_,hcurrent,mem_singleton.mp hpath⟩
  have hsecond := hfirst.pushNew hplain
  have hthird := hsecond.pushNew hportable
  have hflat : (∃ path∈pushNew (pushNew [blobPath hash portable base bucket key]
        (pathJoin (shardDir hash base bucket key) (encodePlain key)))
        (pathJoin (shardDir hash base bucket key) (encodePortable key)),
        fileNamed path=some file) ↔
      ∃ name,FlatName key name ∧
        fileNamed (pathJoin (shardDir hash base bucket key) name)=some file := by
    rw [hsecond.exists_pushNew (head?_ne_slash (slash_not_mem_of_flatName hportable)),
      hfirst.exists_pushNew (head?_ne_slash (slash_not_mem_of_flatName hplain))]
    constructor
    · rintro ((⟨path,hpath,hfile⟩ | hfile) | hfile)
      · obtain rfl := mem_singleton.mp hpath
        exact ⟨_,hcurrent,hfile⟩
      · exact ⟨_,hplain,hfile⟩
      · exact ⟨_,hportable,hfile⟩
    · rintro ⟨name,rfl | rfl,hfile⟩
      · exact Or.inl (Or.inr hfile)
      · exact Or.inr hfile
  unfold blobPathVariants
  dsimp only
  by_cases hslash : '/'∈key
  · rw [if_pos (contains_iff_mem.mpr hslash),blobPathLegacy,hthird.exists_pushNew hkey,hflat]
    simp only [CandidateName,hslash,true_and,or_and_right,exists_or,exists_eq_left]
  · rw [if_neg (fun h => hslash (contains_iff_mem.mp h)),hflat]
    simp only [CandidateName,hslash,false_and,or_false]

/-- Files that an existing candidate of the key may be. -/
def CandidateFile (hash : List UInt8→UInt64) (portable : Bool) (base bucket key : Text)
    (file : PosixFile) : Prop :=
  ∃ path∈blobPathVariants hash portable base bucket key,fileNamed path=some file

/-- The nested path of the first key names a file that the second key may be
stored in: one of its flat names, or the file of its own nested path. -/
def NestedPathHits (key₁ key₂ : Text) : Prop :=
  '/'∈key₁ ∧ endsInName key₁=true ∧
    (realSegments key₁=[encodePlain key₂] ∨ realSegments key₁=[encodePortable key₂] ∨
      ('/'∈key₂ ∧ endsInName key₂=true ∧ realSegments key₁=realSegments key₂))

/-- Keys whose candidate paths cannot meet: they are in different shards, or
neither one's nested path hits the other. -/
def SeparateCandidates (hash : List UInt8→UInt64) (key₁ key₂ : Text) : Prop :=
  hashPrefix hash key₁=hashPrefix hash key₂ →
    ¬NestedPathHits key₁ key₂ ∧ ¬NestedPathHits key₂ key₁

instance (key₁ key₂ : Text) : Decidable (NestedPathHits key₁ key₂) := by
  unfold NestedPathHits
  infer_instance

instance (hash : List UInt8→UInt64) (key₁ key₂ : Text) :
    Decidable (SeparateCandidates hash key₁ key₂) := by
  unfold SeparateCandidates
  infer_instance

variable {key₁ key₂ : Text}

theorem fileNamed_eq_iff {name₁ name₂ : Text} (h₁ : name₁.head?≠some '/')
    (h₂ : name₂.head?≠some '/') :
    (∃ file,fileNamed (pathJoin (shardDir hash base bucket key₁) name₁)=some file ∧
      fileNamed (pathJoin (shardDir hash base bucket key₂) name₂)=some file) ↔
    hashPrefix hash key₁=hashPrefix hash key₂ ∧ endsInName name₁=true ∧
      endsInName name₂=true ∧ realSegments name₁=realSegments name₂ := by
  rw [fileNamed_shardDir _ _ _ _ h₁,fileNamed_shardDir _ _ _ _ h₂]
  cases endsInName name₁ <;> cases endsInName name₂ <;>
    simp [append_cancel_left_eq,eq_comm]

theorem realSegments_flatName (h : FlatName key name) (hends : endsInName name=true) :
    realSegments name=[name] := by
  have hslash := slash_not_mem_of_flatName h
  rw [endsInName_of_not_mem hslash] at hends
  rw [realSegments_of_not_mem hslash,if_pos hends]

theorem endsInName_flatName {path : Text} (h : FlatName key name) (hmem : realSegments path=[name]) :
    endsInName name=true := by
  rw [endsInName_of_not_mem (slash_not_mem_of_flatName h)]
  have hname : name∈realSegments path := by
    rw [hmem]
    exact mem_singleton_self name
  exact (mem_filter.mp hname).2

theorem nestedPathHits_of_flatName (hslash : '/'∈key₁) (hends : endsInName key₁=true)
    (h : FlatName key₂ name) (hsegments : realSegments key₁=[name]) : NestedPathHits key₁ key₂ := by
  rcases h with rfl | rfl
  · exact ⟨hslash,hends,Or.inl hsegments⟩
  · exact ⟨hslash,hends,Or.inr (Or.inl hsegments)⟩

/-- Candidate names of two keys that walk the same way. -/
def NamesMeet (key₁ key₂ : Text) : Prop :=
  ∃ name₁ name₂,CandidateName key₁ name₁ ∧ CandidateName key₂ name₂ ∧
    endsInName name₁=true ∧ endsInName name₂=true ∧ realSegments name₁=realSegments name₂

theorem namesMeet_of_flatName (hslash : '/'∈key₁) (hends : endsInName key₁=true)
    (h : FlatName key₂ name) (hsegments : realSegments key₁=[name]) : NamesMeet key₁ key₂ := by
  have hends₂ := endsInName_flatName h hsegments
  exact ⟨key₁,_,Or.inr ⟨hslash,rfl⟩,Or.inl h,hends,hends₂,
    hsegments.trans (realSegments_flatName h hends₂).symm⟩

theorem NestedPathHits.namesMeet (h : NestedPathHits key₁ key₂) : NamesMeet key₁ key₂ := by
  obtain ⟨hslash,hends,hplain | hportable | ⟨hslash₂,hends₂,hsame⟩⟩ := h
  · exact namesMeet_of_flatName hslash hends (Or.inl rfl) hplain
  · exact namesMeet_of_flatName hslash hends (Or.inr rfl) hportable
  · exact ⟨key₁,key₂,Or.inr ⟨hslash,rfl⟩,Or.inr ⟨hslash₂,rfl⟩,hends,hends₂,hsame⟩

theorem nestedPathHits_iff (hne : key₁≠key₂) :
    NestedPathHits key₁ key₂ ∨ NestedPathHits key₂ key₁ ↔ NamesMeet key₁ key₂ := by
  constructor
  · rintro (hhits | hhits)
    · exact hhits.namesMeet
    · obtain ⟨name₂,name₁,h₂,h₁,hends₂,hends₁,hsegments⟩ := hhits.namesMeet
      exact ⟨name₁,name₂,h₁,h₂,hends₁,hends₂,hsegments.symm⟩
  · rintro ⟨name₁,name₂,h₁ | ⟨hslash₁,rfl⟩,h₂ | ⟨hslash₂,rfl⟩,hends₁,hends₂,hsegments⟩
    · rw [realSegments_flatName h₁ hends₁,realSegments_flatName h₂ hends₂] at hsegments
      obtain rfl := singleton_injective hsegments
      exact absurd (h₁.unique h₂) hne
    · rw [realSegments_flatName h₁ hends₁] at hsegments
      exact Or.inr (nestedPathHits_of_flatName hslash₂ hends₂ h₁ hsegments.symm)
    · rw [realSegments_flatName h₂ hends₂] at hsegments
      exact Or.inl (nestedPathHits_of_flatName hslash₁ hends₁ h₂ hsegments)
    · exact Or.inl ⟨hslash₁,hends₁,Or.inr (Or.inr ⟨hslash₂,hends₂,hsegments⟩)⟩

theorem exists_sharedFile_iff {key₁ key₂ : Text} (hkey₁ : key₁.head?≠some '/')
    (hkey₂ : key₂.head?≠some '/') (hne : key₁≠key₂) :
    (∃ file,CandidateFile hash portable base bucket key₁ file ∧
      CandidateFile hash portable base bucket key₂ file) ↔
    hashPrefix hash key₁=hashPrefix hash key₂ ∧
      (NestedPathHits key₁ key₂ ∨ NestedPathHits key₂ key₁) := by
  have hnames := @nestedPathHits_iff key₁ key₂ hne
  simp only [CandidateFile,exists_variant_iff hkey₁,exists_variant_iff hkey₂]
  constructor
  · rintro ⟨file,⟨name₁,h₁,hfile₁⟩,name₂,h₂,hfile₂⟩
    obtain ⟨hshard,hsame⟩ := (fileNamed_eq_iff (h₁.head?_ne hkey₁) (h₂.head?_ne hkey₂)).mp
      ⟨file,hfile₁,hfile₂⟩
    exact ⟨hshard,hnames.mpr ⟨name₁,name₂,h₁,h₂,hsame⟩⟩
  · rintro ⟨hshard,hhits⟩
    obtain ⟨name₁,name₂,h₁,h₂,hsame⟩ := hnames.mp hhits
    obtain ⟨file,hfile₁,hfile₂⟩ :=
      (fileNamed_eq_iff (h₁.head?_ne hkey₁) (h₂.head?_ne hkey₂)).mpr ⟨hshard,hsame⟩
    exact ⟨file,⟨name₁,h₁,hfile₁⟩,name₂,h₂,hfile₂⟩

end Candidates

/-- Regular files of a filesystem with their contents. -/
abbrev Files (β : Type) := List (PosixFile×β)

section Removal

variable {β : Type}

/-- Whether a path names a file that is present. -/
def pathExists (files : Files β) (path : Text) : Bool :=
  (fileNamed path).any fun file => files.any fun entry => entry.1 == file

/-- Whether a directory, given by the names leading to it, lists a name. -/
def isListed (files : Files β) (absolute : Bool) (dir : List Text) (name : Text) : Bool :=
  files.any fun entry => entry.1.absolute == absolute && (dir++[name]).isPrefixOf entry.1.segments

/-- Walk down from a directory, checking that each name is listed as written. -/
def namesListed (files : Files β) (absolute : Bool) (dir : List Text) : List Text→Bool
  | [] => true
  | name::rest =>
    isListed files absolute dir name && namesListed files absolute (dir++[name]) rest

/-- Whether the names of a fallback path below the shard directory are on disk
exactly as written; checked only where filenames are portable. -/
def namesMatchExactly (portable : Bool) (files : Files β) (shardDir path : Text) : Bool :=
  if !portable then true
  else if (realSegments shardDir).isPrefixOf (realSegments path) then
    namesListed files (isAbsolute path) (realSegments shardDir)
      ((realSegments path).drop (realSegments shardDir).length)
  else false

/-- The candidates that hold the key's blob, in order. A fallback counts only
when its names match the disk exactly. -/
def existingBlobPaths (hash : List UInt8→UInt64) (portable : Bool) (base bucket key : Text)
    (files : Files β) : List Text :=
  (blobPathVariants hash portable base bucket key).filter fun path =>
    pathExists files path &&
      (path == blobPath hash portable base bucket key ||
        namesMatchExactly portable files (shardDir hash base bucket key) path)

/-- Unlinking the file a path names. -/
def removeFile (files : Files β) (path : Text) : Files β :=
  files.filter fun entry => fileNamed path != some entry.1

/-- What overwrites, deletes and orphan removal do to the files of a key: every
existing candidate is unlinked. -/
def dropCandidates (hash : List UInt8→UInt64) (portable : Bool) (base bucket key : Text)
    (files : Files β) : Files β :=
  (existingBlobPaths hash portable base bucket key files).foldl removeFile files

theorem lookup_foldl_removeFile {paths : List Text} {file : PosixFile}
    (h : ∀ path∈paths,fileNamed path≠some file) (files : Files β) :
    (paths.foldl removeFile files).lookup file=files.lookup file := by
  induction paths generalizing files with
  | nil => rfl
  | cons path paths ih =>
    rw [foldl_cons,ih fun p hp => h p (mem_cons_of_mem path hp)]
    have hpath := h path mem_cons_self
    induction files with
    | nil => rfl
    | cons entry files ihf =>
      obtain ⟨stored,content⟩ := entry
      by_cases heq : file=stored
      · subst heq
        simp [removeFile,hpath,lookup_cons_self]
      have hbeq : (file==stored)=false := by simpa using heq
      rw [lookup_cons,hbeq,← ihf]
      unfold removeFile
      rw [filter_cons]
      split_ifs
      · rw [lookup_cons,hbeq]
      · rfl

theorem lookup_dropCandidates {hash : List UInt8→UInt64} {portable : Bool}
    {base bucket key : Text} {file : PosixFile}
    (h : ¬CandidateFile hash portable base bucket key file) (files : Files β) :
    (dropCandidates hash portable base bucket key files).lookup file=files.lookup file :=
  lookup_foldl_removeFile
    (fun path hpath hfile => h ⟨path,(mem_filter.mp hpath).1,hfile⟩) files

/-- Candidate paths of two different accepted keys of a bucket share no file,
and removing every existing candidate of the first leaves the files of the
second, exactly when their shards differ or neither nested path hits the other
key. -/
theorem candidateFiles_disjoint_iff {hash : List UInt8→UInt64} {portable : Bool}
    {base bucket raw₁ raw₂ key₁ key₂ : Text} (h₁ : sanitizeKey raw₁=.ok key₁)
    (h₂ : sanitizeKey raw₂=.ok key₂) (hne : key₁≠key₂) :
    ((∀ file,CandidateFile hash portable base bucket key₁ file →
        ¬CandidateFile hash portable base bucket key₂ file) ∧
      ∀ (files : Files β) (file : PosixFile), CandidateFile hash portable base bucket key₂ file →
        (dropCandidates hash portable base bucket key₁ files).lookup file=files.lookup file) ↔
    SeparateCandidates hash key₁ key₂ := by
  have hshared := @exists_sharedFile_iff hash portable base bucket key₁ key₂
    (sanitizeKey_head? h₁) (sanitizeKey_head? h₂) hne
  constructor
  · rintro ⟨hdisjoint,_⟩ hshard
    have hnot : ¬(NestedPathHits key₁ key₂ ∨ NestedPathHits key₂ key₁) := by
      intro hhits
      obtain ⟨file,hfile₁,hfile₂⟩ := hshared.mpr ⟨hshard,hhits⟩
      exact hdisjoint file hfile₁ hfile₂
    exact not_or.mp hnot
  · intro hseparate
    have hdisjoint : ∀ file,CandidateFile hash portable base bucket key₁ file →
        ¬CandidateFile hash portable base bucket key₂ file := by
      intro file hfile₁ hfile₂
      obtain ⟨hshard,hhits⟩ := hshared.mp ⟨file,hfile₁,hfile₂⟩
      exact hhits.elim (hseparate hshard).1 (hseparate hshard).2
    refine ⟨hdisjoint,fun files file hfile => lookup_dropCandidates ?_ files⟩
    exact fun hfile₁ => hdisjoint file hfile₁ hfile

end Removal

/-- Shard hash of the two keys below, as the server's hash function gives it. -/
def envHash (bytes : List UInt8) : UInt64 :=
  if bytes=utf8 ['e', 'n', 'v'] then 0xf4f52aa7fa27b837 else 0xca06e71f8ae9da37

/-- The keys `env` and `./env` are both accepted and share the shard `37`, where
the nested path of the second names the blob of the first. Removing the
candidates of `./env` removes the blob of `env`. -/
theorem env_blob_removed_with_dot_env : ∃ file : PosixFile,
      sanitizeKey ['e', 'n', 'v']=.ok ['e', 'n', 'v'] ∧
      sanitizeKey ['.', '/', 'e', 'n', 'v']=.ok ['.', '/', 'e', 'n', 'v'] ∧
      CandidateFile envHash false ['d'] ['b'] ['e', 'n', 'v'] file ∧
      CandidateFile envHash false ['d'] ['b'] ['.', '/', 'e', 'n', 'v'] file ∧
      dropCandidates envHash false ['d'] ['b'] ['.', '/', 'e', 'n', 'v'] [(file,())]=[] := by
  refine ⟨⟨false,[['d'],['b'],['3', '7'],['e', 'n', 'v']]⟩,by decide +kernel,by decide +kernel,
    ⟨blobPath envHash false ['d'] ['b'] ['e', 'n', 'v'],by decide +kernel,by decide +kernel⟩,
    ⟨blobPathLegacy envHash ['d'] ['b'] ['.', '/', 'e', 'n', 'v'],by decide +kernel,
      by decide +kernel⟩,by decide +kernel⟩

/-- Keys `a` and `a/b` are apart even in one shard. -/
theorem candidateFiles_disjoint_nested : SeparateCandidates (fun _ => 0) ['a'] ['a', '/', 'b'] ∧
    ∀ (files : Files ℕ) (file : PosixFile),
      CandidateFile (fun _ => 0) false ['d'] ['b'] ['a', '/', 'b'] file →
      (dropCandidates (fun _ => 0) false ['d'] ['b'] ['a'] files).lookup file=
        files.lookup file := by
  have h₁ : sanitizeKey ['a']=.ok ['a'] := by decide +kernel
  have h₂ : sanitizeKey ['a', '/', 'b']=.ok ['a', '/', 'b'] := by decide +kernel
  have hapart : SeparateCandidates (fun _ => 0) ['a'] ['a', '/', 'b'] := by decide +kernel
  exact ⟨hapart,((candidateFiles_disjoint_iff h₁ h₂ (by decide)).mpr hapart).2⟩

end NebularOs.BlobPaths
