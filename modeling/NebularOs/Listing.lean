import Mathlib
import NebularOs.EngineState
import NebularOs.OrderedRows

/-!
# Listing objects page by page

A listing answers the rows of a bucket whose keys have a prefix, in the order of
their keys. With a delimiter, keys that have it behind the prefix are folded into
common prefixes. A page ends at its limit or at the cap on scanned rows, and
names the key after which the next page starts.

The letters of keys are a parameter; their order is the order in which the
database compares keys.
-/

namespace NebularOs.Listing

open BlobFilenames EngineState OrderedRows List

variable {α : Type} [LinearOrder α]

/-- The objects table, by bucket and key. Keys are not empty. -/
structure ObjectTable (α : Type) where
  /-- Row of each bucket and key. -/
  rows : Table (Text×List α) ObjectMetadata
  /-- Every key was accepted by the check for keys. -/
  named : ∀ entry∈rows.entries,entry.1.2≠[]

/-- A row as a listing returns it. -/
structure ListedRow (α : Type) where
  /-- Key of the object. -/
  key : List α
  /-- Its metadata. -/
  row : ObjectMetadata
  deriving DecidableEq

/-- Active rows of a bucket. -/
def activeRows (table : ObjectTable α) (bucket : Text) : List (ListedRow α) :=
  table.rows.entries.filterMap fun entry =>
    if entry.1.1=bucket ∧ entry.2.isActive=true then some ⟨entry.1.2,entry.2⟩ else none

/-- Rows under a prefix and behind a key. -/
def matchesRow (startAfter keyPrefix : List α) (row : ListedRow α) : Bool :=
  decide (startAfter < row.key) && keyPrefix.isPrefixOf row.key

/-- Active rows whose key starts with the prefix, ordered by key, behind a key. -/
def listActiveRows (table : ObjectTable α) (bucket : Text) (startAfter keyPrefix : List α)
    (limit : ℤ) : List (ListedRow α) :=
  limitRows limit (sortedBy ListedRow.key
    ((activeRows table bucket).filter (matchesRow startAfter keyPrefix)))

/-- How many keys under the prefix follow a key. -/
def countKeysAfter (table : ObjectTable α) (bucket : Text) (lastKey keyPrefix : List α) : ℕ :=
  ((activeRows table bucket).filter (matchesRow lastKey keyPrefix)).length

/-- Where the delimiter first stands in a word. -/
def findDelimiter (delimiter : List α) : List α→Option ℕ
  | [] => if delimiter=[] then some 0 else none
  | letter::word =>
    if delimiter<+:letter::word then some 0
    else (findDelimiter delimiter word).map (·+1)

/-- What a page has gathered. -/
structure Scan (α : Type) where
  /-- Rows listed by themselves. -/
  items : List (ListedRow α)
  /-- Prefixes that other rows are folded into. -/
  commonPrefixes : Finset (List α)
  /-- Key of the row looked at last. -/
  lastScanned : Option (List α)
  /-- Whether the page was full. -/
  isTruncated : Bool

/-- Gathering rows into a page until it is full. -/
def scanRows (keyPrefix delimiter : List α) (limit : ℕ) : List (ListedRow α)→Scan α→Scan α
  | [],page => page
  | row::rows,page =>
    let page : Scan α := { page with lastScanned := some row.key }
    if ¬keyPrefix<+:row.key then scanRows keyPrefix delimiter limit rows page
    else match findDelimiter delimiter (row.key.drop keyPrefix.length) with
      | some pos =>
        let folder := row.key.take (keyPrefix.length+pos+delimiter.length)
        if folder∈page.commonPrefixes then scanRows keyPrefix delimiter limit rows page
        else if limit≤page.items.length+page.commonPrefixes.card then
          { page with isTruncated := true }
        else scanRows keyPrefix delimiter limit rows
          { page with commonPrefixes := insert folder page.commonPrefixes }
      | none =>
        if limit≤page.items.length+page.commonPrefixes.card then { page with isTruncated := true }
        else scanRows keyPrefix delimiter limit rows { page with items := page.items++[row] }

/-- A page of a listing. -/
structure ListResult (α : Type) where
  /-- Rows listed by themselves. -/
  items : List (ListedRow α)
  /-- Prefixes that other rows are folded into. -/
  commonPrefixes : Finset (List α)
  /-- Prefix asked for. -/
  keyPrefix : List α
  /-- Delimiter asked for. -/
  delimiter : Option (List α)
  /-- Whether there may be more. -/
  isTruncated : Bool
  /-- Key to start the next page after. -/
  nextStartAfter : Option (List α)

/-- Entries on a page: the limit asked for, a hundred by default, and at most a
thousand. -/
def pageLimit (limit : Option ℕ) : ℕ :=
  min (limit.getD 100) 1000

/-- A page without a delimiter. -/
def listPlain (table : ObjectTable α) (bucket : Text) (keyPrefix : List α) (limit : ℕ)
    (startAfter : List α) : ListResult α :=
  let rows := listActiveRows table bucket startAfter keyPrefix (limit+1)
  let isTruncated := decide (limit < rows.length)
  let page := rows.take limit
  ⟨page,∅,keyPrefix,none,isTruncated,
    if isTruncated then page.getLast?.map ListedRow.key else none⟩

/-- A page with a delimiter. -/
def listFolded (listScanCap : ℤ) (table : ObjectTable α) (bucket : Text)
    (keyPrefix delimiter : List α) (limit : ℕ) (startAfter : List α) : ListResult α :=
  let rows := listActiveRows table bucket startAfter keyPrefix listScanCap
  let page := scanRows keyPrefix delimiter limit rows ⟨[],∅,none,false⟩
  let isTruncated := page.isTruncated || decide (listScanCap ≤ rows.length) ||
    page.lastScanned.any fun last => decide (0<countKeysAfter table bucket last keyPrefix)
  ⟨page.items,page.commonPrefixes,keyPrefix,some delimiter,isTruncated,
    if isTruncated then page.lastScanned else none⟩

/-- One page of a listing. -/
def listObjects (listScanCap : ℤ) (table : ObjectTable α) (bucket : Text)
    (keyPrefix delimiter : Option (List α)) (limit : Option ℕ) (startAfter : Option (List α)) :
    ListResult α :=
  match delimiter with
  | none => listPlain table bucket (keyPrefix.getD []) (pageLimit limit) (startAfter.getD [])
  | some delimiter => listFolded listScanCap table bucket (keyPrefix.getD []) delimiter
      (pageLimit limit) (startAfter.getD [])

/-- Pages of a listing that follows the keys the pages name. -/
inductive Follows (page : Option (List α) → ListResult α) :
    Option (List α) → List (ListResult α)→Prop
  | last {startAfter : Option (List α)} (hlast : (page startAfter).isTruncated=false) :
      Follows page startAfter [page startAfter]
  | more {startAfter : Option (List α)} {pages : List (ListResult α)}
      (hmore : (page startAfter).isTruncated=true)
      (hrest : Follows page (page startAfter).nextStartAfter pages) :
      Follows page startAfter (page startAfter::pages)

/-- Keys that a listing asks for pages after, from a first one on. -/
inductive Requested (page : Option (List α) → ListResult α) (first : Option (List α)) :
    Option (List α)→Prop
  | first : Requested page first first
  | next {startAfter : Option (List α)} (hasked : Requested page first startAfter)
      (hmore : (page startAfter).isTruncated=true) :
      Requested page first (page startAfter).nextStartAfter

section Requests

variable {page : Option (List α) → ListResult α} {startAfter asked : Option (List α)}

omit [LinearOrder α] in
theorem requested_later (hmore : (page startAfter).isTruncated=true)
    (h : Requested page (page startAfter).nextStartAfter asked) :
    Requested page startAfter asked := by
  induction h with
  | first => exact .next .first hmore
  | next _ hmore' ih => exact .next ih hmore'

omit [LinearOrder α] in
theorem requested_cases (h : Requested page startAfter asked) :
    asked=startAfter ∨ Requested page (page startAfter).nextStartAfter asked := by
  induction h with
  | first => exact Or.inl rfl
  | next _ hmore ih =>
    rcases ih with rfl | hlater
    · exact Or.inr .first
    · exact Or.inr (.next hlater hmore)

omit [LinearOrder α] in
theorem requested_last (hlast : (page startAfter).isTruncated=false)
    (h : Requested page startAfter asked) : asked=startAfter := by
  induction h with
  | first => rfl
  | next _ hmore ih =>
    rw [ih,hlast] at hmore
    cases hmore

end Requests

section Folding

variable (fold : List α→Option (List α))

/-- The common prefix that a key is folded into. -/
def folderOf (keyPrefix delimiter key : List α) : Option (List α) :=
  (findDelimiter delimiter (key.drop keyPrefix.length)).map fun pos =>
    key.take (keyPrefix.length+pos+delimiter.length)

/-- Rows that are listed by themselves. -/
def ownRows (rows : List (ListedRow α)) : List (ListedRow α) :=
  rows.filter fun row => (fold row.key).isNone

/-- Common prefixes of rows. -/
def folders (rows : List (ListedRow α)) : Finset (List α) :=
  (rows.filterMap fun row => fold row.key).toFinset

/-- Entries that rows make on a page. -/
def entries (rows : List (ListedRow α)) : ℕ :=
  (ownRows fold rows).length+(folders fold rows).card

/-- A row that makes one more entry than the rows before it. -/
def OpensEntry (before : List (ListedRow α)) (row : ListedRow α) : Prop :=
  ∀ folder,fold row.key=some folder →
    folder∉folders fold before

/-- The row at which a full page ends: the first that would make an entry too
many. -/
def IsEdge (limit : ℕ) (window : List (ListedRow α)) (row : ListedRow α) : Prop :=
  ∃ before after,window=before++row::after ∧ entries fold before=limit ∧
    OpensEntry fold before row

/-- A page that has gathered some rows and is not full. -/
structure Gathered (limit : ℕ) (rows : List (ListedRow α)) (page : Scan α) : Prop where
  /-- Items are the rows listed by themselves. -/
  items : page.items=ownRows fold rows
  /-- Common prefixes are those of the rows. -/
  commonPrefixes : page.commonPrefixes=folders fold rows
  /-- The last of the rows was looked at last. -/
  lastScanned : page.lastScanned=rows.getLast?.map ListedRow.key
  /-- The page is not marked as full. -/
  isTruncated : page.isTruncated=false
  /-- The limit holds. -/
  fits : entries fold rows≤limit

/-- A page that has gathered some rows and is full when one more comes. -/
structure Filled (limit : ℕ) (rows : List (ListedRow α)) (row : ListedRow α) (page : Scan α) :
    Prop where
  /-- Items are the rows listed by themselves. -/
  items : page.items=ownRows fold rows
  /-- Common prefixes are those of the rows. -/
  commonPrefixes : page.commonPrefixes=folders fold rows
  /-- The row that did not fit was looked at last. -/
  lastScanned : page.lastScanned=some row.key
  /-- The page is marked as full. -/
  isTruncated : page.isTruncated=true
  /-- The limit is reached. -/
  full : entries fold rows=limit
  /-- The row would make one more entry. -/
  opens : OpensEntry fold rows row

variable {fold}

omit [LinearOrder α] in
theorem ownRows_append (rows rows' : List (ListedRow α)) : ownRows fold (rows++rows')=
      ownRows fold rows++ownRows fold rows' := by
  unfold ownRows
  rw [filter_append]

theorem folders_append (rows rows' : List (ListedRow α)) : folders fold (rows++rows')=
      folders fold rows∪folders fold rows' := by
  unfold folders
  rw [filterMap_append,toFinset_append]

theorem mem_folders {rows : List (ListedRow α)} {folder : List α} : folder∈folders fold rows ↔
      ∃ row∈rows,fold row.key=some folder := by
  simp only [folders,mem_toFinset,mem_filterMap]

variable {row : ListedRow α}

omit [LinearOrder α] in
theorem mem_ownRows {rows : List (ListedRow α)} : row∈ownRows fold rows ↔
      row∈rows ∧ fold row.key=none := by
  simp only [ownRows,mem_filter,Option.isNone_iff_eq_none]

theorem own_singleton (h : fold row.key=none) :
    ownRows fold [row]=[row] ∧ folders fold [row]=∅ := by
  constructor
  · simp [ownRows,h]
  · simp [folders,h]

theorem folded_singleton {folder : List α} (h : fold row.key=some folder) :
    ownRows fold [row]=[] ∧ folders fold [row]={folder} := by
  constructor
  · simp [ownRows,h]
  · simp [folders,h]

end Folding

section ScanSteps

variable {fold : List α→Option (List α)} {limit : ℕ} {rows : List (ListedRow α)}
  {row : ListedRow α} {page : Scan α}

theorem Gathered.add {items : List (ListedRow α)} {commonPrefixes : Finset (List α)}
    (h : Gathered fold limit rows page) (hrows : ownRows fold (rows++[row])=items)
    (hfolders : folders fold (rows++[row])=commonPrefixes)
    (hroom : items.length+commonPrefixes.card≤limit) : Gathered fold limit (rows++[row])
      ⟨items,commonPrefixes,some row.key,page.isTruncated⟩ := by
  subst hrows hfolders
  exact ⟨rfl,rfl,by simp,h.isTruncated,hroom⟩

theorem Gathered.addOwn (h : Gathered fold limit rows page) (hown : fold row.key=none)
    (hroom : page.items.length+page.commonPrefixes.card<limit) : Gathered fold limit (rows++[row])
      ⟨page.items++[row],page.commonPrefixes,some row.key,page.isTruncated⟩ := by
  obtain ⟨hitem,hfolder⟩ := own_singleton hown
  refine h.add ?_ ?_ ?_
  · rw [ownRows_append,hitem,h.items]
  · rw [folders_append,hfolder,Finset.union_empty,h.commonPrefixes]
  · rw [length_append,length_singleton]
    omega

theorem Gathered.addKnown (h : Gathered fold limit rows page) {folder : List α}
    (hfolded : fold row.key=some folder) (hknown : folder∈page.commonPrefixes) :
    Gathered fold limit (rows++[row])
      ⟨page.items,page.commonPrefixes,some row.key,page.isTruncated⟩ := by
  obtain ⟨hitem,hfolder⟩ := folded_singleton hfolded
  refine h.add ?_ ?_ ?_
  · rw [ownRows_append,hitem,append_nil,h.items]
  · rw [folders_append,hfolder,← h.commonPrefixes]
    exact Finset.union_eq_left.mpr (Finset.singleton_subset_iff.mpr hknown)
  · rw [h.items,h.commonPrefixes]
    exact h.fits

theorem Gathered.addFolder (h : Gathered fold limit rows page) {folder : List α}
    (hfolded : fold row.key=some folder) (hnew : folder∉page.commonPrefixes)
    (hroom : page.items.length+page.commonPrefixes.card<limit) : Gathered fold limit (rows++[row])
      ⟨page.items,insert folder page.commonPrefixes,some row.key,page.isTruncated⟩ := by
  obtain ⟨hitem,hfolder⟩ := folded_singleton hfolded
  refine h.add ?_ ?_ ?_
  · rw [ownRows_append,hitem,append_nil,h.items]
  · rw [folders_append,hfolder,← h.commonPrefixes,Finset.union_comm,Finset.insert_eq]
  · rw [Finset.card_insert_of_notMem hnew]
    omega

theorem Gathered.fill (h : Gathered fold limit rows page) (hopens : OpensEntry fold rows row)
    (hfull : limit≤page.items.length+page.commonPrefixes.card) : Filled fold limit rows row
      ⟨page.items,page.commonPrefixes,some row.key,true⟩ := by
  refine ⟨h.items,h.commonPrefixes,rfl,rfl,?_,hopens⟩
  have hfits := h.fits
  unfold entries at hfits ⊢
  rw [h.items,h.commonPrefixes] at hfull
  omega

/-- A page over coming rows has gathered them all, or was filled by one of them. -/
def Scanned (fold : List α→Option (List α)) (limit : ℕ) (rows coming : List (ListedRow α))
    (page : Scan α) : Prop :=
  Gathered fold limit (rows++coming) page ∨ ∃ before row after,coming=before++row::after ∧
    Filled fold limit (rows++before) row page

variable {coming : List (ListedRow α)}

theorem Scanned.cons (h : Scanned fold limit (rows++[row]) coming page) :
    Scanned fold limit rows (row::coming) page := by
  rcases h with hall | ⟨before,row',after,rfl,hfilled⟩
  · rw [append_assoc,singleton_append] at hall
    exact Or.inl hall
  · rw [append_assoc,singleton_append] at hfilled
    exact Or.inr ⟨row::before,row',after,rfl,hfilled⟩

theorem Gathered.stop (h : Gathered fold limit rows page) (hopens : OpensEntry fold rows row)
    (hfull : limit≤page.items.length+page.commonPrefixes.card) :
    Scanned fold limit rows (row::coming) ⟨page.items,page.commonPrefixes,some row.key,true⟩ := by
  refine Or.inr ⟨[],row,coming,rfl,?_⟩
  rw [append_nil]
  exact h.fill hopens hfull

/-- Scanning gathers all rows, or stops at the first that does not fit. -/
theorem scanRows_spec {keyPrefix delimiter : List α} (hprefixes : ∀ row∈coming,keyPrefix<+:row.key)
    (h : Gathered (folderOf keyPrefix delimiter) limit rows page) :
    Scanned (folderOf keyPrefix delimiter) limit rows coming
      (scanRows keyPrefix delimiter limit coming page) := by
  -- The rows gathered so far grow by the row looked at.
  induction coming generalizing rows page with
  | nil =>
    refine Or.inl ?_
    rwa [append_nil]
  | cons row coming ih =>
    have hlater := fun other hother => hprefixes other (mem_cons_of_mem row hother)
    have hunder : keyPrefix<+:row.key := hprefixes row mem_cons_self
    simp only [scanRows,hunder,not_true_eq_false,if_false]
    cases hfind : findDelimiter delimiter (row.key.drop keyPrefix.length) with
    | none =>
      have hown : folderOf keyPrefix delimiter row.key=none := by simp [folderOf,hfind]
      dsimp only
      split_ifs with hfull
      · refine h.stop (fun folder hsome => ?_) hfull
        rw [hown] at hsome
        cases hsome
      · exact (ih hlater (h.addOwn hown (by omega))).cons
    | some pos =>
      have hfolded : folderOf keyPrefix delimiter row.key=
          some (row.key.take (keyPrefix.length+pos+delimiter.length)) := by simp [folderOf,hfind]
      dsimp only
      split_ifs with hknown hfull
      · exact (ih hlater (h.addKnown hfolded hknown)).cons
      · refine h.stop (fun folder hsome => ?_) hfull
        rw [hfolded,Option.some.injEq] at hsome
        rwa [← hsome,← h.commonPrefixes]
      · exact (ih hlater (h.addFolder hfolded hknown (by omega))).cons

end ScanSteps

section Pages

variable {fold : List α→Option (List α)} {rows all : List (ListedRow α)}
  {page : Option (List α) → ListResult α} {edge : Option (List α) → ListedRow α→Prop}

/-- Rows behind the key that a page starts after. -/
def rowsAfter (all : List (ListedRow α)) (startAfter : Option (List α)) : List (ListedRow α) :=
  all.filter fun row => decide (startAfter.getD [] < row.key)

/-- What a page makes of the rows behind its start: it lists some, may lose the
next, and leaves the others to the next page. -/
structure PageAccount (fold : List α→Option (List α)) (edge : ListedRow α→Prop)
    (rest kept lost after : List (ListedRow α)) (page : ListResult α) : Prop where
  /-- The rows are kept, lost or left. -/
  split : rest=kept++lost++after
  /-- Items are the kept rows listed by themselves. -/
  items : page.items=ownRows fold kept
  /-- Common prefixes are those of the kept rows. -/
  commonPrefixes : page.commonPrefixes=folders fold kept
  /-- The lost rows are the page's edge. -/
  edges : ∀ row,row∈lost ↔ edge row
  /-- A last page loses and leaves nothing. -/
  ended : page.isTruncated=false→lost=[] ∧ after=[]
  /-- Another page starts after the last row that was kept or lost. -/
  more : page.isTruncated=true→∃ row∈rest,page.nextStartAfter=some row.key ∧
    rowsAfter rest (some row.key)=after ∧ after.length < rest.length

/-- What all pages of a listing make of the rows behind its start. -/
structure ListingAccount (fold : List α→Option (List α)) (rest kept lost : List (ListedRow α))
    (pages : List (ListResult α)) : Prop where
  /-- The rows are kept or lost. -/
  split : rest.Perm (kept++lost)
  /-- Items are the kept rows listed by themselves. -/
  items : pages.flatMap ListResult.items=ownRows fold kept
  /-- Common prefixes are those of the kept rows. -/
  commonPrefixes : ∀ folder,(∃ page∈pages,folder∈page.commonPrefixes) ↔ folder∈folders fold kept

variable {row : ListedRow α} {window : List (ListedRow α)}

theorem rowsAfter_next {startAfter : Option (List α)}
    (hrow : row∈rowsAfter all startAfter) :
    rowsAfter all (some row.key)=rowsAfter (rowsAfter all startAfter) (some row.key) := by
  have hlt : startAfter.getD [] < row.key := by
    simpa using (mem_filter.mp hrow).2
  unfold rowsAfter
  rw [filter_filter]
  refine filter_congr fun other _ => ?_
  by_cases h : row.key<other.key
  · simp [h,hlt.trans h]
  · simp [h]

/-- Following the pages ends, and the rows are kept or lost at an edge. -/
theorem follow_account (hpages : ∀ startAfter,∃ kept lost after,
    PageAccount fold (edge startAfter) (rowsAfter all startAfter) kept lost after
      (page startAfter)) (startAfter : Option (List α)) : ∃ pages kept lost,
      Follows page startAfter pages ∧
        ListingAccount fold (rowsAfter all startAfter) kept lost pages ∧
          ∀ row,row∈lost ↔ ∃ asked,Requested page startAfter asked ∧ edge asked row := by
  -- The rows behind the start get fewer with every page.
  induction hn : (rowsAfter all startAfter).length using Nat.strong_induction_on
    generalizing startAfter with
  | _ n ih =>
    obtain ⟨kept,lost,after,haccount⟩ := hpages startAfter
    by_cases hmore : (page startAfter).isTruncated=true
    · obtain ⟨row,hrow,hnext,hafter,hlength⟩ := haccount.more hmore
      have hrest : rowsAfter all (some row.key)=after := by
        rwa [rowsAfter_next hrow]
      obtain ⟨pages,kept',lost',hfollows,haccount',hlost'⟩ :=
        ih after.length (by omega) (some row.key) (by rw [hrest])
      rw [← hnext] at hfollows
      refine ⟨page startAfter::pages,kept++kept',lost++lost',.more hmore hfollows,?_,?_⟩
      · refine ⟨?_,?_,?_⟩
        · rw [haccount.split,perm_iff_count]
          intro row'
          have hcount := haccount'.split.count_eq row'
          rw [hrest] at hcount
          simp only [count_append] at hcount ⊢
          omega
        · rw [flatMap_cons,haccount.items,haccount'.items,ownRows_append]
        · intro folder
          rw [folders_append,Finset.mem_union,← haccount'.commonPrefixes folder,
            ← haccount.commonPrefixes,exists_mem_cons_iff]
      · intro row'
        rw [mem_append,haccount.edges row',hlost' row']
        constructor
        · rintro (hedge | ⟨asked,hasked,hedge⟩)
          · exact ⟨startAfter,.first,hedge⟩
          · exact ⟨asked,requested_later hmore (by rw [hnext]; exact hasked),hedge⟩
        · rintro ⟨asked,hasked,hedge⟩
          rcases requested_cases hasked with rfl | hlater
          · exact Or.inl hedge
          · rw [hnext] at hlater
            exact Or.inr ⟨asked,hlater,hedge⟩
    · have hlast : (page startAfter).isTruncated=false := by simpa using hmore
      obtain ⟨rfl,rfl⟩ := haccount.ended hlast
      refine ⟨[page startAfter],kept,[],.last hlast,⟨?_,?_,?_⟩,?_⟩
      · rw [haccount.split]
        simp
      · simp [haccount.items]
      · intro folder
        simp [haccount.commonPrefixes]
      · intro row
        rw [haccount.edges row]
        constructor
        · intro hedge
          exact ⟨startAfter,.first,hedge⟩
        · rintro ⟨asked,hasked,hedge⟩
          rcases requested_last hlast hasked with rfl
          exact hedge

/-- The pages list every row that is not folded once, and the common prefixes of
the others. -/
structure Complete (fold : List α→Option (List α)) (all : List (ListedRow α))
    (pages : List (ListResult α)) : Prop where
  /-- No key is listed twice. -/
  once : ((pages.flatMap ListResult.items).map ListedRow.key).Nodup
  /-- Listed are the rows that are not folded. -/
  items : ∀ row,row∈pages.flatMap ListResult.items ↔ row∈all ∧ fold row.key=none
  /-- Common prefixes are those of the folded rows. -/
  commonPrefixes : ∀ folder,(∃ page∈pages,folder∈page.commonPrefixes) ↔
    ∃ row∈all,fold row.key=some folder

/-- Pages are complete when each lost row is folded with a row that is not lost. -/
theorem complete_iff {kept lost : List (ListedRow α)} {pages : List (ListResult α)}
    (hall : Ascending ListedRow.key all) (haccount : ListingAccount fold all kept lost pages)
    (hfirst : ∀ row∈lost,∀ other∈all,other.key < row.key→∀ folder,
      fold row.key=some folder→fold other.key≠some folder) :
    Complete fold all pages ↔ ∀ row∈lost,∃ folder,fold row.key=some folder ∧
      ∃ other∈all,other.key≠row.key ∧ fold other.key=some folder := by
  have hmem : ∀ row,row∈all ↔ row∈kept ∨ row∈lost := fun row => by
    rw [haccount.split.mem_iff,mem_append]
  have hnodup : (kept++lost).Nodup := by
    have hrows : all.Nodup := by
      refine List.Pairwise.imp (fun {first second} hlt => ?_) hall
      rintro rfl
      exact lt_irrefl _ hlt
    exact haccount.split.nodup_iff.mp hrows
  have hdisjoint : ∀ row∈kept,row∉lost := fun row hkept hlost =>
    (disjoint_of_nodup_append hnodup) hkept hlost
  constructor
  · intro hcomplete row hlost
    have hrow : row∈all := (hmem row).mpr (Or.inr hlost)
    cases hfold : fold row.key with
    | none =>
      have hlisted := (hcomplete.items row).mpr ⟨hrow,hfold⟩
      rw [haccount.items] at hlisted
      exact absurd hlost (hdisjoint row (mem_ownRows.mp hlisted).1)
    | some folder =>
      have hlisted := (hcomplete.commonPrefixes folder).mpr ⟨row,hrow,hfold⟩
      rw [haccount.commonPrefixes,mem_folders] at hlisted
      obtain ⟨other,hother,hsame⟩ := hlisted
      refine ⟨folder,rfl,other,(hmem other).mpr (Or.inl hother),fun hkey => ?_,hsame⟩
      have heq : other=row := hall.eq_of_key ((hmem other).mpr (Or.inl hother)) hrow hkey
      exact hdisjoint other hother (heq ▸ hlost)
  · intro hshared
    have hkept : ∀ row∈all,∀ folder,fold row.key=some folder →
        ∃ other∈kept,fold other.key=some folder := by
      intro row hrow folder hfold
      rcases (hmem row).mp hrow with hkept | hlost
      · exact ⟨row,hkept,hfold⟩
      obtain ⟨folder',hfold',other,hother,hne,hsame⟩ := hshared row hlost
      obtain rfl : folder'=folder := Option.some.inj (hfold'.symm.trans hfold)
      rcases (hmem other).mp hother with hkept | hlost'
      · exact ⟨other,hkept,hsame⟩
      · -- Two lost rows of one common prefix cannot both be its first.
        rcases lt_or_gt_of_ne hne with hlt | hlt
        · exact absurd hsame (hfirst row hlost other hother hlt folder' hfold')
        · exact absurd hfold' (hfirst other hlost' row hrow hlt folder' hsame)
    have howned : ∀ row∈lost,fold row.key≠none := by
      intro row hlost hnone
      obtain ⟨folder,hfold,_⟩ := hshared row hlost
      rw [hnone] at hfold
      cases hfold
    refine ⟨?_,fun row => ?_,fun folder => ?_⟩
    · have hkeys : (all.map ListedRow.key).Nodup :=
        pairwise_map.mpr (List.Pairwise.imp (fun hlt => ne_of_lt hlt) hall)
      have hboth : ((kept++lost).map ListedRow.key).Nodup :=
        (haccount.split.map ListedRow.key).nodup_iff.mp hkeys
      rw [map_append] at hboth
      rw [haccount.items]
      exact (List.Nodup.of_append_left hboth).sublist (filter_sublist.map _)
    · rw [haccount.items,mem_ownRows]
      constructor
      · rintro ⟨hkept,hnone⟩
        exact ⟨(hmem row).mpr (Or.inl hkept),hnone⟩
      · rintro ⟨hrow,hnone⟩
        rcases (hmem row).mp hrow with hkept | hlost
        · exact ⟨hkept,hnone⟩
        · exact absurd hnone (howned row hlost)
    · rw [haccount.commonPrefixes,mem_folders]
      constructor
      · rintro ⟨row,hkept,hfold⟩
        exact ⟨row,(hmem row).mpr (Or.inl hkept),hfold⟩
      · rintro ⟨row,hrow,hfold⟩
        exact hkept row hrow folder hfold

/-- The row at a full page's edge is the first of its common prefix, when rows of
one common prefix stand together. -/
theorem IsEdge.first {limit : ℕ} {startAfter : Option (List α)}
    (hall : Ascending ListedRow.key all)
    (htogether : ∀ first∈all,∀ middle∈all,∀ last∈all,first.key < middle.key →
      middle.key<last.key→∀ folder,fold first.key=some folder→fold last.key=some folder →
        fold middle.key=some folder)
    (hlimit : 0<limit) (hwindow : window<+:rowsAfter all startAfter)
    (h : IsEdge fold limit window row) : ∀ other∈all,other.key < row.key→∀ folder,
      fold row.key=some folder→fold other.key≠some folder := by
  obtain ⟨before,after,rfl,hfull,hopens⟩ := h
  obtain ⟨beyond,hbeyond⟩ := hwindow
  intro other hother hlt folder hfold hsame
  have hnew : folder∉folders fold before := hopens folder hfold
  have hrest : ∀ row',row'∈before++row::after → row'∈rowsAfter all startAfter := by
    intro row' hrow'
    rw [← hbeyond]
    exact mem_append_left _ hrow'
  have hsorted : Ascending ListedRow.key ((before++row::after)++beyond) := by
    rw [hbeyond]
    exact List.Pairwise.filter _ hall
  have hrow : row∈all :=
    (mem_filter.mp (hrest row (mem_append_right _ mem_cons_self))).1
  cases before with
  | nil =>
    simp only [entries,ownRows,folders,filter_nil,filterMap_nil,length_nil,
      toFinset_nil,Finset.card_empty] at hfull
    omega
  | cons opening before =>
    have hopening : opening∈all :=
      (mem_filter.mp (hrest opening (mem_append_left _ mem_cons_self))).1
    have hordered := pairwise_append.mp (pairwise_append.mp hsorted).1
    have hbeforeRow : opening.key < row.key :=
      hordered.2.2 opening mem_cons_self row mem_cons_self
    rcases lt_trichotomy other.key opening.key with hlow | heq | hhigh
    · have hmiddle := htogether other hother opening hopening row hrow hlow hbeforeRow folder
        hsame hfold
      exact hnew (mem_folders.mpr ⟨opening,mem_cons_self,hmiddle⟩)
    · obtain rfl := hall.eq_of_key hother hopening heq
      exact hnew (mem_folders.mpr ⟨other,mem_cons_self,hsame⟩)
    · -- A row behind the page's first and before its edge was gathered.
      have hbehind : other∈rowsAfter all startAfter := by
        have hstart := (mem_filter.mp
          (hrest opening (mem_append_left _ mem_cons_self))).2
        refine mem_filter.mpr ⟨hother,?_⟩
        simp only [decide_eq_true_eq] at hstart ⊢
        exact hstart.trans hhigh
      rw [← hbeyond] at hbehind
      have hin : other∈opening::before := by
        rcases mem_append.mp hbehind with hwin | hfar
        · rcases mem_append.mp hwin with hin | hlater
          · exact hin
          · rcases mem_cons.mp hlater with rfl | hafter
            · exact absurd hlt (lt_irrefl _)
            exact absurd hlt (not_lt_of_gt
              ((pairwise_cons.mp hordered.2.1).1 other hafter))
        · exact absurd hlt (not_lt_of_gt ((pairwise_append.mp hsorted).2.2 row
            (mem_append_right _ mem_cons_self) other hfar))
      exact hnew (mem_folders.mpr ⟨other,hin,hsame⟩)

theorem entries_le_append (fold : List α→Option (List α)) (rows rows' : List (ListedRow α)) :
    entries fold rows≤entries fold (rows++rows') := by
  have hown : (ownRows fold rows).length≤(ownRows fold (rows++rows')).length := by
    rw [ownRows_append,length_append]
    omega
  have hfolders : (folders fold rows).card≤(folders fold (rows++rows')).card := by
    rw [folders_append]
    exact Finset.card_le_card Finset.subset_union_left
  unfold entries
  omega

theorem entries_opens (h : OpensEntry fold rows row) :
    entries fold (rows++[row])=entries fold rows+1 := by
  unfold entries
  rw [ownRows_append,folders_append]
  cases hfold : fold row.key with
  | none =>
    obtain ⟨hitem,hfolder⟩ := own_singleton hfold
    rw [hitem,hfolder,Finset.union_empty,length_append,length_singleton]
    omega
  | some folder =>
    obtain ⟨hitem,hfolder⟩ := folded_singleton hfold
    rw [hitem,hfolder,append_nil,Finset.union_comm,← Finset.insert_eq,
      Finset.card_insert_of_notMem (h folder hfold)]
    omega

theorem IsEdge.lt_entries {limit : ℕ}
    (h : IsEdge fold limit window row) : limit<entries fold window := by
  obtain ⟨before,after,rfl,hfull,hopens⟩ := h
  have hstep := entries_opens hopens
  have hle := entries_le_append fold (before++[row]) after
  rw [append_assoc,singleton_append] at hle
  omega

/-- A window has one edge at most. -/
theorem IsEdge.unique {limit : ℕ} {other : ListedRow α}
    (h : IsEdge fold limit window row) (h' : IsEdge fold limit window other) : row=other := by
  obtain ⟨before,after,rfl,hfull,hopens⟩ := h
  obtain ⟨before',after',hsplit,hfull',hopens'⟩ := h'
  have hlater : ∀ {first second rest : List (ListedRow α)} {edgeRow : ListedRow α},
      OpensEntry fold first edgeRow→entries fold first=limit→entries fold second=limit →
        second≠first++edgeRow::rest := by
    rintro first second rest edgeRow hopens hfirst hsecond rfl
    have hstep := entries_opens hopens
    have hle := entries_le_append fold (first++[edgeRow]) rest
    rw [append_assoc,singleton_append] at hle
    omega
  rcases append_eq_append_iff.mp hsplit with ⟨gap,hbefore,htail⟩ | ⟨gap,hbefore,htail⟩
  · cases gap with
    | nil =>
      simp only [nil_append,List.cons.injEq] at htail
      exact htail.1
    | cons next gap =>
      simp only [cons_append,List.cons.injEq] at htail
      rw [← htail.1] at hbefore
      exact absurd hbefore (hlater hopens hfull hfull')
  · cases gap with
    | nil =>
      simp only [nil_append,List.cons.injEq] at htail
      exact htail.1.symm
    | cons next gap =>
      simp only [cons_append,List.cons.injEq] at htail
      rw [← htail.1] at hbefore
      exact absurd hbefore (hlater hopens' hfull' hfull)

theorem rowsAfter_last {rest before after : List (ListedRow α)}
    (hrest : Ascending ListedRow.key rest) (hsplit : rest=before++row::after) :
    row∈rest ∧ rowsAfter rest (some row.key)=after ∧ after.length < rest.length := by
  subst hsplit
  have hfilter : rowsAfter (before++row::after) (some row.key)=after :=
    hrest.filter_after fun other => by simp
  refine ⟨mem_append_right _ mem_cons_self,hfilter,?_⟩
  rw [length_append,length_cons]
  omega

end Pages

section Delimiters

variable {keyPrefix delimiter : List α}

/-- The first place of a delimiter. -/
theorem findDelimiter_some {word : List α} {pos : ℕ} : findDelimiter delimiter word=some pos ↔
      delimiter<+:word.drop pos ∧ pos≤word.length ∧ ∀ earlier<pos,¬delimiter<+:word.drop earlier := by
  induction word generalizing pos with
  | nil =>
    by_cases h : delimiter=[]
    · subst h
      simp only [findDelimiter,if_true,Option.some.injEq,drop_nil,length_nil,
        prefix_rfl,true_and,Nat.le_zero]
      constructor
      · rintro rfl
        exact ⟨rfl,fun earlier hlt => absurd hlt (Nat.not_lt_zero _)⟩
      · exact fun h => h.1.symm
    · simp [findDelimiter,h]
  | cons letter word ih =>
    unfold findDelimiter
    split
    · rename_i hhere
      constructor
      · intro heq
        obtain rfl : 0=pos := Option.some.inj heq
        exact ⟨hhere,Nat.zero_le _,fun earlier hlt => absurd hlt (Nat.not_lt_zero _)⟩
      · rintro ⟨_,_,hfirst⟩
        cases pos with
        | zero => rfl
        | succ pos => exact absurd hhere (hfirst 0 (Nat.succ_pos pos))
    · rename_i hnot
      cases pos with
      | zero =>
        simp only [Option.map_eq_some_iff,Nat.add_eq_zero_iff,one_ne_zero,and_false,exists_false,
          false_iff,drop_zero]
        exact fun h => hnot h.1
      | succ pos =>
        have hmap : (findDelimiter delimiter word).map (·+1)=some (pos+1) ↔
            findDelimiter delimiter word=some pos := by
          simp [Option.map_eq_some_iff]
        rw [hmap,ih]
        constructor
        · rintro ⟨hthere,hle,hfirst⟩
          refine ⟨hthere,by simpa using hle,fun earlier hlt => ?_⟩
          cases earlier with
          | zero => exact hnot
          | succ earlier => exact hfirst earlier (by omega)
        · rintro ⟨hthere,hle,hfirst⟩
          exact ⟨hthere,by simpa using hle,fun earlier hlt => hfirst (earlier+1) (by omega)⟩

omit [LinearOrder α] in
theorem isPrefix_drop_of_take {word word' : List α} {length pos : ℕ}
    (htake : word.take length=word'.take length) (hend : pos+delimiter.length≤length) :
    delimiter<+:word.drop pos ↔ delimiter<+:word'.drop pos := by
  have hsame : (word.drop pos).take delimiter.length=(word'.drop pos).take delimiter.length := by
    have hcut : ∀ text : List α,(text.drop pos).take delimiter.length=
        ((text.take length).drop pos).take delimiter.length := by
      intro text
      rw [drop_take,take_take]
      congr 1
      omega
    rw [hcut word,hcut word',htake]
  rw [prefix_iff_eq_take,prefix_iff_eq_take,hsame]

/-- Keys that begin with a common prefix are folded into it. -/
theorem folderOf_of_take {key key' folder : List α}
    (h : folderOf keyPrefix delimiter key=some folder) (hprefixed : keyPrefix<+:key)
    (hbegins : folder<+:key') : folderOf keyPrefix delimiter key'=some folder := by
  unfold folderOf at h ⊢
  obtain ⟨pos,hfind,hfolder⟩ := Option.map_eq_some_iff.mp h
  obtain ⟨hthere,hle,hfirst⟩ := findDelimiter_some.mp hfind
  rw [drop_drop] at hthere
  have hlong : keyPrefix.length+pos+delimiter.length≤key.length := by
    have hdrop := hthere.length_le
    have hshort := hprefixed.length_le
    simp only [length_drop] at hdrop hle
    omega
  have hlength : folder.length=keyPrefix.length+pos+delimiter.length := by
    rw [← hfolder,length_take]
    omega
  have htake : key.take (keyPrefix.length+pos+delimiter.length)=
      key'.take (keyPrefix.length+pos+delimiter.length) := by
    rw [hfolder,← hlength]
    exact prefix_iff_eq_take.mp hbegins
  refine Option.map_eq_some_iff.mpr ⟨pos,?_,?_⟩
  · refine findDelimiter_some.mpr ⟨?_,?_,fun earlier hlt hearlier => hfirst earlier hlt ?_⟩
    · rw [drop_drop]
      exact (isPrefix_drop_of_take htake (by omega)).mp hthere
    · have hlong' := hbegins.length_le
      rw [length_drop]
      omega
    · rw [drop_drop] at hearlier ⊢
      exact (isPrefix_drop_of_take htake (by omega)).mpr hearlier
  · rwa [← htake]

theorem folderOf_between {first middle last folder : List α} (hfirst : keyPrefix<+:first)
    (hlow : first < middle) (hhigh : middle<last)
    (hfold : folderOf keyPrefix delimiter first=some folder)
    (hfold' : folderOf keyPrefix delimiter last=some folder) :
    folderOf keyPrefix delimiter middle=some folder := by
  have hbegins : folder<+:first := by
    obtain ⟨pos,_,rfl⟩ := Option.map_eq_some_iff.mp hfold
    exact List.take_prefix _ _
  have hbegins' : folder<+:last := by
    obtain ⟨pos,_,rfl⟩ := Option.map_eq_some_iff.mp hfold'
    exact List.take_prefix _ _
  have hbetween : folder<+:middle := prefix_of_between hbegins hbegins' hlow.le hhigh.le
  exact folderOf_of_take hfold hfirst hbetween

end Delimiters

section Table

variable {table : ObjectTable α} {bucket : Text} {keyPrefix delimiter : List α} {limit : ℕ}
  {listScanCap : ℤ}

/-- Active rows of a bucket under a prefix, in the order of their keys. -/
def underRows (table : ObjectTable α) (bucket : Text) (keyPrefix : List α) :
    List (ListedRow α) :=
  sortedBy ListedRow.key ((activeRows table bucket).filter fun row =>
    keyPrefix.isPrefixOf row.key)

omit [LinearOrder α] in
/-- A bucket has one row for each key. -/
theorem activeRows_keys (table : ObjectTable α) (bucket : Text) :
    ((activeRows table bucket).map ListedRow.key).Nodup := by
  have hkeys : (table.rows.entries.map Sigma.fst).Nodup := table.rows.nodupKeys
  have hsublist : ((activeRows table bucket).map fun row => (bucket,row.key)).Sublist
      (table.rows.entries.map Sigma.fst) := by
    unfold activeRows
    generalize table.rows.entries=stored
    induction stored with
    | nil => exact List.Sublist.refl _
    | cons entry stored ih =>
      rw [filterMap_cons]
      split
      · exact ih.trans (sublist_cons_self _ _)
      rename_i row hrow
      split at hrow
      · rename_i hactive
        cases hrow
        have hentry : (bucket,entry.1.2)=entry.1 := by rw [← hactive.1]
        rw [map_cons,map_cons,hentry]
        exact ih.cons_cons _
      · cases hrow
  have hnodup : ((activeRows table bucket).map fun row => (bucket,row.key)).Nodup :=
    hkeys.sublist hsublist
  have hmap : ((activeRows table bucket).map fun row => (bucket,row.key))=
      ((activeRows table bucket).map ListedRow.key).map (Prod.mk bucket) := by
    rw [map_map]
    rfl
  rw [hmap] at hnodup
  exact List.Nodup.of_map _ hnodup

theorem underRows_ascending (table : ObjectTable α) (bucket : Text) (keyPrefix : List α) :
    Ascending ListedRow.key (underRows table bucket keyPrefix) :=
  sortedBy_ascending ((activeRows_keys table bucket).sublist (filter_sublist.map _))

theorem mem_underRows {row : ListedRow α} : row∈underRows table bucket keyPrefix ↔
    row∈activeRows table bucket ∧ keyPrefix<+:row.key := by
  simp [underRows]

theorem listActiveRows_eq (startAfter : Option (List α)) (count : ℤ) :
    listActiveRows table bucket (startAfter.getD []) keyPrefix count=
      limitRows count (rowsAfter (underRows table bucket keyPrefix) startAfter) := by
  have hkeys : (((activeRows table bucket).filter fun row =>
      keyPrefix.isPrefixOf row.key).map ListedRow.key).Nodup :=
    (activeRows_keys table bucket).sublist (filter_sublist.map _)
  unfold listActiveRows rowsAfter underRows matchesRow
  rw [← sortedBy_filter hkeys,filter_filter]

theorem last_of_kept {rest kept after : List (ListedRow α)}
    (hrest : Ascending ListedRow.key rest) (hsplit : rest=kept++after) (hkept : kept≠[]) :
    ∃ row∈rest,kept.getLast?=some row ∧ rowsAfter rest (some row.key)=after ∧
      after.length < rest.length := by
  rcases eq_nil_or_concat kept with hnil | ⟨before,row,rfl⟩
  · exact absurd hnil hkept
  rw [concat_eq_append,append_assoc,singleton_append] at hsplit
  obtain ⟨hmem,hafter,hlength⟩ := rowsAfter_last hrest hsplit
  exact ⟨row,hmem,by simp,hafter,hlength⟩

/-- Without a delimiter a page lists the next rows and loses none. -/
theorem listPlain_account (hlimit : 0<limit) (startAfter : Option (List α)) :
    ∃ kept lost after,PageAccount (fun _ => none) (fun _ => False)
      (rowsAfter (underRows table bucket keyPrefix) startAfter) kept lost after
      (listPlain table bucket keyPrefix limit (startAfter.getD [])) := by
  have hrest : Ascending ListedRow.key
      (rowsAfter (underRows table bucket keyPrefix) startAfter) :=
    List.Pairwise.filter _ (underRows_ascending table bucket keyPrefix)
  have hrows : listActiveRows table bucket (startAfter.getD []) keyPrefix (limit+1)=
      (rowsAfter (underRows table bucket keyPrefix) startAfter).take (limit+1) := by
    rw [listActiveRows_eq]
    unfold limitRows
    rw [if_neg (by omega)]
    congr 1
  generalize rowsAfter (underRows table bucket keyPrefix) startAfter=rest at hrest hrows
  have hown : ∀ rows : List (ListedRow α),ownRows (fun _ => none) rows=rows := fun rows => by
    simp [ownRows]
  have hfolders : ∀ rows : List (ListedRow α),folders (fun _ => none) rows=∅ := fun rows => by
    simp [folders]
  have htake : (rest.take (limit+1)).take limit=rest.take limit := by
    rw [take_take]
    congr 1
    omega
  have hlength : limit<(rest.take (limit+1)).length ↔ limit < rest.length := by
    rw [length_take]
    omega
  refine ⟨rest.take limit,[],rest.drop limit,?_⟩
  unfold listPlain
  rw [hrows]
  refine ⟨by simp,?_,?_,by simp,fun hended => ?_,fun hmore => ?_⟩
  · simp only [hown,htake]
  · simp only [hfolders]
  · have hshort : ¬limit < rest.length := by
      simpa [hlength] using hended
    exact ⟨rfl,drop_eq_nil_of_le (by omega)⟩
  · have hlong : limit < rest.length := by
      simpa [hlength] using hmore
    have hkept : rest.take limit≠[] := by
      intro hnil
      have hzero := congrArg List.length hnil
      rw [length_take,length_nil] at hzero
      omega
    obtain ⟨row,hrow,hlast,hafter,hless⟩ :=
      last_of_kept hrest (take_append_drop limit rest).symm hkept
    refine ⟨row,hrow,?_,hafter,hless⟩
    simp only [hlength,hlong,decide_true,if_true,htake,hlast,Option.map_some]

/-- With a delimiter a page loses the row at its edge. -/
theorem listFolded_account (hcap : 1≤listScanCap) (startAfter : Option (List α)) :
    ∃ kept lost after,PageAccount (folderOf keyPrefix delimiter)
      (IsEdge (folderOf keyPrefix delimiter) limit
        (listActiveRows table bucket (startAfter.getD []) keyPrefix listScanCap))
      (rowsAfter (underRows table bucket keyPrefix) startAfter) kept lost after
      (listFolded listScanCap table bucket keyPrefix delimiter limit (startAfter.getD [])) := by
  have hrest : Ascending ListedRow.key
      (rowsAfter (underRows table bucket keyPrefix) startAfter) :=
    List.Pairwise.filter _ (underRows_ascending table bucket keyPrefix)
  have hunder : ∀ row∈rowsAfter (underRows table bucket keyPrefix) startAfter,
      keyPrefix<+:row.key := fun row hrow =>
    (mem_underRows.mp (mem_filter.mp hrow).1).2
  have hrows : listActiveRows table bucket (startAfter.getD []) keyPrefix listScanCap=
      (rowsAfter (underRows table bucket keyPrefix) startAfter).take listScanCap.toNat := by
    rw [listActiveRows_eq]
    unfold limitRows
    rw [if_neg (by omega)]
  generalize rowsAfter (underRows table bucket keyPrefix) startAfter=rest at hrest hunder hrows
  have hstart : Gathered (folderOf keyPrefix delimiter) limit [] ⟨[],∅,none,false⟩ :=
    ⟨rfl,rfl,rfl,rfl,Nat.zero_le _⟩
  have hwindow : ∀ row∈rest.take listScanCap.toNat,keyPrefix<+:row.key := fun row hrow =>
    hunder row (mem_of_mem_take hrow)
  have hsplit : rest=rest.take listScanCap.toNat++rest.drop listScanCap.toNat :=
    (take_append_drop _ _).symm
  unfold listFolded
  rw [hrows]
  rcases scanRows_spec hwindow hstart with hall | ⟨before,row,after,heq,hfilled⟩
  · rw [nil_append] at hall
    refine ⟨rest.take listScanCap.toNat,[],rest.drop listScanCap.toNat,?_⟩
    refine ⟨by simp,hall.items,hall.commonPrefixes,fun row => ?_,fun hended => ?_,fun hmore => ?_⟩
    · simp only [not_mem_nil,false_iff]
      exact fun hedge => absurd hall.fits (by have hlt := hedge.lt_entries; omega)
    · have hshort : ¬listScanCap≤((rest.take listScanCap.toNat).length : ℤ) := by
        simp only [Bool.or_eq_false_iff,decide_eq_false_iff_not] at hended
        exact hended.1.2
      rw [length_take] at hshort
      exact ⟨rfl,drop_eq_nil_of_le (by omega)⟩
    · have hkept : rest.take listScanCap.toNat≠[] := by
        intro hnil
        have hlast := hall.lastScanned
        rw [hnil] at hlast hmore
        simp only [scanRows,Bool.false_or,length_nil,Option.any_none,Bool.or_false,
          decide_eq_true_eq] at hmore
        omega
      obtain ⟨row,hrow,hlast,hafter,hless⟩ := last_of_kept hrest hsplit hkept
      refine ⟨row,hrow,?_,hafter,hless⟩
      dsimp only at hmore ⊢
      rw [if_pos hmore,hall.lastScanned,hlast,Option.map_some]
  · rw [nil_append] at hfilled
    have hedge : IsEdge (folderOf keyPrefix delimiter) limit (rest.take listScanCap.toNat) row :=
      ⟨before,after,heq,hfilled.full,hfilled.opens⟩
    refine ⟨before,[row],after++rest.drop listScanCap.toNat,?_⟩
    have hrow : rest=before++row::(after++rest.drop listScanCap.toNat) := by
      rwa [heq,append_assoc,cons_append] at hsplit
    refine ⟨?_,hfilled.items,hfilled.commonPrefixes,fun other => ?_,fun hended => ?_,fun _ => ?_⟩
    · rwa [append_assoc,singleton_append]
    · rw [mem_singleton]
      exact ⟨fun h => h ▸ hedge,fun h => h.unique hedge⟩
    · simp [hfilled.isTruncated] at hended
    · obtain ⟨hmem,hafter,hless⟩ := rowsAfter_last hrest hrow
      refine ⟨row,hmem,?_,hafter,hless⟩
      simp only [hfilled.isTruncated,Bool.true_or,if_true,hfilled.lastScanned]

theorem rowsAfter_none : rowsAfter (underRows table bucket keyPrefix) none=
    underRows table bucket keyPrefix := by
  refine filter_eq_self.mpr fun row hrow => ?_
  have hactive := (mem_underRows.mp hrow).1
  obtain ⟨entry,hentry,hsome⟩ := mem_filterMap.mp hactive
  split at hsome
  · cases hsome
    have hnamed := table.named entry hentry
    cases hkey : entry.1.2 with
    | nil => exact absurd hkey hnamed
    | cons letter word =>
      simp
  · cases hsome

omit [LinearOrder α] in
theorem Follows.unique {page : Option (List α) → ListResult α} {startAfter : Option (List α)}
    {pages pages' : List (ListResult α)} (h : Follows page startAfter pages)
    (h' : Follows page startAfter pages') : pages=pages' := by
  induction h generalizing pages' with
  | last hlast =>
    cases h' with
    | last => rfl
    | more hmore =>
      rw [hlast] at hmore
      cases hmore
  | more hmore _ ih =>
    cases h' with
    | last hlast =>
      rw [hlast] at hmore
      cases hmore
    | more _ hrest => rw [ih hrest]

/-- Pages whose accounts are known end, and are complete when each edge shares its
common prefix. -/
theorem pages_complete_iff {fold : List α→Option (List α)} {all : List (ListedRow α)}
    {page : Option (List α) → ListResult α} {edge : Option (List α) → ListedRow α→Prop}
    (hpages : ∀ startAfter,∃ kept lost after,PageAccount fold (edge startAfter)
      (rowsAfter all startAfter) kept lost after (page startAfter))
    (hall : Ascending ListedRow.key all) (hstart : rowsAfter all none=all)
    (hfirst : ∀ asked row,edge asked row→∀ other∈all,other.key < row.key→∀ folder,
      fold row.key=some folder→fold other.key≠some folder) :
    (∃ pages,Follows page none pages) ∧ ∀ pages,Follows page none pages →
      (Complete fold all pages ↔ ∀ asked,Requested page none asked→∀ row,edge asked row →
        ∃ folder,fold row.key=some folder ∧
          ∃ other∈all,other.key≠row.key ∧ fold other.key=some folder) := by
  obtain ⟨pages,kept,lost,hfollows,haccount,hlost⟩ := follow_account hpages none
  rw [hstart] at haccount
  refine ⟨⟨pages,hfollows⟩,fun pages' hfollows' => ?_⟩
  obtain rfl := hfollows.unique hfollows'
  have hedge : ∀ row∈lost,∀ other∈all,other.key < row.key→∀ folder,
      fold row.key=some folder→fold other.key≠some folder := by
    intro row hrow
    obtain ⟨asked,_,hedge⟩ := (hlost row).mp hrow
    exact hfirst asked row hedge
  rw [complete_iff hall haccount hedge]
  constructor
  · intro hshared asked hasked row hrow
    exact hshared row ((hlost row).mpr ⟨asked,hasked,hrow⟩)
  · intro hshared row hrow
    obtain ⟨asked,hasked,hedge⟩ := (hlost row).mp hrow
    exact hshared asked hasked row hedge

/-- How keys are folded when a delimiter may be given. -/
def foldBy (keyPrefix : List α) (delimiter : Option (List α)) (key : List α) :
    Option (List α) :=
  delimiter.bind fun delimiter => folderOf keyPrefix delimiter key

/-- Every page that a listing asks for ends before, or at, a key that shares its
common prefix with another key. -/
def SharedEdges (listScanCap : ℤ) (table : ObjectTable α) (bucket : Text)
    (keyPrefix delimiter : Option (List α)) (limit : Option ℕ) : Prop :=
  ∀ letters,delimiter=some letters→∀ asked,
    Requested (listObjects listScanCap table bucket keyPrefix delimiter limit) none asked →
      ∀ row,IsEdge (folderOf (keyPrefix.getD []) letters) (pageLimit limit)
          (listActiveRows table bucket (asked.getD []) (keyPrefix.getD []) listScanCap) row →
        ∃ folder,folderOf (keyPrefix.getD []) letters row.key=some folder ∧
          ∃ other∈underRows table bucket (keyPrefix.getD []),other.key≠row.key ∧
            folderOf (keyPrefix.getD []) letters other.key=some folder

end Table

section Samples

/-- A row as the samples have it. -/
def sampleRow : ObjectMetadata := ⟨1,none,none,none,none,none,none⟩

/-- A bucket with some keys. -/
def sampleTable (keys : List Text) (hkeys : keys.Nodup) (hnamed : []∉keys) :
    ObjectTable Char where
  rows := ⟨keys.map fun key => ⟨(['b'],key),sampleRow⟩,by
    have hpairs : (keys.map fun key => ((['b'],key) : Text×Text)).Nodup :=
      hkeys.map fun _ _ heq => (Prod.mk.inj heq).2
    rw [List.NodupKeys,List.keys,map_map]
    exact hpairs⟩
  named := by
    intro entry hentry hempty
    obtain ⟨key,hkey,rfl⟩ := mem_map.mp hentry
    have hnil : key=[] := hempty
    exact hnamed (hnil ▸ hkey)

/-- A bucket in which two keys share a common prefix. -/
def sharedTable : ObjectTable Char :=
  sampleTable [['a'], ['c', '/', 'd'], ['c', '/', 'e']] (by decide) (by decide)

/-- Its pages of one entry. -/
def sharedPage : Option Text→ListResult Char :=
  listObjects 1000 sharedTable ['b'] none (some ['/']) (some 1)

end Samples

end NebularOs.Listing
