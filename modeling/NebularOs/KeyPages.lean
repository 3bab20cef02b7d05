import Mathlib
import NebularOs.CursorWalks
import NebularOs.Listing

/-!
# Pages of a maintenance walk

Maintenance walks over the active objects of all buckets in the order of their keys. A
page is resumed by key only, while one key may be stored in many buckets. So a page
does not end within a run of equal keys: it drops a run that it has begun, or it takes
the run as a whole.

A page is read with up to three queries, and other requests may change the table
between them. Rows with equal keys come in any order.
-/

namespace NebularOs.KeyPages

open BlobFilenames EngineState OrderedRows CursorWalks Listing List

/-- An active object as maintenance lists it. -/
structure KeyRow where
  /-- Bucket of the object. -/
  bucket : Text
  /-- Key of the object. -/
  key : Text
  /-- Logical size of the object. -/
  size : ℤ
  deriving DecidableEq

/-- Active objects of a table. -/
def activeObjects (table : ObjectTable Char) : List KeyRow :=
  table.rows.entries.filterMap fun entry =>
    if entry.2.isActive=true then some ⟨entry.1.1,entry.1.2,entry.2.size⟩ else none

/-- The table as one query sees it, and an order in which the query may answer its
active objects. -/
structure TableView where
  /-- The table at that moment. -/
  table : ObjectTable Char
  /-- Its active objects in some order. -/
  rows : List KeyRow
  /-- No object is missing. -/
  perm : rows.Perm (activeObjects table)
  /-- The order is that of the keys. -/
  sorted : rows.Pairwise fun first second => first.key ≤ second.key

/-- A number as a signed 64-bit number, wrapped around. -/
def wrapI64 (n : ℤ) : ℤ := n.bmod (2^64)

theorem wrapI64_lt (n : ℤ) : wrapI64 n<2^63 := by
  unfold wrapI64
  have hlt := @Int.bmod_lt n (2^64) (by decide)
  omega

/-- Active objects behind a key, in the order of their keys. -/
def listMigrationPage (view : TableView) (limit : ℤ) (startAfter : Option Text) : List KeyRow :=
  limitRows limit (view.rows.filter fun row => decide (Behind startAfter row.key))

/-- Active objects of a key, in the order of their buckets. -/
def listActiveWithKey (view : TableView) (key : Text) : List KeyRow :=
  sortedBy KeyRow.bucket (view.rows.filter fun row => decide (row.key=key))

/-- A page of a maintenance walk. -/
structure KeyPage where
  /-- Objects of the page. -/
  rows : List KeyRow
  /-- Whether there are more objects. -/
  isTruncated : Bool
  /-- The key that the page ends at. -/
  cursor : Option Text
  deriving DecidableEq

/-- A page that ends at its last row. -/
def KeyPage.endingAtLastRow (rows : List KeyRow) (isTruncated : Bool) : KeyPage :=
  ⟨rows,isTruncated,rows.getLast?.map KeyRow.key⟩

/-- Where the next page starts. -/
def KeyPage.lastKey (page : KeyPage) : Option Text := page.cursor

/-- What the queries for one page see. -/
structure PageReads where
  /-- The table when the page is read. -/
  page : TableView
  /-- The table when a run of equal keys is read. -/
  run : TableView
  /-- The table when it is asked for a row behind the run. -/
  rest : TableView

/-- One page behind a key. Without rows left below the boundary the page is the whole
run of the boundary's key. -/
def listKeyPage (reads : PageReads) (limit : ℤ) (startAfter : Option Text) : KeyPage :=
  let limit := max limit 1
  let fetched := listMigrationPage reads.page (wrapI64 (limit+1)) startAfter
  if (fetched.length : ℤ)≤limit then .endingAtLastRow fetched false
  else
    let boundary := (fetched.getLast?.map KeyRow.key).getD []
    let rows := fetched.dropLast.rdropWhile fun row => decide (row.key=boundary)
    if rows.isEmpty then
      ⟨listActiveWithKey reads.run boundary,
        !(listMigrationPage reads.rest 1 (some boundary)).isEmpty,some boundary⟩
    else .endingAtLastRow rows true

/-- A page as a turn of a walk: it goes on behind the cursor of a truncated page. -/
def keyPageTurn (limit : ℤ) (reads : PageReads) (startAfter : Option Text) : Page KeyRow Text :=
  let page := listKeyPage reads limit startAfter
  ⟨page.rows,if page.isTruncated then page.lastKey else none⟩

section Views

variable {view : TableView} {row : KeyRow}

theorem activeObjects_nodup (table : ObjectTable Char) :
    ((activeObjects table).map fun row => (row.bucket,row.key)).Nodup := by
  have hkeys : (table.rows.entries.map Sigma.fst).Nodup := table.rows.nodupKeys
  have hsublist : ((activeObjects table).map fun row => (row.bucket,row.key)).Sublist
      (table.rows.entries.map Sigma.fst) := by
    unfold activeObjects
    generalize table.rows.entries=stored
    induction stored with
    | nil => exact List.Sublist.refl _
    | cons entry stored ih =>
      rw [filterMap_cons]
      split
      · exact ih.trans (sublist_cons_self _ _)
      · rename_i row hrow
        split at hrow
        · cases hrow
          exact ih.cons_cons _
        · cases hrow
  exact hkeys.sublist hsublist

theorem key_ne_nil {table : ObjectTable Char} (h : row∈activeObjects table) : row.key≠[] := by
  obtain ⟨entry,hentry,hsome⟩ := mem_filterMap.mp h
  split at hsome
  · cases hsome
    exact table.named entry hentry
  · cases hsome

theorem TableView.nodup (view : TableView) : view.rows.Nodup :=
  view.perm.nodup_iff.mpr (activeObjects_nodup view.table).of_map

/-- Rows behind a cursor. -/
def TableView.behind (view : TableView) (startAfter : Option Text) : List KeyRow :=
  view.rows.filter fun row => decide (Behind startAfter row.key)

theorem mem_behind {startAfter : Option Text} :
    row∈view.behind startAfter ↔ row∈view.rows ∧ Behind startAfter row.key := by
  unfold TableView.behind
  rw [mem_filter,decide_eq_true_iff]

theorem mem_listActiveWithKey {key : Text} :
    row∈listActiveWithKey view key ↔ row∈view.rows ∧ row.key=key := by
  unfold listActiveWithKey
  rw [mem_sortedBy,mem_filter,decide_eq_true_iff]

theorem listActiveWithKey_nodup (view : TableView) (key : Text) :
    (listActiveWithKey view key).Nodup :=
  (sortedBy_perm _ _).nodup_iff.mpr (view.nodup.filter _)

theorem probe_isEmpty {key : Text} :
    (listMigrationPage view 1 (some key)).isEmpty=true ↔ view.behind (some key)=[] := by
  unfold listMigrationPage limitRows
  rw [if_neg (by decide)]
  change ((view.behind (some key)).take 1).isEmpty=true ↔ _
  cases view.behind (some key) with
  | nil => exact iff_of_true rfl rfl
  | cons row rows => exact iff_of_false Bool.false_ne_true (cons_ne_nil _ _)

theorem fetched_prefix (view : TableView) {limit : ℤ} (hmin : 1≤limit) (hmax : limit<2^63)
    (startAfter : Option Text) :
    listMigrationPage view (wrapI64 (limit+1)) startAfter<+:view.behind startAfter ∧
      (((listMigrationPage view (wrapI64 (limit+1)) startAfter).length : ℤ)≤limit →
        listMigrationPage view (wrapI64 (limit+1)) startAfter=view.behind startAfter) := by
  unfold listMigrationPage limitRows
  change (if _ then view.behind startAfter else (view.behind startAfter).take _)<+:_ ∧ _
  split
  · exact ⟨prefix_rfl,fun _ => rfl⟩
  rename_i hsigned
  have hwrap : wrapI64 (limit+1)=limit+1 := by
    unfold wrapI64 at hsigned ⊢
    rw [Int.bmod_def] at hsigned ⊢
    split at hsigned
    · omega
    · omega
  rw [hwrap]
  refine ⟨List.take_prefix _ _,fun hshort => ?_⟩
  change (view.behind startAfter).take (limit+1).toNat=view.behind startAfter
  change (((view.behind startAfter).take (limit+1).toNat).length : ℤ)≤limit at hshort
  rw [length_take] at hshort
  refine take_of_length_le ?_
  omega

end Views

section Pages

variable {reads : PageReads} {limit : ℤ} {start : Option Text}

theorem rdropWhile_run {rows : List KeyRow} {boundary : Text}
    (hsorted : rows.Pairwise fun first second => first.key ≤ second.key)
    (hmax : ∀ row∈rows,row.key≤boundary) : (rows.rdropWhile fun row => decide (row.key=boundary))=
      rows.filter fun row => decide (row.key<boundary) := by
  induction rows using List.reverseRecOn with
  | nil => rfl
  | append_singleton rows row ih =>
    obtain ⟨hfront,_,hlast⟩ := pairwise_append.mp hsorted
    have hle := hmax row (mem_append_right _ (mem_singleton_self row))
    by_cases hkey : row.key=boundary
    · rw [rdropWhile_concat,if_pos (decide_eq_true hkey),filter_append,
        ih hfront fun other hother => hmax other (mem_append_left _ hother)]
      simp [hkey]
    · rw [rdropWhile_concat,if_neg (by simpa using hkey)]
      symm
      refine filter_eq_self.mpr fun other hother => decide_eq_true ?_
      have hlt : row.key<boundary := lt_of_le_of_ne hle hkey
      rcases mem_append.mp hother with hother | hother
      · exact (hlast other hother row (mem_singleton_self row)).trans_lt hlt
      · rwa [mem_singleton.mp hother]

/-- A page is the last one, or it has the rows below a boundary; if there are none, it
has the run of the boundary's key. -/
theorem listKeyPage_cases (hlimit : limit<2^63) :
    listKeyPage reads limit start=.endingAtLastRow (reads.page.behind start) false ∨
      ∃ last∈reads.page.behind start,
        let below := (reads.page.behind start).filter fun row => decide (row.key<last.key)
        listKeyPage reads limit start=
          if below.isEmpty then ⟨listActiveWithKey reads.run last.key,
            !(listMigrationPage reads.rest 1 (some last.key)).isEmpty,some last.key⟩
          else .endingAtLastRow below true := by
  have hsorted : (reads.page.behind start).Pairwise fun first second => first.key ≤ second.key :=
    reads.page.sorted.filter _
  obtain ⟨⟨later,hlater⟩,hshort⟩ := fetched_prefix reads.page (le_max_right limit 1)
    (max_lt hlimit (by decide)) start
  unfold listKeyPage
  dsimp only
  generalize listMigrationPage reads.page (wrapI64 (max limit 1+1)) start=fetched at hlater hshort ⊢
  split
  · rename_i hfits
    rw [hshort hfits]
    exact Or.inl rfl
  rename_i hlong
  right
  have hne : fetched≠[] := by
    rintro rfl
    exact hlong ((Nat.cast_nonneg 0).trans (by omega))
  obtain ⟨front,last,rfl⟩ : ∃ front last,fetched=front++[last] :=
    ⟨_,_,(dropLast_append_getLast hne).symm⟩
  rw [← hlater] at hsorted
  obtain ⟨hfetched,_,hbeyond⟩ := pairwise_append.mp hsorted
  obtain ⟨hfront,_,hmax⟩ := pairwise_append.mp hfetched
  refine ⟨last,?_,?_⟩
  · rw [← hlater]
    simp
  · have hbelow : (reads.page.behind start).filter (fun row => decide (row.key<last.key))=
        front.filter fun row => decide (row.key<last.key) := by
      have htail : later.filter (fun row => decide (row.key<last.key))=[] := by
        refine filter_eq_nil_iff.mpr fun row hrow => ?_
        have hle := hbeyond last (by simp) row hrow
        simpa using hle
      rw [← hlater,filter_append,filter_append,htail]
      simp
    have hkey : ((front++[last]).getLast?.map KeyRow.key).getD []=last.key := by simp
    rw [hkey,dropLast_concat,hbelow,rdropWhile_run hfront fun row hrow =>
      hmax row hrow last (mem_singleton_self last)]

theorem le_last {rows : List KeyRow} {last row : KeyRow}
    (hsorted : rows.Pairwise fun first second => first.key ≤ second.key)
    (hlast : rows.getLast?=some last) (hrow : row∈rows) : row.key≤last.key := by
  obtain ⟨front,rfl⟩ := List.getLast?_eq_some_iff.mp hlast
  rcases mem_append.mp hrow with hrow | hrow
  · exact (pairwise_append.mp hsorted).2.2 row hrow last (mem_singleton_self last)
  · rw [mem_singleton.mp hrow]

/-- What a turn of a walk does: it lists all rows, or those up to a key, or the run of
the first key. -/
inductive Turn (reads : PageReads) (start : Option Text) : Page KeyRow Text→Prop
  | all : Turn reads start ⟨reads.page.behind start,none⟩
  | upTo {rows : List KeyRow} {last boundary : KeyRow} (hboundary : boundary∈reads.page.behind start)
      (hrows : rows=(reads.page.behind start).filter fun row => decide (row.key<boundary.key))
      (hlast : rows.getLast?=some last) : Turn reads start ⟨rows,some last.key⟩
  | run {boundary : KeyRow} (hboundary : boundary∈reads.page.behind start)
      (hfirst : ∀ row∈reads.page.behind start,boundary.key ≤ row.key) :
      Turn reads start ⟨listActiveWithKey reads.run boundary.key,
        if reads.rest.behind (some boundary.key)=[] then none else some boundary.key⟩

/-- Pages are turns of a walk. -/
theorem keyPageTurn_turn (hlimit : limit<2^63) : Turn reads start (keyPageTurn limit reads start) := by
  unfold keyPageTurn
  rcases @listKeyPage_cases reads limit start hlimit with hpage | ⟨boundary,hboundary,hpage⟩
  · rw [hpage]
    exact .all
  dsimp only at hpage
  rw [hpage]
  split
  · rename_i hempty
    have hfirst : ∀ row∈reads.page.behind start,boundary.key ≤ row.key := by
      intro row hrow
      have hnone := filter_eq_nil_iff.mp (isEmpty_iff.mp hempty) row hrow
      simpa using hnone
    have hnext : (if !(listMigrationPage reads.rest 1 (some boundary.key)).isEmpty then
        some boundary.key else none)=
          if reads.rest.behind (some boundary.key)=[] then none else some boundary.key := by
      by_cases hrest : reads.rest.behind (some boundary.key)=[]
      · rw [if_pos hrest,probe_isEmpty.mpr hrest]
        rfl
      · rw [if_neg hrest,Bool.eq_false_iff.mpr fun h => hrest (probe_isEmpty.mp h)]
        rfl
    dsimp only [KeyPage.lastKey]
    rw [hnext]
    exact .run hboundary hfirst
  · rename_i hsome
    cases hlast : ((reads.page.behind start).filter fun row =>
        decide (row.key<boundary.key)).getLast? with
    | none =>
      rw [List.getLast?_eq_none_iff.mp hlast] at hsome
      exact absurd rfl hsome
    | some last =>
      unfold KeyPage.endingAtLastRow
      dsimp only [KeyPage.lastKey]
      rw [if_pos rfl,hlast]
      exact .upTo hboundary rfl hlast

/-- An object that is active at every query of a page is listed by the page or left
behind its cursor. -/
theorem Turn.lists {page : Page KeyRow Text} (h : Turn reads start page) {bucket key : Text}
    (hpage : ∃ row∈reads.page.rows,row.bucket=bucket ∧ row.key=key)
    (hrun : ∃ row∈reads.run.rows,row.bucket=bucket ∧ row.key=key)
    (hrest : ∃ row∈reads.rest.rows,row.bucket=bucket ∧ row.key=key) (hbehind : Behind start key) :
    (∃ row∈page.rows,row.bucket=bucket ∧ row.key=key) ∨ ∃ next∈page.next,next<key := by
  obtain ⟨row,hrow,hbucket,rfl⟩ := hpage
  have hseen : row∈reads.page.behind start := mem_behind.mpr ⟨hrow,hbehind⟩
  cases h with
  | all => exact Or.inl ⟨row,hseen,hbucket,rfl⟩
  | @upTo rows last boundary hboundary hrows hlast =>
    have hbelow : ∀ {other : KeyRow},other∈rows ↔
        other∈reads.page.behind start ∧ other.key<boundary.key := by
      intro other
      rw [hrows,mem_filter,decide_eq_true_iff]
    by_cases hlt : row.key<boundary.key
    · exact Or.inl ⟨row,hbelow.mpr ⟨hseen,hlt⟩,hbucket,rfl⟩
    · refine Or.inr ⟨last.key,rfl,?_⟩
      have hmem := (hbelow.mp (mem_of_getLast? hlast)).2
      exact hmem.trans_le (not_lt.mp hlt)
  | @run boundary hboundary hfirst =>
    rcases (hfirst row hseen).eq_or_lt with heq | hlt
    · obtain ⟨other,hother,hbucket',hkey'⟩ := hrun
      exact Or.inl ⟨other,mem_listActiveWithKey.mpr ⟨hother,hkey'.trans heq.symm⟩,hbucket',hkey'⟩
    obtain ⟨other,hother,_,hkey'⟩ := hrest
    have hmore : reads.rest.behind (some boundary.key)≠[] := by
      refine ne_nil_of_mem (mem_behind.mpr ⟨hother,?_⟩)
      rwa [behind_some,hkey']
    refine Or.inr ⟨boundary.key,?_,hlt⟩
    rw [if_neg hmore]
    rfl

theorem Turn.next_ne_nil {page : Page KeyRow Text} (h : Turn reads start page) {next : Text}
    (hnext : next∈page.next) : next≠[] := by
  have hnamed : ∀ row∈reads.page.behind start,row.key≠[] := fun row hrow =>
    key_ne_nil (reads.page.perm.mem_iff.mp (mem_behind.mp hrow).1)
  cases h with
  | all => cases hnext
  | @upTo rows last boundary hboundary hrows hlast =>
    cases hnext
    have hmem := mem_of_getLast? hlast
    rw [hrows] at hmem
    exact hnamed last (mem_of_mem_filter hmem)
  | @run boundary hboundary hfirst =>
    split at hnext
    · cases hnext
    cases hnext
    exact hnamed boundary hboundary

/-- The queries for a page see one table. -/
structure PageReads.Of (reads : PageReads) (table : ObjectTable Char) : Prop where
  /-- The page is read from it. -/
  page : reads.page.table=table
  /-- The run is read from it. -/
  run : reads.run.table=table
  /-- It is asked for a row behind the run. -/
  rest : reads.rest.table=table

theorem TableView.mem_rows {view : TableView} {table : ObjectTable Char} (h : view.table=table)
    {row : KeyRow} : row∈view.rows ↔ row∈activeObjects table := by
  rw [view.perm.mem_iff,h]

section Unchanging

variable {table : ObjectTable Char} {page : Page KeyRow Text}

theorem PageReads.Of.mem_behind (h : reads.Of table) {row : KeyRow} :
    row∈reads.page.behind start ↔ row∈activeObjects table ∧ Behind start row.key := by
  rw [KeyPages.mem_behind,TableView.mem_rows h.page]

theorem Turn.rows (h : Turn reads start page) (hreads : reads.Of table) {row : KeyRow}
    (hrow : row∈page.rows) : row∈activeObjects table ∧ Behind start row.key ∧
      ∀ next∈page.next,row.key≤next := by
  cases h with
  | all =>
    have hmem := hreads.mem_behind.mp hrow
    exact ⟨hmem.1,hmem.2,fun _ hnext => nomatch hnext⟩
  | @upTo rows last boundary hboundary hrows hlast =>
    have hsorted : rows.Pairwise fun first second => first.key ≤ second.key := by
      rw [hrows]
      exact (reads.page.sorted.filter _).filter _
    have hmem := hreads.mem_behind.mp (mem_of_mem_filter (hrows ▸ hrow))
    refine ⟨hmem.1,hmem.2,fun next hnext => ?_⟩
    rw [← Option.some.inj hnext]
    exact le_last hsorted hlast hrow
  | @run boundary hboundary hfirst =>
    obtain ⟨hmem,hkey⟩ := mem_listActiveWithKey.mp hrow
    refine ⟨(TableView.mem_rows hreads.run).mp hmem,?_,fun next hnext => ?_⟩
    · rw [hkey]
      exact (hreads.mem_behind.mp hboundary).2
    · split at hnext
      · cases hnext
      · rw [← Option.some.inj hnext,hkey]

theorem Turn.nodup (h : Turn reads start page) : page.rows.Nodup := by
  have hnodup : (reads.page.behind start).Nodup := reads.page.nodup.filter _
  cases h with
  | all => exact hnodup
  | upTo hboundary hrows hlast =>
    rw [hrows]
    exact hnodup.filter _
  | run hboundary hfirst => exact listActiveWithKey_nodup _ _

theorem Turn.moves (h : Turn reads start page) (hreads : reads.Of table) {next : Text}
    (hnext : next∈page.next) : ∃ row∈activeObjects table,row.key=next ∧ Behind start next := by
  cases h with
  | all => cases hnext
  | @upTo rows last boundary hboundary hrows hlast =>
    cases hnext
    have hmem := mem_of_getLast? hlast
    rw [hrows] at hmem
    have hactive := hreads.mem_behind.mp (mem_of_mem_filter hmem)
    exact ⟨last,hactive.1,rfl,hactive.2⟩
  | @run boundary hboundary hfirst =>
    split at hnext
    · cases hnext
    cases hnext
    have hactive := hreads.mem_behind.mp hboundary
    exact ⟨boundary,hactive.1,rfl,hactive.2⟩

theorem keyPageTurn_sees (hlimit : limit<2^63) (hreads : reads.Of table) :
    Sees KeyRow.key (activeObjects table) (keyPageTurn limit reads) := by
  have hturn : ∀ start,Turn reads start (keyPageTurn limit reads start) :=
    fun start => keyPageTurn_turn hlimit
  refine ⟨fun start row hrow => (hturn start).rows hreads hrow,fun start => (hturn start).nodup,
    fun start row hrow hbehind => ?_,fun start next hnext => (hturn start).moves hreads hnext⟩
  have hviews : ∀ view : TableView,view.table=table →
      ∃ other∈view.rows,other.bucket=row.bucket ∧ other.key=row.key :=
    fun view hview => ⟨row,(TableView.mem_rows hview).mpr hrow,rfl,rfl⟩
  refine ((hturn start).lists (hviews _ hreads.page) (hviews _ hreads.run) (hviews _ hreads.rest)
    hbehind).imp_left ?_
  rintro ⟨other,hother,hbucket,hkey⟩
  have hactive := ((hturn start).rows hreads hother).1
  have hsame : other=row := inj_on_of_nodup_map (activeObjects_nodup table) hactive hrow
    (by rw [hbucket,hkey])
  exact hsame ▸ hother

end Unchanging

end Pages

/-- A bucket with two keys, as a query answers it. -/
def sampleView : TableView where
  table := sampleTable [['a'], ['c']] (by decide) (by decide)
  rows := [⟨['b'],['a'],1⟩,⟨['b'],['c'],1⟩]
  perm := by decide +kernel
  sorted := by decide +kernel

end NebularOs.KeyPages
