import Mathlib
import NebularOs.KeyPages
import NebularOs.RangeRequests
import NebularOs.Scrubbing

/-!
# Passes of the periodic scrub

The periodic scrub checks some objects with every call and remembers, as texts in the
maintenance state, the key it stopped at and how many passes it has completed. When a
call has reached the last key, the next one starts over, in the next slice of the keys:
a pass checks the objects whose hash, moved on by the number of passes, is divisible by
the denominator.

What a call sees of the table may change from query to query. Verdicts on objects are
parameters: a verdict depends on the row and the blob at that moment.
-/

namespace NebularOs.ScrubPasses

open BlobFilenames PresignedUrls RangeRequests CursorWalks Listing KeyPages Scrubbing List Option

/-- Outcome of scrubbing one object. -/
inductive ScrubVerdict
  | healthy
  | gone
  | missing
  | corrupt
  deriving DecidableEq

/-- What one call of the scrub is asked for. -/
structure ScrubOptions where
  /-- Objects of a page. -/
  limit : ℕ
  /-- One of how many objects is checked. -/
  sampleDenom : UInt64
  /-- The slice that is checked. -/
  sampleEpoch : UInt64
  /-- How thorough the checks are. -/
  mode : ScrubMode
  /-- Key to start after. -/
  startAfter : Option Text

/-- What the maintenance state remembers of the scrub. -/
structure MaintenanceState where
  /-- The key that the last call stopped at. -/
  scrubCursor : Option Text
  /-- Number of completed passes. -/
  scrubEpoch : Option Text
  deriving DecidableEq

/-- Settings of a node. -/
structure ScrubSettings where
  /-- Hash of bucket and key. -/
  hash : List UInt8→UInt64
  /-- Whether checks are light ones. -/
  scrubModeLight : Bool
  /-- One of how many objects a pass checks. -/
  scrubSampleDenom : UInt64

/-- What a call reports. -/
structure VerifyBlobsReport where
  /-- Checked objects. -/
  scanned : ℕ
  /-- Objects without a finding. -/
  verified : ℕ
  /-- Objects with a finding. -/
  corrupted : ℕ
  /-- Objects deleted meanwhile. -/
  skipped : ℕ
  /-- Objects of other slices. -/
  sampledOut : ℕ
  /-- One of how many objects is checked. -/
  sampleDenom : UInt64
  /-- How thorough the checks are. -/
  mode : String
  /-- The key that the page ends at. -/
  nextStartAfter : Option Text
  /-- Whether there are more objects. -/
  isTruncated : Bool
  /-- Bucket and key of objects with a finding. -/
  corruptedKeys : List (Text×Text)
  deriving DecidableEq

/-- What one call sees. -/
structure ScrubTurn where
  /-- The table at its queries. -/
  reads : PageReads
  /-- Verdict on an object. -/
  scrubOne : KeyRow→ScrubVerdict
  /-- Verdict on an object with its writers locked out. -/
  scrubLocked : KeyRow→ScrubVerdict

/-- Whether an object is in a slice. -/
def scrubSampleSelectedIn (hash : List UInt8→UInt64) (bucket key : Text)
    (sampleDenom epoch : UInt64) : Bool :=
  let denom := max sampleDenom.toNat 1
  if denom=1 then true
  else decide (((hash (utf8 (bucket++ '/'::key))).toNat+epoch.toNat)%denom=0)

/-- Options of the next call. -/
def nextScrubOptions (settings : ScrubSettings) (state : MaintenanceState) (limit : ℕ) :
    ScrubOptions where
  limit := limit
  sampleDenom := settings.scrubSampleDenom
  sampleEpoch := UInt64.ofNat ((state.scrubEpoch.bind parseU64).getD 0)
  mode := if settings.scrubModeLight then .light else .deep
  startAfter := state.scrubCursor.filter fun cursor => !cursor.isEmpty

/-- The final verdict on an object: a finding is checked again with writers locked out. -/
def finalVerdict (turn : ScrubTurn) (row : KeyRow) : ScrubVerdict :=
  let verdict := turn.scrubOne row
  if verdict=.missing ∨ verdict=.corrupt then turn.scrubLocked row else verdict

/-- Objects that were checked, with the verdicts on them. -/
abbrev Verdicts := List (KeyRow×ScrubVerdict)

/-- Scrubbing one object of a page. What was checked is noted beside the report. -/
def scrubRow (settings : ScrubSettings) (opts : ScrubOptions) (turn : ScrubTurn)
    (progress : VerifyBlobsReport×Verdicts) (row : KeyRow) : VerifyBlobsReport×Verdicts :=
  let (report,checked) := progress
  if !scrubSampleSelectedIn settings.hash row.bucket row.key opts.sampleDenom opts.sampleEpoch then
    ({ report with sampledOut := report.sampledOut+1 },checked)
  else
    let report := { report with scanned := report.scanned+1 }
    let verdict := finalVerdict turn row
    (match verdict with
      | .healthy => { report with verified := report.verified+1 }
      | .gone => { report with skipped := report.skipped+1 }
      | .missing | .corrupt =>
        { report with
          corrupted := report.corrupted+1
          corruptedKeys := report.corruptedKeys++[(row.bucket,row.key)] },
      checked++[(row,verdict)])

/-- The report of a page before its objects are scrubbed. -/
def emptyReport (opts : ScrubOptions) (page : KeyPage) : VerifyBlobsReport where
  scanned := 0
  verified := 0
  corrupted := 0
  skipped := 0
  sampledOut := 0
  sampleDenom := max opts.sampleDenom 1
  mode := if opts.mode=.light then "light" else "deep"
  nextStartAfter := page.lastKey
  isTruncated := page.isTruncated
  corruptedKeys := []

/-- The page of a call. -/
def scrubPage (opts : ScrubOptions) (turn : ScrubTurn) : KeyPage :=
  listKeyPage turn.reads (wrapI64 (max opts.limit 1)) opts.startAfter

/-- Scrubbing the objects of a page. -/
def scrubObjects (settings : ScrubSettings) (opts : ScrubOptions) (turn : ScrubTurn) :
    VerifyBlobsReport×Verdicts :=
  let page := scrubPage opts turn
  page.rows.foldl (scrubRow settings opts turn) (emptyReport opts page,[])

/-- Remembering where the scrub goes on. After the last key it starts over. -/
def saveScrubProgress (opts : ScrubOptions) (report : VerifyBlobsReport) (state : MaintenanceState) :
    MaintenanceState :=
  match report.nextStartAfter,report.isTruncated with
  | some key,true => { state with scrubCursor := some key }
  | _,_ => ⟨some [],some (Nat.toDigits 10 (opts.sampleEpoch+1).toNat)⟩

/-- One call of the periodic scrub. -/
def scrubWithDefaults (settings : ScrubSettings) (limit : ℕ) (state : MaintenanceState)
    (turn : ScrubTurn) : (VerifyBlobsReport×Verdicts)×MaintenanceState :=
  let opts := nextScrubOptions settings state limit
  let scrubbed := scrubObjects settings opts turn
  (scrubbed,saveScrubProgress opts scrubbed.1 state)

section Calls

variable (settings : ScrubSettings) (limit : ℕ)

/-- Where a call in a state starts. -/
def startOf (state : MaintenanceState) : Option Text :=
  (nextScrubOptions settings state limit).startAfter

/-- The slice that a call in a state checks. -/
def epochOf (state : MaintenanceState) : UInt64 :=
  (nextScrubOptions settings state limit).sampleEpoch

/-- The state after some calls. -/
def afterCalls (state : MaintenanceState) (turns : List ScrubTurn) : MaintenanceState :=
  turns.foldl (fun state turn => (scrubWithDefaults settings limit state turn).2) state

/-- Objects that some calls list. -/
def listedRows : MaintenanceState → List ScrubTurn → List KeyRow
  | _,[] => []
  | state,turn::rest =>
    (scrubPage (nextScrubOptions settings state limit) turn).rows++
      listedRows (scrubWithDefaults settings limit state turn).2 rest

/-- Objects that some calls check, with their verdicts. -/
def checkedRows : MaintenanceState → List ScrubTurn→Verdicts
  | _,[] => []
  | state,turn::rest =>
    (scrubWithDefaults settings limit state turn).1.2++
      checkedRows (scrubWithDefaults settings limit state turn).2 rest

/-- Calls that make up a pass: after the last of them, and after no other, the cursor is
empty. -/
inductive Pass : MaintenanceState → List ScrubTurn→Prop
  | last {state : MaintenanceState} {turn : ScrubTurn}
      (h : startOf settings limit (scrubWithDefaults settings limit state turn).2=none) :
      Pass state [turn]
  | more {state : MaintenanceState} {turn : ScrubTurn} {rest : List ScrubTurn}
      (h : startOf settings limit (scrubWithDefaults settings limit state turn).2≠none)
      (hrest : Pass (scrubWithDefaults settings limit state turn).2 rest) :
      Pass state (turn::rest)

/-- Passes one after the other. -/
def Passes : MaintenanceState → List (List ScrubTurn)→Prop
  | _,[] => True
  | state,turns::rest => Pass settings limit state turns ∧
      Passes (afterCalls settings limit state turns) rest

/-- Objects that some passes check, with their verdicts. -/
def checkedOver : MaintenanceState → List (List ScrubTurn)→Verdicts
  | _,[] => []
  | state,turns::rest => checkedRows settings limit state turns++
      checkedOver (afterCalls settings limit state turns) rest

end Calls

section Pages

variable {settings : ScrubSettings} {opts : ScrubOptions} {turn : ScrubTurn}

/-- Objects of the slice that a call checks. -/
def inSlice (settings : ScrubSettings) (sampleDenom epoch : UInt64) (row : KeyRow) : Bool :=
  scrubSampleSelectedIn settings.hash row.bucket row.key sampleDenom epoch

/-- A verdict that was reached on an object: that of the check, unless it is a finding,
and then that of a second check with writers locked out. -/
def Judged (turn : ScrubTurn) (entry : KeyRow×ScrubVerdict) : Prop :=
  turn.scrubOne entry.1=entry.2 ∧ (entry.2=.healthy ∨ entry.2=.gone) ∨
    (turn.scrubOne entry.1=.missing ∨ turn.scrubOne entry.1=.corrupt) ∧
      turn.scrubLocked entry.1=entry.2

/-- Findings among verdicts. -/
def findings (checked : Verdicts) : Verdicts :=
  checked.filter fun entry => decide (entry.2=.missing ∨ entry.2=.corrupt)

/-- A report of the verdicts that were reached. -/
structure Tallied (turn : ScrubTurn) (call : VerifyBlobsReport×Verdicts) : Prop where
  /-- The checks were made. -/
  judged : ∀ entry∈call.2,Judged turn entry
  /-- All of them are counted. -/
  scanned : call.1.scanned=call.2.length
  /-- Objects without a finding are counted. -/
  verified : call.1.verified=(call.2.map Prod.snd).count .healthy
  /-- Deleted objects are counted. -/
  skipped : call.1.skipped=(call.2.map Prod.snd).count .gone
  /-- Findings are counted. -/
  corrupted : call.1.corrupted=(findings call.2).length
  /-- Findings are named. -/
  corruptedKeys : call.1.corruptedKeys=(findings call.2).map fun entry =>
    (entry.1.bucket,entry.1.key)

/-- What scrubbing objects adds to the progress of a page. -/
structure Scrubbed (settings : ScrubSettings) (opts : ScrubOptions) (turn : ScrubTurn)
    (rows : List KeyRow) (progress after : VerifyBlobsReport×Verdicts) : Prop where
  /-- The objects of the slice are checked. -/
  checked : after.2.map Prod.fst=progress.2.map Prod.fst++
    rows.filter (inSlice settings opts.sampleDenom opts.sampleEpoch)
  /-- The verdicts on them are reported. -/
  tallied : Tallied turn progress→Tallied turn after
  /-- The end of the page stays. -/
  nextStartAfter : after.1.nextStartAfter=progress.1.nextStartAfter
  /-- Whether there is more stays. -/
  isTruncated : after.1.isTruncated=progress.1.isTruncated

/-- A report with one more verdict that was reached. -/
theorem Tallied.add {report after : VerifyBlobsReport} {checked : Verdicts} {row : KeyRow}
    (h : Tallied turn (report,checked))
    (hscanned : after.scanned=report.scanned+1)
    (hverified : after.verified=report.verified+[finalVerdict turn row].count .healthy)
    (hskipped : after.skipped=report.skipped+[finalVerdict turn row].count .gone)
    (hcorrupted : after.corrupted=report.corrupted+(findings [(row,finalVerdict turn row)]).length)
    (hkeys : after.corruptedKeys=report.corruptedKeys++(findings [(row,finalVerdict turn row)]).map
      fun entry => (entry.1.bucket,entry.1.key)) :
    Tallied turn (after,checked++[(row,finalVerdict turn row)]) := by
  have hjudged : Judged turn (row,finalVerdict turn row) := by
    unfold Judged finalVerdict
    cases turn.scrubOne row <;> simp
  have hfindings : findings checked++findings [(row,finalVerdict turn row)]=
      findings (checked++[(row,finalVerdict turn row)]) := (filter_append _ _).symm
  refine ⟨fun entry hentry => ?_,?_,?_,?_,?_,?_⟩
  · rcases mem_append.mp hentry with hold | hnew
    · exact h.judged entry hold
    · rwa [mem_singleton.mp hnew]
  · rw [hscanned,h.scanned,length_append]
    rfl
  · rw [hverified,h.verified,map_append,count_append]
    rfl
  · rw [hskipped,h.skipped,map_append,count_append]
    rfl
  · rw [hcorrupted,h.corrupted,← length_append,hfindings]
  · rw [hkeys,h.corruptedKeys,← map_append,hfindings]

theorem scrubRow_scrubbed (progress : VerifyBlobsReport×Verdicts) (row : KeyRow) :
    Scrubbed settings opts turn [row] progress (scrubRow settings opts turn progress row) := by
  unfold scrubRow
  cases hselected : inSlice settings opts.sampleDenom opts.sampleEpoch row with
  | false =>
    have hout : (!scrubSampleSelectedIn settings.hash row.bucket row.key opts.sampleDenom
        opts.sampleEpoch)=true := by
      rwa [Bool.not_eq_true']
    dsimp only
    rw [if_pos hout]
    exact ⟨by simp [hselected],fun h => ⟨h.1,h.2,h.3,h.4,h.5,h.6⟩,rfl,rfl⟩
  | true =>
    have hin : ¬(!scrubSampleSelectedIn settings.hash row.bucket row.key opts.sampleDenom
        opts.sampleEpoch)=true := by
      rwa [Bool.not_eq_true',Bool.not_eq_false]
    dsimp only
    rw [if_neg hin]
    refine ⟨by simp [hselected],fun h => ?_,?_,?_⟩
    · refine h.add ?_ ?_ ?_ ?_ ?_ <;> cases finalVerdict turn row <;> simp [findings]
    · cases finalVerdict turn row <;> rfl
    · cases finalVerdict turn row <;> rfl

theorem foldl_scrubRow (rows : List KeyRow) (progress : VerifyBlobsReport×Verdicts) :
    Scrubbed settings opts turn rows progress (rows.foldl (scrubRow settings opts turn) progress) := by
  induction rows generalizing progress with
  | nil => exact ⟨(append_nil _).symm,id,rfl,rfl⟩
  | cons row rows ih =>
    have hfirst : Scrubbed settings opts turn [row] progress
        (scrubRow settings opts turn progress row) := scrubRow_scrubbed progress row
    have hrest := ih (scrubRow settings opts turn progress row)
    have hsplit : row::rows=[row]++rows := rfl
    constructor
    · rw [foldl_cons,hrest.checked,hfirst.checked,append_assoc,hsplit,filter_append]
    · exact fun h => hrest.tallied (hfirst.tallied h)
    · rw [foldl_cons,hrest.nextStartAfter,hfirst.nextStartAfter]
    · rw [foldl_cons,hrest.isTruncated,hfirst.isTruncated]

theorem scrubObjects_scrubbed (settings : ScrubSettings) (opts : ScrubOptions) (turn : ScrubTurn) :
    Scrubbed settings opts turn (scrubPage opts turn).rows
      (emptyReport opts (scrubPage opts turn),[]) (scrubObjects settings opts turn) :=
  foldl_scrubRow _ _

/-- The report of a page is one of the verdicts on it. -/
theorem scrubObjects_tallied (settings : ScrubSettings) (opts : ScrubOptions) (turn : ScrubTurn) :
    Tallied turn (scrubObjects settings opts turn) :=
  (scrubObjects_scrubbed settings opts turn).tallied
    ⟨fun _ hnone => absurd hnone not_mem_nil,rfl,rfl,rfl,rfl,rfl⟩

end Pages

section Progress

variable {settings : ScrubSettings} {limit : ℕ} {state : MaintenanceState}

theorem parseU64_toDigits (n : UInt64) : parseU64 (Nat.toDigits 10 n.toNat)=some n.toNat := by
  have hmax : n.toNat≤u64Max := by
    have hlt := n.toNat_lt
    unfold u64Max
    omega
  refine parseU64_eq_some_iff.mpr ⟨[],_,(nil_append _).symm,Or.inl rfl,?_⟩
  refine ⟨?_,?_,?_,hmax⟩
  · exact Nat.toDigits_ne_nil
  · exact fun c hc => Nat.isDigit_of_mem_toDigits (by omega) (by omega) hc
  · exact (Nat.ofDigitChars_toDigits (by omega) (by omega)).symm

/-- A call as a turn of a walk. -/
def scrubTurn (limit : ℕ) (turn : ScrubTurn) (startAfter : Option Text) : Page KeyRow Text :=
  keyPageTurn (wrapI64 (max limit 1)) turn.reads startAfter

/-- A call goes on behind the key of its page, in the same slice, or from the beginning
in the next slice. -/
theorem after_call (settings : ScrubSettings) (limit : ℕ) (state : MaintenanceState)
    (turn : ScrubTurn) : startOf settings limit (scrubWithDefaults settings limit state turn).2=
        (scrubTurn limit turn (startOf settings limit state)).next ∧
      epochOf settings limit (scrubWithDefaults settings limit state turn).2=
        if (scrubTurn limit turn (startOf settings limit state)).next=none then
          epochOf settings limit state+1 else epochOf settings limit state := by
  have hturn : Turn turn.reads (startOf settings limit state)
      (scrubTurn limit turn (startOf settings limit state)) := keyPageTurn_turn (wrapI64_lt _)
  have hscrubbed := scrubObjects_scrubbed settings (nextScrubOptions settings state limit) turn
  have hnext : (scrubTurn limit turn (startOf settings limit state)).next=
      if (scrubPage (nextScrubOptions settings state limit) turn).isTruncated then
        (scrubPage (nextScrubOptions settings state limit) turn).lastKey else none := rfl
  have hsaved : (scrubWithDefaults settings limit state turn).2=
      saveScrubProgress (nextScrubOptions settings state limit)
        (scrubObjects settings (nextScrubOptions settings state limit) turn).1 state := rfl
  have hkey : (scrubObjects settings (nextScrubOptions settings state limit) turn).1.nextStartAfter=
      (scrubPage (nextScrubOptions settings state limit) turn).lastKey := hscrubbed.nextStartAfter
  have hmore : (scrubObjects settings (nextScrubOptions settings state limit) turn).1.isTruncated=
      (scrubPage (nextScrubOptions settings state limit) turn).isTruncated := hscrubbed.isTruncated
  cases hpage : (scrubTurn limit turn (startOf settings limit state)).next with
  | some key =>
    have hne : key≠[] := hturn.next_ne_nil hpage
    rw [hpage] at hnext
    have hstate : (scrubWithDefaults settings limit state turn).2=
        { state with scrubCursor := some key } := by
      rw [hsaved]
      unfold saveScrubProgress
      cases htruncated : (scrubPage (nextScrubOptions settings state limit) turn).isTruncated with
      | true =>
        rw [htruncated,if_pos rfl] at hnext
        rw [hkey,hmore,htruncated,← hnext]
      | false =>
        rw [htruncated] at hnext
        cases hnext
    rw [hstate,if_neg (some_ne_none key)]
    refine ⟨?_,rfl⟩
    unfold startOf nextScrubOptions
    simp [hne]
  | none =>
    rw [hpage] at hnext
    have hstate : (scrubWithDefaults settings limit state turn).2=
        ⟨some [],some (Nat.toDigits 10 (epochOf settings limit state+1).toNat)⟩ := by
      rw [hsaved]
      unfold saveScrubProgress
      cases htruncated : (scrubPage (nextScrubOptions settings state limit) turn).isTruncated with
      | true =>
        rw [htruncated,if_pos rfl] at hnext
        rw [hkey,hmore,htruncated,← hnext]
        rfl
      | false =>
        rw [hmore,htruncated]
        cases (scrubObjects settings (nextScrubOptions settings state limit) turn).1.nextStartAfter with
        | none | some key => rfl
    rw [hstate,if_pos rfl]
    refine ⟨rfl,?_⟩
    have hread : ∀ cursor epoch,epochOf settings limit
        ⟨cursor,some (Nat.toDigits 10 (UInt64.toNat epoch))⟩=epoch := by
      intro cursor epoch
      unfold epochOf nextScrubOptions
      dsimp only [bind_some]
      rw [parseU64_toDigits,getD_some,UInt64.ofNat_toNat]
    exact hread _ _

variable {turns : List ScrubTurn}

theorem pass_iff_walk : Pass settings limit state turns ↔
    Walk (scrubTurn limit) (startOf settings limit state) turns := by
  constructor
  · intro h
    induction h with
    | last h =>
      rw [(after_call settings limit _ _).1] at h
      exact .last h
    | more h hrest ih =>
      rw [(after_call settings limit _ _).1] at h ih
      obtain ⟨key,hkey⟩ := ne_none_iff_exists'.mp h
      rw [hkey] at ih
      exact .more hkey ih
  · intro h
    generalize hstart : startOf settings limit state=start at h
    induction h generalizing state with
    | last h =>
      subst hstart
      refine .last ?_
      rw [(after_call settings limit _ _).1,h]
    | more h hrest ih =>
      subst hstart
      refine .more ?_ (ih ?_)
      · rw [(after_call settings limit _ _).1,h]
        exact some_ne_none _
      · rw [(after_call settings limit _ _).1,h]

theorem listedRows_eq (state : MaintenanceState) (turns : List ScrubTurn) :
    listedRows settings limit state turns=
      listed (scrubTurn limit) (startOf settings limit state) turns := by
  induction turns generalizing state with
  | nil => rfl
  | cons turn rest ih =>
    have hrest := ih (scrubWithDefaults settings limit state turn).2
    rw [(after_call settings limit _ _).1] at hrest
    rw [listedRows,hrest,listed_cons]
    rfl

theorem Pass.after (h : Pass settings limit state turns) :
    startOf settings limit (afterCalls settings limit state turns)=none ∧
      epochOf settings limit (afterCalls settings limit state turns)=
        epochOf settings limit state+1 := by
  induction h with
  | @last state turn h =>
    refine ⟨h,?_⟩
    have hepoch := (after_call settings limit state turn).2
    rwa [← (after_call settings limit state turn).1,if_pos h] at hepoch
  | @more state turn rest h hrest ih =>
    have hepoch := (after_call settings limit state turn).2
    rw [← (after_call settings limit state turn).1,if_neg h] at hepoch
    rwa [← hepoch]

theorem Pass.epoch_toNat (h : Pass settings limit state turns)
    (hepoch : (epochOf settings limit state).toNat+1<2^64) :
    (epochOf settings limit (afterCalls settings limit state turns)).toNat=
      (epochOf settings limit state).toNat+1 := by
  have hone : (1 : UInt64).toNat=1 := rfl
  rw [h.after.2,UInt64.toNat_add,hone]
  exact Nat.mod_eq_of_lt hepoch

theorem Pass.checked (h : Pass settings limit state turns) :
    (checkedRows settings limit state turns).map Prod.fst=(listedRows settings limit state turns).filter
      (inSlice settings settings.scrubSampleDenom (epochOf settings limit state)) := by
  have hcall : ∀ state turn,(scrubWithDefaults settings limit state turn).1.2.map Prod.fst=
      (scrubPage (nextScrubOptions settings state limit) turn).rows.filter
        (inSlice settings settings.scrubSampleDenom (epochOf settings limit state)) :=
    fun state turn => (scrubObjects_scrubbed settings (nextScrubOptions settings state limit)
      turn).checked
  induction h with
  | @last state turn h =>
    rw [checkedRows,listedRows,checkedRows,listedRows,append_nil,append_nil,hcall]
  | @more state turn rest h hrest ih =>
    have hepoch := (after_call settings limit state turn).2
    rw [← (after_call settings limit state turn).1,if_neg h] at hepoch
    rw [checkedRows,listedRows,map_append,hcall,ih,hepoch,filter_append]

end Progress

section Slices

variable {settings : ScrubSettings} {limit : ℕ} {table : ObjectTable Char}

theorem inSlice_iff {sampleDenom : UInt64} (hdenom : 1 ≤ sampleDenom.toNat) (epoch : UInt64)
    (row : KeyRow) : inSlice settings sampleDenom epoch row=true ↔
      ((settings.hash (utf8 (row.bucket++ '/'::row.key))).toNat+epoch.toNat)%sampleDenom.toNat=0 := by
  unfold inSlice scrubSampleSelectedIn
  dsimp only
  rw [max_eq_left hdenom]
  split
  · rename_i hone
    rw [hone,Nat.mod_one]
    exact iff_of_true rfl rfl
  · exact decide_eq_true_iff

theorem exists_slice {denom : ℕ} (hdenom : 1≤denom) (base : ℕ) : ∃ i<denom,(base+i)%denom=0 := by
  have hlt : base%denom<denom := Nat.mod_lt _ hdenom
  by_cases hzero : base%denom=0
  · exact ⟨0,hdenom,hzero⟩
  · refine ⟨denom-base%denom,by omega,?_⟩
    have hsum : base+(denom-base%denom)=denom*(base/denom)+denom := by
      have hdiv := Nat.div_add_mod base denom
      omega
    rw [hsum,Nat.add_mod_right,Nat.mul_mod_right]

theorem slice_unique {denom base i j : ℕ} (hi : (base+i)%denom=0) (hj : (base+j)%denom=0)
    (hlt : i<j) : denom≤j-i := by
  have hdvd : denom∣(base+j)-(base+i) :=
    Nat.dvd_sub (Nat.dvd_of_mod_eq_zero hj) (Nat.dvd_of_mod_eq_zero hi)
  have hsub : (base+j)-(base+i)=j-i := by omega
  rw [hsub] at hdvd
  exact Nat.le_of_dvd (by omega) hdvd

variable {state : MaintenanceState}

theorem Pass.listed_perm {turns : List ScrubTurn} (h : Pass settings limit state turns)
    (hreads : ∀ turn∈turns,turn.reads.Of table) (hstart : startOf settings limit state=none) :
    (listedRows settings limit state turns).Perm (activeObjects table) := by
  have hsees : ∀ turn∈turns,Sees KeyRow.key (activeObjects table) (scrubTurn limit turn) :=
    fun turn hturn => keyPageTurn_sees (wrapI64_lt _) (hreads turn hturn)
  have hperm := (pass_iff_walk.mp h).perm hsees (activeObjects_nodup table).of_map
  rw [hstart] at hperm
  rw [listedRows_eq,hstart]
  refine hperm.trans (List.Perm.of_eq (filter_eq_self.mpr fun row _ => ?_))
  exact decide_eq_true (behind_none row.key)

/-- Passes over an unchanging table check the active objects of their slices, each
once, as long as there are not more of them than slices. -/
theorem checkedOver_perm {passes : List (List ScrubTurn)} (h : Passes settings limit state passes)
    (hreads : ∀ turns∈passes,∀ turn∈turns,turn.reads.Of table)
    (hdenom : 1 ≤ settings.scrubSampleDenom.toNat)
    (hcount : passes.length ≤ settings.scrubSampleDenom.toNat)
    (hepoch : (epochOf settings limit state).toNat+passes.length<2^64)
    (hstart : startOf settings limit state=none) :
    ((checkedOver settings limit state passes).map Prod.fst).Perm ((activeObjects table).filter fun row =>
      decide (∃ i<passes.length,((settings.hash (utf8 (row.bucket++ '/'::row.key))).toNat+
        (epochOf settings limit state).toNat+i)%settings.scrubSampleDenom.toNat=0)) := by
  have hall : (activeObjects table).Nodup := (activeObjects_nodup table).of_map
  induction passes generalizing state with
  | nil =>
    rw [checkedOver]
    refine List.Perm.of_eq (filter_eq_nil_iff.mpr fun row _ => ?_).symm
    simp
  | cons turns passes ih =>
    rw [length_cons] at hcount hepoch
    obtain ⟨hpass,hrest⟩ := h
    have hagain := hpass.after.1
    have hmoved := hpass.epoch_toNat (by omega)
    have hfirst : ((checkedRows settings limit state turns).map Prod.fst).Perm ((activeObjects table).filter
        (inSlice settings settings.scrubSampleDenom (epochOf settings limit state))) := by
      rw [hpass.checked]
      exact (hpass.listed_perm (hreads turns mem_cons_self) hstart).filter _
    have hlater := ih hrest (fun turns' hturns' => hreads turns' (mem_cons_of_mem _ hturns'))
      (by omega) (by rw [hmoved]; omega) hagain
    rw [checkedOver,map_append]
    refine (hfirst.append hlater).trans ?_
    refine (perm_ext_iff_of_nodup ?_ (hall.filter _)).mpr fun row => ?_
    · refine nodup_append.mpr ⟨hall.filter _,hall.filter _,?_⟩
      rintro row hrow _ hrow' rfl
      have hslice := (inSlice_iff hdenom _ _).mp (mem_filter.mp hrow).2
      obtain ⟨i,hi,hslice'⟩ := of_decide_eq_true (mem_filter.mp hrow').2
      rw [hmoved,Nat.add_assoc,Nat.add_assoc,← Nat.add_assoc] at hslice'
      have hgap := slice_unique (i := 0) hslice hslice' (by omega)
      omega
    · rw [mem_append,mem_filter,mem_filter,mem_filter,inSlice_iff hdenom,
        decide_eq_true_iff,decide_eq_true_iff,length_cons,hmoved]
      constructor
      · rintro (⟨hrow,hslice⟩ | ⟨hrow,i,hi,hslice⟩)
        · exact ⟨hrow,0,Nat.succ_pos _,hslice⟩
        · refine ⟨hrow,i+1,by omega,?_⟩
          rw [← hslice]
          congr 1
          omega
      · rintro ⟨hrow,i,hi,hslice⟩
        cases i with
        | zero => exact Or.inl ⟨hrow,hslice⟩
        | succ i =>
          refine Or.inr ⟨hrow,i,by omega,?_⟩
          rw [← hslice]
          congr 1
          omega

theorem Passes.after_append {earlier later : List (List ScrubTurn)}
    (h : Passes settings limit state (earlier++later)) (hstart : startOf settings limit state=none)
    (hepoch : (epochOf settings limit state).toNat+earlier.length<2^64) :
    Passes settings limit (earlier.foldl (afterCalls settings limit) state) later ∧
      startOf settings limit (earlier.foldl (afterCalls settings limit) state)=none ∧
      (epochOf settings limit (earlier.foldl (afterCalls settings limit) state)).toNat=
        (epochOf settings limit state).toNat+earlier.length := by
  induction earlier generalizing state with
  | nil => exact ⟨h,hstart,rfl⟩
  | cons turns earlier ih =>
    rw [length_cons] at hepoch
    obtain ⟨hpass,hrest⟩ := h
    have hagain := hpass.after.1
    have hmoved := hpass.epoch_toNat (by omega)
    obtain ⟨hpasses,hstart',hepoch'⟩ := ih hrest hagain (by rw [hmoved]; omega)
    refine ⟨hpasses,hstart',?_⟩
    rw [foldl_cons,hepoch',hmoved,length_cons]
    omega

/-- An object that is active at every query of some calls. -/
def ActiveThroughout (turns : List ScrubTurn) (bucket key : Text) : Prop :=
  ∀ turn∈turns,∀ view∈[turn.reads.page,turn.reads.run,turn.reads.rest],
    ∃ row∈activeObjects view.table,row.bucket=bucket ∧ row.key=key

theorem Pass.lists {turns : List ScrubTurn} (h : Pass settings limit state turns)
    (hstart : startOf settings limit state=none) {bucket key : Text}
    (hactive : ActiveThroughout turns bucket key) :
    ∃ row∈listedRows settings limit state turns,row.bucket=bucket ∧ row.key=key := by
  have hseen : ∀ turn∈turns,∀ view∈[turn.reads.page,turn.reads.run,turn.reads.rest],
      ∃ row∈view.rows,row.bucket=bucket ∧ row.key=key := by
    intro turn hturn view hview
    obtain ⟨row,hrow,hnames⟩ := hactive turn hturn view hview
    exact ⟨row,(TableView.mem_rows rfl).mpr hrow,hnames⟩
  have hlists : ∀ turn∈turns,∀ cursor,Behind cursor key →
      (∃ row∈(scrubTurn limit turn cursor).rows,row.bucket=bucket ∧ row.key=key) ∨
        ∃ next∈(scrubTurn limit turn cursor).next,next<key := by
    intro turn hturn cursor hbehind
    have hpage : Turn turn.reads cursor (scrubTurn limit turn cursor) :=
      keyPageTurn_turn (wrapI64_lt _)
    exact hpage.lists (hseen turn hturn _ (by simp)) (hseen turn hturn _ (by simp))
      (hseen turn hturn _ (by simp)) hbehind
  rw [listedRows_eq]
  refine (pass_iff_walk.mp h).lists hlists ?_
  rw [hstart]
  exact behind_none key

/-- Calls of the scrub on an unchanging table complete a pass, every pass lists each
active object once, and as many consecutive passes as the denominator says check each
active object once; what a call checks gets the verdict of the check, or after a finding
that of a second one, and is reported by it. On a changing table a pass lists every object that is active
throughout it. -/
theorem scrub_passes (settings : ScrubSettings) (limit : ℕ) (state : MaintenanceState)
    (hdenom : 1 ≤ settings.scrubSampleDenom.toNat) (hstart : startOf settings limit state=none) :
    (∀ table, (∀ feed : ℕ→ScrubTurn,(∀ n,(feed n).reads.Of table) →
        ∃ n,Pass settings limit state ((List.range n).map feed)) ∧
      (∀ turns,(∀ turn∈turns,turn.reads.Of table)→Pass settings limit state turns →
        (listedRows settings limit state turns).Perm (activeObjects table)) ∧
      (∀ earlier passes,(∀ turns∈earlier++passes,∀ turn∈turns,turn.reads.Of table) →
        Passes settings limit state (earlier++passes) →
        passes.length=settings.scrubSampleDenom.toNat →
        (epochOf settings limit state).toNat+earlier.length+passes.length<2^64 →
        ((checkedOver settings limit (earlier.foldl (afterCalls settings limit) state)
          passes).map Prod.fst).Perm (activeObjects table))) ∧
    (∀ state turn,Tallied turn (scrubWithDefaults settings limit state turn).1) ∧
    (∀ turns,Pass settings limit state turns→∀ bucket key,ActiveThroughout turns bucket key →
      ∃ row∈listedRows settings limit state turns,row.bucket=bucket ∧ row.key=key) := by
  refine ⟨fun table => ⟨fun feed hfeed => ?_,fun turns hreads hpass => ?_,
    fun earlier passes hreads hpasses hcount hwindow => ?_⟩,
    fun state turn => scrubObjects_tallied settings (nextScrubOptions settings state limit) turn,
    fun turns hpass bucket key hactive => ?_⟩
  · have hsees : ∀ n,Sees KeyRow.key (activeObjects table) (scrubTurn limit (feed n)) :=
      fun n => keyPageTurn_sees (wrapI64_lt _) (hfeed n)
    obtain ⟨n,hwalk⟩ := exists_walk feed hsees (startOf settings limit state)
    exact ⟨n,pass_iff_walk.mpr hwalk⟩
  · exact hpass.listed_perm hreads hstart
  · obtain ⟨hlater,hagain,hmoved⟩ := hpasses.after_append hstart (by omega)
    refine (checkedOver_perm hlater (fun turns hturns => hreads turns
      (mem_append_right _ hturns)) hdenom (by omega) (by omega) hagain).trans ?_
    refine List.Perm.of_eq (filter_eq_self.mpr fun row _ => decide_eq_true ?_)
    rw [hcount]
    exact exists_slice hdenom _
  · exact hpass.lists hstart hactive

end Slices

section Samples

/-- Settings that check every second object. -/
def sampleSettings : ScrubSettings := ⟨fun bytes => (bytes.getLastD 0/2).toUInt64,true,2⟩

/-- A call that sees the bucket, in which the blob of the second key is corrupt. -/
def sampleTurn : ScrubTurn :=
  ⟨⟨sampleView,sampleView,sampleView⟩,fun row => if row.key=['c'] then .corrupt else .healthy,
    fun _ => .corrupt⟩

/-- Two passes of two calls. -/
def samplePasses : List (List ScrubTurn) :=
  [[sampleTurn,sampleTurn],[sampleTurn,sampleTurn]]

/-- From an empty maintenance state, with pages of one object, two passes over a bucket
of two keys check both of them, and report the corrupt one. -/
theorem sample_passes_check_all :
    Passes sampleSettings 1 ⟨none,none⟩ samplePasses ∧
      ((checkedOver sampleSettings 1 ⟨none,none⟩ samplePasses).map Prod.fst).Perm
        (activeObjects sampleView.table) ∧
      (checkedOver sampleSettings 1 ⟨none,none⟩ samplePasses).map
        (fun entry => (entry.1.key,entry.2))=[(['a'],.healthy),(['c'],.corrupt)] := by
  have hpasses : Passes sampleSettings 1 ⟨none,none⟩ samplePasses :=
    ⟨.more (by decide +kernel) (.last (by decide +kernel)),
      .more (by decide +kernel) (.last (by decide +kernel)),trivial⟩
  refine ⟨hpasses,?_,by decide +kernel⟩
  refine ((scrub_passes sampleSettings 1 ⟨none,none⟩ (by decide) rfl).1 sampleView.table).2.2 []
    samplePasses (fun turns hturns turn hturn => ?_) hpasses rfl (by decide)
  rcases mem_pair.mp hturns with rfl | rfl <;> rcases mem_pair.mp hturn with rfl | rfl <;>
    exact ⟨rfl,rfl,rfl⟩

end Samples

end NebularOs.ScrubPasses
