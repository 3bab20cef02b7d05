import Mathlib
import NebularOs.FallibleSteps
import NebularOs.Multipart

/-!
# Completed multipart uploads

A completion that succeeds committed the selected parts one after another, each with
the complete body of one upload of that part. The uploads, aborts and completions may
interleave in any way: a part's file only ever holds a complete body, and what was
read of it is compared with the row that the listing showed.
-/

namespace NebularOs.Multipart

open BlobFilenames RequestPrograms TaskPools TaskHistories FallibleSteps Program List Function

/-- Which recorded parts form the object. -/
structure Selection (recorded : List PartRow) (requested : Option (List CompletedPart))
    (selected : List PartRow) : Prop where
  /-- Only recorded parts are selected. -/
  among : ∀ row∈selected,row∈recorded
  /-- Part numbers grow. -/
  ascending : selected.Pairwise fun first second => first.partNumber<second.partNumber
  /-- Part numbers are positive. -/
  positive : ∀ row∈selected,1 ≤ row.partNumber
  /-- There is a part. -/
  nonempty : selected≠[]
  /-- Without a list, all recorded parts are selected and numbered without gaps. -/
  all : requested=none→selected=recorded ∧
    recorded.map PartRow.partNumber=(List.range recorded.length).map fun i : ℕ => 1+(i : ℤ)
  /-- With a list, the parts of the list are selected, and every hash the list gives
  is the recorded one. -/
  listed : ∀ list,requested=some list → List.Forall₂ (fun part row =>
    row.partNumber=part.partNumber ∧ ∀ etag,part.etag=some etag→trimQuotes etag=row.etag)
      list selected

theorem checkNumbers_eq_ok {expected : ℤ} {rows : List PartRow} (h : checkNumbers expected rows=.ok ()) :
    rows.map PartRow.partNumber=(List.range rows.length).map fun i : ℕ => expected+(i : ℤ) := by
  induction rows generalizing expected with
  | nil => rfl
  | cons row rows ih =>
    obtain ⟨hnumber,hrest⟩ := ite_error_eq_ok.mp h
    have hrows := ih hrest
    have hshift : ∀ i : ℕ,expected+1+(i : ℤ)=expected+((i+1 : ℕ) : ℤ) := by
      intro i
      push_cast
      ring
    rw [map_cons,length_cons,range_succ_eq_map,map_cons,map_map,hrows]
    simp only [not_not.mp hnumber,Nat.cast_zero,add_zero,hshift]
    rfl

theorem ascending_of_numbers {rows : List PartRow} {expected : ℤ}
    (h : rows.map PartRow.partNumber=(List.range rows.length).map fun i : ℕ => expected+(i : ℤ)) :
    rows.Pairwise (fun first second => first.partNumber<second.partNumber) ∧
      ∀ row∈rows,expected ≤ row.partNumber := by
  constructor
  · have hrange : ((List.range rows.length).map fun i : ℕ => expected+(i : ℤ)).Pairwise (· < ·) := by
      refine pairwise_map.mpr (List.Pairwise.imp (fun hlt => ?_) pairwise_lt_range)
      omega
    rw [← h] at hrange
    exact pairwise_map.mp hrange
  · intro row hrow
    have hmem : row.partNumber∈rows.map PartRow.partNumber := mem_map_of_mem hrow
    rw [h] at hmem
    obtain ⟨i,_,hi⟩ := mem_map.mp hmem
    omega

/-- The parts that a client's list names. -/
theorem pickParts_eq_ok {recorded : List PartRow} {previous : ℤ} {list : List CompletedPart}
    {selected : List PartRow} (h : pickParts recorded previous list=.ok selected) :
    (∀ row∈selected,row∈recorded) ∧
      selected.Pairwise (fun first second => first.partNumber<second.partNumber) ∧
      (∀ row∈selected,previous < row.partNumber) ∧
      List.Forall₂ (fun part row => row.partNumber=part.partNumber ∧
        ∀ etag,part.etag=some etag→trimQuotes etag=row.etag) list selected := by
  induction list generalizing previous selected with
  | nil =>
    cases h
    simp
  | cons part parts ih =>
    rw [pickParts] at h
    obtain ⟨hprevious,h⟩ := ite_error_eq_ok.mp h
    cases hfind : recorded.find? fun row => row.partNumber==part.partNumber with
    | none =>
      rw [hfind] at h
      cases h
    | some found =>
      rw [hfind] at h
      obtain ⟨hetag,h⟩ := ite_error_eq_ok.mp h
      have hnumber : found.partNumber=part.partNumber := by
        simpa using List.find?_some hfind
      cases hrest : pickParts recorded part.partNumber parts with
      | error e =>
        rw [hrest] at h
        cases h
      | ok rest =>
        rw [hrest] at h
        cases h
        obtain ⟨hrecorded,hascending,hgreater,hlisted⟩ := ih hrest
        have hgiven : ∀ etag,part.etag=some etag→trimQuotes etag=found.etag := by
          intro etag hpart
          by_contra hne
          refine hetag ?_
          rwa [hpart,Option.any_some,bne_iff_ne]
        refine ⟨?_,?_,?_,.cons ⟨hnumber,hgiven⟩ hlisted⟩
        · exact forall_mem_cons.mpr ⟨mem_of_find?_eq_some hfind,hrecorded⟩
        · refine pairwise_cons.mpr ⟨fun row hrow => ?_,hascending⟩
          rw [hnumber]
          exact hgreater row hrow
        · refine forall_mem_cons.mpr ⟨by omega,fun row hrow => ?_⟩
          have hrow' := hgreater row hrow
          omega

theorem selectParts_eq_ok {recorded : List PartRow} {requested : Option (List CompletedPart)}
    {selected : List PartRow} (h : selectParts recorded requested=.ok selected) :
    Selection recorded requested selected := by
  cases requested with
  | none =>
    obtain ⟨hempty,h⟩ := ite_error_eq_ok.mp h
    cases hcheck : checkNumbers 1 recorded with
    | error e =>
      rw [hcheck] at h
      cases h
    | ok value =>
      rw [hcheck] at h
      cases h
      have hnumbers := checkNumbers_eq_ok hcheck
      obtain ⟨hascending,hpositive⟩ := ascending_of_numbers hnumbers
      exact
        { among := fun _ hrow => hrow
          ascending := hascending
          positive := hpositive
          nonempty := by simpa using hempty
          all := fun _ => ⟨rfl,hnumbers⟩
          listed := fun _ hlist => by cases hlist }
  | some list =>
    cases list with
    | nil => cases h
    | cons part parts =>
      obtain ⟨hrecorded,hascending,hgreater,hlisted⟩ := pickParts_eq_ok h
      exact
        { among := hrecorded
          ascending := hascending
          positive := fun row hrow => hgreater row hrow
          nonempty := by
            rintro rfl
            cases hlisted
          all := fun hnone => by cases hnone
          listed := fun _ hlist => Option.some.inj hlist ▸ hlisted }

theorem ofDigitChars_leftpad (digits : Text) (n : ℕ) :
    Nat.ofDigitChars 10 (digits.leftpad n '0') 0=Nat.ofDigitChars 10 digits 0 := by
  have hzeros : ∀ k,(List.replicate k '0').foldl
      (fun sofar c => 10*sofar+(c.toNat- '0'.toNat)) 0=0 := by
    intro k
    induction k with
    | zero => rfl
    | succ k ih => simpa [replicate_succ] using ih
  simp only [Nat.ofDigitChars,List.leftpad,foldl_append,hzeros]

theorem partName_inj {first second : ℤ} (hfirst : 1≤first) (hsecond : 1 ≤ second)
    (h : partName first=partName second) : first=second := by
  obtain ⟨m,rfl⟩ := Int.eq_ofNat_of_zero_le (show 0≤first by omega)
  obtain ⟨n,rfl⟩ := Int.eq_ofNat_of_zero_le (show 0 ≤ second by omega)
  have hdigits : (Nat.toDigits 10 m).leftpad 5 '0'=(Nat.toDigits 10 n).leftpad 5 '0' := h
  have hvalue := congrArg (fun text => Nat.ofDigitChars 10 text 0) hdigits
  simp only [ofDigitChars_leftpad] at hvalue
  rw [Nat.ofDigitChars_toDigits (by omega) (by omega),
    Nat.ofDigitChars_toDigits (by omega) (by omega)] at hvalue
  rw [hvalue]

section Runs

variable {T : Type} [DecidableEq T]

/-- What happened in a run. -/
inductive Event (T : Type)
  /-- A part file got a new body. -/
  | published (name : Text) (body : Bytes)
  /-- A task listed the rows of the parts. -/
  | listed (t : T) (rows : List PartRow)
  /-- A task committed, which left this object. -/
  | committed (t : T) (object : Option (Bytes×Committed))

/-- What a request adds to the history, told from the states before and after it. -/
def note (t : T) : (a : Action) → Answer a→World T→World T → List (Event T) → List (Event T)
  | .publish name,.ok _,before,_,history => .published name ((before.partials t).getD [])::history
  | .listParts,.ok rows,_,_,history => .listed t rows::history
  | .commitUpload _,.ok _,_,after,history => .committed t after.object::history
  | _,_,_,_,history => history

/-- The history of an upload. -/
def recorder (T : Type) : Recorder Action Answer T (World T) (List (Event T)) where
  request t a answer before after history := note t a answer before after history
  environment _ _ history := history
  crash history := history

/-- What clients may ask for. -/
inductive Request
  /-- Upload of a part. -/
  | upload (partNumber : ℤ) (body : Reading)
  /-- Completion, with or without a part list. -/
  | complete (requested : Option (List CompletedPart)) (customMeta : Option Text)
  /-- Abort. -/
  | abort

/-- What a request ends with. -/
inductive Outcome
  | uploaded (result : Except Failure Text)
  | completed (requested : Option (List CompletedPart)) (result : Except Failure Committed)
  | aborted (result : Except Failure Unit)
  deriving DecidableEq

/-- Program of a request. -/
def Request.program (settings : Settings) : Request→Prog Outcome
  | .upload partNumber body =>
    (uploadPart settings partNumber body).bind fun result => .done (.uploaded result)
  | .complete requested customMeta =>
    (completeMultipart settings requested customMeta).bind fun result =>
      .done (.completed requested result)
  | .abort => abortMultipart.bind fun result => .done (.aborted result)

/-- Any requests of a set may start at any time. -/
def rules (T : Type) (settings : Settings) (requests : Request→Prop) :
    Rules Action Answer (World T) Outcome where
  starts _ program := ∃ request,requests request ∧ program=request.program settings
  environment _ _ := False
  crash _ _ := False

/-- The body was sent completely as a part with this number. -/
def Uploaded (requests : Request→Prop) (partNumber : ℤ) (body : Bytes) : Prop :=
  ∃ reading : Reading,requests (.upload partNumber reading) ∧ reading.complete=true ∧
    reading.bytes=body

/-- A part file holds a complete body that was uploaded for its number. -/
def FilesComplete (requests : Request→Prop) (files : Text→Option Bytes)
    (history : List (Event T)) : Prop :=
  ∀ n body,1≤n→files (partName n)=some body →
    Uploaded requests n body ∧ .published (partName n) body∈history

/-- A task's scratch file holds some bytes, unless it was removed. -/
def Scratch (t : T) (world : World T) (bytes : Bytes) : Prop :=
  world.partials t=some bytes ∨ world.partials t=none

/-- Tasks rely on their own files, of which only the scratch file may disappear, and
on the past. -/
def discipline (T : Type) (requests : Request→Prop) :
    Discipline Action (World T×List (Event T)) Unit T where
  inv s _ := FilesComplete requests s.1.files s.2
  rely t s _ s' _ := s'.1.temps t=s.1.temps t ∧
    (s'.1.partials t=s.1.partials t ∨ s'.1.partials t=none) ∧ ∀ event∈s.2,event∈s'.2
  good _ _ _ := True
  rely_refl _ _ _ := ⟨rfl,Or.inl rfl,fun _ h => h⟩
  rely_trans := by
    rintro t s _ s' _ s'' _ ⟨htemps,hpartials,hpast⟩ ⟨htemps',hpartials',hpast'⟩
    refine ⟨htemps'.trans htemps,?_,fun event hevent => hpast' event (hpast event hevent)⟩
    rcases hpartials' with h | h
    · rwa [h]
    · exact Or.inr h

variable {choice : Choice T} {world' : World T}

omit [DecidableEq T] in
theorem attempted_eq_some {α : Type} {value : α} {after : World T} {broken : Bytes→World T}
    {answer : Except Failure α} (h : attempted choice (value,after) broken=some (answer,world')) :
    (answer=.ok value ∧ world'=after) ∨
      ∃ error written,answer=.error error ∧ world'=broken written := by
  cases choice with
  | work =>
    cases h
    exact Or.inl ⟨rfl,rfl⟩
  | fail error written =>
    cases h
    exact Or.inr ⟨error,written,rfl,rfl⟩
  | read reading | sweep file scratch => cases h

variable {world : World T} {name : Text}

theorem publish_eq_some {t : T} {answer : Answer (.publish name)}
    (h : exec t (.publish name) choice world=some (answer,world')) :
    (∃ body,world.partials t=some body ∧ answer=.ok () ∧ world'={world with
        files := update world.files name (some body)
        partials := update world.partials t none}) ∨
      (∃ error,answer=.error error) ∧ world'=world := by
  cases hcurrent : world.partials t with
  | none =>
    simp only [exec,hcurrent] at h
    cases h
    exact Or.inr ⟨⟨.internal,rfl⟩,rfl⟩
  | some body =>
    simp only [exec,hcurrent] at h
    rcases attempted_eq_some h with ⟨rfl,rfl⟩ | ⟨error,_,rfl,rfl⟩
    · exact Or.inl ⟨body,rfl,rfl,rfl⟩
    · exact Or.inr ⟨⟨error,rfl⟩,rfl⟩

theorem openPart_eq_some {t : T} {answer : Answer (.openPart name)}
    (h : exec t (.openPart name) choice world=some (answer,world')) :
    world'=world ∧ ∀ reading,answer=.ok reading → reading.complete=true →
      world.files name=some reading.bytes := by
  simp only [exec] at h
  cases choice with
  | work | sweep file scratch => cases hfile : world.files name <;> simp [hfile] at h
  | fail error written =>
    have hanswer : answer=.error error ∧ world'=world := by
      cases hfile : world.files name <;> simp [hfile] at h <;> simp [h]
    refine ⟨hanswer.2,fun reading hok => ?_⟩
    rw [hanswer.1] at hok
    cases hok
  | read reading =>
    cases hfile : world.files name with
    | none => simp [hfile] at h
    | some content =>
      simp only [hfile] at h
      split_ifs at h with hread
      cases h
      refine ⟨rfl,fun reading' hok hcomplete => ?_⟩
      cases hok
      have hequal := (Bool.and_eq_true_iff.mp hread).2
      rw [hcomplete,Bool.not_true,Bool.false_or,beq_iff_eq] at hequal
      rw [hequal]

variable {a : Action} {answer : Answer a}

theorem exec_others {t u : T} (h : exec t a choice world=some (answer,world')) (hne : u≠t) :
    world'.temps u=world.temps u ∧
      (world'.partials u=world.partials u ∨ world'.partials u=none) := by
  cases a with
  | publish name =>
    rcases publish_eq_some h with ⟨body,_,_,rfl⟩ | ⟨_,rfl⟩
    · simp [hne]
    · simp
  | openPart name =>
    rw [(openPart_eq_some h).1]
    simp
  | dropPartial | dropTemp =>
    cases h
    simp [hne]
  | removeDir =>
    cases choice <;> cases h
    rename_i file scratch
    by_cases hkept : scratch u=true
    · simp [hkept]
    · simp [hkept]
  | _ =>
    rcases attempted_eq_some h with ⟨_,rfl⟩ | ⟨_,_,_,rfl⟩
    · simp [World.appendPartial,World.appendTemp,hne]
    · simp [World.appendPartial,World.appendTemp,hne]

theorem exec_files {t : T} (h : exec t a choice world=some (answer,world'))
    (hquiet : ∀ name,a≠.publish name) {body : Bytes} (hbody : world'.files name=some body) :
    world.files name=some body := by
  cases a with
  | publish name' => exact absurd rfl (hquiet name')
  | openPart name' =>
    rwa [(openPart_eq_some h).1] at hbody
  | dropPartial | dropTemp =>
    cases h
    exact hbody
  | removeDir =>
    cases choice <;> cases h
    rename_i file scratch
    by_cases hkept : file name=true
    · simpa [hkept] using hbody
    · simp [hkept] at hbody
  | _ =>
    rcases attempted_eq_some h with ⟨_,rfl⟩ | ⟨_,_,_,rfl⟩
    · exact hbody
    · exact hbody

omit [DecidableEq T] in
theorem mem_note {t : T} {history : List (Event T)} {event : Event T} (h : event∈history) :
    event∈note t a answer world world' history := by
  unfold note
  split
  · exact mem_cons_of_mem _ h
  · exact mem_cons_of_mem _ h
  · exact mem_cons_of_mem _ h
  · exact h

variable {requests : Request→Prop} {settings : Settings} {t : T}

/-- Safety of a program in runs with a history. -/
abbrev Safe (requests : Request→Prop) (t : T) {α : Type} (program : Prog α)
    (post : α→World T×List (Event T)→Prop) (known : World T×List (Event T)) : Prop :=
  safe (recorded (machine T) (recorder T)) (discipline T requests) t program
    (fun value s _ => post value s) known ()

/-- A condition on results that are no failure. -/
def OnOk {α σ : Type} (post : α→σ→Prop) : Except Failure α→σ→Prop
  | .ok value,s => post value s
  | .error _,_ => True

variable {known : World T×List (Event T)}

theorem safe_op {post : Answer a→World T×List (Event T)→Prop} (hquiet : ∀ name,a≠.publish name)
    (h : ∀ s choice answer s',FilesComplete requests s.1.files s.2 →
      (discipline T requests).rely t known () s ()→exec t a choice s.1=some (answer,s'.1) →
        s'.2=note t a answer s.1 s'.1 s.2→post answer s') : Safe requests t (op a) post known := by
  intro s _ hinv hrely
  refine ⟨trivial,fun choice answer s' hrecorded => ?_⟩
  obtain ⟨hexec,hnote⟩ := recorded_exec_eq_some.mp hrecorded
  have hpast : ∀ event∈s.2,event∈s'.2 := fun event hevent => hnote ▸ mem_note hevent
  refine ⟨(),⟨fun n body hn hbody => ?_,fun u hne => ?_⟩,h s choice answer s' hinv hrely hexec hnote⟩
  · obtain ⟨huploaded,hevent⟩ := hinv n body hn (exec_files hexec hquiet hbody)
    exact ⟨huploaded,hpast _ hevent⟩
  · obtain ⟨htemps,hpartials⟩ := exec_others hexec hne
    exact ⟨htemps,hpartials,hpast⟩

omit [DecidableEq T] in
/-- A step of a task forgets nothing that was noted before. -/
theorem past_of_step {s s' : World T×List (Event T)} (hrely : (discipline T requests).rely t known () s ())
    (hnote : s'.2=note t a answer s.1 s'.1 s.2) : ∀ event∈known.2,event∈s'.2 :=
  fun event hevent => hnote ▸ mem_note (hrely.2.2 event hevent)

theorem safe_onOk {α : Type} {program : Prog (Except Failure α)}
    {post post' : α→World T×List (Event T)→Prop} (h : Safe requests t program (OnOk post) known)
    (himp : ∀ value s,post value s→post' value s) : Safe requests t program (OnOk post') known := by
  refine safe_mono h fun result s _ hresult => ?_
  cases result with
  | error e => trivial
  | ok value => exact himp value s hresult

theorem safe_attempt {α β : Type} {first : Prog (Except Failure α)}
    {next : α→Prog (Except Failure β)} {post : β→World T×List (Event T)→Prop}
    (h : Safe requests t first (OnOk fun value s => Safe requests t (next value) (OnOk post) s) known) :
    Safe requests t (attempt first next) (OnOk post) known := by
  refine safe_bind (safe_mono h fun result s _ hresult => ?_)
  cases result with
  | error e => trivial
  | ok value => exact hresult

theorem safe_op_any (hquiet : ∀ name,a≠.publish name) :
    Safe requests t (op a) (OnOk fun _ _ => True) known := by
  refine safe_op hquiet fun _ _ answer _ _ _ _ _ => ?_
  cases answer with
  | error e | ok value => trivial

omit [DecidableEq T] in
theorem Scratch.lasts {s s' : World T×List (Event T)} {bytes : Bytes} (h : Scratch t s.1 bytes)
    (hrely : (discipline T requests).rely t s () s' ()) : Scratch t s'.1 bytes := by
  rcases hrely.2.1 with hsame | hnone
  · rwa [Scratch,hsame]
  · exact Or.inr hnone

theorem safe_receivePart {chunks : List Bytes} {hashed : Bytes} {size : ℕ}
    (hsize : size=hashed.length) (h : Scratch t known.1 hashed) :
    Safe requests t (receivePart settings chunks hashed size)
      (OnOk fun received s => received.1=hashed++chunks.flatten ∧
        received.2=received.1.length ∧ Scratch t s.1 received.1) known := by
  induction chunks generalizing hashed size known with
  | nil => exact ⟨by simp,hsize,h⟩
  | cons chunk chunks ih =>
    rw [receivePart]
    split_ifs
    · trivial
    refine safe_attempt (safe_op (by simp) fun s choice answer s' _ hrely hexec _ => ?_)
    rcases attempted_eq_some hexec with ⟨rfl,hs'⟩ | ⟨_,_,rfl,_⟩
    · have hscratch : Scratch t s'.1 (hashed++chunk) := by
        rw [hs',Scratch,World.appendPartial_partials_self]
        rcases h.lasts hrely with hsome | hnone
        · exact Or.inl (by rw [hsome,Option.map_some])
        · exact Or.inr (by rw [hnone,Option.map_none])
      have hlength : size+chunk.length=(hashed++chunk).length := by
        rw [length_append,hsize]
      have hrest := @ih s' (hashed++chunk) (size+chunk.length) hlength hscratch
      rwa [append_assoc,← flatten_cons] at hrest
    · trivial

variable {n : ℤ}

/-- A published part is a complete uploaded body. -/
theorem safe_publish {body : Bytes} (hn : 1≤n) (hbody : Uploaded requests n body)
    (h : Scratch t known.1 body) :
    Safe requests t (op (.publish (partName n))) (OnOk fun _ _ => True) known := by
  intro s _ hinv hrely
  refine ⟨trivial,fun choice answer s' hrecorded => ?_⟩
  obtain ⟨hstep,hnote⟩ := recorded_exec_eq_some.mp hrecorded
  have hexec : exec t (.publish (partName n)) choice s.1=some (answer,s'.1) := hstep
  have hpast : ∀ event∈s.2,event∈s'.2 := fun event hevent => hnote ▸ mem_note hevent
  refine ⟨(),⟨fun m content hm hcontent => ?_,fun u hne => ?_⟩,?_⟩
  · rcases publish_eq_some hexec with ⟨moved,hmoved,hanswer,hs'⟩ | ⟨_,hs'⟩
    · have hmoved' : moved=body := by
        rcases h.lasts hrely with hsome | hnone
        · exact Option.some.inj (hmoved.symm.trans hsome)
        · rw [hmoved] at hnone
          cases hnone
      subst hmoved'
      rw [hs'] at hcontent
      by_cases hname : partName m=partName n
      · obtain rfl := partName_inj hm hn hname
        simp only [update_self] at hcontent
        cases hcontent
        refine ⟨hbody,?_⟩
        rw [hnote,hanswer]
        exact mem_cons.mpr (Or.inl (by rw [hmoved,Option.getD_some]))
      · simp only [update_of_ne hname] at hcontent
        obtain ⟨huploaded,hevent⟩ := hinv m content hm hcontent
        exact ⟨huploaded,hpast _ hevent⟩
    · rw [hs'] at hcontent
      obtain ⟨huploaded,hevent⟩ := hinv m content hm hcontent
      exact ⟨huploaded,hpast _ hevent⟩
  · obtain ⟨htemps,hpartials⟩ := exec_others hexec hne
    exact ⟨htemps,hpartials,hpast⟩
  · cases answer with
    | error e | ok value => trivial

theorem safe_storePart {body : Reading} (hn : 1≤n) (hbody : requests (.upload n body)) :
    Safe requests t (storePart settings n body) (OnOk fun _ _ => True) known := by
  refine safe_attempt (safe_op (by simp) fun s choice answer s' _ _ hexec _ => ?_)
  rcases attempted_eq_some hexec with ⟨rfl,hs'⟩ | ⟨_,_,rfl,_⟩
  · have hscratch : Scratch t s'.1 [] := Or.inl (by simp [hs'])
    refine safe_attempt (safe_onOk (safe_receivePart rfl hscratch) fun received s hresult => ?_)
    obtain ⟨hreceived,hsize,hscratch'⟩ := hresult
    split_ifs with hcomplete
    · have huploaded : Uploaded requests n received.1 :=
        ⟨body,hbody,hcomplete,by rw [hreceived,nil_append,Reading.bytes]⟩
      refine safe_attempt (safe_op (by simp) fun s choice answer s' _ hrely hexec _ => ?_)
      rcases attempted_eq_some hexec with ⟨rfl,hs'⟩ | ⟨_,_,rfl,_⟩
      · have hscratch'' : Scratch t s'.1 received.1 := by
          rw [hs']
          exact hscratch'.lasts hrely
        refine safe_attempt (safe_onOk (safe_publish hn huploaded hscratch'') fun _ s _ => ?_)
        exact safe_attempt (safe_onOk (safe_op_any (by simp)) fun _ _ _ => trivial)
      · trivial
    · trivial
  · trivial

theorem safe_ensureMultipartSession :
    Safe requests t ensureMultipartSession (OnOk fun _ _ => True) known := by
  refine safe_attempt (safe_onOk (safe_op_any (by simp)) fun session s _ => ?_)
  cases session with
  | none | some contentType => trivial

theorem safe_uploadPart {body : Reading} (hbody : requests (.upload n body)) :
    Safe requests t (uploadPart settings n body) (OnOk fun _ _ => True) known := by
  rw [uploadPart]
  split_ifs with hn
  · trivial
  refine safe_attempt (safe_onOk safe_ensureMultipartSession fun _ s _ => ?_)
  refine safe_bind (safe_mono (safe_storePart (by omega) hbody) fun result s _ _ => ?_)
  refine safe_bind (safe_mono (safe_op_any (by simp)) fun _ _ _ _ => ?_)
  cases result with
  | error e | ok etag => trivial

theorem safe_cleanupMultipart {past : List (Event T)} {known : World T×List (Event T)}
    (hpast : ∀ event∈past,event∈known.2) :
    Safe requests t cleanupMultipart (OnOk fun _ s => ∀ event∈past,event∈s.2) known := by
  have hop : ∀ {a : Action} {known : World T×List (Event T)},(∀ name,a≠.publish name) →
      (∀ event∈past,event∈known.2) →
        Safe requests t (op a) (fun _ s => ∀ event∈past,event∈s.2) known := by
    intro a known hquiet hknown
    exact safe_op hquiet fun s choice answer s' _ hrely _ hnote event hevent =>
      past_of_step hrely hnote event (hknown event hevent)
  refine safe_attempt (safe_mono (hop (by simp) hpast) fun result s _ hresult => ?_)
  cases result with
  | error e => trivial
  | ok value =>
    refine safe_attempt (safe_mono (hop (by simp) hresult) fun result s _ hresult => ?_)
    cases result with
    | error e => trivial
    | ok value =>
      exact safe_bind (safe_mono (hop (by simp) hresult) fun _ _ _ hresult => hresult)

theorem safe_abortMultipart :
    Safe requests t abortMultipart (OnOk fun _ s => ∀ event∈([] : List (Event T)),event∈s.2) known := by
  refine safe_attempt (safe_onOk safe_ensureMultipartSession fun _ s _ => ?_)
  exact safe_cleanupMultipart fun _ hevent => by cases hevent

theorem safe_copyPart {chunks : List Bytes} {part whole : Bytes} (h : known.1.temps t=whole) :
    Safe requests t (copyPart chunks part whole) (OnOk fun copied s =>
      copied.1=part++chunks.flatten ∧ copied.2=whole++chunks.flatten ∧ s.1.temps t=copied.2 ∧
        ∀ event∈known.2,event∈s.2) known := by
  induction chunks generalizing part whole known with
  | nil => exact ⟨by simp,by simp,h,fun _ hevent => hevent⟩
  | cons chunk chunks ih =>
    refine safe_attempt (safe_op (by simp) fun s choice answer s' _ hrely hexec hnote => ?_)
    rcases attempted_eq_some hexec with ⟨rfl,hs'⟩ | ⟨_,_,rfl,_⟩
    · have htemps : s'.1.temps t=whole++chunk := by
        rw [hs',World.appendTemp_temps_self,hrely.1,h]
      have hrest := @ih s' (part++chunk) (whole++chunk) htemps
      refine safe_onOk hrest fun copied s'' ⟨hpart,hwhole,hcopied,hpast⟩ => ?_
      refine ⟨?_,?_,hcopied,fun event hevent => hpast event (past_of_step hrely hnote event hevent)⟩
      · rw [hpart,append_assoc,flatten_cons]
      · rw [hwhole,append_assoc,flatten_cons]
    · trivial

/-- A selected part and the body that stands for it. -/
def PartBody (settings : Settings) (requests : Request→Prop) (history : List (Event T))
    (row : PartRow) (body : Bytes) : Prop :=
  Uploaded requests row.partNumber body ∧ .published (partName row.partNumber) body∈history ∧
    body.length=row.size ∧ settings.etag body=row.etag

omit [DecidableEq T] in
theorem PartBody.lasts {history history' : List (Event T)} {rows : List PartRow}
    {bodies : List Bytes} (h : List.Forall₂ (PartBody settings requests history) rows bodies)
    (hpast : ∀ event∈history,event∈history') :
    List.Forall₂ (PartBody settings requests history') rows bodies :=
  h.imp fun _ _ hbody => ⟨hbody.1,hpast _ hbody.2.1,hbody.2.2⟩

/-- The temporary file holds complete bodies of the parts once they are assembled. -/
theorem safe_assembleParts {rows : List PartRow} {whole : Bytes} {total : ℕ}
    (hpositive : ∀ row∈rows,1 ≤ row.partNumber) (htotal : total=whole.length)
    (h : known.1.temps t=whole) :
    Safe requests t (assembleParts settings rows whole total) (OnOk fun assembled s =>
      ∃ bodies,List.Forall₂ (PartBody settings requests s.2) rows bodies ∧
        assembled.1=whole++bodies.flatten ∧ assembled.2=assembled.1.length ∧
        s.1.temps t=assembled.1 ∧ ∀ event∈known.2,event∈s.2) known := by
  induction rows generalizing whole total known with
  | nil => exact ⟨[],.nil,by simp,htotal,h,fun _ hevent => hevent⟩
  | cons row rows ih =>
    rw [assembleParts]
    refine safe_attempt (safe_op (by simp) fun s choice answer s' hfiles hrely hexec hnote => ?_)
    obtain ⟨hs',hread⟩ := openPart_eq_some hexec
    cases answer with
    | error e => trivial
    | ok reading =>
      have hpast := past_of_step hrely hnote
      have htemps : s'.1.temps t=whole := by rw [hs',hrely.1,h]
      refine safe_attempt (safe_onOk (safe_copyPart htemps) fun copied s₁ hresult => ?_)
      obtain ⟨hpart,hwhole,hcopied,hpast₁⟩ := hresult
      split_ifs with hcomplete hmatches
      · trivial
      · trivial
      · rw [not_or,not_not,not_not] at hmatches
        have hdone : reading.complete=true := by simpa using hcomplete
        obtain ⟨huploaded,hevent⟩ := hfiles row.partNumber reading.bytes
          (hpositive row mem_cons_self) (hread reading rfl hdone)
        have hbytes : copied.1=reading.bytes := by rw [hpart,nil_append,Reading.bytes]
        have hbody : PartBody settings requests s₁.2 row copied.1 := by
          refine ⟨hbytes ▸ huploaded,?_,hmatches⟩
          rw [hbytes]
          exact hpast₁ _ (hnote ▸ mem_note hevent)
        have hcopiedWhole : copied.2=whole++copied.1 := by rw [hwhole,hpart,nil_append]
        have hlength : total+copied.1.length=copied.2.length := by
          rw [hcopiedWhole,length_append,htotal]
        have hrest := @ih s₁ copied.2 (total+copied.1.length)
          (fun other hother => hpositive other (mem_cons_of_mem row hother)) hlength hcopied
        refine safe_onOk hrest fun assembled s₂ hresult => ?_
        obtain ⟨bodies,hbodies,hassembled,hsize,htemps₂,hpast₂⟩ := hresult
        refine ⟨copied.1::bodies,.cons ?_ hbodies,?_,hsize,htemps₂,fun event hevent =>
          hpast₂ event (hpast₁ event (hpast event hevent))⟩
        · exact ⟨hbody.1,hpast₂ _ hbody.2.1,hbody.2.2⟩
        · rw [hassembled,hcopiedWhole,append_assoc,flatten_cons]

/-- The bodies of the selected parts are committed one after another. -/
theorem safe_commitParts {selected : List PartRow} {contentType customMeta : Option Text}
    (hpositive : ∀ row∈selected,1 ≤ row.partNumber) :
    Safe requests t (commitParts settings selected contentType customMeta) (OnOk fun info s =>
      ∃ bodies,List.Forall₂ (PartBody settings requests s.2) selected bodies ∧
        .committed t (some (bodies.flatten,info))∈s.2 ∧ info.size=bodies.flatten.length ∧
        info.etag=settings.etag bodies.flatten ∧ ∀ event∈known.2,event∈s.2) known := by
  refine safe_attempt (safe_op (by simp) fun s choice answer s' _ hrely hexec hnote => ?_)
  rcases attempted_eq_some hexec with ⟨rfl,hs'⟩ | ⟨_,_,rfl,_⟩
  · have htemps : s'.1.temps t=[] := by simp [hs']
    have hpast := past_of_step hrely hnote
    refine safe_attempt (safe_onOk (safe_assembleParts hpositive rfl htemps)
      fun assembled s₁ hresult => ?_)
    obtain ⟨bodies,hbodies,hassembled,hsize,htemps₁,hpast₁⟩ := hresult
    rw [nil_append] at hassembled
    refine safe_attempt (safe_op (by simp) fun s₂ choice answer s₃ _ hrely hexec hnote => ?_)
    rcases attempted_eq_some hexec with ⟨rfl,hs₃⟩ | ⟨_,_,rfl,_⟩
    · have htemps₃ : s₃.1.temps t=assembled.1 := by rw [hs₃,hrely.1,htemps₁]
      have hpast₃ := past_of_step hrely hnote
      refine safe_attempt (safe_op (by simp) fun s₄ choice answer s₅ _ hrely hexec hnote => ?_)
      rcases attempted_eq_some hexec with ⟨rfl,hs₅⟩ | ⟨_,_,rfl,_⟩
      · have hcommitted : .committed t (some (bodies.flatten,
            ⟨assembled.2,settings.etag assembled.1,contentType,customMeta⟩))∈s₅.2 := by
          rw [hnote,hs₅,← hassembled,← htemps₃,← hrely.1]
          exact mem_cons_self
        have hpast₅ := past_of_step hrely hnote
        have hclean := @safe_cleanupMultipart T _ requests t s₅.2 s₅ fun _ hevent => hevent
        refine safe_attempt (safe_onOk hclean fun _ s₆ hresult => ?_)
        refine ⟨bodies,?_,hresult _ hcommitted,?_,?_,fun event hevent => ?_⟩
        · exact PartBody.lasts hbodies fun event hevent =>
            hresult event (hpast₅ event (hpast₃ event hevent))
        · rw [hsize,hassembled]
        · rw [hassembled]
        · exact hresult event (hpast₅ event (hpast₃ event (hpast₁ event (hpast event hevent))))
      · trivial
    · trivial
  · trivial

/-- A completion left an object of the complete bodies of the selected parts, one after
another. -/
def Assembled (settings : Settings) (requests : Request→Prop) (history : List (Event T)) (t : T)
    (requested : Option (List CompletedPart)) (info : Committed) : Prop :=
  ∃ recorded selected bodies,.listed t recorded∈history ∧ Selection recorded requested selected ∧
    List.Forall₂ (PartBody settings requests history) selected bodies ∧
    .committed t (some (bodies.flatten,info))∈history ∧ info.size=bodies.flatten.length ∧
    info.etag=settings.etag bodies.flatten

/-- A completion ends with an assembled object. -/
theorem safe_completeMultipart {requested : Option (List CompletedPart)} {customMeta : Option Text} :
    Safe requests t (completeMultipart settings requested customMeta) (OnOk fun info s =>
      Assembled settings requests s.2 t requested info) known := by
  refine safe_attempt (safe_onOk safe_ensureMultipartSession fun contentType s _ => ?_)
  refine safe_attempt (safe_onOk (safe_op_any (by simp)) fun _ s _ => ?_)
  refine safe_attempt (safe_op (by simp) fun s choice answer s' _ _ hexec hnote => ?_)
  rcases attempted_eq_some hexec with ⟨rfl,_⟩ | ⟨_,_,rfl,_⟩
  · have hlisted : .listed t (OrderedRows.sortedBy PartRow.partNumber s.1.rows)∈s'.2 := by
      rw [hnote]
      exact mem_cons_self
    simp only [OnOk]
    cases hselect : selectParts (OrderedRows.sortedBy PartRow.partNumber s.1.rows) requested with
    | error e => trivial
    | ok selected =>
      have hselection := selectParts_eq_ok hselect
      refine safe_bind (safe_mono (safe_commitParts hselection.positive)
        fun result s₁ _ hresult => ?_)
      refine safe_bind (safe_op (by simp) fun s₂ choice answer s₃ _ hrely _ hnote => ?_)
      cases result with
      | error e => trivial
      | ok info =>
        obtain ⟨bodies,hbodies,hcommitted,hsize,hetag,hpast⟩ := hresult
        have hpast₃ := past_of_step hrely hnote
        exact ⟨_,selected,bodies,hpast₃ _ (hpast _ hlisted),hselection,
          PartBody.lasts hbodies hpast₃,hpast₃ _ hcommitted,hsize,hetag⟩
  · trivial

/-- What the requests end with. -/
def Ends (settings : Settings) (requests : Request→Prop) (t : T) :
    Outcome→World T×List (Event T)→Prop
  | .completed requested (.ok info),s => Assembled settings requests s.2 t requested info
  | _,_ => True

theorem safe_program {request : Request} (hrequest : requests request) :
    Safe requests t (request.program settings) (Ends settings requests t) known := by
  cases request with
  | upload partNumber body =>
    exact safe_bind (safe_mono (safe_uploadPart hrequest) fun _ _ _ _ => trivial)
  | complete requested customMeta =>
    refine safe_bind (safe_mono safe_completeMultipart fun result s _ hresult => ?_)
    cases result with
    | error e => trivial
    | ok info => exact hresult
  | abort =>
    exact safe_bind (safe_mono safe_abortMultipart fun _ _ _ _ => trivial)

/-- In every run of uploads, aborts and completions, the commit of a completion that
succeeded left as the object the concatenation of one complete uploaded body for each selected part, with
the size and hash that were recorded when it listed the parts. -/
theorem completion_concatenates_parts {world : World T} (hworld : ∀ name,world.files name=none)
    {pool : Pool Action Answer T (World T×List (Event T)) Outcome}
    (hreach : Reachable (recorded (machine T) (recorder T))
      (recordedRules (rules T settings requests) (recorder T))
      (withHistory ⟨world,fun _ => none⟩ []) pool)
    {requested : Option (List CompletedPart)} {info : Committed}
    (htask : pool.tasks t=some (.done (.completed requested (.ok info)))) :
    Assembled settings requests pool.world.2 t requested info := by
  have hrespects : Respects (recorded (machine T) (recorder T))
      (recordedRules (rules T settings requests) (recorder T)) (discipline T requests)
      (fun t outcome s _ => Ends settings requests t outcome s) :=
    { starts := by
        rintro s _ u program _ ⟨request,hrequest,rfl⟩
        exact safe_program hrequest
      environment := fun _ _ _ hmove => hmove.1.elim
      crash := fun _ _ _ hcrash => hcrash.1.elim }
  have hstart : (discipline T requests).inv (world,[]) () := fun n body _ hbody => by
    rw [hworld] at hbody
    cases hbody
  have hholds := (Holds.idle hstart).reachable hrespects hreach
  obtain ⟨_,known,_,hrely,hended⟩ := hholds.ended htask
  obtain ⟨recorded,selected,bodies,hlisted,hselection,hbodies,hcommitted,hsize,hetag⟩ := hended
  have hpast := hrely.2.2
  exact ⟨recorded,selected,bodies,hpast _ hlisted,hselection,PartBody.lasts hbodies hpast,
    hpast _ hcommitted,hsize,hetag⟩

end Runs

/-- Hashes that are all alike, and parts of at most ten bytes. -/
def sampleSettings : Settings := ⟨fun _ => 0,10⟩

/-- A body of three bytes in two chunks. -/
def sampleBody : Reading := ⟨[[1,2],[3]],true,by decide⟩

/-- An open upload without parts. -/
def sampleWorld : World ℕ := ⟨some none,[],fun _ => none,fun _ => none,fun _ => [],none⟩

/-- The upload of the first part, its requests all doing their work. -/
def uploadChoices : List (Choice ℕ) := List.replicate 8 .work

/-- The completion with the first part read in one chunk. -/
def completionChoices : List (Choice ℕ) :=
  [.work,.work,.work,.work,.read ⟨[[1,2,3]],true,by decide⟩,.work,.work,.work,.work,.work,
    .sweep (fun _ => false) (fun _ => false),.work]

/-- Metadata of the completed upload. -/
def sampleInfo : Committed := ⟨3,List.replicate 16 '0',none,none⟩

/-- An upload of one part and its completion: the object is the part's body. -/
theorem sample_completion_concatenates_parts :
    ∃ pool : Pool Action Answer ℕ (World ℕ×List (Event ℕ)) Outcome,
      Reachable (recorded (machine ℕ) (recorder ℕ))
        (recordedRules (rules ℕ sampleSettings fun _ => True) (recorder ℕ))
        (withHistory ⟨sampleWorld,fun _ => none⟩ []) pool ∧
      pool.tasks 1=some (.done (.completed none (.ok sampleInfo))) ∧
      Assembled sampleSettings (fun _ => True) pool.world.2 1 none sampleInfo := by
  let upload := Request.upload 1 sampleBody
  let completion := Request.complete none none
  have hruns : (((recorded (machine ℕ) (recorder ℕ)).run 0 (upload.program sampleSettings)
      uploadChoices (sampleWorld,[])).bind fun uploaded =>
        (recorded (machine ℕ) (recorder ℕ)).run 1 (completion.program sampleSettings)
          completionChoices uploaded.2).map Prod.fst=some (.completed none (.ok sampleInfo)) := by
    decide +kernel
  obtain ⟨⟨_,after⟩,hruns,rfl⟩ := Option.map_eq_some_iff.mp hruns
  obtain ⟨⟨result,between⟩,hupload,hcompletion⟩ := Option.bind_eq_some_iff.mp hruns
  have hstart : Reachable (recorded (machine ℕ) (recorder ℕ))
      (recordedRules (rules ℕ sampleSettings fun _ => True) (recorder ℕ))
      (withHistory ⟨sampleWorld,fun _ => none⟩ []) (withHistory ⟨sampleWorld,fun _ => none⟩ []) := .start
  have huploaded := (Reachable.step hstart (.start (t := 0) rfl ⟨upload,trivial,rfl⟩)).run
    (update_self 0 _ _) hupload
  have hcompleted := (Reachable.step huploaded (.start (t := 1) (by simp [withHistory])
    ⟨completion,trivial,rfl⟩)).run (update_self 1 _ _) hcompletion
  obtain ⟨tasks,htasks⟩ : ∃ tasks : ℕ→Option (Prog Outcome),
      tasks 1=some (.done (.completed none (.ok sampleInfo))) ∧
        Reachable (recorded (machine ℕ) (recorder ℕ))
          (recordedRules (rules ℕ sampleSettings fun _ => True) (recorder ℕ))
          (withHistory ⟨sampleWorld,fun _ => none⟩ []) ⟨after,tasks⟩ :=
    ⟨_,by simp,hcompleted⟩
  exact ⟨_,htasks.2,htasks.1,completion_concatenates_parts (fun _ => rfl) htasks.2 htasks.1⟩

end NebularOs.Multipart
