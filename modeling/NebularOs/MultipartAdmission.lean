import Mathlib
import NebularOs.MultipartAssembly
import NebularOs.WritePath

/-!
# Admission of completed uploads under the byte cap

A completion is admitted twice: once before its parts are selected, with the sizes of all
parts that were uploaded, and once when the assembled object is committed, with its size.
A client's part list may leave parts out. Then the first check refuses completions that
would stay under the cap.

The completion runs alone, so no bytes of other writes are in flight.
-/

namespace NebularOs.Multipart

open BlobFilenames RequestPrograms Program Machine

/-- The store around an upload, as far as the cap is concerned. -/
structure CappedStore where
  /-- The cap on active bytes; none unless positive. -/
  maxLogicalBytes : ℤ
  /-- Bytes of all active objects but the one under the upload's key. -/
  otherBytes : ℕ

variable {T : Type}

/-- Bytes of the object under the upload's key. -/
def World.existingBytes (world : World T) : ℕ := (world.object.map fun object => object.2.size).getD 0

/-- Bytes of some parts. -/
def partBytes (parts : List PartRow) : ℕ := (parts.map PartRow.size).sum

namespace CappedStore

variable (store : CappedStore)

/-- Bytes of all active objects. -/
def totalBytes (world : World T) : ℕ := store.otherBytes+world.existingBytes

/-- The check before the parts are selected refuses. Sums that are no 64-bit integers fail
otherwise, and the projection is in 64-bit integers. -/
def refusesComplete (world : World T) : Bool :=
  decide (0<store.maxLogicalBytes) && decide (partBytes world.rows<2^63) &&
    decide (store.totalBytes world<2^63) && decide (store.maxLogicalBytes <
      ((store.totalBytes world : ℤ)-world.existingBytes+partBytes world.rows).bmod (2^64))

/-- The check of a commit refuses. -/
def refusesCommit (world : World T) (size : ℕ) : Bool :=
  decide (0<store.maxLogicalBytes) && decide (store.totalBytes world<2^63) &&
    decide (store.maxLogicalBytes<WritePath.projectedBytes (store.totalBytes world) 0
      world.existingBytes (min size (2^63-1)))

/-- A request is refused for lack of space exactly by the checks. -/
def permits (_ : T) (a : Action) (choice : Choice T) (world : World T) : Bool :=
  match a,choice with
  | .ensureCapacity,.work => !store.refusesComplete world
  | .ensureCapacity,.fail error _ =>
    decide (error≠.insufficientStorage) || store.refusesComplete world
  | .commitUpload info,.work => !store.refusesCommit world info.size
  | .commitUpload info,.fail error _ =>
    decide (error≠.insufficientStorage) || store.refusesCommit world info.size
  | _,.fail error _ => decide (error≠.insufficientStorage)
  | _,_ => true

variable [DecidableEq T]

/-- An upload in the store. -/
def capped : Machine Action Answer T (World T) (Choice T) := (machine T).restrict store.permits

end CappedStore

/-- Rows as a completion lists them. -/
def World.recorded (world : World T) : List PartRow :=
  OrderedRows.sortedBy PartRow.partNumber world.rows

/-- The selected parts would exceed the cap. -/
def Exceeds (store : CappedStore) (world : World T) (requested : Option (List CompletedPart)) : Prop :=
  ∃ selected,selectParts world.recorded requested=.ok selected ∧ store.maxLogicalBytes <
    (store.totalBytes world : ℤ)-world.existingBytes+partBytes selected

/-- A completion is refused for lack of space only if the selected parts would exceed the
cap. -/
def AdmitsExactly [DecidableEq T] (store : CappedStore) (settings : Settings) (t : T)
    (world : World T) (requested : Option (List CompletedPart)) (customMeta : Option Text) : Prop :=
  ∀ world',store.capped.Exec t (completeMultipart settings requested customMeta) world
    (.error .insufficientStorage) world' → Exceeds store world requested

section Runs

variable [DecidableEq T] {store : CappedStore} {settings : Settings} {t : T} {world : World T}
  {requested : Option (List CompletedPart)}

omit [DecidableEq T] in
theorem attempted_quiet {α : Type} {choice : Choice T} {done : α×World T} {broken : Bytes→World T}
    {answer : Except Failure α} {world' : World T}
    (hquiet : ∀ error written,choice=.fail error written→error≠.insufficientStorage)
    (h : attempted choice done broken=some (answer,world')) :
    answer≠.error .insufficientStorage := by
  cases choice with
  | work =>
    cases h
    exact fun heq => nomatch heq
  | fail error written =>
    cases h
    exact fun heq => hquiet error written rfl (Except.error.inj heq)
  | read reading | sweep file scratch => cases h

/-- A request that is no check is not refused for lack of space and leaves the object. -/
theorem ensures_quiet {a : Action} (hcomplete : a≠.ensureCapacity)
    (hcommit : ∀ info,a≠.commitUpload info) : store.capped.ensures t (op a) (fun answer world' =>
      answer≠.error .insufficientStorage ∧ world'.object=world.object) world := by
  intro choice answer world' h
  obtain ⟨hpermits,hexec⟩ := restrict_exec_eq_some.mp h
  have hquiet : ∀ error written,choice=.fail error written→error≠.insufficientStorage := by
    rintro error written rfl
    cases a <;> first
      | exact absurd rfl hcomplete
      | exact absurd rfl (hcommit _)
      | exact of_decide_eq_true hpermits
  cases a with
  | ensureCapacity => exact absurd rfl hcomplete
  | commitUpload info => exact absurd rfl (hcommit info)
  | publish name =>
    change exec t (.publish name) choice world=_ at hexec
    cases hpart : world.partials t with
    | none =>
      simp only [exec,hpart] at hexec
      cases hexec
      exact ⟨by simp,rfl⟩
    | some body =>
      simp only [exec,hpart] at hexec
      refine ⟨attempted_quiet hquiet hexec,?_⟩
      rcases attempted_eq_some hexec with ⟨_,rfl⟩ | ⟨_,_,_,rfl⟩ <;> rfl
  | openPart name =>
    refine ⟨fun heq => ?_,by rw [(openPart_eq_some (t := t) hexec).1]⟩
    subst heq
    change exec t (.openPart name) choice world=_ at hexec
    cases choice with
    | work | sweep file scratch => cases hfile : world.files name <;> simp [exec,hfile] at hexec
    | fail error written =>
      have herror : error=.insufficientStorage := by
        cases hfile : world.files name <;> simp [exec,hfile] at hexec <;> exact hexec.1
      exact hquiet error written rfl herror
    | read reading => cases hfile : world.files name <;> simp [exec,hfile] at hexec
  | dropPartial | dropTemp =>
    cases hexec
    exact ⟨by simp,rfl⟩
  | removeDir =>
    cases choice <;> cases hexec
    exact ⟨by simp,rfl⟩
  | _ =>
    refine ⟨attempted_quiet hquiet hexec,?_⟩
    rcases attempted_eq_some hexec with ⟨_,rfl⟩ | ⟨_,_,_,rfl⟩ <;> rfl

theorem ensures_step {α β : Type} {first : Prog (Except Failure α)}
    {next : α→Prog (Except Failure β)} {post : Except Failure β→World T→Prop}
    (hfirst : store.capped.ensures t first (fun answer world' =>
      answer≠.error .insufficientStorage ∧ world'.object=world.object) world)
    (hfail : ∀ e world',e≠.insufficientStorage→world'.object=world.object →
      post (.error e) world') (hnext : ∀ value world',world'.object=world.object →
      store.capped.ensures t (next value) post world') :
    store.capped.ensures t (first.attempt next) post world := by
  refine ensures_attempt (ensures_mono hfirst fun answer world' hanswer => ⟨fun e he => ?_,?_⟩)
  · exact hfail e world' (fun heq => hanswer.1 (by rw [he,heq])) hanswer.2
  · exact fun value _ => hnext value world' hanswer.2

theorem ensures_copyPart (chunks : List Bytes) (part whole : Bytes) :
    store.capped.ensures t (copyPart chunks part whole) (fun answer world' =>
      answer≠.error .insufficientStorage ∧ world'.object=world.object) world := by
  induction chunks generalizing part whole world with
  | nil => exact ⟨by simp,rfl⟩
  | cons chunk chunks ih =>
    refine ensures_step (ensures_quiet (by simp) (by simp))
      (fun e world' he hobject => ⟨by simpa using he,hobject⟩) fun _ world' hobject => ?_
    refine ensures_mono (ih (part++chunk) (whole++chunk)) fun result world'' hresult => ?_
    exact ⟨hresult.1,hresult.2.trans hobject⟩

theorem ensures_assembleParts (rows : List PartRow) (whole : Bytes) (total : ℕ) :
    store.capped.ensures t (assembleParts settings rows whole total) (fun answer world' =>
      (answer≠.error .insufficientStorage ∧ world'.object=world.object) ∧
        ∀ assembled,answer=.ok assembled→assembled.2=total+partBytes rows) world := by
  induction rows generalizing whole total world with
  | nil =>
    refine ⟨⟨by simp,rfl⟩,fun assembled heq => ?_⟩
    rw [← Except.ok.inj heq]
    rfl
  | cons row rows ih =>
    have hfail : ∀ e (world' : World T),e≠.insufficientStorage→world'.object=world.object →
        ((.error e : Except Failure (Bytes×ℕ))≠.error .insufficientStorage ∧
          world'.object=world.object) ∧ ∀ assembled,
            (.error e : Except Failure (Bytes×ℕ))=.ok assembled →
              assembled.2=total+partBytes (row::rows) :=
      fun e world' he hobject => ⟨⟨by simpa using he,hobject⟩,fun _ heq => nomatch heq⟩
    refine ensures_step (ensures_quiet (by simp) (by simp)) hfail
      fun opened world' hobject' => ?_
    refine ensures_step (ensures_copyPart opened.chunks [] whole)
      (fun e after he hafter => hfail e after he (hafter.trans hobject'))
      fun content world'' hcopied => ?_
    have hobject := hcopied.trans hobject'
    split_ifs with hcomplete hmatch
    · exact hfail _ world'' (by simp) hobject
    · exact hfail _ world'' (by simp) hobject
    · have hsize : content.1.length=row.size := by
        by_contra hne
        exact hmatch (.inl hne)
      refine ensures_mono (ih content.2 (total+content.1.length)) fun answer after hafter => ?_
      refine ⟨⟨hafter.1.1,hafter.1.2.trans hobject⟩,fun assembled heq => ?_⟩
      rw [hafter.2 assembled heq,hsize,partBytes,partBytes,List.map_cons,List.sum_cons]
      omega

theorem ensures_cleanupMultipart : store.capped.ensures t cleanupMultipart (fun answer world' =>
      answer≠.error .insufficientStorage ∧ world'.object=world.object) world := by
  refine ensures_step (ensures_quiet (by simp) (by simp))
    (fun e world' he hobject => ⟨by simpa using he,hobject⟩) fun _ world₁ hobject₁ => ?_
  refine ensures_step (ensures_quiet (by simp) (by simp))
    (fun e world' he hobject => ⟨by simpa using he,hobject.trans hobject₁⟩)
    fun _ world₂ hobject₂ => ?_
  refine ensures_bind.mpr (ensures_mono (ensures_quiet (by simp) (by simp))
    fun _ world₃ hanswer => ⟨by simp,hanswer.2.trans (hobject₂.trans hobject₁)⟩)

omit [DecidableEq T] in
theorem exceeds_of_refusesCommit {world' : World T} {size : ℕ} (hobject : world'.object=world.object)
    (h : store.refusesCommit world' size=true) :
    store.maxLogicalBytes<(store.totalBytes world : ℤ)-world.existingBytes+size := by
  have hexisting : world'.existingBytes=world.existingBytes := by
    unfold World.existingBytes
    rw [hobject]
  have htotal : store.totalBytes world'=store.totalBytes world := by
    unfold CappedStore.totalBytes
    rw [hexisting]
  have hsum : store.totalBytes world=store.otherBytes+world.existingBytes := rfl
  simp only [CappedStore.refusesCommit,Bool.and_eq_true,decide_eq_true_eq,htotal,hexisting,
    WritePath.projectedBytes,WritePath.saturate] at h
  omega

theorem ensures_commitParts (selected : List PartRow) (contentType customMeta : Option Text) :
    store.capped.ensures t (commitParts settings selected contentType customMeta)
      (fun answer _ => answer=.error .insufficientStorage→store.maxLogicalBytes <
        (store.totalBytes world : ℤ)-world.existingBytes+partBytes selected) world := by
  have hfail : ∀ e (_ : World T),e≠Failure.insufficientStorage →
      ((.error e : Except Failure Committed)=.error .insufficientStorage →
        store.maxLogicalBytes<(store.totalBytes world : ℤ)-world.existingBytes+
          partBytes selected) := fun e _ he heq => absurd (Except.error.inj heq) he
  refine ensures_step (ensures_quiet (by simp) (by simp)) (fun e after he _ => hfail e after he)
    fun _ world₁ hobject₁ => ?_
  refine ensures_attempt (ensures_mono (ensures_assembleParts selected [] 0)
    fun answer world₂ hanswer => ⟨fun e he => ?_,fun assembled hassembled => ?_⟩)
  · exact hfail e world₂ fun heq => hanswer.1.1 (by rw [he,heq])
  have hsize : assembled.2=partBytes selected :=
    (hanswer.2 assembled hassembled).trans (Nat.zero_add _)
  refine ensures_step (ensures_quiet (by simp) (by simp)) (fun e after he _ => hfail e after he)
    fun _ world₃ hobject₃ => ?_
  refine ensures_attempt fun choice answer world₄ hexec => ⟨fun e he heq => ?_,fun _ _ => ?_⟩
  · -- The commit is the only request here that the cap can stop.
    obtain ⟨hpermits,hrun⟩ := restrict_exec_eq_some.mp hexec
    have hrefused : store.refusesCommit world₃ assembled.2=true := by
      have herror : e=.insufficientStorage := Except.error.inj heq
      subst he herror
      cases choice with
      | work => cases hrun
      | fail error written =>
        cases hrun
        simpa [CappedStore.permits] using hpermits
      | read reading | sweep file scratch => cases hrun
    have hobject : world₃.object=world.object :=
      hobject₃.trans (hanswer.1.2.trans hobject₁)
    rw [← hsize]
    exact exceeds_of_refusesCommit hobject hrefused
  · exact ensures_step ensures_cleanupMultipart (fun e after he _ => hfail e after he)
      fun _ _ _ heq => nomatch heq

theorem pickParts_error {recorded : List PartRow} {previous : ℤ} {list : List CompletedPart}
    {e : Failure} (h : pickParts recorded previous list=.error e) :
    ∃ message,e=.invalidRequest message := by
  induction list generalizing previous with
  | nil => cases h
  | cons part list ih =>
    unfold pickParts at h
    split_ifs at h with hascending
    · exact ⟨_,(Except.error.inj h).symm⟩
    split at h
    · exact ⟨_,(Except.error.inj h).symm⟩
    split_ifs at h with hetag
    · exact ⟨_,(Except.error.inj h).symm⟩
    cases hrest : pickParts recorded part.partNumber list with
    | ok picked =>
      rw [hrest] at h
      cases h
    | error e' =>
      rw [hrest] at h
      cases h
      exact ih hrest

theorem checkNumbers_error {expected : ℤ} {rows : List PartRow} {e : Failure}
    (h : checkNumbers expected rows=.error e) : ∃ message,e=.invalidRequest message := by
  induction rows generalizing expected with
  | nil => cases h
  | cons row rows ih =>
    unfold checkNumbers at h
    split_ifs at h with hnumber
    · exact ⟨_,(Except.error.inj h).symm⟩
    · exact ih h

theorem selectParts_error {recorded : List PartRow} {e : Failure}
    (h : selectParts recorded requested=.error e) : e≠.insufficientStorage := by
  suffices hinvalid : ∃ message,e=.invalidRequest message by
    obtain ⟨message,rfl⟩ := hinvalid
    exact fun heq => nomatch heq
  unfold selectParts at h
  split at h
  · split_ifs at h with hempty
    · exact ⟨_,(Except.error.inj h).symm⟩
    cases hnumbers : checkNumbers 1 recorded with
    | ok _ =>
      rw [hnumbers] at h
      cases h
    | error e' =>
      rw [hnumbers] at h
      cases h
      exact checkNumbers_error hnumbers
  · exact ⟨_,(Except.error.inj h).symm⟩
  · exact pickParts_error h

theorem ensures_session : store.capped.ensures t ensureMultipartSession (fun answer world' =>
      answer≠.error .insufficientStorage ∧ world'=world ∧
        ∀ contentType,answer=.ok contentType→world.session=some contentType) world := by
  refine ensures_attempt fun choice answer world' hexec => ?_
  have hquiet := ensures_quiet (by simp) (by simp) choice answer world' hexec
  have hrun := (restrict_exec_eq_some.mp hexec).2
  rcases attempted_eq_some hrun with ⟨rfl,rfl⟩ | ⟨error,_,rfl,rfl⟩
  · refine ⟨fun _ he => (nomatch he),fun session hsession => ?_⟩
    cases hsession
    cases hopen : world'.session with
    | none => exact ⟨by simp,rfl,fun _ heq => nomatch heq⟩
    | some contentType =>
      exact ⟨by simp,rfl,fun other heq => congrArg some (Except.ok.inj heq)⟩
  · refine ⟨fun e he => ?_,fun _ heq => nomatch heq⟩
    cases he
    exact ⟨fun heq => hquiet.1 (by rw [Except.error.inj heq]),rfl,fun _ heq => nomatch heq⟩

/-- A completion is refused by the first check, or the selected parts would exceed the
cap. -/
theorem ensures_completeMultipart (customMeta : Option Text) :
    store.capped.ensures t (completeMultipart settings requested customMeta)
      (fun answer _ => answer=.error .insufficientStorage →
        (world.session≠none ∧ store.refusesComplete world=true) ∨
          Exceeds store world requested) world := by
  refine ensures_attempt (ensures_mono ensures_session
    fun answer world' hsession => ⟨fun e he heq => ?_,fun contentType hopen => ?_⟩)
  · exact absurd (he.trans (by rw [Except.error.inj heq])) hsession.1
  obtain rfl := hsession.2.1
  refine ensures_attempt fun choice answer world₁ hexec => ?_
  obtain ⟨hpermits,hrun⟩ := restrict_exec_eq_some.mp hexec
  have hsame : world₁=world' := by
    rcases attempted_eq_some hrun with ⟨_,h⟩ | ⟨_,_,_,h⟩ <;> exact h
  subst hsame
  refine ⟨fun e he heq => .inl ⟨?_,?_⟩,fun _ _ => ?_⟩
  · rw [hsession.2.2 contentType hopen]
    exact fun hnone => nomatch hnone
  · have herror : e=.insufficientStorage := Except.error.inj heq
    subst he herror
    cases choice with
    | work => cases hrun
    | fail error written =>
      cases hrun
      simpa [CappedStore.permits] using hpermits
    | read reading | sweep file scratch => cases hrun
  refine ensures_attempt fun choice answer world₂ hexec => ?_
  have hquiet := ensures_quiet (by simp) (by simp) choice answer world₂ hexec
  have hrun := (restrict_exec_eq_some.mp hexec).2
  rcases attempted_eq_some hrun with ⟨rfl,rfl⟩ | ⟨error,_,rfl,rfl⟩
  · refine ⟨fun _ he => (nomatch he),fun recorded hrecorded => ?_⟩
    cases hrecorded
    split
    · rename_i e hselect
      exact fun heq => absurd (Except.error.inj heq) (selectParts_error hselect)
    · rename_i selected hselect
      refine ensures_bind.mpr (ensures_mono (ensures_commitParts selected contentType customMeta)
        fun result world₃ hresult => ensures_bind.mpr ?_)
      refine ensures_mono (ensures_quiet (by simp) (by simp)) fun _ _ _ heq => .inr ?_
      exact ⟨selected,hselect,hresult heq⟩
  · refine ⟨fun e he heq => ?_,fun _ heq => nomatch heq⟩
    exact absurd (he.trans (by rw [Except.error.inj heq])) hquiet.1

theorem allows_refusal (customMeta : Option Text) (hsession : world.session≠none)
    (hrefuses : store.refusesComplete world=true) :
    store.capped.Exec t (completeMultipart settings requested customMeta) world
      (.error .insufficientStorage) world := by
  obtain ⟨contentType,hopen⟩ := Option.ne_none_iff_exists'.mp hsession
  have hfetch : store.capped.exec t .fetchSession .work world=
      some (.ok (some contentType),world) :=
    restrict_exec_eq_some.mpr ⟨rfl,by rw [← hopen]; rfl⟩
  have hcheck : store.capped.exec t .ensureCapacity (.fail .insufficientStorage []) world=
      some (.error .insufficientStorage,world) :=
    restrict_exec_eq_some.mpr ⟨by simpa [CappedStore.permits] using hrefuses,rfl⟩
  exact .ask hfetch (.ask hcheck (.done _ _))

/-- A completion is refused for lack of space only if the selected parts would exceed the
cap, exactly if the upload is not open, or the first check does not refuse, or the selected
parts would exceed the cap. -/
theorem admitsExactly_iff (store : CappedStore) (settings : Settings) (t : T) (world : World T)
    (requested : Option (List CompletedPart)) (customMeta : Option Text) :
    AdmitsExactly store settings t world requested customMeta ↔ world.session=none ∨
      store.refusesComplete world=false ∨ Exceeds store world requested := by
  constructor
  · intro hexact
    by_cases hsession : world.session=none
    · exact .inl hsession
    · cases hrefuses : store.refusesComplete world with
      | false => exact .inr (.inl rfl)
      | true => exact .inr (.inr (hexact world (allows_refusal customMeta hsession hrefuses)))
  · intro hcases world' hexec
    rcases ensures_sound (ensures_completeMultipart customMeta) hexec rfl with
      ⟨hsession,hrefuses⟩ | hexceeds
    · rcases hcases with hnone | hfalse | hexceeds
      · exact absurd hnone hsession
      · rw [hfalse] at hrefuses
        cases hrefuses
      · exact hexceeds
    · exact hexceeds

end Runs

section LeftOut

/-- A cap of ten bytes on an otherwise empty store. -/
def tenBytes : CappedStore := ⟨10,0⟩

/-- An upload with parts of five and eight bytes. -/
def twoParts : World Unit where
  session := some none
  rows := [⟨1,5,[]⟩,⟨2,8,[]⟩]
  files := fun _ => none
  partials := fun _ => none
  temps := fun _ => []
  object := none

/-- Hash and limits of the upload. -/
def plainSettings : Settings := ⟨fun _ => 0,100⟩

/-- A completion with the part of five bytes alone is refused under the cap of ten. -/
theorem left_out_part_refused : selectParts twoParts.recorded (some [⟨1,none⟩])=.ok [⟨1,5,[]⟩] ∧
      ¬AdmitsExactly tenBytes plainSettings () twoParts (some [⟨1,none⟩]) none := by
  have hselect : selectParts twoParts.recorded (some [⟨1,none⟩])=.ok [⟨1,5,[]⟩] := by
    decide +kernel
  refine ⟨hselect,fun hexact => ?_⟩
  obtain ⟨selected,hselected,hexceeds⟩ := hexact twoParts
    (allows_refusal none (by decide) (by decide))
  obtain rfl := Except.ok.inj (hselect.symm.trans hselected)
  exact absurd hexceeds (by decide)

end LeftOut

end NebularOs.Multipart
