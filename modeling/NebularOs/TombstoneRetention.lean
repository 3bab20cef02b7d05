import Mathlib
import NebularOs.RetainedTombstones

/-!
# Late writes against forgotten tombstones

Operations under the lock of a key know which versions no deletion beats, and keep knowing
it although a pruning may forget the tombstone that was checked. So every write of a peer
is applied in order, as long as it is committed in the retention time after its version. One
that only arrives in that time may be committed over a deletion that is forgotten meanwhile.
-/

namespace NebularOs.TombstoneRetention

open BlobFilenames RequestPrograms TaskPools TaskHistories ReplicationLog ReplicatedNode
open ReplicatedCluster DeliveryWorker Program List Function Option
open EngineState (StorageError)

variable {I K C T : Type}

section Programs

variable [LinearOrder I] [DecidableEq K] {retention : ℤ} {t : T} {i : I} {key : K} {α : Type}

/-- The machine of nodes whose times are as asked for, with its history. -/
abbrev keepingMachine (I K C T : Type) [LinearOrder I] [DecidableEq K] (retention : ℤ) :
    Machine (TimedAction I K C) TimedAnswer T (TimedWorld I K C T×List (Applied I K))
      (SiteChoice I K) :=
  recorded ((timedMachine I K C T).restrict (timely retention)) (changes I K C T)

/-- The timed nodes of a cluster, with the changes applied so far. -/
abbrev Chronicle (I K C T : Type) : Type := TimedWorld I K C T×List (Applied I K)

/-- A program of a task that is safe on nodes that keep their tombstones. -/
abbrev keeps (retention : ℤ) (t : T) : Program (TimedAction I K C) TimedAnswer α →
    (α→Chronicle I K C T→Unit→Prop)→Chronicle I K C T→Unit→Prop :=
  safe (keepingMachine I K C T retention) (discipline I K C T retention) t

variable {s : Chronicle I K C T} {post : α→Chronicle I K C T→Unit→Prop}

theorem safe_request {a : SiteAction I K C}
    {next : SiteAnswer a→Program (TimedAction I K C) TimedAnswer α}
    (h : ∀ s' : Chronicle I K C T,Kept retention s'.1 s'.2 →
      Tolerated t s.1 s.2 s'.1 s'.2 → Allowed retention t s'.1 s'.2 i a ∧
        ∀ choice answer site',onTime s'.1.now choice=true →
          siteExec i t a choice (s'.1.sites i)=some (answer,site') →
          keeps retention t (next answer) post
            (s'.1.after i site',s'.2++applied i site' a answer) ()) :
    keeps retention t (.ask (i,a) next) post s () := by
  intro w _ hkept hrely
  obtain ⟨hallowed,houtcomes⟩ := h w hkept hrely
  refine ⟨trivial,fun choice answer w' hexec => ⟨(),?_⟩⟩
  obtain ⟨hstep,hnote⟩ := recorded_exec_eq_some.mp hexec
  obtain ⟨htimely,hstep⟩ := Machine.restrict_exec_eq_some.mp hstep
  obtain ⟨hontime,site',hsite,hworld⟩ := timedExec_eq_some.mp hstep
  obtain rfl : w'=(w.1.after i site',w.2++applied i site' a answer) := by
    refine Prod.ext hworld ?_
    rw [hnote,hworld]
    show w.2++applied i ((w.1.after i site').sites i) a answer=_
    rw [w.1.after_self]
  refine ⟨⟨hkept.request hallowed hontime htimely hsite,fun u hu => ?_⟩,
    houtcomes choice answer site' hontime hsite⟩
  exact tolerated_of_allowed hallowed hsite hu

/-- What a task knows that holds the lock of a key: some versions are not beaten by applied
deletions. -/
structure Ready (retention : ℤ) (t : T) (i : I) (key : K) (versions : List (Version I))
    (s : TimedWorld I K C T×List (Applied I K)) : Prop where
  /-- The task holds the lock. -/
  held : (s.1.sites i).node.holder key=some t
  /-- Deletions of the key are not newer. -/
  unbeaten : ∀ version∈versions,Unbeaten retention s.1 s.2 i key version

variable {versions : List (Version I)}

omit [DecidableEq K] in
theorem Ready.lasts {s' : Chronicle I K C T}
    (h : Ready retention t i key versions s) (hrely : Tolerated t s.1 s.2 s'.1 s'.2) :
    Ready retention t i key versions s' := by
  obtain ⟨hheld,hsince⟩ := hrely.held i key h.held
  refine ⟨hheld,fun version hversion change hchange hnode hkey hdeleted => ?_⟩
  have hbefore := hsince change hchange hnode hkey hdeleted
  refine (h.unbeaten version hversion change hbefore hnode hkey hdeleted).imp_right fun hexpired => ?_
  have hlater : (s.1.now : ℤ) ≤ s'.1.now := by exact_mod_cast hrely.later
  exact lt_of_lt_of_le hexpired hlater

variable {b : Action I K C}

theorem Ready.own {choice : SiteChoice I K} {answer : Answer b} {site' : Site I K C T}
    (h : Ready retention t i key versions s)
    (hsite : siteExec i t (.request b) choice (s.1.sites i)=some (answer,site'))
    (hlocks : keepsLocks b=true) : Ready retention t i key
      (if changesVersions (.request b : SiteAction I K C) then [] else versions)
      (s.1.after i site',s.2++applied i site' (.request b) answer) := by
  obtain ⟨inner,_,_,hnode,_⟩ := siteExec_request hsite
  refine ⟨?_,fun version hversion change hchange hnode' hkey hdeleted => ?_⟩
  · rw [s.1.after_self,exec_holder_of_keepsLocks hlocks hnode]
    exact h.held
  · split_ifs at hversion with hversions
    · cases hversion
    rcases mem_append.mp hchange with hold | hlast
    · exact h.unbeaten version hversion change hold hnode' hkey hdeleted
    · obtain ⟨_,_,_,_,rfl⟩ := applied_of_not_changesVersions (eq_false_of_ne_true hversions) hlast
      cases hdeleted

theorem safe_held {next : Answer b→Program (TimedAction I K C) TimedAnswer α}
    (hready : Ready retention t i key versions s) (hlocks : keepsLocks b=true)
    (hallowed : ∀ s' : Chronicle I K C T,Ready retention t i key versions s' →
      Allowed retention t s'.1 s'.2 i (.request b))
    (hnext : ∀ answer s',Ready retention t i key
        (if changesVersions (.request b : SiteAction I K C) then [] else versions) s' →
      keeps retention t (next answer) post s' ()) :
    keeps retention t (.ask (i,.request b) next) post s () := by
  refine safe_request fun s' hkept hrely => ?_
  have hready' := hready.lasts hrely
  refine ⟨hallowed s' hready',fun choice answer site' _ hsite => hnext answer _ ?_⟩
  exact hready'.own hsite hlocks

theorem safe_check (event : Event I K C)
    {next : Option (KeyVersion I)→Program (TimedAction I K C) TimedAnswer α}
    (hready : Ready retention t i key [] s) (hnext : ∀ current s',Ready retention t i key
        (if isOutdated event current then [] else [event.effectiveVersion]) s' →
      keeps retention t (next current) post s' ()) : keeps retention t
      (.ask (i,.request (.keyVersion key)) next) post s () := by
  refine safe_request fun s' hkept hrely => ⟨trivial,fun choice current site' _ hsite => ?_⟩
  refine hnext current _ ?_
  have hread : current=(s'.1.sites i).node.db.versions key := by
    obtain ⟨inner,_,_,hnode,_⟩ := siteExec_request hsite
    exact (congrArg Prod.fst (Option.some.inj hnode)).symm
  have hknown : Ready retention t i key
      (if isOutdated event current then [] else [event.effectiveVersion]) s' := by
    refine ⟨(hready.lasts hrely).held,fun version hversion => ?_⟩
    split_ifs at hversion with houtdated
    · cases hversion
    obtain rfl := mem_singleton.mp hversion
    refine hkept.unbeaten fun state hstate => ?_
    rw [hread,hstate] at houtdated
    simp only [isOutdated,any_some,decide_eq_true_eq,not_le] at houtdated
    exact houtdated.le
  exact hknown.own hsite rfl

theorem safe_locked {body : Prog I K C (Except StorageError Unit)}
    (hbody : ∀ s',Ready retention t i key [] s' → keeps retention t (onNode i body)
        (fun _ s'' _ => Ready retention t i key [] s'') s' ()) :
    keeps retention t (onNode i (locked key body)) (fun _ _ _ => True) s () := by
  have hunlock : onNode i (locked key body)=.ask (i,.request (.lock key)) fun _ =>
      (onNode i body).bind fun result => .ask (i,.request (.unlock key)) fun _ => .done result := by
    unfold onNode locked
    rw [embed_bind]
    simp only [embed_bind]
    rfl
  rw [hunlock]
  refine safe_request fun s' _ _ => ⟨trivial,fun choice answer site' _ hsite => ?_⟩
  refine safe_bind (safe_mono (hbody _ ⟨?_,fun _ hnone => by cases hnone⟩) fun result s'' _ hready => ?_)
  · obtain ⟨inner,_,_,hnode,_⟩ := siteExec_request hsite
    rw [s'.1.after_self]
    simp only [exec] at hnode
    split_ifs at hnode
    obtain ⟨_,hnode'⟩ := Prod.mk.inj (Option.some.inj hnode)
    rw [← hnode']
    exact update_self key _ _
  · exact safe_request fun _ _ hrely => ⟨(hready.lasts hrely).held,fun _ _ _ _ _ => trivial⟩

omit [LinearOrder I] [DecidableEq K] in
theorem attempt_check {passes : Bool} {failure : StorageError}
    {next : Unit→Prog I K C (Except StorageError Unit)} :
    attempt (.done (if passes then .ok () else .error failure)) next=
      if passes then next () else .done (.error failure) := by
  cases passes with
  | false | true => rfl

omit [DecidableEq K] in
theorem Ready.bare (h : Ready retention t i key versions s) : Ready retention t i key [] s :=
  ⟨h.held,fun _ hnone => by cases hnone⟩

theorem safe_attempt {β : Type} {first : Prog I K C (Except StorageError β)}
    {next : β→Prog I K C (Except StorageError Unit)}
    (h : keeps retention t (onNode i first) (fun result s' _ => match result with
        | .error _ => Ready retention t i key [] s'
        | .ok value => keeps retention t
          (onNode i (next value)) (fun _ s'' _ => Ready retention t i key [] s'') s' ()) s ()) :
    keeps retention t
      (onNode i (attempt first next)) (fun _ s' _ => Ready retention t i key [] s') s () := by
  unfold onNode attempt
  rw [embed_bind]
  refine safe_bind (safe_mono h fun result s' _ hresult => ?_)
  cases result with
  | error failure | ok value => exact hresult

/-- A hook that is safe under the lock of a key, and what it makes known of it. -/
structure SafeHook (retention : ℤ) (t : T) (i : I) (key : K) (versions : List (Version I))
    (hook : CommitHook I K C) : Prop where
  /-- Before the commit. -/
  before : ∀ s,Ready retention t i key [] s → keeps retention t
      (onNode i (hook.before key)) (fun result s' _ => match result with
        | .error _ => Ready retention t i key [] s'
        | .ok _ => Ready retention t i key versions s') s ()
  /-- After the commit. -/
  after : ∀ committed s,Ready retention t i key versions s → keeps retention t
      (onNode i (hook.after key committed)) (fun _ s' _ => Ready retention t i key [] s') s ()

theorem safeHook_remoteChange (event : Event I K C) :
    SafeHook retention t i key [event.effectiveVersion] (remoteChange event) where
  before s hready := by
    refine safe_check event hready fun current s' hready' => ?_
    dsimp only [done_bind]
    by_cases houtdated : isOutdated event current=true
    · rw [if_pos houtdated] at hready' ⊢
      exact hready'
    · rw [if_neg houtdated] at hready' ⊢
      exact hready'
  after committed s hready := by
    refine safe_held (b := .recordRemoteChange key event) hready rfl (fun s' hready' => ?_)
      fun _ _ h => h
    exact ⟨hready'.held,hready'.unbeaten _ (mem_singleton_self _)⟩

theorem safeHook_localChange (cluster : Cluster K) (writeClass : Text) :
    SafeHook retention t i key [] (localChange cluster writeClass : CommitHook I K C) where
  before s hready := hready
  after committed s hready := by
    unfold localChange
    dsimp only
    split_ifs
    · exact safe_held (b := .recordLocalChange key committed writeClass cluster.group) hready rfl
        (fun s' hready' => hready'.held) fun _ _ h => h
    · exact hready

theorem safe_commitStagedLocked {hook : CommitHook I K C}
    (hhook : SafeHook retention t i key versions hook) {writer : Writer I K C} {content : C}
    {conditions : Option C→Bool}
    (hwriter : ∀ event,writer=.peer event→event.effectiveVersion∈versions)
    (hready : Ready retention t i key [] s) :
    keeps retention t (onNode i (commitStagedLocked writer key content conditions (some hook)))
      (fun _ s' _ => Ready retention t i key [] s') s () := by
  refine safe_attempt (safe_mono (hhook.before s hready) fun result s₁ _ hready₁ => ?_)
  cases result with
  | error failure => exact hready₁
  | ok value =>
    refine safe_held (b := .fetchRow key) hready₁ rfl (fun _ _ => trivial)
      fun existing s₂ hready₂ => ?_
    dsimp only [done_bind]
    unfold checkConditions
    rw [attempt_check]
    split_ifs
    · refine safe_held (b := .commitPut writer key content) hready₂ rfl (fun s' hready' => ?_)
        fun committed s₃ hready₃ => ?_
      · cases writer with
        | peer event => exact hready'.unbeaten _ (hwriter event rfl)
        | _ => trivial
      · dsimp only [done_bind]
        unfold ensureCommitted
        rw [attempt_check]
        split_ifs
        · rw [embed_bind]
          exact safe_bind (hhook.after (.written content) s₃ hready₃)
        · exact hready₃.bare
    · exact hready₂.bare

theorem safe_deleteObjectConditional {hook : CommitHook I K C}
    (hhook : SafeHook retention t i key versions hook) {conditions : Option C→Bool} :
    keeps retention t
      (onNode i (deleteObjectConditional key conditions (some hook))) (fun _ _ _ => True) s () := by
  refine safe_locked fun s₁ hready₁ => ?_
  refine safe_held (b := .fetchRow key) hready₁ rfl (fun _ _ => trivial)
    fun existing s₂ hready₂ => ?_
  dsimp only [done_bind]
  unfold checkConditions
  rw [attempt_check]
  split_ifs
  · refine safe_attempt (safe_mono (hhook.before s₂ hready₂) fun result s₃ _ hready₃ => ?_)
    cases result with
    | error failure => exact hready₃
    | ok value =>
      have hafter : ∀ s',Ready retention t i key versions s' → keeps retention t
            (onNode i ((hook.after key (.deleted (existing.bind Row.storageClass))).bind
              ensureCommitted)) (fun _ s'' _ => Ready retention t i key [] s'') s' () := by
        intro s' hready'
        unfold onNode
        rw [embed_bind]
        exact safe_bind (hhook.after _ s' hready')
      unfold deleteObjectLocked
      split_ifs
      · refine safe_attempt ?_
        refine safe_held (b := .commitDelete [key]) hready₃ rfl (fun _ _ => trivial)
          fun committed s₄ hready₄ => ?_
        cases committed with
        | false => exact hready₄.bare
        | true => exact hafter s₄ hready₄
      · exact hafter s₃ hready₃
  · exact hready₂.bare

theorem safe_applyChange {event : Event I K C} : keeps retention t
      (onNode i (applyChange event)) (fun _ _ _ => True) s () := by
  unfold applyChange
  cases event.content with
  | none => exact safe_deleteObjectConditional (safeHook_remoteChange event)
  | some content =>
    refine safe_locked fun s' hready => ?_
    refine safe_commitStagedLocked (safeHook_remoteChange event) (fun other heq => ?_) hready
    cases heq
    exact mem_singleton_self _

theorem safe_applyEvent {event : Event I K C} : keeps retention t
      (onNode i (applyEvent event)) (fun _ _ _ => True) s () := by
  have hkeep : ∀ (outcome : Except StorageError Unit) (s' : Chronicle I K C T),keeps retention t
        (onNode i ((op (.recordApplied event)).bind fun _ => .done outcome)) (fun _ _ _ => True)
        s' () :=
    fun _ _ => safe_request fun _ _ _ => ⟨trivial,fun _ _ _ _ _ => trivial⟩
  refine safe_request fun s₁ _ _ => ⟨trivial,fun _ known _ _ _ => ?_⟩
  dsimp only [done_bind]
  split_ifs
  · trivial
  refine safe_request fun s₂ _ _ => ⟨trivial,fun _ current _ _ _ => ?_⟩
  dsimp only [done_bind]
  split_ifs
  · exact hkeep _ _
  rw [embed_bind]
  refine safe_bind (safe_mono safe_applyChange fun result s₃ _ _ => ?_)
  split
  · exact hkeep _ _
  · trivial

theorem safe_pruneLoop (removal : SiteAction I K C) {removed : SiteAnswer removal→ℕ} {since : ℤ}
    (hallowed : ∀ s' : Chronicle I K C T,since ≤ s'.1.now →
      Allowed retention t s'.1 s'.2 i removal) (rounds : ℕ) (hsince : since ≤ s.1.now) :
    keeps retention t
      (atSite i (pruneLoop removal removed rounds)) (fun _ s' _ => since ≤ s'.1.now) s () := by
  induction rounds generalizing s with
  | zero => exact hsince
  | succ rounds ih =>
    refine safe_request fun s' _ hrely => ?_
    have hlater : (s.1.now : ℤ) ≤ s'.1.now := by exact_mod_cast hrely.later
    have hsince' := hsince.trans hlater
    refine ⟨hallowed s' hsince',fun _ answer _ _ _ => ?_⟩
    dsimp only [done_bind]
    split_ifs
    · exact hsince'
    · exact ih hsince'

theorem safe_pruneHistory (rounds : ℕ) : keeps retention t
      (atSite i (pruneHistory retention rounds)) (fun _ _ _ => True) s () := by
  refine safe_request fun s' _ _ => ⟨trivial,fun choice now site' hontime hsite => ?_⟩
  have hnow : (now : ℤ)*1000000 ≤ s'.1.now := by
    cases choice with
    | node inner =>
      cases inner with
      | clock stamp =>
        obtain rfl : stamp=⟨s'.1.now,s'.1.now/1000000⟩ := eq_of_beq hontime
        cases hsite
        show ((s'.1.now/1000000 : ℕ) : ℤ)*1000000 ≤ s'.1.now
        omega
      | _ => cases hsite
    | _ => cases hsite
  dsimp only [done_bind]
  rw [embed_bind]
  have hevents : keeps retention t (atSite i (pruneLoop (.pruneEvents (now-retention)) id rounds))
      (fun _ s₁ _ => (now : ℤ)*1000000 ≤ s₁.1.now)
      (s'.1.after i site',s'.2++applied i site' .timestamp now) () :=
    safe_pruneLoop (.pruneEvents (now-retention)) (fun _ _ => trivial) rounds hnow
  refine safe_bind (safe_mono hevents fun _ s₁ _ hsince => ?_)
  refine safe_mono (safe_pruneLoop (.pruneTombstones (now-retention)) (fun s₂ hsince₂ => ?_) rounds
    hsince) fun _ _ _ _ => trivial
  show (now-retention+retention)*1000000≤(s₂.1.now : ℤ)
  rwa [sub_add_cancel]

variable {arrives : TimedWorld I K C T→Event I K C→Prop}

/-- Whatever may be started is safe. -/
theorem timedRules_respect : Respects (keepingMachine I K C T retention)
      (recordedRules (timedRules arrives retention) (changes I K C T))
      (discipline I K C T retention) fun _ _ _ _ => True where
  starts s _ t program _ hstarts := by
    cases hstarts with
    | delivery i event _ =>
      unfold onNode
      rw [embed_bind]
      exact safe_bind safe_applyEvent
    | write i cluster writeClass key content conditions =>
      unfold onNode
      rw [embed_bind]
      refine safe_bind (safe_locked fun s' hready => ?_)
      refine safe_commitStagedLocked (safeHook_localChange cluster writeClass)
        (fun event heq => ?_) hready
      cases heq
    | deletion i cluster writeClass key conditions =>
      unfold onNode
      rw [embed_bind]
      exact safe_bind (safe_deleteObjectConditional (safeHook_localChange cluster writeClass))
    | pruning i rounds => exact safe_pruneHistory rounds
  environment s _ s' hmove hkept := by
    obtain ⟨⟨now,hlater,hworld⟩,hhistory⟩ := hmove
    have hhistory' : s'.2=s.2 := hhistory
    have hexpired : ∀ version,Expired retention s.1 version→Expired retention s'.1 version := by
      intro version hbefore
      unfold Expired at hbefore ⊢
      rw [hworld]
      have hcast : (s.1.now : ℤ)≤now := by exact_mod_cast hlater
      exact lt_of_lt_of_le hbefore hcast
    refine ⟨⟨fun i key state hstate => ?_,fun change hchange hdeleted => ?_,?_⟩,fun t => ⟨?_,?_⟩⟩
    · rw [hworld] at hstate ⊢
      exact hkept.recorded i key state hstate
    · rw [hhistory'] at hchange
      refine (hkept.covered change hchange hdeleted).imp (fun hcurrent => ?_)
        (hexpired change.version)
      rwa [hworld]
    · rw [hhistory']
      exact hkept.ordered
    · rwa [hworld]
    · intro i key hheld
      rw [hhistory',hworld]
      exact ⟨hheld,fun _ hchange _ _ _ => hchange⟩
  crash _ _ _ hcrash := hcrash.1.elim

variable [DecidableEq T]

/-- With one clock, versions that are the times of their changes, and peers' writes that are
committed at most the retention time after their versions, no node ever applies a write of a
key that is older than a deletion it has applied, however deliveries, local changes and
prunings with that retention time interleave. -/
theorem late_writes_refused
    {start : Pool (TimedAction I K C) TimedAnswer T (TimedWorld I K C T) Unit}
    {pool : Pool (TimedAction I K C) TimedAnswer T (TimedWorld I K C T×List (Applied I K)) Unit}
    (hidle : ∀ t,start.tasks t=none)
    (hrecorded : ∀ i key state,(start.world.sites i).node.db.versions key=some state →
      state.version.micros<((start.world.sites i).recordedAt key+1)*1000000)
    (hreach : Reachable (recorded ((timedMachine I K C T).restrict (timely retention))
        (changes I K C T)) (recordedRules (timedRules arrives retention) (changes I K C T))
      (withHistory start []) pool) :
    pool.world.2.Pairwise fun earlier later => earlier.node=later.node→earlier.key=later.key →
      earlier.deleted=true→later.deleted=false→¬later.version<earlier.version := by
  have hstart : Holds (keepingMachine I K C T retention) (discipline I K C T retention)
      (fun _ _ _ _ => True) (withHistory start []) := by
    refine ⟨(),⟨hrecorded,(fun _ hnone => by cases hnone),List.Pairwise.nil⟩,?_⟩
    intro t program htask
    rw [show (withHistory start ([] : List (Applied I K))).tasks t=none from hidle t] at htask
    cases htask
  obtain ⟨_,hkept⟩ := (hstart.reachable timedRules_respect hreach).inv
  exact hkept.ordered

end Programs

section Samples

/-- A pool of the sample nodes. -/
abbrev SamplePool :=
  Pool (TimedAction ℕ ℕ ℕ) TimedAnswer ℕ (TimedWorld ℕ ℕ ℕ ℕ×List (Applied ℕ ℕ)) Unit

/-- Requests of the tasks of a sample. -/
abbrev SampleMoves := List (ℕ×SiteChoice ℕ ℕ)

/-- The machine of a sample, with its history. -/
abbrev SampleMachine :=
  Machine (TimedAction ℕ ℕ ℕ) TimedAnswer ℕ (TimedWorld ℕ ℕ ℕ ℕ×List (Applied ℕ ℕ)) (SiteChoice ℕ ℕ)

/-- Events of node 1 on one key, by the times of their versions. -/
def sampleEvent (number : ℕ) (content : Option ℕ) (micros : ℕ) : Event ℕ ℕ ℕ :=
  ⟨(1,number),1,0,content,[],[],micros/1000000,micros⟩

/-- Nodes without versions. -/
def sampleWorld (now : ℕ) : TimedWorld ℕ ℕ ℕ ℕ :=
  ⟨now,fun _ => ⟨⟨fun _ => none,fun _ => true,⟨fun _ => none,[]⟩,fun _ => none,0,[]⟩,
    fun _ => 0,fun _ => []⟩⟩

/-- A task that applies an event on node 0. -/
def sampleDelivery (event : Event ℕ ℕ ℕ) : Program (TimedAction ℕ ℕ ℕ) TimedAnswer Unit :=
  onNode 0 ((applyEvent event).bind fun _ => .done ())

/-- Deliveries of a deletion and of two writes, and a pruning. -/
def samplePool (now : ℕ) (deletion first second : Event ℕ ℕ ℕ) (retention : ℤ) : SamplePool :=
  ⟨(sampleWorld now,[]),update (update (update (update
    (fun _ => none) 0 (some (sampleDelivery deletion))) 1 (some (sampleDelivery first)))
    2 (some (atSite 0 (pruneHistory retention 1)))) 3 (some (sampleDelivery second))⟩

/-- The choice of a request that reads the clock. -/
def readsClock (now : ℕ) : SiteChoice ℕ ℕ := .node (.clock ⟨now,now/1000000⟩)

/-- The requests of a delivery before it takes the lock. -/
def firstLooks (t : ℕ) : SampleMoves := [(t,.node .work),(t,.node .work)]

/-- The requests of a deletion of an object that is not there. -/
def deletes (t now : ℕ) : SampleMoves :=
  firstLooks t++[(t,.node .work),(t,.node .work),(t,.node .work),(t,readsClock now),(t,.node .work)]

/-- The requests of a write once it has looked. -/
def writes (t now : ℕ) : SampleMoves :=
  [(t,.node .work),(t,.node .work),(t,.node .work),(t,readsClock now),(t,readsClock now),
    (t,.node .work)]

/-- Some requests, and others at a later time. -/
def runLater (machine : SampleMachine) (before : SampleMoves) (now : ℕ) (after : SampleMoves)
    (pool : SamplePool) : Option SamplePool :=
  (pool.runs machine before).bind fun pool =>
  if pool.world.1.now≤now then
    (⟨({pool.world.1 with now := now},pool.world.2),pool.tasks⟩ : SamplePool).runs machine after
  else none

/-- What runs later is reached from where all four have started. -/
theorem reachable_runLater {machine : SampleMachine} (arrives : TimedWorld ℕ ℕ ℕ ℕ→Event ℕ ℕ ℕ→Prop)
    {retention : ℤ} {start now : ℕ} {deletion first second : Event ℕ ℕ ℕ}
    {before after : SampleMoves} {pool : SamplePool} (hdeletion : arrives (sampleWorld start) deletion)
    (hfirst : arrives (sampleWorld start) first) (hsecond : arrives (sampleWorld start) second)
    (hruns : runLater machine before now after
      (samplePool start deletion first second retention)=some pool) :
    Reachable machine (recordedRules (timedRules arrives retention) (changes ℕ ℕ ℕ ℕ))
      (withHistory ⟨sampleWorld start,fun _ => none⟩ []) pool := by
  have hstarted : Reachable machine (recordedRules (timedRules arrives retention) (changes ℕ ℕ ℕ ℕ))
      (withHistory ⟨sampleWorld start,fun _ => none⟩ [])
      (samplePool start deletion first second retention) :=
    .step (.step (.step (.step .start (.start rfl (.delivery 0 _ hdeletion)))
      (.start rfl (.delivery 0 _ hfirst))) (.start rfl (.pruning 0 1)))
      (.start rfl (.delivery 0 _ hsecond))
  obtain ⟨middle,hbefore,hafter⟩ := bind_eq_some_iff.mp hruns
  split_ifs at hafter with hle
  have hmove : (recordedRules (timedRules arrives retention) (changes ℕ ℕ ℕ ℕ)).environment
      middle.world ({middle.world.1 with now := now},middle.world.2) := ⟨⟨now,hle,rfl⟩,rfl⟩
  exact ((hstarted.runs hbefore).step (.environment hmove)).runs hafter

/-- The machine of the sample, with a retention time of ten seconds. -/
abbrev sampleMachine : SampleMachine :=
  recorded ((timedMachine ℕ ℕ ℕ ℕ).restrict (timely 10)) (changes ℕ ℕ ℕ ℕ)

/-- What was applied in the sample: the older write is not there. -/
def sampleApplied : List (Applied ℕ ℕ) := [⟨0,0,⟨5000000,1⟩,true⟩,⟨0,0,⟨15000000,1⟩,false⟩]

/-- A deletion is applied and an older write refused. Fifteen seconds later the tombstone is
forgotten, and a newer write applied: no write is applied after a newer deletion. -/
theorem sample_late_writes_refused : ∃ pool : SamplePool,
      Reachable sampleMachine (recordedRules (timedRules (fun _ _ => True) 10) (changes ℕ ℕ ℕ ℕ))
        (withHistory ⟨sampleWorld 5000000,fun _ => none⟩ []) pool ∧ pool.world.2=sampleApplied ∧
      sampleApplied.Pairwise fun earlier later => earlier.node=later.node→earlier.key=later.key →
        earlier.deleted=true→later.deleted=false→¬later.version<earlier.version := by
  have hruns : (runLater sampleMachine
      (deletes 0 5000000++firstLooks 1++[(1,.node .work)]) 20000000
      ([(2,readsClock 20000000),(2,.events [(1,0),(1,1)]),(2,.tombstones [0])]++
        firstLooks 3++writes 3 20000000)
      (samplePool 5000000 (sampleEvent 0 none 5000000) (sampleEvent 1 (some 7) 3000000)
        (sampleEvent 2 (some 8) 15000000) 10)).map (fun pool => pool.world.2)=
          some sampleApplied := by
    decide +kernel
  obtain ⟨pool,hpool,hhistory⟩ := map_eq_some_iff.mp hruns
  have hreach := reachable_runLater (fun _ _ => True) trivial trivial trivial hpool
  refine ⟨pool,hreach,hhistory,?_⟩
  rw [← hhistory]
  exact late_writes_refused (fun _ => rfl) (fun _ _ _ hstate => by cases hstate) hreach

/-- A write of time 10.0 s arrives at 10.9 s, with a retention time of one second, and finds no
version. Then a deletion of time 10.5 s is applied and its tombstone forgotten at 13 s, and the
write is applied after it. -/
theorem timely_arrival_too_late : ∃ pool : SamplePool,
      Reachable (recorded ((timedMachine ℕ ℕ ℕ ℕ).restrict punctual) (changes ℕ ℕ ℕ ℕ))
        (recordedRules (timedRules (inTime 1) 1) (changes ℕ ℕ ℕ ℕ))
        (withHistory ⟨sampleWorld 10900000,fun _ => none⟩ []) pool ∧
      pool.world.2=[⟨0,0,⟨10500000,1⟩,true⟩,⟨0,0,⟨10000000,1⟩,false⟩] ∧
      (pool.world.1.sites 0).node.content 0=some 7 := by
  have hruns : (runLater (recorded ((timedMachine ℕ ℕ ℕ ℕ).restrict punctual) (changes ℕ ℕ ℕ ℕ))
      (firstLooks 1++deletes 0 10900000) 13000000
      ([(2,readsClock 13000000),(2,.events [(1,0)]),(2,.tombstones [0])]++writes 1 13000000)
      (samplePool 10900000 (sampleEvent 0 none 10500000) (sampleEvent 1 (some 7) 10000000)
        (sampleEvent 2 (some 8) 10600000) 1)).map
        (fun pool => (pool.world.2,(pool.world.1.sites 0).node.content 0))=
          some ([⟨0,0,⟨10500000,1⟩,true⟩,⟨0,0,⟨10000000,1⟩,false⟩],some 7) := by
    decide +kernel
  obtain ⟨pool,hpool,hvalues⟩ := map_eq_some_iff.mp hruns
  obtain ⟨hhistory,hcontent⟩ := Prod.mk.inj hvalues
  have hreach := reachable_runLater (inTime 1) (by decide) (by decide) (by decide) hpool
  exact ⟨pool,hreach,hhistory,hcontent⟩

end Samples

end NebularOs.TombstoneRetention
