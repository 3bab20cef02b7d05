import Mathlib
import NebularOs.DeliverySteps
import NebularOs.ReplicatedCluster
import NebularOs.TaskHistories

/-!
# How long tombstones are kept

A node forgets a tombstone some time after it has recorded it, by the second. After that
an older write would be applied again. All nodes share one clock here, versions are the
times of their changes, and no node records a change before its time. A write that is
applied at most the retention time after its version then never comes too late: as long
as it may come, the tombstone of every newer deletion is there. It is not enough that the
event arrives in that time.

Deliveries, local changes and prunings interleave request by request. A pruning takes no
lock, so it may forget a tombstone between the check and the commit of a write.
-/

namespace NebularOs.TombstoneRetention

open BlobFilenames RequestPrograms TaskPools TaskHistories ReplicationLog ReplicatedNode
open ReplicatedCluster DeliveryWorker Program
open EngineState (StorageError)

variable {I K C T : Type}

/-- Nodes with one clock. -/
structure TimedWorld (I K C T : Type) where
  /-- The clock, in microseconds. -/
  now : ℕ
  /-- The nodes. -/
  sites : I→Site I K C T

/-- Requests of tasks, each on one node. -/
abbrev TimedAction (I K C : Type) := I×SiteAction I K C

/-- Answers of the requests. -/
abbrev TimedAnswer (a : TimedAction I K C) : Type := SiteAnswer a.2

/-- Whoever reads the clock reads the time. -/
def onTime (now : ℕ) : SiteChoice I K→Bool
  | .node (.clock stamp) => stamp==⟨now,now/1000000⟩
  | _ => true

section Steps

variable [DecidableEq I] [DecidableEq K]

/-- The machine of nodes with one clock. -/
def timedMachine (I K C T : Type) [DecidableEq I] [DecidableEq K] :
    Machine (TimedAction I K C) TimedAnswer T (TimedWorld I K C T) (SiteChoice I K) where
  exec t a choice w :=
    if onTime w.now choice then
      (siteExec a.1 t a.2 choice (w.sites a.1)).map fun outcome =>
        (outcome.1,{w with sites := Function.update w.sites a.1 outcome.2})
    else none

/-- Nothing is recorded before its version, and the version of a local change is its time. -/
def punctual [LinearOrder I] (_ : T) (a : TimedAction I K C) (_ : SiteChoice I K)
    (w : TimedWorld I K C T) : Bool :=
  match a.2 with
  | .request (.recordRemoteChange _ event) => decide (event.effectiveVersion.micros≤w.now)
  | .request (.recordLocalChange key _ _ _) =>
    decide ((w.sites a.1).node.db.nextMicros key w.now=w.now)
  | _ => true

/-- It is the retention time after the version of an event at most. -/
def inTime (retention : ℤ) (w : TimedWorld I K C T) (event : Event I K C) : Prop :=
  (w.now : ℤ)≤event.effectiveVersion.micros+retention*1000000

instance (retention : ℤ) (w : TimedWorld I K C T) (event : Event I K C) :
    Decidable (inTime retention w event) := inferInstanceAs (Decidable (_≤_))

/-- Nodes are punctual, and a peer's write is applied in the retention time. -/
def timely [LinearOrder I] (retention : ℤ) (t : T) (a : TimedAction I K C)
    (choice : SiteChoice I K) (w : TimedWorld I K C T) : Bool :=
  match a.2 with
  | .request (.commitPut (.peer event) _ _) => decide (inTime retention w event)
  | _ => punctual t a choice w

end Steps

/-- An operation of a node among the others. -/
def onNode {α : Type} (i : I) (program : Prog I K C α) :
    Program (TimedAction I K C) TimedAnswer α :=
  program.embed (fun a => (i,.request a)) fun _ answer => answer

/-- A pruning of a node among the others. -/
def atSite {α : Type} (i : I) (program : SiteProg I K C α) :
    Program (TimedAction I K C) TimedAnswer α :=
  program.embed (fun a => (i,a)) fun _ answer => answer

/-- Deliveries of some events, local changes and prunings that may be started. -/
inductive Started [LinearOrder I] (arrives : Event I K C→Prop) (retention : ℤ) :
    Program (TimedAction I K C) TimedAnswer Unit→Prop
  /-- An event is delivered to a node. -/
  | delivery (i : I) (event : Event I K C) (h : arrives event) :
      Started arrives retention (onNode i ((applyEvent event).bind fun _ => .done ()))
  /-- A client writes an object. -/
  | write (i : I) (cluster : Cluster K) (writeClass : Text) (key : K) (content : C)
      (conditions : Option C→Bool) :
      Started arrives retention (onNode i ((putObjectConditional .client key content conditions
        (some (localChange cluster writeClass))).bind fun _ => .done ()))
  /-- A client deletes an object. -/
  | deletion (i : I) (cluster : Cluster K) (writeClass : Text) (key : K)
      (conditions : Option C→Bool) :
      Started arrives retention (onNode i ((deleteObjectConditional key conditions
        (some (localChange cluster writeClass))).bind fun _ => .done ()))
  /-- A node prunes its history. -/
  | pruning (i : I) (rounds : ℕ) :
      Started arrives retention (atSite i (pruneHistory retention rounds))

/-- Runs of the nodes, on which events arrive at some times only: time passes. -/
def timedRules [LinearOrder I] (arrives : TimedWorld I K C T→Event I K C→Prop) (retention : ℤ) :
    Rules (TimedAction I K C) TimedAnswer (TimedWorld I K C T) Unit where
  starts w := Started (arrives w) retention
  environment w w' := ∃ now,w.now≤now ∧ w'={w with now := now}
  crash _ _ := False

/-- A change that a node has applied. -/
structure Applied (I K : Type) where
  /-- The node. -/
  node : I
  /-- Key of the object. -/
  key : K
  /-- Version of the change. -/
  version : Version I
  /-- The change was a deletion. -/
  deleted : Bool
  deriving DecidableEq

/-- What a request applies: a peer's write with its commit, and a deletion with its
tombstone. -/
def applied (i : I) (site' : Site I K C T) : (a : SiteAction I K C)→SiteAnswer a →
    List (Applied I K)
  | .request (.commitPut (.peer event) key _),committed =>
    if (committed : Bool) then [⟨i,key,event.effectiveVersion,false⟩] else []
  | .request (.recordRemoteChange key event),_ =>
    if event.content.isNone then [⟨i,key,event.effectiveVersion,true⟩] else []
  | .request (.recordLocalChange key committed _ _),recorded =>
    if (recorded : Bool) && committed.content.isNone then
      ((site'.node.db.versions key).map fun state => ⟨i,key,state.version,true⟩).toList
    else []
  | _,_ => []

/-- The history of peers' writes and of deletions, in order. -/
def changes (I K C T : Type) :
    Recorder (TimedAction I K C) TimedAnswer T (TimedWorld I K C T) (List (Applied I K)) where
  request _ a answer _ w' history := history++applied a.1 (w'.sites a.1) a.2 answer
  environment _ _ history := history
  crash history := history

section Effects

variable [DecidableEq I] [DecidableEq K]

/-- Requests that write or forget versions. -/
def changesVersions : SiteAction I K C→Bool
  | .request (.recordLocalChange _ _ _ _) | .request (.recordRemoteChange _ _)
  | .request (.recordRestored _ _) | .request (.storeIfAbsent _ _ _) | .pruneTombstones _ => true
  | _ => false

variable {i : I} {a : Action I K C} {t : T} {answer : Answer a} {choice : Choice}
  {node node' : Node I K C T}

theorem exec_versions (h : exec i t a choice node=some (answer,node'))
    (ha : changesVersions (.request a)=false) : node'.db.versions=node.db.versions := by
  funext key
  refine ReplicatedCluster.exec_versions h fun hkey => ?_
  cases a <;> first | exact False.elim hkey | cases ha

theorem versions_of_not_changesVersions {a : SiteAction I K C} {choice : SiteChoice I K}
    {site site' : Site I K C T} {answer : SiteAnswer a}
    (h : siteExec i t a choice site=some (answer,site')) (ha : changesVersions a=false) :
    site'.node.db.versions=site.node.db.versions ∧ site'.recordedAt=site.recordedAt := by
  by_cases hrequest : ∃ b,a=.request b
  · obtain ⟨b,rfl⟩ := hrequest
    obtain ⟨inner,recordedAt,_,hnode,hstamped,hrecorded⟩ := siteExec_request h
    have hstored : storedKey site.node b answer=none := by
      cases b <;> first | rfl | cases ha
    refine ⟨exec_versions hnode ha,?_⟩
    unfold stampedAt at hstamped
    rw [hstored] at hstamped
    exact hrecorded.trans (Option.some.inj hstamped).symm
  · obtain ⟨hrecorded,hother⟩ := otherEffect_of_siteExec h (not_exists.mp hrequest)
    refine ⟨?_,hrecorded⟩
    cases hother with
    | same hnode => rw [hnode]
    | removed hnode =>
      rw [hnode]
      rfl
    | forgot hkeys hnode => cases ha

/-- Requests that leave the locks. -/
def keepsLocks : Action I K C→Bool
  | .lock _ | .unlock _ => false
  | _ => true

theorem exec_holder_of_keepsLocks (ha : keepsLocks a=true)
    (h : exec i t a choice node=some (answer,node')) : node'.holder=node.holder := by
  cases a with
  | lock other | unlock other => cases ha
  | recordLocalChange _ _ _ _ =>
    rcases exec_recordLocalChange h with ⟨_,rfl⟩ | ⟨stamp,_,_,_,rfl⟩
    all_goals rfl
  | _ =>
    cases choice <;> cases h
    all_goals rfl

theorem exec_holder {u : T} (h : exec i t a choice node=some (answer,node'))
    (hunlock : ∀ key,a=.unlock key→node.holder key=some t) {key : K}
    (hheld : node.holder key=some u) (hu : u≠t) : node'.holder key=some u := by
  cases a with
  | lock other =>
    simp only [exec] at h
    split_ifs at h with hfree
    cases h
    have hne : key≠other := fun heq => by simp [← heq,hheld] at hfree
    exact (Function.update_of_ne hne _ _).trans hheld
  | unlock other =>
    cases h
    have hne : key≠other := fun heq => by
      have howner := hunlock other rfl
      rw [← heq,hheld] at howner
      exact hu (Option.some.inj howner)
    exact (Function.update_of_ne hne _ _).trans hheld
  | _ => rwa [exec_holder_of_keepsLocks rfl h]

theorem holder_kept {u : T} {a : SiteAction I K C} {choice : SiteChoice I K}
    {site site' : Site I K C T} {answer : SiteAnswer a}
    (h : siteExec i t a choice site=some (answer,site'))
    (hunlock : ∀ key,a=.request (.unlock key)→site.node.holder key=some t) {key : K}
    (hheld : site.node.holder key=some u) (hu : u≠t) : site'.node.holder key=some u := by
  by_cases hrequest : ∃ b,a=.request b
  · obtain ⟨b,rfl⟩ := hrequest
    obtain ⟨inner,_,_,hnode,_⟩ := siteExec_request h
    exact exec_holder hnode (fun other heq => hunlock other (congrArg SiteAction.request heq)) hheld hu
  · obtain ⟨_,hother⟩ := otherEffect_of_siteExec h (not_exists.mp hrequest)
    cases hother with
    | same hnode | removed hnode | forgot _ hnode => rwa [hnode]

end Effects

end NebularOs.TombstoneRetention
