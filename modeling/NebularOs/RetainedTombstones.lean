import Mathlib
import NebularOs.TimedNodes

/-!
# What covers an applied deletion

A deletion that a node has applied is covered by the version recorded for its key, or the
retention time has passed since. Requests keep this: a version is replaced by a newer one,
and only tombstones are forgotten whose time was recorded long enough ago. Seconds are
rounded down both when a tombstone is recorded and when it is forgotten.
-/

namespace NebularOs.TombstoneRetention

open BlobFilenames RequestPrograms TaskPools TaskHistories ReplicationLog ReplicatedNode
open ReplicatedCluster DeliveryWorker Program List Function
open EngineState (StorageError)

variable {I K C T : Type}

section Invariant

variable [LinearOrder I]

/-- A version after which the retention time has passed. -/
def Expired (retention : ℤ) (w : TimedWorld I K C T) (version : Version I) : Prop :=
  version.micros+retention*1000000<w.now

/-- An applied change is not newer than what is recorded for its key, or is out of date. -/
def Covered (retention : ℤ) (w : TimedWorld I K C T) (change : Applied I K) : Prop :=
  (∃ state,(w.sites change.node).node.db.versions change.key=some state ∧
    change.version ≤ state.version) ∨ Expired retention w change.version

/-- No deletion of a key that a node has applied is newer than a version, unless it is out
of date. -/
def Unbeaten (retention : ℤ) (w : TimedWorld I K C T) (history : List (Applied I K)) (i : I)
    (key : K) (version : Version I) : Prop :=
  ∀ change∈history,change.node=i → change.key=key → change.deleted=true →
    change.version≤version ∨ Expired retention w change.version

/-- A write after a deletion is not older. -/
def InOrder (earlier later : Applied I K) : Prop :=
  earlier.node=later.node→earlier.key=later.key→earlier.deleted=true→later.deleted=false →
    ¬later.version<earlier.version

/-- Tombstones are kept long enough. -/
structure Kept (retention : ℤ) (w : TimedWorld I K C T) (history : List (Applied I K)) : Prop where
  /-- Versions were recorded in the second of their time or later. -/
  recorded : ∀ i key state,(w.sites i).node.db.versions key=some state →
    state.version.micros<((w.sites i).recordedAt key+1)*1000000
  /-- Deletions are covered. -/
  covered : ∀ change∈history,change.deleted=true→ Covered retention w change
  /-- No node has applied a write after a newer deletion. -/
  ordered : history.Pairwise InOrder

/-- Changes by others that a task puts up with: time passes, its locks stay with it, and no
deletion is applied under them. -/
structure Tolerated (t : T) (w : TimedWorld I K C T) (history : List (Applied I K))
    (w' : TimedWorld I K C T) (history' : List (Applied I K)) : Prop where
  /-- Time passes. -/
  later : w.now≤w'.now
  /-- Locks stay, and nothing is deleted under them. -/
  held : ∀ i key,(w.sites i).node.holder key=some t→(w'.sites i).node.holder key=some t ∧
    ∀ change∈history',change.node=i → change.key=key → change.deleted=true → change∈history

/-- How tasks share the nodes. -/
def discipline (I K C T : Type) [LinearOrder I] (retention : ℤ) :
    Discipline (TimedAction I K C) (TimedWorld I K C T×List (Applied I K)) Unit T where
  inv s _ := Kept retention s.1 s.2
  rely t s _ s' _ := Tolerated t s.1 s.2 s'.1 s'.2
  good _ _ _ := True
  rely_refl _ _ _ := ⟨le_rfl,fun _ _ hheld => ⟨hheld,fun _ hchange _ _ _ => hchange⟩⟩
  rely_trans h h' := by
    refine ⟨h.later.trans h'.later,fun i key hheld => ?_⟩
    obtain ⟨hmiddle,hbefore⟩ := h.held i key hheld
    obtain ⟨hafter,hsince⟩ := h'.held i key hmiddle
    refine ⟨hafter,fun change hchange hnode hkey hdeleted => ?_⟩
    exact hbefore change (hsince change hchange hnode hkey hdeleted) hnode hkey hdeleted

variable {retention : ℤ} {w : TimedWorld I K C T} {history : List (Applied I K)} {i : I}

/-- The world after a step of a node. -/
def TimedWorld.after [DecidableEq I] (w : TimedWorld I K C T) (i : I) (site' : Site I K C T) :
    TimedWorld I K C T :=
  {w with sites := update w.sites i site'}

omit [LinearOrder I] in
theorem TimedWorld.after_self [DecidableEq I] (w : TimedWorld I K C T) (i : I)
    (site' : Site I K C T) : (w.after i site').sites i=site' := by
  simp [TimedWorld.after]

omit [LinearOrder I] in
theorem TimedWorld.after_of_ne [DecidableEq I] (w : TimedWorld I K C T) {i j : I}
    (site' : Site I K C T) (hj : j≠i) : (w.after i site').sites j=w.sites j := by
  simp [TimedWorld.after,hj]

/-- A step that leaves the versions keeps the tombstones. The writes that it applies must
not be older than deletions. -/
theorem Kept.same (h : Kept retention w history) {site' : Site I K C T}
    (hversions : site'.node.db.versions=(w.sites i).node.db.versions)
    (hrecorded : site'.recordedAt=(w.sites i).recordedAt) {new : List (Applied I K)}
    (hnew : ∀ change∈new,change.deleted=false ∧ ∀ earlier∈history,InOrder earlier change) :
    Kept retention (w.after i site') (history++new) := by
  have hsites : ∀ j,((w.after i site').sites j).node.db.versions=(w.sites j).node.db.versions ∧
      ((w.after i site').sites j).recordedAt=(w.sites j).recordedAt := by
    intro j
    by_cases hj : j=i
    · subst hj
      rw [w.after_self]
      exact ⟨hversions,hrecorded⟩
    · rw [w.after_of_ne site' hj]
      exact ⟨rfl,rfl⟩
  refine ⟨fun j key state hstate => ?_,fun change hchange hdeleted => ?_,?_⟩
  · rw [(hsites j).1] at hstate
    rw [(hsites j).2]
    exact h.recorded j key state hstate
  · rcases mem_append.mp hchange with hold | hlast
    · have hcovered := h.covered change hold hdeleted
      unfold Covered at hcovered ⊢
      rwa [(hsites change.node).1]
    · rw [(hnew change hlast).1] at hdeleted
      cases hdeleted
  · refine pairwise_append.mpr ⟨h.ordered,?_,fun earlier hearlier later hlater =>
      (hnew later hlater).2 earlier hearlier⟩
    refine pairwise_of_forall_mem_list fun earlier hearlier later _ _ _ hdeleted => ?_
    rw [(hnew earlier hearlier).1] at hdeleted
    cases hdeleted

/-- The version of a key was recorded at a time. -/
structure Stored [DecidableEq K] (site site' : Site I K C T) (key : K) (state : KeyVersion I)
    (now : ℕ) : Prop where
  /-- The key has the version, and other keys are left. -/
  versions : ∀ other,site'.node.db.versions other=
    if other=key then some state else site.node.db.versions other
  /-- The time is noted in seconds. -/
  recordedAt : site'.recordedAt=update site.recordedAt key (now/1000000)

/-- Recording a version that is not older than the applied deletions keeps the tombstones. -/
theorem Kept.stored [DecidableEq K] (h : Kept retention w history) {site' : Site I K C T} {key : K}
    {state : KeyVersion I} (hstored : Stored (w.sites i) site' key state w.now)
    (htime : state.version.micros≤w.now)
    (hunbeaten : Unbeaten retention w history i key state.version) {new : List (Applied I K)}
    (hnew : ∀ change∈new,change.node=i ∧ change.key=key ∧ change.version=state.version ∧
      change.deleted=true) : Kept retention (w.after i site') (history++new) := by
  refine ⟨fun j other current hcurrent => ?_,fun change hchange hdeleted => ?_,?_⟩
  · by_cases hj : j=i
    · subst hj
      rw [w.after_self] at hcurrent ⊢
      rw [hstored.versions other] at hcurrent
      rw [hstored.recordedAt]
      split_ifs at hcurrent with hkey
      · cases hcurrent
        subst hkey
        rw [update_self]
        push_cast
        omega
      · rw [update_of_ne hkey]
        exact h.recorded j other current hcurrent
    · rw [w.after_of_ne site' hj] at hcurrent ⊢
      exact h.recorded j other current hcurrent
  · rcases mem_append.mp hchange with hold | hlast
    · by_cases hsame : change.node=i ∧ change.key=key
      · -- The new version takes the place of the one that covered the deletion.
        rcases hunbeaten change hold hsame.1 hsame.2 hdeleted with hle | hexpired
        · refine Or.inl ⟨state,?_,hle⟩
          rw [hsame.1,w.after_self,hstored.versions,if_pos hsame.2]
        · exact Or.inr hexpired
      · rcases h.covered change hold hdeleted with ⟨current,hcurrent,hle⟩ | hexpired
        · refine Or.inl ⟨current,?_,hle⟩
          by_cases hj : change.node=i
          · rwa [hj,w.after_self,hstored.versions,if_neg fun hkey => hsame ⟨hj,hkey⟩,← hj]
          · rwa [w.after_of_ne site' hj]
        · exact Or.inr hexpired
    · obtain ⟨hnode,hkey,hversion,_⟩ := hnew change hlast
      refine Or.inl ⟨state,?_,hversion.le⟩
      rw [hnode,w.after_self,hstored.versions,if_pos hkey]
  · refine pairwise_append.mpr ⟨h.ordered,?_,fun earlier _ later hlater _ _ _ hput => ?_⟩
    · refine pairwise_of_forall_mem_list fun earlier _ later hlater _ _ _ hput => ?_
      rw [(hnew later hlater).2.2.2] at hput
      cases hput
    · rw [(hnew later hlater).2.2.2] at hput
      cases hput

theorem Kept.expired_of_isForgettable (h : Kept retention w history) {before : ℤ} {key : K}
    (hbefore : (before+retention)*1000000≤w.now)
    (hkey : (w.sites i).isForgettable before key=true) {state : KeyVersion I}
    (hstate : (w.sites i).node.db.versions key=some state) {version : Version I}
    (hle : version ≤ state.version) : Expired retention w version := by
  have hrecorded := h.recorded i key state hstate
  have hold : ((w.sites i).recordedAt key : ℤ)<before := by
    exact of_decide_eq_true (Bool.and_eq_true_iff.mp hkey).2
  have hmicros : version.micros ≤ state.version.micros := by
    by_contra hlt
    exact absurd hle (not_le.mpr (Version.lt_of_micros_lt (not_le.mp hlt)))
  unfold Expired
  omega

/-- Forgetting old tombstones leaves the others. -/
theorem Kept.forgot [DecidableEq K] (h : Kept retention w history) {site' : Site I K C T}
    {before : ℤ} {keys : List K} (hbefore : (before+retention)*1000000≤w.now)
    (hkeys : ∀ key∈keys,(w.sites i).isForgettable before key=true)
    (hversions : site'.node.db.versions=fun key =>
      if key∈keys then none else (w.sites i).node.db.versions key)
    (hrecorded : site'.recordedAt=(w.sites i).recordedAt) :
    Kept retention (w.after i site') history := by
  refine ⟨fun j key state hstate => ?_,fun change hchange hdeleted => ?_,h.ordered⟩
  · by_cases hj : j=i
    · subst hj
      rw [w.after_self,hversions] at hstate
      rw [w.after_self,hrecorded]
      dsimp only at hstate
      split_ifs at hstate
      exact h.recorded j key state hstate
    · rw [w.after_of_ne site' hj] at hstate ⊢
      exact h.recorded j key state hstate
  · rcases h.covered change hchange hdeleted with ⟨state,hstate,hle⟩ | hexpired
    · by_cases hgone : change.node=i ∧ change.key∈keys
      · rw [hgone.1] at hstate
        exact Or.inr (h.expired_of_isForgettable hbefore (hkeys _ hgone.2) hstate hle)
      refine Or.inl ⟨state,?_,hle⟩
      by_cases hj : change.node=i
      · rw [hj,w.after_self,hversions]
        dsimp only
        rwa [if_neg fun hkey => hgone ⟨hj,hkey⟩,← hj]
      · rwa [w.after_of_ne site' hj]
    · exact Or.inr hexpired

end Invariant

section Requests

variable [LinearOrder I] [DecidableEq K] {retention : ℤ} {t : T} {w : TimedWorld I K C T}
  {history : List (Applied I K)} {i : I} {a : SiteAction I K C} {choice : SiteChoice I K}
  {answer : SiteAnswer a} {site' : Site I K C T}

/-- What a task must know when it issues a request. -/
def Allowed (retention : ℤ) (t : T) (w : TimedWorld I K C T) (history : List (Applied I K)) (i : I) :
    SiteAction I K C→Prop
  | .request (.unlock key) | .request (.recordLocalChange key _ _ _) =>
    (w.sites i).node.holder key=some t
  | .request (.commitPut (.peer event) key _) =>
    Unbeaten retention w history i key event.effectiveVersion
  | .request (.recordRemoteChange key event) => (w.sites i).node.holder key=some t ∧
    Unbeaten retention w history i key event.effectiveVersion
  | .request (.recordRestored _ _) | .request (.storeIfAbsent _ _ _) => False
  | .pruneTombstones before => (before+retention)*1000000≤w.now
  | _ => True

theorem timedExec_eq_some {w' : TimedWorld I K C T} :
    (timedMachine I K C T).exec t (i,a) choice w=some (answer,w') ↔
      onTime w.now choice=true ∧ ∃ site',siteExec i t a choice (w.sites i)=some (answer,site') ∧
        w'=w.after i site' := by
  unfold timedMachine
  dsimp only
  split_ifs with hontime
  · simp only [Option.map_eq_some_iff,Prod.exists,Prod.mk.injEq,hontime,true_and]
    constructor
    · rintro ⟨answer',site',hsite,rfl,rfl⟩
      exact ⟨site',hsite,rfl⟩
    · rintro ⟨site',hsite,rfl⟩
      exact ⟨answer,site',hsite,rfl,rfl⟩
  · simp [hontime]

theorem stored_local {key : K} {committed : Committed C} {writeClass group : Text}
    (hontime : onTime w.now choice=true)
    (hmicros : (w.sites i).node.db.nextMicros key w.now=w.now)
    (hsite : siteExec i t (.request (.recordLocalChange key committed writeClass group)) choice
      (w.sites i)=some (true,site')) :
    Stored (w.sites i) site' key ⟨⟨w.now,i⟩,committed.content.isNone⟩ w.now := by
  obtain ⟨inner,recordedAt,rfl,hnode,hstamped,hrecorded⟩ := siteExec_request hsite
  rcases exec_recordLocalChange hnode with ⟨hfalse,_⟩ | ⟨stamp,rfl,_,_,hnode'⟩
  · cases hfalse
  obtain rfl : stamp=⟨w.now,w.now/1000000⟩ := eq_of_beq hontime
  refine ⟨fun other => ?_,?_⟩
  · rw [hnode']
    refine withLocalChange_versions.trans ?_
    rw [hmicros]
  · rw [hrecorded]
    exact (Option.some.inj hstamped).symm

/-- A local change that is not recorded leaves the versions. -/
theorem same_of_unrecorded {key : K} {committed : Committed C} {writeClass group : Text}
    (hsite : siteExec i t (.request (.recordLocalChange key committed writeClass group)) choice
      (w.sites i)=some (false,site')) : site'.node.db.versions=(w.sites i).node.db.versions ∧
      site'.recordedAt=(w.sites i).recordedAt := by
  obtain ⟨inner,recordedAt,_,hnode,hstamped,hrecorded⟩ := siteExec_request hsite
  rcases exec_recordLocalChange hnode with ⟨_,hnode'⟩ | ⟨_,_,htrue,_⟩
  · rw [hnode']
    exact ⟨rfl,hrecorded.trans (Option.some.inj hstamped).symm⟩
  · cases htrue

theorem stored_remote {key : K} {event : Event I K C}
    {answer : SiteAnswer (.request (.recordRemoteChange key event : Action I K C))}
    (hontime : onTime w.now choice=true)
    (hsite : siteExec i t (.request (.recordRemoteChange key event)) choice (w.sites i)=
      some (answer,site')) : Stored (w.sites i) site' key event.keyVersion w.now := by
  obtain ⟨inner,recordedAt,rfl,hnode,hstamped,hrecorded⟩ := siteExec_request hsite
  have hnode' := congrArg (fun outcome => outcome.2.db) (Option.some.inj hnode)
  cases inner with
  | clock stamp =>
    obtain rfl : stamp=⟨w.now,w.now/1000000⟩ := eq_of_beq hontime
    refine ⟨fun other => ?_,?_⟩
    · rw [← hnode']
      exact recordRemoteChange_versions
    · rw [hrecorded]
      exact (Option.some.inj hstamped).symm
  | _ => cases hstamped

omit [DecidableEq K] in
theorem Kept.unbeaten (h : Kept retention w history) {key : K} {version : Version I}
    (hnewer : ∀ state,(w.sites i).node.db.versions key=some state→state.version≤version) :
    Unbeaten retention w history i key version := by
  intro change hchange hnode hkey hdeleted
  rcases h.covered change hchange hdeleted with ⟨state,hstate,hle⟩ | hexpired
  · rw [hnode,hkey] at hstate
    exact Or.inl (hle.trans (hnewer state hstate))
  · exact Or.inr hexpired

omit [DecidableEq K] in
theorem inOrder_of_unbeaten {key : K} {version : Version I}
    (hunbeaten : Unbeaten retention w history i key version)
    (htime : (w.now : ℤ)≤version.micros+retention*1000000) {earlier : Applied I K}
    (hearlier : earlier∈history) : InOrder earlier ⟨i,key,version,false⟩ := by
  intro hnode hkey hdeleted _ hlt
  rcases hunbeaten earlier hearlier hnode hkey hdeleted with hle | hexpired
  · exact absurd hlt (not_lt.mpr hle)
  have hmicros : version.micros≤earlier.version.micros := by
    by_contra hgt
    exact absurd hlt (not_lt.mpr (Version.lt_of_micros_lt (not_le.mp hgt)).le)
  unfold Expired at hexpired
  omega

omit [LinearOrder I] [DecidableEq K] in
theorem applied_of_not_changesVersions (ha : changesVersions a=false) {change : Applied I K}
    (hchange : change∈applied i site' a answer) :
    ∃ event key content,a=.request (.commitPut (.peer event) key content) ∧
      change=⟨i,key,event.effectiveVersion,false⟩ := by
  cases a with
  | request b =>
    cases b with
    | commitPut writer key content =>
      cases writer with
      | peer event =>
        simp only [applied] at hchange
        split_ifs at hchange
        · exact ⟨event,key,content,rfl,mem_singleton.mp hchange⟩
        · cases hchange
      | _ => cases hchange
    | recordLocalChange key committed writeClass group | recordRemoteChange key event => cases ha
    | _ => cases hchange
  | _ => cases hchange

/-- A local change keeps the tombstones, whether or not it is recorded. -/
theorem Kept.localChange (h : Kept retention w history) {key : K} {committed : Committed C}
    {writeClass group : Text} {recorded : Bool} (hontime : onTime w.now choice=true)
    (hmicros : (w.sites i).node.db.nextMicros key w.now=w.now)
    (hsite : siteExec i t (.request (.recordLocalChange key committed writeClass group)) choice
      (w.sites i)=some (recorded,site')) : Kept retention (w.after i site') (history++
        applied i site' (.request (.recordLocalChange key committed writeClass group)) recorded) := by
  cases recorded with
  | false =>
    obtain ⟨hversions,hrecorded⟩ := same_of_unrecorded hsite
    exact h.same hversions hrecorded fun _ hchange => by cases hchange
  | true =>
    have hstored := stored_local hontime hmicros hsite
    refine h.stored hstored le_rfl (h.unbeaten fun state hstate => ?_) fun change hchange => ?_
    · refine (Version.lt_of_micros_lt ?_).le
      rw [← hmicros]
      exact Database.lt_nextMicros hstate _
    · simp only [applied,Bool.true_and] at hchange
      split_ifs at hchange with hnone
      · rw [hstored.versions,if_pos rfl] at hchange
        obtain rfl : change=⟨i,key,⟨w.now,i⟩,true⟩ := by simpa using hchange
        exact ⟨rfl,rfl,rfl,rfl⟩
      · cases hchange

/-- Every allowed request keeps the tombstones. -/
theorem Kept.request (h : Kept retention w history) (hallowed : Allowed retention t w history i a)
    (hontime : onTime w.now choice=true) (htimely : timely retention t (i,a) choice w=true)
    (hsite : siteExec i t a choice (w.sites i)=some (answer,site')) :
    Kept retention (w.after i site') (history++applied i site' a answer) := by
  by_cases ha : changesVersions a=false
  · obtain ⟨hversions,hrecorded⟩ := versions_of_not_changesVersions hsite ha
    refine h.same hversions hrecorded fun change hchange => ?_
    obtain ⟨event,key,content,rfl,rfl⟩ := applied_of_not_changesVersions ha hchange
    exact ⟨rfl,fun earlier hearlier =>
      inOrder_of_unbeaten hallowed (of_decide_eq_true htimely) hearlier⟩
  cases a with
  | request b =>
    cases b with
    | recordLocalChange key committed writeClass group =>
      exact h.localChange hontime (of_decide_eq_true htimely) hsite
    | recordRemoteChange key event =>
      refine h.stored (stored_remote hontime hsite) (of_decide_eq_true htimely) hallowed.2
        fun change hchange => ?_
      simp only [applied] at hchange
      split_ifs at hchange
      · obtain rfl := mem_singleton.mp hchange
        exact ⟨rfl,rfl,rfl,rfl⟩
      · cases hchange
    | recordRestored key version | storeIfAbsent key read state => exact hallowed.elim
    | _ => exact (ha rfl).elim
  | pruneTombstones before =>
    obtain ⟨hrecorded,hother⟩ := otherEffect_of_siteExec hsite fun b heq => by cases heq
    have hnothing : applied i site' (.pruneTombstones before) answer=[] := rfl
    rw [hnothing,append_nil]
    cases hother with
    | same hnode =>
      have hsame : Kept retention (w.after i site') (history++[]) :=
        h.same (by rw [hnode]) hrecorded fun _ hnone => by cases hnone
      rwa [append_nil] at hsame
    | forgot hkeys hnode => exact h.forgot hallowed hkeys (by rw [hnode]; rfl) hrecorded
  | _ => exact (ha rfl).elim

omit [DecidableEq K] in
/-- Deletions are applied by who holds the lock. -/
theorem held_of_applied (hallowed : Allowed retention t w history i a) {change : Applied I K}
    (hchange : change∈applied i site' a answer) (hdeleted : change.deleted=true) :
    change.node=i ∧ (w.sites i).node.holder change.key=some t := by
  cases a with
  | request b =>
    cases b with
    | commitPut writer key content =>
      cases writer with
      | peer event =>
        simp only [applied] at hchange
        split_ifs at hchange
        · rw [mem_singleton.mp hchange] at hdeleted
          cases hdeleted
        · cases hchange
      | _ => cases hchange
    | recordLocalChange key committed writeClass group =>
      simp only [applied] at hchange
      split_ifs at hchange
      · obtain ⟨state,_,rfl⟩ := Option.map_eq_some_iff.mp (Option.mem_toList.mp hchange)
        exact ⟨rfl,hallowed⟩
      · cases hchange
    | recordRemoteChange key event =>
      simp only [applied] at hchange
      split_ifs at hchange
      · rw [mem_singleton.mp hchange]
        exact ⟨rfl,hallowed.1⟩
      · cases hchange
    | _ => cases hchange
  | _ => cases hchange

theorem tolerated_of_allowed {u : T} (hallowed : Allowed retention t w history i a)
    (hsite : siteExec i t a choice (w.sites i)=some (answer,site')) (hu : u≠t) :
    Tolerated u w history (w.after i site') (history++applied i site' a answer) := by
  refine ⟨le_rfl,fun j key hheld => ⟨?_,fun change hchange hnode hkey hdeleted => ?_⟩⟩
  · by_cases hj : j=i
    · subst hj
      rw [w.after_self]
      refine holder_kept hsite (fun other heq => ?_) hheld hu
      subst heq
      exact hallowed
    · rwa [w.after_of_ne site' hj]
  · rcases mem_append.mp hchange with hold | hlast
    · exact hold
    · obtain ⟨hnode',howner⟩ := held_of_applied hallowed hlast hdeleted
      rw [← hnode,← hkey,hnode',howner] at hheld
      exact (hu (Option.some.inj hheld).symm).elim

end Requests

end NebularOs.TombstoneRetention
