import Mathlib
import NebularOs.ClusterRuns

/-!
# Replicas agree

Local changes get versions by clocks that may be skewed, and their events are delivered
in any order, any number of times. While every local change is recorded with a positive
version, a change has the same version at every node, no two changes of a key share a
version, and a node's object is that of the greatest version in its log. So nodes that
know the same changes of a key hold the same object.

A version that is not positive is taken for a missing one: its event is ordered by the
second in which it was made. At the epoch a node may then order its own change otherwise
than its peers do, and two nodes may each take the change of the other.
-/

namespace NebularOs.ReplicaAgreement

open BlobFilenames RequestPrograms TaskPools ReplicationLog ReplicatedNode ReplicatedCluster
open Function Option

variable {I K C T : Type} [LinearOrder I] [DecidableEq K] {cluster : Cluster K} {etag : C→Text}

/-- What the logs and versions of a cluster have in common while versions are positive. -/
structure Chronicle (w : World I K C T) : Prop where
  /-- Versions of events are known. -/
  positive : ∀ i,∀ event∈(w i).db.events,0<event.version
  /-- Events are in the log of the node that made them. -/
  made : ∀ i,∀ event∈(w i).db.events,Made w event
  /-- Events are not newer than the recorded versions. -/
  covered : ∀ i,∀ event∈(w i).db.events,Covered (w i) event
  /-- Events of a key have different versions. -/
  versions : ∀ event event',Made w event→Made w event' → event.key=event'.key →
    event.effectiveVersion=event'.effectiveVersion→event=event'
  /-- Events are numbered by the node that made them. -/
  numbered : ∀ event,Made w event →
    event.id.1=event.origin ∧ event.id.2<(w event.origin).nextId
  /-- Events have different ids. -/
  ids : ∀ event event',Made w event→Made w event' → event.id=event'.id→event=event'

variable {event : Event I K C}

omit [LinearOrder I] [DecidableEq K] in
theorem effectiveVersion_of_pos (h : 0<event.version) :
    event.effectiveVersion=⟨event.version,event.origin⟩ := by
  simp [Event.effectiveVersion,h]

variable {w : World I K C T}

omit [DecidableEq K] in
theorem Chronicle.of_same {w' : World I K C T} (h : Chronicle w) (hgrows : Grows w w')
    (hevents : ∀ i event,event∈(w' i).db.events →
      event∈(w i).db.events ∨ Made w event ∧ Covered (w' i) event)
    (hnext : ∀ i,(w' i).nextId=(w i).nextId) : Chronicle w' := by
  have hmade : ∀ event,Made w' event→Made w event := fun event hevent => by
    rcases hevents event.origin event hevent with hold | hnew
    · exact hold
    · exact hnew.1
  constructor
  · intro i event hevent
    rcases hevents i event hevent with hold | hnew
    · exact h.positive i event hold
    · exact h.positive event.origin event hnew.1
  · intro i event hevent
    rcases hevents i event hevent with hold | hnew
    · exact (h.made i event hold).grows hgrows
    · exact hnew.1.grows hgrows
  · intro i event hevent
    rcases hevents i event hevent with hold | hnew
    · exact (h.covered i event hold).grows hgrows
    · exact hnew.2
  · exact fun event event' hevent hevent' =>
      h.versions event event' (hmade event hevent) (hmade event' hevent')
  · intro event hevent
    rw [hnext]
    exact h.numbered event (hmade event hevent)
  · exact fun event event' hevent hevent' =>
      h.ids event event' (hmade event hevent) (hmade event' hevent')

omit [DecidableEq K] in
/-- Logs that gain one new event, later than the others of its key and numbered after those
of its node. -/
theorem Chronicle.of_new {w' : World I K C T} (h : Chronicle w) (new : Event I K C)
    (hgrows : Grows w w') (hevents : ∀ i event,event∈(w' i).db.events →
      event∈(w i).db.events ∨ i=new.origin ∧ event=new)
    (hmade : Made w' new) (hpositive : 0<new.version) (hcovered : Covered (w' new.origin) new)
    (hlater : ∀ event,Made w event→event.key=new.key →
      event.effectiveVersion≠new.effectiveVersion)
    (hid : new.id=(new.origin,(w new.origin).nextId))
    (hnext : (w' new.origin).nextId=(w new.origin).nextId+1)
    (hothers : ∀ i,i≠new.origin→(w' i).nextId=(w i).nextId) : Chronicle w' := by
  have hcases : ∀ event,Made w' event→Made w event ∨ event=new := fun event hevent =>
    (hevents event.origin event hevent).imp_right And.right
  have hnumber : ∀ event,Made w event→event.id≠new.id := by
    intro event hevent heq
    obtain ⟨horigin,hlt⟩ := h.numbered event hevent
    rw [hid] at heq
    rw [← horigin,heq] at hlt
    exact lt_irrefl _ hlt
  constructor
  · intro i event hevent
    rcases hevents i event hevent with hold | ⟨_,rfl⟩
    · exact h.positive i event hold
    · exact hpositive
  · intro i event hevent
    rcases hevents i event hevent with hold | ⟨_,rfl⟩
    · exact (h.made i event hold).grows hgrows
    · exact hmade
  · intro i event hevent
    rcases hevents i event hevent with hold | ⟨rfl,rfl⟩
    · exact (h.covered i event hold).grows hgrows
    · exact hcovered
  · intro event event' hevent hevent' hkey heq
    rcases hcases event hevent,hcases event' hevent' with ⟨hold | rfl,hold' | rfl⟩
    · exact h.versions event event' hold hold' hkey heq
    · exact (hlater event hold hkey heq).elim
    · exact (hlater event' hold' hkey.symm heq.symm).elim
    · rfl
  · intro event hevent
    rcases hcases event hevent with hold | rfl
    · obtain ⟨horigin,hlt⟩ := h.numbered event hold
      refine ⟨horigin,?_⟩
      by_cases hi : event.origin=new.origin
      · rw [hi,hnext]
        rw [hi] at hlt
        exact Nat.lt_succ_of_lt hlt
      · rwa [hothers _ hi]
    · rw [hid,hnext]
      exact ⟨rfl,Nat.lt_succ_self _⟩
  · intro event event' hevent hevent' heq
    rcases hcases event hevent,hcases event' hevent' with ⟨hold | rfl,hold' | rfl⟩
    · exact h.ids event event' hold hold' heq
    · exact (hnumber event hold heq).elim
    · exact (hnumber event' hold' heq.symm).elim
    · rfl

variable {i : I} {key : K} {committed : Committed C} {writeClass group : Text} {stamp : Stamp}

omit [LinearOrder I] [DecidableEq K] in
theorem effectiveVersion_localEvent (hpositive : 0<(w i).db.nextMicros key stamp.now) :
    ((w i).db.localEvent i (i,(w i).nextId) key committed writeClass group
      stamp).effectiveVersion=⟨(w i).db.nextMicros key stamp.now,i⟩ :=
  effectiveVersion_of_pos hpositive

/-- A local change with a positive version makes a new event, later than all others of its
key that were made here. -/
theorem Chronicle.recordLocalChange (h : Chronicle w)
    (hpositive : 0<(w i).db.nextMicros key stamp.now)
    (hgrows : Grows w (update w i ((w i).withLocalChange i key committed writeClass group stamp))) :
    Chronicle (update w i ((w i).withLocalChange i key committed writeClass group stamp)) := by
  have hself : update w i ((w i).withLocalChange i key committed writeClass group stamp) i=
      (w i).withLocalChange i key committed writeClass group stamp := update_self i _ w
  have hother : ∀ j,j≠i→
      update w i ((w i).withLocalChange i key committed writeClass group stamp) j=w j :=
    fun j hj => update_of_ne hj _ w
  let new := (w i).db.localEvent i (i,(w i).nextId) key committed writeClass group stamp
  have hversion : new.effectiveVersion=⟨(w i).db.nextMicros key stamp.now,i⟩ :=
    effectiveVersion_localEvent hpositive
  refine h.of_new new hgrows (fun j event hevent => ?_) ?_ hpositive ?_
    (fun event hevent hkey heq => ?_) rfl (congrArg Node.nextId hself)
    fun j hj => congrArg Node.nextId (hother j hj)
  · by_cases hj : j=i
    · subst hj
      rw [hself] at hevent
      exact (Database.mem_events_insertPending.mp hevent).imp_right fun hnew => ⟨rfl,hnew⟩
    · rw [hother j hj] at hevent
      exact Or.inl hevent
  · show new∈(update w i _ i).db.events
    rw [hself]
    exact Database.mem_events_insertPending.mpr (Or.inr rfl)
  · refine ⟨⟨⟨(w i).db.nextMicros key stamp.now,i⟩,committed.content.isNone⟩,?_,hversion.le⟩
    show (update w i _ i).db.versions key=_
    rw [hself]
    exact withLocalChange_versions.trans (if_pos rfl)
  · -- Events of the key that were made here are covered by the version recorded before.
    have horigin : event.origin=i := by
      have hsame := congrArg Version.origin heq
      rwa [hversion] at hsame
    obtain ⟨state,hstate,hle⟩ := h.covered event.origin event hevent
    rw [horigin,hkey] at hstate
    rw [heq,hversion] at hle
    exact absurd (Version.lt_of_micros_lt (Database.lt_nextMicros hstate stamp.now)) (not_lt.mpr hle)

/-- Local changes are recorded, with positive versions. -/
def versionsPositive (_ : T) (a : ClusterAction I K C) (choice : Choice) (w : World I K C T) :
    Bool :=
  recordsChanges a choice w && match a.2,choice with
    | .recordLocalChange key _ _ _,.clock stamp => decide (0<(w a.1).db.nextMicros key stamp.now)
    | _,_ => true

/-- What such a record leaves. -/
theorem exec_versionsPositive {w w' : World I K C T} {t : T} {choice : Choice} {answer : Bool}
    (h : versionsPositive t (i,.recordLocalChange key committed writeClass group) choice w=true)
    (hexec : (clusterMachine I K C T).exec t (i,.recordLocalChange key committed writeClass group)
      choice w=some (answer,w')) :
    ∃ stamp : Stamp,0<(w i).db.nextMicros key stamp.now ∧
      w'=update w i ((w i).withLocalChange i key committed writeClass group stamp) := by
  obtain ⟨hrecords,hpositive⟩ := (Bool.and_eq_true _ _).mp h
  obtain ⟨stamp,rfl,rfl⟩ := recordsChanges_exec hrecords hexec
  exact ⟨stamp,of_decide_eq_true hpositive,rfl⟩

/-- The object of a key is that of the change whose version is recorded. -/
def Reflects (w : World I K C T) (i : I) (key : K) : Prop :=
  match (w i).db.versions key with
  | none => (w i).content key=none
  | some state => ∃ event∈(w i).db.events,event.key=key ∧ event.keyVersion=state ∧
      (w i).content key=event.content

/-- Requests keep the chronicle. -/
theorem Chronicle.step {standards : Standards I K C T} {w w' : World I K C T} {t : T} {i : I}
    {a : Action I K C} {choice : Choice} {answer : Answer a} (h : Chronicle w)
    (hdeliverable : ∀ event,standards.deliverable w event→Made w event)
    (hjustified : Justified cluster standards w t i a)
    (hpositive : versionsPositive t (i,a) choice w=true)
    (hexec : (clusterMachine I K C T).exec t (i,a) choice w=some (answer,w')) : Chronicle w' := by
  have hgrows := grows_of_justified hjustified hexec
  by_cases hmakes : MakesEvent a
  · cases a with
    | recordLocalChange key committed writeClass group =>
      obtain ⟨stamp,hpositive,rfl⟩ := exec_versionsPositive hpositive hexec
      exact h.recordLocalChange hpositive hgrows
    | insertPending key content storageClass group version => exact hjustified.elim
    | _ => exact hmakes.elim
  · obtain ⟨node,hnode,rfl⟩ := clusterExec_eq_some.mp hexec
    refine h.of_same hgrows (fun j event hevent => ?_) fun j => ?_
    · by_cases hj : j=i
      · subst hj
        rw [update_self] at hevent ⊢
        rcases learns_of_mem_events hnode hevent with hold | hlearns
        · exact Or.inl hold
        cases a with
        | recordRemoteChange key other =>
          obtain rfl : event=other := hlearns
          obtain ⟨_,rfl,_,_,hdelivered⟩ := hjustified
          cases hnode
          refine Or.inr ⟨hdeliverable event hdelivered,event.keyVersion,?_,le_rfl⟩
          exact recordRemoteChange_versions.trans (if_pos rfl)
        | recordApplied other =>
          obtain rfl : event=other := hlearns
          obtain ⟨hcovered,hdelivered⟩ := hjustified
          have hcovered' := hcovered.grows hgrows
          rw [update_self] at hcovered'
          exact Or.inr ⟨hdeliverable event hdelivered,hcovered'⟩
        | recordLocalChange key committed writeClass group => exact (hmakes trivial).elim
        | insertPending key content storageClass group version => exact (hmakes trivial).elim
        | _ => exact hlearns.elim
      · rw [update_of_ne hj] at hevent
        exact Or.inl hevent
    · by_cases hj : j=i
      · subst hj
        rw [update_self]
        exact exec_nextId hnode hmakes
      · rw [update_of_ne hj]

theorem reflects_recordLocalChange (hpositive : 0<(w i).db.nextMicros key stamp.now)
    (hcontent : (w i).content key=committed.content) :
    Reflects (update w i ((w i).withLocalChange i key committed writeClass group stamp)) i key := by
  unfold Reflects
  rw [update_self,show ((w i).withLocalChange i key committed writeClass group stamp).db.versions
    key=_ from withLocalChange_versions.trans (if_pos rfl)]
  refine ⟨(w i).db.localEvent i (i,(w i).nextId) key committed writeClass group stamp,
    Database.mem_events_insertPending.mpr (Or.inr rfl),rfl,?_,hcontent⟩
  exact congrArg (fun version => KeyVersion.mk version committed.content.isNone)
    (effectiveVersion_localEvent hpositive)

theorem reflects_recordRemoteChange (h : Chronicle w) (hmade : Made w event)
    (hcontent : (w i).content event.key=event.content) : Reflects (update w i
      {w i with db := (w i).db.recordRemoteChange event.key event}) i event.key := by
  have hmem : event∈((w i).db.recordRemoteChange event.key event).events := by
    refine Database.mem_events_insertApplied.mpr ?_
    by_cases hknown : (w i).db.hasEvent event.id=true
    · obtain ⟨other,hother,hid⟩ := Database.hasEvent_iff.mp hknown
      have heq := h.ids other event (h.made i other hother) hmade hid
      exact Or.inl (heq ▸ hother)
    · exact Or.inr ⟨rfl,(Bool.not_eq_true _).mp hknown⟩
  unfold Reflects
  rw [update_self]
  rw [recordRemoteChange_versions,if_pos rfl]
  exact ⟨event,hmem,rfl,rfl,hcontent⟩

/-- The theory of a cluster whose versions are positive and whose nodes do not restore. -/
def agreement (I K C T : Type) [LinearOrder I] [DecidableEq K] (cluster : Cluster K) :
    Theory I K C T cluster where
  deliverable := Made
  settled w i key := cluster.replicates key=true→Reflects w i key
  restorable _ _ _ _ := False
  permits := versionsPositive
  core := Chronicle
  coreStep hcore hjustified hpermits hexec :=
    hcore.step (fun _ hmade => hmade) hjustified hpermits hexec
  lasts {w w' i key} hsettled hcontent hversions hgrows hreplicates := by
    have hreflects := hsettled hreplicates
    unfold Reflects at hreflects ⊢
    rw [hversions]
    cases hstate : (w i).db.versions key with
    | none =>
      rw [hstate] at hreflects
      exact hcontent.trans hreflects
    | some state =>
      rw [hstate] at hreflects
      obtain ⟨event,hevent,hkey,hversion,hsame⟩ := hreflects
      exact ⟨event,hgrows.events i event hevent,hkey,hversion,hcontent.trans hsame⟩
  deliverableLasts hmade hgrows := hmade.grows hgrows
  restorableLasts hrestorable _ _ := hrestorable
  recorded _ hjustified hpermits hexec _ := by
    obtain ⟨stamp,hpositive,rfl⟩ := exec_versionsPositive hpermits hexec
    exact reflects_recordLocalChange hpositive hjustified.2.1
  applied {w t i key event} hcore hjustified _ := by
    obtain ⟨_,rfl,hcontent,_,hmade⟩ := hjustified
    exact reflects_recordRemoteChange hcore hmade hcontent
  restored _ hjustified := hjustified.2.2.2.2.elim
  unreplicated hnot hreplicates := by
    rw [hnot] at hreplicates
    cases hreplicates

/-- Local changes, and deliveries of events that were made. -/
def Replicating (w : World I K C T) : Operation I K C→Prop
  | .put _ _ _ _ | .delete _ _ _ | .deleteMany _ _ => True
  | .apply event => Made w event
  | _ => False

instance [DecidableEq C] (w : World I K C T) : DecidablePred (Replicating w)
  | .put _ _ _ _ | .delete _ _ _ | .deleteMany _ _ => .isTrue trivial
  | .apply event => inferInstanceAs (Decidable (Made w event))
  | .healMissing _ _ _ | .healDamaged _ _ | .reconcile _ => .isFalse id

theorem agreement_handles : Handles (agreement I K C T cluster) etag Replicating where
  apply hmade := hmade
  healMissing hfalse := hfalse.elim
  healDamaged hfalse := hfalse.elim
  reconcile hfalse := hfalse.elim
  blobs {w w'} hinv hblobs := by
    refine ⟨hinv.1.of_same hblobs.grows (fun i event hevent => ?_) fun i => ?_,
      Theory.atRest_blobs _ hinv.2 hblobs⟩
    · obtain ⟨blobs,hw⟩ := hblobs i
      rw [hw] at hevent
      exact Or.inl hevent
    · obtain ⟨blobs,hw⟩ := hblobs i
      rw [hw]

/-- The event of a key with the greatest version in the log of a node. -/
structure Latest (w : World I K C T) (i : I) (key : K) (event : Event I K C) : Prop where
  /-- It is in the log. -/
  mem : event∈(w i).db.events
  /-- It is an event of the key. -/
  ofKey : event.key=key
  /-- No other is newer. -/
  greatest : ∀ other∈(w i).db.events,other.key=key → other.effectiveVersion≤event.effectiveVersion

/-- The object of a key is that of its latest change, if there is one. -/
def HoldsLatest (w : World I K C T) (i : I) (key : K) : Prop :=
  (∃ event,Latest w i key event ∧ (w i).content key=event.content) ∨
    (∀ event∈(w i).db.events,event.key≠key) ∧ (w i).content key=none

omit [DecidableEq K] in
theorem Reflects.holdsLatest (h : Chronicle w) (hreflects : Reflects w i key) : HoldsLatest w i key := by
  unfold Reflects at hreflects
  cases hstate : (w i).db.versions key with
  | none =>
    rw [hstate] at hreflects
    refine Or.inr ⟨fun event hevent hkey => ?_,hreflects⟩
    obtain ⟨state,hrecorded,_⟩ := h.covered i event hevent
    rw [hkey,hstate] at hrecorded
    cases hrecorded
  | some state =>
    rw [hstate] at hreflects
    obtain ⟨event,hevent,hkey,hversion,hcontent⟩ := hreflects
    refine Or.inl ⟨event,⟨hevent,hkey,fun other hother hsame => ?_⟩,hcontent⟩
    obtain ⟨recorded,hrecorded,hle⟩ := h.covered i other hother
    rw [hsame,hstate,← hversion] at hrecorded
    cases hrecorded
    exact hle

omit [DecidableEq K] in
theorem HoldsLatest.agree {j : I} (h : Chronicle w) (hi : HoldsLatest w i key)
    (hj : HoldsLatest w j key)
    (hsame : ∀ event,event.key=key→(event∈(w i).db.events ↔ event∈(w j).db.events)) :
    (w i).content key=(w j).content key := by
  rcases hi with ⟨event,hlatest,hcontent⟩ | ⟨hnone,hcontent⟩
  · rcases hj with ⟨event',hlatest',hcontent'⟩ | ⟨hnone',_⟩
    · have hle := hlatest'.greatest event ((hsame event hlatest.ofKey).mp hlatest.mem) hlatest.ofKey
      have hge := hlatest.greatest event' ((hsame event' hlatest'.ofKey).mpr hlatest'.mem) hlatest'.ofKey
      have heq : event=event' := h.versions event event' (h.made i event hlatest.mem)
        (h.made j event' hlatest'.mem) (hlatest.ofKey.trans hlatest'.ofKey.symm) (le_antisymm hle hge)
      rw [hcontent,hcontent',heq]
    · exact (hnone' event ((hsame event hlatest.ofKey).mp hlatest.mem) hlatest.ofKey).elim
  · rcases hj with ⟨event',hlatest',_⟩ | ⟨_,hcontent'⟩
    · exact (hnone event' ((hsame event' hlatest'.ofKey).mpr hlatest'.mem) hlatest'.ofKey).elim
    · rw [hcontent,hcontent']

/-- Requests that record a change of a key. -/
def Records (key : K) : Action I K C→Prop
  | .recordLocalChange other _ _ _ | .recordRemoteChange other _ => other=key
  | _ => False

/-- The recorded version of a key goes up. -/
def Raises (w w' : World I K C T) (i : I) (key : K) : Prop :=
  ∃ state',(w' i).db.versions key=some state' ∧
    ∀ state,(w i).db.versions key=some state→state.version<state'.version

theorem raises_of_records {standards : Standards I K C T} {w' : World I K C T} {t : T}
    {a : Action I K C} {choice : Choice} {answer : Answer a}
    (hjustified : Justified cluster standards w t i a)
    (hpositive : versionsPositive t (i,a) choice w=true)
    (hexec : (clusterMachine I K C T).exec t (i,a) choice w=some (answer,w'))
    (hrecords : Records key a) : Raises w w' i key := by
  cases a with
  | recordLocalChange other committed writeClass group =>
    obtain rfl : other=key := hrecords
    obtain ⟨stamp,_,rfl⟩ := exec_versionsPositive hpositive hexec
    unfold Raises
    rw [update_self]
    refine ⟨_,withLocalChange_versions.trans (if_pos rfl),fun state hstate => ?_⟩
    exact Version.lt_of_micros_lt (Database.lt_nextMicros hstate stamp.now)
  | recordRemoteChange other event =>
    obtain rfl : other=key := hrecords
    obtain ⟨_,rfl,_,hnewer,_⟩ := hjustified
    obtain ⟨node,hnode,rfl⟩ := clusterExec_eq_some.mp hexec
    cases hnode
    unfold Raises
    rw [update_self]
    exact ⟨_,recordRemoteChange_versions.trans (if_pos rfl),hnewer⟩
  | _ => exact hrecords.elim

/-- The cluster while local changes get positive versions. -/
def steadyMachine (I K C T : Type) [LinearOrder I] [DecidableEq K] :
    Machine (ClusterAction I K C) ClusterAnswer T (World I K C T) Choice :=
  (clusterMachine I K C T).restrict versionsPositive

theorem applyEvent_known {t : T} (hevent : event∈(w i).db.events) :
    (steadyMachine I K C T).ensures t (atNode i (applyEvent event))
      (fun result w' => result=.ok () ∧ w'=w) w := by
  intro choice answer w' hstep
  obtain ⟨node,hnode,rfl⟩ := clusterExec_eq_some.mp (Machine.restrict_exec_eq_some.mp hstep).2
  cases hnode
  have hknown : (w i).db.hasEvent event.id=true := Database.hasEvent_iff.mpr ⟨event,hevent,rfl⟩
  rw [update_eq_self]
  simp only [hknown]
  exact ⟨rfl,rfl⟩

theorem agreement_of_fresh (h : Fresh w) : (agreement I K C T cluster).inv w := by
  refine ⟨⟨?_,?_,?_,?_,?_,?_⟩,fun i key _ _ => ?_⟩
  · exact fun i event hevent => (h.not_mem i event hevent).elim
  · exact fun i event hevent => (h.not_mem i event hevent).elim
  · exact fun i event hevent => (h.not_mem i event hevent).elim
  · exact fun event _ hevent => (h.not_mem _ event hevent).elim
  · exact fun event hevent => (h.not_mem _ event hevent).elim
  · exact fun event _ hevent => (h.not_mem _ event hevent).elim
  · unfold Reflects
    rw [h.versions i key]
    simp [Node.content,h.rows i key]

section Runs

variable [DecidableEq T]

/-- While local changes are recorded with positive versions, in every run of local changes
and deliveries from fresh nodes: recording a change raises the version of its key, applying
a known event changes nothing, and a key that is not locked has the object of the latest
change in the log, so nodes that know the same changes of it hold the same object. -/
theorem replicas_agree {start pool : ClusterPool I K C T}
    (hfresh : Fresh start.world) (hidle : ∀ t,start.tasks t=none)
    (hreach : Reachable (steadyMachine I K C T) (operations cluster etag Replicating) start pool) :
    (∀ t i a next choice answer w' key,pool.tasks t=some (.ask (i,a) next) →
      (steadyMachine I K C T).exec t (i,a) choice pool.world=some (answer,w')→Records key a →
        Raises pool.world w' i key) ∧ (∀ t i event result w',event∈(pool.world i).db.events →
      (steadyMachine I K C T).Exec t (atNode i (applyEvent event)) pool.world result w' →
        result=.ok () ∧ w'=pool.world) ∧
    (∀ i key,cluster.replicates key=true→(pool.world i).holder key=none →
      HoldsLatest pool.world i key) ∧
    ∀ i j key,cluster.replicates key=true→(pool.world i).holder key=none →
      (pool.world j).holder key=none→(∀ event,event.key=key →
        (event∈(pool.world i).db.events ↔ event∈(pool.world j).db.events)) →
        (pool.world i).content key=(pool.world j).content key := by
  have hhandles : Handles (agreement I K C T cluster) etag Replicating := agreement_handles
  have hholds := holds_of_reachable hhandles hidle (agreement_of_fresh hfresh) hreach
  obtain ⟨_,hchronicle,hrest⟩ := hholds.inv
  have hlatest : ∀ i key,cluster.replicates key=true→(pool.world i).holder key=none →
      HoldsLatest pool.world i key := fun i key hreplicates hfree =>
    (hrest i key hfree hreplicates).holdsLatest hchronicle
  refine ⟨fun t i a next choice answer w' key htask hexec hrecords => ?_,
    fun t i event result w' hevent hexec => ?_,hlatest,
    fun i j key hreplicates hi hj hsame => ?_⟩
  · have hjustified := hholds.good htask
    obtain ⟨hpositive,hexec'⟩ := Machine.restrict_exec_eq_some.mp hexec
    exact raises_of_records hjustified hpositive hexec' hrecords
  · have hknown : (steadyMachine I K C T).ensures t (atNode i (applyEvent event))
        (fun result w' => result=.ok () ∧ w'=pool.world) pool.world := applyEvent_known hevent
    have hended := Machine.ensures_sound hknown hexec
    exact hended
  · exact (hlatest i key hreplicates hi).agree hchronicle (hlatest j key hreplicates hj) hsame

end Runs

/-- A write at the first node and its delivery to the second: both hold the object. -/
theorem sample_replicas_agree :
    ∃ pool : ClusterPool ℕ ℕ ℕ ℕ,
      Reachable (steadyMachine ℕ ℕ ℕ ℕ) (operations (wholeCluster ℕ) (fun _ => []) Replicating)
        (freshPool ℕ ℕ ℕ ℕ) pool ∧ (pool.world 0).content 0=some 10 ∧
      (pool.world 0).content 0=(pool.world 1).content 0 := by
  have hruns : (plays (steadyMachine ℕ ℕ ℕ ℕ) (wholeCluster ℕ) (fun _ => []) Replicating
      (freshPool ℕ ℕ ℕ ℕ) [.operation 0 0 (samplePut 10) (putMoves 0 ⟨5,0⟩),
        .operation 1 1 (.apply (sampleEvent 0 10 0 5)) (applyMoves 1)]).map (fun last =>
          decide ((last.world 0).holder 0=none ∧ (last.world 1).holder 0=none ∧
            (last.world 0).db.events=(last.world 1).db.events ∧
            (last.world 0).content 0=some 10))=some true := by
    decide +kernel
  obtain ⟨last,hlast,hvalues⟩ := map_eq_some_iff.mp hruns
  obtain ⟨hfree,hfree',hevents,hcontent⟩ := of_decide_eq_true hvalues
  have hend := reachable_of_plays .start hlast
  have hagree := (replicas_agree freshPool_fresh (fun _ => rfl) hend).2.2.2 0 1 0 rfl hfree hfree'
    fun event _ => by rw [hevents]
  exact ⟨last,hend,hcontent,hagree⟩

/-- The event of a write at the epoch, made five seconds later. -/
def epochEvent : Event ℕ ℕ ℕ := sampleEvent 0 10 5 0

/-- The event of a write three seconds after the epoch. -/
def laterEvent : Event ℕ ℕ ℕ := sampleEvent 1 20 3 3000000

/-- A node writes an object when its clock shows the epoch, and the clock shows five
seconds more when the event is made. Its peer writes the object in between. Each takes the
other's change for the newer one, so both know both changes and hold different objects. -/
theorem replicas_diverge_at_epoch :
    ∃ pool : ClusterPool ℕ ℕ ℕ ℕ,
      Reachable (clusterMachine ℕ ℕ ℕ ℕ) (operations (wholeCluster ℕ) (fun _ => []) Replicating)
        (freshPool ℕ ℕ ℕ ℕ) pool ∧ (pool.world 0).holder 0=none ∧ (pool.world 1).holder 0=none ∧
      (∀ event,event∈(pool.world 0).db.events ↔ event∈(pool.world 1).db.events) ∧
      (pool.world 0).content 0=some 20 ∧ (pool.world 1).content 0=some 10 := by
  have hruns : (plays (clusterMachine ℕ ℕ ℕ ℕ) (wholeCluster ℕ) (fun _ => []) Replicating
      (freshPool ℕ ℕ ℕ ℕ) [.operation 0 0 (samplePut 10) (putMoves 0 ⟨0,5⟩),
        .operation 1 1 (samplePut 20) (putMoves 1 ⟨3000000,3⟩),
        .operation 2 1 (.apply epochEvent) (applyMoves 2),
        .operation 3 0 (.apply laterEvent) (applyMoves 3)]).map (fun last =>
          decide ((last.world 0).holder 0=none ∧ (last.world 1).holder 0=none ∧
            (last.world 0).db.events=[epochEvent,laterEvent] ∧
            (last.world 1).db.events=[laterEvent,epochEvent] ∧
            (last.world 0).content 0=some 20 ∧ (last.world 1).content 0=some 10))=some true := by
    decide +kernel
  obtain ⟨last,hlast,hvalues⟩ := map_eq_some_iff.mp hruns
  obtain ⟨hfree,hfree',hevents,hevents',hcontents⟩ := of_decide_eq_true hvalues
  refine ⟨last,reachable_of_plays .start hlast,hfree,hfree',fun event => ?_,hcontents⟩
  rw [hevents,hevents']
  simp [or_comm]

end NebularOs.ReplicaAgreement
