import Mathlib
import NebularOs.ReplicatedNode

/-!
# A cluster of replicated nodes

Nodes with distinct ids run their operations side by side. An operation works on one
node, and no two of them hold the write lock of a key of that node at a time.

Every request that changes an object or the version of a key is justified by what its
task knows: the task holds the key's lock, the version it records describes the
content that is there, and a peer's change is newer than what was recorded. What a
claim needs is derived from these justifications.
-/

namespace NebularOs.ReplicatedCluster

open BlobFilenames RequestPrograms TaskPools ReplicationLog ReplicatedNode Program Function
open EngineState (StorageError)

variable {I K C T : Type} {α β : Type}

/-- The nodes of a cluster. -/
abbrev World (I K C T : Type) := I→Node I K C T

/-- Requests of operations, each on one node. -/
abbrev ClusterAction (I K C : Type) := I×Action I K C

/-- Answers of the requests. -/
abbrev ClusterAnswer (a : ClusterAction I K C) : Type := Answer a.2

/-- The machine of a cluster. -/
def clusterMachine (I K C T : Type) [DecidableEq I] [DecidableEq K] :
    Machine (ClusterAction I K C) ClusterAnswer T (World I K C T) Choice where
  exec t a choice w := (exec a.1 t a.2 choice (w a.1)).map fun outcome =>
    (outcome.1,update w a.1 outcome.2)

/-- Tasks on the nodes of a cluster. -/
abbrev ClusterPool (I K C T : Type) := Pool (ClusterAction I K C) ClusterAnswer T (World I K C T) Unit

/-- A program of a node as a program of the cluster. -/
def atNode (i : I) : Prog I K C α→Program (ClusterAction I K C) ClusterAnswer α
  | .done value => .done value
  | .ask a next => .ask (i,a) fun answer => atNode i (next answer)

theorem atNode_bind (i : I) (program : Prog I K C α) (rest : α→Prog I K C β) :
    atNode i (program.bind rest)=(atNode i program).bind fun value => atNode i (rest value) := by
  induction program with
  | done value => rfl
  | ask a next ih =>
    exact congrArg (Program.ask (i,a)) (funext ih)

theorem atNode_forEach (i : I) (xs : List β) (body : β→Prog I K C Unit) :
    atNode i (Program.forEach xs body)=Program.forEach xs fun x => atNode i (body x) := by
  induction xs with
  | nil => rfl
  | cons x xs ih => rw [forEach_cons,forEach_cons,atNode_bind,ih]

section Frames

variable [DecidableEq I] [DecidableEq K]

variable {t : T} {choice : Choice} {a : Action I K C} {answer : Answer a}

theorem clusterExec_eq_some {i : I} {w w' : World I K C T} :
    (clusterMachine I K C T).exec t (i,a) choice w=some (answer,w') ↔
      ∃ node,exec i t a choice (w i)=some (answer,node) ∧ w'=update w i node := by
  unfold clusterMachine
  simp only [Option.map_eq_some_iff,Prod.exists,Prod.mk.injEq]
  constructor
  · rintro ⟨answer',node,hexec,rfl,rfl⟩
    exact ⟨node,hexec,rfl⟩
  · rintro ⟨node,hexec,rfl⟩
    exact ⟨answer,node,hexec,rfl,rfl⟩

/-- Keys whose object, version or lock a request may change. -/
def Writes (key : K) : Action I K C→Prop
  | .lock other | .unlock other | .commitPut _ other _ | .deleteRow other
  | .recordLocalChange other _ _ _ | .recordRemoteChange other _ | .recordRestored other _
  | .storeIfAbsent other _ _ => other=key
  | .commitDelete keys => key∈keys
  | _ => False

/-- The object, the version and the lock of a key are the same. -/
structure SameKey (node node' : Node I K C T) (key : K) : Prop where
  /-- The object is the same. -/
  rows : node'.rows key=node.rows key
  /-- The version is the same. -/
  versions : node'.db.versions key=node.db.versions key
  /-- The lock is held by the same task. -/
  holder : node'.holder key=node.holder key

variable {key : K}

omit [DecidableEq I] [DecidableEq K] in
theorem content_eq_of_rows {node node' : Node I K C T} (h : node'.rows key=node.rows key) :
    node'.content key=node.content key := by
  rw [Node.content,h,Node.content]

omit [DecidableEq I] in
theorem withLocalChange_versions {db : Database I K C} {origin : I} {id : I×ℕ} {other : K}
    {committed : Committed C} {writeClass group : Text} {stamp : Stamp} :
    (db.withLocalChange origin id key committed writeClass group stamp).versions other=
      if other=key then some ⟨⟨db.nextMicros key stamp.now,origin⟩,committed.content.isNone⟩
      else db.versions other := by
  simp [Database.withLocalChange]

variable {event : Event I K C}

theorem recordRemoteChange_versions {db : Database I K C} {other : K} :
    (db.recordRemoteChange key event).versions other=
      if other=key then some event.keyVersion else db.versions other := by
  simp [Database.recordRemoteChange]

variable {self : I} {node node' : Node I K C T}

/-- Keys whose recorded version a request may change. -/
def Restates (key : K) : Action I K C→Prop
  | .recordLocalChange other _ _ _ | .recordRemoteChange other _ | .recordRestored other _
  | .storeIfAbsent other _ _ => other=key
  | _ => False

/-- A request leaves the versions of other keys. -/
theorem exec_versions (h : exec self t a choice node=some (answer,node')) (hkey : ¬Restates key a) :
    node'.db.versions key=node.db.versions key := by
  cases a with
  | lock other =>
    simp only [exec] at h
    split_ifs at h
    cases h
    rfl
  | recordLocalChange other committed writeClass group =>
    rcases exec_recordLocalChange h with ⟨_,rfl⟩ | ⟨stamp,_,_,_,rfl⟩
    · rfl
    · exact withLocalChange_versions.trans (if_neg (Ne.symm hkey))
  | recordRemoteChange other event =>
    cases h
    rw [recordRemoteChange_versions,if_neg (Ne.symm hkey)]
  | recordApplied event =>
    cases h
    rw [Database.insertApplied_versions]
  | recordRestored other version =>
    cases h
    exact update_of_ne (Ne.symm hkey) _ _
  | storeIfAbsent other read state =>
    cases h
    unfold Database.storeIfAbsent
    cases node.db.versions other with
    | none => exact update_of_ne (Ne.symm hkey) _ _
    | some current => rfl
  | _ =>
    cases choice <;> cases h
    all_goals rfl

theorem exec_sameKey (h : exec self t a choice node=some (answer,node')) (hkey : ¬Writes key a) :
    SameKey node node' key := by
  have hversions : node'.db.versions key=node.db.versions key := by
    refine exec_versions h fun hrestates => hkey ?_
    cases a <;> first | exact hrestates | exact hrestates.elim
  cases a with
  | lock other =>
    simp only [exec] at h
    split_ifs at h
    cases h
    exact ⟨rfl,rfl,update_of_ne (Ne.symm hkey) _ _⟩
  | unlock other =>
    cases h
    exact ⟨rfl,rfl,update_of_ne (Ne.symm hkey) _ _⟩
  | commitPut writer other content =>
    cases choice <;> cases h
    all_goals first | exact ⟨rfl,rfl,rfl⟩ | exact ⟨update_of_ne (Ne.symm hkey) _ _,rfl,rfl⟩
  | commitDelete keys =>
    cases choice <;> cases h
    all_goals first | exact ⟨rfl,rfl,rfl⟩ | exact ⟨if_neg hkey,rfl,rfl⟩
  | deleteRow other =>
    cases h
    exact ⟨update_of_ne (Ne.symm hkey) _ _,rfl,rfl⟩
  | recordLocalChange _ _ _ _ =>
    rcases exec_recordLocalChange h with ⟨_,rfl⟩ | ⟨stamp,_,_,_,rfl⟩
    all_goals exact ⟨rfl,hversions,rfl⟩
  | _ =>
    cases choice <;> cases h
    all_goals exact ⟨rfl,hversions,rfl⟩

/-- Events of the log stay. -/
theorem exec_events (h : exec self t a choice node=some (answer,node'))
    (hevent : event∈node.db.events) : event∈node'.db.events := by
  cases a with
  | lock other =>
    simp only [exec] at h
    split_ifs at h
    cases h
    exact hevent
  | recordLocalChange _ _ _ _ =>
    rcases exec_recordLocalChange h with ⟨_,rfl⟩ | ⟨stamp,_,_,_,rfl⟩
    · exact hevent
    · exact Database.mem_events_insertPending.mpr (Or.inl hevent)
  | insertPending _ _ _ _ _ =>
    cases choice <;> cases h
    exact Database.mem_events_insertPending.mpr (Or.inl hevent)
  | recordRemoteChange other applied | recordApplied applied =>
    cases h
    exact Database.mem_events_insertApplied.mpr (Or.inl hevent)
  | storeIfAbsent other read state =>
    cases h
    unfold Database.storeIfAbsent
    cases node.db.versions other with
    | none | some current => exact hevent
  | recordFailure id attempts maxAttempts =>
    cases choice <;> cases h
    rwa [Database.recordFailure_events]
  | setStatus id status =>
    cases h
    rwa [Database.setStatus_events]
  | markDelivered id peer =>
    cases h
    rwa [Database.markDelivered_events]
  | replayDeadLetter id =>
    cases h
    rwa [Database.replayDeadLetter_events]
  | _ =>
    cases choice <;> cases h
    all_goals exact hevent

/-- Events that a request adds to the log of a node. -/
def Learns (self : I) (node : Node I K C T) (choice : Choice) (event : Event I K C) :
    Action I K C→Prop
  | .recordLocalChange key committed writeClass group => ∃ stamp,choice=.clock stamp ∧
      event=node.db.localEvent self (self,node.nextId) key committed writeClass group stamp
  | .insertPending key content storageClass group version => ∃ stamp,choice=.clock stamp ∧
      event=backfillEvent self node key content storageClass group version stamp.createdAt
  | .recordRemoteChange _ other | .recordApplied other => event=other
  | _ => False

/-- Other events were in the log before. -/
theorem learns_of_mem_events (h : exec self t a choice node=some (answer,node'))
    (hevent : event∈node'.db.events) : event∈node.db.events ∨ Learns self node choice event a := by
  cases a with
  | lock other =>
    simp only [exec] at h
    split_ifs at h
    cases h
    exact Or.inl hevent
  | recordLocalChange _ _ _ _ =>
    rcases exec_recordLocalChange h with ⟨_,rfl⟩ | ⟨stamp,rfl,_,_,rfl⟩
    · exact Or.inl hevent
    · exact (Database.mem_events_insertPending.mp hevent).imp_right fun hnew => ⟨stamp,rfl,hnew⟩
  | insertPending _ _ _ _ _ =>
    cases choice <;> cases h
    exact (Database.mem_events_insertPending.mp hevent).imp_right fun hnew => ⟨_,rfl,hnew⟩
  | recordRemoteChange other applied | recordApplied applied =>
    cases h
    exact (Database.mem_events_insertApplied.mp hevent).imp_right And.left
  | storeIfAbsent other read state =>
    cases h
    unfold Database.storeIfAbsent at hevent
    cases hversion : node.db.versions other with
    | none | some current =>
      simp only [hversion] at hevent
      exact Or.inl hevent
  | recordFailure id attempts maxAttempts =>
    cases choice <;> cases h
    rw [Database.recordFailure_events] at hevent
    exact Or.inl hevent
  | setStatus id status =>
    cases h
    rw [Database.setStatus_events] at hevent
    exact Or.inl hevent
  | markDelivered id peer =>
    cases h
    rw [Database.markDelivered_events] at hevent
    exact Or.inl hevent
  | replayDeadLetter id =>
    cases h
    rw [Database.replayDeadLetter_events] at hevent
    exact Or.inl hevent
  | _ =>
    cases choice <;> cases h
    all_goals exact Or.inl hevent

/-- Requests that make an event. -/
def MakesEvent : Action I K C→Prop
  | .recordLocalChange _ _ _ _ | .insertPending _ _ _ _ _ => True
  | _ => False

theorem exec_nextId (h : exec self t a choice node=some (answer,node')) (ha : ¬MakesEvent a) :
    node'.nextId=node.nextId := by
  cases a with
  | lock other =>
    simp only [exec] at h
    split_ifs at h
    cases h
    rfl
  | recordLocalChange _ _ _ _ | insertPending _ _ _ _ _ => exact (ha trivial).elim
  | _ =>
    cases choice <;> cases h
    all_goals rfl

theorem exec_holder (h : exec self t a choice node=some (answer,node')) (key : K) :
    node'.holder key=node.holder key ∨ node'.holder key=some t ∨ node'.holder key=none := by
  by_cases hkey : Writes key a
  · cases a with
    | lock other =>
      obtain rfl : other=key := hkey
      simp only [exec] at h
      split_ifs at h
      cases h
      exact Or.inr (Or.inl (update_self other _ _))
    | unlock other =>
      obtain rfl : other=key := hkey
      cases h
      exact Or.inr (Or.inr (update_self other _ _))
    | recordLocalChange _ _ _ _ =>
      rcases exec_recordLocalChange h with ⟨_,rfl⟩ | ⟨stamp,_,_,_,rfl⟩
      all_goals exact Or.inl rfl
    | _ =>
      cases choice <;> cases h
      all_goals exact Or.inl rfl
  · exact Or.inl (exec_sameKey h hkey).holder

end Frames

section Justifications

variable [LinearOrder I] [DecidableEq K]

/-- A change is newer than the recorded state of its key. -/
def Newer (node : Node I K C T) (event : Event I K C) : Prop :=
  ∀ state,node.db.versions event.key=some state→state.version<event.effectiveVersion

/-- A change is not newer than the recorded state of its key. -/
def Covered (node : Node I K C T) (event : Event I K C) : Prop :=
  ∃ state,node.db.versions event.key=some state ∧ event.effectiveVersion ≤ state.version

/-- The key has no recorded deletion. -/
def NotDeleted (node : Node I K C T) (key : K) : Prop :=
  ∀ state,node.db.versions key=some state→state.deleted=false

/-- Why a writer may write an object. -/
def Entitled (node : Node I K C T) (key : K) (content : C) : Writer I K C→Prop
  | .client => True
  | .peer event => event.key=key ∧ event.content=some content ∧ Newer node event
  | .heal _ => node.content key=none→NotDeleted node key

/-- What peers may deliver, what the operations have to leave behind, and what they may
restore. -/
structure Standards (I K C T : Type) where
  /-- Events that peers may deliver. -/
  deliverable : World I K C T→Event I K C→Prop
  /-- What holds of a key that no task is changing. -/
  settled : World I K C T → I→K→Prop
  /-- Versions that may be recorded for a restored object. -/
  restorable : World I K C T → I→K→Version I→Prop

/-- What a task knows when it issues a request on a node. -/
def Justified (cluster : Cluster K) (standards : Standards I K C T) (w : World I K C T)
    (t : T) (i : I) : Action I K C→Prop
  | .unlock key => (w i).holder key=some t ∧ standards.settled w i key
  | .commitPut writer key content => (w i).holder key=some t ∧ Entitled (w i) key content writer
  | .commitDelete keys => ∀ key∈keys,(w i).holder key=some t
  | .deleteRow key => (w i).holder key=some t
  | .recordLocalChange key committed _ _ =>
    (w i).holder key=some t ∧ (w i).content key=committed.content ∧ cluster.replicates key=true
  | .recordRemoteChange key event =>
    (w i).holder key=some t ∧ event.key=key ∧ (w i).content key=event.content ∧
      Newer (w i) event ∧ standards.deliverable w event
  | .recordApplied event => Covered (w i) event ∧ standards.deliverable w event
  | .recordRestored key version =>
    (w i).holder key=some t ∧ (∃ content,(w i).content key=some content) ∧ NotDeleted (w i) key ∧
      (∀ state,(w i).db.versions key=some state→state.version<version) ∧
        standards.restorable w i key version
  | .storeIfAbsent _ _ _ | .insertPending _ _ _ _ _ => False
  | _ => True

/-- Logs and versions only grow. -/
structure Grows (w w' : World I K C T) : Prop where
  /-- Events stay. -/
  events : ∀ i event,event∈(w i).db.events→event∈(w' i).db.events
  /-- Versions of keys do not decrease. -/
  versions : ∀ i key state,(w i).db.versions key=some state →
    ∃ state',(w' i).db.versions key=some state' ∧ state.version ≤ state'.version

/-- Changes by others that a task puts up with: its keys are left alone, it gets no
locks, and nothing is forgotten. -/
structure Respected (t : T) (w w' : World I K C T) : Prop extends Grows w w' where
  /-- Keys it holds are the same. -/
  held : ∀ i key,(w i).holder key=some t→SameKey (w i) (w' i) key
  /-- It holds no other keys. -/
  unheld : ∀ i key,(w i).holder key≠some t→(w' i).holder key≠some t

variable {w' w : World I K C T}

omit [DecidableEq K] in
theorem Grows.trans {w'' : World I K C T} (h : Grows w w') (h' : Grows w' w'') : Grows w w'' where
  events i event hevent := h'.events i event (h.events i event hevent)
  versions i key state hstate := by
    obtain ⟨state',hstate',hle⟩ := h.versions i key state hstate
    obtain ⟨state'',hstate'',hle'⟩ := h'.versions i key state' hstate'
    exact ⟨state'',hstate'',hle.trans hle'⟩

omit [DecidableEq K] in
theorem Respected.refl (t : T) (w : World I K C T) : Respected t w w where
  events _ _ hevent := hevent
  versions _ _ state hstate := ⟨state,hstate,le_rfl⟩
  held _ _ _ := ⟨rfl,rfl,rfl⟩
  unheld _ _ hholder := hholder

variable {t : T}

omit [DecidableEq K] in
theorem Respected.trans {w'' : World I K C T} (h : Respected t w w') (h' : Respected t w' w'') :
    Respected t w w'' where
  toGrows := h.toGrows.trans h'.toGrows
  held i key hholder := by
    have hfirst := h.held i key hholder
    have hsecond := h'.held i key (hfirst.holder.trans hholder)
    exact ⟨hsecond.rows.trans hfirst.rows,hsecond.versions.trans hfirst.versions,
      hsecond.holder.trans hfirst.holder⟩
  unheld i key hholder := h'.unheld i key (h.unheld i key hholder)

variable {cluster : Cluster K} {standards : Standards I K C T}

variable {i : I} {a : Action I K C} {answer : Answer a} {choice : Choice}

theorem versions_of_justified {node : Node I K C T}
    (hjustified : Justified cluster standards w t i a)
    (hexec : exec i t a choice (w i)=some (answer,node)) {key : K} {state : KeyVersion I}
    (hstate : (w i).db.versions key=some state) :
    ∃ state',node.db.versions key=some state' ∧ state.version ≤ state'.version := by
  by_cases hkey : Restates key a
  · cases a with
    | recordLocalChange other committed writeClass group =>
      obtain rfl : other=key := hkey
      rcases exec_recordLocalChange hexec with ⟨_,rfl⟩ | ⟨stamp,_,_,_,rfl⟩
      · exact ⟨state,hstate,le_rfl⟩
      · refine ⟨_,withLocalChange_versions.trans (if_pos rfl),?_⟩
        exact (Version.lt_of_micros_lt (Database.lt_nextMicros hstate stamp.now)).le
    | recordRemoteChange other event =>
      obtain rfl : other=key := hkey
      obtain ⟨_,rfl,_,hnewer,_⟩ := hjustified
      cases hexec
      exact ⟨_,by rw [recordRemoteChange_versions,if_pos rfl],(hnewer state hstate).le⟩
    | recordRestored other version =>
      obtain rfl : other=key := hkey
      obtain ⟨_,_,_,hnewer,_⟩ := hjustified
      cases hexec
      exact ⟨_,by simp [Database.recordRestored]; rfl,(hnewer state hstate).le⟩
    | storeIfAbsent other read version => exact hjustified.elim
    | _ => exact hkey.elim
  · exact ⟨state,(exec_versions hexec hkey).trans hstate,le_rfl⟩

theorem holder_of_justified {node : Node I K C T} (hjustified : Justified cluster standards w t i a)
    (hexec : exec i t a choice (w i)=some (answer,node)) {key : K} (hkey : Writes key a) :
    (w i).holder key=some t ∨ (w i).holder key=none := by
  cases a with
  | lock other =>
    obtain rfl : other=key := hkey
    simp only [exec] at hexec
    split_ifs at hexec with hfree
    exact Or.inr (by simpa using hfree)
  | commitDelete keys => exact Or.inl (hjustified key hkey)
  | deleteRow other =>
    obtain rfl : other=key := hkey
    exact Or.inl hjustified
  | unlock other | commitPut _ other _ | recordLocalChange other _ _ _ | recordRemoteChange other _
  | recordRestored other _ =>
    obtain rfl : other=key := hkey
    exact Or.inl hjustified.1
  | storeIfAbsent other read version | insertPending other content storageClass group version =>
    exact hjustified.elim
  | _ => exact hkey.elim

theorem grows_of_justified (hjustified : Justified cluster standards w t i a)
    (hexec : (clusterMachine I K C T).exec t (i,a) choice w=some (answer,w')) : Grows w w' := by
  obtain ⟨node,hnode,rfl⟩ := clusterExec_eq_some.mp hexec
  refine ⟨fun j event hevent => ?_,fun j key state hstate => ?_⟩
  · by_cases hj : j=i
    · subst hj
      rw [update_self]
      exact exec_events hnode hevent
    · rwa [update_of_ne hj]
  · by_cases hj : j=i
    · subst hj
      rw [update_self]
      exact versions_of_justified hjustified hnode hstate
    · rw [update_of_ne hj]
      exact ⟨state,hstate,le_rfl⟩

theorem respected_of_justified {u : T} (hjustified : Justified cluster standards w t i a)
    (hexec : (clusterMachine I K C T).exec t (i,a) choice w=some (answer,w')) (hne : u≠t) :
    Respected u w w' := by
  have hgrows := grows_of_justified hjustified hexec
  obtain ⟨node,hnode,rfl⟩ := clusterExec_eq_some.mp hexec
  refine ⟨hgrows,fun j key hholder => ?_,fun j key hholder => ?_⟩
  · by_cases hj : j=i
    · subst hj
      rw [update_self]
      refine exec_sameKey hnode fun hkey => ?_
      rcases holder_of_justified hjustified hnode hkey with hmine | hfree
      · exact hne (Option.some.inj (hholder.symm.trans hmine))
      · rw [hfree] at hholder
        cases hholder
    · rw [update_of_ne hj]
      exact ⟨rfl,rfl,rfl⟩
  · by_cases hj : j=i
    · subst hj
      rw [update_self]
      rcases exec_holder hnode key with hsame | hmine | hfree
      · rwa [hsame]
      · rw [hmine]
        exact fun heq => hne (Option.some.inj heq).symm
      · rw [hfree]
        exact fun heq => by cases heq
    · rwa [update_of_ne hj]

/-- What a result adds to the justifications: facts that hold throughout the runs in which
the scheduler keeps to some steps, and what is known of a key that no task is changing. -/
structure Theory (I K C T : Type) [LinearOrder I] [DecidableEq K] (cluster : Cluster K)
    extends Standards I K C T where
  /-- Steps the scheduler keeps to. -/
  permits : T→ClusterAction I K C→Choice→World I K C T→Bool
  /-- What holds throughout. -/
  core : World I K C T→Prop
  /-- Justified requests keep it. -/
  coreStep : ∀ {w w' t i a choice answer},core w→Justified cluster toStandards w t i a →
    permits t (i,a) choice w=true →
      (clusterMachine I K C T).exec t (i,a) choice w=some (answer,w') → core w'
  /-- A key stays settled while its content and version stay. -/
  lasts : ∀ {w w' i key},settled w i key→(w' i).content key=(w i).content key →
    (w' i).db.versions key=(w i).db.versions key→Grows w w' → settled w' i key
  /-- What may be delivered stays deliverable. -/
  deliverableLasts : ∀ {w w' event},deliverable w event→Grows w w' → deliverable w' event
  /-- What may be restored stays restorable while the content stays. -/
  restorableLasts : ∀ {w w' i key version},restorable w i key version →
    (w' i).content key=(w i).content key→Grows w w' → restorable w' i key version
  /-- A key is settled once a local change of it is recorded, or the transaction failed. -/
  recorded : ∀ {w w' t i key committed writeClass group choice answer},core w →
    Justified cluster toStandards w t i (.recordLocalChange key committed writeClass group) →
    permits t (i,.recordLocalChange key committed writeClass group) choice w=true →
    (clusterMachine I K C T).exec t (i,.recordLocalChange key committed writeClass group) choice w=
      some (answer,w')→settled w' i key
  /-- A key is settled once a peer's change of it is recorded. -/
  applied : ∀ {w t i key event},core w →
    Justified cluster toStandards w t i (.recordRemoteChange key event) →
      settled (update w i {w i with db := (w i).db.recordRemoteChange key event}) i key
  /-- A key is settled once the version of a restored copy is recorded. -/
  restored : ∀ {w t i key version},core w →
    Justified cluster toStandards w t i (.recordRestored key version) →
      settled (update w i {w i with db := (w i).db.recordRestored key version}) i key
  /-- Keys that are not replicated are always settled. -/
  unreplicated : ∀ {w i key},cluster.replicates key=false→settled w i key

/-- Keys whose lock is free are settled. -/
def Standards.AtRest (standards : Standards I K C T) (w : World I K C T) : Prop :=
  ∀ i key,(w i).holder key=none→standards.settled w i key

/-- A request that writes a key drops its lock or leaves it with the task. -/
theorem holder_of_writes {node : Node I K C T} {key : K}
    (hjustified : Justified cluster standards w t i a)
    (hexec : exec i t a choice (w i)=some (answer,node)) (hkey : Writes key a) :
    a=.unlock key ∨ node.holder key=some t := by
  cases a with
  | lock other =>
    obtain rfl : other=key := hkey
    simp only [exec] at hexec
    split_ifs at hexec
    cases hexec
    exact Or.inr (update_self other _ _)
  | unlock other =>
    obtain rfl : other=key := hkey
    exact Or.inl rfl
  | commitDelete keys =>
    cases choice <;> cases hexec
    all_goals exact Or.inr (hjustified key hkey)
  | deleteRow other =>
    obtain rfl : other=key := hkey
    cases hexec
    exact Or.inr hjustified
  | recordLocalChange other _ _ _ =>
    obtain rfl : other=key := hkey
    rcases exec_recordLocalChange hexec with ⟨_,rfl⟩ | ⟨stamp,_,_,_,rfl⟩
    all_goals exact Or.inr hjustified.1
  | commitPut _ other _ | recordRemoteChange other _ | recordRestored other _ =>
    obtain rfl : other=key := hkey
    cases choice <;> cases hexec
    all_goals exact Or.inr hjustified.1
  | storeIfAbsent other read version => exact hjustified.elim
  | _ => exact hkey.elim

/-- A request leaves the keys settled that are not locked after it. -/
theorem Theory.atRest_step (theory : Theory I K C T cluster)
    (h : theory.AtRest w) (hjustified : Justified cluster theory.toStandards w t i a)
    (hexec : (clusterMachine I K C T).exec t (i,a) choice w=some (answer,w')) :
    theory.AtRest w' := by
  have hgrows := grows_of_justified hjustified hexec
  obtain ⟨node,hnode,rfl⟩ := clusterExec_eq_some.mp hexec
  intro j key hfree
  by_cases hj : j=i
  · subst hj
    have hself : update w j node j=node := update_self j node w
    rw [hself] at hfree
    by_cases hkey : Writes key a
    · -- Only dropping the lock writes a key and leaves it unlocked.
      rcases holder_of_writes hjustified hnode hkey with rfl | hheld
      · cases hnode
        exact theory.lasts hjustified.2 (by rw [hself]; rfl) (by rw [hself]) hgrows
      · rw [hheld] at hfree
        cases hfree
    · have hsame := exec_sameKey hnode hkey
      refine theory.lasts (h j key (hsame.holder.symm.trans hfree)) ?_ ?_ hgrows
      · rw [hself]
        exact content_eq_of_rows hsame.rows
      · rw [hself]
        exact hsame.versions
  · have hother : update w i node j=w j := update_of_ne hj node w
    rw [hother] at hfree
    refine theory.lasts (h j key hfree) ?_ ?_ hgrows
    · rw [hother]
    · rw [hother]

/-- Invariant of a theory. -/
def Theory.inv (theory : Theory I K C T cluster) (w : World I K C T) : Prop :=
  theory.core w ∧ theory.AtRest w

/-- The cluster with the steps of a theory. -/
def Theory.machine (theory : Theory I K C T cluster) :
    Machine (ClusterAction I K C) ClusterAnswer T (World I K C T) Choice :=
  (clusterMachine I K C T).restrict theory.permits

/-- The discipline of a theory. -/
def Theory.discipline (theory : Theory I K C T cluster) :
    Discipline (ClusterAction I K C) (World I K C T) Unit T where
  inv w _ := theory.inv w
  rely t w _ w' _ := Respected t w w'
  good w t a := Justified cluster theory.toStandards w t a.1 a.2
  rely_refl t w _ := Respected.refl t w
  rely_trans h h' := h.trans h'

end Justifications

end NebularOs.ReplicatedCluster
