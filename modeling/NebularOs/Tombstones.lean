import Mathlib
import NebularOs.ClusterRuns

/-!
# Deleted objects stay deleted

A repair fetches its copy from a peer without any lock and commits it much later, while
the key may have been deleted in between. Once a deletion has recorded its tombstone, the
key gets an object again only by a client's write or by a peer's write that is newer than
the tombstone: a repair finds the tombstone under the key's lock and is refused.
-/

namespace NebularOs.Tombstones

open BlobFilenames RequestPrograms TaskPools TaskHistories ReplicationLog ReplicatedNode
open ReplicatedCluster Function Option

variable {I K C T : Type} [LinearOrder I] [DecidableEq K] {cluster : Cluster K} {etag : C→Text}

/-- A written object: where, and on whose behalf. -/
structure Commit (I K C : Type) where
  /-- Node of the object. -/
  node : I
  /-- Key of the object. -/
  key : K
  /-- On whose behalf it was written. -/
  writer : Writer I K C

/-- What a request has written, and on whose behalf. -/
def written : (a : Action I K C) → Answer a→Option (K×Writer I K C)
  | .commitPut writer key _,committed => if (committed : Bool) then some (key,writer) else none
  | _,_ => none

/-- The history of written objects, in order. -/
def commits (I K C T : Type) :
    Recorder (ClusterAction I K C) ClusterAnswer T (World I K C T) (List (Commit I K C)) where
  request _ a answer _ _ history :=
    match written a.2 answer with
    | some (key,writer) => history++[⟨a.1,key,writer⟩]
    | none => history
  environment _ _ history := history
  crash history := history

/-- On whose behalf a key was written first. -/
def firstWriter [DecidableEq I] (history : List (Commit I K C)) (i : I) (key : K) :
    Option (Writer I K C) :=
  (history.find? fun commit => decide (commit.node=i ∧ commit.key=key)).map Commit.writer

/-- Who may bring back an object deleted at a version: clients, and peers with a newer
write of it. -/
def MayRevive (key : K) (version : Version I) : Writer I K C→Prop
  | .client => True
  | .peer event => event.key=key ∧ event.content≠none ∧ version<event.effectiveVersion
  | .heal _ => False

/-- A key without an object whose tombstone is not older than a version. -/
structure Buried (node : Node I K C T) (key : K) (version : Version I) : Prop where
  /-- There is no object. -/
  content : node.content key=none
  /-- The tombstone is there. -/
  tombstone : ∃ current,node.db.versions key=some ⟨current,true⟩ ∧ version ≤ current

variable {i : I} {key : K} {a : Action I K C} {t : T} {answer : Answer a} {version : Version I}
  {choice : Choice} {w : World I K C T}

/-- A request that writes no object leaves a deleted key deleted. -/
theorem Buried.unwritten {node : Node I K C T} (h : Buried (w i) key version)
    (hjustified : Justified cluster (unconditional I K C T cluster).toStandards w t i a)
    (hexec : exec i t a choice (w i)=some (answer,node))
    (hwritten : ∀ writer,written a answer≠some (key,writer)) : Buried node key version := by
  obtain ⟨current,htombstone,hle⟩ := h.tombstone
  by_cases hkey : Writes key a
  · cases a with
    | commitPut writer other content =>
      obtain rfl : other=key := hkey
      cases choice with
      | clock stamp =>
        cases hexec
        exact (hwritten writer rfl).elim
      | _ =>
        cases hexec
        exact h
    | commitDelete keys =>
      cases choice with
      | work =>
        cases hexec
        refine ⟨?_,current,htombstone,hle⟩
        have hmem : key∈keys := hkey
        simp [Node.content,hmem]
      | _ =>
        cases hexec
        exact h
    | deleteRow other =>
      obtain rfl : other=key := hkey
      cases hexec
      exact ⟨by simp [Node.content],current,htombstone,hle⟩
    | recordLocalChange other committed writeClass group =>
      obtain rfl : other=key := hkey
      rcases exec_recordLocalChange hexec with ⟨_,rfl⟩ | ⟨stamp,_,_,_,rfl⟩
      · exact h
      have hnone : committed.content=none := hjustified.2.1.symm.trans h.content
      refine ⟨h.content,⟨(w i).db.nextMicros other stamp.now,i⟩,?_,?_⟩
      · refine withLocalChange_versions.trans ?_
        rw [if_pos rfl,hnone]
        rfl
      · exact hle.trans (Version.lt_of_micros_lt (Database.lt_nextMicros htombstone _)).le
    | recordRemoteChange other event =>
      obtain rfl : other=key := hkey
      obtain ⟨_,rfl,hcontent,hnewer,_⟩ := hjustified
      cases hexec
      have hnone : event.content=none := hcontent.symm.trans h.content
      refine ⟨h.content,event.effectiveVersion,?_,?_⟩
      · rw [recordRemoteChange_versions,if_pos rfl,Event.keyVersion,hnone]
        rfl
      · exact hle.trans (hnewer _ htombstone).le
    | recordRestored other copied =>
      obtain rfl : other=key := hkey
      obtain ⟨_,⟨content,hcontent⟩,_⟩ := hjustified
      rw [h.content] at hcontent
      cases hcontent
    | lock other =>
      simp only [exec] at hexec
      split_ifs at hexec
      cases hexec
      exact ⟨h.content,current,htombstone,hle⟩
    | unlock other =>
      cases hexec
      exact ⟨h.content,current,htombstone,hle⟩
    | storeIfAbsent other read state => exact hjustified.elim
    | _ => exact hkey.elim
  · have hsame := exec_sameKey hexec hkey
    refine ⟨(content_eq_of_rows hsame.rows).trans h.content,current,?_,hle⟩
    exact hsame.versions.trans htombstone

variable {writer : Writer I K C}

theorem Buried.mayRevive (h : Buried (w i) key version)
    (hjustified : Justified cluster (unconditional I K C T cluster).toStandards w t i a)
    (hwritten : written a answer=some (key,writer)) : MayRevive key version writer := by
  obtain ⟨current,htombstone,hle⟩ := h.tombstone
  cases a with
  | commitPut other otherKey content =>
    simp only [written] at hwritten
    split_ifs at hwritten
    cases hwritten
    cases writer with
    | client => trivial
    | peer event =>
      obtain ⟨_,rfl,hcontent,hnewer⟩ := hjustified
      exact ⟨rfl,by simp [hcontent],lt_of_le_of_lt hle (hnewer _ htombstone)⟩
    | heal copied =>
      -- A repair of an object that is not there has seen no tombstone.
      have hnotDeleted := hjustified.2 h.content _ htombstone
      cases hnotDeleted
  | _ => cases hwritten

theorem content_of_tombstone {node : Node I K C T}
    (hjustified : Justified cluster (unconditional I K C T cluster).toStandards w t i a)
    (hexec : exec i t a choice (w i)=some (answer,node))
    (hbefore : (w i).db.versions key≠some ⟨version,true⟩)
    (hafter : node.db.versions key=some ⟨version,true⟩) : node.content key=none := by
  by_cases hkey : Restates key a
  · cases a with
    | recordLocalChange other committed writeClass group =>
      obtain rfl : other=key := hkey
      rcases exec_recordLocalChange hexec with ⟨_,rfl⟩ | ⟨stamp,_,_,_,rfl⟩
      · exact (hbefore hafter).elim
      have hstate := (withLocalChange_versions.trans (if_pos rfl)).symm.trans hafter
      have hnone : committed.content.isNone=true :=
        congrArg KeyVersion.deleted (Option.some.inj hstate)
      exact hjustified.2.1.trans (isNone_iff_eq_none.mp hnone)
    | recordRemoteChange other event =>
      obtain rfl : other=key := hkey
      cases hexec
      rw [recordRemoteChange_versions,if_pos rfl] at hafter
      have hnone : event.content.isNone=true :=
        congrArg KeyVersion.deleted (Option.some.inj hafter)
      exact hjustified.2.2.1.trans (isNone_iff_eq_none.mp hnone)
    | recordRestored other copied =>
      obtain rfl : other=key := hkey
      cases hexec
      rw [Database.recordRestored,Database.store_versions,if_pos rfl] at hafter
      cases hafter
    | storeIfAbsent other read state => exact hjustified.elim
    | _ => exact hkey.elim
  · exact (hbefore ((exec_versions hexec hkey).symm.trans hafter)).elim

/-- A key is deleted since its tombstone, or who wrote it first may bring it back. -/
def DeletedUnlessRevived (i : I) (key : K) (version : Version I) (w : World I K C T)
    (history : List (Commit I K C)) : Prop :=
  match firstWriter history i key with
  | none => Buried (w i) key version
  | some writer => MayRevive key version writer

omit [DecidableEq K] in
theorem Buried.blobs {w' : World I K C T} (h : Buried (w i) key version)
    (hblobs : BlobsChange w w') : Buried (w' i) key version := by
  obtain ⟨blobs,hw⟩ := hblobs i
  rw [hw]
  exact ⟨h.content,h.tombstone⟩

variable {history : List (Commit I K C)}

theorem firstWriter_append_of_ne {commit : Commit I K C} (hne : ¬(commit.node=i ∧ commit.key=key)) :
    firstWriter (history++[commit]) i key=firstWriter history i key := by
  unfold firstWriter
  rw [List.find?_append]
  simp [hne]

theorem firstWriter_append_of_some {commit : Commit I K C}
    (h : firstWriter history i key=some writer) :
    firstWriter (history++[commit]) i key=some writer := by
  unfold firstWriter at h ⊢
  obtain ⟨found,hfound,hwriter⟩ := map_eq_some_iff.mp h
  rw [List.find?_append,hfound]
  exact congrArg some hwriter

theorem firstWriter_append_of_none (h : firstWriter history i key=none) :
    firstWriter (history++[⟨i,key,writer⟩]) i key=some writer := by
  unfold firstWriter at h ⊢
  rw [map_eq_none_iff] at h
  rw [List.find?_append,h]
  simp

/-- A justified request keeps a key deleted unless it is rightfully written. -/
theorem DeletedUnlessRevived.request {a : ClusterAction I K C} {answer : ClusterAnswer a}
    {w' : World I K C T} (h : DeletedUnlessRevived i key version w history)
    (hjustified : Justified cluster (unconditional I K C T cluster).toStandards w t a.1 a.2)
    (hexec : (clusterMachine I K C T).exec t a choice w=some (answer,w')) :
    DeletedUnlessRevived i key version w' ((commits I K C T).request t a answer w w' history) := by
  obtain ⟨j,a⟩ := a
  obtain ⟨node,hnode,rfl⟩ := clusterExec_eq_some.mp hexec
  have hnode' : i≠j→update w j node i=w i := fun hne => update_of_ne hne node w
  cases hwritten : written a answer with
  | none =>
    have hnote : (commits I K C T).request t (j,a) answer w
        (update w j node) history=history := by
      simp [commits,hwritten]
    rw [hnote]
    unfold DeletedUnlessRevived at h ⊢
    cases hfirst : firstWriter history i key with
    | some writer =>
      rwa [hfirst] at h
    | none =>
      rw [hfirst] at h
      by_cases hj : i=j
      · subst hj
        have hburied := h.unwritten hjustified hnode fun writer => by simp [hwritten]
        simpa using hburied
      · simpa [hnode' hj] using h
  | some note =>
    obtain ⟨other,writer⟩ := note
    have hnote : (commits I K C T).request t (j,a) answer w
        (update w j node) history=history++[⟨j,other,writer⟩] := by
      simp [commits,hwritten]
    rw [hnote]
    unfold DeletedUnlessRevived at h ⊢
    cases hfirst : firstWriter history i key with
    | some first =>
      rw [hfirst] at h
      rwa [firstWriter_append_of_some hfirst]
    | none =>
      rw [hfirst] at h
      by_cases hsame : j=i ∧ other=key
      · obtain ⟨rfl,rfl⟩ := hsame
        rw [firstWriter_append_of_none hfirst]
        exact h.mayRevive hjustified hwritten
      rw [firstWriter_append_of_ne hsame,hfirst]
      by_cases hj : i=j
      · subst hj
        have hother : ∀ writer',written a answer≠some (key,writer') := fun writer' hkey => by
          rw [hwritten,Option.some.injEq,Prod.mk.injEq] at hkey
          exact hsame ⟨rfl,hkey.1⟩
        have hburied := h.unwritten hjustified hnode hother
        simpa using hburied
      · simpa [hnode' hj] using h

section Runs

variable [DecidableEq T]

theorem content_of_step
    {pool pool' : ClusterPool I K C T} {i : I} {key : K}
    {version : Version I}
    (hholds : Holds (unconditional I K C T cluster).machine (unconditional I K C T cluster).discipline
      (fun _ _ _ _ => True) pool) (hstep : Step (unconditional I K C T cluster).machine
      (operations cluster etag fun _ _ => True) pool pool')
    (hbefore : (pool.world i).db.versions key≠some ⟨version,true⟩)
    (hafter : (pool'.world i).db.versions key=some ⟨version,true⟩) :
    (pool'.world i).content key=none := by
  cases hstep with
  | @run t a next choice answer world htask hexec =>
    have hjustified := hholds.good htask
    have hexec' := (Machine.restrict_exec_eq_some.mp hexec).2
    obtain ⟨j,a⟩ := a
    obtain ⟨node,hnode,rfl⟩ := clusterExec_eq_some.mp hexec'
    by_cases hj : i=j
    · subst hj
      dsimp only at hafter ⊢
      rw [update_self] at hafter ⊢
      exact content_of_tombstone hjustified hnode hbefore hafter
    · dsimp only at hafter
      rw [update_of_ne hj] at hafter
      exact (hbefore hafter).elim
  | start hidle hstarts => exact (hbefore hafter).elim
  | environment hblobs =>
    obtain ⟨blobs,hw⟩ := hblobs i
    dsimp only at hafter
    rw [hw] at hafter
    exact (hbefore hafter).elim
  | crash hcrash => exact hcrash.elim

omit [DecidableEq T] in
theorem DeletedUnlessRevived.blobs {w w' : World I K C T} {history : List (Commit I K C)} {i : I}
    {key : K} {version : Version I} (h : DeletedUnlessRevived i key version w history)
    (hblobs : BlobsChange w w') : DeletedUnlessRevived i key version w' history := by
  unfold DeletedUnlessRevived at h ⊢
  cases hfirst : firstWriter history i key with
  | none =>
    rw [hfirst] at h
    exact h.blobs hblobs
  | some writer =>
    rwa [hfirst] at h

end Runs

/-- A deletion of a missing object at the first node. -/
def sampleDeletion : Operation ℕ ℕ ℕ := .delete 0 (fun _ => true) []

/-- A repair of that object. -/
def sampleRepair : Operation ℕ ℕ ℕ := .healMissing 0 7 (some ⟨9,1⟩)

/-- The deletion has recorded its tombstone; the repair and the peer's write are started. -/
def sampleRest (pool : ClusterPool ℕ ℕ ℕ ℕ) :
    Pool (ClusterAction ℕ ℕ ℕ) ClusterAnswer ℕ (World ℕ ℕ ℕ ℕ×List (Commit ℕ ℕ ℕ)) Unit :=
  ⟨(pool.world,[]),update
    (update pool.tasks 1 (some (atNode 0 (sampleRepair.program (wholeCluster ℕ) fun _ => []))))
    2 (some (atNode 0 ((Operation.apply (sampleEvent 1 8 0 6)).program (wholeCluster ℕ) fun _ => [])))⟩

/-- The deletion and the repair end, and the peer's write is applied. -/
def sampleMoves : List (ℕ×Choice) :=
  [(0,.work),(1,.work),(1,.work),(1,.work),(2,.work),(2,.work),(2,.work),(2,.work),(2,.work),
    (2,.clock ⟨7,0⟩),(2,.work),(2,.work)]

end NebularOs.Tombstones
