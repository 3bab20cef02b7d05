import Mathlib
import NebularOs.ClusterRuns

/-!
# Restored objects and recorded versions

The object of a key and the version of its last change live in different stores. Local
changes and deliveries write both under the key's lock, but reconciliation drops the row
of a missing blob and keeps the version, and the repair of a missing object writes a
peer's copy and records its version only if that is newer.

So a repair may put an older copy under a newer version. The node then refuses the very
change it has lost, since its version is recorded. If local changes are recorded, and every
copy comes with the version of the change that put its content, not below the recorded one,
all objects match their versions.
-/

namespace NebularOs.RestoredContents

open BlobFilenames RequestPrograms TaskPools ReplicationLog ReplicatedNode ReplicatedCluster
open Function Option

variable {I K C T : Type} [LinearOrder I] [DecidableEq K] {cluster : Cluster K} {etag : C→Text}

/-- A change was given a version, by the node that made it or by the peers that order it. -/
def Given (event : Event I K C) (version : Version I) : Prop :=
  event.effectiveVersion=version ∨ ⟨event.version,event.origin⟩=version

instance (event : Event I K C) (version : Version I) : Decidable (Given event version) :=
  inferInstanceAs (Decidable (_ ∨ _))

/-- Some change of a key that was given a version put a content. -/
def describes (etag : C→Text) (w : World I K C T) (key : K) (version : Version I) (content : C) :
    Bool :=
  (w version.origin).db.events.any fun event =>
    decide (event.key=key ∧ Given event version ∧ event.content.map etag=some (etag content))

variable {version : Version I}

omit [LinearOrder I] [DecidableEq K] in
theorem Given.origin {event : Event I K C} (h : Given event version) :
    event.origin=version.origin := by
  rcases h with rfl | rfl
  · rfl
  · rfl

variable {w : World I K C T} {key : K}

theorem describes_iff {content : C} :
    describes etag w key version content=true ↔ ∃ event,Made w event ∧ event.key=key ∧
      Given event version ∧ event.content.map etag=some (etag content) := by
  unfold describes
  rw [List.any_eq_true]
  constructor
  · rintro ⟨event,hevent,hmatches⟩
    obtain ⟨hkey,hgiven,hcontent⟩ := of_decide_eq_true hmatches
    refine ⟨event,?_,hkey,hgiven,hcontent⟩
    show event∈(w event.origin).db.events
    rwa [hgiven.origin]
  · rintro ⟨event,hmade,hkey,hgiven,hcontent⟩
    refine ⟨event,?_,decide_eq_true ⟨hkey,hgiven,hcontent⟩⟩
    rwa [← hgiven.origin]

theorem describes_grows {w' : World I K C T} {content : C}
    (h : describes etag w key version content=true) (hgrows : Grows w w') :
    describes etag w' key version content=true := by
  obtain ⟨event,hmade,hrest⟩ := describes_iff.mp h
  exact describes_iff.mpr ⟨event,hmade.grows hgrows,hrest⟩

/-- The object of a key has the content of the change that was given its version. -/
def Matches (etag : C→Text) (w : World I K C T) (i : I) (key : K) : Prop :=
  ∀ content version,(w i).content key=some content →
    (w i).db.versions key=some ⟨version,false⟩→describes etag w key version content=true

/-- A peer's copy of a missing object comes with the version of a change that put its
content, and that is not below the recorded version. Where none is recorded, it may come
without. -/
def copyFits (etag : C→Text) (w : World I K C T) (current : Option (KeyVersion I)) (key : K)
    (copy : C) : Option (Version I)→Bool
  | some version => describes etag w key version copy &&
      current.all fun state => decide (state.version≤version)
  | none => current.isNone

/-- Local changes are recorded, and the copies that repair missing objects fit. -/
def copiesFit (etag : C→Text) (_ : T) (a : ClusterAction I K C) (choice : Choice)
    (w : World I K C T) : Bool :=
  match a.2 with
  | .commitPut (.heal copied) key copy =>
    ((w a.1).content key).isSome || copyFits etag w ((w a.1).db.versions key) key copy copied
  | _ => recordsChanges a choice w

/-- Only replicated keys have events and versions. -/
structure OnlyReplicated (cluster : Cluster K) (w : World I K C T) : Prop where
  /-- Events are of replicated keys. -/
  events : ∀ i,∀ event∈(w i).db.events,cluster.replicates event.key=true
  /-- Versions are of replicated keys. -/
  versions : ∀ i key state,(w i).db.versions key=some state → cluster.replicates key=true

/-- What the operations of such nodes keep to. -/
def standards (etag : C→Text) (cluster : Cluster K) : Standards I K C T where
  deliverable := Made
  settled w i key := cluster.replicates key=true→Matches etag w i key
  restorable w i key version :=
    ∃ content,(w i).content key=some content ∧ describes etag w key version content=true

/-- Requests touch events and versions of replicated keys only. -/
theorem OnlyReplicated.step {w w' : World I K C T} {t : T} {i : I} {a : Action I K C}
    {choice : Choice} {answer : Answer a} (h : OnlyReplicated cluster w)
    (hjustified : Justified cluster (standards etag cluster) w t i a)
    (hexec : (clusterMachine I K C T).exec t (i,a) choice w=some (answer,w')) :
    OnlyReplicated cluster w' := by
  obtain ⟨node,hnode,rfl⟩ := clusterExec_eq_some.mp hexec
  refine ⟨fun j event hevent => ?_,fun j key state hstate => ?_⟩
  · by_cases hj : j=i
    · subst hj
      rw [update_self] at hevent
      rcases learns_of_mem_events hnode hevent with hold | hlearns
      · exact h.events j event hold
      cases a with
      | recordLocalChange key committed writeClass group =>
        obtain ⟨stamp,_,rfl⟩ := hlearns
        exact hjustified.2.2
      | recordRemoteChange key other =>
        obtain rfl : event=other := hlearns
        exact h.events event.origin event hjustified.2.2.2.2
      | recordApplied other =>
        obtain rfl : event=other := hlearns
        exact h.events event.origin event hjustified.2
      | insertPending key content storageClass group version => exact hjustified.elim
      | _ => exact hlearns.elim
    · rw [update_of_ne hj] at hevent
      exact h.events j event hevent
  · by_cases hj : j=i
    · subst hj
      rw [update_self] at hstate
      by_cases hkey : Restates key a
      · cases a with
        | recordLocalChange other committed writeClass group =>
          obtain rfl : other=key := hkey
          exact hjustified.2.2
        | recordRemoteChange other event =>
          obtain rfl : other=key := hkey
          obtain ⟨_,rfl,_,_,hmade⟩ := hjustified
          exact h.events event.origin event hmade
        | recordRestored other version =>
          obtain rfl : other=key := hkey
          obtain ⟨_,_,_,_,content,_,hdescribes⟩ := hjustified
          obtain ⟨event,hmade,rfl,_⟩ := describes_iff.mp hdescribes
          exact h.events event.origin event hmade
        | storeIfAbsent other read version => exact hjustified.elim
        | _ => exact hkey.elim
      · exact h.versions j key state ((exec_versions hnode hkey).symm.trans hstate)
    · rw [update_of_ne hj] at hstate
      exact h.versions j key state hstate

variable {i : I}

theorem matches_recordLocalChange {committed : Committed C} {writeClass group : Text}
    {stamp : Stamp} (hcommitted : (w i).content key=committed.content) :
    Matches etag (update w i ((w i).withLocalChange i key committed writeClass group stamp)) i
      key := by
  intro content version hcontent hstate
  rw [update_self] at hcontent hstate
  replace hstate := (withLocalChange_versions.trans (if_pos rfl)).symm.trans hstate
  have hversion : (⟨(w i).db.nextMicros key stamp.now,i⟩ : Version I)=version :=
    congrArg KeyVersion.version (Option.some.inj hstate)
  have hsome : committed.content=some content := hcommitted.symm.trans hcontent
  refine describes_iff.mpr
    ⟨(w i).db.localEvent i (i,(w i).nextId) key committed writeClass group stamp,?_,rfl,
      Or.inr hversion,?_⟩
  · show _∈(update w i _ i).db.events
    rw [update_self]
    exact Database.mem_events_insertPending.mpr (Or.inr rfl)
  · show committed.content.map etag=some (etag content)
    rw [hsome]
    rfl

variable {t : T}

theorem matches_recordRemoteChange {event : Event I K C}
    (hjustified : Justified cluster (standards etag cluster) w t i (.recordRemoteChange key event)) :
    Matches etag (update w i {w i with db := (w i).db.recordRemoteChange key event}) i key := by
  have hexec : exec i t (.recordRemoteChange key event) .work (w i)=
      some ((),{w i with db := (w i).db.recordRemoteChange key event}) := rfl
  have hgrows := grows_of_justified hjustified (clusterExec_eq_some.mpr ⟨_,hexec,rfl⟩)
  obtain ⟨_,rfl,hcommitted,_,hmade⟩ := hjustified
  intro content version hcontent hstate
  rw [update_self] at hcontent hstate
  rw [recordRemoteChange_versions,if_pos rfl] at hstate
  have hversion : event.effectiveVersion=version :=
    congrArg KeyVersion.version (Option.some.inj hstate)
  have hsome : event.content=some content := hcommitted.symm.trans hcontent
  refine describes_iff.mpr ⟨event,Made.grows hmade hgrows,rfl,Or.inl hversion,?_⟩
  rw [hsome]
  rfl

theorem matches_recordRestored
    (hjustified : Justified cluster (standards etag cluster) w t i (.recordRestored key version)) :
    Matches etag (update w i {w i with db := (w i).db.recordRestored key version}) i key := by
  have hexec : exec i t (.recordRestored key version : Action I K C) .work (w i)=
      some ((),{w i with db := (w i).db.recordRestored key version}) := rfl
  have hgrows := grows_of_justified hjustified (clusterExec_eq_some.mpr ⟨_,hexec,rfl⟩)
  obtain ⟨_,_,_,_,restored,hrestored,hdescribes⟩ := hjustified
  intro content recorded hcontent hstate
  rw [update_self] at hcontent hstate
  rw [Database.recordRestored,Database.store_versions,if_pos rfl] at hstate
  obtain rfl : version=recorded := congrArg KeyVersion.version (Option.some.inj hstate)
  obtain rfl : restored=content := Option.some.inj (hrestored.symm.trans hcontent)
  exact describes_grows hdescribes hgrows

/-- The theory of nodes whose repairs bring fitting copies. -/
def fitting (I K C T : Type) [LinearOrder I] [DecidableEq K] (cluster : Cluster K)
    (etag : C→Text) : Theory I K C T cluster where
  toStandards := standards etag cluster
  permits := copiesFit etag
  core := OnlyReplicated cluster
  coreStep hcore hjustified _ hexec := hcore.step hjustified hexec
  lasts {w w' i key} hsettled hcontent hversions hgrows hreplicates content version hsome hstate := by
    rw [hcontent] at hsome
    rw [hversions] at hstate
    exact describes_grows (hsettled hreplicates content version hsome hstate) hgrows
  deliverableLasts hmade hgrows := Made.grows hmade hgrows
  restorableLasts {w w' i key version} hrestorable hcontent hgrows := by
    obtain ⟨content,hsome,hdescribes⟩ := hrestorable
    exact ⟨content,hcontent.trans hsome,describes_grows hdescribes hgrows⟩
  recorded _ hjustified hpermits hexec _ := by
    obtain ⟨stamp,_,rfl⟩ := recordsChanges_exec hpermits hexec
    exact matches_recordLocalChange hjustified.2.1
  applied _ hjustified _ := matches_recordRemoteChange hjustified
  restored _ hjustified _ := matches_recordRestored hjustified
  unreplicated hnot hreplicates := by
    rw [hnot] at hreplicates
    cases hreplicates

/-- Events are delivered once they are made; all other operations may be started. -/
def Deliverable (w : World I K C T) : Operation I K C→Prop
  | .apply event => Made w event
  | _ => True

instance [DecidableEq C] (w : World I K C T) : DecidablePred (Deliverable w)
  | .apply event => inferInstanceAs (Decidable (Made w event))
  | .put _ _ _ _ | .delete _ _ _ | .deleteMany _ _ | .healMissing _ _ _ | .healDamaged _ _
  | .reconcile _ => .isTrue trivial

/-- A repair with a fitting copy leaves what can be settled. -/
theorem healed_of_copiesFit {copy : C} {copied : Option (Version I)} {choice : Choice}
    {node : Node I K C T} {state : Option (KeyVersion I)} (howns : Owns w t i key none state)
    (hfits : copiesFit etag t (i,.commitPut (.heal copied) key copy) choice w=true)
    (hexec : exec i t (.commitPut (.heal copied) key copy) choice (w i)=some (true,node)) :
    Healed (fitting I K C T cluster etag) i key copied state (update w i node) := by
  replace hfits : copyFits etag w state key copy copied=true := by
    simpa only [copiesFit,howns.content,howns.versions,isSome_none,Bool.false_or] using hfits
  have hevents : ∀ version,describes etag w key version copy=true →
      describes etag (update w i node) key version copy=true := by
    intro version hdescribes
    obtain ⟨event,hmade,hrest⟩ := describes_iff.mp hdescribes
    refine describes_iff.mpr ⟨event,?_,hrest⟩
    show event∈(update w i node event.origin).db.events
    by_cases horigin : event.origin=i
    · have hmade' : event∈(w i).db.events := by
        rwa [← horigin]
      rw [horigin,update_self]
      exact exec_events hexec hmade'
    · rwa [update_of_ne horigin]
  have hcontent : (update w i node i).content key=some copy := by
    rw [update_self]
    cases choice <;> cases hexec
    simp [Node.content]
  have hversions : (update w i node i).db.versions key=state := by
    rw [update_self]
    cases choice <;> cases hexec
    exact howns.versions
  refine ⟨fun version hversion hnewer => ⟨copy,hcontent,hevents version ?_⟩,
    fun hnot _ content version hsome hstate => ?_⟩
  · subst hversion
    exact ((Bool.and_eq_true _ _).mp hfits).1
  · -- The copy's version is not newer than the recorded one, nor is it older.
    obtain rfl : copy=content := Option.some.inj (hcontent.symm.trans hsome)
    obtain rfl : state=some ⟨version,false⟩ := hversions.symm.trans hstate
    cases copied with
    | none => cases hfits
    | some named =>
      obtain ⟨hdescribes,hle⟩ := (Bool.and_eq_true _ _).mp hfits
      obtain ⟨current,hcurrent,hge⟩ := hnot named rfl
      cases hcurrent
      obtain rfl : version=named := le_antisymm (of_decide_eq_true hle) hge
      exact hevents version hdescribes

theorem fitting_handles : Handles (fitting I K C T cluster etag) etag Deliverable where
  apply hmade := hmade
  healMissing _ _ _ _ _ _ _ _ howns hfits hexec := healed_of_copiesFit howns hfits hexec
  healDamaged := by
    intro _ key copy _ i w w' content hsettled hcontent hetag hcopy hversions hgrows hreplicates
      found version hfound hstate
    obtain rfl : copy=found := Option.some.inj (hcopy.symm.trans hfound)
    rw [hversions] at hstate
    have hdescribes := describes_grows (hsettled hreplicates content version hcontent hstate) hgrows
    unfold describes at hdescribes ⊢
    rwa [hetag] at hdescribes
  reconcile := by
    intro _ key _ i w w' hsettled hnone hversions hgrows hreplicates content version hsome _
    rw [hnone] at hsome
    cases hsome
  blobs := by
    intro w w' hinv hblobs
    refine ⟨⟨fun i event hevent => ?_,fun i key state hstate => ?_⟩,
      Theory.atRest_blobs _ hinv.2 hblobs⟩
    · obtain ⟨blobs,hw⟩ := hblobs i
      rw [hw] at hevent
      exact hinv.1.events i event hevent
    · obtain ⟨blobs,hw⟩ := hblobs i
      rw [hw] at hstate
      exact hinv.1.versions i key state hstate

theorem fitting_of_fresh (h : Fresh w) : (fitting I K C T cluster etag).inv w := by
  refine ⟨⟨fun i event hevent => (h.not_mem i event hevent).elim,fun i key state hstate => ?_⟩,
    fun i key _ _ content version hcontent _ => ?_⟩
  · rw [h.versions i key] at hstate
    cases hstate
  · rw [Node.content,h.rows i key] at hcontent
    cases hcontent

section Runs

variable [DecidableEq T]

end Runs

/-- The requests of a task that drops the row of a missing blob. -/
def reconcileMoves (t : ℕ) : List (ℕ×Choice) :=
  [(t,.work),(t,.work),(t,.work),(t,.work),(t,.work),(t,.work)]

/-- The requests of a task that repairs a missing object with an older copy. -/
def repairMoves (t : ℕ) : List (ℕ×Choice) :=
  [(t,.work),(t,.work),(t,.work),(t,.clock ⟨9,0⟩),(t,.work),(t,.work)]

end NebularOs.RestoredContents
