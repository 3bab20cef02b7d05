import Mathlib
import NebularOs.ReplicatedNode

/-!
# Backfilled events

A backfill reads the row of an object, then takes the version of its key, then queues an
event, without the key's lock. Local changes of the key may come in between, each
committed together with its version and its event.

An event stands for the state of its key at its version. If the object changes after the
backfill has read it and before it takes the version, the backfill queues the old content
under the version of the new one. While it finds the content it has read, all events of a
key that carry one version describe one state.
-/

namespace NebularOs.Backfill

open BlobFilenames RequestPrograms TaskPools ReplicationLog ReplicatedNode Program Function Machine

variable {I K C T : Type} {α : Type}

/-- Requests of backfills, and local changes as a whole. -/
inductive Move (I K C : Type)
  /-- A local change, committed together with its version. -/
  | change (key : K) (committed : Committed C) (writeClass : Text)
  /-- A request of a backfill. -/
  | request (a : Action I K C)

/-- Answers of the requests. -/
abbrev MoveAnswer : Move I K C→Type
  | .change _ _ _ => Unit
  | .request a => Answer a

/-- A program of a node among local changes. -/
def asMoves : Prog I K C α→Program (Move I K C) MoveAnswer α
  | .done value => .done value
  | .ask a next => .ask (.request a) fun answer => asMoves (next answer)

theorem asMoves_bind {β : Type} (program : Prog I K C α) (rest : α→Prog I K C β) :
    asMoves (program.bind rest)=(asMoves program).bind fun value => asMoves (rest value) := by
  induction program with
  | done value => rfl
  | ask a next ih =>
    exact congrArg (Program.ask (Move.request a)) (funext ih)

theorem asMoves_forEach {β : Type} (xs : List β) (body : β→Prog I K C Unit) :
    asMoves (Program.forEach xs body)=Program.forEach xs fun x => asMoves (body x) := by
  induction xs with
  | nil => rfl
  | cons x xs ih => rw [forEach_cons,forEach_cons,asMoves_bind,ih]

section Steps

variable [DecidableEq K]

/-- Row of an object after a local change. -/
def rowAfter (existing : Option (Row C)) (now : ℤ) : Committed C→Option (Row C)
  | .written content => some ⟨content,now,existing.bind Row.storageClass⟩
  | .deleted _ => none

/-- A local change with its version and event. -/
def change (self : I) (cluster : Cluster K) (node : Node I K C T) (key : K)
    (committed : Committed C) (writeClass : Text) (stamp : Stamp) : Node I K C T :=
  let node := {node with
    rows := update node.rows key (rowAfter (node.rows key) stamp.now committed)
    blobs := update node.blobs key (node.blobs key || committed.content.isSome)}
  if cluster.replicates key then
    node.withLocalChange self key committed writeClass cluster.group stamp
  else node

/-- The machine of a node whose local changes are committed together with their versions,
which are 64-bit integers. -/
def changeMachine [DecidableEq I] (self : I) (cluster : Cluster K) :
    Machine (Move I K C) MoveAnswer T (Node I K C T) Choice where
  exec t move choice node :=
    match move,choice with
    | .change key committed writeClass,.clock stamp =>
      if cluster.replicates key=true→node.db.nextMicros key stamp.now<2^63 then
        some ((),change self cluster node key committed writeClass stamp)
      else none
    | .change _ _ _,_ => none
    | .request a,choice => exec self t a choice node

/-- Local changes and backfills of pages of keys may be started at any time. -/
def backfills (self : I) (cluster : Cluster K) :
    Rules (Move I K C) MoveAnswer (Node I K C T) Unit where
  starts _ program := (∃ key committed writeClass,
      program=.ask (.change key committed writeClass) .done) ∨
    ∃ page,program=asMoves (backfillReplication self cluster page)
  environment _ _ := False
  crash _ _ := False

/-- Backfills take a version while the key has none, or has the content they have read. -/
def stillRead (etag : C→Text) (_ : T) (move : Move I K C) (_ : Choice) (node : Node I K C T) :
    Bool :=
  match move with
  | .request (.storeIfAbsent key read _) => (node.db.versions key).isNone ||
      (node.content key).map etag==some (etag read)
  | _ => true

/-- What each version of a key stands for: the ETag of the object, if there was one. -/
abbrev Meanings (K : Type) := K→ℤ→Option (Option Text)

/-- Versions and events have their meaning. -/
structure Explained (cluster : Cluster K) (etag : C→Text) (node : Node I K C T)
    (meanings : Meanings K) : Prop where
  /-- The recorded version of a key stands for its object. -/
  current : ∀ key state,cluster.replicates key=true→node.db.versions key=some state →
    meanings key state.version.micros=some ((node.content key).map etag)
  /-- An event describes what its version stands for. -/
  events : ∀ event∈node.db.events,
    meanings event.key event.version=some (event.content.map etag)
  /-- No version is greater than the recorded one. -/
  bounded : ∀ key micros meaning,meanings key micros=some meaning →
    ∃ state,node.db.versions key=some state ∧ micros ≤ state.version.micros

/-- Changes by others that a backfill puts up with: versions keep their meaning, and an
object whose key has no version stays. -/
structure Tolerated (cluster : Cluster K) (node : Node I K C T) (meanings : Meanings K)
    (node' : Node I K C T) (meanings' : Meanings K) : Prop where
  /-- Versions keep their meaning. -/
  meanings : ∀ key micros meaning,meanings key micros=some meaning →
    meanings' key micros=some meaning
  /-- The object of a key without a version is the same. -/
  unversioned : ∀ key,cluster.replicates key=true→node'.db.versions key=none →
    node.db.versions key=none ∧ node'.content key=node.content key

/-- How tasks share a node. -/
def discipline (cluster : Cluster K) (etag : C→Text) :
    Discipline (Move I K C) (Node I K C T) (Meanings K) T where
  inv := Explained cluster etag
  rely _ := Tolerated cluster
  good _ _ _ := True
  rely_refl _ _ _ := ⟨fun _ _ _ hmeaning => hmeaning,fun _ _ hnone => ⟨hnone,rfl⟩⟩
  rely_trans h h' := by
    refine ⟨fun key micros meaning hmeaning => ?_,fun key hreplicates hnone => ?_⟩
    · exact h'.meanings key micros meaning (h.meanings key micros meaning hmeaning)
    · obtain ⟨hnone',hsame'⟩ := h'.unversioned key hreplicates hnone
      obtain ⟨hnone'',hsame⟩ := h.unversioned key hreplicates hnone'
      exact ⟨hnone'',hsame'.trans hsame⟩

/-- Meanings with one more version. -/
def explain (meanings : Meanings K) (key : K) (micros : ℤ) (meaning : Option Text) : Meanings K :=
  update meanings key (update (meanings key) micros (some meaning))

@[simp]
theorem explain_self (meanings : Meanings K) (key : K) (micros : ℤ) (meaning : Option Text) :
    explain meanings key micros meaning key micros=some meaning := by
  simp [explain]

theorem explain_of_some {meanings : Meanings K} {key other : K} {micros time : ℤ}
    {meaning known : Option Text} (hnone : meanings key micros=none)
    (h : meanings other time=some known) : explain meanings key micros meaning other time=some known := by
  unfold explain
  by_cases hkey : other=key
  · subst hkey
    have hne : time≠micros := fun heq => by
      rw [heq,hnone] at h
      cases h
    rwa [update_self,update_of_ne hne]
  · rwa [update_of_ne hkey]

theorem explain_eq_some {meanings : Meanings K} {key other : K} {micros time : ℤ}
    {meaning known : Option Text} (h : explain meanings key micros meaning other time=some known) :
    meanings other time=some known ∨ other=key ∧ time=micros := by
  unfold explain at h
  by_cases hkey : other=key
  · subst hkey
    rw [update_self] at h
    by_cases htime : time=micros
    · exact Or.inr ⟨rfl,htime⟩
    · rw [update_of_ne htime] at h
      exact Or.inl h
  · rw [update_of_ne hkey] at h
    exact Or.inl h

variable {self : I} {cluster : Cluster K} {etag : C→Text} {node : Node I K C T}
  {meanings : Meanings K}

theorem change_content (key : K) (committed : Committed C) (writeClass : Text) (stamp : Stamp)
    (other : K) : (change self cluster node key committed writeClass stamp).content other=
      if other=key then committed.content else node.content other := by
  have hrows : (change self cluster node key committed writeClass stamp).rows=
      update node.rows key (rowAfter (node.rows key) stamp.now committed) := by
    unfold change
    by_cases h : cluster.replicates key=true
    · simp [h,Node.withLocalChange]
    · simp [h]
  rw [Node.content,hrows]
  by_cases hkey : other=key
  · subst hkey
    rw [update_self,if_pos rfl]
    cases committed with
    | written content | deleted storageClass => rfl
  · rw [update_of_ne hkey,if_neg hkey]
    rfl

theorem change_db {key : K} (h : cluster.replicates key=true) (committed : Committed C)
    (writeClass : Text) (stamp : Stamp) :
    (change self cluster node key committed writeClass stamp).db=
      node.db.withLocalChange self (self,node.nextId) key committed writeClass cluster.group stamp := by
  simp [change,h,Node.withLocalChange]

theorem change_db_of_not {key : K} (h : cluster.replicates key=false) (committed : Committed C)
    (writeClass : Text) (stamp : Stamp) :
    (change self cluster node key committed writeClass stamp).db=node.db := by
  simp [change,h]

omit [DecidableEq K] in
theorem Explained.nextMicros (h : Explained cluster etag node meanings) (key : K) (now : ℤ) :
    meanings key (node.db.nextMicros key now)=none := by
  cases hmeaning : meanings key (node.db.nextMicros key now) with
  | none => rfl
  | some meaning =>
    obtain ⟨state,hstate,hle⟩ := h.bounded key _ meaning hmeaning
    have hlt := Database.lt_nextMicros hstate now
    omega

/-- A local change of a replicated key gives its new version a meaning. -/
theorem Explained.change (h : Explained cluster etag node meanings) {key : K}
    (hreplicates : cluster.replicates key=true) (committed : Committed C) (writeClass : Text)
    (stamp : Stamp) :
    Explained cluster etag (change self cluster node key committed writeClass stamp)
      (explain meanings key (node.db.nextMicros key stamp.now) (committed.content.map etag)) := by
  have hnone := h.nextMicros key stamp.now
  have hdb : (Backfill.change self cluster node key committed writeClass stamp).db=
      node.db.withLocalChange self (self,node.nextId) key committed writeClass cluster.group stamp :=
    change_db hreplicates committed writeClass stamp
  have hversions : ∀ other,(Backfill.change self cluster node key committed writeClass
      stamp).db.versions other=if other=key then
        some ⟨⟨node.db.nextMicros key stamp.now,self⟩,committed.content.isNone⟩
      else node.db.versions other := fun other => by
    rw [hdb]
    simp [Database.withLocalChange]
  constructor
  · intro other state hother hstate
    rw [hversions] at hstate
    rw [change_content]
    by_cases hkey : other=key
    · subst hkey
      rw [if_pos rfl] at hstate ⊢
      cases hstate
      exact explain_self meanings other _ _
    · rw [if_neg hkey] at hstate ⊢
      exact explain_of_some hnone (h.current other state hother hstate)
  · intro event hevent
    rw [hdb] at hevent
    rcases Database.mem_events_insertPending.mp hevent with hold | rfl
    · exact explain_of_some hnone (h.events event hold)
    · exact explain_self meanings key _ _
  · intro other micros meaning hmeaning
    rw [hversions]
    rcases explain_eq_some hmeaning with hold | ⟨rfl,rfl⟩
    · obtain ⟨state,hstate,hle⟩ := h.bounded other micros meaning hold
      by_cases hkey : other=key
      · subst hkey
        rw [if_pos rfl]
        have hlt := Database.lt_nextMicros hstate stamp.now
        exact ⟨_,rfl,hle.trans hlt.le⟩
      · rw [if_neg hkey]
        exact ⟨state,hstate,hle⟩
    · rw [if_pos rfl]
      exact ⟨_,rfl,le_rfl⟩

theorem keeps_change (h : Explained cluster etag node meanings) (t : T) (key : K)
    (committed : Committed C) (writeClass : Text) (stamp : Stamp) :
    ∃ meanings',(discipline cluster etag).Keeps t node meanings
      (change self cluster node key committed writeClass stamp) meanings' := by
  by_cases hreplicates : cluster.replicates key=true
  · refine ⟨_,h.change hreplicates committed writeClass stamp,fun u _ => ⟨?_,?_⟩⟩
    · exact fun other micros meaning => explain_of_some (h.nextMicros key stamp.now)
    · intro other _ hnone
      rw [change_db hreplicates] at hnone
      rw [change_content]
      by_cases hkey : other=key
      · simp [Database.withLocalChange,hkey] at hnone
      · rw [if_neg hkey]
        simp only [Database.withLocalChange,Database.insertPending_versions,
          Database.store_versions,hkey,if_false] at hnone
        exact ⟨hnone,rfl⟩
  · have hdb : (change self cluster node key committed writeClass stamp).db=node.db :=
      change_db_of_not (by simpa using hreplicates) committed writeClass stamp
    have hcontent : ∀ other,cluster.replicates other=true →
        (change self cluster node key committed writeClass stamp).content other=node.content other := by
      intro other hother
      have hkey : other≠key := fun heq => hreplicates (heq ▸ hother)
      rw [change_content,if_neg hkey]
    refine ⟨meanings,⟨fun other state hother hstate => ?_,?_,?_⟩,fun u _ => ⟨?_,?_⟩⟩
    · rw [hdb] at hstate
      rw [hcontent other hother]
      exact h.current other state hother hstate
    · rw [hdb]
      exact h.events
    · rw [hdb]
      exact h.bounded
    · exact fun _ _ _ hmeaning => hmeaning
    · intro other hother hnone
      rw [hdb] at hnone
      exact ⟨hnone,hcontent other hother⟩

/-- A version that a backfill stores stands for the object it has read. -/
theorem keeps_storeIfAbsent (h : Explained cluster etag node meanings) (t : T) {key : K}
    (hreplicates : cluster.replicates key=true) {read : C} (state : KeyVersion I)
    (hread : (node.content key).map etag=some (etag read)) :
    ∃ meanings',(discipline cluster etag).Keeps t node meanings
        {node with db := node.db.storeIfAbsent key state} meanings' ∧
      meanings' key (node.db.versionOr key state).micros=some (some (etag read)) := by
  cases hversion : node.db.versions key with
  | some current =>
    have hdb : node.db.storeIfAbsent key state=node.db := by
      simp [Database.storeIfAbsent,hversion]
    have hmicros : node.db.versionOr key state=current.version := by
      simp [Database.versionOr,hversion]
    rw [hdb,hmicros]
    refine ⟨meanings,⟨h,fun u _ => (discipline cluster etag).rely_refl u node meanings⟩,?_⟩
    rw [h.current key current hreplicates hversion,hread]
  | none =>
    have hdb : node.db.storeIfAbsent key state=node.db.store key state := by
      simp [Database.storeIfAbsent,hversion]
    have hmicros : node.db.versionOr key state=state.version := by
      simp [Database.versionOr,hversion]
    have hnone : meanings key state.version.micros=none := by
      cases hmeaning : meanings key state.version.micros with
      | none => rfl
      | some meaning =>
        obtain ⟨recorded,hrecorded,_⟩ := h.bounded key _ meaning hmeaning
        rw [hversion] at hrecorded
        cases hrecorded
    rw [hdb,hmicros]
    refine ⟨explain meanings key state.version.micros (some (etag read)),⟨⟨?_,?_,?_⟩,
      fun u _ => ⟨?_,?_⟩⟩,explain_self meanings key _ _⟩
    · intro other recorded hother hrecorded
      rw [Database.store_versions] at hrecorded
      by_cases hkey : other=key
      · subst hkey
        rw [if_pos rfl] at hrecorded
        cases hrecorded
        rw [explain_self]
        exact congrArg some hread.symm
      · rw [if_neg hkey] at hrecorded
        exact explain_of_some hnone (h.current other recorded hother hrecorded)
    · exact fun event hevent => explain_of_some hnone (h.events event hevent)
    · intro other micros meaning hmeaning
      rw [Database.store_versions]
      rcases explain_eq_some hmeaning with hold | ⟨rfl,rfl⟩
      · obtain ⟨recorded,hrecorded,hle⟩ := h.bounded other micros meaning hold
        have hkey : other≠key := fun heq => by
          rw [heq,hversion] at hrecorded
          cases hrecorded
        rw [if_neg hkey]
        exact ⟨recorded,hrecorded,hle⟩
      · rw [if_pos rfl]
        exact ⟨state,rfl,le_rfl⟩
    · exact fun other micros meaning => explain_of_some hnone
    · intro other _ hother
      rw [Database.store_versions] at hother
      by_cases hkey : other=key
      · rw [if_pos hkey] at hother
        cases hother
      · rw [if_neg hkey] at hother
        exact ⟨hother,rfl⟩

omit [DecidableEq K] in
theorem keeps_insertPending (h : Explained cluster etag node meanings) (t : T)
    {event : Event I K C} (nextId : ℕ)
    (hmeaning : meanings event.key event.version=some (event.content.map etag)) :
    (discipline cluster etag).Keeps t node meanings
      {node with db := node.db.insertPending event,nextId := nextId} meanings := by
  refine ⟨⟨h.current,fun other hother => ?_,h.bounded⟩,fun u _ => ⟨?_,fun _ _ hnone => ⟨hnone,rfl⟩⟩⟩
  · rcases Database.mem_events_insertPending.mp hother with hold | rfl
    · exact h.events other hold
    · exact hmeaning
  · exact fun _ _ _ hknown => hknown

variable [DecidableEq I]

/-- The node while backfills find what they have read. -/
def steadyMachine (self : I) (cluster : Cluster K) (etag : C→Text) :
    Machine (Move I K C) MoveAnswer T (Node I K C T) Choice :=
  (changeMachine self cluster).restrict (stillRead etag)

theorem safe_read {a : Action I K C} {rest : Answer a→Program (Move I K C) MoveAnswer α}
    {post : α→Node I K C T→Meanings K→Prop} {t : T}
    (hread : ∀ choice node answer node',exec self t a choice node=some (answer,node')→node'=node)
    (hrest : ∀ choice node' meanings' answer,Tolerated cluster node meanings node' meanings' →
      exec self t a choice node'=some (answer,node') →
        safe (steadyMachine self cluster etag) (discipline cluster etag) t (rest answer) post node'
          meanings') :
    safe (steadyMachine self cluster etag) (discipline cluster etag) t (.ask (.request a) rest) post
      node meanings := by
  intro w g hinv hrely
  refine ⟨trivial,fun choice answer w' hstep => ⟨g,?_⟩⟩
  have hexec : exec self t a choice w=some (answer,w') :=
    (restrict_exec_eq_some.mp hstep).2
  obtain rfl := hread choice w answer w' hexec
  exact ⟨⟨hinv,fun u _ => (discipline cluster etag).rely_refl u w' g⟩,
    hrest choice w' g answer hrely hexec⟩

theorem safe_enqueuePut {t : T} {key : K} {row : Row C} (hreplicates : cluster.replicates key=true)
    {before : Node I K C T} {earlier : Meanings K} (hrow : before.content key=some row.content)
    (hsince : Tolerated cluster before earlier node meanings) :
    safe (steadyMachine self cluster etag) (discipline cluster etag) t
      (asMoves (enqueuePut self cluster key row)) (fun _ _ _ => True) node meanings := by
  intro w g hinv hrely
  refine ⟨trivial,fun choice version w' hstep => ?_⟩
  obtain ⟨hpermits,hexec⟩ := restrict_exec_eq_some.mp hstep
  have hlater := (discipline cluster etag).rely_trans hsince hrely (t := t)
  -- Without a version the object is still the one that was read.
  have hread : (w.content key).map etag=some (etag row.content) := by
    cases hversion : w.db.versions key with
    | none =>
      rw [(hlater.unversioned key hreplicates hversion).2,hrow]
      rfl
    | some state => simpa [stillRead,hversion] using hpermits
  obtain ⟨g',hkeeps,hmeaning⟩ := keeps_storeIfAbsent hinv t hreplicates
    ⟨⟨row.updatedAt,self⟩,false⟩ hread
  cases hexec
  refine ⟨g',hkeeps,?_⟩
  intro w₁ g₁ hinv₁ hrely₁
  refine ⟨trivial,fun choice₁ answer w₂ hstep₁ => ⟨g₁,?_,trivial⟩⟩
  have hexec₁ := (restrict_exec_eq_some.mp hstep₁).2
  cases choice₁ <;> cases hexec₁
  exact keeps_insertPending hinv₁ t _ (hrely₁.meanings key _ _ hmeaning)

theorem safe_backfillKey (t : T) (key : K) :
    safe (steadyMachine self cluster etag) (discipline cluster etag) t
      (asMoves (backfillKey self cluster key)) (fun _ _ _ => True) node meanings := by
  unfold backfillKey
  by_cases hreplicates : cluster.replicates key=true
  · rw [if_pos hreplicates]
    refine safe_read (fun _ _ _ _ hexec => by cases hexec; rfl)
      fun _ read earlier existing _ hfetched => ?_
    have hexisting : existing=read.rows key := by
      cases hfetched
      rfl
    cases hrow : existing with
    | none => trivial
    | some row =>
      have hcontent : read.content key=some row.content := by
        rw [Node.content,← hexisting,hrow]
        rfl
      refine safe_read (fun _ _ _ _ hexec => by cases hexec; rfl)
        fun _ later after found hrely _ => ?_
      cases found with
      | true => exact safe_enqueuePut hreplicates hcontent hrely
      | false => trivial
  · rw [if_neg hreplicates]
    trivial

theorem backfills_respect : Respects (steadyMachine self cluster etag) (backfills self cluster)
      (discipline cluster etag : Discipline (Move I K C) (Node I K C T) (Meanings K) T)
      fun _ _ _ _ => True where
  starts node meanings t program _ hstarts := by
    rcases hstarts with ⟨key,committed,writeClass,rfl⟩ | ⟨page,rfl⟩
    · intro w g hinv _
      refine ⟨trivial,fun choice answer w' hstep => ?_⟩
      have hexec := (restrict_exec_eq_some.mp hstep).2
      cases choice with
      | clock stamp =>
        simp only [changeMachine] at hexec
        split_ifs at hexec
        cases hexec
        have hchange : ∃ g',(discipline cluster etag).Keeps t w g
            (change self cluster w key committed writeClass stamp) g' :=
          keeps_change hinv t key committed writeClass stamp
        obtain ⟨g',hkeeps⟩ := hchange
        exact ⟨g',hkeeps,trivial⟩
      | _ => cases hexec
    · unfold backfillReplication
      rw [asMoves_forEach]
      let carried (_ : List K) (_ : Node I K C T) (_ : Meanings K) : Prop := True
      have hloop : safe (steadyMachine self cluster etag) (discipline cluster etag) t
          (Program.forEach page fun key => asMoves (backfillKey self cluster key))
          (fun _ => carried []) node meanings :=
        safe_forEach (fun key _ _ _ _ => safe_backfillKey t key) trivial
      exact safe_mono hloop fun _ _ _ _ => trivial
  environment _ _ _ hmove := hmove.elim
  crash _ _ _ hcrash := hcrash.elim

section Runs

variable [DecidableEq T]

/-- While backfills find what they have read, any two events of a key that carry the same
version describe the same state: both delete it, or both put the same ETag. -/
theorem events_of_version_agree {start pool : Pool (Move I K C) MoveAnswer T (Node I K C T) Unit}
    (hversions : ∀ key,start.world.db.versions key=none) (hlog : start.world.db.log=[])
    (hidle : ∀ t,start.tasks t=none)
    (hreach : Reachable (steadyMachine self cluster etag) (backfills self cluster) start pool)
    {event event' : Event I K C} (hevent : event∈pool.world.db.events)
    (hevent' : event'∈pool.world.db.events) (hkey : event.key=event'.key)
    (hversion : event.version=event'.version) : event.content.map etag=event'.content.map etag := by
  have hstart : Holds (steadyMachine self cluster etag) (discipline cluster etag)
      (fun _ _ _ _ => True) start := by
    refine ⟨fun _ _ => none,⟨fun key state _ hstate => ?_,fun other hother => ?_,?_⟩,?_⟩
    · rw [hversions key] at hstate
      cases hstate
    · rw [Database.events,hlog] at hother
      cases hother
    · exact fun _ _ _ hmeaning => by cases hmeaning
    · intro t program htask
      rw [hidle t] at htask
      cases htask
  obtain ⟨meanings,hexplained⟩ := (hstart.reachable backfills_respect hreach).inv
  have hmeaning := hexplained.events event hevent
  have hmeaning' := hexplained.events event' hevent'
  rw [hkey,hversion,hmeaning'] at hmeaning
  exact (Option.some.inj hmeaning).symm

end Runs

end Steps

/-- A node with an object from before there were versions. -/
def sampleNode : Node ℕ ℕ ℕ ℕ :=
  ⟨fun key => if key=0 then some ⟨1,3,none⟩ else none,fun _ => true,⟨fun _ => none,[]⟩,
    fun _ => none,0,[]⟩

/-- A backfill as the first task and a write as the second. -/
def samplePool : Pool (Move ℕ ℕ ℕ) MoveAnswer ℕ (Node ℕ ℕ ℕ ℕ) Unit :=
  ⟨sampleNode,update (update (fun _ => none)
    0 (some (asMoves (backfillReplication 0 (wholeCluster ℕ) [0]))))
    1 (some (.ask (.change 0 (.written 2) []) .done))⟩

theorem samplePool_reachable (machine : Machine (Move ℕ ℕ ℕ) MoveAnswer ℕ (Node ℕ ℕ ℕ ℕ) Choice) :
    Reachable machine (backfills 0 (wholeCluster ℕ)) ⟨sampleNode,fun _ => none⟩ samplePool :=
  .step (.step .start (.start rfl (Or.inr ⟨[0],rfl⟩))) (.start rfl (Or.inl ⟨0,.written 2,[],rfl⟩))

/-- The events of the backfill and of the write. -/
def sampleEvents : List (Event ℕ ℕ ℕ) :=
  [⟨(0,0),0,0,some 1,"default".toList,[],0,3⟩,⟨(0,1),0,0,some 2,[],[],0,7⟩]

/-- A backfill that ends before the write: events of one version agree. -/
theorem sample_events_of_version_agree :
    ∃ pool : Pool (Move ℕ ℕ ℕ) MoveAnswer ℕ (Node ℕ ℕ ℕ ℕ) Unit,
      Reachable (steadyMachine 0 (wholeCluster ℕ) sampleEtag) (backfills 0 (wholeCluster ℕ))
        ⟨sampleNode,fun _ => none⟩ pool ∧ pool.world.db.events=sampleEvents ∧
      ∀ event∈sampleEvents,∀ event'∈sampleEvents,event.key=event'.key →
        event.version=event'.version →
          event.content.map sampleEtag=event'.content.map sampleEtag := by
  have hruns : (samplePool.runs (steadyMachine 0 (wholeCluster ℕ) sampleEtag)
      [(0,.work),(0,.work),(0,.work),(0,.clock ⟨5,0⟩),(1,.clock ⟨7,0⟩)]).map
        (fun pool => pool.world.db.events)=some sampleEvents := by
    decide +kernel
  obtain ⟨pool,hpool,hevents⟩ := Option.map_eq_some_iff.mp hruns
  have hreach := (samplePool_reachable _).runs hpool
  refine ⟨pool,hreach,hevents,fun event hevent event' hevent' hkey hversion => ?_⟩
  rw [← hevents] at hevent hevent'
  exact events_of_version_agree (fun _ => rfl) rfl (fun _ => rfl) hreach hevent hevent' hkey hversion

/-- The object is written after the backfill has read it and before it takes the version:
it queues the old content under the version of the new one. -/
theorem backfill_mislabels_overwritten_object :
    ∃ pool : Pool (Move ℕ ℕ ℕ) MoveAnswer ℕ (Node ℕ ℕ ℕ ℕ) Unit,
      Reachable (changeMachine 0 (wholeCluster ℕ)) (backfills 0 (wholeCluster ℕ))
        ⟨sampleNode,fun _ => none⟩ pool ∧
      ∃ event∈pool.world.db.events,∃ event'∈pool.world.db.events,event.key=event'.key ∧
        event.version=event'.version ∧
          event.content.map sampleEtag≠event'.content.map sampleEtag := by
  have hruns : (samplePool.runs (changeMachine 0 (wholeCluster ℕ))
      [(0,.work),(0,.work),(1,.clock ⟨7,0⟩),(0,.work),(0,.clock ⟨8,0⟩)]).map
        (fun pool => decide (∃ event∈pool.world.db.events,∃ event'∈pool.world.db.events,
          event.key=event'.key ∧ event.version=event'.version ∧
            event.content.map sampleEtag≠event'.content.map sampleEtag))=some true := by
    decide +kernel
  obtain ⟨pool,hpool,hevents⟩ := Option.map_eq_some_iff.mp hruns
  exact ⟨pool,(samplePool_reachable _).runs hpool,of_decide_eq_true hevents⟩

end NebularOs.Backfill
