import Mathlib
import NebularOs.DeliverySteps
import NebularOs.PeerLists
import NebularOs.TaskHistories

/-!
# Backfilled events and the versions of their keys

A backfill queues the object of a key under the time of the key's recorded version, but
with this node as its origin. A delivery takes an event for superseded if the recorded
version is greater, and versions of one time are ordered by their origins. So the event
may lose against the very version it was queued under, when that was made by a node with a
greater id.

An event of a backfill is followed along a run for as long as the recorded version of its
key is the one at which it was queued. It is not superseded meanwhile if the recorded
version is not greater than its own.
-/

namespace NebularOs.BackfillDelivery

open BlobFilenames RequestPrograms TaskPools TaskHistories ReplicationLog ReplicatedNode
open DeliveryWorker Program List Option Function

variable {I K C T : Type}

/-- An event that a backfill has queued, and what was recorded for its key. -/
structure Backfilled (I K C : Type) where
  /-- The event. -/
  event : Event I K C
  /-- State of the key when the event was queued. -/
  state : KeyVersion I
  deriving DecidableEq

/-- The event a request of a backfill has queued. -/
def newlyQueued (site site' : Site I K C T) : SiteAction I K C → List (Backfilled I K C)
  | .request (.insertPending key _ _ _ _) =>
    match site'.node.db.log.getLast?,site.node.db.versions key with
    | some row,some state => [⟨row.event,state⟩]
    | _,_ => []
  | _ => []

/-- The history of backfilled events whose keys have kept their recorded versions. -/
def backfilled (I K C T : Type) [DecidableEq I] :
    Recorder (SiteAction I K C) SiteAnswer T (Site I K C T) (List (Backfilled I K C)) where
  request _ a _ site site' history := (history++newlyQueued site site' a).filter fun entry =>
    decide (site'.node.db.versions entry.event.key=some entry.state)
  environment _ _ history := history
  crash history := history

section Runs

variable [LinearOrder I] [DecidableEq K] {self : I} {config : ClusterConfig}

/-- Events are named in order, and followed events are what their ids name. -/
structure Follows (origin : I) (config : ClusterConfig) (site : Site I K C T)
    (history : List (Backfilled I K C)) : Prop where
  /-- Events of this node have been numbered. -/
  numbered : ∀ event,Seen site.node event→event.id.1=origin→event.id.2<site.node.nextId
  /-- So have the followed events. -/
  named : ∀ entry∈history,entry.event.id.1=origin ∧ entry.event.id.2<site.node.nextId
  /-- The recorded version is still there. -/
  current : ∀ entry∈history,site.node.db.versions entry.event.key=some entry.state
  /-- No other event has the id. -/
  unique : ∀ entry∈history,∀ event,Seen site.node event→event.id=entry.event.id →
    event=entry.event
  /-- The event is not superseded by a version that is not greater. -/
  standing : ∀ entry∈history,
    config.replicationFactor≤1 ∨ entry.state.version≤entry.event.effectiveVersion →
      ∀ row∈site.node.db.log,row.event.id=entry.event.id → row.status≠.superseded

/-- Changes by others that a delivery puts up with: no event that it knows is followed
anew. -/
structure Tolerated (site : Site I K C T) (history : List (Backfilled I K C))
    (site' : Site I K C T) (history' : List (Backfilled I K C)) : Prop where
  /-- Numbers of events grow. -/
  numbers : site.node.nextId ≤ site'.node.nextId
  /-- What is followed was followed or is new. -/
  followed : ∀ entry∈history',entry∈history ∨ site.node.nextId≤entry.event.id.2

/-- How tasks share a node. -/
def discipline (I K C T : Type) [LinearOrder I] (self : I) (config : ClusterConfig) :
    Discipline (SiteAction I K C) (Site I K C T×List (Backfilled I K C)) Unit T where
  inv s _ := Follows self config s.1 s.2
  rely _ s _ s' _ := Tolerated s.1 s.2 s'.1 s'.2
  good _ _ _ := True
  rely_refl _ _ _ := ⟨le_rfl,fun _ hentry => Or.inl hentry⟩
  rely_trans h h' := by
    refine ⟨h.numbers.trans h'.numbers,fun entry hentry => ?_⟩
    rcases h'.followed entry hentry with hbefore | hnew
    · exact h.followed entry hbefore
    · exact Or.inr (h.numbers.trans hnew)

variable {a : SiteAction I K C} {t : T} {answer : SiteAnswer a} {choice : SiteChoice I K}

theorem newlyQueued_spec {site site' : Site I K C T} {entry : Backfilled I K C}
    (hexec : siteExec self t a choice site=some (answer,site'))
    (hentry : entry∈newlyQueued site site' a) :
    entry.event.id=(self,site.node.nextId) ∧ site'.node.nextId=site.node.nextId+1 ∧
      site'.node.db.log=site.node.db.log++[⟨entry.event,.pending,0,none,none⟩] ∧
      site'.node.listed=site.node.listed := by
  cases a with
  | request a =>
    cases a with
    | insertPending key content storageClass group version =>
      obtain ⟨inner,_,_,hnode,_⟩ := siteExec_request hexec
      cases inner with
      | clock stamp =>
        have hnode' := congrArg Prod.snd (Option.some.inj hnode)
        dsimp only at hnode'
        unfold newlyQueued at hentry
        rw [← hnode'] at hentry ⊢
        simp only [Database.insertPending,List.getLast?_append,List.getLast?_singleton] at hentry
        split at hentry
        · rename_i row state hrow _
          obtain rfl := mem_singleton.mp hentry
          cases hrow
          exact ⟨rfl,rfl,rfl,rfl⟩
        · cases hentry
      | _ => cases hnode
    | _ => cases hentry
  | _ => cases hentry

/-- A request that supersedes no event which should stand keeps what is followed. -/
theorem Follows.request {site site' : Site I K C T} {history : List (Backfilled I K C)}
    (h : Follows self config site history) (hforeign : SiteForeign self a)
    (hexec : siteExec self t a choice site=some (answer,site'))
    (hsuperseded : ∀ id,a=.request (.setStatus id .superseded)→∀ entry∈history,
      entry.event.id=id→¬(config.replicationFactor≤1 ∨
        entry.state.version≤entry.event.effectiveVersion)) :
    Follows self config site' ((backfilled I K C T).request t a answer site site' history) ∧
      Tolerated site history site' ((backfilled I K C T).request t a answer site site' history) := by
  have heffect := logEffect_of_siteExec hforeign hexec
  have hcases : ∀ entry∈(backfilled I K C T).request t a answer site site' history,
      (entry∈history ∨ entry∈newlyQueued site site' a) ∧
        site'.node.db.versions entry.event.key=some entry.state := by
    intro entry hentry
    obtain ⟨hmem,hcurrent⟩ := mem_filter.mp hentry
    exact ⟨mem_append.mp hmem,of_decide_eq_true hcurrent⟩
  have hnumbers := heffect.nextId_le
  refine ⟨⟨fun event hseen hself => ?_,fun entry hentry => ?_,fun entry hentry => ?_,
    fun entry hentry event hseen hid => ?_,fun entry hentry hstands row hrow hid hstatus => ?_⟩,
    hnumbers,fun entry hentry => ?_⟩
  · rcases heffect.seen hseen with hbefore | ⟨hid,hnext⟩ | hother
    · exact (h.numbered event hbefore hself).trans_le hnumbers
    · rw [hid,hnext]
      exact Nat.lt_succ_self _
    · exact (hother hself).elim
  · rcases (hcases entry hentry).1 with hold | hnew
    · exact ⟨(h.named entry hold).1,(h.named entry hold).2.trans_le hnumbers⟩
    · obtain ⟨hid,hnext,_⟩ := newlyQueued_spec hexec hnew
      rw [hid,hnext]
      exact ⟨rfl,Nat.lt_succ_self _⟩
  · exact (hcases entry hentry).2
  · rcases (hcases entry hentry).1 with hold | hnew
    · obtain ⟨hself,hnumber⟩ := h.named entry hold
      rcases heffect.seen hseen with hbefore | ⟨hnext,_⟩ | hother
      · exact h.unique entry hold event hbefore hid
      · rw [← hid,hnext] at hnumber
        exact (Nat.lt_irrefl _ hnumber).elim
      · exact (hother (hid ▸ hself)).elim
    · obtain ⟨hname,_,hlog,hlisted⟩ := newlyQueued_spec hexec hnew
      -- Nothing seen before has the new number.
      have hunseen : ¬Seen site.node event := fun hbefore => by
        have hnumber := h.numbered event hbefore (by rw [hid,hname])
        rw [hid,hname] at hnumber
        exact Nat.lt_irrefl _ hnumber
      unfold Seen Database.events at hseen hunseen
      rw [hlog,hlisted,map_append,mem_append] at hseen
      rcases hseen with (hbefore | hlast) | hlist
      · exact (hunseen (Or.inl hbefore)).elim
      · simpa using hlast
      · exact (hunseen (Or.inr hlist)).elim
  · rcases (hcases entry hentry).1 with hold | hnew
    · rcases heffect.settled hrow (by rw [hstatus]; rfl) with ⟨old,hrow',hevent,hsame⟩ | ⟨hset,_⟩
      · exact h.standing entry hold hstands old hrow' (hevent ▸ hid) (hsame.trans hstatus)
      · rw [hstatus] at hset
        exact hsuperseded row.event.id hset entry hold hid.symm hstands
    · obtain ⟨hname,_,hlog,_⟩ := newlyQueued_spec hexec hnew
      rw [hlog] at hrow
      rcases mem_append.mp hrow with hbefore | hlast
      · have hnumber := h.numbered row.event (Or.inl (mem_map_of_mem hbefore))
          (by rw [hid,hname])
        rw [hid,hname] at hnumber
        exact Nat.lt_irrefl _ hnumber
      · rw [mem_singleton.mp hlast] at hstatus
        cases hstatus
  · rcases (hcases entry hentry).1 with hold | hnew
    · exact Or.inl hold
    · obtain ⟨hid,_⟩ := newlyQueued_spec hexec hnew
      rw [hid]
      exact Or.inr le_rfl

/-- The machine that follows backfilled events. -/
abbrev followingMachine (I K C T : Type) [LinearOrder I] [DecidableEq K] (self : I) :
    Machine (SiteAction I K C) SiteAnswer T (Site I K C T×List (Backfilled I K C))
      (SiteChoice I K) :=
  recorded (siteMachine self) (backfilled I K C T)

/-- Requests that supersede nothing. -/
def Spares (self : I) (a : SiteAction I K C) : Prop :=
  SiteForeign self a ∧ ∀ id,a≠.request (.setStatus id .superseded)

omit [LinearOrder I] [DecidableEq K] in
theorem spares_of_settlesNone (h : SettlesNone self a) : Spares self a := by
  refine ⟨h.foreign,fun id heq => ?_⟩
  subst heq
  cases h

variable {s' s : Site I K C T×List (Backfilled I K C)}

theorem Follows.spared (h : Follows self config s.1 s.2) (hspares : Spares self a)
    (hexec : (followingMachine I K C T self).exec t a choice s=some (answer,s')) :
    Follows self config s'.1 s'.2 ∧ Tolerated s.1 s.2 s'.1 s'.2 := by
  obtain ⟨hsite,hnote⟩ := recorded_exec_eq_some.mp hexec
  have hkept := h.request hspares.1 hsite fun id heq => (hspares.2 id heq).elim
  rwa [← hnote] at hkept

theorem safe_of_spares {α : Type} {program : SiteProg I K C α}
    (hissues : program.Issues (Spares self)) :
    safe (followingMachine I K C T self) (discipline I K C T self config) t program
      (fun _ _ _ => True) s () := by
  refine safe_of_issues hissues (fun _ _ => trivial) (fun a hspares w g hinv _ => ?_) trivial
  refine ⟨trivial,fun choice answer w' hexec => ?_⟩
  obtain ⟨hinv',htolerated⟩ := hinv.spared hspares hexec
  exact ⟨(),⟨hinv',fun _ _ => htolerated⟩,trivial⟩

/-- What a delivery knows of its event: it has been numbered, and is the one followed. -/
structure Knows (origin : I) (event : Event I K C) (s : Site I K C T×List (Backfilled I K C)) :
    Prop where
  /-- The event has been numbered. -/
  numbered : event.id.1=origin→event.id.2<s.1.node.nextId
  /-- If an event of its id is followed, it is this one. -/
  followed : ∀ entry∈s.2,entry.event.id=event.id→entry.event=event

variable {event : Event I K C}

omit [DecidableEq K] in
theorem Knows.mem (h : Knows self event s) (hinv : Follows self config s'.1 s'.2)
    (hrely : Tolerated s.1 s.2 s'.1 s'.2) {entry : Backfilled I K C} (hentry : entry∈s'.2)
    (hid : entry.event.id=event.id) : entry∈s.2 := by
  rcases hrely.followed entry hentry with hbefore | hnew
  · exact hbefore
  · have hnumber := h.numbered (hid ▸ (hinv.named entry hentry).1)
    rw [hid] at hnew
    exact (Nat.not_lt.mpr hnew hnumber).elim

omit [DecidableEq K] in
theorem Knows.lasts (h : Knows self event s) (hinv : Follows self config s'.1 s'.2)
    (hrely : Tolerated s.1 s.2 s'.1 s'.2) : Knows self event s' where
  numbered hself := (h.numbered hself).trans_le hrely.numbers
  followed entry hentry hid := h.followed entry (h.mem hinv hrely hentry hid) hid

theorem safe_supersede {current : Option (KeyVersion I)} (hknows : Knows self event s)
    (hneeded : config.needed≠0)
    (hread : ∀ entry∈s.2,entry.event.id=event.id → current=some entry.state)
    (hgreater : (current.any fun state => decide (event.effectiveVersion<state.version))=true) :
    safe (followingMachine I K C T self) (discipline I K C T self config) t
      (onSite (op (.setStatus event.id .superseded))) (fun _ _ _ => True) s () := by
  intro w _ hinv hrely
  refine ⟨trivial,fun choice answer w' hexec => ⟨(),?_,trivial⟩⟩
  obtain ⟨hsite,hnote⟩ := recorded_exec_eq_some.mp hexec
  have hsuperseded : ∀ id,(.request (.setStatus event.id .superseded) : SiteAction I K C)=
      .request (.setStatus id .superseded)→∀ entry∈w.2,entry.event.id=id →
        ¬(config.replicationFactor≤1 ∨
          entry.state.version≤entry.event.effectiveVersion) := by
    intro id heq entry hentry hid hstands
    cases heq
    have hbefore := hknows.mem hinv hrely hentry hid
    rw [hread entry hbefore hid,← hknows.followed entry hbefore hid] at hgreater
    have hlt : entry.event.effectiveVersion<entry.state.version := of_decide_eq_true hgreater
    rcases hstands with hfactor | hle
    · exact hneeded (Nat.sub_eq_zero_of_le hfactor)
    · exact absurd hlt (not_lt.mpr hle)
  have hforeign : SiteForeign self
      (.request (.setStatus event.id .superseded) : SiteAction I K C) := trivial
  obtain ⟨hfollows,htolerated⟩ := hinv.request hforeign hsite hsuperseded
  rw [← hnote] at hfollows htolerated
  exact ⟨hfollows,fun _ _ => htolerated⟩

omit [DecidableEq K] in
theorem Follows.knows {pending : PendingDelivery I K C} (h : Follows self config s.1 s.2)
    (hlisted : pending∈s.1.node.listed) : Knows self pending.event s where
  numbered := h.numbered pending.event (Or.inr ⟨pending,hlisted,rfl⟩)
  followed entry hentry hid :=
    (h.unique entry hentry pending.event (Or.inr ⟨pending,hlisted,rfl⟩) hid.symm).symm

theorem safe_deliver {batch : ℕ} {pending : PendingDelivery I K C}
    (hknows : Knows self pending.event s) :
    safe (followingMachine I K C T self) (discipline I K C T self config) t
      (deliver config batch pending) (fun _ _ _ => True) s () := by
  have hsent : (onSite (op (.setStatus pending.event.id .sent) : Prog I K C Unit)).Issues
      (Spares self) :=
    ⟨⟨trivial,fun _ heq => by cases heq⟩,fun _ => trivial⟩
  have hfailed : (onSite (markFailed config.replicationMaxAttempts pending.event.id :
      Prog I K C Unit)).Issues (Spares self) :=
    (markFailed_settlesNone _ _).mono fun _ => spares_of_settlesNone
  unfold deliver
  dsimp only
  by_cases hneeded : config.needed=0
  · rw [if_pos hneeded]
    exact safe_of_spares hsent
  rw [if_neg hneeded]
  intro w _ hinv hrely
  refine ⟨trivial,fun choice current w' hexec => ?_⟩
  have hspares : Spares self (.request (.keyVersion pending.event.key) : SiteAction I K C) :=
    ⟨trivial,fun _ heq => by cases heq⟩
  obtain ⟨hinv',htolerated⟩ := hinv.spared hspares hexec
  refine ⟨(),⟨hinv',fun _ _ => htolerated⟩,?_⟩
  dsimp only [onSite,op,Program.request,embed,Program.bind]
  split_ifs with hgreater hempty
  · -- The version is read in a state where the followed events still have theirs.
    have hknows' := (hknows.lasts hinv hrely).lasts hinv' htolerated
    refine safe_supersede hknows' hneeded (fun entry hentry hid => ?_) hgreater
    obtain ⟨inner,_,_,hnode,_⟩ := siteExec_request (recorded_exec_eq_some.mp hexec).1
    have hcurrent := hinv'.current entry hentry
    rw [hknows'.followed entry hentry hid] at hcurrent
    simp only [exec,Option.some.injEq,Prod.mk.injEq] at hnode
    rw [← hcurrent,← hnode.1,hnode.2]
  · exact safe_of_spares hfailed
  · refine safe_of_spares (Issues.bind ?_ fun delivered => ?_)
    · exact (pushTo_settlesNone _ _ _ _ _).mono fun _ => spares_of_settlesNone
    · split_ifs
      · exact hsent
      · exact hfailed

theorem siteRules_respect : Respects (followingMachine I K C T self)
      (recordedRules (siteRules self config) (backfilled I K C T))
      (discipline I K C T self config) fun _ _ _ _ => True where
  starts s _ t program hinv hstarts := by
    rcases hstarts.settlesNone with hissues | ⟨batch,pending,hlisted,rfl⟩
    · exact safe_of_spares (hissues.mono fun _ => spares_of_settlesNone)
    · exact safe_deliver (hinv.knows hlisted)
  environment _ _ _ hmove := hmove.1.elim
  crash s _ s' hcrash hinv := by
    refine ⟨(),?_⟩
    show Follows self config s'.1 s'.2
    rw [hcrash.1,hcrash.2]
    exact ⟨fun event hevent => hinv.numbered event (seen_of_seen_restarted hevent),hinv.named,
      hinv.current,
      fun entry hentry event hevent => hinv.unique entry hentry event
        (seen_of_seen_restarted hevent),hinv.standing⟩

variable [DecidableEq T]

theorem follows_of_reachable {start : Pool (SiteAction I K C) SiteAnswer T (Site I K C T) Unit}
    {pool : SitePool I K C T (List (Backfilled I K C))}
    (hidle : ∀ t,start.tasks t=none)
    (hnumbered : ∀ event,Seen start.world.node event→event.id.1=self →
      event.id.2<start.world.node.nextId) (hreach : Reachable (followingMachine I K C T self)
      (recordedRules (siteRules self config) (backfilled I K C T)) (withHistory start []) pool) :
    Follows self config pool.world.1 pool.world.2 := by
  have hstart : Holds (followingMachine I K C T self) (discipline I K C T self config)
      (fun _ _ _ _ => True) (withHistory start []) := by
    refine ⟨(),⟨hnumbered,?_,?_,?_,?_⟩,?_⟩
    · exact fun _ hnone => by cases hnone
    · exact fun _ hnone => by cases hnone
    · exact fun _ hnone => by cases hnone
    · exact fun _ hnone => by cases hnone
    · intro t program htask
      rw [show (withHistory start ([] : List (Backfilled I K C))).tasks t=none from hidle t] at htask
      cases htask
  obtain ⟨_,hfollows⟩ := (hstart.reachable siteRules_respect hreach).inv
  exact hfollows

/-- As long as the recorded version of a key is the one at which a backfill has queued an
event, no delivery takes the event for superseded, if nothing has to be delivered or the
recorded version is not greater than that of the event. -/
theorem backfilled_not_superseded {start : Pool (SiteAction I K C) SiteAnswer T (Site I K C T) Unit}
    {pool : SitePool I K C T (List (Backfilled I K C))}
    (hidle : ∀ t,start.tasks t=none)
    (hnumbered : ∀ event,Seen start.world.node event→event.id.1=self →
      event.id.2<start.world.node.nextId)
    (hreach : Reachable (recorded (siteMachine self) (backfilled I K C T))
      (recordedRules (siteRules self config) (backfilled I K C T)) (withHistory start []) pool)
    {entry : Backfilled I K C} (hentry : entry∈pool.world.2) (hstands : config.replicationFactor≤1 ∨
      entry.state.version≤entry.event.effectiveVersion)
    {row : LogRow I K C} (hrow : row∈pool.world.1.node.db.log)
    (hid : row.event.id=entry.event.id) : row.status≠.superseded :=
  (follows_of_reachable hidle hnumbered hreach).standing entry hentry hstands row hrow hid

end Runs

section Samples

/-- Two nodes should have each object; the other one is the only peer. -/
def sampleConfig : ClusterConfig :=
  ⟨['a'],2,3,PeerLists.peerRegistry (show PeerLists.fromPeersRaw "b=http://b:9000".toList=
    .ok [(['b'],⟨⟨[],none⟩,"http://b:9000".toList⟩)] by decide)⟩

/-- Node 1 has an object whose recorded version was made by some node at time 5. -/
def sampleSite (origin : ℕ) : Site ℕ ℕ ℕ ℕ :=
  ⟨⟨fun key => if key=0 then some ⟨7,5,none⟩ else none,fun _ => true,
    ⟨fun key => if key=0 then some ⟨⟨5,origin⟩,false⟩ else none,[]⟩,fun _ => none,0,[]⟩,
    fun _ => 0,fun _ => []⟩

/-- The event that a backfill queues for the object. -/
def sampleEvent : Event ℕ ℕ ℕ := ⟨(1,0),1,0,some 7,"default".toList,[],0,5⟩

variable {H : Type} {recorder : Recorder (SiteAction ℕ ℕ ℕ) SiteAnswer ℕ (Site ℕ ℕ ℕ ℕ) H}
  {site : Site ℕ ℕ ℕ ℕ} {history : H} {program : Prog ℕ ℕ ℕ Unit}

/-- An operation, and the beginning of a batch. -/
def samplePool (site : Site ℕ ℕ ℕ ℕ) (history : H) (program : Prog ℕ ℕ ℕ Unit) :
    SitePool ℕ ℕ ℕ ℕ H :=
  ⟨(site,history),update (update (fun _ => none) 0 (some (onSite program)))
    1 (some (onSite listPendingDeliveries))⟩

/-- The operation queues the event, the batch takes it, and its delivery goes on as it is
told. -/
def sampleAfter (recorder : Recorder (SiteAction ℕ ℕ ℕ) SiteAnswer ℕ (Site ℕ ℕ ℕ ℕ) H)
    (site : Site ℕ ℕ ℕ ℕ) (history : H) (program : Prog ℕ ℕ ℕ Unit)
    (before moves : List (ℕ×SiteChoice ℕ ℕ)) : Option (SitePool ℕ ℕ ℕ ℕ H) :=
  ((samplePool site history program).runs (recorded (siteMachine 1) recorder) before).bind fun pool =>
    if (pool.tasks 2).isNone ∧
        (⟨sampleEvent,[]⟩ : PendingDelivery ℕ ℕ ℕ)∈pool.world.1.node.listed then
      (⟨pool.world,update pool.tasks 2 (some (deliver sampleConfig 0 ⟨sampleEvent,[]⟩))⟩ :
        SitePool ℕ ℕ ℕ ℕ H).runs (recorded (siteMachine 1) recorder) moves
    else none

theorem sampleAfter_reachable {before moves : List (ℕ×SiteChoice ℕ ℕ)} {pool : SitePool ℕ ℕ ℕ ℕ H}
    (hprogram : program.Issues (Ordinary 1))
    (h : sampleAfter recorder site history program before moves=some pool) :
    Reachable (recorded (siteMachine 1) recorder) (recordedRules (siteRules 1 sampleConfig) recorder)
      (withHistory ⟨site,fun _ => none⟩ history) pool := by
  have hpool : Reachable (recorded (siteMachine 1) recorder)
      (recordedRules (siteRules 1 sampleConfig) recorder) (withHistory ⟨site,fun _ => none⟩ history)
      (samplePool site history program) :=
    .step (.step .start (.start rfl (.operation hprogram))) (.start rfl .listing)
  obtain ⟨queued,hqueued,hrest⟩ := bind_eq_some_iff.mp h
  split_ifs at hrest with hready
  have hdelivery := (hpool.runs hqueued).step
    (.start (isNone_iff_eq_none.mp hready.1) (.delivery 0 hready.2))
  exact hdelivery.runs hrest

/-- A backfill of the object, with a delivery of its event. -/
def backfillAfter (origin : ℕ) (moves : List (ℕ×SiteChoice ℕ ℕ)) :
    Option (SitePool ℕ ℕ ℕ ℕ (List (Backfilled ℕ ℕ ℕ))) :=
  sampleAfter (backfilled ℕ ℕ ℕ ℕ) (sampleSite origin) []
    (backfillReplication 1 ⟨fun _ => true,[]⟩ [0])
    [(0,.node .work),(0,.node .work),(0,.node .work),(0,.node (.clock ⟨7,0⟩)),
      (1,.node (.clock ⟨8,0⟩))] moves

/-- The recorded version was made by node 0: the event of node 1 is sent. -/
theorem sample_backfilled_not_superseded :
    ∃ pool : SitePool ℕ ℕ ℕ ℕ (List (Backfilled ℕ ℕ ℕ)),
      Reachable (recorded (siteMachine 1) (backfilled ℕ ℕ ℕ ℕ))
        (recordedRules (siteRules 1 sampleConfig) (backfilled ℕ ℕ ℕ ℕ))
        (withHistory ⟨sampleSite 0,fun _ => none⟩ []) pool ∧
      pool.world.2=[⟨sampleEvent,⟨5,0⟩,false⟩] ∧
      pool.world.1.node.db.log=[⟨sampleEvent,.sent,0,none,some ['b']⟩] ∧
      ∀ row∈pool.world.1.node.db.log,row.status≠.superseded := by
  have hruns : (backfillAfter 0 [(2,.node .work),(2,.node .work),(2,.pushed .acknowledged),
      (2,.node .work),(2,.node .work)]).map (fun pool => (pool.world.2,pool.world.1.node.db.log))=
        some ([⟨sampleEvent,⟨5,0⟩,false⟩],[⟨sampleEvent,.sent,0,none,some ['b']⟩]) := by
    decide +kernel
  obtain ⟨pool,hpool,hstate⟩ := map_eq_some_iff.mp hruns
  obtain ⟨hhistory,hlog⟩ := Prod.mk.inj hstate
  have hreach := sampleAfter_reachable (backfillReplication_ordinary _ _) hpool
  refine ⟨pool,hreach,hhistory,hlog,fun row hrow => ?_⟩
  have hentry : (⟨sampleEvent,⟨5,0⟩,false⟩ : Backfilled ℕ ℕ ℕ)∈pool.world.2 := by
    rw [hhistory]
    exact mem_singleton_self _
  have hid : row.event.id=sampleEvent.id := by
    rw [hlog] at hrow
    rw [mem_singleton.mp hrow]
  refine backfilled_not_superseded (fun _ => rfl) ?_ hreach hentry (Or.inr (by decide)) hrow hid
  rintro event (hevent | ⟨pending,hpending,_⟩)
  · cases hevent
  · cases hpending

/-- The recorded version was made by node 2, and nothing has changed since: the event of
node 1 is taken for superseded. -/
theorem backfilled_superseded :
    ∃ pool : SitePool ℕ ℕ ℕ ℕ (List (Backfilled ℕ ℕ ℕ)),
      Reachable (recorded (siteMachine 1) (backfilled ℕ ℕ ℕ ℕ))
        (recordedRules (siteRules 1 sampleConfig) (backfilled ℕ ℕ ℕ ℕ))
        (withHistory ⟨sampleSite 2,fun _ => none⟩ []) pool ∧
      pool.world.2=[⟨sampleEvent,⟨5,2⟩,false⟩] ∧
      pool.world.1.node.db.log=[⟨sampleEvent,.superseded,0,none,none⟩] := by
  have hruns : (backfillAfter 2 [(2,.node .work),(2,.node .work)]).map
      (fun pool => (pool.world.2,pool.world.1.node.db.log))=
        some ([⟨sampleEvent,⟨5,2⟩,false⟩],[⟨sampleEvent,.superseded,0,none,none⟩]) := by
    decide +kernel
  obtain ⟨pool,hpool,hstate⟩ := map_eq_some_iff.mp hruns
  obtain ⟨hhistory,hlog⟩ := Prod.mk.inj hstate
  exact ⟨pool,sampleAfter_reachable (backfillReplication_ordinary _ _) hpool,hhistory,hlog⟩

end Samples

end NebularOs.BackfillDelivery
