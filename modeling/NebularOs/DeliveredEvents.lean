import Mathlib
import NebularOs.BackfillDelivery
import NebularOs.DeliverySteps
import NebularOs.TaskHistories

/-!
# What becomes of an event

An event leaves the log only after it was sent, superseded or applied. It counts as sent
once as many peers have acknowledged it as the replication factor asks for. Its
acknowledgements are counted over many attempts: they are kept in a text column, read when
a batch takes the event, and counted on from there, while other deliveries go on.

The history of a run notes what the statements say: which events were made here, what
peers have acknowledged, which version a task has read last, which events were marked and
which rows have gone.
-/

namespace NebularOs.DeliveredEvents

open BlobFilenames RequestPrograms TaskPools TaskHistories ReplicationLog ReplicatedNode
open DeliveryWorker Program List Function Option

variable {I K C T : Type}

/-- A version that a task has read, with its key. -/
abbrev Reading (I K : Type) := K×Option (KeyVersion I)

/-- What has happened to the events of a node. -/
structure Deliveries (I K C T : Type) where
  /-- Events of local changes. -/
  made : List (Event I K C)
  /-- Acknowledgements of peers. -/
  acknowledged : List ((I×ℕ)×Text)
  /-- What each task has read last. -/
  read : T→Option (Reading I K)
  /-- Events that were marked sent. -/
  sent : List (Event I K C)
  /-- Events that were marked superseded, with what the delivery had read. -/
  superseded : List (Event I K C×Option (Reading I K))
  /-- Rows that were removed from the log. -/
  removed : List (LogRow I K C)

/-- The history of a run that begins. -/
def Deliveries.empty : Deliveries I K C T := ⟨[],[],fun _ => none,[],[],[]⟩

section Notes

variable [DecidableEq I]

/-- The event of a local change that is recorded. -/
def madeBy (site' : Site I K C T) : (a : SiteAction I K C)→SiteAnswer a → List (Event I K C)
  | .request (.recordLocalChange _ _ _ _),recorded =>
    if (recorded : Bool) then (site'.node.db.log.getLast?.map LogRow.event).toList else []
  | _,_ => []

/-- The acknowledgement of a push. -/
def acknowledgedBy : (a : SiteAction I K C)→SiteAnswer a → List ((I×ℕ)×Text)
  | .push peer event,outcome => if (outcome : Pushed)=.acknowledged then [(event.id,peer)] else []
  | _,_ => []

/-- The version that a request has read. -/
def readBy : (a : SiteAction I K C)→SiteAnswer a→Option (Reading I K)
  | .request (.keyVersion key),current => some (key,current)
  | _,_ => none

/-- Events whose status a request sets. -/
def markedBy (status : Status) (site : Site I K C T) : SiteAction I K C → List (Event I K C)
  | .request (.setStatus id status') =>
    if status'=status then site.node.db.events.filter fun event => decide (event.id=id) else []
  | _ => []

/-- Rows whose events are no longer in the log. -/
def goneBetween (site site' : Site I K C T) : List (LogRow I K C) :=
  site.node.db.log.filter fun row => !site'.node.db.hasEvent row.event.id

/-- How the history is written. -/
def deliveries (I K C T : Type) [DecidableEq I] [DecidableEq T] :
    Recorder (SiteAction I K C) SiteAnswer T (Site I K C T) (Deliveries I K C T) where
  request t a answer site site' history := {
    made := history.made++madeBy site' a answer
    acknowledged := history.acknowledged++acknowledgedBy a answer
    read := update history.read t ((readBy a answer).or (history.read t))
    sent := history.sent++markedBy .sent site a
    superseded := history.superseded++
      (markedBy .superseded site a).map fun event => (event,history.read t)
    removed := history.removed++goneBetween site site'}
  environment _ _ history := history
  crash history := history

end Notes

/-- Enough of the peers that should have an event have acknowledged it. -/
def Acknowledged (config : ClusterConfig) (history : Deliveries I K C T) (event : Event I K C) :
    Prop :=
  ∃ peers : Finset Text,config.replicationFactor-1≤peers.card ∧
    ∀ peer∈peers,peer∈config.targets event ∧ (event.id,peer)∈history.acknowledged

/-- A delivery has found a version of the event's key that is greater than its own. -/
def Overtaken [LinearOrder I] (event : Event I K C) (reading : Option (Reading I K)) : Prop :=
  ∃ state : KeyVersion I,reading=some (event.key,some state) ∧
    event.effectiveVersion<state.version

section Invariant

variable [LinearOrder I]

/-- Where the events of a node stand. -/
structure Accounted (origin : I) (config : ClusterConfig) (site : Site I K C T)
    (history : Deliveries I K C T) : Prop where
  /-- Events of this node have been numbered. -/
  numbered : ∀ event,Seen site.node event→event.id.1=origin→event.id.2<site.node.nextId
  /-- No two of them share an id. -/
  unique : ∀ event,Seen site.node event→∀ other,Seen site.node other→event.id=other.id →
    event.id.1=origin→event=other
  /-- Only its own events wait for deliveries. -/
  own : ∀ row∈site.node.db.log,row.isFinished=false → row.event.id.1=origin
  /-- So only its own are taken from the log. -/
  listed : ∀ pending∈site.node.listed,pending.event.id.1=origin
  /-- Peers noted in the log have acknowledged. -/
  noted : ∀ row∈site.node.db.log,∀ peer∈deliveredPeers row.deliveredTo,
    (row.event.id,peer)∈history.acknowledged
  /-- So have those of the deliveries. -/
  delivered : ∀ pending∈site.node.listed,∀ peer∈pending.deliveredTo,
    (pending.event.id,peer)∈history.acknowledged
  /-- Settled rows of the log have been marked. -/
  marked : ∀ row∈site.node.db.log,(row.status=.sent → row.event∈history.sent) ∧
    (row.status=.superseded→∃ reading,(row.event,reading)∈history.superseded)
  /-- Events marked sent are acknowledged. -/
  sent : ∀ event∈history.sent,Acknowledged config history event
  /-- Events marked superseded are overtaken. -/
  superseded : ∀ mark∈history.superseded,Overtaken mark.1 mark.2
  /-- Removed rows were finished. -/
  removed : ∀ row∈history.removed,row.isFinished=true
  /-- A local change waits for its delivery, or is settled. -/
  made : ∀ event∈history.made,(∃ row∈site.node.db.log,row.event=event ∧ row.isFinished=false) ∨
    Acknowledged config history event ∨ ∃ reading,(event,reading)∈history.superseded

/-- Changes by others that a delivery puts up with. -/
structure Tolerated (t : T) (site : Site I K C T) (history : Deliveries I K C T)
    (site' : Site I K C T) (history' : Deliveries I K C T) : Prop where
  /-- Deliveries taken from the log stay. -/
  listed : ∀ pending∈site.node.listed,pending∈site'.node.listed
  /-- Acknowledgements stay. -/
  acknowledged : ∀ note∈history.acknowledged,note∈history'.acknowledged
  /-- What the task has read stays. -/
  read : history'.read t=history.read t

/-- How tasks share a node. -/
def discipline (I K C T : Type) [LinearOrder I] (self : I) (config : ClusterConfig) :
    Discipline (SiteAction I K C) (Site I K C T×Deliveries I K C T) Unit T where
  inv s _ := Accounted self config s.1 s.2
  rely t s _ s' _ := Tolerated t s.1 s.2 s'.1 s'.2
  good _ _ _ := True
  rely_refl _ _ _ := ⟨fun _ h => h,fun _ h => h,rfl⟩
  rely_trans h h' := ⟨fun pending hpending => h'.listed pending (h.listed pending hpending),
    fun note hnote => h'.acknowledged note (h.acknowledged note hnote),h'.read.trans h.read⟩

end Invariant

section Requests

variable [LinearOrder I] {self : I} {config : ClusterConfig} {t : T}
  {site site' : Site I K C T} {history history' : Deliveries I K C T} {a : SiteAction I K C}
  {choice : SiteChoice I K} {answer : SiteAnswer a}

/-- What a task must know when it issues a request. -/
def Allowed (self : I) (config : ClusterConfig) (t : T) (site : Site I K C T)
    (history : Deliveries I K C T) : SiteAction I K C→Prop
  | .request (.setStatus id status) => id.1=self ∧
    match status with
    | .pending => True
    | .sent => ∀ event,Seen site.node event→event.id=id → Acknowledged config history event
    | .superseded => ∀ event,Seen site.node event→event.id=id →
      Overtaken event (history.read t)
    | _ => False
  | .request (.markDelivered id peer) => PlainId peer ∧ (id,peer)∈history.acknowledged
  | .request (.recordFailure id _ _) => id.1=self
  | .request a => Foreign self a
  | _ => True

theorem Allowed.foreign (h : Allowed self config t site history a) : SiteForeign self a := by
  cases a with
  | request b =>
    cases b with
    | recordRemoteChange key event | recordApplied event => exact h
    | _ => trivial
  | _ => trivial

variable {event : Event I K C}

omit [LinearOrder I] in
theorem Acknowledged.mono (h : Acknowledged config history event)
    (hmono : ∀ note∈history.acknowledged,note∈history'.acknowledged) :
    Acknowledged config history' event := by
  obtain ⟨peers,hcard,hpeers⟩ := h
  exact ⟨peers,hcard,fun peer hpeer =>
    ⟨(hpeers peer hpeer).1,hmono _ (hpeers peer hpeer).2⟩⟩

theorem Accounted.unique_lasts (h : Accounted self config site history)
    (heffect : LogEffect self site.node site'.node a) :
    ∀ event,Seen site'.node event→∀ other,Seen site'.node other→event.id=other.id →
      event.id.1=self→event=other := by
  intro event hseen other hother hid hself
  rcases heffect.seen_cases with hall | ⟨new,hnew,hall⟩
  · exact h.unique event (hall event hseen) other (hall other hother) hid hself
  -- What was seen before has a smaller number.
  have hfresh : ∀ old,Seen site.node old → old.id=new.id → old.id.1=self→False := by
    intro old hold heq hown
    rcases hnew with ⟨hnumber,_⟩ | hforeign
    · have hlt := h.numbered old hold hown
      rw [heq,hnumber] at hlt
      exact Nat.lt_irrefl _ hlt
    · exact hforeign (heq ▸ hown)
  rcases hall event hseen with hbefore | rfl
  · rcases hall other hother with hbefore' | rfl
    · exact h.unique event hbefore other hbefore' hid hself
    · exact (hfresh event hbefore hid hself).elim
  · rcases hall other hother with hbefore' | rfl
    · exact (hfresh other hbefore' hid.symm (hid ▸ hself)).elim
    · rfl

theorem Accounted.own_lasts (h : Accounted self config site history)
    (hallowed : Allowed self config t site history a)
    (heffect : LogEffect self site.node site'.node a) :
    ∀ row∈site'.node.db.log,row.isFinished=false → row.event.id.1=self := by
  intro row hrow hunfinished
  rcases heffect.row_cases hrow with hold | ⟨event,hid,rfl⟩ | ⟨event,_,rfl⟩ |
    ⟨b,inner,id,change,old,rfl,hchange,hold,rfl,rfl⟩
  · exact h.own row hold hunfinished
  · rw [hid]
  · cases hunfinished
  · rw [rowChange_event hchange]
    rcases rowChange_reopens hchange hunfinished with hbefore | ⟨status,rfl⟩ | ⟨_,_,rfl⟩
    · exact h.own old hold hbefore
    · exact hallowed.1
    · exact hallowed

theorem Accounted.noted_lasts (h : Accounted self config site history)
    (hallowed : Allowed self config t site history a)
    (heffect : LogEffect self site.node site'.node a) :
    ∀ row∈site'.node.db.log,∀ peer∈deliveredPeers row.deliveredTo,
      (row.event.id,peer)∈history.acknowledged := by
  intro row hrow peer hpeer
  rcases heffect.row_cases hrow with hold | ⟨event,_,rfl⟩ | ⟨event,_,rfl⟩ |
    ⟨b,inner,id,change,old,rfl,hchange,hold,rfl,rfl⟩
  · exact h.noted row hold peer hpeer
  · cases hpeer
  · cases hpeer
  · rw [rowChange_event hchange]
    rcases rowChange_deliveredTo hchange old with hsame | ⟨noted,rfl,hnoted⟩
    · rw [hsame] at hpeer
      exact h.noted old hold peer hpeer
    · rw [hnoted,deliveredPeers_appendPeer _ hallowed.1,mem_append] at hpeer
      rcases hpeer with hbefore | hlast
      · exact h.noted old hold peer hbefore
      · rw [mem_singleton.mp hlast]
        exact hallowed.2

theorem Accounted.listed_lasts (h : Accounted self config site history)
    (heffect : LogEffect self site.node site'.node a) :
    ∀ pending∈site'.node.listed,pending.event.id.1=self ∧ ∀ peer∈pending.deliveredTo,
      (pending.event.id,peer)∈history.acknowledged := by
  intro pending hpending
  have hbefore : pending∈site.node.listed→pending.event.id.1=self ∧
      ∀ peer∈pending.deliveredTo,(pending.event.id,peer)∈history.acknowledged :=
    fun hold => ⟨h.listed pending hold,h.delivered pending hold⟩
  cases heffect with
  | same hlog hnext hlisted => exact hbefore (hlisted ▸ hpending)
  | queued event hid hlog hnext hlisted => exact hbefore (hlisted ▸ hpending)
  | kept event hid hlog hnext hlisted => exact hbefore (hlisted ▸ hpending)
  | updated hchange hdb hnext hlisted => exact hbefore (hlisted ▸ hpending)
  | removed before ids hdb hnext hlisted => exact hbefore (hlisted ▸ hpending)
  | taken now hlog hnext hlisted =>
    rw [hlisted,mem_append] at hpending
    rcases hpending with hold | hdue
    · exact hbefore hold
    obtain ⟨row,hrow,rfl⟩ := mem_map.mp hdue
    obtain ⟨hmem,hisDue⟩ := Database.mem_log_of_mem_listDue hrow
    have hunfinished : row.isFinished=false := by
      unfold LogRow.isDue at hisDue
      unfold LogRow.isFinished
      cases hstatus : row.status with
      | pending | failed => rfl
      | _ =>
        rw [hstatus] at hisDue
        cases hisDue
    exact ⟨h.own row hmem hunfinished,h.noted row hmem⟩

theorem mem_markedBy {status : Status} (hevent : event∈site.node.db.events) :
    event∈markedBy status site (.request (.setStatus event.id status)) := by
  simp only [markedBy,if_pos]
  exact mem_filter.mpr ⟨hevent,decide_eq_true rfl⟩

theorem isFinished_of_mem_goneBetween (heffect : LogEffect self site.node site'.node a)
    {row : LogRow I K C} (hgone : row∈goneBetween site site') : row.isFinished=true := by
  obtain ⟨hrow,hunknown⟩ := mem_filter.mp hgone
  have habsent : ∀ kept∈site'.node.db.log,kept.event.id≠row.event.id := by
    intro kept hkept hid
    have hknown : site'.node.db.hasEvent row.event.id=true :=
      Database.hasEvent_iff.mpr ⟨kept.event,mem_map_of_mem hkept,hid⟩
    rw [hknown] at hunknown
    cases hunknown
  rcases heffect.row_lasts hrow with hstays | ⟨b,inner,change,_,hchange,hstays⟩ | hfinished
  · exact (habsent row hstays rfl).elim
  · exact (habsent _ hstays (congrArg Event.id (rowChange_event hchange row))).elim
  · exact hfinished

theorem seen_of_mem_markedBy {status : Status} (h : event∈markedBy status site a) :
    ∃ id,a=.request (.setStatus id status) ∧ Seen site.node event ∧ event.id=id := by
  cases a with
  | request b =>
    cases b with
    | setStatus id other =>
      simp only [markedBy] at h
      split_ifs at h with hstatus
      · obtain ⟨hmem,hid⟩ := mem_filter.mp h
        subst hstatus
        exact ⟨id,rfl,Or.inl hmem,of_decide_eq_true hid⟩
      · cases h
    | _ => cases h
  | _ => cases h

variable [DecidableEq T]

variable (answer) in
theorem Accounted.made_lasts (h : Accounted self config site history)
    (hallowed : Allowed self config t site history a)
    (heffect : LogEffect self site.node site'.node a) (hevent : event∈history.made) :
    (∃ row∈site'.node.db.log,row.event=event ∧ row.isFinished=false) ∨
      Acknowledged config history event ∨ ∃ reading,(event,reading)∈
        ((deliveries I K C T).request t a answer site site' history).superseded := by
  rcases h.made event hevent with ⟨row,hrow,rfl,hunfinished⟩ | hacknowledged | ⟨reading,hmark⟩
  · rcases heffect.row_lasts hrow with hstays | ⟨b,inner,change,rfl,hchange,hstays⟩ | hfinished
    · exact Or.inl ⟨row,hstays,rfl,hunfinished⟩
    · rcases rowChange_finishes hchange hunfinished with hopen | ⟨status,rfl⟩
      · exact Or.inl ⟨change row,hstays,rowChange_event hchange row,hopen⟩
      -- The status was set: the event is settled, or pending again.
      have hseen : Seen site.node row.event := Or.inl (mem_map_of_mem hrow)
      cases status with
      | pending =>
        cases hchange
        exact Or.inl ⟨_,hstays,rfl,rfl⟩
      | sent => exact Or.inr (Or.inl (hallowed.2 row.event hseen rfl))
      | superseded =>
        refine Or.inr (Or.inr ⟨history.read t,mem_append_right _ ?_⟩)
        exact mem_map.mpr ⟨row.event,mem_markedBy (mem_map_of_mem hrow),rfl⟩
      | _ => exact hallowed.2.elim
    · rw [hfinished] at hunfinished
      cases hunfinished
  · exact Or.inr (Or.inl hacknowledged)
  · exact Or.inr (Or.inr ⟨reading,mem_append_left _ hmark⟩)

theorem Accounted.marked_lasts (h : Accounted self config site history)
    (heffect : LogEffect self site.node site'.node a) {row : LogRow I K C}
    (hrow : row∈site'.node.db.log) : (row.status=.sent →
      row.event∈((deliveries I K C T).request t a answer site site' history).sent) ∧
    (row.status=.superseded→∃ reading,(row.event,reading)∈
      ((deliveries I K C T).request t a answer site site' history).superseded) := by
  refine ⟨fun hsent => ?_,fun hsuperseded => ?_⟩
  · rcases heffect.settled hrow (by rw [hsent]; rfl) with ⟨old,hold,hevent,hsame⟩ | ⟨hset,hevent⟩
    · rw [← hevent]
      exact mem_append_left _ ((h.marked old hold).1 (hsame.trans hsent))
    · rw [hsent] at hset
      subst hset
      exact mem_append_right _ (mem_markedBy hevent)
  · rcases heffect.settled hrow (by rw [hsuperseded]; rfl) with
      ⟨old,hold,hevent,hsame⟩ | ⟨hset,hevent⟩
    · obtain ⟨reading,hmark⟩ := (h.marked old hold).2 (hsame.trans hsuperseded)
      rw [← hevent]
      exact ⟨reading,mem_append_left _ hmark⟩
    · rw [hsuperseded] at hset
      subst hset
      exact ⟨history.read t,mem_append_right _
        (mem_map.mpr ⟨row.event,mem_markedBy hevent,rfl⟩)⟩

variable [DecidableEq K]

omit [DecidableEq T] in
theorem pending_of_mem_madeBy (hexec : siteExec self t a choice site=some (answer,site'))
    (h : event∈madeBy site' a answer) :
    ∃ row∈site'.node.db.log,row.event=event ∧ row.isFinished=false := by
  cases a with
  | request b =>
    cases b with
    | recordLocalChange key committed writeClass group =>
      obtain ⟨inner,_,_,hnode,_⟩ := siteExec_request hexec
      rcases exec_recordLocalChange hnode with ⟨rfl,_⟩ | ⟨stamp,_,rfl,_,hnode'⟩
      · cases h
      simp only [madeBy,hnode'] at h
      rw [hnode']
      have hlast : event=site.node.db.localEvent self (self,site.node.nextId) key committed
          writeClass group stamp := by
        simpa [Node.withLocalChange,Database.withLocalChange,Database.insertPending] using h
      exact ⟨_,mem_append_right _ (mem_singleton_self _),hlast.symm,rfl⟩
    | _ => cases h
  | _ => cases h

/-- One request keeps the account. -/
theorem Accounted.request (h : Accounted self config site history)
    (hallowed : Allowed self config t site history a)
    (hexec : siteExec self t a choice site=some (answer,site')) : Accounted self config site'
      ((deliveries I K C T).request t a answer site site' history) := by
  have heffect := logEffect_of_siteExec hallowed.foreign hexec
  have hmono : ∀ note∈history.acknowledged,note∈
      ((deliveries I K C T).request t a answer site site' history).acknowledged :=
    fun note hnote => mem_append_left _ hnote
  have hlisted := h.listed_lasts heffect
  refine ⟨fun event hseen hself => ?_,h.unique_lasts heffect,h.own_lasts hallowed heffect,
    fun pending hpending => (hlisted pending hpending).1,
    fun row hrow peer hpeer => hmono _ (h.noted_lasts hallowed heffect row hrow peer hpeer),
    fun pending hpending peer hpeer => hmono _ ((hlisted pending hpending).2 peer hpeer),
    fun row hrow => h.marked_lasts heffect hrow,fun event hevent => ?_,fun mark hmark => ?_,
    fun row hrow => ?_,fun event hevent => ?_⟩
  · rcases heffect.seen hseen with hbefore | ⟨hid,hnext⟩ | hother
    · exact (h.numbered event hbefore hself).trans_le heffect.nextId_le
    · rw [hid,hnext]
      exact Nat.lt_succ_self _
    · exact (hother hself).elim
  · rcases mem_append.mp hevent with hold | hnew
    · exact (h.sent event hold).mono hmono
    · obtain ⟨id,rfl,hseen,hid⟩ := seen_of_mem_markedBy hnew
      exact (hallowed.2 event hseen hid).mono hmono
  · rcases mem_append.mp hmark with hold | hnew
    · exact h.superseded mark hold
    · obtain ⟨event,hevent,rfl⟩ := mem_map.mp hnew
      obtain ⟨id,rfl,hseen,hid⟩ := seen_of_mem_markedBy hevent
      exact hallowed.2 event hseen hid
  · rcases mem_append.mp hrow with hold | hnew
    · exact h.removed row hold
    · exact isFinished_of_mem_goneBetween heffect hnew
  · rcases mem_append.mp hevent with hold | hnew
    · rcases h.made_lasts answer hallowed heffect hold with hrow | hack | hmark
      · exact Or.inl hrow
      · exact Or.inr (Or.inl (hack.mono hmono))
      · exact Or.inr (Or.inr hmark)
    · exact Or.inl (pending_of_mem_madeBy hexec hnew)

theorem tolerated_of_allowed {u : T} (hallowed : Allowed self config t site history a)
    (hexec : siteExec self t a choice site=some (answer,site')) (hu : u≠t) :
    Tolerated u site history site'
      ((deliveries I K C T).request t a answer site site' history) where
  listed _ hpending := (logEffect_of_siteExec hallowed.foreign hexec).mem_listed hpending
  acknowledged _ hnote := mem_append_left _ hnote
  read := update_of_ne hu _ _

/-- The machine that notes what becomes of events. -/
abbrev notingMachine (I K C T : Type) [LinearOrder I] [DecidableEq K] [DecidableEq T] (self : I) :
    Machine (SiteAction I K C) SiteAnswer T (Site I K C T×Deliveries I K C T) (SiteChoice I K) :=
  recorded (siteMachine self) (deliveries I K C T)

variable {s : Site I K C T×Deliveries I K C T}

theorem safe_request {α : Type} {next : SiteAnswer a→SiteProg I K C α}
    {post : α→Site I K C T×Deliveries I K C T→Unit→Prop}
    (hallowed : ∀ site history,Accounted self config site history →
      Tolerated t s.1 s.2 site history → Allowed self config t site history a)
    (hnext : ∀ site history choice answer site',Accounted self config site history →
      Tolerated t s.1 s.2 site history→siteExec self t a choice site=some (answer,site') →
      (∀ pending∈site.node.listed,pending∈site'.node.listed) →
      safe (notingMachine I K C T self) (discipline I K C T self config) t (next answer) post
        (site',(deliveries I K C T).request t a answer site site' history) ()) :
    safe (notingMachine I K C T self) (discipline I K C T self config) t (.ask a next) post s () := by
  rintro ⟨site,history⟩ _ hinv hrely
  refine ⟨trivial,?_⟩
  rintro choice answer ⟨site',history'⟩ hexec
  obtain ⟨hsite,hnote⟩ := recorded_exec_eq_some.mp hexec
  dsimp only at hsite hnote
  subst hnote
  have hmay := hallowed site history hinv hrely
  refine ⟨(),⟨hinv.request hmay hsite,fun u hu => tolerated_of_allowed hmay hsite hu⟩,?_⟩
  exact hnext site history choice answer site' hinv hrely hsite fun _ hpending =>
    (logEffect_of_siteExec hmay.foreign hsite).mem_listed hpending

theorem safe_of_allowed {α : Type} {program : SiteProg I K C α}
    (hissues : program.Issues fun a => ∀ site history,Allowed self config t site history a) :
    safe (notingMachine I K C T self) (discipline I K C T self config) t program
      (fun _ _ _ => True) s () := by
  induction program generalizing s with
  | done value => trivial
  | ask a next ih =>
    exact safe_request (fun site history _ _ => hissues.1 site history)
      fun _ _ _ answer _ _ _ _ _ => ih answer (hissues.2 answer)

omit [DecidableEq K] [DecidableEq T] in
theorem allowed_of_ordinary {b : Action I K C} (h : Ordinary self b) :
    Allowed self config t site history (.request b) := by
  cases b with
  | setStatus id status | markDelivered id peer | recordFailure id attempts maxAttempts => cases h.2
  | _ => exact h.1

theorem safe_markFailed {maxAttempts : ℕ} {id : I×ℕ} (hself : id.1=self) :
    safe (notingMachine I K C T self) (discipline I K C T self config) t
      (onSite (markFailed maxAttempts id)) (fun _ _ _ => True) s () :=
  safe_of_allowed ⟨fun _ _ => trivial,fun _ => ⟨fun _ _ => hself,fun _ => trivial⟩⟩

theorem safe_listPendingDeliveries :
    safe (notingMachine I K C T self) (discipline I K C T self config) t
      (onSite listPendingDeliveries) (fun _ _ _ => True) s () := by
  refine safe_request (fun _ _ _ _ => trivial) fun site history choice rows site' hinv _ hexec _ => ?_
  refine safe_of_allowed ?_
  have hissues : (Program.forEach rows fun row : LogRow I K C =>
      if row.status==.failed then (op (.setStatus row.event.id .pending) : Prog I K C Unit)
      else .done ()).Issues fun b => ∀ site history,
        Allowed self config t site history (.request b) := by
    refine Issues.forEach fun row hrow => ?_
    split_ifs with hfailed
    · refine ⟨fun _ _ => ⟨?_,trivial⟩,fun _ => trivial⟩
      obtain ⟨inner,_,_,hnode,_⟩ := siteExec_request hexec
      cases inner with
      | clock stamp =>
        simp only [exec,Option.some.injEq,Prod.mk.injEq] at hnode
        rw [← hnode.1] at hrow
        obtain ⟨hlog,_⟩ := Database.mem_log_of_mem_listDue hrow
        refine hinv.own row hlog ?_
        rw [LogRow.isFinished,eq_of_beq hfailed]
        rfl
      | _ => cases hnode
    · trivial
  exact hissues.embed fun _ h => h

/-- What a delivery knows while it pushes: its event was taken from the log, and as many
peers as it counts have acknowledged it. Those counted during the loop do not come again. -/
def Counted (config : ClusterConfig) (pending : PendingDelivery I K C) (remaining : List Text)
    (delivered : ℕ) (s : Site I K C T×Deliveries I K C T) : Prop :=
  pending∈s.1.node.listed ∧ ∃ peers : Finset Text,delivered≤peers.card ∧ ∀ peer∈peers,
    (peer∈config.targets pending.event ∧ (pending.event.id,peer)∈s.2.acknowledged) ∧
      (peer∈pending.deliveredTo ∨ peer∉remaining)

variable {delivered : ℕ} {remaining : List Text}

omit [LinearOrder I] [DecidableEq K] [DecidableEq T] in
theorem Counted.mono {pending : PendingDelivery I K C} {remaining' : List Text}
    {s' : Site I K C T×Deliveries I K C T} (h : Counted config pending remaining delivered s)
    (hlisted : ∀ pending∈s.1.node.listed,pending∈s'.1.node.listed)
    (hmono : ∀ note∈s.2.acknowledged,note∈s'.2.acknowledged)
    (hremaining : ∀ peer∈remaining',peer∈remaining) :
    Counted config pending remaining' delivered s' := by
  obtain ⟨hmem,peers,hcard,hpeers⟩ := h
  refine ⟨hlisted pending hmem,peers,hcard,fun peer hpeer => ?_⟩
  obtain ⟨⟨htarget,hacknowledged⟩,hcounted⟩ := hpeers peer hpeer
  exact ⟨⟨htarget,hmono _ hacknowledged⟩,
    hcounted.imp_right fun hnot hmem => hnot (hremaining peer hmem)⟩

omit [LinearOrder I] [DecidableEq K] [DecidableEq T] in
theorem Counted.acknowledged {pending : PendingDelivery I K C} {peer : Text}
    (h : Counted config pending (peer::remaining) delivered s) (hnodup : (peer::remaining).Nodup)
    (htarget : peer∈config.targets pending.event) (hmissing : peer∉pending.deliveredTo)
    (hacknowledged : (pending.event.id,peer)∈s.2.acknowledged) :
    Counted config pending remaining (delivered+1) s := by
  obtain ⟨hmem,peers,hcard,hpeers⟩ := h
  have hnew : peer∉peers := fun hpeer =>
    (hpeers peer hpeer).2.elim hmissing fun hnot => hnot mem_cons_self
  refine ⟨hmem,insert peer peers,?_,fun other hother => ?_⟩
  · rw [Finset.card_insert_of_notMem hnew]
    exact Nat.add_le_add_right hcard 1
  · rcases Finset.mem_insert.mp hother with rfl | hold
    · exact ⟨⟨htarget,hacknowledged⟩,Or.inr (nodup_cons.mp hnodup).1⟩
    · obtain ⟨hfacts,hcounted⟩ := hpeers other hold
      exact ⟨hfacts,hcounted.imp_right fun hnot hlater => hnot (mem_cons_of_mem _ hlater)⟩

omit [DecidableEq K] [DecidableEq T] in
theorem counted_deliveredCount {pending : PendingDelivery I K C}
    (hinv : Accounted self config s.1 s.2) (hlisted : pending∈s.1.node.listed)
    (remaining : List Text) :
    Counted config pending remaining (deliveredCount config pending) s := by
  have hnodup := (config.targets_nodup pending.event).filter
    fun peer => pending.deliveredTo.contains peer
  refine ⟨hlisted,((config.targets pending.event).filter
    fun peer => pending.deliveredTo.contains peer).toFinset,?_,fun peer hpeer => ?_⟩
  · rw [deliveredCount,countP_eq_length_filter,toFinset_card_of_nodup hnodup]
  · obtain ⟨htarget,hdelivered⟩ := mem_filter.mp (mem_toFinset.mp hpeer)
    have hnamed : peer∈pending.deliveredTo := contains_iff_mem.mp hdelivered
    exact ⟨⟨htarget,hinv.delivered pending hlisted peer hnamed⟩,Or.inl hnamed⟩

/-- The loop over the peers counts acknowledgements. -/
theorem safe_pushTo {batch : ℕ} {pending : PendingDelivery I K C} (hnodup : remaining.Nodup)
    (htargets : ∀ peer∈remaining,peer∈config.targets pending.event)
    (hcounted : Counted config pending remaining delivered s) :
    safe (notingMachine I K C T self) (discipline I K C T self config) t
      (pushTo config batch pending remaining delivered)
      (fun delivered s _ => Counted config pending [] delivered s) s () := by
  induction remaining generalizing delivered s with
  | nil => exact hcounted
  | cons peer remaining ih =>
    have hrest : ∀ {delivered s},Counted config pending remaining delivered s →
        safe (notingMachine I K C T self) (discipline I K C T self config) t
          (pushTo config batch pending remaining delivered)
          (fun delivered s _ => Counted config pending [] delivered s) s () := fun h =>
      ih (nodup_cons.mp hnodup).2
        (fun other hother => htargets other (mem_cons_of_mem _ hother)) h
    -- Requests that acknowledge nothing leave the count as it is.
    have hlasts : ∀ {known : Site I K C T×Deliveries I K C T},
        Counted config pending (peer::remaining) delivered known →
        ∀ {site site' history} {a : SiteAction I K C} (answer : SiteAnswer a),
          Tolerated t known.1 known.2 site history →
          (∀ pending∈site.node.listed,pending∈site'.node.listed) →
          Counted config pending (peer::remaining) delivered
            (site',(deliveries I K C T).request t a answer site site' history) := by
      intro known hknown site site' history a answer hrely hlisted
      refine hknown.mono (fun other hother => hlisted other (hrely.listed other hother))
        (fun note hnote => ?_) fun _ h => h
      exact mem_append_left _ (hrely.acknowledged note hnote)
    have hskip : ∀ {known : Site I K C T×Deliveries I K C T},
        Counted config pending (peer::remaining) delivered known →
        Counted config pending remaining delivered known := fun h =>
      h.mono (fun _ h => h) (fun _ h => h) fun _ hother => mem_cons_of_mem _ hother
    unfold pushTo
    split_ifs with hneeded hdelivered
    · exact hcounted.mono (fun _ h => h) (fun _ h => h) fun _ hnone => by cases hnone
    · exact hrest (hskip hcounted)
    · refine safe_request (fun _ _ _ _ => trivial) fun _ _ _ skipped _ _ hrely _ hlisted => ?_
      dsimp only [done_bind]
      have hasked := hlasts hcounted skipped hrely hlisted
      split_ifs with hskipped
      · exact hrest (hskip hasked)
      refine safe_request (fun _ _ _ _ => trivial) fun _ _ _ outcome _ _ hrely _ hlisted => ?_
      have hpushed := hlasts hasked outcome hrely hlisted
      cases outcome with
      | acknowledged =>
        have hnote : ∀ history : List ((I×ℕ)×Text),(pending.event.id,peer)∈history++
            acknowledgedBy (.push peer pending.event : SiteAction I K C) Pushed.acknowledged :=
          fun history => mem_append_right _ (mem_singleton_self _)
        have htarget := htargets peer mem_cons_self
        have hmore := hpushed.acknowledged hnodup htarget
          (fun hmem => hdelivered (contains_iff_mem.mpr hmem)) (hnote _)
        refine safe_request (fun site history _ hrely => ?_)
          fun _ _ _ _ _ _ hrely _ hlisted => hrest ?_
        · exact ⟨config.plainId_of_mem_targets pending.event htarget,
            hrely.acknowledged _ (hnote _)⟩
        · refine hmore.mono (fun other hother => hlisted other (hrely.listed other hother))
            (fun note hnote => ?_) fun _ h => h
          exact mem_append_left _ (hrely.acknowledged note hnote)
      | unreachable =>
        refine safe_request (fun _ _ _ _ => trivial) fun _ _ _ _ _ _ hrely _ hlisted => ?_
        exact hrest (hskip (hlasts hpushed _ hrely hlisted))
      | failed => exact hrest (hskip hpushed)

omit [DecidableEq K] [DecidableEq T] in
theorem Accounted.event_eq (h : Accounted self config site history)
    {pending : PendingDelivery I K C} (hlisted : pending∈site.node.listed)
    (hseen : Seen site.node event) (hid : event.id=pending.event.id) : event=pending.event :=
  h.unique event hseen pending.event (Or.inr ⟨pending,hlisted,rfl⟩) hid
    (hid ▸ h.listed pending hlisted)

theorem safe_sent {pending : PendingDelivery I K C} (hlisted : pending∈s.1.node.listed)
    (hacknowledged : Acknowledged config s.2 pending.event) :
    safe (notingMachine I K C T self) (discipline I K C T self config) t
      (onSite (op (.setStatus pending.event.id .sent))) (fun _ _ _ => True) s () := by
  refine safe_request (fun site history hinv hrely => ?_) fun _ _ _ _ _ _ _ _ _ => trivial
  have hmem := hrely.listed pending hlisted
  refine ⟨hinv.listed pending hmem,fun event hseen hid => ?_⟩
  rw [hinv.event_eq hmem hseen hid]
  exact hacknowledged.mono hrely.acknowledged

theorem safe_superseded {pending : PendingDelivery I K C} (hlisted : pending∈s.1.node.listed)
    (hovertaken : Overtaken pending.event (s.2.read t)) :
    safe (notingMachine I K C T self) (discipline I K C T self config) t
      (onSite (op (.setStatus pending.event.id .superseded))) (fun _ _ _ => True) s () := by
  refine safe_request (fun site history hinv hrely => ?_) fun _ _ _ _ _ _ _ _ _ => trivial
  have hmem := hrely.listed pending hlisted
  refine ⟨hinv.listed pending hmem,fun event hseen hid => ?_⟩
  rwa [hinv.event_eq hmem hseen hid,hrely.read]

theorem safe_deliver {batch : ℕ} {pending : PendingDelivery I K C}
    (hinv : Accounted self config s.1 s.2) (hlisted : pending∈s.1.node.listed) :
    safe (notingMachine I K C T self) (discipline I K C T self config) t
      (deliver config batch pending) (fun _ _ _ => True) s () := by
  have hself := hinv.listed pending hlisted
  have hcounted := counted_deliveredCount hinv hlisted (config.targets pending.event)
  unfold deliver
  dsimp only
  by_cases hneeded : config.needed=0
  · rw [if_pos hneeded]
    exact safe_sent hlisted ⟨∅,Nat.le_of_eq hneeded,fun _ hnone => by cases hnone⟩
  rw [if_neg hneeded]
  refine safe_request (fun _ _ _ _ => trivial)
    fun site history _ current site' _ hrely _ hstays => ?_
  dsimp only [embed,done_bind]
  have hlisted' := hstays pending (hrely.listed pending hlisted)
  split_ifs with hgreater hempty
  · refine safe_superseded hlisted' ?_
    obtain ⟨state,hstate,hlt⟩ := (any_eq_true _ _).mp hgreater
    refine ⟨state,?_,of_decide_eq_true hlt⟩
    rw [← hstate]
    exact update_self t _ _
  · exact safe_markFailed hself
  · have hpushing : Counted config pending (config.targets pending.event)
        (deliveredCount config pending) (site',(deliveries I K C T).request t
          (.request (.keyVersion pending.event.key)) current site site' history) :=
      hcounted.mono (fun other hother => hstays other (hrely.listed other hother))
        (fun note hnote => mem_append_left _ (hrely.acknowledged note hnote)) fun _ h => h
    refine safe_bind (safe_mono (safe_pushTo (config.targets_nodup pending.event) (fun _ h => h)
      hpushing) fun delivered s' _ hafter => ?_)
    split_ifs with henough
    · obtain ⟨hmem,peers,hcard,hpeers⟩ := hafter
      exact safe_sent hmem ⟨peers,henough.trans hcard,fun peer hpeer => (hpeers peer hpeer).1⟩
    · exact safe_markFailed hself

omit [DecidableEq K] [DecidableEq T] in
theorem Accounted.restarted (h : Accounted self config site history) :
    Accounted self config (DeliveryWorker.restarted site) history where
  numbered event hseen := h.numbered event (seen_of_seen_restarted hseen)
  unique event hseen other hother :=
    h.unique event (seen_of_seen_restarted hseen) other (seen_of_seen_restarted hother)
  own := h.own
  listed _ hnone := by cases hnone
  noted := h.noted
  delivered _ hnone := by cases hnone
  marked := h.marked
  sent := h.sent
  superseded := h.superseded
  removed := h.removed
  made := h.made

theorem siteRules_respect : Respects (notingMachine I K C T self)
      (recordedRules (siteRules self config) (deliveries I K C T))
      (discipline I K C T self config) fun _ _ _ _ => True where
  starts s _ t program hinv hstarts := by
    rcases hstarts with hissues | _ | ⟨batch,hlisted⟩ | id | ⟨retention,rounds⟩
    · exact safe_of_allowed (hissues.embed fun _ h _ _ => allowed_of_ordinary h)
    · exact safe_listPendingDeliveries
    · exact safe_deliver hinv hlisted
    · exact safe_of_allowed ⟨fun _ _ => trivial,fun _ => trivial⟩
    · exact safe_of_allowed (pruneHistory_issues (fun _ _ => trivial) (fun _ _ _ => trivial)
        (fun _ _ _ => trivial) retention rounds)
  environment _ _ _ hmove := hmove.1.elim
  crash s _ s' hcrash hinv := by
    refine ⟨(),?_⟩
    show Accounted self config s'.1 s'.2
    rw [hcrash.1,hcrash.2]
    exact hinv.restarted

omit [DecidableEq K] [DecidableEq T] in
theorem accounted_empty (hlog : site.node.db.log=[]) (hlisted : site.node.listed=[]) :
    Accounted self config site Deliveries.empty := by
  have hnorow : ∀ row,row∉site.node.db.log := fun row hrow => by
    rw [hlog] at hrow
    cases hrow
  have hnopending : ∀ pending,pending∉site.node.listed := fun pending hpending => by
    rw [hlisted] at hpending
    cases hpending
  have hunseen : ∀ event,¬Seen site.node event := by
    rintro event (hevent | ⟨pending,hpending,_⟩)
    · obtain ⟨row,hrow,_⟩ := mem_map.mp hevent
      exact hnorow row hrow
    · exact hnopending pending hpending
  exact {
    numbered := fun event hseen => (hunseen event hseen).elim
    unique := fun event hseen => (hunseen event hseen).elim
    own := fun row hrow => (hnorow row hrow).elim
    listed := fun pending hpending => (hnopending pending hpending).elim
    noted := fun row hrow => (hnorow row hrow).elim
    delivered := fun pending hpending => (hnopending pending hpending).elim
    marked := fun row hrow => (hnorow row hrow).elim
    sent := fun _ hnone => by cases hnone
    superseded := fun _ hnone => by cases hnone
    removed := fun _ hnone => by cases hnone
    made := fun _ hnone => by cases hnone}

theorem accounted_of_reachable {start : Pool (SiteAction I K C) SiteAnswer T (Site I K C T) Unit}
    {pool : SitePool I K C T (Deliveries I K C T)}
    (hidle : ∀ t,start.tasks t=none) (hlog : start.world.node.db.log=[])
    (hlisted : start.world.node.listed=[]) (hreach : Reachable (notingMachine I K C T self)
      (recordedRules (siteRules self config) (deliveries I K C T))
      (withHistory start Deliveries.empty) pool) :
    Accounted self config pool.world.1 pool.world.2 := by
  have hstart : Holds (notingMachine I K C T self) (discipline I K C T self config)
      (fun _ _ _ _ => True) (withHistory start Deliveries.empty) := by
    refine ⟨(),accounted_empty hlog hlisted,fun t program htask => ?_⟩
    rw [show (withHistory start (Deliveries.empty : Deliveries I K C T)).tasks t=none from
      hidle t] at htask
    cases htask
  obtain ⟨_,hinv⟩ := (hstart.reachable siteRules_respect hreach).inv
  exact hinv

/-- A delivery marks an event sent only after enough matching peers have acknowledged it,
and superseded only after it has read a greater version of the key. Only rows that were
sent, superseded or applied leave the log. So once nothing waits and nothing was given up,
every local change was acknowledged or overtaken. -/
theorem local_changes_settled {start : Pool (SiteAction I K C) SiteAnswer T (Site I K C T) Unit}
    {pool : SitePool I K C T (Deliveries I K C T)}
    (hidle : ∀ t,start.tasks t=none) (hlog : start.world.node.db.log=[])
    (hlisted : start.world.node.listed=[])
    (hreach : Reachable (recorded (siteMachine self) (deliveries I K C T))
      (recordedRules (siteRules self config) (deliveries I K C T))
      (withHistory start Deliveries.empty) pool) : (∀ row∈pool.world.1.node.db.log,
      (row.status=.sent → row.event∈pool.world.2.sent) ∧
      (row.status=.superseded→∃ reading,(row.event,reading)∈pool.world.2.superseded)) ∧
    (∀ event∈pool.world.2.sent,
      config.replicationFactor≤1 ∨ Acknowledged config pool.world.2 event) ∧
    (∀ mark∈pool.world.2.superseded,Overtaken mark.1 mark.2) ∧ (∀ row∈pool.world.2.removed,
      row.status=.sent ∨ row.status=.superseded ∨ row.status=.applied) ∧
    ((∀ row∈pool.world.1.node.db.log,
        row.status≠.pending ∧ row.status≠.failed ∧ row.status≠.deadLetter) →
      ∀ event∈pool.world.2.made,Acknowledged config pool.world.2 event ∨
        ∃ reading,(event,reading)∈pool.world.2.superseded ∧ Overtaken event reading) := by
  have haccounted := accounted_of_reachable hidle hlog hlisted hreach
  refine ⟨haccounted.marked,fun event hevent => Or.inr (haccounted.sent event hevent),
    haccounted.superseded,fun row hrow => ?_,fun hsettled event hevent => ?_⟩
  · have hfinished := haccounted.removed row hrow
    rw [LogRow.isFinished] at hfinished
    cases hstatus : row.status <;> simp [hstatus] at hfinished ⊢
  · rcases haccounted.made event hevent with ⟨row,hrow,_,hopen⟩ | hack | ⟨reading,hmark⟩
    · obtain ⟨hpending,hfailed,hdead⟩ := hsettled row hrow
      rw [LogRow.isFinished] at hopen
      cases hstatus : row.status <;> simp_all
    · exact Or.inl hack
    · exact Or.inr ⟨reading,hmark,haccounted.superseded _ hmark⟩

end Requests

section Samples

open BackfillDelivery (sampleConfig sampleEvent sampleAfter sampleAfter_reachable)

/-- Node 1 without any object. -/
def sampleSite : Site ℕ ℕ ℕ ℕ :=
  ⟨⟨fun _ => none,fun _ => false,⟨fun _ => none,[]⟩,fun _ => none,0,[]⟩,fun _ => 0,fun _ => []⟩

/-- A client puts an object. -/
def samplePut : Prog ℕ ℕ ℕ Unit :=
  (putObjectConditional .client 0 7 (fun _ => true)
    (some (localChange ⟨fun _ => true,[]⟩ "default".toList))).bind fun _ => .done ()

/-- The only peer acknowledges the event of a put, and nothing is left to be done. -/
theorem sample_local_changes_settled :
    ∃ pool : SitePool ℕ ℕ ℕ ℕ (Deliveries ℕ ℕ ℕ ℕ),
      Reachable (recorded (siteMachine 1) (deliveries ℕ ℕ ℕ ℕ))
        (recordedRules (siteRules 1 sampleConfig) (deliveries ℕ ℕ ℕ ℕ))
        (withHistory ⟨sampleSite,fun _ => none⟩ Deliveries.empty) pool ∧
      pool.world.2.made=[sampleEvent] ∧
      pool.world.1.node.db.log=[⟨sampleEvent,.sent,0,none,some ['b']⟩] ∧
      (Acknowledged sampleConfig pool.world.2 sampleEvent ∨
        ∃ reading,(sampleEvent,reading)∈pool.world.2.superseded ∧ Overtaken sampleEvent reading) := by
  have hruns : (sampleAfter (deliveries ℕ ℕ ℕ ℕ) sampleSite Deliveries.empty samplePut
      [(0,.node .work),(0,.node .work),(0,.node (.clock ⟨5,0⟩)),(0,.node (.clock ⟨5,0⟩)),
        (0,.node .work),(1,.node (.clock ⟨8,0⟩))]
      [(2,.node .work),(2,.node .work),(2,.pushed .acknowledged),(2,.node .work),
        (2,.node .work)]).map (fun pool => (pool.world.2.made,pool.world.1.node.db.log))=
      some ([sampleEvent],[⟨sampleEvent,.sent,0,none,some ['b']⟩]) := by
    decide +kernel
  obtain ⟨pool,hpool,hstate⟩ := map_eq_some_iff.mp hruns
  obtain ⟨hmade,hlog⟩ := Prod.mk.inj hstate
  have hput : samplePut.Issues (Ordinary 1) :=
    (putObjectConditional_ordinary (localChange_ordinary _ _) _ _ _ _).bind fun _ => trivial
  have hreach := sampleAfter_reachable hput hpool
  refine ⟨pool,hreach,hmade,hlog,?_⟩
  obtain ⟨_,_,_,_,hsettled⟩ := local_changes_settled (fun _ => rfl) rfl rfl hreach
  refine hsettled (fun row hrow => ?_) sampleEvent (hmade ▸ mem_singleton_self _)
  rw [hlog,mem_singleton] at hrow
  rw [hrow]
  exact ⟨by decide,by decide,by decide⟩

end Samples

end NebularOs.DeliveredEvents
