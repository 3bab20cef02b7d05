import Mathlib
import NebularOs.DeliveryWorker

/-!
# Steps of deliveries on the log

What each request of a node does to its log, said once: an event is queued or kept, due
events are taken, a row changes, finished rows are removed. Only the deliveries settle
events, as sent or as superseded.
-/

namespace NebularOs.DeliveryWorker

open BlobFilenames RequestPrograms TaskPools ReplicationLog ReplicatedNode Program List

section Effects

variable {I K C T : Type} [DecidableEq I]

/-- How a statement changes the row of an event. -/
def rowChange : Action I K C→Choice→Option ((I×ℕ)×(LogRow I K C → LogRow I K C))
  | .setStatus id status,_ => some (id,fun row => {row with status := status})
  | .markDelivered id peer,_ =>
    some (id,fun row => {row with deliveredTo := some (appendPeer row.deliveredTo peer)})
  | .recordFailure id attempts maxAttempts,.clock stamp =>
    some (id,fun row => row.failed attempts maxAttempts stamp.createdAt)
  | .replayDeadLetter id,_ => some (id,LogRow.replayed)
  | _,_ => none

/-- What a request does to the log and to the deliveries taken from it. -/
inductive LogEffect (self : I) (node node' : Node I K C T) : SiteAction I K C→Prop
  /-- Nothing. -/
  | same {a : SiteAction I K C} (hlog : node'.db.log=node.db.log) (hnext : node'.nextId=node.nextId)
      (hlisted : node'.listed=node.listed) : LogEffect self node node' a
  /-- A new event of the node is queued. -/
  | queued {a : SiteAction I K C} (event : Event I K C) (hid : event.id=(self,node.nextId))
      (hlog : node'.db.log=node.db.log++[⟨event,.pending,0,none,none⟩])
      (hnext : node'.nextId=node.nextId+1) (hlisted : node'.listed=node.listed) :
      LogEffect self node node' a
  /-- An event of a peer is kept. -/
  | kept {a : SiteAction I K C} (event : Event I K C) (hid : event.id.1≠self)
      (hlog : node'.db.log=node.db.log++[⟨event,.applied,0,none,none⟩])
      (hnext : node'.nextId=node.nextId) (hlisted : node'.listed=node.listed) :
      LogEffect self node node' a
  /-- Due events are taken from the log. -/
  | taken (now : ℤ) (hlog : node'.db.log=node.db.log) (hnext : node'.nextId=node.nextId)
      (hlisted : node'.listed=node.listed++(node.db.listDue now).map LogRow.delivery) :
      LogEffect self node node' (.request .listPendingDeliveries)
  /-- The row of an event changes. -/
  | updated {a : Action I K C} {choice : Choice} {id : I×ℕ} {change : LogRow I K C → LogRow I K C}
      (hchange : rowChange a choice=some (id,change)) (hdb : node'.db=node.db.updateRow id change)
      (hnext : node'.nextId=node.nextId) (hlisted : node'.listed=node.listed) :
      LogEffect self node node' (.request a)
  /-- Finished events are removed. -/
  | removed (before : ℤ) (ids : List (I×ℕ)) (hdb : node'.db=pruned node.db before ids)
      (hnext : node'.nextId=node.nextId) (hlisted : node'.listed=node.listed) :
      LogEffect self node node' (.pruneEvents before)

variable {self : I}

theorem logEffect_insertApplied {node node' : Node I K C T} {a : SiteAction I K C}
    {db : Database I K C} {event : Event I K C} (hid : event.id.1≠self) (hdb : db.log=node.db.log)
    (hlog : node'.db=db.insertApplied event) (hnext : node'.nextId=node.nextId)
    (hlisted : node'.listed=node.listed) : LogEffect self node node' a := by
  unfold Database.insertApplied at hlog
  split_ifs at hlog with hknown
  · exact .same (by rw [hlog,hdb]) hnext hlisted
  · exact .kept event hid (by rw [hlog,hdb]) hnext hlisted

variable {a : Action I K C} {t : T} {choice : Choice}

/-- What a request of the node does to the log. -/
theorem logEffect_of_exec [DecidableEq K] {node node' : Node I K C T} {answer : Answer a}
    (hforeign : Foreign self a) (h : exec self t a choice node=some (answer,node')) :
    LogEffect self node node' (.request a) := by
  cases a with
  | lock key =>
    simp only [exec] at h
    split_ifs at h
    cases h
    exact .same rfl rfl rfl
  | recordLocalChange _ _ _ _ =>
    rcases exec_recordLocalChange h with ⟨_,rfl⟩ | ⟨stamp,_,_,_,rfl⟩
    · exact .same rfl rfl rfl
    · exact .queued _ rfl rfl rfl rfl
  | insertPending _ _ _ _ _ =>
    cases choice <;> cases h
    exact .queued _ rfl rfl rfl rfl
  | recordRemoteChange key event =>
    cases h
    have hstore : (node.db.store key event.keyVersion).log=node.db.log := rfl
    exact logEffect_insertApplied hforeign hstore rfl rfl rfl
  | recordApplied event =>
    cases h
    exact logEffect_insertApplied hforeign rfl rfl rfl rfl
  | storeIfAbsent key read state =>
    cases h
    refine .same ?_ rfl rfl
    unfold Database.storeIfAbsent
    cases node.db.versions key with
    | none | some current => rfl
  | listPendingDeliveries =>
    cases choice <;> cases h
    rename_i stamp
    exact .taken stamp.createdAt rfl rfl rfl
  | setStatus id status =>
    cases h
    exact .updated (show rowChange (.setStatus id status) .work=some _ from rfl) rfl rfl rfl
  | markDelivered id peer =>
    cases h
    exact .updated (show rowChange (.markDelivered id peer) .work=some _ from rfl) rfl rfl rfl
  | recordFailure id attempts maxAttempts =>
    cases choice <;> cases h
    rename_i stamp
    exact .updated (show rowChange (.recordFailure id attempts maxAttempts) (.clock stamp)=some _
      from rfl) rfl rfl rfl
  | replayDeadLetter id =>
    cases h
    exact .updated (show rowChange (.replayDeadLetter id) .work=some _ from rfl) rfl rfl rfl
  | _ =>
    cases choice <;> cases h
    all_goals exact .same rfl rfl rfl

/-- Requests of a node that names no event of a peer as its own. -/
def SiteForeign (self : I) : SiteAction I K C→Prop
  | .request a => Foreign self a
  | _ => True

variable {site' site : Site I K C T}

theorem siteExec_request [DecidableEq K] {choice : SiteChoice I K} {answer : Answer a}
    (h : siteExec self t (.request a) choice site=some (answer,site')) :
    ∃ inner recordedAt,choice=.node inner ∧ exec self t a inner site.node=some (answer,site'.node) ∧
      stampedAt site a answer inner=some recordedAt ∧ site'.recordedAt=recordedAt := by
  cases choice with
  | node inner =>
    obtain ⟨⟨found,node⟩,hexec,hsite⟩ := Option.bind_eq_some_iff.mp h
    obtain ⟨recordedAt,hstamped,hsite⟩ := Option.map_eq_some_iff.mp hsite
    cases hsite
    exact ⟨inner,recordedAt,rfl,hexec,hstamped,rfl⟩
  | _ => cases h

/-- Requests besides those of the node's operations: only prunings change the node. -/
inductive OtherEffect [DecidableEq K] (site site' : Site I K C T) : SiteAction I K C→Prop
  /-- Nothing changes. -/
  | same {a : SiteAction I K C} (hnode : site'.node=site.node) : OtherEffect site site' a
  /-- Finished events are removed. -/
  | removed {before : ℤ} {ids : List (I×ℕ)}
      (hnode : site'.node={site.node with db := pruned site.node.db before ids}) :
      OtherEffect site site' (.pruneEvents before)
  /-- Tombstones are forgotten. -/
  | forgot {before : ℤ} {keys : List K} (hkeys : ∀ key∈keys,site.isForgettable before key=true)
      (hnode : site'.node={site.node with db := forgotten site.node.db keys}) :
      OtherEffect site site' (.pruneTombstones before)

/-- What a request does that is not one of the node's operations. -/
theorem otherEffect_of_siteExec [DecidableEq K] {a : SiteAction I K C} {choice : SiteChoice I K}
    {answer : SiteAnswer a} (h : siteExec self t a choice site=some (answer,site'))
    (ha : ∀ b,a≠.request b) : site'.recordedAt=site.recordedAt ∧ OtherEffect site site' a := by
  cases a with
  | request b => exact (ha b rfl).elim
  | push peer event =>
    cases choice <;> cases h
    exact ⟨rfl,.same rfl⟩
  | isUnreachable batch peer | setUnreachable batch peer =>
    cases choice <;> cases h
    exact ⟨rfl,.same rfl⟩
  | timestamp =>
    cases choice with
    | node inner =>
      cases inner <;> cases h
      exact ⟨rfl,.same rfl⟩
    | _ => cases h
  | pruneEvents before =>
    cases choice with
    | events ids =>
      simp only [siteExec] at h
      split_ifs at h
      cases h
      exact ⟨rfl,.removed rfl⟩
    | _ => cases h
  | pruneTombstones before =>
    cases choice with
    | tombstones keys =>
      simp only [siteExec] at h
      split_ifs at h with hkeys
      cases h
      exact ⟨rfl,.forgot (all_eq_true.mp hkeys.2.2) rfl⟩
    | _ => cases h

theorem logEffect_of_siteExec [DecidableEq K] {a : SiteAction I K C} {choice : SiteChoice I K}
    {answer : SiteAnswer a} (hforeign : SiteForeign self a)
    (h : siteExec self t a choice site=some (answer,site')) :
    LogEffect self site.node site'.node a := by
  by_cases hrequest : ∃ b,a=.request b
  · obtain ⟨b,rfl⟩ := hrequest
    obtain ⟨inner,_,_,hexec,_⟩ := siteExec_request h
    exact logEffect_of_exec hforeign hexec
  · obtain ⟨_,hother⟩ := otherEffect_of_siteExec h (not_exists.mp hrequest)
    cases hother with
    | same hnode => exact .same (by rw [hnode]) (by rw [hnode]) (by rw [hnode])
    | removed hnode => exact .removed _ _ (by rw [hnode]) (by rw [hnode]) (by rw [hnode])
    | forgot hkeys hnode => exact .same (by rw [hnode]; rfl) (by rw [hnode]) (by rw [hnode])

variable {id : I×ℕ}

omit [DecidableEq I] in
theorem rowChange_event {change : LogRow I K C → LogRow I K C}
    (h : rowChange a choice=some (id,change)) (row : LogRow I K C) : (change row).event=row.event := by
  cases a with
  | setStatus other status | markDelivered other peer =>
    cases h
    rfl
  | recordFailure other attempts maxAttempts =>
    cases choice <;> cases h
    rename_i stamp
    exact row.failed_event attempts maxAttempts stamp.createdAt
  | replayDeadLetter other =>
    cases h
    exact row.replayed_event
  | _ => cases h

/-- Where an event stands that a delivery has settled. -/
def Status.isSettled (status : Status) : Bool := status==.sent || status==.superseded

omit [DecidableEq I] in
theorem rowChange_settled {change : LogRow I K C → LogRow I K C}
    (h : rowChange a choice=some (id,change)) {row : LogRow I K C}
    (hsettled : Status.isSettled (change row).status=true) :
    (change row).status=row.status ∨ a=.setStatus id (change row).status := by
  cases a with
  | setStatus other status =>
    cases h
    exact Or.inr rfl
  | markDelivered other peer =>
    cases h
    exact Or.inl rfl
  | recordFailure other attempts maxAttempts =>
    cases choice <;> cases h
    unfold LogRow.failed at hsettled
    split_ifs at hsettled
    · cases hsettled
    · cases hsettled
  | replayDeadLetter other =>
    cases h
    unfold LogRow.replayed at hsettled ⊢
    split_ifs at hsettled ⊢
    · cases hsettled
    · exact Or.inl rfl
  | _ => cases h

omit [DecidableEq I] in
theorem rowChange_finishes {change : LogRow I K C → LogRow I K C}
    (h : rowChange a choice=some (id,change)) {row : LogRow I K C} (hrow : row.isFinished=false) :
    (change row).isFinished=false ∨ ∃ status,a=.setStatus id status := by
  cases a with
  | setStatus other status =>
    cases h
    exact Or.inr ⟨status,rfl⟩
  | markDelivered other peer =>
    cases h
    exact Or.inl hrow
  | recordFailure other attempts maxAttempts =>
    cases choice <;> cases h
    left
    unfold LogRow.failed
    split_ifs
    · rfl
    · rfl
  | replayDeadLetter other =>
    cases h
    left
    unfold LogRow.replayed
    split_ifs
    · rfl
    · exact hrow
  | _ => cases h

omit [DecidableEq I] in
theorem rowChange_reopens {change : LogRow I K C → LogRow I K C}
    (h : rowChange a choice=some (id,change)) {row : LogRow I K C}
    (hrow : (change row).isFinished=false) :
    row.isFinished=false ∨ (∃ status,a=.setStatus id status) ∨
      ∃ attempts maxAttempts,a=.recordFailure id attempts maxAttempts := by
  cases a with
  | setStatus other status =>
    cases h
    exact Or.inr (Or.inl ⟨status,rfl⟩)
  | markDelivered other peer =>
    cases h
    exact Or.inl hrow
  | recordFailure other attempts maxAttempts =>
    cases choice <;> cases h
    exact Or.inr (Or.inr ⟨attempts,maxAttempts,rfl⟩)
  | replayDeadLetter other =>
    cases h
    unfold LogRow.replayed at hrow
    split_ifs at hrow with hdead
    · refine Or.inl ?_
      rw [LogRow.isFinished,eq_of_beq hdead]
      rfl
    · exact Or.inl hrow
  | _ => cases h

omit [DecidableEq I] in
theorem rowChange_deliveredTo {change : LogRow I K C → LogRow I K C}
    (h : rowChange a choice=some (id,change)) (row : LogRow I K C) :
    (change row).deliveredTo=row.deliveredTo ∨ ∃ peer,a=.markDelivered id peer ∧
      (change row).deliveredTo=some (appendPeer row.deliveredTo peer) := by
  cases a with
  | setStatus other status =>
    cases h
    exact Or.inl rfl
  | markDelivered other peer =>
    cases h
    exact Or.inr ⟨peer,rfl,rfl⟩
  | recordFailure other attempts maxAttempts =>
    cases choice <;> cases h
    left
    unfold LogRow.failed
    split_ifs
    · rfl
    · rfl
  | replayDeadLetter other =>
    cases h
    left
    unfold LogRow.replayed
    split_ifs
    · rfl
    · rfl
  | _ => cases h

/-- Events in the log, and those taken from it. -/
def Seen (node : Node I K C T) (event : Event I K C) : Prop :=
  event∈node.db.events ∨ ∃ pending∈node.listed,pending.event=event

omit [DecidableEq I] in
theorem seen_of_seen_restarted {event : Event I K C} (h : Seen (restarted site).node event) :
    Seen site.node event := by
  rcases h with hevent | ⟨pending,hpending,_⟩
  · exact Or.inl hevent
  · cases hpending

namespace LogEffect

variable {self : I} {node node' : Node I K C T} {a : SiteAction I K C}

theorem nextId_le (h : LogEffect self node node' a) : node.nextId≤node'.nextId := by
  cases h with
  | same hlog hnext hlisted => exact hnext.ge
  | queued event hid hlog hnext hlisted => omega
  | kept event hid hlog hnext hlisted => exact hnext.ge
  | taken now hlog hnext hlisted => exact hnext.ge
  | updated hchange hdb hnext hlisted => exact hnext.ge
  | removed before ids hdb hnext hlisted => exact hnext.ge

theorem mem_listed (h : LogEffect self node node' a) {pending : PendingDelivery I K C}
    (hpending : pending∈node.listed) : pending∈node'.listed := by
  cases h with
  | same hlog hnext hlisted => exact hlisted ▸ hpending
  | queued event hid hlog hnext hlisted | kept event hid hlog hnext hlisted => exact hlisted ▸ hpending
  | taken now hlog hnext hlisted =>
    rw [hlisted]
    exact mem_append_left _ hpending
  | updated hchange hdb hnext hlisted => exact hlisted ▸ hpending
  | removed before ids hdb hnext hlisted => exact hlisted ▸ hpending

/-- At most one event is seen first, which is queued here or kept for a peer. -/
theorem seen_cases (h : LogEffect self node node' a) :
    (∀ event,Seen node' event→Seen node event) ∨
      ∃ new,(new.id=(self,node.nextId) ∧ node'.nextId=node.nextId+1 ∨ new.id.1≠self) ∧
        ∀ event,Seen node' event→Seen node event ∨ event=new := by
  have happended : ∀ (new : LogRow I K C),node'.db.log=node.db.log++[new] →
      node'.listed=node.listed→∀ event,Seen node' event→Seen node event ∨ event=new.event := by
    intro new hlog hlisted event hseen
    unfold Seen Database.events at hseen ⊢
    rw [hlog,hlisted,map_append,mem_append] at hseen
    rcases hseen with (hold | hnew) | hlist
    · exact Or.inl (Or.inl hold)
    · exact Or.inr (by simpa using hnew)
    · exact Or.inl (Or.inr hlist)
  cases h with
  | same hlog hnext hlisted =>
    refine Or.inl fun event hseen => ?_
    unfold Seen Database.events at hseen ⊢
    rwa [hlog,hlisted] at hseen
  | queued new hid hlog hnext hlisted =>
    exact Or.inr ⟨new,Or.inl ⟨hid,hnext⟩,happended _ hlog hlisted⟩
  | kept new hid hlog hnext hlisted =>
    exact Or.inr ⟨new,Or.inr hid,happended _ hlog hlisted⟩
  | taken now hlog hnext hlisted =>
    refine Or.inl fun event hseen => ?_
    unfold Seen Database.events at hseen ⊢
    rw [hlog,hlisted] at hseen
    rcases hseen with hold | ⟨pending,hpending,rfl⟩
    · exact Or.inl hold
    · rcases mem_append.mp hpending with hbefore | hdue
      · exact Or.inr ⟨pending,hbefore,rfl⟩
      · -- What is taken from the log is in it.
        obtain ⟨row,hrow,rfl⟩ := mem_map.mp hdue
        exact Or.inl (mem_map_of_mem (Database.mem_log_of_mem_listDue hrow).1)
  | @updated _ _ id change hchange hdb hnext hlisted =>
    have hevents : (node.db.updateRow id change).events=node.db.events :=
      Database.updateRow_events (rowChange_event hchange)
    refine Or.inl fun event hseen => ?_
    unfold Seen at hseen ⊢
    rwa [hdb,hlisted,hevents] at hseen
  | removed before ids hdb hnext hlisted =>
    refine Or.inl fun event hseen => ?_
    unfold Seen at hseen ⊢
    rw [hdb,hlisted] at hseen
    exact hseen.imp_left fun hrest => map_subset _ (filter_subset_self _) hrest

theorem seen (h : LogEffect self node node' a) {event : Event I K C} (hseen : Seen node' event) :
    Seen node event ∨ event.id=(self,node.nextId) ∧ node'.nextId=node.nextId+1 ∨
      event.id.1≠self := by
  rcases h.seen_cases with hall | ⟨new,hnew,hall⟩
  · exact Or.inl (hall event hseen)
  · rcases hall event hseen with hbefore | rfl
    · exact Or.inl hbefore
    · exact Or.inr hnew

theorem row_cases (h : LogEffect self node node' a) {row : LogRow I K C} (hrow : row∈node'.db.log) :
    row∈node.db.log ∨ (∃ event,event.id=(self,node.nextId) ∧ row=⟨event,.pending,0,none,none⟩) ∨
      (∃ event,event.id.1≠self ∧ row=⟨event,.applied,0,none,none⟩) ∨
      ∃ b choice id change old,a=.request b ∧ rowChange b choice=some (id,change) ∧
        old∈node.db.log ∧ old.event.id=id ∧ row=change old := by
  cases h with
  | same hlog hnext hlisted => exact Or.inl (hlog ▸ hrow)
  | queued event hid hlog hnext hlisted =>
    rw [hlog,mem_append] at hrow
    rcases hrow with hold | hnew
    · exact Or.inl hold
    · exact Or.inr (Or.inl ⟨event,hid,mem_singleton.mp hnew⟩)
  | kept event hid hlog hnext hlisted =>
    rw [hlog,mem_append] at hrow
    rcases hrow with hold | hnew
    · exact Or.inl hold
    · exact Or.inr (Or.inr (Or.inl ⟨event,hid,mem_singleton.mp hnew⟩))
  | taken now hlog hnext hlisted => exact Or.inl (hlog ▸ hrow)
  | updated hchange hdb hnext hlisted =>
    rw [hdb] at hrow
    rcases Database.mem_log_updateRow hrow with ⟨hold,_⟩ | ⟨old,hold,hid,heq⟩
    · exact Or.inl hold
    · exact Or.inr (Or.inr (Or.inr ⟨_,_,_,_,old,rfl,hchange,hold,hid,heq⟩))
  | removed before ids hdb hnext hlisted =>
    rw [hdb] at hrow
    exact Or.inl (mem_of_mem_filter hrow)

theorem settled (h : LogEffect self node node' a) {row : LogRow I K C} (hrow : row∈node'.db.log)
    (hsettled : Status.isSettled row.status=true) :
    (∃ old∈node.db.log,old.event=row.event ∧ old.status=row.status) ∨
      a=.request (.setStatus row.event.id row.status) ∧ row.event∈node.db.events := by
  rcases h.row_cases hrow with hold | ⟨event,_,rfl⟩ | ⟨event,_,rfl⟩ |
    ⟨b,choice,id,change,old,rfl,hchange,hold,rfl,rfl⟩
  · exact Or.inl ⟨row,hold,rfl,rfl⟩
  · cases hsettled
  · cases hsettled
  · have hevent := rowChange_event hchange old
    rcases rowChange_settled hchange hsettled with hstatus | rfl
    · exact Or.inl ⟨old,hold,hevent.symm,hstatus.symm⟩
    · rw [hevent]
      exact Or.inr ⟨rfl,mem_map_of_mem hold⟩

theorem row_lasts (h : LogEffect self node node' a) {old : LogRow I K C} (hold : old∈node.db.log) :
    old∈node'.db.log ∨
      (∃ b choice change,a=.request b ∧ rowChange b choice=some (old.event.id,change) ∧
        change old∈node'.db.log) ∨ old.isFinished=true := by
  cases h with
  | same hlog hnext hlisted => exact Or.inl (hlog ▸ hold)
  | queued event hid hlog hnext hlisted | kept event hid hlog hnext hlisted =>
    rw [hlog]
    exact Or.inl (mem_append_left _ hold)
  | taken now hlog hnext hlisted => exact Or.inl (hlog ▸ hold)
  | @updated b choice id change hchange hdb hnext hlisted =>
    have hmem : (if old.event.id=id then change old else old)∈(node.db.updateRow id change).log :=
      Database.mem_updateRow_log hold
    rw [hdb]
    by_cases hid : old.event.id=id
    · subst hid
      rw [if_pos rfl] at hmem
      exact Or.inr (Or.inl ⟨b,choice,change,rfl,hchange,hmem⟩)
    · rw [if_neg hid] at hmem
      exact Or.inl hmem
  | removed before ids hdb hnext hlisted =>
    rw [hdb]
    by_cases hfinished : old.isFinished=true
    · exact Or.inr (Or.inr hfinished)
    · refine Or.inl (mem_filter.mpr ⟨hold,?_⟩)
      simp [isPrunable,hfinished]

end LogEffect

end Effects

section Operations

variable {I K C : Type} {self : I}

/-- A hook whose requests are ordinary. -/
structure OrdinaryHook (origin : I) (hook : CommitHook I K C) : Prop where
  /-- Before the commit. -/
  before : ∀ key,(hook.before key).Issues (Ordinary origin)
  /-- After the commit. -/
  after : ∀ key committed,(hook.after key committed).Issues (Ordinary origin)

theorem localChange_ordinary (cluster : Cluster K) (writeClass : Text) :
    OrdinaryHook self (localChange cluster writeClass : CommitHook I K C) where
  before _ := trivial
  after key committed := by
    unfold localChange
    dsimp only
    split_ifs
    · exact ⟨⟨trivial,rfl⟩,fun _ => trivial⟩
    · trivial

theorem locked_ordinary {key : K} {body : Prog I K C (Except EngineState.StorageError Unit)}
    (h : body.Issues (Ordinary self)) : (locked key body).Issues (Ordinary self) :=
  ⟨⟨trivial,rfl⟩,fun _ => h.bind fun _ => ⟨⟨trivial,rfl⟩,fun _ => trivial⟩⟩

theorem putObjectConditional_ordinary {hook : CommitHook I K C} (hhook : OrdinaryHook self hook)
    (writer : Writer I K C) (key : K) (content : C) (conditions : Option C→Bool) :
    (putObjectConditional writer key content conditions (some hook)).Issues (Ordinary self) := by
  refine locked_ordinary (Issues.attempt (hhook.before key) fun _ => ?_)
  refine ⟨⟨trivial,rfl⟩,fun existing => Issues.attempt trivial fun _ => ?_⟩
  refine ⟨⟨trivial,rfl⟩,fun committed => Issues.attempt trivial fun _ => ?_⟩
  exact (hhook.after key (.written content)).bind fun _ => trivial

theorem backfillReplication_ordinary (cluster : Cluster K) (page : List K) :
    (backfillReplication self cluster page : Prog I K C Unit).Issues (Ordinary self) := by
  refine Issues.forEach fun key _ => ?_
  unfold backfillKey
  split_ifs
  · refine ⟨⟨trivial,rfl⟩,fun existing => ?_⟩
    cases existing with
    | none => trivial
    | some row =>
      refine ⟨⟨trivial,rfl⟩,fun found => ?_⟩
      cases found with
      | true => exact ⟨⟨trivial,rfl⟩,fun _ => ⟨⟨trivial,rfl⟩,fun _ => trivial⟩⟩
      | false => trivial
  · trivial

end Operations

section Requests

variable {I K C T : Type} {self : I}

/-- Requests that settle no event. -/
def SettlesNone (self : I) : SiteAction I K C→Prop
  | .request (.setStatus _ status) => Status.isSettled status=false
  | .request a => Foreign self a
  | _ => True

theorem SettlesNone.foreign {a : SiteAction I K C} (h : SettlesNone self a) :
    SiteForeign self a := by
  cases a with
  | request a =>
    cases a with
    | setStatus id status => trivial
    | _ => exact h
  | _ => trivial

theorem Ordinary.settlesNone {a : Action I K C} (h : Ordinary self a) :
    SettlesNone self (.request a) := by
  cases a with
  | setStatus id status => cases h.2
  | _ => exact h.1

theorem listPendingDeliveries_settlesNone :
    (onSite (listPendingDeliveries : Prog I K C Unit)).Issues (SettlesNone self) := by
  have hissues : (listPendingDeliveries : Prog I K C Unit).Issues
      fun a => SettlesNone self (.request a) := by
    refine ⟨trivial,fun rows => Issues.forEach fun row _ => ?_⟩
    split_ifs
    · exact ⟨rfl,fun _ => trivial⟩
    · trivial
  exact hissues.embed fun _ h => h

theorem markFailed_settlesNone (maxAttempts : ℕ) (id : I×ℕ) :
    (onSite (markFailed maxAttempts id : Prog I K C Unit)).Issues (SettlesNone self) :=
  ⟨trivial,fun _ => ⟨trivial,fun _ => trivial⟩⟩

theorem pushTo_settlesNone (config : ClusterConfig) (batch : ℕ) (pending : PendingDelivery I K C)
    (peers : List Text) (delivered : ℕ) :
    (pushTo config batch pending peers delivered).Issues (SettlesNone self) := by
  induction peers generalizing delivered with
  | nil => trivial
  | cons peer peers ih =>
    unfold pushTo
    split_ifs
    · trivial
    · exact ih delivered
    · refine ⟨trivial,fun skipped => ?_⟩
      dsimp only [Program.bind]
      split_ifs
      · exact ih delivered
      · refine ⟨trivial,fun outcome => ?_⟩
        cases outcome with
        | acknowledged => exact ⟨trivial,fun _ => ih (delivered+1)⟩
        | unreachable => exact ⟨trivial,fun _ => ih delivered⟩
        | failed => exact ih delivered

theorem pruneLoop_issues {allowed : SiteAction I K C→Prop} {removal : SiteAction I K C}
    (hremoval : allowed removal) (removed : SiteAnswer removal→ℕ) (rounds : ℕ) :
    (pruneLoop removal removed rounds).Issues allowed := by
  induction rounds with
  | zero => trivial
  | succ rounds ih =>
    refine ⟨hremoval,fun answer => ?_⟩
    dsimp only [Program.bind]
    split_ifs
    · trivial
    · exact ih

theorem pruneHistory_issues {allowed : SiteAction I K C→Prop} (htimestamp : allowed .timestamp)
    (hevents : ∀ before,allowed (.pruneEvents before))
    (htombstones : ∀ before,allowed (.pruneTombstones before)) (retention : ℤ) (rounds : ℕ) :
    (pruneHistory retention rounds : SiteProg I K C Unit).Issues allowed := by
  refine ⟨htimestamp,fun now => ?_⟩
  dsimp only [done_bind]
  refine Issues.bind ?_ fun _ => ?_
  · exact pruneLoop_issues (hevents _) id rounds
  · exact pruneLoop_issues (htombstones _) id rounds

theorem Started.settlesNone [LinearOrder I] {config : ClusterConfig} {site : Site I K C T}
    {program : SiteProg I K C Unit} (h : Started self config site program) :
    program.Issues (SettlesNone self) ∨
      ∃ batch,∃ pending∈site.node.listed,program=deliver config batch pending := by
  cases h with
  | operation hissues => exact Or.inl (hissues.embed fun _ h => h.settlesNone)
  | listing => exact Or.inl listPendingDeliveries_settlesNone
  | delivery batch hlisted => exact Or.inr ⟨batch,_,hlisted,rfl⟩
  | replay id => exact Or.inl ⟨trivial,fun _ => trivial⟩
  | pruning retention rounds =>
    exact Or.inl (pruneHistory_issues trivial (fun _ => trivial) (fun _ => trivial) _ _)

end Requests

end NebularOs.DeliveryWorker
