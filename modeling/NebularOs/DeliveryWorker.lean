import Mathlib
import NebularOs.ReplicatedNode

/-!
# Delivery of events and pruning of the log

The delivery worker takes a batch of due events from the log and pushes each to the peers
that should have it, until as many have it as the replication factor asks for. An event is
not sent where nothing is asked for, or where its key has a newer version; one that falls
short is sent again later. Another task removes finished events and old tombstones.

The deliveries of a batch share the peers they could not reach. Each delivery is a task of
its own, so those of one batch, and the operations of the node, interleave in any order.
-/

namespace NebularOs.DeliveryWorker

open BlobFilenames RequestPrograms TaskPools ReplicationLog ReplicatedNode Program List

/-- A peer of the registry. -/
structure PeerEntry where
  /-- Storage classes the peer takes; all of them where none is named. -/
  storageClasses : List Text
  /-- Replication group of the peer; any group where none is set. -/
  replicationGroup : Option Text
  deriving DecidableEq

/-- The peers of a node. -/
structure PeerRegistry where
  /-- Peers by their ids. -/
  peers : List (Text×PeerEntry)
  /-- Ids are read from a list that is separated by commas, and are not empty. -/
  plain : ∀ peer∈peers,PlainId peer.1
  /-- No id is listed twice. -/
  distinct : (peers.map Prod.fst).Nodup

/-- Peers matching storage class and replication group. -/
def PeerRegistry.peersForReplication (registry : PeerRegistry) (storageClass replicationGroup : Text) :
    List (Text×PeerEntry) :=
  registry.peers.filter fun peer =>
    (peer.2.storageClasses.isEmpty || peer.2.storageClasses.any fun c => c==storageClass) &&
      (peer.2.replicationGroup.map fun group => group==replicationGroup).getD true

/-- Configuration of a node, as far as deliveries use it. -/
structure ClusterConfig where
  /-- Id of the node itself. -/
  nodeId : Text
  /-- Nodes that should have each object, this one among them. -/
  replicationFactor : ℕ
  /-- Attempts after which an event is given up. -/
  replicationMaxAttempts : ℕ
  /-- Peers of the node. -/
  registry : PeerRegistry

namespace ClusterConfig

/-- Peers that still have to acknowledge an event that none has. -/
def needed (config : ClusterConfig) : ℕ := config.replicationFactor-1

/-- Peers an event may be sent to. -/
def targets {I K C : Type} (config : ClusterConfig) (event : Event I K C) : List Text :=
  ((config.registry.peersForReplication event.storageClass event.group).filter
    fun peer => peer.1!=config.nodeId).map Prod.fst

variable {I K C : Type} (config : ClusterConfig) (event : Event I K C)

theorem targets_nodup : (config.targets event).Nodup := by
  exact config.registry.distinct.sublist
    ((filter_sublist.trans filter_sublist).map Prod.fst)

theorem plainId_of_mem_targets {peer : Text} (h : peer∈config.targets event) : PlainId peer := by
  obtain ⟨entry,hentry,rfl⟩ := mem_map.mp h
  exact config.registry.plain entry (mem_of_mem_filter (mem_of_mem_filter hentry))

end ClusterConfig

/-- Outcome of a push. -/
inductive Pushed
  /-- The peer has acknowledged the event. -/
  | acknowledged
  /-- The peer could not be reached. -/
  | unreachable
  /-- The event failed. -/
  | failed
  deriving DecidableEq

/-- Requests of a node that delivers and prunes. -/
inductive SiteAction (I K C : Type)
  /-- A request of the node's operations. -/
  | request (a : Action I K C)
  /-- Sending an event to a peer. -/
  | push (peer : Text) (event : Event I K C)
  /-- Whether a peer could not be reached during a batch. -/
  | isUnreachable (batch : ℕ) (peer : Text)
  /-- A peer could not be reached during a batch. -/
  | setUnreachable (batch : ℕ) (peer : Text)
  /-- Reading the clock, in seconds. -/
  | timestamp
  /-- Removing some finished events made before a time. -/
  | pruneEvents (before : ℤ)
  /-- Forgetting some tombstones recorded before a time. -/
  | pruneTombstones (before : ℤ)

/-- Answers of the requests. -/
abbrev SiteAnswer {I K C : Type} : SiteAction I K C→Type
  | .request a => Answer a
  | .push _ _ => Pushed
  | .isUnreachable _ _ => Bool
  | .setUnreachable _ _ => Unit
  | .timestamp => ℤ
  | .pruneEvents _ | .pruneTombstones _ => ℕ

/-- What the scheduler picks: how an operation of the node goes, how a push ends, and which
rows a limited deletion takes. -/
inductive SiteChoice (I K : Type)
  | node (choice : Choice)
  | pushed (outcome : Pushed)
  | events (ids : List (I×ℕ))
  | tombstones (keys : List K)

/-- State of a node that delivers and prunes. -/
structure Site (I K C T : Type) where
  /-- The node. -/
  node : Node I K C T
  /-- Time at which the version of a key was recorded, in seconds. -/
  recordedAt : K→ℕ
  /-- Peers that could not be reached during each batch. -/
  unreachable : ℕ → List Text

/-- Tasks of a node whose runs are noted in a history. -/
abbrev SitePool (I K C T H : Type) := Pool (SiteAction I K C) SiteAnswer T (Site I K C T×H) Unit

/-- Rows a statement of the pruning removes at most. -/
def pruneBatch : ℕ := 5000

section Steps

variable {I K C T : Type} [DecidableEq I] [DecidableEq K]

/-- An event that pruning may remove. -/
def isPrunable (before : ℤ) (row : LogRow I K C) : Bool :=
  row.isFinished && decide (row.event.createdAt<before)

/-- A tombstone that pruning may remove. -/
def Site.isForgettable (site : Site I K C T) (before : ℤ) (key : K) : Bool :=
  (site.node.db.versions key).any KeyVersion.deleted && decide ((site.recordedAt key : ℤ)<before)

/-- Removing the finished events with some ids. -/
def pruned (db : Database I K C) (before : ℤ) (ids : List (I×ℕ)) : Database I K C :=
  {db with log := db.log.filter fun row => !(isPrunable before row && ids.contains row.event.id)}

/-- Forgetting the versions of some keys. -/
def forgotten (db : Database I K C) (keys : List K) : Database I K C :=
  {db with versions := fun key => if key∈keys then none else db.versions key}

/-- Key whose version a request has written, with the time of recording. -/
def storedKey (node : Node I K C T) : (a : Action I K C) → Answer a→Option K
  | .recordLocalChange key _ _ _,recorded => if (recorded : Bool) then some key else none
  | .recordRemoteChange key _,_ | .recordRestored key _,_ => some key
  | .storeIfAbsent key _ _,_ => if (node.db.versions key).isNone then some key else none
  | _,_ => none

/-- Times of recording after a request. They are read from the clock. -/
def stampedAt (site : Site I K C T) (a : Action I K C) (answer : Answer a) (choice : Choice) :
    Option (K→ℕ) :=
  match storedKey site.node a answer,choice with
  | none,_ => some site.recordedAt
  | some key,.clock stamp => some (Function.update site.recordedAt key (stamp.now/1000000))
  | some _,_ => none

/-- Outcomes of a request of a task on the node `self`. -/
def siteExec (self : I) (t : T) : (a : SiteAction I K C)→SiteChoice I K→Site I K C T →
    Option (SiteAnswer a×Site I K C T)
  | .request a,.node choice,site =>
    (exec self t a choice site.node).bind fun outcome =>
      (stampedAt site a outcome.1 choice).map fun recordedAt =>
        (outcome.1,{site with node := outcome.2,recordedAt := recordedAt})
  | .push _ _,.pushed outcome,site => some (outcome,site)
  | .isUnreachable batch peer,.node _,site => some ((site.unreachable batch).contains peer,site)
  | .setUnreachable batch peer,.node _,site =>
    some ((),{site with
      unreachable := Function.update site.unreachable batch (peer::site.unreachable batch)})
  | .timestamp,.node (.clock stamp),site => some ((stamp.createdAt : ℤ),site)
  | .pruneEvents before,.events ids,site =>
    -- The statement removes as many of the rows as the limit allows.
    let removed := site.node.db.log.countP fun row =>
      isPrunable before row && ids.contains row.event.id
    if removed=min pruneBatch (site.node.db.log.countP (isPrunable before)) then
      some (removed,{site with node := {site.node with db := pruned site.node.db before ids}})
    else none
  | .pruneTombstones before,.tombstones keys,site =>
    if keys.Nodup ∧ keys.length≤pruneBatch ∧ keys.all (site.isForgettable before) then
      some (keys.length,{site with node := {site.node with db := forgotten site.node.db keys}})
    else none
  | _,_,_ => none

/-- The machine of a node that delivers and prunes. -/
def siteMachine (self : I) : Machine (SiteAction I K C) SiteAnswer T (Site I K C T) (SiteChoice I K) :=
  ⟨siteExec self⟩

end Steps

section Programs

variable {I K C : Type} {α : Type}

/-- Programs of a node that delivers and prunes. -/
abbrev SiteProg (I K C α : Type) := Program (SiteAction I K C) SiteAnswer α

/-- An operation of the node. -/
def onSite (program : Prog I K C α) : SiteProg I K C α :=
  program.embed SiteAction.request fun _ answer => answer

/-- A single request. -/
def siteOp (a : SiteAction I K C) : SiteProg I K C (SiteAnswer a) := Program.request a

/-- An event that falls short: it is sent again later, or given up. -/
def markFailed (maxAttempts : ℕ) (id : I×ℕ) : Prog I K C Unit :=
  (op (.attempts id)).bind fun attempts => op (.recordFailure id (attempts+1) maxAttempts)

/-- Taking the due events from the log. Those that failed before are pending again. -/
def listPendingDeliveries : Prog I K C Unit :=
  (op .listPendingDeliveries).bind fun rows =>
  Program.forEach rows fun row =>
    if row.status==.failed then op (.setStatus row.event.id .pending) else .done ()

/-- Pushing an event to the peers of a list that do not have it, until enough have it.
The answer counts those that have it. -/
def pushTo (config : ClusterConfig) (batch : ℕ) (pending : PendingDelivery I K C) :
    List Text→ℕ→SiteProg I K C ℕ
  | [],delivered => .done delivered
  | peer::peers,delivered =>
    if config.needed≤delivered then .done delivered
    else if pending.deliveredTo.contains peer then pushTo config batch pending peers delivered
    else
      (siteOp (.isUnreachable batch peer)).bind fun skipped =>
      if skipped then pushTo config batch pending peers delivered
      else
        (siteOp (.push peer pending.event)).bind fun outcome =>
        match outcome with
        | .acknowledged =>
          (onSite (op (.markDelivered pending.event.id peer))).bind fun _ =>
          pushTo config batch pending peers (delivered+1)
        | .unreachable =>
          (siteOp (.setUnreachable batch peer)).bind fun _ =>
          pushTo config batch pending peers delivered
        | .failed => pushTo config batch pending peers delivered

/-- Peers among the targets that have an event already. -/
def deliveredCount (config : ClusterConfig) (pending : PendingDelivery I K C) : ℕ :=
  (config.targets pending.event).countP fun peer => pending.deliveredTo.contains peer

/-- Sending one event to the peers still missing it, or settling it without sending. -/
def deliver [LinearOrder I] (config : ClusterConfig) (batch : ℕ) (pending : PendingDelivery I K C) :
    SiteProg I K C Unit :=
  let event := pending.event
  if config.needed=0 then onSite (op (.setStatus event.id .sent))
  else
    (onSite (op (.keyVersion event.key))).bind fun current =>
    if current.any fun state => decide (event.effectiveVersion<state.version) then
      onSite (op (.setStatus event.id .superseded))
    else if (config.targets event).isEmpty then
      onSite (markFailed config.replicationMaxAttempts event.id)
    else
      (pushTo config batch pending (config.targets event) (deliveredCount config pending)).bind
        fun delivered =>
      if config.needed≤delivered then onSite (op (.setStatus event.id .sent))
      else onSite (markFailed config.replicationMaxAttempts event.id)

/-- Removing batches of rows until one comes back short. -/
def pruneLoop (removal : SiteAction I K C) (removed : SiteAnswer removal→ℕ) :
    ℕ→SiteProg I K C Unit
  | 0 => .done ()
  | rounds+1 => (siteOp removal).bind fun answer =>
    if removed answer<pruneBatch then .done () else pruneLoop removal removed rounds

/-- Dropping finished events and tombstones that are older than a number of seconds, as far
as a number of rounds goes. -/
def pruneHistory (retention : ℤ) (rounds : ℕ) : SiteProg I K C Unit :=
  (siteOp .timestamp).bind fun now =>
  (pruneLoop (.pruneEvents (now-retention)) id rounds).bind fun _ =>
  pruneLoop (.pruneTombstones (now-retention)) id rounds

end Programs

section Runs

variable {I K C T : Type}

/-- Events of peers that a request keeps are not named as this node's own. -/
def Foreign (self : I) : Action I K C→Prop
  | .recordRemoteChange _ event | .recordApplied event => event.id.1≠self
  | _ => True

/-- Statements on the log that only deliveries, listings and replays run. -/
def isStatement : Action I K C→Bool
  | .listPendingDeliveries | .setStatus _ _ | .markDelivered _ _ | .attempts _
  | .recordFailure _ _ _ | .replayDeadLetter _ => true
  | _ => false

/-- Requests of the other operations of the node. -/
def Ordinary (self : I) (a : Action I K C) : Prop := Foreign self a ∧ isStatement a=false

/-- Programs that may be started on a node. -/
inductive Started [LinearOrder I] (self : I) (config : ClusterConfig) (site : Site I K C T) :
    SiteProg I K C Unit→Prop
  /-- Local changes, changes of peers, repairs and backfills. -/
  | operation {program : Prog I K C Unit} (hissues : program.Issues (Ordinary self)) :
      Started self config site (onSite program)
  /-- The beginning of a batch. -/
  | listing : Started self config site (onSite listPendingDeliveries)
  /-- A delivery of a batch. -/
  | delivery (batch : ℕ) {pending : PendingDelivery I K C} (hlisted : pending∈site.node.listed) :
      Started self config site (deliver config batch pending)
  /-- The replay of an event that was given up. -/
  | replay (id : I×ℕ) : Started self config site (onSite (op (.replayDeadLetter id)))
  /-- A pruning. -/
  | pruning (retention : ℤ) (rounds : ℕ) : Started self config site (pruneHistory retention rounds)

/-- A node whose process was started again. -/
def restarted (site : Site I K C T) : Site I K C T :=
  ⟨{site.node with holder := fun _ => none,listed := []},site.recordedAt,fun _ => []⟩

/-- Runs of a node with one configuration. -/
def siteRules [LinearOrder I] (self : I) (config : ClusterConfig) :
    Rules (SiteAction I K C) SiteAnswer (Site I K C T) Unit where
  starts := Started self config
  environment _ _ := False
  crash site site' := site'=restarted site

end Runs

end NebularOs.DeliveryWorker
