import Mathlib
import NebularOs.BlobPaths
import NebularOs.Chunks
import NebularOs.Listing
import NebularOs.PagedRemoval

/-!
# Deleting every key under a prefix

A deletion by prefix removes one page of keys and names the key to start after
next. In an assigned cluster the node asked passes the request on to its peers
and merges their answers: the counts are added, and the first node that has more
gives the key for all of them.
-/

namespace NebularOs.PrefixDeletion

open BlobFilenames BlobPaths EngineState OrderedRows Listing Chunks PagedRemoval List

/-- Errors of the checks made on a request. -/
inductive RequestError
  | invalidBucket
  | invalidKey
  deriving DecidableEq

/-- Bucket names the server accepts. -/
def sanitizeBucket (bucket : Text) : Except String Text :=
  if bucket.isEmpty then .error "bucket cannot be empty"
  else if bucket.head? == some '.' || (bucket.contains '/' || bucket.contains '\\') ||
      bucket.any (fun ch => decide (ch.toNat<0x20 ∨ (0x7F ≤ ch.toNat ∧ ch.toNat<0xA0))) ||
      decide (255<(utf8 bucket).length) then .error "invalid bucket name"
  else if decide (['.', '.']<:+:bucket) then .error "invalid bucket name"
  else if hasDriveLetter bucket then .error "invalid bucket name"
  else .ok bucket

/-- A key that a deletion could not remove. -/
structure DeletePrefixFailure where
  /-- The key, or the peer that did not answer. -/
  key : Text
  /-- What went wrong. -/
  error : Text
  deriving DecidableEq

/-- A key that a deletion removed. -/
structure DeletedObjectRef where
  /-- The key. -/
  key : Text
  /-- Storage class of the object. -/
  storageClass : Option Text
  deriving DecidableEq

/-- What a deletion by prefix answers. -/
structure DeletePrefixOutcome where
  /-- How many keys were removed. -/
  deleted : ℕ
  /-- Keys that could not be removed. -/
  failed : List DeletePrefixFailure
  /-- Whether keys under the prefix may be left. -/
  truncated : Bool
  /-- Key to start the next call after. -/
  nextStartAfter : Option Text
  /-- Keys that were removed. -/
  deletedObjects : List DeletedObjectRef
  deriving DecidableEq

/-- An outcome before anything was deleted. -/
def DeletePrefixOutcome.none : DeletePrefixOutcome := ⟨0,[],false,.none,[]⟩

/-- Keys whose locks and metadata updates are taken together. -/
def bulkDeleteChunk : ℕ := 64

/-- A node that keeps its objects in a metadata table. -/
structure Node where
  /-- The objects table. -/
  table : ObjectTable Char
  /-- Most keys of one deletion. -/
  bulkDeleteBatchLimit : ℕ
  /-- How long deleted rows are kept; not at all unless positive. -/
  softDeleteTtlSecs : ℤ
  /-- The limit was clamped when the node started. -/
  clamped : 1≤bulkDeleteBatchLimit ∧ bulkDeleteBatchLimit≤10000

/-- What a call meets outside of the tables. -/
structure CallEnv where
  /-- Time of an update of some keys on a node. -/
  now : Text → List Text→ℤ
  /-- Error of an update of some keys on a node. -/
  updateError : Text → List Text→Option Text
  /-- Error of reaching a peer. -/
  unreachable : Text→Option Text
  /-- Error that a refused request is reported with. -/
  refused : RequestError→Text

/-- Removing the row of a key. -/
def hardDeleteRow (bucket : Text) (table : ObjectTable Char) (key : Text) : ObjectTable Char where
  rows := table.rows.erase (bucket,key)
  named := fun entry hentry => table.named entry ((kerase_sublist _ _).subset hentry)

/-- A table in which the row of an existing key is replaced. -/
def replaceRow (table : ObjectTable Char) (bucket key : Text) (old new : ObjectMetadata)
    (hrow : table.rows.lookup (bucket,key)=some old) : ObjectTable Char where
  rows := table.rows.insert (bucket,key) new
  named := by
    intro entry hentry
    rw [AList.entries_insert] at hentry
    rcases mem_cons.mp hentry with rfl | hother
    · exact table.named ⟨(bucket,key),old⟩ (AList.mem_lookup_iff.mp hrow)
    · exact table.named entry ((kerase_sublist _ _).subset hother)

/-- Marking the row of a key as deleted, if it is active. -/
def softDeleteRow (bucket : Text) (now : ℤ) (table : ObjectTable Char) (key : Text) :
    ObjectTable Char :=
  match hrow : table.rows.lookup (bucket,key) with
  | some row =>
    if row.isActive then replaceRow table bucket key row { row with deletedAt := some now } hrow
    else table
  | none => table

/-- Removing the rows of some keys in one transaction. -/
def hardDeleteObjects (table : ObjectTable Char) (bucket : Text) (keys : List Text) :
    ObjectTable Char :=
  keys.foldl (hardDeleteRow bucket) table

/-- Marking the rows of some keys as deleted in one transaction. -/
def softDeleteObjects (table : ObjectTable Char) (bucket : Text) (keys : List Text) (now : ℤ) :
    ObjectTable Char :=
  keys.foldl (softDeleteRow bucket now) table

/-- Deleting the keys of one chunk: the metadata first, and a failed update is
reported for each key. -/
def deleteChunk (env : CallEnv) (nodeId : Text) (softDeleteTtlSecs : ℤ) (bucket : Text)
    (progress : DeletePrefixOutcome×ObjectTable Char) (chunk : List DeletedObjectRef) :
    DeletePrefixOutcome×ObjectTable Char :=
  let (outcome,table) := progress
  let keys := chunk.map DeletedObjectRef.key
  match env.updateError nodeId keys with
  | some error =>
    ({ outcome with failed := outcome.failed++keys.map fun key => ⟨key,error⟩ },table)
  | none =>
    ({ outcome with
        deleted := outcome.deleted+keys.length
        deletedObjects := outcome.deletedObjects++chunk },
      if softDeleteTtlSecs≤0 then hardDeleteObjects table bucket keys
      else softDeleteObjects table bucket keys (env.now nodeId keys))

/-- Deleting keys chunk by chunk. -/
def deleteObjectsInternal (env : CallEnv) (nodeId : Text) (node : Node) (bucket : Text)
    (pending : List DeletedObjectRef) : DeletePrefixOutcome×Node :=
  let (outcome,table) := (chunks bulkDeleteChunk pending).foldl
    (deleteChunk env nodeId node.softDeleteTtlSecs bucket) (.none,node.table)
  (outcome,{ node with table := table })

/-- Keys of one call: the limit asked for, within what the node allows. -/
def batchLimit (node : Node) (limit : Option ℕ) : ℕ :=
  max (min (limit.getD node.bulkDeleteBatchLimit) node.bulkDeleteBatchLimit) 1

/-- One page of a deletion on a node that keeps a metadata table. -/
def deletePage (env : CallEnv) (nodeId : Text) (node : Node) (bucket keyPrefix : Text)
    (limit : ℕ) (startAfter : Text) : DeletePrefixOutcome×Node :=
  let rows := listActiveRows node.table bucket startAfter keyPrefix (limit+1)
  let truncated := decide (limit < rows.length)
  let page := rows.take limit
  let nextStartAfter := if truncated then page.getLast?.map ListedRow.key else none
  if page.isEmpty then (.none,node)
  else
    let pending := page.map fun row => (⟨row.key,row.row.storageClass⟩ : DeletedObjectRef)
    let (outcome,node) := deleteObjectsInternal env nodeId node bucket pending
    ({ outcome with truncated := truncated, nextStartAfter := nextStartAfter },node)

/-- Deletion by prefix on one node. -/
def deleteLocal (env : CallEnv) (nodeId : Text) (node : Node) (bucket keyPrefix : Text)
    (limit : Option ℕ) (startAfter : Option Text) :
    Except RequestError (DeletePrefixOutcome×Node) :=
  match sanitizeBucket bucket with
  | .error _ => .error .invalidBucket
  | .ok bucket =>
    if keyPrefix.isEmpty then .error .invalidKey
    else match sanitizeKey keyPrefix with
      | .error _ => .error .invalidKey
      | .ok safePrefix => .ok (deletePage env nodeId node bucket safePrefix (batchLimit node limit)
          (startAfter.getD []))

/-- Another node of the cluster, as the registry names it. -/
structure Peer where
  /-- Its name. -/
  peerId : Text
  /-- Its state. -/
  node : Node

/-- An assigned cluster, as the node sees it that a client asks. -/
structure Cluster where
  /-- Name of the node. -/
  nodeId : Text
  /-- Its state. -/
  node : Node
  /-- Nodes in its registry, in the order in which the registry is walked. -/
  peers : List Peer

/-- How a request came in. -/
structure WriteContext where
  /-- Another node passed it on. -/
  isForwarded : Bool
  /-- It carries a token that can be passed on. -/
  carriesBearer : Bool

/-- Adding a peer's answer. The key to start after next is that of the first
answer that has one. -/
def mergeDeleteOutcome (own remote : DeletePrefixOutcome) : DeletePrefixOutcome where
  deleted := own.deleted+remote.deleted
  failed := own.failed++remote.failed
  truncated := own.truncated || remote.truncated
  nextStartAfter := if own.nextStartAfter.isNone then remote.nextStartAfter else own.nextStartAfter
  deletedObjects := own.deletedObjects++remote.deletedObjects

/-- Reporting a peer as failed. -/
def failPeer (outcome : DeletePrefixOutcome) (peerId error : Text) : DeletePrefixOutcome :=
  { outcome with failed := outcome.failed++[⟨['p','e','e','r',':']++peerId,error⟩] }

/-- Asking the peers one after the other. A peer's answer does not carry the keys
it removed. -/
def askPeers (env : CallEnv) (nodeId bucket keyPrefix : Text) (limit : Option ℕ)
    (startAfter : Option Text) :
    List Peer→DeletePrefixOutcome→DeletePrefixOutcome×List Peer
  | [],outcome => (outcome,[])
  | peer::peers,outcome =>
    let (outcome,peer) :=
      if peer.peerId=nodeId then (outcome,peer)
      else match env.unreachable peer.peerId with
        | some error => (failPeer outcome peer.peerId error,peer)
        | none => match deleteLocal env peer.peerId peer.node bucket keyPrefix limit startAfter with
          | .ok (remote,node) =>
            (mergeDeleteOutcome outcome { remote with deletedObjects := [] },{ peer with node := node })
          | .error e => (failPeer outcome peer.peerId (env.refused e),peer)
    let (outcome,peers) := askPeers env nodeId bucket keyPrefix limit startAfter peers outcome
    (outcome,peer::peers)

/-- The error of peers that a request cannot be passed on to. -/
def notAsked : Text :=
  "not asked: only requests with a bearer token can be passed on to other nodes".toList

/-- Passing a deletion on to the other nodes. -/
def fanoutDeletePrefix (env : CallEnv) (cluster : Cluster) (outcome : DeletePrefixOutcome)
    (bucket keyPrefix : Text) (limit : Option ℕ) (startAfter : Option Text) (ctx : WriteContext) :
    DeletePrefixOutcome×Cluster :=
  if ctx.isForwarded then (outcome,cluster)
  else if !ctx.carriesBearer then
    ((cluster.peers.filter fun peer => decide (peer.peerId≠cluster.nodeId)).foldl
      (fun outcome peer => failPeer outcome peer.peerId notAsked) outcome,cluster)
  else
    let (outcome,peers) :=
      askPeers env cluster.nodeId bucket keyPrefix limit startAfter cluster.peers outcome
    (outcome,{ cluster with peers := peers })

/-- Deletion by prefix in an assigned cluster. -/
def deleteObjectsByPrefix (env : CallEnv) (cluster : Cluster) (bucket keyPrefix : Text)
    (limit : Option ℕ) (startAfter : Option Text) (ctx : WriteContext) :
    Except RequestError (DeletePrefixOutcome×Cluster) :=
  match deleteLocal env cluster.nodeId cluster.node bucket keyPrefix limit startAfter with
  | .error e => .error e
  | .ok (outcome,node) => .ok (fanoutDeletePrefix env { cluster with node := node } outcome bucket
      keyPrefix limit startAfter ctx)

section Tables

variable {table : ObjectTable Char} {bucket keyPrefix key : Text}

/-- Whether a key has an active row. -/
def isActiveKey (table : ObjectTable Char) (bucket key : Text) : Bool :=
  (table.rows.lookup (bucket,key)).any ObjectMetadata.isActive

/-- Active keys under a prefix, in growing order. -/
def underKeys (table : ObjectTable Char) (bucket keyPrefix : Text) : List Text :=
  (underRows table bucket keyPrefix).map ListedRow.key

theorem underKeys_ascending (table : ObjectTable Char) (bucket keyPrefix : Text) :
    (underKeys table bucket keyPrefix).Pairwise (· < ·) :=
  pairwise_map.mpr (underRows_ascending table bucket keyPrefix)

theorem mem_activeRows {row : ListedRow Char} : row∈activeRows table bucket ↔
    table.rows.lookup (bucket,row.key)=some row.row ∧ row.row.isActive=true := by
  unfold activeRows
  rw [mem_filterMap]
  constructor
  · rintro ⟨entry,hentry,hsome⟩
    split at hsome
    · rename_i hactive
      cases hsome
      refine ⟨AList.mem_lookup_iff.mpr ?_,hactive.2⟩
      rwa [← hactive.1]
    · cases hsome
  · rintro ⟨hrow,hactive⟩
    exact ⟨⟨(bucket,row.key),row.row⟩,AList.mem_lookup_iff.mp hrow,if_pos ⟨rfl,hactive⟩⟩

theorem mem_underKeys : key∈underKeys table bucket keyPrefix ↔
    isActiveKey table bucket key=true ∧ keyPrefix<+:key := by
  unfold underKeys isActiveKey
  rw [mem_map,Option.any_eq_true]
  constructor
  · rintro ⟨row,hrow,rfl⟩
    obtain ⟨hactive,hunder⟩ := mem_underRows.mp hrow
    obtain ⟨hlookup,hactive⟩ := mem_activeRows.mp hactive
    exact ⟨⟨row.row,hlookup,hactive⟩,hunder⟩
  · rintro ⟨⟨row,hlookup,hactive⟩,hunder⟩
    exact ⟨⟨key,row⟩,mem_underRows.mpr ⟨mem_activeRows.mpr ⟨hlookup,hactive⟩,hunder⟩,rfl⟩

theorem isActiveKey_hardDeleteRow (gone : Text) :
    isActiveKey (hardDeleteRow bucket table gone) bucket key=true ↔
      isActiveKey table bucket key=true ∧ key≠gone := by
  unfold isActiveKey hardDeleteRow
  by_cases hsame : key=gone
  · subst hsame
    simp
  · have hne : (bucket,key)≠(bucket,gone) := fun h => hsame (Prod.mk.inj h).2
    simp only [AList.lookup_erase_ne hne,ne_eq,hsame,not_false_eq_true,and_true]

theorem isActiveKey_softDeleteRow (gone : Text) (now : ℤ) :
    isActiveKey (softDeleteRow bucket now table gone) bucket key=true ↔
      isActiveKey table bucket key=true ∧ key≠gone := by
  have hother : ∀ row : ObjectMetadata,key≠gone →
      (table.rows.insert (bucket,gone) row).lookup (bucket,key)=table.rows.lookup (bucket,key) :=
    fun row hne => AList.lookup_insert_ne fun h => hne (Prod.mk.inj h).2
  unfold softDeleteRow
  split
  · rename_i row hrow
    by_cases hsame : key=gone
    · subst hsame
      split
      · simp [isActiveKey,replaceRow,ObjectMetadata.isActive]
      · rename_i hinactive
        simp [isActiveKey,hrow,hinactive]
    · split
      · simp only [isActiveKey,replaceRow,hother _ hsame,ne_eq,hsame,not_false_eq_true,and_true]
      · simp [hsame]
  · rename_i hrow
    by_cases hsame : key=gone
    · subst hsame
      simp [isActiveKey,hrow]
    · simp [hsame]

theorem isActiveKey_foldl {remove : ObjectTable Char→Text→ObjectTable Char}
    (hremove : ∀ table gone,isActiveKey (remove table gone) bucket key=true ↔
      isActiveKey table bucket key=true ∧ key≠gone) (gone : List Text) (table : ObjectTable Char) :
    isActiveKey (gone.foldl remove table) bucket key=true ↔
      isActiveKey table bucket key=true ∧ key∉gone := by
  induction gone generalizing table with
  | nil => simp
  | cons first gone ih =>
    rw [foldl_cons,ih,hremove,mem_cons]
    tauto

theorem deleteChunk_active {env : CallEnv} {nodeId : Text} {ttl : ℤ}
    (hupdates : ∀ keys,env.updateError nodeId keys=none)
    (progress : DeletePrefixOutcome×ObjectTable Char) (chunk : List DeletedObjectRef) :
    isActiveKey (deleteChunk env nodeId ttl bucket progress chunk).2 bucket key=true ↔
      isActiveKey progress.2 bucket key=true ∧ key∉chunk.map DeletedObjectRef.key := by
  unfold deleteChunk
  simp only [hupdates]
  split
  · exact isActiveKey_foldl (fun table gone => isActiveKey_hardDeleteRow gone) _ _
  · exact isActiveKey_foldl (fun table gone => isActiveKey_softDeleteRow gone _) _ _

theorem deleteObjectsInternal_active {env : CallEnv} {nodeId : Text} {node : Node}
    (hupdates : ∀ keys,env.updateError nodeId keys=none) (pending : List DeletedObjectRef) :
    isActiveKey (deleteObjectsInternal env nodeId node bucket pending).2.table bucket key=true ↔
      isActiveKey node.table bucket key=true ∧ key∉pending.map DeletedObjectRef.key := by
  have hrun : ∀ (pieces : List (List DeletedObjectRef))
      (progress : DeletePrefixOutcome×ObjectTable Char),
      isActiveKey (pieces.foldl (deleteChunk env nodeId node.softDeleteTtlSecs bucket) progress).2
        bucket key=true ↔ isActiveKey progress.2 bucket key=true ∧
          key∉pieces.flatten.map DeletedObjectRef.key := by
    intro pieces
    induction pieces with
    | nil => simp
    | cons piece pieces ih =>
      intro progress
      rw [foldl_cons,ih,deleteChunk_active hupdates,flatten_cons,map_append,
        mem_append]
      tauto
  have hwhole := hrun (chunks bulkDeleteChunk pending) (.none,node.table)
  rwa [chunks_flatten (by decide : 0<bulkDeleteChunk)] at hwhole

end Tables

section Pages

variable {env : CallEnv} {nodeId bucket keyPrefix : Text} {node : Node} {limit : Option ℕ}
  {startAfter : Option Text}

/-- What a deletion sees of a node: its keys under the prefix and how many of them
one call takes. -/
def Node.part (bucket keyPrefix : Text) (limit : Option ℕ) (node : Node) : KeyPart Text where
  limit := batchLimit node limit
  keys := underKeys node.table bucket keyPrefix
  positive := Nat.lt_of_lt_of_le Nat.zero_lt_one (Nat.le_max_right _ _)
  ascending := underKeys_ascending _ _ _

theorem rowsAfter_keys (table : ObjectTable Char) (startAfter : Option Text) :
    (rowsAfter (underRows table bucket keyPrefix) startAfter).map ListedRow.key=
      behind startAfter (underKeys table bucket keyPrefix) := by
  cases startAfter with
  | none =>
    rw [rowsAfter_none]
    refine (behind_eq_self fun last hlast => ?_).symm
    cases hlast
  | some last =>
    unfold rowsAfter behind underKeys
    rw [filter_map]
    congr 1
    refine filter_congr fun row _ => ?_
    rw [Function.comp_apply,Option.all_some,Option.getD_some,decide_eq_decide]

/-- What a page of a deletion makes of a node. -/
structure PageSpec (startAfter : Option Text) (before after : KeyPart Text)
    (outcome : DeletePrefixOutcome) : Prop where
  /-- The first keys behind the start are gone. -/
  swept : after=before.swept startAfter
  /-- The page says whether keys are left behind it. -/
  truncated : outcome.truncated=before.more startAfter
  /-- The page names its last key if keys are left behind it. -/
  next : outcome.nextStartAfter=
    if before.more startAfter then (before.page startAfter).getLast? else none

/-- One page of a deletion. -/
theorem deletePage_spec (hupdates : ∀ keys,env.updateError nodeId keys=none) :
    PageSpec startAfter (node.part bucket keyPrefix limit)
      ((deletePage env nodeId node bucket keyPrefix (batchLimit node limit)
        (startAfter.getD [])).2.part bucket keyPrefix limit)
      (deletePage env nodeId node bucket keyPrefix (batchLimit node limit)
        (startAfter.getD [])).1 := by
  set count := batchLimit node limit with hcount
  set part := node.part bucket keyPrefix limit with hpart
  set rows := rowsAfter (underRows node.table bucket keyPrefix) startAfter with hrows
  have hpositive : 0<count := part.positive
  have hkeys : rows.map ListedRow.key=behind startAfter part.keys := rowsAfter_keys _ _
  have hlisted : listActiveRows node.table bucket (startAfter.getD []) keyPrefix (count+1)=
      rows.take (count+1) := by
    rw [listActiveRows_eq,limitRows,if_neg (by omega)]
    rfl
  have htake : (rows.take (count+1)).take count=rows.take count := by
    rw [take_take,Nat.min_eq_left (Nat.le_succ _)]
  have hmore : decide (count<(rows.take (count+1)).length)=part.more startAfter := by
    unfold KeyPart.more
    rw [← hkeys,length_map,length_take,decide_eq_decide]
    change _ ↔ count<_
    omega
  have hpage : (rows.take count).map ListedRow.key=part.page startAfter := by
    unfold KeyPart.page
    rw [← hkeys,← map_take]
    rfl
  unfold deletePage
  simp only [hlisted,htake,hmore]
  split
  · rename_i hempty
    have hnone : part.page startAfter=[] := by
      rw [← hpage,isEmpty_iff.mp hempty]
      rfl
    have hnomore : part.more startAfter=false := by
      cases hmany : part.more startAfter with
      | false => rfl
      | true =>
        obtain ⟨last,hlast,_⟩ := part.exists_page_last hmany
        rw [hnone] at hlast
        cases hlast
    refine ⟨?_,hnomore.symm,?_⟩
    · refine KeyPart.ext_of_mem rfl fun key => ?_
      rw [KeyPart.mem_swept,hnone]
      simp only [not_mem_nil,not_false_eq_true,and_true]
      rfl
    · rw [hnomore]
      rfl
  · set pending := (rows.take count).map fun row =>
      (⟨row.key,row.row.storageClass⟩ : DeletedObjectRef) with hpending
    have hgone : pending.map DeletedObjectRef.key=part.page startAfter := by
      rw [← hpage,hpending,map_map]
      rfl
    refine ⟨?_,rfl,?_⟩
    · have hactive : ∀ key,
          isActiveKey (deleteObjectsInternal env nodeId node bucket pending).2.table bucket key=true ↔
            isActiveKey node.table bucket key=true ∧ key∉part.page startAfter := by
        intro key
        rw [← hgone]
        exact deleteObjectsInternal_active hupdates pending
      refine KeyPart.ext_of_mem rfl fun key => ?_
      rw [KeyPart.mem_swept]
      change key∈underKeys _ bucket keyPrefix ↔ key∈underKeys _ bucket keyPrefix ∧ _
      rw [mem_underKeys,mem_underKeys,hactive key]
      tauto
    · rw [← hpage,List.getLast?_map]

theorem deleteLocal_spec {rawPrefix : Text} (hupdates : ∀ keys,env.updateError nodeId keys=none)
    (hbucket : sanitizeBucket bucket=.ok bucket) (hkeyPrefix : sanitizeKey rawPrefix=.ok keyPrefix) :
    ∃ outcome node',deleteLocal env nodeId node bucket rawPrefix limit startAfter=
        .ok (outcome,node') ∧
      PageSpec startAfter (node.part bucket keyPrefix limit) (node'.part bucket keyPrefix limit)
        outcome := by
  have hnonempty : rawPrefix.isEmpty=false := by
    cases rawPrefix with
    | nil => cases hkeyPrefix
    | cons letter word => rfl
  refine ⟨_,_,?_,deletePage_spec hupdates⟩
  unfold deleteLocal
  rw [hbucket]
  rw [hnonempty,hkeyPrefix]
  rfl

end Pages

section Clusters

variable {env : CallEnv} {nodeId bucket keyPrefix rawPrefix : Text} {limit : Option ℕ}
  {startAfter : Option Text} {ctx : WriteContext} {cluster final : Cluster}

/-- A call that meets no error: every peer answers and every update is made. -/
structure CallEnv.Sound (env : CallEnv) : Prop where
  /-- Updates are made. -/
  updates : ∀ nodeId keys,env.updateError nodeId keys=none
  /-- Peers answer. -/
  answered : ∀ peerId,env.unreachable peerId=none

/-- The nodes that a request reaches. -/
def Cluster.reached (cluster : Cluster) : List Node :=
  cluster.node::(cluster.peers.filter fun peer => decide (peer.peerId≠cluster.nodeId)).map Peer.node

/-- What a deletion sees of the peers. -/
def peerParts (nodeId bucket keyPrefix : Text) (limit : Option ℕ) (peers : List Peer) :
    List (KeyPart Text) :=
  (peers.filter fun peer => decide (peer.peerId≠nodeId)).map fun peer =>
    peer.node.part bucket keyPrefix limit

/-- What a deletion sees of the cluster. -/
def Cluster.parts (bucket keyPrefix : Text) (limit : Option ℕ) (cluster : Cluster) :
    List (KeyPart Text) :=
  cluster.reached.map (Node.part bucket keyPrefix limit)

theorem Cluster.parts_eq (cluster : Cluster) : cluster.parts bucket keyPrefix limit=
    cluster.node.part bucket keyPrefix limit::
      peerParts cluster.nodeId bucket keyPrefix limit cluster.peers := by
  unfold Cluster.parts Cluster.reached peerParts
  rw [map_cons,map_map]
  rfl

/-- A merged answer of some nodes: whether one of them has more, and the key that
the first of those names. -/
structure Answers (startAfter : Option Text) (parts : List (KeyPart Text))
    (outcome : DeletePrefixOutcome) : Prop where
  /-- Whether a node has more. -/
  truncated : outcome.truncated=parts.any (KeyPart.more startAfter)
  /-- The first such node gives the key. -/
  next : outcome.nextStartAfter=leadEnd startAfter parts

theorem PageSpec.answers {before after : KeyPart Text} {outcome : DeletePrefixOutcome}
    (h : PageSpec startAfter before after outcome) : Answers startAfter [before] outcome := by
  refine ⟨?_,?_⟩
  · rw [h.truncated,any_cons,any_nil,Bool.or_false]
  · have hlead := @leadEnd_append_singleton Text _ [] startAfter before
    rw [nil_append] at hlead
    rw [h.next,hlead]
    rfl

theorem Answers.merge {parts : List (KeyPart Text)} {before after : KeyPart Text}
    {outcome remote : DeletePrefixOutcome} (h : Answers startAfter parts outcome)
    (hremote : PageSpec startAfter before after remote) : Answers startAfter (parts++[before])
      (mergeDeleteOutcome outcome { remote with deletedObjects := [] }) := by
  refine ⟨?_,?_⟩
  · rw [any_append,any_cons,any_nil,Bool.or_false,← h.truncated,← hremote.truncated]
    rfl
  · rw [leadEnd_append_singleton,← h.next,← hremote.next]
    rfl

/-- Asking the peers sweeps each of them and merges their answers. -/
theorem askPeers_spec (hsound : env.Sound) (hbucket : sanitizeBucket bucket=.ok bucket)
    (hkeyPrefix : sanitizeKey rawPrefix=.ok keyPrefix) (peers : List Peer)
    {asked : List (KeyPart Text)} {outcome : DeletePrefixOutcome}
    (h : Answers startAfter asked outcome) :
    Answers startAfter (asked++peerParts nodeId bucket keyPrefix limit peers)
        (askPeers env nodeId bucket rawPrefix limit startAfter peers outcome).1 ∧
      peerParts nodeId bucket keyPrefix limit
          (askPeers env nodeId bucket rawPrefix limit startAfter peers outcome).2=
        (peerParts nodeId bucket keyPrefix limit peers).map (KeyPart.swept startAfter) := by
  induction peers generalizing asked outcome with
  | nil =>
    refine ⟨?_,rfl⟩
    simp only [peerParts,filter_nil,map_nil,append_nil]
    exact h
  | cons peer peers ih =>
    by_cases hself : peer.peerId=nodeId
    · -- The registry's entry for the node itself is passed over.
      obtain ⟨hanswers,hswept⟩ := ih h
      have hskip : ∀ others : List Peer,peerParts nodeId bucket keyPrefix limit (peer::others)=
          peerParts nodeId bucket keyPrefix limit others := by
        intro others
        simp [peerParts,hself]
      simp only [askPeers,if_pos hself]
      rw [hskip,hskip]
      exact ⟨hanswers,hswept⟩
    · obtain ⟨remote,node,hcall,hpage⟩ := @deleteLocal_spec env peer.peerId bucket keyPrefix
        peer.node limit startAfter rawPrefix (hsound.updates peer.peerId) hbucket hkeyPrefix
      obtain ⟨hanswers,hswept⟩ := ih (h.merge hpage)
      have htake : ∀ (state : Node) (others : List Peer),
          peerParts nodeId bucket keyPrefix limit (⟨peer.peerId,state⟩::others)=
            state.part bucket keyPrefix limit::peerParts nodeId bucket keyPrefix limit others := by
        intro state others
        simp [peerParts,hself]
      simp only [askPeers,if_neg hself,hsound.answered,hcall]
      rw [htake node,htake peer.node,hswept,hpage.swept]
      rw [append_assoc,singleton_append] at hanswers
      exact ⟨hanswers,rfl⟩

theorem deleteObjectsByPrefix_spec (hsound : env.Sound) (hbucket : sanitizeBucket bucket=.ok bucket)
    (hkeyPrefix : sanitizeKey rawPrefix=.ok keyPrefix) (hctx : ctx=⟨false,true⟩) :
    ∃ outcome cluster',deleteObjectsByPrefix env cluster bucket rawPrefix limit startAfter ctx=
        .ok (outcome,cluster') ∧ Answers startAfter (cluster.parts bucket keyPrefix limit) outcome ∧
      cluster'.parts bucket keyPrefix limit=
        (cluster.parts bucket keyPrefix limit).map (KeyPart.swept startAfter) := by
  obtain ⟨outcome,node,hcall,hpage⟩ := @deleteLocal_spec env cluster.nodeId bucket keyPrefix
    cluster.node limit startAfter rawPrefix (hsound.updates cluster.nodeId) hbucket hkeyPrefix
  obtain ⟨hanswers,hswept⟩ := @askPeers_spec env cluster.nodeId bucket keyPrefix rawPrefix limit
    startAfter hsound hbucket hkeyPrefix cluster.peers _ _ hpage.answers
  refine ⟨(askPeers env cluster.nodeId bucket rawPrefix limit startAfter cluster.peers outcome).1,
    ⟨cluster.nodeId,node,
      (askPeers env cluster.nodeId bucket rawPrefix limit startAfter cluster.peers outcome).2⟩,
    ?_,?_,?_⟩
  · unfold deleteObjectsByPrefix
    rw [hcall,hctx]
    rfl
  · rwa [cluster.parts_eq]
  · rw [cluster.parts_eq,Cluster.parts_eq,map_cons,← hswept,← hpage.swept]

/-- Calls of a client that passes each returned key to the next call, until no node
has more. -/
inductive DeletesAll (bucket rawPrefix : Text) (limit : Option ℕ) (ctx : WriteContext) :
    Cluster→Option Text→Cluster→Prop
  | last {env : CallEnv} {cluster cluster' : Cluster} {startAfter : Option Text}
      {outcome : DeletePrefixOutcome} (hsound : env.Sound)
      (hcall : deleteObjectsByPrefix env cluster bucket rawPrefix limit startAfter ctx=
        .ok (outcome,cluster'))
      (hlast : outcome.truncated=false) : DeletesAll bucket rawPrefix limit ctx cluster startAfter cluster'
  | more {env : CallEnv} {cluster cluster' final : Cluster} {startAfter : Option Text}
      {outcome : DeletePrefixOutcome} (hsound : env.Sound)
      (hcall : deleteObjectsByPrefix env cluster bucket rawPrefix limit startAfter ctx=
        .ok (outcome,cluster'))
      (hmore : outcome.truncated=true)
      (hrest : DeletesAll bucket rawPrefix limit ctx cluster' outcome.nextStartAfter final) :
      DeletesAll bucket rawPrefix limit ctx cluster startAfter final

theorem DeletesAll.sweeps (hbucket : sanitizeBucket bucket=.ok bucket)
    (hkeyPrefix : sanitizeKey rawPrefix=.ok keyPrefix) (hctx : ctx=⟨false,true⟩)
    (h : DeletesAll bucket rawPrefix limit ctx cluster startAfter final) :
    Sweeps (cluster.parts bucket keyPrefix limit) startAfter
      (final.parts bucket keyPrefix limit) := by
  induction h with
  | @last env cluster cluster' startAfter outcome hsound hcall hlast =>
    obtain ⟨outcome',cluster'',hcall',hanswers,hswept⟩ := @deleteObjectsByPrefix_spec env bucket
      keyPrefix rawPrefix limit startAfter ctx cluster hsound hbucket hkeyPrefix hctx
    obtain ⟨rfl,rfl⟩ := Prod.mk.inj (Except.ok.inj (hcall.symm.trans hcall'))
    rw [hswept]
    exact .last (hanswers.truncated.symm.trans hlast)
  | @more env cluster cluster' final startAfter outcome hsound hcall hmore _ ih =>
    obtain ⟨outcome',cluster'',hcall',hanswers,hswept⟩ := @deleteObjectsByPrefix_spec env bucket
      keyPrefix rawPrefix limit startAfter ctx cluster hsound hbucket hkeyPrefix hctx
    obtain ⟨rfl,rfl⟩ := Prod.mk.inj (Except.ok.inj (hcall.symm.trans hcall'))
    rw [hswept,hanswers.next] at ih
    exact .more (hanswers.truncated.symm.trans hmore) ih

theorem exists_deletesAll (hbucket : sanitizeBucket bucket=.ok bucket)
    (hkeyPrefix : sanitizeKey rawPrefix=.ok keyPrefix) (hctx : ctx=⟨false,true⟩)
    {parts ends : List (KeyPart Text)} (h : Sweeps parts startAfter ends)
    (hparts : parts=cluster.parts bucket keyPrefix limit) :
    ∃ final,DeletesAll bucket rawPrefix limit ctx cluster startAfter final := by
  have hsound : CallEnv.Sound ⟨fun _ _ => 0,fun _ _ => none,fun _ => none,fun _ => []⟩ :=
    ⟨fun _ _ => rfl,fun _ => rfl⟩
  induction h generalizing cluster with
  | @last parts startAfter hlast =>
    obtain ⟨outcome,cluster',hcall,hanswers,_⟩ := @deleteObjectsByPrefix_spec _ bucket
      keyPrefix rawPrefix limit startAfter ctx cluster hsound hbucket hkeyPrefix hctx
    rw [hparts,← hanswers.truncated] at hlast
    exact ⟨cluster',.last hsound hcall hlast⟩
  | @more parts ends startAfter hmore _ ih =>
    obtain ⟨outcome,cluster',hcall,hanswers,hswept⟩ := @deleteObjectsByPrefix_spec _ bucket
      keyPrefix rawPrefix limit startAfter ctx cluster hsound hbucket hkeyPrefix hctx
    rw [hparts,← hanswers.truncated] at hmore
    have hnext : parts.map (KeyPart.swept startAfter)=cluster'.parts bucket keyPrefix limit := by
      rw [hparts,hswept]
    obtain ⟨final,hfinal⟩ := ih hnext
    rw [hparts,← hanswers.next] at hfinal
    exact ⟨final,.more hsound hcall hmore hfinal⟩

/-- No node has an active key under the prefix. -/
def Cluster.Emptied (cluster : Cluster) (bucket keyPrefix : Text) : Prop :=
  ∀ node∈cluster.reached,∀ key,isActiveKey node.table bucket key=true→¬keyPrefix<+:key

theorem Cluster.emptied_iff : cluster.Emptied bucket keyPrefix ↔
    ∀ part∈cluster.parts bucket keyPrefix limit,part.keys=[] := by
  unfold Cluster.Emptied Cluster.parts
  rw [forall_mem_map]
  refine forall₂_congr fun node _ => ?_
  change _ ↔ underKeys node.table bucket keyPrefix=[]
  rw [eq_nil_iff_forall_not_mem]
  refine forall_congr' fun key => ?_
  rw [mem_underKeys]
  tauto

/-- Deleting page by page with the merged key comes to an end, and it leaves no key
under the prefix on any node exactly if after each number of full pages the end of
the first node's page that has more lies before the next key of every node. -/
theorem prefix_deleted_iff (hbucket : sanitizeBucket bucket=.ok bucket)
    (hkeyPrefix : sanitizeKey rawPrefix=.ok keyPrefix) :
    (∃ final,DeletesAll bucket rawPrefix limit ⟨false,true⟩ cluster none final) ∧
    ((∀ final,DeletesAll bucket rawPrefix limit ⟨false,true⟩ cluster none final →
        final.Emptied bucket keyPrefix) ↔
      ∀ pages,AlignedAfter (cluster.parts bucket keyPrefix limit) pages) := by
  obtain ⟨ends,hends⟩ := exists_sweeps (cluster.parts bucket keyPrefix limit) none
  have hexists : ∃ final,DeletesAll bucket rawPrefix limit ⟨false,true⟩ cluster none final :=
    exists_deletesAll hbucket hkeyPrefix rfl hends rfl
  have hall : ∀ final,DeletesAll bucket rawPrefix limit ⟨false,true⟩ cluster none final →
      (final.Emptied bucket keyPrefix ↔
        ∀ pages,AlignedAfter (cluster.parts bucket keyPrefix limit) pages) := by
    intro final hfinal
    rw [final.emptied_iff]
    exact (hfinal.sweeps hbucket hkeyPrefix rfl).emptied_iff
  refine ⟨hexists,?_,fun haligned final hfinal => (hall final hfinal).mpr haligned⟩
  intro hempty
  obtain ⟨final,hfinal⟩ := hexists
  exact (hall final hfinal).mp (hempty final hfinal)

/-- Making the calls one after the other. -/
def callUntilDone (env : CallEnv) (bucket rawPrefix : Text) (limit : Option ℕ) (ctx : WriteContext) :
    ℕ→Cluster→Option Text→Option Cluster
  | 0,_,_ => none
  | fuel+1,cluster,startAfter =>
    match deleteObjectsByPrefix env cluster bucket rawPrefix limit startAfter ctx with
    | .error _ => none
    | .ok (outcome,cluster') =>
      if outcome.truncated then
        callUntilDone env bucket rawPrefix limit ctx fuel cluster' outcome.nextStartAfter
      else some cluster'

theorem callUntilDone_sound (hsound : env.Sound) {fuel : ℕ}
    (h : callUntilDone env bucket rawPrefix limit ctx fuel cluster startAfter=some final) :
    DeletesAll bucket rawPrefix limit ctx cluster startAfter final := by
  induction fuel generalizing cluster startAfter with
  | zero => cases h
  | succ fuel ih =>
    unfold callUntilDone at h
    split at h
    · cases h
    rename_i outcome cluster' hcall
    split at h
    · rename_i hmore
      exact .more hsound hcall hmore (ih h)
    · rename_i hlast
      cases h
      exact .last hsound hcall (Bool.eq_false_of_not_eq_true hlast)

end Clusters

section Skewed

/-- A call that meets no error. -/
def quietCall : CallEnv := ⟨fun _ _ => 0,fun _ _ => none,fun _ => none,fun _ => []⟩

theorem quietCall_sound : quietCall.Sound := ⟨fun _ _ => rfl,fun _ => rfl⟩

/-- A node with some active keys in a bucket. -/
def sampleNode (keys : List Text) (hkeys : keys.Nodup) (hnamed : []∉keys) : Node where
  table := sampleTable keys hkeys hnamed
  bulkDeleteBatchLimit := 1000
  softDeleteTtlSecs := 0
  clamped := by decide

/-- Two nodes with the keys `pb`, `pc` and `pa`, `paa`. -/
def skewedCluster : Cluster where
  nodeId := ['1']
  node := sampleNode [['p', 'b'], ['p', 'c']] (by decide) (by decide)
  peers := [⟨['2'],sampleNode [['p', 'a'], ['p', 'a', 'a']] (by decide) (by decide)⟩]

/-- With pages of one key, the key `paa` of the other node is left: the merged key
after the first call is `pb`. -/
theorem skewed_key_left : ∃ final,
    DeletesAll ['b'] ['p'] (some 1) ⟨false,true⟩ skewedCluster none final ∧
      (∃ node∈final.reached,isActiveKey node.table ['b'] ['p', 'a', 'a']=true) := by
  have hrun : (callUntilDone quietCall ['b'] ['p'] (some 1) ⟨false,true⟩ 2 skewedCluster none).any
      (fun final => final.reached.any fun node => isActiveKey node.table ['b'] ['p', 'a', 'a'])=
        true := by decide +kernel
  rw [Option.any_eq_true] at hrun
  obtain ⟨final,hfinal,hleft⟩ := hrun
  exact ⟨final,callUntilDone_sound quietCall_sound hfinal,any_eq_true.mp hleft⟩

/-- Two nodes with the keys `pa`, `pc` and `pb`, `pd`. -/
def evenCluster : Cluster where
  nodeId := ['1']
  node := sampleNode [['p', 'a'], ['p', 'c']] (by decide) (by decide)
  peers := [⟨['2'],sampleNode [['p', 'b'], ['p', 'd']] (by decide) (by decide)⟩]

/-- With pages of one key, nothing is left of these. -/
theorem even_keys_deleted : sanitizeBucket ['b']=.ok ['b'] ∧ sanitizeKey ['p']=.ok ['p'] ∧
    ∀ final,DeletesAll ['b'] ['p'] (some 1) ⟨false,true⟩ evenCluster none final →
      final.Emptied ['b'] ['p'] := by
  have hbucket : sanitizeBucket ['b']=.ok ['b'] := by decide +kernel
  have hkeyPrefix : sanitizeKey ['p']=.ok ['p'] := by decide +kernel
  have hshort : (evenCluster.parts ['b'] ['p'] (some 1)).any (KeyPart.exceeds 2)=false := by
    decide +kernel
  have haligned : ∀ pages,AlignedAfter (evenCluster.parts ['b'] ['p'] (some 1)) pages := by
    intro pages
    rcases Nat.lt_or_ge pages 2 with hlt | hge
    · have hfirst : ∀ pages<2,AlignedAfter (evenCluster.parts ['b'] ['p'] (some 1)) pages := by
        decide +kernel
      exact hfirst pages hlt
    · exact (emptied_of_not_exceeds hshort).2 pages hge
  exact ⟨hbucket,hkeyPrefix,(prefix_deleted_iff hbucket hkeyPrefix).2.mpr haligned⟩

end Skewed

end NebularOs.PrefixDeletion
