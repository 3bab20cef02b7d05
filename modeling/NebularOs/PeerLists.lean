import Mathlib
import NebularOs.DeliveryWorker
import NebularOs.SeparatedText
import NebularOs.TrimmedText

/-!
# The list of peers as a text

The peers of a cluster are configured by one line of text, in which commas separate
peers, semicolons the parts of a peer, and an equals sign its id from its address. A
configuration that was made over the administration interface is kept as a list and
turned into such a line, which is read again at every start.

The storage classes of a peer are joined by commas too. So the line tells one peer with
two classes from two peers no more.
-/

namespace NebularOs.PeerLists

open BlobFilenames SeparatedText TrimmedText ReplicationLog List

/-- A peer of the registry, with its address. -/
structure PeerEntry extends DeliveryWorker.PeerEntry where
  /-- Address of the peer. -/
  url : Text
  deriving DecidableEq

/-- A peer as the administration interface lists it. -/
structure ClusterPeerSnapshot where
  /-- Id of the peer. -/
  id : Text
  /-- Its address. -/
  url : Text
  /-- Storage classes the peer takes. -/
  storageClasses : List Text
  /-- Its replication group. -/
  replicationGroup : Option Text
  deriving DecidableEq

/-- Texts that are not empty, without the blanks around them. -/
def filledParts (x : Char) (text : Text) : List Text :=
  ((text.splitOn x).map (trim isWhitespace)).filter fun part => !part.isEmpty

/-- One more part of a peer: its group, or some of its storage classes. -/
def readSegment (found : List Text×Option Text) (segment : Text) : List Text×Option Text :=
  match splitOnce '=' segment with
  | some (key,value) =>
    if trim isWhitespace key="group".toList ∧ trim isWhitespace value≠[] then
      (found.1,some (trim isWhitespace value))
    else found
  | none => (found.1++filledParts ',' segment,found.2)

/-- Reading a peer. -/
def parsePeer (entry : Text) : Except Text (Text×PeerEntry) :=
  match splitOnce '=' entry with
  | none => .error ("invalid peer entry (expected id=url): ".toList++entry)
  | some (idPart,rest) =>
    if idPart.isEmpty then .error ("invalid peer entry: ".toList++entry)
    else match filledParts ';' rest with
      | [] => .error ("invalid peer entry (missing url): ".toList++entry)
      | url::segments =>
        let (storageClasses,replicationGroup) := segments.foldl readSegment ([],none)
        .ok (idPart,⟨⟨storageClasses,replicationGroup⟩,url⟩)

/-- One more entry of the line; an empty one is left out. -/
def addPeer (peers : List (Text×PeerEntry)) (entry : Text) :
    Except Text (List (Text×PeerEntry)) :=
  let entry := trim isWhitespace entry
  if entry.isEmpty then .ok peers
  else match parsePeer entry with
    | .error e => .error e
    | .ok (id,peer) =>
      if (peers.map Prod.fst).contains id then .error ("duplicate peer id: ".toList++id)
      else .ok (peers++[(id,peer)])

/-- Entries of a line, one after the other. -/
def addPeers : List (Text×PeerEntry) → List Text→Except Text (List (Text×PeerEntry))
  | peers,[] => .ok peers
  | peers,entry::entries =>
    match addPeer peers entry with
    | .error e => .error e
    | .ok peers => addPeers peers entries

/-- Reading a line of peers. -/
def fromPeersRaw (raw : Text) : Except Text (List (Text×PeerEntry)) :=
  match addPeers [] (raw.splitOn ',') with
  | .error e => .error e
  | .ok peers =>
    if peers.isEmpty then .error "NOS_CLUSTER_PEERS must list at least one peer".toList
    else .ok peers

/-- The part of an entry that names the storage classes. -/
def classesText (storageClasses : List Text) : Text :=
  if storageClasses.isEmpty then [] else ';'::[','].intercalate storageClasses

/-- The part of an entry that names the group. -/
def groupText (replicationGroup : Option Text) : Text :=
  match replicationGroup with
  | none => []
  | some group =>
    if (trim isWhitespace group).isEmpty then []
    else ";group=".toList++trim isWhitespace group

/-- The entry of a peer. -/
def peerText (peer : ClusterPeerSnapshot) : Except Text Text :=
  let id := trim isWhitespace peer.id
  let url := trim isWhitespace peer.url
  if id.isEmpty || url.isEmpty then .error "each peer requires non-empty id and url".toList
  else .ok (id++ '='::url++classesText peer.storageClasses++groupText peer.replicationGroup)

/-- Entries of some peers. -/
def peerTexts : List ClusterPeerSnapshot→Except Text (List Text)
  | [] => .ok []
  | peer::peers =>
    match peerText peer,peerTexts peers with
    | .ok entry,.ok entries => .ok (entry::entries)
    | .error e,_ => .error e
    | _,.error e => .error e

/-- The line of some peers. -/
def peersToRaw (peers : List ClusterPeerSnapshot) : Except Text Text :=
  match peerTexts peers with
  | .error e => .error e
  | .ok parts =>
    if parts.isEmpty then .error "peers must list at least one node".toList
    else .ok ([','].intercalate parts)

/-- A text that can stand between separators: it is not empty, and has neither blanks
around it nor separators in it. -/
structure Plain (text : Text) : Prop where
  /-- It is not empty. -/
  ne_nil : text≠[]
  /-- It has no blanks around it. -/
  trimmed : trim isWhitespace text=text
  /-- It has no comma. -/
  comma : ','∉text
  /-- It has no semicolon. -/
  semicolon : ';'∉text
  /-- It has no equals sign. -/
  equals : '='∉text

/-- A peer all of whose texts are plain. -/
structure PlainPeer (peer : ClusterPeerSnapshot) : Prop where
  /-- The id is. -/
  id : Plain peer.id
  /-- The address is. -/
  url : Plain peer.url
  /-- Every storage class is. -/
  storageClasses : ∀ storageClass∈peer.storageClasses,Plain storageClass
  /-- The group is. -/
  replicationGroup : ∀ group∈peer.replicationGroup,Plain group

/-- The peer of the registry that a listed peer stands for. -/
def registered (peer : ClusterPeerSnapshot) : Text×PeerEntry :=
  (peer.id,⟨⟨peer.storageClasses,peer.replicationGroup⟩,peer.url⟩)

/-- The line of some peers is read as the same peers; the registry does not keep their
order. -/
def RoundTrips (peers : List ClusterPeerSnapshot) : Prop :=
  ∃ raw registry,peersToRaw peers=.ok raw ∧ fromPeersRaw raw=.ok registry ∧
    registry.Perm (peers.map registered)

section Reading

variable {peers result : List (Text×PeerEntry)} {entry id : Text} {entries : List Text}
  {peer : PeerEntry}

theorem id_of_parsePeer (h : parsePeer entry=.ok (id,peer)) :
    id≠[] ∧ ∃ rest,splitOnce '=' entry=some (id,rest) := by
  unfold parsePeer at h
  split at h
  · cases h
  rename_i idPart rest hsplit
  by_cases hempty : idPart.isEmpty=true
  · rw [if_pos hempty] at h
    cases h
  · rw [if_neg hempty] at h
    split at h
    · cases h
    have hid : idPart=id := (Prod.mk.inj (Except.ok.inj h)).1
    exact ⟨hid ▸ by simpa using hempty,rest,hid ▸ hsplit⟩

theorem addPeer_eq_ok (h : addPeer peers entry=.ok result) :
    (trim isWhitespace entry=[] ∧ result=peers) ∨ ∃ id peer,
      parsePeer (trim isWhitespace entry)=.ok (id,peer) ∧ id∉peers.map Prod.fst ∧
      result=peers++[(id,peer)] := by
  unfold addPeer at h
  by_cases hempty : (trim isWhitespace entry).isEmpty=true
  · rw [if_pos hempty] at h
    exact .inl ⟨by simpa using hempty,(Except.ok.inj h).symm⟩
  rw [if_neg hempty] at h
  split at h
  · cases h
  rename_i id peer hparse
  by_cases hknown : (peers.map Prod.fst).contains id=true
  · rw [if_pos hknown] at h
    cases h
  · rw [if_neg hknown] at h
    exact .inr ⟨id,peer,hparse,by simpa using hknown,(Except.ok.inj h).symm⟩

theorem addPeers_cons (h : addPeers peers (entry::entries)=.ok result) :
    ∃ next,addPeer peers entry=.ok next ∧ addPeers next entries=.ok result := by
  rw [addPeers] at h
  split at h
  · cases h
  rename_i next hnext
  exact ⟨next,hnext,h⟩

theorem subset_of_addPeers (h : addPeers peers entries=.ok result) : peers⊆result := by
  induction entries generalizing peers with
  | nil => exact (Except.ok.inj h) ▸ List.Subset.refl peers
  | cons entry entries ih =>
    obtain ⟨next,hnext,hrest⟩ := addPeers_cons h
    rcases addPeer_eq_ok hnext with ⟨_,rfl⟩ | ⟨id,peer,_,_,rfl⟩
    · exact ih hrest
    · exact List.Subset.trans (subset_append_left peers _) (ih hrest)

theorem exists_of_addPeers (h : addPeers peers entries=.ok result) (hentry : entry∈entries)
    (hfilled : trim isWhitespace entry≠[]) :
    ∃ id peer,parsePeer (trim isWhitespace entry)=.ok (id,peer) ∧ (id,peer)∈result := by
  induction entries generalizing peers with
  | nil => cases hentry
  | cons first entries ih =>
    obtain ⟨next,hnext,hrest⟩ := addPeers_cons h
    rcases mem_cons.mp hentry with rfl | hentry
    · rcases addPeer_eq_ok hnext with ⟨hblank,_⟩ | ⟨id,peer,hparse,_,rfl⟩
      · exact absurd hblank hfilled
      exact ⟨id,peer,hparse,subset_of_addPeers hrest
        (mem_append_right peers mem_cons_self)⟩
    · exact ih hrest hentry

theorem addPeers_wellFormed (h : addPeers peers entries=.ok result)
    (hentries : ∀ entry∈entries,','∉entry) (hplain : ∀ peer∈peers,PlainId peer.1)
    (hdistinct : (peers.map Prod.fst).Nodup) :
    (∀ peer∈result,PlainId peer.1) ∧ (result.map Prod.fst).Nodup := by
  induction entries generalizing peers with
  | nil => exact (Except.ok.inj h) ▸ ⟨hplain,hdistinct⟩
  | cons entry entries ih =>
    obtain ⟨next,hnext,hrest⟩ := addPeers_cons h
    have hclean := fun other hmem => hentries other (mem_cons_of_mem entry hmem)
    rcases addPeer_eq_ok hnext with ⟨_,rfl⟩ | ⟨id,peer,hparse,hnew,rfl⟩
    · exact ih hrest hclean hplain hdistinct
    have hid : PlainId id := by
      obtain ⟨hne,rest,hsplit⟩ := id_of_parsePeer hparse
      refine ⟨hne,fun hcomma => hentries entry mem_cons_self ?_⟩
      obtain ⟨before,after,hentry,_,_⟩ := exists_blanks isWhitespace entry
      have hmem : ','∈trim isWhitespace entry :=
        (splitOnce_eq_some_iff.mp hsplit).1 ▸ mem_append_left _ hcomma
      rw [hentry]
      exact mem_append_left after (mem_append_right before hmem)
    refine ih hrest hclean (fun other hmem => ?_) ?_
    · rcases mem_append.mp hmem with hmem | hmem
      · exact hplain other hmem
      · rwa [mem_singleton.mp hmem]
    · rw [map_append]
      exact hdistinct.append (nodup_singleton id)
        fun other hold hother => hnew ((mem_singleton.mp hother : other=id) ▸ hold)

theorem fromPeersRaw_eq_ok {raw : Text} (h : fromPeersRaw raw=.ok result) :
    addPeers [] (raw.splitOn ',')=.ok result ∧ result≠[] := by
  unfold fromPeersRaw at h
  split at h
  · cases h
  rename_i read hread
  by_cases hempty : read.isEmpty=true
  · rw [if_pos hempty] at h
    cases h
  · rw [if_neg hempty] at h
    cases h
    exact ⟨hread,by simpa using hempty⟩

/-- The registry of a node, from the line that configures it. -/
def peerRegistry {raw : Text} (h : fromPeersRaw raw=.ok result) : DeliveryWorker.PeerRegistry :=
  have hread := addPeers_wellFormed (fromPeersRaw_eq_ok h).1
    (fun _ hentry hcomma => absurd (not_of_mem_splitOnP hentry hcomma) (by decide))
    (fun _ hmem => absurd hmem not_mem_nil) nodup_nil
  { peers := result.map fun peer => (peer.1,peer.2.toPeerEntry)
    plain := fun _ hmem => by
      obtain ⟨peer,hpeer,rfl⟩ := mem_map.mp hmem
      exact hread.1 peer hpeer
    distinct := by
      rw [map_map]
      exact hread.2 }

end Reading

section Segments

variable {segments : List Text} {x : Char} {storageClass group : Text}

theorem filledParts_intercalate (hne : segments≠[]) (hclean : ∀ segment∈segments,x∉segment)
    (htrim : ∀ segment∈segments,trim isWhitespace segment=segment)
    (hfilled : ∀ segment∈segments,segment≠[]) :
    filledParts x ([x].intercalate segments)=segments := by
  unfold filledParts
  rw [splitOn_intercalate x hclean hne,map_congr_left htrim,map_id']
  exact filter_eq_self.mpr fun segment hmem => by simpa using hfilled segment hmem

theorem readSegment_class (found : List Text×Option Text) (h : Plain storageClass) :
    readSegment found storageClass=(found.1++[storageClass],found.2) := by
  have hparts : filledParts ',' storageClass=[storageClass] := by
    have hsingle := filledParts_intercalate (x := ',') (cons_ne_nil storageClass [])
      (by simpa using h.comma) (by simpa using h.trimmed) (by simpa using h.ne_nil)
    rwa [intercalate_singleton] at hsingle
  unfold readSegment
  rw [splitOnce_of_not_mem h.equals,hparts]

theorem readSegment_group (found : List Text×Option Text) (h : Plain group) :
    readSegment found ("group=".toList++group)=(found.1,some group) := by
  have hsplit : splitOnce '=' ("group".toList++ '='::group)=some ("group".toList,group) :=
    splitOnce_append_cons (by decide)
  have hkey : trim isWhitespace "group".toList="group".toList := by decide
  have htext : "group=".toList++group="group".toList++ '='::group := rfl
  unfold readSegment
  rw [htext,hsplit]
  simp only [hkey,h.trimmed]
  rw [if_pos ⟨trivial,h.ne_nil⟩]

end Segments

section Writing

variable {peer : ClusterPeerSnapshot} {peers : List ClusterPeerSnapshot}

/-- The parts of the entry of a peer behind its id. -/
def peerSegments (peer : ClusterPeerSnapshot) : List Text :=
  peer.url::(peer.storageClasses++(peer.replicationGroup.map ("group=".toList++·)).toList)

/-- The entry of a plain peer, from its texts as they are. -/
def plainText (peer : ClusterPeerSnapshot) : Text :=
  peer.id++ '='::peer.url++classesText peer.storageClasses++groupText peer.replicationGroup

theorem peerText_plain (h : PlainPeer peer) : peerText peer=.ok (plainText peer) := by
  unfold peerText plainText
  simp [h.id.trimmed,h.url.trimmed,h.id.ne_nil,h.url.ne_nil]

theorem peersToRaw_plain (h : ∀ peer∈peers,PlainPeer peer) (hne : peers≠[]) :
    peersToRaw peers=.ok ([','].intercalate (peers.map plainText)) := by
  have htexts : peerTexts peers=.ok (peers.map plainText) := by
    clear hne
    induction peers with
    | nil => rfl
    | cons peer peers ih =>
      rw [peerTexts,peerText_plain (h peer mem_cons_self),
        ih fun other hmem => h other (mem_cons_of_mem peer hmem)]
      rfl
  unfold peersToRaw
  rw [htexts]
  simp [hne]

theorem groupText_plain {group : Text} (h : Plain group) :
    groupText (some group)= ';'::("group=".toList++group) := by
  have hfilled : ¬(trim isWhitespace group).isEmpty=true := by
    rw [h.trimmed]
    simpa using h.ne_nil
  simp only [groupText]
  rw [if_neg hfilled,h.trimmed]
  rfl

theorem plainText_segments (h : PlainPeer peer) (hclasses : peer.storageClasses.length≤1) :
    plainText peer=peer.id++ '='::[';'].intercalate (peerSegments peer) := by
  obtain ⟨id,url,storageClasses,replicationGroup⟩ := peer
  unfold plainText
  match storageClasses,replicationGroup,h,hclasses with
  | [],none,_,_ => simp [peerSegments,classesText,groupText]
  | [],some group,h,_ =>
    rw [groupText_plain (h.replicationGroup group rfl)]
    simp [peerSegments,classesText,intercalate_cons_cons]
  | [storageClass],none,_,_ => simp [peerSegments,classesText,groupText,intercalate_cons_cons]
  | [storageClass],some group,h,_ =>
    rw [groupText_plain (h.replicationGroup group rfl)]
    simp [peerSegments,classesText,intercalate_cons_cons]

theorem peerSegments_clean (h : PlainPeer peer) {segment : Text}
    (hsegment : segment∈peerSegments peer) : segment≠[] ∧ trim isWhitespace segment=segment ∧
      ';'∉segment ∧ ','∉segment := by
  have hplain : ∀ text,Plain text→text≠[] ∧ trim isWhitespace text=text ∧
      ';'∉text ∧ ','∉text := fun text ht => ⟨ht.ne_nil,ht.trimmed,ht.semicolon,ht.comma⟩
  rcases mem_cons.mp hsegment with rfl | hsegment
  · exact hplain _ h.url
  rcases mem_append.mp hsegment with hsegment | hsegment
  · exact hplain _ (h.storageClasses segment hsegment)
  obtain ⟨group,hgroup,rfl⟩ := Option.map_eq_some_iff.mp (Option.mem_toList.mp hsegment)
  have hclean := h.replicationGroup group hgroup
  have hword : trim isWhitespace "group=".toList="group=".toList := by decide
  have htrim := trim_between [] (by decide) hword hclean.ne_nil hclean.trimmed
  refine ⟨by simp,by simpa using htrim,?_,?_⟩
  · simpa using hclean.semicolon
  · simpa using hclean.comma

theorem foldl_readSegment (h : PlainPeer peer) :
    (peerSegments peer).tail.foldl readSegment ([],none)=
      (peer.storageClasses,peer.replicationGroup) := by
  have hclasses : ∀ (classes : List Text) (found : List Text×Option Text),
      (∀ storageClass∈classes,Plain storageClass) →
      classes.foldl readSegment found=(found.1++classes,found.2) := by
    intro classes
    induction classes with
    | nil => simp
    | cons storageClass classes ih =>
      intro found hplain
      rw [foldl_cons,readSegment_class found (hplain storageClass mem_cons_self),
        ih _ fun other hmem => hplain other (mem_cons_of_mem storageClass hmem)]
      simp
  rw [peerSegments,tail_cons,foldl_append,hclasses _ _ h.storageClasses]
  cases hgroup : peer.replicationGroup with
  | none => simp
  | some group =>
    simp only [Option.map_some,Option.toList_some,foldl_cons,foldl_nil]
    rw [readSegment_group _ (h.replicationGroup group hgroup)]
    simp

theorem parsePeer_segments (h : PlainPeer peer) :
    parsePeer (peer.id++ '='::[';'].intercalate (peerSegments peer))=.ok (registered peer) := by
  have hparts : filledParts ';' ([';'].intercalate (peerSegments peer))=peerSegments peer :=
    filledParts_intercalate (cons_ne_nil _ _)
      (fun segment hmem => (peerSegments_clean h hmem).2.2.1)
      (fun segment hmem => (peerSegments_clean h hmem).2.1)
      fun segment hmem => (peerSegments_clean h hmem).1
  have hfold := foldl_readSegment h
  unfold parsePeer
  rw [splitOnce_append_cons h.id.equals]
  simp only [List.isEmpty_iff,h.id.ne_nil,if_false,hparts]
  rw [peerSegments] at hfold ⊢
  simp only [tail_cons] at hfold
  simp only [hfold,registered]

theorem plainText_clean (h : PlainPeer peer) (hclasses : peer.storageClasses.length≤1) :
    ','∉plainText peer ∧ trim isWhitespace (plainText peer)=plainText peer ∧ plainText peer≠[] := by
  have hne : peerSegments peer≠[] := cons_ne_nil _ _
  rw [plainText_segments h hclasses]
  refine ⟨?_,?_,by simp⟩
  · have hsegments : ','∉[';'].intercalate (peerSegments peer) :=
      not_mem_intercalate (by decide) fun segment hmem => (peerSegments_clean h hmem).2.2.2
    simp only [mem_append,mem_cons,not_or]
    exact ⟨h.id.comma,by decide,hsegments⟩
  · -- The entry ends with its last part, which is trimmed.
    obtain ⟨front,last,hlast⟩ := (eq_nil_or_concat' (peerSegments peer)).resolve_left hne
    have hmem : last∈peerSegments peer := hlast ▸ mem_append_right front mem_cons_self
    obtain ⟨hfilled,htrim,_,_⟩ := peerSegments_clean h hmem
    rw [hlast,intercalate_append front (cons_ne_nil last []),intercalate_singleton]
    have hbetween := trim_between ('='::front.flatMap fun part => part++[';']) h.id.ne_nil
      h.id.trimmed hfilled htrim
    simpa only [append_assoc,cons_append] using hbetween

theorem addPeer_plainText (read : List (Text×PeerEntry)) (h : PlainPeer peer)
    (hclasses : peer.storageClasses.length≤1) (hnew : peer.id∉read.map Prod.fst) :
    addPeer read (plainText peer)=.ok (read++[registered peer]) := by
  obtain ⟨_,htrim,hne⟩ := plainText_clean h hclasses
  have hparse : parsePeer (plainText peer)=.ok (registered peer) := by
    rw [plainText_segments h hclasses]
    exact parsePeer_segments h
  have hid : ¬(read.map Prod.fst).contains peer.id=true := by simpa using hnew
  unfold addPeer
  simp only [htrim,List.isEmpty_iff,hne,if_false,hparse]
  exact if_neg hid

theorem addPeers_plainText (read : List (Text×PeerEntry)) (h : ∀ peer∈peers,PlainPeer peer)
    (hclasses : ∀ peer∈peers,peer.storageClasses.length≤1)
    (hdistinct : (read.map Prod.fst++peers.map ClusterPeerSnapshot.id).Nodup) :
    addPeers read (peers.map plainText)=.ok (read++peers.map registered) := by
  induction peers generalizing read with
  | nil => simp [addPeers]
  | cons peer peers ih =>
    have hnew : peer.id∉read.map Prod.fst := fun hmem =>
      (nodup_append.mp hdistinct).2.2 _ hmem _ mem_cons_self rfl
    rw [map_cons,addPeers,addPeer_plainText read (h peer mem_cons_self)
      (hclasses peer mem_cons_self) hnew]
    have hrest := ih (read++[registered peer])
      (fun other hmem => h other (mem_cons_of_mem peer hmem))
      (fun other hmem => hclasses other (mem_cons_of_mem peer hmem))
      (by simpa [registered] using hdistinct)
    simpa using hrest

end Writing

section Classes

variable {peer : ClusterPeerSnapshot} {peers : List ClusterPeerSnapshot}

theorem piece_of_classes {storageClass : Text} (rest : List Text) {tail : Text}
    (hclass : ','∉storageClass) (htail : ','∉tail) :
    storageClass∈([','].intercalate (storageClass::rest)++tail).splitOn ',' ∨
      storageClass++tail∈([','].intercalate (storageClass::rest)++tail).splitOn ',' := by
  cases rest with
  | nil =>
    have hclean : ','∉storageClass++tail := by simpa using ⟨hclass,htail⟩
    rw [intercalate_singleton,splitOn_eq_singleton hclean]
    exact .inr mem_cons_self
  | cons next rest =>
    rw [intercalate_cons_cons,append_assoc,append_assoc,singleton_append,
      splitOn_append_cons_self,splitOn_eq_singleton hclass]
    exact .inl mem_cons_self

theorem parsePeer_class {storageClass : Text} (h : Plain storageClass) (id : Text)
    (entry : PeerEntry) : parsePeer storageClass≠.ok (id,entry) := by
  intro hparse
  obtain ⟨_,rest,hsplit⟩ := id_of_parsePeer hparse
  rw [splitOnce_of_not_mem h.equals] at hsplit
  cases hsplit

theorem parsePeer_class_group {storageClass id : Text} {replicationGroup : Option Text}
    {entry : PeerEntry} (h : Plain storageClass) (hgroup : ∀ group∈replicationGroup,Plain group)
    (hparse : parsePeer (storageClass++groupText replicationGroup)=.ok (id,entry)) : ';'∈id := by
  cases replicationGroup with
  | none =>
    rw [groupText,append_nil] at hparse
    exact absurd hparse (parsePeer_class h id entry)
  | some group =>
    obtain ⟨_,rest,hsplit⟩ := id_of_parsePeer hparse
    have htext : storageClass++groupText (some group)=
        (storageClass++";group".toList)++ '='::group := by
      rw [groupText_plain (hgroup group rfl)]
      simp
    rw [htext,splitOnce_append_cons (by simpa using h.equals)] at hsplit
    rw [← (Prod.mk.inj (Option.some.inj hsplit)).1]
    simp

theorem piece_of_peer (h : PlainPeer peer) (hpeer : peer∈peers)
    (hclasses : 1<peer.storageClasses.length) : ∃ storageClass∈peer.storageClasses,
      storageClass∈([','].intercalate (peers.map plainText)).splitOn ',' ∨
      storageClass++groupText peer.replicationGroup∈
        ([','].intercalate (peers.map plainText)).splitOn ',' := by
  obtain ⟨id,url,storageClasses,replicationGroup⟩ := peer
  match storageClasses,h,hpeer,hclasses with
  | first::second::rest,h,hpeer,_ =>
    have hgroup : ','∉groupText replicationGroup := by
      cases replicationGroup with
      | none => simp [groupText]
      | some group =>
        rw [groupText_plain (h.replicationGroup group rfl)]
        simpa using (h.replicationGroup group rfl).comma
    have hmem : second∈first::second::rest := mem_cons_of_mem first mem_cons_self
    have hpieces := piece_of_classes rest (h.storageClasses second hmem).comma hgroup
    have hlift : ∀ piece∈([','].intercalate (second::rest)++groupText replicationGroup).splitOn
        ',',piece∈([','].intercalate (peers.map plainText)).splitOn ',' := by
      intro piece hpiece
      rw [splitOn_intercalate_flatMap ',' (by simpa using ne_nil_of_mem hpeer)]
      refine mem_flatMap.mpr ⟨_,mem_map_of_mem hpeer,?_⟩
      have htext : plainText ⟨id,url,first::second::rest,replicationGroup⟩=
          (id++ '='::url++ ';'::first)++ ',':: ([','].intercalate (second::rest)++
            groupText replicationGroup) := by
        simp [plainText,classesText,intercalate_cons_cons]
      rw [htext,splitOn_append_cons_self]
      exact mem_append_right _ hpiece
    exact ⟨second,hmem,hpieces.imp (hlift second) (hlift _)⟩

theorem classes_of_roundTrips (h : ∀ peer∈peers,PlainPeer peer) (hne : peers≠[])
    (htrips : RoundTrips peers) (hpeer : peer∈peers) : peer.storageClasses.length≤1 := by
  obtain ⟨raw,registry,hraw,hread,hperm⟩ := htrips
  rw [peersToRaw_plain h hne] at hraw
  cases hraw
  have hadd := (fromPeersRaw_eq_ok hread).1
  -- Every id that is read is one of the peers', and so without a semicolon.
  have hids : ∀ {id entry},(id,entry)∈registry → ';'∉id := by
    intro id entry hmem
    obtain ⟨other,hother,heq⟩ := mem_map.mp (hperm.mem_iff.mp hmem)
    rw [← (Prod.mk.inj heq).1]
    exact (h other hother).id.semicolon
  by_contra hmany
  obtain ⟨storageClass,hclass,hpiece⟩ := piece_of_peer (h peer hpeer) hpeer (by omega)
  have hplain := (h peer hpeer).storageClasses storageClass hclass
  rcases hpiece with hpiece | hpiece
  · obtain ⟨id,entry,hparse,_⟩ := exists_of_addPeers hadd hpiece
      (hplain.trimmed.symm ▸ hplain.ne_nil)
    rw [hplain.trimmed] at hparse
    exact parsePeer_class hplain id entry hparse
  · have htrim : trim isWhitespace (storageClass++groupText peer.replicationGroup)=
        storageClass++groupText peer.replicationGroup := by
      cases hgroup : peer.replicationGroup with
      | none => simpa [groupText] using hplain.trimmed
      | some group =>
        have hgroupPlain := (h peer hpeer).replicationGroup group hgroup
        have hbetween := trim_between ";group=".toList hplain.ne_nil hplain.trimmed
          hgroupPlain.ne_nil hgroupPlain.trimmed
        rw [groupText_plain hgroupPlain]
        simpa using hbetween
    obtain ⟨id,entry,hparse,hmem⟩ := exists_of_addPeers hadd hpiece
      (by rw [htrim]; simp [hplain.ne_nil])
    rw [htrim] at hparse
    exact hids hmem (parsePeer_class_group hplain (h peer hpeer).replicationGroup hparse)

theorem roundTrips_of_classes (h : ∀ peer∈peers,PlainPeer peer) (hne : peers≠[])
    (hdistinct : (peers.map ClusterPeerSnapshot.id).Nodup)
    (hclasses : ∀ peer∈peers,peer.storageClasses.length≤1) : RoundTrips peers := by
  refine ⟨_,peers.map registered,peersToRaw_plain h hne,?_,List.Perm.refl _⟩
  have hsplit : ([','].intercalate (peers.map plainText)).splitOn ','=peers.map plainText := by
    refine splitOn_intercalate ',' (fun text hmem => ?_) (by simpa using hne)
    obtain ⟨peer,hpeer,rfl⟩ := mem_map.mp hmem
    exact (plainText_clean (h peer hpeer) (hclasses peer hpeer)).1
  have hadd := addPeers_plainText [] h hclasses (by simpa using hdistinct)
  unfold fromPeersRaw
  rw [hsplit,hadd]
  simp [hne]

/-- The line of plain peers is read as the same peers exactly if none of them has more than
one storage class. -/
theorem roundTrips_iff (h : ∀ peer∈peers,PlainPeer peer) (hne : peers≠[])
    (hdistinct : (peers.map ClusterPeerSnapshot.id).Nodup) :
    RoundTrips peers ↔ ∀ peer∈peers,peer.storageClasses.length≤1 :=
  ⟨fun htrips _ hpeer => classes_of_roundTrips h hne htrips hpeer,
    roundTrips_of_classes h hne hdistinct⟩

/-- A peer that takes two storage classes. -/
def samplePeer : ClusterPeerSnapshot :=
  ⟨"a".toList,"http://a:9000".toList,["hot".toList,"cold".toList],none⟩

theorem samplePeer_plain : PlainPeer samplePeer where
  id := ⟨by decide,by decide,by decide,by decide,by decide⟩
  url := ⟨by decide,by decide,by decide,by decide,by decide⟩
  storageClasses := by
    intro storageClass hmem
    rcases mem_cons.mp hmem with rfl | hmem
    · exact ⟨by decide,by decide,by decide,by decide,by decide⟩
    · rw [mem_singleton.mp hmem]
      exact ⟨by decide,by decide,by decide,by decide,by decide⟩
  replicationGroup := fun _ hgroup => nomatch hgroup

theorem samplePeer_raw : peersToRaw [samplePeer]=.ok "a=http://a:9000;hot,cold".toList := by
  decide

theorem samplePeer_refused : fromPeersRaw "a=http://a:9000;hot,cold".toList=
    .error "invalid peer entry (expected id=url): cold".toList := by
  decide

/-- So a configuration with the peer cannot be loaded again. -/
theorem two_classes_refused : PlainPeer samplePeer ∧ ¬RoundTrips [samplePeer] := by
  refine ⟨samplePeer_plain,fun ⟨raw,registry,hraw,hread,_⟩ => ?_⟩
  obtain rfl := Except.ok.inj (samplePeer_raw.symm.trans hraw)
  rw [samplePeer_refused] at hread
  cases hread

/-- With one of its classes the peer comes back. -/
theorem one_class_roundTrips :
    RoundTrips [{ samplePeer with storageClasses := ["hot".toList] }] := by
  have hplain : PlainPeer { samplePeer with storageClasses := ["hot".toList] } :=
    { id := samplePeer_plain.id
      url := samplePeer_plain.url
      storageClasses := fun storageClass hmem => samplePeer_plain.storageClasses storageClass
        (mem_singleton.mp hmem ▸ mem_cons_self)
      replicationGroup := samplePeer_plain.replicationGroup }
  exact (roundTrips_iff (by simpa using hplain) (by simp) (by simp)).mpr (by simp)

end Classes

end NebularOs.PeerLists
