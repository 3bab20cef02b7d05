import Mathlib
import NebularOs.SigV4

/-!
# Custom metadata of forwarded writes

A client gives an object custom metadata in headers, one for each entry. The node that
receives a write gathers them into a JSON text and, where another node holds the object,
sends the write on with that text in one header. The other node gathers headers of the form
that clients use, and the text is not one of them, so the metadata of every forwarded write is
lost.
-/

namespace NebularOs.ForwardedMetadata

open UrlEncoding Signatures SigV4 List

/-- Header lines of a request. -/
abbrev Headers := List (Bytes×Bytes)

/-- How the headers of custom metadata begin. -/
def customMetaStart : Bytes := ascii "x-nd-custom-meta-"

/-- Putting an entry into a map that is ordered by its keys. -/
def insertEntry (key value : Bytes) : List (Bytes×Bytes) → List (Bytes×Bytes)
  | [] => [(key,value)]
  | entry::entries =>
    if entry.1=key then (key,value)::entries
    else if key<entry.1 then (key,value)::entry::entries
    else entry::insertEntry key value entries

/-- The entry of a header line, if it is one of custom metadata and its value is text. -/
def customMetaEntry (line : Bytes×Bytes) : Option (Bytes×Bytes) :=
  if customMetaStart.isPrefixOf line.1 then
    (toStr line.2).map fun value => (line.1.drop customMetaStart.length,value)
  else none

/-- Custom metadata of a request. A later header line replaces an earlier one. -/
def customMetaMap (headers : Headers) : List (Bytes×Bytes) :=
  (headers.filterMap customMetaEntry).foldl (fun entries entry => insertEntry entry.1 entry.2 entries) []

/-- One byte of a JSON string. -/
def escapeJsonByte (b : UInt8) : Bytes :=
  if b=0x22 then ascii "\\\""
  else if b=0x5C then ascii "\\\\"
  else if b=0x08 then ascii "\\b"
  else if b=0x09 then ascii "\\t"
  else if b=0x0A then ascii "\\n"
  else if b=0x0C then ascii "\\f"
  else if b=0x0D then ascii "\\r"
  else if b<0x20 then
    ascii "\\u00"++[Nat.digitChar (b.toNat/16), Nat.digitChar (b.toNat%16)].map fun c => UInt8.ofNat c.toNat
  else [b]

/-- A JSON string. -/
def jsonString (text : Bytes) : Bytes :=
  [0x22]++text.flatMap escapeJsonByte++[0x22]

/-- A JSON object whose values are strings. -/
def jsonObject (entries : List (Bytes×Bytes)) : Bytes :=
  [0x7B]++[0x2C].intercalate (entries.map fun entry => jsonString entry.1++[0x3A]++jsonString entry.2)++
    [0x7D]

/-- Custom metadata of a request as it is stored with the object, if there is any. -/
def extractCustomMeta (headers : Headers) : Option Bytes :=
  let entries := customMetaMap headers
  if entries.isEmpty then none else some (jsonObject entries)

/-- What a forwarded write takes from the request and from the placement of its object. -/
structure Forwarding where
  /-- Credentials of the request. -/
  authorization : Bytes
  /-- Type of the content. -/
  contentType : Option Bytes
  /-- Precondition on the object. -/
  ifMatch : Option Bytes
  /-- Precondition against the object. -/
  ifNoneMatch : Option Bytes
  /-- Storage class of the object. -/
  storageClass : Bytes
  /-- Replication group that the request asks for. -/
  replicationGroup : Option Bytes
  /-- Header lines of the HTTP client's own. -/
  client : Headers
  /-- The client adds no metadata. -/
  client_plain : ∀ line∈client,customMetaStart.isPrefixOf line.1=false

/-- A header line that is sent if it has a value. -/
def optionalLine (name : String) (value : Option Bytes) : Headers :=
  value.toList.map fun value => (ascii name,value)

/-- Header lines that every forwarded request has. -/
def placementHeaders (forwarding : Forwarding) : Headers :=
  [(ascii "x-nd-forwarded",ascii "1"), (ascii "x-nd-storage-class",forwarding.storageClass)]++
    optionalLine "x-nd-replication-group" forwarding.replicationGroup

/-- Header lines of a forwarded PUT. -/
def proxyPut (forwarding : Forwarding) (customMeta : Option Bytes) : Headers :=
  forwarding.client++[(ascii "authorization",forwarding.authorization)]++
    optionalLine "content-type" forwarding.contentType++
    optionalLine "if-match" forwarding.ifMatch++
    optionalLine "if-none-match" forwarding.ifNoneMatch++
    optionalLine "x-nd-custom-meta" customMeta++placementHeaders forwarding

/-- Header lines of a forwarded completion of a multipart upload. -/
def proxyCompleteMultipart (forwarding : Forwarding) (customMeta : Option Bytes) : Headers :=
  forwarding.client++[(ascii "authorization",forwarding.authorization)]++
    optionalLine "x-nd-custom-meta" customMeta++placementHeaders forwarding

/-- Metadata that the holder of an object stores for a forwarded PUT. -/
def storedByPut (forwarding : Forwarding) (headers : Headers) : Option Bytes :=
  extractCustomMeta (proxyPut forwarding (extractCustomMeta headers))

/-- Metadata that the holder of an object stores for a forwarded completion. -/
def storedByCompletion (forwarding : Forwarding) (headers : Headers) : Option Bytes :=
  extractCustomMeta (proxyCompleteMultipart forwarding (extractCustomMeta headers))

section Extraction

variable {headers : Headers}

theorem insertEntry_ne_nil (key value : Bytes) (entries : List (Bytes×Bytes)) :
    insertEntry key value entries≠[] := by
  cases entries with
  | nil => exact cons_ne_nil _ _
  | cons entry entries =>
    unfold insertEntry
    split
    · exact cons_ne_nil _ _
    · split <;> exact cons_ne_nil _ _

theorem foldl_insertEntry_ne_nil (added : List (Bytes×Bytes)) {entries : List (Bytes×Bytes)}
    (h : entries≠[]) :
    added.foldl (fun entries entry => insertEntry entry.1 entry.2 entries) entries≠[] := by
  induction added generalizing entries with
  | nil => exact h
  | cons entry added ih => exact ih (insertEntry_ne_nil _ _ _)

theorem extractCustomMeta_eq_none :
    extractCustomMeta headers=none ↔ ∀ line∈headers,customMetaEntry line=none := by
  have hmap : customMetaMap headers=[] ↔ ∀ line∈headers,customMetaEntry line=none := by
    rw [← filterMap_eq_nil_iff]
    unfold customMetaMap
    cases headers.filterMap customMetaEntry with
    | nil => exact iff_of_true rfl rfl
    | cons entry entries =>
      exact iff_of_false (foldl_insertEntry_ne_nil entries (cons_ne_nil _ _))
        (cons_ne_nil _ _)
  rw [← hmap]
  unfold extractCustomMeta
  dsimp only
  split
  · rename_i hempty
    exact iff_of_true rfl (isEmpty_iff.mp hempty)
  · rename_i hsome
    exact iff_of_false (Option.some_ne_none _) fun hnil => hsome (isEmpty_iff.mpr hnil)

theorem customMetaEntry_other {line : Bytes×Bytes} (h : customMetaStart.isPrefixOf line.1=false) :
    customMetaEntry line=none := by
  unfold customMetaEntry
  rw [h]
  rfl

theorem optionalLine_plain {name : String} (hname : customMetaStart.isPrefixOf (ascii name)=false)
    (value : Option Bytes) : ∀ line∈optionalLine name value,customMetaEntry line=none := by
  intro line hline
  obtain ⟨_,_,rfl⟩ := mem_map.mp hline
  exact customMetaEntry_other hname

theorem client_entry (forwarding : Forwarding) :
    ∀ line∈forwarding.client,customMetaEntry line=none :=
  fun line hline => customMetaEntry_other (forwarding.client_plain line hline)

theorem placementHeaders_plain (forwarding : Forwarding) :
    ∀ line∈placementHeaders forwarding,customMetaEntry line=none := by
  intro line hline
  rcases mem_append.mp hline with hfixed | hgroup
  · rcases mem_cons.mp hfixed with rfl | hclass
    · exact customMetaEntry_other (by decide)
    · rw [mem_singleton.mp hclass]
      exact customMetaEntry_other
        (show customMetaStart.isPrefixOf (ascii "x-nd-storage-class")=false by decide)
  · exact optionalLine_plain (by decide) _ line hgroup

theorem authorization_plain (forwarding : Forwarding) :
    ∀ line∈[(ascii "authorization",forwarding.authorization)],customMetaEntry line=none := by
  intro line hline
  rw [mem_singleton.mp hline]
  exact customMetaEntry_other (show customMetaStart.isPrefixOf (ascii "authorization")=false by decide)

theorem extractCustomMeta_proxyPut (forwarding : Forwarding) (customMeta : Option Bytes) :
    extractCustomMeta (proxyPut forwarding customMeta)=none := by
  rw [extractCustomMeta_eq_none]
  unfold proxyPut
  simp only [forall_mem_append]
  exact ⟨⟨⟨⟨⟨⟨client_entry forwarding,authorization_plain forwarding⟩,optionalLine_plain (by decide) _⟩,
    optionalLine_plain (by decide) _⟩,optionalLine_plain (by decide) _⟩,
    optionalLine_plain (by decide) _⟩,placementHeaders_plain forwarding⟩

theorem extractCustomMeta_proxyCompleteMultipart (forwarding : Forwarding)
    (customMeta : Option Bytes) :
    extractCustomMeta (proxyCompleteMultipart forwarding customMeta)=none := by
  rw [extractCustomMeta_eq_none]
  unfold proxyCompleteMultipart
  simp only [forall_mem_append]
  exact ⟨⟨⟨client_entry forwarding,authorization_plain forwarding⟩,optionalLine_plain (by decide) _⟩,
    placementHeaders_plain forwarding⟩

end Extraction

/-- Metadata of a forwarded write arrives exactly if the client sent none. -/
theorem forwarded_meta_kept_iff (forwarding : Forwarding) (headers : HeaderMap) :
    (storedByPut forwarding headers.entries=extractCustomMeta headers.entries ↔
        ∀ line∈headers.entries,customMetaStart.isPrefixOf line.1=true→toStr line.2=none) ∧
      (storedByCompletion forwarding headers.entries=extractCustomMeta headers.entries ↔
        ∀ line∈headers.entries,customMetaStart.isPrefixOf line.1=true→toStr line.2=none) := by
  have hentry : ∀ line : Bytes×Bytes,customMetaEntry line=none ↔
      (customMetaStart.isPrefixOf line.1=true→toStr line.2=none) := by
    intro line
    unfold customMetaEntry
    cases customMetaStart.isPrefixOf line.1 with
    | false | true => simp
  unfold storedByPut storedByCompletion
  rw [extractCustomMeta_proxyPut,extractCustomMeta_proxyCompleteMultipart,eq_comm,
    extractCustomMeta_eq_none]
  simp only [hentry,and_self]

/-- A forwarding of a write without preconditions. -/
def plainForwarding : Forwarding where
  authorization := ascii "Bearer t"
  contentType := none
  ifMatch := none
  ifNoneMatch := none
  storageClass := ascii "standard"
  replicationGroup := none
  client := [(ascii "host",ascii "b")]
  client_plain := by decide

/-- The headers of a write with one entry of metadata. -/
def coloredHeaders : HeaderMap where
  entries := [(ascii "x-nd-custom-meta-color",ascii "red")]
  names := by decide +kernel
  values := by decide +kernel

/-- The entry is gathered where the write arrives and lost where the object is stored. -/
theorem colored_meta_lost :
    extractCustomMeta coloredHeaders.entries=some (ascii "\x7b\"color\":\"red\"\x7d") ∧
      storedByPut plainForwarding coloredHeaders.entries=none ∧
      storedByCompletion plainForwarding coloredHeaders.entries=none := by
  decide +kernel

end NebularOs.ForwardedMetadata
