import Mathlib
import NebularOs.PrefixDeletion

/-!
# Deleting a list of keys

A deletion of a list of keys first looks up which of them are active, and then removes
those in chunks, one metadata transaction to each. Both the number of deleted objects and
the reports to the commit hook are taken from the chunks, not from the rows that the
transactions changed. A key that the list names twice is looked up twice before anything
is deleted, and so counted and reported twice.
-/

namespace NebularOs.BatchDeletion

open BlobFilenames BlobPaths EngineState Listing Chunks PrefixDeletion List

/-- What a deletion of a list meets outside of the table. -/
structure BatchEnv extends CallEnv where
  /-- Error of counting the rows of a key. -/
  countError : Text→Option Text
  /-- Error of reading the row of a key. -/
  fetchError : Text→Option Text

/-- Errors of a deletion of a list. -/
inductive BatchError
  | invalidBucket
  | internal (error : Text)
  | hook (error : Text)
  deriving DecidableEq

/-- A commit hook: what it makes of an object, after the ones it was told of before. -/
abbrev CommitHook := List DeletedObjectRef→DeletedObjectRef→Option Text

/-- What the commit hook was told, and its first error. -/
structure Reports where
  /-- Objects it was told of. -/
  told : List DeletedObjectRef
  /-- Its first error. -/
  error : Option Text

/-- Telling the hook of one object. -/
def reportDelete (after : CommitHook) (reports : Reports) (object : DeletedObjectRef) : Reports :=
  ⟨reports.told++[object],reports.error <|> after reports.told object⟩

/-- Telling the hook of each key that a chunk removed; an error for one key does not stop
the others. -/
def reportBulkDeletes (hook : Option CommitHook) (reports : Reports)
    (deleted : List DeletedObjectRef) : Reports :=
  match hook with
  | none => reports
  | some after => deleted.foldl (reportDelete after) reports

/-- The keys of a chunk. -/
def chunkKeys (chunk : List DeletedObjectRef) : List Text := chunk.map DeletedObjectRef.key

/-- A deletion on its way. -/
structure Progress where
  /-- Outcome so far. -/
  outcome : DeletePrefixOutcome
  /-- The table so far. -/
  table : ObjectTable Char
  /-- What the hook was told so far. -/
  reports : Reports

/-- One chunk of a deletion: the hook is told of its keys unless the update failed. -/
def deleteChunkHooked (env : BatchEnv) (nodeId : Text) (softDeleteTtlSecs : ℤ) (bucket : Text)
    (hook : Option CommitHook) (progress : Progress) (chunk : List DeletedObjectRef) : Progress :=
  let (outcome,table) :=
    deleteChunk env.toCallEnv nodeId softDeleteTtlSecs bucket (progress.outcome,progress.table) chunk
  match env.updateError nodeId (chunkKeys chunk) with
  | some _ => ⟨outcome,table,progress.reports⟩
  | none => ⟨outcome,table,reportBulkDeletes hook progress.reports chunk⟩

/-- Deleting keys chunk by chunk. -/
def deleteObjectsHooked (env : BatchEnv) (nodeId : Text) (node : Node) (bucket : Text)
    (hook : Option CommitHook) (pending : List DeletedObjectRef) : Progress :=
  (chunks bulkDeleteChunk pending).foldl
    (deleteChunkHooked env nodeId node.softDeleteTtlSecs bucket hook) ⟨.none,node.table,⟨[],none⟩⟩

/-- The active row of a key. -/
def fetchActiveMetadata (table : ObjectTable Char) (bucket key : Text) : Option ObjectMetadata :=
  (table.rows.lookup (bucket,key)).filter ObjectMetadata.isActive

/-- What the list so far comes to: objects to delete, and failures. -/
abbrev Pending := List DeletedObjectRef×List DeletePrefixFailure

/-- One more key of the list. -/
def gatherKey (env : BatchEnv) (table : ObjectTable Char) (bucket : Text) (pending : Pending)
    (key : Text) : Except BatchError Pending :=
  match sanitizeKey key with
  | .error _ => .ok (pending.1,pending.2++[⟨key,"invalid key".toList⟩])
  | .ok safeKey =>
    match env.countError safeKey with
    | some error => .error (.internal error)
    | none =>
      if isActiveKey table bucket safeKey then
        match env.fetchError safeKey,fetchActiveMetadata table bucket safeKey with
        | some error,_ => .ok (pending.1,pending.2++[⟨safeKey,error⟩])
        | none,some row => .ok (pending.1++[⟨safeKey,row.storageClass⟩],pending.2)
        | none,none => .ok (pending.1,pending.2++[⟨safeKey,"not found".toList⟩])
      else .ok pending

/-- The keys of the list, one after the other. -/
def gatherKeys (env : BatchEnv) (table : ObjectTable Char) (bucket : Text) :
    Pending → List Text→Except BatchError Pending
  | pending,[] => .ok pending
  | pending,key::keys =>
    match gatherKey env table bucket pending key with
    | .error e => .error e
    | .ok pending => gatherKeys env table bucket pending keys

/-- What a deletion of a list leaves. -/
structure BatchResult where
  /-- What it answers. -/
  answer : Except BatchError DeletePrefixOutcome
  /-- The table. -/
  table : ObjectTable Char
  /-- Objects the hook was told of. -/
  told : List DeletedObjectRef

/-- A deletion that was refused. -/
def BatchResult.refused (node : Node) (error : BatchError) : BatchResult :=
  ⟨.error error,node.table,[]⟩

/-- Deleting a list of keys. -/
def deleteObjectsBatchHooked (env : BatchEnv) (nodeId : Text) (node : Node) (bucket : Text)
    (keys : List Text) (hook : Option CommitHook) : BatchResult :=
  match sanitizeBucket bucket with
  | .error _ => .refused node .invalidBucket
  | .ok bucket =>
    if keys.isEmpty then ⟨.ok .none,node.table,[]⟩
    else match gatherKeys env node.table bucket ([],[]) keys with
      | .error e => .refused node e
      | .ok (pending,failed) =>
        let final := deleteObjectsHooked env nodeId node bucket hook pending
        match final.reports.error with
        | some e => ⟨.error (.hook e),final.table,final.reports.told⟩
        | none => ⟨.ok { final.outcome with failed := final.outcome.failed++failed },final.table,
            final.reports.told⟩

/-- Deleting a list of keys without a hook. -/
def deleteObjectsBatch (env : BatchEnv) (nodeId : Text) (node : Node) (bucket : Text)
    (keys : List Text) : BatchResult :=
  deleteObjectsBatchHooked env nodeId node bucket keys none

/-- Objects with an active row. -/
def activeObjects (table : ObjectTable Char) : Finset (Text×Text) :=
  ((table.rows.entries.filter fun entry => entry.2.isActive).map Sigma.fst).toFinset

/-- Objects that were active before a deletion and are not after it. -/
def BatchResult.gone (node : Node) (result : BatchResult) : Finset (Text×Text) :=
  activeObjects node.table \ activeObjects result.table

/-- A deletion of a list counts the objects it deletes, and tells the hook of each of them
once. -/
structure Exact (node : Node) (bucket : Text) (hook : Option CommitHook) (result : BatchResult) :
    Prop where
  /-- The answer gives the number of deleted objects. -/
  counted : ∀ outcome,result.answer=.ok outcome → outcome.deleted=(result.gone node).card
  /-- Every deleted object is in the bucket, and is reported once. -/
  reported : hook.isSome=true→∀ object∈result.gone node,
    object.1=bucket ∧ (chunkKeys result.told).count object.2=1

/-- Keys of the list that pass the check for keys. -/
def safeKeys (keys : List Text) : List Text := keys.filterMap fun key => (sanitizeKey key).toOption

/-- A deletion of the list is refused before anything is deleted. -/
def Refused (env : BatchEnv) (bucket : Text) (keys : List Text) : Prop :=
  (∃ e,sanitizeBucket bucket=.error e) ∨ ∃ key∈safeKeys keys,∃ e,env.countError key=some e

/-- The object that a key of the list stands for, if it is active and can be read. -/
def namedObject (env : BatchEnv) (table : ObjectTable Char) (bucket key : Text) :
    Option DeletedObjectRef :=
  if (env.fetchError key).isNone then
    (fetchActiveMetadata table bucket key).map fun row => ⟨key,row.storageClass⟩
  else none

/-- Active objects that the list names, as often as it names them. -/
def namedObjects (env : BatchEnv) (table : ObjectTable Char) (bucket : Text) (keys : List Text) :
    List DeletedObjectRef :=
  (safeKeys keys).filterMap (namedObject env table bucket)

/-- Those of them whose chunk is updated. -/
def updatedObjects (env : BatchEnv) (nodeId : Text) (pieces : List (List DeletedObjectRef)) :
    List DeletedObjectRef :=
  (pieces.filter fun chunk => (env.updateError nodeId (chunkKeys chunk)).isNone).flatten

section Chunks

variable {env : BatchEnv} {nodeId bucket : Text} {ttl : ℤ} {hook : Option CommitHook}

theorem isActiveKey_hardDeleteRow_other {other key : Text} (h : other≠bucket)
    (table : ObjectTable Char) (gone : Text) :
    isActiveKey (hardDeleteRow bucket table gone) other key=isActiveKey table other key := by
  have hne : (other,key)≠(bucket,gone) := fun heq => h (Prod.mk.inj heq).1
  unfold isActiveKey hardDeleteRow
  simp only [AList.lookup_erase_ne hne]

theorem isActiveKey_softDeleteRow_other {other key : Text} (h : other≠bucket) (now : ℤ)
    (table : ObjectTable Char) (gone : Text) :
    isActiveKey (softDeleteRow bucket now table gone) other key=isActiveKey table other key := by
  have hne : (other,key)≠(bucket,gone) := fun heq => h (Prod.mk.inj heq).1
  unfold softDeleteRow
  split
  · split
    · simp only [isActiveKey,replaceRow,AList.lookup_insert_ne hne]
    · rfl
  · rfl

theorem isActiveKey_foldl_other {remove : ObjectTable Char→Text→ObjectTable Char}
    {other key : Text} (hremove : ∀ table gone,
      isActiveKey (remove table gone) other key=isActiveKey table other key)
    (gone : List Text) (table : ObjectTable Char) :
    isActiveKey (gone.foldl remove table) other key=isActiveKey table other key := by
  induction gone generalizing table with
  | nil => rfl
  | cons first gone ih => rw [foldl_cons,ih,hremove]

/-- What some chunks of a deletion come to. -/
structure Deletes (bucket : Text) (hook : Option CommitHook)
    (removed : List DeletedObjectRef) (before after : Progress) : Prop where
  /-- Every object of an updated chunk counts. -/
  deleted : after.outcome.deleted=before.outcome.deleted+removed.length
  /-- Exactly their rows are not active any more. -/
  active : ∀ other key,isActiveKey after.table other key=true ↔
    isActiveKey before.table other key=true ∧ ¬(other=bucket ∧ key∈chunkKeys removed)
  /-- The hook is told of each of them. -/
  told : hook.isSome=true→after.reports.told=before.reports.told++removed
  /-- No error is made up without a hook. -/
  error : hook=none→after.reports.error=before.reports.error

theorem Deletes.refl (progress : Progress) : Deletes bucket hook [] progress progress where
  deleted := rfl
  active := by simp [chunkKeys]
  told := fun _ => (append_nil _).symm
  error := fun _ => rfl

theorem Deletes.trans {first rest : List DeletedObjectRef} {before middle after : Progress}
    (h : Deletes bucket hook first before middle) (hrest : Deletes bucket hook rest middle after) :
    Deletes bucket hook (first++rest) before after where
  deleted := by
    rw [hrest.deleted,h.deleted,length_append]
    omega
  active := by
    intro other key
    rw [hrest.active,h.active,chunkKeys,chunkKeys,chunkKeys,map_append,mem_append]
    tauto
  told := fun hhook => by rw [hrest.told hhook,h.told hhook,append_assoc]
  error := fun hhook => (hrest.error hhook).trans (h.error hhook)

theorem reportBulkDeletes_told (after : CommitHook) (reports : Reports)
    (deleted : List DeletedObjectRef) :
    (reportBulkDeletes (some after) reports deleted).told=reports.told++deleted := by
  simp only [reportBulkDeletes]
  induction deleted generalizing reports with
  | nil => simp
  | cons object deleted ih =>
    rw [foldl_cons,ih]
    simp [reportDelete]

theorem deleteChunkHooked_deletes (progress : Progress) (chunk : List DeletedObjectRef) :
    Deletes bucket hook (updatedObjects env nodeId [chunk]) progress
      (deleteChunkHooked env nodeId ttl bucket hook progress chunk) := by
  unfold deleteChunkHooked updatedObjects deleteChunk
  cases hupdate : env.updateError nodeId (chunkKeys chunk) with
  | some error =>
    have hfailed : env.updateError nodeId (chunk.map DeletedObjectRef.key)=some error := hupdate
    simp only [hfailed,filter_cons,hupdate,Option.isNone_some,Bool.false_eq_true,if_false,
      filter_nil,flatten_nil]
    exact ⟨rfl,by simp [chunkKeys],fun _ => (append_nil _).symm,fun _ => rfl⟩
  | none =>
    have hdone : env.updateError nodeId (chunk.map DeletedObjectRef.key)=none := hupdate
    simp only [hdone,filter_cons,hupdate,Option.isNone_none,if_true,filter_nil,
      flatten_cons,flatten_nil,append_nil]
    refine ⟨by simp,fun other key => ?_,fun hhook => ?_,fun hhook => ?_⟩
    · by_cases hother : other=bucket
      · subst hother
        simp only [true_and,chunkKeys]
        split
        · exact isActiveKey_foldl (fun table gone => isActiveKey_hardDeleteRow gone) _ _
        · exact isActiveKey_foldl (fun table gone => isActiveKey_softDeleteRow gone _) _ _
      · simp only [hother,false_and,not_false_eq_true,and_true]
        rw [Bool.coe_iff_coe]
        split
        · exact isActiveKey_foldl_other (isActiveKey_hardDeleteRow_other hother) _ _
        · exact isActiveKey_foldl_other (isActiveKey_softDeleteRow_other hother _) _ _
    · obtain ⟨after,rfl⟩ := Option.isSome_iff_exists.mp hhook
      exact reportBulkDeletes_told after progress.reports chunk
    · subst hhook
      rfl

theorem foldl_deletes (pieces : List (List DeletedObjectRef)) (progress : Progress) :
    Deletes bucket hook (updatedObjects env nodeId pieces) progress
      (pieces.foldl (deleteChunkHooked env nodeId ttl bucket hook) progress) := by
  induction pieces generalizing progress with
  | nil => exact .refl progress
  | cons chunk pieces ih =>
    have hsplit : updatedObjects env nodeId (chunk::pieces)=
        updatedObjects env nodeId [chunk]++updatedObjects env nodeId pieces := by
      unfold updatedObjects
      rw [← flatten_append,← filter_append,singleton_append]
    rw [hsplit,foldl_cons]
    exact (deleteChunkHooked_deletes progress chunk).trans (ih _)

end Chunks

section Lists

variable {env : BatchEnv} {nodeId bucket : Text} {node : Node} {table : ObjectTable Char}
  {keys : List Text} {hook : Option CommitHook}

theorem mem_activeObjects {object : Text×Text} :
    object∈activeObjects table ↔ isActiveKey table object.1 object.2=true := by
  unfold activeObjects isActiveKey
  rw [mem_toFinset,mem_map,Option.any_eq_true]
  constructor
  · rintro ⟨entry,hentry,rfl⟩
    obtain ⟨hmem,hactive⟩ := mem_filter.mp hentry
    exact ⟨entry.2,AList.mem_lookup_iff.mpr hmem,hactive⟩
  · rintro ⟨row,hrow,hactive⟩
    exact ⟨⟨object,row⟩,mem_filter.mpr ⟨AList.mem_lookup_iff.mp hrow,hactive⟩,rfl⟩

theorem fetchActiveMetadata_isSome (table : ObjectTable Char) (bucket key : Text) :
    (fetchActiveMetadata table bucket key).isSome=isActiveKey table bucket key := by
  unfold fetchActiveMetadata isActiveKey
  cases table.rows.lookup (bucket,key) with
  | none => rfl
  | some row => cases hactive : row.isActive <;> simp [hactive]

theorem active_of_mem_namedObjects {object : DeletedObjectRef}
    (h : object∈namedObjects env table bucket keys) : isActiveKey table bucket object.key=true := by
  obtain ⟨key,_,hobject⟩ := mem_filterMap.mp h
  unfold namedObject at hobject
  split at hobject
  · obtain ⟨row,hrow,rfl⟩ := Option.map_eq_some_iff.mp hobject
    rw [← fetchActiveMetadata_isSome,hrow]
    rfl
  · cases hobject

variable (env table bucket) in
theorem gatherKey_spec (pending : Pending) (key : Text) :
    (∃ safeKey∈safeKeys [key],∃ e,env.countError safeKey=some e ∧
      gatherKey env table bucket pending key=.error (.internal e)) ∨
    (∀ safeKey∈safeKeys [key],env.countError safeKey=none) ∧ ∃ failed,
      gatherKey env table bucket pending key=
        .ok (pending.1++namedObjects env table bucket [key],failed) := by
  unfold gatherKey namedObjects safeKeys
  cases hkey : sanitizeKey key with
  | error e =>
    have hsafe : [key].filterMap (fun key => (sanitizeKey key).toOption)=[] := by
      simp [hkey,Except.toOption]
    rw [hsafe]
    exact .inr ⟨by simp,pending.2++[⟨key,"invalid key".toList⟩],by simp⟩
  | ok safeKey =>
    have hsafe : [key].filterMap (fun key => (sanitizeKey key).toOption)=[safeKey] := by
      simp [hkey,Except.toOption]
    rw [hsafe]
    cases hcount : env.countError safeKey with
    | some e => exact .inl ⟨safeKey,mem_cons_self,e,hcount,by simp [hcount]⟩
    | none =>
      refine .inr ⟨by simpa using hcount,?_⟩
      have hsome := fetchActiveMetadata_isSome table bucket safeKey
      cases hactive : isActiveKey table bucket safeKey with
      | false =>
        have hnone : fetchActiveMetadata table bucket safeKey=none := by
          rw [← Option.not_isSome_iff_eq_none,hsome,hactive]
          decide
        exact ⟨pending.2,by simp [hcount,hactive,namedObject,hnone]⟩
      | true =>
        obtain ⟨row,hrow⟩ := Option.isSome_iff_exists.mp (hsome.trans hactive)
        cases hfetch : env.fetchError safeKey with
        | some e => exact ⟨pending.2++[⟨safeKey,e⟩],by simp [hcount,hactive,namedObject,hfetch]⟩
        | none => exact ⟨pending.2,by simp [hcount,hactive,namedObject,hfetch,hrow]⟩

variable (env table bucket) in
/-- Gathering fails with a lookup or adds the named objects. -/
theorem gatherKeys_spec (pending : Pending) (keys : List Text) :
    (∃ key∈safeKeys keys,∃ e,env.countError key=some e ∧
      gatherKeys env table bucket pending keys=.error (.internal e)) ∨
    (∀ key∈safeKeys keys,env.countError key=none) ∧ ∃ failed,
      gatherKeys env table bucket pending keys=
        .ok (pending.1++namedObjects env table bucket keys,failed) := by
  induction keys generalizing pending with
  | nil => exact .inr ⟨by simp [safeKeys],pending.2,by simp [gatherKeys,namedObjects,safeKeys]⟩
  | cons key keys ih =>
    have hsafe : safeKeys (key::keys)=safeKeys [key]++safeKeys keys := by
      unfold safeKeys
      rw [← filterMap_append,singleton_append]
    have hnamed : namedObjects env table bucket (key::keys)=
        namedObjects env table bucket [key]++namedObjects env table bucket keys := by
      unfold namedObjects
      rw [hsafe,filterMap_append]
    rw [hsafe,hnamed,gatherKeys]
    rcases gatherKey_spec env bucket table pending key with
      ⟨safeKey,hmem,e,hcount,hkey⟩ | ⟨hclear,failed,hkey⟩
    · exact .inl ⟨safeKey,mem_append_left _ hmem,e,hcount,by rw [hkey]⟩
    · rw [hkey]
      rcases ih (pending.1++namedObjects env table bucket [key],failed) with
        ⟨safeKey,hmem,e,hcount,hrest⟩ | ⟨hclear',failed',hrest⟩
      · exact .inl ⟨safeKey,mem_append_right _ hmem,e,hcount,hrest⟩
      · refine .inr ⟨fun safeKey hmem => ?_,failed',by simpa using hrest⟩
        exact (mem_append.mp hmem).elim (hclear safeKey) (hclear' safeKey)

theorem sanitizeBucket_eq_ok {safe : Text} (h : sanitizeBucket bucket=.ok safe) : safe=bucket := by
  unfold sanitizeBucket at h
  split_ifs at h
  exact (Except.ok.inj h).symm

/-- Objects that a deletion of the list removes, as often as the list names them. -/
def removedObjects (env : BatchEnv) (nodeId : Text) (node : Node) (bucket : Text)
    (keys : List Text) : List DeletedObjectRef :=
  updatedObjects env nodeId (chunks bulkDeleteChunk (namedObjects env node.table bucket keys))

/-- What a deletion of a list that is not refused comes to. -/
structure Carried (hook : Option CommitHook) (final : Progress) (result : BatchResult) : Prop where
  /-- The table is the one after the last chunk. -/
  table : result.table=final.table
  /-- The hook was told what the chunks reported. -/
  told : result.told=final.reports.told
  /-- The answer has the number of the chunks. -/
  deleted : ∀ outcome,result.answer=.ok outcome → outcome.deleted=final.outcome.deleted
  /-- Only the hook can fail. -/
  answered : hook=none→∃ outcome,result.answer=.ok outcome

/-- A deletion of a list is refused and does nothing, or removes what the list names. -/
theorem deleteObjectsBatchHooked_spec (env : BatchEnv) (nodeId : Text) (node : Node)
    (bucket : Text) (keys : List Text) (hook : Option CommitHook) : (Refused env bucket keys ∧ ∃ e,
      deleteObjectsBatchHooked env nodeId node bucket keys hook=.refused node e) ∨
    ¬Refused env bucket keys ∧ ∃ final,
      Deletes bucket hook (removedObjects env nodeId node bucket keys)
        ⟨.none,node.table,⟨[],none⟩⟩ final ∧
      Carried hook final (deleteObjectsBatchHooked env nodeId node bucket keys hook) := by
  unfold deleteObjectsBatchHooked
  cases hbucket : sanitizeBucket bucket with
  | error e => exact .inl ⟨.inl ⟨e,hbucket⟩,.invalidBucket,rfl⟩
  | ok safe =>
    obtain rfl := sanitizeBucket_eq_ok hbucket
    have hclear : (∀ key∈safeKeys keys,env.countError key=none)→¬Refused env safe keys := by
      rintro hnone (⟨e,he⟩ | ⟨key,hkey,e,he⟩)
      · rw [hbucket] at he
        cases he
      · rw [hnone key hkey] at he
        cases he
    by_cases hempty : keys=[]
    · subst hempty
      exact .inr ⟨hclear (by simp [safeKeys]),_,Deletes.refl _,rfl,rfl,
        fun outcome houtcome => (Except.ok.inj houtcome) ▸ rfl,fun _ => ⟨_,rfl⟩⟩
    simp only [List.isEmpty_iff,hempty,if_false]
    rcases gatherKeys_spec env safe node.table ([],[]) keys with
      ⟨key,hkey,e,hcount,hgather⟩ | ⟨hnone,failed,hgather⟩
    · rw [hgather]
      exact .inl ⟨.inr ⟨key,hkey,e,hcount⟩,_,rfl⟩
    · rw [hgather]
      have hdeletes : Deletes safe hook (removedObjects env nodeId node safe keys)
          ⟨.none,node.table,⟨[],none⟩⟩
          (deleteObjectsHooked env nodeId node safe hook
            (namedObjects env node.table safe keys)) := foldl_deletes _ _
      refine .inr ⟨hclear hnone,_,hdeletes,?_⟩
      simp only [List.nil_append]
      split
      · rename_i e herror
        refine ⟨rfl,rfl,fun _ houtcome => (nomatch houtcome),fun hhook => ?_⟩
        rw [hdeletes.error hhook] at herror
        cases herror
      · exact ⟨rfl,rfl,fun outcome houtcome => (Except.ok.inj houtcome) ▸ rfl,
          fun _ => ⟨_,rfl⟩⟩

theorem gone_eq {final : Progress} {result : BatchResult}
    (hdeletes : Deletes bucket hook (removedObjects env nodeId node bucket keys)
      ⟨.none,node.table,⟨[],none⟩⟩ final) (htable : result.table=final.table) : result.gone node=
      (chunkKeys (removedObjects env nodeId node bucket keys)).toFinset.image (bucket,·) := by
  have hnamed : ∀ key∈chunkKeys (removedObjects env nodeId node bucket keys),
      isActiveKey node.table bucket key=true := by
    intro key hkey
    obtain ⟨object,hobject,rfl⟩ := mem_map.mp hkey
    obtain ⟨piece,hpiece,hmem⟩ := mem_flatten.mp hobject
    have hwhole : object∈(chunks bulkDeleteChunk
        (namedObjects env node.table bucket keys)).flatten :=
      mem_flatten.mpr ⟨piece,(mem_filter.mp hpiece).1,hmem⟩
    rw [chunks_flatten (by decide)] at hwhole
    exact active_of_mem_namedObjects hwhole
  ext ⟨other,key⟩
  simp only [BatchResult.gone,Finset.mem_sdiff,mem_activeObjects,htable,hdeletes.active,
    Finset.mem_image,mem_toFinset,Prod.mk.injEq]
  constructor
  · rintro ⟨hactive,hgone⟩
    by_contra hnot
    exact hgone ⟨hactive,fun ⟨hother,hkey⟩ => hnot ⟨key,hkey,hother.symm,rfl⟩⟩
  · rintro ⟨_,hkey,rfl,rfl⟩
    exact ⟨hnamed _ hkey,fun ⟨_,hnot⟩ => hnot ⟨rfl,hkey⟩⟩

/-- A deletion of a list counts the objects it deletes and reports each of them once exactly
if it is refused, or the chunks that are updated name no object twice. -/
theorem batch_exact_iff (env : BatchEnv) (nodeId : Text) (node : Node) (bucket : Text)
    (keys : List Text) (hook : Option CommitHook) :
    Exact node bucket hook (deleteObjectsBatchHooked env nodeId node bucket keys hook) ↔
      Refused env bucket keys ∨ (chunkKeys (removedObjects env nodeId node bucket keys)).Nodup := by
  rcases deleteObjectsBatchHooked_spec env nodeId node bucket keys hook with
    ⟨hrefused,e,hresult⟩ | ⟨hrefused,final,hdeletes,hcarried⟩
  · have hnothing : (BatchResult.refused node e).gone node=∅ := Finset.sdiff_self _
    rw [hresult]
    refine iff_of_true ⟨fun _ houtcome => (nomatch houtcome),fun _ object hobject => ?_⟩
      (.inl hrefused)
    rw [hnothing] at hobject
    exact absurd hobject (Finset.notMem_empty object)
  · set removed := removedObjects env nodeId node bucket keys with hremoved
    set result := deleteObjectsBatchHooked env nodeId node bucket keys hook with hresult
    have hgone : result.gone node=(chunkKeys removed).toFinset.image (bucket,·) :=
      gone_eq hdeletes hcarried.table
    have hcard : (result.gone node).card=(chunkKeys removed).toFinset.card := by
      rw [hgone]
      exact Finset.card_image_of_injective _ fun _ _ heq => (Prod.mk.inj heq).2
    have hcount : ∀ outcome,result.answer=.ok outcome →
        outcome.deleted=(chunkKeys removed).length := by
      intro outcome houtcome
      rw [hcarried.deleted outcome houtcome,hdeletes.deleted,chunkKeys,length_map]
      exact Nat.zero_add _
    have htold : hook.isSome=true → result.told=removed := by
      intro hhook
      rw [hcarried.told,hdeletes.told hhook]
      exact nil_append _
    rw [or_iff_right hrefused]
    constructor
    · intro hexact
      cases hhook : hook with
      | none =>
        obtain ⟨outcome,houtcome⟩ := hcarried.answered hhook
        have hsame := hexact.counted outcome houtcome
        rw [hcount outcome houtcome,hcard] at hsame
        exact Multiset.toFinset_card_eq_card_iff_nodup.mp hsame.symm
      | some after =>
        have hsome : hook.isSome=true := hhook ▸ rfl
        refine nodup_iff_count_eq_one.mpr fun key hkey => ?_
        have hmem : (bucket,key)∈result.gone node := by
          rw [hgone]
          exact Finset.mem_image_of_mem _ (mem_toFinset.mpr hkey)
        rw [← htold hsome]
        exact (hexact.reported hsome _ hmem).2
    · intro hnodup
      refine ⟨fun outcome houtcome => ?_,fun hhook object hobject => ?_⟩
      · rw [hcount outcome houtcome,hcard,toFinset_card_of_nodup hnodup]
      · rw [hgone] at hobject
        obtain ⟨key,hkey,rfl⟩ := Finset.mem_image.mp hobject
        rw [htold hhook]
        exact ⟨rfl,count_eq_one_of_mem hnodup (mem_toFinset.mp hkey)⟩

end Lists

section Repeated

/-- A deletion that meets no error. -/
def quietBatch : BatchEnv := ⟨quietCall,fun _ => none,fun _ => none⟩

/-- A hook that takes every report. -/
def quietHook : CommitHook := fun _ _ => none

/-- A node with one object. -/
def oneObject : Node := sampleNode [['k']] (by decide) (by decide)

/-- Deleting a list that names the object twice. -/
def repeatedDeletion : BatchResult :=
  deleteObjectsBatchHooked quietBatch ['1'] oneObject ['b'] [['k'], ['k']] (some quietHook)

/-- Two deletions are counted, and the hook is told of the object twice, where one object is
gone. -/
theorem repeated_key_counted_twice :
    repeatedDeletion.answer.toOption.map DeletePrefixOutcome.deleted=some 2 ∧
    chunkKeys repeatedDeletion.told=[['k'], ['k']] ∧
    repeatedDeletion.gone oneObject={(['b'],['k'])} ∧
    ¬Exact oneObject ['b'] (some quietHook) repeatedDeletion := by
  have htold : chunkKeys repeatedDeletion.told=[['k'], ['k']] := by decide +kernel
  have hgone : repeatedDeletion.gone oneObject={(['b'],['k'])} := by decide +kernel
  refine ⟨by decide +kernel,htold,hgone,fun hexact => ?_⟩
  have honce := hexact.reported rfl (['b'],['k']) (by simp [hgone])
  rw [htold] at honce
  exact absurd honce.2 (by decide)

end Repeated

end NebularOs.BatchDeletion
