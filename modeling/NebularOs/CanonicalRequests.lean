import Mathlib
import NebularOs.FallibleSteps
import NebularOs.SeparatedText
import NebularOs.SigV4

/-!
# What a header signature binds

The canonical text of a request is a list of lines, none of which contains a line
break. Two requests with the same text therefore agree line by line: in the method,
the decoded path, the decoded pairs of the query up to order, the signed headers
with their values, and the payload hash.

The query is canonicalised with plus signs taken literally, while the handlers read
a plus sign as a space. A request whose query has a plus sign shares its signature
with a request of another meaning; all other requests do not.
-/

namespace NebularOs.SigV4

open UrlEncoding Signatures SeparatedText FallibleSteps List

/-- Lines of a canonical request. -/
def requestLines (parts : RequestParts) (query : Bytes) (signed lines : List Bytes)
    (payload : Bytes) : List Bytes :=
  [parts.method,canonicalUri parts.rawPath,query]++(lines++[[],[0x3B].intercalate signed,payload])

variable {signed : List Bytes} {canonical : Bytes}

theorem canonicalRequest_eq_ok {parts : RequestParts} {query : Bytes} {payload : Bytes} :
    canonicalRequest parts query signed payload=.ok canonical ↔
      ∃ lines,List.Forall₂ (fun name line => headerLine parts.headers name=.ok line) signed lines ∧
        canonical=[0x0A].intercalate (requestLines parts query signed lines payload) := by
  have hjoin : ∀ lines : List Bytes,
      parts.method++[0x0A]++canonicalUri parts.rawPath++[0x0A]++query++[0x0A]++
        lines.flatMap (fun line => line++[0x0A])++[0x0A]++[0x3B].intercalate signed++[0x0A]++
          payload=[0x0A].intercalate (requestLines parts query signed lines payload) := by
    intro lines
    rw [requestLines,intercalate_append _ (by simp),intercalate_append _ (by simp)]
    simp [List.intercalate]
  rw [canonicalRequest,bind_eq_ok]
  constructor
  · rintro ⟨lines,hlines,hcanonical⟩
    exact ⟨lines,mapM_eq_ok.mp hlines,(Except.ok.inj hcanonical).symm.trans (hjoin lines)⟩
  · rintro ⟨lines,hlines,rfl⟩
    exact ⟨lines,mapM_eq_ok.mpr hlines,congrArg Except.ok (hjoin lines)⟩

variable {headers : HeaderMap} {name : Bytes}

theorem headerLine_eq_ok {line : Bytes} : headerLine headers name=.ok line ↔
      ∃ values,joinedValues headers name=some values ∧ line=name++0x3A::values := by
  unfold headerLine
  cases joinedValues headers name with
  | none => simp
  | some values => simp [eq_comm]

theorem parseSignedHeaders_eq_ok {list : Bytes} {required : List Bytes}
    (h : parseSignedHeaders list headers required=.ok signed) :
    signed=signedNames list ∧ ∀ name∈signed,(headers.get name).isSome=true := by
  obtain ⟨_,h⟩ := ite_error_eq_ok.mp h
  obtain ⟨_,h⟩ := ite_error_eq_ok.mp h
  obtain ⟨_,h⟩ := ite_error_eq_ok.mp h
  obtain ⟨hpresent,h⟩ := ite_error_eq_ok.mp h
  cases h
  refine ⟨rfl,fun name hname => ?_⟩
  by_contra hnone
  refine hpresent (any_eq_true.mpr ⟨name,hname,?_⟩)
  simpa using hnone

variable {digests : Digests} {creds : Credentials}

theorem verifyHeader_eq_ok {parseDate : Bytes→Option ℤ} {parts : RequestParts}
    {authorization : Bytes} {now : ℤ} {payload : PayloadHash}
    (h : verifyHeader digests parseDate parts authorization creds now=.ok payload) :
    ∃ fields amzDate signed canonicalPayload canonical, readAuthorization authorization=.ok fields ∧
      parseSignedHeaders fields.signedHeaders parts.headers
        [ascii "host",ascii "x-amz-date"]=.ok signed ∧
      payloadHash parts.headers=.ok (payload,canonicalPayload) ∧
      canonicalRequest parts (canonicalQuery parts.rawQuery false) signed canonicalPayload=
        .ok canonical ∧
      checkSignature digests creds fields.credential amzDate canonical fields.signature=.ok () := by
  obtain ⟨fields,hfields,h⟩ := bind_eq_ok.mp h
  cases hdate : headerStr parts.headers (ascii "x-amz-date") with
  | none =>
    rw [hdate] at h
    cases h
  | some amzDate =>
    rw [hdate] at h
    obtain ⟨time,_,h⟩ := bind_eq_ok.mp h
    obtain ⟨_,h⟩ := ite_error_eq_ok.mp h
    obtain ⟨signed,hsigned,h⟩ := bind_eq_ok.mp h
    obtain ⟨⟨result,canonicalPayload⟩,hpayload,h⟩ := bind_eq_ok.mp h
    obtain ⟨canonical,hcanonical,h⟩ := bind_eq_ok.mp h
    obtain ⟨⟨⟩,hcheck,h⟩ := bind_eq_ok.mp h
    cases h
    exact ⟨fields,amzDate,signed,canonicalPayload,canonical,hfields,hsigned,hpayload,hcanonical,
      hcheck⟩

theorem not_mem_token {token : Bytes} (h : ∀ b∈token,isTokenByte b=true) {separator : UInt8}
    (hseparator : isTokenByte separator=false) : separator∉token := by
  intro hmem
  rw [h _ hmem] at hseparator
  cases hseparator

theorem isTokenByte_of_isSome_get (h : (headers.get name).isSome=true) : ∀ b∈name,isTokenByte b=true := by
  obtain ⟨value,hvalue⟩ := Option.isSome_iff_exists.mp h
  have hmem : value∈headers.getAll name := mem_of_head? hvalue
  obtain ⟨entry,hentry,_⟩ := mem_map.mp hmem
  have hfilter := mem_filter.mp hentry
  have hname : entry.1=name := by simpa using hfilter.2
  exact hname ▸ headers.names entry hfilter.1

theorem newline_not_mem_of_toStr {value text : Bytes} (h : toStr value=some text) :
    (0x0A : UInt8)∉text := by
  unfold toStr at h
  by_cases hall : value.all isVisibleByte=true
  · rw [if_pos hall] at h
    cases h
    intro hmem
    have hvisible := all_eq_true.mp hall _ hmem
    revert hvisible
    decide
  · rw [if_neg hall] at h
    cases h

theorem newline_not_mem_collapseWhitespace (value : Bytes) :
    (0x0A : UInt8)∉collapseWhitespace value := by
  refine not_mem_intercalate (by decide) fun word hword => ?_
  have hsplit := (mem_filter.mp hword).1
  intro hmem
  have hwhite := not_of_mem_splitOnP hsplit hmem
  revert hwhite
  decide

theorem newline_not_mem_joinedValues {values : Bytes} (h : joinedValues headers name=some values) :
    (0x0A : UInt8)∉values := by
  obtain ⟨collapsed,hcollapsed,rfl⟩ := Option.map_eq_some_iff.mp h
  refine not_mem_intercalate (by decide) fun value hvalue => ?_
  obtain ⟨given,hgiven⟩ := exists_of_mem_mapM hcollapsed value hvalue
  obtain ⟨text,_,rfl⟩ := Option.map_eq_some_iff.mp hgiven
  exact newline_not_mem_collapseWhitespace text

theorem newline_not_mem_canonicalUri (rawPath : Bytes) : (0x0A : UInt8)∉canonicalUri rawPath := by
  have hencode : (0x0A : UInt8)∉uriEncode (decodeBinary rawPath) false :=
    not_mem_encodeBytes (by decide) (by decide) (by decide) (by decide) _
  unfold canonicalUri
  by_cases hempty : (uriEncode (decodeBinary rawPath) false).isEmpty=true
  · simp only [hempty,if_true]
    decide
  · simp only [hempty]
    exact hencode

/-- Escaped pairs of a query in their order. -/
def encodedPairs (rawQuery : Bytes) : List (Bytes×Bytes) :=
  (decodedPairs rawQuery).map fun pair => (uriEncode pair.1 true,uriEncode pair.2 true)

theorem canonicalQuery_eq (rawQuery : Bytes) : canonicalQuery rawQuery false=[0x26].intercalate
      (((encodedPairs rawQuery).insertionSort PairLe).map fun pair => pair.1++[0x3D]++pair.2) := by
  have hpairs : (queryPairs rawQuery).map (fun pair =>
      (uriEncode (decodeBinary pair.1) true,uriEncode (decodeBinary pair.2) true))=
        encodedPairs rawQuery := by
    rw [encodedPairs,decodedPairs,map_map]
    rfl
  rw [canonicalQuery,hpairs]
  simp only [Bool.false_and,Bool.not_false,filter_true]

theorem not_mem_uriEncode {b : UInt8} (hreserved : isUnreserved b=false)
    (hpercent : b≠PercentCoding.percentSign) (bytes : Bytes) : b∉uriEncode bytes true := by
  have hkeeps : (isUnreserved b || (b==0x2F && !true))=false := by
    rw [hreserved,Bool.not_true,Bool.and_false,Bool.or_false]
  refine not_mem_encodeBytes hkeeps hpercent (fun hdigit => ?_) (fun hletter => ?_) bytes
  · simp [isUnreserved,hdigit] at hreserved
  · have hle : (0x46 : UInt8)≤0x5A := by decide
    have hupper : b≤0x5A := UInt8.le_trans hletter.2 hle
    simp [isUnreserved,hletter.1,hupper] at hreserved

theorem decodeBinary_uriEncode (bytes : Bytes) (encodeSlash : Bool) :
    decodeBinary (uriEncode bytes encodeSlash)=bytes := by
  cases encodeSlash with
  | false | true => exact decodeBinary_encodeBytes (by decide) bytes

variable {rawQuery : Bytes}

theorem not_mem_sortedPairs {pair : Bytes×Bytes}
    (hpair : pair∈(encodedPairs rawQuery).insertionSort PairLe) {b : UInt8}
    (hreserved : isUnreserved b=false) (hpercent : b≠PercentCoding.percentSign) :
    b∉pair.1 ∧ b∉pair.2 := by
  rw [mem_insertionSort] at hpair
  obtain ⟨decoded,_,rfl⟩ := mem_map.mp hpair
  exact ⟨not_mem_uriEncode hreserved hpercent _,not_mem_uriEncode hreserved hpercent _⟩

theorem newline_not_mem_canonicalQuery (rawQuery : Bytes) :
    (0x0A : UInt8)∉canonicalQuery rawQuery false := by
  rw [canonicalQuery_eq]
  refine not_mem_intercalate (by decide) fun part hpart => ?_
  obtain ⟨pair,hpair,rfl⟩ := mem_map.mp hpart
  have habsent := not_mem_sortedPairs hpair (b := 0x0A) (by decide) (by decide)
  simp only [mem_append,mem_singleton,not_or]
  exact ⟨⟨habsent.1,by decide⟩,habsent.2⟩

theorem queryPairs_canonicalQuery (rawQuery : Bytes) :
    queryPairs (canonicalQuery rawQuery false)=(encodedPairs rawQuery).insertionSort PairLe := by
  rw [canonicalQuery_eq]
  refine queryPairs_join fun pair hpair => ?_
  exact ⟨(not_mem_sortedPairs hpair (by decide) (by decide)).1,
    not_mem_sortedPairs hpair (by decide) (by decide)⟩

theorem decodedPairs_canonicalQuery (rawQuery : Bytes) :
    (decodedPairs (canonicalQuery rawQuery false)).Perm (decodedPairs rawQuery) := by
  have hdecode : (encodedPairs rawQuery).map
      (fun pair => (decodeBinary pair.1,decodeBinary pair.2))=decodedPairs rawQuery := by
    rw [encodedPairs,map_map]
    refine (map_congr_left fun pair _ => ?_).trans (map_id _)
    simp only [Function.comp_apply,decodeBinary_uriEncode,id]
  have hperm := (perm_insertionSort PairLe (encodedPairs rawQuery)).map
    fun pair => (decodeBinary pair.1,decodeBinary pair.2)
  rwa [hdecode,← queryPairs_canonicalQuery] at hperm

theorem decodedPairs_perm_of_canonicalQuery_eq {rawQuery' : Bytes}
    (h : canonicalQuery rawQuery false=canonicalQuery rawQuery' false) :
    (decodedPairs rawQuery).Perm (decodedPairs rawQuery') := by
  have hperm := decodedPairs_canonicalQuery rawQuery
  rw [h] at hperm
  exact hperm.symm.trans (decodedPairs_canonicalQuery rawQuery')

/-- Any two pairs are in order, one way or the other. -/
instance pairLe_total : Std.Total PairLe where
  total first second := by
    rcases Std.lt_trichotomy first.1 second.1 with hlt | heq | hgt
    · exact Or.inl (Or.inl hlt)
    · rcases List.le_total first.2 second.2 with hle | hge
      · exact Or.inl (Or.inr ⟨heq,hle⟩)
      · exact Or.inr (Or.inr ⟨heq.symm,hge⟩)
    · exact Or.inr (Or.inl hgt)

/-- The order of pairs is transitive. -/
instance pairLe_trans : IsTrans (Bytes×Bytes) PairLe where
  trans first second third h h' := by
    rcases h with hlt | ⟨heq,hle⟩
    · rcases h' with hlt' | ⟨heq',_⟩
      · exact Or.inl (Std.lt_trans hlt hlt')
      · exact Or.inl (heq' ▸ hlt)
    · rcases h' with hlt' | ⟨heq',hle'⟩
      · exact Or.inl (heq ▸ hlt')
      · exact Or.inr ⟨heq.trans heq',Std.le_trans hle hle'⟩

theorem pairLe_antisymm {first second : Bytes×Bytes} (h : PairLe first second)
    (h' : PairLe second first) : first=second := by
  rcases h with hlt | ⟨heq,hle⟩
  · rcases h' with hlt' | ⟨heq',_⟩
    · exact absurd (Std.lt_trans hlt hlt') Std.lt_irrefl
    · exact absurd hlt (heq' ▸ Std.lt_irrefl)
  · rcases h' with hlt' | ⟨_,hle'⟩
    · exact absurd hlt' (heq ▸ Std.lt_irrefl)
    · exact Prod.ext heq (Std.le_antisymm hle hle')

theorem canonicalQuery_eq_of_perm {rawQuery' : Bytes}
    (h : (decodedPairs rawQuery).Perm (decodedPairs rawQuery')) :
    canonicalQuery rawQuery false=canonicalQuery rawQuery' false := by
  have hencoded : (encodedPairs rawQuery).Perm (encodedPairs rawQuery') := h.map _
  have hperm := (perm_insertionSort PairLe (encodedPairs rawQuery)).trans
    (hencoded.trans (perm_insertionSort PairLe (encodedPairs rawQuery')).symm)
  have hsorted := hperm.eq_of_pairwise (fun _ _ _ _ => pairLe_antisymm)
    (pairwise_insertionSort PairLe _) (pairwise_insertionSort PairLe _)
  rw [canonicalQuery_eq,hsorted,← canonicalQuery_eq]

/-- Queries have the same canonical form if and only if their decoded pairs are the same
up to order. The form does not depend on the order of the pairs, and is its own canonical
form. -/
theorem canonicalQuery_eq_iff (rawQuery rawQuery' : Bytes) :
    (canonicalQuery rawQuery false=canonicalQuery rawQuery' false ↔
      (decodedPairs rawQuery : Multiset (Bytes×Bytes))=decodedPairs rawQuery') ∧
    ((rawQuery.splitOn 0x26).Perm (rawQuery'.splitOn 0x26) →
      canonicalQuery rawQuery false=canonicalQuery rawQuery' false) ∧
    canonicalQuery (canonicalQuery rawQuery false) false=canonicalQuery rawQuery false := by
  constructor
  · rw [Multiset.coe_eq_coe]
    exact ⟨decodedPairs_perm_of_canonicalQuery_eq,canonicalQuery_eq_of_perm⟩
  · constructor
    · intro hparts
      exact canonicalQuery_eq_of_perm (((hparts.filter _).map splitPair).map _)
    · exact canonicalQuery_eq_of_perm (decodedPairs_canonicalQuery rawQuery)

/-- The order of two parameters does not matter. -/
theorem swapped_parameters_canonicalQuery :
    canonicalQuery (ascii "b=2&a") false=canonicalQuery (ascii "a&b=2") false :=
  (canonicalQuery_eq_iff (ascii "b=2&a") (ascii "a&b=2")).2.1 (by decide)

/-- The decoded path. The empty path is the root. -/
def decodedPath (rawPath : Bytes) : Bytes :=
  let path := decodeBinary rawPath
  if path.isEmpty then [0x2F] else path

theorem canonicalUri_eq (rawPath : Bytes) :
    canonicalUri rawPath=uriEncode (decodedPath rawPath) false := by
  unfold canonicalUri decodedPath
  cases hpath : decodeBinary rawPath with
  | nil => decide
  | cons b path =>
    have hne : uriEncode (b::path) false≠[] := by
      intro hnil
      have hdecode := decodeBinary_uriEncode (b::path) false
      rw [hnil] at hdecode
      cases hdecode
    simp [hne]

theorem decodedPath_eq_of_canonicalUri_eq {rawPath rawPath' : Bytes}
    (h : canonicalUri rawPath=canonicalUri rawPath') : decodedPath rawPath=decodedPath rawPath' := by
  rw [canonicalUri_eq,canonicalUri_eq] at h
  rw [← decodeBinary_uriEncode (decodedPath rawPath) false,h,decodeBinary_uriEncode]

/-- The payload hash that its canonical text stands for. -/
def payloadOf (text : Bytes) : Except SigV4Error PayloadHash :=
  if text=unsignedPayload then .ok .unsigned else (decodeSha256 text).map .sha256

theorem payloadHash_eq_ok {payload : PayloadHash} {text : Bytes}
    (h : payloadHash headers=.ok (payload,text)) :
    (0x0A : UInt8)∉text ∧ payloadOf text=.ok payload := by
  have hmap : ∀ {value : Bytes},value≠unsignedPayload →
      (decodeSha256 value).map (fun digest => (PayloadHash.sha256 digest,value))=.ok (payload,text) →
        text=value ∧ payloadOf text=.ok payload := by
    intro value hne hvalue
    cases hdigest : decodeSha256 value with
    | error e =>
      rw [hdigest] at hvalue
      cases hvalue
    | ok digest =>
      rw [hdigest] at hvalue
      cases hvalue
      rw [payloadOf,if_neg hne,hdigest]
      exact ⟨rfl,rfl⟩
  unfold payloadHash at h
  cases hheader : headerStr headers (ascii "x-amz-content-sha256") with
  | none =>
    rw [hheader] at h
    obtain ⟨rfl,hpayload⟩ := hmap (by decide) h
    exact ⟨by decide,hpayload⟩
  | some value =>
    rw [hheader] at h
    obtain ⟨_,_,hvalue⟩ := Option.bind_eq_some_iff.mp hheader
    have hline := newline_not_mem_of_toStr hvalue
    by_cases hunsigned : value=unsignedPayload
    · simp only [hunsigned,if_true] at h
      cases h
      exact ⟨by decide,rfl⟩
    · simp only [hunsigned,if_false] at h
      obtain ⟨_,h⟩ := ite_error_eq_ok.mp h
      obtain ⟨rfl,hpayload⟩ := hmap hunsigned h
      exact ⟨hline,hpayload⟩

theorem signed_eq_of_lines {headers' : HeaderMap} {signed' lines : List Bytes}
    (htoken : ∀ name∈signed,(0x3A : UInt8)∉name) (htoken' : ∀ name∈signed',(0x3A : UInt8)∉name)
    (h : List.Forall₂ (fun name line => headerLine headers name=.ok line) signed lines)
    (h' : List.Forall₂ (fun name line => headerLine headers' name=.ok line) signed' lines) :
    signed=signed' ∧ ∀ name∈signed,joinedValues headers name=joinedValues headers' name := by
  induction h generalizing signed' with
  | nil =>
    cases h'
    exact ⟨rfl,fun _ hname => by cases hname⟩
  | @cons name line signed lines hline _ ih =>
    obtain ⟨name',rest',hline',hrest',rfl⟩ := forall₂_cons_right_iff.mp h'
    obtain ⟨values,hvalues,rfl⟩ := headerLine_eq_ok.mp hline
    obtain ⟨values',hvalues',heq⟩ := headerLine_eq_ok.mp hline'
    obtain ⟨rfl,rfl⟩ := append_cons_inj_of_first (htoken name mem_cons_self)
      (htoken' name' mem_cons_self) heq
    obtain ⟨rfl,hall⟩ := ih (fun other hother => htoken other (mem_cons_of_mem _ hother))
      (fun other hother => htoken' other (mem_cons_of_mem _ hother)) hrest'
    refine ⟨rfl,fun other hother => ?_⟩
    rcases mem_cons.mp hother with rfl | hother
    · rw [hvalues,hvalues']
    · exact hall other hother

theorem newline_not_mem_requestLines {parts : RequestParts} {query : Bytes} {lines : List Bytes}
    {payload : Bytes} (hquery : (0x0A : UInt8)∉query)
    (hsigned : ∀ name∈signed,∀ b∈name,isTokenByte b=true)
    (hlines : List.Forall₂ (fun name line => headerLine parts.headers name=.ok line) signed lines)
    (hpayload : (0x0A : UInt8)∉payload) :
    ∀ line∈requestLines parts query signed lines payload,(0x0A : UInt8)∉line := by
  have hname : ∀ name∈signed,(0x0A : UInt8)∉name := fun name hmem =>
    not_mem_token (hsigned name hmem) (by decide)
  have hheader : ∀ line∈lines,(0x0A : UInt8)∉line := by
    intro line hline
    induction hlines with
    | nil => cases hline
    | @cons name first signed lines hfirst _ ih =>
      rcases mem_cons.mp hline with rfl | hline
      · obtain ⟨values,hvalues,rfl⟩ := headerLine_eq_ok.mp hfirst
        simp only [mem_append,mem_cons,not_or]
        exact ⟨hname name mem_cons_self,by decide,newline_not_mem_joinedValues hvalues⟩
      · exact ih (fun other hother => hsigned other (mem_cons_of_mem _ hother))
          (fun other hother => hname other (mem_cons_of_mem _ hother)) hline
  intro line hline
  simp only [requestLines,mem_append,mem_cons,not_mem_nil,or_false] at hline
  rcases hline with (rfl | rfl | rfl) | hline | rfl | rfl | rfl
  · exact not_mem_token parts.token (by decide)
  · exact newline_not_mem_canonicalUri parts.rawPath
  · exact hquery
  · exact hheader line hline
  · exact not_mem_nil
  · exact not_mem_intercalate (by decide) hname
  · exact hpayload

theorem checkSignature_eq_ok {credential amzDate signature : Bytes}
    (h : checkSignature digests creds credential amzDate canonical signature=.ok ()) :
    ∃ key scope,toAsciiLowercase signature=
      hexEncode (digests.hmac key (stringToSign digests amzDate scope canonical)) := by
  unfold checkSignature at h
  cases hcredential : splitOnce 0x2F credential with
  | none =>
    rw [hcredential] at h
    cases h
  | some parts =>
    obtain ⟨accessKey,scope⟩ := parts
    simp only [hcredential] at h
    split at h
    · obtain ⟨_,h⟩ := ite_error_eq_ok.mp h
      obtain ⟨_,h⟩ := ite_error_eq_ok.mp h
      split at h
      · rename_i hequal
        exact ⟨_,scope,constantTimeEq_iff.mp hequal⟩
      · cases h
    · cases h

theorem canonical_eq_of_signature_eq (hdigests : digests.CollisionFree)
    {credential credential' amzDate amzDate' canonical' : Bytes} {signature : Bytes}
    (h : checkSignature digests creds credential amzDate canonical signature=.ok ())
    (h' : checkSignature digests creds credential' amzDate' canonical' signature=.ok ()) :
    canonical=canonical' := by
  obtain ⟨key,scope,hcode⟩ := checkSignature_eq_ok h
  obtain ⟨key',scope',hcode'⟩ := checkSignature_eq_ok h'
  have hsigned := (hdigests.hmac (hexEncode_injective (hcode.symm.trans hcode'))).2
  simp only [stringToSign,append_assoc,singleton_append] at hsigned
  have hlast := @eq_of_append_cons_of_last UInt8 0x0A
    (algorithm++0x0A::(amzDate++0x0A::scope)) (algorithm++0x0A::(amzDate'++0x0A::scope')) _ _
    (newline_not_mem_hexEncode _) (newline_not_mem_hexEncode _) (by simpa using hsigned)
  exact hdigests.sha256 (hexEncode_injective hlast)

section Accepted

variable {digests : Digests} {parseDate : Bytes→Option ℤ} {creds : Credentials}

variable (digests parseDate creds) in
/-- A request that passes the check. -/
structure AcceptedRequest where
  /-- The request. -/
  parts : RequestParts
  /-- Its authorization header. -/
  authorization : Bytes
  /-- Time of the check. -/
  now : ℤ
  /-- Payload hash that the check returns. -/
  payload : PayloadHash
  /-- The check passes. -/
  accepted : verifyHeader digests parseDate parts authorization creds now=.ok payload

/-- Signature of an authorization header. -/
def signatureOf (authorization : Bytes) : Option Bytes :=
  (readAuthorization authorization).toOption.map Authorization.signature

/-- Names of the headers that an authorization header signs. -/
def signedHeadersOf (authorization : Bytes) : List Bytes :=
  ((readAuthorization authorization).toOption.map fun fields =>
    signedNames fields.signedHeaders).getD []

/-- Requests that mean the same to the handlers. -/
structure SameMeaning (first second : AcceptedRequest digests parseDate creds) : Prop where
  /-- The methods are equal. -/
  method : first.parts.method=second.parts.method
  /-- The decoded paths are equal. -/
  path : decodedPath first.parts.rawPath=decodedPath second.parts.rawPath
  /-- The same headers are signed. -/
  signedHeaders : signedHeadersOf first.authorization=signedHeadersOf second.authorization
  /-- Signed headers have the same values. -/
  values : ∀ name∈signedHeadersOf first.authorization,
    joinedValues first.parts.headers name=joinedValues second.parts.headers name
  /-- The payload hashes are equal. -/
  payload : first.payload=second.payload
  /-- The handlers read the same parameters up to their order. -/
  parameters : (formParse first.parts.rawQuery).Perm (formParse second.parts.rawQuery)

/-- Requests with the same signature agree in all but the spelling of the query. -/
theorem sameMeaning_of_signature_eq (hdigests : digests.CollisionFree)
    {first second : AcceptedRequest digests parseDate creds}
    (h : signatureOf first.authorization=signatureOf second.authorization)
    (hplus : PlusFree first.parts.rawQuery) : SameMeaning first second := by
  obtain ⟨fields,amzDate,signed,text,canonical,hfields,hsigned,hpayload,hcanonical,hcheck⟩ :=
    verifyHeader_eq_ok first.accepted
  obtain ⟨fields',amzDate',signed',text',canonical',hfields',hsigned',hpayload',hcanonical',
    hcheck'⟩ := verifyHeader_eq_ok second.accepted
  have hsignature : fields.signature=fields'.signature := by
    simpa [signatureOf,hfields,hfields',Except.toOption] using h
  rw [← hsignature] at hcheck'
  have hequal := canonical_eq_of_signature_eq hdigests hcheck hcheck'
  obtain ⟨rfl,hpresent⟩ := parseSignedHeaders_eq_ok hsigned
  obtain ⟨rfl,hpresent'⟩ := parseSignedHeaders_eq_ok hsigned'
  have htoken := fun name hname => isTokenByte_of_isSome_get (hpresent name hname)
  have htoken' := fun name hname => isTokenByte_of_isSome_get (hpresent' name hname)
  have hcolon : isTokenByte 0x3A=false := by decide
  obtain ⟨htext,htextPayload⟩ := payloadHash_eq_ok hpayload
  obtain ⟨htext',htextPayload'⟩ := payloadHash_eq_ok hpayload'
  obtain ⟨lines,hlines,rfl⟩ := canonicalRequest_eq_ok.mp hcanonical
  obtain ⟨lines',hlines',rfl⟩ := canonicalRequest_eq_ok.mp hcanonical'
  -- Equal texts have equal lines: first the three fixed ones, then the headers, then the rest.
  have hall := intercalate_inj
    (newline_not_mem_requestLines (newline_not_mem_canonicalQuery _) htoken hlines htext)
    (newline_not_mem_requestLines (newline_not_mem_canonicalQuery _) htoken' hlines' htext')
    (by simp [requestLines]) (by simp [requestLines]) hequal
  have hfixed := append_inj hall rfl
  have hrest := append_inj' hfixed.2 rfl
  simp only [List.cons.injEq,and_true] at hfixed hrest
  obtain ⟨⟨hmethod,huri,hquery⟩,_⟩ := hfixed
  obtain ⟨rfl,_,_,rfl⟩ := hrest
  obtain ⟨hnames,hvalues⟩ := signed_eq_of_lines
    (fun name hname => not_mem_token (htoken name hname) hcolon)
    (fun name hname => not_mem_token (htoken' name hname) hcolon) hlines hlines'
  have hpairs := decodedPairs_perm_of_canonicalQuery_eq hquery
  have hplus' : PlusFree second.parts.rawQuery := fun pair hpair =>
    hplus pair (hpairs.mem_iff.mpr hpair)
  have hsignedHeaders : ∀ {authorization : Bytes} {read : Authorization},
      readAuthorization authorization=.ok read →
        signedHeadersOf authorization=signedNames read.signedHeaders := by
    intro authorization read hread
    rw [signedHeadersOf,hread]
    rfl
  have hparameters : (formParse first.parts.rawQuery).Perm (formParse second.parts.rawQuery) := by
    rw [formParse_of_plusFree hplus,formParse_of_plusFree hplus']
    exact hpairs.map _
  exact
    { method := hmethod
      path := decodedPath_eq_of_canonicalUri_eq huri
      signedHeaders := by rw [hsignedHeaders hfields,hsignedHeaders hfields',hnames]
      values := by
        rwa [hsignedHeaders hfields]
      payload := Except.ok.inj (htextPayload.symm.trans htextPayload')
      parameters := hparameters }

/-- A request with its query spelled in another way. -/
def RequestParts.withQuery (parts : RequestParts) (rawQuery : Bytes) : RequestParts :=
  {parts with rawQuery := rawQuery}

theorem verifyHeader_withQuery {parts : RequestParts} {rawQuery authorization : Bytes} {now : ℤ}
    (h : decodedPairs rawQuery=decodedPairs parts.rawQuery) :
    verifyHeader digests parseDate (parts.withQuery rawQuery) authorization creds now=
      verifyHeader digests parseDate parts authorization creds now := by
  have hquery : canonicalQuery rawQuery false=canonicalQuery parts.rawQuery false := by
    exact canonicalQuery_eq_of_perm (h ▸ List.Perm.refl _)
  unfold verifyHeader
  simp only [RequestParts.withQuery,hquery]
  rfl

/-- A request with its query spelled in another way passes the check, too. -/
def AcceptedRequest.respelled (request : AcceptedRequest digests parseDate creds)
    {keeps : UInt8→Bool} (h : Spelling keeps) : AcceptedRequest digests parseDate creds :=
  { request with
    parts := request.parts.withQuery (respell keeps request.parts.rawQuery)
    accepted := (verifyHeader_withQuery (decodedPairs_respell h _)).trans request.accepted }

/-- Spelling with plain plus signs. -/
def keepsPlus (b : UInt8) : Bool := b==0x2B

/-- Spelling that escapes everything. -/
def keepsNothing (_ : UInt8) : Bool := false

/-- The signature of an accepted request can be used for nothing else exactly if its
query has no plus sign, plain or escaped. -/
theorem signature_binds_meaning_iff (hdigests : digests.CollisionFree)
    (request : AcceptedRequest digests parseDate creds) :
    (∀ other : AcceptedRequest digests parseDate creds,
      signatureOf request.authorization=signatureOf other.authorization →
        SameMeaning request other) ↔ PlusFree request.parts.rawQuery := by
  have hkeeps : Spelling keepsPlus := ⟨by decide,by decide,by decide⟩
  have hescapes : Spelling keepsNothing := ⟨rfl,rfl,rfl⟩
  constructor
  · intro hbinds
    by_contra hplus
    have hplain := (hbinds (request.respelled hkeeps) rfl).parameters
    have hescaped := (hbinds (request.respelled hescapes) rfl).parameters
    exact respell_not_perm hkeeps hescapes rfl rfl hplus (hplain.symm.trans hescaped)
  · intro hplus other hsignature
    exact sameMeaning_of_signature_eq hdigests hsignature hplus

end Accepted

/-- An access key. -/
def sampleCreds : Credentials := ⟨ascii "K",ascii "S"⟩

/-- Headers of a request to the host `h`. -/
def sampleHeaders : HeaderMap where
  entries := [(ascii "host",ascii "h"),(ascii "x-amz-date",ascii "D")]
  names := by decide +kernel
  values := by decide +kernel

/-- Deletion in the bucket `b`, by a query. -/
def sampleParts (query : Bytes) : RequestParts where
  method := ascii "DELETE"
  rawPath := ascii "/b"
  rawQuery := query
  headers := sampleHeaders
  token := by decide +kernel

/-- The authorization header of a deletion. -/
def sampleAuthorization (query : Bytes) : Bytes :=
  let canonical := canonicalRequest (sampleParts query) (canonicalQuery query false)
    [ascii "host",ascii "x-amz-date"] emptySha256
  let key := signingKey plainDigests (ascii "S") (ascii "D") (ascii "r")
  ascii "AWS4-HMAC-SHA256 Credential=K/D/r/s3/aws4_request,SignedHeaders=host;x-amz-date,Signature="++
    hexEncode (plainDigests.hmac key
      (stringToSign plainDigests (ascii "D") (ascii "D/r/s3/aws4_request")
        (canonical.toOption.getD [])))

/-- Payload hash of the empty body. -/
def samplePayload : PayloadHash :=
  .sha256 ((hexDecode emptySha256).getD [])

/-- The deletion of everything under `ab`. -/
def sampleDeletion : AcceptedRequest plainDigests (fun _ => some 0) sampleCreds where
  parts := sampleParts (ascii "prefix=ab")
  authorization := sampleAuthorization (ascii "prefix=ab")
  now := 0
  payload := samplePayload
  accepted := by decide +kernel

/-- The signature of the deletion of everything under `ab` can be used for nothing
else. -/
theorem sampleDeletion_signature_binds : PlusFree (ascii "prefix=ab") ∧
      ∀ other : AcceptedRequest plainDigests (fun _ => some 0) sampleCreds,
        signatureOf sampleDeletion.authorization=signatureOf other.authorization →
          SameMeaning sampleDeletion other := by
  have hplus : PlusFree (ascii "prefix=ab") := by
    unfold PlusFree
    decide +kernel
  exact ⟨hplus,(signature_binds_meaning_iff plainDigests_collisionFree sampleDeletion).mpr hplus⟩

/-- The deletion of everything under `a b`. -/
def plusDeletion : AcceptedRequest plainDigests (fun _ => some 0) sampleCreds where
  parts := sampleParts (ascii "prefix=a+b")
  authorization := sampleAuthorization (ascii "prefix=a+b")
  now := 0
  payload := samplePayload
  accepted := by decide +kernel

/-- The same request with the plus sign escaped. -/
def escapedDeletion : AcceptedRequest plainDigests (fun _ => some 0) sampleCreds :=
  { plusDeletion with
    parts := plusDeletion.parts.withQuery (ascii "prefix=a%2Bb")
    accepted := (verifyHeader_withQuery (by decide +kernel)).trans plusDeletion.accepted }

/-- One signature deletes everything under `a b` and everything under `a+b`. -/
theorem signature_deletes_other_objects : plainDigests.CollisionFree ∧
      signatureOf plusDeletion.authorization=signatureOf escapedDeletion.authorization ∧
      formParse plusDeletion.parts.rawQuery=[("prefix".toList,"a b".toList)] ∧
      formParse escapedDeletion.parts.rawQuery=[("prefix".toList,"a+b".toList)] ∧
      ¬SameMeaning plusDeletion escapedDeletion := by
  have hfirst : formParse plusDeletion.parts.rawQuery=[("prefix".toList,"a b".toList)] := by
    decide +kernel
  have hsecond : formParse escapedDeletion.parts.rawQuery=[("prefix".toList,"a+b".toList)] := by
    decide +kernel
  refine ⟨plainDigests_collisionFree,rfl,hfirst,hsecond,fun hsame => ?_⟩
  have hperm := hsame.parameters
  rw [hfirst,hsecond,singleton_perm_singleton] at hperm
  revert hperm
  decide

end NebularOs.SigV4
