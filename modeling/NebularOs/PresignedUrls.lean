import Mathlib
import NebularOs.FallibleSteps
import NebularOs.PrefixDeletion
import NebularOs.SeparatedText
import NebularOs.Signatures

/-!
# Presigned URLs

A presigned URL carries a signature over the method, the bucket, the key and the
expiry, one to a line. The request is authenticated from its path and query; bucket
and key are checked for line breaks only later, where they are used. Both checks
together make the signature stand for one object, method and expiry.
-/

namespace NebularOs.PresignedUrls

open UrlEncoding Utf8Scanning Signatures SeparatedText FallibleSteps BlobFilenames BlobPaths
open PrefixDeletion List

/-- Characters of methods. -/
def isTokenChar (c : Char) : Bool :=
  decide (0x21 ≤ c.toNat ∧ c.toNat≤0x7E) && !("\"(),/:;<=>?@[\\]\x7b\x7d".toList.contains c)

/-- A request as the presigned check sees it. -/
structure Request where
  /-- Method of the request. -/
  method : Text
  /-- Path of the request, still percent-encoded. -/
  path : Text
  /-- Query of the request. -/
  query : Text
  /-- The request was routed to an object. -/
  onObjectRoute : Bool
  /-- Methods are tokens. -/
  token : method.all isTokenChar=true

/-- What a presigned URL opens. -/
structure Grant where
  /-- Bucket of the object. -/
  bucket : Text
  /-- Key of the object. -/
  key : Text
  /-- Last second of the URL, in seconds of the epoch. -/
  expires : ℕ
  deriving DecidableEq

/-- How far clocks of signers may run ahead, in seconds. -/
def presignClockSkewSecs : ℕ := 300

/-- Largest 64-bit number. -/
def u64Max : ℕ := 18446744073709551615

/-- Sum that stops at the largest 64-bit number. -/
def saturatingAdd (a b : ℕ) : ℕ := min (a+b) u64Max

/-- A 64-bit number in decimal notation, with an optional plus sign. -/
def parseU64 (text : Text) : Option ℕ :=
  let digits := if text.head?=some '+' then text.tail else text
  if digits.isEmpty || !digits.all Char.isDigit then none
  else
    let n := Nat.ofDigitChars 10 digits 0
    if n≤u64Max then some n else none

/-- Upper case of a method. -/
def toUppercase (method : Text) : Text := method.map Char.toUpper

/-- Parameters that the presigned check collects. -/
structure Parameters where
  /-- The last signature. -/
  signature : Option Text
  /-- The last expiry, if it is a number. -/
  expires : Option ℕ

/-- One parameter of the query. -/
def readParameter (parameters : Parameters) (pair : Text×Text) : Parameters :=
  if pair.1="signature".toList then {parameters with signature := some pair.2}
  else if pair.1="expires".toList then {parameters with expires := parseU64 pair.2}
  else parameters

/-- Signature and expiry of a query. -/
def readParameters (query : Text) : Parameters :=
  (formParse (utf8 query)).foldl readParameter ⟨none,none⟩

/-- A part of the path without its escapes, or as it is where that is no text. -/
def decodeSegment (segment : Text) : Text :=
  (fromUtf8 (decodeBinary (utf8 segment))).getD segment

/-- Bucket and key of a path. -/
def splitPath (path : Text) : Text×Text :=
  let path := path.dropWhile (· = '/')
  (decodeSegment (path.takeWhile (· ≠ '/')),decodeSegment ((path.dropWhile (· ≠ '/')).drop 1))

/-- The text that is signed. -/
def signedPayload (method bucket key : Text) (expires : ℕ) : Text :=
  toUppercase method++['\n']++bucket++['\n']++key++['\n']++Nat.toDigits 10 expires

section Authentication

variable (digests : Digests)

/-- Signature of a presigned URL. -/
def generateSignature (method secret bucket key : Text) (expires : ℕ) : Bytes :=
  hexEncode (digests.hmac (utf8 secret) (utf8 (signedPayload method bucket key expires)))

/-- Check of a signature at a time, if the clock is past the epoch. -/
def verifySignature (method secret bucket key : Text) (expires : ℕ) (signature : Text)
    (now : Option ℕ) : Bool :=
  match now with
  | none => false
  | some now =>
    if expires≤now then false
    else constantTimeEq (utf8 signature) (generateSignature digests method secret bucket key expires)

/-- Authentication of a request by its presigned URL. The clock is read twice: for
the longest lifetime, and for the signature. -/
def authenticate (secret : Text) (maxTtl : ℕ) (lifetimeNow signatureNow : Option ℕ)
    (request : Request) : Option Grant :=
  let parameters := readParameters request.query
  match parameters.signature,parameters.expires with
  | some signature,some expires =>
    let (bucket,key) := splitPath request.path
    if bucket.isEmpty then none
    else if !request.onObjectRoute || key.isEmpty then none
    else if 0 < maxTtl ∧
        saturatingAdd (saturatingAdd (lifetimeNow.getD 0) maxTtl) presignClockSkewSecs<expires then
      none
    else if verifySignature digests request.method secret bucket key expires signature signatureNow then
      some ⟨bucket,key,expires⟩
    else none
  | _,_ => none

end Authentication

theorem authenticate_eq_some {digests : Digests} {secret : Text} {maxTtl : ℕ}
    {lifetimeNow signatureNow : Option ℕ} {request : Request} {grant : Grant}
    (h : authenticate digests secret maxTtl lifetimeNow signatureNow request=some grant) :
    ∃ signature,(readParameters request.query).signature=some signature ∧
      utf8 signature=generateSignature digests request.method secret grant.bucket grant.key
        grant.expires := by
  unfold authenticate at h
  cases hsignature : (readParameters request.query).signature with
  | none => simp [hsignature] at h
  | some signature =>
    cases hexpires : (readParameters request.query).expires with
    | none => simp [hsignature,hexpires] at h
    | some expires =>
      simp only [hsignature,hexpires,Option.ite_none_left_eq_some,Option.ite_none_right_eq_some] at h
      obtain ⟨_,_,_,hverified,hgrant⟩ := h
      cases hgrant
      refine ⟨signature,rfl,?_⟩
      cases signatureNow with
      | none => cases hverified
      | some now =>
        simp only [verifySignature] at hverified
        by_cases hexpired : expires≤now
        · simp [hexpired] at hverified
        · rw [if_neg hexpired] at hverified
          exact constantTimeEq_iff.mp hverified

theorem newline_not_mem_of_sanitizeBucket {bucket name : Text} (h : sanitizeBucket bucket=.ok name) :
    '\n'∉bucket := by
  intro hmem
  have hcontrol : bucket.any (fun ch => decide (ch.toNat<0x20 ∨
      (0x7F ≤ ch.toNat ∧ ch.toNat<0xA0)))=true :=
    any_eq_true.mpr ⟨'\n',hmem,by decide⟩
  obtain ⟨_,h⟩ := ite_error_eq_ok.mp h
  obtain ⟨hinvalid,_⟩ := ite_error_eq_ok.mp h
  refine hinvalid ?_
  rw [hcontrol,Bool.or_true,Bool.true_or]

theorem newline_not_mem_of_sanitizeKey {key name : Text} (h : sanitizeKey key=.ok name) :
    '\n'∉key := by
  intro hmem
  have hmapped : '\n'∈key.map fun ch => if ch= '\\' then '/' else ch :=
    mem_map.mpr ⟨'\n',hmem,by decide⟩
  obtain ⟨_,h⟩ := ite_error_eq_ok.mp h
  obtain ⟨_,h⟩ := ite_error_eq_ok.mp h
  obtain ⟨_,h⟩ := ite_error_eq_ok.mp h
  obtain ⟨_,h⟩ := ite_error_eq_ok.mp h
  obtain ⟨hinvalid,_⟩ := ite_error_eq_ok.mp h
  refine hinvalid ?_
  rw [contains_iff_mem.mpr hmapped,Bool.true_or]

theorem newline_not_mem_toUppercase (request : Request) : '\n'∉toUppercase request.method := by
  have hall : ∀ n : Fin 128,isTokenChar (Char.ofNat n.val)=true →
      (Char.ofNat n.val).toUpper≠ '\n' := by decide +kernel
  intro hmem
  obtain ⟨c,hc,hupper⟩ := mem_map.mp hmem
  have htoken := all_eq_true.mp request.token c hc
  have hrange : 0x21 ≤ c.toNat ∧ c.toNat≤0x7E :=
    of_decide_eq_true (Bool.and_eq_true_iff.mp htoken).1
  have hchar := hall ⟨c.toNat,by omega⟩
  simp only [Char.ofNat_toNat] at hchar
  exact hchar htoken hupper

theorem toDigits_injective : Function.Injective (Nat.toDigits 10) := by
  intro m n h
  rw [← @Nat.ofDigitChars_toDigits 10 m (by omega) (by omega),h,
    Nat.ofDigitChars_toDigits (by omega) (by omega)]

theorem signedPayload_inj {method method' bucket bucket' key key' : Text} {expires expires' : ℕ}
    (hmethod : '\n'∉toUppercase method) (hmethod' : '\n'∉toUppercase method')
    (hbucket : '\n'∉bucket) (hbucket' : '\n'∉bucket') (hkey : '\n'∉key) (hkey' : '\n'∉key')
    (h : signedPayload method bucket key expires=signedPayload method' bucket' key' expires') :
    toUppercase method=toUppercase method' ∧ bucket=bucket' ∧ key=key' ∧ expires=expires' := by
  simp only [signedPayload,append_assoc,singleton_append] at h
  obtain ⟨hupper,h⟩ := append_cons_inj_of_first hmethod hmethod' h
  obtain ⟨hbuckets,h⟩ := append_cons_inj_of_first hbucket hbucket' h
  obtain ⟨hkeys,h⟩ := append_cons_inj_of_first hkey hkey' h
  exact ⟨hupper,hbuckets,hkeys,toDigits_injective h⟩

/-- A presigned URL opens no other object, method or expiry: two authenticated
requests with the same signature, whose buckets and keys are accepted, ask for the
same. -/
theorem presigned_signature_binds {digests : Digests} (hhmac : Function.Injective2 digests.hmac)
    {secret : Text} {maxTtl maxTtl' : ℕ} {lifetimeNow signatureNow lifetimeNow' signatureNow' : Option ℕ}
    {first second : Request} {grant grant' : Grant}
    (hfirst : authenticate digests secret maxTtl lifetimeNow signatureNow first=some grant)
    (hsecond : authenticate digests secret maxTtl' lifetimeNow' signatureNow' second=some grant')
    (hsignature : (readParameters first.query).signature=(readParameters second.query).signature)
    {bucket bucket' key key' : Text}
    (hbucket : sanitizeBucket grant.bucket=.ok bucket) (hkey : sanitizeKey grant.key=.ok key)
    (hbucket' : sanitizeBucket grant'.bucket=.ok bucket') (hkey' : sanitizeKey grant'.key=.ok key') :
    toUppercase first.method=toUppercase second.method ∧ grant=grant' := by
  obtain ⟨signature,hread,hcode⟩ := authenticate_eq_some hfirst
  obtain ⟨signature',hread',hcode'⟩ := authenticate_eq_some hsecond
  have hequal : signature=signature' := by
    rw [hread,hread'] at hsignature
    exact Option.some.inj hsignature
  subst hequal
  have hpayload := utf8_injective (hhmac (hexEncode_injective (hcode.symm.trans hcode'))).2
  obtain ⟨hmethod,hbuckets,hkeys,hexpires⟩ := signedPayload_inj
    (newline_not_mem_toUppercase first) (newline_not_mem_toUppercase second)
    (newline_not_mem_of_sanitizeBucket hbucket) (newline_not_mem_of_sanitizeBucket hbucket')
    (newline_not_mem_of_sanitizeKey hkey) (newline_not_mem_of_sanitizeKey hkey') hpayload
  cases grant
  cases grant'
  simp only [Grant.mk.injEq]
  exact ⟨hmethod,hbuckets,hkeys,hexpires⟩

/-- A request for the object `k` of the bucket `b`, signed with the secret `s`. -/
def sampleRequest (method path : Text) (token : method.all isTokenChar=true) : Request where
  method := method
  path := path
  query := "expires=9&signature=".toList++
    ((generateSignature plainDigests "GET".toList "s".toList "b".toList "k".toList 9).map
      fun b => Char.ofNat b.toNat)
  onObjectRoute := true
  token := token

/-- The signature of a request for an object is the signature of nothing else. -/
theorem presigned_signature_binds_sample :
    sanitizeBucket "b".toList=.ok "b".toList ∧ sanitizeKey "k".toList=.ok "k".toList ∧
      toUppercase "GET".toList=toUppercase "get".toList ∧
        (⟨"b".toList,"k".toList,9⟩ : Grant)=⟨"b".toList,"k".toList,9⟩ := by
  have hbucket : sanitizeBucket "b".toList=.ok "b".toList := by decide +kernel
  have hkey : sanitizeKey "k".toList=.ok "k".toList := by decide +kernel
  have hplain : authenticate plainDigests "s".toList 0 none (some 0)
      (sampleRequest "GET".toList "/b/k".toList (by decide +kernel))=
        some ⟨"b".toList,"k".toList,9⟩ := by decide +kernel
  have hescaped : authenticate plainDigests "s".toList 0 none (some 1)
      (sampleRequest "get".toList "//b/%6B".toList (by decide +kernel))=
        some ⟨"b".toList,"k".toList,9⟩ := by decide +kernel
  exact ⟨hbucket,hkey,presigned_signature_binds plainDigests_collisionFree.hmac hplain hescaped rfl
    hbucket hkey hbucket hkey⟩

end NebularOs.PresignedUrls
