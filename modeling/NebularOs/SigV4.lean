import Mathlib
import NebularOs.SeparatedText
import NebularOs.Signatures
import NebularOs.TrimmedText

/-!
# Header signatures of access-key requests

A request signed with an access key carries an `Authorization` header. The check
rebuilds the canonical text of the request (method, path, query, the signed headers
and the payload hash, one to a line), derives a key from the secret and compares the
code of the text with the signature that was sent.

Paths, queries and header values are byte strings. Reading the date of a request is
left to a parameter.
-/

namespace NebularOs.SigV4

open SeparatedText TrimmedText UrlEncoding Signatures

/-- Why a signed request is refused. -/
inductive SigV4Error where
  /-- Something the signature needs is missing or unreadable. -/
  | malformed (what : String)
  /-- The access key is not the server's. -/
  | unknownAccessKey
  /-- The lifetime of a presigned URL is over. -/
  | expired
  /-- The time of the request is too far from the server's. -/
  | clockSkew
  /-- The signature is another one. -/
  | badSignature
  /-- The chunks of the payload are signed one by one. -/
  | unsupportedPayload
  deriving DecidableEq

/-- The access key that the server accepts. -/
structure Credentials where
  /-- Public part of the key. -/
  accessKey : Bytes
  /-- Secret part of the key. -/
  secretKey : Bytes

/-- Bytes of methods and header names. -/
def isTokenByte (b : UInt8) : Bool :=
  0x21≤b && b≤0x7E &&
    !([0x22,0x28,0x29,0x2C,0x2F,0x3A,0x3B,0x3C,0x3D,0x3E,0x3F,0x40,0x5B,0x5C,0x5D,0x7B,0x7D] :
      Bytes).contains b

/-- Bytes of header values. -/
def isValueByte (b : UInt8) : Bool :=
  b==0x09 || (0x20≤b && b != 0x7F)

/-- Bytes of header values that can be read as text. -/
def isVisibleByte (b : UInt8) : Bool :=
  b==0x09 || (0x20≤b && b<0x7F)

/-- Headers in the order of their values. Names are stored in lower case. -/
structure HeaderMap where
  /-- Name and value of every header line. -/
  entries : List (Bytes×Bytes)
  /-- Names are tokens. -/
  names : ∀ entry∈entries,∀ b∈entry.1,isTokenByte b=true
  /-- Values have no control bytes. -/
  values : ∀ entry∈entries,∀ b∈entry.2,isValueByte b=true

/-- All values of a header. -/
def HeaderMap.getAll (headers : HeaderMap) (name : Bytes) : List Bytes :=
  (headers.entries.filter fun entry => entry.1==name).map Prod.snd

/-- First value of a header. -/
def HeaderMap.get (headers : HeaderMap) (name : Bytes) : Option Bytes :=
  (headers.getAll name).head?

/-- Names of the headers. -/
def HeaderMap.keys (headers : HeaderMap) : List Bytes :=
  headers.entries.map Prod.fst

/-- The request as it arrived, path and query still percent-encoded. -/
structure RequestParts where
  /-- Method of the request. -/
  method : Bytes
  /-- Path of the request. -/
  rawPath : Bytes
  /-- Query of the request. -/
  rawQuery : Bytes
  /-- Headers of the request. -/
  headers : HeaderMap
  /-- Methods are tokens. -/
  token : ∀ b∈method,isTokenByte b=true

/-- What a valid signature says about the body. -/
inductive PayloadHash where
  /-- The body is not covered. -/
  | unsigned
  /-- The body must have this hash. -/
  | sha256 (digest : Bytes)
  deriving DecidableEq

/-- Name of the signature algorithm. -/
def algorithm : Bytes := ascii "AWS4-HMAC-SHA256"

/-- Payload hash of a body that is not covered. -/
def unsignedPayload : Bytes := ascii "UNSIGNED-PAYLOAD"

/-- Payload hash of the empty body. -/
def emptySha256 : Bytes :=
  ascii "e3b0c44298fc1c149afbf4c8996fb92427ae41e4649b934ca495991b7852b855"

/-- Service of every scope. -/
def service : Bytes := ascii "s3"

/-- Last part of every scope. -/
def terminator : Bytes := ascii "aws4_request"

/-- How far the time of a request may be from the server's, in seconds. -/
def maxClockSkewSecs : ℤ := 15*60

/-- Lower case of an ASCII letter, other bytes unchanged. -/
def toAsciiLowercase (bytes : Bytes) : Bytes :=
  bytes.map fun b => if 0x41≤b ∧ b≤0x5A then b+0x20 else b

/-- White space of ASCII text. -/
def isWhitespaceByte (b : UInt8) : Bool :=
  b==0x20 || (0x09≤b && b≤0x0D)

/-- A header value as text. -/
def toStr (value : Bytes) : Option Bytes :=
  if value.all isVisibleByte then some value else none

/-- First value of a header as text. -/
def headerStr (headers : HeaderMap) (name : Bytes) : Option Bytes :=
  (headers.get name).bind toStr

/-- Words of a value with one space between them. -/
def collapseWhitespace (value : Bytes) : Bytes :=
  [0x20].intercalate ((value.splitOnP isWhitespaceByte).filter fun word => !word.isEmpty)

/-- Bytes that are never escaped. -/
def isUnreserved (b : UInt8) : Bool :=
  (0x30≤b && b≤0x39) || (0x41≤b && b≤0x5A) || (0x61≤b && b≤0x7A) ||
    b==0x2D || b==0x5F || b==0x2E || b==0x7E

/-- Canonical escaping, with or without the slashes. -/
def uriEncode (bytes : Bytes) (encodeSlash : Bool) : Bytes :=
  encodeBytes (fun b => isUnreserved b || (b==0x2F && !encodeSlash)) bytes

/-- The decoded path escaped once. -/
def canonicalUri (rawPath : Bytes) : Bytes :=
  let uri := uriEncode (decodeBinary rawPath) false
  if uri.isEmpty then [0x2F] else uri

/-- Order of name and value, names first. -/
def PairLe (first second : Bytes×Bytes) : Prop :=
  first.1<second.1 ∨ (first.1=second.1 ∧ first.2 ≤ second.2)

instance (first second : Bytes×Bytes) : Decidable (PairLe first second) :=
  inferInstanceAs (Decidable (_ ∨ _))

/-- Sorted pairs of the query, each escaped once. Presigned URLs leave out their own
signature. -/
def canonicalQuery (rawQuery : Bytes) (dropSignature : Bool) : Bytes :=
  let pairs := ((queryPairs rawQuery).map fun pair =>
    (uriEncode (decodeBinary pair.1) true,uriEncode (decodeBinary pair.2) true)).filter
      fun pair => !(dropSignature && pair.1==ascii "X-Amz-Signature")
  [0x26].intercalate ((pairs.insertionSort PairLe).map fun pair => pair.1++[0x3D]++pair.2)

/-- All values of a signed header, each without runs of white space, joined. -/
def joinedValues (headers : HeaderMap) (name : Bytes) : Option Bytes :=
  ((headers.getAll name).mapM fun value => (toStr value).map collapseWhitespace).map
    fun values => [0x2C].intercalate values

/-- Line of a signed header. -/
def headerLine (headers : HeaderMap) (name : Bytes) : Except SigV4Error Bytes :=
  match joinedValues headers name with
  | none => .error (.malformed "header value")
  | some values => .ok (name++[0x3A]++values)

/-- The text whose hash is signed. -/
def canonicalRequest (parts : RequestParts) (query : Bytes) (signed : List Bytes)
    (payload : Bytes) : Except SigV4Error Bytes := do
  let lines ← signed.mapM (headerLine parts.headers)
  return parts.method++[0x0A]++canonicalUri parts.rawPath++[0x0A]++query++[0x0A]++
    lines.flatMap (fun line => line++[0x0A])++[0x0A]++[0x3B].intercalate signed++[0x0A]++payload

/-- Headers that change what a request does. -/
def isGuarded (name : Bytes) : Bool :=
  (ascii "x-amz-").isPrefixOf name || (ascii "x-nd-").isPrefixOf name

/-- The names of a signed header list, in lower case. -/
def signedNames (list : Bytes) : List Bytes :=
  (list.splitOn 0x3B).map toAsciiLowercase

/-- The signed headers, which must be sorted and present and cover all headers that
change what a request does. -/
def parseSignedHeaders (list : Bytes) (headers : HeaderMap) (required : List Bytes) :
    Except SigV4Error (List Bytes) :=
  let signed := signedNames list
  if signed.any List.isEmpty || !(signed.zip signed.tail).all (fun pair => decide (pair.1<pair.2)) then
    .error (.malformed "SignedHeaders must be sorted and unique")
  else if !required.all signed.contains then
    .error (.malformed "required header not signed")
  else if headers.keys.any fun name => isGuarded name && !signed.contains name then
    .error (.malformed "x-amz-* / x-nd-* header not signed")
  else if signed.any fun name => (headers.get name).isNone then
    .error (.malformed "signed header missing")
  else .ok signed

/-- Hash of a payload given as hexadecimal text. -/
def decodeSha256 (value : Bytes) : Except SigV4Error Bytes :=
  match hexDecode value with
  | some digest =>
    if digest.length=32 then .ok digest else .error (.malformed "x-amz-content-sha256")
  | none => .error (.malformed "x-amz-content-sha256")

/-- Fields of an authorization header read so far. -/
structure Fields where
  /-- Key and scope. -/
  credential : Option Bytes
  /-- Names of the signed headers. -/
  signedHeaders : Option Bytes
  /-- The signature. -/
  signature : Option Bytes

/-- One field of an authorization header. -/
def readField (fields : Fields) (field : Bytes) : Except SigV4Error Fields :=
  match splitOnce 0x3D (trim isWhitespaceByte field) with
  | none => .error (.malformed "authorization field")
  | some (name,value) =>
    if name=ascii "Credential" then .ok {fields with credential := some value}
    else if name=ascii "SignedHeaders" then .ok {fields with signedHeaders := some value}
    else if name=ascii "Signature" then .ok {fields with signature := some value}
    else .error (.malformed "authorization field")

/-- A complete authorization header. -/
structure Authorization where
  /-- Key and scope. -/
  credential : Bytes
  /-- Names of the signed headers. -/
  signedHeaders : Bytes
  /-- The signature. -/
  signature : Bytes

/-- The three fields of an authorization header. -/
def readAuthorization (authorization : Bytes) : Except SigV4Error Authorization :=
  let rest := authorization.drop algorithm.length
  if !(algorithm.isPrefixOf authorization && [0x20].isPrefixOf rest) then
    .error (.malformed "authorization algorithm")
  else do
    let fields ← (rest.splitOn 0x2C).foldlM readField ⟨none,none,none⟩
    match fields.credential,fields.signedHeaders,fields.signature with
    | none,_,_ => .error (.malformed "missing Credential")
    | _,none,_ => .error (.malformed "missing SignedHeaders")
    | _,_,none => .error (.malformed "missing Signature")
    | some credential,some signedHeaders,some signature =>
      .ok ⟨credential,signedHeaders,signature⟩

/-- The payload hash to enforce and its canonical text. -/
def payloadHash (headers : HeaderMap) : Except SigV4Error (PayloadHash×Bytes) :=
  match headerStr headers (ascii "x-amz-content-sha256") with
  | none => (decodeSha256 emptySha256).map fun digest => (.sha256 digest,emptySha256)
  | some value =>
    if value=unsignedPayload then .ok (.unsigned,unsignedPayload)
    else if (ascii "STREAMING-").isPrefixOf value then .error .unsupportedPayload
    else (decodeSha256 value).map fun digest => (.sha256 digest,value)

section Verification

variable (digests : Digests) (parseDate : Bytes→Option ℤ)

/-- The text that is signed. -/
def stringToSign (amzDate scope canonical : Bytes) : Bytes :=
  algorithm++[0x0A]++amzDate++[0x0A]++scope++[0x0A]++hexEncode (digests.sha256 canonical)

/-- The key of a day, a region and the service. -/
def signingKey (secretKey date region : Bytes) : Bytes :=
  [region,service,terminator].foldl digests.hmac (digests.hmac (ascii "AWS4"++secretKey) date)

/-- Comparison of a signature with the expected one. -/
def checkSignature (creds : Credentials) (credential amzDate canonical signature : Bytes) :
    Except SigV4Error Unit :=
  match splitOnce 0x2F credential with
  | none => .error (.malformed "credential scope")
  | some (accessKey,scope) =>
    match scope.splitOn 0x2F with
    | [date,region,scopeService,scopeTerminator] =>
      if scopeService≠service ∨ scopeTerminator≠terminator ∨ region=[] ∨
          ¬date.isPrefixOf amzDate then
        .error (.malformed "credential scope")
      else if !constantTimeEq accessKey creds.accessKey then .error .unknownAccessKey
      else
        let key := signingKey digests creds.secretKey date region
        let expected := hexEncode (digests.hmac key (stringToSign digests amzDate scope canonical))
        if constantTimeEq (toAsciiLowercase signature) expected then .ok ()
        else .error .badSignature
    | _ => .error (.malformed "credential scope")

/-- Time of a request in seconds. -/
def parseAmzDate (value : Bytes) : Except SigV4Error ℤ :=
  match parseDate value with
  | some time => .ok time
  | none => .error (.malformed "x-amz-date")

/-- Check of a request with an authorization header. -/
def verifyHeader (parts : RequestParts) (authorization : Bytes) (creds : Credentials) (now : ℤ) :
    Except SigV4Error PayloadHash := do
  let fields ← readAuthorization authorization
  match headerStr parts.headers (ascii "x-amz-date") with
  | none => .error (.malformed "missing x-amz-date")
  | some amzDate =>
    let requestTime ← parseAmzDate parseDate amzDate
    if maxClockSkewSecs<abs (now-requestTime) then .error .clockSkew
    else
      let signed ← parseSignedHeaders fields.signedHeaders parts.headers
        [ascii "host",ascii "x-amz-date"]
      let (payload,canonicalPayload) ← payloadHash parts.headers
      let canonical ←
        canonicalRequest parts (canonicalQuery parts.rawQuery false) signed canonicalPayload
      checkSignature digests creds fields.credential amzDate canonical fields.signature
      return payload

end Verification

end NebularOs.SigV4
