import NasTools.Lib.Fallible
import NasTools.Model.Core.Format
import NasTools.Model.Gateway.Http

/-!
AWS Signature Version 4 as the gateway checks it: one canonical text for each
request, and a chain of keys.
-/

namespace NasTools

/-- SHA-256 and its keyed form, which other packages implement; nothing is assumed of them. -/
class Sha2 where
  sha256 : Bytes → Digest
  hmacSha256 : (key data : Bytes) → Digest

/-- The key pair of the gateway. -/
structure Creds where
  accessKeyId : List Char
  secretAccessKey : List Char

/-- Why a request is not authorised. -/
inductive AuthError where
  | missing
  | malformed (what : String)
  | unknownKey
  | badSignature
  | payloadHash
deriving DecidableEq

/-- The text an authorisation error prints. -/
def AuthError.display : AuthError → String
  | .missing => "no Authorization header"
  | .malformed s => "malformed Authorization: " ++ s
  | .unknownKey => "unknown access key"
  | .badSignature => "signature does not match"
  | .payloadHash => "x-amz-content-sha256 does not match the body"

namespace SigV4

/-- What stands for the hash of a body that is not signed. -/
def unsigned : List Char := "UNSIGNED-PAYLOAD".toList

/-- What an authorisation starts with. -/
def algorithm : List Char := "AWS4-HMAC-SHA256".toList

/-- The value of a header. -/
def header (headers : Headers) (name : List Char) : Option (List Char) :=
  headers[name.map Char.toLower]?

/-- The date of a request. -/
def amzDate (headers : Headers) : Option (List Char) :=
  (header headers "x-amz-date".toList).or (header headers "date".toList)

/-- The header a request is authorised by. -/
def authorization (r : HttpRequest) : Option (List Char) := header r.headers "authorization".toList

/-- What a request says of the hash of its body. -/
def declaredPayload (r : HttpRequest) : Option (List Char) :=
  header r.headers "x-amz-content-sha256".toList

/-- Whether two byte strings are the same, compared to their ends. -/
def ctEq (a b : Bytes) : Bool :=
  a.length == b.length && (List.zipWith (· ^^^ ·) a b).foldl (· ||| ·) 0 == 0

/-- Bytes in hexadecimal digits; a character that takes more than one byte is no digit of any. -/
def hexDecode (text : List Char) : Option Bytes := Text.parseHexBytes text

/-- Whether a byte stands for itself in a canonical path or query. -/
def keptInUri (encodeSlash : Bool) (b : UInt8) : Bool :=
  (0x41 ≤ b && b ≤ 0x5a) || (0x61 ≤ b && b ≤ 0x7a) || (0x30 ≤ b && b ≤ 0x39) || b == 0x2d || b ==
    0x5f || b == 0x2e ||
    b == 0x7e || (b == 0x2f && !encodeSlash)

/-- A path or a component of a query in its canonical form. -/
def uriEncode (text : List Char) (encodeSlash : Bool) : List Char :=
  Percent.spell (keptInUri encodeSlash) text

/-- A component of a query as the verifier reads it: plus signs are spaces. -/
def decodeComponent (text : List Char) : List Char :=
  Percent.decode (text.map fun c => if c = '+' then ' ' else c)

/-- The name and the value of a parameter in their canonical forms. -/
def canonicalParameter (part : List Char) : List Char × List Char :=
  match Text.splitOnce '=' part with
  | some (name, value) =>
    (uriEncode (decodeComponent name) true, uriEncode (decodeComponent value) true)
  | none => (uriEncode (decodeComponent part) true, [])

/-- A query decoded, encoded, and sorted by name and then by value. -/
def canonicalQuery (query : List Char) : List Char :=
  if query = [] then []
  else
    -- Empty pieces, as of a doubled ampersand, are no parameters.
    let parts := ((query.splitOn '&').filter (· ≠ [])).map canonicalParameter
    ['&'].intercalate ((parts.mergeSort fun a b => (compare a b).isLE).map fun (name, value) =>
      name ++ '=' :: value)

/-- The canonical form of a path, which is never empty. -/
def canonicalPath (path : List Char) : List Char :=
  -- A slash stands for itself in a path, and not in a component of a query.
  let encoded := uriEncode path false
  if encoded = [] then ['/'] else encoded

/-- The text of a request that is hashed and signed, over the headers that were signed. -/
def canonicalWithSigned (r : HttpRequest) (signed : List (List Char))
    (payload : List Char) : List Char :=
  -- A header that was signed and is not there counts as empty.
  let canonHeaders := signed.flatMap fun k =>
    k.map Char.toLower ++ ':' :: Text.trim ((header r.headers k).getD []) ++ ['\n']
  r.method.map Char.toUpper ++ '\n' :: canonicalPath r.path ++ '\n' :: canonicalQuery r.query ++
    '\n' :: canonHeaders ++ '\n' :: [';'].intercalate signed ++ '\n' :: payload

/-- What an authorisation says. -/
structure AuthParts where
  accessKey : List Char
  shortDate : List Char
  region : List Char
  signed : List (List Char)
  signature : List Char

/-- What was said so far. -/
structure Said where
  credential : Option (List Char × List Char × List Char)
  signed : Option (List (List Char))
  signature : Option (List Char)

/-- Read one part of an authorisation; a part that is none of the three is passed over. -/
def addPart (said : Said) (part : List Char) : Except AuthError Said :=
  let part := Text.trim part
  match part.dropPrefix? "Credential=".toList with
  | some c =>
    -- Five parts, of which the last two are fixed.
    match c.splitOn '/' with
    | [accessKey, shortDate, region, service, terminator] => do
      ensure (service = "s3".toList ∧ terminator = "aws4_request".toList)
        (.malformed "credential scope")
      return { said with credential := some (accessKey, shortDate, region) }
    | _ => .error (.malformed "credential scope")
  | none =>
    match part.dropPrefix? "SignedHeaders=".toList with
    | some s => .ok { said with signed := some (s.splitOn ';') }
    | none =>
      match part.dropPrefix? "Signature=".toList with
      | some s => .ok { said with signature := some s }
      | none => .ok said

/-- Read the value of an authorisation header. -/
def parseAuthorization (value : List Char) : Except AuthError AuthParts := do
  let rest ← okOr (value.dropPrefix? algorithm) (.malformed "algorithm")
  let said ← ((Text.trim rest).splitOn ',').foldlM addPart ⟨none, none, none⟩
  -- The key, the date and the region come together, so only the first of them is ever missed.
  let (accessKey, shortDate, region) ← okOr said.credential (.malformed "credential")
  let signed ← okOr said.signed (.malformed "signed headers")
  let signature ← okOr said.signature (.malformed "signature")
  return ⟨accessKey, shortDate, region, signed, signature⟩

section

variable [Sha2]

/-- The hash of the body a request is signed with. -/
def payloadHash (r : HttpRequest) : Except AuthError (List Char) :=
  match declaredPayload r with
  | some text =>
    if text = unsigned then .ok unsigned
    -- The width is asked in bytes, and the digits may be of either case.
    else if (textBytes text).length = 64 then do
      let want ← okOr (hexDecode text) .payloadHash
      ensure (ctEq want (Sha2.sha256 r.body).bytes = true) .payloadHash
      return text.map Char.toLower
    else .error .payloadHash
  | none => .ok (toHex (Sha2.sha256 r.body).bytes)

/-- The text that is signed. -/
def stringToSign (date scope canonical : List Char) : List Char :=
  algorithm ++ '\n' :: date ++ '\n' :: scope ++ '\n' ::
    toHex (Sha2.sha256 (textBytes canonical)).bytes

/-- The key of a day, a region and this service. -/
def signingKey (creds : Creds) (shortDate region : List Char) : Digest :=
  let date :=
    Sha2.hmacSha256 (textBytes ("AWS4".toList ++ creds.secretAccessKey)) (textBytes shortDate)
  let regional := Sha2.hmacSha256 date.bytes (textBytes region)
  let service := Sha2.hmacSha256 regional.bytes (textBytes "s3".toList)
  Sha2.hmacSha256 service.bytes (textBytes "aws4_request".toList)

/-- The signature of a text. -/
def signingSig (creds : Creds) (shortDate region toSign : List Char) : Digest :=
  Sha2.hmacSha256 (signingKey creds shortDate region).bytes (textBytes toSign)

/-- What a signature is good for. -/
def scope (shortDate region : List Char) : List Char :=
  shortDate ++ '/' :: region ++ "/s3/aws4_request".toList

/-- The first bytes of a text, or nothing where they end inside a character and the slice panics. -/
def takeBytes : (n : Nat) → List Char → Option (List Char)
  | _, [] => some []
  | n, c :: rest =>
    if n = 0 then some []
    else if c.utf8Size ≤ n then (takeBytes (n - c.utf8Size) rest).map (c :: ·)
    else none

/-- The headers that are signed, of those that a request has. -/
def usualNames : List (List Char) :=
  ["host".toList, "x-amz-date".toList, "x-amz-content-sha256".toList, "content-type".toList,
    "range".toList]

omit [Sha2] in
/-- Names are compared letter by letter. -/
theorem lawful_names : LawfulBEq (List Char) := inferInstance

instance (k : List Char) : Decidable (k ∈ usualNames) :=
  @List.instDecidableMemOfLawfulBEq _ _ lawful_names k usualNames

/--
The text of a request that is signed, the names of the headers in it, and the hash of its body.
-/
def canonical (r : HttpRequest) : List Char × List Char × List Char :=
  -- A declared hash that is not the hash of the body is replaced by the one that is.
  let payload := match payloadHash r with
    | .ok p => p
    | .error _ => toHex (Sha2.sha256 r.body).bytes
  let signed := r.headers.keys.filter fun k => decide (k ∈ usualNames)
  let signedText := [';'].intercalate signed
  let canonHeaders := signed.flatMap fun k =>
    k ++ ':' :: (r.headers[k]?.map Text.trim).getD [] ++ ['\n']
  let canon := r.method.map Char.toUpper ++ '\n' :: canonicalPath r.path ++ '\n' ::
    canonicalQuery r.query ++
    '\n' :: canonHeaders ++ '\n' :: signedText ++ '\n' :: payload
  (canon, signedText, payload)

/-- An authorisation in its text. -/
def renderAuthorization (accessKey scope signed signature : List Char) : List Char :=
  algorithm ++ " Credential=".toList ++ accessKey ++ '/' :: scope ++ ", SignedHeaders=".toList ++
    signed ++
    ", Signature=".toList ++ signature

/-- The authorisation of a request, or nothing where the day cannot be cut off its date. -/
def sign (creds : Creds) (region : List Char) (r : HttpRequest) : Option (List Char) := do
  let (canon, signed, _) := canonical r
  let date := (amzDate r.headers).getD "19700101T000000Z".toList
  let short ← takeBytes 8 date
  let toSign := stringToSign date (scope short region) canon
  let signature := toHex (signingSig creds short region toSign).bytes
  return renderAuthorization creds.accessKeyId (scope short region) signed signature

/-- Check the signature of a request. -/
def verify (creds : Creds) (r : HttpRequest) : Except AuthError Unit := do
  let auth ← okOr (authorization r) .missing
  let parts ← parseAuthorization auth
  ensure (parts.accessKey = creds.accessKeyId) .unknownKey
  -- The body is hashed before the signature is looked at.
  let payload ← payloadHash r
  let date ← okOr (amzDate r.headers) (.malformed "x-amz-date")
  -- The day of the credential has to begin the date of the request.
  ensure (parts.shortDate.isPrefixOf date = true) (.malformed "date mismatch")
  let canon := canonicalWithSigned r parts.signed payload
  let toSign := stringToSign date (scope parts.shortDate parts.region) canon
  let expect := signingSig creds parts.shortDate parts.region toSign
  let got ← okOr (hexDecode parts.signature) (.malformed "signature hex")
  -- The comparison takes as long wherever the first difference is.
  ensure (ctEq expect.bytes got = true) .badSignature

end

end SigV4

end NasTools
