import NasTools.Lib.Base64
import NasTools.Lib.Machine
import NasTools.Model.Gateway.Dav

/-!
Who is let in at the gateway: the file of credentials, what opens either face, and
the requests of a listener.
-/

namespace NasTools

/-- Why a file of credentials is not read. -/
inductive CredsError where
  | parse
  | missingField (field : String)
deriving DecidableEq

/-- The text such an error prints. -/
def CredsError.display : CredsError → String
  | .parse => "gateway.json is not the two-field object this build writes"
  | .missingField s => "gateway.json missing " ++ s

namespace Creds

/-- Credentials of fresh seeds, in digits. -/
def generate (seedAk : FixedBytes 16) (seedSk : FixedBytes 32) : Creds :=
  ⟨toHex seedAk.bytes, toHex seedSk.bytes⟩

/-- The text of the file: nothing in the two values is escaped. -/
def encode (c : Creds) : List Char :=
  "\x7b\"access_key_id\":\"".toList ++ c.accessKeyId ++ "\",\"secret_access_key\":\"".toList ++
    c.secretAccessKey ++
    "\"\x7d\n".toList

/-- The value behind the first place where a name stands in quotes. -/
def jsonString (s key : List Char) : Option (List Char) := do
  let (_, rest) ← Text.splitAround ('"' :: key ++ ['"']) s
  let rest ← (rest.dropWhile Text.isWhite).dropPrefix? [':']
  let rest ← (rest.dropWhile Text.isWhite).dropPrefix? ['"']
  let (v, _) ← Text.splitOnce '"' rest
  return v

/-- Read the file. -/
def decode (bytes : Bytes) : Except CredsError Creds := do
  let s ← okOr ((ofUtf8? bytes).map String.toList) .parse
  let ak ← okOr (jsonString s "access_key_id".toList) (.missingField "access_key_id")
  let sk ← okOr (jsonString s "secret_access_key".toList) (.missingField "secret_access_key")
  ensure (ak ≠ [] ∧ sk ≠ []) .parse
  return ⟨ak, sk⟩

end Creds

/-- Why a request is not let in at the WebDAV face. -/
inductive BasicError where
  | missing
  | malformed
  | mismatch
deriving DecidableEq

/-- The text such an error prints. -/
def BasicError.display : BasicError → String
  | .missing => "Basic authentication required"
  | .malformed => "malformed Authorization"
  | .mismatch => "Basic credentials do not match"

namespace Dav

/-- The verbs that only WebDAV has. -/
def isDavMethod (method : List Char) : Bool :=
  method == "OPTIONS".toList || method == "PROPFIND".toList

/-- Whether a request is for the WebDAV face: by its verb, or by the way it is authorised. -/
def wantsDav (r : HttpRequest) : Bool :=
  isDavMethod (r.method.map Char.toUpper) || (r.headers["authorization".toList]?).any fun v =>
    "Basic ".toList.isPrefixOf v

/-- Check the name and the password a request is authorised with. -/
def checkBasic (creds : Creds) (r : HttpRequest) : Except BasicError Unit := do
  let h ← okOr r.headers["authorization".toList]? .missing
  let raw ← okOr (h.dropPrefix? "Basic ".toList) .missing
  let bytes ← okOr (Base64.decode raw) .malformed
  let s ← okOr ((ofUtf8? bytes).map String.toList) .malformed
  let (user, pass) ← okOr (Text.splitOnce ':' s) .malformed
  ensure (SigV4.ctEq (textBytes user) (textBytes creds.accessKeyId) &&
    SigV4.ctEq (textBytes pass) (textBytes creds.secretAccessKey)) .mismatch

/-- The answer to a request that is not let in. -/
def unauthorized : HttpResponse :=
  S3.respondWith 401 "Unauthorized" "text/plain" [("WWW-Authenticate", "Basic realm=\"nas\"")]
    (utf8 "unauthorized")

end Dav

/-- The answer to a request whose signature is not accepted. -/
def AuthError.answer (e : AuthError) : HttpResponse :=
  let (status, reason, code) := match e with
    | .missing => (403, "Forbidden", "AccessDenied")
    | .unknownKey | .badSignature => (403, "Forbidden", "SignatureDoesNotMatch")
    | .payloadHash => (400, "Bad Request", "XAmzContentSHA256Mismatch")
    | .malformed _ => (400, "Bad Request", "AuthorizationHeaderMalformed")
  S3.respond status reason "application/xml" (S3.s3Error code e.display)

namespace Gateway

variable [Sha2] {S : Type} (creds : Option Creds) (b : Buckets S)

/-- Serve a request; where there are no credentials, whoever can open the socket is let in. -/
def serve (r : HttpRequest) (s : S) : HttpResponse × S :=
  if Dav.wantsDav r then
    match creds with
    | some c =>
      match Dav.checkBasic c r with
      | .error _ => (Dav.unauthorized, s)
      | .ok () => Dav.dispatch b r s
    | none => Dav.dispatch b r s
  else
    match creds with
    | some c =>
      match SigV4.verify c r with
      | .error e => (e.answer, s)
      | .ok () => S3.dispatch b r s
    | none => S3.dispatch b r s

/-- One connection, of which one request is read; without an answer it is closed. -/
def handleStream (reads : List (Except String Bytes)) (s : S) : Option HttpResponse × S :=
  match readRequest reads with
  | .ok r =>
    let (answer, s) := serve creds b r s
    (some answer, s)
  | .error (.tooLarge _ _) =>
    (some (S3.respond 413 "Payload Too Large" "text/plain" "body too large"), s)
  | .error _ => (none, s)

/-- A listener: one connection after the other, whatever came of the last one. -/
def listener : Machine S (List (Except String Bytes)) (Option HttpResponse) where
  step s reads := handleStream creds b reads s

end Gateway

end NasTools
