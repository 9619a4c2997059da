import NasTools.Model.Cli.Face
import NasTools.Model.Gateway.Http

/-!
The S3 face of the gateway: which call a request stands for, what it is answered
with, and by which buckets.
-/

namespace NasTools

/-- A call on the buckets: what comes of it, and what they are afterwards. -/
abbrev BucketCall (S A : Type) := S → Except FaceError A × S

/-- What the gateway serves, whoever keeps it. -/
structure Buckets (S : Type) where
  listBuckets : BucketCall S (List String)
  list : (bucket pref : String) → BucketCall S (List ObjectInfo)
  get : (bucket key : String) → BucketCall S Bytes
  put : (bucket key : String) → (body : Bytes) → BucketCall S UInt64
  delete : (bucket key : String) → BucketCall S Unit
  head : (bucket key : String) → BucketCall S UInt64
  getRange : (bucket key : String) → (start stop : UInt64) → BucketCall S RangeBody

/-- An answer, with the length it declares; the answer to a HEAD declares more than it holds. -/
structure HttpResponse where
  status : Nat
  reason : String
  contentType : String
  extra : List (String × String)
  contentLength : Nat
  body : Bytes
deriving DecidableEq

/-- Which part of the service a path names. -/
inductive Route where
  | listBuckets
  | listObjects (bucket pref : List Char)
  | object (bucket key : List Char)
deriving DecidableEq

namespace S3

/-- The value a part of a query gives to a name. -/
def paramValue (name part : List Char) : Option (List Char) :=
  (Text.splitOnce '=' part).bind fun (k, v) => if k = name then some v else none

/-- The value of the first parameter of a name, as it stands in the query. -/
def queryParam (query name : List Char) : Option (List Char) :=
  (query.splitOn '&').findSome? (paramValue name)

/-- The prefix a listing is asked for. -/
def routedPrefix (query : List Char) : List Char :=
  ((queryParam query "prefix".toList).map Percent.decode).getD []

/-- Read the path and the query of a request. -/
def route (path query : List Char) : Route :=
  -- All slashes in front are dropped, and the first that is left ends the bucket.
  let p := path.dropWhile (· == '/')
  if p = [] then .listBuckets
  else
    match Text.splitOnce '/' p with
    | none => .listObjects p (routedPrefix query)
    -- A slash behind the bucket alone names no key.
    | some (bucket, []) => .listObjects bucket (routedPrefix query)
    | some (bucket, key) => .object bucket key

/-- A character as it stands in a document. -/
def xmlChar : Char → List Char
  | '&' => "&amp;".toList
  | '<' => "&lt;".toList
  | '>' => "&gt;".toList
  | '"' => "&quot;".toList
  | c => [c]

/-- A text as it stands in a document. -/
def xmlEscape (s : String) : String := String.ofList (s.toList.flatMap xmlChar)

/-- The document of an error. -/
def s3Error (code message : String) : String :=
  "<?xml version=\"1.0\" encoding=\"UTF-8\"?><Error><Code>" ++ xmlEscape code ++
    "</Code><Message>" ++
    xmlEscape message ++ "</Message></Error>"

/-- An answer with headers of its own. -/
def respondWith (status : Nat) (reason contentType : String) (extra : List (String × String))
    (body : Bytes) : HttpResponse :=
  ⟨status, reason, contentType, extra, body.length, body⟩

/-- An answer with a document in it. -/
def respond (status : Nat) (reason contentType text : String) : HttpResponse :=
  respondWith status reason contentType [] (utf8 text)

/-- An answer with nothing in it. -/
def respondEmpty (status : Nat) (reason : String) : HttpResponse :=
  respond status reason "text/plain" ""

/-- The answer to a call that failed. -/
def faceErr : FaceError → HttpResponse
  | .refused m => respond 403 "Forbidden" "application/xml" (s3Error "AccessDenied" m)
  | .notFound m => respond 404 "Not Found" "application/xml" (s3Error "NoSuchKey" m)
  | .error m => respond 500 "Internal Server Error" "application/xml" (s3Error "InternalError" m)

/-- The answer to a verb that is not served. -/
def notAllowed : HttpResponse :=
  respond 405 "Method Not Allowed" "application/xml"
    (s3Error "MethodNotAllowed" "this S3 face does not implement that verb")

/-- The document of a list of buckets. -/
def bucketsDocument (names : List String) : String :=
  "<?xml version=\"1.0\" encoding=\"UTF-8\"?><ListAllMyBucketsResult " ++
    "xmlns=\"http://s3.amazonaws.com/doc/2006-03-01/\"><Buckets>" ++
    String.join (names.map fun n => "<Bucket><Name>" ++ xmlEscape n ++ "</Name></Bucket>") ++
    "</Buckets></ListAllMyBucketsResult>"

/-- The document of a listing, which leaves out what was deleted. -/
def listDocument (bucket pref : String) (items : List ObjectInfo) : String :=
  -- What was deleted is kept by the buckets as a tombstone.
  let live := items.filter (!·.tombstone)
  "<?xml version=\"1.0\" encoding=\"UTF-8\"?><ListBucketResult " ++
    "xmlns=\"http://s3.amazonaws.com/doc/2006-03-01/\"><Name>" ++
    xmlEscape bucket ++ "</Name><Prefix>" ++ xmlEscape pref ++ "</Prefix><KeyCount>" ++
      toString live.length ++
    "</KeyCount><MaxKeys>1000</MaxKeys><IsTruncated>false</IsTruncated>" ++
    String.join (live.map fun o =>
      "<Contents><Key>" ++ xmlEscape o.key ++ "</Key><Size>" ++ toString o.size ++
        "</Size></Contents>") ++
    "</ListBucketResult>"

/-- The part of an object that one range asks for, with an end that is left out. -/
def parseByteRange (text : List Char) (total : UInt64) : Option (UInt64 × UInt64) := do
  let rest ← (Text.trim text).dropPrefix? "bytes=".toList
  let spec := Text.trim rest
  -- Only one range is read, and none of an empty object.
  guard (',' ∉ spec ∧ total ≠ 0)
  match spec.dropPrefix? ['-'] with
  | some digits => do
    -- The last bytes of the object, or all of it when it is shorter.
    let n ← Text.parseU64 digits
    guard (n ≠ 0)
    let n := min n total
    return (total - n, total)
  | none => do
    let (a, b) ← Text.splitOnce '-' spec
    let start ← Text.parseU64 a
    guard (start < total)
    -- Without an end the range goes to the end of the object.
    if b = [] then return (start, total)
    let last ← Text.parseU64 b
    guard (start ≤ last)
    return (start, min (satAdd last 1) total)

/-- The answer to a call, where it succeeds and where it fails. -/
def answer {S A : Type} (call : BucketCall S A) (done : A → HttpResponse) (s : S) :
    HttpResponse × S :=
  match call s with
  | (.ok a, s) => (done a, s)
  | (.error e, s) => (faceErr e, s)

section

variable {S : Type} (b : Buckets S)

/-- Read an object, or the part of it that a range asks for. -/
def writeObjectGet (bucket key : String) (range : Option (List Char)) (s : S) : HttpResponse × S :=
  match range with
  | none => answer (b.get bucket key) (respondWith 200 "OK" "application/octet-stream" []) s
  | some header =>
    -- The length is asked for first, since a range is relative to it.
    match b.head bucket key s with
    | (.error e, s) => (faceErr e, s)
    | (.ok total, s) =>
      match parseByteRange header total with
      | some (start, stop) =>
        match b.getRange bucket key start stop s with
        | (.ok rb, s) =>
          let extra :=
            [("Content-Range", "bytes " ++ toString start ++ "-" ++ toString (satSub rb.stop 1) ++
            "/" ++ toString total),
            ("X-Nas-Chunks-Fetched", toString rb.chunksFetched),
            ("X-Nas-Bytes-Fetched", toString rb.bytesFetched)]
          (respondWith 206 "Partial Content" "application/octet-stream" extra rb.data, s)
        | (.error e, s) => (faceErr e, s)
      | none =>
        (respondWith 416 "Range Not Satisfiable" "text/plain"
          [("Content-Range", "bytes */" ++ toString total)] [], s)

/-- Serve a request. -/
def dispatch (r : HttpRequest) (s : S) : HttpResponse × S :=
  let method := r.method.map Char.toUpper
  match route r.path r.query with
  | .listBuckets =>
    if method = "GET".toList then
      answer b.listBuckets (fun names => respond 200 "OK" "application/xml"
        (bucketsDocument names)) s
    else if method = "HEAD".toList then (respondEmpty 200 "OK", s)
    else (notAllowed, s)
  | .listObjects bucket pref =>
    -- A HEAD of a bucket lists it and throws the listing away.
    if method = "HEAD".toList
      then answer (b.list (String.ofList bucket) "") (fun _ => respondEmpty 200 "OK") s
    else if method = "GET".toList then
      answer (b.list (String.ofList bucket) (String.ofList pref))
        (fun items =>
          respond 200 "OK" "application/xml"
            (listDocument (String.ofList bucket) (String.ofList pref) items)) s
    else (notAllowed, s)
  | .object bucket key =>
    if method = "GET".toList then
      writeObjectGet b (String.ofList bucket) (String.ofList key) r.headers["range".toList]? s
    else if method = "HEAD".toList then
      answer (b.head (String.ofList bucket) (String.ofList key))
        (fun n => ⟨200, "OK", "application/octet-stream", [], n.toNat, []⟩) s
    else if method = "PUT".toList then
      answer (b.put (String.ofList bucket) (String.ofList key) r.body)
        (fun _ => respondEmpty 200 "OK") s
    else if method = "DELETE".toList then
      answer (b.delete (String.ofList bucket) (String.ofList key))
        (fun _ => respondEmpty 204 "No Content") s
    else (notAllowed, s)

end

/--
What a request asks of the buckets: an operation with the bucket, the key, the prefix
and the body it is done on.
-/
inductive Operation where
  | listBuckets
  | probe
  | headBucket (bucket : List Char)
  | listObjects (bucket pref : List Char)
  | get (bucket key : List Char)
  | head (bucket key : List Char)
  | put (bucket key : List Char) (body : Bytes)
  | delete (bucket key : List Char)
  | refused
deriving DecidableEq

/-- The operation of a request. -/
def operation (r : HttpRequest) : Operation :=
  let method := r.method.map Char.toUpper
  match route r.path r.query with
  | .listBuckets =>
    if method = "GET".toList then .listBuckets else if method = "HEAD".toList then .probe
      else .refused
  | .listObjects bucket pref =>
    if method = "HEAD".toList then .headBucket bucket
    else if method = "GET".toList then .listObjects bucket pref
    else .refused
  | .object bucket key =>
    if method = "GET".toList then .get bucket key
    else if method = "HEAD".toList then .head bucket key
    else if method = "PUT".toList then .put bucket key r.body
    else if method = "DELETE".toList then .delete bucket key
    else .refused

/-- Do an operation; a range narrows what is read of an object. -/
def perform {S : Type} (b : Buckets S) (range : Option (List Char)) :
    Operation → S → HttpResponse × S
  | .listBuckets => answer b.listBuckets fun names =>
    respond 200 "OK" "application/xml" (bucketsDocument names)
  | .probe => fun s => (respondEmpty 200 "OK", s)
  | .headBucket bucket => answer (b.list (String.ofList bucket) "") fun _ => respondEmpty 200 "OK"
  | .listObjects bucket pref => answer (b.list (String.ofList bucket) (String.ofList pref))
    fun items =>
      respond 200 "OK" "application/xml"
        (listDocument (String.ofList bucket) (String.ofList pref) items)
  | .get bucket key => writeObjectGet b (String.ofList bucket) (String.ofList key) range
  | .head bucket key => answer (b.head (String.ofList bucket) (String.ofList key)) fun n =>
      ⟨200, "OK", "application/octet-stream", [], n.toNat, []⟩
  | .put bucket key body => answer (b.put (String.ofList bucket) (String.ofList key) body) fun _ =>
    respondEmpty 200 "OK"
  | .delete bucket key => answer (b.delete (String.ofList bucket) (String.ofList key)) fun _ =>
      respondEmpty 204 "No Content"
  | .refused => fun s => (notAllowed, s)

/-- Serving a request is doing its operation, and nothing else of the request counts but a range. -/
theorem dispatch_eq {S : Type} (b : Buckets S) (r : HttpRequest) (s : S) :
    dispatch b r s = perform b r.headers["range".toList]? (operation r) s := by
  -- Dispatching is routing and then performing.
  unfold dispatch operation
  dsimp only
  -- The three kinds of path, each with the verbs it serves.
  split
  · split
    · rfl
    · split <;> rfl
  · split
    · rfl
    · split <;> rfl
  · -- Each of the four verbs on an object is one call, and any other is refused.
    split
    · rfl
    · split
      · rfl
      · split
        · rfl
        · split <;> rfl

end S3

section

variable [Crypto] [Cipher] [GearTable]

/-- A bucket is there where it is the namespace that is served. -/
def Served.exists_ (s : Served) (bucket : String) : Except FaceError Unit :=
  ensure (bucket = s.face.site.name) (.notFound bucket)

/-- A call that is only made on a bucket that is there. -/
def onBucket {A : Type} (bucket : String) (call : BucketCall Served A) : BucketCall Served A :=
  fun s =>
  match s.exists_ bucket with
  | .error e => (.error e, s)
  | .ok () => call s

/-- The buckets of the local gateway, as one call finds them. -/
def localBuckets (w : FaceWorld) : Buckets Served where
  listBuckets s := (.ok [s.face.site.name], s)
  list bucket pref := onBucket bucket fun s => (s.face.list w pref, s)
  get bucket key := onBucket bucket fun s => ((s.face.get w key).1, s.step (.get key) w)
  put bucket key body := onBucket bucket fun s =>
    -- No slice in memory is longer than that.
    if short : body.length < 2 ^ 63
      then ((s.face.put w key ⟨body, short⟩).1, s.step (.put key ⟨body, short⟩) w)
    else (.error (.error "capacity overflow"), s)
  delete bucket key := onBucket bucket fun s => ((s.face.delete w key).1, s.step (.delete key) w)
  head bucket key := onBucket bucket fun s => (s.face.head w key, s)
  getRange bucket key start stop := onBucket bucket fun s =>
    ((s.face.getRange w key start stop).1, s.step (.getRange key start stop) w)

/--
The buckets as one ranged read meets them, with other calls between its lookup and its reading.
-/
def interruptedBuckets (lookup reading : FaceWorld) (between : List (FaceCall × FaceWorld)) :
    Buckets Served :=
  { localBuckets lookup with
    getRange := fun bucket key start stop s =>
      (localBuckets reading).getRange bucket key start stop (faceMachine.run s between) }

/-- The versions of a key: the bytes that were put under it. -/
def Served.versions (s : Served) (key : String) : Set Bytes := {body | (key, some body) ∈ s.log}

/-- The header of a part, from one byte to another of a whole of some length. -/
def contentRange (first last total : Nat) : String :=
  "bytes " ++ toString first ++ "-" ++ toString last ++ "/" ++ toString total

/--
A partial answer that describes its own bytes: one version has them where the header places them.
-/
def HttpResponse.DescribesItself (r : HttpResponse) (versions : Set Bytes) : Prop :=
  ∃ version ∈ versions, ∃ first last, first ≤ last ∧ last < version.length ∧
    r.extra.lookup "Content-Range" = some (contentRange first last version.length) ∧
    r.body = (version.take (last + 1)).drop first

/--
What a range reads of the new version is found there as well in some version of the
old one's length.
-/
def StillFits (versions : Set Bytes) (old new : Bytes) (header : List Char) : Prop :=
  ∃ start stop, S3.parseByteRange header (UInt64.ofNat old.length) = some (start, stop) ∧
    start.toNat < new.length ∧
    ∃ version ∈ versions, version.length = old.length ∧
      (version.take (min stop.toNat new.length)).drop start.toNat =
        (new.take stop.toNat).drop start.toNat

end

end NasTools
