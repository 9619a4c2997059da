import NasTools.Model.Gateway.S3
import NasTools.Model.Gateway.SigV4

/-!
The WebDAV face of the gateway: one level of the flat keys of a bucket at a time, as
files and collections.
-/

namespace NasTools

/-- What a PROPFIND tells of one thing: where it is, and how long a file is. -/
inductive DavEntry where
  | collection (href : List Char)
  | file (href : List Char) (size : UInt64)
deriving DecidableEq

namespace Dav

/--
A path as it stands in an href; slashes and the bytes a canonical path keeps stand for themselves.
-/
def hrefEncode (text : List Char) : List Char := Percent.spell (SigV4.keptInUri false) text

/-- The document of a collection, with a length where it is given one. -/
def propCollection (href : String) (size : Option UInt64) : String :=
  let len :=
    (size.map fun n => "<D:getcontentlength>" ++ toString n ++ "</D:getcontentlength>").getD ""
  "<D:response><D:href>" ++ S3.xmlEscape href ++
    "</D:href><D:propstat><D:prop><D:resourcetype><D:collection/></D:resourcetype>" ++ len ++
    "</D:prop><D:status>HTTP/1.1 200 OK</D:status></D:propstat></D:response>"

/-- The document of a file. -/
def propFile (href : String) (size : UInt64) : String :=
  "<D:response><D:href>" ++ S3.xmlEscape href ++
    "</D:href><D:propstat><D:prop><D:getcontentlength>" ++ toString size ++
    "</D:getcontentlength><D:getcontenttype>application/octet-stream</D:getcontenttype><D:resourcetype/>" ++
    "</D:prop><D:status>HTTP/1.1 200 OK</D:status></D:propstat></D:response>"

/-- The document of one thing. -/
def document : DavEntry → String
  | .collection href => propCollection (String.ofList href) none
  | .file href size => propFile (String.ofList href) size

/-- The answer to a PROPFIND. -/
def multistatus (entries : List DavEntry) : HttpResponse :=
  S3.respondWith 207 "Multi-Status" "application/xml; charset=utf-8" [("DAV", "1")]
    (utf8 ("<?xml version=\"1.0\" encoding=\"utf-8\"?><D:multistatus xmlns:D=\"DAV:\">" ++
      String.join (entries.map document) ++ "</D:multistatus>"))

/-- The folder that a rest of a key lies in, where it lies in one. -/
def folder (rest : List Char) : Option (List Char) :=
  match Text.splitOnce '/' rest with
  | some (dir, _) => if dir = [] then none else some dir
  | none => none

/-- What a key has behind a prefix, with the size of the object; what was deleted has nothing. -/
def restOf (pref : List Char) (o : ObjectInfo) : Option (List Char × UInt64) := do
  guard (o.tombstone = false)
  let rest ← o.key.toList.dropPrefix? pref
  guard (rest ≠ [])
  return (rest, o.size)

/-- The things right behind a prefix: each folder once, in order, and then the files. -/
def childrenOf (pref hrefBase : List Char) (items : List ObjectInfo) : List DavEntry :=
  let rests := items.filterMap (restOf pref)
  let dirs : OrdSet (List Char) :=
    (rests.filterMap fun r => folder r.1).foldl (fun dirs d => dirs.insert d) ∅
  let files := rests.filter fun r => (folder r.1).isNone
  (dirs.toList.map fun d => .collection (hrefBase ++ hrefEncode d ++ ['/'])) ++
    files.map fun r => .file (hrefBase ++ hrefEncode r.1) r.2

section

variable {S : Type} (b : Buckets S)

/-- Add the things right behind a prefix. -/
def appendChildren (bucket pref hrefBase : List Char) (out : List DavEntry) :
    BucketCall S (List DavEntry) := fun s =>
  match b.list (String.ofList bucket) (String.ofList pref) s with
  | (.error e, s) => (.error e, s)
  | (.ok items, s) => (.ok (out ++ childrenOf pref hrefBase items), s)

/--
What is told of one key: a file where the key is there, and else the collection of
what lies behind it.
-/
def objectOrCollection (bucket key : List Char) (includeChildren : Bool) :
    BucketCall S (List DavEntry) := fun s =>
  match b.list (String.ofList bucket) (String.ofList key) s with
  | (.error e, s) => (.error e, s)
  | (.ok items, s) =>
    let exact_ := items.find? fun o => o.key.toList == key && !o.tombstone
    let childPrefix := if key.getLast? = some '/' then key else key ++ ['/']
    let hasChildren := items.any fun o => !o.tombstone && childPrefix.isPrefixOf o.key.toList
    match exact_ with
    -- Nothing is told of what lies behind a key that is there itself.
    | some o => (.ok [.file ('/' :: bucket ++ '/' :: hrefEncode o.key.toList) o.size], s)
    | none =>
      if hasChildren then
        -- All slashes at the end are dropped, and one is put back.
        let href := '/' :: bucket ++ '/' :: hrefEncode (key.rdropWhile (· == '/')) ++ ['/']
        if includeChildren then appendChildren b bucket childPrefix href [.collection href] s
        else (.ok [.collection href], s)
      else (.error (.notFound (String.ofList key)), s)

/-- What a PROPFIND tells; without a depth it is told of what lies right behind, too. -/
def propfind (headers : Headers) (route : Route) : BucketCall S (List DavEntry) := fun s =>
  let includeChildren := (headers["depth".toList]?).getD "1".toList ≠ "0".toList
  match route with
  | .listBuckets =>
    if includeChildren then
      match b.listBuckets s with
      | (.error e, s) => (.error e, s)
      -- The name of a bucket stands in its href as it is.
      | (.ok names, s) =>
        (.ok (.collection ['/'] :: names.map fun n => .collection ('/' :: n.toList ++ ['/'])), s)
    else (.ok [.collection ['/']], s)
  | .listObjects bucket pref =>
    if pref ≠ [] then objectOrCollection b bucket pref includeChildren s
    else
      match b.list (String.ofList bucket) "" s with
      | (.error e, s) => (.error e, s)
      | (.ok _, s) =>
        let href := '/' :: bucket ++ ['/']
        if includeChildren then appendChildren b bucket [] href [.collection href] s
        else (.ok [.collection href], s)
  | .object bucket key => objectOrCollection b bucket key includeChildren s

/-- The answer to OPTIONS. -/
def options : HttpResponse :=
  S3.respondWith 200 "OK" "text/plain"
    [("DAV", "1"), ("Allow", "OPTIONS, PROPFIND, GET, HEAD"), ("MS-Author-Via", "DAV")] []

/-- The verbs that would write. -/
def writes : List (List Char) :=
  ["PUT".toList, "DELETE".toList, "MKCOL".toList, "MOVE".toList, "COPY".toList, "PROPPATCH".toList]

/-- Serve a request. -/
def dispatch (r : HttpRequest) (s : S) : HttpResponse × S :=
  let method := r.method.map Char.toUpper
  let route := S3.route r.path r.query
  if method = "OPTIONS".toList then (options, s)
  else if method = "PROPFIND".toList then S3.answer (propfind b r.headers route) multistatus s
  else if method = "GET".toList then
    match route with
    | .object bucket key =>
      S3.writeObjectGet b (String.ofList bucket) (String.ofList key) r.headers["range".toList]? s
    -- A collection is no download.
    | _ => (S3.respond 405 "Method Not Allowed" "text/plain" "use PROPFIND on a collection", s)
  else if method = "HEAD".toList then
    match route with
    | .object bucket key => S3.answer (b.head (String.ofList bucket) (String.ofList key))
        (fun n => ⟨200, "OK", "application/octet-stream", [("DAV", "1")], n.toNat, []⟩) s
    | .listObjects bucket _ =>
      S3.answer (b.list (String.ofList bucket) "") (fun _ => S3.respondEmpty 200 "OK") s
    | .listBuckets => (S3.respondEmpty 200 "OK", s)
  else if method ∈ writes then
    (S3.respond 405 "Method Not Allowed" "text/plain" "this WebDAV face is read-only (SPECS 8)", s)
  else (S3.respond 405 "Method Not Allowed" "text/plain" "not allowed", s)

end

end Dav

end NasTools
