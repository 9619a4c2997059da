import NasTools.Lib.Lossy
import NasTools.Model.Cli.Staging
import NasTools.Model.Store.Objects

/-!
The local S3 face of a namespace: its calls on one device, and the plain map it is meant to be.
-/

namespace NasTools

/-- How a call on the face fails. -/
inductive FaceError where
  | refused (text : String)
  | notFound (text : String)
  | error (text : String)
deriving DecidableEq

/-- What a listing says of one key. -/
structure ObjectInfo where
  key : String
  size : UInt64
  tombstone : Bool
deriving DecidableEq

/-- A part of an object, where it lies in it, and what reading it took. -/
structure RangeBody where
  data : Bytes
  total : UInt64
  start : UInt64
  stop : UInt64
  chunksFetched : Nat
  bytesFetched : UInt64
deriving DecidableEq

/-- Bytes in memory, which are never as many as half the address space. -/
structure Body where
  bytes : Bytes
  short : bytes.length < 2 ^ 63

/-- What a call finds outside its own computation. -/
structure FaceWorld where
  -- Whether the namespace can be described and opened, and its directories made.
  described : Except String Unit
  opened : Except String Unit
  blobsDir : Disk
  outboxDir : Disk
  -- Whether HEAD can be read, and the outbox listed for the next number.
  headRead : Disk
  listing : Disk
  -- How writing a delta, HEAD and each chunk goes, and reading each chunk.
  staged : Writing
  headFile : Writing
  chunkPut : Nat → Disk
  chunkGet : Nat → ChunkDisk
  around : Surroundings

/-- The number a delta is staged under; a directory that cannot be listed counts as empty. -/
def Outbox.pickSeq (b : Outbox) (listing : Disk) : UInt64 :=
  match listing with
  | .ok () => b.nextSeq
  | .error _ => 1

/-- Stage a delta; a write that fails can leave a part of it under the number. -/
def Outbox.stage (b : Outbox) (listing : Disk) (write : Writing) (delta : BucketManifest) :
    Except String UInt64 × Outbox :=
  match delta.encode with
  | .error e => (.error e.display, b)
  | .ok bytes =>
    let seq := b.pickSeq listing
    let b := match write.remains bytes with
      | some left => b.write seq left
      | none => b
    ((write.report.mapError IoError.text).map fun _ => seq, b)

variable [Crypto]

namespace Site

/-- The published bucket; a HEAD that cannot be read counts as none. -/
def findHead (x : Site) (headRead : Disk) : Except LoadError BucketManifest :=
  match headRead with
  | .ok () => x.loadPublishedHead
  | .error _ => .ok .empty

/-- The published bucket with every staged delta merged in. -/
def viewIn (x : Site) (w : FaceWorld) : Except LoadError BucketManifest := do
  let base ← x.findHead w.headRead
  w.outboxDir.mapError fun e => .other e.text
  let deltas ← (x.outbox.load w.around.read).mapError .other
  return Outbox.fold base deltas

/-- Write HEAD in place: the address in hexadecimal, and a line end. -/
def writeHead (x : Site) (write : Writing) (addr : Addr) : Except LoadError Addr × Site :=
  match write with
  | .done => (.ok addr, { x with device := { x.device with head := some (.ok addr) } })
  | .failed e none => (.error (.other e.text), x)
  | .failed e (some k) =>
    -- A part of the digits is no address; without the line end it is one.
    let left := if k < 2 * addrLen then .error (String.ofList ((toHex addr.bytes).take k))
      else .ok addr
    (.error (.other e.text), { x with device := { x.device with head := some left } })

/-- Fold the outbox onto the published bucket and clear it, with HEAD written in place. -/
def replay (x : Site) (w : FaceWorld) : Except ReplayError Nat × Site :=
  match w.outboxDir, x.outbox.load w.around.read with
  | .error e, _ => (.error (.other e.text), x)
  | .ok (), .error text => (.error (.other text), x)
  | .ok (), .ok [] => (.ok 0, x)
  | .ok (), .ok deltas =>
    match w.blobsDir, x.findHead w.headRead with
    | .error e, _ => (.error (.other e.text), x)
    | .ok (), .error .notABucket => (.error .directoryTree, x)
    | .ok (), .error (.other text) => (.error (.other text), x)
    | .ok (), .ok base =>
      match x.storeBucket w.around (Outbox.fold base deltas) with
      | (.error e, x) => (.error (.other e.display), x)
      | (.ok addr, x) =>
        match x.writeHead w.headFile addr with
        | (.error e, x) => (.error (.other e.display), x)
        | (.ok _, x) =>
          match x.outbox.clear w.around.outbox w.around.gone with
          | (.error text, outbox) => (.error (.other text), { x with outbox })
          | (.ok (), outbox) => (.ok deltas.length, { x with outbox })

end Site

/-- A namespace directory behind the face, and the cache that lives as long as the process. -/
structure Face where
  site : Site
  padding : PaddingProfile
  cs : FixedBytes keyLen
  tenantSalt : Bytes
  cache : Option ChunkCache

namespace Face

/-- How the namespace protects its chunks. -/
def sealer (f : Face) : Sealer :=
  match f.site.device.mode with
  | .transitOnly => .plaintext f.tenantSalt
  | .e2ee | .passphrase => .convergent f.cs

/-- The blobs of the namespace replaced. -/
def withBlobs (f : Face) (blobs : BlobStore) : Face :=
  { f with site := { f.site with device := { f.site.device with blobs } } }

/-- An error of the namespace as a whole. -/
def nsError (f : Face) (text : String) : FaceError :=
  .error ("namespace " ++ f.site.name ++ ": " ++ text)

/-- Open the namespace and its blobs. -/
def openRepo (f : Face) (w : FaceWorld) : Except FaceError Unit := do
  w.opened.mapError f.nsError
  w.blobsDir.mapError fun e => .error e.text

/-- What a call sees: the bucket in view, or why it could not be loaded. -/
def view (f : Face) (w : FaceWorld) : Except FaceError BucketManifest :=
  (f.site.viewIn w).mapError fun e => .error e.display

/-- Whether the everyday device holds a right; no table refuses nobody. -/
def checkRight (f : Face) (w : FaceWorld) (need : Right) : Except FaceError Unit := do
  let acl ← f.site.acl.mapError .error
  if acl.entries.isEmpty then return ()
  else
    let subject ← okOr f.site.everyday (.refused "this namespace has an ACL and no everyday device")
    w.described.mapError f.nsError
    let asked := acl.check subject need f.site.device.mode
    -- Creating a key is allowed to whoever may overwrite one.
    let decision :=
      if need = .append ∧ ¬asked.permits then acl.check subject .write f.site.device.mode else asked
    match decision with
    | .allowed => return ()
    | .denied | .unknownSubject =>
      .error (.refused (subject ++ " may not " ++ need.asStr ++ " on " ++ f.site.name ++ ": " ++
        decision.display))
    | .notEnforceable _ _ => .error (.error decision.display)

/-- Stage one key's new version. -/
def enqueueDelta (f : Face) (w : FaceWorld) (key : Bytes) (entry : KeyObject) :
    Except FaceError Unit × Face :=
  match BucketManifest.empty.put key entry, w.outboxDir with
  | .error e, _ => (.error (.error e.display), f)
  | .ok _, .error e => (.error (.error e.text), f)
  | .ok delta, .ok () =>
    let (result, outbox) := f.site.outbox.stage w.listing w.staged delta
    ((result.map fun _ => ()).mapError .error, { f with site := { f.site with outbox } })

/-- Stage the version of a key that follows the one in view. -/
def stageNext (f : Face) (w : FaceWorld) (view : BucketManifest) (key : Bytes)
    (object : Option Manifest) :
    Except FaceError Unit × Face :=
  match f.site.device.slotIdentity with
  | .error text => (.error (.error text), f)
  | .ok identity =>
    let entry := Site.nextVersion view key identity.id object
    match view.put key entry with
    | .error e => (.error (.error e.display), f)
    | .ok _ => f.enqueueDelta w key entry

variable [Cipher] [GearTable]

/-- Why an object could not be written; the default sizes keep every chunk within 32 bits. -/
def writeError : WriteFailure → FaceError
  | .error e => .error e.display
  | .panic => .error "chunks are bounded by cfg.max"

/-- Write the bytes of an object as chunks. -/
def writeObject (f : Face) (w : FaceWorld) (body : Body) : Except FaceError Manifest × Face :=
  match ObjectWriter.withDefaults f.sealer f.padding with
  | .error e => (.error (.error e.display), f)
  | .ok writer =>
    let (result, blobs) :=
      writer.write f.site.device.blobs w.chunkPut w.around.now .file (.cursor body.bytes)
    (result.mapError writeError, f.withBlobs blobs)

/-- What a put checks before it writes anything; it gives the view. -/
def admitPut (f : Face) (w : FaceWorld) (key : String) : Except FaceError BucketManifest := do
  w.described.mapError f.nsError
  f.openRepo w
  let view ← f.view w
  f.checkRight w (if (view.live (utf8 key)).isSome then .write else .append)
  return view

/-- Put the bytes of a key. -/
def put (f : Face) (w : FaceWorld) (key : String) (body : Body) : Except FaceError UInt64 × Face :=
  match f.admitPut w key with
  | .error e => (.error e, f)
  | .ok view =>
    match f.writeObject w body with
    | (.error e, f) => (.error e, f)
    | (.ok object, f) =>
      let (result, f) := f.stageNext w view (utf8 key) (some object)
      (result.map fun _ => object.size, f)

/-- What a delete checks before it writes anything; it gives the view. -/
def admitDelete (f : Face) (w : FaceWorld) (key : String) : Except FaceError BucketManifest := do
  w.described.mapError f.nsError
  f.checkRight w .write
  f.openRepo w
  let view ← f.view w
  ensure (view.live (utf8 key)).isSome (.notFound key)
  return view

/-- Delete a key that is there. -/
def delete (f : Face) (w : FaceWorld) (key : String) : Except FaceError Unit × Face :=
  match f.admitDelete w key with
  | .error e => (.error e, f)
  | .ok view => f.stageNext w view (utf8 key) none

/-- The manifest of a key that is there. -/
def find (f : Face) (w : FaceWorld) (key : String) : Except FaceError Manifest := do
  f.openRepo w
  let view ← f.view w
  okOr (view.live (utf8 key)) (.notFound key)

/-- The size of a key. -/
def head (f : Face) (w : FaceWorld) (key : String) : Except FaceError UInt64 :=
  (f.find w key).map Manifest.size

/-- Every key that starts with some text, those deleted included. -/
def list (f : Face) (w : FaceWorld) (pref : String) : Except FaceError (List ObjectInfo) := do
  f.openRepo w
  let view ← f.view w
  let matching := view.entries.toList.filter fun entry => (utf8 pref).isPrefixOf entry.1
  return matching.map fun entry =>
    ⟨String.ofList (fromUtf8Lossy entry.1), (entry.2.object.map Manifest.size).getD 0,
      entry.2.deleted⟩

/-- The bytes of a key. -/
def get (f : Face) (w : FaceWorld) (key : String) : Except FaceError Bytes × Face :=
  match f.find w key with
  | .error e => (.error e, f)
  | .ok m =>
    let (result, cache) :=
      f.site.device.blobs.readObjectRange m 0 (UInt64.ofNat (2 ^ 64 - 1)) w.chunkGet f.cache
    ((result.map fun read => read.2.2).mapError fun e => .error e.display, { f with cache })

/-- A part of the bytes of a key, cut down to what there is. -/
def getRange (f : Face) (w : FaceWorld) (key : String) (start stop : UInt64) :
    Except FaceError RangeBody × Face :=
  match f.find w key with
  | .error e => (.error e, f)
  | .ok m =>
    let total := m.size
    let start := min start total
    let stop := max (min stop total) start
    let (result, cache) := f.site.device.blobs.readObjectRange m start stop w.chunkGet f.cache
    ((result.map fun read => ⟨read.2.2, total, start, stop, read.2.1.chunksFetched,
      read.2.1.bytesFetched⟩).mapError fun e => .error e.display, { f with cache })

end Face

/-- One call on the face, or a replay between two calls. -/
inductive FaceCall where
  | put (key : String) (body : Body)
  | delete (key : String)
  | get (key : String)
  | getRange (key : String) (start stop : UInt64)
  | head (key : String)
  | list (pref : String)
  | replay

/-- A plain map from texts to bytes, in the order of the bytes of the texts. -/
abbrev Shelf := OrdMap Bytes (String × Bytes)

namespace Shelf

/-- Write a key: new bytes, or nothing where it is deleted. -/
def write (m : Shelf) (key : String) : Option Bytes → Shelf
  | some body => m.insert (utf8 key) (key, body)
  | none => m.erase (utf8 key)

/-- The map after some writes, the first of which comes first. -/
def ofLog (log : List (String × Option Bytes)) : Shelf :=
  log.foldl (fun m entry => m.write entry.1 entry.2) ∅

/-- The bytes of a key. -/
def get (m : Shelf) (key : String) : Except FaceError Bytes :=
  okOr ((m[utf8 key]?).map Prod.snd) (.notFound key)

/-- The size of a key. -/
def head (m : Shelf) (key : String) : Except FaceError UInt64 :=
  (m.get key).map fun body => UInt64.ofNat body.length

/-- The keys that start with some text. -/
def list (m : Shelf) (pref : String) : List ObjectInfo :=
  (m.toList.filter fun entry => (utf8 pref).isPrefixOf entry.1).map fun entry =>
    ⟨entry.2.1, UInt64.ofNat entry.2.2.length, false⟩

/-- A part of the bytes of a key with its bounds, which lie inside the whole. -/
def getRange (m : Shelf) (key : String) (start stop : UInt64) :
    Except FaceError (Bytes × UInt64 × UInt64 × UInt64) :=
  (m.get key).map fun body =>
    let total := UInt64.ofNat body.length
    let start := min start total
    let stop := max (min stop total) start
    ((body.take stop.toNat).drop start.toNat, total, start, stop)

end Shelf

/-- A face with the writes that have succeeded on it, in their order. -/
structure Served where
  face : Face
  log : List (String × Option Bytes)

namespace Served

variable [Cipher] [GearTable]

/-- What a call leaves. -/
def step (s : Served) (call : FaceCall) (w : FaceWorld) : Served :=
  match call with
  | .put key body =>
    let (result, face) := s.face.put w key body
    ⟨face, s.log ++ if result.isOk then [(key, some body.bytes)] else []⟩
  | .delete key =>
    let (result, face) := s.face.delete w key
    ⟨face, s.log ++ if result.isOk then [(key, none)] else []⟩
  | .get key => { s with face := (s.face.get w key).2 }
  | .getRange key start stop => { s with face := (s.face.getRange w key start stop).2 }
  | .head _ | .list _ => s
  | .replay => { s with face := { s.face with site := (s.face.site.replay w).2 } }

/-- A key that can still be written: fewer than `2 ^ 64 - 1` times in all. -/
def Room (s : Served) (key : String) : Prop :=
  (s.log.filter fun entry => entry.1 = key).length + 1 < 2 ^ 64 - 1

instance (s : Served) (key : String) : Decidable (s.Room key) :=
  inferInstanceAs (Decidable ((s.log.filter fun entry => entry.1 = key).length + 1 < 2 ^ 64 - 1))

/-- Whether a call can go that way, storing none but known blobs and chunks. -/
def Takes (blobs chunks : Set Bytes) (s : Served) (call : FaceCall) (w : FaceWorld) : Prop :=
  match call with
  | .put key body => s.Room key ∧
    ∀ writer ∈ (ObjectWriter.withDefaults s.face.sealer s.face.padding).toOption,
      ∀ plain ∈ writer.chunker.split body.bytes, writer.Known blobs chunks plain
  | .delete key => s.Room key
  | .replay => ∀ data ∈ s.face.site.replayBlob w.around, data ∈ blobs
  | .get _ | .getRange _ _ _ | .head _ | .list _ => True

instance (blobs chunks : List Bytes) (s : Served) (w : FaceWorld) :
    (call : FaceCall) → Decidable (s.Takes {data | data ∈ blobs} {data | data ∈ chunks} call w)
  | .put key body => inferInstanceAs (Decidable (s.Room key ∧
      ∀ writer ∈ (ObjectWriter.withDefaults s.face.sealer s.face.padding).toOption,
        ∀ plain ∈ writer.chunker.split body.bytes, writer.Known _ _ plain))
  | .delete key => inferInstanceAs (Decidable (s.Room key))
  | .replay => inferInstanceAs (Decidable (∀ data ∈ s.face.site.replayBlob w.around, data ∈ blobs))
  | .get _ | .getRange _ _ _ | .head _ | .list _ => isTrue trivial

/-- HEAD, where there is one, can be read. -/
def SeesHead (s : Served) (w : FaceWorld) : Prop :=
  w.headRead = .ok () ∨ s.face.site.device.head = none

instance (s : Served) (w : FaceWorld) : Decidable (s.SeesHead w) :=
  inferInstanceAs (Decidable (w.headRead = .ok () ∨ s.face.site.device.head = none))

/--
A call that leaves no file in part, and builds on what is there.

HEAD can be read where there is one, a failed write leaves the file as it was, and a delta is staged
under a number that no file has.
-/
def Spares (s : Served) (call : FaceCall) (w : FaceWorld) : Prop :=
  match call with
  | .put _ _ | .delete _ => s.SeesHead w ∧ w.staged.Whole ∧
      s.face.site.outbox.files[s.face.site.outbox.pickSeq w.listing]? = none
  | .replay => s.SeesHead w ∧ w.headFile.Whole
  | .get _ | .getRange _ _ _ | .head _ | .list _ => True

instance (s : Served) (w : FaceWorld) : (call : FaceCall) → Decidable (s.Spares call w)
  | .put _ _ | .delete _ => inferInstanceAs (Decidable (s.SeesHead w ∧ w.staged.Whole ∧
      s.face.site.outbox.files[s.face.site.outbox.pickSeq w.listing]? = none))
  | .replay => inferInstanceAs (Decidable (s.SeesHead w ∧ w.headFile.Whole))
  | .get _ | .getRange _ _ _ | .head _ | .list _ => isTrue trivial

/-- A namespace in which nothing is published or staged, and a cache from which nothing opens. -/
structure Fresh (blobs : Set Bytes) (s : Served) : Prop where
  head : s.face.site.device.head = none
  outbox : s.face.site.outbox.files = ∅
  within : s.face.site.device.Within blobs
  cache : ∀ cached ∈ s.face.cache, cached.Sound fun _ _ => False
  log : s.log = []

end Served

/-- Nothing a read needs fails. -/
structure FaceWorld.Healthy (w : FaceWorld) : Prop where
  opened : w.opened = .ok ()
  blobsDir : w.blobsDir = .ok ()
  outboxDir : w.outboxDir = .ok ()
  read : w.around.read = .ok ()
  fetch : ∀ i, (w.chunkGet i).fetch = .ok ()

/-- An answer is the right one, or reports that something failed which a read needs. -/
def FaceWorld.Answers {A : Type} (w : FaceWorld) (answer right : Except FaceError A) : Prop :=
  answer = right ∨ (¬w.Healthy ∧ ∃ text, answer = .error (.error text))

/-- Every read answers as the map does that the successful writes leave. -/
structure Served.Serves [Cipher] (s : Served) : Prop where
  get : ∀ w, s.SeesHead w → ∀ key, w.Answers (s.face.get w key).1 ((Shelf.ofLog s.log).get key)
  head : ∀ w, s.SeesHead w → ∀ key, w.Answers (s.face.head w key) ((Shelf.ofLog s.log).head key)
  list : ∀ w, s.SeesHead w → ∀ pref, w.Answers
    ((s.face.list w pref).map fun infos => infos.filter fun info => ¬info.tombstone)
      (.ok ((Shelf.ofLog s.log).list pref))
  getRange : ∀ w, s.SeesHead w → ∀ key start stop, w.Answers
    ((s.face.getRange w key start stop).1.map fun r => (r.data, r.total, r.start, r.stop))
    ((Shelf.ofLog s.log).getRange key start stop)

/-- The face as a machine. -/
def faceMachine [Cipher] [GearTable] : Machine Served (FaceCall × FaceWorld) Unit where
  step s e := ((), s.step e.1 e.2)

end NasTools
