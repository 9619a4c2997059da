import NasTools.Lib.Lossy
import NasTools.Model.Cli.Device
import NasTools.Model.Delete.Record
import NasTools.Model.Peer.Acl
import NasTools.Model.Peer.Leases
import NasTools.Model.Store.Bucket

/-!
A namespace directory used as a bucket: its published head, its outbox, the local writes, and
what a deletion lets go.
-/

namespace NasTools

/-- A directory of one-key buckets, by the number in their file names. -/
structure Outbox where
  dir : String
  files : OrdMap UInt64 Bytes

namespace Outbox

/-- The name of a delta: its number, at least eight digits wide. -/
def fileName (seq : UInt64) : String :=
  let digits := Nat.toDigits 10 seq.toNat
  String.ofList (List.replicate (8 - digits.length) '0' ++ digits) ++ ".nasb"

/-- One past the greatest number in the directory. -/
def nextSeq (b : Outbox) : UInt64 := satAdd (b.files.keys.foldl max 0) 1

/-- Stage a delta under the next number. -/
def enqueue (b : Outbox) (disk : Disk) (delta : BucketManifest) : Except String UInt64 × Outbox :=
  match delta.encode, disk with
  | .error e, _ => (.error e.display, b)
  | .ok _, .error e => (.error e.text, b)
  | .ok bytes, .ok () => (.ok b.nextSeq, { b with files := b.files.insert b.nextSeq bytes })

/-- The files in the order of their names. -/
def inOrder (b : Outbox) : List (UInt64 × Bytes) :=
  b.files.toList.insertionSort fun x y =>
    compare (fileName x.1).toList (fileName y.1).toList ≠ .gt

/-- Read every delta, in the order of the file names. -/
def load (b : Outbox) (disk : Disk) : Except String (List BucketManifest) := do
  disk.mapError IoError.text
  b.inOrder.mapM fun file =>
    (BucketManifest.decode file.2).mapError fun e =>
      b.dir ++ "/" ++ fileName file.1 ++ ": " ++ e.display

/-- Remove every delta; a failure comes after some of them are gone. -/
def clear (b : Outbox) (disk : Disk) (gone : List UInt64) : Except String Unit × Outbox :=
  match disk with
  | .ok () => (.ok (), { b with files := ∅ })
  | .error e =>
    (.error e.text, { b with files := gone.foldl (fun files seq => files.erase seq) b.files })

/-- Merge deltas onto a bucket, one after the other. -/
def fold (base : BucketManifest) (deltas : List BucketManifest) : BucketManifest :=
  deltas.foldl BucketManifest.merge base

end Outbox

/-- Folding valid deltas onto a valid bucket gives a valid bucket. -/
theorem Outbox.valid_fold {deltas : List BucketManifest} {base : BucketManifest}
    (start : base.Valid) (valid : ∀ delta ∈ deltas, delta.Valid) : (fold base deltas).Valid := by
  -- Induction over the deltas, each of which is merged into a valid listing.
  induction deltas generalizing base with
  | nil => exact start
  | cons delta rest ih =>
    exact ih (BucketManifest.valid_merge start (valid delta (by simp))) fun other member =>
      valid other (by simp [member])

/-- Every delta that was read is a valid bucket. -/
theorem Outbox.valid_of_load {b : Outbox} {disk : Disk} {deltas : List BucketManifest}
    (loaded : b.load disk = .ok deltas) : ∀ delta ∈ deltas, delta.Valid := by
  -- Every delta is decoded from its file.
  simp only [load, except_bind_eq_ok] at loaded
  obtain ⟨_, _, read⟩ := loaded
  intro delta member
  obtain ⟨file, _, decoded⟩ := (mem_mapM read delta).mp member
  exact BucketManifest.valid_of_decode (except_mapError_eq_ok.mp decoded)

/-- Why the published head could not be read as a bucket. -/
inductive LoadError where
  | notABucket
  | other (text : String)
deriving DecidableEq

/-- The text a load error prints. -/
def LoadError.display : LoadError → String
  | .notABucket =>
    "state/HEAD points at a directory tree, not a bucket; this namespace is not an S3 face"
  | .other text => text

/-- How a local command fails. -/
inductive Failure where
  | error (text : String)
  | refused (text : String)
deriving DecidableEq

/-- What a command finds outside its own computation: randomness, the clock, and the disk. -/
structure Surroundings where
  nonce : Except String (FixedBytes nonceLen)
  now : Timestamp
  -- Whether files can be read, blobs stored, the head replaced, and the outbox written or cleared.
  read : Disk
  blob : Disk
  head : Disk
  outbox : Disk
  -- The deltas a failing clear had removed before it failed.
  gone : List UInt64

/-- What the object writer made of a file: the chunks it stored, and the manifest it returned. -/
structure Written where
  chunks : List Bytes
  object : Except String Manifest

/-- Whether a key is in a scope, its bytes read as text. -/
def Scope.selects (scope : Scope) (key : Bytes) : Bool :=
  let name := fromUtf8Lossy key
  match scope with
  | .wholeNamespace => true
  | .withPrefix p => p.toList.isPrefixOf name
  | .object p => name == p.toList

/-- The chunks of an object, by their addresses; a tombstone has none. -/
def KeyObject.addrs (e : KeyObject) : List Addr :=
  match e.object with
  | some m => m.chunks.map ChunkRef.addr
  | none => []

/-- The chunks of every entry a scope selects. -/
def BucketManifest.addrsIn (bucket : BucketManifest) (scope : Scope) : List Addr :=
  bucket.entries.toList.flatMap fun (key, e) => if scope.selects key then e.addrs else []

variable [Crypto]

/-- A device's directory for one namespace. -/
structure Site where
  name : String
  device : Device
  outbox : Outbox
  bucketKeys : BucketKeys
  acl : Except String Acl
  -- The everyday device the namespace was created for.
  everyday : Option String

namespace Site

/-- Load a bucket by its address. -/
def loadBucket (x : Site) (addr : Addr) : Except BucketError BucketManifest :=
  x.device.blobs.loadBucket x.bucketKeys x.device.mode addr

/-- The published bucket, or an empty one before anything is published. -/
def loadPublishedHead (x : Site) : Except LoadError BucketManifest :=
  match x.device.head with
  | none => .ok .empty
  | some (.error text) => .error (.other ("state/HEAD is not an address: " ++ text))
  | some (.ok addr) =>
    match x.loadBucket addr with
    | .ok b => .ok b
    | .error .badMagic => .error .notABucket
    | .error e => .error (.other e.display)

/-- Store a bucket and make it the published one. -/
def savePublished (x : Site) (w : Surroundings) (bucket : BucketManifest) :
    Except LoadError Addr × Site :=
  match x.device.blobs.storeBucket x.bucketKeys x.device.mode w.blob w.now w.nonce bucket with
  | (.error e, blobs) => (.error (.other e.display), { x with device := { x.device with blobs } })
  | (.ok addr, blobs) =>
    match w.head with
    | .error e => (.error (.other e.text), { x with device := { x.device with blobs } })
    | .ok () => (.ok addr, { x with device := { x.device with blobs, head := some (.ok addr) } })

/-- Store a bucket among the blobs. -/
def storeBucket (x : Site) (w : Surroundings) (bucket : BucketManifest) :
    Except LoadError Addr × Site :=
  let (result, blobs) :=
    x.device.blobs.storeBucket x.bucketKeys x.device.mode w.blob w.now w.nonce bucket
  (result.mapError fun e => .other e.display, { x with device := { x.device with blobs } })

/-- Replace the head. -/
def setHead (x : Site) (w : Surroundings) (addr : Addr) : Except LoadError Addr × Site :=
  match w.head with
  | .error e => (.error (.other e.text), x)
  | .ok () => (.ok addr, { x with device := { x.device with head := some (.ok addr) } })

/-- Publishing is storing, and then replacing the head. -/
theorem savePublished_eq (x : Site) (w : Surroundings) (bucket : BucketManifest) :
    x.savePublished w bucket =
      match x.storeBucket w bucket with
      | (.error e, x) => (.error e, x)
      | (.ok addr, x) => x.setHead w addr := by
  -- Storing the bucket and setting the head come one after the other, whatever the head was.
  unfold savePublished storeBucket
  generalize x.device.blobs.storeBucket _ _ _ _ _ _ = stored
  obtain ⟨result, blobs⟩ := stored
  cases result with
  | error e => rfl
  | ok addr => cases head : w.head <;> simp [setHead, head, Except.mapError]

/-- The published bucket with every staged delta merged in, which is what a listing shows. -/
def workingView (x : Site) (read : Disk) : Except LoadError BucketManifest := do
  let base ← x.loadPublishedHead
  let deltas ← (x.outbox.load read).mapError .other
  return Outbox.fold base deltas

/-- Why a replay fails; a directory tree is told apart, for a sync to pass over. -/
inductive ReplayError where
  | directoryTree
  | other (text : String)

/-- Fold the outbox onto the published bucket, and clear it. -/
def replayIntoHead (x : Site) (w : Surroundings) : Except ReplayError Nat × Site :=
  match x.outbox.load w.read with
  | .error text => (.error (.other text), x)
  | .ok [] => (.ok 0, x)
  | .ok deltas =>
    match x.loadPublishedHead with
    | .error .notABucket => (.error .directoryTree, x)
    | .error (.other text) => (.error (.other text), x)
    | .ok base =>
      match x.savePublished w (Outbox.fold base deltas) with
      | (.error e, x) => (.error (.other e.display), x)
      | (.ok _, x) =>
        match x.outbox.clear w.outbox w.gone with
        | (.error text, outbox) => (.error (.other text), { x with outbox })
        | (.ok (), outbox) => (.ok deltas.length, { x with outbox })

/-- Whether the acting subject holds a right, on the client's own word; no table refuses nobody. -/
def require (x : Site) (subject : Option String) (need : Right) : Except Failure Unit := do
  let acl ← x.acl.mapError .error
  if acl.entries.isEmpty then return ()
  else
    let subject ← okOr subject
      (.refused "this namespace has an ACL and no everyday device; pass --subject")
    let asked := acl.check subject need x.device.mode
    -- Creating a key is allowed to whoever may overwrite one.
    let decision := if need = .append ∧ ¬asked.permits then acl.check subject .write x.device.mode
      else asked
    match decision with
    | .allowed => return ()
    | .denied | .unknownSubject =>
      .error (.refused (subject ++ " may not " ++ need.asStr ++ " on " ++ x.name ++ ": " ++
        decision.display))
    | .notEnforceable _ _ => .error (.error decision.display)

/-- The id writes are stamped with: the namespace's slot key, whichever device holds it. -/
def writerId (x : Site) : Except Failure Digest :=
  (x.device.slotIdentity.map Identity.id).mapError fun e => .error ("identity: " ++ e)

/-- Stage one key's new version. -/
def enqueueDelta (x : Site) (w : Surroundings) (key : Bytes) (object : KeyObject) :
    Except Failure Unit × Site :=
  match BucketManifest.empty.put key object with
  | .error e => (.error (.error e.display), x)
  | .ok delta =>
    let (result, outbox) := x.outbox.enqueue w.outbox delta
    ((result.map fun _ => ()).mapError .error, { x with outbox })

/-- The next version of a key over a view of the bucket. -/
def nextVersion (view : BucketManifest) (key : Bytes) (writerId : Digest)
    (object : Option Manifest) :
    KeyObject := ⟨view.nextLamport key, writerId, object⟩

/-- `nas put`: store a file's chunks, and stage the key's new version. -/
def put (x : Site) (w : Surroundings) (subject : Option String) (key : String) (file : Written) :
    Except Failure Unit × Site :=
  match x.workingView w.read with
  | .error e => (.error (.error e.display), x)
  | .ok view =>
    let need : Right := if (view.live (utf8 key)).isSome then .write else .append
    match x.require (subject.or x.everyday) need with
    | .error e => (.error e, x)
    | .ok () =>
      let x := { x with device := { x.device with
        blobs := x.device.blobs.putAll w.blob w.now file.chunks } }
      match file.object, x.writerId with
      | .error text, _ => (.error (.error text), x)
      | .ok _, .error e => (.error e, x)
      | .ok object, .ok id =>
        x.enqueueDelta w (utf8 key) (nextVersion view (utf8 key) id (some object))

/-- `nas rm`: stage a tombstone for a key that is there. -/
def rm (x : Site) (w : Surroundings) (subject : Option String) (key : String) :
    Except Failure Unit × Site :=
  match x.require (subject.or x.everyday) .write with
  | .error e => (.error e, x)
  | .ok () =>
    match x.workingView w.read with
    | .error e => (.error (.error e.display), x)
    | .ok view =>
      if (view.live (utf8 key)).isNone then
        (.error (.error ("no such key " ++ x.name ++ "/" ++ key)), x)
      else
        match x.writerId with
        | .error e => (.error e, x)
        | .ok id => x.enqueueDelta w (utf8 key) (nextVersion view (utf8 key) id none)

omit [Crypto] in
/-- Staging a version touches the outbox only. -/
theorem enqueueDelta_device (x : Site) (w : Surroundings) (key : Bytes) (object : KeyObject) :
    (x.enqueueDelta w key object).2.device = x.device ∧
      (x.enqueueDelta w key object).2.bucketKeys = x.bucketKeys := by
  unfold enqueueDelta
  split <;> exact ⟨rfl, rfl⟩

/-- Deleting a key touches the outbox only. -/
theorem rm_device (x : Site) (w : Surroundings) (subject : Option String) (key : String) :
    (x.rm w subject key).2.device = x.device ∧
      (x.rm w subject key).2.bucketKeys = x.bucketKeys := by
  -- Every way out leaves the device alone, and queueing a delta does too.
  unfold rm
  split
  · exact ⟨rfl, rfl⟩
  · split
    · exact ⟨rfl, rfl⟩
    · split
      · exact ⟨rfl, rfl⟩
      · split
        · exact ⟨rfl, rfl⟩
        · exact enqueueDelta_device _ _ _ _

/-- The addresses a scope names, by the published bucket; a directory tree has none. -/
def addrsForScope (x : Site) (scope : Scope) : Except String (List Addr) :=
  match x.loadPublishedHead with
  | .ok bucket => .ok (bucket.addrsIn scope)
  | .error .notABucket => .ok []
  | .error e => .error e.display

/-- After a recorded execution: map the scope to addresses, release their leases, forget them. -/
def applyClientForget (x : Site) (p : Peer) (leases floor : Disk) (now : Timestamp) (scope : Scope)
    (proof : DeleteExecution) : Except String (List Addr) × Peer :=
  match x.addrsForScope scope with
  | .error text => (.error text, p)
  | .ok addrs =>
    -- Whether the leases were written down is not looked at.
    let (_, p) := p.releaseLease leases (Peer.holderId "default") addrs now
    match p.forgetRetention floor addrs proof with
    | (.error e, p) => (.error ("forget: " ++ e.display), p)
    | (.ok (), p) => (.ok addrs, p)

end Site

end NasTools
