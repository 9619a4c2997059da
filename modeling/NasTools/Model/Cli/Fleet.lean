import NasTools.Lib.Machine
import NasTools.Model.Cli.Outbox
import NasTools.Model.Cli.Scene
import NasTools.Model.Peer.SlotHistory

/-! The devices of one namespace and the peer they share, over any order of their commands. -/

namespace NasTools

variable [Crypto]

/-- What the devices of a namespace have in common: its name, its mode, and its secrets. -/
structure Credentials where
  ns : Bytes
  mode : Mode
  identity : Identity
  keys : RootKeys
  bucketKeys : BucketKeys
  addressing : Addressing

/-- The slot of a namespace. -/
def Credentials.slot (c : Credentials) : SlotId := slotIdOf c.identity.verifyingKey c.ns

namespace Site

/-- A site of a namespace. -/
structure Of (c : Credentials) (x : Site) : Prop where
  ns : x.device.ns = c.ns
  mode : x.device.mode = c.mode
  identity : x.device.slotIdentity = .ok c.identity
  keys : x.device.keys = c.keys
  bucketKeys : x.bucketKeys = c.bucketKeys
  addressing : x.device.blobs.addressing = c.addressing

/-- The bucket a record names, as far as a site can read it from its own blobs. -/
def bucketOf (x : Site) (r : SlotRecord) : Option BucketManifest := do
  let blob ← (x.device.blobs.get r.root).toOption
  let root ← (x.device.keys.openRoot x.device.mode r.slotId r.seq r.rootNonce blob).toOption
  (x.loadBucket root.tree).toOption

/-- The blob a replay hands to the store. -/
def replayBlob (x : Site) (w : Surroundings) : Option Bytes := do
  let deltas ← (x.outbox.load w.read).toOption
  guard (deltas ≠ [])
  let base ← x.loadPublishedHead.toOption
  (x.bucketKeys.sealBucket x.device.mode w.nonce (Outbox.fold base deltas)).toOption

/-- Whether a sync goes on after its replay, which a directory tree does not stop. -/
def goesOn : Except ReplayError Nat → Bool
  | .error (.other _) => false
  | _ => true

end Site

/-- Some devices of a namespace, and the peer they share. -/
structure Fleet (I : Type) where
  peer : Peer
  sites : I → Site

/-- One command on one device; the peer serves one connection at a time. -/
inductive Act (I : Type) where
  | put (i : I) (w : Surroundings) (subject : Option String) (key : String) (file : Written)
  | rm (i : I) (w : Surroundings) (subject : Option String) (key : String)
  -- The conversation of the sync, and what it leaves at both ends.
  | sync (i : I) (w : Surroundings) (o : SyncOpts) (subject : String) (said : Conversation)
    (left : Scene)

namespace Fleet

variable {I : Type} [DecidableEq I]

/-- Replace one site. -/
def place (s : Fleet I) (i : I) (x : Site) : Fleet I :=
  { s with sites := Function.update s.sites i x }

/-- What a command leaves. -/
def step (s : Fleet I) : Act I → Fleet I
  | .put i w subject key file => s.place i ((s.sites i).put w subject key file).2
  | .rm i w subject key => s.place i ((s.sites i).rm w subject key).2
  | .sync i w _ _ _ left =>
    let (result, x) := (s.sites i).replayIntoHead w
    if Site.goesOn result then { s.place i { x with device := left.device } with peer := left.peer }
    else s.place i x

/-- Whether a command can go that way, storing none but known blobs. -/
def Takes (blobs : Set Bytes) (s : Fleet I) : Act I → Prop
  | .put _ _ _ _ file => ∀ data ∈ file.chunks, data ∈ blobs
  | .rm _ _ _ _ => True
  | .sync i w o subject said left =>
    (∀ data, (s.sites i).replayBlob w = some data → data ∈ blobs) ∧
      (Site.goesOn ((s.sites i).replayIntoHead w).1 →
        ∃ outcome, (NasTools.sync ((s.sites i).replayIntoHead w).2.device o).Plays said outcome ∧
          Script.Runs (Heard blobs subject) ⟨s.peer, ((s.sites i).replayIntoHead w).2.device⟩
            said left)

/-- Nothing has been written or published yet. -/
structure Fresh (c : Credentials) (s : Fleet I) : Prop where
  peer : s.peer.Sound
  slot : s.peer.recordsOf c.slot = []
  sites : ∀ i, (s.sites i).Of c
  head : ∀ i, (s.sites i).device.head = none
  outbox : ∀ i, (s.sites i).outbox.files = ∅
  blobs : ∀ i, (s.sites i).device.blobs.files = ∅

/-- A record names a bucket when some device of the namespace reads that bucket from it. -/
def Names (s : Fleet I) (r : SlotRecord) (bucket : BucketManifest) : Prop :=
  ∃ i, (s.sites i).bucketOf r = some bucket

/--
No published write is lost.

Every record names a bucket, and each holds for every key an entry that is equal to or beats the
entry of every record published before it.
-/
structure NothingLost (c : Credentials) (s : Fleet I) : Prop where
  named : ∀ r ∈ s.peer.recordsOf c.slot, ∃ bucket, s.Names r bucket
  covered : (s.peer.recordsOf c.slot).Pairwise fun older newer =>
    ∀ old new, s.Names older old → s.Names newer new → new.Covers old

/-- A device syncs only when its own view already covers the bucket of the head the peer serves. -/
def UpToDate (c : Credentials) (s : Fleet I) : Act I → Prop
  | .sync i _ _ _ _ _ =>
    ∀ view, (s.sites i).workingView (.ok ()) = .ok view →
      ∀ r, (s.peer.recordsOf c.slot).getLast? = some r →
        ∀ served, s.Names r served → view.Covers served
  | _ => True

end Fleet

/-- The fleet as a machine. -/
def fleet (I : Type) [DecidableEq I] : Machine (Fleet I) (Act I) Unit where
  step s a := ((), s.step a)

end NasTools
