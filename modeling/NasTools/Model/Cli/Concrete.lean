import NasTools.Model.Cli.Fleet
import NasTools.Model.Cli.Sync
import NasTools.Model.Slots.Concrete

/-! A device and a scripted peer over the concrete primitives. -/

namespace NasTools.Concrete

/-- Root keys that seal nothing: the sealed form is the manifest itself. -/
def plainKeys : RootKeys := ⟨fun _ _ plain _ => plain, fun _ _ sealed _ => some sealed⟩

/-- A device with an empty store and nothing to publish, whose keys grow from two seeds. -/
def device (pin : Option Device.Pin) : Device where
  ns := [1]
  mode := .e2ee
  slotIdentity := .ok (identity 7)
  witnessIdentity := .ok (identity 8)
  rosterFiles := []
  head := none
  blobs := .empty .content
  blobDir := .ok ()
  pin := pin
  cpPin := none
  generation := 0
  keys := plainKeys

/-- The slot of that device. -/
def deviceSlot : SlotId := slotIdOf (identity 7).verifyingKey [1]

/-- The root manifest of a tree, as these keys seal it. -/
def sealedRoot (tree : Addr) : Bytes := (RootManifest.encode ⟨tree, 0⟩).toOption.getD []

/-- The record with which that device publishes a tree. -/
def version (seq : UInt64) (tree : Addr) (prev : Digest) : SlotRecord :=
  recordOf 7 deviceSlot seq (digest (sealedRoot tree)) prev .casMerge

/-- A record as a peer sends it. -/
def sent (r : SlotRecord) : Bytes := r.encode.toOption.getD []

/-- A world in which every local step succeeds and the replies to the calls are given in advance. -/
def scripted (replies : List Response) : (q : Op) → q.Answer × List Response
  | .dial _ => (.ok (), replies)
  | .call _ _ =>
    match replies with
    | [] => (.error "peer: connection closed", [])
    | reply :: rest => (.ok reply, rest)
  | .nonce => (.ok Digest.zero, replies)
  | .rootNonce => (.ok (FixedBytes.zero _), replies)
  | .keepBlob data => (.ok (digest data), replies)
  | .writePin _ _ => (.ok (), replies)
  | .writeCpPin _ _ => (.ok (), replies)

/-- The namespace the concrete devices belong to. -/
def homeCredentials : Credentials where
  ns := [1]
  mode := .e2ee
  identity := identity 7
  keys := plainKeys
  bucketKeys := ⟨fun _ plain _ => plain, fun sealed _ => .ok sealed⟩
  addressing := .content

/-- A device of that namespace on which nothing has happened yet. -/
def homeSite : Site where
  name := "home"
  device := device none
  outbox := ⟨"home/state/outbox", ∅⟩
  bucketKeys := homeCredentials.bucketKeys
  acl := .ok .empty
  everyday := none

/-- Surroundings in which everything works. -/
def calm : Surroundings := ⟨.ok (FixedBytes.zero _), 0, .ok (), .ok (), .ok (), .ok (), []⟩

/-- What the object writer makes of an empty file. -/
def emptyFile : Written := ⟨[], .ok ⟨manifestVersion, .convergent, .none, .file, [], 0, [], []⟩⟩

end NasTools.Concrete
