import NasTools.Model.Delete.Policy
import NasTools.Model.Lease.Sweep
import NasTools.Model.Peer.Acl
import NasTools.Model.Slots.Checkpoint
import NasTools.Model.Slots.Witness
import NasTools.Model.Store.Blobs

/-! The state of a peer, the ways it can misbehave, and the errors it answers with. -/

namespace NasTools

/-- Witnesses the relay keeps for one slot. -/
def maxWitnessesPerSlot : Nat := 1024

/-- Handoffs a peer keeps for one slot. -/
def maxHandoffsPerSlot : Nat := 1024

/-- Checkpoints a peer keeps for one slot. -/
def maxCheckpointsPerSlot : Nat := 1024

/-- Deletion requests a peer keeps. -/
def maxDeleteRequests : Nat := 1024

/-- The ways a peer can be made to misbehave, each a branch inside an honest operation. -/
structure Hostility where
  tamper : Bool
  rollback : Bool
  withhold : Bool
  dedupLie : Bool
  fork : Bool
  ignoreRetention : Bool
  withholdWitnesses : Bool
deriving DecidableEq

/-- A peer with no hostile flag. -/
def Hostility.honest : Hostility := ⟨false, false, false, false, false, false, false⟩

/-- Why a peer refuses. -/
inductive PeerError where
  | store (source : StoreError)
  | io (source : IoError)
  | slot (source : RecordError)
  | notRostered
  | refused (decision : Decision)
  | casConflict (head offered : UInt64)
  | brokenChain (seq : UInt64)
  | concurrentWriter (seq : UInt64)
  | retentionHold (addr : Addr)
  | missing (addr : Addr)
  | witness (source : WitnessError)
  | handoffsFull (slot : SlotId)
  | witnessesFull (slot : SlotId)
  | witnessOnly
  | delete (source : DeleteError)
  | unknownRequest (request : Digest)
  | deleteTrailFull
  | notAnApprover (id : Digest)
  | trailImmutable (request : Digest)
  | quotaExceeded (holder : Digest) (wouldBe limit : UInt64)
  | noSuchBlob (addr : Addr)
  | checkpoint (source : CheckpointError)
  | checkpointsFull (slot : SlotId)
  | handoff (source : HandoffError)
  | retentionShrink (dropped : Addr) (had offered : Nat)
deriving DecidableEq

/-- The text a peer error prints. -/
def PeerError.display : PeerError → String
  | .store e => e.display
  | .io e => e.text
  | .slot e => e.display
  | .notRostered => "writer is not on the roster"
  | .refused decision => "refused: " ++ decision.display
  | .casConflict head offered =>
    "compare-and-swap lost: head is at seq " ++ toString head ++ ", offered seq " ++
      toString offered ++ " (re-read and retry; this is not a fork)"
  | .brokenChain seq => "slot record " ++ toString seq ++ " does not chain to the head"
  | .concurrentWriter seq =>
    "record " ++ toString seq ++ ": single-writer slot written by a second writer"
  | .retentionHold addr => String.ofList (toHex addr.bytes) ++ " is protected by retention"
  | .missing addr => "no blob " ++ String.ofList (toHex addr.bytes)
  | .witness e => "witness rejected: " ++ e.display
  | .witnessesFull full =>
    "slot " ++ String.ofList (toHex full.bytes) ++ " already holds " ++
      toString maxWitnessesPerSlot ++ " witnesses"
  | .witnessOnly =>
    "witness-only node: relays witnesses and holds no blobs, slots or caps (SPECS §5.3)"
  | .delete e => "deletion record rejected: " ++ e.display
  | .unknownRequest request =>
    "no deletion request " ++ String.ofList (toHex request.bytes) ++ " is recorded here"
  | .deleteTrailFull =>
    "the deletion trail already holds " ++ toString maxDeleteRequests ++ " requests"
  | .notAnApprover id =>
    "approval from " ++ String.ofList (toHex id.bytes) ++
      " is not in this peer's deletion authority (SPECS §16.1)"
  | .trailImmutable request =>
    "deletion request " ++ String.ofList (toHex request.bytes) ++
      " is already recorded with different bytes; the trail is append-only"
  | .quotaExceeded holder wouldBe limit =>
    "holder " ++ String.ofList (toHex holder.bytes) ++ " would hold " ++ toString wouldBe ++
      " B of leases, over the " ++ toString limit ++ " B ceiling (SPECS §6.4)"
  | .noSuchBlob addr => "no blob at " ++ String.ofList (toHex addr.bytes) ++ " to lease"
  | .checkpoint e => "checkpoint rejected: " ++ e.display
  | .checkpointsFull full =>
    "slot " ++ String.ofList (toHex full.bytes) ++ " already holds " ++
      toString maxCheckpointsPerSlot ++ " checkpoints"
  | .handoff e => "handoff rejected: " ++ e.display
  | .handoffsFull full =>
    "slot " ++ String.ofList (toHex full.bytes) ++ " already holds " ++
      toString maxHandoffsPerSlot ++ " handoffs"
  | .retentionShrink dropped had offered =>
    "retention may only be extended under the everyday key: offered " ++ toString offered ++
      " addresses, held " ++ toString had ++ ", dropping " ++
      String.ofList (toHex dropped.bytes) ++
      " (shrinking needs the offline delete authority, SPECS §16.3)"

/-- What a handoff authorises, which is what it is filed under. -/
abbrev HandoffKey := UInt64 × WriterId × WriterId

-- The keys of witnesses, checkpoints and handoffs.
instance witnessKeyTransOrd : Std.TransOrd (Digest × UInt64) := inferInstance
instance checkpointKeyTransOrd : Std.TransOrd (UInt64 × Digest) := inferInstance
instance handoffKeyTransOrd : Std.TransOrd HandoffKey := inferInstance

/-- A slot's records, by sequence. -/
abbrev History := OrdMap UInt64 SlotRecord

variable [Crypto]

/-- A peer. -/
structure Peer where
  mode : Mode
  blobs : BlobStore
  slots : OrdMap SlotId History
  -- The second branch a forking peer keeps, and which one this connection is shown.
  forks : OrdMap SlotId History
  view : UInt8
  roster : Roster
  acl : Acl
  subjects : OrdMap Bytes String
  retention : OrdSet Addr
  witnesses : OrdMap SlotId (OrdMap (Digest × UInt64) Witness)
  handoffs : OrdMap SlotId (OrdMap HandoffKey SlotHandoff)
  deleteRequests : OrdMap Digest DeleteRequest
  deleteApprovals : OrdMap Digest (OrdMap Digest DeleteApproval)
  deleteExecutions : OrdMap Digest (DeleteExecution × Timestamp)
  deleteAuthority : Authority
  quorum : QuorumPolicy
  leases : OrdMap Digest (OrdSet Addr × Timestamp)
  gcPolicy : GcPolicy
  checkpoints : OrdMap SlotId (OrdMap (UInt64 × Digest) Checkpoint)
  witnessOnly : Bool
  hostility : Hostility

/-- A peer opened on an empty directory. -/
def Peer.new (mode : Mode) (addressing : Addressing) (hostility : Hostility) : Peer where
  mode := mode
  blobs := .empty addressing
  slots := ∅
  forks := ∅
  view := 0
  roster := .empty
  acl := .empty
  subjects := ∅
  retention := ∅
  witnesses := ∅
  handoffs := ∅
  deleteRequests := ∅
  deleteApprovals := ∅
  deleteExecutions := ∅
  deleteAuthority := .empty
  quorum := .default
  leases := ∅
  gcPolicy := .default
  checkpoints := ∅
  witnessOnly := false
  hostility := hostility

/-- Bind a transport key to an access subject. -/
def Peer.bindSubject (p : Peer) (verifyingKey : Bytes) (subject : String) : Peer :=
  { p with subjects := p.subjects.insert verifyingKey subject }

end NasTools
