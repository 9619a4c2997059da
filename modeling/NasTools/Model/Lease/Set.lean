import NasTools.Lib.OrderedMap
import NasTools.Model.Lease.Record

/-! Applying a delta chain: the set a holder leases, rebuilt from its signed history. -/

namespace NasTools

open Checked (lift)

/-- Why a history is refused. -/
inductive ApplyError where
  | lease (source : LeaseError)
  | notContiguous (expected got : UInt64)
  | brokenLink (seq : UInt64)
  -- Records from more than one holder in one chain.
  | mixedHolders (seq : UInt64)
  | checkpointMismatch (seq : UInt64)
deriving DecidableEq

/-- The text a refused history prints. -/
def ApplyError.display : ApplyError → String
  | .lease e => e.display
  | .notContiguous expected got => "expected lease seq " ++ toString expected ++ ", got " ++
    toString got
  | .brokenLink seq => "lease record " ++ toString seq ++ " does not chain"
  | .mixedHolders seq => "lease record " ++ toString seq ++ " is from another holder"
  | .checkpointMismatch seq => "checkpoint at seq " ++ toString seq ++
    " does not match the delta history"

/-- The addresses a holder leases. -/
abbrev LeaseSet := OrdSet Addr

/-- Apply one delta: an address that is both added and removed ends outside the set. -/
def LeaseSet.apply (set : LeaseSet) (d : LeaseDelta) : LeaseSet :=
  d.remove.foldl (fun set a => set.erase a) (d.add.foldl (fun set a => set.insert a) set)

/-- Domain string of a record's chain hash. -/
def leaseChainDomain : Bytes := asciiBytes "nas-tools/lease-chain/v1"

section

variable [Crypto]

/-- What the next record of a chain must carry as its predecessor. -/
def leaseChainHash (bodyAndSig : Bytes) : Digest :=
  Crypto.blake3 (leaseChainDomain ++ u64Le (UInt64.ofNat bodyAndSig.length) ++ bodyAndSig)

namespace LeaseDelta

/-- Verify a delta against the key it carries. -/
def verify (d : LeaseDelta) : Checked LeaseError Unit := do
  lift (leaseCheckGenesis d.seq d.prev)
  lift (checkCanonical "add" d.add)
  lift (checkCanonical "remove" d.remove)
  let body ← deltaBody d.epoch d.seq d.add d.remove d.prev
  lift ((NasTools.verify d.holderPk .lease body d.sig).mapError fun _ => .badSignature)

/-- The holder's id. -/
def holderId (d : LeaseDelta) : Digest := keyId d.holderPk

/-- The hash of a delta, over its body and its signature. -/
def chainHash (d : LeaseDelta) : Checked LeaseError Digest := do
  let body ← deltaBody d.epoch d.seq d.add d.remove d.prev
  return leaseChainHash (body ++ d.sig)

end LeaseDelta

namespace LeaseCheckpoint

/-- Verify a checkpoint against the key it carries. -/
def verify (c : LeaseCheckpoint) : Except LeaseError Unit := do
  leaseCheckGenesis c.seq c.prev
  (NasTools.verify c.holderPk .leaseCheckpoint (cpBody c.epoch c.seq c.root c.count c.prev)
    c.sig).mapError
    fun _ => .badSignature

/-- Check a checkpoint against a set the verifier holds. -/
def covers (c : LeaseCheckpoint) (fullSet : List Addr) : Except LeaseError Unit := do
  let set := canonicalise fullSet
  ensure (UInt64.ofNat set.length = c.count) (.countMismatch c.count (UInt64.ofNat set.length))
  ensure (merkleRoot set = c.root) .badSignature

/-- The holder's id. -/
def holderId (c : LeaseCheckpoint) : Digest := keyId c.holderPk

/-- The hash of a checkpoint, over its body and its signature. -/
def chainHash (c : LeaseCheckpoint) : Digest :=
  leaseChainHash (cpBody c.epoch c.seq c.root c.count c.prev ++ c.sig)

end LeaseCheckpoint

/-- Where a replay stands: the set so far, and what the next delta must be. -/
structure Replaying where
  set : LeaseSet
  expectedSeq : UInt64
  link : Digest
  holder : Option Digest

/--
A checkpoint of the delta just applied: signed, by the same holder, and over the set as it stands.
-/
def checkCheckpoint (holder : Option Digest) (set : LeaseSet) (c : LeaseCheckpoint) :
    Except ApplyError Unit := do
  c.verify.mapError .lease
  ensure (some c.holderId = holder) (.mixedHolders c.seq)
  (c.covers set.toList).mapError fun _ => .checkpointMismatch c.seq

/-- Apply one delta of a replay, and check the checkpoints of its sequence. -/
def replayDelta (checkpoints : List LeaseCheckpoint) (s : Replaying) (d : LeaseDelta) :
    Checked ApplyError Replaying := do
  d.verify.mapError .lease
  -- The first delta names the holder, and every later one must be by the same.
  let holder ← lift (match s.holder with
    | none => .ok d.holderId
    | some h => if h ≠ d.holderId then .error (.mixedHolders d.seq) else .ok h)
  lift (ensure (d.seq = s.expectedSeq) (.notContiguous s.expectedSeq d.seq))
  lift (ensure (d.prev = s.link) (.brokenLink d.seq))
  let set := s.set.apply d
  lift ((checkpoints.filter fun c => c.seq = d.seq).forM (checkCheckpoint (some holder) set))
  let link ← d.chainHash.mapError .lease
  return ⟨set, satAdd d.seq 1, link, some holder⟩

/-- Replay a delta chain from its first record, checking the checkpoints along the way. -/
def replay (deltas : List LeaseDelta) (checkpoints : List LeaseCheckpoint) :
    Checked ApplyError LeaseSet := do
  let s ← deltas.foldlM (replayDelta checkpoints) ⟨∅, 0, Digest.zero, none⟩
  return s.set

end

end NasTools
