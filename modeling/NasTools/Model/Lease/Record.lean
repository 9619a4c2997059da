import NasTools.Lib.Packed
import NasTools.Model.Core.Checked
import NasTools.Model.Core.Format
import NasTools.Model.Crypto.Sign
import NasTools.Model.Slots.Record

/-! Lease deltas and checkpoints: what a holder signs of the addresses it leases. -/

namespace NasTools

open Checked (lift item)

/-- Why a lease record is refused. -/
inductive LeaseError where
  | decode (source : DecodeError)
  | sign (source : SignError)
  | badWidth (field : String) (want got : Nat)
  | fieldCount (want got : Nat)
  | raggedAddrs (bytes : Nat)
  | genesisMismatch (seq : UInt64)
  | badSignature
  | nonCanonical (field : String)
  | countMismatch (declared actual : UInt64)
deriving DecidableEq

/-- The text a lease error prints. -/
def LeaseError.display : LeaseError → String
  | .decode e => "lease encoding: " ++ e.debug
  | .sign e => e.display
  | .badWidth field want got => field ++ " is " ++ toString got ++ " B, want " ++
    toString want ++ " B"
  | .fieldCount want got => toString got ++ " fields, want " ++ toString want
  | .raggedAddrs bytes => "address list of " ++ toString bytes ++ " B is not a multiple of " ++
    toString addrLen
  | .genesisMismatch seq => "seq " ++ toString seq ++ ": only seq 0 may have an empty predecessor"
  | .badSignature => "lease signature does not verify"
  | .nonCanonical field => field ++ " is not sorted and de-duplicated"
  | .countMismatch declared actual =>
    "checkpoint declares " ++ toString declared ++ " entries, root covers " ++ toString actual

/-- Addresses one behind the other. -/
def pack (addrs : List Addr) : Bytes := addrs.flatMap FixedBytes.bytes

/-- Each address below the next one. -/
def checkCanonical (field : String) : List Addr → Except LeaseError Unit
  | a :: b :: rest => if compare a b = .lt then checkCanonical field (b :: rest)
    else .error (.nonCanonical field)
  | _ => .ok ()

/-- Addresses read back from their bytes. -/
def unpack (field : String) (data : Bytes) : Except LeaseError (List Addr) := do
  ensure (addrLen ∣ data.length) (.raggedAddrs data.length)
  -- The length was checked, so nothing is left over at the end.
  let out := (chunksExact addrLen data).filterMap (FixedBytes.ofBytes? 32)
  -- One set has one list, so one set has one signed form.
  checkCanonical field out
  return out

/-- The one form a list of addresses is written in: sorted, and without repeats. -/
def canonicalise (addrs : List Addr) : List Addr :=
  (addrs.mergeSort fun a b => (compare a b).isLE).destutter (· ≠ ·)

/-- Exactly the first record has no predecessor. -/
def leaseCheckGenesis (seq : UInt64) (prev : Digest) : Except LeaseError Unit :=
  genesisRule (fun seq _ => .genesisMismatch seq) seq prev

/-- A field of some width. -/
def leaseCheckLen (field : String) (data : Bytes) (want : Nat) : Except LeaseError Unit :=
  ensure (data.length = want) (.badWidth field want data.length)

/-- Read a field of an expected width. -/
def leaseFixed (width : Nat) (field : String) (data : Bytes) :
    Except LeaseError (FixedBytes width) :=
  fixedField .badWidth width field data

/-- An incremental change to the set a holder leases. -/
structure LeaseDelta where
  holderPk : Bytes
  epoch : UInt64
  seq : UInt64
  add : List Addr
  remove : List Addr
  prev : Digest
  sig : Bytes
deriving DecidableEq

/-- What a holder signs of a delta; a list that does not fit a field is a panic. -/
def deltaBody (epoch seq : UInt64) (add remove : List Addr) (prev : Digest) :
    Checked LeaseError Bytes :=
  Checked.expect (encodeFields [u64Le epoch, u64Le seq, pack add, pack remove, prev.bytes]).toOption

namespace LeaseDelta

/-- Build and sign a delta, its lists in their one form. -/
def sign (identity : Identity) (epoch seq : UInt64) (add remove : List Addr) (prev : Digest) :
    Checked LeaseError LeaseDelta := do
  lift (leaseCheckGenesis seq prev)
  let add := canonicalise add
  let remove := canonicalise remove
  let body ← deltaBody epoch seq add remove prev
  let sig ← lift ((identity.sign .lease body).mapError .sign)
  return ⟨identity.verifyingKey, epoch, seq, add, remove, prev, sig⟩

/-- The delta as it is stored and sent. -/
def encode (d : LeaseDelta) : Except LeaseError Bytes :=
  (encodeFields [d.holderPk, u64Le d.epoch, u64Le d.seq, pack d.add, pack d.remove, d.prev.bytes,
    d.sig]).mapError
    .decode

/-- Read a delta back, index by index. -/
def decode (bytes : Bytes) : Checked LeaseError LeaseDelta := do
  let f ← (Checked.decodeFields bytes).mapError LeaseError.decode
  lift (ensure (f.length = 7) (.fieldCount 7 f.length))
  let holderPk ← item f 0
  -- The checks come in this order, so it decides which error is reported.
  lift (leaseCheckLen "holder_pk" holderPk verifyingKeyLen)
  let sig ← item f 6
  lift (leaseCheckLen "sig" sig signatureLen)
  let seq ← lift (leaseFixed 8 "seq" (← item f 2))
  let prev ← lift (leaseFixed 32 "prev" (← item f 5))
  -- The genesis rule is checked before the lists are looked at.
  lift (leaseCheckGenesis (u64OfLe seq.bytes) prev)
  let epoch ← lift (leaseFixed 8 "epoch" (← item f 1))
  let add ← lift (unpack "add" (← item f 3))
  let remove ← lift (unpack "remove" (← item f 4))
  return ⟨holderPk, u64OfLe epoch.bytes, u64OfLe seq.bytes, add, remove, prev, sig⟩

end LeaseDelta

/-- A signed statement of everything a holder leases. -/
structure LeaseCheckpoint where
  holderPk : Bytes
  epoch : UInt64
  seq : UInt64
  root : Digest
  count : UInt64
  prev : Digest
  sig : Bytes
deriving DecidableEq

/-- What a holder signs of a checkpoint, all of it of fixed widths. -/
def cpBody (epoch seq : UInt64) (root : Digest) (count : UInt64) (prev : Digest) : Bytes :=
  expectFields [u64Le epoch, u64Le seq, root.bytes, u64Le count, prev.bytes]

section

variable [Crypto]

/-- The hash of one address. -/
def merkleLeaf (a : Addr) : Digest := Crypto.blake3 (0x00 :: a.bytes)

/-- The hash of two nodes. -/
def merkleNode (l r : Digest) : Digest := Crypto.blake3 (0x01 :: (l.bytes ++ r.bytes))

/-- The level above: pairs are hashed, and an odd node at the end is promoted. -/
def merkleLevel : List Digest → List Digest
  | l :: r :: rest => merkleNode l r :: merkleLevel rest
  | rest => rest

/-- Levels until one node is left; each halves the one below, so a round for each node is enough. -/
def merkleTop : Nat → List Digest → List Digest
  | 0, level => level
  | rounds + 1, level => if 1 < level.length then merkleTop rounds (merkleLevel level) else level

/-- The root over a set of addresses, with their number in it. -/
def merkleRoot (addrs : List Addr) : Digest :=
  let sorted := canonicalise addrs
  -- An empty set has no tree, and the zero digest stands for it.
  let tree := (merkleTop sorted.length (sorted.map merkleLeaf)).headD Digest.zero
  Crypto.blake3 (asciiBytes "nas-tools/lease-merkle/v1" ++ u64Le (UInt64.ofNat sorted.length) ++
    tree.bytes)

/-- Build and sign a checkpoint over a whole set. -/
def LeaseCheckpoint.sign (identity : Identity) (epoch seq : UInt64) (fullSet : List Addr)
    (prev : Digest) :
    Except LeaseError LeaseCheckpoint := do
  leaseCheckGenesis seq prev
  let set := canonicalise fullSet
  let root := merkleRoot set
  let count := UInt64.ofNat set.length
  let sig ← (identity.sign .leaseCheckpoint (cpBody epoch seq root count prev)).mapError .sign
  return ⟨identity.verifyingKey, epoch, seq, root, count, prev, sig⟩

end

namespace LeaseCheckpoint

/-- The checkpoint as it is stored and sent. -/
def encode (c : LeaseCheckpoint) : Except LeaseError Bytes :=
  (encodeFields [c.holderPk, u64Le c.epoch, u64Le c.seq, c.root.bytes, u64Le c.count, c.prev.bytes,
    c.sig]).mapError
    .decode

/-- Read a checkpoint back, index by index. -/
def decode (bytes : Bytes) : Checked LeaseError LeaseCheckpoint := do
  let f ← (Checked.decodeFields bytes).mapError LeaseError.decode
  lift (ensure (f.length = 7) (.fieldCount 7 f.length))
  let holderPk ← item f 0
  lift (leaseCheckLen "holder_pk" holderPk verifyingKeyLen)
  let sig ← item f 6
  lift (leaseCheckLen "sig" sig signatureLen)
  let seq ← lift (leaseFixed 8 "seq" (← item f 2))
  let prev ← lift (leaseFixed 32 "prev" (← item f 5))
  lift (leaseCheckGenesis (u64OfLe seq.bytes) prev)
  let epoch ← lift (leaseFixed 8 "epoch" (← item f 1))
  let root ← lift (leaseFixed 32 "root" (← item f 3))
  let count ← lift (leaseFixed 8 "count" (← item f 4))
  return ⟨holderPk, u64OfLe epoch.bytes, u64OfLe seq.bytes, root, u64OfLe count.bytes, prev, sig⟩

end LeaseCheckpoint

end NasTools
