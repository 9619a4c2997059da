import NasTools.Lib.Drawer
import NasTools.Lib.Packed
import NasTools.Lib.Text
import NasTools.Model.Peer.Run

/-! What a peer writes to its directory, and what it reads back when it is opened again. -/

namespace NasTools

/-- Thirty-two bytes in hexadecimal. -/
def hex32 (d : Digest) : String := String.ofList (toHex d.bytes)

/-- Read thirty-two bytes back from hexadecimal. -/
def unhex32 (s : String) : Option Digest :=
  if s.utf8ByteSize ≠ 64 then none
  else do FixedBytes.ofBytes? 32 (← Text.parseHexBytes s.toList)

/-- Some bytes as a set of addresses, thirty-two bytes each. -/
def addrSet (data : Bytes) (start : OrdSet Addr) : OrdSet Addr :=
  ((chunksExact 32 data).filterMap (FixedBytes.ofBytes? 32)).foldl (fun set a => set.insert a) start

/-- A set of addresses as bytes. -/
def addrBytes (set : OrdSet Addr) : Bytes := set.toList.flatMap FixedBytes.bytes

namespace Drawer

variable [Crypto]

/-- Slot records; whether they verify is for whoever reads them. -/
def slots : Drawer (SlotId × UInt64) SlotRecord where
  dir key := ["slots", hex32 key.1]
  name key := toString key.2.toNat
  read
    | ["slots", _, _], bytes =>
      match SlotRecord.decode bytes with
      | .ok rec => some ((rec.slotId, rec.seq), rec)
      | .error _ => none
    | _, _ => none

/-- Handoffs, named by what they authorise. -/
def handoffs : Drawer (SlotId × HandoffKey) SlotHandoff where
  dir key := ["handoffs", hex32 key.1]
  name key := toString key.2.1.toNat ++ "-" ++ hex32 key.2.2.1 ++ "-" ++ hex32 key.2.2.2
  read
    | ["handoffs", _, _], bytes =>
      match SlotHandoff.decode bytes with
      | .ok h => if h.verify.isOk then some ((h.slotId, Peer.handoffKey h), h) else none
      | .error _ => none
    | _, _ => none

/-- Rungs, named by their sequence and hash; the roster is not known yet when they are read. -/
def checkpoints : Drawer (SlotId × (UInt64 × Digest)) Checkpoint where
  dir key := ["checkpoints", hex32 key.1]
  name key := toString key.2.1.toNat ++ "-" ++ hex32 key.2.2
  read
    | ["checkpoints", _, _], bytes =>
      match Checkpoint.decode bytes with
      | .ok c => if c.verifySelf.isOk then some ((c.slotId, (c.seq, c.checkpointHash)), c) else none
      | .error _ => none
    | _, _ => none

/-- Witnesses, named by their observer and sequence. -/
def witnesses : Drawer (SlotId × (Digest × UInt64)) Witness where
  dir key := ["witnesses", hex32 key.1]
  name key := hex32 key.2.1 ++ "-" ++ toString key.2.2.toNat
  read
    | ["witnesses", _, _], bytes =>
      match Witness.decode bytes with
      | .ok w => if w.verify.isOk then some ((w.slotId, (w.witnessId, w.seq)), w) else none
      | .error _ => none
    | _, _ => none

/-- Deletion requests, named by their hash. -/
def deleteRequests : Drawer Digest DeleteRequest where
  dir _ := ["delete", "requests"]
  name := hex32
  read
    | ["delete", "requests", _], bytes =>
      match DeleteRequest.decode bytes with
      | .ok r => if r.verify.isOk then some (r.requestHash, r) else none
      | .error _ => none
    | _, _ => none

/-- Approvals, named by their request and approver. -/
def deleteApprovals : Drawer (Digest × Digest) DeleteApproval where
  dir _ := ["delete", "approvals"]
  name key := hex32 key.1 ++ "-" ++ hex32 key.2
  read
    | ["delete", "approvals", _], bytes =>
      match DeleteApproval.decode bytes with
      | .ok a => if a.verify.isOk then some ((a.requestHash, a.approverId), a) else none
      | .error _ => none
    | _, _ => none

/-- Executions, each behind the time it was recorded at. -/
def deleteExecutions : Drawer Digest (DeleteExecution × Timestamp) where
  dir _ := ["delete", "executions"]
  name := hex32
  read
    | ["delete", "executions", _], bytes =>
      if bytes.length < 8 then none
      else
        match DeleteExecution.decode (bytes.drop 8) with
        | .ok e => if e.verify.isOk then some (e.requestHash, (e, u64OfLe (bytes.take 8))) else none
        | .error _ => none
    | _, _ => none

/-- Leases, one file a holder: when it was heard of, then its addresses. -/
def leases : Drawer Digest (OrdSet Addr × Timestamp) where
  dir _ := ["leases"]
  name := hex32
  read
    | ["leases", name], bytes =>
      match unhex32 name with
      | some holder =>
        if bytes.length < 8 then none
        else some (holder, (addrSet (bytes.drop 8) ∅, u64OfLe (bytes.take 8)))
      | none => none
    | _, _ => none

/-- The one file of the retention floor. -/
def retention : Drawer Unit (OrdSet Addr) where
  dir _ := []
  name _ := "retention"
  read
    | ["retention"], bytes => some ((), addrSet bytes ∅)
    | _, _ => none

end Drawer

namespace Files

variable {K V E : Type}

/-- Write an entry of a drawer, where it encodes. -/
def put (files : Files) (drawer : Drawer K V) (k : K) (encoded : Except E Bytes) : Files :=
  match encoded with
  | .ok bytes => files.replace (drawer.dir k) (drawer.name k) bytes
  | .error _ => files

end Files

section

variable [Crypto]

/-- The file of a holder's leases. -/
def leaseBytes (entry : OrdSet Addr × Timestamp) : Bytes := u64Le entry.2 ++ addrBytes entry.1

/-- Write the leases of every holder, whoever changed. -/
def Files.persistLeases (files : Files)
    (leases : OrdMap Digest (OrdSet Addr × Timestamp)) : Files :=
  leases.toList.foldl
    (fun files entry => files.put Drawer.leases entry.1
      (.ok (leaseBytes entry.2) : Except Unit Bytes)) files

/-- Write the retention floor. -/
def Files.persistRetention (files : Files) (floor : OrdSet Addr) : Files :=
  files.put Drawer.retention () (.ok (addrBytes floor) : Except Unit Bytes)

namespace Peer

/--
The files of an honest peer after an operation whose writes succeed.

Blobs are files of their own, which are not read when a peer is opened.
-/
def persist (p : Peer) (files : Files) : PeerOp → Files
  | .publishSlot disk subject rec =>
    match p.publishSlot disk subject rec with
    | (.ok (), _) => files.put Drawer.slots (rec.slotId, rec.seq) rec.encode
    | (.error _, _) => files
  -- What is held already is acknowledged, and not written again.
  | .publishHandoff disk h =>
    match p.publishHandoff disk h with
    | (.ok (), _) =>
      if (p.handoffs.getD h.slotId ∅).contains (handoffKey h) then files
      else files.put Drawer.handoffs (h.slotId, handoffKey h) h.encode
    | (.error _, _) => files
  | .publishCheckpoint disk c =>
    match p.publishCheckpoint disk c with
    | (.ok (), _) =>
      if (p.checkpoints.getD c.slotId ∅).contains (c.seq, c.checkpointHash) then files
      else files.put Drawer.checkpoints (c.slotId, (c.seq, c.checkpointHash)) c.encode
    | (.error _, _) => files
  | .publishWitness disk w =>
    match p.publishWitness disk w with
    | (.ok (), _) => files.put Drawer.witnesses (w.slotId, (w.witnessId, w.seq)) w.encode
    | (.error _, _) => files
  | .publishDeleteRequest disk r =>
    match p.publishDeleteRequest disk r with
    | (.ok h, _) => if p.deleteRequests.contains h then files
      else files.put Drawer.deleteRequests h r.encode
    | (.error _, _) => files
  | .publishDeleteApproval disk a =>
    match p.publishDeleteApproval disk a with
    | (.ok (), _) =>
      if (p.deleteApprovals.getD a.requestHash ∅).contains a.approverId then files
      else files.put Drawer.deleteApprovals (a.requestHash, a.approverId) a.encode
    | (.error _, _) => files
  | .executeDelete disk e now =>
    match p.executeDelete disk e now with
    | (.ok (.execute _ _), _) =>
      if p.deleteExecutions.contains e.requestHash then files
      else files.put Drawer.deleteExecutions e.requestHash
        (e.encode.map fun bytes => u64Le now ++ bytes)
    | _ => files
  | .extendRetention disk addrs => files.persistRetention (p.extendRetention disk addrs).2.retention
  | .publishRetention disk proposed =>
    match p.publishRetention disk proposed with
    | (.ok (), p) => files.persistRetention p.retention
    | (.error _, _) => files
  | .forgetRetention disk addrs proof =>
    match p.forgetRetention disk addrs proof with
    | (.ok (), p) => files.persistRetention p.retention
    | (.error _, _) => files
  | .takeLease disk holder addrs now =>
    match p.takeLease disk holder addrs now with
    | (.ok _, p) => files.persistLeases p.leases
    | (.error _, _) => files
  | .releaseLease disk holder addrs now =>
    files.persistLeases (p.releaseLease disk holder addrs now).2.leases
  | _ => files

/-- The roster is not kept in files. -/
theorem persist_addWriter (p : Peer) (files : Files) (key : Bytes) :
    p.persist files (.addWriter key) = files := by
  simp [persist]

/-- Read the state of a peer back from its files, listed in some order. -/
def load (p : Peer) (listing : List (Path × Bytes)) : Peer :=
  let entries {K V : Type} (drawer : Drawer K V) : List (K × V) :=
    listing.filterMap fun file => drawer.read file.1 file.2
  { p with
    slots := (entries Drawer.slots).foldl (fun m e => m.insert2 e.1.1 e.1.2 e.2) p.slots
    handoffs := (entries Drawer.handoffs).foldl (fun m e => m.insert2 e.1.1 e.1.2 e.2) p.handoffs
    checkpoints :=
      (entries Drawer.checkpoints).foldl (fun m e => m.insert2 e.1.1 e.1.2 e.2) p.checkpoints
    deleteRequests :=
      (entries Drawer.deleteRequests).foldl (fun m e => m.insert e.1 e.2) p.deleteRequests
    deleteApprovals := (entries Drawer.deleteApprovals).foldl (fun m e => m.insert2 e.1.1 e.1.2 e.2)
      p.deleteApprovals
    deleteExecutions :=
      (entries Drawer.deleteExecutions).foldl (fun m e => m.insert e.1 e.2) p.deleteExecutions
    leases := (entries Drawer.leases).foldl (fun m e => m.insert e.1 e.2) p.leases
    retention :=
      (entries Drawer.retention).foldl (fun floor e => e.2.toList.foldl (fun f a => f.insert a)
      floor) p.retention
    witnesses :=
      (entries Drawer.witnesses).foldl (fun m e => m.insert2 e.1.1 e.1.2 e.2) p.witnesses }

/-- A peer opened on a directory: its blobs are where they were, and the rest is read. -/
def reopen (mode : Mode) (addressing : Addressing) (hostility : Hostility) (blobs : BlobStore)
    (listing : List (Path × Bytes)) : Peer :=
  load { Peer.new mode addressing hostility with blobs } listing

end Peer

/-- A peer together with its directory, every write to which succeeds. -/
def durable : Machine (Peer × Files) PeerOp (Except PeerError Unit) where
  step s op := ((peer.step s.1 op).1, ((peer.step s.1 op).2, s.1.persist s.2 op))

end

end NasTools
