import NasTools.Lib.Names
import NasTools.Lib.OrderedSet
import NasTools.Model.Delete.Formats
import NasTools.Model.Peer.Disk
import NasTools.Model.Slots.Formats

/-! The drawers of a peer: no two entries share a file, and what was written is read back. -/

namespace NasTools

/-- Different digests are spelled differently. -/
theorem hex32_injective {a b : Digest} (same : hex32 a = hex32 b) : a = b :=
  FixedBytes.ext (Text.hex_injective same)

/-- A digest is spelled with neither dash nor dot. -/
theorem plain_hex32 (d : Digest) : Text.Plain (hex32 d) := Text.plain_hex d.bytes

/-- Thirty-two bytes in hexadecimal are read back. -/
theorem unhex32_hex32 (d : Digest) : unhex32 (hex32 d) = some d := by
  have size : (hex32 d).utf8ByteSize = 64 := by rw [hex32, Text.utf8ByteSize_hex, d.size]
  unfold unhex32
  rw [if_neg (by simp [size]), hex32, String.toList_ofList, Text.parseHexBytes_toHex]
  simp

/-- A set of addresses is read back from its bytes. -/
theorem addrSet_addrBytes (set : OrdSet Addr) : addrSet (addrBytes set) ∅ = set := by
  -- The addresses are packed side by side and cut again at their width.
  have back :
      (set.toList.map FixedBytes.bytes).filterMap (FixedBytes.ofBytes? 32) = set.toList := by
    rw [List.filterMap_map]
    simp
  unfold addrSet addrBytes
  rw [chunksExact_flatMap (by decide), back]
  apply Std.ExtTreeSet.ext_mem
  intro a
  rw [OrdSet.mem_insertAll, Std.ExtTreeSet.mem_toList]
  simp

section

variable [Crypto]

/-- What a peer keeps on drawers, the retention floor apart. -/
inductive Stored where
  | slots
  | handoffs
  | checkpoints
  | witnesses
  | deleteRequests
  | deleteApprovals
  | deleteExecutions
  | leases
deriving DecidableEq

namespace Stored

/-- What entries of a kind are filed under. -/
def Key : Stored → Type
  | .slots => SlotId × UInt64
  | .handoffs => SlotId × HandoffKey
  | .checkpoints => SlotId × (UInt64 × Digest)
  | .witnesses => SlotId × (Digest × UInt64)
  | .deleteRequests => Digest
  | .deleteApprovals => Digest × Digest
  | .deleteExecutions => Digest
  | .leases => Digest

/-- The entries of a kind. -/
def Value : Stored → Type
  | .slots => SlotRecord
  | .handoffs => SlotHandoff
  | .checkpoints => Checkpoint
  | .witnesses => Witness
  | .deleteRequests => DeleteRequest
  | .deleteApprovals => DeleteApproval
  | .deleteExecutions => DeleteExecution × Timestamp
  | .leases => OrdSet Addr × Timestamp

/-- The drawer of a kind. -/
def drawer : (kind : Stored) → Drawer kind.Key kind.Value
  | .slots => Drawer.slots
  | .handoffs => Drawer.handoffs
  | .checkpoints => Drawer.checkpoints
  | .witnesses => Drawer.witnesses
  | .deleteRequests => Drawer.deleteRequests
  | .deleteApprovals => Drawer.deleteApprovals
  | .deleteExecutions => Drawer.deleteExecutions
  | .leases => Drawer.leases

/-- What a peer holds of a kind. -/
def find (p : Peer) : (kind : Stored) → kind.Key → Option kind.Value
  | .slots => fun key => p.slots.find2 key.1 key.2
  | .handoffs => fun key => p.handoffs.find2 key.1 key.2
  | .checkpoints => fun key => p.checkpoints.find2 key.1 key.2
  | .witnesses => fun key => p.witnesses.find2 key.1 key.2
  | .deleteRequests => fun (key : Digest) => p.deleteRequests[key]?
  | .deleteApprovals => fun key => p.deleteApprovals.find2 key.1 key.2
  | .deleteExecutions => fun (key : Digest) => p.deleteExecutions[key]?
  | .leases => fun (key : Digest) => p.leases[key]?

end Stored

namespace Drawer

omit [Crypto] in
/-- The files of slot records have names of their own. -/
theorem slots_lawful : Drawer.slots.Lawful where
  -- The directory names the slot, and the file its number.
  injective := by
    rintro ⟨slot, seq⟩ ⟨slot', seq'⟩ same
    obtain ⟨dir, name⟩ : hex32 slot = hex32 slot' ∧ toString seq.toNat = toString seq'.toNat := by
      simpa [path, Drawer.slots] using same
    rw [hex32_injective dir, Text.number_injective name]
  settled := fun key => (Text.plain_number key.2.toNat).2

/-- The files of handoffs have names of their own. -/
theorem handoffs_lawful : Drawer.handoffs.Lawful where
  -- The name is written out, and its parts are taken apart again.
  injective := by
    rintro ⟨slot, seq, source, target⟩ ⟨slot', seq', source', target'⟩ same
    obtain ⟨dir, name⟩ : hex32 slot = hex32 slot' ∧
        toString seq.toNat ++ "-" ++ hex32 source ++ "-" ++ hex32 target =
          toString seq'.toNat ++ "-" ++ hex32 source' ++ "-" ++ hex32 target' := by
      simpa [path, Drawer.handoffs] using same
    -- The number ends at the first dash, and the first id at the second.
    have parts : toString seq.toNat ++ "-" ++ (hex32 source ++ "-" ++ hex32 target) =
        toString seq'.toNat ++ "-" ++ (hex32 source' ++ "-" ++ hex32 target') := by
      simpa only [String.append_assoc] using name
    obtain ⟨number, ids⟩ := Text.dash_split (Text.plain_number _) (Text.plain_number _) parts
    obtain ⟨first, second⟩ := Text.dash_split (plain_hex32 _) (plain_hex32 _) ids
    rw [hex32_injective dir, Text.number_injective number, hex32_injective first,
      hex32_injective second]
  settled := fun key =>
    Text.no_dot_dash (Text.no_dot_dash (Text.plain_number _).2 (plain_hex32 _).2) (plain_hex32 _).2

/-- The files of checkpoints have names of their own. -/
theorem checkpoints_lawful : Drawer.checkpoints.Lawful where
  -- Neither part of the file's name holds a dash, so it splits at the one between them.
  injective := by
    rintro ⟨slot, seq, hash⟩ ⟨slot', seq', hash'⟩ same
    obtain ⟨dir, name⟩ : hex32 slot = hex32 slot' ∧
        toString seq.toNat ++ "-" ++ hex32 hash = toString seq'.toNat ++ "-" ++ hex32 hash' := by
      simpa [path, Drawer.checkpoints] using same
    obtain ⟨number, id⟩ := Text.dash_split (Text.plain_number _) (Text.plain_number _) name
    rw [hex32_injective dir, Text.number_injective number, hex32_injective id]
  settled := fun key => Text.no_dot_dash (Text.plain_number _).2 (plain_hex32 _).2

/-- The files of witnesses have names of their own. -/
theorem witnesses_lawful : Drawer.witnesses.Lawful where
  -- Neither part of the file's name holds a dash, so it splits at the one between them.
  injective := by
    rintro ⟨slot, observer, seq⟩ ⟨slot', observer', seq'⟩ same
    obtain ⟨dir, name⟩ : hex32 slot = hex32 slot' ∧
        hex32 observer ++ "-" ++ toString seq.toNat = hex32 observer' ++ "-" ++
          toString seq'.toNat := by
      simpa [path, Drawer.witnesses] using same
    obtain ⟨id, number⟩ := Text.dash_split (plain_hex32 _) (plain_hex32 _) name
    rw [hex32_injective dir, hex32_injective id, Text.number_injective number]
  settled := fun key => Text.no_dot_dash (plain_hex32 _).2 (Text.plain_number _).2

/-- The files of deletion requests have names of their own. -/
theorem deleteRequests_lawful : Drawer.deleteRequests.Lawful where
  injective := by
    intro key key' same
    exact hex32_injective (by simpa [path, Drawer.deleteRequests] using same)
  settled := fun key => (plain_hex32 key).2

/-- The files of approvals have names of their own. -/
theorem deleteApprovals_lawful : Drawer.deleteApprovals.Lawful where
  -- Neither part of the file's name holds a dash, so it splits at the one between them.
  injective := by
    rintro ⟨request, approver⟩ ⟨request', approver'⟩ same
    have name : hex32 request ++ "-" ++ hex32 approver = hex32 request' ++ "-" ++
        hex32 approver' := by
      simpa [path, Drawer.deleteApprovals] using same
    obtain ⟨first, second⟩ := Text.dash_split (plain_hex32 _) (plain_hex32 _) name
    rw [hex32_injective first, hex32_injective second]
  settled := fun key => Text.no_dot_dash (plain_hex32 _).2 (plain_hex32 _).2

/-- The files of executions have names of their own. -/
theorem deleteExecutions_lawful : Drawer.deleteExecutions.Lawful where
  injective := by
    intro key key' same
    exact hex32_injective (by simpa [path, Drawer.deleteExecutions] using same)
  settled := fun key => (plain_hex32 key).2

omit [Crypto] in
/-- The files of leases have names of their own. -/
theorem leases_lawful : Drawer.leases.Lawful where
  injective := by
    intro key key' same
    exact hex32_injective (by simpa [path, Drawer.leases] using same)
  settled := fun key => (plain_hex32 key).2

omit [Crypto] in
/-- The retention floor has one file. -/
theorem retention_lawful : Drawer.retention.Lawful where
  injective := fun _ _ _ => rfl
  settled := fun _ => by simp [Drawer.retention]

end Drawer

namespace Stored

/-- Every drawer's files have names of their own. -/
theorem lawful (kind : Stored) : kind.drawer.Lawful := by
  -- One case for each drawer.
  cases kind with
  | slots => exact Drawer.slots_lawful
  | handoffs => exact Drawer.handoffs_lawful
  | checkpoints => exact Drawer.checkpoints_lawful
  | witnesses => exact Drawer.witnesses_lawful
  | deleteRequests => exact Drawer.deleteRequests_lawful
  | deleteApprovals => exact Drawer.deleteApprovals_lawful
  | deleteExecutions => exact Drawer.deleteExecutions_lawful
  | leases => exact Drawer.leases_lawful

/-- No drawer reads the files of another. -/
theorem apart {kind other : Stored} (differ : other ≠ kind) (key : kind.Key) (bytes : Bytes) :
    other.drawer.read (kind.drawer.path key) bytes = none := by
  cases kind <;> cases other <;> first | rfl | exact absurd rfl differ

/-- Nor does one read the file of the floor. -/
theorem apart_floor (kind : Stored) (bytes : Bytes) :
    kind.drawer.read (Drawer.retention.path ()) bytes = none := by
  cases kind <;> rfl

/-- No file of another drawer is read as the retention floor. -/
theorem floor_apart (kind : Stored) (key : kind.Key) (bytes : Bytes) :
    Drawer.retention.read (kind.drawer.path key) bytes = none := by
  cases kind <;> rfl

end Stored

namespace Drawer

omit [Crypto] in
/-- A proper record is read back from its file. -/
theorem reads_slot {rec : SlotRecord} (proper : rec.Proper) {bytes : Bytes}
    (encoded : rec.encode = .ok bytes) :
    Drawer.slots.read (Drawer.slots.path (rec.slotId, rec.seq)) bytes =
      some ((rec.slotId, rec.seq), rec) := by
  obtain ⟨written, made, decoded⟩ := SlotRecord.reads_back proper
  obtain rfl := Except.ok.inj (made.symm.trans encoded)
  simp [path, Drawer.slots, decoded]

/-- A handoff that verifies is read back from its file. -/
theorem reads_handoff {h : SlotHandoff} (verified : h.verify = .ok ()) {bytes : Bytes}
    (encoded : h.encode = .ok bytes) :
    Drawer.handoffs.read (Drawer.handoffs.path (h.slotId, Peer.handoffKey h)) bytes =
      some ((h.slotId, Peer.handoffKey h), h) := by
  have proper := SlotHandoff.proper_of_verify verified
  have decoded := SlotHandoff.decode_encode encoded proper.key proper.sig
  simp [path, Drawer.handoffs, decoded, verified, Except.isOk, Except.toBool]

/-- A checkpoint that verifies is read back from its file. -/
theorem reads_checkpoint {c : Checkpoint} (verified : c.verifySelf = .ok ()) {bytes : Bytes}
    (encoded : c.encode = .ok bytes) :
    Drawer.checkpoints.read (Drawer.checkpoints.path (c.slotId, (c.seq, c.checkpointHash))) bytes =
      some ((c.slotId, (c.seq, c.checkpointHash)), c) := by
  obtain ⟨written, made, decoded⟩ :=
    Checkpoint.reads_back (Checkpoint.proper_of_verifySelf verified)
  obtain rfl := Except.ok.inj (made.symm.trans encoded)
  simp [path, Drawer.checkpoints, decoded, verified, Except.isOk, Except.toBool]

/-- A witness that verifies is read back from its file. -/
theorem reads_witness {w : Witness} (verified : w.verify = .ok ()) {bytes : Bytes}
    (encoded : w.encode = .ok bytes) :
    Drawer.witnesses.read (Drawer.witnesses.path (w.slotId, (w.witnessId, w.seq))) bytes =
      some ((w.slotId, (w.witnessId, w.seq)), w) := by
  obtain ⟨written, made, decoded⟩ := Witness.reads_back (Witness.proper_of_verify verified)
  obtain rfl := Except.ok.inj (made.symm.trans encoded)
  simp [path, Drawer.witnesses, decoded, verified, Except.isOk, Except.toBool]

/-- A deletion request that verifies is read back from its file. -/
theorem reads_request {r : DeleteRequest} (verified : r.verify = .ok ()) {bytes : Bytes}
    (encoded : r.encode = .ok bytes) :
    Drawer.deleteRequests.read (Drawer.deleteRequests.path r.requestHash) bytes =
      some (r.requestHash, r) := by
  have decoded := DeleteRequest.decode_encode (DeleteRequest.proper_of_verify verified) encoded
  simp [path, Drawer.deleteRequests, decoded, verified, Except.isOk, Except.toBool]

/-- An approval that verifies is read back from its file. -/
theorem reads_approval {a : DeleteApproval} (verified : a.verify = .ok ()) {bytes : Bytes}
    (encoded : a.encode = .ok bytes) :
    Drawer.deleteApprovals.read (Drawer.deleteApprovals.path (a.requestHash, a.approverId)) bytes =
      some ((a.requestHash, a.approverId), a) := by
  have decoded := DeleteApproval.decode_encode (DeleteApproval.proper_of_verify verified) encoded
  simp [path, Drawer.deleteApprovals, decoded, verified, Except.isOk, Except.toBool]

/-- An execution that verifies is read back from its file, with the time it was recorded. -/
theorem reads_execution {e : DeleteExecution} (verified : e.verify = .ok ()) {bytes : Bytes}
    (encoded : e.encode = .ok bytes) (now : Timestamp) :
    Drawer.deleteExecutions.read (Drawer.deleteExecutions.path e.requestHash) (u64Le now ++ bytes) =
      some (e.requestHash, (e, now)) := by
  have decoded := DeleteExecution.decode_encode (DeleteExecution.proper_of_verify verified) encoded
  simp [path, Drawer.deleteExecutions, decoded, verified, Except.isOk, Except.toBool]

omit [Crypto] in
/-- The leases of a holder are read back from its file. -/
theorem reads_leases (holder : Digest) (entry : OrdSet Addr × Timestamp) :
    Drawer.leases.read (Drawer.leases.path holder) (leaseBytes entry) = some (holder, entry) := by
  simp [path, Drawer.leases, unhex32_hex32, leaseBytes, addrSet_addrBytes]

omit [Crypto] in
/-- The retention floor is read back from its file. -/
theorem reads_floor (floor : OrdSet Addr) :
    Drawer.retention.read (Drawer.retention.path ()) (addrBytes floor) = some ((), floor) := by
  simp [path, Drawer.retention, addrSet_addrBytes]

end Drawer

end

end NasTools
