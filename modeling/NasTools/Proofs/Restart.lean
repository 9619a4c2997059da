import NasTools.Lib.Machine
import NasTools.Model.Peer.SlotHistory
import NasTools.Model.Slots.Concrete
import NasTools.Proofs.Drawers
import NasTools.Proofs.Holdings
import NasTools.Proofs.Publishing

/-! Opening a peer again: its files say exactly what it held in memory. -/

namespace NasTools

section

variable [Crypto]

/-- Two peers that hold the same of everything that is kept in files. -/
structure Peer.SameState (p p' : Peer) : Prop where
  slots : p'.slots = p.slots
  witnesses : p'.witnesses = p.witnesses
  handoffs : p'.handoffs = p.handoffs
  checkpoints : p'.checkpoints = p.checkpoints
  leases : p'.leases = p.leases
  retention : p'.retention = p.retention
  deleteRequests : p'.deleteRequests = p.deleteRequests
  deleteApprovals : p'.deleteApprovals = p.deleteApprovals
  deleteExecutions : p'.deleteExecutions = p.deleteExecutions

/-- Peers of the same state find the same. -/
theorem Stored.find_same {p p' : Peer} (same : Peer.SameState p p') (kind : Stored) :
    find p' kind = find p kind := by
  -- One case for each kind, which looks into one map.
  cases kind with
  | slots =>
    simp only [find, same.slots]
    rfl
  | handoffs =>
    simp only [find, same.handoffs]
    rfl
  | checkpoints =>
    simp only [find, same.checkpoints]
    rfl
  | witnesses =>
    simp only [find, same.witnesses]
    rfl
  | deleteRequests =>
    simp only [find, same.deleteRequests]
    rfl
  | deleteApprovals =>
    simp only [find, same.deleteApprovals]
    rfl
  | deleteExecutions =>
    simp only [find, same.deleteExecutions]
    rfl
  | leases =>
    simp only [find, same.leases]
    rfl

/-- No slot and no request is listed with nothing under it. -/
structure Peer.Tidy (p : Peer) : Prop where
  slots : p.slots.Tight
  handoffs : p.handoffs.Tight
  checkpoints : p.checkpoints.Tight
  witnesses : p.witnesses.Tight
  deleteApprovals : p.deleteApprovals.Tight

/-- What the files of a peer say of it. -/
structure Kept (p : Peer) (files : Files) : Prop where
  drawers : ∀ kind : Stored, kind.drawer.Mirrors (Stored.find p kind) files
  -- The floor has no file before it is written for the first time.
  floor : ∃ written, Drawer.retention.Mirrors (fun _ => written) files ∧
    p.retention = written.getD ∅
  tidy : p.Tidy

namespace Kept

variable {p p' : Peer} {files : Files}

/-- Writing one entry to its drawer leaves all the others as they were. -/
theorem put (kept : Kept p files) (kind : Stored) (key : kind.Key) {value : kind.Value} {E : Type}
    {encoded : Except E Bytes} {bytes : Bytes} (written : encoded = .ok bytes)
    (reads : kind.drawer.read (kind.drawer.path key) bytes = some (key, value))
    (here : Stored.find p' kind key = some value)
    (others : ∀ k, k ≠ key → Stored.find p' kind k = Stored.find p kind k)
    (elsewhere : ∀ other, other ≠ kind → Stored.find p' other = Stored.find p other)
    (floor : p'.retention = p.retention) (tidy : p'.Tidy) :
      Kept p' (files.put kind.drawer key encoded) := by
  -- What was written is read back in its own drawer and nowhere else.
  subst written
  refine ⟨fun other => ?_, ?_, tidy⟩
  · -- The drawer written to gains the entry, and the file is in no other drawer.
    by_cases same : other = kind
    · subst same
      exact (kept.drawers other).replace other.lawful reads here others
    · rw [elsewhere other same]
      exact (kept.drawers other).elsewhere other.lawful (Stored.apart same key) bytes
  · obtain ⟨earlier, mirrors, is⟩ := kept.floor
    exact ⟨earlier, mirrors.elsewhere Drawer.retention_lawful (Stored.floor_apart kind key) bytes,
      floor.trans is⟩

/-- The files say the same of a peer that holds the same. -/
theorem of_same (kept : Kept p files) (same : Peer.SameState p p') : Kept p' files where
  -- Every part of the state is the same.
  drawers kind := by
    rw [Stored.find_same same]
    exact kept.drawers kind
  floor := by
    rw [same.retention]
    exact kept.floor
  tidy := by
    constructor
    · rw [same.slots]
      exact kept.tidy.slots
    · rw [same.handoffs]
      exact kept.tidy.handoffs
    · rw [same.checkpoints]
      exact kept.tidy.checkpoints
    · rw [same.witnesses]
      exact kept.tidy.witnesses
    · rw [same.deleteApprovals]
      exact kept.tidy.deleteApprovals

/-- Writing the floor leaves the drawers alone. -/
theorem putFloor (kept : Kept p files) (floor : OrdSet Addr) :
    Kept { p with retention := floor } (files.persistRetention floor) where
  -- The floor is one file, which is in no drawer.
  drawers kind :=
    (kept.drawers kind).elsewhere kind.lawful (Stored.apart_floor kind) (addrBytes floor)
  floor := by
    obtain ⟨written, mirrors, _⟩ := kept.floor
    exact ⟨some floor, mirrors.replace Drawer.retention_lawful (Drawer.reads_floor floor) rfl
      fun k other =>
      absurd rfl other, rfl⟩
  tidy := ⟨kept.tidy.slots, kept.tidy.handoffs, kept.tidy.checkpoints, kept.tidy.witnesses,
    kept.tidy.deleteApprovals⟩

/-- Writing the leases of every holder leaves the rest alone, where no holder is dropped. -/
theorem putLeases (kept : Kept p files) {leases : OrdMap Digest (OrdSet Addr × Timestamp)}
    (all : ∀ holder : Digest, leases[holder]? = none → p.leases[holder]? = none) :
    Kept { p with leases := leases } (files.persistLeases leases) where
  -- The files of another kind are not written.
  drawers kind := by
    by_cases same : kind = .leases
    · subst same
      -- Each holder has a file of its own, and all of them are written.
      refine Drawer.Mirrors.replaceAll (K := Digest) (kept.drawers .leases) Drawer.leases_lawful
        leaseBytes ?_ ?_ ?_
      · intro holder entry _
        exact Drawer.reads_leases holder entry
      · intro holder entry listed
        exact Std.ExtTreeMap.mem_toList_iff_getElem?_eq_some.mp listed
      · intro holder unlisted
        have absent : leases[holder]? = none := by
          cases found : leases[holder]? with
          | none => rfl
          | some entry =>
            exact absurd (Std.ExtTreeMap.mem_toList_iff_getElem?_eq_some.mpr found)
              (unlisted entry)
        exact absent.trans (all holder absent).symm
    · have mirrors := (kept.drawers kind).elsewhereAll kind.lawful (Stored.apart same) leaseBytes
        leases.toList
      cases kind with
      | leases => exact absurd rfl same
      | _ => exact mirrors
  floor := by
    obtain ⟨written, mirrors, is⟩ := kept.floor
    exact ⟨written, mirrors.elsewhereAll Drawer.retention_lawful (Stored.floor_apart .leases)
      leaseBytes leases.toList, is⟩
  tidy := ⟨kept.tidy.slots, kept.tidy.handoffs, kept.tidy.checkpoints, kept.tidy.witnesses,
    kept.tidy.deleteApprovals⟩

end Kept

/-- A record that verifies is proper. -/
theorem SlotRecord.proper_of_verify {r : SlotRecord} {vk : Bytes}
    (verified : r.verify vk = .ok ()) : r.Proper := by
  have genesis := genesis_of_verify verified
  simp only [verify, except_bind_eq_ok, except_mapError_eq_ok] at verified
  obtain ⟨_, _, _, _, _, _, signed⟩ := verified
  exact ⟨(widths_of_verify signed).2, genesis⟩

/-- Every write of an operation succeeds. -/
def PeerOp.Written : PeerOp → Prop
  | .publishSlot disk _ _ | .publishHandoff disk _ | .publishCheckpoint disk
    _ | .publishWitness disk _
  | .publishDeleteRequest disk _ | .publishDeleteApproval disk _ | .executeDelete disk _
    _ | .extendRetention disk _
  | .publishRetention disk _ | .forgetRetention disk _ _ | .putBlob disk _ _ | .prove disk _ _
    _ | .deleteBlob disk _
  | .takeLease disk _ _ _ | .releaseLease disk _ _ _ => disk = .ok ()
  | .sweep disk _ _ _ _ => ∀ a, disk a = .ok ()
  | _ => True

namespace Kept

variable {p p' : Peer} {files : Files}

/-- Publishing a slot's record keeps the files in step. -/
theorem publishSlot (kept : Kept p files) (honest : p.hostility = .honest) (disk : Disk)
    (subject : String) (rec : SlotRecord) :
    Kept (p.publishSlot disk subject rec).2 (p.persist files (.publishSlot disk subject rec)) := by
  -- The operation is refused, or files a record.
  rw [Peer.persist]
  rcases Peer.publishSlot_cases honest disk subject rec with ⟨e, refused⟩ |
    ⟨admitted, _, written, accepted⟩
  · rw [refused]
    exact kept
  · rw [accepted]
    simp only [Peer.admitSlot, except_bind_eq_ok, okOr_eq_ok, except_mapError_eq_ok] at admitted
    obtain ⟨_, _, vk, _, verified⟩ := admitted
    -- A record that was admitted verifies, so its file reads back.
    obtain ⟨bytes, encoded⟩ := (Peer.written_eq_ok.mp written).1
    refine kept.put .slots (rec.slotId, rec.seq) encoded
      (Drawer.reads_slot (SlotRecord.proper_of_verify verified) encoded) OrdMap.find2_insert2_self
      (fun k other => OrdMap.find2_insert2_ne other) ?_ rfl ?_
    · intro other differ
      cases other <;> first | rfl | exact absurd rfl differ
    · exact ⟨kept.tidy.slots.insert2 _ _ _, kept.tidy.handoffs, kept.tidy.checkpoints,
        kept.tidy.witnesses, kept.tidy.deleteApprovals⟩

/-- Publishing a handoff keeps the files in step. -/
theorem publishHandoff (kept : Kept p files) (disk : Disk) (h : SlotHandoff) :
    Kept (p.publishHandoff disk h).2 (p.persist files (.publishHandoff disk h)) := by
  -- The operation is refused, or files a handoff.
  rw [Peer.persist]
  cases Peer.publishHandoff_outcome (p := p) disk h with
  | refused e is =>
    rw [is]
    exact kept
  | held is present =>
    rw [is]
    -- A handoff that is held already is not written again.
    simpa [present] using kept
  | filed is absent accepts =>
    rw [is]
    dsimp only
    rw [if_neg absent]
    obtain ⟨bytes, encoded⟩ := accepts.encodes
    refine kept.put .handoffs (h.slotId, Peer.handoffKey h) encoded
      (Drawer.reads_handoff accepts.verified encoded)
      OrdMap.find2_insert2_self (fun k other => OrdMap.find2_insert2_ne other) ?_ rfl ?_
    · intro other differ
      cases other <;> first | rfl | exact absurd rfl differ
    · exact ⟨kept.tidy.slots, kept.tidy.handoffs.insert2 _ _ _, kept.tidy.checkpoints,
        kept.tidy.witnesses, kept.tidy.deleteApprovals⟩

/-- A rung is read back by the key it carries, where that is the key it was accepted under. -/
theorem publishCheckpoint (kept : Kept p files) (disk : Disk) (c : Checkpoint)
    (carried : ∀ vk, p.roster.get c.writerId = some vk → vk = c.writerPk) :
    Kept (p.publishCheckpoint disk c).2 (p.persist files (.publishCheckpoint disk c)) := by
  -- The operation is refused, or files a rung.
  rw [Peer.persist]
  cases Peer.publishCheckpoint_outcome (p := p) disk c with
  | refused e is =>
    rw [is]
    exact kept
  | held is present =>
    rw [is]
    simpa [present] using kept
  | filed is absent accepts =>
    rw [is]
    dsimp only
    rw [if_neg absent]
    obtain ⟨bytes, encoded⟩ := accepts.encodes
    obtain ⟨vk, rostered, verified⟩ := accepts.admitted
    -- The file does not say which key was on the roster, only which one the rung carries.
    obtain rfl := carried vk rostered
    refine kept.put .checkpoints (c.slotId, (c.seq, c.checkpointHash)) encoded
      (Drawer.reads_checkpoint verified encoded)
      OrdMap.find2_insert2_self (fun k other => OrdMap.find2_insert2_ne other) ?_ rfl ?_
    · intro other differ
      cases other <;> first | rfl | exact absurd rfl differ
    · exact ⟨kept.tidy.slots, kept.tidy.handoffs, kept.tidy.checkpoints.insert2 _ _ _,
        kept.tidy.witnesses, kept.tidy.deleteApprovals⟩

/-- Publishing a witness keeps the files in step. -/
theorem publishWitness (kept : Kept p files) (disk : Disk) (w : Witness) :
    Kept (p.publishWitness disk w).2 (p.persist files (.publishWitness disk w)) := by
  -- It is refused, or it is filed and written under its key.
  rw [Peer.persist]
  rcases Peer.publishWitness_cases (p := p) disk w with ⟨_, e, refused⟩ | ⟨relays, filed⟩
  · rw [refused]
    exact kept
  · rw [filed]
    obtain ⟨bytes, encoded⟩ := relays.encodes
    refine kept.put .witnesses (w.slotId, (w.witnessId, w.seq)) encoded
      (Drawer.reads_witness relays.verified encoded)
      OrdMap.find2_insert2_self (fun k other => OrdMap.find2_insert2_ne other) ?_ rfl ?_
    · intro other differ
      cases other <;> first | rfl | exact absurd rfl differ
    · exact ⟨kept.tidy.slots, kept.tidy.handoffs, kept.tidy.checkpoints,
        kept.tidy.witnesses.insert2 _ _ _, kept.tidy.deleteApprovals⟩

/-- Publishing a deletion's request keeps the files in step. -/
theorem publishDeleteRequest (kept : Kept p files) (disk : Disk) (r : DeleteRequest) :
    Kept (p.publishDeleteRequest disk r).2 (p.persist files (.publishDeleteRequest disk r)) := by
  -- Only a request that was not there is written.
  rw [Peer.persist]
  cases Peer.publishDeleteRequest_outcome (p := p) disk r with
  | refused e is =>
    rw [is]
    exact kept
  | held is present =>
    rw [is]
    simpa [present] using kept
  | filed is absent accepts =>
    rw [is]
    dsimp only
    rw [if_neg absent]
    obtain ⟨bytes, encoded⟩ := accepts.encodes
    refine kept.put .deleteRequests r.requestHash encoded
      (Drawer.reads_request accepts.verified encoded)
      Std.ExtTreeMap.getElem?_insert_self (fun k other => OrdMap.getElem?_insert_ne other) ?_ rfl ?_
    · intro other differ
      cases other <;> first | rfl | exact absurd rfl differ
    · exact ⟨kept.tidy.slots, kept.tidy.handoffs, kept.tidy.checkpoints, kept.tidy.witnesses,
        kept.tidy.deleteApprovals⟩

/-- Publishing an approval keeps the files in step. -/
theorem publishDeleteApproval (kept : Kept p files) (disk : Disk) (a : DeleteApproval) :
    Kept (p.publishDeleteApproval disk a).2 (p.persist files (.publishDeleteApproval disk a)) := by
  -- Only an approval that was not there is written.
  rw [Peer.persist]
  cases Peer.publishDeleteApproval_outcome (p := p) disk a with
  | refused e is =>
    rw [is]
    exact kept
  | held is present =>
    rw [is]
    simpa [present] using kept
  | filed is absent accepts =>
    rw [is]
    dsimp only
    rw [if_neg absent]
    obtain ⟨bytes, encoded⟩ := accepts.encodes
    refine kept.put .deleteApprovals (a.requestHash, a.approverId) encoded
      (Drawer.reads_approval accepts.verified encoded) OrdMap.find2_insert2_self
      (fun k other => OrdMap.find2_insert2_ne other) ?_ rfl ?_
    · intro other differ
      cases other <;> first | rfl | exact absurd rfl differ
    · exact ⟨kept.tidy.slots, kept.tidy.handoffs, kept.tidy.checkpoints, kept.tidy.witnesses,
        kept.tidy.deleteApprovals.insert2 _ _ _⟩

/-- Executing a deletion keeps the files in step. -/
theorem executeDelete (kept : Kept p files) (disk : Disk) (e : DeleteExecution) (now : Timestamp) :
    Kept (p.executeDelete disk e now).2 (p.persist files (.executeDelete disk e now)) := by
  -- The operation is refused, or files an execution.
  rw [Peer.persist]
  rcases Peer.executeDelete_outcome (p := p) disk e now with
    ⟨why, is⟩ | ⟨why, is⟩ | ⟨required, distinct, is, present⟩ | ⟨required, distinct, is, absent,
      verified, bytes, encoded⟩
  · rw [is]
    exact kept
  · rw [is]
    exact kept
  · rw [is]
    simpa [present] using kept
  · rw [is]
    dsimp only
    rw [if_neg absent]
    -- The file of an execution starts with the time it was filed at.
    have timed : (e.encode.map fun bytes => u64Le now ++ bytes) = .ok (u64Le now ++ bytes) := by
      rw [encoded]; rfl
    refine kept.put .deleteExecutions e.requestHash timed
      (Drawer.reads_execution verified encoded now)
      Std.ExtTreeMap.getElem?_insert_self (fun k other => OrdMap.getElem?_insert_ne other) ?_ rfl ?_
    · intro other differ
      cases other <;> first | rfl | exact absurd rfl differ
    · exact ⟨kept.tidy.slots, kept.tidy.handoffs, kept.tidy.checkpoints, kept.tidy.witnesses,
        kept.tidy.deleteApprovals⟩

/-- Extending the floor keeps the files in step. -/
theorem extendRetention (kept : Kept p files) (disk : Disk) (addrs : List Addr) :
    Kept (p.extendRetention disk addrs).2 (p.persist files (.extendRetention disk addrs)) := by
  rw [Peer.persist]
  exact kept.putFloor (p.extendRetention disk addrs).2.retention

/-- Publishing the floor keeps the files in step. -/
theorem publishRetention (kept : Kept p files) (proposed : List Addr) :
    Kept (p.publishRetention (.ok ()) proposed).2
      (p.persist files (.publishRetention (.ok ()) proposed)) := by
  -- The proposal is refused, or it replaces the floor and the file.
  rw [Peer.persist]
  rcases Peer.publishRetention_spec (p := p) (.ok ()) proposed with ⟨_, e, refused⟩ | ⟨_, replaced⟩
  · rw [refused]
    exact kept
  · rw [replaced]
    exact kept.putFloor _

/-- Forgetting keeps the files in step. -/
theorem forgetRetention (kept : Kept p files) (addrs : List Addr) (proof : DeleteExecution) :
    Kept (p.forgetRetention (.ok ()) addrs proof).2
      (p.persist files (.forgetRetention (.ok ()) addrs proof)) := by
  -- The proof is refused, or the floor that is left is written.
  rw [Peer.persist]
  rcases Peer.forgetRetention_exact (p := p) (.ok ()) addrs proof with ⟨_, e, refused⟩ | ⟨_, shrunk⟩
  · rw [refused]
    exact kept
  · rw [shrunk]
    exact kept.putFloor _

/-- A lease granted to one holder drops no other. -/
theorem insertLeases (kept : Kept p files) (holder : Digest) (entry : OrdSet Addr × Timestamp) :
    Kept { p with leases := p.leases.insert holder entry }
      (files.persistLeases (p.leases.insert holder entry)) := by
  -- Inserting makes no holder absent that was there.
  apply kept.putLeases
  intro other absent
  rw [Std.ExtTreeMap.getElem?_insert] at absent
  split at absent
  · cases absent
  · exact absent

/-- Taking a lease keeps the files in step. -/
theorem takeLease (kept : Kept p files) (holder : Digest) (addrs : List Addr) (now : Timestamp) :
    Kept (p.takeLease (.ok ()) holder addrs now).2
      (p.persist files (.takeLease (.ok ()) holder addrs now)) := by
  -- It is refused, or it is granted and every holder's leases are written.
  rw [Peer.persist]
  rcases Peer.takeLease_cases (p := p) (.ok ()) holder addrs now with ⟨_, e, refused⟩ |
    ⟨_, granted, answered⟩
  · rw [refused]
    exact kept
  · -- The write succeeds, so the answer is a total and every holder is written.
    cases taken : p.takeLease (.ok ()) holder addrs now with
    | mk answer after =>
      rw [taken] at granted answered
      cases answer with
      | error e => cases answered
      | ok total =>
        dsimp only at granted ⊢
        rw [granted]
        exact kept.insertLeases holder _

/-- Releasing a lease keeps the files in step. -/
theorem releaseLease (kept : Kept p files) (disk : Disk) (holder : Digest) (addrs : List Addr)
    (now : Timestamp) :
    Kept (p.releaseLease disk holder addrs now).2
      (p.persist files (.releaseLease disk holder addrs now)) := by
  -- A holder that is not known changes nothing, and one that is has its leases written.
  rw [Peer.persist, Peer.releaseLease_eq]
  dsimp only
  unfold Peer.released
  split
  · exact kept.putLeases fun other absent => absent
  · exact kept.insertLeases holder _

end Kept

/-- The keys an operation brings in: those of new writers, and those rungs carry. -/
def PeerOp.keys : PeerOp → List Bytes
  | .addWriter key => [key]
  | .publishCheckpoint _ c => [c.writerPk]
  | _ => []

namespace Peer

variable {p : Peer}

/-- Where an operation writes to no part that is kept in files, the peer holds what it held. -/
theorem sameState_of_onlyIn {part : Part} {p' : Peer} (only : OnlyIn part p p')
    (volatile : part = .blobs ∨ part = .roster ∨ part = .acl ∨ part = .subjects ∨ part = .view) :
      SameState p p' := by
  rcases volatile with rfl | rfl | rfl | rfl | rfl <;>
    exact ⟨only.slots nofun, only.witnesses nofun, only.handoffs nofun, only.checkpoints nofun,
      only.leases nofun, only.retention nofun, only.deleteRequests nofun,
      only.deleteApprovals nofun, only.deleteExecutions nofun⟩

/-- Every writer's key is one of some keys. -/
def WritersIn (p : Peer) (keys : Set Bytes) : Prop := ∀ id vk, p.roster.get id = some vk → vk ∈ keys

/-- A writer is added by an operation that brings its key. -/
theorem step_writersIn {keys : Set Bytes} (writers : p.WritersIn keys) (op : PeerOp)
    (brought : ∀ key ∈ op.keys, key ∈ keys) :
    (peer.step p op).2.WritersIn keys := by
  -- Only adding a writer changes the roster, and its key is one of those brought.
  by_cases adds : op.part = .roster
  · cases op with
    | addWriter key =>
      intro id vk found
      cases added : p.roster.add key with
      | error e =>
        rw [show (peer.step p (.addWriter key)).2 = p by simp [peer, added]] at found
        exact writers id vk found
      | ok roster =>
        rw [show (peer.step p (.addWriter key)).2 = { p with roster } by simp [peer, added]]
          at found
        rcases Roster.get_of_add added found with rfl | old
        · exact brought vk List.mem_cons_self
        · exact writers id vk old
    | _ => cases adds
  · intro id vk found
    rw [(step_onlyIn op).roster adds] at found
    exact writers id vk found

/-- One operation of an honest peer whose writes succeed, in memory and on disk. -/
theorem step_kept {files : Files} {keys : Set Bytes} (injective : Set.InjOn Crypto.blake3 keys)
    (kept : Kept p files) (honest : p.hostility = .honest) (writers : p.WritersIn keys)
    (op : PeerOp) (written : op.Written) (brought : ∀ key ∈ op.keys, key ∈ keys) :
    Kept (peer.step p op).2 (p.persist files op) := by
  -- One kind of operation after the other.
  cases op with
  | publishSlot disk subject rec => exact kept.publishSlot honest disk subject rec
  | publishHandoff disk h => exact kept.publishHandoff disk h
  | publishCheckpoint disk c =>
    refine kept.publishCheckpoint disk c fun vk rostered => ?_
    -- Both keys have the writer's id, and no two keys of the run share one.
    have ids : Crypto.blake3 vk = Crypto.blake3 c.writerPk := Roster.keyId_of_get rostered
    exact injective (writers _ vk rostered) (brought c.writerPk List.mem_cons_self) ids
  | publishWitness disk w => exact kept.publishWitness disk w
  | publishDeleteRequest disk r => exact kept.publishDeleteRequest disk r
  | publishDeleteApproval disk a => exact kept.publishDeleteApproval disk a
  | executeDelete disk e now => exact kept.executeDelete disk e now
  | extendRetention disk addrs => exact kept.extendRetention disk addrs
  | publishRetention disk proposed =>
    obtain rfl : disk = .ok () := written
    exact kept.publishRetention proposed
  | forgetRetention disk addrs proof =>
    obtain rfl : disk = .ok () := written
    exact kept.forgetRetention addrs proof
  | takeLease disk holder addrs now =>
    obtain rfl : disk = .ok () := written
    exact kept.takeLease holder addrs now
  | releaseLease disk holder addrs now => exact kept.releaseLease disk holder addrs now
  -- Nothing else is kept in files that are read again.
  | putBlob | prove | deleteBlob | sweep =>
    exact kept.of_same (sameState_of_onlyIn (step_onlyIn _) (.inl rfl))
  | addWriter key =>
    rw [persist_addWriter]
    exact kept.of_same (sameState_of_onlyIn (step_onlyIn _) (.inr (.inl rfl)))
  | setAcl | bindSubject | setView =>
    exact kept.of_same (sameState_of_onlyIn (step_onlyIn _) (by simp [PeerOp.part]))

end Peer

namespace Kept

variable {p : Peer} {files : Files}

/-- A floor written once is read back; without its file the floor is empty. -/
theorem floor_listing (kept : Kept p files) {listing : List (Path × Bytes)}
    (all : listing.Perm files.toList) :
    (listing.filterMap fun file => Drawer.retention.read file.1 file.2).foldl
      (fun floor e => e.2.toList.foldl (fun f a => f.insert a) floor) (∅ : OrdSet Addr) =
        p.retention := by
  -- There is a file of the floor or there is none.
  obtain ⟨written, mirrors, is⟩ := kept.floor
  -- Reading the same floor again adds nothing.
  have union : ∀ (entries : List (Unit × OrdSet Addr)) (start : OrdSet Addr) (a : Addr),
      a ∈ entries.foldl (fun floor e => e.2.toList.foldl (fun f a => f.insert a) floor) start ↔
        a ∈ start ∨ ∃ e ∈ entries, a ∈ e.2 := by
    intro entries
    induction entries with
    | nil => simp
    | cons e rest ih =>
      intro start a
      rw [List.foldl_cons, ih, OrdSet.mem_insertAll, Std.ExtTreeSet.mem_toList,
        List.exists_mem_cons_iff, ← or_assoc, or_comm (a := a ∈ e.2)]
  apply Std.ExtTreeSet.ext_mem
  intro a
  rw [union, is]
  constructor
  · rintro (none | ⟨⟨_, floor⟩, listed, member⟩)
    · simp at none
    · rw [(mirrors.mem_listing all () floor).mp listed]
      exact member
  · intro member
    cases found : written with
    | none => simp [found] at member
    | some floor =>
      rw [found] at member
      exact .inr ⟨((), floor), (mirrors.mem_listing all () floor).mpr found, member⟩

/-- A peer opened on the files holds what they were written for. -/
theorem sameState_reopen (kept : Kept p files) {listing : List (Path × Bytes)}
    (all : listing.Perm files.toList) (mode : Mode) (addressing : Addressing)
    (hostility : Hostility) (blobs : BlobStore) :
    Peer.SameState p (Peer.reopen mode addressing hostility blobs listing) where
  -- Every map is rebuilt from the files of its drawer, in whatever order they are listed.
  slots := OrdMap.foldl_insert2_eq kept.tidy.slots fun slot seq rec =>
    (kept.drawers .slots).mem_listing all (slot, seq) rec
  witnesses := OrdMap.foldl_insert2_eq kept.tidy.witnesses fun slot key w =>
    (kept.drawers .witnesses).mem_listing all (slot, key) w
  handoffs := OrdMap.foldl_insert2_eq kept.tidy.handoffs fun slot key h =>
    (kept.drawers .handoffs).mem_listing all (slot, key) h
  checkpoints := OrdMap.foldl_insert2_eq kept.tidy.checkpoints fun slot key c =>
    (kept.drawers .checkpoints).mem_listing all (slot, key) c
  leases := OrdMap.foldl_insert_eq fun holder entry =>
    (kept.drawers .leases).mem_listing all holder entry
  retention := kept.floor_listing all
  deleteRequests := OrdMap.foldl_insert_eq fun hash r =>
    (kept.drawers .deleteRequests).mem_listing all hash r
  deleteApprovals := OrdMap.foldl_insert2_eq kept.tidy.deleteApprovals fun request approver a =>
    (kept.drawers .deleteApprovals).mem_listing all (request, approver) a
  deleteExecutions := OrdMap.foldl_insert_eq fun hash e =>
    (kept.drawers .deleteExecutions).mem_listing all hash e

end Kept

section

variable (mode : Mode) (addressing : Addressing) (authority : Authority) (quorum : QuorumPolicy)
    (policy : GcPolicy)
  (witnessOnly : Bool)

/-- Nothing is held, and nothing is on disk. -/
theorem kept_opened : Kept (Peer.opened mode addressing authority quorum policy witnessOnly) ∅ where
  -- Nothing is held and no file is there.
  drawers kind := by
    apply Drawer.mirrors_empty
    intro key
    cases kind with
    | slots | handoffs | checkpoints | witnesses | deleteApprovals => exact OrdMap.find2_empty _ _
    | deleteRequests | deleteExecutions | leases => exact Std.ExtTreeMap.getElem?_empty
  floor := ⟨none, Drawer.mirrors_empty fun _ => rfl, rfl⟩
  tidy := ⟨OrdMap.tight_empty, OrdMap.tight_empty, OrdMap.tight_empty, OrdMap.tight_empty,
    OrdMap.tight_empty⟩

/-- The peer of a run is the same with its files and without. -/
theorem fst_run_durable (s : Peer × Files) (ops : List PeerOp) :
    (durable.run s ops).1 = peer.run s.1 ops := by
  induction ops generalizing s with
  | nil => rfl
  | cons op rest ih => exact ih _

/-- The files of a run say what its peer holds. -/
theorem kept_run (ops : List PeerOp) (written : ∀ op ∈ ops, op.Written)
    (distinct : Set.InjOn Crypto.blake3 {key | ∃ op ∈ ops, key ∈ op.keys}) :
    Kept (peer.run (.opened mode addressing authority quorum policy witnessOnly) ops)
      (durable.run (.opened mode addressing authority quorum policy witnessOnly, ∅) ops).2 := by
  -- Induction over the run from its end.
  let start : Peer × Files := (.opened mode addressing authority quorum policy witnessOnly, ∅)
  let inv (s : Peer × Files) : Prop :=
    Kept s.1 s.2 ∧ s.1.hostility = .honest ∧ s.1.WritersIn {key | ∃ op ∈ ops, key ∈ op.keys}
  -- Every operation of the run is one of its operations.
  have permitted : durable.Permits (fun _ op => op ∈ ops) start ops := by
    apply Machine.permits_iff_each.mpr
    rintro before op after is
    rw [is]
    exact List.mem_append_right before List.mem_cons_self
  have begun : inv start := by
    refine ⟨kept_opened mode addressing authority quorum policy witnessOnly, rfl, ?_⟩
    intro id vk found
    simp [start, Peer.opened, Peer.new, Roster.empty, Roster.get] at found
  have step (s : Peer × Files) (op : PeerOp) (listed : op ∈ ops) (before : inv s) :
      inv (durable.step s op).2 := by
    obtain ⟨p, files⟩ := s
    obtain ⟨kept, honest, writers⟩ := before
    have brought : ∀ key ∈ op.keys, key ∈ {key | ∃ op ∈ ops, key ∈ op.keys} :=
      fun key among => ⟨op, listed, among⟩
    exact ⟨Peer.step_kept distinct kept honest writers op (written op listed) brought,
      (Peer.step_onlyIn op).hostility.trans honest, Peer.step_writersIn writers op brought⟩
  have kept : inv (durable.run start ops) := Machine.run_invariant begun permitted step
  rw [← fst_run_durable (.opened mode addressing authority quorum policy witnessOnly, ∅)]
  exact kept.1

/--
Opening a peer again shows no difference, over every run of an honest peer whose writes succeed.

Its directory may be listed in any order; no two keys of the run share an id.
-/
theorem restart_is_invisible (ops : List PeerOp) (written : ∀ op ∈ ops, op.Written)
    (distinct : Set.InjOn Crypto.blake3 {key | ∃ op ∈ ops, key ∈ op.keys})
    (listing : List (Path × Bytes))
    (all : listing.Perm (durable.run (.opened mode addressing authority quorum policy witnessOnly,
      ∅) ops).2.toList) :
    Peer.SameState (peer.run (.opened mode addressing authority quorum policy witnessOnly) ops)
      (Peer.reopen mode addressing .honest
        (peer.run (.opened mode addressing authority quorum policy witnessOnly) ops).blobs
          listing) :=
  (kept_run mode addressing authority quorum policy witnessOnly ops written
    distinct).sameState_reopen all _ _ _ _

end

end

section

open Concrete

/-- A rung at the first sequence of a slot. -/
def firstRung : Checkpoint :=
  ⟨slot 1, 0, digest [1], 0, Digest.zero, (identity 1).verifyingKey,
    signature (identity 1).verifyingKey
      (framed .slotCheckpoint (checkpointBody (slot 1) 0 (digest [1]) 0 Digest.zero))⟩

/-- A writer checkpoints, an observer witnesses, and a blob is stored, leased and retained. -/
def fullDay : List PeerOp :=
  [.addWriter (identity 1).verifyingKey, .addWriter (identity 2).verifyingKey,
    .publishCheckpoint (.ok ()) firstRung,
    .publishWitness (.ok ()) (witness 3 1 0 (digest [1]) Digest.zero), .putBlob (.ok ()) 1 [7],
    .takeLease (.ok ()) (digest [9]) [digest [7]] 2, .extendRetention (.ok ()) [digest [7]]]

/-- After that day the peer holds all four, and so does the one opened on its files. -/
theorem full_day_is_read_back :
    let start := Peer.opened .e2ee .content .empty .default .default false
    let files := (durable.run (start, ∅) fullDay).2
    (files.toList.map Prod.fst).length = 4 ∧
      Peer.SameState (peer.run start fullDay)
        (Peer.reopen .e2ee .content .honest (peer.run start fullDay).blobs files.toList) := by
  -- The run uses honest operations of a healthy disk, and its keys have different ids.
  refine ⟨by decide +kernel,
    restart_is_invisible .e2ee .content .empty .default .default false fullDay ?_ ?_ _ (.refl _)⟩
  · intro op listed
    simp only [fullDay, List.mem_cons, List.not_mem_nil, or_false] at listed
    rcases listed with rfl | rfl | rfl | rfl | rfl | rfl | rfl <;> trivial
  · -- The run brings in two keys, whose ids differ.
    have keys : ∀ key, (∃ op ∈ fullDay, key ∈ op.keys) → key = (identity 1).verifyingKey ∨
        key = (identity 2).verifyingKey := by
      intro key brought
      have listed : key ∈ [(identity 1).verifyingKey, (identity 2).verifyingKey,
          (identity 1).verifyingKey] :=
        List.mem_flatMap.mpr brought
      simp only [List.mem_cons, List.not_mem_nil, or_false] at listed
      tauto
    have differ : digest (identity 1).verifyingKey ≠ digest (identity 2).verifyingKey := by
      decide +kernel
    intro a among b among' same
    rcases keys a among with rfl | rfl <;> rcases keys b among' with rfl | rfl
    · rfl
    · exact absurd same differ
    · exact absurd same.symm differ
    · rfl

end

end NasTools
