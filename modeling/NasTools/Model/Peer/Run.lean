import NasTools.Lib.Machine
import NasTools.Model.Peer.Leases
import NasTools.Model.Peer.Slots

/-! The peer as a machine, and which part of it each operation can touch. -/

namespace NasTools

variable [Crypto]

/--
What can be done to a peer.

Arguments are arbitrary, the outcome of every write to disk among them.
-/
inductive PeerOp where
  | publishSlot (disk : Disk) (subject : String) (rec : SlotRecord)
  | publishHandoff (disk : Disk) (h : SlotHandoff)
  | publishCheckpoint (disk : Disk) (c : Checkpoint)
  | publishWitness (disk : Disk) (w : Witness)
  | publishDeleteRequest (disk : Disk) (r : DeleteRequest)
  | publishDeleteApproval (disk : Disk) (a : DeleteApproval)
  | executeDelete (disk : Disk) (e : DeleteExecution) (now : Timestamp)
  | extendRetention (disk : Disk) (addrs : List Addr)
  | publishRetention (disk : Disk) (proposed : List Addr)
  | forgetRetention (disk : Disk) (addrs : List Addr) (proof : DeleteExecution)
  | putBlob (disk : Disk) (now : Timestamp) (data : Bytes)
  | prove (disk : Disk) (now : Timestamp) (addr : Addr) (nonce : Digest)
  | deleteBlob (disk : Disk) (addr : Addr)
  | sweep (disk : Addr → Disk) (holders : List Holder) (policy : GcPolicy) (now : Timestamp)
    (dryRun : Bool)
  | takeLease (disk : Disk) (holder : Digest) (addrs : List Addr) (now : Timestamp)
  | releaseLease (disk : Disk) (holder : Digest) (addrs : List Addr) (now : Timestamp)
  -- The public fields a peer's owner changes: keys are only ever added to the roster.
  | addWriter (verifyingKey : Bytes)
  | setAcl (acl : Acl)
  | bindSubject (verifyingKey : Bytes) (subject : String)
  | setView (view : UInt8)

/-- An answer without the value it carries. -/
def answered {A : Type} (result : Except PeerError A × Peer) : Except PeerError Unit × Peer :=
  (result.1.map fun _ => (), result.2)

/-- A peer that carries out one operation after the other. -/
def peer : Machine Peer PeerOp (Except PeerError Unit) where
  step p
    | .publishSlot disk subject rec => p.publishSlot disk subject rec
    | .publishHandoff disk h => p.publishHandoff disk h
    | .publishCheckpoint disk c => p.publishCheckpoint disk c
    | .publishWitness disk w => p.publishWitness disk w
    | .publishDeleteRequest disk r => answered (p.publishDeleteRequest disk r)
    | .publishDeleteApproval disk a => p.publishDeleteApproval disk a
    | .executeDelete disk e now => answered (p.executeDelete disk e now)
    | .extendRetention disk addrs => p.extendRetention disk addrs
    | .publishRetention disk proposed => p.publishRetention disk proposed
    | .forgetRetention disk addrs proof => p.forgetRetention disk addrs proof
    | .putBlob disk now data => answered (p.putBlob disk now data)
    | .prove disk now addr nonce => answered (p.prove disk now addr nonce)
    | .deleteBlob disk addr => p.deleteBlob disk addr
    | .sweep disk holders policy now dryRun => answered (p.sweep disk holders policy now dryRun)
    | .takeLease disk holder addrs now => answered (p.takeLease disk holder addrs now)
    | .releaseLease disk holder addrs now => p.releaseLease disk holder addrs now
    | .addWriter key =>
      match p.roster.add key with
      | .ok roster => (.ok (), { p with roster })
      | .error _ => (.ok (), p)
    | .setAcl acl => (.ok (), { p with acl })
    | .bindSubject key subject => (.ok (), p.bindSubject key subject)
    | .setView view => (.ok (), { p with view })

namespace Peer

variable {p : Peer}

/--
A refused record changes nothing on an honest peer; an accepted one is filed and nothing else.
-/
theorem publishSlot_cases (honest : p.hostility = .honest) (disk : Disk) (subject : String)
    (rec : SlotRecord) :
    (∃ e, p.publishSlot disk subject rec = (.error e, p)) ∨
      (p.admitSlot subject rec = .ok () ∧ p.checkNext rec = .ok () ∧
        persistSlot disk rec = .ok () ∧ p.publishSlot disk subject rec =
          (.ok (), p.fileSlot rec)) := by
  -- The record is admitted, follows the head, and is written.
  unfold publishSlot
  cases admitted : p.admitSlot subject rec with
  | error e => exact .inl ⟨e, rfl⟩
  | ok _ =>
    -- Neither forking branch is taken without the flag.
    simp only [honest, Hostility.honest, Bool.false_eq_true, false_and, if_false]
    cases next : p.checkNext rec with
    | error e => exact .inl ⟨e, rfl⟩
    | ok _ =>
      cases written : persistSlot disk rec with
      | error e => exact .inl ⟨e, rfl⟩
      | ok _ => exact .inr ⟨trivial, rfl, rfl, rfl⟩

/-- A record on the second branch touches that branch only. -/
theorem publishOnFork_frame (rec : SlotRecord) :
    ∃ forks, (p.publishOnFork rec).2 = { p with forks } := by
  -- Only the forks can change.
  unfold publishOnFork
  dsimp only
  -- Whichever way the second branch ends, the first one is not touched.
  split
  · split
    · exact ⟨_, rfl⟩
    · exact ⟨_, rfl⟩
  split
  · exact ⟨_, rfl⟩
  split
  · exact ⟨_, rfl⟩
  · exact ⟨_, rfl⟩

/-- A record touches the histories only, also on a forking peer. -/
theorem publishSlot_frame (disk : Disk) (subject : String) (rec : SlotRecord) :
    ∃ slots forks, (p.publishSlot disk subject rec).2 = { p with slots, forks } := by
  -- Each way out changes the slots, the forks or nothing.
  unfold publishSlot
  split
  · exact ⟨p.slots, p.forks, rfl⟩
  split
  · obtain ⟨forks, same⟩ := publishOnFork_frame (p := p) rec
    exact ⟨p.slots, forks, same⟩
  split
  · exact ⟨_, _, rfl⟩
  split
  · exact ⟨p.slots, p.forks, rfl⟩
  split
  · exact ⟨p.slots, p.forks, rfl⟩
  · exact ⟨_, _, rfl⟩

/-- A handoff is filed under a key that was free, or nothing changes. -/
theorem publishHandoff_cases (disk : Disk) (h : SlotHandoff) :
    (p.publishHandoff disk h).2 = p ∨
      (h.verify = .ok () ∧ ¬(p.handoffs.getD h.slotId ∅).contains (handoffKey h) ∧
        (p.publishHandoff disk h).2 = p.fileHandoff h) := by
  -- Every way out but the last leaves the peer as it was.
  unfold publishHandoff
  cases verified : h.verify with
  | error e => exact .inl rfl
  | ok _ =>
    dsimp only
    split
    · exact .inl rfl
    -- The key is free, and the handoff may still be refused.
    rename_i free
    split
    · exact .inl rfl
    split
    · exact .inl rfl
    · exact .inr ⟨rfl, free, rfl⟩

/-- A rung the peer lets in: its writer is on the roster, and it verifies. -/
def admitsCheckpoint (p : Peer) (c : Checkpoint) : Prop :=
  ∃ vk, p.roster.get c.writerId = some vk ∧ c.verify vk = .ok ()

/-- A checkpoint of a rostered writer is filed under its own hash, or nothing changes. -/
theorem publishCheckpoint_cases (disk : Disk) (c : Checkpoint) :
    (p.publishCheckpoint disk c).2 = p ∨
      (p.admitsCheckpoint c ∧ (p.publishCheckpoint disk c).2 = p.fileCheckpoint c) := by
  -- Only the last way out files the rung, and then every check has passed.
  unfold publishCheckpoint
  dsimp only
  split
  · exact .inl rfl
  rename_i admitted
  simp only [except_bind_eq_ok, okOr_eq_ok, except_mapError_eq_ok] at admitted
  split
  · exact .inl rfl
  split
  · exact .inl rfl
  split
  · exact .inl rfl
  · exact .inr ⟨admitted, rfl⟩

/-- A witness touches the witnesses only. -/
theorem publishWitness_frame (disk : Disk) (w : Witness) :
    ∃ witnesses, (p.publishWitness disk w).2 = { p with witnesses } := by
  -- Only the last way out files the witness.
  unfold publishWitness
  dsimp only
  split
  · exact ⟨p.witnesses, rfl⟩
  split
  · exact ⟨p.witnesses, rfl⟩
  split
  · exact ⟨p.witnesses, rfl⟩
  · exact ⟨_, rfl⟩

/-- Deleting a blob touches the blobs only. -/
theorem deleteBlob_frame (disk : Disk) (addr : Addr) :
    ∃ blobs, (p.deleteBlob disk addr).2 = { p with blobs } := by
  unfold deleteBlob
  split
  · exact ⟨p.blobs, rfl⟩
  · exact ⟨_, rfl⟩

/-- Deleting blobs one after the other touches the blobs only. -/
theorem deleteAll_frame (disk : Addr → Disk) (addrs : List Addr) :
    ∃ blobs, (p.deleteAll disk addrs).2 = { p with blobs } := by
  -- Each deletion leaves the rest of the peer alone, so the peer stays quantified over.
  induction addrs generalizing p with
  | nil => exact ⟨p.blobs, rfl⟩
  | cons addr rest ih =>
    obtain ⟨blobs, first⟩ := deleteBlob_frame (p := p) (disk addr) addr
    unfold deleteAll
    split
    · rename_i q refused
      rw [refused] at first
      exact ⟨blobs, first⟩
    · rename_i q removed
      rw [removed] at first
      obtain ⟨blobs', later⟩ := ih (p := q)
      have same : q = { p with blobs } := first
      subst same
      exact ⟨blobs', later⟩

/-- A sweep touches the blobs only. -/
theorem sweep_frame (disk : Addr → Disk) (holders : List Holder) (policy : GcPolicy)
    (now : Timestamp) (dryRun : Bool) :
    ∃ blobs, (p.sweep disk holders policy now dryRun).2 = { p with blobs } := by
  -- Only the blobs can change.
  unfold sweep
  dsimp only
  -- A dry run leaves the peer alone.
  split
  · exact ⟨p.blobs, rfl⟩
  · obtain ⟨blobs, swept⟩ := deleteAll_frame (p := p) disk
      (planSweep p.inventory holders (if p.hostility.ignoreRetention then ∅ else p.retention) policy
        now).delete
    split
    · rename_i refused
      rw [refused] at swept
      exact ⟨blobs, swept⟩
    · rename_i done
      rw [done] at swept
      exact ⟨blobs, swept⟩

/-- Taking a lease touches the leases only. -/
theorem takeLease_frame (disk : Disk) (holder : Digest) (addrs : List Addr) (now : Timestamp) :
    ∃ leases, (p.takeLease disk holder addrs now).2 = { p with leases } := by
  -- Only the last way out changes the leases.
  unfold takeLease
  split
  · exact ⟨p.leases, rfl⟩
  · dsimp only
    split
    · exact ⟨p.leases, rfl⟩
    · exact ⟨_, rfl⟩

/-- Releasing a lease touches the leases only. -/
theorem releaseLease_frame (disk : Disk) (holder : Digest) (addrs : List Addr) (now : Timestamp) :
    ∃ leases, (p.releaseLease disk holder addrs now).2 = { p with leases } := by
  -- Only a release that was written changes the leases.
  unfold releaseLease
  dsimp only
  split
  · exact ⟨p.leases, rfl⟩
  · exact ⟨_, rfl⟩

/-- A deletion request touches the trail of requests only. -/
theorem publishDeleteRequest_frame (disk : Disk) (r : DeleteRequest) :
    ∃ deleteRequests, (p.publishDeleteRequest disk r).2 = { p with deleteRequests } := by
  -- Only the last way out files the request.
  unfold publishDeleteRequest
  split
  · exact ⟨p.deleteRequests, rfl⟩
  dsimp only
  split
  · exact ⟨p.deleteRequests, rfl⟩
  split
  · exact ⟨p.deleteRequests, rfl⟩
  split
  · exact ⟨p.deleteRequests, rfl⟩
  · exact ⟨_, rfl⟩

/-- An approval touches the trail of approvals only. -/
theorem publishDeleteApproval_frame (disk : Disk) (a : DeleteApproval) :
    ∃ deleteApprovals, (p.publishDeleteApproval disk a).2 = { p with deleteApprovals } := by
  -- Only the last way out files the approval.
  unfold publishDeleteApproval
  dsimp only
  split
  · exact ⟨p.deleteApprovals, rfl⟩
  split
  · exact ⟨p.deleteApprovals, rfl⟩
  split
  · exact ⟨p.deleteApprovals, rfl⟩
  split
  · exact ⟨p.deleteApprovals, rfl⟩
  split
  · exact ⟨p.deleteApprovals, rfl⟩
  · exact ⟨_, rfl⟩

/-- An execution touches the trail of executions only. -/
theorem executeDelete_frame (disk : Disk) (e : DeleteExecution) (now : Timestamp) :
    ∃ deleteExecutions, (p.executeDelete disk e now).2 = { p with deleteExecutions } := by
  -- Only the last way out files the execution.
  unfold executeDelete
  split
  · exact ⟨p.deleteExecutions, rfl⟩
  split
  · exact ⟨p.deleteExecutions, rfl⟩
  split
  · exact ⟨p.deleteExecutions, rfl⟩
  split
  · exact ⟨p.deleteExecutions, rfl⟩
  split
  · exact ⟨p.deleteExecutions, rfl⟩
  · exact ⟨_, rfl⟩

/-- Publishing a retention floor touches the floor only. -/
theorem publishRetention_frame (disk : Disk) (proposed : List Addr) :
    ∃ retention, (p.publishRetention disk proposed).2 = { p with retention } := by
  -- A failed write may keep the new floor, and nothing else is touched.
  unfold publishRetention persistRetention
  dsimp only
  split
  · split
    · exact ⟨_, rfl⟩
    · exact ⟨p.retention, rfl⟩
  · exact ⟨_, rfl⟩

/-- Forgetting retention touches the floor only. -/
theorem forgetRetention_frame (disk : Disk) (addrs : List Addr) (proof : DeleteExecution) :
    ∃ retention, (p.forgetRetention disk addrs proof).2 = { p with retention } := by
  -- Only an accepted proof changes the floor.
  unfold forgetRetention persistRetention
  split
  · exact ⟨p.retention, rfl⟩
  split
  · exact ⟨p.retention, rfl⟩
  · exact ⟨_, rfl⟩

/-- What a reader is checked against only grows: keys on the roster, and handoffs held. -/
structure Grows (p p' : Peer) : Prop where
  hostility : p'.hostility = p.hostility
  roster : p'.roster.Extends p.roster
  handoffs : ∀ slot, ∀ h ∈ p.handoffsOf slot, h ∈ p'.handoffsOf slot

/-- A peer with the same flags, roster and handoffs has grown, by nothing. -/
theorem grows_of_same {p' : Peer} (hostility : p'.hostility = p.hostility)
    (roster : p'.roster = p.roster) (handoffs : p'.handoffs = p.handoffs) : Grows p p' where
  hostility := hostility
  roster := by rw [roster]; exact Roster.Extends.refl _
  handoffs slot h held := by rw [handoffsOf, handoffs]; exact held

/-- A handoff filed under a free key leaves every other one where it was. -/
theorem fileHandoff_grows {h : SlotHandoff}
    (free : ¬(p.handoffs.getD h.slotId ∅).contains (handoffKey h)) : Grows p (p.fileHandoff h) where
  -- The handoff is filed under a key that is free.
  hostility := rfl
  roster := Roster.Extends.refl _
  handoffs slot g held := by
    unfold handoffsOf fileHandoff at *
    -- A handoff of another slot is not touched, and those of this slot are under other keys.
    by_cases same : h.slotId = slot
    · subst same
      rw [Std.ExtTreeMap.getD_insert_self]
      obtain ⟨key, found⟩ := OrdMap.mem_listed.mp held
      have other : handoffKey h ≠ key := by
        rintro rfl
        simp [Std.ExtTreeMap.contains_eq_isSome_getElem?, found] at free
      exact OrdMap.mem_listed.mpr
        ⟨key, by simpa [Std.ExtTreeMap.getElem?_insert, other] using found⟩
    · simpa [Std.ExtTreeMap.getD_insert, same] using held

/-- A record published: every check passed, and the record was filed. -/
def Published (p : Peer) (op : PeerOp) (rec : SlotRecord) : Prop :=
  ∃ disk subject, op = .publishSlot disk subject rec ∧ p.admitSlot subject rec = .ok () ∧
    p.checkNext rec = .ok () ∧ persistSlot disk rec = .ok () ∧
    peer.step p op = (.ok (), p.fileSlot rec)

/-- What readers are shown of the slots is as it was, and the roster lost nobody. -/
structure SlotsKept (p p' : Peer) : Prop where
  hostility : p'.hostility = p.hostility
  witnessOnly : p'.witnessOnly = p.witnessOnly
  roster : p'.roster.Extends p.roster
  slots : p'.slots = p.slots
  handoffs : p'.handoffs = p.handoffs
  checkpoints : p'.checkpoints = p.checkpoints

/-- A handoff published: it verified, and it was filed under a free key. -/
def HandedOff (p : Peer) (op : PeerOp) (h : SlotHandoff) : Prop :=
  ∃ disk, op = .publishHandoff disk h ∧ h.verify = .ok () ∧
    ¬(p.handoffs.getD h.slotId ∅).contains (handoffKey h) ∧ (peer.step p op).2 = p.fileHandoff h

/-- A rung published: its writer is on the roster, it verified, and it was filed. -/
def Checkpointed (p : Peer) (op : PeerOp) (c : Checkpoint) : Prop :=
  ∃ disk, op = .publishCheckpoint disk c ∧ p.admitsCheckpoint c ∧
    (peer.step p op).2 = p.fileCheckpoint c

/-- A peer with the same flags, roster, histories, handoffs and rungs. -/
theorem slotsKept_of_eq {p' q : Peer} (stepped : p' = q) (hostility : q.hostility = p.hostility)
    (witnessOnly : q.witnessOnly = p.witnessOnly) (roster : q.roster = p.roster)
    (slots : q.slots = p.slots) (handoffs : q.handoffs = p.handoffs)
    (checkpoints : q.checkpoints = p.checkpoints) : SlotsKept p p' where
  -- Every part that slots depend on is the same.
  hostility := by rw [stepped, hostility]
  witnessOnly := by rw [stepped, witnessOnly]
  roster := by rw [stepped, roster]; exact Roster.Extends.refl _
  slots := by rw [stepped, slots]
  handoffs := by rw [stepped, handoffs]
  checkpoints := by rw [stepped, checkpoints]

/--
Everything one operation can do to the slots of an honest peer.

It publishes a record, a handoff or a rung, or it leaves all three alone.
-/
theorem step_slots (honest : p.hostility = .honest) (op : PeerOp) :
    SlotsKept p (peer.step p op).2 ∨ (∃ rec, p.Published op rec) ∨ (∃ h, p.HandedOff op h) ∨
      ∃ c, p.Checkpointed op c := by
  -- One case for each operation, of which three write to a slot.
  cases op with
  | publishSlot disk subject rec =>
    rcases publishSlot_cases honest disk subject rec with
      ⟨e, refused⟩ | ⟨admitted, next, written, accepted⟩
    · exact .inl (slotsKept_of_eq (congrArg Prod.snd refused) rfl rfl rfl rfl rfl rfl)
    · exact .inr (.inl ⟨rec, disk, subject, rfl, admitted, next, written, accepted⟩)
  | publishHandoff disk h =>
    rcases publishHandoff_cases (p := p) disk h with same | ⟨verified, free, filed⟩
    · exact .inl (slotsKept_of_eq same rfl rfl rfl rfl rfl rfl)
    · exact .inr (.inr (.inl ⟨h, disk, rfl, verified, free, filed⟩))
  | publishCheckpoint disk c =>
    rcases publishCheckpoint_cases (p := p) disk c with same | ⟨admitted, filed⟩
    · exact .inl (slotsKept_of_eq same rfl rfl rfl rfl rfl rfl)
    · exact .inr (.inr (.inr ⟨c, disk, rfl, admitted, filed⟩))
  -- The others write to one part of the peer each, and to none of these.
  | publishWitness disk w =>
    obtain ⟨_, same⟩ := publishWitness_frame (p := p) disk w
    exact .inl (slotsKept_of_eq same rfl rfl rfl rfl rfl rfl)
  | publishDeleteRequest disk r =>
    obtain ⟨_, same⟩ := publishDeleteRequest_frame (p := p) disk r
    exact .inl (slotsKept_of_eq same rfl rfl rfl rfl rfl rfl)
  | publishDeleteApproval disk a =>
    obtain ⟨_, same⟩ := publishDeleteApproval_frame (p := p) disk a
    exact .inl (slotsKept_of_eq same rfl rfl rfl rfl rfl rfl)
  | executeDelete disk e now =>
    obtain ⟨_, same⟩ := executeDelete_frame (p := p) disk e now
    exact .inl (slotsKept_of_eq same rfl rfl rfl rfl rfl rfl)
  | publishRetention disk proposed =>
    obtain ⟨_, same⟩ := publishRetention_frame (p := p) disk proposed
    exact .inl (slotsKept_of_eq same rfl rfl rfl rfl rfl rfl)
  | forgetRetention disk addrs proof =>
    obtain ⟨_, same⟩ := forgetRetention_frame (p := p) disk addrs proof
    exact .inl (slotsKept_of_eq same rfl rfl rfl rfl rfl rfl)
  | deleteBlob disk addr =>
    obtain ⟨_, same⟩ := deleteBlob_frame (p := p) disk addr
    exact .inl (slotsKept_of_eq same rfl rfl rfl rfl rfl rfl)
  | sweep disk holders policy now dryRun =>
    obtain ⟨_, same⟩ := sweep_frame (p := p) disk holders policy now dryRun
    exact .inl (slotsKept_of_eq same rfl rfl rfl rfl rfl rfl)
  | takeLease disk holder addrs now =>
    obtain ⟨_, same⟩ := takeLease_frame (p := p) disk holder addrs now
    exact .inl (slotsKept_of_eq same rfl rfl rfl rfl rfl rfl)
  | releaseLease disk holder addrs now =>
    obtain ⟨_, same⟩ := releaseLease_frame (p := p) disk holder addrs now
    exact .inl (slotsKept_of_eq same rfl rfl rfl rfl rfl rfl)
  | addWriter key =>
    left
    cases added : p.roster.add key with
    | error e =>
      have same : (peer.step p (.addWriter key)).2 = p := by simp [peer, added]
      exact slotsKept_of_eq same rfl rfl rfl rfl rfl rfl
    | ok roster =>
      have stepped : (peer.step p (.addWriter key)).2 = { p with roster } := by simp [peer, added]
      rw [stepped]
      exact ⟨rfl, rfl, Roster.add_extends added, rfl, rfl, rfl⟩
  | extendRetention | putBlob | prove | setAcl | bindSubject | setView =>
    exact .inl (slotsKept_of_eq rfl rfl rfl rfl rfl rfl rfl)

/--
One operation on an honest peer: the histories stay as they are, or a record was published.

Either way what readers are checked against only grows.
-/
theorem step_cases (honest : p.hostility = .honest) (op : PeerOp) :
    Grows p (peer.step p op).2 ∧
      ((peer.step p op).2.slots = p.slots ∨ ∃ rec, p.Published op rec) := by
  -- A step leaves slots alone, or it files a record, a handoff or a rung.
  rcases step_slots honest op with kept | ⟨rec, published⟩ | ⟨h, _, _, _, free, filed⟩ |
    ⟨c, _, _, _, filed⟩
  · refine ⟨⟨kept.hostility, kept.roster, ?_⟩, .inl kept.slots⟩
    intro slot h held
    rw [handoffsOf, kept.handoffs]
    exact held
  · refine ⟨?_, .inr ⟨rec, published⟩⟩
    obtain ⟨_, _, _, _, _, _, filed⟩ := published
    rw [filed]
    exact grows_of_same rfl rfl rfl
  · rw [filed]
    exact ⟨fileHandoff_grows free, .inl rfl⟩
  · rw [filed]
    exact ⟨grows_of_same rfl rfl rfl, .inl rfl⟩

end Peer

end NasTools
