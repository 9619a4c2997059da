import NasTools.Lib.Nested
import NasTools.Proofs.Frame

/-!
What becomes of everything that is published to a peer: refused, there already, or
written and filed.
-/

namespace NasTools.Peer

variable [Crypto] {p : Peer}

omit [Crypto] in
/-- What was written to disk had been encoded. -/
theorem written_eq_ok {E A : Type} {encoded : Except E A} {w : E → PeerError} {disk : Disk} :
    (do let _ ← encoded.mapError w; disk.mapError PeerError.io) = .ok () ↔
      (∃ bytes, encoded = .ok bytes) ∧ disk = .ok () := by
  cases encoded with
  | error e => simp
  | ok bytes => cases disk <;> simp

/-- What is published is refused and changes nothing, is there already, or is filed. -/
inductive Outcome {A : Type} (p : Peer) (result : Except PeerError A × Peer) (answer : A)
    (present : Prop) (filed : Peer) (accepted : Prop) : Prop where
  | refused (e : PeerError) (is : result = (.error e, p))
  | held (is : result = (.ok answer, p)) (present : present)
  | filed (is : result = (.ok answer, filed)) (absent : ¬present) (accepted : accepted)

/-- A failure leaves the peer as it was. -/
theorem Outcome.failed {A : Type} {result : Except PeerError A × Peer} {answer : A} {present : Prop}
    {filed : Peer} {accepted : Prop} (outcome : p.Outcome result answer present filed accepted)
    {e : PeerError} (failure : result.1 = .error e) : result.2 = p := by
  -- Only what was filed changes the peer, and then there is no error.
  cases outcome with
  | refused e is => rw [is]
  | held is => rw [is]
  | filed is =>
    rw [is] at failure
    cases failure

/-- A witness is filed under its observer and sequence, over what was there. -/
def fileWitness (p : Peer) (w : Witness) : Peer :=
  { p with witnesses := p.witnesses.insert2 w.slotId (w.witnessId, w.seq) w }

/-- The relay lets a witness in: it verifies, there is room for it, and it is written to disk. -/
structure RelaysIn (p : Peer) (disk : Disk) (w : Witness) : Prop where
  verified : w.verify = .ok ()
  room : (p.witnesses.getD w.slotId ∅).contains (w.witnessId, w.seq) = true ∨
    (p.witnesses.getD w.slotId ∅).size < maxWitnessesPerSlot
  encodes : ∃ bytes, w.encode = .ok bytes
  written : disk = .ok ()

/-- A witness is refused and nothing changes, or it is filed. -/
theorem publishWitness_cases (disk : Disk) (w : Witness) :
    (¬p.RelaysIn disk w ∧ ∃ e, p.publishWitness disk w = (.error e, p)) ∨
      (p.RelaysIn disk w ∧ p.publishWitness disk w = (.ok (), p.fileWitness w)) := by
  -- The checks are those of the code, in its order.
  unfold publishWitness
  dsimp only
  cases verified : w.verify with
  -- The signature is the first thing that is looked at.
  | error e => exact .inl ⟨fun relays => by simp [relays.verified] at verified, _, rfl⟩
  | ok u =>
    dsimp only
    split
    · -- The slot is full, and this observer is new to the sequence.
      rename_i full
      refine .inl ⟨?_, _, rfl⟩
      intro relays
      rcases relays.room with held | room
      · exact full.1 held
      · omega
    · rename_i room
      -- What is left is the disk, which is asked last.
      cases written : (do let _ ← w.encode.mapError PeerError.witness; disk.mapError .io) with
      | error e =>
        refine .inl ⟨?_, _, rfl⟩
        intro relays
        have wrote := written_eq_ok (w := PeerError.witness) |>.mpr ⟨relays.encodes, relays.written⟩
        rw [wrote] at written
        cases written
      | ok u =>
        obtain ⟨encodes, wrote⟩ := written_eq_ok.mp written
        refine .inr ⟨⟨verified, ?_, encodes, wrote⟩, rfl⟩
        by_cases held : (p.witnesses.getD w.slotId ∅).contains (w.witnessId, w.seq) = true
        · exact .inl held
        · exact .inr (Nat.lt_of_not_le fun full => room ⟨held, full⟩)

/-- What a handoff was accepted for. -/
structure AcceptsHandoff (p : Peer) (h : SlotHandoff) : Prop where
  verified : h.verify = .ok ()
  room : (p.handoffs.getD h.slotId ∅).size < maxHandoffsPerSlot
  encodes : ∃ bytes, h.encode = .ok bytes

/-- Publishing a handoff refuses it, finds it there or files it. -/
theorem publishHandoff_outcome (disk : Disk) (h : SlotHandoff) :
    p.Outcome (p.publishHandoff disk h) () ((p.handoffs.getD h.slotId ∅).contains (handoffKey h) =
      true) (p.fileHandoff h) (p.AcceptsHandoff h) := by
  -- Four tests in turn, of which the second finds it there.
  unfold publishHandoff
  dsimp only
  cases verified : h.verify with
  | error e => exact .refused _ rfl
  | ok u =>
    dsimp only
    split
    · -- One that is there already is answered as if it were new, even when the slot is full.
      rename_i present
      exact .held rfl present
    · rename_i absent
      split
      · exact .refused _ rfl
      · rename_i room
        split
        · exact .refused _ rfl
        · rename_i written
          exact .filed rfl absent ⟨verified, Nat.lt_of_not_le room, (written_eq_ok.mp written).1⟩

/-- What a rung was accepted for. -/
structure AcceptsCheckpoint (p : Peer) (c : Checkpoint) : Prop where
  admitted : p.admitsCheckpoint c
  encodes : ∃ bytes, c.encode = .ok bytes

/-- Publishing a checkpoint refuses it, finds it there or files it. -/
theorem publishCheckpoint_outcome (disk : Disk) (c : Checkpoint) :
    p.Outcome (p.publishCheckpoint disk c) () ((p.checkpoints.getD c.slotId ∅).contains (c.seq,
      c.checkpointHash) = true) (p.fileCheckpoint c) (p.AcceptsCheckpoint c) := by
  -- The checks are those of the code, in its order.
  unfold publishCheckpoint
  dsimp only
  split
  · exact .refused _ rfl
  -- A rung is admitted before it is known whether it is held.
  rename_i admitted
  simp only [except_bind_eq_ok, okOr_eq_ok, except_mapError_eq_ok] at admitted
  split
  · rename_i present
    exact .held rfl present
  · rename_i absent
    split
    · exact .refused _ rfl
    · split
      · exact .refused _ rfl
      · rename_i written
        exact .filed rfl absent ⟨admitted, (written_eq_ok.mp written).1⟩

/-- What a request was accepted for. -/
structure AcceptsRequest (r : DeleteRequest) : Prop where
  verified : r.verify = .ok ()
  encodes : ∃ bytes, r.encode = .ok bytes

/-- Publishing a deletion's request refuses it, finds it there or files it. -/
theorem publishDeleteRequest_outcome (disk : Disk) (r : DeleteRequest) :
    p.Outcome (p.publishDeleteRequest disk r) r.requestHash
      (p.deleteRequests.contains r.requestHash = true)
      { p with deleteRequests := p.deleteRequests.insert r.requestHash r } (AcceptsRequest r) := by
  -- The checks are those of the code, in its order.
  unfold publishDeleteRequest
  cases verified : r.verify with
  | error e => exact .refused _ rfl
  | ok u =>
    dsimp only
    cases found : p.deleteRequests[r.requestHash]? with
    -- The same request again is fine, and another one under the same hash is not.
    | some held =>
      dsimp only
      split
      · exact .held rfl (by simp [Std.ExtTreeMap.contains_eq_isSome_getElem?, found])
      · exact .refused _ rfl
    | none =>
      dsimp only
      split
      · exact .refused _ rfl
      · split
        · exact .refused _ rfl
        · rename_i written
          exact .filed rfl (by simp [Std.ExtTreeMap.contains_eq_isSome_getElem?, found])
            ⟨verified, (written_eq_ok.mp written).1⟩

/-- What an approval was accepted for. -/
structure AcceptsApproval (p : Peer) (a : DeleteApproval) : Prop where
  verified : a.verify = .ok ()
  known : p.deleteRequests.contains a.requestHash = true
  holder : p.deleteAuthority.contains a.approverId = true
  encodes : ∃ bytes, a.encode = .ok bytes

/-- Publishing an approval refuses it, finds it there or files it. -/
theorem publishDeleteApproval_outcome (disk : Disk) (a : DeleteApproval) :
    p.Outcome (p.publishDeleteApproval disk a) ()
      ((p.deleteApprovals.getD a.requestHash ∅).contains a.approverId = true)
      { p with deleteApprovals := p.deleteApprovals.insert2 a.requestHash a.approverId a }
        (p.AcceptsApproval a) := by
  -- The checks are those of the code, in its order.
  unfold publishDeleteApproval
  dsimp only
  cases verified : a.verify with
  | error e => exact .refused _ rfl
  | ok u =>
    dsimp only
    split
    · exact .refused _ rfl
    -- The request has to be known, and the approver has to hold the authority.
    rename_i known
    split
    · exact .refused _ rfl
    rename_i holder
    split
    · rename_i present
      exact .held rfl present
    · rename_i absent
      split
      · exact .refused _ rfl
      · rename_i written
        exact .filed rfl absent ⟨verified, not_not.mp known, not_not.mp holder,
          (written_eq_ok.mp written).1⟩

/-- What becomes of an execution: refused, judged without being recorded, or recorded. -/
theorem executeDelete_outcome (disk : Disk) (e : DeleteExecution) (now : Timestamp) :
    (∃ why, p.executeDelete disk e now = (.error why, p)) ∨
      (∃ why, p.executeDelete disk e now = (.ok (.refused why), p)) ∨
      (∃ required distinct, p.executeDelete disk e now = (.ok (.execute required distinct), p) ∧
        p.deleteExecutions.contains e.requestHash = true) ∨
      (∃ required distinct, p.executeDelete disk e now = (.ok (.execute required distinct),
          { p with deleteExecutions := p.deleteExecutions.insert e.requestHash (e, now) }) ∧
        ¬p.deleteExecutions.contains e.requestHash = true ∧ e.verify = .ok () ∧
          ∃ bytes, e.encode = .ok bytes) := by
  -- The tests in turn: it verifies, it is judged, and it is recorded or written.
  unfold executeDelete
  cases verified : e.verify with
  | error why => exact .inl ⟨_, rfl⟩
  | ok u =>
    dsimp only
    split
    · exact .inl ⟨_, rfl⟩
    split
    · -- A judgement against the deletion is an answer, and no failure.
      exact .inr (.inl ⟨_, rfl⟩)
    split
    · -- Allowed, and recorded before: the judgement is given again.
      rename_i present
      exact .inr (.inr (.inl ⟨_, _, rfl, present⟩))
    · rename_i absent
      split
      · exact .inl ⟨_, rfl⟩
      · rename_i written
        exact .inr (.inr (.inr ⟨_, _, rfl, absent, rfl, (written_eq_ok.mp written).1⟩))

end NasTools.Peer
