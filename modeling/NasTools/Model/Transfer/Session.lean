import NasTools.Model.Peer.Run
import NasTools.Model.Transfer.Server

/-! What requests over the wire do to a peer, and what a client that talks to it is told. -/

namespace NasTools

variable [Crypto]

/-- One request as it arrives: who sent it, when, and whether the disk takes what it writes. -/
structure Visit where
  subject : String
  disk : Disk
  now : Timestamp
  req : Request

namespace Peer

/-- The peer after a request. -/
def visit (p : Peer) (v : Visit) : Peer := (handleAt p v.disk v.subject v.now v.req).2

/-- The peer after some requests, one after the other. -/
def visits (p : Peer) (vs : List Visit) : Peer := vs.foldl visit p

end Peer

/-- The operations a request can stand for: what it publishes is what its bytes decode to. -/
def PeerOp.CarriedBy (v : Visit) : PeerOp → Prop
  | .publishSlot _ subject rec =>
    subject = v.subject ∧ ∃ bytes, v.req = .publishSlot bytes ∧ SlotRecord.decode bytes = .ok rec
  | .publishHandoff _ h => ∃ bytes, v.req = .publishHandoff bytes ∧ SlotHandoff.decode bytes = .ok h
  | .publishCheckpoint _ c =>
    ∃ bytes, v.req = .publishCheckpoint bytes ∧ Checkpoint.decode bytes = .ok c
  | _ => True

namespace Peer

variable {p : Peer}

/-- An acknowledged operation leaves the peer the operation left. -/
theorem acknowledged_snd {A : Type} (result : Except PeerError A × Peer) :
    (acknowledged result).2 = result.2 := by
  obtain ⟨outcome, q⟩ := result
  cases outcome <;> rfl

/-- A request either changes nothing or is one operation of the peer. -/
theorem visit_cases (v : Visit) :
    p.visit v = p ∨ ∃ op : PeerOp, op.CarriedBy v ∧ p.visit v = (peer.step p op).2 := by
  -- The answers are those of the handler, one kind of request after the other.
  obtain ⟨subject, disk, now, req⟩ := v
  unfold visit handleAt
  dsimp only
  split
  · exact .inl rfl
  cases req with
  | getBlob addr =>
    left
    dsimp only
    split <;> rfl
  | putBlob data =>
    refine .inr ⟨.putBlob disk now data, trivial, ?_⟩
    dsimp only [peer, answered]
    split <;> simp_all
  | prove addr nonce =>
    refine .inr ⟨.prove disk now addr nonce, trivial, ?_⟩
    dsimp only [peer, answered]
    split <;> simp_all
  | publishSlot bytes =>
    cases decoded : SlotRecord.decode bytes with
    | error e => exact .inl (by simp [onDecoded, decoded])
    | ok rec =>
      refine .inr ⟨.publishSlot disk subject rec, ⟨rfl, bytes, rfl, decoded⟩, ?_⟩
      simp [onDecoded, decoded, acknowledged_snd, peer]
  | publishWitness bytes =>
    cases decoded : Witness.decode bytes with
    | error e => exact .inl (by simp [onDecoded, decoded])
    | ok w => exact .inr ⟨.publishWitness disk w,
      trivial, by simp [onDecoded, decoded, acknowledged_snd, peer]⟩
  | publishHandoff bytes =>
    cases decoded : SlotHandoff.decode bytes with
    | error e => exact .inl (by simp [onDecoded, decoded])
    | ok h =>
      refine .inr ⟨.publishHandoff disk h, ⟨bytes, rfl, decoded⟩, ?_⟩
      simp [onDecoded, decoded, acknowledged_snd, peer]
  | publishCheckpoint bytes =>
    cases decoded : Checkpoint.decode bytes with
    | error e => exact .inl (by simp [onDecoded, decoded])
    | ok c =>
      refine .inr ⟨.publishCheckpoint disk c, ⟨bytes, rfl, decoded⟩, ?_⟩
      simp [onDecoded, decoded, acknowledged_snd, peer]
  | takeLease addrs =>
    exact .inr ⟨.takeLease disk (holderId subject) addrs now, trivial,
      by simp [acknowledged_snd, peer, answered]⟩
  | releaseLease addrs =>
    exact .inr ⟨.releaseLease disk (holderId subject) addrs now, trivial,
      by simp [acknowledged_snd, peer]⟩
  | publishDeleteRequest bytes =>
    dsimp only
    split
    · exact .inl rfl
    cases decoded : DeleteRequest.decode bytes with
    | error e => exact .inl (by simp [onDecoded])
    | ok r =>
      refine .inr ⟨.publishDeleteRequest disk r, trivial, ?_⟩
      simp only [onDecoded, peer, answered]
      split <;> simp_all
  | publishDeleteApproval bytes =>
    cases decoded : DeleteApproval.decode bytes with
    | error e => exact .inl (by simp [onDecoded, decoded])
    | ok a =>
      exact .inr ⟨.publishDeleteApproval disk a,
        trivial, by simp [onDecoded, decoded, acknowledged_snd, peer]⟩
  | executeDelete bytes =>
    cases decoded : DeleteExecution.decode bytes with
    | error e => exact .inl (by simp [onDecoded, decoded])
    | ok e =>
      refine .inr ⟨.executeDelete disk e now, trivial, ?_⟩
      simp only [onDecoded, decoded, peer, answered]
      split <;> simp_all
  | forgetRetention addrs proof =>
    cases decoded : DeleteExecution.decode proof with
    | error e => exact .inl (by simp [onDecoded, decoded])
    | ok e =>
      exact .inr ⟨.forgetRetention disk addrs e,
        trivial, by simp [onDecoded, decoded, acknowledged_snd, peer]⟩
  -- Everything else only reads.
  | hasBlob | slotHead | slotHistory | witnesses | handoffs | checkpoints | leases | sweepWarnings
  | deleteRequestRecord | deleteApprovals => exact .inl rfl

/-- Everything a request can do to the slots of an honest peer. -/
theorem visit_slots (honest : p.hostility = .honest) (v : Visit) :
    SlotsKept p (p.visit v) ∨
      (∃ bytes rec, v.req = .publishSlot bytes ∧ SlotRecord.decode bytes = .ok rec ∧
        p.admitSlot v.subject rec = .ok () ∧ p.checkNext rec = .ok () ∧
          p.visit v = p.fileSlot rec) ∨
      (∃ bytes h, v.req = .publishHandoff bytes ∧ SlotHandoff.decode bytes = .ok h ∧
        h.verify = .ok () ∧ p.visit v = p.fileHandoff h) ∨
      ∃ bytes c, v.req = .publishCheckpoint bytes ∧ Checkpoint.decode bytes = .ok c ∧
        p.admitsCheckpoint c ∧ p.visit v = p.fileCheckpoint c := by
  -- A visit carries at most one operation of the peer, and that one decides.
  rcases visit_cases (p := p) v with same | ⟨op, carried, stepped⟩
  · exact .inl (slotsKept_of_eq same rfl rfl rfl rfl rfl rfl)
  rw [stepped]
  rcases step_slots honest op with kept | ⟨rec, disk, subject, rfl, admitted, next, _, filed⟩ |
    ⟨h, disk, rfl, verified, _, filed⟩ | ⟨c, disk, rfl, admitted, filed⟩
  · exact .inl kept
  · obtain ⟨rfl, bytes, is, decoded⟩ := carried
    exact .inr (.inl ⟨bytes, rec, is, decoded, admitted, next, congrArg Prod.snd filed⟩)
  · obtain ⟨bytes, is, decoded⟩ := carried
    exact .inr (.inr (.inl ⟨bytes, h, is, decoded, verified, filed⟩))
  · obtain ⟨bytes, is, decoded⟩ := carried
    exact .inr (.inr (.inr ⟨bytes, c, is, decoded, admitted, filed⟩))

end Peer

end NasTools
