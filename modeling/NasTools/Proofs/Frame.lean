import NasTools.Model.Peer.Run

/-! The part of a peer each operation writes to, and all it leaves alone. -/

namespace NasTools

variable [Crypto]

/-- The parts of a peer that change while it runs. -/
inductive Part where
  | blobs
  | leases
  | retention
  | slots
  | handoffs
  | checkpoints
  | witnesses
  | deleteRequests
  | deleteApprovals
  | deleteExecutions
  | roster
  | acl
  | subjects
  | view
deriving DecidableEq

/-- The part an operation writes to. -/
def PeerOp.part : PeerOp → Part
  | .publishSlot .. => .slots
  | .publishHandoff .. => .handoffs
  | .publishCheckpoint .. => .checkpoints
  | .publishWitness .. => .witnesses
  | .publishDeleteRequest .. => .deleteRequests
  | .publishDeleteApproval .. => .deleteApprovals
  | .executeDelete .. => .deleteExecutions
  | .extendRetention .. | .publishRetention .. | .forgetRetention .. => .retention
  | .putBlob .. | .prove .. | .deleteBlob .. | .sweep .. => .blobs
  | .takeLease .. | .releaseLease .. => .leases
  | .addWriter .. => .roster
  | .setAcl .. => .acl
  | .bindSubject .. => .subjects
  | .setView .. => .view

/-- An honest peer opened on an empty directory, as its owner sets it up. -/
def Peer.opened (mode : Mode) (addressing : Addressing) (authority : Authority)
    (quorum : QuorumPolicy) (policy : GcPolicy) (witnessOnly : Bool) : Peer :=
  { Peer.new mode addressing .honest with
    deleteAuthority := authority, quorum, gcPolicy := policy, witnessOnly }

namespace Peer

variable {p : Peer}

/-- Two peers that differ in one part at most. -/
structure OnlyIn (part : Part) (p p' : Peer) : Prop where
  -- What a peer is told at the start never changes.
  mode : p'.mode = p.mode
  hostility : p'.hostility = p.hostility
  witnessOnly : p'.witnessOnly = p.witnessOnly
  gcPolicy : p'.gcPolicy = p.gcPolicy
  deleteAuthority : p'.deleteAuthority = p.deleteAuthority
  quorum : p'.quorum = p.quorum
  -- The rest changes only where the part says so.
  blobs : part ≠ .blobs → p'.blobs = p.blobs
  leases : part ≠ .leases → p'.leases = p.leases
  retention : part ≠ .retention → p'.retention = p.retention
  slots : part ≠ .slots → p'.slots = p.slots
  handoffs : part ≠ .handoffs → p'.handoffs = p.handoffs
  checkpoints : part ≠ .checkpoints → p'.checkpoints = p.checkpoints
  witnesses : part ≠ .witnesses → p'.witnesses = p.witnesses
  deleteRequests : part ≠ .deleteRequests → p'.deleteRequests = p.deleteRequests
  deleteApprovals : part ≠ .deleteApprovals → p'.deleteApprovals = p.deleteApprovals
  deleteExecutions : part ≠ .deleteExecutions → p'.deleteExecutions = p.deleteExecutions
  roster : part ≠ .roster → p'.roster = p.roster

/-- A peer differs from itself in no part. -/
theorem onlyIn_refl (part : Part) (p : Peer) : OnlyIn part p p := by
  constructor <;> intros <;> rfl

/-- Every operation keeps to its part. -/
theorem step_onlyIn (op : PeerOp) : OnlyIn op.part p (peer.step p op).2 := by
  -- Each frame lemma says which field was replaced; the others are then the same by definition.
  cases op with
  | publishSlot disk subject rec =>
    obtain ⟨_, _, same⟩ := publishSlot_frame (p := p) disk subject rec
    rw [show (peer.step p (.publishSlot disk subject rec)).2 = _ from same]
    constructor <;> intros <;> first | rfl | contradiction
  | publishHandoff disk h =>
    rcases publishHandoff_cases (p := p) disk h with same | ⟨_, _, filed⟩
    · rw [show (peer.step p (.publishHandoff disk h)).2 = p from same]
      exact onlyIn_refl _ p
    · rw [show (peer.step p (.publishHandoff disk h)).2 = _ from filed]
      constructor <;> intros <;> first | rfl | contradiction
  | publishCheckpoint disk c =>
    rcases publishCheckpoint_cases (p := p) disk c with same | ⟨_, filed⟩
    · rw [show (peer.step p (.publishCheckpoint disk c)).2 = p from same]
      exact onlyIn_refl _ p
    · rw [show (peer.step p (.publishCheckpoint disk c)).2 = _ from filed]
      constructor <;> intros <;> first | rfl | contradiction
  | publishWitness disk w =>
    obtain ⟨_, same⟩ := publishWitness_frame (p := p) disk w
    rw [show (peer.step p (.publishWitness disk w)).2 = _ from same]
    constructor <;> intros <;> first | rfl | contradiction
  | publishDeleteRequest disk r =>
    obtain ⟨_, same⟩ := publishDeleteRequest_frame (p := p) disk r
    rw [show (peer.step p (.publishDeleteRequest disk r)).2 = _ from same]
    constructor <;> intros <;> first | rfl | contradiction
  | publishDeleteApproval disk a =>
    obtain ⟨_, same⟩ := publishDeleteApproval_frame (p := p) disk a
    rw [show (peer.step p (.publishDeleteApproval disk a)).2 = _ from same]
    constructor <;> intros <;> first | rfl | contradiction
  | executeDelete disk e now =>
    obtain ⟨_, same⟩ := executeDelete_frame (p := p) disk e now
    rw [show (peer.step p (.executeDelete disk e now)).2 = _ from same]
    constructor <;> intros <;> first | rfl | contradiction
  | publishRetention disk proposed =>
    obtain ⟨_, same⟩ := publishRetention_frame (p := p) disk proposed
    rw [show (peer.step p (.publishRetention disk proposed)).2 = _ from same]
    constructor <;> intros <;> first | rfl | contradiction
  | forgetRetention disk addrs proof =>
    obtain ⟨_, same⟩ := forgetRetention_frame (p := p) disk addrs proof
    rw [show (peer.step p (.forgetRetention disk addrs proof)).2 = _ from same]
    constructor <;> intros <;> first | rfl | contradiction
  | deleteBlob disk addr =>
    obtain ⟨_, same⟩ := deleteBlob_frame (p := p) disk addr
    rw [show (peer.step p (.deleteBlob disk addr)).2 = _ from same]
    constructor <;> intros <;> first | rfl | contradiction
  | sweep disk holders policy now dryRun =>
    obtain ⟨_, same⟩ := sweep_frame (p := p) disk holders policy now dryRun
    rw [show (peer.step p (.sweep disk holders policy now dryRun)).2 = _ from same]
    constructor <;> intros <;> first | rfl | contradiction
  | takeLease disk holder addrs now =>
    obtain ⟨_, same⟩ := takeLease_frame (p := p) disk holder addrs now
    rw [show (peer.step p (.takeLease disk holder addrs now)).2 = _ from same]
    constructor <;> intros <;> first | rfl | contradiction
  | releaseLease disk holder addrs now =>
    obtain ⟨_, same⟩ := releaseLease_frame (p := p) disk holder addrs now
    rw [show (peer.step p (.releaseLease disk holder addrs now)).2 = _ from same]
    constructor <;> intros <;> first | rfl | contradiction
  | addWriter key =>
    cases added : p.roster.add key with
    | error e =>
      have same : (peer.step p (.addWriter key)).2 = p := by simp [peer, added]
      rw [same]
      exact onlyIn_refl _ p
    | ok roster =>
      have grown : (peer.step p (.addWriter key)).2 = { p with roster } := by simp [peer, added]
      rw [grown]
      constructor <;> intros <;> first | rfl | contradiction
  | extendRetention | putBlob | prove | setAcl | bindSubject | setView =>
    constructor <;> intros <;> first | rfl | contradiction

end Peer

end NasTools
