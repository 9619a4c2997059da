import NasTools.Lib.Machine
import NasTools.Proofs.Failures
import NasTools.Proofs.Retention

/-! Retained blobs survive every run, and the floor shrinks only by a forget that succeeds. -/

namespace NasTools

section

variable [Crypto]

namespace Peer

variable {p : Peer}

/-- What one operation owes to the floor. -/
structure Honours (p : Peer) (op : PeerOp) : Prop where
  -- A blob that is and stays retained is still here, with its bytes.
  blobs : ∀ a ∈ p.retention, a ∈ (peer.step p op).2.retention → KeptBlob p (peer.step p op).2 a
  -- An address leaves the floor only by a forget that succeeds.
  floor : ∀ a ∈ p.retention, a ∉ (peer.step p op).2.retention →
    (peer.step p op).1 = .ok () ∧ ∃ disk addrs proof, op = .forgetRetention disk addrs proof
  -- A floor is replaced only by one that covers it.
  superset : ∀ disk proposed, op = .publishRetention disk proposed → (peer.step p op).1 = .ok () →
    p.Covers proposed

/-- A forget that passes every check and names a retained address, but cannot be written. -/
def ForgetsInVain (p : Peer) (op : PeerOp) : Prop :=
  ∃ disk addrs proof, op = .forgetRetention disk addrs proof ∧ disk.isOk = false ∧ p.Proves proof ∧
    ∃ a ∈ addrs, a ∈ p.retention

/-- No operation of an honest peer loses a retained blob. -/
theorem step_keptBlob (honest : p.hostility = .honest) (op : PeerOp) {a : Addr}
    (retained : a ∈ p.retention) :
    KeptBlob p (peer.step p op).2 a := by
  -- Only four operations write blobs, and each keeps what is retained.
  by_cases writes : op.part = .blobs
  · cases op with
    | putBlob disk now data => exact putBlob_kept disk now data a
    | prove disk now addr nonce => exact prove_kept disk now addr nonce a
    | deleteBlob disk addr => exact deleteBlob_kept honest disk addr (.inl retained)
    | sweep disk holders policy now dryRun =>
      exact sweep_kept honest disk holders policy now dryRun (.inl retained)
    | _ => cases writes
  · exact keptBlob_of_blobs ((step_onlyIn op).blobs writes) a

/-- One operation honours the floor exactly when it is no forget in vain. -/
theorem honours_iff (honest : p.hostility = .honest) (op : PeerOp) :
    p.Honours op ↔ ¬p.ForgetsInVain op := by
  -- One kind of operation after the other.
  constructor
  · rintro honours ⟨disk, addrs, proof, rfl, failed, proves, a, listed, retained⟩
    -- The address is gone from memory, and the answer is an error.
    rcases forgetRetention_exact (p := p) disk addrs proof with ⟨refused, _⟩ | ⟨_, removed⟩
    · exact refused proves
    have stepped : peer.step p (.forgetRetention disk addrs proof) = (disk.mapError .io,
        { p with retention := addrs.foldl (fun floor a => floor.erase a) p.retention }) := removed
    have dropped : a ∉ (peer.step p (.forgetRetention disk addrs proof)).2.retention := by
      rw [stepped]
      intro held
      exact (OrdSet.mem_eraseAll.mp held).2 listed
    have succeeded := (honours.floor a retained dropped).1
    rw [stepped] at succeeded
    cases disk with
    | ok u => cases failed
    | error e => cases succeeded
  · intro careful
    refine ⟨fun a retained _ => step_keptBlob honest op retained, ?_, ?_⟩
    · intro a retained dropped
      obtain ⟨disk, addrs, proof, rfl, _⟩ := forgotten_of_dropped honest retained dropped
      refine ⟨?_, disk, addrs, proof, rfl⟩
      rcases forgetRetention_exact (p := p) disk addrs proof with ⟨_, e, same⟩ | ⟨proves, removed⟩
      · have kept : (peer.step p (.forgetRetention disk addrs proof)).2 = p :=
          congrArg Prod.snd same
        rw [kept] at dropped
        exact absurd retained dropped
      · have stepped : peer.step p (.forgetRetention disk addrs proof) = (disk.mapError .io,
            { p with retention := addrs.foldl (fun floor a => floor.erase a) p.retention }) :=
            removed
        cases disk with
        | ok u => exact congrArg Prod.fst stepped
        | error e =>
          -- Only a listed address leaves, and then the forget was made in vain.
          have listed : a ∈ addrs := by
            by_contra unlisted
            rw [stepped] at dropped
            exact dropped (OrdSet.mem_eraseAll.mpr ⟨retained, unlisted⟩)
          exact absurd ⟨_, addrs, proof, rfl, rfl, proves, a, listed, retained⟩ careful
    · rintro disk proposed rfl succeeded
      rcases publishRetention_spec (p := p) disk proposed with ⟨_, e, same⟩ | ⟨covers | ignores, _⟩
      · have refused : (peer.step p (.publishRetention disk proposed)).1 = .error e :=
          congrArg Prod.fst same
        rw [refused] at succeeded
        cases succeeded
      · exact covers
      · simp [honest, Hostility.honest] at ignores

/--
When retained data survives, over every run of an honest peer.

Every operation honours the floor exactly when none is a forget that passes its checks and then
cannot be written.
-/
theorem retained_data_survives_iff (start : Peer) (honest : start.hostility = .honest)
    (ops : List PeerOp) :
    peer.Permits Honours start ops ↔ peer.Permits (fun p op => ¬p.ForgetsInVain op) start ops :=
  Machine.permits_iff (P := fun p : Peer => p.hostility = .honest) honest
    (fun _ op honest _ => (step_onlyIn op).hostility.trans honest) fun _ op honest =>
      honours_iff honest op

end Peer

end

section

open Concrete

/-- A proof that is good for a shrink, presented while the disk is full. -/
def vainForget : PeerOp := .forgetRetention fullDisk [Digest.zero] (heldExecution 1 [heldApproval])

/-- The peer answers that it failed, and no longer retains the address. -/
theorem failed_forget_shrinks_the_floor :
    (∃ e, (peer.step (peer.run heldPeer heldTrail) vainForget).1 = .error e) ∧
      Digest.zero ∈ (peer.run heldPeer heldTrail).retention ∧
      Digest.zero ∉ (peer.step (peer.run heldPeer heldTrail) vainForget).2.retention ∧
      ¬peer.Permits Peer.Honours heldPeer (heldTrail ++ [vainForget]) := by
  -- The forget is evaluated: it fails, and the floor has shrunk.
  have evaluated : (peer.step (peer.run heldPeer heldTrail) vainForget).1.isOk = false ∧
      Digest.zero ∈ (peer.run heldPeer heldTrail).retention ∧
      Digest.zero ∉ (peer.step (peer.run heldPeer heldTrail) vainForget).2.retention := by
        decide +kernel
  obtain ⟨failed, held, dropped⟩ := evaluated
  refine ⟨Peer.isOk_false_iff.mp failed, held, dropped, ?_⟩
  intro honours
  have here := (Machine.permits_append.mp honours).2.1
  have succeeded := (here.floor _ held dropped).1
  rw [succeeded] at failed
  cases failed

/--
With a disk that takes the write, the same forget honours the floor, and so does the whole run.
-/
theorem written_forget_honours_the_floor :
    heldPeer.hostility = .honest ∧ Digest.zero ∉ (peer.run heldPeer (heldTrail ++
        [.forgetRetention (.ok ()) [Digest.zero] (heldExecution 1 [heldApproval])])).retention ∧
      peer.Permits Peer.Honours heldPeer (heldTrail ++
        [.forgetRetention (.ok ()) [Digest.zero] (heldExecution 1 [heldApproval])]) := by
  -- The condition is evaluated along the run.
  refine ⟨rfl, by decide +kernel, ?_⟩
  refine (Peer.retained_data_survives_iff heldPeer rfl _).mpr ⟨?_, ?_, ?_, ?_, trivial⟩
  -- The first three are no forgets, and the last one is written.
  all_goals
    rintro ⟨disk, addrs, proof, is, failed, _⟩
    cases is
  cases failed

end

end NasTools
