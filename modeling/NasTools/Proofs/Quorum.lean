import NasTools.Lib.Quorums
import NasTools.Proofs.Trail

/-! The verdict on an execution: it is a quorum of distinct holders, and what a retry meets. -/

namespace NasTools

/-- The executions of a history that are younger than a window. -/
def recentVolume (recent : List Timestamp) (window : UInt64) (now : Timestamp) : Nat :=
  recent.countP fun at_ => now.toNat - at_.toNat < window.toNat

/-- The approvals that a request needs: the quorum of its scope, raised after much recent volume. -/
def needed (request : DeleteRequest) (recent : List Timestamp) (policy : QuorumPolicy)
    (now : Timestamp) : Nat :=
  Quorums.raised (policy.base request.scope) policy.rolling.escalateTo policy.rolling.objects
    (recentVolume recent policy.rolling.window now)

/-- An instant lies in the window exactly when fewer seconds than it spans have passed. -/
theorem saturatingSince_lt_iff {now at_ : Timestamp} {window : UInt64} :
    now.saturatingSince at_ < window ↔ now.toNat - at_.toNat < window.toNat := by
  rw [UInt64.lt_iff_toNat_lt, Timestamp.saturatingSince, toNat_satSub]

/-- What is owed is what the request needs. -/
theorem owed_eq_needed (request : DeleteRequest) (recent : List Timestamp) (policy : QuorumPolicy)
    (now : Timestamp) : (owed request recent policy now).1 = needed request recent policy now := by
  simp only [owed, needed, Quorums.raised, recentVolume, List.countP_eq_length_filter,
    saturatingSince_lt_iff, decide_eq_true_eq]

/-- A longer history never lowers what is needed. -/
theorem needed_mono {request : DeleteRequest} {recent more : List Timestamp} {policy : QuorumPolicy}
    {now : Timestamp} (grows : recent.Subperm more) :
    needed request recent policy now ≤ needed request more policy now :=
  Quorums.raised_mono (grows.countP_le _)

section

variable [Crypto] {request : DeleteRequest} {e : DeleteExecution} {recent : List Timestamp}
  {policy : QuorumPolicy} {authority : Authority} {now : Timestamp}

/-- The distinct holders who approved. -/
def holdersOf (e : DeleteExecution) : Finset Digest :=
  Quorums.voters DeleteApproval.approverId e.approvals

/--
An execution with a quorum: signed records of one request, and enough distinct holders behind it.
-/
structure Quorum (request : DeleteRequest) (e : DeleteExecution) (recent : List Timestamp)
    (policy : QuorumPolicy) (authority : Authority) (now : Timestamp) : Prop where
  asked : request.verify = .ok ()
  signed : e.verify = .ok ()
  named : e.requestHash = request.requestHash
  appointed : ∃ id, authority.contains id = true
  carried : Quorums.Carried (Counts request authority) DeleteApproval.approverId
    (needed request recent policy now) e.approvals

/-- The number of approvers is that of the distinct holders. -/
theorem size_approverIds (e : DeleteExecution) : (approverIds e).size = (holdersOf e).card := by
  have counted := OrdSet.size_insertAll (e.approvals.map DeleteApproval.approverId)
  rwa [List.foldl_map] at counted

/-- The verdict in full: a quorum, and the two numbers it reports. -/
theorem decideDelete_execute_iff {required distinct : Nat} :
    decideDelete request e recent policy authority now = .execute required distinct ↔
      Quorum request e recent policy authority now ∧ required = needed request recent policy now ∧
        distinct = (holdersOf e).card := by
  -- The three counts are the needed and the distinct, as sets.
  rw [decideDelete_eq_execute, approvers_eq_ok, owed_eq_needed, size_approverIds]
  constructor
  · -- The parts that were checked are those a quorum consists of.
    intro through
    obtain ⟨⟨asked, signed, named, appointed, good, _⟩, enough, rfl, rfl⟩ := through
    exact ⟨⟨asked, signed, named, appointed, good, enough⟩, rfl, rfl⟩
  · intro quorum
    obtain ⟨⟨asked, signed, named, appointed, carried⟩, rfl, rfl⟩ := quorum
    exact ⟨⟨asked, signed, named, appointed, carried.good, rfl⟩, carried.enough, rfl, rfl⟩

/-- Approvals may come in any order and any number of times. -/
theorem quorum_congr {approvals : List DeleteApproval}
    (same : ∀ a, a ∈ approvals ↔ a ∈ e.approvals) :
    Quorum request { e with approvals } recent policy authority now ↔
      Quorum request e recent policy authority now := by
  -- The executor signs the hash of the request, and no approval.
  have signed : DeleteExecution.verify { e with approvals } = .ok () ↔ e.verify = .ok () := by
    simp only [DeleteExecution.verify, DeleteExecution.checkApproval, except_bind_eq_ok,
      forM_eq_ok, same]
  have carried : Quorums.Carried (Counts request authority) DeleteApproval.approverId
        (needed request recent policy now) approvals ↔
      Quorums.Carried (Counts request authority) DeleteApproval.approverId
        (needed request recent policy now) e.approvals := Quorums.carried_congr same
  constructor
  · intro quorum
    exact ⟨quorum.asked, signed.mp quorum.signed, quorum.named, quorum.appointed,
      carried.mp quorum.carried⟩
  · intro quorum
    exact ⟨quorum.asked, signed.mpr quorum.signed, quorum.named, quorum.appointed,
      carried.mpr quorum.carried⟩

/-- With less behind it, a quorum is reached more easily. -/
theorem Quorum.of_shorter {more : List Timestamp}
    (quorum : Quorum request e more policy authority now) (shorter : recent.Subperm more) :
    Quorum request e recent policy authority now :=
  ⟨quorum.asked, quorum.signed, quorum.named, quorum.appointed,
    quorum.carried.fewer (needed_mono shorter)⟩

/--
The verdict is a quorum: signed records of one request, and enough distinct holders
of the authority.

So it does not depend on the order of the approvals nor on how often one is carried, and a longer
history never turns a refusal into an execution.
-/
theorem decide_is_a_quorum (request : DeleteRequest) (e : DeleteExecution) (recent : List Timestamp)
    (policy : QuorumPolicy) (authority : Authority) (now : Timestamp) :
    ((∃ required distinct, decideDelete request e recent policy authority now =
      .execute required distinct) ↔
      Quorum request e recent policy authority now) ∧
    (∀ approvals, (∀ a, a ∈ approvals ↔ a ∈ e.approvals) → ∀ required distinct,
      decideDelete request { e with approvals } recent policy authority now =
        .execute required distinct ↔
        decideDelete request e recent policy authority now = .execute required distinct) ∧
    ∀ more, recent.Subperm more →
      (∃ required distinct, decideDelete request e more policy authority now =
        .execute required distinct) →
        ∃ required distinct, decideDelete request e recent policy authority now =
          .execute required distinct := by
  -- Whatever the history, the two numbers of the verdict are there as soon as there is a quorum.
  have whole (recent : List Timestamp) :
      (∃ required distinct, decideDelete request e recent policy authority now =
        .execute required distinct) ↔
        Quorum request e recent policy authority now := by
    constructor
    · intro executes
      obtain ⟨_, _, decided⟩ := executes
      exact (decideDelete_execute_iff.mp decided).1
    · intro quorum
      exact ⟨_, _, decideDelete_execute_iff.mpr ⟨quorum, rfl, rfl⟩⟩
  refine ⟨whole recent, ?_, ?_⟩
  · -- The same approvals have the same signers, so both numbers stay as they are.
    intro approvals same required distinct
    have holders : holdersOf { e with approvals } = holdersOf e := Quorums.voters_congr same
    rw [decideDelete_execute_iff, decideDelete_execute_iff, quorum_congr same, holders]
  · intro more longer executes
    exact (whole recent).mpr (((whole more).mp executes).of_shorter longer)

namespace Peer

variable {p : Peer} {disk : Disk}

/-- The peer lets an execution through. -/
def Allows (p : Peer) (disk : Disk) (e : DeleteExecution) (now : Timestamp) : Prop :=
  ∃ required distinct, (p.executeDelete disk e now).1 = .ok (.execute required distinct)

/-- An execution has a quorum for a request of the trail. -/
def HasQuorum (p : Peer) (e : DeleteExecution) (now : Timestamp) : Prop :=
  ∃ request, p.deleteRequests[e.requestHash]? = some request ∧
    Quorum request e p.executed p.quorum p.deleteAuthority now

/-- What is let through has a quorum. -/
theorem Allows.hasQuorum (allowed : p.Allows disk e now) : p.HasQuorum e now := by
  -- The three checks have passed.
  obtain ⟨required, distinct, answered⟩ := allowed
  unfold executeDelete at answered
  -- Only the branch after the three checks answers with a verdict of that kind.
  split at answered
  · cases answered
  split at answered
  · cases answered
  rename_i request requested
  split at answered
  · cases answered
  rename_i decided
  exact ⟨request, requested, (decideDelete_execute_iff.mp decided).1⟩

/-- What is in the trail already is let through again exactly when it has a quorum now. -/
theorem allows_iff_of_recorded (recorded : p.deleteExecutions.contains e.requestHash = true) :
    p.Allows disk e now ↔ p.HasQuorum e now := by
  -- The record is there, so the verdict is that of the checks.
  constructor
  · exact Allows.hasQuorum
  · intro quorate
    obtain ⟨request, requested, quorum⟩ := quorate
    have decided := decideDelete_execute_iff.mpr ⟨quorum, rfl, rfl⟩
    -- Nothing is written a second time, so no disk can fail.
    refine ⟨needed request p.executed p.quorum now, (holdersOf e).card, ?_⟩
    simp [executeDelete, quorum.signed, requested, decided, recorded]

/-- The executions of the trail but the one under a request, that are younger than the window. -/
def otherVolume (p : Peer) (request : Digest) (now : Timestamp) : Nat :=
  recentVolume ((OrdMap.listed (p.deleteExecutions.erase request)).map Prod.snd)
    p.quorum.rolling.window now

/-- The recent executions of a trail are the others, and the one under a request if it is recent. -/
theorem recentVolume_executed {h : Digest} {at_ : Timestamp}
    (held : p.deleteExecutions[h]? = some (e, at_)) :
    recentVolume p.executed p.quorum.rolling.window now = p.otherVolume h now +
      if now.toNat - at_.toNat < p.quorum.rolling.window.toNat then 1 else 0 := by
  -- The trail is what is left without the entry, with the entry filed again.
  have refiled : (p.deleteExecutions.erase h).insert h (e, at_) = p.deleteExecutions := by
    apply Std.ExtTreeMap.ext_getElem?
    intro k
    rw [Std.ExtTreeMap.getElem?_insert, Std.ExtTreeMap.getElem?_erase]
    by_cases same : h = k
    · subst same
      simp [held]
    · simp [same]
  -- So its listing is the other entries with this one somewhere among them, and
  -- counting is blind to where.
  have listed := OrdMap.listed_insert_perm (m := p.deleteExecutions.erase h) (e, at_)
    Std.ExtTreeMap.getElem?_erase_self
  rw [refiled] at listed
  rw [executed, otherVolume, recentVolume, recentVolume, (listed.map Prod.snd).countP_eq,
    List.map_cons, List.countP_cons]
  simp only [decide_eq_true_eq]

/-- An execution changes nothing in the trail but what stands under its request. -/
theorem executeDelete_erase (disk : Disk) (e : DeleteExecution) (now : Timestamp) :
    (p.executeDelete disk e now).2.deleteExecutions.erase e.requestHash =
      p.deleteExecutions.erase e.requestHash := by
  -- Either nothing is recorded, or one entry is.
  rcases executeDelete_cases (p := p) disk e now with same | ⟨_, _, added⟩
  · rw [same]
  · -- The entry is the only one that differs, and it is the one left out.
    rw [added]
    apply Std.ExtTreeMap.ext_getElem?
    intro k
    simp only [Std.ExtTreeMap.getElem?_erase, Std.ExtTreeMap.getElem?_insert]
    split <;> rfl

/--
A retry is let through exactly while the other recent executions, and its own entry,
are below the limit.

Its own entry counts as long as it is younger than the window, so an execution that filled the trail
up to the limit is refused when it is sent again, unless it carries the raised quorum anyway.
-/
theorem retry_is_allowed_iff {disk disk' : Disk} {e : DeleteExecution} {now later at_ : Timestamp}
    (more : List PeerOp) (first : p.Allows disk e now)
    (recorded : (p.executeDelete disk e now).2.deleteExecutions[e.requestHash]? = some (e, at_))
    (quiet : (peer.run (p.executeDelete disk e now).2 more).deleteExecutions =
      (p.executeDelete disk e now).2.deleteExecutions) :
    (peer.run (p.executeDelete disk e now).2 more).Allows disk' e later ↔
      (p.otherVolume e.requestHash later +
          (if later.toNat - at_.toNat < p.quorum.rolling.window.toNat then 1 else 0) <
            p.quorum.rolling.objects ∨
        p.quorum.rolling.escalateTo ≤ (holdersOf e).card) := by
  -- The quorum was reached before, and what is left is the limit.
  obtain ⟨request, requested, quorum⟩ := first.hasQuorum
  -- In between the trail only grew, and its executions are the same.
  have grown : TrailGrows p (peer.run (p.executeDelete disk e now).2 more) :=
    run_trailGrows (.executeDelete disk e now :: more)
  have others : (peer.run (p.executeDelete disk e now).2 more).otherVolume e.requestHash later =
      p.otherVolume e.requestHash later := by
    rw [otherVolume, otherVolume, quiet, executeDelete_erase, grown.quorum]
  generalize peer.run (p.executeDelete disk e now).2 more = q at quiet grown others ⊢
  have held : q.deleteExecutions[e.requestHash]? = some (e, at_) := by
    rw [quiet]
    exact recorded
  have listed : q.deleteExecutions.contains e.requestHash = true := by
    simp [Std.ExtTreeMap.contains_eq_isSome_getElem?, held]
  -- The scope's own quorum was reached the first time, so only the raised one can fail.
  have base : q.quorum.base request.scope ≤ (holdersOf e).card := by
    rw [grown.quorum]
    exact Nat.le_trans Quorums.base_le_raised quorum.carried.enough
  rw [allows_iff_of_recorded listed, ← others, ← grown.quorum, ← recentVolume_executed held]
  constructor
  · intro again
    obtain ⟨found, requestedNow, now_⟩ := again
    exact (Quorums.raised_le_iff.mp now_.carried.enough).2
  · -- The records and the authority are those of the first time, so they pass again.
    intro room
    refine ⟨request, grown.requests _ _ requested, quorum.asked, quorum.signed,
      quorum.named, ?_, ?_, ?_⟩
    · rw [grown.authority]
      exact quorum.appointed
    · rw [grown.authority]
      exact quorum.carried.good
    · exact Quorums.raised_le_iff.mpr ⟨base, room⟩

/--
In every run from a start, whoever repeats a recorded execution within the window is
let through again.
-/
def RetriesAreAllowed (start : Peer) : Prop :=
  ∀ (ops more : List PeerOp) (disk disk' : Disk) (e : DeleteExecution) (now later : Timestamp),
    let p := peer.run start ops
    let q := (p.executeDelete disk e now).2
    p.Allows disk e now → q.deleteExecutions[e.requestHash]? = some (e, now) →
      (peer.run q more).deleteExecutions = q.deleteExecutions →
      later.toNat ≤ now.toNat + p.quorum.rolling.window.toNat →
        (peer.run q more).Allows disk' e later

end Peer

end

section

open Concrete

/--
A peer that answers to one approver, and asks for three once a deletion was executed
in the last month.
-/
def strictPeer : Peer :=
  .entrusted .e2ee .content .honest (Authority.empty.add (identity 2).verifyingKey)
    { QuorumPolicy.default with rolling := ⟨30 * 86400, 1, 3⟩ }

/-- The execution that fills the trail is counted against itself when it is sent again. -/
theorem full_trail_refuses_the_retry : ¬strictPeer.RetriesAreAllowed := by
  -- Suppose the retry were let through.
  intro allowed
  -- One approval was enough the first time, and three are asked for a second later.
  have first :
    ((peer.run strictPeer [.publishDeleteRequest (.ok ()) heldRequest]).executeDelete (.ok ())
        (heldExecution 1 [heldApproval]) 5).1 = .ok (.execute 1 1) ∧
      ((peer.run strictPeer [.publishDeleteRequest (.ok ()) heldRequest]).executeDelete (.ok ())
        (heldExecution 1 [heldApproval])
          5).2.deleteExecutions[(heldExecution 1 [heldApproval]).requestHash]? =
          some (heldExecution 1 [heldApproval], 5) := by
    decide +kernel
  have second :
    (((peer.run strictPeer [.publishDeleteRequest (.ok ()) heldRequest]).executeDelete (.ok ())
        (heldExecution 1 [heldApproval]) 5).2.executeDelete (.ok ())
          (heldExecution 1 [heldApproval]) 6).1 =
      .ok (.refused (.shortOfQuorum 3 1 true)) := by
    decide +kernel
  obtain ⟨required, distinct, again⟩ :=
    allowed [.publishDeleteRequest (.ok ()) heldRequest] [] (.ok ()) (.ok ())
    (heldExecution 1 [heldApproval]) 5 6 ⟨1, 1, first.1⟩ first.2 (by rw [Machine.run_nil])
      (by decide +kernel)
  rw [Machine.run_nil, second] at again
  cases again

/-- Under the default policy the first execution of a month is let through again. -/
theorem first_execution_is_retried :
    (peer.run ((peer.run heldPeer [.publishDeleteRequest (.ok ()) heldRequest]).executeDelete
      (.ok ()) (heldExecution 1 [heldApproval]) 5).2 []).Allows (.ok ())
        (heldExecution 1 [heldApproval]) 6 := by
  -- The first execution is evaluated, and the theorem allows the second.
  have first :
    ((peer.run heldPeer [.publishDeleteRequest (.ok ()) heldRequest]).executeDelete (.ok ())
        (heldExecution 1 [heldApproval]) 5).1 = .ok (.execute 1 1) ∧
      ((peer.run heldPeer [.publishDeleteRequest (.ok ()) heldRequest]).executeDelete (.ok ())
        (heldExecution 1 [heldApproval])
          5).2.deleteExecutions[(heldExecution 1 [heldApproval]).requestHash]? =
          some (heldExecution 1 [heldApproval], 5) := by
    decide +kernel
  exact (Peer.retry_is_allowed_iff [] ⟨1, 1, first.1⟩ first.2 (by rw [Machine.run_nil])).mpr
    (.inl (by decide +kernel))

end

end NasTools
