import NasTools.Model.Crypto.Concrete
import NasTools.Proofs.Holdings
import NasTools.Proofs.Publishing

/-! Operations that fail: which of them leave the peer as it was, and which do not. -/

namespace NasTools

section

variable [Crypto]

/-- The operations that write to what a peer keeps in memory. -/
def PeerOp.mutates : PeerOp → Bool
  | .publishSlot .. | .publishWitness .. | .publishHandoff .. | .publishCheckpoint .. => true
  | .publishDeleteRequest .. | .publishDeleteApproval .. | .executeDelete .. => true
  | .takeLease .. | .releaseLease .. => true
  | .extendRetention .. | .publishRetention .. | .forgetRetention .. => true
  | _ => false

namespace Peer

variable {p : Peer}

/-- A failed operation leaves the peer as it was. -/
def KeepsOnFailure (p : Peer) (op : PeerOp) : Prop :=
  op.mutates = true → ∀ e, (peer.step p op).1 = .error e → (peer.step p op).2 = p

/-- The second branch of a forking peer takes a record as its next. -/
def forkTakes (p : Peer) (rec : SlotRecord) : Prop :=
  match (p.seededFork rec).lastKey? with
  -- A branch that is empty takes the genesis record.
  | none => rec.seq = 0
  | some head => rec.seq = head + 1 ∧
    some rec.prev = ((p.seededFork rec)[head]?).map SlotRecord.recordHash

/--
An operation that changes the peer before it is known whether it succeeds, and then fails.

Five operations write to memory first and to disk after. A peer told to fork also seeds its second
branch before it looks at what is offered for it.
-/
def Tears (p : Peer) : PeerOp → Prop
  | .takeLease disk holder addrs now =>
    disk.isOk = false ∧ p.Grants holder addrs ∧
      p.leases[holder]? ≠ some (p.wouldLease holder addrs, now)
  | .releaseLease disk holder addrs now =>
    disk.isOk = false ∧ ∃ set seen, p.leases[holder]? = some (set, seen) ∧
      (seen ≠ now ∨ ∃ a ∈ addrs, a ∈ set)
  | .extendRetention disk addrs => disk.isOk = false ∧ ∃ a ∈ addrs, a ∉ p.retention
  | .publishRetention disk proposed =>
    disk.isOk = false ∧ (p.Covers proposed ∨ p.hostility.ignoreRetention = true) ∧
      ¬∀ a, a ∈ p.retention ↔ a ∈ proposed
  | .forgetRetention disk addrs proof =>
    disk.isOk = false ∧ p.Proves proof ∧ ∃ a ∈ addrs, a ∈ p.retention
  | .publishSlot _ subject rec =>
    (p.hostility.fork = true ∧ p.view ≠ 0) ∧ p.admitSlot subject rec = .ok () ∧ ¬p.forkTakes rec ∧
      p.forks[rec.slotId]? ≠ some (p.seededFork rec)
  | _ => False

omit [Crypto] in
/-- A write that fails, and the answer that reports it. -/
theorem isOk_false_iff {A : Type} {x : Except PeerError A} :
    x.isOk = false ↔ ∃ e, x = .error e := by
  cases x <;> simp [Except.isOk, Except.toBool]

omit [Crypto] in
/-- Renaming an error makes it no success. -/
theorem mapError_isOk (disk : Disk) : (disk.mapError PeerError.io).isOk = disk.isOk := by
  cases disk <;> rfl

/--
An answer that is an error exactly when the write failed, over a peer that changed or did not.
-/
theorem keeps_iff_of_torn {p' : Peer} {answer : Except PeerError Unit} {disk : Disk}
    {changed : Prop} (fails : answer.isOk = disk.isOk) (differs : p' ≠ p ↔ changed) :
    (∀ e, answer = .error e → p' = p) ↔ ¬(disk.isOk = false ∧ changed) := by
  -- The write failed or it did not.
  rw [← differs]
  constructor
  · rintro keeps ⟨failed, other⟩
    -- The write failed, so the answer is an error, over a peer that has changed.
    obtain ⟨e, is⟩ := isOk_false_iff.mp (fails.trans failed)
    exact other (keeps e is)
  · intro untorn e is
    by_contra other
    refine untorn ⟨?_, other⟩
    rw [← fails, is]
    rfl

section

variable {disk : Disk} {e : PeerError}

-- The other operations write to disk first, and to memory only when that succeeded.

/-- A handoff that fails leaves the peer as it was. -/
theorem publishHandoff_failed {h : SlotHandoff} (failed : (p.publishHandoff disk h).1 = .error e) :
    (p.publishHandoff disk h).2 = p :=
  (publishHandoff_outcome disk h).failed failed

/-- A checkpoint that fails leaves the peer as it was. -/
theorem publishCheckpoint_failed {c : Checkpoint}
    (failed : (p.publishCheckpoint disk c).1 = .error e) :
    (p.publishCheckpoint disk c).2 = p :=
  (publishCheckpoint_outcome disk c).failed failed

/-- A witness that fails leaves the peer as it was. -/
theorem publishWitness_failed {w : Witness} (failed : (p.publishWitness disk w).1 = .error e) :
    (p.publishWitness disk w).2 = p := by
  rcases publishWitness_cases (p := p) disk w with ⟨_, _, refused⟩ | ⟨_, filed⟩
  · rw [refused]
  · rw [filed] at failed
    cases failed

/-- A deletion request that fails leaves the peer as it was. -/
theorem publishDeleteRequest_failed {r : DeleteRequest}
    (failed : (p.publishDeleteRequest disk r).1 = .error e) :
    (p.publishDeleteRequest disk r).2 = p :=
  (publishDeleteRequest_outcome disk r).failed failed

/-- An approval that fails leaves the peer as it was. -/
theorem publishDeleteApproval_failed {a : DeleteApproval}
    (failed : (p.publishDeleteApproval disk a).1 = .error e) :
    (p.publishDeleteApproval disk a).2 = p :=
  (publishDeleteApproval_outcome disk a).failed failed

/-- An execution that fails leaves the peer as it was. -/
theorem executeDelete_failed {x : DeleteExecution} {now : Timestamp}
    (failed : (p.executeDelete disk x now).1 = .error e) :
    (p.executeDelete disk x now).2 = p := by
  -- Of the ways out only the last changes the peer, and it succeeds.
  rcases executeDelete_outcome (p := p) disk x now with ⟨_, is⟩ | ⟨_, is⟩ | ⟨_, _, is, _⟩ |
    ⟨_, _, is, _⟩
  · rw [is]
  · rw [is]
  · rw [is]
  · rw [is] at failed
    cases failed

end

/-- A record offered for the second branch leaves that branch seeded, taken or not. -/
theorem publishOnFork_cases (rec : SlotRecord) :
    (p.forkTakes rec ∧ (p.publishOnFork rec).1 = .ok ()) ∨
      (¬p.forkTakes rec ∧ ∃ e, p.publishOnFork rec =
        (.error e, { p with forks := p.forks.insert rec.slotId (p.seededFork rec) })) := by
  -- The record opens the fork or continues it, and otherwise the seeded fork is kept with the
  -- error.
  unfold publishOnFork forkTakes
  dsimp only
  cases (p.seededFork rec).lastKey? with
  | none =>
    by_cases first : rec.seq = 0
    · exact .inl ⟨first, by simp [first]⟩
    · exact .inr ⟨first, _, by rw [if_neg first]⟩
  | some head =>
    dsimp only
    by_cases next : rec.seq = head + 1
    · by_cases linked : some rec.prev = ((p.seededFork rec)[head]?).map SlotRecord.recordHash
      · exact .inl ⟨⟨next, linked⟩, by simp [next, linked]⟩
      · exact .inr ⟨fun takes => linked takes.2, .brokenChain rec.seq, by
          rw [if_neg (not_not.mpr next), if_pos linked]⟩
    · -- Out of turn, which is reported as a conflict.
      exact .inr ⟨fun takes => next takes.1, .casConflict head rec.seq, by rw [if_pos next]⟩

/--
A refused record changes nothing, unless it was offered to a second branch that had to be seeded.
-/
theorem publishSlot_keeps_iff (disk : Disk) (subject : String) (rec : SlotRecord) :
    (∀ e, (p.publishSlot disk subject rec).1 = .error e → (p.publishSlot disk subject rec).2 = p) ↔
      ¬p.Tears (.publishSlot disk subject rec) := by
  -- The record is taken through the ways out one by one.
  unfold publishSlot Tears
  cases admitted : p.admitSlot subject rec with
  -- A record that is not admitted is refused before anything is touched.
  | error why =>
    refine ⟨fun _ torn => ?_, fun _ _ _ => rfl⟩
    have passed := torn.2.1
    rw [admitted] at passed
    cases passed
  | ok u =>
    dsimp only
    by_cases forking : p.hostility.fork = true ∧ p.view ≠ 0
    · rw [if_pos forking]
      rcases publishOnFork_cases (p := p) rec with ⟨takes, taken⟩ | ⟨refuses, why, seeded⟩
      · exact ⟨fun _ torn => torn.2.2.1 takes,
          fun _ e failed => by rw [taken] at failed; cases failed⟩
      · -- The branch is seeded before the record is refused.
        rw [seeded]
        have differs : { p with forks := p.forks.insert rec.slotId (p.seededFork rec) } ≠ p ↔
            p.forks[rec.slotId]? ≠ some (p.seededFork rec) := by
          rw [← OrdMap.insert_ne_iff]
          exact not_congr ⟨fun same => congrArg Peer.forks same, fun same => by rw [same]⟩
        constructor
        · intro keeps torn
          exact differs.mpr torn.2.2.2 (keeps why rfl)
        · intro untorn e _
          by_contra other
          exact untorn ⟨forking, admitted, refuses, differs.mp other⟩
    · -- Elsewhere a record is filed only after it was written.
      rw [if_neg forking]
      refine ⟨fun _ torn => forking torn.1, fun _ e => ?_⟩
      split
      · intro failed
        cases failed
      split
      · exact fun _ => rfl
      split
      · exact fun _ => rfl
      · intro failed
        cases failed

/-- Changing one part of a peer changes the peer exactly when the part differs. -/
theorem leases_differ {leases : OrdMap Digest (OrdSet Addr × Timestamp)} :
    { p with leases } ≠ p ↔ leases ≠ p.leases :=
  not_congr ⟨fun same => congrArg Peer.leases same, fun same => by rw [same]⟩

/-- Changing the floor changes the peer exactly if it is another floor. -/
theorem retention_differs {retention : OrdSet Addr} :
    { p with retention } ≠ p ↔ retention ≠ p.retention :=
  not_congr ⟨fun same => congrArg Peer.retention same, fun same => by rw [same]⟩

/-- A failed lease changes nothing exactly if it does not tear. -/
theorem takeLease_keeps_iff (disk : Disk) (holder : Digest) (addrs : List Addr) (now : Timestamp) :
    p.KeepsOnFailure (.takeLease disk holder addrs now) ↔
      ¬p.Tears (.takeLease disk holder addrs now) := by
  -- A lease that is refused leaves everything as it was.
  rcases takeLease_cases (p := p) disk holder addrs now with ⟨refused, e, same⟩ |
    ⟨granted, taken, answer⟩
  · refine ⟨fun _ torn => refused torn.2.1, fun _ _ _ _ => ?_⟩
    exact congrArg Prod.snd same
  · -- The lease is in memory before the disk is asked.
    have stepped : (peer.step p (.takeLease disk holder addrs now)).2 =
      p.leased holder addrs now := taken
    have differs : p.leased holder addrs now ≠ p ↔
        p.Grants holder addrs ∧ p.leases[holder]? ≠ some (p.wouldLease holder addrs, now) := by
      rw [leased, leases_differ, OrdMap.insert_ne_iff]
      exact ⟨fun other => ⟨granted, other⟩, fun other => other.2⟩
    rw [KeepsOnFailure, stepped]
    exact ⟨fun keeps => (keeps_iff_of_torn ((isOk_map _ _).trans answer) differs).mp (keeps rfl),
      fun untorn _ => (keeps_iff_of_torn ((isOk_map _ _).trans answer) differs).mpr untorn⟩

/--
Releasing changes the peer when the holder is known, and something is dropped or the time moves.
-/
theorem released_differs (holder : Digest) (addrs : List Addr) (now : Timestamp) :
    p.released holder addrs now ≠ p ↔ ∃ set seen, p.leases[holder]? = some (set, seen) ∧
      (seen ≠ now ∨ ∃ a ∈ addrs, a ∈ set) := by
  -- The holder is known or it is not.
  unfold released
  cases held : p.leases[holder]? with
  -- Nobody is released who holds nothing.
  | none => simp
  | some entry =>
    obtain ⟨set, seen⟩ := entry
    dsimp only
    rw [leases_differ, OrdMap.insert_ne_iff, held]
    -- Erasing changes a set exactly when it erases a member.
    have same : addrs.foldl (fun set a => set.erase a) set = set ↔ ∀ a ∈ addrs, a ∉ set :=
      OrdSet.eraseAll_eq_self
    constructor
    · intro other
      refine ⟨set, seen, rfl, ?_⟩
      by_contra neither
      push Not at neither
      apply other
      rw [same.mpr neither.2, neither.1]
    · rintro ⟨_, _, found, moved⟩ equal
      simp only [Option.some.injEq, Prod.mk.injEq] at found equal
      obtain ⟨rfl, rfl⟩ := found
      rcases moved with later | ⟨a, listed, leased⟩
      · exact later equal.2
      · exact same.mp equal.1.symm a listed leased

/-- A failed operation leaves the peer as it was exactly when it is none of those that tear. -/
theorem keepsOnFailure_iff (op : PeerOp) : p.KeepsOnFailure op ↔ ¬p.Tears op := by
  -- One operation after the other.
  cases op with
  -- The one operation that tears without a disk that fails.
  | publishSlot disk subject rec =>
    rw [← publishSlot_keeps_iff]
    exact ⟨fun keeps => keeps rfl, fun keeps _ => keeps⟩
  -- These write to disk first.
  | publishHandoff disk h =>
    exact ⟨fun _ torn => torn, fun _ _ _ failed => publishHandoff_failed failed⟩
  | publishCheckpoint disk c =>
    exact ⟨fun _ torn => torn, fun _ _ _ failed => publishCheckpoint_failed failed⟩
  | publishWitness disk w =>
    exact ⟨fun _ torn => torn, fun _ _ _ failed => publishWitness_failed failed⟩
  | publishDeleteApproval disk a =>
    exact ⟨fun _ torn => torn, fun _ _ _ failed => publishDeleteApproval_failed failed⟩
  | publishDeleteRequest disk r =>
    refine ⟨fun _ torn => torn, fun _ _ e failed => ?_⟩
    obtain ⟨e', is⟩ :=
      isOk_false_iff.mp ((isOk_map _ _).symm.trans (isOk_false_iff.mpr ⟨e, failed⟩))
    exact publishDeleteRequest_failed is
  | executeDelete disk x now =>
    refine ⟨fun _ torn => torn, fun _ _ e failed => ?_⟩
    obtain ⟨e', is⟩ :=
      isOk_false_iff.mp ((isOk_map _ _).symm.trans (isOk_false_iff.mpr ⟨e, failed⟩))
    exact executeDelete_failed is
  -- These write to memory first, and tear when they change it.
  | takeLease disk holder addrs now => exact takeLease_keeps_iff disk holder addrs now
  | releaseLease disk holder addrs now =>
    have torn := keeps_iff_of_torn (mapError_isOk disk) (released_differs (p := p) holder addrs now)
    exact ⟨fun keeps => torn.mp (keeps rfl), fun untorn _ => torn.mpr untorn⟩
  | extendRetention disk addrs =>
    have differs :
      { p with retention := addrs.foldl (fun floor a => floor.insert a) p.retention } ≠ p ↔
        ∃ a ∈ addrs, a ∉ p.retention := by
      rw [retention_differs, ne_eq, OrdSet.insertAll_eq_self]
      push Not
      rfl
    have torn := keeps_iff_of_torn (mapError_isOk disk) differs
    exact ⟨fun keeps => torn.mp (keeps rfl), fun untorn _ => torn.mpr untorn⟩
  | publishRetention disk proposed =>
    rcases publishRetention_spec (p := p) disk proposed with ⟨refused, e, same⟩ |
      ⟨accepted, replaced⟩
    · refine ⟨fun _ torn => ?_, fun _ _ _ _ => congrArg Prod.snd same⟩
      -- A floor that was refused is none that covers, nor is coverage waived.
      rcases torn.2.1 with covers | ignores
      · exact refused.1 covers
      · rw [refused.2] at ignores
        cases ignores
    · have stepped : peer.step p (.publishRetention disk proposed) = (disk.mapError .io,
          { p with retention := proposed.foldl (fun floor a => floor.insert a) ∅ }) := replaced
      have differs : { p with retention := proposed.foldl (fun floor a => floor.insert a) ∅ } ≠ p ↔
          (p.Covers proposed ∨ p.hostility.ignoreRetention = true) ∧
            ¬∀ a, a ∈ p.retention ↔ a ∈ proposed := by
        rw [retention_differs, and_iff_right accepted]
        refine not_congr ⟨fun same a => ?_, fun same => Std.ExtTreeSet.ext_mem fun a => ?_⟩
        · rw [← same, OrdSet.mem_insertAll]
          simp
        · rw [same, OrdSet.mem_insertAll]
          simp
      rw [KeepsOnFailure, stepped]
      have torn := keeps_iff_of_torn (mapError_isOk disk) differs
      exact ⟨fun keeps => torn.mp (keeps rfl), fun untorn _ => torn.mpr untorn⟩
  | forgetRetention disk addrs proof =>
    rcases forgetRetention_exact (p := p) disk addrs proof with ⟨refused, e, same⟩ |
      ⟨proves, removed⟩
    · exact ⟨fun _ torn => refused torn.2.1, fun _ _ _ _ => congrArg Prod.snd same⟩
    · have stepped : peer.step p (.forgetRetention disk addrs proof) = (disk.mapError .io,
          { p with retention := addrs.foldl (fun floor a => floor.erase a) p.retention }) := removed
      have differs :
        { p with retention := addrs.foldl (fun floor a => floor.erase a) p.retention } ≠ p ↔
          p.Proves proof ∧ ∃ a ∈ addrs, a ∈ p.retention := by
        rw [retention_differs, and_iff_right proves, ne_eq, OrdSet.eraseAll_eq_self]
        push Not
        rfl
      rw [KeepsOnFailure, stepped]
      have torn := keeps_iff_of_torn (mapError_isOk disk) differs
      exact ⟨fun keeps => torn.mp (keeps rfl), fun untorn _ => torn.mpr untorn⟩
  -- The others do not write to memory at all.
  | putBlob | prove | deleteBlob | sweep | addWriter | setAcl | bindSubject | setView =>
    exact ⟨fun _ torn => torn, fun _ mutates => by cases mutates⟩

/--
When a failed operation changes nothing, over every run of any peer.

Every failed operation of a run leaves memory as it was exactly when none of its operations tears.
-/
theorem failures_change_nothing_iff (start : Peer) (ops : List PeerOp) :
    peer.Permits KeepsOnFailure start ops ↔ peer.Permits (fun p op => ¬p.Tears op) start ops :=
  ⟨Machine.permits_mono fun _ op => (keepsOnFailure_iff op).mp,
    Machine.permits_mono fun _ op => (keepsOnFailure_iff op).mpr⟩

end Peer

end

section Torn

open Concrete

/-- The disk was full when the floor should have been written. -/
def fullDisk : Disk := .error ⟨"No space left on device (os error 28)"⟩

/-- A fresh honest peer that cannot write its floor protects the address all the same. -/
theorem failed_extension_stays :
    ∃ e, (peer.step (Peer.new .e2ee .content .honest) (.extendRetention fullDisk [digest [1]])).1 =
      .error e ∧
      (peer.step (Peer.new .e2ee .content .honest) (.extendRetention fullDisk [digest [1]])).2 ≠
        Peer.new .e2ee .content .honest := by
  -- The operation is evaluated on a disk that fails.
  refine ⟨_, rfl, ?_⟩
  intro same
  -- One of the two floors has the address in it.
  have floor := congrArg (fun p => p.retention.contains (digest [1])) same
  revert floor
  decide

end Torn

end NasTools
