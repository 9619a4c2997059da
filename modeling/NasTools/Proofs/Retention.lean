import NasTools.Lib.Judged
import NasTools.Lib.OrderedSet
import NasTools.Model.Crypto.Concrete
import NasTools.Model.Peer.Run

/-! The retention floor of an honest peer, and the authority a shrink of it rests on. -/

namespace NasTools

section

variable [Crypto]

/--
At least so many distinct members of the authority approved the request, and this record shows it.

The requester's own approval does not count.
-/
def Carries (authority : Authority) (request : DeleteRequest) (e : DeleteExecution)
    (required : Nat) : Prop :=
  ∃ ids : OrdSet Digest, required ≤ ids.size ∧
    ∀ id ∈ ids, authority.contains id ∧ id ≠ request.requesterId ∧
      ∃ a ∈ e.approvals, a.approverId = id ∧ a.verify = .ok () ∧
        a.requestHash = request.requestHash

/-- A record with more approvals carries at least as much. -/
theorem Carries.mono {authority : Authority} {request : DeleteRequest} {e e' : DeleteExecution}
    {required : Nat} (carries : Carries authority request e required)
    (more : e.approvals ⊆ e'.approvals) : Carries authority request e' required := by
  -- More approvals back the same ids.
  obtain ⟨ids, enough, backed⟩ := carries
  refine ⟨ids, enough, ?_⟩
  intro id member
  obtain ⟨listed, other, a, held, facts⟩ := backed id member
  exact ⟨listed, other, a, more held, facts⟩

section

variable {request : DeleteRequest} {e : DeleteExecution} {recent : List Timestamp}
    {policy : QuorumPolicy}
  {authority : Authority} {now : Timestamp}

/--
An approval that counts: it verifies, and its signer is a member of the authority and
not the requester.
-/
structure Counts (request : DeleteRequest) (authority : Authority) (a : DeleteApproval) : Prop where
  verified : a.verify = .ok ()
  member : authority.contains a.approverId = true
  other : a.approverId ≠ request.requesterId

/-- Those who signed an approval of an execution, each once. -/
def approverIds (e : DeleteExecution) : OrdSet Digest :=
  e.approvals.foldl (fun ids a => ids.insert a.approverId) ∅

/-- An id is among them exactly when it signed one of the approvals. -/
theorem mem_approverIds {id : Digest} :
    id ∈ approverIds e ↔ ∃ a ∈ e.approvals, a.approverId = id := by
  -- The ids are gathered by inserting them one by one.
  have members : id ∈ (e.approvals.map DeleteApproval.approverId).foldl (fun ids a => ids.insert a)
      (∅ : OrdSet Digest) ↔ _ := OrdSet.mem_insertAll
  rw [List.foldl_map] at members
  rw [approverIds, members]
  simp

/-- Counting an approval adds its signer, if it counts. -/
theorem countApproval_eq_ok {ids ids' : OrdSet Digest} {a : DeleteApproval} :
    countApproval request authority ids a = .ok ids' ↔
      Counts request authority a ∧ ids' = ids.insert a.approverId := by
  -- The three tests of an approval are those by which it counts.
  simp only [countApproval, except_bind_eq_ok, except_mapError_eq_ok, ensure_eq_ok, except_pure_eq,
    Except.ok.injEq]
  constructor
  · intro judged
    obtain ⟨_, verified, _, other, _, member, rfl⟩ := judged
    exact ⟨⟨verified, member, other⟩, rfl⟩
  · intro judged
    obtain ⟨counts, rfl⟩ := judged
    exact ⟨(), counts.verified, (), counts.other, (), counts.member, rfl⟩

omit [Crypto] in
/-- An authority is not empty exactly when somebody may approve. -/
theorem isEmpty_eq_false_iff : authority.isEmpty = false ↔ ∃ id, authority.contains id = true := by
  have nobody : authority.ids = ∅ ↔ ∀ id, id ∉ authority.ids :=
    Std.ExtTreeSet.eq_empty_iff_forall_not_mem
  rw [Authority.isEmpty, Std.ExtTreeSet.isEmpty_eq_false_iff, nobody, not_forall]
  simp only [not_not, Authority.contains, Std.ExtTreeSet.mem_iff_contains]

/-- The approvers of an execution are found exactly when all its parts are in order. -/
theorem approvers_eq_ok {ids : OrdSet Digest} :
    approvers request e authority = .ok ids ↔
      request.verify = .ok () ∧ e.verify = .ok () ∧ e.requestHash = request.requestHash ∧
        (∃ id, authority.contains id = true) ∧ (∀ a ∈ e.approvals, Counts request authority a) ∧
        ids = approverIds e := by
  -- The tests come in turn, and the ids are gathered behind them.
  have counted : e.approvals.foldlM (countApproval request authority) ∅ = .ok ids ↔
      (∀ a ∈ e.approvals, Counts request authority a) ∧ ids = approverIds e :=
    foldlM_good_iff fun s a s' => countApproval_eq_ok (a := a)
  simp only [approvers, except_bind_eq_ok, except_mapError_eq_ok, ensure_eq_ok,
    isEmpty_eq_false_iff, counted]
  constructor
  · intro found
    obtain ⟨_, asked, _, signed, _, named, _, appointed, counted⟩ := found
    exact ⟨asked, signed, named, appointed, counted⟩
  · intro ordered
    obtain ⟨asked, signed, named, appointed, counted⟩ := ordered
    exact ⟨(), asked, (), signed, (), named, (), appointed, counted⟩

/-- An execution is let through exactly when its approvers are found and are as many as are owed. -/
theorem decideDelete_eq_execute {required distinct : Nat} :
    decideDelete request e recent policy authority now = .execute required distinct ↔
      approvers request e authority = .ok (approverIds e) ∧ required ≤ distinct ∧
        required = (owed request recent policy now).1 ∧ distinct = (approverIds e).size := by
  -- The checks are those of the code, in its order.
  unfold decideDelete
  cases found : approvers request e authority with
  | error why => simp
  | ok ids =>
    obtain ⟨_, _, _, _, _, rfl⟩ := approvers_eq_ok.mp found
    dsimp only
    split
    · rename_i short
      -- Too few of them are refused, so there is nothing to compare.
      constructor
      · intro impossible
        cases impossible
      · intro through
        obtain ⟨_, enough, rfl, rfl⟩ := through
        exact absurd enough (Nat.not_le.mpr short)
    · rename_i enough
      rw [DeleteDecision.execute.injEq]
      constructor
      · intro same
        obtain ⟨rfl, rfl⟩ := same
        exact ⟨rfl, Nat.le_of_not_lt enough, rfl, rfl⟩
      · intro through
        exact ⟨through.2.2.1.symm, through.2.2.2.symm⟩

end

/-- An execution that verifies carries approvals of the request it names. -/
theorem approvals_of_verify {e : DeleteExecution} (verified : e.verify = .ok ()) :
    ∀ a ∈ e.approvals, a.requestHash = e.requestHash := by
  -- Verifying an execution compares every approval with its request.
  simp only [DeleteExecution.verify, except_bind_eq_ok, forM_eq_ok] at verified
  obtain ⟨_, checked, _⟩ := verified
  intro a held
  have passed := checked a held
  simp only [DeleteExecution.checkApproval, except_bind_eq_ok, ensure_eq_ok] at passed
  obtain ⟨_, _, same⟩ := passed
  exact same

/-- An execution the policy lets through carries what the policy asks for. -/
theorem carries_of_decideDelete {request : DeleteRequest} {e : DeleteExecution}
    {recent : List Timestamp} {policy : QuorumPolicy} {authority : Authority} {now : Timestamp}
    {required distinct : Nat}
    (decided : decideDelete request e recent policy authority now = .execute required distinct) :
    Carries authority request e (owed request recent policy now).1 := by
  -- The ids that were counted are enough, and each has an approval that counts.
  obtain ⟨found, enough, rfl, rfl⟩ := decideDelete_eq_execute.mp decided
  obtain ⟨_, verified, named, _, counts, _⟩ := approvers_eq_ok.mp found
  refine ⟨approverIds e, enough, ?_⟩
  intro id member
  obtain ⟨a, held, rfl⟩ := mem_approverIds.mp member
  have good := counts a held
  exact ⟨good.member, good.other, a, held, rfl, good.verified,
    (approvals_of_verify verified a held).trans named⟩

namespace Peer

variable {p : Peer}

/-- A peer opened on an empty directory, with the deletion authority and quorum its owner set. -/
def guarded (mode : Mode) (addressing : Addressing) (authority : Authority)
    (quorum : QuorumPolicy) : Peer :=
  { Peer.new mode addressing .honest with deleteAuthority := authority, quorum := quorum }

/-- An execution judged and recorded here, at a moment no other stood under its request. -/
structure Recorded (p : Peer) (e : DeleteExecution) (at_ : Timestamp) (request : DeleteRequest) :
    Prop where
  free : ¬p.deleteExecutions.contains e.requestHash
  requested : p.deleteRequests[e.requestHash]? = some request
  decided : ∃ required distinct,
    decideDelete request e p.executed p.quorum p.deleteAuthority at_ = .execute required distinct

/-- Nothing that a shrink of the floor depends on has changed, nor the floor itself. -/
structure Aside (p p' : Peer) : Prop where
  hostility : p'.hostility = p.hostility
  deleteAuthority : p'.deleteAuthority = p.deleteAuthority
  quorum : p'.quorum = p.quorum
  deleteRequests : p'.deleteRequests = p.deleteRequests
  deleteExecutions : p'.deleteExecutions = p.deleteExecutions
  retention : p'.retention = p.retention

/-- What one operation can do to the deletion trail and to the floor it guards. -/
inductive TrailStep (p : Peer) (op : PeerOp) (p' : Peer) : Prop where
  | aside (same : Aside p p')
  | request (h : Digest) (r : DeleteRequest) (free : p.deleteRequests[h]? = none)
      (added : p' = { p with deleteRequests := p.deleteRequests.insert h r })
  | execution (e : DeleteExecution) (at_ : Timestamp) (request : DeleteRequest)
      (recorded : p.Recorded e at_ request)
      (added : p' = { p with deleteExecutions := p.deleteExecutions.insert e.requestHash (e, at_) })
  | extended (retention : OrdSet Addr) (covers : ∀ a ∈ p.retention, a ∈ retention)
      (added : p' = { p with retention })
  | forgotten (disk : Disk) (addrs : List Addr) (proof : DeleteExecution)
      (presented : op = .forgetRetention disk addrs proof)
      (known : p.deleteExecutions.contains proof.requestHash) (retention : OrdSet Addr)
      (removed : p' = { p with retention })

/-- A published floor covers the one before, or nothing changes. -/
theorem publishRetention_covers (honest : p.hostility = .honest) (disk : Disk)
    (proposed : List Addr) :
    ∃ retention, (∀ a ∈ p.retention, a ∈ retention) ∧
      (p.publishRetention disk proposed).2 = { p with retention } := by
  -- The offer is refused, or it is taken for the floor.
  unfold publishRetention persistRetention
  dsimp only
  split
  · rename_i dropped found
    rw [if_neg (by simp [honest, Hostility.honest])]
    exact ⟨p.retention, fun _ kept => kept, rfl⟩
  · rename_i nothing
    refine ⟨_, ?_, rfl⟩
    intro a kept
    -- Nothing was dropped, so the address cannot be missing from what is offered.
    have none := List.head?_eq_none_iff.mp nothing
    by_contra missing
    have dropped := List.filter_eq_nil_iff.mp none a (Std.ExtTreeSet.mem_toList.mpr kept)
    simp [Std.ExtTreeSet.contains_iff_mem, missing] at dropped

/-- What a deletion request does to the trail. -/
theorem publishDeleteRequest_cases (disk : Disk) (r : DeleteRequest) :
    (p.publishDeleteRequest disk r).2 = p ∨
      (p.deleteRequests[r.requestHash]? = none ∧
        (p.publishDeleteRequest disk r).2 =
          { p with deleteRequests := p.deleteRequests.insert r.requestHash r }) := by
  -- Four tests, and only behind the last one is the request recorded.
  unfold publishDeleteRequest
  split
  · exact .inl rfl
  dsimp only
  split
  · exact .inl rfl
  rename_i free
  split
  · exact .inl rfl
  split
  · exact .inl rfl
  · exact .inr ⟨free, rfl⟩

/-- What an execution does to the trail. -/
theorem executeDelete_cases (disk : Disk) (e : DeleteExecution) (now : Timestamp) :
    (p.executeDelete disk e now).2 = p ∨
      ∃ request, p.Recorded e now request ∧
        (p.executeDelete disk e now).2 =
          { p with deleteExecutions := p.deleteExecutions.insert e.requestHash (e, now) } := by
  -- Every way out but the last leaves the peer as it was.
  unfold executeDelete
  split
  · exact .inl rfl
  split
  · exact .inl rfl
  rename_i request requested
  split
  · exact .inl rfl
  rename_i required distinct decided
  split
  · exact .inl rfl
  rename_i free
  split
  · exact .inl rfl
  · exact .inr ⟨request, ⟨free, requested, required, distinct, decided⟩, rfl⟩

/-- What forgetting does to the floor. -/
theorem forgetRetention_cases (disk : Disk) (addrs : List Addr) (proof : DeleteExecution) :
    (p.forgetRetention disk addrs proof).2 = p ∨
      (p.deleteExecutions.contains proof.requestHash ∧
        ∃ retention, (p.forgetRetention disk addrs proof).2 = { p with retention }) := by
  -- Two tests, and behind them only the floor changes.
  unfold forgetRetention persistRetention
  split
  · exact .inl rfl
  split
  · exact .inl rfl
  · rename_i known
    exact .inr ⟨by simpa using known, _, rfl⟩

/-- Nothing has changed. -/
theorem aside_refl (p : Peer) : Aside p p := ⟨rfl, rfl, rfl, rfl, rfl, rfl⟩

/-- Every operation of an honest peer is one of the five kinds. -/
theorem step_trail (honest : p.hostility = .honest) (op : PeerOp) :
    TrailStep p op (peer.step p op).2 := by
  -- An operation that changes no part of the trail, nor the floor.
  have quiet {p' : Peer} (stepped : (peer.step p op).2 = p') (same : Aside p p') :
      TrailStep p op (peer.step p op).2 := by
    rw [stepped]
    exact .aside same
  cases op with
  | publishSlot disk subject rec =>
    rcases publishSlot_cases honest disk subject rec with ⟨e, refused⟩ | ⟨_, _, _, filed⟩
    · exact quiet (congrArg Prod.snd refused) (aside_refl p)
    · exact quiet (congrArg Prod.snd filed) ⟨rfl, rfl, rfl, rfl, rfl, rfl⟩
  | publishHandoff disk h =>
    rcases publishHandoff_cases (p := p) disk h with same | ⟨_, _, filed⟩
    · exact quiet same (aside_refl p)
    · exact quiet filed ⟨rfl, rfl, rfl, rfl, rfl, rfl⟩
  | publishCheckpoint disk c =>
    rcases publishCheckpoint_cases (p := p) disk c with same | ⟨_, filed⟩
    · exact quiet same (aside_refl p)
    · exact quiet filed ⟨rfl, rfl, rfl, rfl, rfl, rfl⟩
  | publishWitness disk w =>
    obtain ⟨_, same⟩ := publishWitness_frame (p := p) disk w
    exact quiet same ⟨rfl, rfl, rfl, rfl, rfl, rfl⟩
  | publishDeleteRequest disk r =>
    rcases publishDeleteRequest_cases (p := p) disk r with same | ⟨free, added⟩
    · exact quiet same (aside_refl p)
    · exact .request r.requestHash r free added
  | publishDeleteApproval disk a =>
    obtain ⟨_, same⟩ := publishDeleteApproval_frame (p := p) disk a
    exact quiet same ⟨rfl, rfl, rfl, rfl, rfl, rfl⟩
  | executeDelete disk e now =>
    rcases executeDelete_cases (p := p) disk e now with same | ⟨request, recorded, added⟩
    · exact quiet same (aside_refl p)
    · exact .execution e now request recorded added
  | extendRetention disk addrs =>
    exact .extended _ (fun _ kept => OrdSet.mem_insertAll.mpr (.inr kept)) rfl
  | publishRetention disk proposed =>
    obtain ⟨retention, covers, added⟩ := publishRetention_covers honest disk proposed
    exact .extended retention covers added
  | forgetRetention disk addrs proof =>
    rcases forgetRetention_cases (p := p) disk addrs proof with same | ⟨known, retention, removed⟩
    · exact quiet same (aside_refl p)
    · exact .forgotten disk addrs proof rfl known retention removed
  | deleteBlob disk addr =>
    obtain ⟨_, same⟩ := deleteBlob_frame (p := p) disk addr
    exact quiet same ⟨rfl, rfl, rfl, rfl, rfl, rfl⟩
  | sweep disk holders policy now dryRun =>
    obtain ⟨_, same⟩ := sweep_frame (p := p) disk holders policy now dryRun
    exact quiet same ⟨rfl, rfl, rfl, rfl, rfl, rfl⟩
  | takeLease disk holder addrs now =>
    obtain ⟨_, same⟩ := takeLease_frame (p := p) disk holder addrs now
    exact quiet same ⟨rfl, rfl, rfl, rfl, rfl, rfl⟩
  | releaseLease disk holder addrs now =>
    obtain ⟨_, same⟩ := releaseLease_frame (p := p) disk holder addrs now
    exact quiet same ⟨rfl, rfl, rfl, rfl, rfl, rfl⟩
  | addWriter key =>
    cases added : p.roster.add key with
    | error e =>
      have same : (peer.step p (.addWriter key)).2 = p := by simp [peer, added]
      exact quiet same (aside_refl p)
    | ok roster =>
      have grown : (peer.step p (.addWriter key)).2 = { p with roster } := by simp [peer, added]
      exact quiet grown ⟨rfl, rfl, rfl, rfl, rfl, rfl⟩
  -- The others write to the blobs, the access list, the subjects or the view.
  | putBlob | prove | setAcl | bindSubject | setView =>
    exact quiet rfl ⟨rfl, rfl, rfl, rfl, rfl, rfl⟩

/-- What a run keeps as its start had it. -/
structure Governed (start p : Peer) : Prop where
  hostility : p.hostility = .honest
  deleteAuthority : p.deleteAuthority = start.deleteAuthority
  quorum : p.quorum = start.quorum

/-- No operation changes the authority or the quorum. -/
theorem step_governed {start : Peer} (op : PeerOp) (governed : Governed start p) :
    Governed start (peer.step p op).2 := by
  -- Every kind of step leaves the three parts as they are.
  obtain ⟨honest, authority, quorum⟩ := governed
  cases step_trail honest op with
  | aside same =>
    exact ⟨same.hostility.trans honest, same.deleteAuthority.trans authority,
      same.quorum.trans quorum⟩
  | request h r free added => rw [added]; exact ⟨honest, authority, quorum⟩
  | execution e at_ request recorded added => rw [added]; exact ⟨honest, authority, quorum⟩
  | extended retention covers added => rw [added]; exact ⟨honest, authority, quorum⟩
  | forgotten disk addrs proof presented known retention removed =>
    rw [removed]
    exact ⟨honest, authority, quorum⟩

/-- The authority and the quorum are those of the start, throughout. -/
theorem run_governed (mode : Mode) (addressing : Addressing) (authority : Authority)
    (quorum : QuorumPolicy) (ops : List PeerOp) :
    Governed (guarded mode addressing authority quorum)
      (peer.run (guarded mode addressing authority quorum) ops) :=
  Machine.run_invariant ⟨rfl, rfl, rfl⟩ Machine.permits_always
    fun _ op _ kept => step_governed op kept

/-- A request recorded once stays recorded. -/
theorem step_requests (honest : p.hostility = .honest) (op : PeerOp) {h : Digest}
    {r : DeleteRequest} (held : p.deleteRequests[h]? = some r) :
    (peer.step p op).2.deleteRequests[h]? = some r := by
  -- One operation leaves the requests alone or adds one.
  cases step_trail honest op with
  | aside same => rw [same.deleteRequests]; exact held
  | request h' r' free added =>
    rw [added]
    -- The new request went under a hash that was free, so not under this one.
    have other : h' ≠ h := by
      intro same
      rw [same, held] at free
      cases free
    simpa [Std.ExtTreeMap.getElem?_insert, other] using held
  | execution e at_ request recorded added => rw [added]; exact held
  | extended retention covers added => rw [added]; exact held
  | forgotten disk addrs proof presented known retention removed => rw [removed]; exact held

/-- An execution found after an operation was there before, or the operation recorded it. -/
theorem step_executions (honest : p.hostility = .honest) (op : PeerOp) {h : Digest}
    {e : DeleteExecution} {at_ : Timestamp}
    (held : (peer.step p op).2.deleteExecutions[h]? = some (e, at_)) :
    p.deleteExecutions[h]? = some (e, at_) ∨
      (e.requestHash = h ∧ ∃ request, p.Recorded e at_ request) := by
  -- Only an execution adds to the trail, and it adds its own.
  cases step_trail honest op with
  | aside same => rw [same.deleteExecutions] at held; exact .inl held
  | request h' r' free added => rw [added] at held; exact .inl held
  | execution e' at' request recorded added =>
    rw [added] at held
    by_cases same : e'.requestHash = h
    · simp only [same, Std.ExtTreeMap.getElem?_insert_self, Option.some.injEq,
        Prod.mk.injEq] at held
      obtain ⟨rfl, rfl⟩ := held
      exact .inr ⟨same, request, recorded⟩
    · simp only [Std.ExtTreeMap.getElem?_insert, Std.LawfulEqCmp.compare_eq_iff_eq, same,
        if_false] at held
      exact .inl held
  | extended retention covers added => rw [added] at held; exact .inl held
  | forgotten disk addrs proof presented known retention removed =>
    rw [removed] at held
    exact .inl held

/-- The request an execution was recorded for, and the moment of the run it was recorded at. -/
def RecordedIn (start : Peer) (ops : List PeerOp) (e : DeleteExecution) (at_ : Timestamp)
    (request : DeleteRequest) (earlier : List PeerOp) : Prop :=
  earlier <+: ops ∧ (peer.run start earlier).Recorded e at_ request ∧
    (peer.run start ops).deleteRequests[e.requestHash]? = some request

/-- Everything in the trail of executions was judged at an earlier moment of the run. -/
theorem trail_was_judged (mode : Mode) (addressing : Addressing) (authority : Authority)
    (quorum : QuorumPolicy) (ops : List PeerOp) (h : Digest) (e : DeleteExecution)
    (at_ : Timestamp)
    (held : (peer.run (guarded mode addressing authority quorum) ops).deleteExecutions[h]? =
      some (e, at_)) :
    e.requestHash = h ∧
      ∃ request earlier, RecordedIn (guarded mode addressing authority quorum) ops e at_ request
        earlier := by
  -- One more operation at a time: it found the execution recorded, or it recorded it.
  induction ops using List.reverseRecOn with
  | nil => simp [guarded, Peer.new] at held
  | append_singleton front last ih =>
    have honest := (run_governed mode addressing authority quorum front).hostility
    rw [Machine.run_append] at held
    rcases step_executions honest last held with before | ⟨named, request, recorded⟩
    · obtain ⟨named, request, earlier, prefixed, recorded, requested⟩ := ih before
      refine ⟨named, request, earlier, prefixed.trans (List.prefix_append _ _), recorded, ?_⟩
      rw [Machine.run_append]
      exact step_requests honest last requested
    · refine ⟨named, request, front, List.prefix_append _ _, recorded, ?_⟩
      rw [Machine.run_append]
      exact step_requests honest last recorded.requested

/--
What the presented proof shows satisfies the policy for the request recorded under its hash.

The number of approvals owed is the one of the moment the request's execution was recorded.
-/
def SatisfiesPolicy (start : Peer) (before : List PeerOp) (proof : DeleteExecution) : Prop :=
  ∃ e at_ request earlier, e.requestHash = proof.requestHash ∧
    RecordedIn start before e at_ request earlier ∧
    Carries start.deleteAuthority request proof
      (owed request (peer.run start earlier).executed start.quorum at_).1

/-- Whatever leaves the floor leaves it by a forget whose own proof satisfies the policy. -/
def ShrinksOnlyWithAuthority (start : Peer) (ops : List PeerOp) : Prop :=
  ∀ before op after a, ops = before ++ op :: after → a ∈ (peer.run start before).retention →
    a ∉ (peer.step (peer.run start before) op).2.retention →
    ∃ disk addrs proof, op = .forgetRetention disk addrs proof ∧
      SatisfiesPolicy start before proof

/-- A forget whose proof has every approval of the execution recorded under the same request. -/
def PresentsRecorded (p : Peer) (op : PeerOp) : Prop :=
  ∀ disk addrs proof e at_, op = .forgetRetention disk addrs proof →
    p.deleteExecutions[proof.requestHash]? = some (e, at_) → e.approvals ⊆ proof.approvals

/-- What leaves the floor leaves it by a forget, naming a request with a recorded execution. -/
theorem forgotten_of_dropped (honest : p.hostility = .honest) {op : PeerOp} {a : Addr}
    (held : a ∈ p.retention) (dropped : a ∉ (peer.step p op).2.retention) :
    ∃ disk addrs proof, op = .forgetRetention disk addrs proof ∧
      p.deleteExecutions.contains proof.requestHash := by
  -- Of all steps only forgetting drops an address.
  cases step_trail honest op with
  | aside same => exact absurd (by rw [same.retention]; exact held) dropped
  | request h r free added => exact absurd (by rw [added]; exact held) dropped
  | execution e at_ request recorded added => exact absurd (by rw [added]; exact held) dropped
  | extended retention covers added => exact absurd (by rw [added]; exact covers a held) dropped
  | forgotten disk addrs proof presented known retention removed =>
    exact ⟨disk, addrs, proof, presented, known⟩

/-- The floor shrinks only with authority in every run that presents recorded executions only. -/
theorem floor_shrinks_only_with_authority (mode : Mode) (addressing : Addressing)
    (authority : Authority) (quorum : QuorumPolicy) (ops : List PeerOp)
    (recordedOnly : ∀ before op after, ops = before ++ op :: after →
      (peer.run (guarded mode addressing authority quorum) before).PresentsRecorded op) :
    ShrinksOnlyWithAuthority (guarded mode addressing authority quorum) ops := by
  -- The run is cut at the operation that dropped the address.
  intro before op after a split held dropped
  have governed := run_governed mode addressing authority quorum before
  obtain ⟨disk, addrs, proof, rfl, known⟩ := forgotten_of_dropped governed.hostility held dropped
  refine ⟨disk, addrs, proof, rfl, ?_⟩
  rw [Std.ExtTreeMap.contains_eq_isSome_getElem?] at known
  obtain ⟨⟨e, at_⟩, recorded⟩ := Option.isSome_iff_exists.mp known
  have approvals := recordedOnly before _ after split disk addrs proof e at_ rfl recorded
  obtain ⟨named, request, earlier, judged⟩ :=
    trail_was_judged mode addressing authority quorum before _ e at_ recorded
  refine ⟨e, at_, request, earlier, named, judged, ?_⟩
  -- The recorded execution passed the policy, and the proof has all of its approvals.
  obtain ⟨required, distinct, decided⟩ := judged.2.1.decided
  have then_ := run_governed mode addressing authority quorum earlier
  rw [then_.deleteAuthority, then_.quorum] at decided
  exact (carries_of_decideDelete decided).mono approvals

end Peer

end

section

open Concrete

/-- A signature of a keypair, in a context. -/
def sigOf (seed : UInt8) (ctx : SigContext) (message : Bytes) : Bytes :=
  signature (identity seed).verifyingKey (framed ctx message)

/-- A device asks for the deletion of one object. -/
def heldRequest : DeleteRequest :=
  ⟨.object "a", "", (identity 1).verifyingKey, Digest.zero,
    sigOf 1 .deleteRequest (requestBody (.object "a") "" Digest.zero)⟩

/-- The execution of that request, by a key and over some approvals. -/
def heldExecution (seed : UInt8) (approvals : List DeleteApproval) : DeleteExecution :=
  ⟨heldRequest.requestHash, approvals, (identity seed).verifyingKey,
    sigOf seed .deleteExecution heldRequest.requestHash.bytes⟩

/-- The one member of the authority approves. -/
def heldApproval : DeleteApproval :=
  ⟨heldRequest.requestHash, (identity 2).verifyingKey,
    sigOf 2 .deleteApproval heldRequest.requestHash.bytes⟩

/-- A peer that answers to one approver. -/
def heldPeer : Peer :=
  .guarded .e2ee .content (Authority.empty.add (identity 2).verifyingKey) .default

/-- An address is retained, and a request is approved and executed. -/
def heldTrail : List PeerOp :=
  [.extendRetention (.ok ()) [Digest.zero], .publishDeleteRequest (.ok ()) heldRequest,
    .executeDelete (.ok ()) (heldExecution 1 [heldApproval]) 5]

/-- Whatever is deleted and whenever, the default policy asks for an approval. -/
theorem one_is_owed (request : DeleteRequest) (recent : List Timestamp) (now : Timestamp) :
    1 ≤ (owed request recent .default now).1 := by
  -- Both bases ask for one at least, and escalating does not lower them.
  have base : 1 ≤ QuorumPolicy.default.base request.scope := by
    cases request.scope <;> simp [QuorumPolicy.base, QuorumPolicy.default]
  unfold owed
  dsimp only
  split
  · exact Nat.le_trans base (Nat.le_max_left _ _)
  · exact base

/--
A record without approvals, signed by anybody, shrinks the floor once an execution is recorded.
-/
theorem empty_proof_shrinks_the_floor :
    ¬Peer.ShrinksOnlyWithAuthority heldPeer
      (heldTrail ++ [.forgetRetention (.ok ()) [Digest.zero] (heldExecution 9 [])]) := by
  -- Suppose it shrank with authority only.
  intro only
  have dropped : Digest.zero ∈ (peer.run heldPeer heldTrail).retention ∧
      Digest.zero ∉ (peer.step (peer.run heldPeer heldTrail)
        (.forgetRetention (.ok ()) [Digest.zero] (heldExecution 9 []))).2.retention := by
    decide +kernel
  obtain ⟨disk, addrs, proof, same, satisfied⟩ := only heldTrail _ [] _ rfl dropped.1 dropped.2
  obtain ⟨rfl, rfl, rfl⟩ := PeerOp.forgetRetention.inj same
  obtain ⟨e, at_, request, earlier, _, _, ids, enough, backed⟩ := satisfied
  -- No approval is carried, so nobody approved, and one approval was owed.
  have none : ids = ∅ := by
    apply Std.ExtTreeSet.eq_empty_iff_forall_not_mem.mpr
    intro id member
    obtain ⟨_, _, a, held, _⟩ := backed id member
    exact List.not_mem_nil held
  rw [none, Std.ExtTreeSet.size_empty] at enough
  exact absurd (Nat.le_trans (one_is_owed request _ at_) enough) (by decide)

/-- Presented with the recorded execution itself, the peer shrinks the floor, with authority. -/
theorem recorded_proof_shrinks_the_floor :
    Digest.zero ∉ (peer.run heldPeer (heldTrail ++
        [.forgetRetention (.ok ()) [Digest.zero] (heldExecution 1 [heldApproval])])).retention ∧
      Peer.ShrinksOnlyWithAuthority heldPeer (heldTrail ++
        [.forgetRetention (.ok ()) [Digest.zero] (heldExecution 1 [heldApproval])]) := by
  -- There is one forget in the run, and it presents what the trail holds.
  refine ⟨by decide +kernel, ?_⟩
  apply Peer.floor_shrinks_only_with_authority
  intro before op after split disk addrs proof e at_ forget recorded
  subst forget
  rcases List.eq_nil_or_concat after with rfl | ⟨front, last, rfl⟩
  · -- The forget is the last operation, and what it presents is what the trail holds.
    obtain ⟨rfl, same⟩ := List.append_inj' split rfl
    obtain ⟨rfl, rfl, rfl⟩ := PeerOp.forgetRetention.inj (List.singleton_inj.mp same)
    have held : (peer.run heldPeer heldTrail).deleteExecutions[
        (heldExecution 1 [heldApproval]).requestHash]? =
        some (heldExecution 1 [heldApproval], 5) := by decide +kernel
    have same := held.symm.trans recorded
    rw [Option.some.injEq, Prod.mk.injEq] at same
    rw [← same.1]
    exact List.Subset.refl _
  · -- No earlier operation is a forget.
    have parts :
      heldTrail ++ [.forgetRetention (.ok ()) [Digest.zero] (heldExecution 1 [heldApproval])] =
        (before ++ .forgetRetention disk addrs proof :: front) ++ [last] := by simpa using split
    have member : PeerOp.forgetRetention disk addrs proof ∈ heldTrail := by
      rw [(List.append_inj' parts rfl).1]
      simp
    simp [heldTrail] at member

end

end NasTools
