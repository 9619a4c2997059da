import NasTools.Proofs.Retention

/-! The deletion trail over whole runs: it only grows, in order, and small quorums stay few. -/

namespace NasTools

/-- Past the limit of the rolling window, every request owes the raised number. -/
theorem escalateTo_le_owed (request : DeleteRequest) {recent : List Timestamp}
    {policy : QuorumPolicy} {now : Timestamp}
    (many : policy.rolling.objects ≤
      (recent.filter fun at_ => now.saturatingSince at_ < policy.rolling.window).length) :
    policy.rolling.escalateTo ≤ (owed request recent policy now).1 := by
  -- Many recent deletions escalate what is owed.
  have escalated : (owed request recent policy now).1 =
      max (policy.base request.scope) policy.rolling.escalateTo := by
    simp [owed, many]
  rw [escalated]
  exact Nat.le_max_right _ _

/-- Two instants of one window are less than the window apart, whichever way the clock ran. -/
theorem saturatingSince_lt {now earlier : Timestamp} {window : UInt64} {t : Nat}
    (nowLow : t ≤ now.toNat) (nowHigh : now.toNat < t + window.toNat) (low : t ≤ earlier.toNat) :
    now.saturatingSince earlier < window := by
  -- Both times are in the window, so what has passed between them is shorter.
  rw [UInt64.lt_iff_toNat_lt, Timestamp.saturatingSince, satSub]
  split
  · -- The clock went back, which counts as no time at all.
    show 0 < window.toNat
    omega
  · rename_i forward
    rw [UInt64.toNat_sub_of_le _ _ (UInt64.not_lt.mp forward)]
    omega

section

variable [Crypto]

/-- The approvals of an execution that come from the authority, one for each holder. -/
def distinctApprovers (authority : Authority) (e : DeleteExecution) : Nat :=
  (e.approvals.foldl (fun ids : OrdSet Digest => fun a =>
    if authority.contains a.approverId then ids.insert a.approverId else ids) ∅).size

/-- An execution let through carries as many distinct holders as are owed. -/
theorem owed_le_distinctApprovers {request : DeleteRequest} {e : DeleteExecution}
    {recent : List Timestamp} {policy : QuorumPolicy} {authority : Authority} {now : Timestamp}
    {required distinct : Nat}
    (decided : decideDelete request e recent policy authority now = .execute required distinct) :
    (owed request recent policy now).1 ≤ distinctApprovers authority e := by
  -- What let it through is taken apart.
  obtain ⟨found, enough, rfl, rfl⟩ := decideDelete_eq_execute.mp decided
  obtain ⟨_, _, _, _, counts, _⟩ := approvers_eq_ok.mp found
  -- All approvals come from the authority, so those counted are all of them.
  have all : e.approvals.foldl (fun ids : OrdSet Digest => fun a =>
      if authority.contains a.approverId then ids.insert a.approverId else ids) ∅ =
        approverIds e := by
    apply List.foldl_ext
    intro ids a held
    exact if_pos (counts a held).member
  rw [distinctApprovers, all]
  exact enough

namespace Peer

variable {p : Peer}

/--
A peer opened on an empty directory, honest or not, with the authority and quorum its owner set.
-/
def entrusted (mode : Mode) (addressing : Addressing) (hostility : Hostility)
    (authority : Authority) (quorum : QuorumPolicy) : Peer :=
  { Peer.new mode addressing hostility with deleteAuthority := authority, quorum := quorum }

/-- The approval a peer has recorded for a request from one holder. -/
def approvalOf (p : Peer) (request id : Digest) : Option DeleteApproval :=
  (p.deleteApprovals.getD request ∅)[id]?

/-- The peer with an approval filed under its request and holder. -/
def fileApproval (p : Peer) (a : DeleteApproval) : Peer :=
  let held := p.deleteApprovals.getD a.requestHash ∅
  { p with deleteApprovals := p.deleteApprovals.insert a.requestHash (held.insert a.approverId a) }

/-- Nothing of the trail has changed, nor what it is judged by. -/
structure Untouched (p p' : Peer) : Prop where
  authority : p'.deleteAuthority = p.deleteAuthority
  quorum : p'.quorum = p.quorum
  requests : p'.deleteRequests = p.deleteRequests
  approvals : p'.deleteApprovals = p.deleteApprovals
  executions : p'.deleteExecutions = p.deleteExecutions

/-- An approval recorded here, of a request recorded before, by a holder not heard of it yet. -/
structure Approved (p : Peer) (a : DeleteApproval) : Prop where
  known : p.deleteRequests.contains a.requestHash = true
  holder : p.deleteAuthority.contains a.approverId = true
  free : p.approvalOf a.requestHash a.approverId = none

/-- What one operation can do to the trail, whatever flags the peer was started with. -/
inductive TrailEvent (p : Peer) (op : PeerOp) (p' : Peer) : Prop where
  | none (same : Untouched p p')
  | request (disk : Disk) (r : DeleteRequest) (asked : op = .publishDeleteRequest disk r)
      (free : p.deleteRequests[r.requestHash]? = Option.none)
      (added : p' = { p with deleteRequests := p.deleteRequests.insert r.requestHash r })
  | approval (disk : Disk) (a : DeleteApproval) (asked : op = .publishDeleteApproval disk a)
      (approved : p.Approved a)
      (added : p' = p.fileApproval a)
  | execution (disk : Disk) (e : DeleteExecution) (at_ : Timestamp) (request : DeleteRequest)
      (asked : op = .executeDelete disk e at_) (recorded : p.Recorded e at_ request)
      (added : p' = { p with deleteExecutions := p.deleteExecutions.insert e.requestHash (e, at_) })

/-- What an approval does to the trail. -/
theorem publishDeleteApproval_cases (disk : Disk) (a : DeleteApproval) :
    (p.publishDeleteApproval disk a).2 = p ∨
      (p.Approved a ∧ (p.publishDeleteApproval disk a).2 = p.fileApproval a) := by
  -- Five tests, and only behind the last one is the approval filed.
  unfold publishDeleteApproval
  dsimp only
  split
  · exact .inl rfl
  split
  · exact .inl rfl
  rename_i known
  split
  · exact .inl rfl
  rename_i holder
  split
  · exact .inl rfl
  rename_i free
  split
  · exact .inl rfl
  · refine .inr ⟨⟨not_not.mp known, not_not.mp holder, ?_⟩, rfl⟩
    apply Std.ExtTreeMap.getElem?_eq_none
    rw [Std.ExtTreeMap.mem_iff_contains]
    exact free

/-- Every operation is of one of the four kinds. -/
theorem step_event (op : PeerOp) : TrailEvent p op (peer.step p op).2 := by
  -- One kind of operation after the other.
  have quiet {p' : Peer} (stepped : (peer.step p op).2 = p') (same : Untouched p p') :
      TrailEvent p op (peer.step p op).2 := by
    rw [stepped]
    exact .none same
  cases op with
  | publishDeleteRequest disk r =>
    rcases publishDeleteRequest_cases (p := p) disk r with same | ⟨free, added⟩
    · exact quiet same ⟨rfl, rfl, rfl, rfl, rfl⟩
    · exact .request disk r rfl free added
  | publishDeleteApproval disk a =>
    rcases publishDeleteApproval_cases (p := p) disk a with same | ⟨approved, added⟩
    · exact quiet same ⟨rfl, rfl, rfl, rfl, rfl⟩
    · exact .approval disk a rfl approved added
  | executeDelete disk e now =>
    rcases executeDelete_cases (p := p) disk e now with same | ⟨request, recorded, added⟩
    · exact quiet same ⟨rfl, rfl, rfl, rfl, rfl⟩
    · exact .execution disk e now request rfl recorded added
  | publishSlot disk subject rec =>
    obtain ⟨_, _, same⟩ := publishSlot_frame (p := p) disk subject rec
    exact quiet same ⟨rfl, rfl, rfl, rfl, rfl⟩
  | publishHandoff disk h =>
    rcases publishHandoff_cases (p := p) disk h with same | ⟨_, _, filed⟩
    · exact quiet same ⟨rfl, rfl, rfl, rfl, rfl⟩
    · exact quiet filed ⟨rfl, rfl, rfl, rfl, rfl⟩
  | publishCheckpoint disk c =>
    rcases publishCheckpoint_cases (p := p) disk c with same | ⟨_, filed⟩
    · exact quiet same ⟨rfl, rfl, rfl, rfl, rfl⟩
    · exact quiet filed ⟨rfl, rfl, rfl, rfl, rfl⟩
  | publishWitness disk w =>
    obtain ⟨_, same⟩ := publishWitness_frame (p := p) disk w
    exact quiet same ⟨rfl, rfl, rfl, rfl, rfl⟩
  | publishRetention disk proposed =>
    obtain ⟨_, same⟩ := publishRetention_frame (p := p) disk proposed
    exact quiet same ⟨rfl, rfl, rfl, rfl, rfl⟩
  | forgetRetention disk addrs proof =>
    obtain ⟨_, same⟩ := forgetRetention_frame (p := p) disk addrs proof
    exact quiet same ⟨rfl, rfl, rfl, rfl, rfl⟩
  | deleteBlob disk addr =>
    obtain ⟨_, same⟩ := deleteBlob_frame (p := p) disk addr
    exact quiet same ⟨rfl, rfl, rfl, rfl, rfl⟩
  | sweep disk holders policy now dryRun =>
    obtain ⟨_, same⟩ := sweep_frame (p := p) disk holders policy now dryRun
    exact quiet same ⟨rfl, rfl, rfl, rfl, rfl⟩
  | takeLease disk holder addrs now =>
    obtain ⟨_, same⟩ := takeLease_frame (p := p) disk holder addrs now
    exact quiet same ⟨rfl, rfl, rfl, rfl, rfl⟩
  | releaseLease disk holder addrs now =>
    obtain ⟨_, same⟩ := releaseLease_frame (p := p) disk holder addrs now
    exact quiet same ⟨rfl, rfl, rfl, rfl, rfl⟩
  | addWriter key =>
    cases added : p.roster.add key with
    | error e =>
      have same : (peer.step p (.addWriter key)).2 = p := by simp [peer, added]
      exact quiet same ⟨rfl, rfl, rfl, rfl, rfl⟩
    | ok roster =>
      have grown : (peer.step p (.addWriter key)).2 = { p with roster } := by simp [peer, added]
      exact quiet grown ⟨rfl, rfl, rfl, rfl, rfl⟩
  -- The others write to the floor, the blobs, the access list, the subjects or the view.
  | extendRetention | putBlob | prove | setAcl | bindSubject | setView =>
    exact quiet rfl ⟨rfl, rfl, rfl, rfl, rfl⟩

/-- Everything the first peer has in its trail, the second one has under the same name. -/
structure TrailGrows (p p' : Peer) : Prop where
  authority : p'.deleteAuthority = p.deleteAuthority
  quorum : p'.quorum = p.quorum
  requests : ∀ (h : Digest) r, p.deleteRequests[h]? = some r → p'.deleteRequests[h]? = some r
  approvals : ∀ h id a, p.approvalOf h id = some a → p'.approvalOf h id = some a
  executions : ∀ (h : Digest) e at_, p.deleteExecutions[h]? = some (e, at_) →
    p'.deleteExecutions[h]? = some (e, at_)

/-- One operation only adds to the trail. -/
theorem step_trailGrows (op : PeerOp) : TrailGrows p (peer.step p op).2 := by
  -- One kind of event after the other.
  cases step_event op with
  | none same =>
    refine ⟨same.authority, same.quorum, ?_, ?_, ?_⟩
    · intro h r held
      rwa [same.requests]
    · intro h id a held
      rwa [approvalOf, same.approvals]
    · intro h e at_ held
      rwa [same.executions]
  | request disk r asked free added =>
    rw [added]
    refine ⟨rfl, rfl, ?_, fun _ _ _ held => held, fun _ _ _ held => held⟩
    -- The new request went under a hash that was free, so not under this one.
    intro h r' held
    have other : r.requestHash ≠ h := by
      intro same
      rw [same, held] at free
      cases free
    simpa [Std.ExtTreeMap.getElem?_insert, other] using held
  | approval disk a asked approved added =>
    rw [added]
    refine ⟨rfl, rfl, fun _ _ held => held, ?_, fun _ _ _ held => held⟩
    intro h id a' held
    by_cases same : a.requestHash = h
    · -- Under the same request, the new approval stands under another holder.
      subst same
      have other : a.approverId ≠ id := by
        intro sameHolder
        rw [← sameHolder, approved.free] at held
        cases held
      simpa [approvalOf, fileApproval, Std.ExtTreeMap.getD_insert, Std.ExtTreeMap.getElem?_insert,
        other] using held
    · simpa [approvalOf, fileApproval, Std.ExtTreeMap.getD_insert, same] using held
  | execution disk e at_ request asked recorded added =>
    rw [added]
    refine ⟨rfl, rfl, fun _ _ held => held, fun _ _ _ held => held, ?_⟩
    intro h e' at' held
    have other : e.requestHash ≠ h := by
      intro same
      have free := recorded.free
      rw [same, Std.ExtTreeMap.contains_eq_isSome_getElem?, held] at free
      simp at free
    simpa [Std.ExtTreeMap.getElem?_insert, other] using held

/-- Any number of operations only add to the trail. -/
theorem run_trailGrows (ops : List PeerOp) : TrailGrows p (peer.run p ops) :=
  -- Growing is reflexive and transitive, and every step grows.
  Machine.run_related (P := fun _ => True) trivial Machine.permits_always
    (fun _ _ _ _ => trivial)
    (fun _ => ⟨rfl, rfl, fun _ _ held => held, fun _ _ _ held => held, fun _ _ _ held => held⟩)
    (fun _ _ _ first second => ⟨second.authority.trans first.authority,
      second.quorum.trans first.quorum, fun h r held =>
      second.requests h r (first.requests h r held),
      fun h id a held => second.approvals h id a (first.approvals h id a held),
      fun h e at_ held => second.executions h e at_ (first.executions h e at_ held)⟩)
    (fun _ op _ _ => step_trailGrows op)

/-- An execution of a window that carried fewer holders than the raised quorum asks for. -/
def cheapIn (authority : Authority) (rolling : RollingPolicy) (t : Nat)
    (recorded : DeleteExecution × Timestamp) : Bool :=
  t ≤ recorded.2.toNat && recorded.2.toNat < t + rolling.window.toNat &&
    distinctApprovers authority recorded.1 < rolling.escalateTo

/-- A window holds no more cheap executions than the policy allows before it escalates. -/
def WithinWindow (t : Nat) (p : Peer) : Prop :=
  (p.deleteExecutions.listed.filter (cheapIn p.deleteAuthority p.quorum.rolling t)).length ≤
    p.quorum.rolling.objects

/-- A cheap execution was recorded while the window around it still had room. -/
theorem room_of_cheap {t : Nat} {e : DeleteExecution} {at_ : Timestamp} {request : DeleteRequest}
    (recorded : p.Recorded e at_ request)
    (cheap : cheapIn p.deleteAuthority p.quorum.rolling t (e, at_) = true) :
    (p.deleteExecutions.listed.filter (cheapIn p.deleteAuthority p.quorum.rolling t)).length <
      p.quorum.rolling.objects := by
  -- The execution was judged by the window in front of it.
  simp only [cheapIn, Bool.and_eq_true, decide_eq_true_eq] at cheap
  obtain ⟨⟨low, high⟩, few⟩ := cheap
  obtain ⟨required, distinct, decided⟩ := recorded.decided
  -- Had the window been full when it was judged, the execution would owe the raised number.
  by_contra full
  have counted : p.quorum.rolling.objects ≤
      (p.executed.filter fun earlier =>
        at_.saturatingSince earlier < p.quorum.rolling.window).length := by
    refine Nat.le_trans (Nat.le_of_not_lt full) ?_
    rw [executed, List.filter_map, List.length_map]
    -- Every cheap execution of the window is less than a window away from this one.
    apply List.Sublist.length_le
    apply List.monotone_filter_right
    intro recorded inside
    simp only [cheapIn, Bool.and_eq_true, decide_eq_true_eq] at inside
    simp only [Function.comp_apply, decide_eq_true_eq]
    exact saturatingSince_lt low high inside.1.1
  have raised := escalateTo_le_owed request counted
  have carried := owed_le_distinctApprovers decided
  omega

/-- One operation keeps every window within its limit. -/
theorem step_withinWindow (t : Nat) (op : PeerOp) (within : WithinWindow t p) :
    WithinWindow t (peer.step p op).2 := by
  -- One kind of event after the other.
  cases step_event op with
  | none same => rwa [WithinWindow, same.executions, same.authority, same.quorum]
  | request disk r asked free added => rwa [added]
  | approval disk a asked approved added => rwa [added]
  | execution disk e at_ request asked recorded added =>
    rw [added, WithinWindow]
    dsimp only
    have absent : p.deleteExecutions[e.requestHash]? = Option.none := by
      apply Std.ExtTreeMap.getElem?_eq_none
      rw [Std.ExtTreeMap.mem_iff_contains]
      exact recorded.free
    have one := (OrdMap.listed_insert_perm (e, at_) absent).filter
      (cheapIn p.deleteAuthority p.quorum.rolling t)
    rw [one.length_eq, List.filter_cons]
    -- Only a cheap execution of this window is counted, and it found room.
    split
    · rename_i cheap
      exact room_of_cheap recorded cheap
    · exact within

/--
In every run, no window holds more cheap executions than the rolling policy's limit.

The clock may read anything at every operation, also earlier times than before.
-/
theorem cheap_executions_are_few (mode : Mode) (addressing : Addressing) (hostility : Hostility)
    (authority : Authority) (quorum : QuorumPolicy) (ops : List PeerOp) (t : Nat) :
    let p := peer.run (entrusted mode addressing hostility authority quorum) ops
    (p.deleteExecutions.listed.filter fun recorded =>
      t ≤ recorded.2.toNat ∧ recorded.2.toNat < t + quorum.rolling.window.toNat ∧
        distinctApprovers authority recorded.1 < quorum.rolling.escalateTo).length ≤
      quorum.rolling.objects := by
  -- The count is an invariant, and the authority and the policy never change.
  intro p
  have start : WithinWindow t (entrusted mode addressing hostility authority quorum) := by
    simp [WithinWindow, entrusted, Peer.new]
  have within : WithinWindow t p := Machine.run_invariant start Machine.permits_always
    fun _ op _ within => step_withinWindow t op within
  have grown : TrailGrows (entrusted mode addressing hostility authority quorum) p :=
    run_trailGrows ops
  have judge : p.deleteAuthority = authority := grown.authority
  have policy : p.quorum = quorum := grown.quorum
  rw [WithinWindow, judge, policy] at within
  refine Nat.le_trans (Nat.le_of_eq ?_) within
  congr 2
  funext recorded
  simp [cheapIn, Bool.and_assoc]

/-- An approval found after an operation was there before, or the operation recorded it. -/
theorem step_approvalOf {op : PeerOp} {h id : Digest} {a : DeleteApproval}
    (held : (peer.step p op).2.approvalOf h id = some a) :
    p.approvalOf h id = some a ∨
      (a.requestHash = h ∧ a.approverId = id ∧ p.Approved a ∧
        ∃ disk, op = .publishDeleteApproval disk a) := by
  -- Only an approval is filed among the approvals.
  cases step_event op with
  | none same =>
    rw [approvalOf, same.approvals] at held
    exact .inl held
  | request disk r asked free added =>
    rw [added] at held
    exact .inl held
  | approval disk b asked approved added =>
    rw [added] at held
    by_cases same : b.requestHash = h
    · subst same
      by_cases sameHolder : b.approverId = id
      · simp only [approvalOf, fileApproval, sameHolder, Std.ExtTreeMap.getD_insert_self,
          Std.ExtTreeMap.getElem?_insert_self, Option.some.injEq] at held
        subst held
        exact .inr ⟨rfl, sameHolder, approved, disk, asked⟩
      · left
        simpa [approvalOf, fileApproval, Std.ExtTreeMap.getElem?_insert, sameHolder] using held
    · left
      simpa [approvalOf, fileApproval, Std.ExtTreeMap.getD_insert, same] using held
  | execution disk e at_ request asked recorded added =>
    rw [added] at held
    exact .inl held

/-- An execution found after an operation was there before, or the operation judged it. -/
theorem step_executionOf {op : PeerOp} {h : Digest} {e : DeleteExecution} {at_ : Timestamp}
    (held : (peer.step p op).2.deleteExecutions[h]? = some (e, at_)) :
    p.deleteExecutions[h]? = some (e, at_) ∨
      (e.requestHash = h ∧ ∃ disk request, op = .executeDelete disk e at_ ∧
        p.Recorded e at_ request) := by
  -- Only an execution is filed among the executions.
  cases step_event op with
  | none same =>
    rw [same.executions] at held
    exact .inl held
  | request disk r asked free added =>
    rw [added] at held
    exact .inl held
  | approval disk a asked approved added =>
    rw [added] at held
    exact .inl held
  | execution disk e' at' request asked recorded added =>
    rw [added] at held
    by_cases same : e'.requestHash = h
    · simp only [same, Std.ExtTreeMap.getElem?_insert_self, Option.some.injEq,
        Prod.mk.injEq] at held
      obtain ⟨rfl, rfl⟩ := held
      exact .inr ⟨same, disk, request, asked, recorded⟩
    · simp only [Std.ExtTreeMap.getElem?_insert, Std.LawfulEqCmp.compare_eq_iff_eq, same,
        if_false] at held
      exact .inl held

/-- A fact the last step brought about came about at some step of the run. -/
theorem recorded_earlier {start : Peer} {P : Peer → Prop} {Made : Peer → PeerOp → Prop}
    {ops : List PeerOp} (nothing : ¬P start)
    (step : ∀ p op, P (peer.step p op).2 → P p ∨ Made p op)
    (holds : P (peer.run start ops)) :
    ∃ before op after, ops = before ++ op :: after ∧ Made (peer.run start before) op := by
  -- The last operation found it so, or made it so.
  induction ops using List.reverseRecOn with
  | nil => exact absurd holds nothing
  | append_singleton front last ih =>
    rw [Machine.run_append] at holds
    rcases step _ last holds with already | made
    · obtain ⟨before, op, after, split, made⟩ := ih already
      exact ⟨before, op, after ++ [last], by simp [split], made⟩
    · exact ⟨front, last, [], by simp, made⟩

/--
In every run the trail only grows, and each of its entries was recorded in its order.

An approval or execution was recorded when its request stood in the trail, an approval by a member
of the authority, and an execution on the verdict passed against the trail of that moment.
-/
theorem trail_is_append_only (mode : Mode) (addressing : Addressing) (hostility : Hostility)
    (authority : Authority) (quorum : QuorumPolicy) (ops : List PeerOp) :
    let start := entrusted mode addressing hostility authority quorum
    let p := peer.run start ops
    (∀ more, TrailGrows p (peer.run p more)) ∧
      (∀ h id a, p.approvalOf h id = some a → ∃ before disk after,
        ops = before ++ .publishDeleteApproval disk a :: after ∧ a.requestHash = h ∧
          a.approverId = id ∧ (peer.run start before).deleteRequests.contains h = true ∧
          authority.contains id = true) ∧
      ∀ (h : Digest) e at_, p.deleteExecutions[h]? = some (e, at_) → ∃ before disk after request,
        ops = before ++ .executeDelete disk e at_ :: after ∧ e.requestHash = h ∧
          (peer.run start before).deleteRequests[h]? = some request ∧
          ∃ required distinct, decideDelete request e (peer.run start before).executed quorum
            authority at_ = .execute required distinct := by
  -- Whatever is recorded was not there at the start, so one operation recorded it.
  intro start p
  refine ⟨fun more => run_trailGrows more, ?_, ?_⟩
  · intro h id a held
    have none : ¬start.approvalOf h id = some a := by
      simp [start, entrusted, Peer.new, approvalOf]
    obtain ⟨before, op, after, split, named, holder, approved, disk, rfl⟩ :=
      recorded_earlier (P := fun p => p.approvalOf h id = some a) none
        (fun p op => step_approvalOf) held
    have judge : (peer.run start before).deleteAuthority = authority :=
      (run_trailGrows before).authority
    refine ⟨before, disk, after, split, named, holder, ?_, ?_⟩
    · rw [← named]
      exact approved.known
    · rw [← holder, ← judge]
      exact approved.holder
  · intro h e at_ held
    have none : ¬start.deleteExecutions[h]? = some (e, at_) := by
      simp [start, entrusted, Peer.new]
    obtain ⟨before, op, after, split, named, disk, request, rfl, recorded⟩ :=
      recorded_earlier (P := fun p => p.deleteExecutions[h]? = some (e, at_)) none
        (fun p op => step_executionOf) held
    have judge : (peer.run start before).deleteAuthority = authority :=
      (run_trailGrows before).authority
    have policy : (peer.run start before).quorum = quorum := (run_trailGrows before).quorum
    obtain ⟨required, distinct, decided⟩ := recorded.decided
    rw [judge, policy] at decided
    refine ⟨before, disk, after, request, split, named, ?_, required, distinct, decided⟩
    rw [← named]
    exact recorded.requested

end Peer

end

end NasTools
