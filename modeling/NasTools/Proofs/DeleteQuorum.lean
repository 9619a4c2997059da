import NasTools.Proofs.Quorum

/-!
The approval loop: devices that wait by their own clocks before they sign, and a peer
anybody brings records to.

Over whole runs, every execution has a quorum behind it, and every member of that waited.
-/

namespace NasTools

section

variable [Crypto]

/--
A device of the offline authority, with the times at which it first saw each request
by its own clock.
-/
structure ApproverDevice where
  identity : Identity
  approver : Approver
  seen : OrdMap Digest Timestamp

/-- A signature that was made: by which device, and over which request. -/
structure SignedApproval (D : Type) where
  device : D
  request : Digest
deriving DecidableEq

/-- The devices, every approval they ever signed, and the peer. -/
structure DeleteQuorum (D : Type) where
  devices : D → ApproverDevice
  approvals : List (SignedApproval D)
  peer : Peer

/-- What can happen in the loop; times are read off the clock of whoever acts. -/
inductive QuorumAction (D : Type) where
  | learn (d : D) (request : DeleteRequest) (now : Timestamp)
  -- Whoever carries the request to the device may assert any time of arrival.
  | approve (d : D) (request : DeleteRequest) (asserted now : Timestamp)
  | peer (op : PeerOp)

/--
The devices and the peer, one action after the other; a device that signs hands out its approval.
-/
def deleteQuorum (D : Type) [DecidableEq D] :
    Machine (DeleteQuorum D) (QuorumAction D) (Option DeleteApproval) where
  step s
    | .learn d request now =>
      let device := s.devices d
      -- The first stamp stands.
      if device.seen.contains request.requestHash then (none, s)
      else
        let device := { device with seen := device.seen.insert request.requestHash now }
        (none, { s with devices := Function.update s.devices d device })
    | .approve d request _ now =>
      let device := s.devices d
      match device.seen[request.requestHash]? with
      | none => (none, s)
      | some firstSeen =>
        match device.approver.approve device.identity request firstSeen now with
        | .ok (some a) =>
          (some a, { s with approvals := s.approvals ++ [⟨d, request.requestHash⟩] })
        | .ok none | .error _ => (none, s)
    | .peer op => (none, { s with peer := (peer.step s.peer op).2 })

variable {D : Type} [DecidableEq D]

/-- The approvals an operation brings to the peer. -/
def PeerOp.approvals : PeerOp → List DeleteApproval
  | .publishDeleteApproval _ a => [a]
  | .executeDelete _ e _ => e.approvals
  | .forgetRetention _ _ proof => proof.approvals
  | _ => []

/--
No signature of the authority is forged.

What verifies as an approval by one of its members was signed by the device that has
the key. Anybody else may sign what they like, and what was signed may be brought
anywhere, as often as they like.
-/
def Unforged (s : DeleteQuorum D) : QuorumAction D → Prop
  | .peer op => ∀ a ∈ op.approvals, a.verify = .ok () →
    s.peer.deleteAuthority.contains a.approverId = true →
      ∃ made ∈ s.approvals, (s.devices made.device).identity.id = a.approverId ∧
        made.request = a.requestHash
  | _ => True

/-- When a device was first shown a request. -/
def firstShown (d : D) (request : Digest) : List (QuorumAction D) → Option Timestamp
  | [] => none
  | .learn d' r now :: rest => if d' = d ∧ r.requestHash = request then some now
    else firstShown d request rest
  | _ :: rest => firstShown d request rest

/-- The first showing is in the first part, or else in the second. -/
theorem firstShown_append (d : D) (request : Digest) (first second : List (QuorumAction D)) :
    firstShown d request (first ++ second) =
      (firstShown d request first).or (firstShown d request second) := by
  -- Induction over the first actions: the first showing counts.
  induction first with
  | nil => rfl
  | cons action rest ih =>
    cases action with
    | learn d' r now =>
      simp only [List.cons_append, firstShown]
      split
      · rfl
      · exact ih
    | approve | peer => exact ih

/--
A device signed a request once its cooling-off was over, counted from when it was first shown it.
-/
def Matured (devices : D → ApproverDevice) (actions : List (QuorumAction D)) (d : D)
    (request : Digest) : Prop :=
  ∃ early r asserted now late firstSeen, actions = early ++ .approve d r asserted now :: late ∧
    r.requestHash = request ∧ firstShown d request early = some firstSeen ∧
    (devices d).approver.coolingOff ≤ now.saturatingSince firstSeen

/-- What has matured stays so. -/
theorem Matured.append {devices : D → ApproverDevice} {actions : List (QuorumAction D)} {d : D}
    {request : Digest} (matured : Matured devices actions d request)
    (more : List (QuorumAction D)) :
    Matured devices (actions ++ more) d request := by
  obtain ⟨early, r, asserted, now, late, firstSeen, rfl, rest⟩ := matured
  exact ⟨early, r, asserted, now, late ++ more, firstSeen, by simp, rest⟩

/--
An execution of a run with everything behind it.

At its time the request was in the trail, where it still is, and as many members of the
authority as the policy asked for then had each signed it, not early, none of them the
requester and none counted twice.
-/
def Authorised (start : DeleteQuorum D) (actions : List (QuorumAction D)) (e : DeleteExecution)
    (at_ : Timestamp) :
    Prop :=
  ∃ before disk after request, actions = before ++ .peer (.executeDelete disk e at_) :: after ∧
    ((deleteQuorum D).run start before).peer.deleteRequests[e.requestHash]? = some request ∧
    ((deleteQuorum D).run start actions).peer.deleteRequests[e.requestHash]? = some request ∧
    needed request ((deleteQuorum D).run start before).peer.executed start.peer.quorum at_ ≤
      (holdersOf e).card ∧
    ∀ id ∈ holdersOf e, start.peer.deleteAuthority.contains id = true ∧ id ≠ request.requesterId ∧
      ∃ d, (start.devices d).identity.id = id ∧ Matured start.devices before d e.requestHash

namespace DeleteQuorum

variable {start s : DeleteQuorum D} {actions : List (QuorumAction D)}

/-- What a run keeps: the keys, the stamps, and that every signature had matured. -/
structure Kept (start : DeleteQuorum D) (actions : List (QuorumAction D))
    (s : DeleteQuorum D) : Prop where
  keys : ∀ d, (s.devices d).identity = (start.devices d).identity ∧
    (s.devices d).approver = (start.devices d).approver
  seen : ∀ d (h : Digest), (s.devices d).seen[h]? = firstShown d h actions
  signed : ∀ made ∈ s.approvals, Matured start.devices actions made.device made.request
  authority : s.peer.deleteAuthority = start.peer.deleteAuthority
  quorum : s.peer.quorum = start.peer.quorum

/-- Showing a device a request stamps it, unless it has a stamp. -/
theorem Kept.learn (kept : Kept start actions s) (d : D) (request : DeleteRequest)
    (now : Timestamp) :
    Kept start (actions ++ [.learn d request now])
      ((deleteQuorum D).step s (.learn d request now)).2 := by
  -- Only the first showing of a request leaves a stamp.
  have shown (d' : D) (h : Digest) : firstShown d' h (actions ++ [.learn d request now]) =
      (firstShown d' h actions).or (if d = d' ∧ request.requestHash = h then some now
        else none) := by
    rw [firstShown_append]
    rfl
  have signed : ∀ made ∈ s.approvals, Matured start.devices (actions ++ [.learn d request now])
      made.device made.request :=
    fun made member => (kept.signed made member).append _
  simp only [deleteQuorum]
  split
  · rename_i stamped
    refine ⟨kept.keys, ?_, signed, kept.authority, kept.quorum⟩
    intro d' h
    rw [shown, kept.seen d' h]
    split
    · rename_i here
      obtain ⟨rfl, rfl⟩ := here
      -- There is a stamp, and it is the one of the first showing.
      rw [Std.ExtTreeMap.contains_eq_isSome_getElem?, kept.seen] at stamped
      obtain ⟨firstSeen, is⟩ := Option.isSome_iff_exists.mp stamped
      rw [is, Option.some_or]
    · rw [Option.or_none]
  · rename_i unstamped
    refine ⟨?_, ?_, signed, kept.authority, kept.quorum⟩
    · intro d'
      dsimp only
      rw [Function.update_apply]
      split
      · rename_i same
        subst same
        exact kept.keys d'
      · exact kept.keys d'
    · intro d' h
      dsimp only
      rw [shown, Function.update_apply]
      by_cases same : d' = d
      · subst same
        rw [if_pos rfl, Std.ExtTreeMap.getElem?_insert, kept.seen]
        by_cases here : request.requestHash = h
        · subst here
          rw [Std.ExtTreeMap.contains_eq_isSome_getElem?, kept.seen, Option.not_isSome_iff_eq_none]
            at unstamped
          simp [unstamped]
        · simp [here]
      · rw [if_neg same, if_neg (fun both => same both.1.symm), Option.or_none, kept.seen]

/-- A device that signs does so with its own stamp, whatever time of arrival it is told. -/
theorem Kept.approve (kept : Kept start actions s) (d : D) (request : DeleteRequest)
    (asserted now : Timestamp) :
    Kept start (actions ++ [.approve d request asserted now])
      ((deleteQuorum D).step s (.approve d request asserted now)).2 := by
  -- Approving leaves the stamps alone, and a new signature comes after the cooling-off.
  have seen : ∀ d' (h : Digest),
      (s.devices d').seen[h]? = firstShown d' h (actions ++ [.approve d request asserted now]) := by
    intro d' h
    rw [firstShown_append, kept.seen]
    exact Option.or_none.symm
  have signed : ∀ made ∈ s.approvals,
      Matured start.devices (actions ++ [.approve d request asserted now]) made.device
      made.request :=
    fun made member => (kept.signed made member).append _
  simp only [deleteQuorum]
  split
  · exact ⟨kept.keys, seen, signed, kept.authority, kept.quorum⟩
  rename_i firstSeen stamped
  split
  · rename_i a approved
    refine ⟨kept.keys, seen, ?_, kept.authority, kept.quorum⟩
    intro made member
    rcases List.mem_append.mp member with before | last
    · exact signed made before
    · -- The new signature was made once the cooling-off from the device's own stamp was over.
      obtain rfl := List.mem_singleton.mp last
      have waited := (Approver.approve_eq_some approved).1
      rw [(kept.keys d).2] at waited
      exact ⟨actions, request, asserted, now, [], firstSeen, rfl, rfl,
        (kept.seen d _).symm.trans stamped, waited⟩
  · exact ⟨kept.keys, seen, signed, kept.authority, kept.quorum⟩
  · exact ⟨kept.keys, seen, signed, kept.authority, kept.quorum⟩

/-- Nothing done to the peer touches the devices. -/
theorem Kept.peer (kept : Kept start actions s) (op : PeerOp) :
    Kept start (actions ++ [.peer op]) ((deleteQuorum D).step s (.peer op)).2 := by
  -- The peer's own steps leave the devices alone.
  have grows := Peer.step_trailGrows (p := s.peer) op
  refine ⟨kept.keys, ?_, fun made member => (kept.signed made member).append _,
    grows.authority.trans kept.authority, grows.quorum.trans kept.quorum⟩
  intro d h
  rw [firstShown_append]
  exact (kept.seen d h).trans Option.or_none.symm

/-- Every action keeps the invariant. -/
theorem Kept.step (kept : Kept start actions s) (action : QuorumAction D) :
    Kept start (actions ++ [action]) ((deleteQuorum D).step s action).2 := by
  cases action with
  | learn d request now => exact kept.learn d request now
  | approve d request asserted now => exact kept.approve d request asserted now
  | peer op => exact kept.peer op

/-- Devices that have been shown nothing yet, and have signed nothing. -/
structure Fresh (start : DeleteQuorum D) : Prop where
  unseen : ∀ d, (start.devices d).seen = ∅
  unsigned : start.approvals = []

/-- Every run keeps what a step keeps. -/
theorem kept_run (fresh : Fresh start) (actions : List (QuorumAction D)) :
    Kept start actions ((deleteQuorum D).run start actions) := by
  -- Induction over the run, one action at its end.
  induction actions using List.reverseRecOn with
  | nil =>
    refine ⟨fun _ => ⟨rfl, rfl⟩, ?_, ?_, rfl, rfl⟩
    · intro d h
      rw [Machine.run_nil, fresh.unseen d]
      rfl
    · rw [Machine.run_nil, fresh.unsigned]
      simp
  | append_singleton front last ih =>
    rw [Machine.run_append]
    exact ih.step last

/--
An approval that verifies and is by a member of the authority was signed by a device
that had waited.
-/
theorem Kept.matured_of_unforged (kept : Kept start actions s) {op : PeerOp}
    (unforged : Unforged s (.peer op)) {a : DeleteApproval} (brought : a ∈ op.approvals)
    (verified : a.verify = .ok ()) (member : s.peer.deleteAuthority.contains a.approverId = true) :
    ∃ d, (start.devices d).identity.id = a.approverId ∧
      Matured start.devices actions d a.requestHash := by
  obtain ⟨made, signed, id, request⟩ := unforged a brought verified member
  rw [(kept.keys made.device).1] at id
  exact ⟨made.device, id, request ▸ kept.signed made signed⟩

/-- Only an approval that verifies is filed. -/
theorem verified_of_filed {p : Peer} {disk : Disk} {a : DeleteApproval} (approved : p.Approved a)
    (filed : (p.publishDeleteApproval disk a).2 = p.fileApproval a) : a.verify = .ok () := by
  -- The approval verifies or it does not.
  cases checked : a.verify with
  | ok u => rfl
  | error e =>
    -- A refused approval would leave the peer as it was, with nothing under this holder.
    have same : (p.publishDeleteApproval disk a).2 = p := by
      simp [Peer.publishDeleteApproval, checked]
    have there : (p.fileApproval a).approvalOf a.requestHash a.approverId = some a := by
      simp [Peer.approvalOf, Peer.fileApproval]
    rw [← filed, same, approved.free] at there
    cases there

/-- An approval on file is the one that was just filed, or was there before. -/
theorem approvalOf_fileApproval {p : Peer} {a b : DeleteApproval} {h id : Digest}
    (held : (p.fileApproval a).approvalOf h id = some b) :
    (h = a.requestHash ∧ id = a.approverId) ∨ p.approvalOf h id = some b := by
  -- What is found was filed before, or it is the new approval.
  by_cases same : a.requestHash = h
  · subst same
    by_cases holder : a.approverId = id
    · exact .inl ⟨rfl, holder.symm⟩
    · right
      simpa [Peer.approvalOf, Peer.fileApproval, Std.ExtTreeMap.getElem?_insert, holder] using held
  · right
    simpa [Peer.approvalOf, Peer.fileApproval, Std.ExtTreeMap.getD_insert, same] using held

/-- Every approval an execution carries names the request the execution names. -/
theorem requestHash_of_verify {e : DeleteExecution} (verified : e.verify = .ok ())
    {a : DeleteApproval} (carried : a ∈ e.approvals) : a.requestHash = e.requestHash := by
  -- Verifying an execution checks each of its approvals.
  simp only [DeleteExecution.verify, DeleteExecution.checkApproval, except_bind_eq_ok, forM_eq_ok,
    ensure_eq_ok] at verified
  obtain ⟨_, checked, _⟩ := verified
  obtain ⟨_, _, same⟩ := checked a carried
  exact same

/-- The peer's trail of approvals and executions has matured signatures behind it. -/
structure Backed (start : DeleteQuorum D) (actions : List (QuorumAction D)) (p : Peer) : Prop where
  approvals : ∀ h id a, p.approvalOf h id = some a → start.peer.deleteAuthority.contains id = true ∧
    ∃ d, (start.devices d).identity.id = id ∧ Matured start.devices actions d h
  executions : ∀ (h : Digest) e at_, p.deleteExecutions[h]? = some (e, at_) →
    e.requestHash = h ∧ Authorised start actions e at_

/-- An execution stays authorised, as the trail keeps its request. -/
theorem authorised_append {e : DeleteExecution} {at_ : Timestamp}
    (authorised : Authorised start actions e at_) (action : QuorumAction D) :
    Authorised start (actions ++ [action]) e at_ := by
  -- The peer still holds the request after one more action.
  obtain ⟨before, disk, after, request, rfl, then_, now, rest⟩ := authorised
  refine ⟨before, disk, after ++ [action], request, by simp, then_, ?_, rest⟩
  rw [Machine.run_append, Machine.run_cons, Machine.run_nil]
  cases action with
  | learn d r at_ =>
    simp only [deleteQuorum] at now ⊢
    split <;> exact now
  | approve d r asserted at_ =>
    simp only [deleteQuorum] at now ⊢
    split
    · exact now
    · split <;> exact now
  | peer op => exact (Peer.step_trailGrows op).requests _ _ now

/-- The execution that is recorded now has a quorum, each member of which waited. -/
theorem authorised_of_recorded {request : DeleteRequest} {disk : Disk} {e : DeleteExecution}
    {at_ : Timestamp} (kept : Kept start actions ((deleteQuorum D).run start actions))
    (unforged : Unforged ((deleteQuorum D).run start actions) (.peer (.executeDelete disk e at_)))
    (recorded : ((deleteQuorum D).run start actions).peer.Recorded e at_ request) :
    Authorised start (actions ++ [.peer (.executeDelete disk e at_)]) e at_ := by
  -- The recorded decision is a quorum of signatures, each of which was made by a device that had
  -- waited.
  obtain ⟨required, distinct, decided⟩ := recorded.decided
  obtain ⟨quorum, _, _⟩ := decideDelete_execute_iff.mp decided
  refine ⟨actions, disk, [], request, rfl, recorded.requested, ?_, ?_, ?_⟩
  · rw [Machine.run_append, Machine.run_cons, Machine.run_nil]
    exact (Peer.step_trailGrows (.executeDelete disk e at_)).requests _ _ recorded.requested
  · rw [← kept.quorum]
    exact quorum.carried.enough
  · intro id holder
    obtain ⟨a, carried, rfl⟩ := List.mem_map.mp (List.mem_toFinset.mp holder)
    have counts := quorum.carried.good a carried
    have matured := kept.matured_of_unforged unforged carried counts.verified counts.member
    rw [requestHash_of_verify quorum.signed carried] at matured
    exact ⟨kept.authority ▸ counts.member, counts.other, matured⟩

/-- One action leaves the trail backed, where no signature is forged. -/
theorem Backed.step (backed : Backed start actions ((deleteQuorum D).run start actions).peer)
    (kept : Kept start actions ((deleteQuorum D).run start actions)) {action : QuorumAction D}
    (unforged : Unforged ((deleteQuorum D).run start actions) action) :
    Backed start (actions ++ [action]) ((deleteQuorum D).step ((deleteQuorum D).run start actions)
      action).2.peer := by
  -- Only the peer's own filing adds something to back: an approval or an execution.
  have same {p : Peer}
    (approvals : p.deleteApprovals = ((deleteQuorum D).run start actions).peer.deleteApprovals)
      (executions : p.deleteExecutions =
        ((deleteQuorum D).run start actions).peer.deleteExecutions) :
      Backed start (actions ++ [action]) p := by
    constructor
    · intro h id a held
      rw [Peer.approvalOf, approvals] at held
      obtain ⟨member, d, is, matured⟩ := backed.approvals h id a held
      exact ⟨member, d, is, matured.append _⟩
    · intro h e at_ held
      rw [executions] at held
      obtain ⟨named, authorised⟩ := backed.executions h e at_ held
      exact ⟨named, authorised_append authorised action⟩
  cases action with
  | learn d r now =>
    simp only [deleteQuorum] at same ⊢
    split <;> exact same rfl rfl
  | approve d r asserted now =>
    simp only [deleteQuorum] at same ⊢
    split
    · exact same rfl rfl
    · split <;> exact same rfl rfl
  | peer op =>
    have event := Peer.step_event (p := ((deleteQuorum D).run start actions).peer) op
    have stepped : ((deleteQuorum D).step ((deleteQuorum D).run start actions) (.peer op)).2.peer =
      (NasTools.peer.step ((deleteQuorum D).run start actions).peer op).2 := rfl
    rw [stepped]
    cases event with
    | none untouched => exact same untouched.approvals untouched.executions
    | request disk r asked free added =>
      rw [added]
      exact same rfl rfl
    | approval disk a asked approved added =>
      subst asked
      have verified := verified_of_filed approved added
      obtain ⟨d, is, matured⟩ :=
        kept.matured_of_unforged unforged (List.mem_singleton_self a) verified approved.holder
      rw [added]
      constructor
      · intro h id b held
        rcases approvalOf_fileApproval held with ⟨rfl, rfl⟩ | before
        · exact ⟨kept.authority ▸ approved.holder, d, is, matured.append _⟩
        · exact (same rfl rfl).approvals h id b before
      · exact (same rfl rfl).executions
    | execution disk e at_ request asked recorded added =>
      subst asked
      rw [added]
      refine ⟨(same rfl rfl).approvals, ?_⟩
      intro h e' at' held
      by_cases here : e.requestHash = h
      · subst here
        rw [Std.ExtTreeMap.getElem?_insert_self, Option.some.injEq, Prod.mk.injEq] at held
        obtain ⟨rfl, rfl⟩ := held
        exact ⟨rfl, authorised_of_recorded kept unforged recorded⟩
      · rw [Std.ExtTreeMap.getElem?_insert,
          if_neg (fun equal => here (Std.LawfulEqCmp.eq_of_compare equal))] at held
        exact (same rfl rfl).executions h e' at' held

/-- Over a run without forgeries, the trail stays backed. -/
theorem backed_run (fresh : Fresh start) (approvals : start.peer.deleteApprovals = ∅)
    (executions : start.peer.deleteExecutions = ∅) {actions : List (QuorumAction D)}
    (permitted : (deleteQuorum D).Permits Unforged start actions) :
    Backed start actions ((deleteQuorum D).run start actions).peer := by
  -- Induction over the run, with what every run keeps at each step.
  induction actions using List.reverseRecOn with
  | nil =>
    constructor
    · intro h id a held
      simp [Peer.approvalOf, approvals] at held
    · intro h e at_ held
      simp [executions] at held
  | append_singleton front last ih =>
    obtain ⟨before, here, _⟩ := Machine.permits_append.mp permitted
    rw [Machine.run_append, Machine.run_cons, Machine.run_nil]
    exact (ih before).step (kept_run fresh front) here

end DeleteQuorum

/--
Nothing is deleted without a quorum that waited, whoever brings the records and in whatever order.

Records may be replayed, re-targeted, minted with other keys and back-dated: every approval on file,
and every holder an execution counts, is of a member of the authority whose own device signed that
very request, no earlier than its cooling-off after it was first shown it; and there are as many as
the policy asks for at that moment.
-/
theorem executions_have_matured_quorums {devices : D → ApproverDevice}
    (unseen : ∀ d, (devices d).seen = ∅) (mode : Mode) (addressing : Addressing)
    (hostility : Hostility) (authority : Authority) (quorum : QuorumPolicy)
    {actions : List (QuorumAction D)} (permitted : (deleteQuorum D).Permits Unforged
      ⟨devices, [], Peer.entrusted mode addressing hostility authority quorum⟩ actions) :
    let start : DeleteQuorum D :=
  ⟨devices, [], Peer.entrusted mode addressing hostility authority quorum⟩
    let reached := ((deleteQuorum D).run start actions).peer
    (∀ h id a, reached.approvalOf h id = some a → authority.contains id = true ∧
      ∃ d, (devices d).identity.id = id ∧ Matured devices actions d h) ∧
    ∀ (h : Digest) e at_, reached.deleteExecutions[h]? = some (e, at_) →
      e.requestHash = h ∧ Authorised start actions e at_ := by
  -- A fresh start has nothing to back, and every run keeps what it has backed.
  intro start reached
  have fresh : DeleteQuorum.Fresh start := ⟨unseen, rfl⟩
  have backed := DeleteQuorum.backed_run fresh rfl rfl permitted
  exact ⟨backed.approvals, backed.executions⟩

end

section

open Concrete

/-- The one approver is shown a request, signs it a week later, and the deletion is executed. -/
def approvedRun : List (QuorumAction Unit) :=
  [.learn () heldRequest 10, .peer (.publishDeleteRequest (.ok ()) heldRequest),
    .approve () heldRequest 0 (10 + 7 * 86400),
    .peer (.executeDelete (.ok ()) (heldExecution 1 [heldApproval]) 5)]

/-- The execution of that run had a matured quorum. -/
theorem approved_run_is_authorised :
    Authorised ⟨fun _ => ⟨identity 2, .default, ∅⟩, [],
      .entrusted .e2ee .content .honest (Authority.empty.add (identity 2).verifyingKey) .default⟩
        approvedRun
      (heldExecution 1 [heldApproval]) 5 := by
  -- The run is evaluated: its one approval was made, and its execution is recorded.
  have permitted : (deleteQuorum Unit).Permits Unforged ⟨fun _ => ⟨identity 2, .default, ∅⟩, [],
      .entrusted .e2ee .content .honest (Authority.empty.add (identity 2).verifyingKey) .default⟩
      approvedRun := by
    refine ⟨trivial, ?_, trivial, ?_, trivial⟩
    · simp [Unforged, PeerOp.approvals]
    · intro a brought _ _
      obtain rfl : a = heldApproval := by simpa [PeerOp.approvals, heldExecution] using brought
      refine ⟨⟨(), heldRequest.requestHash⟩, ?_, by decide +kernel, rfl⟩
      decide +kernel
  have both := executions_have_matured_quorums (fun _ => rfl) .e2ee .content .honest
    (Authority.empty.add (identity 2).verifyingKey) .default permitted
  refine (both.2 heldRequest.requestHash _ _ ?_).2
  decide +kernel

end

end NasTools
