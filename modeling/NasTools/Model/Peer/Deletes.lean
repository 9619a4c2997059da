import NasTools.Model.Peer.State

/-! The deletion trail of a peer, and the retention floor it guards. -/

namespace NasTools.Peer

variable [Crypto]

/-- Record a signed deletion request, which deletes nothing. -/
def publishDeleteRequest (p : Peer) (disk : Disk) (r : DeleteRequest) :
    Except PeerError Digest × Peer :=
  match r.verify with
  | .error e => (.error (.delete e), p)
  | .ok () =>
    let h := r.requestHash
    match p.deleteRequests[h]? with
    -- The first record under a hash stands.
    | some held => (if held = r then .ok h else .error (.trailImmutable h), p)
    | none =>
      if p.deleteRequests.size ≥ maxDeleteRequests then (.error .deleteTrailFull, p)
      else
        match (do let _ ← r.encode.mapError PeerError.delete; disk.mapError .io) with
        | .error e => (.error e, p)
        | .ok () => (.ok h, { p with deleteRequests := p.deleteRequests.insert h r })

/-- Record an approval from a member of the authority, of a request recorded here. -/
def publishDeleteApproval (p : Peer) (disk : Disk) (a : DeleteApproval) :
    Except PeerError Unit × Peer :=
  let held := p.deleteApprovals.getD a.requestHash ∅
  match a.verify with
  | .error e => (.error (.delete e), p)
  | .ok () =>
    if ¬p.deleteRequests.contains a.requestHash then (.error (.unknownRequest a.requestHash), p)
    else if ¬p.deleteAuthority.contains a.approverId then (.error (.notAnApprover a.approverId), p)
    else if held.contains a.approverId then (.ok (), p)
    else
      match (do let _ ← a.encode.mapError PeerError.delete; disk.mapError .io) with
      | .error e => (.error e, p)
      | .ok () =>
        (.ok (), { p with
          deleteApprovals := p.deleteApprovals.insert a.requestHash (held.insert a.approverId a) })

/-- When the executions recorded here were recorded. -/
def executed (p : Peer) : List Timestamp := p.deleteExecutions.listed.map Prod.snd

/-- Judge an execution against the authority, the policy and the recorded history, and record it. -/
def executeDelete (p : Peer) (disk : Disk) (e : DeleteExecution) (now : Timestamp) :
    Except PeerError DeleteDecision × Peer :=
  match e.verify with
  | .error why => (.error (.delete why), p)
  | .ok () =>
    match p.deleteRequests[e.requestHash]? with
    | none => (.error (.unknownRequest e.requestHash), p)
    | some request =>
      match decideDelete request e p.executed p.quorum p.deleteAuthority now with
      | .refused why => (.ok (.refused why), p)
      | .execute required distinct =>
        if p.deleteExecutions.contains e.requestHash then (.ok (.execute required distinct), p)
        else
          -- Recorded before it is reported, the whole record with its time.
          match (do let _ ← e.encode.mapError PeerError.delete; disk.mapError .io) with
          | .error why => (.error why, p)
          | .ok () => (.ok (.execute required distinct),
              { p with deleteExecutions := p.deleteExecutions.insert e.requestHash (e, now) })

/-- Every approval recorded for a request. -/
def deleteApprovalsFor (p : Peer) (request : Digest) : List DeleteApproval :=
  (p.deleteApprovals.getD request ∅).listed

/-- Write the retention floor to disk; the floor in memory has changed already. -/
def persistRetention (disk : Disk) (p : Peer) : Except PeerError Unit × Peer :=
  (disk.mapError .io, p)

/-- Add to the retention floor. -/
def extendRetention (p : Peer) (disk : Disk) (addrs : List Addr) : Except PeerError Unit × Peer :=
  persistRetention disk
    { p with retention := addrs.foldl (fun floor a => floor.insert a) p.retention }

/-- Publish a complete retention floor, which must cover the one before. -/
def publishRetention (p : Peer) (disk : Disk) (proposed : List Addr) :
    Except PeerError Unit × Peer :=
  let offered : OrdSet Addr := proposed.foldl (fun floor a => floor.insert a) ∅
  match (p.retention.toList.filter fun a => ¬offered.contains a).head? with
  | some dropped =>
    if p.hostility.ignoreRetention then persistRetention disk { p with retention := offered }
    else (.error (.retentionShrink dropped p.retention.size offered.size), p)
  | none => persistRetention disk { p with retention := offered }

/-- Whether an address is protected. -/
def retains (p : Peer) (addr : Addr) : Bool := p.retention.contains addr

/--
Shrink the retention floor on the strength of an execution.

The proof must verify, and some execution must be recorded under the request it names.
-/
def forgetRetention (p : Peer) (disk : Disk) (addrs : List Addr) (proof : DeleteExecution) :
    Except PeerError Unit × Peer :=
  match proof.verify with
  | .error e => (.error (.delete e), p)
  | .ok () =>
    if ¬p.deleteExecutions.contains proof.requestHash then
      (.error (.unknownRequest proof.requestHash), p)
    else
      persistRetention disk
        { p with retention := addrs.foldl (fun floor a => floor.erase a) p.retention }

end NasTools.Peer
