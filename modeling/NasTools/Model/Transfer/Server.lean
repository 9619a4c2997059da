import NasTools.Model.Peer.Leases
import NasTools.Model.Peer.Slots
import NasTools.Model.Transfer.Wire

/-! Serving a peer over the network: the one place where a request becomes an action. -/

namespace NasTools

/--
Collect encoded items into a list answer, bounded by count and by bytes.

The collection stops before it would go over, so what is returned can be sent.
-/
def boundedFrom {T E : Type} (encode : T → Except E Bytes) (display : E → String)
    (out : List Bytes) (used : Nat) : List T → Response
  | [] => .records out
  | item :: rest =>
    if out.length = maxRecords then .records out
    else
      match encode item with
      | .error e => .error (display e)
      | .ok bytes =>
        if recordBudget < used + recordCost bytes.length then .records out
        else boundedFrom encode display (out ++ [bytes]) (used + recordCost bytes.length) rest

/-- A list answer made of as many items as fit. -/
def bounded {T E : Type} (items : List T) (encode : T → Except E Bytes) (display : E → String) :
    Response :=
  boundedFrom encode display [] 0 items

/-- A list answer carries encodings of listed items only. -/
theorem boundedFrom_records {T E : Type} {encode : T → Except E Bytes} {display : E → String}
    {items : List T} {out page : List Bytes} {used : Nat}
    (answer : boundedFrom encode display out used items = .records page) :
    ∀ bytes ∈ page, bytes ∈ out ∨ ∃ item ∈ items, encode item = .ok bytes := by
  -- Induction over the items: a page ends where its bound is reached.
  induction items generalizing out used with
  | nil =>
    obtain rfl : out = page := by simpa [boundedFrom] using answer
    exact fun bytes member => .inl member
  | cons item rest ih =>
    unfold boundedFrom at answer
    split at answer
    · obtain rfl : out = page := by simpa using answer
      exact fun bytes member => .inl member
    · split at answer
      · cases answer
      · rename_i encoded made
        split at answer
        · obtain rfl : out = page := by simpa using answer
          exact fun bytes member => .inl member
        · intro bytes member
          rcases ih answer bytes member with held | ⟨other, listed, is⟩
          · rcases List.mem_append.mp held with before | new
            · exact .inl before
            · rw [List.mem_singleton] at new
              exact .inr ⟨item, by simp, by rw [new, made]⟩
          · exact .inr ⟨other, by simp [listed], is⟩

/-- Items that all encode make a list answer, never an error. -/
theorem boundedFrom_of_encodes {T E : Type} {encode : T → Except E Bytes} {display : E → String}
    {items : List T} {out : List Bytes} {used : Nat}
    (encodes : ∀ item ∈ items, ∃ bytes, encode item = .ok bytes) :
    ∃ page, boundedFrom encode display out used items = .records page := by
  -- Only an item that does not encode makes the page fail.
  induction items generalizing out used with
  | nil => exact ⟨out, rfl⟩
  | cons item rest ih =>
    obtain ⟨bytes, made⟩ := encodes item (by simp)
    unfold boundedFrom
    split
    · exact ⟨out, rfl⟩
    · simp only [made]
      split
      · exact ⟨out, rfl⟩
      · exact ih fun other member => encodes other (by simp [member])

variable [Crypto]

/-- The answer to an operation whose value is not sent. -/
def acknowledged {A : Type} (result : Except PeerError A × Peer) : Response × Peer :=
  match result with
  | (.ok _, p) => (.ok, p)
  | (.error e, p) => (.error e.display, p)

/-- Decode what a client sent and act on it, or answer with the decoder's error. -/
def onDecoded {T E : Type} (p : Peer) (decoded : Except E T) (display : E → String)
    (act : T → Response × Peer) : Response × Peer :=
  match decoded with
  | .ok value => act value
  | .error e => (.error (display e), p)

/-- Whether a witness-only node answers a request. -/
def Request.relayed : Request → Bool
  | .publishWitness _ | .witnesses _ => true
  | _ => false

/--
Handle one request against a peer that reads its own clock.

The history of a slot is asked for by a range, and a range that starts above its end is a panic
in the source: no answer is given for it.
-/
def handleAt (p : Peer) (disk : Disk) (subject : String) (now : Timestamp) (req : Request) :
    Option Response × Peer :=
  -- A witness-only node refuses before any store is touched.
  if p.witnessOnly ∧ ¬req.relayed then (some (.error PeerError.witnessOnly.display), p)
  else
    let sent (result : Response × Peer) : Option Response × Peer := (some result.1, result.2)
    match req with
    | .getBlob addr =>
      match p.getBlob addr with
      | .ok data => (some (.blob data), p)
      | .error e => (some (.error e.display), p)
    | .hasBlob addr => (some (.bool (p.hasBlob addr)), p)
    | .putBlob data =>
      match p.putBlob disk now data with
      | (.ok addr, p) => (some (.stored addr), p)
      | (.error e, p) => (some (.error e.display), p)
    | .prove addr nonce =>
      match p.prove disk now addr nonce with
      | (.ok digest, p) => (some (.proof digest), p)
      | (.error e, p) => (some (.error e.display), p)
    | .slotHead slot => (some (.record ((p.slotHead slot).bind fun r => r.encode.toOption)), p)
    | .slotHistory slot start =>
      ((p.slotHistory slot start).map fun records =>
        bounded records SlotRecord.encode RecordError.display, p)
    | .publishSlot bytes =>
      sent (onDecoded p (SlotRecord.decode bytes) RecordError.display fun rec =>
        acknowledged (p.publishSlot disk subject rec))
    | .publishWitness bytes =>
      sent (onDecoded p (Witness.decode bytes) WitnessError.display fun w =>
        acknowledged (p.publishWitness disk w))
    | .witnesses slot =>
      (some (bounded (p.witnessesOf slot) Witness.encode WitnessError.display), p)
    | .publishHandoff bytes =>
      sent (onDecoded p (SlotHandoff.decode bytes) HandoffError.display fun h =>
        acknowledged (p.publishHandoff disk h))
    | .handoffs slot =>
      (some (bounded (p.handoffsOf slot) SlotHandoff.encode HandoffError.display), p)
    | .publishCheckpoint bytes =>
      sent (onDecoded p (Checkpoint.decode bytes) CheckpointError.display fun c =>
        acknowledged (p.publishCheckpoint disk c))
    | .checkpoints slot start =>
      (some (bounded (p.checkpointsOf slot start) Checkpoint.encode CheckpointError.display), p)
    -- The holder comes from the authenticated subject, never from the request.
    | .takeLease addrs => sent (acknowledged (p.takeLease disk (Peer.holderId subject) addrs now))
    | .releaseLease addrs =>
      sent (acknowledged (p.releaseLease disk (Peer.holderId subject) addrs now))
    | .leases => (some (.addrs (p.leasesOf (Peer.holderId subject))), p)
    | .sweepWarnings => (some (.addrs (p.sweepWarnings (Peer.holderId subject) now)), p)
    -- Of the deletion loop only the opening of a request is gated by the access list.
    | .publishDeleteRequest bytes =>
      let decision := p.acl.check subject .deleteRequest p.mode
      if ¬decision.permits then (some (.error (PeerError.refused decision).display), p)
      else
        sent (onDecoded p (DeleteRequest.decode bytes) DeleteError.display fun r =>
          match p.publishDeleteRequest disk r with
          | (.ok h, p) => (.proof h, p)
          | (.error e, p) => (.error e.display, p))
    | .publishDeleteApproval bytes =>
      sent (onDecoded p (DeleteApproval.decode bytes) DeleteError.display fun a =>
        acknowledged (p.publishDeleteApproval disk a))
    | .executeDelete bytes =>
      sent (onDecoded p (DeleteExecution.decode bytes) DeleteError.display fun e =>
        match p.executeDelete disk e now with
        | (.ok (.execute _ _), p) => (.ok, p)
        | (.ok (.refused why), p) => (.error why.display, p)
        | (.error e, p) => (.error e.display, p))
    | .deleteRequestRecord h =>
      (some (.record (p.deleteRequests[h]?.bind fun r => r.encode.toOption)), p)
    | .deleteApprovals h =>
      (some (bounded (p.deleteApprovalsFor h) DeleteApproval.encode DeleteError.display), p)
    | .forgetRetention addrs proof =>
      sent (onDecoded p (DeleteExecution.decode proof) DeleteError.display fun e =>
        acknowledged (p.forgetRetention disk addrs e))

end NasTools
