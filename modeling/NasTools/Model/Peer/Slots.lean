import NasTools.Model.Peer.State

/-! What a peer does with slots: records, handoffs, checkpoints and witnesses. -/

namespace NasTools.Peer

variable [Crypto]

/-- The branch this connection sees. -/
def branch (p : Peer) (slot : SlotId) : Option History :=
  if p.hostility.fork ∧ p.view ≠ 0 then (p.forks[slot]?).or p.slots[slot]? else p.slots[slot]?

/-- Write rights, the roster and the signature: what is checked before any history is read. -/
def admitSlot (p : Peer) (subject : String) (rec : SlotRecord) : Except PeerError Unit := do
  let write := p.acl.check subject .write p.mode
  let append := p.acl.check subject .append p.mode
  -- The right to append also permits publishing: the peer cannot see what an update removes.
  ensure (write.permits ∨ append.permits) (.refused write)
  let vk ← okOr (p.roster.get rec.writerId) .notRostered
  (rec.verify vk).mapError .slot

/-- The greatest sequence a slot holds, with its record. -/
def headOf (p : Peer) (slot : SlotId) : Option (UInt64 × SlotRecord) := do
  let history ← p.slots[slot]?
  let head ← history.lastKey?
  let prior ← history[head]?
  return (head, prior)

/-- Some handoff this peer holds authorises a change of writer. -/
def authorised (p : Peer) (slot : SlotId) (seq : UInt64) (outgoing incoming : WriterId) : Bool :=
  match p.handoffs[slot]? with
  | none => false
  | some hs => hs.listed.any fun h => h.authorises slot seq outgoing incoming

/-- Compare-and-swap, the link, and ownership, against the head a slot is at. -/
def checkNext (p : Peer) (rec : SlotRecord) : Except PeerError Unit :=
  match p.headOf rec.slotId with
  | none => ensure (rec.seq = 0) (.casConflict 0 rec.seq)
  | some (head, prior) => do
    ensure (rec.seq = head + 1) (.casConflict head rec.seq)
    ensure (rec.prev = prior.recordHash) (.brokenChain rec.seq)
    ensure (¬(prior.regime = .singleWriter ∧ prior.writerId ≠ rec.writerId) ∨
      p.authorised rec.slotId rec.seq prior.writerId rec.writerId) (.concurrentWriter rec.seq)

/-- The records of the main branch below a sequence, which a second branch is seeded with. -/
def sharedPrefix (p : Peer) (slot : SlotId) (seq : UInt64) : History :=
  match p.slots[slot]? with
  | none => ∅
  | some history => history.filter fun k _ => k < seq

/-- The second branch of a slot, seeded with the shared prefix when it is empty. -/
def seededFork (p : Peer) (rec : SlotRecord) : History :=
  let alt := p.forks.getD rec.slotId ∅
  if alt.isEmpty then p.sharedPrefix rec.slotId rec.seq else alt

/-- A record that lost the race for the next sequence, which a forking peer keeps aside. -/
def losesRace (p : Peer) (rec : SlotRecord) : Bool :=
  match p.headOf rec.slotId with
  | none => false
  | some (head, _) => rec.seq ≠ head + 1

/-- Publish on the branch nobody else is shown, by the same rules as on the main one. -/
def publishOnFork (p : Peer) (rec : SlotRecord) : Except PeerError Unit × Peer :=
  let alt := p.seededFork rec
  let seeded := { p with forks := p.forks.insert rec.slotId alt }
  let added := { p with forks := p.forks.insert rec.slotId (alt.insert rec.seq rec) }
  match alt.lastKey? with
  | none => if rec.seq = 0 then (.ok (), added) else (.error (.casConflict 0 rec.seq), seeded)
  | some head =>
    if rec.seq ≠ head + 1 then (.error (.casConflict head rec.seq), seeded)
    else if some rec.prev ≠ (alt[head]?).map SlotRecord.recordHash then
      (.error (.brokenChain rec.seq), seeded)
    else (.ok (), added)

/-- File a record under its slot and sequence. -/
def fileSlot (p : Peer) (rec : SlotRecord) : Peer :=
  let history := p.slots.getD rec.slotId ∅
  { p with slots := p.slots.insert rec.slotId (history.insert rec.seq rec) }

/-- Write one record to disk, before it is acknowledged. -/
def persistSlot (disk : Disk) (rec : SlotRecord) : Except PeerError Unit := do
  let _ ← rec.encode.mapError PeerError.slot
  disk.mapError .io

/-- Accept a slot update. -/
def publishSlot (p : Peer) (disk : Disk) (subject : String) (rec : SlotRecord) :
    Except PeerError Unit × Peer :=
  match p.admitSlot subject rec with
  | .error e => (.error e, p)
  | .ok () =>
    if p.hostility.fork ∧ p.view ≠ 0 then p.publishOnFork rec
    -- An honest peer refuses the loser of a race; a forking one keeps it as a second branch.
    else if p.hostility.fork ∧ p.losesRace rec ∧
        ¬(p.forks.getD rec.slotId ∅).contains rec.seq then
      (.ok (),
        { p with forks := p.forks.insert rec.slotId ((p.seededFork rec).insert rec.seq rec) })
    else
      match p.checkNext rec with
      | .error e => (.error e, p)
      | .ok () =>
        match persistSlot disk rec with
        | .error e => (.error e, p)
        | .ok () => (.ok (), p.fileSlot rec)

/-- The current head, or what a rolling-back peer claims it is. -/
def slotHead (p : Peer) (slot : SlotId) : Option SlotRecord := do
  let history ← p.branch slot
  if p.hostility.rollback ∧ history.size > 1 then
    history.listed.dropLast.getLast?
  else history.last?

/--
The retained history from a sequence up to the head.

A range that starts above its end is a panic in the source, and nothing is returned for it.
-/
def slotHistory (p : Peer) (slot : SlotId) (start : UInt64) : Option (List SlotRecord) :=
  match p.branch slot with
  | none => some []
  | some history =>
    let upper := ((p.slotHead slot).map SlotRecord.seq).getD u64Max
    if upper < start then none
    else some (history.listedWhere fun k => start ≤ k && k ≤ upper)

/-- The key a handoff is filed under. -/
def handoffKey (h : SlotHandoff) : HandoffKey := (h.atSeq, h.fromWriter, h.toWriter)

/-- File a handoff under what it authorises. -/
def fileHandoff (p : Peer) (h : SlotHandoff) : Peer :=
  let held := p.handoffs.getD h.slotId ∅
  { p with handoffs := p.handoffs.insert h.slotId (held.insert (handoffKey h) h) }

/-- Accept a signed handoff: the signature is checked, and nothing else. -/
def publishHandoff (p : Peer) (disk : Disk) (h : SlotHandoff) : Except PeerError Unit × Peer :=
  let held := p.handoffs.getD h.slotId ∅
  match h.verify with
  | .error e => (.error (.handoff e), p)
  | .ok () =>
    if held.contains (handoffKey h) then (.ok (), p)
    else if held.size ≥ maxHandoffsPerSlot then (.error (.handoffsFull h.slotId), p)
    else
      match (do let _ ← h.encode.mapError PeerError.handoff; disk.mapError .io) with
      | .error e => (.error e, p)
      | .ok () => (.ok (), p.fileHandoff h)

/-- Every handoff held for a slot. -/
def handoffsOf (p : Peer) (slot : SlotId) : List SlotHandoff := (p.handoffs.getD slot ∅).listed

/-- File a checkpoint under its sequence and hash. -/
def fileCheckpoint (p : Peer) (c : Checkpoint) : Peer :=
  let held := p.checkpoints.getD c.slotId ∅
  { p with checkpoints := p.checkpoints.insert c.slotId (held.insert (c.seq, c.checkpointHash) c) }

/-- Accept a signed checkpoint from a writer on the roster. -/
def publishCheckpoint (p : Peer) (disk : Disk) (c : Checkpoint) : Except PeerError Unit × Peer :=
  let held := p.checkpoints.getD c.slotId ∅
  match (do
    let vk ← okOr (p.roster.get c.writerId) PeerError.notRostered
    (c.verify vk).mapError .checkpoint) with
  | .error e => (.error e, p)
  | .ok () =>
    if held.contains (c.seq, c.checkpointHash) then (.ok (), p)
    else if held.size ≥ maxCheckpointsPerSlot then (.error (.checkpointsFull c.slotId), p)
    else
      match (do let _ ← c.encode.mapError PeerError.checkpoint; disk.mapError .io) with
      | .error e => (.error e, p)
      | .ok () => (.ok (), p.fileCheckpoint c)

/-- Every checkpoint at or above a sequence, ascending. -/
def checkpointsOf (p : Peer) (slot : SlotId) (start : UInt64) : List Checkpoint :=
  (p.checkpoints.getD slot ∅).listedWhere fun key => (compare (start, Digest.zero) key).isLE

/-- Accept a signed observation for relay. -/
def publishWitness (p : Peer) (disk : Disk) (w : Witness) : Except PeerError Unit × Peer :=
  let held := p.witnesses.getD w.slotId ∅
  let key := (w.witnessId, w.seq)
  match w.verify with
  | .error e => (.error (.witness e), p)
  | .ok () =>
    if ¬held.contains key ∧ held.size ≥ maxWitnessesPerSlot then
      (.error (.witnessesFull w.slotId), p)
    else
      match (do let _ ← w.encode.mapError PeerError.witness; disk.mapError .io) with
      | .error e => (.error e, p)
      | .ok () => (.ok (), { p with witnesses := p.witnesses.insert w.slotId (held.insert key w) })

/-- Everything observed for a slot, or nothing from a peer that withholds it. -/
def witnessesOf (p : Peer) (slot : SlotId) : List Witness :=
  if p.hostility.withholdWitnesses then [] else (p.witnesses.getD slot ∅).listed

end NasTools.Peer
