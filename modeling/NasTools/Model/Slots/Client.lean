import NasTools.Lib.Machine
import NasTools.Model.Slots.Chain
import NasTools.Model.Slots.Witness

/-!
The client's accept decision: a pin, the evidence beside it, and the two ways a head is offered.
-/

namespace NasTools

/-- Distinct hashes kept for each sequence: two already prove a fork. -/
def maxHashesPerSeq : Nat := 2

/-- Witnesses a client keeps. -/
def maxWitnesses : Nat := 64

/-- The longest ancestry walk between two witnesses. -/
def maxWalkSteps : Nat := maxWitnesses

/-- Hashes seen at each sequence. -/
abbrev Evidence := OrdMap UInt64 (OrdSet Digest)

/-- Add one hash at one sequence, never past the bound. -/
def addBounded (m : Evidence) (seq : UInt64) (hash : Digest) : Evidence :=
  let set := m.getD seq ∅
  if set.size < maxHashesPerSeq ∨ set.contains hash then m.insert seq (set.insert hash) else m

/--
Follow known edges down, for `steps` sequences starting at `seq`, from the record named `hash`.
-/
def walkDown (edges : OrdMap Digest Witness) :
    Nat → Digest → UInt64 → Option (List Witness × Digest)
  | 0, hash, _ => some ([], hash)
  | steps + 1, hash, seq =>
    match edges[hash]? with
    | none => none
    | some w =>
      -- An edge at a sequence the chain does not put it at is refused, not followed.
      if w.seq ≠ seq then none
      else
        match walkDown edges steps w.prev (seq - 1) with
        | none => none
        | some (link, reached) => some (w :: link, reached)

/-- Step `high` back until the record at `target` is named, or conclude nothing. -/
def walkTo (edges : OrdMap Digest Witness) (high : Witness) (target : UInt64) :
    Option (List Witness × Digest) :=
  if target ≥ high.seq ∨ (high.seq - target).toNat > maxWalkSteps then none
  -- The first step is free: `high` signed its own `prev`.
  else walkDown edges (high.seq - 1 - target).toNat high.prev (high.seq - 1)

/-- The freshness floor a capability carries. -/
structure Anchor where
  seq : UInt64
  sigHash : Digest
deriving DecidableEq

/-- What a client has accepted so far. -/
structure Pin where
  seq : UInt64
  recordHash : Digest
deriving DecidableEq

/-- Why an offer is refused. -/
inductive Reject where
  -- Older than the capability's anchor.
  | belowAnchor (offered anchor : UInt64)
  -- At the anchor's sequence, but not the anchor's record.
  | anchorMismatch (seq : UInt64)
  -- Older than what this client already accepted.
  | rollback (offered pinned : UInt64)
  | chain (source : ChainError)
  | wrongSlot
deriving DecidableEq

/-- The text a refusal prints. -/
def Reject.display : Reject → String
  | .belowAnchor offered anchor =>
    "offered seq " ++ toString offered ++ " is below the cap anchor at " ++ toString anchor
  | .anchorMismatch seq =>
    "seq " ++ toString seq ++ " does not match the record the cap was anchored to"
  | .rollback offered pinned =>
    "offered seq " ++ toString offered ++ " is behind the pinned seq " ++ toString pinned
  | .chain e => e.display
  | .wrongSlot => "offered history is for a different slot"

/-- The outcome of being offered a new head. -/
inductive Verdict where
  | accepted (pin : Pin)
  -- Accepted on the anchor and the head signature alone: a warning, never a silent success.
  | degraded (pin : Pin) (reason : String)
  | rejected (why : Reject)
  | alarm (proof : ForkProof)
deriving DecidableEq

/-- What a degraded acceptance says. -/
def degradedReason : String :=
  "peer no longer retains history back to the pin; verified on cap anchor and head signature only"

variable [Crypto]

/-- One client's view of one slot. -/
structure SlotClient where
  slotId : SlotId
  regime : Regime
  anchor : Anchor
  pin : Option Pin
  -- Signature hashes seen, by sequence: the anchor's, and those of every record offered.
  evidence : Evidence
  -- Record hashes seen, by sequence: a second name for the same records, kept apart.
  recordEvidence : Evidence
  witnesses : List Witness
  -- Observers this client believes.
  witnessRoster : Roster

namespace SlotClient

/-- A client bootstrapped from a capability. -/
def new (slotId : SlotId) (regime : Regime) (anchor : Anchor) : SlotClient :=
  let anchored : OrdSet Digest := (∅ : OrdSet Digest).insert anchor.sigHash
  ⟨slotId, regime, anchor, none, (∅ : Evidence).insert anchor.seq anchored, ∅, [], Roster.empty⟩

/-- Add an observer whose witnesses this client will act on. -/
def trustWitness (c : SlotClient) (verifyingKey : Bytes) : Except RosterError SlotClient := do
  let witnessRoster ← c.witnessRoster.add verifyingKey
  return { c with witnessRoster }

/-- Record an observation by the record's signature hash. -/
def observe (c : SlotClient) (seq : UInt64) (sigHash : Digest) : SlotClient :=
  { c with evidence := addBounded c.evidence seq sigHash }

/-- Record an observation by the record's own hash. -/
def observeRecordHash (c : SlotClient) (seq : UInt64) (recordHash : Digest) : SlotClient :=
  { c with recordEvidence := addBounded c.recordEvidence seq recordHash }

/-- Take in a witness relayed by the peer. -/
def observeWitness (c : SlotClient) (w : Witness) : Bool × SlotClient :=
  if w.slotId ≠ c.slotId then (false, c)
  else if ¬c.witnessRoster.contains (keyId w.witnessPk) then (false, c)
  else if ¬w.verify.isOk then (false, c)
  else
    let c := c.observeRecordHash w.seq w.recordHash
    (true, if c.witnesses.length < maxWitnesses then { c with witnesses := c.witnesses ++ [w] }
      else c)

/-- How many distinct signature hashes are kept at a sequence. -/
def evidenceAt (c : SlotClient) (seq : UInt64) : Nat := (c.evidence[seq]?.map (·.size)).getD 0

/-- How many distinct record hashes are kept at a sequence. -/
def recordEvidenceAt (c : SlotClient) (seq : UInt64) : Nat :=
  (c.recordEvidence[seq]?.map (·.size)).getD 0

/-- The edges this client holds, the first witness of a record winning. -/
def edges (c : SlotClient) : OrdMap Digest Witness :=
  c.witnesses.foldl (fun m w => m.insertIfNew w.recordHash w) ∅

/-- A conflict between two witnesses: where, the lower, the higher, and the link between them. -/
abbrev Conflict := UInt64 × Witness × Witness × List Witness

/-- Whether the pair is not below, then not nearer than, the best conflict so far. -/
def notBetter (best : Option Conflict) (low high : Witness) : Bool :=
  match best with
  | none => false
  | some (seq, _, bestHigh, _) => seq < low.seq || (seq == low.seq && bestHigh.seq ≤ high.seq)

/-- Consider one pair of witnesses. -/
def considerPair (edges : OrdMap Digest Witness) (high : Witness) (best : Option Conflict)
    (low : Witness) : Option Conflict :=
  if low.seq ≥ high.seq then best
  else if notBetter best low high then best
  else
    match walkTo edges high low.seq with
    | some (link, reached) =>
      -- A walk that arrives at the record `low` named puts both on one history.
      if reached ≠ low.recordHash then some (low.seq, low, high, link) else best
    | none => best

/-- Two witnesses at different sequences that cannot both describe one history. -/
def witnessConflict (c : SlotClient) : Option Conflict :=
  c.witnesses.foldl (fun best high => c.witnesses.foldl (considerPair c.edges high) best) none

/-- The first sequence with two hashes. -/
def splitAt (m : Evidence) : Option UInt64 :=
  (m.toList.find? fun entry => entry.2.size > 1).map Prod.fst

/-- Where there is evidence of a fork, derived anew at every call. -/
def forked (c : SlotClient) : Option UInt64 :=
  [splitAt c.evidence, splitAt c.recordEvidence, c.witnessConflict.map Prod.fst].reduceOption.min?

/-- The first proof made of two of these witnesses, taken in order. -/
def sameSeqProof : List Witness → Option ForkProof
  | [] => none
  | a :: rest => (rest.findSome? (ForkProof.tryNew a)).or (sameSeqProof rest)

/-- A publishable proof, if the witnesses this client holds contain one. -/
def forkProof (c : SlotClient) : Option ForkProof :=
  match sameSeqProof c.witnesses with
  | some p => some p
  | none =>
    match c.witnessConflict with
    | none => none
    | some (_, low, high, link) => ForkProof.tryLinked low high link

/-- Take the records of an offer as evidence, under both names each of them has. -/
def observeRecords (c : SlotClient) (records : List SlotRecord) : SlotClient :=
  records.foldl (fun c r => (c.observe r.seq r.sigHash).observeRecordHash r.seq r.recordHash) c

/-- Nothing older than the pin is taken. -/
def checkRollback (c : SlotClient) (head : SlotRecord) : Except Reject Unit :=
  match c.pin with
  | some pin => ensure (pin.seq ≤ head.seq) (.rollback head.seq pin.seq)
  | none => .ok ()

/-- The anchor pins one specific record, not merely a height. -/
def checkAnchorRecord (c : SlotClient) (records : List SlotRecord) : Except Reject Unit :=
  match records.find? (·.seq == c.anchor.seq) with
  | some r => ensure (r.sigHash = c.anchor.sigHash) (.anchorMismatch c.anchor.seq)
  | none => .ok ()

/-- The pin a chain earns, or why it is refused. -/
def judgeChain (c : SlotClient) (records : List SlotRecord) (head : SlotRecord) (roster : Roster) :
    Except Reject Pin := do
  ensure (c.anchor.seq ≤ head.seq) (.belowAnchor head.seq c.anchor.seq)
  c.checkRollback head
  let walk ← (verifyChain records c.slotId roster (c.pin.map Pin.recordHash)).mapError .chain
  ensure (walk.regime = c.regime) (.chain (.regimeChanged walk.firstSeq c.regime walk.regime))
  c.checkAnchorRecord records
  return ⟨walk.headSeq, walk.headHash⟩

/-- Offer a chain reaching a new head. -/
def offer (c : SlotClient) (records : List SlotRecord) (roster : Roster) : Verdict × SlotClient :=
  match records.getLast? with
  | none => (.rejected (.chain .empty), c)
  | some head =>
    if head.slotId ≠ c.slotId then (.rejected .wrongSlot, c)
    else
      -- Evidence first: an offer about to be refused still shows what the peer is willing to serve.
      let c := c.observeRecords records
      match c.forkProof with
      | some p => (.alarm p, c)
      | none =>
        match c.judgeChain records head roster with
        | .error why => (.rejected why, c)
        | .ok pin => (.accepted pin, { c with pin := some pin })

/-- The pin a head alone earns, or why it is refused. -/
def judgeHead (c : SlotClient) (head : SlotRecord) (roster : Roster) : Except Reject Pin := do
  ensure (c.anchor.seq ≤ head.seq) (.belowAnchor head.seq c.anchor.seq)
  ensure (head.seq ≠ c.anchor.seq ∨ head.sigHash = c.anchor.sigHash) (.anchorMismatch head.seq)
  c.checkRollback head
  let vk ← okOr (roster.get head.writerId) (.chain (.unknownWriter head.seq head.writerId))
  (head.verify vk).mapError fun e => .chain (.record head.seq e)
  ensure (head.regime = c.regime) (.chain (.regimeChanged head.seq c.regime head.regime))
  return ⟨head.seq, head.recordHash⟩

/-- Offer a head that cannot be walked to, because the history below it is gone. -/
def offerHeadOnly (c : SlotClient) (head : SlotRecord) (roster : Roster) : Verdict × SlotClient :=
  if head.slotId ≠ c.slotId then (.rejected .wrongSlot, c)
  else
    let c := c.observeRecords [head]
    match c.forkProof with
    | some p => (.alarm p, c)
    | none =>
      match c.judgeHead head roster with
      | .error why => (.rejected why, c)
      | .ok pin => (.degraded pin degradedReason, { c with pin := some pin })

end SlotClient

/-- What can be done with a client. -/
inductive ClientOp where
  | offer (records : List SlotRecord) (roster : Roster)
  | offerHeadOnly (head : SlotRecord) (roster : Roster)
  | observe (seq : UInt64) (sigHash : Digest)
  | observeWitness (w : Witness)
  | trustWitness (verifyingKey : Bytes)

/-- The client as a machine: only the two offers return a verdict. -/
def slotClient : Machine SlotClient ClientOp (Option Verdict) where
  step c
    | .offer records roster => let (v, c) := c.offer records roster; (some v, c)
    | .offerHeadOnly head roster => let (v, c) := c.offerHeadOnly head roster; (some v, c)
    | .observe seq sigHash => (none, c.observe seq sigHash)
    | .observeWitness w => (none, (c.observeWitness w).2)
    | .trustWitness key =>
      match c.trustWitness key with
      | .ok c => (none, c)
      | .error _ => (none, c)

end NasTools
