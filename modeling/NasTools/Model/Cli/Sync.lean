import NasTools.Model.Cli.Device
import NasTools.Model.Peer.State

/-! `nas peer sync`: every question it asks, every check it makes, and the two pins it keeps. -/

namespace NasTools

variable [Crypto]

/-- The hexadecimal text of a digest. -/
def hexText (d : Digest) : String := String.ofList (toHex d.bytes)

/-- Whether a witness node is named, by its address and by its key. -/
structure SyncOpts where
  witness : Bool
  witnessPub : Bool
deriving DecidableEq

/-- What became of one blob offered to the peer. -/
inductive Pushed where
  -- Already held, and proven.
  | present
  | sent (bytes : Nat)
deriving DecidableEq

namespace Sync

/-- Make the peer prove a blob it claims to hold. -/
def proveBlob (addr : Addr) (ct : Bytes) : Sync Pushed := do
  let nonce ← drawNonce
  let lie :=
  "peer claims to hold " ++ hexText addr ++ " but cannot prove it (dedup lie, SPECS §4.5)"
  let answer ← request .peer (.prove addr nonce) "Prove" (fun _ => .refused .blobs lie) (fun
    | .proof p => some p
    | _ => none)
  if BlobStore.checkProof ct nonce answer then .done .present else refuse .blobs lie

/-- Upload a blob the peer does not hold. -/
def uploadBlob (addr : Addr) (ct : Bytes) : Sync Pushed := do
  let stored ← request .peer (.putBlob ct) "PutBlob"
    (fun m => .refused .blobs ("put " ++ hexText addr ++ ": " ++ m)) (fun
    | .stored a => some a
    | _ => none)
  if stored = addr then .done (.sent ct.length)
  else refuse .blobs ("peer stored " ++ hexText addr ++ " under " ++ hexText stored ++
    " — not our bytes")

/-- Offer one blob: make the peer prove it if it claims to hold it, upload it if not. -/
def pushBlob (addr : Addr) (ct : Bytes) : Sync Pushed := do
  let held ← request .peer (.hasBlob addr) "HasBlob"
    (fun m => .refused .blobs ("has " ++ hexText addr ++ ": " ++ m)) (fun
    | .bool b => some b
    | _ => none)
  if held then proveBlob addr ct else uploadBlob addr ct

/-- Offer every blob the device holds. -/
def pushBlobs (d : Device) : List Addr → Sync Unit
  | [] => .done ()
  | addr :: rest => do
    let ct ← orFail ((d.blobs.get addr).mapError fun e => hexText addr ++ ": " ++ e.display)
    let _ ← pushBlob addr ct
    pushBlobs d rest

/-- Lease every blob, a bounded number at a time. -/
def takeLeases (total : Nat) : (leased : Nat) → List (List Addr) → Sync Unit
  | _, [] => .done ()
  | leased, batch :: rest => do
    request .peer (.takeLease batch) "TakeLease"
      (fun m => .refused .leases ("lease: " ++ m ++ " (" ++ toString leased ++ " of " ++
        toString total ++ " blobs leased before the refusal)")) Response.asOk
    takeLeases total (leased + batch.length) rest

/-- A take with no addresses still stamps the holder. -/
def leaseBatches (addrs : List Addr) : List (List Addr) :=
  if addrs = [] then [[]] else addrs.toChunks maxRecords

/-- Everything before the head is looked at: warnings, blobs and leases. -/
def offerBlobs (d : Device) : Sync Unit := do
  let _ ← request .peer .sweepWarnings "SweepWarnings"
    (fun m => .refused .warnings ("sweep warnings: " ++ m)) Response.asAddrs
  orFail (d.blobDir.mapError fun e => "blob store I/O: " ++ e.text)
  let addrs := d.blobs.files.keys
  pushBlobs d addrs
  takeLeases addrs.length 0 (leaseBatches addrs)

/-- Who a device is when it reads a slot: its writer key, the slot, and whom it believes. -/
structure Reader where
  writer : Identity
  slot : SlotId
  roster : Roster

/-- What a device has: its local root, and what it is when it reads. -/
def openReader (d : Device) : Sync (Option Addr × Identity × SlotId) := do
  let root ← orFail (match d.head with
    | none => .ok none
    | some head => (head.mapError fun e => "state/HEAD: " ++ e).map some)
  let writer ← orFail (d.slotIdentity.mapError fun e => "slot identity: " ++ e)
  return (root, writer, slotIdOf writer.verifyingKey d.ns)

/-- The head the peer serves. -/
def servedHead (slot : SlotId) : Sync (Option SlotRecord) := do
  match ← request .peer (.slotHead slot) "SlotHead" (fun m => .refused .head ("head: " ++ m))
    Response.asRecord with
  | none => return none
  | some bytes => do
    let r ← orRefuse .head ((SlotRecord.decode bytes).mapError fun e =>
      "peer served an undecodable head: " ++ e.display)
    return some r

/-- The served head against the slot, the namespace's own key, and the pin. -/
def checkHead (r : Reader) (pinned : Option Device.Pin) (served : Option SlotRecord) :
    Except String Unit :=
  match served, pinned with
  | none, some p =>
    .error ("peer serves no head, but seq " ++ toString p.seq ++
      " was seen here before (rollback or withholding)")
  | none, none => .ok ()
  | some h, pin => do
    ensure (h.slotId = r.slot) "peer served a record for a different slot"
    (h.verify r.writer.verifyingKey).mapError fun e =>
      "peer served a head this namespace did not sign: " ++ e.display
    match pin with
    | none => .ok ()
    | some p =>
      ensure (p.seq ≤ h.seq) ("peer serves seq " ++ toString h.seq ++ ", but seq " ++
        toString p.seq ++ " was seen here before (rollback)")

/-- Every witness decoded, and those of this namespace about this slot kept. -/
def believeWitnesses (wid : Identity) (slot : SlotId) : List Bytes → Except String (List Witness)
  | [] => .ok []
  | bytes :: rest => do
    let w ← (Witness.decode bytes).mapError fun e =>
      "witness node relayed an undecodable witness: " ++ e.display
    let ours ← believeWitnesses wid slot rest
    if w.witnessPk ≠ wid.verifyingKey ∨ w.slotId ≠ slot ∨ ¬w.verify.isOk then return ours
    else return w :: ours

/-- Ask the witness node, when there is one, what this namespace observed before. -/
def askWitness (d : Device) (o : SyncOpts) (slot : SlotId) :
    Sync (Option (Identity × List Witness)) :=
  match o.witness, o.witnessPub with
  | true, true => do
    let wid ← orFail (d.witnessIdentity.mapError fun e => "witness identity: " ++ e)
    dial .witness
    let held ← request .witness (.witnesses slot) "Witnesses"
      (fun m => .refused .witness ("witness node: " ++ m)) Response.asRecords
    let ours ← orRefuse .witness (believeWitnesses wid slot held)
    return some (wid, ours)
  | false, false => .done none
  | _, _ => fail "--witness and --witness-pub go together"

/-- A witness ahead of the served head is a rollback that no pin here can see. -/
def checkWitnessed (served : Option SlotRecord) : List Witness → Except String Unit
  | [] => .ok ()
  | w :: rest => do
    match served with
    | none =>
      .error ("peer serves no head, but seq " ++ toString w.seq ++
        " was witnessed (rollback or withholding)")
    | some h =>
      ensure (w.seq ≤ h.seq) ("peer serves seq " ++ toString h.seq ++ ", but seq " ++
        toString w.seq ++ " was witnessed (rollback)")
    checkWitnessed served rest

/-- Every handoff decoded, and those that verify for this slot kept. -/
def believeHandoffs (slot : SlotId) : List Bytes → Except String (List SlotHandoff)
  | [] => .ok []
  | bytes :: rest => do
    let h ← (SlotHandoff.decode bytes).mapError fun _ => "peer served an undecodable handoff"
    let ours ← believeHandoffs slot rest
    if h.slotId = slot ∧ h.verify.isOk then return h :: ours else return ours

/-- The handoffs the peer holds for the slot, the roster being extended from none of them. -/
def askHandoffs (slot : SlotId) : Sync (List SlotHandoff) := do
  let held ← request .peer (.handoffs slot) "Handoffs"
    (fun m => .refused .handoffs ("handoffs: " ++ m)) Response.asRecords
  orRefuse .handoffs (believeHandoffs slot held)

/-- Every item of a page decoded, in order. -/
def decodePage {T E : Type} (decode : Bytes → Except E T) (report : E → String) :
    List Bytes → Except String (List T)
  | [] => .ok []
  | bytes :: rest => do
    let item ← (decode bytes).mapError report
    let items ← decodePage decode report rest
    return item :: items

/--
The rungs of the ladder, page by page.

The fuel stands for the pages still allowed: every page adds a rung, and the loop ends at the cap.
-/
def ladderPages (slot : SlotId) : (fuel : Nat) → List Checkpoint → UInt64 → Sync (List Checkpoint)
  | 0, rungs, _ => .done rungs
  | fuel + 1, rungs, next => do
    let page ← request .peer (.checkpoints slot next) "Checkpoints"
      (fun m => .refused .ladder ("checkpoints: " ++ m)) Response.asRecords
    if page = [] then .done rungs
    else do
      let fresh ← orRefuse .ladder (decodePage Checkpoint.decode
        (fun e => "peer served an undecodable checkpoint: " ++ e.display) page)
      let rungs := rungs ++ fresh
      let last := (rungs.getLast?.map Checkpoint.seq).getD next
      -- A peer that stops advancing ends the loop rather than driving it.
      if maxCheckpointsPerSlot ≤ rungs.length ∨ last < next then .done rungs
      -- One past the greatest sequence does not exist, and the addition panics.
      else if last = u64Max then .stop .panic
      else ladderPages slot fuel rungs (last + 1)

/-- Where the ladder is asked for from, and what it is anchored to. -/
def ladderAnchor (cpPin : Option (UInt64 × Digest)) : UInt64 × Option Digest :=
  match cpPin with
  | some (seq, hash) => (seq, some hash)
  | none => (0, none)

/-- The ladder verified on its own, and its top rung pinned when it is higher than before. -/
def checkLadder (r : Reader) (cpPin : Option (UInt64 × Digest)) (authorisations : List SlotHandoff)
    (rungs : List Checkpoint) : Sync (Option Checkpoint) :=
  match rungs.getLast? with
  | none =>
    match cpPin with
    | some (seq, _) =>
      refuse .ladder ("peer serves no checkpoint at or above seq " ++ toString seq ++
        ", which was pinned here (SPECS §5.5)")
    | none => .done none
  | some top => do
    let _ ← orRefuse .ladder ((verifySkipChain rungs [] r.slot r.roster (ladderAnchor cpPin).2
      authorisations).mapError fun e =>
        "peer's checkpoint ladder does not verify: " ++ e.display)
    if cpPin.all fun pin => pin.1 < top.seq then writeCpPin top.seq top.checkpointHash
    return some top

/-- Records of the history, page by page, until the head, the budget, or a peer that stalls. -/
def historyPages (slot : SlotId) (headSeq : UInt64) (budget : Nat) :
    (fuel : Nat) → List SlotRecord → UInt64 → Sync (List SlotRecord)
  | 0, out, _ => .done out
  | fuel + 1, out, next => do
    let page ← request .peer (.slotHistory slot next) "SlotHistory"
      (fun m => .refused .history ("history: " ++ m)) Response.asRecords
    if page = [] then .done out
    else do
      let fresh ← orRefuse .history (decodePage SlotRecord.decode
        (fun e => "peer served an undecodable history record: " ++ e.display) page)
      let out := out ++ fresh
      let last := (out.getLast?.map SlotRecord.seq).getD next
      if headSeq ≤ last ∨ budget ≤ out.length ∨ last < next then .done out
      else historyPages slot headSeq budget fuel out (last + 1)

/-- The history from a sequence on: each page adds a record, so the budget bounds the pages. -/
def fetch (slot : SlotId) (headSeq start : UInt64) : Sync (List SlotRecord) :=
  historyPages slot headSeq retainN (retainN + 1) [] start

/-- The lowest sequence this device has a memory of, or the head itself. -/
def memoryStart (pinned : Option Device.Pin) (witnessed : List Witness)
    (headSeq : UInt64) : UInt64 :=
  min (((witnessed.map Witness.seq ++ (pinned.map Device.Pin.seq).toList).min?).getD
    headSeq) headSeq

/-- Where the walk starts, how many records the ladder stands for, and the records walked. -/
structure Walking where
  walkFrom : UInt64
  skipped : UInt64
  chain : List SlotRecord

/-- Fetch what the walk needs: everything, or the tail above a rung when everything is too much. -/
def chooseWalk (slot : SlotId) (rungs : List Checkpoint) (start headSeq : UInt64) :
    Sync Walking := do
  let offered ← fetch slot headSeq start
  if offered.getLast?.any fun r => r.seq = headSeq then return ⟨start, 0, offered⟩
  else
    match planWalk start headSeq (rungs.map Checkpoint.seq) (UInt64.ofNat retainN) with
    | .full _ _ =>
      refuse .history ("peer serves seq " ++ toString headSeq ++ " but its history from seq " ++
        toString start ++ " stops at seq " ++
        toString ((offered.getLast?.map SlotRecord.seq).getD start))
    | .skip topSeq skipped _ => do
      let chain ← fetch slot headSeq topSeq
      return ⟨topSeq, skipped, chain⟩
    | .unreachable span bestRung =>
      refuse .history ("peer serves seq " ++ toString headSeq ++ ", " ++ toString span ++
        " above the lowest sequence this device remembers, and this client walks at most " ++
        toString retainN ++ " records linearly. " ++
        (match bestRung with
          | some r => "Its highest checkpoint is at seq " ++ toString r ++
            ", too far below the head to climb to"
          | none => "It serves no checkpoint to climb") ++ " (SPECS §5.5)")

/-- What the walked records prove: the sequence and hash they end at. -/
def verifyWalk (r : Reader) (anchor : Option Digest) (authorisations : List SlotHandoff)
    (rungs : List Checkpoint) (w : Walking) : Except String (UInt64 × Digest) :=
  if w.skipped = 0 then
    -- The first link is open unless the walk starts at genesis.
    let expectPrev := (w.chain.head?.filter fun f => 0 < f.seq).map SlotRecord.prev
    match verifyChainWithHandoffs w.chain r.slot r.roster expectPrev authorisations with
    | .ok walk => .ok (walk.headSeq, walk.headHash)
    | .error e =>
      .error ("peer's history from seq " ++ toString w.walkFrom ++
        " does not verify: " ++ e.display)
  else
    let climbed := rungs.filter fun c => c.seq ≤ w.walkFrom
    match verifySkipChain climbed w.chain r.slot r.roster anchor authorisations with
    | .ok walk => .ok (walk.headSeq, walk.headHash)
    | .error e =>
      .error ("peer's ladder and history from seq " ++ toString w.walkFrom ++
        " do not verify: " ++ e.display)

/-- The walk ends at the head that was served. -/
def checkReached (h : SlotRecord) (walkFrom : UInt64) (ended : UInt64 × Digest) :
    Except String Unit :=
  ensure (ended.1 = h.seq ∧ ended.2 = h.recordHash) ("peer serves seq " ++ toString h.seq ++
    " but the history it offered from seq " ++ toString walkFrom ++ " reaches seq " ++
    toString ended.1 ++ " (SPECS §5.5)")

/-- The record walked at a sequence. -/
def recordAt (chain : List SlotRecord) (seq : UInt64) : Option SlotRecord :=
  chain.find? fun r => r.seq = seq

/-- The rung served at a sequence. -/
def rungAt (rungs : List Checkpoint) (seq : UInt64) : Option Checkpoint :=
  rungs.find? fun c => c.seq = seq

/-- The pin against what was walked; the answer is how many memories nothing covered. -/
def checkPin (chain : List SlotRecord) (rungs : List Checkpoint) (pinned : Option Device.Pin) :
    Except String Nat :=
  match pinned with
  | none => .ok 0
  | some p =>
    match p.recordHash, recordAt chain p.seq, rungAt rungs p.seq with
    | some want, some r, _ =>
      if r.recordHash ≠ want then
        .error ("fork: the peer serves a different record at seq " ++ toString p.seq ++
          " than the one seen here before (SPECS §5.3)")
      else .ok 0
    | some want, none, some c =>
      if c.recordHash ≠ want then
        .error ("fork: the peer's checkpoint at seq " ++ toString p.seq ++
          " names a different record than the one seen here before (SPECS §5.3)")
      else .ok 0
    | some _, none, none => .ok 1
    | none, _, _ => .ok 0

/-- One witness against what was walked: the record, a rung naming it, or the record above it. -/
def checkWitness (chain : List SlotRecord) (rungs : List Checkpoint) (w : Witness) :
    Except String Nat :=
  let above := if w.seq = u64Max then none else recordAt chain (w.seq + 1)
  match recordAt chain w.seq, rungAt rungs w.seq, above with
  | some r, _, _ =>
    if r.recordHash ≠ w.recordHash then
      .error ("fork: the witness saw a different record at seq " ++ toString w.seq ++
        " than the chain the peer now serves (SPECS §5.3)")
    else .ok 0
  | none, some c, _ =>
    if c.recordHash ≠ w.recordHash then
      .error ("fork: the peer's checkpoint at seq " ++ toString w.seq ++
        " names a different record than the witness saw (SPECS §5.3, §5.5)")
    else .ok 0
  | none, none, some r =>
    if r.prev ≠ w.recordHash then
      .error ("fork: the record the peer serves at seq " ++ toString r.seq ++
        " descends from something other than the record the witness saw at seq " ++
        toString w.seq ++ " (SPECS §5.3)")
    else .ok 0
  -- Nothing covers this sequence, which is not a pass.
  | none, none, none => .ok 1

/-- Every memory against what was walked; the answer is how many memories nothing covered. -/
def checkMemories (chain : List SlotRecord) (rungs : List Checkpoint) (pinned : Option Device.Pin)
    (witnessed : List Witness) : Except String Nat := do
  let unchecked ← checkPin chain rungs pinned
  witnessed.foldlM (fun count w => do return count + (← checkWitness chain rungs w)) unchecked

/-- What the walk of a served head settled. -/
structure Walked where
  skipped : UInt64
  chain : List SlotRecord
  unchecked : Nat

/--
Walk from the lowest memory to the served head, and hold every memory against what was walked.
-/
def walkHistory (r : Reader) (cpPin : Option (UInt64 × Digest)) (pinned : Option Device.Pin)
    (witnessed : List Witness) (authorisations : List SlotHandoff) (rungs : List Checkpoint)
    (h : SlotRecord) : Sync Walked := do
  let w ← chooseWalk r.slot rungs (memoryStart pinned witnessed h.seq) h.seq
  let ended ← orRefuse .history (verifyWalk r (ladderAnchor cpPin).2 authorisations rungs w)
  orRefuse .history (checkReached h w.walkFrom ended)
  let unchecked ← orRefuse .history (checkMemories w.chain rungs pinned witnessed)
  return ⟨w.skipped, w.chain, unchecked⟩

/-- What a sync believes once it has read the slot. -/
structure SlotRead where
  root : Option Addr
  reader : Reader
  served : Option SlotRecord
  witness : Option (Identity × List Witness)
  rungs : List Checkpoint
  top : Option Checkpoint
  -- Present exactly when a head was served.
  walked : Option Walked

/-- The ladder, asked for in full and verified on its own. -/
def readLadder (d : Device) (r : Reader) (authorisations : List SlotHandoff) :
    Sync (List Checkpoint × Option Checkpoint) := do
  let rungs ← ladderPages r.slot (maxCheckpointsPerSlot + 1) [] (ladderAnchor d.cpPin).1
  let top ← checkLadder r d.cpPin authorisations rungs
  return (rungs, top)

/-- Everything read and checked before anything is published. -/
def readSlot (d : Device) (o : SyncOpts) : Sync SlotRead := do
  let (root, writer, slot) ← openReader d
  let served ← servedHead slot
  let roster ← orFail (d.loadClientRoster.mapError fun e => "roster: " ++ e)
  let r : Reader := ⟨writer, slot, roster⟩
  orRefuse .head (checkHead r d.pin served)
  let witness ← askWitness d o slot
  let witnessed := (witness.map Prod.snd).getD []
  orRefuse .witness (checkWitnessed served witnessed)
  let authorisations ← askHandoffs slot
  let (rungs, top) ← readLadder d r authorisations
  match served with
  | none => return ⟨root, r, none, witness, rungs, top, none⟩
  | some h => do
    let walked ← walkHistory r d.cpPin d.pin witnessed authorisations rungs h
    return ⟨root, r, some h, witness, rungs, top, some walked⟩

/-- The root manifest a served head points at. -/
def fetchRoot (d : Device) (slot : SlotId) (h : SlotRecord) : Sync RootManifest := do
  let bytes ← request .peer (.getBlob h.root) "GetBlob"
    (fun m => .refused .root ("peer serves head seq " ++ toString h.seq ++
      " but not the root manifest it points at (" ++ hexText h.root ++ "): " ++ m ++
      " — a signed pointer to nothing is withholding (SPECS §5.3)")) Response.asBlob
  if d.blobs.addressing.verifies h.root bytes then
    orRefuse .root (d.keys.openRoot d.mode slot h.seq h.rootNonce bytes)
  else refuse .root ("peer served bytes for " ++ hexText h.root ++ " that do not hash to it")

/-- The record to publish next: its sequence, its predecessor, and the local tree it points at. -/
def nextRecord (root : Option Addr) (served : Option (SlotRecord × RootManifest)) :
    Sync (Option (UInt64 × Digest × Addr)) :=
  match served, root with
  | none, root => .done (root.map fun r => (0, Digest.zero, r))
  -- Nothing local to publish.
  | some _, none => .done none
  | some (h, manifest), some r =>
    if manifest.tree = r then .done none
    else if h.seq = u64Max then .stop .panic
    else .done (some (h.seq + 1, h.recordHash, r))

/-- Seal the root manifest of a version, with a fresh nonce where anything is sealed. -/
def sealRoot (d : Device) (slot : SlotId) (seq : UInt64) (manifest : RootManifest) :
    Sync (Bytes × FixedBytes nonceLen) :=
  match d.mode with
  | .transitOnly => orFail (d.keys.sealRoot d.mode slot seq manifest (FixedBytes.zero _))
  | _ => .ask .rootNonce fun answer => do
    let nonce ← orFail (answer.mapError fun e => "seal root manifest: " ++ e)
    orFail (d.keys.sealRoot d.mode slot seq manifest nonce)

/-- Store, lease and publish one version, and pin it. -/
def publishRecord (d : Device) (r : Reader) (seq : UInt64) (prev : Digest) (tree : Addr) :
    Sync SlotRecord := do
  let (sealed, nonce) ← sealRoot d r.slot seq ⟨tree, d.generation⟩
  let root ← keepBlob sealed
  let _ ← pushBlob root sealed
  request .peer (.takeLease [root]) "TakeLease"
    (fun m => .refused .publish ("lease root manifest: " ++ m)) Response.asOk
  let rec_ ← orFail ((SlotRecord.sign r.writer r.slot seq root nonce prev .casMerge).mapError
    fun e => "sign: " ++ e.display)
  let bytes ← orFail (rec_.encode.mapError fun e => "encode: " ++ e.display)
  request .peer (.publishSlot bytes) "PublishSlot"
    (fun m => .refused .publish ("publish seq " ++ toString seq ++ ": " ++ m)) Response.asOk
  writePin seq rec_.recordHash
  return rec_

/-- Publish a rung over the verified ladder, and pin it. -/
def publishRung (r : Reader) (top : Option Checkpoint) (rec_ : SlotRecord) : Sync Unit := do
  let c ← orFail ((Checkpoint.ofRecord r.writer rec_ top).mapError fun e =>
    "checkpoint sign: " ++ e.display)
  let bytes ← orFail (c.encode.mapError fun e => "checkpoint encode: " ++ e.display)
  request .peer (.publishCheckpoint bytes) "PublishCheckpoint"
    (fun m => .refused .rung ("publish checkpoint " ++ toString rec_.seq ++ ": " ++ m))
      Response.asOk
  writeCpPin rec_.seq c.checkpointHash

/-- A rung every so many records; a device that knows no ladder starts none above genesis. -/
def maybeRung (r : Reader) (top : Option Checkpoint) (rec_ : SlotRecord) : Sync Unit :=
  if isCheckpointSeq rec_.seq ∧ ¬(top = none ∧ 0 < rec_.seq) then publishRung r top rec_
  else .done ()

/-- Whether a served head is news to the pin. -/
def pinIsBehind (pinned : Option Device.Pin) (h : SlotRecord) : Bool :=
  pinned.all fun p => p.seq < h.seq || p.recordHash.isNone

/-- Publish the next version or accept the served one; the answer is the record ended on. -/
def settle (d : Device) (read : SlotRead) (next : Option (UInt64 × Digest × Addr)) :
    Sync (Option SlotRecord) :=
  match next, read.served with
  | none, none => .done none
  | none, some h => do
    if pinIsBehind d.pin h then writePin h.seq h.recordHash
    return some h
  | some (seq, prev, tree), _ => do
    let rec_ ← publishRecord d read.reader seq prev tree
    maybeRung read.reader read.top rec_
    return some rec_

/-- Tell the witness node which record this device ended the sync holding. -/
def observe (read : SlotRead) (held : SlotRecord) : Sync Unit :=
  match read.witness with
  | none => .done ()
  | some (wid, _) => do
    let w ← orFail ((Witness.sign wid read.reader.slot held.seq held.recordHash held.prev
      held.seq).mapError fun e => "witness sign: " ++ e.display)
    let bytes ← orFail (w.encode.mapError fun e => "witness encode: " ++ e.display)
    request .witness (.publishWitness bytes) "PublishWitness"
      (fun m => .refused .observe ("witness node refused the observation: " ++ m)) Response.asOk

/-- The served head with the root manifest it points at. -/
def openServed (d : Device) (read : SlotRead) : Sync (Option (SlotRecord × RootManifest)) :=
  match read.served with
  | none => .done none
  | some h => do
    let manifest ← fetchRoot d read.reader.slot h
    return some (h, manifest)

/-- Everything after the slot has been read. -/
def finish (d : Device) (read : SlotRead) : Sync Unit := do
  let served ← openServed d read
  let next ← nextRecord read.root served
  match ← settle d read next with
  | none => .done ()
  | some held => observe read held

end Sync

/-- `nas peer sync`, on a device whose outbox has been folded into its head. -/
def sync (d : Device) (o : SyncOpts) : Sync Unit := do
  Sync.dial .peer
  Sync.offerBlobs d
  let read ← Sync.readSlot d o
  Sync.finish d read

end NasTools
