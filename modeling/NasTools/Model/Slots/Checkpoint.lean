import NasTools.Model.Slots.Chain

/-! Checkpoints: the ladder over a slot history, and how a walk to the head is chosen. -/

namespace NasTools

/-- Records a peer retains, and the records a client is willing to walk. -/
def retainN : Nat := 1024

/-- Records between checkpoints. -/
def checkpointInterval : UInt64 := 256

/-- Whether the writer checkpoints at a sequence. -/
def isCheckpointSeq (seq : UInt64) : Bool := seq % checkpointInterval == 0

/-- Domain string of the checkpoint hash. -/
def checkpointHashDomain : Bytes := asciiBytes "nas-tools/slot-checkpoint-hash/v1"

/-- Why a checkpoint is refused. -/
inductive CheckpointError where
  | decode (source : DecodeError)
  | sign (source : SignError)
  | badWidth (field : String) (want got : Nat)
  | fieldCount (want got : Nat)
  | badSignature
  | genesisMismatch (seq : UInt64)
  -- A rung that points forward or at itself would be a loop.
  | notDescending (seq prevSeq : UInt64)
deriving DecidableEq

/-- The text a checkpoint error prints. -/
def CheckpointError.display : CheckpointError → String
  | .decode e => e.debug
  | .sign e => e.display
  | .badWidth field want got =>
    field ++ " is " ++ toString got ++ " B, want " ++ toString want ++ " B"
  | .fieldCount want got => toString got ++ " fields, want " ++ toString want
  | .badSignature => "checkpoint signature does not verify"
  | .genesisMismatch seq =>
    "checkpoint " ++ toString seq ++ ": only the checkpoint at seq 0 may have a zero back-link"
  | .notDescending seq prevSeq =>
    "checkpoint " ++ toString seq ++ " links back to " ++ toString prevSeq ++
      ", which is not below it"

/-- One rung of the ladder. -/
structure Checkpoint where
  slotId : SlotId
  -- The record this rung stands for: its sequence and its hash.
  seq : UInt64
  recordHash : Digest
  -- The rung below: its sequence and its own hash, all zero at sequence zero only.
  prevSeq : UInt64
  prevHash : Digest
  writerPk : Bytes
  sig : Bytes
deriving DecidableEq

/-- The bytes a writer signs. -/
def checkpointBody (slotId : SlotId) (seq : UInt64) (recordHash : Digest) (prevSeq : UInt64)
    (prevHash : Digest) : Bytes :=
  expectFields [slotId.bytes, u64Le seq, recordHash.bytes, u64Le prevSeq, prevHash.bytes]

/-- Sequence zero and a zero back-link imply each other, and every other rung points down. -/
def checkpointCheckGenesis (seq prevSeq : UInt64) (prevHash : Digest) :
    Except CheckpointError Unit := do
  let genesis := decide (prevHash = Digest.zero)
  ensure (genesis = decide (seq = 0)) (.genesisMismatch seq)
  ensure (genesis ∨ prevSeq < seq) (.notDescending seq prevSeq)
  ensure (¬genesis ∨ prevSeq = 0) (.genesisMismatch seq)

/-- Read a field of an expected width. -/
def checkpointFixed (width : Nat) (field : String) (data : Bytes) :
    Except CheckpointError (FixedBytes width) :=
  fixedField .badWidth width field data

namespace Checkpoint

/-- The body of a rung. -/
def body (c : Checkpoint) : Bytes :=
  checkpointBody c.slotId c.seq c.recordHash c.prevSeq c.prevHash

/-- The rung as it is stored and sent. -/
def encode (c : Checkpoint) : Except CheckpointError Bytes :=
  (encodeFields [c.slotId.bytes, u64Le c.seq, c.recordHash.bytes, u64Le c.prevSeq, c.prevHash.bytes,
    c.writerPk, c.sig]).mapError .decode

/-- Read a rung back from its stored form. -/
def decode (bytes : Bytes) : Except CheckpointError Checkpoint :=
  match decodeFields bytes with
  | .error e => .error (.decode e)
  | .ok [slotId, seq, recordHash, prevSeq, prevHash, writerPk, sig] => do
    ensure (writerPk.length = verifyingKeyLen)
      (.badWidth "writer_pk" verifyingKeyLen writerPk.length)
    ensure (sig.length = signatureLen) (.badWidth "sig" signatureLen sig.length)
    let slotId ← checkpointFixed 32 "slot_id" slotId
    let seq ← checkpointFixed 8 "seq" seq
    let recordHash ← checkpointFixed 32 "record_hash" recordHash
    let prevSeq ← checkpointFixed 8 "prev_seq" prevSeq
    let prevHash ← checkpointFixed 32 "prev_hash" prevHash
    return ⟨slotId, u64OfLe seq.bytes, recordHash, u64OfLe prevSeq.bytes, prevHash, writerPk, sig⟩
  | .ok fields => .error (.fieldCount 7 fields.length)

/-- What the hash of a rung is taken over. -/
def hashInput (c : Checkpoint) : Bytes :=
  checkpointHashDomain ++ u64Le (UInt64.ofNat c.body.length) ++ c.body ++ c.sig

/-- The fields a rung is signed over. -/
def bodyFields (c : Checkpoint) : List Bytes :=
  [c.slotId.bytes, u64Le c.seq, c.recordHash.bytes, u64Le c.prevSeq, c.prevHash.bytes]

/-- The fields of a rung fit their frames. -/
theorem bodyFields_fit (c : Checkpoint) : FieldsFit c.bodyFields := by
  simp [FieldsFit, bodyFields, FixedBytes.size, maxField]

/-- A body is its fields, each behind its length. -/
theorem body_eq (c : Checkpoint) : c.body = c.bodyFields.flatMap framedField :=
  expectFields_ok c.bodyFields_fit

/-- The signed part of a rung has one length. -/
theorem body_length (c : Checkpoint) : c.body.length = 132 := by
  simp [body_eq, bodyFields, framedField_length, FixedBytes.size, lenPrefix]

/-- Two rungs hashed over the same bytes stand at the same sequence. -/
theorem seq_of_hashInput {c c' : Checkpoint} (same : c.hashInput = c'.hashInput) :
    c.seq = c'.seq := by
  -- All bodies are equally long, so the signatures split off at the same place.
  simp only [hashInput, body_length] at same
  have front := List.append_inj_left same (by simp [body_length])
  have bodies := List.append_cancel_left front
  rw [body_eq, body_eq] at bodies
  have fields := framed_inj c.bodyFields_fit c'.bodyFields_fit bodies
  simp only [bodyFields, List.cons.injEq] at fields
  exact u64Le_inj fields.2.1

variable [Crypto]

/-- What the rung above must carry as its back-link. -/
def checkpointHash (c : Checkpoint) : Digest := Crypto.blake3 c.hashInput

/-- Sign a rung. -/
def sign (writer : Identity) (slotId : SlotId) (seq : UInt64) (recordHash : Digest)
    (prevSeq : UInt64) (prevHash : Digest) : Except CheckpointError Checkpoint := do
  checkpointCheckGenesis seq prevSeq prevHash
  let sig ← (writer.sign .slotCheckpoint
    (checkpointBody slotId seq recordHash prevSeq prevHash)).mapError .sign
  return ⟨slotId, seq, recordHash, prevSeq, prevHash, writer.verifyingKey, sig⟩

/-- Checkpoint a record over the rung below it. -/
def ofRecord (writer : Identity) (rec : SlotRecord) (prev : Option Checkpoint) :
    Except CheckpointError Checkpoint :=
  match prev with
  | some p => sign writer rec.slotId rec.seq rec.recordHash p.seq p.checkpointHash
  | none => sign writer rec.slotId rec.seq rec.recordHash 0 Digest.zero

omit [Crypto] in
/-- What signing a rung went through, and what came of it. -/
theorem sign_ok_iff {writer : Identity} {slotId : SlotId} {seq prevSeq : UInt64}
    {recordHash prevHash : Digest} {c : Checkpoint} :
    sign writer slotId seq recordHash prevSeq prevHash = .ok c ↔
      checkpointCheckGenesis seq prevSeq prevHash = .ok () ∧
        ∃ sig, writer.sign .slotCheckpoint (checkpointBody slotId seq recordHash prevSeq prevHash) =
            .ok sig ∧
          c = ⟨slotId, seq, recordHash, prevSeq, prevHash, writer.verifyingKey, sig⟩ := by
  -- Signing checks the place of the rung first.
  simp only [sign, except_bind_eq_ok, except_mapError_eq_ok, except_pure_eq, Except.ok.injEq]
  constructor
  · intro signed
    obtain ⟨_, placed, sig, made, rfl⟩ := signed
    exact ⟨placed, sig, made, rfl⟩
  · intro signed
    obtain ⟨placed, sig, made, rfl⟩ := signed
    exact ⟨(), placed, sig, made, rfl⟩

omit [Crypto] in
/-- A rung points down, or stands at genesis with nothing below. -/
theorem checkpointCheckGenesis_ok_iff {seq prevSeq : UInt64} {prevHash : Digest} {u : Unit} :
    checkpointCheckGenesis seq prevSeq prevHash = .ok u ↔
      (prevHash = Digest.zero ∧ seq = 0 ∧ prevSeq = 0) ∨
        (prevHash ≠ Digest.zero ∧ seq ≠ 0 ∧ prevSeq < seq) := by
  simp only [checkpointCheckGenesis, except_bind_eq_ok, ensure_eq_ok, decide_eq_true_eq,
    decide_eq_decide]
  by_cases start : prevHash = Digest.zero <;> by_cases genesis : seq = 0 <;> simp [start, genesis]

/-- A rung over a record stands where the record does, and not below the rung it is built on. -/
theorem ofRecord_seq {writer : Identity} {rec : SlotRecord} {prev : Option Checkpoint}
    {c : Checkpoint} (made : ofRecord writer rec prev = .ok c) :
    c.seq = rec.seq ∧ ∀ p, prev = some p → p.seq ≤ rec.seq := by
  -- The rung has the number of its record, and one below it has a lower number unless both are at
  -- genesis.
  cases prev with
  | none =>
    obtain ⟨_, _, _, rfl⟩ := sign_ok_iff.mp made
    exact ⟨rfl, fun _ impossible => nomatch impossible⟩
  | some p =>
    obtain ⟨placed, _, _, rfl⟩ := sign_ok_iff.mp made
    refine ⟨rfl, ?_⟩
    intro q same
    obtain rfl := Option.some.inj same
    rcases checkpointCheckGenesis_ok_iff.mp placed with ⟨_, start, zero⟩ | ⟨_, _, lower⟩
    · -- Both stand at genesis, so on one level.
      have level : p.seq = rec.seq := zero.trans start.symm
      exact level ▸ UInt64.le_refl _
    · exact UInt64.le_of_lt lower

/-- The writer's id. -/
def writerId (c : Checkpoint) : WriterId := keyId c.writerPk

/-- Verify against a key. -/
def verify (c : Checkpoint) (verifyingKey : Bytes) : Except CheckpointError Unit := do
  checkpointCheckGenesis c.seq c.prevSeq c.prevHash
  (NasTools.verify verifyingKey .slotCheckpoint c.body c.sig).mapError fun _ => .badSignature

/-- Verify against the key the rung carries. -/
def verifySelf (c : Checkpoint) : Except CheckpointError Unit := c.verify c.writerPk

end Checkpoint

/-- How a client can reach the head from where its memory starts. -/
inductive WalkPlan where
  -- Every record from `start` to the head.
  | full (start records : UInt64)
  -- The ladder up to a rung, then the records from there.
  | skip (topSeq skipped records : UInt64)
  -- Neither: the span is too long, and no rung brings the tail inside the budget.
  | unreachable (span : UInt64) (bestRung : Option UInt64)
deriving DecidableEq

/-- A rung that leaves a walkable tail, not below the start and not above the head. -/
def usableRung (start headSeq budget r : UInt64) : Bool :=
  start ≤ r && r ≤ headSeq && headSeq - r < budget

/-- Pick the walk that reaches the head. -/
def planWalk (start headSeq : UInt64) (rungSeqs : List UInt64) (budget : UInt64) : WalkPlan :=
  let span := satSub headSeq start
  if 0 < budget ∧ span < budget then .full start (span + 1)
  else
    match (rungSeqs.filter (usableRung start headSeq budget)).max? with
    | some topSeq => .skip topSeq (topSeq - start) (headSeq - topSeq + 1)
    | none => .unreachable span rungSeqs.max?

end NasTools
