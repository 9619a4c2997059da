import NasTools.Model.Slots.Record

/-! Witnesses, the signed observations clients publish, and the fork proofs made of them. -/

namespace NasTools

/-- Fields of a witness. -/
def witnessFields : Nat := 7

/-- The longest chain of linking witnesses a fork proof may carry. -/
def maxLink : Nat := 64

/-- Why a witness is refused. -/
inductive WitnessError where
  | decode (source : DecodeError)
  | sign (source : SignError)
  | badWidth (field : String) (want got : Nat)
  | fieldCount (want got : Nat)
  -- The old format carried no predecessor, so there is nothing to upgrade it to.
  | legacyV1
  | genesisMismatch (seq : UInt64) (prevIsZero : Bool)
  | badSignature
deriving DecidableEq

/-- The text a witness error prints. -/
def WitnessError.display : WitnessError → String
  | .decode e => "witness encoding: " ++ e.debug
  | .sign e => e.display
  | .badWidth field want got =>
    field ++ " is " ++ toString got ++ " B, want " ++ toString want ++ " B"
  | .fieldCount want got => toString got ++ " fields, want " ++ toString want
  | .legacyV1 => "witness is format v1 (no `prev` link); this build speaks v2 only"
  | .genesisMismatch seq prevIsZero =>
    "witness of seq " ++ toString seq ++ " with " ++
      (if prevIsZero then "an all-zero" else "a non-zero") ++
      " prev: only seq 0 may have an empty predecessor"
  | .badSignature => "witness signature does not verify"

/-- A signed observation of a slot head, and of the edge below it. -/
structure Witness where
  -- The key in full: a proof must be checkable by someone without the observer's roster.
  witnessPk : Bytes
  slotId : SlotId
  seq : UInt64
  recordHash : Digest
  prev : Digest
  -- The observer's own counter, not a trusted clock.
  logicalTime : UInt64
  sig : Bytes
deriving DecidableEq

/-- The bytes an observer signs. -/
def witnessBody (slotId : SlotId) (seq : UInt64) (recordHash prev : Digest)
    (logicalTime : UInt64) : Bytes :=
  expectFields [slotId.bytes, u64Le seq, recordHash.bytes, prev.bytes, u64Le logicalTime]

/-- Exactly a witness of the genesis record has an all-zero `prev`. -/
def witnessCheckGenesis (seq : UInt64) (prev : Digest) : Except WitnessError Unit :=
  genesisRule .genesisMismatch seq prev

/-- Read a field of an expected width. -/
def witnessFixed (width : Nat) (field : String) (data : Bytes) :
    Except WitnessError (FixedBytes width) :=
  fixedField .badWidth width field data

namespace Witness

/-- The witness as it is stored and sent. -/
def encode (w : Witness) : Except WitnessError Bytes :=
  (encodeFields [w.witnessPk, w.slotId.bytes, u64Le w.seq, w.recordHash.bytes, w.prev.bytes,
    u64Le w.logicalTime, w.sig]).mapError .decode

/-- Read a witness back from its stored form. -/
def decode (bytes : Bytes) : Except WitnessError Witness :=
  match decodeFields bytes with
  | .error e => .error (.decode e)
  | .ok [witnessPk, slotId, seq, recordHash, prev, logicalTime, sig] => do
    ensure (witnessPk.length = verifyingKeyLen)
      (.badWidth "witness_pk" verifyingKeyLen witnessPk.length)
    ensure (sig.length = signatureLen) (.badWidth "sig" signatureLen sig.length)
    let seq ← witnessFixed 8 "seq" seq
    let prev ← witnessFixed 32 "prev" prev
    witnessCheckGenesis (u64OfLe seq.bytes) prev
    let slotId ← witnessFixed 32 "slot_id" slotId
    let recordHash ← witnessFixed 32 "record_hash" recordHash
    let logicalTime ← witnessFixed 8 "logical_time" logicalTime
    return ⟨witnessPk, slotId, u64OfLe seq.bytes, recordHash, prev, u64OfLe logicalTime.bytes, sig⟩
  | .ok fields =>
    -- Six fields is the old format, which is worth naming apart from corruption.
    if fields.length = 6 then .error .legacyV1
    else .error (.fieldCount witnessFields fields.length)

variable [Crypto]

/-- Sign an observation. -/
def sign (identity : Identity) (slotId : SlotId) (seq : UInt64) (recordHash prev : Digest)
    (logicalTime : UInt64) : Except WitnessError Witness := do
  witnessCheckGenesis seq prev
  let sig ← (identity.sign .witness (witnessBody slotId seq recordHash prev logicalTime)).mapError
    .sign
  return ⟨identity.verifyingKey, slotId, seq, recordHash, prev, logicalTime, sig⟩

/-- Sign an observation of a record the observer holds. -/
def ofRecord (identity : Identity) (record : SlotRecord) (logicalTime : UInt64) :
    Except WitnessError Witness :=
  sign identity record.slotId record.seq record.recordHash record.prev logicalTime

/-- Verify against the key the witness carries. -/
def verify (w : Witness) : Except WitnessError Unit := do
  witnessCheckGenesis w.seq w.prev
  (NasTools.verify w.witnessPk .witness
    (witnessBody w.slotId w.seq w.recordHash w.prev w.logicalTime) w.sig).mapError
      fun _ => .badSignature

/-- The observer's id. -/
def witnessId (w : Witness) : Digest := keyId w.witnessPk

end Witness

/-- Witnesses that cannot all describe one history. -/
structure ForkProof where
  slotId : SlotId
  -- The sequence at which the two histories differ, where `a` sits.
  seq : UInt64
  a : Witness
  b : Witness
  -- The witnesses stepping `b` down to `seq`, in descending order.
  link : List Witness
deriving DecidableEq

namespace ForkProof

variable [Crypto]

/-- Build a proof from two witnesses of one sequence that name different records. -/
def tryNew (a b : Witness) : Option ForkProof :=
  if a.slotId ≠ b.slotId ∨ a.seq ≠ b.seq ∨ a.recordHash = b.recordHash then none
  else if a.verify.isOk && b.verify.isOk then some ⟨a.slotId, a.seq, a, b, []⟩
  else none

/-- Re-walk the link: `hash` is what the record at `seq` must be, as named by the step above it. -/
def rewalk (p : ForkProof) : List Witness → Digest → UInt64 → Bool
  | [], hash, seq => seq == p.seq && hash != p.a.recordHash
  | w :: rest, hash, seq =>
    -- A link longer than the gap it claims to span is refused.
    if seq = p.seq then false
    else if w.slotId ≠ p.slotId ∨ w.seq ≠ seq ∨ w.recordHash ≠ hash ∨ ¬w.verify.isOk then false
    else p.rewalk rest w.prev (seq - 1)

/-- Re-check a proof received from someone else. -/
def verify (p : ForkProof) : Bool :=
  if p.a.slotId ≠ p.slotId ∨ p.b.slotId ≠ p.slotId then false
  else if p.a.seq ≠ p.seq ∨ ¬p.a.verify.isOk ∨ ¬p.b.verify.isOk then false
  -- The shape comes from the two sequences, never from whether the link is empty.
  else if p.b.seq = p.seq then p.link.isEmpty && p.a.recordHash != p.b.recordHash
  else if p.b.seq < p.seq ∨ p.link.length > maxLink then false
  else p.rewalk p.link p.b.prev (p.b.seq - 1)

/-- Build a proof that `b`, walked back along `link`, reaches `a`'s sequence on another record. -/
def tryLinked (a b : Witness) (link : List Witness) : Option ForkProof :=
  if a.slotId ≠ b.slotId ∨ b.seq ≤ a.seq then none
  else
    let p : ForkProof := ⟨a.slotId, a.seq, a, b, link⟩
    if p.verify then some p else none

end ForkProof

end NasTools
