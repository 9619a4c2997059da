import NasTools.Model.Slots.Record

/-! Handoffs: the outgoing writer's signed consent to a change of writer. -/

namespace NasTools

/-- Why a handoff is refused. -/
inductive HandoffError where
  | decode (source : DecodeError)
  | sign (source : SignError)
  | badWidth (field : String) (want got : Nat)
  | fieldCount (want got : Nat)
  | badSignature
  -- A handoff to the writer that already holds the slot says nothing.
  | selfHandoff (writer : WriterId)
deriving DecidableEq

/-- The text a handoff error prints. -/
def HandoffError.display : HandoffError → String
  | .decode e => e.debug
  | .sign e => e.display
  | .badWidth field want got =>
    field ++ " is " ++ toString got ++ " B, want " ++ toString want ++ " B"
  | .fieldCount want got => toString got ++ " fields, want " ++ toString want
  | .badSignature => "handoff signature does not verify"
  | .selfHandoff writer => "handoff from " ++ String.ofList (toHex writer.bytes) ++ " to itself"

/-- One authorised change of writer. -/
structure SlotHandoff where
  slotId : SlotId
  -- The first sequence the incoming writer may sign.
  atSeq : UInt64
  -- The outgoing writer's key in full, so that the record verifies on its own.
  fromPk : Bytes
  toWriter : WriterId
  sig : Bytes
deriving DecidableEq

/-- The bytes an outgoing writer signs. -/
def handoffBody (slotId : SlotId) (atSeq : UInt64) (outgoing incoming : WriterId) : Bytes :=
  expectFields [slotId.bytes, u64Le atSeq, outgoing.bytes, incoming.bytes]

/-- Read a field of an expected width. -/
def handoffFixed (width : Nat) (field : String) (data : Bytes) :
    Except HandoffError (FixedBytes width) :=
  fixedField .badWidth width field data

namespace SlotHandoff

/-- The handoff as it is stored and sent. -/
def encode (h : SlotHandoff) : Except HandoffError Bytes :=
  (encodeFields [h.slotId.bytes, u64Le h.atSeq, h.fromPk, h.toWriter.bytes, h.sig]).mapError .decode

/-- Read a handoff back from its stored form, checking the key and the signature first. -/
def decode (bytes : Bytes) : Except HandoffError SlotHandoff :=
  match decodeFields bytes with
  | .error e => .error (.decode e)
  | .ok [slotId, atSeq, fromPk, toWriter, sig] => do
    ensure (fromPk.length = verifyingKeyLen) (.badWidth "from_pk" verifyingKeyLen fromPk.length)
    ensure (sig.length = signatureLen) (.badWidth "sig" signatureLen sig.length)
    let slotId ← handoffFixed 32 "slot_id" slotId
    let atSeq ← handoffFixed 8 "at_seq" atSeq
    let toWriter ← handoffFixed 32 "to" toWriter
    return ⟨slotId, u64OfLe atSeq.bytes, fromPk, toWriter, sig⟩
  | .ok fields => .error (.fieldCount 5 fields.length)

/-- A handoff with a key and a signature of the right widths is read back as it was. -/
theorem decode_encode {h : SlotHandoff} {bytes : Bytes} (encoded : h.encode = .ok bytes)
    (key : h.fromPk.length = verifyingKeyLen) (sig : h.sig.length = signatureLen) :
    decode bytes = .ok h := by
  -- Every field is read back at the width it was written in.
  rw [encode, except_mapError_eq_ok] at encoded
  have fits := fits_of_encodeFields encoded
  rw [encodeFields_ok fits, Except.ok.injEq] at encoded
  subst encoded
  have seqField : handoffFixed 8 "at_seq" (u64Le h.atSeq) = .ok ⟨u64Le h.atSeq, u64Le_length _⟩ :=
    fixedField_of_length _ _ _
  have arrays (width : Nat) (field : String) (a : FixedBytes width) :
      handoffFixed width field a.bytes = .ok a := fixedField_bytes _ _ a
  rw [decode, decodeFields_framed fits]
  simp only [key, sig, ensure_of, arrays, seqField, except_ok_bind, u64OfLe_u64Le, except_pure_eq]

/-- Keys and signatures of the right widths always fit. -/
theorem encode_ok {h : SlotHandoff} (key : h.fromPk.length = verifyingKeyLen)
    (sig : h.sig.length = signatureLen) : ∃ bytes, h.encode = .ok bytes := by
  have fits : FieldsFit [h.slotId.bytes, u64Le h.atSeq, h.fromPk, h.toWriter.bytes, h.sig] := by
    simp [FieldsFit, FixedBytes.size, key, sig, maxField, verifyingKeyLen, signatureLen]
  exact ⟨_, by rw [encode, encodeFields_ok fits]; rfl⟩

variable [Crypto]

/-- Sign as the outgoing writer. -/
def sign (outgoing : Identity) (slotId : SlotId) (atSeq : UInt64) (toWriter : WriterId) :
    Except HandoffError SlotHandoff := do
  let outgoingId := keyId outgoing.verifyingKey
  ensure (outgoingId ≠ toWriter) (.selfHandoff toWriter)
  let sig ← (outgoing.sign .slotHandoff (handoffBody slotId atSeq outgoingId toWriter)).mapError
    .sign
  return ⟨slotId, atSeq, outgoing.verifyingKey, toWriter, sig⟩

/-- The outgoing writer. -/
def fromWriter (h : SlotHandoff) : WriterId := keyId h.fromPk

/-- Verify the outgoing writer's signature. -/
def verify (h : SlotHandoff) : Except HandoffError Unit := do
  ensure (h.fromWriter ≠ h.toWriter) (.selfHandoff h.toWriter)
  (NasTools.verify h.fromPk .slotHandoff
    (handoffBody h.slotId h.atSeq h.fromWriter h.toWriter) h.sig).mapError fun _ => .badSignature

/-- A handoff that verifies has a key and a signature of the right widths. -/
theorem widths_of_verify {h : SlotHandoff} (verified : h.verify = .ok ()) :
    h.fromPk.length = verifyingKeyLen ∧ h.sig.length = signatureLen := by
  simp only [verify, except_bind_eq_ok, except_mapError_eq_ok] at verified
  obtain ⟨_, _, signed⟩ := verified
  exact NasTools.widths_of_verify signed

/-- Whether this authorises exactly this change, on exactly this slot, at exactly this sequence. -/
def authorises (h : SlotHandoff) (slot : SlotId) (atSeq : UInt64) (outgoing incoming : WriterId) :
    Bool :=
  h.slotId == slot && h.atSeq == atSeq && h.fromWriter == outgoing && h.toWriter == incoming &&
    h.verify.isOk

end SlotHandoff

end NasTools
