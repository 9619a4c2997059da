import NasTools.Lib.Fallible
import NasTools.Model.Core.Encoding
import NasTools.Model.Crypto.Sign

/-! Slot records: the signed, chained versions of a mutable pointer. -/

namespace NasTools

/-- The name of a slot, derived from a namespace key and a label. -/
abbrev SlotId := Digest

/-- The hash of a verifying key, which a record carries instead of the key. -/
abbrev WriterId := Digest

/-- The text `{:?}` prints for a slot id. -/
def slotIdDebug (id : SlotId) : String :=
  "SlotId(" ++ String.ofList (toHex id.bytes |>.take 12) ++ "…)"

/-- The text `{:?}` prints for a writer id. -/
def writerIdDebug (id : WriterId) : String :=
  "WriterId(" ++ String.ofList (toHex id.bytes |>.take 12) ++ "…)"

/-- Bytes of the per-version root nonce. -/
def rootNonceLen : Nat := 24

/-- Which consistency regime a slot runs under. -/
inductive Regime where
  -- Exactly one device may write, and a second writer is an alarm.
  | singleWriter
  -- Compare-and-swap on the sequence, then merge and retry.
  | casMerge
deriving DecidableEq, Repr

/-- The discriminant a regime is written as. -/
def Regime.toU8 : Regime → UInt8
  | .singleWriter => 0
  | .casMerge => 1

/-- The regime a discriminant stands for. -/
def Regime.fromU8 : UInt8 → Option Regime
  | 0 => some .singleWriter
  | 1 => some .casMerge
  | _ => none

/-- A regime is read back from its discriminant. -/
@[simp] theorem Regime.fromU8_toU8 (regime : Regime) : Regime.fromU8 regime.toU8 = some regime := by
  cases regime <;> rfl

/-- The text `{:?}` prints for a regime. -/
def Regime.debug : Regime → String
  | .singleWriter => "SingleWriter"
  | .casMerge => "CasMerge"

/-- Why a slot record is refused. -/
inductive RecordError where
  | decode (source : DecodeError)
  | sign (source : SignError)
  | badWidth (field : String) (want got : Nat)
  | fieldCount (want got : Nat)
  | badRegime (value : UInt8)
  | genesisMismatch (seq : UInt64) (prevIsZero : Bool)
  | badSignature
  | writerMismatch
deriving DecidableEq, Repr

/-- The text a record error prints. -/
def RecordError.display : RecordError → String
  | .decode e => "slot record encoding: " ++ e.debug
  | .sign e => e.display
  | .badWidth field want got =>
    field ++ " is " ++ toString got ++ " B, want " ++ toString want ++ " B"
  | .fieldCount want got => toString got ++ " fields, want " ++ toString want
  | .badRegime value => "unknown regime " ++ toString value
  | .genesisMismatch seq prevIsZero =>
    "seq " ++ toString seq ++ " with " ++ (if prevIsZero then "an all-zero" else "a non-zero") ++
      " prev: only seq 0 may have an empty predecessor"
  | .badSignature => "slot record signature does not verify"
  | .writerMismatch => "record writer_id does not match the offered key"

/-- A signed slot version. -/
structure SlotRecord where
  slotId : SlotId
  seq : UInt64
  -- The address of the root manifest this version points at, and the nonce it was sealed with.
  root : Addr
  rootNonce : FixedBytes rootNonceLen
  writerId : WriterId
  -- The hash of the predecessor, all zero at sequence zero.
  prev : Digest
  regime : Regime
  sig : Bytes
deriving DecidableEq

/-- Exactly sequence zero has an all-zero `prev`, under the error the record type reports. -/
def genesisRule {E : Type} (mismatch : UInt64 → Bool → E) (seq : UInt64) (prev : Digest) :
    Except E Unit :=
  let zero := prev.bytes.all (· == 0)
  ensure ((seq == 0) = zero) (mismatch seq zero)

/-- The genesis rule passes exactly when sequence zero and the zero digest go together. -/
@[simp] theorem genesisRule_eq_ok {E : Type} {mismatch : UInt64 → Bool → E} {seq : UInt64}
    {prev : Digest} {u : Unit} :
    genesisRule mismatch seq prev = .ok u ↔ (seq = 0 ↔ prev = Digest.zero) := by
  rw [genesisRule, ensure_eq_ok, Bool.eq_iff_iff, beq_iff_eq, FixedBytes.all_zero_iff]
  rfl

/-- Exactly the genesis record has an all-zero `prev`. -/
def checkGenesis (seq : UInt64) (prev : Digest) : Except RecordError Unit :=
  genesisRule .genesisMismatch seq prev

/-- Read a field of an expected width. -/
def recordFixed (width : Nat) (field : String) (data : Bytes) :
    Except RecordError (FixedBytes width) :=
  fixedField .badWidth width field data

/-- Domain string of the record hash. -/
def recordHashDomain : Bytes := asciiBytes "nas-tools/slot-record-hash/v1"

namespace SlotRecord

/-- The fields that are signed: everything but the signature itself. -/
def bodyFields (r : SlotRecord) : List Bytes :=
  [r.slotId.bytes, u64Le r.seq, r.root.bytes, r.rootNonce.bytes, r.writerId.bytes, r.prev.bytes,
    [r.regime.toU8]]

/-- Every signed field has a fixed width, far below what a prefix can announce. -/
theorem bodyFields_fit (r : SlotRecord) : FieldsFit r.bodyFields := by
  intro field member
  simp only [bodyFields, List.mem_cons, List.not_mem_nil, or_false] at member
  rcases member with rfl | rfl | rfl | rfl | rfl | rfl | rfl <;>
    simp [FixedBytes.size, maxField, rootNonceLen]

/-- The bytes that are signed. -/
def body (r : SlotRecord) : Except DecodeError Bytes := encodeFields r.bodyFields

/-- The record as it is stored and sent. -/
def encode (r : SlotRecord) : Except RecordError Bytes :=
  (encodeFields (r.bodyFields ++ [r.sig])).mapError .decode

/-- Read a record back from its stored form. -/
def decode (bytes : Bytes) : Except RecordError SlotRecord :=
  match decodeFields bytes with
  | .error e => .error (.decode e)
  | .ok [slotId, seq, root, rootNonce, writerId, prev, regime, sig] => do
    let slotId ← recordFixed 32 "slot_id" slotId
    let seq ← recordFixed 8 "seq" seq
    let root ← recordFixed addrLen "root" root
    let rootNonce ← recordFixed rootNonceLen "root_nonce" rootNonce
    let writerId ← recordFixed 32 "writer_id" writerId
    let prev ← recordFixed 32 "prev" prev
    let regimeByte ← recordFixed 1 "regime" regime
    let value := regimeByte.bytes.headD 0
    let regime ← okOr (Regime.fromU8 value) (.badRegime value)
    -- A signature of the wrong length never reaches the verifier.
    ensure (sig.length = signatureLen) (.badWidth "sig" signatureLen sig.length)
    checkGenesis (u64OfLe seq.bytes) prev
    return ⟨slotId, u64OfLe seq.bytes, root, rootNonce, writerId, prev, regime, sig⟩
  | .ok fields => .error (.fieldCount 8 fields.length)

/-- Reading a record back from its stored form checks its signature's width and its place. -/
theorem decode_encode {r : SlotRecord} {bytes : Bytes} (encoded : r.encode = .ok bytes) :
    decode bytes = do
      ensure (r.sig.length = signatureLen) (.badWidth "sig" signatureLen r.sig.length)
      checkGenesis r.seq r.prev
      return r := by
  -- Every field is read back at its width; only the signature and the place are left to check.
  rw [encode, except_mapError_eq_ok] at encoded
  have fits := fits_of_encodeFields encoded
  rw [encodeFields_ok fits, Except.ok.injEq] at encoded
  subst encoded
  have seqField : recordFixed 8 "seq" (u64Le r.seq) = .ok ⟨u64Le r.seq, u64Le_length _⟩ :=
    fixedField_of_length _ _ _
  have rootField : recordFixed addrLen "root" r.root.bytes = .ok r.root := fixedField_bytes _ _ _
  have regimeField : recordFixed 1 "regime" [r.regime.toU8] = .ok ⟨[r.regime.toU8], rfl⟩ :=
    fixedField_of_length _ _ _
  have arrays (width : Nat) (field : String) (a : FixedBytes width) :
      recordFixed width field a.bytes = .ok a := fixedField_bytes _ _ a
  rw [decode, decodeFields_framed fits]
  simp only [bodyFields, List.cons_append, List.nil_append, arrays, seqField, rootField,
    regimeField,
    except_ok_bind, List.headD_cons, u64OfLe_u64Le, Regime.fromU8_toU8, okOr_some]
  rfl

/-- What encodes to some bytes is what decodes from them, where anything does. -/
theorem decode_of_encode {r s : SlotRecord} {bytes : Bytes} (encoded : r.encode = .ok bytes)
    (decoded : decode bytes = .ok s) : s = r := by
  simp only [decode_encode encoded, except_bind_eq_ok, except_pure_eq, Except.ok.injEq] at decoded
  obtain ⟨_, _, _, _, rfl⟩ := decoded
  rfl

variable [Crypto]

/-- Build and sign a record. -/
def sign (identity : Identity) (slotId : SlotId) (seq : UInt64) (root : Addr)
    (rootNonce : FixedBytes rootNonceLen) (prev : Digest) (regime : Regime) :
    Except RecordError SlotRecord := do
  let writerId := keyId identity.verifyingKey
  checkGenesis seq prev
  let unsigned : SlotRecord := ⟨slotId, seq, root, rootNonce, writerId, prev, regime, []⟩
  let b ← unsigned.body.mapError .decode
  let sig ← (identity.sign .slot b).mapError .sign
  return { unsigned with sig }

/-- Verify the signature against a key, which must be the one the record names. -/
def verify (r : SlotRecord) (verifyingKey : Bytes) : Except RecordError Unit := do
  ensure (keyId verifyingKey = r.writerId) .writerMismatch
  checkGenesis r.seq r.prev
  let b ← r.body.mapError .decode
  (NasTools.verify verifyingKey .slot b r.sig).mapError fun _ => .badSignature

/-- What the hash of a record is taken over. -/
def hashInput (r : SlotRecord) (b : Bytes) : Bytes :=
  recordHashDomain ++ u64Le (UInt64.ofNat b.length) ++ b ++ r.sig

/-- The hash of the whole record, signature included, which the successor's `prev` must equal. -/
def recordHash (r : SlotRecord) : Digest :=
  match r.body with
  | .ok b => Crypto.blake3 (r.hashInput b)
  -- A constructed record always encodes, so this branch is never taken.
  | .error _ => Digest.zero

/-- The hash of the signature alone, the short form a capability carries. -/
def sigHash (r : SlotRecord) : Digest := Crypto.blake3 r.sig

end SlotRecord

section

variable [Crypto]

/-- The hash of a record is a hash, so it is not the zero digest that stands for no predecessor. -/
theorem recordHash_ne_zero (noZero : NoZeroDigest) (r : SlotRecord) :
    r.recordHash ≠ Digest.zero := by
  have encodes : r.body = .ok _ := encodeFields_ok r.bodyFields_fit
  rw [SlotRecord.recordHash, encodes]
  exact noZero _

/-- A record that verifies obeys the genesis rule. -/
theorem genesis_of_verify {r : SlotRecord} {vk : Bytes} (verified : r.verify vk = .ok ()) :
    r.seq = 0 ↔ r.prev = Digest.zero := by
  simp only [SlotRecord.verify, except_bind_eq_ok, ensure_eq_ok] at verified
  obtain ⟨_, _, _, rule, _⟩ := verified
  exact genesisRule_eq_ok.mp rule

end

end NasTools
