import NasTools.Model.Core.Format

/-! Signing with per-message contexts, over an abstract hash and an abstract signature scheme. -/

namespace NasTools

/--
The two primitives the system is built on and does not implement.

BLAKE3 and ML-DSA-65 come from other packages.
Nothing is assumed of them here, and each result that needs a property of them names it.
-/
class Crypto where
  /-- BLAKE3 over a whole message. -/
  blake3 : Bytes → Digest
  /-- ML-DSA-65 verification of a signature over a framed message. -/
  mldsaVerify : (verifyingKey message signature : Bytes) → Bool

/-- Bytes of an ML-DSA-65 verifying key. -/
def verifyingKeyLen : Nat := 1952

/-- Bytes of an ML-DSA-65 signature. -/
def signatureLen : Nat := 3309

/-- What a signature is over. -/
inductive SigContext where
  | slot
  | lease
  | leaseCheckpoint
  | slotCheckpoint
  | roster
  | cap
  | witness
  | retention
  | deleteRequest
  | deleteApproval
  | deleteExecution
  | wrap
  | mirrorPublish
  | slotHandoff
  | patch
deriving DecidableEq, Repr

/-- The text prefixed to a message before it is signed. -/
def SigContext.text : SigContext → String
  | .slot => "nas-tools/sig/slot/v1"
  | .lease => "nas-tools/sig/lease/v1"
  | .leaseCheckpoint => "nas-tools/sig/checkpoint/v1"
  | .slotCheckpoint => "nas-tools/sig/slot-checkpoint/v1"
  | .roster => "nas-tools/sig/roster/v1"
  | .cap => "nas-tools/sig/cap/v1"
  | .witness => "nas-tools/sig/witness/v2"
  | .retention => "nas-tools/sig/retention/v1"
  | .deleteRequest => "nas-tools/sig/delete-request/v1"
  | .deleteApproval => "nas-tools/sig/delete-approval/v1"
  | .deleteExecution => "nas-tools/sig/delete-execution/v1"
  | .wrap => "nas-tools/sig/wrap/v1"
  | .mirrorPublish => "nas-tools/sig/mirror-publish/v1"
  | .slotHandoff => "nas-tools/sig/slot-handoff/v1"
  | .patch => "nas-tools/sig/patch/v1"

/-- The bytes of a text made of single-byte characters. -/
def asciiBytes (text : String) : Bytes := text.toList.map fun c => UInt8.ofNat c.toNat

/-- The exact bytes prefixed to a message before signing. -/
def SigContext.asBytes (ctx : SigContext) : Bytes := asciiBytes ctx.text

/-- Why signing or verifying failed. -/
inductive SignError where
  | backend
  | badKeyLength (got : Nat)
  | badSignatureLength (got : Nat)
deriving DecidableEq, Repr

/-- The text a signing error prints. -/
def SignError.display : SignError → String
  | .backend => "signature operation failed"
  | .badKeyLength got =>
    "verifying key is " ++ toString got ++ " B, ML-DSA-65 keys are " ++
      toString verifyingKeyLen ++ " B"
  | .badSignatureLength got =>
    "signature is " ++ toString got ++ " B, ML-DSA-65 signatures are " ++
      toString signatureLen ++ " B"

/-- The context, its length, and the message. -/
def framed (ctx : SigContext) (message : Bytes) : Bytes :=
  -- The length keeps a context apart from a message that starts with the rest of another one.
  ctx.asBytes ++ natToLe 4 ctx.asBytes.length ++ message

/-- A keypair: its public half, and signing of a framed message by its secret half. -/
structure Identity where
  verifyingKey : Bytes
  signFramed : Bytes → Except SignError Bytes

/-- Sign `message` as `ctx`. -/
def Identity.sign (id : Identity) (ctx : SigContext) (message : Bytes) : Except SignError Bytes :=
  match id.signFramed (framed ctx message) with
  | .ok sig => .ok sig
  -- The reason is not passed on.
  | .error _ => .error .backend

section

variable [Crypto]

/-- Verify a signature made under the same context, checking lengths first. -/
def verify (verifyingKey : Bytes) (ctx : SigContext) (message signature : Bytes) :
    Except SignError Unit :=
  if verifyingKey.length ≠ verifyingKeyLen then .error (.badKeyLength verifyingKey.length)
  else if signature.length ≠ signatureLen then .error (.badSignatureLength signature.length)
  else if Crypto.mldsaVerify verifyingKey (framed ctx message) signature then .ok ()
  else .error .backend

/-- Only keys and signatures of the right widths verify. -/
theorem widths_of_verify {verifyingKey message signature : Bytes} {ctx : SigContext} {u : Unit}
    (verified : verify verifyingKey ctx message signature = .ok u) :
    verifyingKey.length = verifyingKeyLen ∧ signature.length = signatureLen := by
  -- Either wrong width is refused first.
  unfold verify at verified
  split at verified
  · cases verified
  split at verified
  · cases verified
  · rename_i key sig
    exact ⟨Decidable.not_not.mp key, Decidable.not_not.mp sig⟩

/-- `BLAKE3(vk)` for a raw verifying key. -/
def keyId (verifyingKey : Bytes) : Digest := Crypto.blake3 verifyingKey

/-- The identifier of a keypair. -/
def Identity.id (id : Identity) : Digest := keyId id.verifyingKey

/--
A keypair that signs: its keys and signatures have the right widths, and what it signs verifies.

This is the documented behaviour of an ML-DSA-65 keypair.
-/
structure Identity.Signs (id : Identity) : Prop where
  keyLength : id.verifyingKey.length = verifyingKeyLen
  signs : ∀ message, ∃ sig, id.signFramed message = .ok sig ∧ sig.length = signatureLen ∧
    Crypto.mldsaVerify id.verifyingKey message sig = true

/-- A working keypair signs every message in every context, and the result verifies. -/
theorem Identity.Signs.sign_verifies {id : Identity} (works : id.Signs) (ctx : SigContext)
    (message : Bytes) : ∃ sig, id.sign ctx message = .ok sig ∧ sig.length = signatureLen ∧
      verify id.verifyingKey ctx message sig = .ok () := by
  obtain ⟨sig, made, width, valid⟩ := works.signs (framed ctx message)
  exact ⟨sig, by simp [Identity.sign, made], width, by simp [verify, works.keyLength, width, valid]⟩

/-- BLAKE3 never returns the all-zero digest, which is reserved for "no predecessor". -/
def NoZeroDigest : Prop := ∀ message, Crypto.blake3 message ≠ Digest.zero

end

end NasTools
