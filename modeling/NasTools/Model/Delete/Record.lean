import NasTools.Lib.Fallible
import NasTools.Model.Core.Encoding
import NasTools.Model.Crypto.Sign

/-!
The deletion records: a request, the approvals of it by devices that wait, and the
execution that carries them.
-/

namespace NasTools

/-- Approvals an execution may carry. -/
def maxApprovals : Nat := 64

/-- The first six bytes of a digest, as a text. -/
def hex6 (b : Bytes) : String := String.ofList (toHex (b.take 6)) ++ "…"

/-- Why a deletion record is refused. -/
inductive DeleteError where
  | tooManyApprovals (got : Nat)
  | decode (source : DecodeError)
  | sign (source : SignError)
  | badWidth (field : String) (want got : Nat)
  | fieldCount (want got : Nat)
  | badSignature
  | badScope (tag : UInt8)
  | badScopePath
  | wrongRequest (expected got : Digest)
deriving DecidableEq

/-- The text a deletion error prints. -/
def DeleteError.display : DeleteError → String
  | .tooManyApprovals got =>
    toString got ++ " approvals exceeds the " ++ toString maxApprovals ++ " limit"
  | .decode e => e.debug
  | .sign e => e.display
  | .badWidth field want got =>
    field ++ " is " ++ toString got ++ " B, want " ++ toString want ++ " B"
  | .fieldCount want got => toString got ++ " fields, want " ++ toString want
  | .badSignature => "signature does not verify"
  | .badScope tag => "unknown scope discriminant " ++ toString tag
  | .badScopePath =>
    "an object or prefix scope needs a path, and a namespace scope may not carry one"
  | .wrongRequest expected got =>
    "approval is for request " ++ hex6 got.bytes ++ ", not " ++ hex6 expected.bytes

/-- The UTF-8 bytes of a text. -/
def utf8 (text : String) : Bytes := text.toUTF8.data.toList

/-- The text some UTF-8 bytes spell. -/
def ofUtf8? (data : Bytes) : Option String := String.fromUTF8? ⟨data.toArray⟩

/-- How much a deletion reaches. -/
inductive Scope where
  | object (path : String)
  | withPrefix (path : String)
  | wholeNamespace
deriving DecidableEq

namespace Scope

/-- The discriminant a scope is written as. -/
def tag : Scope → UInt8
  | .object _ => 0
  | .withPrefix _ => 1
  | .wholeNamespace => 2

/-- The path a scope names. -/
def path : Scope → String
  | .object p => p
  | .withPrefix p => p
  | .wholeNamespace => ""

/-- Only the whole namespace goes without a path. -/
def check : Scope → Except DeleteError Unit
  -- Without a path an object or a prefix would be the whole namespace.
  | .object p => ensure (p ≠ "") .badScopePath
  | .withPrefix p => ensure (p ≠ "") .badScopePath
  | .wholeNamespace => .ok ()

/-- Read a scope back from its discriminant and path. -/
def decode (tag : UInt8) (path : Bytes) : Except DeleteError Scope := do
  -- A path that is no text is refused like one that is missing.
  let path ← okOr (ofUtf8? path) .badScopePath
  let scope ← match tag with
    | 0 => .ok (.object path)
    | 1 => .ok (.withPrefix path)
    | 2 => if path = "" then .ok .wholeNamespace else .error .badScopePath
    | other => .error (.badScope other)
  scope.check
  return scope

end Scope

/-- Read a field of thirty-two bytes. -/
def deleteFixed32 (field : String) (data : Bytes) : Except DeleteError Digest :=
  fixedField .badWidth 32 field data

/-- A signed request to delete, which deletes nothing by itself. -/
structure DeleteRequest where
  scope : Scope
  reason : String
  requestedBy : Bytes
  nonce : Digest
  sig : Bytes
deriving DecidableEq

/-- The bytes a requester signs. -/
def requestBody (scope : Scope) (reason : String) (nonce : Digest) : Bytes :=
  expectFields [[scope.tag], utf8 scope.path, utf8 reason, nonce.bytes]

namespace DeleteRequest

/-- The request as it is stored and sent. -/
def encode (r : DeleteRequest) : Except DeleteError Bytes :=
  (encodeFields [[r.scope.tag], utf8 r.scope.path, utf8 r.reason, r.requestedBy, r.nonce.bytes,
    r.sig]).mapError .decode

/-- Read a request back from its stored form. -/
def decode (bytes : Bytes) : Except DeleteError DeleteRequest :=
  match decodeFields bytes with
  | .error e => .error (.decode e)
  | .ok [tag, path, reason, requestedBy, nonce, sig] => do
    let tag ← fixedField DeleteError.badWidth 1 "scope_tag" tag
    -- The lengths are checked before the scope is read.
    ensure (requestedBy.length = verifyingKeyLen)
      (.badWidth "requested_by" verifyingKeyLen requestedBy.length)
    ensure (sig.length = signatureLen) (.badWidth "sig" signatureLen sig.length)
    let scope ← Scope.decode (tag.bytes.headD 0) path
    -- A reason that is no text is refused as a path would be.
    let reason ← okOr (ofUtf8? reason) .badScopePath
    let nonce ← deleteFixed32 "nonce" nonce
    return ⟨scope, reason, requestedBy, nonce, sig⟩
  | .ok fields => .error (.fieldCount 6 fields.length)

variable [Crypto]

/-- Sign a request. -/
def sign (identity : Identity) (scope : Scope) (reason : String) (nonce : Digest) :
    Except DeleteError DeleteRequest := do
  scope.check
  let sig ← (identity.sign .deleteRequest (requestBody scope reason nonce)).mapError .sign
  return ⟨scope, reason, identity.verifyingKey, nonce, sig⟩

/-- Verify the requester's signature. -/
def verify (r : DeleteRequest) : Except DeleteError Unit := do
  r.scope.check
  (NasTools.verify r.requestedBy .deleteRequest (requestBody r.scope r.reason r.nonce)
    r.sig).mapError fun _ => .badSignature

/-- What approvals and executions name a request by. -/
def requestHash (r : DeleteRequest) : Digest :=
  -- The key and the signature are in it, so an approval is of one signed request.
  Crypto.blake3 (requestBody r.scope r.reason r.nonce ++ r.requestedBy ++ r.sig)

/-- The requester's id. -/
def requesterId (r : DeleteRequest) : Digest := keyId r.requestedBy

end DeleteRequest

/-- One approver's signature under one request. -/
structure DeleteApproval where
  requestHash : Digest
  approverPk : Bytes
  sig : Bytes
deriving DecidableEq

namespace DeleteApproval

/-- The approval as it is stored and sent. -/
def encode (a : DeleteApproval) : Except DeleteError Bytes :=
  (encodeFields [a.requestHash.bytes, a.approverPk, a.sig]).mapError .decode

/-- Read an approval back from its stored form. -/
def decode (bytes : Bytes) : Except DeleteError DeleteApproval :=
  match decodeFields bytes with
  | .error e => .error (.decode e)
  | .ok [requestHash, approverPk, sig] => do
    ensure (approverPk.length = verifyingKeyLen)
      (.badWidth "approver_pk" verifyingKeyLen approverPk.length)
    ensure (sig.length = signatureLen) (.badWidth "sig" signatureLen sig.length)
    let requestHash ← deleteFixed32 "request_hash" requestHash
    return ⟨requestHash, approverPk, sig⟩
  | .ok fields => .error (.fieldCount 3 fields.length)

variable [Crypto]

/-- Approve a request. -/
def sign (identity : Identity) (requestHash : Digest) : Except DeleteError DeleteApproval := do
  let sig ← (identity.sign .deleteApproval requestHash.bytes).mapError .sign
  return ⟨requestHash, identity.verifyingKey, sig⟩

/-- Verify the approver's signature. -/
def verify (a : DeleteApproval) : Except DeleteError Unit :=
  (NasTools.verify a.approverPk .deleteApproval a.requestHash.bytes a.sig).mapError
    fun _ => .badSignature

/-- The approver's id. -/
def approverId (a : DeleteApproval) : Digest := keyId a.approverPk

end DeleteApproval

/-- The record that carries the approvals of a request. -/
structure DeleteExecution where
  requestHash : Digest
  approvals : List DeleteApproval
  executedBy : Bytes
  sig : Bytes
deriving DecidableEq

namespace DeleteExecution

/-- The execution as it is stored and sent. -/
def encode (e : DeleteExecution) : Except DeleteError Bytes := do
  ensure (e.approvals.length ≤ maxApprovals) (.tooManyApprovals e.approvals.length)
  let approvals ← e.approvals.mapM DeleteApproval.encode
  (encodeFields ([e.requestHash.bytes, e.executedBy, e.sig] ++ approvals)).mapError .decode

/-- Read an execution back from its stored form. -/
def decode (bytes : Bytes) : Except DeleteError DeleteExecution :=
  match decodeFields bytes with
  | .error e => .error (.decode e)
  | .ok (requestHash :: executedBy :: sig :: approvals) => do
    -- The number is checked before any approval is read.
    ensure (approvals.length ≤ maxApprovals) (.tooManyApprovals approvals.length)
    ensure (executedBy.length = verifyingKeyLen)
      (.badWidth "executed_by" verifyingKeyLen executedBy.length)
    ensure (sig.length = signatureLen) (.badWidth "sig" signatureLen sig.length)
    let requestHash ← deleteFixed32 "request_hash" requestHash
    let approvals ← approvals.mapM DeleteApproval.decode
    return ⟨requestHash, approvals, executedBy, sig⟩
  | .ok fields => .error (.fieldCount 3 fields.length)

variable [Crypto]

/-- Sign an execution over approvals of the same request. -/
def sign (identity : Identity) (request : DeleteRequest) (approvals : List DeleteApproval) :
    Except DeleteError DeleteExecution := do
  let requestHash := request.requestHash
  approvals.forM fun a =>
    ensure (a.requestHash = requestHash) (.wrongRequest requestHash a.requestHash)
  let sig ← (identity.sign .deleteExecution requestHash.bytes).mapError .sign
  return ⟨requestHash, approvals, identity.verifyingKey, sig⟩

/-- One approval an execution carries: it verifies, and it is of the same request. -/
def checkApproval (e : DeleteExecution) (a : DeleteApproval) : Except DeleteError Unit := do
  a.verify
  ensure (a.requestHash = e.requestHash) (.wrongRequest e.requestHash a.requestHash)

/--
Verify every approval and the executor's own signature.

The signature covers the request hash only, and an execution without approvals passes.
-/
def verify (e : DeleteExecution) : Except DeleteError Unit := do
  e.approvals.forM e.checkApproval
  (NasTools.verify e.executedBy .deleteExecution e.requestHash.bytes e.sig).mapError
    fun _ => .badSignature

end DeleteExecution

/-- How long an approver device waits before it signs. -/
structure Approver where
  coolingOff : UInt64

namespace Approver

/-- A week. -/
def default : Approver := ⟨7 * 86400⟩

/-- Whether the device may sign yet what it first saw at a time of its own clock. -/
def maySign (a : Approver) (firstSeen now : Timestamp) : Bool :=
  decide (a.coolingOff ≤ now.saturatingSince firstSeen)

variable [Crypto]

/-- Sign, or refuse because it is too early. -/
def approve (a : Approver) (identity : Identity) (request : DeleteRequest)
    (firstSeen now : Timestamp) :
    Except DeleteError (Option DeleteApproval) :=
  if a.maySign firstSeen now then (DeleteApproval.sign identity request.requestHash).map some
    else .ok none

/--
A device that signs is past its cooling-off, and signs the request it is shown with its own key.
-/
theorem approve_eq_some {a : Approver} {identity : Identity} {request : DeleteRequest}
    {firstSeen now : Timestamp} {made : DeleteApproval}
    (approved : a.approve identity request firstSeen now = .ok (some made)) :
    a.coolingOff ≤ now.saturatingSince firstSeen ∧ made.approverPk = identity.verifyingKey ∧
      made.requestHash = request.requestHash := by
  -- An approval is only made after the cooling-off period.
  unfold approve at approved
  split at approved
  · rename_i may
    refine ⟨of_decide_eq_true may, ?_⟩
    cases signed : DeleteApproval.sign identity request.requestHash with
    | error e =>
      rw [signed] at approved
      cases approved
    | ok a =>
      rw [signed] at approved
      obtain rfl : a = made := Option.some.inj (Except.ok.inj approved)
      rw [DeleteApproval.sign, except_bind_eq_ok] at signed
      obtain ⟨sig, _, is⟩ := signed
      obtain rfl := Except.ok.inj is
      exact ⟨rfl, rfl⟩
  · cases approved

end Approver

end NasTools
