import NasTools.Lib.OrderedMap
import NasTools.Model.Core.Format
import NasTools.Model.Delete.Record

/-! Whether an execution may proceed: distinct approvers from the authority, against a quorum. -/

namespace NasTools

variable [Crypto]

/-- The ids whose approvals may count. -/
structure Authority where
  ids : OrdSet Digest

namespace Authority

/-- An authority that approves nothing. -/
def empty : Authority := ⟨∅⟩

/-- Admit an approver by its verifying key. -/
def add (a : Authority) (verifyingKey : Bytes) : Authority := ⟨a.ids.insert (keyId verifyingKey)⟩

/-- Whether an id may approve. -/
def contains (a : Authority) (id : Digest) : Bool := a.ids.contains id

/-- Whether nobody may approve. -/
def isEmpty (a : Authority) : Bool := a.ids.isEmpty

end Authority

/-- Aggregation over recent history: past so many deletions, every further one owes more. -/
structure RollingPolicy where
  window : UInt64
  objects : Nat
  escalateTo : Nat
deriving DecidableEq

/-- Approvals owed, by how much is deleted. -/
structure QuorumPolicy where
  object : Nat
  withPrefix : Nat
  wholeNamespace : Nat
  rolling : RollingPolicy
deriving DecidableEq

/-- The default quorum. -/
def QuorumPolicy.default : QuorumPolicy := ⟨1, 2, 3, ⟨30 * 86400, 10, 3⟩⟩

/-- What a scope owes on its own. -/
def QuorumPolicy.base (p : QuorumPolicy) : Scope → Nat
  | .object _ => p.object
  | .withPrefix _ => p.withPrefix
  | .wholeNamespace => p.wholeNamespace

/-- Why an execution may not proceed. -/
inductive Refusal where
  | shortOfQuorum (required distinct : Nat) (escalated : Bool)
  | badApproval (why : String)
  | badRequest (why : String)
  | badExecution (why : String)
  | notAnApprover (id : Digest)
  | noAuthority
  -- The requester approved its own request.
  | selfApproved
deriving DecidableEq

/-- The text a refusal prints. -/
def Refusal.display : Refusal → String
  | .shortOfQuorum required distinct escalated =>
    toString distinct ++ " distinct approver(s), " ++ toString required ++ " required" ++
      if escalated then
        " (escalated by the rolling window: recent volume, not this request's scope)"
      else ""
  | .notAnApprover id =>
    "approval from " ++ String.ofList (toHex id.bytes) ++
      " is not in the deletion authority; §16.1 puts that key deliberately off the everyday device"
  | .noAuthority =>
    "no deletion authority is configured, so nothing can be approved (SPECS §16.1)"
  | .badApproval m => "approval rejected: " ++ m
  | .badRequest m => "request rejected: " ++ m
  | .badExecution m => "execution rejected: " ++ m
  | .selfApproved =>
    "the requester approved its own request; §16.1 separates those keys on purpose"

/-- Whether an execution may proceed. -/
inductive DeleteDecision where
  | execute (required distinct : Nat)
  | refused (why : Refusal)
deriving DecidableEq

/-- One approval, judged: the set of approvers grows by its signer. -/
def countApproval (request : DeleteRequest) (authority : Authority) (ids : OrdSet Digest)
    (a : DeleteApproval) : Except Refusal (OrdSet Digest) := do
  a.verify.mapError fun e => .badApproval e.display
  ensure (a.approverId ≠ request.requesterId) .selfApproved
  ensure (authority.contains a.approverId) (.notAnApprover a.approverId)
  return ids.insert a.approverId

/-- The distinct approvers of an execution, or why one of its parts is refused. -/
def approvers (request : DeleteRequest) (execution : DeleteExecution) (authority : Authority) :
    Except Refusal (OrdSet Digest) := do
  request.verify.mapError fun e => .badRequest e.display
  execution.verify.mapError fun e => .badExecution e.display
  ensure (execution.requestHash = request.requestHash)
    (.badExecution "execution names a different request")
  -- No authority, no approvals, whatever the records say.
  ensure (authority.isEmpty = false) .noAuthority
  execution.approvals.foldlM (countApproval request authority) ∅

/-- Approvals this request owes now, and whether recent volume raised the number. -/
def owed (request : DeleteRequest) (recent : List Timestamp) (policy : QuorumPolicy)
    (now : Timestamp) : Nat × Bool :=
  let inWindow := (recent.filter fun at_ => now.saturatingSince at_ < policy.rolling.window).length
  let escalated := decide (policy.rolling.objects ≤ inWindow)
  let base := policy.base request.scope
  (if escalated then max base policy.rolling.escalateTo else base, escalated)

/-- Decide whether an execution may proceed, given the deletions already executed. -/
def decideDelete (request : DeleteRequest) (execution : DeleteExecution) (recent : List Timestamp)
    (policy : QuorumPolicy) (authority : Authority) (now : Timestamp) : DeleteDecision :=
  match approvers request execution authority with
  | .error why => .refused why
  | .ok ids =>
    let (required, escalated) := owed request recent policy now
    if ids.size < required then .refused (.shortOfQuorum required ids.size escalated)
    else .execute required ids.size

end NasTools
