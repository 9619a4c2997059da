import NasTools.Lib.OrderedMap
import NasTools.Model.Core.Format

/-! Who may do what: rights, their enforceability, and the table the peer consults. -/

namespace NasTools

/-- A right a subject may hold. -/
inductive Right where
  | read
  | write
  | append
  | deleteRequest
  | deleteApprove
  | publish
  | admin
deriving DecidableEq, Repr

/-- The discriminant a right is written as. -/
def Right.toU8 : Right → UInt8
  | .read => 0
  | .write => 1
  | .append => 2
  | .deleteRequest => 3
  | .deleteApprove => 4
  | .publish => 5
  | .admin => 6

/-- Rights are ordered by their discriminants. -/
instance : Ord Right := ⟨compareOn Right.toU8⟩

instance : Std.TransOrd Right := inferInstanceAs (Std.TransCmp (compareOn Right.toU8))

/-- The name of a right. -/
def Right.asStr : Right → String
  | .read => "read"
  | .write => "write"
  | .append => "append"
  | .deleteRequest => "delete-request"
  | .deleteApprove => "delete-approve"
  | .publish => "publish"
  | .admin => "admin"

/-- Whether the peer can enforce a right in a mode: all but reading, which needs readability. -/
def Right.enforceableIn (r : Right) (mode : Mode) : Bool :=
  match r with
  | .read => mode.peerCanEnforceReadAcl
  | _ => true

/-- The answer of the access table. -/
inductive Decision where
  | allowed
  | denied
  | unknownSubject
  | notEnforceable (mode : Mode) (right : Right)
deriving DecidableEq

/-- Whether an answer lets the subject go on. -/
def Decision.permits : Decision → Bool
  | .allowed => true
  | _ => false

/-- The text `{:?}` prints for a mode. -/
def Mode.debug : Mode → String
  | .e2ee => "E2ee"
  | .passphrase => "Passphrase"
  | .transitOnly => "TransitOnly"

/-- The text an answer prints. -/
def Decision.display : Decision → String
  | .allowed => "allowed"
  | .denied => "denied"
  | .unknownSubject => "unknown subject"
  | .notEnforceable mode right =>
    mode.debug ++ " has no peer-enforced " ++ right.asStr ++
      " control: possession of a capability is the only access control, and the peer cannot evaluate it"

/-- Rights by subject. -/
structure Acl where
  entries : OrdMap String (OrdSet Right)

namespace Acl

/-- A table that knows nobody. -/
def empty : Acl := ⟨∅⟩

/-- Grant rights to a subject. -/
def grant (a : Acl) (subject : String) (rights : List Right) : Acl :=
  let held := a.entries.getD subject ∅
  ⟨a.entries.insert subject (rights.foldl (fun set right => set.insert right) held)⟩

/-- Take a right from a subject. -/
def revoke (a : Acl) (subject : String) (right : Right) : Acl :=
  match a.entries[subject]? with
  | some rights => ⟨a.entries.insert subject (rights.erase right)⟩
  | none => a

/-- Forget a subject. -/
def removeSubject (a : Acl) (subject : String) : Acl := ⟨a.entries.erase subject⟩

/-- Whether a subject may exercise a right. -/
def check (a : Acl) (subject : String) (right : Right) (mode : Mode) : Decision :=
  if right.enforceableIn mode = false then .notEnforceable mode right
  else
    match a.entries[subject]? with
    | none => .unknownSubject
    | some rights => if rights.contains right then .allowed else .denied

end Acl

end NasTools
