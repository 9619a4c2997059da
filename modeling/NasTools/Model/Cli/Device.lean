import NasTools.Lib.Script
import NasTools.Model.Slots.Roster
import NasTools.Model.Slots.Skip
import NasTools.Model.Slots.Witness
import NasTools.Model.Store.Blobs
import NasTools.Model.Store.Root
import NasTools.Model.Transfer.Wire

/-! A device of a namespace: what a sync finds on its disk, and what a sync can ask and do. -/

namespace NasTools

/-- What this device last saw served or published; old pins carry no hash. -/
structure Device.Pin where
  seq : UInt64
  recordHash : Option Digest
deriving DecidableEq

/-- Why a key is not on the roster, as text. -/
def RosterError.display : RosterError → String
  | .badKeyLength got =>
    "verifying key is " ++ toString got ++ " B, want " ++ toString verifyingKeyLen ++ " B"
  | .duplicate id => "roster already holds " ++ writerIdDebug id

variable [Crypto]

/-- The name of a slot, from a namespace key and a label. -/
def slotIdOf (namespacePk label : Bytes) : SlotId :=
  Crypto.blake3 (u64Le (UInt64.ofNat namespacePk.length) ++ namespacePk ++ label)

/--
A namespace directory, as a sync reads it once the outbox has been folded in.

Files that cannot be read or parsed are found as the error the source reports for them.
-/
structure Device where
  ns : Bytes
  mode : Mode
  slotIdentity : Except String Identity
  witnessIdentity : Except String Identity
  rosterFiles : List (Except String Bytes)
  head : Option (Except String Addr)
  blobs : BlobStore
  blobDir : Disk
  pin : Option Device.Pin
  cpPin : Option (UInt64 × Digest)
  generation : UInt32
  keys : RootKeys

/-- One operator-curated key; a duplicate is ignored, anything else that goes wrong is an error. -/
def Device.addRosterFile (roster : Roster) (file : Except String Bytes) : Except String Roster := do
  let key ← file
  match roster.add key with
  | .ok roster => .ok roster
  | .error (.duplicate _) => .ok roster
  | .error e => .error e.display

/-- The local writer and every curated key. -/
def Device.loadClientRoster (d : Device) : Except String Roster := do
  let writer ← d.slotIdentity.mapError fun e => "slot identity: " ++ e
  let roster ← (Roster.empty.add writer.verifyingKey).mapError fun e => "roster: " ++ e.display
  d.rosterFiles.foldlM Device.addRosterFile roster

/-- The two nodes a sync talks to. -/
inductive Node where
  | peer
  | witness
deriving DecidableEq

/-- The part of a sync that refused. -/
inductive Stage where
  | dial
  | warnings
  | blobs
  | leases
  | head
  | witness
  | handoffs
  | ladder
  | history
  | root
  | publish
  | rung
  | observe
deriving DecidableEq

/-- How a sync ends early: an error, a refusal, or a panic of the program. -/
inductive Exit where
  | error (text : String)
  | refused (stage : Stage) (text : String)
  | panic
deriving DecidableEq

/-- What a sync asks of the world outside its own computation. -/
inductive Op where
  | dial (node : Node)
  | call (node : Node) (req : Request)
  | nonce
  | rootNonce
  | keepBlob (data : Bytes)
  | writePin (seq : UInt64) (recordHash : Digest)
  | writeCpPin (seq : UInt64) (hash : Digest)

/-- What the world answers. -/
abbrev Op.Answer : Op → Type
  | .dial _ => Except Exit Unit
  | .call _ _ => Except String Response
  | .nonce => Except String Digest
  | .rootNonce => Except String (FixedBytes nonceLen)
  | .keepBlob _ => Except String Addr
  | .writePin _ _ => Except String Unit
  | .writeCpPin _ _ => Except String Unit

/-- One sync's questions with the answers they got. -/
abbrev Conversation := List (Script.Exchange Op.Answer)

/-- A procedure of the client. -/
abbrev Sync (A : Type) := Script Op Op.Answer Exit A

namespace Sync

/-- End with a refusal. -/
def refuse {A : Type} (stage : Stage) (text : String) : Sync A := .stop (.refused stage text)

/-- End with an error. -/
def fail {A : Type} (text : String) : Sync A := .stop (.error text)

/-- A local computation whose failure ends the sync with an error. -/
def orFail {A : Type} (result : Except String A) : Sync A :=
  match result with
  | .ok a => .done a
  | .error e => fail e

/-- A local computation whose failure ends the sync with a refusal. -/
def orRefuse {A : Type} (stage : Stage) (result : Except String A) : Sync A :=
  match result with
  | .ok a => .done a
  | .error e => refuse stage e

/-- Connect to a node, whose key is pinned; a failure ends the sync as the dialling reported it. -/
def dial (node : Node) : Sync Unit :=
  .ask (.dial node) fun answer =>
    match answer with
    | .ok () => .done ()
    | .error exit => .stop exit

/-- Thirty-two random bytes. -/
def drawNonce : Sync Digest := .ask .nonce orFail

/-- Keep a blob in the local store. -/
def keepBlob (data : Bytes) : Sync Addr :=
  .ask (.keepBlob data) fun answer => orFail (answer.mapError fun e => "store root manifest: " ++ e)

/-- Remember a record as seen. -/
def writePin (seq : UInt64) (recordHash : Digest) : Sync Unit :=
  .ask (.writePin seq recordHash) orFail

/-- Remember a rung as the top of the ladder seen. -/
def writeCpPin (seq : UInt64) (hash : Digest) : Sync Unit := .ask (.writeCpPin seq hash) orFail

/--
One round trip whose answer must be of the kind that `pick` takes.

A refusal of the peer is reported by `onError`; any other answer is unexpected.
-/
def request {A : Type} (node : Node) (req : Request) (name : String) (onError : String → Exit)
    (pick : Response → Option A) : Sync A :=
  .ask (.call node req) fun answer =>
    match answer with
    | .error e => fail e
    | .ok reply =>
      match pick reply, reply with
      | some a, _ => .done a
      | none, .error text => .stop (onError text)
      | none, other => fail ("unexpected reply to " ++ name ++ ": " ++ other.debug)

end Sync

namespace Response

/-- The items of a list answer. -/
def asRecords : Response → Option (List Bytes)
  | .records items => some items
  | _ => none

/-- The record of an answer that carries one, or none. -/
def asRecord : Response → Option (Option Bytes)
  | .record bytes => some bytes
  | _ => none

/-- The addresses of an answer. -/
def asAddrs : Response → Option (List Addr)
  | .addrs list => some list
  | _ => none

/-- The bytes of a blob. -/
def asBlob : Response → Option Bytes
  | .blob data => some data
  | _ => none

/-- An acknowledgement. -/
def asOk : Response → Option Unit
  | .ok => some ()
  | _ => none

omit [Crypto] in
/-- Items are those of a list answer. -/
theorem asRecords_eq_some {reply : Response} {items : List Bytes} :
    reply.asRecords = some items ↔ reply = .records items := by
  cases reply <;> simp [asRecords]

omit [Crypto] in
/-- A record, or none, is that of an answer that carries one. -/
theorem asRecord_eq_some {reply : Response} {bytes : Option Bytes} :
    reply.asRecord = some bytes ↔ reply = .record bytes := by
  cases reply <;> simp [asRecord]

end Response

end NasTools
