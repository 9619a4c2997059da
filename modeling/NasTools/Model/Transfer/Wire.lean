import NasTools.Model.Core.Encoding
import NasTools.Model.Delete.Formats
import NasTools.Model.Slots.Record

/-!
The requests a client sends to a peer and the answers it gets, and both as bytes: one spelling each.
-/

namespace NasTools

/-- The largest frame either side reads: one padded chunk, its overhead and the envelope. -/
def maxFrame : Nat := 256 * 1024 + 4096

/-- The largest number of records one list answer carries. -/
def maxRecords : Nat := 256

/-- Bytes a list answer may spend on records. -/
def recordBudget : Nat := maxFrame - 4096

/-- What one record costs in a list answer: its own length and the prefix before it. -/
def recordCost (encodedLen : Nat) : Nat := encodedLen + 4

/-- What a client asks of a peer; signed records are left encoded. -/
inductive Request where
  | getBlob (addr : Addr)
  | hasBlob (addr : Addr)
  | putBlob (data : Bytes)
  | prove (addr : Addr) (nonce : Digest)
  | slotHead (slot : SlotId)
  | slotHistory (slot : SlotId) (start : UInt64)
  | publishSlot (record : Bytes)
  | publishWitness (witness : Bytes)
  | witnesses (slot : SlotId)
  | publishHandoff (handoff : Bytes)
  | handoffs (slot : SlotId)
  | publishCheckpoint (checkpoint : Bytes)
  | checkpoints (slot : SlotId) (start : UInt64)
  | takeLease (addrs : List Addr)
  | releaseLease (addrs : List Addr)
  | leases
  | sweepWarnings
  | publishDeleteRequest (request : Bytes)
  | publishDeleteApproval (approval : Bytes)
  | executeDelete (execution : Bytes)
  | deleteRequestRecord (request : Digest)
  | deleteApprovals (request : Digest)
  | forgetRetention (addrs : List Addr) (proof : Bytes)
deriving DecidableEq

/-- What a peer answers. -/
inductive Response where
  | blob (data : Bytes)
  | bool (value : Bool)
  | stored (addr : Addr)
  | proof (digest : Digest)
  | record (bytes : Option Bytes)
  | records (items : List Bytes)
  | ok
  | addrs (list : List Addr)
  -- A refusal or a failure, as text that is shown and never parsed.
  | error (text : String)
deriving DecidableEq

/-- The text `{:?}` prints for a list of already printed items. -/
def listDebug (items : List String) : String := "[" ++ ", ".intercalate items ++ "]"

/-- The text `{:?}` prints for some bytes. -/
def bytesDebug (data : Bytes) : String := listDebug (data.map toString)

/-- The text `{:?}` prints for an address. -/
def addrDebug (addr : Addr) : String :=
  "Addr(" ++ String.ofList (toHex addr.bytes |>.take 12) ++ "…)"

/-- The text `{:?}` prints for an answer that is not an error. -/
def Response.debug : Response → String
  | .blob data => "Blob(" ++ bytesDebug data ++ ")"
  | .bool value => "Bool(" ++ toString value ++ ")"
  | .stored addr => "Stored(" ++ addrDebug addr ++ ")"
  | .proof digest => "Proof(" ++ bytesDebug digest.bytes ++ ")"
  | .record none => "Record(None)"
  | .record (some bytes) => "Record(Some(" ++ bytesDebug bytes ++ "))"
  | .records items => "Records(" ++ listDebug (items.map bytesDebug) ++ ")"
  | .ok => "Ok"
  | .addrs list => "Addrs(" ++ listDebug (list.map addrDebug) ++ ")"
  | .error text => "Error(\"" ++ text ++ "\")"

open Checked (lift item itemsFrom)

/-- Why some bytes are not a message, or a message cannot be sent. -/
inductive WireError where
  | decode (source : DecodeError)
  -- Reported before anything is allocated.
  | frameTooLarge (len : Nat)
  | unknownTag (tag : UInt8)
  | badWidth (field : String) (want got : Nat)
  | fieldCount (want got : Nat)
  | tooManyRecords (got : Nat)
  -- Well formed, but nothing an encoder would write.
  | nonCanonical (reason : String)
deriving DecidableEq

@[match_pattern] abbrev reqGetBlob : UInt8 := 0
@[match_pattern] abbrev reqHasBlob : UInt8 := 1
@[match_pattern] abbrev reqPutBlob : UInt8 := 2
@[match_pattern] abbrev reqProve : UInt8 := 3
@[match_pattern] abbrev reqSlotHead : UInt8 := 4
@[match_pattern] abbrev reqSlotHistory : UInt8 := 5
@[match_pattern] abbrev reqPublishSlot : UInt8 := 6
@[match_pattern] abbrev reqPublishWitness : UInt8 := 7
@[match_pattern] abbrev reqWitnesses : UInt8 := 8
@[match_pattern] abbrev reqPublishHandoff : UInt8 := 9
@[match_pattern] abbrev reqHandoffs : UInt8 := 10
@[match_pattern] abbrev reqPublishCheckpoint : UInt8 := 11
@[match_pattern] abbrev reqCheckpoints : UInt8 := 12
@[match_pattern] abbrev reqTakeLease : UInt8 := 13
@[match_pattern] abbrev reqReleaseLease : UInt8 := 14
@[match_pattern] abbrev reqLeases : UInt8 := 15
@[match_pattern] abbrev reqSweepWarnings : UInt8 := 16
@[match_pattern] abbrev reqPublishDeleteRequest : UInt8 := 17
@[match_pattern] abbrev reqPublishDeleteApproval : UInt8 := 18
@[match_pattern] abbrev reqExecuteDelete : UInt8 := 19
@[match_pattern] abbrev reqDeleteRequestRecord : UInt8 := 20
@[match_pattern] abbrev reqDeleteApprovals : UInt8 := 21
@[match_pattern] abbrev reqForgetRetention : UInt8 := 22

@[match_pattern] abbrev rspBlob : UInt8 := 0
@[match_pattern] abbrev rspBool : UInt8 := 1
@[match_pattern] abbrev rspStored : UInt8 := 2
@[match_pattern] abbrev rspProof : UInt8 := 3
@[match_pattern] abbrev rspRecord : UInt8 := 4
@[match_pattern] abbrev rspRecords : UInt8 := 5
@[match_pattern] abbrev rspOk : UInt8 := 6
@[match_pattern] abbrev rspAddrs : UInt8 := 7
@[match_pattern] abbrev rspError : UInt8 := 8

/-- The fields of a message as bytes. -/
def wireFields (fields : List Bytes) : Except WireError Bytes :=
  (encodeFields fields).mapError .decode

/-- A list is no longer than an answer may carry. -/
def withinRecords (count : Nat) : Except WireError Unit :=
  ensure (count ≤ maxRecords) (.tooManyRecords count)

/-- A tag, a proof and some addresses. -/
def encodeForget (tag : UInt8) (proof : Bytes) (addrs : List Addr) : Except WireError Bytes := do
  withinRecords addrs.length
  wireFields ([tag] :: proof :: addrs.map FixedBytes.bytes)

/-- A tag followed by some addresses. -/
def encodeAddrs (tag : UInt8) (addrs : List Addr) : Except WireError Bytes := do
  withinRecords addrs.length
  wireFields ([tag] :: addrs.map FixedBytes.bytes)

/-- What was written fits into a frame. -/
def checkSize (out : Bytes) : Except WireError Bytes := do
  ensure (out.length ≤ maxFrame) (.frameTooLarge out.length)
  return out

/-- The bytes of a request, however many. -/
def Request.out : Request → Except WireError Bytes
  | .getBlob a => wireFields [[reqGetBlob], a.bytes]
  | .hasBlob a => wireFields [[reqHasBlob], a.bytes]
  | .putBlob b => wireFields [[reqPutBlob], b]
  | .prove addr nonce => wireFields [[reqProve], addr.bytes, nonce.bytes]
  | .slotHead s => wireFields [[reqSlotHead], s.bytes]
  | .slotHistory slot start => wireFields [[reqSlotHistory], slot.bytes, u64Le start]
  | .publishSlot r => wireFields [[reqPublishSlot], r]
  | .publishWitness w => wireFields [[reqPublishWitness], w]
  | .witnesses s => wireFields [[reqWitnesses], s.bytes]
  | .publishHandoff h => wireFields [[reqPublishHandoff], h]
  | .handoffs s => wireFields [[reqHandoffs], s.bytes]
  | .publishCheckpoint c => wireFields [[reqPublishCheckpoint], c]
  | .checkpoints slot start => wireFields [[reqCheckpoints], slot.bytes, u64Le start]
  | .takeLease a => encodeAddrs reqTakeLease a
  | .releaseLease a => encodeAddrs reqReleaseLease a
  | .leases => wireFields [[reqLeases]]
  | .sweepWarnings => wireFields [[reqSweepWarnings]]
  | .publishDeleteRequest r => wireFields [[reqPublishDeleteRequest], r]
  | .publishDeleteApproval a => wireFields [[reqPublishDeleteApproval], a]
  | .executeDelete e => wireFields [[reqExecuteDelete], e]
  | .deleteRequestRecord h => wireFields [[reqDeleteRequestRecord], h.bytes]
  | .deleteApprovals h => wireFields [[reqDeleteApprovals], h.bytes]
  | .forgetRetention addrs proof => encodeForget reqForgetRetention proof addrs

/-- The request as it is sent. -/
def Request.encode (m : Request) : Except WireError Bytes := do checkSize (← m.out)

/-- The bytes of an answer, however many. -/
def Response.out : Response → Except WireError Bytes
  | .blob b => wireFields [[rspBlob], b]
  | .bool v => wireFields [[rspBool], [if v then 1 else 0]]
  | .stored a => wireFields [[rspStored], a.bytes]
  | .proof p => wireFields [[rspProof], p.bytes]
  | .record none => wireFields [[rspRecord], [0]]
  | .record (some r) => wireFields [[rspRecord], [1], r]
  | .records rs => do
    withinRecords rs.length
    wireFields ([rspRecords] :: rs)
  | .addrs a => encodeAddrs rspAddrs a
  | .ok => wireFields [[rspOk]]
  | .error text => wireFields [[rspError], utf8 text]

/-- The answer as it is sent. -/
def Response.encode (m : Response) : Except WireError Bytes := do checkSize (← m.out)

/-- Read a field of an expected width. -/
def wireFixed (width : Nat) (field : String) (data : Bytes) : Except WireError (FixedBytes width) :=
  fixedField .badWidth width field data

/-- Read an address. -/
def wireAddr (data : Bytes) : Except WireError Addr := wireFixed addrLen "addr" data

/-- Read a field that is one byte. -/
def wireByte (field : String) (data : Bytes) : Checked WireError UInt8 := do
  item (← lift (wireFixed 1 field data)).bytes 0

/-- The tag a message starts with. -/
def tagOf (f : List Bytes) : Checked WireError UInt8 :=
  match f.head? with
  | some t => if t.length = 1 then item t 0 else lift (.error (.badWidth "tag" 1 t.length))
  | none => lift (.error (.fieldCount 1 0))

/-- A message has so many fields, its tag among them. -/
def exactly (f : List Bytes) (n : Nat) : Except WireError Unit :=
  ensure (f.length = n) (.fieldCount n f.length)

/-- Addresses, one a field. -/
def readAddrs (fields : List Bytes) : Except WireError (List Addr) := fields.mapM wireAddr

/-- The addresses after the tag; a count below zero is a panic. -/
def decodeAddrs (f : List Bytes) : Checked WireError (List Addr) := do
  let count ← Checked.expect (if 1 ≤ f.length then some (f.length - 1) else none)
  lift (withinRecords count)
  lift (readAddrs (← itemsFrom f 1))

/-- The addresses after the tag and the proof. -/
def decodeForgetAddrs (f : List Bytes) : Checked WireError (List Addr) := do
  lift (ensure (2 ≤ f.length) (.fieldCount 2 f.length))
  let count ← Checked.expect (if 2 ≤ f.length then some (f.length - 2) else none)
  lift (withinRecords count)
  lift (readAddrs (← itemsFrom f 2))

section

variable {A : Type} (f : List Bytes)

/-- A message that is only its tag. -/
def bareMessage (make : A) : Checked WireError A := do
  lift (exactly f 1)
  return make

/-- A message with one field taken as it is. -/
def rawMessage (make : Bytes → A) : Checked WireError A := do
  lift (exactly f 2)
  return make (← item f 1)

/-- A message with one field of thirty-two bytes. -/
def digestMessage (field : String) (make : Digest → A) : Checked WireError A := do
  lift (exactly f 2)
  return make (← lift (wireFixed 32 field (← item f 1)))

/-- A message that names a slot and a sequence in it. -/
def rangeMessage (make : SlotId → UInt64 → A) : Checked WireError A := do
  lift (exactly f 3)
  let slot ← lift (wireFixed 32 "slot" (← item f 1))
  let start ← lift (wireFixed 8 "from" (← item f 2))
  return make slot (u64OfLe start.bytes)

/-- A challenge: an address and a nonce. -/
def proveMessage : Checked WireError Request := do
  lift (exactly f 3)
  let addr ← lift (wireAddr (← item f 1))
  let nonce ← lift (wireFixed 32 "nonce" (← item f 2))
  return .prove addr nonce

/-- Addresses to forget, after the proof that they may be. -/
def forgetMessage : Checked WireError Request := do
  let proof ← lift (okOr f[1]? (.fieldCount 2 f.length))
  return .forgetRetention (← decodeForgetAddrs f) proof

/-- A truth value, which only 0 and 1 spell. -/
def boolMessage : Checked WireError Response := do
  lift (exactly f 2)
  let value ← wireByte "bool" (← item f 1)
  lift (match value with
    | 0 => .ok (.bool false)
    | 1 => .ok (.bool true)
    | _ => .error (.nonCanonical "bool is not 0 or 1"))

/-- A record behind a mark that it is there, or the mark that it is not. -/
def recordMessage : Checked WireError Response :=
  if f.length = 2 then do
    let present ← wireByte "present" (← item f 1)
    lift (ensure (present = 0) (.nonCanonical "record marked present but absent"))
    return .record none
  else if f.length = 3 then do
    let present ← wireByte "present" (← item f 1)
    lift (ensure (present = 1) (.nonCanonical "record marked absent but present"))
    return .record (some (← item f 2))
  else lift (.error (.fieldCount 3 f.length))

/-- Records, one a field. -/
def recordsMessage : Checked WireError Response := do
  let count ← Checked.expect (if 1 ≤ f.length then some (f.length - 1) else none)
  lift (withinRecords count)
  return .records (← itemsFrom f 1)

/-- A text, read strictly: no two strings of bytes give the same one. -/
def errorMessage : Checked WireError Response := do
  lift (exactly f 2)
  let text ← lift (okOr (ofUtf8? (← item f 1)) (.nonCanonical "error text is not valid UTF-8"))
  return .error text

end

/-- The request some fields spell. -/
def Request.ofFields (f : List Bytes) : Checked WireError Request := do
  match ← tagOf f with
  | reqGetBlob => digestMessage f "addr" .getBlob
  | reqHasBlob => digestMessage f "addr" .hasBlob
  | reqPutBlob => rawMessage f .putBlob
  | reqProve => proveMessage f
  | reqSlotHead => digestMessage f "slot" .slotHead
  | reqSlotHistory => rangeMessage f .slotHistory
  | reqPublishSlot => rawMessage f .publishSlot
  | reqPublishWitness => rawMessage f .publishWitness
  | reqWitnesses => digestMessage f "slot" .witnesses
  | reqPublishHandoff => rawMessage f .publishHandoff
  | reqHandoffs => digestMessage f "slot" .handoffs
  | reqPublishCheckpoint => rawMessage f .publishCheckpoint
  | reqCheckpoints => rangeMessage f .checkpoints
  | reqTakeLease => return .takeLease (← decodeAddrs f)
  | reqReleaseLease => return .releaseLease (← decodeAddrs f)
  | reqLeases => bareMessage f .leases
  | reqSweepWarnings => bareMessage f .sweepWarnings
  | reqPublishDeleteRequest => rawMessage f .publishDeleteRequest
  | reqPublishDeleteApproval => rawMessage f .publishDeleteApproval
  | reqExecuteDelete => rawMessage f .executeDelete
  | reqDeleteRequestRecord => digestMessage f "request" .deleteRequestRecord
  | reqDeleteApprovals => digestMessage f "request" .deleteApprovals
  | reqForgetRetention => forgetMessage f
  | other => lift (.error (.unknownTag other))

/-- The answer some fields spell. -/
def Response.ofFields (f : List Bytes) : Checked WireError Response := do
  match ← tagOf f with
  | rspBlob => rawMessage f .blob
  | rspBool => boolMessage f
  | rspStored => digestMessage f "addr" .stored
  | rspProof => digestMessage f "proof" .proof
  | rspRecord => recordMessage f
  | rspRecords => recordsMessage f
  | rspAddrs => return .addrs (← decodeAddrs f)
  | rspOk => bareMessage f .ok
  | rspError => errorMessage f
  | other => lift (.error (.unknownTag other))

/-- The fields of a frame, which is not longer than either side reads. -/
def fieldsOfFrame (bytes : Bytes) : Checked WireError (List Bytes) := do
  lift (ensure (bytes.length ≤ maxFrame) (.frameTooLarge bytes.length))
  (Checked.decodeFields bytes).mapError WireError.decode

/-- Read a request. -/
def Request.decode (bytes : Bytes) : Checked WireError Request :=
  do ofFields (← fieldsOfFrame bytes)

/-- Read an answer. -/
def Response.decode (bytes : Bytes) : Checked WireError Response :=
  do ofFields (← fieldsOfFrame bytes)

end NasTools
