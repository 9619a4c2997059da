import NasTools.Model.Transfer.Wire

/-! The wire format: what is sent is read as it was, and what is read was sent in that one form. -/

namespace NasTools

open Checked (lift item itemsFrom Total bind_eq_ok total_bind total_lift total_item)

/-- A tag is read from a first field that is one byte, and from nothing else. -/
theorem tagOf_eq_ok {f : List Bytes} {tag : UInt8} :
    tagOf f = lift (.ok tag) ↔ ∃ rest, f = [tag] :: rest := by
  unfold tagOf
  rcases f with _ | ⟨_ | ⟨b, _ | ⟨c, more⟩⟩, rest⟩ <;> simp

/-- The tag is always read, whatever the fields. -/
theorem tagOf_total (f : List Bytes) : Total (tagOf f) := by
  -- The first field is taken only where there is one.
  unfold tagOf
  split
  · split
    · exact total_item (by omega)
    · exact total_lift _
  · exact total_lift _

/-- A field of a fixed width is read from exactly the bytes of an array. -/
theorem wireFixed_eq_ok {width : Nat} {field : String} {data : Bytes} {a : FixedBytes width} :
    wireFixed width field data = .ok a ↔ data = a.bytes := fixedField_eq_ok

/-- An address is read from its bytes. -/
theorem wireAddr_eq_ok {data : Bytes} {a : Addr} : wireAddr data = .ok a ↔ data = a.bytes :=
  wireFixed_eq_ok

/-- A field of one byte is read from that byte, and from nothing else. -/
theorem wireByte_eq_ok {field : String} {data : Bytes} {value : UInt8} :
    wireByte field data = lift (.ok value) ↔ data = [value] := by
  -- A byte is read from a field of one byte.
  simp only [wireByte, bind_eq_ok, Checked.lift_inj, wireFixed_eq_ok, item_oneByte, Except.ok.injEq]
  constructor
  · intro read
    obtain ⟨a, rfl, rfl⟩ := read
    exact (oneByte_spelled a).symm
  · rintro rfl
    exact ⟨⟨[value], rfl⟩, rfl, rfl⟩

/-- A byte is always read, or refused. -/
theorem wireByte_total (field : String) (data : Bytes) : Total (wireByte field data) := by
  refine total_bind (total_lift _) fun a _ => ?_
  rw [item_oneByte]
  exact total_lift _

/-- Addresses are read from exactly their own bytes. -/
theorem readAddrs_eq_ok {fields : List Bytes} {addrs : List Addr} :
    readAddrs fields = .ok addrs ↔ fields = addrs.map FixedBytes.bytes := by
  -- Induction over the fields, each of which is an address.
  unfold readAddrs
  induction fields generalizing addrs with
  | nil => cases addrs <;> simp
  | cons field rest ih =>
    simp only [List.mapM_cons, except_bind_eq_ok, except_pure_eq, Except.ok.injEq, ih]
    constructor
    · intro read
      obtain ⟨a, here, others, rfl, rfl⟩ := read
      rw [List.map_cons, ← wireAddr_eq_ok.mp here]
    · intro spelled
      cases addrs with
      | nil => cases spelled
      | cons a others =>
        obtain ⟨here, later⟩ := List.cons.inj spelled
        exact ⟨a, wireAddr_eq_ok.mpr here, others, later, rfl⟩

/-- The count is within the bound. -/
@[simp] theorem withinRecords_eq_ok {count : Nat} {u : Unit} :
    withinRecords count = .ok u ↔ count ≤ maxRecords := ensure_eq_ok

/-- The number of fields is the one asked for. -/
@[simp] theorem exactly_eq_ok {f : List Bytes} {n : Nat} {u : Unit} :
    exactly f n = .ok u ↔ f.length = n := ensure_eq_ok

/-- What is sent was written, and fits into a frame. -/
theorem checkSize_eq_ok {out : Except WireError Bytes} {bytes : Bytes} :
    (do checkSize (← out)) = .ok bytes ↔ out = .ok bytes ∧ bytes.length ≤ maxFrame := by
  -- What was written is checked, and not changed.
  simp only [checkSize, except_bind_eq_ok, ensure_eq_ok, except_pure_eq, Except.ok.injEq]
  constructor
  · intro checked
    obtain ⟨_, written, _, fits, rfl⟩ := checked
    exact ⟨written, fits⟩
  · intro sized
    obtain ⟨written, fits⟩ := sized
    exact ⟨bytes, written, (), fits, rfl⟩

section Shapes

variable {A : Type} {tag : Bytes} {rest : List Bytes} {field : String} {m : A}

/-- A bare message has its tag alone. -/
theorem bareMessage_eq_ok {make : A} :
    bareMessage (tag :: rest) make = lift (.ok m) ↔ rest = [] ∧ make = m := by
  simp [bareMessage, bind_eq_ok]

/-- A raw message has one field. -/
theorem rawMessage_eq_ok {make : Bytes → A} :
    rawMessage (tag :: rest) make = lift (.ok m) ↔ ∃ data, rest = [data] ∧ make data = m := by
  rcases rest with _ | ⟨data, _ | ⟨extra, more⟩⟩ <;> simp [rawMessage, bind_eq_ok]

/-- A digest's message has one field, the digest's bytes. -/
theorem digestMessage_eq_ok {make : Digest → A} :
    digestMessage (tag :: rest) field make = lift (.ok m) ↔
    ∃ digest : Digest, rest = [digest.bytes] ∧ make digest = m := by
  rcases rest with _ | ⟨data, _ | ⟨extra, more⟩⟩ <;> simp [digestMessage, bind_eq_ok,
    wireFixed_eq_ok]

/-- A range's message has a slot and a start. -/
theorem rangeMessage_eq_ok {make : SlotId → UInt64 → A} :
    rangeMessage (tag :: rest) make = lift (.ok m) ↔
    ∃ (slot : SlotId) (start : UInt64), rest = [slot.bytes, u64Le start] ∧ make slot start = m := by
  -- Two fields are counted before they are read, and other counts are refused.
  rcases rest with _ | ⟨first, _ | ⟨second, _ | ⟨extra, more⟩⟩⟩
  case cons.cons.nil =>
    simp only [rangeMessage, Checked.item_cons_succ, Checked.item_cons_zero,
      Checked.lift_ok_bind, bind_eq_ok, Checked.lift_inj, exactly_eq_ok, wireFixed_eq_ok,
      Checked.pure_eq, Except.ok.injEq, List.cons.injEq, and_true]
    constructor
    · intro read
      obtain ⟨_, _, slot, rfl, start, rfl, made⟩ := read
      exact ⟨slot, u64OfLe start.bytes, ⟨rfl, (u64Le_u64OfLe_fixed start).symm⟩, made⟩
    · intro written
      obtain ⟨slot, start, ⟨rfl, rfl⟩, made⟩ := written
      exact ⟨(), rfl, slot, rfl, ⟨u64Le start, u64Le_length start⟩, rfl, by simpa using made⟩
  all_goals simp [rangeMessage, bind_eq_ok]

/-- A proof's message has an address and a nonce. -/
theorem proveMessage_eq_ok {m : Request} : proveMessage (tag :: rest) = lift (.ok m) ↔
    ∃ (addr : Addr) (nonce : Digest), rest = [addr.bytes, nonce.bytes] ∧ .prove addr nonce = m := by
  rcases rest with _ | ⟨first, _ | ⟨second, _ | ⟨extra, more⟩⟩⟩ <;>
    simp [proveMessage, bind_eq_ok, wireAddr_eq_ok, wireFixed_eq_ok, and_assoc]

/-- Behind the tag stand addresses alone, within the bound. -/
theorem decodeAddrs_eq_ok {addrs : List Addr} : decodeAddrs (tag :: rest) = lift (.ok addrs) ↔
    rest = addrs.map FixedBytes.bytes ∧ addrs.length ≤ maxRecords := by
  -- The fields behind the tag are counted first and read after that.
  have after : (itemsFrom (tag :: rest) 1 : Checked WireError _) = lift (.ok rest) := by
    simp [itemsFrom]
  simp only [decodeAddrs, after, List.length_cons, Nat.le_add_left, if_true, Checked.expect_some,
    Checked.lift_ok_bind, bind_eq_ok, Checked.lift_inj, withinRecords_eq_ok, readAddrs_eq_ok]
  constructor
  · intro read
    obtain ⟨_, few, rfl⟩ := read
    exact ⟨rfl, by simpa using few⟩
  · intro counted
    obtain ⟨rfl, few⟩ := counted
    exact ⟨(), by simpa using few, rfl⟩

/-- Behind the tag and the proof stand addresses alone, within the bound. -/
theorem decodeForgetAddrs_eq_ok {proof : Bytes} {addrs : List Addr} :
    decodeForgetAddrs (tag :: proof :: rest) = lift (.ok addrs) ↔
      rest = addrs.map FixedBytes.bytes ∧ addrs.length ≤ maxRecords := by
  -- As for the addresses of a lease, one field later.
  have after : (itemsFrom (tag :: proof :: rest) 2 : Checked WireError _) = lift (.ok rest) := by
    simp [itemsFrom]
  have two : 2 ≤ (tag :: proof :: rest).length := by simp
  rw [decodeForgetAddrs, ensure_of two]
  simp only [two, if_true, after, Checked.expect_some, Checked.lift_ok_bind,
    bind_eq_ok, Checked.lift_inj, withinRecords_eq_ok, readAddrs_eq_ok]
  constructor
  · intro read
    obtain ⟨_, few, rfl⟩ := read
    exact ⟨rfl, by simpa using few⟩
  · intro counted
    obtain ⟨rfl, few⟩ := counted
    exact ⟨(), by simpa using few, rfl⟩

/-- A message to forget has a proof and the addresses. -/
theorem forgetMessage_eq_ok {m : Request} : forgetMessage (tag :: rest) = lift (.ok m) ↔
    ∃ (addrs : List Addr) (proof : Bytes), rest = proof :: addrs.map FixedBytes.bytes ∧
      addrs.length ≤ maxRecords ∧ .forgetRetention addrs proof = m := by
  rcases rest with _ | ⟨proof, more⟩
  · simp [forgetMessage]
  · simp [forgetMessage, bind_eq_ok, decodeForgetAddrs_eq_ok, and_assoc]

/-- A boolean's message has one byte, zero or one. -/
theorem boolMessage_eq_ok {m : Response} : boolMessage (tag :: rest) = lift (.ok m) ↔
    ∃ value : Bool, rest = [[if value then 1 else 0]] ∧ .bool value = m := by
  -- Of the byte's values only two are read.
  rcases rest with _ | ⟨data, _ | ⟨extra, more⟩⟩
  case cons.nil =>
    simp only [boolMessage, Checked.item_cons_succ, Checked.item_cons_zero,
      Checked.lift_ok_bind, bind_eq_ok, Checked.lift_inj, exactly_eq_ok, wireByte_eq_ok,
      List.cons.injEq, and_true]
    constructor
    · intro read
      obtain ⟨_, _, value, rfl, made⟩ := read
      split at made
      · exact ⟨false, rfl, Except.ok.inj made⟩
      · exact ⟨true, rfl, Except.ok.inj made⟩
      · cases made
    · intro written
      obtain ⟨value, rfl, rfl⟩ := written
      exact ⟨(), rfl, _, rfl, by cases value <;> rfl⟩
  all_goals simp [boolMessage, bind_eq_ok]

/-- A record's message has a mark, and the record behind it if there is one. -/
theorem recordMessage_eq_ok {m : Response} : recordMessage (tag :: rest) = lift (.ok m) ↔
    (rest = [[0]] ∧ .record none = m) ∨ ∃ record, rest = [[1], record] ∧
      .record (some record) = m := by
  rcases rest with _ | ⟨mark, _ | ⟨record, _ | ⟨extra, more⟩⟩⟩ <;>
    simp [recordMessage, bind_eq_ok, wireByte_eq_ok]

/-- A message of records has them as its fields, within the bound. -/
theorem recordsMessage_eq_ok {m : Response} :
    recordsMessage (tag :: rest) = lift (.ok m) ↔ rest.length ≤ maxRecords ∧ .records rest = m := by
  have after : (itemsFrom (tag :: rest) 1 : Checked WireError _) = lift (.ok rest) := by
    simp [itemsFrom]
  simp [recordsMessage, after, bind_eq_ok]

/-- An error's message has its text. -/
theorem errorMessage_eq_ok {m : Response} :
    errorMessage (tag :: rest) = lift (.ok m) ↔ ∃ text, rest = [utf8 text] ∧ .error text = m := by
  rcases rest with _ | ⟨data, _ | ⟨extra, more⟩⟩ <;>
    simp [errorMessage, bind_eq_ok, ofUtf8?_eq_some, eq_comm (a := utf8 _)]

-- None of the shapes takes an index before it has counted the fields.

variable {f : List Bytes}

/-- A bare message is always read or refused. -/
theorem bareMessage_total (f : List Bytes) (make : A) : Total (bareMessage f make) :=
  total_bind (total_lift _) fun _ _ => total_lift _

/-- A raw message is always read or refused. -/
theorem rawMessage_total (f : List Bytes) (make : Bytes → A) : Total (rawMessage f make) := by
  refine total_bind (total_lift _) fun _ counted => ?_
  have count : f.length = 2 := by simpa using counted
  exact total_bind (total_item (by omega)) fun _ _ => total_lift _

/-- A digest's message is always read or refused. -/
theorem digestMessage_total (f : List Bytes) (field : String) (make : Digest → A) :
    Total (digestMessage f field make) := by
  refine total_bind (total_lift _) fun _ counted => ?_
  have count : f.length = 2 := by simpa using counted
  exact total_bind (total_item (by omega)) fun _ _ =>
    total_bind (total_lift _) fun _ _ => total_lift _

/-- A range's message is always read or refused. -/
theorem rangeMessage_total (f : List Bytes) (make : SlotId → UInt64 → A) :
    Total (rangeMessage f make) := by
  -- Three fields are counted before the first of them is read.
  refine total_bind (total_lift _) fun _ counted => ?_
  have count : f.length = 3 := by simpa using counted
  refine total_bind (total_item (by omega)) fun _ _ => total_bind (total_lift _) fun _ _ => ?_
  exact total_bind (total_item (by omega)) fun _ _ =>
    total_bind (total_lift _) fun _ _ => total_lift _

/-- With a tag in front the addresses are always read or refused. -/
theorem decodeAddrs_total (nonempty : f ≠ []) : Total (decodeAddrs f) := by
  have one : 1 ≤ f.length := List.length_pos_iff.mpr nonempty
  simp only [decodeAddrs, one, if_true, Checked.expect_some, Checked.lift_ok_bind,
    Checked.itemsFrom_of_le one]
  exact total_bind (total_lift _) fun _ _ => total_lift _

/-- The addresses to forget are always read or refused. -/
theorem decodeForgetAddrs_total (f : List Bytes) : Total (decodeForgetAddrs f) := by
  refine total_bind (total_lift _) fun _ counted => ?_
  have two : 2 ≤ f.length := by simpa using counted
  simp only [two, if_true, Checked.expect_some, Checked.lift_ok_bind, Checked.itemsFrom_of_le two]
  exact total_bind (total_lift _) fun _ _ => total_lift _

/-- A proof's message is always read or refused. -/
theorem proveMessage_total (f : List Bytes) : Total (proveMessage f) := by
  -- Three fields are counted before the first of them is read.
  refine total_bind (total_lift _) fun _ counted => ?_
  have count : f.length = 3 := by simpa using counted
  refine total_bind (total_item (by omega)) fun _ _ => total_bind (total_lift _) fun _ _ => ?_
  exact total_bind (total_item (by omega)) fun _ _ =>
    total_bind (total_lift _) fun _ _ => total_lift _

/-- A message to forget is always read or refused. -/
theorem forgetMessage_total (f : List Bytes) : Total (forgetMessage f) :=
  total_bind (total_lift _) fun _ _ => total_bind (decodeForgetAddrs_total f) fun _ _ =>
    total_lift _

/-- A boolean's message is always read or refused. -/
theorem boolMessage_total (f : List Bytes) : Total (boolMessage f) := by
  refine total_bind (total_lift _) fun _ counted => ?_
  have count : f.length = 2 := by simpa using counted
  exact total_bind (total_item (by omega)) fun _ _ => total_bind (wireByte_total _ _) fun _ _ =>
    total_lift _

/-- A record's message is always read or refused. -/
theorem recordMessage_total (f : List Bytes) : Total (recordMessage f) := by
  -- Each way takes only fields that have been counted.
  unfold recordMessage
  split
  · refine total_bind (total_item (by omega)) fun _ _ =>
      total_bind (wireByte_total _ _) fun _ _ => ?_
    exact total_bind (total_lift _) fun _ _ => total_lift _
  · split
    · refine total_bind (total_item (by omega)) fun _ _ =>
        total_bind (wireByte_total _ _) fun _ _ => ?_
      exact total_bind (total_lift _) fun _ _ => total_bind (total_item (by omega)) fun _ _ =>
        total_lift _
    · exact total_lift _

/-- With a tag in front a message of records is always read or refused. -/
theorem recordsMessage_total (nonempty : f ≠ []) : Total (recordsMessage f) := by
  have one : 1 ≤ f.length := List.length_pos_iff.mpr nonempty
  simp only [recordsMessage, one, if_true, Checked.expect_some, Checked.lift_ok_bind,
    Checked.itemsFrom_of_le one]
  exact total_bind (total_lift _) fun _ _ => total_lift _

/-- An error's message is always read or refused. -/
theorem errorMessage_total (f : List Bytes) : Total (errorMessage f) := by
  refine total_bind (total_lift _) fun _ counted => ?_
  have count : f.length = 2 := by simpa using counted
  exact total_bind (total_item (by omega)) fun _ _ =>
    total_bind (total_lift _) fun _ _ => total_lift _

end Shapes

namespace Request

/-- The fields a request is sent as. -/
def fields : Request → List Bytes
  | .getBlob a => [[reqGetBlob], a.bytes]
  | .hasBlob a => [[reqHasBlob], a.bytes]
  | .putBlob b => [[reqPutBlob], b]
  | .prove addr nonce => [[reqProve], addr.bytes, nonce.bytes]
  | .slotHead s => [[reqSlotHead], s.bytes]
  | .slotHistory slot start => [[reqSlotHistory], slot.bytes, u64Le start]
  | .publishSlot r => [[reqPublishSlot], r]
  | .publishWitness w => [[reqPublishWitness], w]
  | .witnesses s => [[reqWitnesses], s.bytes]
  | .publishHandoff h => [[reqPublishHandoff], h]
  | .handoffs s => [[reqHandoffs], s.bytes]
  | .publishCheckpoint c => [[reqPublishCheckpoint], c]
  | .checkpoints slot start => [[reqCheckpoints], slot.bytes, u64Le start]
  | .takeLease a => [reqTakeLease] :: a.map FixedBytes.bytes
  | .releaseLease a => [reqReleaseLease] :: a.map FixedBytes.bytes
  | .leases => [[reqLeases]]
  | .sweepWarnings => [[reqSweepWarnings]]
  | .publishDeleteRequest r => [[reqPublishDeleteRequest], r]
  | .publishDeleteApproval a => [[reqPublishDeleteApproval], a]
  | .executeDelete e => [[reqExecuteDelete], e]
  | .deleteRequestRecord h => [[reqDeleteRequestRecord], h.bytes]
  | .deleteApprovals h => [[reqDeleteApprovals], h.bytes]
  | .forgetRetention addrs proof => [reqForgetRetention] :: proof :: addrs.map FixedBytes.bytes

/-- The lists of a request are no longer than the limit. -/
def Counted : Request → Prop
  | .takeLease a | .releaseLease a | .forgetRetention a _ => a.length ≤ maxRecords
  | _ => True

/-- Fields spell a request exactly when they are the fields of that request. -/
theorem ofFields_eq_ok {f : List Bytes} {m : Request} :
    ofFields f = lift (.ok m) ↔ m.fields = f ∧ m.Counted := by
  -- Both ways the fields are looked at by their tag.
  constructor
  · intro read
    rw [ofFields, bind_eq_ok] at read
    obtain ⟨tag, tagged, body⟩ := read
    obtain ⟨rest, rfl⟩ := tagOf_eq_ok.mp tagged
    split at body
    case h_1 | h_2 | h_5 | h_9 | h_11 | h_21 | h_22 =>
      obtain ⟨digest, rfl, rfl⟩ := digestMessage_eq_ok.mp body
      exact ⟨rfl, trivial⟩
    case h_3 | h_7 | h_8 | h_10 | h_12 | h_18 | h_19 | h_20 =>
      obtain ⟨data, rfl, rfl⟩ := rawMessage_eq_ok.mp body
      exact ⟨rfl, trivial⟩
    case h_6 | h_13 =>
      obtain ⟨slot, start, rfl, rfl⟩ := rangeMessage_eq_ok.mp body
      exact ⟨rfl, trivial⟩
    case h_14 | h_15 =>
      obtain ⟨addrs, listed, made⟩ := bind_eq_ok.mp body
      obtain ⟨rfl, few⟩ := decodeAddrs_eq_ok.mp listed
      obtain rfl := Except.ok.inj (Checked.lift_inj.mp made)
      exact ⟨rfl, few⟩
    case h_16 | h_17 =>
      obtain ⟨rfl, rfl⟩ := bareMessage_eq_ok.mp body
      exact ⟨rfl, trivial⟩
    case h_4 =>
      obtain ⟨addr, nonce, rfl, rfl⟩ := proveMessage_eq_ok.mp body
      exact ⟨rfl, trivial⟩
    case h_23 =>
      obtain ⟨addrs, proof, rfl, few, rfl⟩ := forgetMessage_eq_ok.mp body
      exact ⟨rfl, few⟩
    case h_24 => cases body
  · intro proper
    obtain ⟨rfl, counted⟩ := proper
    -- The first field of every request is its tag, which picks the branch that wrote it.
    cases m with
    | getBlob | hasBlob | slotHead | witnesses | handoffs | deleteRequestRecord | deleteApprovals =>
      exact bind_eq_ok.mpr ⟨_, tagOf_eq_ok.mpr ⟨_, rfl⟩, digestMessage_eq_ok.mpr ⟨_, rfl, rfl⟩⟩
    | putBlob | publishSlot | publishWitness | publishHandoff | publishCheckpoint
    | publishDeleteRequest | publishDeleteApproval | executeDelete =>
      exact bind_eq_ok.mpr ⟨_, tagOf_eq_ok.mpr ⟨_, rfl⟩, rawMessage_eq_ok.mpr ⟨_, rfl, rfl⟩⟩
    | slotHistory | checkpoints =>
      exact bind_eq_ok.mpr ⟨_, tagOf_eq_ok.mpr ⟨_, rfl⟩, rangeMessage_eq_ok.mpr ⟨_, _, rfl, rfl⟩⟩
    | takeLease | releaseLease =>
      exact bind_eq_ok.mpr ⟨_, tagOf_eq_ok.mpr ⟨_, rfl⟩,
        bind_eq_ok.mpr ⟨_, decodeAddrs_eq_ok.mpr ⟨rfl, counted⟩, rfl⟩⟩
    | leases | sweepWarnings =>
      exact bind_eq_ok.mpr ⟨_, tagOf_eq_ok.mpr ⟨_, rfl⟩, bareMessage_eq_ok.mpr ⟨rfl, rfl⟩⟩
    | prove =>
      exact bind_eq_ok.mpr ⟨_, tagOf_eq_ok.mpr ⟨_, rfl⟩, proveMessage_eq_ok.mpr ⟨_, _, rfl, rfl⟩⟩
    | forgetRetention =>
      exact bind_eq_ok.mpr ⟨_, tagOf_eq_ok.mpr ⟨_, rfl⟩,
        forgetMessage_eq_ok.mpr ⟨_, _, rfl, counted, rfl⟩⟩

/-- No fields make the reader of requests panic. -/
theorem ofFields_total (f : List Bytes) : Total (ofFields f) := by
  -- The tag decides the shape, and no shape fails to answer.
  refine total_bind (tagOf_total f) fun tag tagged => ?_
  obtain ⟨rest, rfl⟩ := tagOf_eq_ok.mp tagged
  split
  case h_1 | h_2 | h_5 | h_9 | h_11 | h_21 | h_22 => exact digestMessage_total _ _ _
  case h_3 | h_7 | h_8 | h_10 | h_12 | h_18 | h_19 | h_20 => exact rawMessage_total _ _
  case h_6 | h_13 => exact rangeMessage_total _ _
  case h_14 | h_15 => exact total_bind (decodeAddrs_total (by simp)) fun _ _ => total_lift _
  case h_16 | h_17 => exact bareMessage_total _ _
  case h_4 => exact proveMessage_total _
  case h_23 => exact forgetMessage_total _
  case h_24 => exact total_lift _

/-- A request is sent as its fields, when its lists are short and the whole fits into a frame. -/
theorem encode_eq_ok {m : Request} {bytes : Bytes} : m.encode = .ok bytes ↔
    m.Counted ∧ encodeFields m.fields = .ok bytes ∧ bytes.length ≤ maxFrame := by
  -- Three kinds of request count their addresses, and the others are written as they are.
  have written : m.out = .ok bytes ↔ m.Counted ∧ encodeFields m.fields = .ok bytes := by
    cases m with
    | takeLease | releaseLease | forgetRetention =>
      simp [out, encodeAddrs, encodeForget, wireFields, Counted, fields]
    | _ => simp [out, wireFields, Counted, fields]
  rw [encode, checkSize_eq_ok, written, and_assoc]

end Request

/-- The fields of a frame are those it encodes, when either side would read it. -/
theorem fieldsOfFrame_eq_ok {bytes : Bytes} {f : List Bytes} :
    fieldsOfFrame bytes = lift (.ok f) ↔ encodeFields f = .ok bytes ∧ bytes.length ≤ maxFrame := by
  -- The size is checked first, and then the fields are read back.
  rw [fieldsOfFrame, Checked.decodeFields_eq, Checked.mapError_lift]
  simp only [bind_eq_ok, Checked.lift_inj, ensure_eq_ok, except_mapError_eq_ok]
  constructor
  · intro unframed
    obtain ⟨_, fits, read⟩ := unframed
    exact ⟨encodeFields_of_decodeFields read, fits⟩
  · intro framed
    obtain ⟨written, fits⟩ := framed
    exact ⟨(), fits, decodeFields_of_encodeFields written⟩

/-- A frame is always cut into fields or refused. -/
theorem fieldsOfFrame_total (bytes : Bytes) : Total (fieldsOfFrame bytes) := by
  rw [fieldsOfFrame, Checked.decodeFields_eq, Checked.mapError_lift]
  exact total_bind (total_lift _) fun _ _ => total_lift _

/-- A message is read from a frame exactly where the frame holds the fields that spell it. -/
theorem read_frame_eq_ok {M : Type} {read : List Bytes → Checked WireError M} {m : M}
    {fields : List Bytes} {counted : Prop} {bytes : Bytes}
    (reads : ∀ f, read f = lift (.ok m) ↔ fields = f ∧ counted) :
    (do read (← fieldsOfFrame bytes)) = lift (.ok m) ↔
      counted ∧ encodeFields fields = .ok bytes ∧ bytes.length ≤ maxFrame := by
  -- The frame gives the fields, and the fields the message.
  rw [bind_eq_ok]
  simp only [fieldsOfFrame_eq_ok, reads]
  constructor
  · intro decoded
    obtain ⟨_, ⟨written, fits⟩, rfl, short⟩ := decoded
    exact ⟨short, written, fits⟩
  · intro encoded
    obtain ⟨short, written, fits⟩ := encoded
    exact ⟨_, ⟨written, fits⟩, rfl, short⟩

/-- A request is read from exactly the bytes it is sent as. -/
theorem Request.decode_eq_ok {m : Request} {bytes : Bytes} :
    decode bytes = lift (.ok m) ↔ m.encode = .ok bytes := by
  rw [decode, encode_eq_ok]
  exact read_frame_eq_ok fun _ => ofFields_eq_ok

namespace Response

/-- The fields an answer is sent as. -/
def fields : Response → List Bytes
  | .blob b => [[rspBlob], b]
  | .bool v => [[rspBool], [if v then 1 else 0]]
  | .stored a => [[rspStored], a.bytes]
  | .proof p => [[rspProof], p.bytes]
  | .record none => [[rspRecord], [0]]
  | .record (some r) => [[rspRecord], [1], r]
  | .records rs => [rspRecords] :: rs
  | .addrs a => [rspAddrs] :: a.map FixedBytes.bytes
  | .ok => [[rspOk]]
  | .error text => [[rspError], utf8 text]

/-- The lists of an answer are no longer than the limit. -/
def Counted : Response → Prop
  | .records rs => rs.length ≤ maxRecords
  | .addrs a => a.length ≤ maxRecords
  | _ => True

/-- Fields spell an answer exactly when they are the fields of that answer. -/
theorem ofFields_eq_ok {f : List Bytes} {m : Response} :
    ofFields f = lift (.ok m) ↔ m.fields = f ∧ m.Counted := by
  -- The tag decides the shape; the other way the message's own tag is read back.
  constructor
  · intro read
    rw [ofFields, bind_eq_ok] at read
    obtain ⟨tag, tagged, body⟩ := read
    obtain ⟨rest, rfl⟩ := tagOf_eq_ok.mp tagged
    split at body
    case h_1 =>
      obtain ⟨data, rfl, rfl⟩ := rawMessage_eq_ok.mp body
      exact ⟨rfl, trivial⟩
    case h_3 | h_4 =>
      obtain ⟨digest, rfl, rfl⟩ := digestMessage_eq_ok.mp body
      exact ⟨rfl, trivial⟩
    case h_8 =>
      obtain ⟨rfl, rfl⟩ := bareMessage_eq_ok.mp body
      exact ⟨rfl, trivial⟩
    case h_7 =>
      obtain ⟨addrs, listed, made⟩ := bind_eq_ok.mp body
      obtain ⟨rfl, few⟩ := decodeAddrs_eq_ok.mp listed
      obtain rfl := Except.ok.inj (Checked.lift_inj.mp made)
      exact ⟨rfl, few⟩
    case h_2 =>
      obtain ⟨value, rfl, rfl⟩ := boolMessage_eq_ok.mp body
      exact ⟨rfl, trivial⟩
    case h_5 =>
      rcases recordMessage_eq_ok.mp body with ⟨rfl, rfl⟩ | ⟨record, rfl, rfl⟩ <;>
        exact ⟨rfl, trivial⟩
    case h_6 =>
      obtain ⟨few, rfl⟩ := recordsMessage_eq_ok.mp body
      exact ⟨rfl, few⟩
    case h_9 =>
      obtain ⟨text, rfl, rfl⟩ := errorMessage_eq_ok.mp body
      exact ⟨rfl, trivial⟩
    case h_10 => cases body
  · intro proper
    obtain ⟨rfl, counted⟩ := proper
    cases m with
    | blob => exact bind_eq_ok.mpr ⟨_, tagOf_eq_ok.mpr ⟨_, rfl⟩, rawMessage_eq_ok.mpr ⟨_, rfl, rfl⟩⟩
    | stored | proof =>
      exact bind_eq_ok.mpr ⟨_, tagOf_eq_ok.mpr ⟨_, rfl⟩, digestMessage_eq_ok.mpr ⟨_, rfl, rfl⟩⟩
    | addrs =>
      exact bind_eq_ok.mpr ⟨_, tagOf_eq_ok.mpr ⟨_, rfl⟩,
        bind_eq_ok.mpr ⟨_, decodeAddrs_eq_ok.mpr ⟨rfl, counted⟩, rfl⟩⟩
    | ok => exact bind_eq_ok.mpr ⟨_, tagOf_eq_ok.mpr ⟨_, rfl⟩, bareMessage_eq_ok.mpr ⟨rfl, rfl⟩⟩
    | bool =>
      exact bind_eq_ok.mpr ⟨_, tagOf_eq_ok.mpr ⟨_, rfl⟩, boolMessage_eq_ok.mpr ⟨_, rfl, rfl⟩⟩
    | record bytes =>
      cases bytes with
      | none =>
        exact bind_eq_ok.mpr ⟨_, tagOf_eq_ok.mpr ⟨_, rfl⟩,
          recordMessage_eq_ok.mpr (.inl ⟨rfl, rfl⟩)⟩
      | some bytes =>
        exact bind_eq_ok.mpr ⟨_, tagOf_eq_ok.mpr ⟨_, rfl⟩,
          recordMessage_eq_ok.mpr (.inr ⟨bytes, rfl, rfl⟩)⟩
    | records =>
      exact bind_eq_ok.mpr ⟨_, tagOf_eq_ok.mpr ⟨_, rfl⟩, recordsMessage_eq_ok.mpr ⟨counted, rfl⟩⟩
    | error =>
      exact bind_eq_ok.mpr ⟨_, tagOf_eq_ok.mpr ⟨_, rfl⟩, errorMessage_eq_ok.mpr ⟨_, rfl, rfl⟩⟩

/-- No fields make the reader of answers panic. -/
theorem ofFields_total (f : List Bytes) : Total (ofFields f) := by
  -- The tag decides the shape, and no shape fails to answer.
  refine total_bind (tagOf_total f) fun tag tagged => ?_
  obtain ⟨rest, rfl⟩ := tagOf_eq_ok.mp tagged
  split
  case h_1 => exact rawMessage_total _ _
  case h_2 => exact boolMessage_total _
  case h_3 | h_4 => exact digestMessage_total _ _ _
  case h_5 => exact recordMessage_total _
  case h_6 => exact recordsMessage_total (by simp)
  case h_7 => exact total_bind (decodeAddrs_total (by simp)) fun _ _ => total_lift _
  case h_8 => exact bareMessage_total _ _
  case h_9 => exact errorMessage_total _
  case h_10 => exact total_lift _

/-- An answer is sent as its fields, when its lists are short and the whole fits into a frame. -/
theorem encode_eq_ok {m : Response} {bytes : Bytes} : m.encode = .ok bytes ↔
    m.Counted ∧ encodeFields m.fields = .ok bytes ∧ bytes.length ≤ maxFrame := by
  -- Only records and addresses are counted.
  have written : m.out = .ok bytes ↔ m.Counted ∧ encodeFields m.fields = .ok bytes := by
    cases m with
    | record bytes => cases bytes <;> simp [out, wireFields, Counted, fields]
    | _ => simp [out, encodeAddrs, wireFields, Counted, fields]
  rw [encode, checkSize_eq_ok, written, and_assoc]

/-- An answer is read from exactly the bytes it is sent as. -/
theorem decode_eq_ok {m : Response} {bytes : Bytes} :
    decode bytes = lift (.ok m) ↔ m.encode = .ok bytes := by
  rw [decode, encode_eq_ok]
  exact read_frame_eq_ok fun _ => ofFields_eq_ok

end Response

/--
The wire format is canonical in both directions, for requests and for answers.

Whatever is sent fits into a frame and is read back as itself, no bytes make a reader panic, and
whatever is accepted is exactly what would be sent.
-/
theorem wire_format_is_canonical :
    ((∀ m bytes, Request.encode m = .ok bytes →
          bytes.length ≤ maxFrame ∧ Request.decode bytes = lift (.ok m)) ∧
        (∀ bytes, Total (Request.decode bytes)) ∧
        ∀ bytes m, Request.decode bytes = lift (.ok m) → m.encode = .ok bytes) ∧
      (∀ m bytes, Response.encode m = .ok bytes →
          bytes.length ≤ maxFrame ∧ Response.decode bytes = lift (.ok m)) ∧
        (∀ bytes, Total (Response.decode bytes)) ∧
        ∀ bytes m, Response.decode bytes = lift (.ok m) → m.encode = .ok bytes := by
  -- Each part is a fact about `encode` or `decode` that has been shown for both kinds of message.
  refine ⟨⟨?_, ?_, ?_⟩, ?_, ?_, ?_⟩
  · exact fun m bytes sent => ⟨(Request.encode_eq_ok.mp sent).2.2, Request.decode_eq_ok.mpr sent⟩
  · exact fun bytes => total_bind (fieldsOfFrame_total bytes) fun f _ => Request.ofFields_total f
  · exact fun bytes m read => Request.decode_eq_ok.mp read
  · exact fun m bytes sent => ⟨(Response.encode_eq_ok.mp sent).2.2, Response.decode_eq_ok.mpr sent⟩
  · exact fun bytes => total_bind (fieldsOfFrame_total bytes) fun f _ => Response.ofFields_total f
  · exact fun bytes m read => Response.decode_eq_ok.mp read

end NasTools
