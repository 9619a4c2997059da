import NasTools.Model.Core.Checked
import NasTools.Model.Slots.Checkpoint
import NasTools.Model.Slots.Witness

/-! The stored forms of the four signed records of the slot layer, each with one spelling. -/

namespace NasTools

open Checked (lift item)

/-- Read a slot record, index by index. -/
def SlotRecord.decodeChecked (bytes : Bytes) : Checked RecordError SlotRecord := do
  let f ← (Checked.decodeFields bytes).mapError RecordError.decode
  lift (ensure (f.length = 8) (.fieldCount 8 f.length))
  let slotId ← lift (recordFixed 32 "slot_id" (← item f 0))
  let seq ← lift (recordFixed 8 "seq" (← item f 1))
  let root ← lift (recordFixed addrLen "root" (← item f 2))
  let rootNonce ← lift (recordFixed rootNonceLen "root_nonce" (← item f 3))
  let writerId ← lift (recordFixed 32 "writer_id" (← item f 4))
  let prev ← lift (recordFixed 32 "prev" (← item f 5))
  let regimeField ← lift (recordFixed 1 "regime" (← item f 6))
  let regimeByte ← item regimeField.bytes 0
  let regime ← lift (okOr (Regime.fromU8 regimeByte) (.badRegime regimeByte))
  let sig ← item f 7
  lift (ensure (sig.length = signatureLen) (.badWidth "sig" signatureLen sig.length))
  lift (checkGenesis (u64OfLe seq.bytes) prev)
  return ⟨slotId, u64OfLe seq.bytes, root, rootNonce, writerId, prev, regime, sig⟩

/-- Every index of the decoder is in range. -/
theorem SlotRecord.decodeChecked_eq (bytes : Bytes) :
    decodeChecked bytes = lift (decode bytes) := by
  -- The fields are counted before they are indexed.
  unfold decodeChecked decode
  rw [Checked.decodeFields_eq]
  cases decodeFields bytes with
  | error e => rfl
  | ok f =>
    rcases f with _ | ⟨slotId, _ | ⟨seq, _ | ⟨root, _ | ⟨rootNonce, _ | ⟨writerId, _ | ⟨prev,
      _ | ⟨regime, _ | ⟨sig, _ | ⟨extra, rest⟩⟩⟩⟩⟩⟩⟩⟩⟩
    -- Any other number of fields is refused before an index is used.
    case cons.cons.cons.cons.cons.cons.cons.cons.nil =>
      simp only [Checked.mapError_lift, except_mapError_ok, Checked.lift_ok_bind, List.length_cons,
        List.length_nil, ensure_of, Checked.item_cons_zero, Checked.item_cons_succ, item_oneByte,
        Checked.lift_bind, Checked.pure_eq, except_pure_eq]
    all_goals simp

/-- A slot record that can be sent: a signature of the right width, and the genesis rule. -/
structure SlotRecord.Proper (r : SlotRecord) : Prop where
  sig : r.sig.length = signatureLen
  genesis : r.seq = 0 ↔ r.prev = Digest.zero

/-- The discriminant a regime was read from is its own. -/
theorem Regime.toU8_of_fromU8 {value : UInt8} {regime : Regime}
    (read : fromU8 value = some regime) :
    regime.toU8 = value := by
  -- Each of the two bytes is read as one regime, and no other byte is.
  unfold fromU8 at read
  split at read
  · obtain rfl := Option.some.inj read
    rfl
  · obtain rfl := Option.some.inj read
    rfl
  · cases read

namespace SlotRecord

/-- A proper record is written, and read back as itself. -/
theorem reads_back {r : SlotRecord} (proper : r.Proper) :
    ∃ bytes, r.encode = .ok bytes ∧ decode bytes = .ok r := by
  -- Every field fits its frame, and the width and the place are checked again on reading.
  have fits : FieldsFit (r.bodyFields ++ [r.sig]) := by
    intro field member
    rcases List.mem_append.mp member with body | last
    · exact r.bodyFields_fit field body
    · rw [List.mem_singleton.mp last, proper.sig]
      decide
  have encoded : r.encode = .ok ((r.bodyFields ++ [r.sig]).flatMap framedField) := by
    rw [encode, encodeFields_ok fits]
    rfl
  have genesis : checkGenesis r.seq r.prev = .ok () := genesisRule_eq_ok.mpr proper.genesis
  exact ⟨_, encoded, by rw [decode_encode encoded, ensure_of proper.sig, genesis]; rfl⟩

/-- An accepted string holds a proper record, and is its encoding. -/
theorem accepted {bytes : Bytes} {r : SlotRecord} (decoded : decode bytes = .ok r) :
    r.Proper ∧ r.encode = .ok bytes := by
  -- Every field is compared with the one it was read from.
  unfold decode at decoded
  split at decoded
  · cases decoded
  · rename_i slotId seq root rootNonce writerId prev regime sig split
    simp only [except_bind_eq_ok, ensure_eq_ok, okOr_eq_ok, except_pure_eq, Except.ok.injEq]
      at decoded
    obtain ⟨slot, slotRead, place, placeRead, root', rootRead, nonce, nonceRead, writer,
      writerRead, back,
      backRead, regimeByte, regimeRead, regime', known, _, width, _, genesis, rfl⟩ := decoded
    refine ⟨⟨width, genesisRule_eq_ok.mp genesis⟩, ?_⟩
    -- Every field of the record is the field it was read from.
    obtain rfl := bytes_of_fixedField slotRead
    obtain rfl := bytes_of_fixedField placeRead
    obtain rfl := bytes_of_fixedField rootRead
    obtain rfl := bytes_of_fixedField nonceRead
    obtain rfl := bytes_of_fixedField writerRead
    obtain rfl := bytes_of_fixedField backRead
    obtain rfl := bytes_of_fixedField regimeRead
    rw [encode, bodyFields, except_mapError_eq_ok, Regime.toU8_of_fromU8 known, oneByte_spelled,
      u64Le_u64OfLe_fixed]
    exact encodeFields_of_decodeFields split
  · cases decoded

/-- The stored form of a slot record. -/
def format : Codec RecordError SlotRecord := ⟨encode, decodeChecked⟩

/-- A slot record has one encoding. -/
theorem format_canonical : format.Canonical Proper :=
  Codec.canonical_of_total decodeChecked_eq (fun _ proper => reads_back proper) fun _ _ decoded =>
    accepted decoded

end SlotRecord

/-- Read a witness, index by index. -/
def Witness.decodeChecked (bytes : Bytes) : Checked WitnessError Witness := do
  let f ← (Checked.decodeFields bytes).mapError WitnessError.decode
  lift (ensure (f.length = witnessFields)
    (if f.length = 6 then .legacyV1 else .fieldCount witnessFields f.length))
  let witnessPk ← item f 0
  lift (ensure (witnessPk.length = verifyingKeyLen)
    (.badWidth "witness_pk" verifyingKeyLen witnessPk.length))
  let sig ← item f 6
  lift (ensure (sig.length = signatureLen) (.badWidth "sig" signatureLen sig.length))
  let seq ← lift (witnessFixed 8 "seq" (← item f 2))
  let prev ← lift (witnessFixed 32 "prev" (← item f 4))
  lift (witnessCheckGenesis (u64OfLe seq.bytes) prev)
  let slotId ← lift (witnessFixed 32 "slot_id" (← item f 1))
  let recordHash ← lift (witnessFixed 32 "record_hash" (← item f 3))
  let logicalTime ← lift (witnessFixed 8 "logical_time" (← item f 5))
  return ⟨witnessPk, slotId, u64OfLe seq.bytes, recordHash, prev, u64OfLe logicalTime.bytes, sig⟩

/-- A witness that can be sent: a key and a signature of the right widths, and the genesis rule. -/
structure Witness.Proper (w : Witness) : Prop where
  key : w.witnessPk.length = verifyingKeyLen
  sig : w.sig.length = signatureLen
  genesis : w.seq = 0 ↔ w.prev = Digest.zero

namespace Witness

/-- Every index of the decoder is in range. -/
theorem decodeChecked_eq (bytes : Bytes) : decodeChecked bytes = lift (decode bytes) := by
  -- The fields are counted before they are indexed.
  unfold decodeChecked decode
  rw [Checked.decodeFields_eq]
  cases decodeFields bytes with
  | error e => rfl
  | ok f =>
    rcases f with _ | ⟨witnessPk, _ | ⟨slotId, _ | ⟨seq, _ | ⟨recordHash, _ | ⟨prev,
      _ | ⟨logicalTime, _ | ⟨sig, _ | ⟨extra, rest⟩⟩⟩⟩⟩⟩⟩⟩
    case cons.cons.cons.cons.cons.cons.cons.nil =>
      simp only [Checked.mapError_lift, except_mapError_ok, Checked.lift_ok_bind, List.length_cons,
        List.length_nil, witnessFields, ensure_of, Checked.item_cons_zero, Checked.item_cons_succ,
        Checked.lift_bind, Checked.pure_eq, except_pure_eq]
    -- Any other number of fields is refused before an index is used.
    all_goals simp [witnessFields]

/-- A witness that verifies is proper. -/
theorem proper_of_verify [Crypto] {w : Witness} (verified : w.verify = .ok ()) : w.Proper := by
  simp only [verify, except_bind_eq_ok, except_mapError_eq_ok] at verified
  obtain ⟨_, genesis, signed⟩ := verified
  exact ⟨(widths_of_verify signed).1, (widths_of_verify signed).2, genesisRule_eq_ok.mp genesis⟩

/-- A proper witness is written, and read back as itself. -/
theorem reads_back {w : Witness} (proper : w.Proper) :
    ∃ bytes, w.encode = .ok bytes ∧ decode bytes = .ok w := by
  -- Every field fits its frame, and reading repeats the checks.
  have fits : FieldsFit [w.witnessPk, w.slotId.bytes, u64Le w.seq, w.recordHash.bytes, w.prev.bytes,
      u64Le w.logicalTime, w.sig] := by
    simp [FieldsFit, FixedBytes.size, proper.key, proper.sig, maxField, verifyingKeyLen,
      signatureLen]
  have genesis : witnessCheckGenesis w.seq w.prev = .ok () := genesisRule_eq_ok.mpr proper.genesis
  have numbers (field : String) (n : UInt64) :
      witnessFixed 8 field (u64Le n) = .ok ⟨u64Le n, u64Le_length n⟩ := fixedField_of_length _ _ _
  have arrays (width : Nat) (field : String) (a : FixedBytes width) :
      witnessFixed width field a.bytes = .ok a := fixedField_bytes _ _ a
  refine ⟨_, by rw [encode, encodeFields_ok fits]; rfl, ?_⟩
  rw [decode, decodeFields_framed fits]
  simp only [proper.key, proper.sig, ensure_of, arrays, numbers, except_ok_bind,
    u64OfLe_u64Le, genesis, except_pure_eq]

/-- An accepted string holds a proper witness, and is its encoding. -/
theorem accepted {bytes : Bytes} {w : Witness} (decoded : decode bytes = .ok w) :
    w.Proper ∧ w.encode = .ok bytes := by
  -- Every field is compared with the one it was read from.
  unfold decode at decoded
  split at decoded
  · cases decoded
  · rename_i witnessPk slotId seq recordHash prev logicalTime sig split
    simp only [except_bind_eq_ok, ensure_eq_ok, except_pure_eq, Except.ok.injEq] at decoded
    obtain ⟨_, key, _, width, place, placeRead, back, backRead, _, genesis, slot, slotRead,
      hash, hashRead, time, timeRead, rfl⟩ := decoded
    refine ⟨⟨key, width, genesisRule_eq_ok.mp genesis⟩, ?_⟩
    -- Every field of the witness is the field it was read from.
    obtain rfl := bytes_of_fixedField placeRead
    obtain rfl := bytes_of_fixedField backRead
    obtain rfl := bytes_of_fixedField slotRead
    obtain rfl := bytes_of_fixedField hashRead
    obtain rfl := bytes_of_fixedField timeRead
    rw [encode, except_mapError_eq_ok, u64Le_u64OfLe_fixed, u64Le_u64OfLe_fixed]
    exact encodeFields_of_decodeFields split
  · split at decoded <;> cases decoded

/-- The stored form of a witness. -/
def format : Codec WitnessError Witness := ⟨encode, decodeChecked⟩

/-- A witness has one encoding. -/
theorem format_canonical : format.Canonical Proper :=
  Codec.canonical_of_total decodeChecked_eq (fun _ proper => reads_back proper) fun _ _ decoded =>
    accepted decoded

end Witness

/-- Read a rung, index by index. -/
def Checkpoint.decodeChecked (bytes : Bytes) : Checked CheckpointError Checkpoint := do
  let f ← (Checked.decodeFields bytes).mapError CheckpointError.decode
  lift (ensure (f.length = 7) (.fieldCount 7 f.length))
  let writerPk ← item f 5
  lift (ensure (writerPk.length = verifyingKeyLen)
    (.badWidth "writer_pk" verifyingKeyLen writerPk.length))
  let sig ← item f 6
  lift (ensure (sig.length = signatureLen) (.badWidth "sig" signatureLen sig.length))
  let slotId ← lift (checkpointFixed 32 "slot_id" (← item f 0))
  let seq ← lift (checkpointFixed 8 "seq" (← item f 1))
  let recordHash ← lift (checkpointFixed 32 "record_hash" (← item f 2))
  let prevSeq ← lift (checkpointFixed 8 "prev_seq" (← item f 3))
  let prevHash ← lift (checkpointFixed 32 "prev_hash" (← item f 4))
  return ⟨slotId, u64OfLe seq.bytes, recordHash, u64OfLe prevSeq.bytes, prevHash, writerPk, sig⟩

/-- A rung that can be sent: its place on the ladder is checked when it is verified, not here. -/
structure Checkpoint.Proper (c : Checkpoint) : Prop where
  key : c.writerPk.length = verifyingKeyLen
  sig : c.sig.length = signatureLen

namespace Checkpoint

/-- Every index of the decoder is in range. -/
theorem decodeChecked_eq (bytes : Bytes) : decodeChecked bytes = lift (decode bytes) := by
  -- The fields are counted before they are indexed.
  unfold decodeChecked decode
  rw [Checked.decodeFields_eq]
  cases decodeFields bytes with
  | error e => rfl
  | ok f =>
    rcases f with _ | ⟨slotId, _ | ⟨seq, _ | ⟨recordHash, _ | ⟨prevSeq, _ | ⟨prevHash,
      _ | ⟨writerPk, _ | ⟨sig, _ | ⟨extra, rest⟩⟩⟩⟩⟩⟩⟩⟩
    case cons.cons.cons.cons.cons.cons.cons.nil =>
      simp only [Checked.mapError_lift, except_mapError_ok, Checked.lift_ok_bind, List.length_cons,
        List.length_nil, ensure_of, Checked.item_cons_zero, Checked.item_cons_succ,
        Checked.lift_bind,
        Checked.pure_eq, except_pure_eq]
    -- Any other number of fields is refused before an index is used.
    all_goals simp

/-- A rung that verifies under the key it carries is proper. -/
theorem proper_of_verifySelf [Crypto] {c : Checkpoint}
    (verified : c.verifySelf = .ok ()) : c.Proper := by
  simp only [verifySelf, verify, except_bind_eq_ok, except_mapError_eq_ok] at verified
  obtain ⟨_, _, signed⟩ := verified
  exact ⟨(widths_of_verify signed).1, (widths_of_verify signed).2⟩

/-- A proper rung is written, and read back as itself. -/
theorem reads_back {c : Checkpoint} (proper : c.Proper) :
    ∃ bytes, c.encode = .ok bytes ∧ decode bytes = .ok c := by
  -- Every field fits its frame, and reading repeats the checks.
  have fits : FieldsFit [c.slotId.bytes, u64Le c.seq, c.recordHash.bytes, u64Le c.prevSeq,
    c.prevHash.bytes,
      c.writerPk, c.sig] := by
    simp [FieldsFit, FixedBytes.size, proper.key, proper.sig, maxField, verifyingKeyLen,
      signatureLen]
  have numbers (field : String) (n : UInt64) :
      checkpointFixed 8 field (u64Le n) = .ok ⟨u64Le n, u64Le_length n⟩ :=
        fixedField_of_length _ _ _
  have arrays (width : Nat) (field : String) (a : FixedBytes width) :
      checkpointFixed width field a.bytes = .ok a := fixedField_bytes _ _ a
  refine ⟨_, by rw [encode, encodeFields_ok fits]; rfl, ?_⟩
  rw [decode, decodeFields_framed fits]
  simp only [proper.key, proper.sig, ensure_of, arrays, numbers, except_ok_bind, u64OfLe_u64Le,
    except_pure_eq]

/-- An accepted string holds a proper rung, and is its encoding. -/
theorem accepted {bytes : Bytes} {c : Checkpoint} (decoded : decode bytes = .ok c) :
    c.Proper ∧ c.encode = .ok bytes := by
  -- Every field is compared with the one it was read from.
  unfold decode at decoded
  split at decoded
  · cases decoded
  · rename_i slotId seq recordHash prevSeq prevHash writerPk sig split
    simp only [except_bind_eq_ok, ensure_eq_ok, except_pure_eq, Except.ok.injEq] at decoded
    obtain ⟨_, key, _, width, slot, slotRead, place, placeRead, hash, hashRead, below,
      belowRead, back, backRead, rfl⟩ := decoded
    refine ⟨⟨key, width⟩, ?_⟩
    -- Every field of the rung is the field it was read from.
    obtain rfl := bytes_of_fixedField slotRead
    obtain rfl := bytes_of_fixedField placeRead
    obtain rfl := bytes_of_fixedField hashRead
    obtain rfl := bytes_of_fixedField belowRead
    obtain rfl := bytes_of_fixedField backRead
    rw [encode, except_mapError_eq_ok, u64Le_u64OfLe_fixed, u64Le_u64OfLe_fixed]
    exact encodeFields_of_decodeFields split
  · cases decoded

/-- The stored form of a rung. -/
def format : Codec CheckpointError Checkpoint := ⟨encode, decodeChecked⟩

/-- A checkpoint has one encoding. -/
theorem format_canonical : format.Canonical Proper :=
  Codec.canonical_of_total decodeChecked_eq (fun _ proper => reads_back proper) fun _ _ decoded =>
    accepted decoded

end Checkpoint

/-- Read a handoff, index by index. -/
def SlotHandoff.decodeChecked (bytes : Bytes) : Checked HandoffError SlotHandoff := do
  let f ← (Checked.decodeFields bytes).mapError HandoffError.decode
  lift (ensure (f.length = 5) (.fieldCount 5 f.length))
  let fromPk ← item f 2
  lift (ensure (fromPk.length = verifyingKeyLen)
    (.badWidth "from_pk" verifyingKeyLen fromPk.length))
  let sig ← item f 4
  lift (ensure (sig.length = signatureLen) (.badWidth "sig" signatureLen sig.length))
  let slotId ← lift (handoffFixed 32 "slot_id" (← item f 0))
  let atSeq ← lift (handoffFixed 8 "at_seq" (← item f 1))
  let toWriter ← lift (handoffFixed 32 "to" (← item f 3))
  return ⟨slotId, u64OfLe atSeq.bytes, fromPk, toWriter, sig⟩

/-- A handoff that can be sent: a key and a signature of the right widths. -/
structure SlotHandoff.Proper (h : SlotHandoff) : Prop where
  key : h.fromPk.length = verifyingKeyLen
  sig : h.sig.length = signatureLen

namespace SlotHandoff

/-- Every index of the decoder is in range. -/
theorem decodeChecked_eq (bytes : Bytes) : decodeChecked bytes = lift (decode bytes) := by
  -- The fields are counted before they are indexed.
  unfold decodeChecked decode
  rw [Checked.decodeFields_eq]
  cases decodeFields bytes with
  | error e => rfl
  | ok f =>
    rcases f with _ |
      ⟨slotId, _ | ⟨atSeq, _ | ⟨fromPk, _ | ⟨toWriter, _ | ⟨sig, _ | ⟨extra, rest⟩⟩⟩⟩⟩⟩
    case cons.cons.cons.cons.cons.nil =>
      simp only [Checked.mapError_lift, except_mapError_ok, Checked.lift_ok_bind, List.length_cons,
        List.length_nil, ensure_of, Checked.item_cons_zero, Checked.item_cons_succ,
        Checked.lift_bind,
        Checked.pure_eq, except_pure_eq]
    -- Any other number of fields is refused before an index is used.
    all_goals simp

/-- An accepted string holds a proper handoff, and is its encoding. -/
theorem accepted {bytes : Bytes} {h : SlotHandoff} (decoded : decode bytes = .ok h) :
    h.Proper ∧ h.encode = .ok bytes := by
  -- Every field is compared with the one it was read from.
  unfold decode at decoded
  split at decoded
  · cases decoded
  · rename_i slotId atSeq fromPk toWriter sig split
    simp only [except_bind_eq_ok, ensure_eq_ok, except_pure_eq, Except.ok.injEq] at decoded
    obtain ⟨_, key, _, width, slot, slotRead, place, placeRead, writer, writerRead, rfl⟩ := decoded
    refine ⟨⟨key, width⟩, ?_⟩
    -- Every field of the handoff is the field it was read from.
    obtain rfl := bytes_of_fixedField slotRead
    obtain rfl := bytes_of_fixedField placeRead
    obtain rfl := bytes_of_fixedField writerRead
    rw [encode, except_mapError_eq_ok, u64Le_u64OfLe_fixed]
    exact encodeFields_of_decodeFields split
  · cases decoded

/-- A proper handoff is written, and read back as itself. -/
theorem reads_back {h : SlotHandoff} (proper : h.Proper) :
    ∃ bytes, h.encode = .ok bytes ∧ decode bytes = .ok h := by
  obtain ⟨bytes, encoded⟩ := encode_ok proper.key proper.sig
  exact ⟨bytes, encoded, decode_encode encoded proper.key proper.sig⟩

/-- A handoff that verifies is proper. -/
theorem proper_of_verify [Crypto] {h : SlotHandoff} (verified : h.verify = .ok ()) : h.Proper :=
  ⟨(widths_of_verify verified).1, (widths_of_verify verified).2⟩

/-- The stored form of a handoff. -/
def format : Codec HandoffError SlotHandoff := ⟨encode, decodeChecked⟩

/-- A handoff has one encoding. -/
theorem format_canonical : format.Canonical Proper :=
  Codec.canonical_of_total decodeChecked_eq (fun _ proper => reads_back proper) fun _ _ decoded =>
    accepted decoded

end SlotHandoff

/-- Every signed record of the slot layer has one spelling, and no input makes its decoder panic. -/
theorem slot_records_have_one_spelling :
    SlotRecord.format.Canonical SlotRecord.Proper ∧ Witness.format.Canonical Witness.Proper ∧
      Checkpoint.format.Canonical Checkpoint.Proper ∧
        SlotHandoff.format.Canonical SlotHandoff.Proper :=
  ⟨SlotRecord.format_canonical, Witness.format_canonical, Checkpoint.format_canonical,
    SlotHandoff.format_canonical⟩

end NasTools
