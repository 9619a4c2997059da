import NasTools.Lib.Percent
import NasTools.Model.Core.Checked
import NasTools.Model.Delete.Record

/-! The stored forms of the deletion records, each with one spelling. -/

namespace NasTools

open Checked (lift item)

/-- Some bytes are read as a text exactly when they are the bytes of that text. -/
theorem ofUtf8?_eq_some {data : Bytes} {text : String} :
    ofUtf8? data = some text ↔ utf8 text = data := by
  -- Reading checks that the bytes are a text, and writing gives just those bytes.
  unfold ofUtf8? utf8 String.fromUTF8?
  constructor
  · intro read
    split at read
    · obtain rfl := Option.some.inj read
      simp [String.fromUTF8]
    · cases read
  · rintro rfl
    have valid : ByteArray.IsValidUTF8 ⟨text.toUTF8.data.toList.toArray⟩ := by
      simpa using text.isValidUTF8
    rw [dif_pos valid]
    simp [String.fromUTF8]

/-- The bytes of a text, character by character. -/
theorem utf8_eq_textBytes (text : String) : utf8 text = textBytes text.toList := by
  have same : text.toUTF8 = text.toList.utf8Encode := String.utf8Encode_toList.symm
  rw [utf8, same, List.utf8Encode, textBytes]
  simp

/-- A scope that passes its own check is read back from its discriminant and path. -/
theorem Scope.decode_path {scope : Scope} (checked : scope.check = .ok ()) :
    decode scope.tag (utf8 scope.path) = .ok scope := by
  -- Its path is a text, and the tag names the kind of scope again.
  have text : ofUtf8? (utf8 scope.path) = some scope.path := ofUtf8?_eq_some.mpr rfl
  unfold decode
  rw [text, okOr_some, except_ok_bind]
  cases scope with
  | object p => simp only [tag, path, except_ok_bind, checked, except_pure_eq]
  | withPrefix p => simp only [tag, path, except_ok_bind, checked, except_pure_eq]
  | wholeNamespace => rfl

/-- Only the discriminant and path of a scope that passes its own check are read as that scope. -/
theorem Scope.of_decode {tag : UInt8} {path : Bytes} {scope : Scope}
    (decoded : decode tag path = .ok scope) :
    scope.check = .ok () ∧ tag = scope.tag ∧ path = utf8 scope.path := by
  -- Each tag is read as its own kind, and a scope of the whole namespace has no path.
  simp only [decode, except_bind_eq_ok, okOr_eq_ok, ofUtf8?_eq_some, except_pure_eq] at decoded
  obtain ⟨text, rfl, chosen⟩ := decoded
  split at chosen
  · simp only [except_ok_bind, except_bind_eq_ok, Except.ok.injEq] at chosen
    obtain ⟨_, checked, rfl⟩ := chosen
    exact ⟨checked, rfl, rfl⟩
  · simp only [except_ok_bind, except_bind_eq_ok, Except.ok.injEq] at chosen
    obtain ⟨_, checked, rfl⟩ := chosen
    exact ⟨checked, rfl, rfl⟩
  · split at chosen
    · rename_i nothing
      simp only [except_ok_bind, except_bind_eq_ok, Except.ok.injEq] at chosen
      obtain ⟨_, checked, rfl⟩ := chosen
      exact ⟨checked, rfl, by rw [nothing]; rfl⟩
    · cases chosen
  · cases chosen

namespace DeleteRequest

/-- Sign a request; a text that does not fit a field is a panic. -/
def signChecked (identity : Identity) (scope : Scope) (reason : String) (nonce : Digest) :
    Checked DeleteError DeleteRequest := do
  lift scope.check
  let body ← Checked.expect (encodeFields [[scope.tag], utf8 scope.path, utf8 reason,
    nonce.bytes]).toOption
  let sig ← lift ((identity.sign .deleteRequest body).mapError .sign)
  return ⟨scope, reason, identity.verifyingKey, nonce, sig⟩

/-- Read a request back, index by index. -/
def decodeChecked (bytes : Bytes) : Checked DeleteError DeleteRequest := do
  let f ← (Checked.decodeFields bytes).mapError DeleteError.decode
  lift (ensure (f.length = 6) (.fieldCount 6 f.length))
  let tag ← lift (fixedField DeleteError.badWidth 1 "scope_tag" (← item f 0))
  let requestedBy ← item f 3
  lift (ensure (requestedBy.length = verifyingKeyLen)
    (.badWidth "requested_by" verifyingKeyLen requestedBy.length))
  let sig ← item f 5
  lift (ensure (sig.length = signatureLen) (.badWidth "sig" signatureLen sig.length))
  let scope ← lift (Scope.decode (← item tag.bytes 0) (← item f 1))
  let reason ← lift (okOr (ofUtf8? (← item f 2)) .badScopePath)
  let nonce ← lift (deleteFixed32 "nonce" (← item f 4))
  return ⟨scope, reason, requestedBy, nonce, sig⟩

/-- Every index of the decoder is in range. -/
theorem decodeChecked_eq (bytes : Bytes) : decodeChecked bytes = lift (decode bytes) := by
  -- The fields are counted before they are indexed.
  unfold decodeChecked decode
  rw [Checked.decodeFields_eq]
  cases decodeFields bytes with
  | error e => rfl
  | ok f =>
    rcases f with _ |
      ⟨tag, _ | ⟨path, _ | ⟨reason, _ | ⟨requestedBy, _ | ⟨nonce, _ | ⟨sig, _ | ⟨extra, rest⟩⟩⟩⟩⟩⟩⟩
    case cons.cons.cons.cons.cons.cons.nil =>
      simp only [Checked.mapError_lift, except_mapError_ok, Checked.lift_ok_bind, List.length_cons,
        List.length_nil, ensure_of, Checked.item_cons_zero, Checked.item_cons_succ, item_oneByte,
        Checked.lift_bind, Checked.pure_eq, except_pure_eq]
    -- Any other number of fields is refused before an index is used.
    all_goals simp

/--
A request that can be stored: a key and a signature of the right widths, and a scope
that names what it has to.
-/
structure Proper (r : DeleteRequest) : Prop where
  key : r.requestedBy.length = verifyingKeyLen
  sig : r.sig.length = signatureLen
  scope : r.scope.check = .ok ()

/-- A request that verifies is proper. -/
theorem proper_of_verify [Crypto] {r : DeleteRequest}
    (verified : r.verify = .ok ()) : r.Proper := by
  unfold verify at verified
  simp only [except_bind_eq_ok, except_mapError_eq_ok] at verified
  obtain ⟨_, scope, signed⟩ := verified
  exact ⟨(widths_of_verify signed).1, (widths_of_verify signed).2, scope⟩

/-- A proper request is read back from what was written of it. -/
theorem decode_encode {r : DeleteRequest} (proper : r.Proper) {bytes : Bytes}
    (encoded : r.encode = .ok bytes) :
    decode bytes = .ok r := by
  -- Every field is read back as it was written.
  rw [encode, except_mapError_eq_ok] at encoded
  have tag :
      fixedField DeleteError.badWidth 1 "scope_tag" [r.scope.tag] = .ok ⟨[r.scope.tag], rfl⟩ :=
    fixedField_of_length _ _ _
  have nonce : deleteFixed32 "nonce" r.nonce.bytes = .ok r.nonce := fixedField_bytes _ _ _
  have reason : ofUtf8? (utf8 r.reason) = some r.reason := ofUtf8?_eq_some.mpr rfl
  rw [decode, decodeFields_of_encodeFields encoded]
  simp only [tag, nonce, reason, proper.key, proper.sig, ensure_of, except_ok_bind,
    List.headD_cons, okOr_some, Scope.decode_path proper.scope, except_pure_eq]

/-- An accepted string holds a proper request, and is its encoding. -/
theorem accepted {bytes : Bytes} {r : DeleteRequest} (decoded : decode bytes = .ok r) :
    r.Proper ∧ r.encode = .ok bytes := by
  -- Every field is compared with the one it was read from.
  unfold decode at decoded
  split at decoded
  · cases decoded
  · rename_i tag path reason requestedBy nonce sig split
    simp only [except_bind_eq_ok, ensure_eq_ok, okOr_eq_ok, ofUtf8?_eq_some, except_pure_eq,
      Except.ok.injEq] at decoded
    obtain ⟨one, tagRead, _, key, _, width, scope, scopeRead, text, rfl, number, numberRead,
      rfl⟩ := decoded
    obtain ⟨checked, is, rfl⟩ := Scope.of_decode scopeRead
    refine ⟨⟨key, width, checked⟩, ?_⟩
    -- The one byte of the discriminant is the scope's own.
    obtain rfl := bytes_of_fixedField tagRead
    obtain rfl := bytes_of_fixedField numberRead
    rw [encode, except_mapError_eq_ok, ← is, oneByte_spelled]
    exact encodeFields_of_decodeFields split
  · cases decoded

/-- The stored form of a request. -/
def format : Codec DeleteError DeleteRequest := ⟨encode, decodeChecked⟩

/-- A request whose texts fit their fields. -/
structure Storable (r : DeleteRequest) : Prop extends r.Proper where
  pathFits : (utf8 r.scope.path).length ≤ maxField
  reasonFits : (utf8 r.reason).length ≤ maxField

/-- A deletion request has one encoding. -/
theorem format_canonical : format.Canonical Storable := by
  -- Each field fits its frame, and what is accepted was written so.
  refine Codec.canonical_of_total decodeChecked_eq ?_ ?_
  · intro r storable
    have path : (utf8 r.scope.path).length ≤ 4294967295 := storable.pathFits
    have reason : (utf8 r.reason).length ≤ 4294967295 := storable.reasonFits
    have fits : FieldsFit [[r.scope.tag], utf8 r.scope.path, utf8 r.reason, r.requestedBy,
        r.nonce.bytes, r.sig] := by
      simp [FieldsFit, FixedBytes.size, storable.key, storable.sig, verifyingKeyLen,
        signatureLen, maxField]
      exact ⟨path, reason⟩
    have encoded : r.encode = .ok _ := except_mapError_eq_ok.mpr (encodeFields_ok fits)
    exact ⟨_, encoded, decode_encode storable.toProper encoded⟩
  · intro bytes r decoded
    obtain ⟨proper, encoded⟩ := accepted decoded
    have fits := fits_of_encodeFields (except_mapError_eq_ok.mp encoded)
    exact ⟨⟨proper, fits _ (by simp), fits _ (by simp)⟩, encoded⟩

end DeleteRequest

/-- The widths of what an approval is written as. -/
def approvalWidths : List Nat := [32, verifyingKeyLen, signatureLen]

namespace DeleteApproval

/-- Read an approval back, index by index. -/
def decodeChecked (bytes : Bytes) : Checked DeleteError DeleteApproval := do
  let f ← (Checked.decodeFields bytes).mapError DeleteError.decode
  lift (ensure (f.length = 3) (.fieldCount 3 f.length))
  let approverPk ← item f 1
  lift (ensure (approverPk.length = verifyingKeyLen)
    (.badWidth "approver_pk" verifyingKeyLen approverPk.length))
  let sig ← item f 2
  lift (ensure (sig.length = signatureLen) (.badWidth "sig" signatureLen sig.length))
  let requestHash ← lift (deleteFixed32 "request_hash" (← item f 0))
  return ⟨requestHash, approverPk, sig⟩

/-- Every index of the decoder is in range. -/
theorem decodeChecked_eq (bytes : Bytes) : decodeChecked bytes = lift (decode bytes) := by
  -- The fields are counted before they are indexed.
  unfold decodeChecked decode
  rw [Checked.decodeFields_eq]
  cases decodeFields bytes with
  | error e => rfl
  | ok f =>
    rcases f with _ | ⟨requestHash, _ | ⟨approverPk, _ | ⟨sig, _ | ⟨extra, rest⟩⟩⟩⟩
    case cons.cons.cons.nil =>
      simp only [Checked.mapError_lift, except_mapError_ok, Checked.lift_ok_bind, List.length_cons,
        List.length_nil, ensure_of, Checked.item_cons_zero, Checked.item_cons_succ,
        Checked.lift_bind, Checked.pure_eq, except_pure_eq]
    -- Any other number of fields is refused before an index is used.
    all_goals simp

/-- An approval that can be stored: a key and a signature of the right widths. -/
structure Proper (a : DeleteApproval) : Prop where
  key : a.approverPk.length = verifyingKeyLen
  sig : a.sig.length = signatureLen

/-- An approval that verifies is proper. -/
theorem proper_of_verify [Crypto] {a : DeleteApproval}
    (verified : a.verify = .ok ()) : a.Proper := by
  rw [verify, except_mapError_eq_ok] at verified
  exact ⟨(widths_of_verify verified).1, (widths_of_verify verified).2⟩

/-- A proper approval is read back from what was written of it. -/
theorem decode_encode {a : DeleteApproval} (proper : a.Proper) {bytes : Bytes}
    (encoded : a.encode = .ok bytes) :
    decode bytes = .ok a := by
  -- What is written is cut into the same fields, and each is read back.
  rw [encode, except_mapError_eq_ok] at encoded
  have hash : deleteFixed32 "request_hash" a.requestHash.bytes = .ok a.requestHash :=
    fixedField_bytes _ _ _
  rw [decode, decodeFields_of_encodeFields encoded]
  simp only [hash, proper.key, proper.sig, ensure_of, except_ok_bind, except_pure_eq]

/-- An accepted string holds a proper approval, and is its encoding. -/
theorem accepted {bytes : Bytes} {a : DeleteApproval} (decoded : decode bytes = .ok a) :
    a.Proper ∧ a.encode = .ok bytes := by
  -- Only three fields are accepted, and each is checked for its width.
  unfold decode at decoded
  split at decoded
  · cases decoded
  · rename_i requestHash approverPk sig split
    simp only [except_bind_eq_ok, ensure_eq_ok, except_pure_eq, Except.ok.injEq] at decoded
    obtain ⟨_, key, _, width, hash, hashRead, rfl⟩ := decoded
    refine ⟨⟨key, width⟩, ?_⟩
    obtain rfl := bytes_of_fixedField hashRead
    rw [encode, except_mapError_eq_ok]
    exact encodeFields_of_decodeFields split
  · cases decoded

/-- The stored form of an approval. -/
def format : Codec DeleteError DeleteApproval := ⟨encode, decodeChecked⟩

/-- A proper approval is written, at its one length. -/
theorem encodes {a : DeleteApproval} (proper : a.Proper) :
    ∃ bytes, a.encode = .ok bytes ∧ bytes.length = framedLen approvalWidths := by
  obtain ⟨bytes, encoded, width⟩ := encodeFields_width
    [a.requestHash.bytes, a.approverPk, a.sig] approvalWidths
    (by simp [FixedBytes.size, proper.key, proper.sig, approvalWidths]) (by decide)
  exact ⟨bytes, except_mapError_eq_ok.mpr encoded, width⟩

/-- An approval has one encoding. -/
theorem format_canonical : format.Canonical Proper := by
  refine Codec.canonical_of_total decodeChecked_eq ?_ fun _ _ decoded => accepted decoded
  intro a proper
  obtain ⟨bytes, encoded, _⟩ := encodes proper
  exact ⟨bytes, encoded, decode_encode proper encoded⟩

end DeleteApproval

namespace DeleteExecution

/-- Read an execution back, index by index; the approvals are what is left behind three fields. -/
def decodeChecked (bytes : Bytes) : Checked DeleteError DeleteExecution := do
  let f ← (Checked.decodeFields bytes).mapError DeleteError.decode
  lift (ensure (3 ≤ f.length) (.fieldCount 3 f.length))
  lift (ensure (f.length - 3 ≤ maxApprovals) (.tooManyApprovals (f.length - 3)))
  let executedBy ← item f 1
  lift (ensure (executedBy.length = verifyingKeyLen)
    (.badWidth "executed_by" verifyingKeyLen executedBy.length))
  let sig ← item f 2
  lift (ensure (sig.length = signatureLen) (.badWidth "sig" signatureLen sig.length))
  let requestHash ← lift (deleteFixed32 "request_hash" (← item f 0))
  let approvals ← (← Checked.itemsFrom f 3).mapM DeleteApproval.decodeChecked
  return ⟨requestHash, approvals, executedBy, sig⟩

/-- Every index of the decoder is in range. -/
theorem decodeChecked_eq (bytes : Bytes) : decodeChecked bytes = lift (decode bytes) := by
  -- The fields are counted before they are indexed.
  unfold decodeChecked decode
  rw [Checked.decodeFields_eq]
  cases decodeFields bytes with
  | error e => rfl
  | ok f =>
    rcases f with _ | ⟨requestHash, _ | ⟨executedBy, _ | ⟨sig, approvals⟩⟩⟩
    case cons.cons.cons =>
      have each : approvals.mapM DeleteApproval.decodeChecked =
          lift (approvals.mapM DeleteApproval.decode) :=
        Checked.mapM_lift fun a _ => DeleteApproval.decodeChecked_eq a
      have rest :
        (Checked.itemsFrom (requestHash :: executedBy :: sig :: approvals) 3 : Checked
        DeleteError _) = lift (.ok approvals) := Checked.itemsFrom_of_le (by simp)
      simp only [Checked.mapError_lift, except_mapError_ok, Checked.lift_ok_bind, List.length_cons,
        Checked.item_cons_zero, Checked.item_cons_succ, rest, each, Checked.lift_bind,
        Checked.pure_eq, except_pure_eq]
      simp
    -- Fewer fields are refused before an index is used.
    all_goals simp

/--
An execution that can be stored: a key and a signature of the right widths, and proper approvals.
-/
structure Proper (e : DeleteExecution) : Prop where
  key : e.executedBy.length = verifyingKeyLen
  sig : e.sig.length = signatureLen
  approvals : ∀ a ∈ e.approvals, a.Proper

/-- An execution that verifies is proper. -/
theorem proper_of_verify [Crypto] {e : DeleteExecution}
    (verified : e.verify = .ok ()) : e.Proper := by
  -- The signature of the execution and of each approval has been checked.
  unfold verify at verified
  simp only [except_bind_eq_ok, except_mapError_eq_ok] at verified
  obtain ⟨_, each, signed⟩ := verified
  refine ⟨(widths_of_verify signed).1, (widths_of_verify signed).2, ?_⟩
  intro a member
  have checked := forM_eq_ok.mp each a member
  simp only [checkApproval, except_bind_eq_ok] at checked
  obtain ⟨_, approved, _⟩ := checked
  exact DeleteApproval.proper_of_verify approved

/-- A proper execution is read back from what was written of it. -/
theorem decode_encode {e : DeleteExecution} (proper : e.Proper) {bytes : Bytes}
    (encoded : e.encode = .ok bytes) :
    decode bytes = .ok e := by
  -- The approvals come last, and each is read back from its own field.
  simp only [encode, except_bind_eq_ok, ensure_eq_ok, except_mapError_eq_ok] at encoded
  obtain ⟨_, few, fields, approvals, written⟩ := encoded
  have hash : deleteFixed32 "request_hash" e.requestHash.bytes = .ok e.requestHash :=
    fixedField_bytes _ _ _
  obtain ⟨back, count⟩ := mapM_back approvals fun a member bytes made =>
    DeleteApproval.decode_encode (proper.approvals a member) made
  rw [decode, decodeFields_of_encodeFields written]
  simp only [List.cons_append, List.nil_append, count, few, hash, proper.key, proper.sig, ensure_of,
    except_ok_bind, back, except_pure_eq]

/-- An accepted string holds a proper execution with few approvals, and is its encoding. -/
theorem accepted {bytes : Bytes} {e : DeleteExecution} (decoded : decode bytes = .ok e) :
    e.Proper ∧ e.approvals.length ≤ maxApprovals ∧ e.encode = .ok bytes := by
  -- Every field is compared with the one it was read from.
  unfold decode at decoded
  split at decoded
  · cases decoded
  · rename_i requestHash executedBy sig written split
    simp only [except_bind_eq_ok, ensure_eq_ok, except_pure_eq, Except.ok.injEq] at decoded
    obtain ⟨_, few, _, key, _, width, hash, hashRead, approvals, read, rfl⟩ := decoded
    obtain rfl := bytes_of_fixedField hashRead
    -- Each approval is proper, and spells the field it was read from.
    obtain ⟨back, count⟩ := mapM_back read fun field _ a decoded =>
      (DeleteApproval.accepted decoded).2
    have each : ∀ a ∈ approvals, a.Proper := by
      intro a member
      obtain ⟨field, _, decoded⟩ := (mem_mapM read a).mp member
      exact (DeleteApproval.accepted decoded).1
    have small : approvals.length ≤ maxApprovals := count ▸ few
    refine ⟨⟨key, width, each⟩, small, ?_⟩
    simp only [encode, small, ensure_of, except_ok_bind, back, except_mapError_eq_ok]
    exact encodeFields_of_decodeFields split
  · cases decoded

/-- The stored form of an execution. -/
def format : Codec DeleteError DeleteExecution := ⟨encode, decodeChecked⟩

/-- An execution with no more approvals than one may carry. -/
structure Storable (e : DeleteExecution) : Prop extends e.Proper where
  few : e.approvals.length ≤ maxApprovals

/-- An execution has one encoding. -/
theorem format_canonical : format.Canonical Storable := by
  -- Each field fits its frame, also those that hold an approval.
  refine Codec.canonical_of_total decodeChecked_eq ?_ ?_
  · intro e storable
    obtain ⟨written, made⟩ := mapM_ok (f := DeleteApproval.encode) fun a
      (member : a ∈ e.approvals) => by
      obtain ⟨bytes, encoded, _⟩ := DeleteApproval.encodes (storable.approvals a member)
      exact ⟨bytes, encoded⟩
    have own : FieldsFit [e.requestHash.bytes, e.executedBy, e.sig] := by
      simp [FieldsFit, FixedBytes.size, storable.key, storable.sig, verifyingKeyLen,
        signatureLen, maxField]
    have fits : FieldsFit ([e.requestHash.bytes, e.executedBy, e.sig] ++ written) := by
      intro field member
      rcases List.mem_append.mp member with here | nested
      · exact own field here
      · -- An approval is written in a few thousand bytes.
        obtain ⟨a, listed, is⟩ := (mem_mapM made field).mp nested
        obtain ⟨bytes, encoded, length⟩ := DeleteApproval.encodes (storable.approvals a listed)
        obtain rfl := Except.ok.inj (encoded.symm.trans is)
        rw [length]
        decide
    have encoded : e.encode =
        .ok (([e.requestHash.bytes, e.executedBy, e.sig] ++ written).flatMap framedField) := by
      simp only [encode, storable.few, ensure_of, except_ok_bind, made, encodeFields_ok fits,
        except_mapError_ok]
    exact ⟨_, encoded, decode_encode storable.toProper encoded⟩
  · intro bytes e decoded
    obtain ⟨proper, few, encoded⟩ := accepted decoded
    exact ⟨⟨proper, few⟩, encoded⟩

end DeleteExecution

end NasTools
