import NasTools.Model.Crypto.Concrete
import NasTools.Model.Delete.Formats
import NasTools.Model.Lease.Formats

/-! What is signed of leases and deletions is written in one way, and read back as it was signed. -/

namespace NasTools

open Checked (lift item)

section

variable [Crypto] {identity : Identity}

omit [Crypto] in
/-- A value that `expect` goes on with was there. -/
theorem Checked.expect_toOption {E F A : Type} {x : Except F A} {a : A}
    (found : (Checked.expect x.toOption : Checked E A) = lift (.ok a)) : x = .ok a := by
  cases x with
  | error e => cases found
  | ok b => simpa [Except.toOption] using found

/-- A signature of a working keypair has its width. -/
theorem Identity.Signs.width (works : identity.Signs) {ctx : SigContext} {message sig : Bytes}
    (made : identity.sign ctx message = .ok sig) : sig.length = signatureLen := by
  obtain ⟨sig', made', width, _⟩ := works.sign_verifies ctx message
  obtain rfl := Except.ok.inj (made'.symm.trans made)
  exact width

/-- A signed delta is proper. -/
theorem LeaseDelta.proper_of_sign (works : identity.Signs) {epoch seq : UInt64}
    {add remove : List Addr} {prev : Digest} {d : LeaseDelta}
    (made : sign identity epoch seq add remove prev = lift (.ok d)) : d.Proper := by
  -- The steps that succeed are taken apart.
  simp only [sign, Checked.bind_eq_ok, Checked.lift_inj, leaseCheckGenesis_eq_ok,
    except_mapError_eq_ok, Checked.pure_eq, Except.ok.injEq] at made
  obtain ⟨_, genesis, body, written, sig, signed, rfl⟩ := made
  -- The body was written, so both lists fit.
  have fits := fits_of_encodeFields (Checked.expect_toOption written)
  exact ⟨works.keyLength, works.width signed, genesis, ascending_canonicalise add,
    ascending_canonicalise remove, fits _ (by simp), fits _ (by simp)⟩

/-- A signed checkpoint is proper. -/
theorem LeaseCheckpoint.proper_of_sign (works : identity.Signs) {epoch seq : UInt64}
    {fullSet : List Addr} {prev : Digest} {c : LeaseCheckpoint}
    (made : sign identity epoch seq fullSet prev = .ok c) : c.Proper := by
  simp only [sign, except_bind_eq_ok, leaseCheckGenesis_eq_ok, except_mapError_eq_ok,
    except_pure_eq, Except.ok.injEq] at made
  obtain ⟨_, genesis, sig, signed, rfl⟩ := made
  exact ⟨works.keyLength, works.width signed, genesis⟩

/-- A signed request can be stored. -/
theorem DeleteRequest.storable_of_sign (works : identity.Signs) {scope : Scope} {reason : String}
    {nonce : Digest} {r : DeleteRequest}
    (made : signChecked identity scope reason nonce = lift (.ok r)) : r.Storable := by
  -- Its body was written, so the fields fit.
  simp only [signChecked, Checked.bind_eq_ok, Checked.lift_inj, except_mapError_eq_ok,
    Checked.pure_eq, Except.ok.injEq] at made
  obtain ⟨_, checked, body, written, sig, signed, rfl⟩ := made
  have fits := fits_of_encodeFields (Checked.expect_toOption written)
  exact ⟨⟨works.keyLength, works.width signed, checked⟩, fits _ (by simp), fits _ (by simp)⟩

/-- A signed approval is proper. -/
theorem DeleteApproval.proper_of_sign (works : identity.Signs) {requestHash : Digest}
    {a : DeleteApproval} (made : sign identity requestHash = .ok a) : a.Proper := by
  simp only [sign, except_bind_eq_ok, except_mapError_eq_ok, except_pure_eq,
    Except.ok.injEq] at made
  obtain ⟨sig, signed, rfl⟩ := made
  exact ⟨works.keyLength, works.width signed⟩

/-- An execution carries the approvals it was signed over. -/
theorem DeleteExecution.of_sign {request : DeleteRequest} {approvals : List DeleteApproval}
    {e : DeleteExecution} (made : sign identity request approvals = .ok e) :
    e.approvals = approvals ∧ e.executedBy = identity.verifyingKey ∧
      identity.sign .deleteExecution request.requestHash.bytes = .ok e.sig := by
  simp only [sign, except_bind_eq_ok, except_mapError_eq_ok, except_pure_eq,
    Except.ok.injEq] at made
  obtain ⟨_, _, sig, signed, rfl⟩ := made
  exact ⟨rfl, rfl, signed⟩

/--
Every signed lease and deletion record has one spelling, and no input makes its decoder panic.

An execution is signed over whatever approvals it is given, and written only with as
many as one may carry.
-/
theorem lease_and_delete_records_have_one_spelling (works : identity.Signs) :
    LeaseDelta.format.OneSpelling
        (fun d => ∃ epoch seq add remove prev, LeaseDelta.sign identity epoch seq add remove prev =
          lift (.ok d)) ∧
      LeaseCheckpoint.format.OneSpelling
        (fun c => ∃ epoch seq fullSet prev, LeaseCheckpoint.sign identity epoch seq fullSet prev =
          .ok c) ∧
      DeleteRequest.format.OneSpelling
        (fun r => ∃ scope reason nonce, DeleteRequest.signChecked identity scope reason nonce =
          lift (.ok r)) ∧
      DeleteApproval.format.OneSpelling (fun a => ∃ requestHash,
        DeleteApproval.sign identity requestHash = .ok a) ∧
      DeleteExecution.format.OneSpelling (fun e => ∃ request approvals,
        DeleteExecution.sign identity request approvals = .ok e ∧ approvals.length ≤ maxApprovals ∧
          ∀ a ∈ approvals, a.Proper) ∧
      ∀ request approvals e, DeleteExecution.sign identity request approvals = .ok e →
        maxApprovals < approvals.length →
          e.encode = .error (.tooManyApprovals approvals.length) := by
  -- Each format is canonical, so it is enough that what is signed is proper.
  refine ⟨?_, ?_, ?_, ?_, ?_, ?_⟩
  · exact LeaseDelta.format_canonical.oneSpelling fun d ⟨_, _, _, _, _, made⟩ =>
      LeaseDelta.proper_of_sign works made
  · exact LeaseCheckpoint.format_canonical.oneSpelling fun c ⟨_, _, _, _, made⟩ =>
      LeaseCheckpoint.proper_of_sign works made
  · exact DeleteRequest.format_canonical.oneSpelling fun r ⟨_, _, _, made⟩ =>
      DeleteRequest.storable_of_sign works made
  · exact DeleteApproval.format_canonical.oneSpelling fun a ⟨_, made⟩ =>
      DeleteApproval.proper_of_sign works made
  · refine DeleteExecution.format_canonical.oneSpelling ?_
    rintro e ⟨request, approvals, made, few, each⟩
    obtain ⟨rfl, key, signed⟩ := DeleteExecution.of_sign made
    exact ⟨⟨key ▸ works.keyLength, works.width signed, each⟩, few⟩
  · intro request approvals e made many
    obtain ⟨rfl, _, _⟩ := DeleteExecution.of_sign made
    rw [DeleteExecution.encode, ensure_of_not (Nat.not_le.mpr many)]
    rfl

end

section

open Concrete

/-- A request to delete a whole namespace. -/
def wipe : DeleteRequest :=
  ⟨.wholeNamespace, "", (identity 1).verifyingKey, digest [1], signature (identity 1).verifyingKey
    (framed .deleteRequest (requestBody .wholeNamespace "" (digest [1])))⟩

/-- One approval of it, sixty-five times. -/
def manyApprovals : List DeleteApproval :=
  List.replicate 65 ⟨wipe.requestHash, (identity 2).verifyingKey,
    signature (identity 2).verifyingKey (framed .deleteApproval wipe.requestHash.bytes)⟩

/-- An execution over sixty-five approvals is signed, and cannot be written at all. -/
theorem crowded_execution_has_no_spelling :
    ¬DeleteExecution.format.OneSpelling (fun e => ∃ request approvals,
      DeleteExecution.sign (identity 1) request approvals = .ok e) := by
  -- Sixty-five approvals are signed, and what is decoded has no more than sixty-four.
  intro spelling
  have each : manyApprovals.forM (fun a => ensure (a.requestHash = wipe.requestHash)
      (DeleteError.wrongRequest wipe.requestHash a.requestHash)) = .ok () := by
    rw [forM_eq_ok]
    intro a listed
    rw [List.eq_of_mem_replicate listed]
    exact ensure_of rfl
  have made : DeleteExecution.sign (identity 1) wipe manyApprovals =
    .ok ⟨wipe.requestHash, manyApprovals,
      (identity 1).verifyingKey,
      signature (identity 1).verifyingKey (framed .deleteExecution wipe.requestHash.bytes)⟩ := by
    rw [DeleteExecution.sign, each]
    rfl
  obtain ⟨bytes, _, decoded⟩ := spelling.reads _ ⟨wipe, manyApprovals, made⟩
  have few := (DeleteExecution.format_canonical.proper bytes _ decoded).few
  rw [show manyApprovals.length = 65 from List.length_replicate] at few
  revert few
  decide

/-- A working keypair signs a delta over two addresses, which is read back. -/
theorem signed_delta_is_read_back :
    (identity 1).Signs ∧ ∃ d, LeaseDelta.sign (identity 1) 1 0 [digest [2], digest [1]] []
      Digest.zero = lift (.ok d) ∧
      LeaseDelta.format.ReadsBack d := by
  -- The delta is signed, for its fields are short.
  have works := identity_signs 1
  have spelling := (lease_and_delete_records_have_one_spelling works).1
  have short (addrs : List Addr) (few : addrs.length ≤ 2) :
      (pack (canonicalise addrs)).length ≤ maxField := by
    have kept :=
      (List.destutter_sublist (· ≠ ·) (addrs.mergeSort fun a b => (compare a b).isLE)).length_le
    rw [List.length_mergeSort] at kept
    rw [pack, length_flatMap_bytes, canonicalise]
    have room : 2 * 32 ≤ maxField := by decide
    omega
  have fits : FieldsFit [u64Le 1, u64Le 0, pack (canonicalise [digest [2], digest [1]]),
    pack (canonicalise []),
      Digest.zero.bytes] := by
    simp only [FieldsFit, List.forall_mem_cons, List.not_mem_nil, false_implies,
      implies_true, and_true]
    exact ⟨by decide, by decide, short _ (by decide), short _ (by decide), by decide⟩
  obtain ⟨sig, signed, _⟩ := works.sign_verifies .lease
    ([u64Le 1, u64Le 0, pack (canonicalise [digest [2], digest [1]]), pack (canonicalise []),
      Digest.zero.bytes].flatMap framedField)
  have made : LeaseDelta.sign (identity 1) 1 0 [digest [2], digest [1]] [] Digest.zero = lift (.ok
      ⟨(identity 1).verifyingKey, 1, 0, canonicalise [digest [2], digest [1]], canonicalise [],
        Digest.zero, sig⟩) := by
    rw [LeaseDelta.sign, show leaseCheckGenesis 0 Digest.zero = .ok () from rfl,
      Checked.lift_ok_bind]
    simp only [deltaBody, encodeFields_ok fits, Except.toOption, Checked.expect_some,
      Checked.lift_ok_bind, signed]
    rfl
  exact ⟨works, _, made, spelling.reads _ ⟨_, _, _, _, _, made⟩⟩

end

end NasTools
