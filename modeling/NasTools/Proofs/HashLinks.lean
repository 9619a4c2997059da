import NasTools.Lib.Packed
import NasTools.Model.Crypto.Concrete
import NasTools.Model.Delete.Formats
import NasTools.Model.Lease.Formats
import NasTools.Model.Lease.Set
import NasTools.Model.Slots.Formats

/-!
The hashes by which records name each other: what is hashed settles the kind, the
signed body and the signature.
-/

namespace NasTools

open Checked (lift)

/-- Fields that fit are told apart from what follows them by the length in front. -/
theorem framedField_splitsOff :
    SplitsOff {field : Bytes | field.length ≤ maxField} framedField := by
  intro field fits field' fits' rest rest' same
  have first := decodeField_framed fits rest
  rw [same, decodeField_framed fits' rest', Except.ok.injEq, Prod.mk.injEq] at first
  exact ⟨first.1.symm, first.2.symm⟩

/-- A record that another record, an approval or a walk names by its hash. -/
inductive Linked where
  | slotRecord (r : SlotRecord)
  | checkpoint (c : Checkpoint)
  | leaseDelta (d : LeaseDelta)
  | leaseCheckpoint (c : LeaseCheckpoint)
  | deleteRequest (r : DeleteRequest)

/-- The five kinds of such records. -/
inductive LinkKind where
  | slotRecord
  | checkpoint
  | leaseDelta
  | leaseCheckpoint
  | deleteRequest
deriving DecidableEq

namespace Linked

/-- The kind of a record. -/
def kind : Linked → LinkKind
  | .slotRecord _ => .slotRecord
  | .checkpoint _ => .checkpoint
  | .leaseDelta _ => .leaseDelta
  | .leaseCheckpoint _ => .leaseCheckpoint
  | .deleteRequest _ => .deleteRequest

/-- The fields a record is signed over, without the key that signs it. -/
def signedFields : Linked → List Bytes
  | .slotRecord r => r.bodyFields
  | .checkpoint c => c.bodyFields
  | .leaseDelta d => [u64Le d.epoch, u64Le d.seq, pack d.add, pack d.remove, d.prev.bytes]
  | .leaseCheckpoint c => [u64Le c.epoch, u64Le c.seq, c.root.bytes, u64Le c.count, c.prev.bytes]
  | .deleteRequest r => [[r.scope.tag], utf8 r.scope.path, utf8 r.reason, r.nonce.bytes]

/-- The signature of a record. -/
def sig : Linked → Bytes
  | .slotRecord r => r.sig
  | .checkpoint c => c.sig
  | .leaseDelta d => d.sig
  | .leaseCheckpoint c => c.sig
  | .deleteRequest r => r.sig

/-- The signed body; a field that does not fit is a panic. -/
def body (l : Linked) : Option Bytes := (encodeFields l.signedFields).toOption

/-- What is hashed in front of the body. -/
def lead (b : Bytes) : Linked → Bytes
  -- Slot records and checkpoints announce the body, and lease records the signature with it.
  | .slotRecord _ => recordHashDomain ++ u64Le (UInt64.ofNat b.length)
  | .checkpoint _ => checkpointHashDomain ++ u64Le (UInt64.ofNat b.length)
  | .leaseDelta d => leaseChainDomain ++ u64Le (UInt64.ofNat (b ++ d.sig).length)
  | .leaseCheckpoint c => leaseChainDomain ++ u64Le (UInt64.ofNat (b ++ c.sig).length)
  -- A delete request is hashed without a domain and without a length.
  | .deleteRequest _ => []

/-- What is hashed behind the body. -/
def behind : Linked → Bytes
  | .deleteRequest r => r.requestedBy ++ r.sig
  | l => l.sig

/-- The bytes that a record is hashed over. -/
def preimage (l : Linked) : Option Bytes := l.body.map fun b => l.lead b ++ b ++ l.behind

/-- A record that some bytes decode to. -/
def Decodable : Linked → Prop
  | .slotRecord r => ∃ bytes, SlotRecord.decode bytes = .ok r
  | .checkpoint c => ∃ bytes, Checkpoint.decode bytes = .ok c
  | .leaseDelta d => ∃ bytes, LeaseDelta.decode bytes = lift (.ok d)
  | .leaseCheckpoint c => ∃ bytes, LeaseCheckpoint.decode bytes = lift (.ok c)
  | .deleteRequest r => ∃ bytes, DeleteRequest.decode bytes = .ok r

/--
The hash that stands for a record: `record_hash`, `checkpoint_hash`, `chain_hash` or `request_hash`.
-/
def hash [Crypto] : Linked → Checked LeaseError Digest
  | .slotRecord r => lift (.ok r.recordHash)
  | .checkpoint c => lift (.ok c.checkpointHash)
  | .leaseDelta d => d.chainHash
  | .leaseCheckpoint c => lift (.ok c.chainHash)
  | .deleteRequest r => lift (.ok r.requestHash)

variable {l m : Linked} {input b : Bytes}

/--
A record is hashed over its signed fields, with what its kind puts in front of them and behind.
-/
theorem preimage_eq_some : l.preimage = some input ↔
    FieldsFit l.signedFields ∧
      input = l.lead (l.signedFields.flatMap framedField) ++
        (l.signedFields.flatMap framedField ++ l.behind) := by
  -- The preimage is there exactly if the fields fit, and then it has three parts.
  simp only [preimage, body, Option.map_eq_some_iff, except_toOption_eq_some, encodeFields_eq_ok,
    List.append_assoc]
  constructor
  · rintro ⟨_, ⟨fits, rfl⟩, rfl⟩
    exact ⟨fits, rfl⟩
  · rintro ⟨fits, rfl⟩
    exact ⟨_, ⟨fits, rfl⟩, rfl⟩

/-- The hash of a record is the hash of those bytes. -/
theorem hash_of_preimage [Crypto] (is : l.preimage = some input) :
    l.hash = lift (.ok (Crypto.blake3 input)) := by
  -- One kind of record after the other.
  obtain ⟨fits, rfl⟩ := preimage_eq_some.mp is
  cases l with
  | slotRecord r =>
    have encoded : r.body = .ok (r.bodyFields.flatMap framedField) := encodeFields_ok fits
    rw [hash, SlotRecord.recordHash, encoded]
    simp [SlotRecord.hashInput, lead, behind, sig, signedFields]
  | checkpoint c =>
    rw [hash, Checkpoint.checkpointHash, Checkpoint.hashInput, c.body_eq]
    simp [lead, behind, sig, signedFields]
  | leaseDelta d =>
    -- The lists fit their fields, so the body is written without a panic.
    have encoded : deltaBody d.epoch d.seq d.add d.remove d.prev =
        lift (.ok ((signedFields (.leaseDelta d)).flatMap framedField)) := by
      rw [deltaBody]
      exact Checked.expect_eq_ok.mpr (except_toOption_eq_some.mpr (encodeFields_ok fits))
    rw [hash, LeaseDelta.chainHash, encoded, Checked.lift_ok_bind, Checked.pure_eq, leaseChainHash]
    simp [lead, behind, sig]
  | leaseCheckpoint c =>
    have encoded : cpBody c.epoch c.seq c.root c.count c.prev =
        (signedFields (.leaseCheckpoint c)).flatMap framedField :=
      expectFields_ok fits
    rw [hash, LeaseCheckpoint.chainHash, encoded, leaseChainHash]
    simp [lead, behind, sig]
  | deleteRequest r =>
    have encoded : requestBody r.scope r.reason r.nonce = (signedFields (.deleteRequest r)).flatMap
        framedField :=
      expectFields_ok fits
    rw [hash, DeleteRequest.requestHash, encoded]
    simp [lead, behind]

namespace Decodable

/-- The body of a record that was read is written again. -/
theorem fits (decodable : l.Decodable) : FieldsFit l.signedFields := by
  -- One kind of record after the other.
  cases l with
  | slotRecord r => exact r.bodyFields_fit
  | checkpoint c => exact c.bodyFields_fit
  | leaseDelta d =>
    obtain ⟨bytes, decoded⟩ := decodable
    -- The lists were read from fields of their own.
    have whole :=
      fits_of_encodeFields (except_mapError_eq_ok.mp (LeaseDelta.decode_eq_ok.mp decoded).2)
    exact fun field member => whole field (by simp_all [signedFields]; tauto)
  | leaseCheckpoint c => simp [FieldsFit, signedFields, FixedBytes.size, maxField]
  | deleteRequest r =>
    obtain ⟨bytes, decoded⟩ := decodable
    have whole := fits_of_encodeFields (except_mapError_eq_ok.mp (DeleteRequest.accepted decoded).2)
    exact fun field member => whole field (by simp_all [signedFields]; tauto)

/-- A record that was read is hashed over something. -/
theorem preimage (decodable : l.Decodable) : ∃ input, l.preimage = some input :=
  ⟨_, preimage_eq_some.mpr ⟨decodable.fits, rfl⟩⟩

end Decodable

end Linked

namespace LinkKind

/-- The bytes that every input of a kind starts with. -/
def start : LinkKind → Bytes
  | .slotRecord => recordHashDomain
  | .checkpoint => checkpointHashDomain
  | .leaseDelta => leaseChainDomain
  | .leaseCheckpoint => leaseChainDomain
  -- The first field of a delete request is one byte wide, as the length in front of it says.
  | .deleteRequest => natToLe lenPrefix 1

/-- How many bytes are hashed in front of the body. -/
def leadWidth : LinkKind → Nat
  | .deleteRequest => 0
  | k => k.start.length + 8

/-- How many fields are signed. -/
def fieldCount : LinkKind → Nat
  | .slotRecord => 7
  | .deleteRequest => 4
  | _ => 5

variable {k k' : LinkKind}

/-- No start lies at the front of another one. -/
theorem start_eq_of_prefix (inside : k.start <+: k'.start) : k.start = k'.start := by
  cases k <;> cases k' <;> revert inside <;> decide

/-- Behind one start the body is at one place, and has so many fields. -/
theorem shape_of_start (same : k.start = k'.start) :
    k.leadWidth = k'.leadWidth ∧ k.fieldCount = k'.fieldCount := by
  cases k <;> cases k' <;> revert same <;> decide

/-- Only the two lease records share their start. -/
theorem eq_or_lease_of_start (same : k.start = k'.start) :
    k = k' ∨ (k = .leaseDelta ∧ k' = .leaseCheckpoint) ∨
      (k = .leaseCheckpoint ∧ k' = .leaseDelta) := by
  cases k <;> cases k' <;> revert same <;> decide

end LinkKind

namespace Linked

variable {l m : Linked} {input : Bytes}

/-- What stands before the fields has a width that the kind decides. -/
theorem length_lead (l : Linked) (b : Bytes) : (l.lead b).length = l.kind.leadWidth := by
  cases l <;> simp [lead, kind, LinkKind.leadWidth, LinkKind.start]

/-- The kind decides how many fields there are. -/
theorem length_signedFields (l : Linked) : l.signedFields.length = l.kind.fieldCount := by
  cases l <;> rfl

/-- The preimage starts with what its kind starts with. -/
theorem starts_with (is : l.preimage = some input) : l.kind.start <+: input := by
  -- In every kind the start stands in front of the fields.
  obtain ⟨_, rfl⟩ := preimage_eq_some.mp is
  cases l with
  | slotRecord r => exact List.prefix_append_of_prefix (List.prefix_append _ _)
  | checkpoint c => exact List.prefix_append_of_prefix (List.prefix_append _ _)
  | leaseDelta d => exact List.prefix_append_of_prefix (List.prefix_append _ _)
  | leaseCheckpoint c => exact List.prefix_append_of_prefix (List.prefix_append _ _)
  | deleteRequest r => exact ⟨_, rfl⟩

/-- Records hashed over the same bytes start with the same bytes. -/
theorem start_eq (here : l.preimage = some input) (there : m.preimage = some input) :
    l.kind.start = m.kind.start := by
  -- Both lie at the front of the input, so one lies at the front of the other.
  rcases List.prefix_or_prefix_of_prefix (starts_with here) (starts_with there) with inside | inside
  · exact LinkKind.start_eq_of_prefix inside
  · exact (LinkKind.start_eq_of_prefix inside).symm

/-- Records hashed over the same bytes have the same fields, and the same behind them. -/
theorem parts_eq (here : l.preimage = some input) (there : m.preimage = some input) :
    l.signedFields = m.signedFields ∧ l.behind = m.behind := by
  -- The first bytes say how many fields there are, and of what widths.
  obtain ⟨width, count⟩ := LinkKind.shape_of_start (start_eq here there)
  rw [← length_signedFields, ← length_signedFields] at count
  obtain ⟨fits, rfl⟩ := preimage_eq_some.mp here
  obtain ⟨fits', same⟩ := preimage_eq_some.mp there
  have bodies := (List.append_inj same (by rw [length_lead, length_lead, width])).2
  -- As many fields on both sides split off the rest.
  exact framedField_splitsOff.flatMap _ _ ⟨rfl, fits⟩ _ ⟨count.symm, fits'⟩ _ _ bodies

/-- A packed list of addresses is no 64-bit integer. -/
theorem pack_ne_u64Le (addrs : List Addr) (n : UInt64) : pack addrs ≠ u64Le n := by
  -- Suppose they were the same.
  intro same
  have lengths := congrArg List.length same
  rw [pack, length_flatMap_bytes, u64Le_length] at lengths
  -- Thirty-two does not divide eight.
  omega

/-- A delta has a list of addresses where a lease checkpoint has its count. -/
theorem delta_ne_checkpoint {d : LeaseDelta} {c : LeaseCheckpoint} :
    (leaseDelta d).signedFields ≠ (leaseCheckpoint c).signedFields := by
  intro same
  simp only [signedFields, List.cons.injEq] at same
  exact pack_ne_u64Le d.remove c.count same.2.2.2.1

/-- What a record is hashed over settles its kind. -/
theorem kind_eq (here : l.preimage = some input) (there : m.preimage = some input) :
    l.kind = m.kind := by
  -- Two kinds of lease record have the same start, and there the fields tell them apart.
  have fields := (parts_eq here there).1
  rcases LinkKind.eq_or_lease_of_start (start_eq here there) with same | ⟨first, second⟩ |
    ⟨first, second⟩
  · exact same
  · cases l <;> cases first
    cases m <;> cases second
    exact absurd fields delta_ne_checkpoint
  · cases l <;> cases first
    cases m <;> cases second
    exact absurd fields.symm delta_ne_checkpoint

/-- What a record that was read is hashed over settles its signature. -/
theorem sig_eq (decodable : l.Decodable) (decodable' : m.Decodable) (here : l.preimage = some input)
    (there : m.preimage = some input) : l.sig = m.sig := by
  -- Records of one kind, with the same behind their bodies.
  have kinds := kind_eq here there
  have behinds := (parts_eq here there).2
  cases l with
  | deleteRequest r =>
    cases m <;> cases kinds
    rename_i r'
    obtain ⟨_, decoded⟩ := decodable
    obtain ⟨_, decoded'⟩ := decodable'
    -- The keys are as long as each other, so the signatures are what is left behind them.
    have keys : SplitsOff {key : Bytes | key.length = verifyingKeyLen} id :=
      SplitsOff.of_width verifyingKeyLen (fun _ width => width) (Set.injOn_id _)
    exact (keys _ (DeleteRequest.accepted decoded).1.key _ (DeleteRequest.accepted decoded').1.key _
      _ behinds).2
  | _ => cases m <;> first | exact behinds | cases kinds

end Linked

/--
The hash of a record settles its kind, its signed body and its signature.

BLAKE3 is injective on what the records of some set are hashed over; no other property of it is
used. Whatever it is, no two records of different kinds are hashed over the same bytes.
-/
theorem hash_links_bind_records [Crypto] {seen : Set Linked} (decodable : ∀ l ∈ seen, l.Decodable)
    (injective : Set.InjOn Crypto.blake3 {input | ∃ l ∈ seen, l.preimage = some input}) :
    (∀ l ∈ seen, ∃ input, l.preimage = some input ∧ l.hash = lift (.ok (Crypto.blake3 input))) ∧
    (∀ l ∈ seen, ∀ m ∈ seen, l.hash = m.hash → l.kind = m.kind ∧ l.body = m.body ∧ l.sig = m.sig) ∧
    ∀ (l m : Linked) (input : Bytes), l.preimage = some input → m.preimage = some input →
      l.kind = m.kind := by
  -- Hashes of preimages, their inversion, and the kinds.
  refine ⟨?_, ?_, fun l m input => Linked.kind_eq⟩
  · intro l member
    obtain ⟨input, is⟩ := (decodable l member).preimage
    exact ⟨input, is, Linked.hash_of_preimage is⟩
  · intro l inL m inM same
    obtain ⟨input, here⟩ := (decodable l inL).preimage
    obtain ⟨input', there⟩ := (decodable m inM).preimage
    rw [Linked.hash_of_preimage here, Linked.hash_of_preimage there, Checked.lift_inj,
      Except.ok.injEq] at same
    -- Equal hashes are hashes of the same bytes, and these settle the parts.
    obtain rfl := injective ⟨l, inL, here⟩ ⟨m, inM, there⟩ same
    refine ⟨Linked.kind_eq here there, ?_,
      Linked.sig_eq (decodable l inL) (decodable m inM) here there⟩
    rw [Linked.body, Linked.body, (Linked.parts_eq here there).1]

section

open Concrete

/-- A signature that is as long as one has to be. -/
def anySig : Bytes := List.replicate signatureLen 0

/-- One record of each kind, all of them the first of their chain. -/
def firstLinks : List Linked :=
  [.slotRecord ⟨digest [1], 0, digest [2], FixedBytes.zero _, digest [3], Digest.zero,
    .casMerge, anySig⟩,
    .checkpoint ⟨digest [1], 0, digest [2], 0, Digest.zero, (identity 1).verifyingKey, anySig⟩,
    .leaseDelta ⟨(identity 1).verifyingKey, 1, 0, [digest [1]], [], Digest.zero, anySig⟩,
    .leaseCheckpoint ⟨(identity 1).verifyingKey, 1, 0, digest [1], 1, Digest.zero, anySig⟩,
    .deleteRequest ⟨.object "a", "", (identity 1).verifyingKey, Digest.zero, anySig⟩]

/-- Each of them is read from what is written of it. -/
theorem firstLinks_decodable : ∀ l ∈ firstLinks, l.Decodable := by
  -- One case for each kind: the record is proper, so its bytes are decoded.
  have key : (identity 1).verifyingKey.length = verifyingKeyLen := List.length_replicate
  have sig : anySig.length = signatureLen := List.length_replicate
  simp only [firstLinks, List.mem_cons, List.not_mem_nil, or_false, forall_eq_or_imp, forall_eq]
  refine ⟨?_, ?_, ?_, ?_, ?_⟩
  · have proper : SlotRecord.Proper
        ⟨digest [1], 0, digest [2], FixedBytes.zero _, digest [3], Digest.zero, .casMerge,
          anySig⟩ := ⟨sig, by simp⟩
    obtain ⟨bytes, _, decoded⟩ := SlotRecord.reads_back proper
    exact ⟨bytes, decoded⟩
  · have proper : Checkpoint.Proper ⟨digest [1], 0, digest [2], 0, Digest.zero,
        (identity 1).verifyingKey, anySig⟩ :=
      ⟨key, sig⟩
    obtain ⟨bytes, _, decoded⟩ := Checkpoint.reads_back proper
    exact ⟨bytes, decoded⟩
  · have proper : LeaseDelta.Proper ⟨(identity 1).verifyingKey, 1, 0, [digest [1]], [],
        Digest.zero, anySig⟩ :=
      ⟨key, sig, by simp, .singleton _, .nil, by simp [pack, FixedBytes.size, maxField],
        by simp [pack]⟩
    obtain ⟨bytes, encoded⟩ := LeaseDelta.encodes proper
    exact ⟨bytes, LeaseDelta.decode_eq_ok.mpr ⟨proper, encoded⟩⟩
  · have proper : LeaseCheckpoint.Proper ⟨(identity 1).verifyingKey, 1, 0, digest [1], 1,
        Digest.zero, anySig⟩ :=
      ⟨key, sig, by simp⟩
    obtain ⟨bytes, encoded⟩ := LeaseCheckpoint.encodes proper
    exact ⟨bytes, LeaseCheckpoint.decode_eq_ok.mpr ⟨proper, encoded⟩⟩
  · have storable : DeleteRequest.Storable ⟨.object "a", "", (identity 1).verifyingKey,
        Digest.zero, anySig⟩ :=
      ⟨⟨key, sig, by decide⟩, by decide, by decide⟩
    obtain ⟨bytes, encoded, decoded⟩ := DeleteRequest.format_canonical.reads _ storable
    exact ⟨bytes, by simpa [DeleteRequest.format, DeleteRequest.decodeChecked_eq] using decoded⟩

/-- The five are of different kinds, and their hashes bind what they are taken over. -/
theorem first_links_bind : (firstLinks.map Linked.kind).Nodup ∧
    ∀ l ∈ firstLinks, ∀ m ∈ firstLinks, l.hash = m.hash → l.kind = m.kind ∧ l.body = m.body ∧
      l.sig = m.sig := by
  -- The hashes of the first links are evaluated, and the theorem says the rest.
  refine ⟨by decide, ?_⟩
  have apart : ((firstLinks.filterMap Linked.preimage).map Concrete.digest).Nodup := by
    decide +kernel
  -- The hash is injective on the preimages of the list.
  have injective : Set.InjOn Crypto.blake3 {input | ∃ l ∈ {l | l ∈ firstLinks}, l.preimage =
      some input} := by
    rintro a ⟨l, inL, here⟩ b ⟨m, inM, there⟩ same
    exact List.inj_on_of_nodup_map apart (List.mem_filterMap.mpr ⟨l, inL, here⟩)
      (List.mem_filterMap.mpr ⟨m, inM, there⟩) same
  exact (hash_links_bind_records firstLinks_decodable injective).2.1

end

end NasTools
