import NasTools.Model.Lease.Record

/-! The stored forms of the lease records, each with one spelling. -/

namespace NasTools

open Checked (lift item)

/-- Addresses in strictly ascending order. -/
def Ascending (addrs : List Addr) : Prop := addrs.IsChain fun a b => compare a b = .lt

/-- The check accepts exactly the ascending addresses. -/
theorem checkCanonical_eq_ok {field : String} {addrs : List Addr} {u : Unit} :
    checkCanonical field addrs = .ok u ↔ Ascending addrs := by
  -- Induction over the addresses, comparing neighbours.
  unfold Ascending
  induction addrs with
  | nil => simp [checkCanonical]
  | cons a rest ih =>
    cases rest with
    | nil => simp [checkCanonical]
    | cons b rest =>
      rw [List.isChain_cons_cons, ← ih, checkCanonical]
      by_cases less : compare a b = .lt
      · simp [less]
      · simp [less]

/-- A list in its one form is strictly ascending. -/
theorem ascending_canonicalise (addrs : List Addr) : Ascending (canonicalise addrs) := by
  -- Sorting gives an order, and dropping repetitions makes it strict.
  have sorted : (addrs.mergeSort fun a b => (compare a b).isLE).Pairwise fun a b =>
      (compare a b).isLE = true := by
    apply List.pairwise_mergeSort
    · intro a b c first second
      exact Std.TransCmp.isLE_trans first second
    · intro a b
      cases order : compare a b with
      | lt => simp
      | eq => simp
      | gt => simp [Std.OrientedCmp.gt_iff_lt.mp order]
  -- What is left of the sorted list is sorted, and neighbours differ.
  have kept := (sorted.sublist (List.destutter_sublist (· ≠ ·) _)).isChain
  have apart := List.isChain_destutter (· ≠ ·) (addrs.mergeSort fun a b => (compare a b).isLE)
  unfold Ascending
  rw [List.isChain_iff_getElem] at kept apart ⊢
  intro i bound
  have le := kept i bound
  have ne := apart i bound
  rcases Ordering.isLE_iff_eq_lt_or_eq_eq.mp le with less | same
  · exact less
  · exact absurd (Std.LawfulEqCmp.eq_of_compare same) ne

/-- An ascending list is read back from its bytes, and nothing else is read as one. -/
theorem unpack_eq_ok {field : String} {data : Bytes} {addrs : List Addr} :
    unpack field data = .ok addrs ↔ data = pack addrs ∧ Ascending addrs := by
  -- Cutting what was packed gives back the addresses, each of one width.
  have back (items : List Addr) :
      (chunksExact addrLen (pack items)).filterMap (FixedBytes.ofBytes? 32) = items := by
    rw [addrLen, pack, chunksExact_flatMap (by decide), List.filterMap_map]
    simp
  simp only [unpack, except_bind_eq_ok, ensure_eq_ok, except_pure_eq, Except.ok.injEq,
    checkCanonical_eq_ok]
  constructor
  · intro unpacked
    obtain ⟨_, whole, _, ascending, rfl⟩ := unpacked
    -- A length that is a multiple of the width is a run of whole addresses.
    obtain ⟨items, rfl⟩ : ∃ items : List Addr, data = items.flatMap FixedBytes.bytes :=
      exists_arrays whole
    rw [show items.flatMap FixedBytes.bytes = pack items from rfl, back] at ascending ⊢
    exact ⟨rfl, ascending⟩
  · intro sorted
    obtain ⟨rfl, ascending⟩ := sorted
    refine ⟨(), ?_, (), ?_, ?_⟩
    · rw [pack, length_flatMap_bytes]
      exact dvd_mul_right _ _
    · rw [back]
      exact ascending
    · rw [back]

/-- A field is read as the array whose bytes it is. -/
theorem leaseFixed_eq_ok {width : Nat} {field : String} {data : Bytes} {a : FixedBytes width} :
    leaseFixed width field data = .ok a ↔ data = a.bytes := fixedField_eq_ok

/-- A field is accepted at its length. -/
theorem leaseCheckLen_eq_ok {field : String} {data : Bytes} {want : Nat} {u : Unit} :
    leaseCheckLen field data want = .ok u ↔ data.length = want := ensure_eq_ok

/-- Exactly a genesis record has no predecessor. -/
theorem leaseCheckGenesis_eq_ok {seq : UInt64} {prev : Digest} {u : Unit} :
    leaseCheckGenesis seq prev = .ok u ↔ (seq = 0 ↔ prev = Digest.zero) := genesisRule_eq_ok

/-- Seven fields are seven fields. -/
theorem length_eq_seven {f : List Bytes} (seven : f.length = 7) :
    ∃ a b c d e g h, f = [a, b, c, d, e, g, h] := by
  match f, seven with
  | [a, b, c, d, e, g, h], _ => exact ⟨a, b, c, d, e, g, h, rfl⟩

namespace LeaseDelta

/--
A delta that can be sent: widths, the genesis rule, and two ascending lists that fit their fields.
-/
structure Proper (d : LeaseDelta) : Prop where
  key : d.holderPk.length = verifyingKeyLen
  sig : d.sig.length = signatureLen
  genesis : d.seq = 0 ↔ d.prev = Digest.zero
  add : Ascending d.add
  remove : Ascending d.remove
  addFits : (pack d.add).length ≤ maxField
  removeFits : (pack d.remove).length ≤ maxField

/-- The stored form of a delta. -/
def format : Codec LeaseError LeaseDelta := ⟨encode, decode⟩

/-- No index of the decoder lies outside the fields. -/
theorem decode_total (bytes : Bytes) : (decode bytes).Total := by
  -- The count of fields was checked, so none of the seven is missing.
  refine Checked.total_of_fields (fun f counted => ?_) bytes
  obtain ⟨a, b, c, d, e, g, h, rfl⟩ := length_eq_seven counted
  simp only [Checked.item_cons_zero, Checked.item_cons_succ, Checked.lift_ok_bind, Checked.pure_eq]
  repeat refine Checked.total_bind (Checked.total_lift _) fun _ _ => ?_
  exact Checked.total_lift _

/-- Exactly the encodings of proper deltas are accepted. -/
theorem decode_eq_ok {bytes : Bytes} {d : LeaseDelta} :
    decode bytes = lift (.ok d) ↔ d.Proper ∧ d.encode = .ok bytes := by
  -- The fields are read one by one and written again.
  rw [decode, Checked.of_fields_eq_ok]
  constructor
  · intro decoded
    obtain ⟨f, split, counted, decoded⟩ := decoded
    obtain ⟨holderPk, epoch, seq, add, remove, prev, sig, rfl⟩ := length_eq_seven counted
    simp only [Checked.bind_eq_ok, Checked.item_cons_zero, Checked.item_cons_succ, Checked.lift_inj,
      Except.ok.injEq, Checked.pure_eq, exists_eq_left', leaseCheckLen_eq_ok, leaseFixed_eq_ok,
      leaseCheckGenesis_eq_ok, unpack_eq_ok] at decoded
    obtain ⟨_, key, _, width, place, rfl, before, rfl, _, genesis, time, rfl, added, ⟨rfl, up⟩,
      removed, ⟨rfl, up'⟩, rfl⟩ :=
      decoded
    -- The lists were read from fields, so they fit in fields.
    have fits := (framed_of_decodeFields split).2
    refine ⟨⟨key, width, genesis, up, up', fits _ (by simp), fits _ (by simp)⟩, ?_⟩
    rw [encode, except_mapError_eq_ok, u64Le_u64OfLe_fixed, u64Le_u64OfLe_fixed]
    exact encodeFields_of_decodeFields split
  · intro encoded
    obtain ⟨proper, encoded⟩ := encoded
    have numbers (field : String) (n : UInt64) :
        leaseFixed 8 field (u64Le n) = .ok ⟨u64Le n, u64Le_length n⟩ :=
      fixedField_of_length _ _ _
    have prev : leaseFixed 32 "prev" d.prev.bytes = .ok d.prev := leaseFixed_eq_ok.mpr rfl
    have genesis : leaseCheckGenesis d.seq d.prev = .ok () :=
      leaseCheckGenesis_eq_ok.mpr proper.genesis
    have add : unpack "add" (pack d.add) = .ok d.add := unpack_eq_ok.mpr ⟨rfl, proper.add⟩
    have remove : unpack "remove" (pack d.remove) = .ok d.remove :=
      unpack_eq_ok.mpr ⟨rfl, proper.remove⟩
    refine ⟨_, decodeFields_of_encodeFields (except_mapError_eq_ok.mp encoded), rfl, ?_⟩
    simp only [Checked.lift_ok_bind, ensure_of, Checked.item_cons_zero, Checked.item_cons_succ,
      leaseCheckLen, proper.key, proper.sig, numbers, prev, genesis, add, remove, u64OfLe_u64Le,
      Checked.pure_eq]

/-- A proper delta is written. -/
theorem encodes {d : LeaseDelta} (proper : d.Proper) : ∃ bytes, d.encode = .ok bytes := by
  -- Each field fits its frame.
  have add : (pack d.add).length ≤ 4294967295 := proper.addFits
  have remove : (pack d.remove).length ≤ 4294967295 := proper.removeFits
  have fits : FieldsFit [d.holderPk, u64Le d.epoch, u64Le d.seq, pack d.add, pack d.remove,
      d.prev.bytes, d.sig] := by
    simp [FieldsFit, FixedBytes.size, proper.key, proper.sig, verifyingKeyLen,
      signatureLen, maxField]
    exact ⟨add, remove⟩
  exact ⟨_, except_mapError_eq_ok.mpr (encodeFields_ok fits)⟩

/-- A delta of leases has one encoding. -/
theorem format_canonical : format.Canonical Proper :=
  Codec.canonical_of_iff decode_total (fun _ _ => decode_eq_ok) fun _ => encodes

end LeaseDelta

namespace LeaseCheckpoint

/-- A checkpoint that can be sent: widths and the genesis rule. -/
structure Proper (c : LeaseCheckpoint) : Prop where
  key : c.holderPk.length = verifyingKeyLen
  sig : c.sig.length = signatureLen
  genesis : c.seq = 0 ↔ c.prev = Digest.zero

/-- The stored form of a checkpoint. -/
def format : Codec LeaseError LeaseCheckpoint := ⟨encode, decode⟩

/-- No index of the decoder lies outside the fields. -/
theorem decode_total (bytes : Bytes) : (decode bytes).Total := by
  -- The count of fields was checked, so none of the seven is missing.
  refine Checked.total_of_fields (fun f counted => ?_) bytes
  obtain ⟨a, b, c, d, e, g, h, rfl⟩ := length_eq_seven counted
  simp only [Checked.item_cons_zero, Checked.item_cons_succ, Checked.lift_ok_bind, Checked.pure_eq]
  repeat refine Checked.total_bind (Checked.total_lift _) fun _ _ => ?_
  exact Checked.total_lift _

/-- Exactly the encodings of proper checkpoints are accepted. -/
theorem decode_eq_ok {bytes : Bytes} {c : LeaseCheckpoint} :
    decode bytes = lift (.ok c) ↔ c.Proper ∧ c.encode = .ok bytes := by
  -- Each of the seven fields is checked on reading, and written as it was read.
  rw [decode, Checked.of_fields_eq_ok]
  constructor
  · intro decoded
    obtain ⟨f, split, counted, decoded⟩ := decoded
    obtain ⟨holderPk, epoch, seq, root, count, prev, sig, rfl⟩ := length_eq_seven counted
    simp only [Checked.bind_eq_ok, Checked.item_cons_zero, Checked.item_cons_succ, Checked.lift_inj,
      Except.ok.injEq, Checked.pure_eq, exists_eq_left', leaseCheckLen_eq_ok, leaseFixed_eq_ok,
      leaseCheckGenesis_eq_ok] at decoded
    obtain ⟨_, key, _, width, place, rfl, before, rfl, _, genesis, time, rfl, tree, rfl, size, rfl,
      rfl⟩ := decoded
    refine ⟨⟨key, width, genesis⟩, ?_⟩
    rw [encode, except_mapError_eq_ok, u64Le_u64OfLe_fixed, u64Le_u64OfLe_fixed,
      u64Le_u64OfLe_fixed]
    exact encodeFields_of_decodeFields split
  · intro encoded
    obtain ⟨proper, encoded⟩ := encoded
    have numbers (field : String) (n : UInt64) :
        leaseFixed 8 field (u64Le n) = .ok ⟨u64Le n, u64Le_length n⟩ :=
      fixedField_of_length _ _ _
    have arrays (field : String) (a : Digest) : leaseFixed 32 field a.bytes = .ok a :=
      leaseFixed_eq_ok.mpr rfl
    have genesis : leaseCheckGenesis c.seq c.prev = .ok () :=
      leaseCheckGenesis_eq_ok.mpr proper.genesis
    refine ⟨_, decodeFields_of_encodeFields (except_mapError_eq_ok.mp encoded), rfl, ?_⟩
    simp only [Checked.lift_ok_bind, ensure_of, Checked.item_cons_zero, Checked.item_cons_succ,
      leaseCheckLen, proper.key, proper.sig, numbers, arrays, genesis, u64OfLe_u64Le,
      Checked.pure_eq]

/-- A proper checkpoint is written. -/
theorem encodes {c : LeaseCheckpoint} (proper : c.Proper) : ∃ bytes, c.encode = .ok bytes := by
  -- No field is longer than a field may be.
  have fits : FieldsFit [c.holderPk, u64Le c.epoch, u64Le c.seq, c.root.bytes, u64Le c.count,
      c.prev.bytes, c.sig] := by
    simp [FieldsFit, FixedBytes.size, proper.key, proper.sig, verifyingKeyLen,
      signatureLen, maxField]
  exact ⟨_, except_mapError_eq_ok.mpr (encodeFields_ok fits)⟩

/-- A checkpoint of leases has one encoding. -/
theorem format_canonical : format.Canonical Proper :=
  Codec.canonical_of_iff decode_total (fun _ _ => decode_eq_ok) fun _ => encodes

end LeaseCheckpoint

end NasTools
