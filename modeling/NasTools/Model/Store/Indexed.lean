import NasTools.Lib.Packed
import NasTools.Model.Store.Bucket
import NasTools.Model.Store.Git

/-!
Stored tables read index by index: no index lies outside its list, and no sum of lengths overflows.
-/

namespace NasTools

open Checked (lift item panics expect)

namespace Checked

variable {E A : Type}

/-- An array copied out of a byte string, which has to hold all of it. -/
def array (width : Nat) (data : Bytes) (start : Nat) : Checked E (FixedBytes width) :=
  expect (FixedBytes.ofBytes? width ((data.drop start).take width))

/-- The sum of some numbers, where counting past 64 bits is a panic. -/
def sumFrom : UInt64 → List UInt64 → Checked E UInt64
  | total, [] => pure total
  | total, n :: rest => if total.toNat + n.toNat < 2 ^ 64 then sumFrom (total + n) rest else panics

/-- An index is found where the list goes on, and the rest of the list behind it. -/
theorem item_of_drop {list : List A} {i : Nat} {a : A} {rest : List A}
    (shape : list.drop i = a :: rest) :
    (item list i : Checked E A) = lift (.ok a) ∧ list.drop (i + 1) = rest := by
  -- What is left behind a place starts with the item there.
  have found : list[i]? = some a := by
    rw [← List.head?_drop, shape]
    rfl
  refine ⟨by rw [item, found, expect_some], ?_⟩
  rw [← List.drop_drop, shape]
  rfl

/-- An array that lies inside a byte string is copied. -/
theorem array_eq {width start : Nat} {data : Bytes}
    (inside : ((data.drop start).take width).length = width) :
    (array width data start : Checked E _) = lift (.ok ⟨(data.drop start).take width, inside⟩) := by
  rw [array, FixedBytes.ofBytes?, dif_pos inside, expect_some]

/-- A sum that fits 64 bits is made. -/
theorem sumFrom_eq {total : UInt64} {list : List UInt64}
    (room : total.toNat + (list.map UInt64.toNat).sum < 2 ^ 64) :
    (sumFrom total list : Checked E UInt64) = lift (.ok (total + list.sum)) := by
  -- No partial sum is greater than the whole one.
  induction list generalizing total with
  | nil => simp [sumFrom]
  | cons n rest ih =>
    rw [List.map_cons, List.sum_cons] at room
    have next : (total + n).toNat = total.toNat + n.toNat := by
      rw [UInt64.toNat_add]
      exact Nat.mod_eq_of_lt (by omega)
    rw [sumFrom, if_pos (by omega), ih (by omega), List.sum_cons, UInt64.add_assoc]

end Checked

/-- Read one record of the chunk table, slice by slice. -/
def ChunkRef.decodeChecked (r : Bytes) : Checked ManifestError ChunkRef := do
  let addr ← Checked.array addrLen r 0
  let ck ← Checked.array keyLen r addrLen
  let ptHash ← Checked.array 32 r (addrLen + keyLen)
  -- The length is read from whatever the record ends in, which has to be four bytes.
  let len ← expect (FixedBytes.ofBytes? 4 (r.drop (chunkRecordLen - 4)))
  return ⟨addr, ck, ptHash, UInt32.ofNat (natOfLe len.bytes)⟩

/-- No slice of a whole record lies outside it. -/
theorem ChunkRef.decodeChecked_eq (r : FixedBytes chunkRecordLen) :
    ChunkRef.decodeChecked r.bytes = lift (.ok (ChunkRef.decode r)) := by
  -- A record has its full width, so every slice of it is there.
  have size : r.bytes.length = 100 := r.size
  have last : (r.bytes.drop (chunkRecordLen - 4)).length = 4 := by
    simp [size, chunkRecordLen, addrLen, keyLen]
  rw [decodeChecked, Checked.array_eq (by simp [size, addrLen]), Checked.lift_ok_bind,
    Checked.array_eq (by simp [size, addrLen, keyLen]), Checked.lift_ok_bind,
    Checked.array_eq (by simp [size, addrLen, keyLen]), Checked.lift_ok_bind, FixedBytes.ofBytes?,
    dif_pos last]
  rfl

/-- Whole records are read one after the other. -/
theorem decodeChunks_checked {count : Nat} {table : Bytes}
    (whole : table.length = chunkRecordLen * count) :
    (chunksExact chunkRecordLen table).mapM ChunkRef.decodeChecked =
      lift (.ok (decodeChunks count table)) := by
  -- A whole table starts with a whole record, and the rest is whole again.
  induction count generalizing table with
  | zero =>
    obtain rfl : table = [] := List.length_eq_zero_iff.mp (by rw [whole, Nat.mul_zero])
    rfl
  | succ count ih =>
    rw [Nat.mul_succ] at whole
    have long : chunkRecordLen ≤ table.length := by omega
    have first : (table.take chunkRecordLen).length = chunkRecordLen := by simp [long]
    have rest : (table.drop chunkRecordLen).length = chunkRecordLen * count := by
      rw [List.length_drop]
      omega
    have cut := chunksExact_append (by decide) first (table.drop chunkRecordLen)
    rw [List.take_append_drop] at cut
    rw [cut, List.mapM_cons, ih rest, ChunkRef.decodeChecked_eq ⟨_, first⟩, decodeChunks,
      dif_pos long]
    rfl

/-- Read a field that must be one of a few bytes, by its only index. -/
def manifestOneOfChecked {A : Type} (field : String) (known : UInt8 → Option A) (data : Bytes) :
    Checked ManifestError A := do
  let byte ← lift (fixedField ManifestError.badWidth 1 field data)
  let value ← item byte.bytes 0
  lift (okOr (known value) (.badDiscriminant field value))

/-- Reading one of the known bytes does not panic. -/
theorem manifestOneOfChecked_eq {A : Type} (field : String) (known : UInt8 → Option A)
    (data : Bytes) :
    manifestOneOfChecked field known data = lift (manifestOneOf field known data) := by
  simp only [manifestOneOfChecked, manifestOneOf, item_oneByte, Checked.lift_ok_bind,
    Checked.lift_bind]

namespace Manifest

/-- Refuse a manifest whose parts disagree; a sum of lengths past 64 bits is a panic. -/
def validateChecked (m : Manifest) : Checked ManifestError Unit := do
  lift (ensure (m.version = manifestVersion) (.unknownVersion m.version))
  let total ← Checked.sumFrom 0 (m.chunks.map fun c => c.len.toUInt64)
  lift (ensure (total = m.size) (.sizeMismatch m.size total))

/-- Read a manifest back, index by index. -/
def decodeChecked (bytes : Bytes) : Checked ManifestError Manifest := do
  let f ← (Checked.decodeFields bytes).mapError ManifestError.decode
  lift (ensure (f.length = 9) (.fieldCount 9 f.length))
  lift (ensure ((← item f 0) = manifestMagic) .badMagic)
  let version ← lift (fixedField ManifestError.badWidth 2 "version" (← item f 1))
  let version := UInt16.ofNat (natOfLe version.bytes)
  lift (ensure (version = manifestVersion) (.unknownVersion version))
  let keyScheme ← manifestOneOfChecked "key_scheme" KeyScheme.fromU8 (← item f 2)
  let paddingProfile ← manifestOneOfChecked "padding_profile" PaddingProfile.fromU8 (← item f 3)
  let kind ← manifestOneOfChecked "kind" Kind.fromU8 (← item f 4)
  let size ← lift (fixedField ManifestError.badWidth 8 "size" (← item f 6))
  let table ← item f 7
  lift (ensure (table.length % chunkRecordLen = 0) (.raggedChunkTable table.length))
  let chunks ← (chunksExact chunkRecordLen table).mapM ChunkRef.decodeChecked
  let m : Manifest := ⟨version, keyScheme, paddingProfile, kind, ← item f 5, u64OfLe size.bytes,
    chunks, ← item f 8⟩
  m.validateChecked
  return m

variable {m : Manifest}

/-- Lengths that add up to a 64-bit number are summed without a panic. -/
theorem validateChecked_eq (room : chunkLengths m.chunks < 2 ^ 64) :
    m.validateChecked = lift m.validate := by
  -- The lengths add up below the bound, so the sum does not overflow.
  have lengths :
      ((m.chunks.map fun c => c.len.toUInt64).map UInt64.toNat).sum = chunkLengths m.chunks := by
    rw [chunkLengths, List.map_map]
    rfl
  have summed :
    (Checked.sumFrom 0 (m.chunks.map fun c => c.len.toUInt64) : Checked ManifestError UInt64) =
      lift (.ok m.chunkBytes) := by
    rw [Checked.sumFrom_eq (by rw [lengths, UInt64.toNat_zero]; omega), UInt64.zero_add, chunkBytes]
  simp only [validateChecked, validate, summed, Checked.lift_ok_bind, Checked.lift_bind]

/--
No index of a manifest lies outside its list, and the lengths of its chunks add up
without an overflow.
-/
theorem decodeChecked_eq (bytes : Bytes) : decodeChecked bytes = lift (decode bytes) := by
  -- The fields are counted before they are indexed, and so are the bytes of the table.
  unfold decodeChecked decode
  rw [Checked.decodeFields_eq]
  cases split : decodeFields bytes with
  | error e => rfl
  | ok f =>
    obtain ⟨_, fits⟩ := framed_of_decodeFields split
    rcases f with
      _ | ⟨magic, _ | ⟨version, _ | ⟨scheme, _ | ⟨profile,
      _ | ⟨kind, _ | ⟨nameEnc, _ | ⟨size, _ | ⟨table, _ | ⟨meta_, _ | ⟨extra, rest⟩⟩⟩⟩⟩⟩⟩⟩⟩⟩
    case cons.cons.cons.cons.cons.cons.cons.cons.cons.nil =>
      have room :=
        chunkLengths_lt (Nat.le_trans (length_decodeChunks_le (table.length / chunkRecordLen) table)
        (Nat.le_trans (Nat.div_le_self _ _) (fits table (by simp))))
      -- Where the table is whole, its records are read.
      have read {next : List ChunkRef → Checked ManifestError Manifest}
        {next' : Checked ManifestError Manifest}
          (same : next (decodeChunks (table.length / chunkRecordLen) table) = next') :
          (do
            lift (ensure (table.length % chunkRecordLen = 0)
              (ManifestError.raggedChunkTable table.length))
            let chunks ← (chunksExact chunkRecordLen table).mapM ChunkRef.decodeChecked
            next chunks) =
          (do
            lift (ensure (table.length % chunkRecordLen = 0)
              (ManifestError.raggedChunkTable table.length))
            next') := by
        by_cases even : table.length % chunkRecordLen = 0
        · have whole := (Nat.mul_div_cancel' (Nat.dvd_of_mod_eq_zero even)).symm
          simp only [ensure_of even, Checked.lift_ok_bind, decodeChunks_checked whole, same]
        · rw [ensure_of_not even]
          rfl
      simp only [Checked.mapError_lift, except_mapError_ok, Checked.lift_ok_bind, List.length_cons,
        List.length_nil, ensure_of, Checked.item_cons_zero, Checked.item_cons_succ,
        manifestOneOfChecked_eq, Checked.lift_bind]
      -- The steps in front of the table are the same on both sides.
      refine bind_congr fun _ => bind_congr fun _ => bind_congr fun _ => bind_congr fun _ =>
        bind_congr fun _ =>
        bind_congr fun _ => bind_congr fun _ => read ?_
      rw [validateChecked_eq room]
      rfl
    -- Any other number of fields is refused before an index is used.
    all_goals simp

end Manifest

namespace BucketManifest

/-- Whether an entry is a tombstone, by the only index of its field. -/
def decodeDeletedChecked (mark : Bytes) : Checked BucketError Bool := do
  lift (ensure (mark.length = 1) (.nonCanonical "deleted field is not one byte"))
  match ← item mark 0 with
  | 0 => return false
  | 1 => return true
  | _ => lift (.error (.nonCanonical "deleted is not 0 or 1"))

/-- The object of an entry, present exactly when the entry is live. -/
def decodeObjectChecked (deleted : Bool) (body : Bytes) : Checked BucketError (Option Manifest) :=
  match deleted, body.isEmpty with
  | true, true => pure none
  | false, false => do
    let m ← (Manifest.decodeChecked body).mapError BucketError.manifest
    return some m
  | true, false => lift (.error (.nonCanonical "tombstone carries a chunk table"))
  | false, true => lift (.error (.nonCanonical "live key has no object"))

/--
Read entries from an index on, five fields at a time; rounds that run out never came to an end.
-/
def decodeEntriesFrom (f : List Bytes) :
    (rounds i : Nat) → (prev : Option Bytes) → OrdMap Bytes KeyObject →
    Checked BucketError (OrdMap Bytes KeyObject)
  | 0, _, _, _ => panics
  | rounds + 1, i, prev, entries =>
    if i + 4 < f.length then do
      let key ← item f i
      lift (safeKey key)
      lift (ensure (prev.all fun p => compare p key == .lt)
        (.nonCanonical "keys are not in ascending order"))
      let lamport ← lift (bucketFixed 8 "lamport" (← item f (i + 1)))
      let writerId ← lift (bucketFixed 32 "writer_id" (← item f (i + 2)))
      let deleted ← decodeDeletedChecked (← item f (i + 3))
      let object ← decodeObjectChecked deleted (← item f (i + 4))
      lift (ensure (¬entries.contains key) (.nonCanonical "duplicate key"))
      decodeEntriesFrom f rounds (i + 5) (some key) (entries.insert key ⟨u64OfLe lamport.bytes,
        writerId, object⟩)
    else pure entries

/-- Read a bucket back, index by index. -/
def decodeChecked (bytes : Bytes) : Checked BucketError BucketManifest := do
  let f ← (Checked.decodeFields bytes).mapError BucketError.decode
  lift (ensure (f.head? = some bucketMagic) .badMagic)
  lift (ensure (2 ≤ f.length) (.raggedEntries f.length))
  let version ← lift (bucketFixed 1 "version" (← item f 1))
  let value ← item version.bytes 0
  lift (ensure (value = bucketVersion) (.badVersion value))
  lift (ensure ((f.length - 2) % 5 = 0) (.raggedEntries (f.length - 2)))
  let entries ← decodeEntriesFrom f f.length 2 none ∅
  return ⟨entries⟩

/-- Reading the mark of a deletion does not panic. -/
theorem decodeDeletedChecked_eq (mark : Bytes) :
    decodeDeletedChecked mark = lift (decodeDeleted mark) := by
  -- The mark is looked at only where it is one byte wide.
  rcases mark with _ | ⟨byte, _ | ⟨other, rest⟩⟩
  case cons.nil =>
    simp only [decodeDeletedChecked, List.length_singleton, ensure_of, Checked.lift_ok_bind,
      Checked.item_cons_zero, decodeDeleted]
    split
    · rfl
    · rfl
    · split <;> simp_all
  -- A field that is not one byte wide is refused before its index is used.
  all_goals simp [decodeDeletedChecked, decodeDeleted]

/-- Reading an entry's object does not panic. -/
theorem decodeObjectChecked_eq (deleted : Bool) (body : Bytes) :
    decodeObjectChecked deleted body = lift (decodeObject deleted body) := by
  -- The two marks agree or the entry is refused; only a live one has a manifest to read.
  cases deleted
  · cases body with
    | nil => rfl
    | cons byte rest =>
      simp only [decodeObjectChecked, List.isEmpty_cons, decodeObject, Manifest.decodeChecked_eq,
        Checked.mapError_lift]
      cases Manifest.decode (byte :: rest) <;> rfl
  · cases body <;> rfl

/-- Five fields that are left are found by their indices. -/
theorem decodeEntriesFrom_step {f : List Bytes} {rounds i : Nat} {prev : Option Bytes}
    {entries : OrdMap Bytes KeyObject}
    (ih : ∀ prev entries, decodeEntriesFrom f rounds (i + 5) prev entries =
      lift (decodeEntries prev entries (f.drop (i + 5))))
    {key lamport writerId mark body : Bytes} {rest : List Bytes}
    (left : f.drop i = key :: lamport :: writerId :: mark :: body :: rest) :
    decodeEntriesFrom f (rounds + 1) i prev entries =
      lift (decodeEntries prev entries (f.drop i)) := by
  -- Five fields are left, so each of the five indices is in the list.
  obtain ⟨atKey, left'⟩ := Checked.item_of_drop (E := BucketError) left
  obtain ⟨atLamport, left'⟩ := Checked.item_of_drop (E := BucketError) left'
  obtain ⟨atWriter, left'⟩ := Checked.item_of_drop (E := BucketError) left'
  obtain ⟨atMark, left'⟩ := Checked.item_of_drop (E := BucketError) left'
  obtain ⟨atBody, left'⟩ := Checked.item_of_drop (E := BucketError) left'
  have inside : i + 4 < f.length := by
    have count := congrArg List.length left
    simp only [List.length_drop, List.length_cons] at count
    omega
  rw [decodeEntriesFrom, if_pos inside, left]
  simp only [atKey, atLamport, atWriter, atMark, atBody, Checked.lift_ok_bind,
    decodeDeletedChecked_eq, decodeObjectChecked_eq, ih, left', decodeEntries, Checked.lift_bind]

/-- With a round for every field the entries come to an end, and no index lies outside the list. -/
theorem decodeEntriesFrom_eq {f : List Bytes} {rounds i : Nat} (inside : i ≤ f.length)
    (enough : f.length < i + rounds) (prev : Option Bytes) (entries : OrdMap Bytes KeyObject) :
    decodeEntriesFrom f rounds i prev entries = lift (decodeEntries prev entries (f.drop i)) := by
  -- Each round takes five fields, and there is a round for every field.
  induction rounds generalizing i prev entries with
  | zero => omega
  | succ rounds ih =>
    by_cases more : i + 4 < f.length
    · have count : 5 ≤ (f.drop i).length := by
        rw [List.length_drop]
        omega
      match left : f.drop i, count with
      | key :: lamport :: writerId :: mark :: body :: rest, _ =>
        rw [← left]
        exact decodeEntriesFrom_step (ih (by omega) (by omega)) left
    · -- Fewer than five fields are left, and they are not looked at.
      rw [decodeEntriesFrom, if_neg more, decodeEntries]
      · rfl
      · intro key lamport writerId mark body rest left
        have count := congrArg List.length left
        simp only [List.length_drop, List.length_cons] at count
        omega

/-- No index of a bucket lies outside its list, and its entries come to an end. -/
theorem decodeChecked_eq (bytes : Bytes) : decodeChecked bytes = lift (decode bytes) := by
  -- With two fields or more the indices in front of the entries are in the list.
  unfold decodeChecked decode
  rw [Checked.decodeFields_eq]
  cases decodeFields bytes with
  | error e => rfl
  | ok f =>
    rcases f with _ | ⟨magic, _ | ⟨version, body⟩⟩
    · rfl
    · simp only [Checked.mapError_lift, except_mapError_ok, Checked.lift_ok_bind, List.head?_cons,
        Option.some.injEq, List.length_singleton, Checked.lift_bind]
      rfl
    · have loop := decodeEntriesFrom_eq (show 2 ≤ (magic :: version :: body).length by simp)
        (show (magic :: version :: body).length < 2 + (body.length + 2) by simp) none ∅
      simp only [Checked.mapError_lift, except_mapError_ok, Checked.lift_ok_bind, List.head?_cons,
        Option.some.injEq, List.length_cons, Nat.le_add_left, ensure_of, Checked.item_cons_zero,
        Checked.item_cons_succ, item_oneByte, Checked.lift_bind, loop, List.drop_succ_cons,
        List.drop_zero]
      rfl

end BucketManifest

namespace OidMap

/--
Read entries from an index on, four fields at a time; rounds that run out never came to an end.
-/
def decodeEntriesFrom (f : List Bytes) : (rounds i : Nat) → (prev : Option GitOid) → OidMap →
    Checked GitError OidMap
  | 0, _, _, _ => panics
  | rounds + 1, i, prev, entries =>
    if i + 3 < f.length then do
      let oid ← lift (gitFixed gitOidLen "oid" (← item f i))
      lift (ensure (prev.all fun p => compare p oid == .lt)
        (.nonCanonical "oids are not in ascending order"))
      let addr ← lift (gitFixed addrLen "addr" (← item f (i + 1)))
      let kind ← lift (gitFixed 1 "kind" (← item f (i + 2)))
      let value ← item kind.bytes 0
      let kind ← lift (okOr (GitKind.fromU8 value) (.badKind value))
      let size ← lift (gitFixed 4 "size" (← item f (i + 3)))
      lift (ensure (¬entries.contains oid) (.nonCanonical "duplicate oid"))
      decodeEntriesFrom f rounds (i + 4) (some oid)
        (entries.insert oid ⟨addr, kind, UInt32.ofNat (natOfLe size.bytes)⟩)
    else pure entries

/-- Read a map back, index by index. -/
def decodeChecked (bytes : Bytes) : Checked GitError OidMap := do
  let f ← (Checked.decodeFields bytes).mapError GitError.decode
  lift (ensure (f.head? = some gitMagic) .badMagic)
  lift (ensure (2 ≤ f.length) (.ragged f.length))
  let version ← lift (gitFixed 1 "version" (← item f 1))
  let value ← item version.bytes 0
  lift (ensure (value = gitVersion) (.badVersion value))
  lift (ensure ((f.length - 2) % 4 = 0) (.ragged (f.length - 2)))
  decodeEntriesFrom f f.length 2 none ∅

/-- Four fields that are left are found by their indices. -/
theorem decodeEntriesFrom_step {f : List Bytes} {rounds i : Nat} {prev : Option GitOid}
    {entries : OidMap} (ih : ∀ prev entries, decodeEntriesFrom f rounds (i + 4) prev entries =
      lift (decodeEntries prev entries (f.drop (i + 4))))
    {oid addr kind size : Bytes} {rest : List Bytes}
    (left : f.drop i = oid :: addr :: kind :: size :: rest) :
    decodeEntriesFrom f (rounds + 1) i prev entries =
      lift (decodeEntries prev entries (f.drop i)) := by
  -- Four fields are left, so each of the four indices is in the list.
  obtain ⟨atOid, left'⟩ := Checked.item_of_drop (E := GitError) left
  obtain ⟨atAddr, left'⟩ := Checked.item_of_drop (E := GitError) left'
  obtain ⟨atKind, left'⟩ := Checked.item_of_drop (E := GitError) left'
  obtain ⟨atSize, left'⟩ := Checked.item_of_drop (E := GitError) left'
  have inside : i + 3 < f.length := by
    have count := congrArg List.length left
    simp only [List.length_drop, List.length_cons] at count
    omega
  rw [decodeEntriesFrom, if_pos inside, left]
  simp only [atOid, atAddr, atKind, atSize, Checked.lift_ok_bind, item_oneByte, ih, left',
    decodeEntries, Checked.lift_bind]

/-- With a round for every field the entries come to an end, and no index lies outside the list. -/
theorem decodeEntriesFrom_eq {f : List Bytes} {rounds i : Nat} (inside : i ≤ f.length)
    (enough : f.length < i + rounds) (prev : Option GitOid) (entries : OidMap) :
    decodeEntriesFrom f rounds i prev entries = lift (decodeEntries prev entries (f.drop i)) := by
  -- Each round takes four fields, and there is a round for every field.
  induction rounds generalizing i prev entries with
  | zero => omega
  | succ rounds ih =>
    by_cases more : i + 3 < f.length
    · have count : 4 ≤ (f.drop i).length := by
        rw [List.length_drop]
        omega
      match left : f.drop i, count with
      | oid :: addr :: kind :: size :: rest, _ =>
        rw [← left]
        exact decodeEntriesFrom_step (ih (by omega) (by omega)) left
    · -- Fewer than four fields are left, and they are not looked at.
      rw [decodeEntriesFrom, if_neg more, decodeEntries]
      · rfl
      · intro oid addr kind size rest left
        have count := congrArg List.length left
        simp only [List.length_drop, List.length_cons] at count
        omega

/-- No index of a map lies outside its list, and its entries come to an end. -/
theorem decodeChecked_eq (bytes : Bytes) : decodeChecked bytes = lift (decode bytes) := by
  -- With two fields or more the indices in front of the entries are in the list.
  unfold decodeChecked decode
  rw [Checked.decodeFields_eq]
  cases decodeFields bytes with
  | error e => rfl
  | ok f =>
    rcases f with _ | ⟨magic, _ | ⟨version, body⟩⟩
    · rfl
    · simp only [Checked.mapError_lift, except_mapError_ok, Checked.lift_ok_bind, List.head?_cons,
        Option.some.injEq, List.length_singleton, Checked.lift_bind]
      rfl
    · have loop := decodeEntriesFrom_eq (show 2 ≤ (magic :: version :: body).length by simp)
        (show (magic :: version :: body).length < 2 + (body.length + 2) by simp) none ∅
      simp only [Checked.mapError_lift, except_mapError_ok, Checked.lift_ok_bind, List.head?_cons,
        Option.some.injEq, List.length_cons, Nat.le_add_left, ensure_of, Checked.item_cons_zero,
        Checked.item_cons_succ, item_oneByte, Checked.lift_bind, loop, List.drop_succ_cons,
        List.drop_zero]
      rfl

end OidMap

end NasTools
