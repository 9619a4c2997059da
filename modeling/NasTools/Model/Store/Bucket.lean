import NasTools.Lib.Latest
import NasTools.Model.Store.Blobs
import NasTools.Model.Store.Manifest
import NasTools.Model.Store.Root

/-! Bucket manifests: the map from keys to objects, each version of which a clock orders. -/

namespace NasTools

/-- One key's current version: when it was written, by whom, and what it holds. -/
structure KeyObject where
  lamport : UInt64
  writerId : Digest
  -- Nothing is a tombstone; a live key carries its chunk table.
  object : Option Manifest
deriving DecidableEq

namespace KeyObject

/-- Whether an entry is a tombstone. -/
def deleted (e : KeyObject) : Bool := e.object.isNone

/-- The later clock wins, and between equal clocks the greater writer. -/
def beats (a b : KeyObject) : Bool :=
  b.lamport < a.lamport || (a.lamport == b.lamport && compare b.writerId a.writerId == .lt)

/-- Winning is transitive. -/
theorem beats_trans (a b c : KeyObject) (first : a.beats b) (second : b.beats c) : a.beats c := by
  -- The clock decides, and on equal clocks the writer.
  simp only [beats, Bool.or_eq_true, Bool.and_eq_true, decide_eq_true_eq, beq_iff_eq] at *
  rcases first with first | ⟨clock, writer⟩
  · rcases second with second | ⟨clock, _⟩
    · exact .inl (UInt64.lt_trans second first)
    · exact .inl (by rw [← clock]; exact first)
  · rcases second with second | ⟨clock', writer'⟩
    · exact .inl (by rw [clock]; exact second)
    · exact .inr ⟨clock.trans clock', Std.TransCmp.lt_trans writer' writer⟩

/-- A later clock wins. -/
theorem beats_of_lt {a b : KeyObject} (later : b.lamport.toNat < a.lamport.toNat) : a.beats b := by
  simp [beats, UInt64.lt_iff_toNat_lt, later]

/-- Nothing wins against itself. -/
theorem beats_irrefl (a : KeyObject) : a.beats a = false := by
  simp [beats]

end KeyObject

/-- A bucket: its keys with their versions. -/
structure BucketManifest where
  entries : OrdMap Bytes KeyObject

instance : DecidableEq BucketManifest := fun a b =>
  decidable_of_iff (a.entries.toList = b.entries.toList) (by
    rw [Std.ExtTreeMap.toList_inj]
    cases a
    cases b
    simp)

/-- Why a bucket is refused. -/
inductive BucketError where
  | store (source : StoreError)
  | manifest (source : ManifestError)
  | crypto (text : String)
  | decode (source : DecodeError)
  | badMagic
  | badVersion (value : UInt8)
  | badWidth (field : String) (want got : Nat)
  | raggedEntries (fields : Nat)
  | badKey (reason : String)
  | nonCanonical (reason : String)
deriving DecidableEq

/-- The text a bucket error prints. -/
def BucketError.display : BucketError → String
  | .store e => e.display
  | .manifest e => e.display
  | .crypto text => text
  | .decode e => "encoding: " ++ e.debug
  | .badMagic => "not a bucket manifest"
  | .badVersion value => "bucket manifest version " ++ toString value
  | .badWidth field want got =>
    "bucket " ++ field ++ " is " ++ toString got ++ " B, want " ++ toString want ++ " B"
  | .raggedEntries fields => toString fields ++ " bucket fields is not a multiple of 5"
  | .badKey reason => "refusing bucket key: " ++ reason
  | .nonCanonical reason => "non-canonical bucket: " ++ reason

/-- What a bucket manifest starts with. -/
def bucketMagic : Bytes := asciiBytes "NASB"

/-- What a sealed bucket is bound to. -/
def bucketAad : Bytes := asciiBytes "nas-tools/aad/bucket/v1"

/-- The version byte of the encoding. -/
def bucketVersion : UInt8 := 1

/-- A key is not empty and has no zero byte in it. -/
def safeKey (key : Bytes) : Except BucketError Unit := do
  ensure (key ≠ []) (.badKey "empty")
  ensure (0 ∉ key) (.badKey "contains NUL")

namespace BucketManifest

/-- A bucket with nothing in it. -/
def empty : BucketManifest := ⟨∅⟩

/-- The version of a key. -/
def get (b : BucketManifest) (key : Bytes) : Option KeyObject := b.entries[key]?

/-- The object of a key that is not a tombstone. -/
def live (b : BucketManifest) (key : Bytes) : Option Manifest := (b.get key).bind KeyObject.object

/-- Set the version of a key. -/
def put (b : BucketManifest) (key : Bytes) (object : KeyObject) :
    Except BucketError BucketManifest := do
  safeKey key
  return ⟨b.entries.insert key object⟩

/-- One past the clock of what is there, or one. -/
def nextLamport (b : BucketManifest) (key : Bytes) : UInt64 :=
  ((b.get key).map fun e => satAdd e.lamport 1).getD 1

/-- Key by key, the version that wins. -/
def merge (a b : BucketManifest) : BucketManifest :=
  ⟨Latest.merge KeyObject.beats a.entries b.entries⟩

/-- Everything the older bucket holds is in the newer one, or is beaten there. -/
def Covers (newer older : BucketManifest) : Prop :=
  Latest.Covers KeyObject.beats newer.entries older.entries

instance (newer older : BucketManifest) : Decidable (Covers newer older) :=
  inferInstanceAs (Decidable (Latest.Covers _ _ _))

/-- A bucket covers itself. -/
theorem Covers.refl (b : BucketManifest) : Covers b b := Latest.Covers.refl _

/-- Covering is transitive. -/
theorem Covers.trans {a b c : BucketManifest} (upper : Covers a b)
    (lower : Covers b c) : Covers a c :=
  Latest.Covers.trans KeyObject.beats_trans upper lower

/-- A merge covers what it was merged into. -/
theorem merge_covers (a b : BucketManifest) : Covers (merge a b) a :=
  Latest.merge_covers KeyObject.beats_trans a.entries b.entries

/-- A bucket has taken another into account when merging that one into it changes nothing. -/
def Absorbs (a b : BucketManifest) : Prop := Latest.Absorbs KeyObject.beats a.entries b.entries

instance (a b : BucketManifest) : Decidable (Absorbs a b) :=
  decidable_of_iff ((merge a b).entries.toList = a.entries.toList) Std.ExtTreeMap.toList_inj

/-- A merge absorbs what was merged in. -/
theorem absorbs_merge_right (a b : BucketManifest) : (merge a b).Absorbs b :=
  Latest.absorbs_merge_right KeyObject.beats_irrefl a.entries b.entries

/-- What was absorbed stays so after another merge. -/
theorem absorbs_merge_left {a b : BucketManifest} (absorbed : a.Absorbs b) (c : BucketManifest) :
    (merge a c).Absorbs b :=
  Latest.absorbs_merge_left KeyObject.beats_irrefl KeyObject.beats_trans absorbed c.entries

/-- The stored form of the object under a key; a tombstone has none. -/
def encodeObject : Option Manifest → Except BucketError Bytes
  | none => .ok []
  | some m => m.encode.mapError .manifest

/-- The five fields of one entry. -/
def entryFields (entry : Bytes × KeyObject) : Except BucketError (List Bytes) := do
  safeKey entry.1
  let body ← encodeObject entry.2.object
  return [entry.1, u64Le entry.2.lamport, entry.2.writerId.bytes,
    [if entry.2.deleted then 1 else 0], body]

/-- The bucket as it is stored, before it is sealed. -/
def encode (b : BucketManifest) : Except BucketError Bytes := do
  let groups ← b.entries.toList.mapM entryFields
  (encodeFields (bucketMagic :: [bucketVersion] :: groups.flatten)).mapError .decode

/-- Read a field of an expected width. -/
def bucketFixed (width : Nat) (field : String) (data : Bytes) :
    Except BucketError (FixedBytes width) :=
  fixedField .badWidth width field data

/-- Whether an entry is a tombstone, read from its field. -/
def decodeDeleted (data : Bytes) : Except BucketError Bool :=
  match data with
  | [0] => .ok false
  | [1] => .ok true
  | [_] => .error (.nonCanonical "deleted is not 0 or 1")
  | _ => .error (.nonCanonical "deleted field is not one byte")

/-- The object of an entry, present exactly when the entry is live. -/
def decodeObject (deleted : Bool) (body : Bytes) : Except BucketError (Option Manifest) :=
  match deleted, body with
  | true, [] => .ok none
  | false, [] => .error (.nonCanonical "live key has no object")
  | true, _ :: _ => .error (.nonCanonical "tombstone carries a chunk table")
  | false, body => ((Manifest.decode body).mapError .manifest).map some

/-- Read entries five fields at a time, each key above the one before it. -/
def decodeEntries : (prev : Option Bytes) → OrdMap Bytes KeyObject → List Bytes →
    Except BucketError (OrdMap Bytes KeyObject)
  | prev, entries, key :: lamport :: writerId :: deleted :: body :: rest => do
    safeKey key
    ensure (prev.all fun p => compare p key == .lt)
      (.nonCanonical "keys are not in ascending order")
    let lamport ← bucketFixed 8 "lamport" lamport
    let writerId ← bucketFixed 32 "writer_id" writerId
    let deleted ← decodeDeleted deleted
    let object ← decodeObject deleted body
    ensure (¬entries.contains key) (.nonCanonical "duplicate key")
    decodeEntries (some key) (entries.insert key ⟨u64OfLe lamport.bytes, writerId, object⟩) rest
  | _, entries, _ => .ok entries

/-- Read a bucket back. -/
def decode (bytes : Bytes) : Except BucketError BucketManifest :=
  match decodeFields bytes with
  | .error e => .error (.decode e)
  | .ok fields =>
    match fields with
    | [] => .error .badMagic
    | magic :: rest => do
      ensure (magic = bucketMagic) .badMagic
      match rest with
      | [] => .error (.raggedEntries 1)
      | version :: body => do
        let version ← bucketFixed 1 "version" version
        let value := version.bytes.headD 0
        ensure (value = bucketVersion) (.badVersion value)
        ensure (body.length % 5 = 0) (.raggedEntries body.length)
        let entries ← decodeEntries none ∅ body
        return ⟨entries⟩

/-- The parts of every live object agree with each other. -/
def Valid (b : BucketManifest) : Prop :=
  ∀ (key : Bytes) (e : KeyObject), b.get key = some e → ∀ m, e.object = some m → m.validate = .ok ()

/-- An empty bucket is valid. -/
theorem valid_empty : empty.Valid := by
  intro key e found
  simp [get, empty] at found

/-- Merging valid buckets gives a valid bucket. -/
theorem valid_merge {a b : BucketManifest} (first : a.Valid) (second : b.Valid) :
    (merge a b).Valid := by
  intro key e found
  rcases Latest.merge_from found with inA | inB
  · exact first key e inA
  · exact second key e inB

/-- The object of a valid entry reads back. -/
theorem decodeObject_encode {object : Option Manifest} {body : Bytes}
    (encoded : encodeObject object = .ok body)
    (valid : ∀ m, object = some m → m.validate = .ok ()) :
    decodeObject object.isNone body = .ok object := by
  -- There is no object, or its manifest is read back.
  cases object with
  | none =>
    obtain rfl : [] = body := Except.ok.inj encoded
    rfl
  | some m =>
    simp only [encodeObject, except_mapError_eq_ok] at encoded
    have decoded := Manifest.decode_encode (valid m rfl) encoded
    -- The stored form starts with its magic, so it is not empty.
    cases body with
    | nil => simp [Manifest.decode, decodeFields, decodeFieldsUpTo] at decoded
    | cons byte rest => simp [decodeObject, decoded, Except.map]

/-- The field that marks a tombstone reads back. -/
theorem decodeDeleted_mark (deleted : Bool) :
    decodeDeleted [if deleted then 1 else 0] = .ok deleted := by
  cases deleted <;> rfl

/-- Entries in the order of their keys read back one after the other. -/
theorem decodeEntries_encode {list : List (Bytes × KeyObject)} {groups : List (List Bytes)}
    (encoded : list.mapM entryFields = .ok groups)
    (valid : ∀ entry ∈ list, ∀ m, entry.2.object = some m → m.validate = .ok ())
    (sorted : list.Pairwise fun a b => compare a.1 b.1 = .lt) (prev : Option Bytes)
    (entries : OrdMap Bytes KeyObject) (upTo : OrdMap.ReadUpTo entries prev)
    (after : ∀ entry ∈ list, prev.all (fun p => compare p entry.1 == .lt) = true) :
    ∃ result, decodeEntries prev entries groups.flatten = .ok result ∧
      result.toList = entries.toList ++ list := by
  -- What was read so far grows at the end, so it stays quantified over.
  induction list generalizing groups prev entries with
  | nil =>
    obtain rfl : [] = groups := by simpa using encoded
    exact ⟨entries, rfl, by simp⟩
  | cons entry rest ih =>
    obtain ⟨key, e⟩ := entry
    simp only [List.mapM_cons, except_bind_eq_ok, except_pure_eq, Except.ok.injEq] at encoded
    obtain ⟨first, here, others, later, rfl⟩ := encoded
    simp only [entryFields, except_bind_eq_ok, except_pure_eq, Except.ok.injEq] at here
    obtain ⟨_, safe, body, object, rfl⟩ := here
    have sortedRest := (List.pairwise_cons.mp sorted).2
    have below := (List.pairwise_cons.mp sorted).1
    have read : decodeObject e.deleted body = .ok e.object :=
      decodeObject_encode object (valid (key, e) (by simp))
    have ascending := after (key, e) List.mem_cons_self
    have top := upTo.below ascending
    have fresh := OrdMap.not_contains_of_below top
    -- The new entry goes on top, and everything after it goes above that.
    obtain ⟨result, decoded, listed⟩ :=
      ih later (fun x member => valid x (by simp [member])) sortedRest
      (some key) (entries.insert key e) (OrdMap.readUpTo_insert top)
        (fun x member => by simpa using below x member)
    refine ⟨result, ?_, ?_⟩
    · simp only [List.flatten_cons, List.cons_append, List.nil_append, decodeEntries, safe,
        except_ok_bind, ensure_of ascending, bucketFixed,
        fixedField_of_length _ _ (u64Le_length e.lamport), fixedField_bytes, decodeDeleted_mark,
        read, ensure_of fresh, u64OfLe_u64Le]
      exact decoded
    · rw [listed, OrdMap.toList_insert_top top, List.append_assoc]
      rfl

/-- Five fields for every entry. -/
theorem groups_length {list : List (Bytes × KeyObject)} {groups : List (List Bytes)}
    (encoded : list.mapM entryFields = .ok groups) : groups.flatten.length % 5 = 0 := by
  -- Every entry is written as five fields.
  induction list generalizing groups with
  | nil =>
    obtain rfl : [] = groups := by simpa using encoded
    rfl
  | cons entry rest ih =>
    simp only [List.mapM_cons, except_bind_eq_ok, except_pure_eq, Except.ok.injEq] at encoded
    obtain ⟨first, here, others, later, rfl⟩ := encoded
    simp only [entryFields, except_bind_eq_ok, except_pure_eq, Except.ok.injEq] at here
    obtain ⟨_, _, body, _, rfl⟩ := here
    have even := ih later
    simp only [List.flatten_cons, List.length_append, List.length_cons, List.length_nil]
    omega

/-- A valid bucket reads back from its stored form. -/
theorem decode_encode {b : BucketManifest} {bytes : Bytes} (valid : b.Valid)
    (encoded : b.encode = .ok bytes) : decode bytes = .ok b := by
  -- The fields are read back entry by entry.
  simp only [encode, except_bind_eq_ok, except_mapError_eq_ok] at encoded
  obtain ⟨groups, mapped, framed⟩ := encoded
  have fits := fits_of_encodeFields framed
  rw [encodeFields_ok fits, Except.ok.injEq] at framed
  subst framed
  obtain ⟨result, decoded, listed⟩ := decodeEntries_encode mapped
    (by
      intro entry member
      exact valid entry.1 entry.2 (Std.ExtTreeMap.mem_toList_iff_getElem?_eq_some.mp member))
    Std.ExtTreeMap.ordered_keys_toList none ∅ OrdMap.readUpTo_empty (fun _ _ => rfl)
  -- The entries read are those listed, and a map is determined by its listing.
  rw [OrdMap.toList_empty, List.nil_append] at listed
  obtain rfl : result = b.entries := Std.ExtTreeMap.toList_inj.mp listed
  have width : [bucketVersion].length = 1 := rfl
  simp only [decode, decodeFields_framed fits, ensure_of, except_ok_bind, bucketFixed,
    fixedField_of_length _ _ width, List.headD_cons, ensure_of (groups_length mapped), decoded,
    except_pure_eq]

/-- What reads back from the stored form of an object is that object. -/
theorem eq_of_decodeObject_encode {object found : Option Manifest} {body : Bytes}
    (encoded : encodeObject object = .ok body)
    (decoded : decodeObject object.isNone body = .ok found) :
    found = object := by
  -- A deletion has an empty body, and an object is read back from its manifest.
  cases object with
  | none =>
    obtain rfl : [] = body := Except.ok.inj encoded
    exact (Except.ok.inj decoded).symm
  | some m =>
    simp only [encodeObject, except_mapError_eq_ok] at encoded
    cases body with
    | nil => cases decoded
    | cons byte rest =>
      simp only [Option.isNone_some, decodeObject] at decoded
      cases read : Manifest.decode (byte :: rest) with
      | error e => simp [read, Except.map, Except.mapError] at decoded
      | ok m' =>
        simp only [read, except_mapError_ok, Except.map, Except.ok.injEq] at decoded
        rw [← decoded, Manifest.eq_of_decode_encode encoded read]

/-- An object that was read is one whose parts agree. -/
theorem valid_of_decodeObject {deleted : Bool} {body : Bytes} {object : Option Manifest}
    (decoded : decodeObject deleted body = .ok object) :
    ∀ m, object = some m → m.validate = .ok () := by
  -- An object is only read from a valid manifest.
  intro m is
  subst is
  unfold decodeObject at decoded
  split at decoded
  · cases decoded
  · cases decoded
  · cases decoded
  · cases read : Manifest.decode body with
    | error e => simp [read, Except.map] at decoded
    | ok m' =>
      simp only [read, except_mapError_ok, Except.map, Except.ok.injEq, Option.some.injEq]
        at decoded
      subst decoded
      exact Manifest.valid_of_decode read

/-- Entries that were read are valid where those before them are. -/
theorem valid_of_decodeEntries {fields : List Bytes} {prev : Option Bytes}
    {entries result : OrdMap Bytes KeyObject} (start : Valid ⟨entries⟩)
    (decoded : decodeEntries prev entries fields = .ok result) : Valid ⟨result⟩ := by
  -- Along the reader's own cases.
  fun_induction decodeEntries prev entries fields with
  | case1 prev entries key lamport writerId deleted body rest ih =>
    simp only [except_bind_eq_ok] at decoded
    obtain ⟨_, _, _, _, clock, _, writer, _, mark, _, object, read, _, _, later⟩ := decoded
    refine ih _ _ _ ?_ later
    -- The entry just read is valid, and it hides at most one that was there.
    intro other e found
    simp only [get, Std.ExtTreeMap.getElem?_insert] at found
    split at found
    · obtain rfl := Option.some.inj found
      exact valid_of_decodeObject read
    · exact start other e found
  | case2 prev entries fields _ =>
    obtain rfl := Except.ok.inj decoded
    exact start

/-- The mark of a tombstone is the byte it was read from. -/
theorem mark_of_decodeDeleted {data : Bytes} {deleted : Bool}
    (decoded : decodeDeleted data = .ok deleted) :
    data = [if deleted then 1 else 0] := by
  -- Only the bytes zero and one are accepted.
  unfold decodeDeleted at decoded
  split at decoded
  · obtain rfl := Except.ok.inj decoded
    rfl
  · obtain rfl := Except.ok.inj decoded
    rfl
  · cases decoded
  · cases decoded

/-- An object that was read is written again as it was, and is missing exactly from a tombstone. -/
theorem encodeObject_of_decode {deleted : Bool} {body : Bytes} {object : Option Manifest}
    (decoded : decodeObject deleted body = .ok object) :
    deleted = object.isNone ∧ encodeObject object = .ok body := by
  -- A body is read as what it is written for.
  unfold decodeObject at decoded
  split at decoded
  · obtain rfl := Except.ok.inj decoded
    exact ⟨rfl, rfl⟩
  · cases decoded
  · cases decoded
  · cases read : Manifest.decode body with
    | error e => simp [read, Except.map] at decoded
    | ok m =>
      simp only [read, except_mapError_ok, Except.map, Except.ok.injEq] at decoded
      subst decoded
      exact ⟨rfl, by rw [encodeObject, Manifest.encode_of_decode read, except_mapError_ok]⟩

/-- Entries that were read are written again as they were. -/
theorem encode_of_decodeEntries {prev : Option Bytes} {entries result : OrdMap Bytes KeyObject}
    {fields : List Bytes} (read : OrdMap.ReadUpTo entries prev) (whole : fields.length % 5 = 0)
    (decoded : decodeEntries prev entries fields = .ok result) :
    ∃ list groups, list.mapM entryFields = .ok groups ∧ groups.flatten = fields ∧
      result.toList = entries.toList ++ list := by
  -- Along the reader's own cases.
  induction prev, entries, fields using decodeEntries.induct with
  | case1 prev entries key lamport writerId deleted body rest ih =>
    simp only [decodeEntries, except_bind_eq_ok, ensure_eq_ok, bucketFixed, fixedField_eq_ok]
      at decoded
    obtain ⟨_, safe, _, ascending, clock, rfl, writer, rfl, mark, isMark, object, isObject, _, _,
      decoded⟩ := decoded
    have below := read.below ascending
    have shorter : rest.length % 5 = 0 := by
      simp only [List.length_cons] at whole
      omega
    obtain ⟨list, groups, later, rfl, listed⟩ :=
      ih _ _ _ (OrdMap.readUpTo_insert below) shorter decoded
    obtain ⟨rfl, written⟩ := encodeObject_of_decode isObject
    obtain rfl := mark_of_decodeDeleted isMark
    -- The entry just read is written in front of those behind it.
    have here : entryFields (key, ⟨u64OfLe clock.bytes, writer, object⟩) =
        .ok [key, clock.bytes, writer.bytes, [if object.isNone then 1 else 0], body] := by
      simp only [entryFields, safe, except_ok_bind, written, except_pure_eq, u64Le_u64OfLe_fixed]
      rfl
    refine ⟨(key, ⟨u64OfLe clock.bytes, writer, object⟩) :: list,
      [key, clock.bytes, writer.bytes, [if object.isNone then 1 else 0], body] :: groups,
      ?_, rfl, ?_⟩
    · rw [List.mapM_cons, here, later]
      rfl
    · rw [listed, OrdMap.toList_insert_top below, List.append_assoc]
      rfl
  | case2 fields prev entries few =>
    rw [decodeEntries] at decoded
    · -- Fewer than five fields that are a multiple of five are none.
      obtain rfl := Except.ok.inj decoded
      rcases fields with _ | ⟨a, _ | ⟨b, _ | ⟨c, _ | ⟨d, _ | ⟨e, rest⟩⟩⟩⟩⟩
      · exact ⟨[], [], rfl, rfl, by simp⟩
      · cases whole
      · cases whole
      · cases whole
      · cases whole
      · exact (few a b c d e rest rfl).elim
    · exact few

/-- What was read is written again as it was. -/
theorem encode_of_decode {b : BucketManifest} {bytes : Bytes} (decoded : decode bytes = .ok b) :
    b.encode = .ok bytes := by
  -- The version and the entries are what they are written as, in the order of their keys.
  unfold decode at decoded
  split at decoded
  · cases decoded
  · rename_i split
    split at decoded
    · cases decoded
    · simp only [except_bind_eq_ok, ensure_eq_ok] at decoded
      obtain ⟨_, rfl, decoded⟩ := decoded
      split at decoded
      · cases decoded
      · simp only [except_bind_eq_ok, ensure_eq_ok, bucketFixed, fixedField_eq_ok, except_pure_eq,
          Except.ok.injEq] at decoded
        obtain ⟨one, rfl, _, known, _, whole, entries, read, rfl⟩ := decoded
        obtain ⟨list, groups, written, rfl, listed⟩ :=
          encode_of_decodeEntries OrdMap.readUpTo_empty whole read
        rw [OrdMap.toList_empty, List.nil_append] at listed
        rw [encode, listed, written, except_ok_bind, except_mapError_eq_ok, ← known,
          oneByte_spelled]
        exact encodeFields_of_decodeFields split

/-- What was read is a valid bucket. -/
theorem valid_of_decode {b : BucketManifest} {bytes : Bytes}
    (decoded : decode bytes = .ok b) : b.Valid := by
  -- The entries are checked as they are read.
  unfold decode at decoded
  split at decoded
  · cases decoded
  · split at decoded
    · cases decoded
    · simp only [except_bind_eq_ok] at decoded
      obtain ⟨_, _, decoded⟩ := decoded
      split at decoded
      · cases decoded
      · simp only [except_bind_eq_ok, except_pure_eq, Except.ok.injEq] at decoded
        obtain ⟨_, _, _, _, _, _, entries, read, rfl⟩ := decoded
        exact valid_of_decodeEntries valid_empty read

/-- Entries whose stored form can be read at all are valid. -/
theorem valid_of_decodeEntries_encode {list : List (Bytes × KeyObject)} {groups : List (List Bytes)}
    (encoded : list.mapM entryFields = .ok groups) {prev : Option Bytes}
    {entries result : OrdMap Bytes KeyObject}
    (decoded : decodeEntries prev entries groups.flatten = .ok result) :
    ∀ entry ∈ list, ∀ m, entry.2.object = some m → m.validate = .ok () := by
  -- Induction over the list, with what is read of it.
  induction list generalizing groups prev entries with
  | nil => simp
  | cons entry rest ih =>
    simp only [List.mapM_cons, except_bind_eq_ok, except_pure_eq, Except.ok.injEq] at encoded
    obtain ⟨first, here, others, later, rfl⟩ := encoded
    simp only [entryFields, except_bind_eq_ok, except_pure_eq, Except.ok.injEq] at here
    obtain ⟨_, _, body, object, rfl⟩ := here
    simp only [List.flatten_cons, List.cons_append, List.nil_append, decodeEntries,
      except_bind_eq_ok] at decoded
    obtain ⟨_, _, _, _, _, _, _, _, mark, marked, found, read, _, _, others⟩ := decoded
    rw [decodeDeleted_mark, Except.ok.injEq] at marked
    subst marked
    -- What was read under the first key is the object that was stored there.
    obtain rfl := eq_of_decodeObject_encode object read
    intro other member
    rcases List.mem_cons.mp member with rfl | inRest
    · exact valid_of_decodeObject read
    · exact ih later others other inRest

/-- What reads back from the stored form of a bucket is that bucket. -/
theorem eq_of_decode_encode {b found : BucketManifest} {bytes : Bytes}
    (encoded : b.encode = .ok bytes) (decoded : decode bytes = .ok found) : found = b := by
  -- Whatever reads is valid, so the writer's own bucket was.
  have valid : b.Valid := by
    simp only [encode, except_bind_eq_ok, except_mapError_eq_ok] at encoded
    obtain ⟨groups, mapped, framed⟩ := encoded
    have fits := fits_of_encodeFields framed
    rw [encodeFields_ok fits, Except.ok.injEq] at framed
    subst framed
    simp only [decode, decodeFields_framed fits, except_bind_eq_ok] at decoded
    obtain ⟨_, _, _, _, _, _, _, _, entries, read, _⟩ := decoded
    intro key e held
    exact valid_of_decodeEntries_encode mapped read (key, e)
      (Std.ExtTreeMap.mem_toList_iff_getElem?_eq_some.mpr held)
  rw [decode_encode valid encoded, Except.ok.injEq] at decoded
  exact decoded.symm

end BucketManifest

/--
Sealing and opening of bucket manifests, under the key of the root directory.

The cipher is an authenticated one with a random nonce, which the sealed form carries.
-/
structure BucketKeys where
  sealUnder : (nonce : FixedBytes nonceLen) → (plain aad : Bytes) → Bytes
  openUnder : (sealed aad : Bytes) → Except String Bytes

/-- Sealed data opens under the same binding, to what was sealed. -/
def BucketKeys.Opens (keys : BucketKeys) : Prop :=
  ∀ nonce plain aad, keys.openUnder (keys.sealUnder nonce plain aad) aad = .ok plain

/-- Seal a bucket; where the peer may browse nothing is sealed. -/
def BucketKeys.sealBucket (keys : BucketKeys) (mode : Mode)
    (nonce : Except String (FixedBytes nonceLen)) (bucket : BucketManifest) :
      Except BucketError Bytes := do
  let plain ← bucket.encode
  match mode with
  | .transitOnly => return plain
  | .e2ee | .passphrase => do
    let nonce ← nonce.mapError .crypto
    return keys.sealUnder nonce plain bucketAad

/-- Open a stored bucket. -/
def BucketKeys.openBucket (keys : BucketKeys) (mode : Mode) (stored : Bytes) :
    Except BucketError BucketManifest := do
  let plain ← match mode with
    | .transitOnly => .ok stored
    | .e2ee | .passphrase => (keys.openUnder stored bucketAad).mapError .crypto
  BucketManifest.decode plain

/-- A valid bucket that was sealed opens again. -/
theorem BucketKeys.openBucket_sealBucket {keys : BucketKeys} (opens : keys.Opens) {mode : Mode}
    {nonce : Except String (FixedBytes nonceLen)} {bucket : BucketManifest} {stored : Bytes}
    (valid : bucket.Valid) (sealed : keys.sealBucket mode nonce bucket = .ok stored) :
    keys.openBucket mode stored = .ok bucket := by
  -- In plain form the bytes are the bucket's, and otherwise sealing is undone.
  simp only [sealBucket, except_bind_eq_ok] at sealed
  obtain ⟨plain, encoded, sealed⟩ := sealed
  have decoded := BucketManifest.decode_encode valid encoded
  cases mode with
  | transitOnly =>
    obtain rfl : plain = stored := by simpa using sealed
    simp [openBucket, decoded]
  | e2ee | passphrase =>
    simp only [except_bind_eq_ok, except_pure_eq, Except.ok.injEq] at sealed
    obtain ⟨drawn, _, rfl⟩ := sealed
    simp [openBucket, opens drawn plain bucketAad, decoded]

/-- A bucket that was opened is valid. -/
theorem BucketKeys.valid_of_openBucket {keys : BucketKeys} {mode : Mode} {stored : Bytes}
    {bucket : BucketManifest} (opened : keys.openBucket mode stored = .ok bucket) :
      bucket.Valid := by
  -- In each mode the bucket is decoded in the end.
  unfold openBucket at opened
  split at opened
  · exact BucketManifest.valid_of_decode opened
  all_goals
    rw [except_bind_eq_ok] at opened
    obtain ⟨_, _, decoded⟩ := opened
    exact BucketManifest.valid_of_decode decoded

section

variable [Crypto]

/-- Store a bucket among the blobs. -/
def BlobStore.storeBucket (blobs : BlobStore) (keys : BucketKeys) (mode : Mode) (disk : Disk)
    (now : Timestamp) (nonce : Except String (FixedBytes nonceLen)) (bucket : BucketManifest) :
    Except BucketError Addr × BlobStore :=
  match keys.sealBucket mode nonce bucket with
  | .error e => (.error e, blobs)
  | .ok stored =>
    let (result, blobs) := blobs.put disk now stored
    (result.mapError .store, blobs)

/-- Load a bucket by its address. -/
def BlobStore.loadBucket (blobs : BlobStore) (keys : BucketKeys) (mode : Mode) (addr : Addr) :
    Except BucketError BucketManifest := do
  let stored ← (blobs.get addr).mapError .store
  keys.openBucket mode stored

/-- A bucket that loads is valid. -/
theorem BlobStore.valid_of_loadBucket {s : BlobStore} {keys : BucketKeys} {mode : Mode}
    {addr : Addr} {bucket : BucketManifest} (loaded : s.loadBucket keys mode addr = .ok bucket) :
    bucket.Valid := by
  rw [loadBucket, except_bind_eq_ok] at loaded
  obtain ⟨_, _, opened⟩ := loaded
  exact BucketKeys.valid_of_openBucket opened

end

end NasTools
