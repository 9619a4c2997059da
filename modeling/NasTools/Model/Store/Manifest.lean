import NasTools.Lib.Fallible
import NasTools.Model.Core.Checked
import NasTools.Model.Core.Format
import NasTools.Model.Crypto.Sign

/-! File and directory manifests: the chunk table of one object, and its canonical form. -/

namespace NasTools

/-- What a manifest describes. -/
inductive Kind where
  | file
  | dir
deriving DecidableEq

/-- The discriminant a kind is written as. -/
def Kind.toU8 : Kind → UInt8
  | .file => 0
  | .dir => 1

/-- The kind a discriminant stands for. -/
def Kind.fromU8 : UInt8 → Option Kind
  | 0 => some .file
  | 1 => some .dir
  | _ => none

/-- The discriminant a key scheme is written as. -/
def KeyScheme.toU8 : KeyScheme → UInt8
  | .convergent => 0
  | .indexedRandom => 1
  | .plaintext => 2

/-- The key scheme a discriminant stands for. -/
def KeyScheme.fromU8 : UInt8 → Option KeyScheme
  | 0 => some .convergent
  | 1 => some .indexedRandom
  | 2 => some .plaintext
  | _ => none

/-- The discriminant a padding profile is written as. -/
def PaddingProfile.toU8 : PaddingProfile → UInt8
  | .none => 0
  | .classes => 1
  | .fixed => 2

/-- The padding profile a discriminant stands for. -/
def PaddingProfile.fromU8 : UInt8 → Option PaddingProfile
  | 0 => some .none
  | 1 => some .classes
  | 2 => some .fixed
  | _ => Option.none

/-- A kind is read from the byte it is written as. -/
@[simp] theorem Kind.fromU8_toU8 (kind : Kind) : Kind.fromU8 kind.toU8 = some kind := by
  cases kind <;> rfl

/-- A key scheme is read from the byte it is written as. -/
@[simp] theorem KeyScheme.fromU8_toU8 (scheme : KeyScheme) :
    KeyScheme.fromU8 scheme.toU8 = some scheme := by
  cases scheme <;> rfl

/-- A padding profile is read from the byte it is written as. -/
@[simp] theorem PaddingProfile.fromU8_toU8 (profile : PaddingProfile) :
    PaddingProfile.fromU8 profile.toU8 = some profile := by
  cases profile <;> rfl

/-- A discriminant that stands for a kind is the one it is written as. -/
theorem Kind.toU8_of_fromU8 {b : UInt8} {kind : Kind} (known : Kind.fromU8 b = some kind) :
    kind.toU8 = b := by
  unfold Kind.fromU8 at known
  split at known <;> cases known <;> rfl

/-- A byte is read as the key scheme that is written as it. -/
theorem KeyScheme.toU8_of_fromU8 {b : UInt8} {scheme : KeyScheme}
    (known : KeyScheme.fromU8 b = some scheme) :
    scheme.toU8 = b := by
  unfold KeyScheme.fromU8 at known
  split at known <;> cases known <;> rfl

/-- A byte is read as the padding profile that is written as it. -/
theorem PaddingProfile.toU8_of_fromU8 {b : UInt8} {profile : PaddingProfile}
    (known : PaddingProfile.fromU8 b = some profile) : profile.toU8 = b := by
  unfold PaddingProfile.fromU8 at known
  split at known <;> cases known <;> rfl

/-- Why a manifest is refused. -/
inductive ManifestError where
  | decode (source : DecodeError)
  | badMagic
  | unknownVersion (found : UInt16)
  | badDiscriminant (field : String) (value : UInt8)
  | fieldCount (want got : Nat)
  | badWidth (field : String) (want got : Nat)
  | raggedChunkTable (bytes : Nat)
  | sizeMismatch (declared chunks : UInt64)
deriving DecidableEq

/-- Bytes of a chunk key. -/
def keyLen : Nat := 32

/-- Bytes of one chunk record: its address, its key, the hash of its plaintext, and its length. -/
def chunkRecordLen : Nat := addrLen + keyLen + 32 + 4

/-- The text a manifest error prints. -/
def ManifestError.display : ManifestError → String
  | .decode e => "manifest encoding: " ++ e.debug
  | .badMagic => "not a manifest"
  | .unknownVersion found =>
    "manifest version " ++ toString found ++ ", this build understands " ++ toString manifestVersion
  | .badDiscriminant field value => "unknown " ++ field ++ " discriminant " ++ toString value
  | .fieldCount want got => "manifest has " ++ toString got ++ " fields, want " ++ toString want
  | .badWidth field want got =>
    field ++ " is " ++ toString got ++ " B, want " ++ toString want ++ " B"
  | .raggedChunkTable bytes =>
    "chunk table of " ++ toString bytes ++ " B is not a multiple of " ++
      toString chunkRecordLen ++ " B"
  | .sizeMismatch declared chunks =>
    "manifest declares " ++ toString declared ++ " B but its chunks total " ++
      toString chunks ++ " B"

/-- One chunk of a file. -/
structure ChunkRef where
  addr : Addr
  ck : FixedBytes keyLen
  ptHash : Digest
  len : UInt32
deriving DecidableEq

/-- The manifest of one file or directory. -/
structure Manifest where
  version : UInt16
  keyScheme : KeyScheme
  paddingProfile : PaddingProfile
  kind : Kind
  nameEnc : Bytes
  size : UInt64
  chunks : List ChunkRef
  meta_ : Bytes
deriving DecidableEq

/-- What a manifest starts with. -/
def manifestMagic : Bytes := asciiBytes "NASM"

/-- One record of the chunk table. -/
def ChunkRef.encode (c : ChunkRef) : Bytes :=
  c.addr.bytes ++ c.ck.bytes ++ c.ptHash.bytes ++ natToLe 4 c.len.toNat

/-- Read one record of the chunk table. -/
def ChunkRef.decode (r : FixedBytes chunkRecordLen) : ChunkRef where
  addr := ⟨r.bytes.take addrLen, by simp [r.size, chunkRecordLen, addrLen]⟩
  ck := ⟨(r.bytes.drop addrLen).take keyLen, by simp [r.size, chunkRecordLen, addrLen, keyLen]⟩
  ptHash := ⟨(r.bytes.drop (addrLen + keyLen)).take 32,
    by simp [r.size, chunkRecordLen, addrLen, keyLen]⟩
  len := UInt32.ofNat (natOfLe (r.bytes.drop (chunkRecordLen - 4)))

/-- The bytes that some chunks say they have. -/
def chunkLengths (refs : List ChunkRef) : Nat := (refs.map fun c => c.len.toNat).sum

/-- The lengths add up chunk by chunk. -/
@[simp] theorem chunkLengths_cons (c : ChunkRef) (rest : List ChunkRef) :
    chunkLengths (c :: rest) = c.len.toNat + chunkLengths rest := by
  simp [chunkLengths]

/-- Read the whole records at the start of a table, for at most `fuel` records. -/
def decodeChunks : (fuel : Nat) → Bytes → List ChunkRef
  | 0, _ => []
  | fuel + 1, table =>
    if whole : chunkRecordLen ≤ table.length then
      ChunkRef.decode ⟨table.take chunkRecordLen, by simp [whole]⟩ ::
        decodeChunks fuel (table.drop chunkRecordLen)
    -- A rest that is no whole record is left out.
    else []

/-- Read a field of a manifest that must be one of a few bytes. -/
def manifestOneOf {A : Type} (field : String) (known : UInt8 → Option A) (data : Bytes) :
    Except ManifestError A := do
  let byte ← fixedField ManifestError.badWidth 1 field data
  let value := byte.bytes.headD 0
  okOr (known value) (.badDiscriminant field value)

namespace Manifest

/-- A manifest with no chunk in it. -/
def new (kind : Kind) (keyScheme : KeyScheme) (paddingProfile : PaddingProfile) : Manifest :=
  ⟨manifestVersion, keyScheme, paddingProfile, kind, [], 0, [], []⟩

/-- The sum of the chunk lengths, on 64 bits. -/
def chunkBytes (m : Manifest) : UInt64 := (m.chunks.map fun c => c.len.toUInt64).sum

/-- Refuse a manifest whose parts disagree with each other. -/
def validate (m : Manifest) : Except ManifestError Unit := do
  ensure (m.version = manifestVersion) (.unknownVersion m.version)
  ensure (m.chunkBytes = m.size) (.sizeMismatch m.size m.chunkBytes)

/-- The fields of a manifest as they are stored. -/
def fields (m : Manifest) : List Bytes :=
  [manifestMagic, natToLe 2 m.version.toNat, [m.keyScheme.toU8], [m.paddingProfile.toU8],
    [m.kind.toU8], m.nameEnc, u64Le m.size, m.chunks.flatMap ChunkRef.encode, m.meta_]

/-- The manifest as it is stored. -/
def encode (m : Manifest) : Except ManifestError Bytes := (encodeFields m.fields).mapError .decode

/-- Read a manifest back. -/
def decode (bytes : Bytes) : Except ManifestError Manifest :=
  match decodeFields bytes with
  | .error e => .error (.decode e)
  | .ok [magic, version, keyScheme, paddingProfile, kind, nameEnc, size, table, meta_] => do
    ensure (magic = manifestMagic) .badMagic
    let version ← fixedField ManifestError.badWidth 2 "version" version
    let version := UInt16.ofNat (natOfLe version.bytes)
    -- A newer layout read under this one would be a file put together wrongly.
    ensure (version = manifestVersion) (.unknownVersion version)
    let keyScheme ← manifestOneOf "key_scheme" KeyScheme.fromU8 keyScheme
    let paddingProfile ← manifestOneOf "padding_profile" PaddingProfile.fromU8 paddingProfile
    let kind ← manifestOneOf "kind" Kind.fromU8 kind
    let size ← fixedField ManifestError.badWidth 8 "size" size
    ensure (table.length % chunkRecordLen = 0) (.raggedChunkTable table.length)
    let m : Manifest := ⟨version, keyScheme, paddingProfile, kind, nameEnc, u64OfLe size.bytes,
      decodeChunks (table.length / chunkRecordLen) table, meta_⟩
    m.validate
    return m
  | .ok fields => .error (.fieldCount 9 fields.length)

end Manifest

/-- Every chunk record has the same width. -/
@[simp] theorem ChunkRef.encode_length (c : ChunkRef) : c.encode.length = chunkRecordLen := by
  simp [encode, FixedBytes.size, chunkRecordLen, addrLen, keyLen]

/-- A chunk record reads back. -/
theorem ChunkRef.decode_encode (c : ChunkRef) {size : c.encode.length = chunkRecordLen} :
    ChunkRef.decode ⟨c.encode, size⟩ = c := by
  -- The record is four parts of fixed widths.
  have addr : c.addr.bytes.length = addrLen := c.addr.size
  have ck : c.ck.bytes.length = keyLen := c.ck.size
  have hash : c.ptHash.bytes.length = 32 := c.ptHash.size
  have bound : c.len.toNat < 256 ^ 4 := by simpa using c.len.toNat_lt
  obtain ⟨⟨a, sizeA⟩, ⟨k, sizeK⟩, ⟨h, sizeH⟩, len⟩ := c
  -- Each slice starts where the fields before it end.
  have start : chunkRecordLen - 4 = (a ++ k ++ h).length := by
    simp only [List.length_append, sizeA, sizeK, sizeH]
    rfl
  simp only [decode, encode, List.append_assoc]
  simp only [ChunkRef.mk.injEq, FixedBytes.mk.injEq]
  refine ⟨?_, ?_, ?_, ?_⟩
  · rw [List.take_left' addr]
  · rw [List.drop_left' addr, List.take_left' ck]
  · rw [← List.append_assoc, List.drop_left' (by simp [sizeA, sizeK, addrLen]),
      List.take_left' hash]
  · rw [← List.append_assoc, ← List.append_assoc, List.drop_left' start.symm,
      natOfLe_natToLe 4 _ bound, UInt32.ofNat_toNat]

/-- A chunk table reads back. -/
theorem decodeChunks_encode (chunks : List ChunkRef) :
    decodeChunks chunks.length (chunks.flatMap ChunkRef.encode) = chunks := by
  -- Induction over the chunks.
  induction chunks with
  | nil => rfl
  | cons c rest ih =>
    have size := c.encode_length
    have whole : chunkRecordLen ≤ (c.encode ++ rest.flatMap ChunkRef.encode).length := by
      simp [size]
    -- The first record is cut off exactly where it ends.
    simp only [List.length_cons, List.flatMap_cons, decodeChunks, dif_pos whole,
      List.take_left' size, List.drop_left' size, ih, ChunkRef.decode_encode]

/-- A table has no more records than it was read for. -/
theorem length_decodeChunks_le (count : Nat) (table : Bytes) :
    (decodeChunks count table).length ≤ count := by
  -- Each record that is read is counted.
  induction count generalizing table with
  | zero => exact Nat.le_refl _
  | succ count ih =>
    unfold decodeChunks
    split
    · exact Nat.succ_le_succ (ih _)
    · exact Nat.zero_le _

/-- Chunks have 32-bit lengths. -/
theorem chunkLengths_le (refs : List ChunkRef) :
    chunkLengths refs ≤ refs.length * (2 ^ 32 - 1) := by
  -- Each length is a 32-bit number.
  induction refs with
  | nil => simp [chunkLengths]
  | cons c rest ih =>
    have bound := c.len.toNat_lt
    rw [chunkLengths_cons, List.length_cons]
    omega

/-- Every chunk takes one record of the table. -/
theorem table_length (chunks : List ChunkRef) :
    (chunks.flatMap ChunkRef.encode).length = chunkRecordLen * chunks.length := by
  -- Induction over the chunks.
  induction chunks with
  | nil => rfl
  | cons c rest ih =>
    simp only [List.flatMap_cons, List.length_append, ChunkRef.encode_length, ih, List.length_cons]
    rw [Nat.mul_add, Nat.mul_one, Nat.add_comm]

/-- The lengths of chunks that are no more than a field has bytes add up to a 64-bit number. -/
theorem chunkLengths_lt {refs : List ChunkRef} (few : refs.length ≤ maxField) :
    chunkLengths refs < 2 ^ 64 := by
  have bound := chunkLengths_le refs
  have most : refs.length * (2 ^ 32 - 1) ≤ maxField * (2 ^ 32 - 1) := Nat.mul_le_mul_right _ few
  have small : maxField * (2 ^ 32 - 1) < 2 ^ 64 := by decide
  omega

/-- Lengths that add up to a 64-bit number have that number for their sum. -/
theorem toNat_sum_lengths {chunks : List ChunkRef} (room : chunkLengths chunks < 2 ^ 64) :
    (chunks.map fun c : ChunkRef => c.len.toUInt64).sum.toNat = chunkLengths chunks := by
  -- With room for the sum the additions do not wrap.
  induction chunks with
  | nil => rfl
  | cons c rest ih =>
    rw [chunkLengths_cons] at room
    rw [List.map_cons, List.sum_cons, UInt64.toNat_add, ih (by omega), UInt32.toNat_toUInt64,
      chunkLengths_cons]
    exact Nat.mod_eq_of_lt room

/-- What a record was read from is written of it again. -/
theorem ChunkRef.encode_decode (r : FixedBytes chunkRecordLen) :
    (ChunkRef.decode r).encode = r.bytes := by
  -- The record is cut into four slices.
  have last : (r.bytes.drop (chunkRecordLen - 4)).length = 4 := by
    simp [r.size, chunkRecordLen, addrLen, keyLen]
  have number : natToLe 4 (UInt32.ofNat (natOfLe (r.bytes.drop (chunkRecordLen - 4)))).toNat =
      r.bytes.drop (chunkRecordLen - 4) := natToLe_natOfLe_fixed ⟨_, last⟩
  -- The four slices stand side by side.
  have third : (r.bytes.drop (addrLen + keyLen)).drop 32 = r.bytes.drop (chunkRecordLen - 4) := by
    rw [List.drop_drop]
    rfl
  have second : (r.bytes.drop addrLen).drop keyLen = r.bytes.drop (addrLen + keyLen) :=
    List.drop_drop
  rw [encode]
  dsimp only [decode]
  rw [number, List.append_assoc, List.append_assoc, ← third, List.take_append_drop, ← second,
    List.take_append_drop, List.take_append_drop]

/-- A table of whole records is written again as it was read. -/
theorem encode_decodeChunks {count : Nat} {table : Bytes}
    (whole : table.length = chunkRecordLen * count) :
    (decodeChunks count table).flatMap ChunkRef.encode = table := by
  -- Induction over the records: each is taken off the front and written back.
  induction count generalizing table with
  | zero =>
    rw [Nat.mul_zero] at whole
    rw [List.length_eq_zero_iff.mp whole]
    rfl
  | succ count ih =>
    rw [Nat.mul_succ] at whole
    have long : chunkRecordLen ≤ table.length := by omega
    have rest : (table.drop chunkRecordLen).length = chunkRecordLen * count := by
      rw [List.length_drop]
      omega
    rw [decodeChunks, dif_pos long, List.flatMap_cons, ChunkRef.encode_decode, ih rest,
      List.take_append_drop]

/-- A field read as one of a few bytes is that byte. -/
theorem manifestOneOf_eq_ok {A : Type} {field : String} {known : UInt8 → Option A}
    {data : Bytes} {a : A} :
    manifestOneOf field known data = .ok a ↔ ∃ byte, data = [byte] ∧ known byte = some a := by
  -- The field is one byte, which has to be known.
  simp only [manifestOneOf, except_bind_eq_ok, fixedField_eq_ok, okOr_eq_ok]
  constructor
  · intro read
    obtain ⟨one, rfl, found⟩ := read
    exact ⟨_, (oneByte_spelled one).symm, found⟩
  · intro read
    obtain ⟨byte, rfl, found⟩ := read
    exact ⟨⟨[byte], rfl⟩, rfl, found⟩

namespace Manifest

variable {m : Manifest} {bytes : Bytes}

/-- The stored form of a manifest reads back as that manifest, or fails as its check does. -/
theorem decode_of_encode (encoded : m.encode = .ok bytes) :
    decode bytes = m.validate.map fun _ => m := by
  -- The fields are read back one by one, and the manifest is checked.
  rw [encode, except_mapError_eq_ok] at encoded
  have fits := fits_of_encodeFields encoded
  rw [encodeFields_ok fits, Except.ok.injEq] at encoded
  subst encoded
  have bound : (natToLe 2 m.version.toNat).length = 2 := natToLe_length _ _
  have one {A : Type} (field : String) (table : UInt8 → Option A) (byte : UInt8) {a : A}
      (found : table byte = some a) : manifestOneOf field table [byte] = .ok a := by
    simp [manifestOneOf, fixedField_of_length _ _ (show [byte].length = 1 from rfl), found]
  -- The table is a whole number of records, and as many as there are chunks.
  have count : (m.chunks.flatMap ChunkRef.encode).length / chunkRecordLen = m.chunks.length := by
    rw [table_length]
    exact Nat.mul_div_cancel_left _ (by decide)
  have even : (m.chunks.flatMap ChunkRef.encode).length % chunkRecordLen = 0 := by
    rw [table_length]
    exact Nat.mul_mod_right _ _
  have numbered : UInt16.ofNat (natOfLe (natToLe 2 m.version.toNat)) = m.version := by
    rw [natOfLe_natToLe 2 _ (by simpa using m.version.toNat_lt), UInt16.ofNat_toNat]
  rw [decode, decodeFields_framed fits]
  simp only [fields, ensure_of, except_ok_bind, fixedField_of_length _ _ bound, numbered,
    fixedField_of_length _ _ (u64Le_length m.size), one _ _ _ (KeyScheme.fromU8_toU8 m.keyScheme),
    one _ _ _ (PaddingProfile.fromU8_toU8 m.paddingProfile),
    one _ _ _ (Kind.fromU8_toU8 m.kind), even,
    count, decodeChunks_encode, u64OfLe_u64Le]
  -- The version is checked twice, the second time as part of the whole manifest.
  by_cases known : m.version = manifestVersion
  · simp only [ensure_of known, except_ok_bind]
    cases m.validate <;> rfl
  · simp only [validate, ensure, if_neg known]
    rfl

/-- A manifest whose parts agree reads back from its stored form. -/
theorem decode_encode (valid : m.validate = .ok ()) (encoded : m.encode = .ok bytes) :
    decode bytes = .ok m := by
  rw [decode_of_encode encoded, valid]
  rfl

/-- What reads back from the stored form of a manifest is that manifest. -/
theorem eq_of_decode_encode {found : Manifest} (encoded : m.encode = .ok bytes)
    (decoded : decode bytes = .ok found) : found = m := by
  -- What was written is read back if it is valid, and otherwise nothing is.
  rw [decode_of_encode encoded] at decoded
  cases checked : m.validate with
  | error e => simp [checked, Except.map] at decoded
  | ok u =>
    simp only [checked, Except.map, Except.ok.injEq] at decoded
    exact decoded.symm

/-- What was read is a manifest whose parts agree. -/
theorem valid_of_decode (decoded : decode bytes = .ok m) : m.validate = .ok () := by
  -- Validity is the last check of the reader.
  unfold decode at decoded
  split at decoded
  · cases decoded
  · simp only [except_bind_eq_ok, except_pure_eq, Except.ok.injEq] at decoded
    obtain ⟨_, _, _, _, _, _, _, _, _, _, _, _, _, _, _, _, _, valid, rfl⟩ := decoded
    exact valid
  · cases decoded

/-- What was read is written again as it was. -/
theorem encode_of_decode (decoded : decode bytes = .ok m) : m.encode = .ok bytes := by
  -- Every field is written as it was read: the numbers have their width, and the table is whole.
  unfold decode at decoded
  split at decoded
  · cases decoded
  · rename_i magic version keyScheme paddingProfile kind nameEnc size table meta_ split
    simp only [except_bind_eq_ok, ensure_eq_ok, fixedField_eq_ok, manifestOneOf_eq_ok,
      except_pure_eq, Except.ok.injEq] at decoded
    obtain ⟨_, rfl, number, rfl, _, known, scheme, ⟨_, rfl, isScheme⟩, profile,
      ⟨_, rfl, isProfile⟩, kind,
      ⟨_, rfl, isKind⟩, size, rfl, _, even, _, _, rfl⟩ := decoded
    have whole : table.length = chunkRecordLen * (table.length / chunkRecordLen) :=
      (Nat.mul_div_cancel' (Nat.dvd_of_mod_eq_zero even)).symm
    have version : natToLe 2 (UInt16.ofNat (natOfLe number.bytes)).toNat = number.bytes := by
      have spelled := natToLe_natOfLe number.bytes
      have bound := natOfLe_lt number.bytes
      rw [number.size] at spelled bound
      rwa [UInt16.toNat_ofNat', Nat.mod_eq_of_lt (show _ < 2 ^ 16 from bound)]
    rw [encode, except_mapError_eq_ok, fields]
    dsimp only
    rw [version, KeyScheme.toU8_of_fromU8 isScheme, PaddingProfile.toU8_of_fromU8 isProfile,
      Kind.toU8_of_fromU8 isKind, u64Le_u64OfLe size.size, encode_decodeChunks whole]
    exact encodeFields_of_decodeFields split
  · cases decoded

/-- The lengths of the chunks that were read add up to the declared size, as numbers. -/
theorem chunkLengths_of_decode (decoded : decode bytes = .ok m) :
    chunkLengths m.chunks = m.size.toNat := by
  -- There are not enough chunks for the sum to wrap.
  have valid := valid_of_decode decoded
  have encoded := encode_of_decode decoded
  rw [encode, except_mapError_eq_ok] at encoded
  have fits := fits_of_encodeFields encoded
  -- The table fits its field, so there are no more chunks than that.
  have table : (m.chunks.flatMap ChunkRef.encode).length ≤ maxField := fits _ (by simp [fields])
  rw [table_length] at table
  have few : m.chunks.length ≤ maxField := Nat.le_trans (Nat.le_mul_of_pos_left _ (by decide)) table
  rw [← toNat_sum_lengths (chunkLengths_lt few)]
  simp only [validate, except_bind_eq_ok, ensure_eq_ok] at valid
  obtain ⟨_, _, same⟩ := valid
  rw [← same, chunkBytes]

end Manifest

end NasTools
