import NasTools.Lib.Fallible
import NasTools.Model.Core.Encoding
import NasTools.Model.Core.Format
import NasTools.Model.Crypto.Sign

/-! The root manifest, which is what a slot record points at, and the keys it is sealed under. -/

namespace NasTools

/-- One version of a namespace's root. -/
structure RootManifest where
  tree : Addr
  -- The generation of the convergence secret new writes used.
  generation : UInt32
deriving DecidableEq

/-- Why a root manifest is refused. -/
inductive RootError where
  | decode (source : DecodeError)
  | badWidth (field : String) (want got : Nat)
  | fieldCount (want got : Nat)
  | badVersion (value : UInt8)
deriving DecidableEq

/-- The text a root manifest error prints. -/
def RootError.display : RootError → String
  | .decode e => "root manifest: " ++ e.debug
  | .badWidth field want got =>
    "root manifest: " ++ field ++ " is " ++ toString got ++ " bytes, want " ++ toString want
  | .fieldCount want got =>
    "root manifest: " ++ toString got ++ " fields, want " ++ toString want
  | .badVersion value => "root manifest: unknown version " ++ toString value

/-- The version byte of the encoding. -/
def rootVersion : UInt8 := 1

namespace RootManifest

/-- The manifest as it is sealed. -/
def encode (m : RootManifest) : Except RootError Bytes :=
  (encodeFields [[rootVersion], m.tree.bytes, natToLe 4 m.generation.toNat]).mapError .decode

/-- Read a manifest back. -/
def decode (bytes : Bytes) : Except RootError RootManifest :=
  match decodeFields bytes with
  | .error e => .error (.decode e)
  | .ok [version, tree, generation] => do
    let version ← fixedField RootError.badWidth 1 "version" version
    let value := version.bytes.headD 0
    ensure (value = rootVersion) (.badVersion value)
    let tree ← fixedField RootError.badWidth addrLen "tree" tree
    let generation ← fixedField RootError.badWidth 4 "generation" generation
    return ⟨tree, UInt32.ofNat (natOfLe generation.bytes)⟩
  | .ok fields => .error (.fieldCount 3 fields.length)

/-- A root manifest reads back from what is sealed. -/
theorem decode_encode {m : RootManifest} {bytes : Bytes} (encoded : m.encode = .ok bytes) :
    decode bytes = .ok m := by
  -- Every field is read back at the width it was written in.
  rw [encode, except_mapError_eq_ok] at encoded
  have fits := fits_of_encodeFields encoded
  rw [encodeFields_ok fits, Except.ok.injEq] at encoded
  subst encoded
  have version : [rootVersion].length = 1 := rfl
  have width : (natToLe 4 m.generation.toNat).length = 4 := natToLe_length _ _
  have bound : m.generation.toNat < 256 ^ 4 := by simpa using m.generation.toNat_lt
  have tree : fixedField RootError.badWidth addrLen "tree" m.tree.bytes = .ok m.tree :=
    fixedField_bytes _ _ _
  rw [decode, decodeFields_framed fits]
  simp only [fixedField_of_length _ _ version, fixedField_of_length _ _ width, tree, except_ok_bind,
    List.headD_cons, ensure_of, natOfLe_natToLe 4 _ bound, UInt32.ofNat_toNat, except_pure_eq]
  rfl

end RootManifest

/-- What a root manifest is bound to: the slot and the sequence whose record carries its nonce. -/
def rootAad (slotId : Digest) (seq : UInt64) : Bytes :=
  asciiBytes "nas-tools/aad/root/v1" ++ slotId.bytes ++ u64Le seq

/-- Bytes of the nonce a root manifest is sealed with. -/
def nonceLen : Nat := 24

/--
Sealing and opening under the key of one sequence, as the namespace's secrets derive it.

The cipher is an authenticated one; what it guarantees is assumed where it is used.
-/
structure RootKeys where
  sealUnder : (seq : UInt64) → (nonce : FixedBytes nonceLen) → (plain aad : Bytes) → Bytes
  openUnder : (seq : UInt64) → (nonce : FixedBytes nonceLen) → (sealed aad : Bytes) → Option Bytes

/-- Sealed data opens under the same key, nonce and binding, to what was sealed. -/
def RootKeys.Opens (keys : RootKeys) : Prop :=
  ∀ seq nonce plain aad, keys.openUnder seq nonce (keys.sealUnder seq nonce plain aad) aad =
    some plain

/-- Seal a root manifest with a nonce; where the peer may browse nothing is sealed. -/
def RootKeys.sealRoot (keys : RootKeys) (mode : Mode) (slotId : Digest) (seq : UInt64)
    (root : RootManifest) (nonce : FixedBytes nonceLen) :
    Except String (Bytes × FixedBytes nonceLen) := do
  let plain ← root.encode.mapError RootError.display
  match mode with
  | .transitOnly => return (plain, FixedBytes.zero _)
  | .e2ee | .passphrase => return (keys.sealUnder seq nonce plain (rootAad slotId seq), nonce)

/-- Open the root manifest a verified slot record points at, with the nonce that record carries. -/
def RootKeys.openRoot (keys : RootKeys) (mode : Mode) (slotId : Digest) (seq : UInt64)
    (nonce : FixedBytes nonceLen) (blob : Bytes) : Except String RootManifest := do
  let plain ← match mode with
    | .transitOnly => .ok blob
    | .e2ee | .passphrase =>
      okOr (keys.openUnder seq nonce blob (rootAad slotId seq))
        ("root manifest at seq " ++ toString seq ++ " does not open under this namespace's key " ++
          "for this slot (wrong namespace, wrong nonce, or a blob that is not the one the record " ++
          "was signed over)")
  (RootManifest.decode plain).mapError RootError.display

/-- A root manifest that was sealed opens at its own sequence. -/
theorem RootKeys.openRoot_sealRoot {keys : RootKeys} (opens : keys.Opens) {mode : Mode}
    {slotId : Digest} {seq : UInt64} {root : RootManifest} {nonce kept : FixedBytes nonceLen}
    {blob : Bytes} (sealed : keys.sealRoot mode slotId seq root nonce = .ok (blob, kept)) :
    keys.openRoot mode slotId seq kept blob = .ok root := by
  -- In plain form the bytes are the manifest's, and otherwise sealing is undone.
  simp only [sealRoot, except_bind_eq_ok, except_mapError_eq_ok] at sealed
  obtain ⟨plain, encoded, sealed⟩ := sealed
  have decoded := RootManifest.decode_encode encoded
  cases mode with
  | transitOnly =>
    obtain ⟨rfl, rfl⟩ : plain = blob ∧ FixedBytes.zero _ = kept := by simpa using sealed
    simp [openRoot, decoded]
  | e2ee | passphrase =>
    simp only [except_pure_eq, Except.ok.injEq, Prod.mk.injEq] at sealed
    obtain ⟨rfl, rfl⟩ := sealed
    simp [openRoot, opens seq nonce plain (rootAad slotId seq), decoded]

end NasTools
