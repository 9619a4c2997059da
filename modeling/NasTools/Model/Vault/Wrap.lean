import NasTools.Model.Crypto.Sign
import NasTools.Model.Slots.Client
import NasTools.Model.Store.Cipher
import NasTools.Model.Store.Tree
import NasTools.Model.Vault.Params

/-!
A data key of 32 bytes: what it derives for a namespace, and its wrap record under a passphrase.
-/

namespace NasTools

/--
Growing an ML-DSA-65 keypair from a seed, which another package does; nothing is assumed of it.
-/
class SigKeyPair where
  fromSeed : (seed : FixedBytes 32) → Option Identity

/-- A signing role, each with a keypair of its own. -/
inductive Role where
  | slot
  | lease
  | witness
  | transport
deriving DecidableEq

/-- What the seed of a role is derived under. -/
def Role.kdfContext : Role → String
  | .slot => "nas-tools/role/slot/v1"
  | .lease => "nas-tools/role/lease/v1"
  | .witness => "nas-tools/role/witness/v1"
  | .transport => "nas-tools/role/transport/v1"

/-- What the root secret of a namespace is derived under. -/
def contextNsRoot : String := "nas-tools/ns/root/v1"

/-- What the convergence secret of a namespace is derived under. -/
def contextNsConvergence : String := "nas-tools/ns/convergence/v1"

/-- What the slot seed of a namespace is derived under. -/
def contextNsSlot : String := "nas-tools/ns/slot/v1"

/-- Everything a namespace needs, derived from one data key. -/
structure NamespaceSecrets where
  rootSecret : FixedBytes keyLen
  convergence : FixedBytes keyLen
  slotSeed : FixedBytes keyLen
deriving DecidableEq

section

variable [Kdf]

/-- The keypair of a role, from the seed of a vault. -/
def Identity.derive [SigKeyPair] (vaultSeed : FixedBytes keyLen) (role : Role) :
    Except SignError Identity :=
  okOr (SigKeyPair.fromSeed (Kdf.deriveKey role.kdfContext vaultSeed.bytes)) .backend

namespace NamespaceSecrets

/-- Derive the three secrets of a namespace from its data key. -/
def fromDek (dek : FixedBytes keyLen) : NamespaceSecrets where
  rootSecret := Kdf.deriveKey contextNsRoot dek.bytes
  convergence := Kdf.deriveKey contextNsConvergence dek.bytes
  slotSeed := Kdf.deriveKey contextNsSlot dek.bytes

/-- The identity that signs the slot records and wrap records of a namespace. -/
def slotIdentity [SigKeyPair] (secrets : NamespaceSecrets) : Except SignError Identity :=
  Identity.derive secrets.slotSeed .slot

end NamespaceSecrets

end

open Checked (lift item)

/-- Least bytes of a salt. -/
def minSalt : Nat := 16

/-- Domain string of the chain hash. -/
def chainDomain : Bytes := asciiBytes "nas-tools/wrap-chain/v1"

/-- Why a wrap record is not made, read or opened. -/
inductive WrapError where
  | decode (source : DecodeError)
  | param (source : ParamError)
  | sign (source : SignError)
  -- The passphrase is the wrong one, or the record was altered: which of the two is not told.
  | unwrap
  | badWidth (field : String) (want got : Nat)
  | fieldCount (want got : Nat)
  | saltTooShort (got : Nat)
  | genesisMismatch (seq : UInt64)
  | badSignature
  | io (text : String)
deriving DecidableEq

/-- The text a wrap error prints. -/
def WrapError.display : WrapError → String
  | .decode e => "wrap encoding: " ++ e.debug
  | .param e => e.display
  | .sign e => e.display
  | .unwrap => "could not unwrap: wrong passphrase or altered record"
  | .badWidth field want got => field ++ " is " ++ toString got ++ " B, want " ++
    toString want ++ " B"
  | .fieldCount want got => toString got ++ " fields, want " ++ toString want
  | .saltTooShort got => "salt is " ++ toString got ++ " B, want at least " ++ toString minSalt
  | .genesisMismatch seq => "seq " ++ toString seq ++ ": only seq 0 may have an empty predecessor"
  | .badSignature => "wrap record signature does not verify"
  | .io e => e

/-- A data key under a passphrase, as a peer stores it. -/
structure WrapRecord where
  salt : Bytes
  params : Argon2Params
  -- The nonce, the ciphertext and the tag, over the data key.
  wrappedDek : Bytes
  seq : UInt64
  anchor : Anchor
  prev : Digest
  sig : Bytes
deriving DecidableEq

/--
All that the cipher authenticates besides the wrapped key; a salt that does not fit a
field is a panic.
-/
def wrapAad (salt : Bytes) (params : Argon2Params) (seq : UInt64) (anchor : Anchor)
    (prev : Digest) :
    Checked WrapError Bytes :=
  Checked.expect (encodeFields
    [salt, params.encode, u64Le seq, u64Le anchor.seq, anchor.sigHash.bytes, prev.bytes]).toOption

/-- What is signed: the associated data, and the wrapped key. -/
def wrapBody (aad wrappedDek : Bytes) : Checked WrapError Bytes :=
  Checked.expect (encodeFields [aad, wrappedDek]).toOption

/-- Exactly the first record has no predecessor. -/
def wrapCheckGenesis (seq : UInt64) (prev : Digest) : Except WrapError Unit :=
  genesisRule (fun seq _ => .genesisMismatch seq) seq prev

/-- Read a field of an expected width. -/
def wrapFixed (width : Nat) (field : String) (data : Bytes) : Except WrapError (FixedBytes width) :=
  fixedField .badWidth width field data

namespace WrapRecord

/-- The record as it is stored and sent. -/
def encode (r : WrapRecord) : Except WrapError Bytes :=
  (encodeFields [r.salt, r.params.encode, r.wrappedDek, u64Le r.seq, u64Le r.anchor.seq,
    r.anchor.sigHash.bytes, r.prev.bytes, r.sig]).mapError .decode

/-- Read a record back, index by index. -/
def decode (bytes : Bytes) : Checked WrapError WrapRecord := do
  let f ← (Checked.decodeFields bytes).mapError WrapError.decode
  lift (ensure (f.length = 8) (.fieldCount 8 f.length))
  -- The two widths come first, so that a short salt is named before anything is read.
  let salt ← item f 0
  lift (ensure (minSalt ≤ salt.length) (.saltTooShort salt.length))
  let sig ← item f 7
  lift (ensure (sig.length = signatureLen) (.badWidth "sig" signatureLen sig.length))
  -- Chain placement is checked before the parameters and the key are looked at.
  let seq ← lift (wrapFixed 8 "seq" (← item f 3))
  let prev ← lift (wrapFixed 32 "prev" (← item f 6))
  lift (wrapCheckGenesis (u64OfLe seq.bytes) prev)
  let params ← lift ((Argon2Params.decode (← item f 1)).mapError .param)
  let wrappedDek ← item f 2
  let anchorSeq ← lift (wrapFixed 8 "anchor_seq" (← item f 4))
  let sigHash ← lift (wrapFixed 32 "anchor_sig_hash" (← item f 5))
  return ⟨salt, params, wrappedDek, u64OfLe seq.bytes, ⟨u64OfLe anchorSeq.bytes, sigHash⟩,
    prev, sig⟩

/-- The associated data of a record. -/
def aad (r : WrapRecord) : Checked WrapError Bytes := wrapAad r.salt r.params r.seq r.anchor r.prev

section

variable [Crypto]

/-- Verify against a known key, which is what a peer does that cannot open the record. -/
def verifyPk (r : WrapRecord) (verifyingKey : Bytes) : Checked WrapError Unit := do
  -- A record at the wrong place is refused whoever signed it.
  lift (wrapCheckGenesis r.seq r.prev)
  let a ← r.aad
  let body ← wrapBody a r.wrappedDek
  lift ((verify verifyingKey .wrap body r.sig).mapError fun _ => .badSignature)

/-- The hash the next record names this one by. -/
def chainHash (r : WrapRecord) : Checked WrapError Digest := do
  let a ← r.aad
  return Crypto.blake3 (chainDomain ++ u64Le (UInt64.ofNat a.length) ++ a ++ r.wrappedDek ++ r.sig)

variable [Kdf] [SigKeyPair]

/-- Verify with secrets that were recovered already. -/
def verifyWith (r : WrapRecord) (secrets : NamespaceSecrets) : Checked WrapError Unit := do
  let identity ← lift (secrets.slotIdentity.mapError .sign)
  r.verifyPk identity.verifyingKey

variable [Cipher] [Argon2]

/--
Wrap a data key under a passphrase and sign the result, with a salt and a nonce that were drawn.
-/
def create (passphrase : Bytes) (dek : FixedBytes keyLen) (params : Argon2Params)
    (policy : WrapPolicy) (seq : UInt64) (anchor : Anchor) (prev : Digest)
    (salt : Except String (FixedBytes 32)) (nonce : Option (FixedBytes nonceLen)) :
    Checked WrapError WrapRecord := do
  -- Weak parameters and a bad placement are refused before the passphrase is hashed.
  lift ((params.check policy).mapError .param)
  lift (wrapCheckGenesis seq prev)
  let salt ← lift (salt.mapError .io)
  let key ← lift ((params.derive passphrase salt.bytes).mapError .param)
  let a ← wrapAad salt.bytes params seq anchor prev
  let wrappedDek ← lift ((sealRandom key nonce dek.bytes a).mapError fun _ => .unwrap)
  -- The identity comes from the data key itself, so whoever signs knew the passphrase.
  let identity ← lift ((NamespaceSecrets.fromDek dek).slotIdentity.mapError .sign)
  let body ← wrapBody a wrappedDek
  let sig ← lift ((identity.sign .wrap body).mapError .sign)
  return ⟨salt.bytes, params, wrappedDek, seq, anchor, prev, sig⟩

/-- Recover the secrets of the namespace, and the floor together with them. -/
def unwrap (r : WrapRecord) (passphrase : Bytes) (policy : WrapPolicy) :
    Checked WrapError (NamespaceSecrets × Anchor) := do
  -- A stored record has to pass the floor and the ceiling before any memory is spent on it.
  lift ((r.params.check policy).mapError .param)
  lift (wrapCheckGenesis r.seq r.prev)
  lift (ensure (minSalt ≤ r.salt.length) (.saltTooShort r.salt.length))
  let key ← lift ((r.params.derive passphrase r.salt).mapError .param)
  let a ← r.aad
  let dekBytes ← lift ((openRandom key r.wrappedDek a).mapError fun _ => .unwrap)
  -- A plaintext of another width is reported like a wrong passphrase.
  let dek ← lift (okOr (FixedBytes.ofBytes? keyLen dekBytes) .unwrap)
  let secrets := NamespaceSecrets.fromDek dek
  r.verifyWith secrets
  return (secrets, r.anchor)

/-- Recover the data key alone. -/
def recoverDek (r : WrapRecord) (passphrase : Bytes) (policy : WrapPolicy) :
    Checked WrapError (FixedBytes keyLen) := do
  lift ((r.params.check policy).mapError .param)
  lift (wrapCheckGenesis r.seq r.prev)
  lift (ensure (minSalt ≤ r.salt.length) (.saltTooShort r.salt.length))
  let key ← lift ((r.params.derive passphrase r.salt).mapError .param)
  let a ← r.aad
  let plain ← lift ((openRandom key r.wrappedDek a).mapError fun _ => .unwrap)
  lift (okOr (FixedBytes.ofBytes? keyLen plain) .unwrap)

/-- Change the passphrase, or the floor, and leave what is stored as it is. -/
def rewrap (r : WrapRecord) (oldPassphrase newPassphrase : Bytes) (params : Argon2Params)
    (policy : WrapPolicy) (seq : UInt64) (anchor : Anchor) (salt : Except String (FixedBytes 32))
    (nonce : Option (FixedBytes nonceLen)) :
    Checked WrapError WrapRecord := do
  let dek ← r.recoverDek oldPassphrase policy
  -- The new record names the old one as the record before it.
  let prev ← r.chainHash
  create newPassphrase dek params policy seq anchor prev salt nonce

end

end WrapRecord

/-- A field is read as the array whose bytes it is. -/
theorem wrapFixed_eq_ok {width : Nat} {field : String} {data : Bytes} {a : FixedBytes width} :
    wrapFixed width field data = .ok a ↔ data = a.bytes := fixedField_eq_ok

/-- Exactly a genesis record has no predecessor. -/
theorem wrapCheckGenesis_eq_ok {seq : UInt64} {prev : Digest} {u : Unit} :
    wrapCheckGenesis seq prev = .ok u ↔ (seq = 0 ↔ prev = Digest.zero) := genesisRule_eq_ok

/-- Eight fields are eight fields. -/
theorem length_eq_eight {f : List Bytes} (eight : f.length = 8) :
    ∃ a b c d e g h i, f = [a, b, c, d, e, g, h, i] := by
  match f, eight with
  | [a, b, c, d, e, g, h, i], _ => exact ⟨a, b, c, d, e, g, h, i, rfl⟩

namespace WrapRecord

/--
A record that can be stored: widths, the genesis rule, and a salt and a wrapped key
that fit their fields.
-/
structure Proper (r : WrapRecord) : Prop where
  salt : minSalt ≤ r.salt.length
  sig : r.sig.length = signatureLen
  genesis : r.seq = 0 ↔ r.prev = Digest.zero
  saltFits : r.salt.length ≤ maxField
  keyFits : r.wrappedDek.length ≤ maxField

/-- The stored form of a wrap record. -/
def format : Codec WrapError WrapRecord := ⟨encode, decode⟩

/-- No index of the decoder lies outside the fields. -/
theorem decode_total (bytes : Bytes) : (decode bytes).Total := by
  -- The count of fields was checked, so none of the eight is missing.
  refine Checked.total_of_fields (fun f counted => ?_) bytes
  obtain ⟨a, b, c, d, e, g, h, i, rfl⟩ := length_eq_eight counted
  simp only [Checked.item_cons_zero, Checked.item_cons_succ, Checked.lift_ok_bind, Checked.pure_eq]
  repeat refine Checked.total_bind (Checked.total_lift _) fun _ _ => ?_
  exact Checked.total_lift _

/-- Exactly the encodings of proper records are accepted. -/
theorem decode_eq_ok {bytes : Bytes} {r : WrapRecord} :
    decode bytes = lift (.ok r) ↔ r.Proper ∧ r.encode = .ok bytes := by
  -- A record has eight fields, and each is checked on its own.
  rw [decode, Checked.of_fields_eq_ok]
  constructor
  · rintro ⟨f, split, counted, decoded⟩
    obtain ⟨salt, params, wrappedDek, seq, anchorSeq, sigHash, prev, sig, rfl⟩ :=
      length_eq_eight counted
    simp only [Checked.bind_eq_ok, Checked.item_cons_zero, Checked.item_cons_succ, Checked.lift_inj,
      ensure_eq_ok, except_mapError_eq_ok, Except.ok.injEq, Checked.pure_eq, exists_eq_left',
      wrapFixed_eq_ok, wrapCheckGenesis_eq_ok, Argon2Params.decode_eq_ok] at decoded
    -- Each check leaves what it asked, and each field what it was read from.
    obtain ⟨_, long, _, width, place, rfl, before, rfl, _, genesis, cost, rfl, floor, rfl, named,
      rfl, rfl⟩ := decoded
    have fits := (framed_of_decodeFields split).2
    refine ⟨⟨long, width, genesis, fits _ (by simp), fits _ (by simp)⟩, ?_⟩
    -- The fields that were read are those the record is written with.
    rw [encode, except_mapError_eq_ok, u64Le_u64OfLe_fixed, u64Le_u64OfLe_fixed]
    exact encodeFields_of_decodeFields split
  · rintro ⟨proper, encoded⟩
    -- The way back: every check passes on the fields of a proper record.
    have numbers (field : String) (n : UInt64) :
        wrapFixed 8 field (u64Le n) = .ok ⟨u64Le n, u64Le_length n⟩ :=
      fixedField_of_length _ _ _
    have arrays (field : String) (a : Digest) : wrapFixed 32 field a.bytes = .ok a :=
      wrapFixed_eq_ok.mpr rfl
    have genesis : wrapCheckGenesis r.seq r.prev = .ok () :=
      wrapCheckGenesis_eq_ok.mpr proper.genesis
    have params : Argon2Params.decode r.params.encode = .ok r.params :=
      Argon2Params.decode_eq_ok.mpr rfl
    refine ⟨_, decodeFields_of_encodeFields (except_mapError_eq_ok.mp encoded), rfl, ?_⟩
    simp only [except_mapError_ok, Checked.lift_ok_bind, ensure_of, Checked.item_cons_zero,
      Checked.item_cons_succ, proper.salt, proper.sig, numbers, arrays, genesis, params,
      u64OfLe_u64Le, Checked.pure_eq]

/-- A proper record is written. -/
theorem encodes {r : WrapRecord} (proper : r.Proper) : ∃ bytes, r.encode = .ok bytes := by
  -- Each field fits its frame.
  have salt : r.salt.length ≤ 4294967295 := proper.saltFits
  have key : r.wrappedDek.length ≤ 4294967295 := proper.keyFits
  have fits : FieldsFit [r.salt, r.params.encode, r.wrappedDek, u64Le r.seq, u64Le r.anchor.seq,
      r.anchor.sigHash.bytes, r.prev.bytes, r.sig] := by
    simp [FieldsFit, FixedBytes.size, proper.sig, Argon2Params.encode_length,
      signatureLen, maxField]
    exact ⟨salt, key⟩
  exact ⟨_, except_mapError_eq_ok.mpr (encodeFields_ok fits)⟩

/-- A wrap record has one encoding. -/
theorem format_canonical : format.Canonical Proper :=
  Codec.canonical_of_iff decode_total (fun _ _ => decode_eq_ok) fun _ => encodes

end WrapRecord

end NasTools
