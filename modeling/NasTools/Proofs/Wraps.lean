import NasTools.Model.Store.Concrete
import NasTools.Model.Vault.Wrap

/-! Wrap records in an ideal world: what a peer serves opens only as a record that was made. -/

namespace NasTools

open Checked (lift)

/-- A field sequence is expected to encode, and it does. -/
theorem expect_encodeFields {E : Type} {fields : List Bytes} {bytes : Bytes} :
    (Checked.expect (encodeFields fields).toOption : Checked E Bytes) = lift (.ok bytes) ↔
      encodeFields fields = .ok bytes := by
  -- Fields that are not encoded are a panic, which is no outcome.
  cases encodeFields fields with
  | error e =>
    exact iff_of_false (fun impossible => by cases impossible)
      (fun impossible => by cases impossible)
  | ok made => simp [Except.toOption]

namespace WrapRecord

/-- All that a record binds to its wrapped key is the same in both. -/
structure BoundAlike (made served : WrapRecord) : Prop where
  salt : made.salt = served.salt
  params : made.params = served.params
  wrappedDek : made.wrappedDek = served.wrappedDek
  seq : made.seq = served.seq
  anchor : made.anchor = served.anchor
  prev : made.prev = served.prev

/-- The associated data of a record and its wrapped key decide everything but the signature. -/
theorem boundAlike_of_aad {made served : WrapRecord} {a : Bytes} (first : made.aad = lift (.ok a))
    (second : served.aad = lift (.ok a)) (wrapped : made.wrappedDek = served.wrappedDek) :
      BoundAlike made served := by
  -- One encoding has one list of fields, and the parameters in it have an encoding of their own.
  have fields := encodeFields_inj (expect_encodeFields.mp first) (expect_encodeFields.mp second)
  simp only [List.cons.injEq, and_true] at fields
  obtain ⟨salt, params, seq, floor, sigHash, prev⟩ := fields
  have anchor : made.anchor = served.anchor := by
    calc made.anchor
      _ = ⟨made.anchor.seq, made.anchor.sigHash⟩ := rfl
      _ = ⟨served.anchor.seq, served.anchor.sigHash⟩ := by
        rw [u64Le_inj floor, FixedBytes.ext sigHash]
      _ = served.anchor := rfl
  exact ⟨salt, Argon2Params.encode_inj params, wrapped, u64Le_inj seq, anchor, FixedBytes.ext prev⟩

section

variable [Cipher] [Argon2]

/-- The steps by which a data key is recovered. -/
theorem recoverDek_eq_ok {r : WrapRecord} {passphrase : Bytes} {policy : WrapPolicy}
    {dek : FixedBytes keyLen} :
    r.recoverDek passphrase policy = lift (.ok dek) ↔
      r.params.check policy = .ok () ∧ (r.seq = 0 ↔ r.prev = Digest.zero) ∧
        minSalt ≤ r.salt.length ∧
        ∃ key a, r.params.derive passphrase r.salt = .ok key ∧ r.aad = lift (.ok a) ∧
          openRandom key r.wrappedDek a = .ok dek.bytes := by
  -- The tests come in turn, and the plaintext is a key if it has the width of one.
  simp only [recoverDek, Checked.bind_eq_ok, Checked.lift_inj, except_mapError_eq_ok,
    wrapCheckGenesis_eq_ok, ensure_eq_ok, okOr_eq_ok]
  constructor
  · -- The plaintext has the width of a key, so it is the bytes of one.
    intro opened
    obtain ⟨_, checked, _, genesis, _, long, key, derived, a, bound, plain, opened, width⟩ := opened
    rw [← FixedBytes.bytes_of_ofBytes? width] at opened
    exact ⟨checked, genesis, long, key, a, derived, bound, opened⟩
  · intro parts
    obtain ⟨checked, genesis, long, key, a, derived, bound, opened⟩ := parts
    exact ⟨(), checked, (), genesis, (), long, key, derived, a, bound, dek.bytes, opened,
      FixedBytes.ofBytes?_bytes dek⟩

/-- The policy refuses a record or lets it pass, and has no say in what its data key is. -/
theorem recoverDek_policy {r : WrapRecord} {passphrase : Bytes} {policy policy' : WrapPolicy}
    {dek dek' : FixedBytes keyLen} (first : r.recoverDek passphrase policy = lift (.ok dek))
    (second : r.recoverDek passphrase policy' = lift (.ok dek')) :
    dek = dek' := by
  -- The check of the policy comes first.
  obtain ⟨_, _, _, key, a, derived, bound, opened⟩ := recoverDek_eq_ok.mp first
  obtain ⟨_, _, _, key', a', derived', bound', opened'⟩ := recoverDek_eq_ok.mp second
  -- Salt, cost and associated data are the record's own, whatever the policy is.
  obtain rfl : key = key' := Except.ok.inj (derived.symm.trans derived')
  obtain rfl : a = a' := by simpa using bound.symm.trans bound'
  exact FixedBytes.ext (Except.ok.inj (opened.symm.trans opened'))

variable [Kdf] [SigKeyPair]

/-- A record holds a data key under a passphrase, and is signed by the identity the key derives. -/
structure Wraps (r : WrapRecord) (passphrase : Bytes) (dek : FixedBytes keyLen) : Prop where
  genesis : r.seq = 0 ↔ r.prev = Digest.zero
  salt : r.salt.length = 32
  sealed : ∃ key nonce a, r.params.derive passphrase r.salt = .ok key ∧ r.aad = lift (.ok a) ∧
    sealRandom key nonce dek.bytes a = .ok r.wrappedDek
  signed : ∃ identity a body, (NamespaceSecrets.fromDek dek).slotIdentity = .ok identity ∧
    r.aad = lift (.ok a) ∧
    wrapBody a r.wrappedDek = lift (.ok body) ∧ identity.sign .wrap body = .ok r.sig

/-- A record that was created wraps the key it was given, and says what it was told to. -/
theorem create_eq_ok {passphrase : Bytes} {dek : FixedBytes keyLen} {params : Argon2Params}
    {policy : WrapPolicy} {seq : UInt64} {anchor : Anchor} {prev : Digest}
    {salt : Except String (FixedBytes 32)} {nonce : Option (FixedBytes nonceLen)} {r : WrapRecord}
    (made : create passphrase dek params policy seq anchor prev salt nonce = lift (.ok r)) :
    r.Wraps passphrase dek ∧ params.check policy = .ok () ∧ r.params = params ∧ r.seq = seq ∧
      r.anchor = anchor ∧ r.prev = prev := by
  -- The steps that succeed are taken apart.
  simp only [create, Checked.bind_eq_ok, Checked.lift_inj, except_mapError_eq_ok,
    wrapCheckGenesis_eq_ok, Checked.pure_eq, Except.ok.injEq] at made
  -- In order: the two checks, the salt, the key, the sealing, the identity and the signature.
  obtain ⟨_, checked, _, genesis, salt, _, key, derived, a, bound, wrapped, sealed, identity, grown,
    body, framed, sig, signed, rfl⟩ := made
  exact ⟨⟨genesis, salt.size, ⟨key, nonce, a, derived, bound, sealed⟩,
    ⟨identity, a, body, grown, bound, framed, signed⟩⟩, checked, rfl, rfl, rfl, rfl⟩

variable [Crypto]

/-- Opening a record recovers its data key, and verifies the record with what the key derives. -/
theorem unwrap_eq (r : WrapRecord) (passphrase : Bytes) (policy : WrapPolicy) :
    r.unwrap passphrase policy = do
      let dek ← r.recoverDek passphrase policy
      r.verifyWith (.fromDek dek)
      return (.fromDek dek, r.anchor) := by
  -- Both begin with the same six steps, and differ in what follows them.
  simp only [unwrap, recoverDek, bind_assoc]

/-- A record is unwrapped by its key, and then it verifies. -/
theorem unwrap_eq_ok {r : WrapRecord} {passphrase : Bytes} {policy : WrapPolicy}
    {secrets : NamespaceSecrets} {floor : Anchor} :
    r.unwrap passphrase policy = lift (.ok (secrets, floor)) ↔
      ∃ dek, r.recoverDek passphrase policy = lift (.ok dek) ∧
        r.verifyWith (.fromDek dek) = lift (.ok ()) ∧
        secrets = .fromDek dek ∧ floor = r.anchor := by
  -- The key is recovered, the record is verified, and the anchor is handed out.
  simp only [unwrap_eq, Checked.bind_eq_ok, Checked.pure_eq, Checked.lift_inj, Except.ok.injEq,
    Prod.mk.injEq]
  constructor
  · intro opened
    obtain ⟨dek, recovered, _, verified, rfl, rfl⟩ := opened
    exact ⟨dek, recovered, verified, rfl, rfl⟩
  · intro parts
    obtain ⟨dek, recovered, verified, rfl, rfl⟩ := parts
    exact ⟨dek, recovered, (), verified, rfl, rfl⟩

/-- What is needed for a record to be created. -/
theorem create_ok {passphrase : Bytes} {dek : FixedBytes keyLen} {params : Argon2Params}
    {policy : WrapPolicy} {seq : UInt64} (anchor : Anchor) {prev : Digest} (salt : FixedBytes 32)
    {nonce : Option (FixedBytes nonceLen)} {key : FixedBytes 32} {identity : Identity}
    (checked : params.check policy = .ok ()) (genesis : seq = 0 ↔ prev = Digest.zero)
    (derived : params.derive passphrase salt.bytes = .ok key)
    (seals : ∀ a, ∃ wrapped, sealRandom key nonce dek.bytes a = .ok wrapped ∧
      wrapped.length ≤ maxField)
    (grown : (NamespaceSecrets.fromDek dek).slotIdentity = .ok identity) (works : identity.Signs) :
    ∃ r, create passphrase dek params policy seq anchor prev (.ok salt) nonce = lift (.ok r) := by
  -- The associated data is of one width, and so is small enough to be signed with the wrapped key.
  obtain ⟨a, encoded, width⟩ := encodeFields_width
    [salt.bytes, params.encode, u64Le seq, u64Le anchor.seq, anchor.sigHash.bytes, prev.bytes] [32,
      24, 8, 8, 32, 32]
    (by simp [FixedBytes.size, Argon2Params.encode_length]) (by decide)
  have bound : wrapAad salt.bytes params seq anchor prev = lift (.ok a) :=
    expect_encodeFields.mpr encoded
  obtain ⟨wrapped, sealed, small⟩ := seals a
  have fits : FieldsFit [a, wrapped] := by
    have short : a.length ≤ maxField := width ▸ by decide
    simp [FieldsFit, small, short]
  have framed : wrapBody a wrapped = lift (.ok _) := expect_encodeFields.mpr (encodeFields_ok fits)
  obtain ⟨sig, signed, _⟩ := works.sign_verifies .wrap ([a, wrapped].flatMap framedField)
  have placed : wrapCheckGenesis seq prev = .ok () := wrapCheckGenesis_eq_ok.mpr genesis
  refine ⟨⟨salt.bytes, params, wrapped, seq, anchor, prev, sig⟩, ?_⟩
  simp only [create, checked, placed, derived, bound, sealed, grown, framed, signed,
    except_mapError_ok, Checked.lift_ok_bind, Checked.pure_eq]

section

variable (trusted : Cipher.Trusted)
    (grows : ∀ seed identity, SigKeyPair.fromSeed seed = some identity → identity.Signs)
include trusted

omit [Crypto] in
/-- The data key a record wraps is recovered from it. -/
theorem Wraps.recoverDek {r : WrapRecord} {passphrase : Bytes} {dek : FixedBytes keyLen}
    {policy : WrapPolicy} (wraps : r.Wraps passphrase dek)
    (checked : r.params.check policy = .ok ()) :
    r.recoverDek passphrase policy = lift (.ok dek) := by
  -- Each step of the recovery undoes one of the wrapping.
  obtain ⟨key, nonce, a, derived, bound, sealed⟩ := wraps.sealed
  -- A salt that was drawn is longer than the least one that is accepted.
  have long : minSalt ≤ r.salt.length := by
    rw [wraps.salt]
    decide
  exact recoverDek_eq_ok.mpr
    ⟨checked, wraps.genesis, long, key, a, derived, bound, openRandom_sealRandom trusted sealed⟩

include grows

/-- A record that wraps a data key opens to what the key derives, and to its own floor. -/
theorem Wraps.unwrap {r : WrapRecord} {passphrase : Bytes} {dek : FixedBytes keyLen}
    {policy : WrapPolicy} (wraps : r.Wraps passphrase dek)
    (checked : r.params.check policy = .ok ()) :
    r.unwrap passphrase policy = lift (.ok (.fromDek dek, r.anchor)) := by
  -- Each step of the opening undoes one of the creation.
  obtain ⟨identity, a, body, grown, bound, framed, signed⟩ := wraps.signed
  have works : identity.Signs := grows _ _ (okOr_eq_ok.mp grown)
  -- A working keypair makes one signature of a message, and it verifies.
  obtain ⟨sig, made, _, verifies⟩ := works.sign_verifies .wrap body
  obtain rfl : sig = r.sig := Except.ok.inj (made.symm.trans signed)
  have placed : wrapCheckGenesis r.seq r.prev = .ok () := wrapCheckGenesis_eq_ok.mpr wraps.genesis
  -- The secrets of the recovered key grow the identity that signed.
  have verified : r.verifyWith (.fromDek dek) = lift (.ok ()) := by
    simp only [verifyWith, verifyPk, grown, placed, bound, framed, verifies,
      except_mapError_ok, Checked.lift_ok_bind]
  exact unwrap_eq_ok.mpr ⟨dek, wraps.recoverDek trusted checked, verified, rfl, rfl⟩

end

end

end WrapRecord

/-- A call by which somebody who holds the data key makes a record, with what it draws. -/
inductive WrapCall where
  | create (passphrase : Bytes) (dek : FixedBytes keyLen) (params : Argon2Params)
    (policy : WrapPolicy) (seq : UInt64)
    (anchor : Anchor) (prev : Digest) (salt : Except String (FixedBytes 32))
      (nonce : Option (FixedBytes nonceLen))
  | rewrap (record : WrapRecord) (oldPassphrase newPassphrase : Bytes) (params : Argon2Params)
    (policy : WrapPolicy) (seq : UInt64) (anchor : Anchor) (salt : Except String (FixedBytes 32))
      (nonce : Option (FixedBytes nonceLen))

namespace WrapCall

/-- The passphrase the record of a call is made under. -/
def passphrase : WrapCall → Bytes
  | create passphrase .. => passphrase
  | rewrap _ _ newPassphrase .. => newPassphrase

/-- The floor a call is given. -/
def anchor : WrapCall → Anchor
  | create _ _ _ _ _ anchor .. => anchor
  | rewrap _ _ _ _ _ _ anchor .. => anchor

section

variable [Cipher] [Argon2]

/-- The data key of a call, which a rewrap takes out of the record it is given. -/
def dek : WrapCall → Checked WrapError (FixedBytes keyLen)
  | create _ dek .. => lift (.ok dek)
  | rewrap record oldPassphrase _ _ policy .. => record.recoverDek oldPassphrase policy

variable [Crypto] [Kdf] [SigKeyPair]

/-- The outcome of a call. -/
def run : WrapCall → Checked WrapError WrapRecord
  | create passphrase dek params policy seq anchor prev salt nonce =>
    WrapRecord.create passphrase dek params policy seq anchor prev salt nonce
  | rewrap record oldPassphrase newPassphrase params policy seq anchor salt nonce =>
    record.rewrap oldPassphrase newPassphrase params policy seq anchor salt nonce

/-- A call made a record, of a data key. -/
structure Made (call : WrapCall) (record : WrapRecord) (dek : FixedBytes keyLen) : Prop where
  record : call.run = lift (.ok record)
  dek : call.dek = lift (.ok dek)

/-- A rewrap creates a record of the data key it recovered, which names the old record. -/
theorem rewrap_eq_ok {old : WrapRecord} {oldPassphrase newPassphrase : Bytes}
    {params : Argon2Params} {policy : WrapPolicy} {seq : UInt64} {anchor : Anchor}
    {salt : Except String (FixedBytes 32)} {nonce : Option (FixedBytes nonceLen)} {r : WrapRecord} :
    old.rewrap oldPassphrase newPassphrase params policy seq anchor salt nonce = lift (.ok r) ↔
      ∃ dek prev, old.recoverDek oldPassphrase policy = lift (.ok dek) ∧
        old.chainHash = lift (.ok prev) ∧
        WrapRecord.create newPassphrase dek params policy seq anchor prev salt nonce =
          lift (.ok r) := by
  -- The key is recovered before the old record is named, and either may fail.
  simp only [WrapRecord.rewrap, Checked.bind_eq_ok]
  constructor
  · intro opened
    obtain ⟨dek, recovered, prev, named, made⟩ := opened
    exact ⟨dek, prev, recovered, named, made⟩
  · intro parts
    obtain ⟨dek, prev, recovered, named, made⟩ := parts
    exact ⟨dek, recovered, prev, named, made⟩

/-- What a call made wraps its data key under its passphrase, and carries its floor. -/
theorem Made.wraps {call : WrapCall} {r : WrapRecord} {dek : FixedBytes keyLen}
    (made : call.Made r dek) :
    r.Wraps call.passphrase dek ∧ r.anchor = call.anchor := by
  -- The call was a creation or a rewrap.
  obtain ⟨ran, keyed⟩ := made
  cases call with
  -- A new record wraps the key it was given.
  | create passphrase given params policy seq anchor prev salt nonce =>
    obtain rfl : given = dek := by simpa [WrapCall.dek] using keyed
    obtain ⟨wraps, _, _, _, floor, _⟩ := WrapRecord.create_eq_ok ran
    exact ⟨wraps, floor⟩
  | rewrap record oldPassphrase newPassphrase params policy seq anchor salt nonce =>
    -- A rewrap goes through a new record, of the key that the old one held.
    obtain ⟨recovered, prev, found, _, created⟩ := rewrap_eq_ok.mp ran
    obtain rfl : recovered = dek := by simpa using found.symm.trans keyed
    obtain ⟨wraps, _, _, _, floor, _⟩ := WrapRecord.create_eq_ok created
    exact ⟨wraps, floor⟩

/-- Some call sealed these bytes, under this key and this associated data. -/
def Sealed (log : Set WrapCall) (key : FixedBytes 32) (aad wrapped plain : Bytes) : Prop :=
  ∃ call ∈ log, ∃ r dek, call.Made r dek ∧ r.params.derive call.passphrase r.salt = .ok key ∧
    r.aad = lift (.ok aad) ∧ r.wrappedDek = wrapped ∧ dek.bytes = plain

/--
The ideal cipher and the ideal derivation of keys, where a served record is tried with a passphrase.

Only what one of the calls sealed under the same key and associated data opens, and no two
passphrases derive one key.
-/
structure Ideal (log : Set WrapCall) (served : WrapRecord) (passphrase : Bytes) : Prop where
  opens : ∀ key aad plain, served.params.derive passphrase served.salt = .ok key →
    served.aad = lift (.ok aad) →
    openRandom key served.wrappedDek aad = .ok plain → Sealed log key aad served.wrappedDek plain
  keys : ∀ call ∈ log, ∀ key, served.params.derive call.passphrase served.salt = .ok key →
    served.params.derive passphrase served.salt = .ok key → call.passphrase = passphrase

/--
A served record from which a data key is recovered is one that a call made, but for its signature.
-/
theorem Ideal.made {log : Set WrapCall} {served : WrapRecord} {passphrase : Bytes}
    (ideal : Ideal log served passphrase) {policy : WrapPolicy} {dek : FixedBytes keyLen}
    (recovered : served.recoverDek passphrase policy = lift (.ok dek)) :
    ∃ call ∈ log, ∃ r, call.Made r dek ∧ call.passphrase = passphrase ∧ r.BoundAlike served := by
  -- What opened was sealed by one of the calls.
  obtain ⟨_, _, _, key, a, derived, bound, opened⟩ := WrapRecord.recoverDek_eq_ok.mp recovered
  obtain ⟨call, logged, r, sealed, made, derived', bound', wrapped, plain⟩ :=
    ideal.opens key a _ derived bound opened
  -- The associated data agrees in every field, so both keys are derived with one salt and one cost.
  have alike := WrapRecord.boundAlike_of_aad bound' bound wrapped
  rw [alike.params, alike.salt] at derived'
  obtain rfl : sealed = dek := FixedBytes.ext plain
  exact ⟨call, logged, r, made, ideal.keys call logged key derived' derived, alike⟩

/-- A world in which one record was made is ideal for that record. -/
theorem Made.ideal (trusted : Cipher.Trusted) {call : WrapCall} {r : WrapRecord}
    {dek : FixedBytes keyLen} (made : call.Made r dek) : Ideal {call} r call.passphrase where
  -- Only one call was made, so it is the call of whatever opens.
  opens key a plain derived bound opened := by
    -- What opens was sealed by the one call, since sealing is undone by opening.
    obtain ⟨key', nonce, a', derived', bound', sealed⟩ := made.wraps.1.sealed
    obtain rfl : key = key' := Except.ok.inj (derived.symm.trans derived')
    obtain rfl : a = a' := by simpa using bound.symm.trans bound'
    have same : dek.bytes = plain :=
      Except.ok.inj ((openRandom_sealRandom trusted sealed).symm.trans opened)
    exact ⟨call, rfl, r, dek, made, derived, bound, rfl, same⟩
  keys other logged _ _ _ := congrArg passphrase logged

end

end WrapCall

section

variable [Crypto] [Cipher] [Kdf] [SigKeyPair] [Argon2]

/--
A stored wrap record cannot be altered, and whatever was made can be opened,
rewrapped, written and read.
-/
theorem wrap_record_cannot_be_altered (trusted : Cipher.Trusted)
    (grows : ∀ seed identity, SigKeyPair.fromSeed seed = some identity → identity.Signs)
    (log : Set WrapCall) :
    -- What opens is a record that was made under the passphrase, and gives what was given there.
    (∀ served passphrase policy secrets floor, WrapCall.Ideal log served passphrase →
      served.unwrap passphrase policy = lift (.ok (secrets, floor)) →
      ∃ call ∈ log, ∃ r dek, call.Made r dek ∧ call.passphrase = passphrase ∧ r.BoundAlike served ∧
        secrets = .fromDek dek ∧ floor = call.anchor) ∧
    -- What was made opens, wherever its parameters are accepted.
    (∀ (call : WrapCall) r dek policy, call.Made r dek → r.params.check policy = .ok () →
      r.unwrap call.passphrase policy = lift (.ok (.fromDek dek, call.anchor))) ∧
    -- What is rewrapped opens under the new passphrase, to the secrets the old one opened.
    (∀ (old : WrapRecord) oldPassphrase newPassphrase params policy seq anchor salt nonce r,
      old.rewrap oldPassphrase newPassphrase params policy seq anchor salt nonce = lift (.ok r) →
      ∃ dek, old.recoverDek oldPassphrase policy = lift (.ok dek) ∧
        r.unwrap newPassphrase policy = lift (.ok (.fromDek dek, anchor)) ∧
        ∀ policy' secrets floor, old.unwrap oldPassphrase policy' = lift (.ok (secrets, floor)) →
          secrets = .fromDek dek) ∧
    -- A record that was made is rewrapped wherever its data key could be wrapped anew.
    (∀ (call : WrapCall) old dek newPassphrase params policy seq anchor salt nonce,
      call.Made old dek →
      old.params.check policy = .ok () → ∃ prev, old.chainHash = lift (.ok prev) ∧
        old.rewrap call.passphrase newPassphrase params policy seq anchor salt nonce =
          WrapRecord.create newPassphrase dek params policy seq anchor prev salt nonce) ∧
    -- The strings that are accepted and the records that can be stored are in bijection.
    WrapRecord.format.Canonical WrapRecord.Proper := by
  -- Opening, opening what was made, rewrapping, and the format.
  refine ⟨?_, ?_, ?_, ?_, WrapRecord.format_canonical⟩
  · intro served passphrase policy secrets floor ideal opened
    -- The record that was made agrees in the floor, which is the one its call was given.
    obtain ⟨dek, recovered, _, rfl, rfl⟩ := WrapRecord.unwrap_eq_ok.mp opened
    obtain ⟨call, logged, r, made, under, alike⟩ := ideal.made recovered
    exact ⟨call, logged, r, dek, made, under, alike, rfl, alike.anchor.symm.trans made.wraps.2⟩
  · intro call r dek policy made checked
    -- The signature verifies under the identity that the recovered key derives.
    obtain ⟨wraps, floor⟩ := made.wraps
    rw [wraps.unwrap trusted grows checked, floor]
  · intro old oldPassphrase newPassphrase params policy seq anchor salt nonce r made
    obtain ⟨dek, prev, recovered, _, created⟩ := WrapCall.rewrap_eq_ok.mp made
    obtain ⟨wraps, checked, rfl, _, rfl, _⟩ := WrapRecord.create_eq_ok created
    refine ⟨dek, recovered, wraps.unwrap trusted grows checked, ?_⟩
    -- Whatever policy the old record opens under, its key is the one that was recovered.
    intro policy' secrets floor opened
    obtain ⟨other, again, _, rfl, _⟩ := WrapRecord.unwrap_eq_ok.mp opened
    rw [WrapRecord.recoverDek_policy again recovered]
  · intro call old dek newPassphrase params policy seq anchor salt nonce made checked
    obtain ⟨wraps, _⟩ := made.wraps
    obtain ⟨_, _, a, _, bound, _⟩ := wraps.sealed
    -- The chain hash is over associated data that is known to encode.
    obtain ⟨prev, named⟩ : ∃ prev, old.chainHash = lift (.ok prev) := by
      rw [WrapRecord.chainHash, bound, Checked.lift_ok_bind]
      exact ⟨_, rfl⟩
    refine ⟨prev, named, ?_⟩
    rw [WrapRecord.rewrap, wraps.recoverDek trusted checked, Checked.lift_ok_bind, named,
      Checked.lift_ok_bind]

end

section

open Concrete

/-- A stand-in for the derivation of keys. -/
local instance kdfByDigest : Kdf where
  deriveKey context material := digest (asciiBytes context ++ material)

/-- A stand-in for keypairs, told apart by the first byte of their seed. -/
local instance keyPairByByte : SigKeyPair where
  fromSeed seed := some (identity (seed.bytes.headD 0))

/-- A stand-in for the passphrase hash. -/
local instance argon2ByDigest : Argon2 where
  deriveKeyArgon2 passphrase salt memoryKib iterations :=
    some (digest (expectFields [salt, u32Le memoryKib, u32Le iterations] ++ passphrase))

/-- The first record of a namespace, with a floor at sequence seven. -/
def firstWrap : WrapCall :=
  .create [112, 119] (FixedBytes.zero 32) .weakForTests .fast 0 ⟨7, FixedBytes.zero 32⟩ Digest.zero
    (.ok (FixedBytes.zero 32)) (some (FixedBytes.zero _))

/-- The first record is made. -/
theorem firstWrap_made : ∃ r, firstWrap.Made r (FixedBytes.zero 32) := by
  -- The stand-in seals whatever it is given, and the result fits a field.
  have seals (key : FixedBytes 32) (a : Bytes) : ∃ wrapped,
      sealRandom key (some (FixedBytes.zero _)) (FixedBytes.zero 32).bytes a = .ok wrapped ∧
        wrapped.length ≤ maxField := by
    refine ⟨_, rfl, ?_⟩
    simp [FixedBytes.size, nonceLen, maxField, FixedBytes.zero]
  have checked : Argon2Params.weakForTests.check .fast = .ok () := by decide
  have genesis : (0 : UInt64) = 0 ↔ Digest.zero = Digest.zero := iff_of_true rfl rfl
  obtain ⟨r, created⟩ :=
    WrapRecord.create_ok ⟨7, FixedBytes.zero 32⟩ (FixedBytes.zero 32) checked genesis rfl (seals _)
    rfl (identity_signs _)
  exact ⟨r, created, rfl⟩

/--
The first record opens under its passphrase, and only as what it is, in a world that
is ideal for it.
-/
theorem first_wrap_cannot_be_altered : ∃ r, firstWrap.Made r (FixedBytes.zero 32) ∧
    WrapCall.Ideal {firstWrap} r [112, 119] ∧
    r.unwrap [112, 119] .fast =
      lift (.ok (.fromDek (FixedBytes.zero 32), ⟨7, FixedBytes.zero 32⟩)) := by
  -- The record is made, and the theorem opens it.
  have grows : ∀ seed id, SigKeyPair.fromSeed seed = some id → id.Signs := by
    intro seed id grown
    obtain rfl := Option.some.inj grown
    exact identity_signs _
  obtain ⟨r, made⟩ := firstWrap_made
  have accepted : r.params.check .fast = .ok () := by
    obtain ⟨_, checked, cost, _⟩ := WrapRecord.create_eq_ok made.record
    rw [cost]
    exact checked
  obtain ⟨_, opens, _⟩ := wrap_record_cannot_be_altered trusted grows {firstWrap}
  exact ⟨r, made, made.ideal trusted, opens firstWrap r _ .fast made accepted⟩

end

end NasTools
