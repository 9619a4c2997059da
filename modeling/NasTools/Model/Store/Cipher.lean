import NasTools.Model.Store.Manifest
import NasTools.Model.Store.Root

/-! Keys of chunks and of the cache, over an authenticated cipher that other packages implement. -/

namespace NasTools

/--
The keyed hash and the authenticated cipher.

BLAKE3 and XChaCha20-Poly1305 come from other packages.
Nothing is assumed of them here, and each result that needs a property of them names it.
-/
class Cipher where
  /-- BLAKE3 under a key. -/
  keyedHash : (key : FixedBytes keyLen) → (message : Bytes) → Digest
  /-- Encryption under a given nonce, which the sealed form does not carry. -/
  sealWithNonce : (key : FixedBytes keyLen) → (nonce : FixedBytes nonceLen) → (plain aad : Bytes) →
    Option Bytes
  /-- Decryption of what was sealed under a given nonce. -/
  openWithNonce : (key : FixedBytes keyLen) → (nonce : FixedBytes nonceLen) → (sealed aad : Bytes) →
    Option Bytes
  /-- Encryption under a random nonce, which the sealed form starts with. -/
  encryptAad : (key : FixedBytes keyLen) → (nonce : FixedBytes nonceLen) → (plain aad : Bytes) →
    Option Bytes
  /-- Decryption of what carries its own nonce. -/
  decryptAad : (key : FixedBytes keyLen) → (sealed aad : Bytes) → Option Bytes

/-- Why encryption or decryption fails. -/
inductive CryptoError where
  | opening
  | sealing
  | truncated
deriving DecidableEq

/-- The text a cipher error prints. -/
def CryptoError.display : CryptoError → String
  | .opening => "decryption failed"
  | .sealing => "encryption failed"
  | .truncated => "sealed data truncated"

/-- What the nonce of a chunk is derived from. -/
def nonceChunk : Bytes := asciiBytes "nas-tools/nonce/chunk/v1"

section

variable [Cipher]

/-- The key of a chunk, which its content decides. -/
def chunkKey (cs : FixedBytes keyLen) (plaintext : Bytes) : FixedBytes keyLen :=
  Cipher.keyedHash cs plaintext

/-- The nonce that goes with a key derived from content. -/
def derivedNonce (key : FixedBytes keyLen) : FixedBytes nonceLen :=
  -- A key derived from content seals that content only, so one nonce for each key is enough.
  ⟨(Cipher.keyedHash key nonceChunk).bytes.take nonceLen, by simp [FixedBytes.size, nonceLen]⟩

/-- Derive the key of some bytes, and seal those same bytes under it. -/
def sealChunk (cs : FixedBytes keyLen) (plaintext aad : Bytes) :
    Except CryptoError (Bytes × FixedBytes keyLen) := do
  let key := chunkKey cs plaintext
  let sealed ← okOr (Cipher.sealWithNonce key (derivedNonce key) plaintext aad) .sealing
  return (sealed, key)

/-- Decrypt a chunk under the key its manifest keeps. -/
def openChunk (key : FixedBytes keyLen) (sealed aad : Bytes) : Except CryptoError Bytes :=
  okOr (Cipher.openWithNonce key (derivedNonce key) sealed aad) .opening

/-- Seal some bytes under a key with random nonces; no nonce means that none could be drawn. -/
def sealRandom (key : FixedBytes keyLen) (nonce : Option (FixedBytes nonceLen))
    (plaintext aad : Bytes) :
    Except CryptoError Bytes :=
  okOr (nonce.bind fun n => Cipher.encryptAad key n plaintext aad) .sealing

/-- Open what was sealed under a key with random nonces. -/
def openRandom (key : FixedBytes keyLen) (sealed aad : Bytes) : Except CryptoError Bytes := do
  ensure (nonceLen ≤ sealed.length) .truncated
  okOr (Cipher.decryptAad key sealed aad) .opening

/-- What the cipher is trusted with: what was sealed opens, and nothing that was cut short does. -/
structure Cipher.Trusted : Prop where
  opens : ∀ key nonce plain aad sealed, sealWithNonce key nonce plain aad = some sealed →
    openWithNonce key nonce sealed aad = some plain
  decrypts : ∀ key nonce plain aad sealed, encryptAad key nonce plain aad = some sealed →
    nonceLen ≤ sealed.length ∧ decryptAad key sealed aad = some plain
  refuses : ∀ key nonce plain aad sealed, encryptAad key nonce plain aad = some sealed →
    ∀ k < sealed.length, decryptAad key (sealed.take k) aad = none

/-- An authenticated cipher: it seals what fits into memory, and what it sealed it opens. -/
structure Cipher.Aead : Prop where
  seals : ∀ key nonce (plain : Bytes) aad, plain.length < 2 ^ 64 →
    ∃ sealed, sealWithNonce key nonce plain aad = some sealed
  opens : ∀ key nonce plain aad sealed, sealWithNonce key nonce plain aad = some sealed →
    openWithNonce key nonce sealed aad = some plain

/-- What fits into memory is sealed. -/
theorem sealChunk_ok (aead : Cipher.Aead) (cs : FixedBytes keyLen) {plaintext : Bytes} (aad : Bytes)
    (short : plaintext.length < 2 ^ 64) : ∃ made, sealChunk cs plaintext aad = .ok made := by
  obtain ⟨sealed, enciphered⟩ :=
    aead.seals (chunkKey cs plaintext) (derivedNonce (chunkKey cs plaintext)) plaintext aad
    short
  exact ⟨(sealed, chunkKey cs plaintext), by simp [sealChunk, enciphered, okOr]⟩

/-- A sealed chunk opens under the key that comes with it. -/
theorem openChunk_sealChunk
    (opens : ∀ key nonce plain aad sealed, Cipher.sealWithNonce key nonce plain aad = some sealed →
      Cipher.openWithNonce key nonce sealed aad = some plain)
    {cs key : FixedBytes keyLen} {plaintext aad sealed : Bytes}
    (made : sealChunk cs plaintext aad = .ok (sealed, key)) :
    openChunk key sealed aad = .ok plaintext := by
  -- What was sealed is what the cipher made under the key that is handed out.
  simp only [sealChunk, except_bind_eq_ok, okOr_eq_ok, except_pure_eq, Except.ok.injEq,
    Prod.mk.injEq] at made
  obtain ⟨_, enciphered, rfl, rfl⟩ := made
  rw [openChunk, opens _ _ _ _ _ enciphered]
  rfl

variable (trusted : Cipher.Trusted)
include trusted

/-- What was sealed with a random nonce opens. -/
theorem openRandom_sealRandom {key : FixedBytes keyLen} {nonce : Option (FixedBytes nonceLen)}
    {plaintext aad sealed : Bytes} (made : sealRandom key nonce plaintext aad = .ok sealed) :
    openRandom key sealed aad = .ok plaintext := by
  -- The nonce is in front of the sealed bytes, so the cipher undoes its own work.
  simp only [sealRandom, okOr_eq_ok, Option.bind_eq_some_iff] at made
  obtain ⟨n, _, enciphered⟩ := made
  obtain ⟨framed, opened⟩ := trusted.decrypts _ _ _ _ _ enciphered
  simp only [openRandom, ensure_of framed, except_ok_bind, opened]
  rfl

/-- Only the whole of what was sealed with a random nonce opens. -/
theorem openRandom_take {key : FixedBytes keyLen} {nonce : Option (FixedBytes nonceLen)}
    {plaintext aad sealed found : Bytes} (made : sealRandom key nonce plaintext aad = .ok sealed)
    {k : Nat} (opened : openRandom key (sealed.take k) aad = .ok found) : found = plaintext := by
  -- A part of what was sealed does not open.
  have whole := openRandom_sealRandom trusted made
  simp only [sealRandom, okOr_eq_ok, Option.bind_eq_some_iff] at made
  obtain ⟨n, _, enciphered⟩ := made
  -- Either something is missing, or the whole is there.
  by_cases short : k < sealed.length
  · -- What was cut short is refused.
    simp only [openRandom, except_bind_eq_ok, okOr_eq_ok] at opened
    obtain ⟨_, _, opened⟩ := opened
    rw [trusted.refuses _ _ _ _ _ enciphered k short] at opened
    cases opened
  · rw [List.take_of_length_le (Nat.le_of_not_lt short), whole, Except.ok.injEq] at opened
    exact opened.symm

end

end NasTools
