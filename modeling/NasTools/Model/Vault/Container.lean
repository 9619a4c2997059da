import NasTools.Lib.OrderedMap
import NasTools.Lib.Packed
import NasTools.Lib.Percent
import NasTools.Model.Vault.Wrap

/-!
The vault of a client: one seed, a convergence secret for each generation, and the
peers it has pinned.
-/

namespace NasTools

open Checked (lift item)

/-- What a sealed vault is bound to, so that it is no other sealed object. -/
def vaultAad : Bytes := asciiBytes "nas-tools/aad/vault/v1"

/-- What a vault starts with. -/
def vaultMagic : Bytes := asciiBytes "NASV"

/-- The layout of a vault that is written and read. -/
def vaultVersion : UInt16 := 1

/-- Why a vault is not made, read or opened. -/
inductive VaultError where
  | decode (source : DecodeError)
  | crypto (source : CryptoError)
  | badMagic
  | unknownVersion (found : UInt16)
  | badWidth (field : String) (want got : Nat)
  | fieldCount (want got : Nat)
  | nonCanonical (reason : String)
  | io (text : String)
deriving DecidableEq

/-- The text a vault error prints. -/
def VaultError.display : VaultError → String
  | .decode e => "vault encoding: " ++ e.debug
  | .crypto e => e.display
  | .badMagic => "not a vault"
  | .unknownVersion found =>
    "vault version " ++ toString found ++ ", this build understands " ++ toString vaultVersion
  | .badWidth field want got => field ++ " is " ++ toString got ++ " B, want " ++
    toString want ++ " B"
  | .fieldCount want got => toString got ++ " fields, want " ++ toString want
  | .nonCanonical reason => "malformed vault: " ++ reason
  | .io e => e

/-- One convergence secret, and the number it is known by. -/
structure Generation where
  number : UInt32
  secret : FixedBytes keyLen
deriving DecidableEq

/-- A peer that is pinned. -/
structure PinnedPeer where
  -- The transport key it was paired under.
  peerPk : Bytes
  label : List Char
  -- A blocked peer is kept, so that it is known when it comes back.
  blocked : Bool
  quotaBytes : UInt64
deriving DecidableEq

/-- The long-term secrets of a client. -/
structure Vault where
  seed : FixedBytes keyLen
  generations : List Generation
  peers : OrdMap Bytes PinnedPeer

/-- A peer as it is stored. -/
def PinnedPeer.encode (p : PinnedPeer) : Except DecodeError Bytes :=
  encodeFields [p.peerPk, textBytes p.label, [if p.blocked then 1 else 0], u64Le p.quotaBytes]

/-- Bytes of one entry of the generation table: its number and its secret. -/
def generationLen : Nat := 4 + keyLen

/-- A generation as it is stored. -/
def Generation.encode (g : Generation) : Bytes := u32Le g.number ++ g.secret.bytes

namespace Vault

/-- A vault with a fresh seed and a first generation, where both could be drawn. -/
def create (seed secret : Except String (FixedBytes keyLen)) : Except VaultError Vault := do
  let seed ← seed.mapError .io
  let secret ← secret.mapError .io
  return ⟨seed, [⟨0, secret⟩], ∅⟩

/-- The generation that new data is written under; a vault without one is a panic. -/
def currentGeneration (v : Vault) : Checked VaultError Generation :=
  Checked.expect v.generations.getLast?

/-- Append a generation with a fresh secret; the number after the last one of 32 bits is a panic. -/
def rotateConvergence (v : Vault) (secret : Except String (FixedBytes keyLen)) :
    Checked VaultError (Vault × UInt32) := do
  let secret ← lift (secret.mapError .io)
  let current ← v.currentGeneration
  let number ← Checked.expect (if current.number.toNat + 1 < 2 ^ 32 then some (current.number + 1)
    else none)
  -- Earlier generations stay, since what was written under them is still read.
  return ({ v with generations := v.generations ++ [⟨number, secret⟩] }, number)

/-- Pin a peer, in the place of whatever was pinned under its key. -/
def pinPeer (v : Vault) (peer : PinnedPeer) : Vault :=
  { v with peers := v.peers.insert peer.peerPk peer }

/-- Block a peer, if it was ever pinned. -/
def blockPeer (v : Vault) (peerPk : Bytes) : Vault × Bool :=
  match v.peers[peerPk]? with
  | some p => ({ v with peers := v.peers.insert peerPk { p with blocked := true } }, true)
  | none => (v, false)

/-- The container in the clear; a peer that cannot be encoded is a panic. -/
def plain (v : Vault) : Checked VaultError Bytes := do
  let gens := v.generations.flatMap Generation.encode
  let peers ← v.peers.listed.mapM fun p => Checked.expect p.encode.toOption
  let peerBlob ← lift ((encodeFields peers).mapError .decode)
  lift ((encodeFields [vaultMagic, natToLe 2 vaultVersion.toNat, v.seed.bytes, gens,
    peerBlob]).mapError .decode)

/-- Read the generation at a place of the table, which has to have the number of its place. -/
def readGeneration (chunk : Bytes × Nat) : Checked VaultError Generation := do
  let (c, i) := chunk
  let number := u32OfLe (c.take 4)
  lift (ensure (number = UInt32.ofNat i)
    (.nonCanonical "generations must be contiguous and ascending from 0"))
  let secret ← Checked.expect (FixedBytes.ofBytes? keyLen (c.drop 4))
  return ⟨number, secret⟩

/-- Read an entry of the list of peers, and put it into the map. -/
def readPeer (peers : OrdMap Bytes PinnedPeer) (entry : Bytes) :
    Checked VaultError (OrdMap Bytes PinnedPeer) := do
  let e ← (Checked.decodeFields entry).mapError VaultError.decode
  lift (ensure (e.length = 4) (.fieldCount 4 e.length))
  let quota ← lift (fixedField .badWidth 8 "quota_bytes" (← item e 3))
  let flag ← lift (fixedField .badWidth 1 "blocked" (← item e 2))
  let blocked ← item flag.bytes 0
  let peerPk ← item e 0
  let label ← item e 1
  -- Labels are read with replacement characters, every flag but zero blocks, and the
  -- last entry of a key counts.
  return peers.insert peerPk ⟨peerPk, fromUtf8Lossy label, blocked != 0, u64OfLe quota.bytes⟩

/-- Read a container in the clear. -/
def fromPlain (bytes : Bytes) : Checked VaultError Vault := do
  let f ← (Checked.decodeFields bytes).mapError VaultError.decode
  lift (ensure (f.length = 5) (.fieldCount 5 f.length))
  lift (ensure ((← item f 0) = vaultMagic) .badMagic)
  let version ← lift (fixedField .badWidth 2 "version" (← item f 1))
  let version := UInt16.ofNat (natOfLe version.bytes)
  lift (ensure (version = vaultVersion) (.unknownVersion version))
  let seed ← lift (fixedField .badWidth keyLen "seed" (← item f 2))
  let table ← item f 3
  lift (ensure (table.length % generationLen = 0 ∧ table ≠ [])
    (.nonCanonical "generation table is ragged or empty"))
  let generations ← (chunksExact generationLen table).zipIdx.mapM readGeneration
  let entries ← (Checked.decodeFields (← item f 4)).mapError VaultError.decode
  let peers ← entries.foldlM readPeer ∅
  return ⟨seed, generations, peers⟩

section

variable [Cipher]

/-- Seal a vault for the disk. -/
def sealWith (v : Vault) (vaultKey : FixedBytes keyLen) (nonce : Option (FixedBytes nonceLen)) :
    Checked VaultError Bytes := do
  let p ← v.plain
  lift ((sealRandom vaultKey nonce p vaultAad).mapError .crypto)

/-- Open a sealed vault. -/
def openWith (sealed : Bytes) (vaultKey : FixedBytes keyLen) : Checked VaultError Vault := do
  let p ← lift ((openRandom vaultKey sealed vaultAad).mapError .crypto)
  fromPlain p

end

end Vault

end NasTools
