import NasTools.Model.Store.BlobTree
import NasTools.Model.Store.Object
import NasTools.Model.Vault.Container

/-!
A namespace on the disk of its client: where its vault key is looked up, and how its
convergence secret is rotated.
-/

namespace NasTools

/-- Why an operation on a namespace fails. -/
inductive RepoError where
  -- A decision against the caller, which the process exit tells apart.
  | refused (text : String)
  | other (text : String)
  | os (error : IoError)
deriving DecidableEq

/-- Where the secrets of a namespace come from. -/
inductive Secrets where
  | vault (v : Vault)
  | passphrase (ns : NamespaceSecrets)

/-- An open namespace. -/
structure NsRepo where
  -- The last component of the directory, where it has one and it is text.
  rootName : Option (List Char)
  mode : Mode
  tenantSalt : Bytes
  secrets : Secrets
  -- What new data is sealed under; it is taken from the secrets once.
  csHolder : FixedBytes keyLen

/-- What a namespace has outside its process: its files, and the items of the keychain. -/
structure NsDisk where
  vaultBin : Bytes
  -- Whether the sibling that replaces the vault is there.
  sibling : Bool
  vaultKey : Option Bytes
  keychain : OrdMap (List Char) (FixedBytes keyLen)
  -- How often the vault was replaced, which nothing reads.
  renames : Nat

/--
How a lookup of the vault key goes: whether the helper answers, the file is read, and
the helper takes the key.
-/
structure KeyLookup where
  answers : Bool
  reads : Disk
  stores : Bool

/-- The vault key of a namespace: from the keychain, or else from its file. -/
def loadVaultKey (ns : List Char) (l : KeyLookup) (d : NsDisk) :
    NsDisk × Except RepoError (FixedBytes keyLen) :=
  -- A helper that does not answer counts as one that has no such item.
  match if l.answers then d.keychain[ns]? else none with
  | some key => (d, .ok key)
  | none =>
    match l.reads, d.vaultKey with
    | .error e, _ => (d, .error (.os e))
    | .ok (), none => (d, .error (.os noSuchFile))
    | .ok (), some bytes =>
      match FixedBytes.ofBytes? keyLen bytes with
      | none => (d, .error (.other "vault.key is not 32 bytes"))
      | some key => (if l.stores then { d with keychain := d.keychain.insert ns key }
        else d, .ok key)

/--
How the replacement of the vault goes: each step with its error, and whether the
sibling is removed after one.
-/
structure Replacement where
  create : Disk
  write : Disk
  rename : Disk
  removed : Bool

/-- Replace the vault by writing a sibling and renaming it. -/
def writeVaultReplace (bytes : Bytes) (w : Replacement) (d : NsDisk) :
    NsDisk × Except RepoError Unit :=
  -- The sibling has to be new: one that is there is not opened.
  if d.sibling then (d, .error (.os alreadyExists))
  else match w.create, w.write, w.rename with
    | .error e, _, _ => (d, .error (.os e))
    | .ok (), .error e, _ => ({ d with sibling := !w.removed }, .error (.os e))
    | .ok (), .ok (), .error e => ({ d with sibling := !w.removed }, .error (.os e))
    | .ok (), .ok (), .ok () => ({ d with vaultBin := bytes, renames := d.renames + 1 }, .ok ())

/-- The convergence secret of a namespace. -/
def secretsConvergence : Secrets → Checked VaultError (FixedBytes keyLen)
  | .vault v => do return (← v.currentGeneration).secret
  | .passphrase ns => return ns.convergence

/-- How a rotation goes, step by step. -/
structure RotateWorld where
  draw : Except String (FixedBytes keyLen)
  lookup : KeyLookup
  nonce : Option (FixedBytes nonceLen)
  replace : Replacement
  syncDir : Disk

/-- How the creation of a vault goes. -/
structure CreateWorld where
  seed : Except String (FixedBytes keyLen)
  secret : Except String (FixedBytes keyLen)
  key : Except String (FixedBytes keyLen)
  nonce : Option (FixedBytes nonceLen)
  writeVault : Disk
  stores : Bool
  writeKey : Disk

/-- What a rotation leaves behind. -/
structure Rotated where
  disk : NsDisk
  repo : NsRepo
  result : Except RepoError UInt32

namespace NsRepo

/-- The generation that new data is written under. -/
def generation (r : NsRepo) : Checked VaultError UInt32 :=
  match r.secrets with
  | .vault v => do return (← v.currentGeneration).number
  | .passphrase _ => return 0

/-- What new data is sealed with; a namespace that keeps its data in the clear uses no secret. -/
def sealer (r : NsRepo) : Sealer :=
  match r.mode with
  | .transitOnly => .plaintext r.tenantSalt
  | .e2ee | .passphrase => .convergent r.csHolder

section

variable [Cipher]

/--
The part of a rotation after the vault in memory has its new generation, with the
vault as it was before.
-/
def sealRotated (r : NsRepo) (prior grown : Vault) (number : UInt32) (w : RotateWorld)
    (d : NsDisk) : Option Rotated :=
  -- Every failure up to the rename puts the earlier vault back.
  let back (d : NsDisk) (e : RepoError) : Option Rotated :=
    some ⟨d, { r with secrets := .vault prior }, .error e⟩
  match r.rootName with
  | none => back d (.other "namespace path has no name")
  | some ns =>
    match loadVaultKey ns w.lookup d with
    | (d, .error e) => back d e
    | (d, .ok key) =>
      match grown.sealWith key w.nonce with
      | none => none
      | some (.error e) => back d (.other e.display)
      | some (.ok sealed) =>
        match writeVaultReplace sealed w.replace d with
        | (d, .error e) => back d e
        | (d, .ok ()) =>
          match grown.currentGeneration with
          | some (.ok g) =>
            -- The rename is the commit, so a directory that is not synced takes nothing back.
            let r := { r with csHolder := g.secret }
            match w.syncDir with
            | .error e => some ⟨d, r, .error (.os e)⟩
            | .ok () => some ⟨d, r, .ok number⟩
          | _ => none

/-- Append a generation, and seal the vault again; a panic leaves nothing. -/
def rotateConvergence (r : NsRepo) (w : RotateWorld) (d : NsDisk) : Option Rotated :=
  match r.secrets with
  | .passphrase _ =>
    some ⟨d, r, .error (.refused "passphrase mode has no convergence generation to rotate")⟩
  | .vault v =>
    match v.rotateConvergence w.draw with
    | none => none
    | some (.error e) => some ⟨d, r, .error (.other e.display)⟩
    | some (.ok (grown, number)) =>
      sealRotated { r with secrets := .vault grown } v grown number w d

/-- Open the vault of a namespace, given what its configuration says. -/
def openVault (ns : List Char) (rootName : Option (List Char)) (mode : Mode) (tenantSalt : Bytes)
    (reads : Disk) (l : KeyLookup) (d : NsDisk) : NsDisk × Checked RepoError NsRepo :=
  match reads with
  | .error e => (d, Checked.lift (.error (.os e)))
  | .ok () =>
    -- The vault is read before its key is looked up, and the lookup can leave the
    -- key in the keychain.
    match loadVaultKey ns l d with
    | (d', .error e) => (d', Checked.lift (.error e))
    | (d', .ok key) => (d', do
      let v ← Checked.mapError (fun e => .other e.display) (Vault.openWith d.vaultBin key)
      let holder ← Checked.mapError (fun e => .other e.display) (secretsConvergence (.vault v))
      return ⟨rootName, mode, tenantSalt, .vault v, holder⟩)

/-- Keep a fresh vault key: in the keychain, or else in its file. -/
def keepKey (ns : List Char) (key : FixedBytes keyLen) (w : CreateWorld) (d : NsDisk) :
    Checked RepoError NsDisk :=
  if w.stores then return { d with keychain := d.keychain.insert ns key }
  else do
    Checked.lift (w.writeKey.mapError .os)
    return { d with vaultKey := some key.bytes }

/-- Make the vault of a new namespace. -/
def createVault (ns : List Char) (rootName : Option (List Char)) (mode : Mode) (tenantSalt : Bytes)
    (w : CreateWorld) (d : NsDisk) : Checked RepoError (NsDisk × NsRepo) := do
  let vault ← Checked.lift ((Vault.create w.seed w.secret).mapError fun e => .other e.display)
  let key ← Checked.lift (w.key.mapError .other)
  let sealed ← Checked.mapError (fun e => .other e.display) (vault.sealWith key w.nonce)
  Checked.lift (w.writeVault.mapError .os)
  let d ← keepKey ns key w { d with vaultBin := sealed }
  let holder ← Checked.mapError (fun e => .other e.display) (secretsConvergence (.vault vault))
  return (d, ⟨rootName, mode, tenantSalt, .vault vault, holder⟩)

end

end NsRepo

end NasTools
