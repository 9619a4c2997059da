import NasTools.Lib.Percent
import NasTools.Model.Core.Checked
import NasTools.Model.Delete.Record
import NasTools.Model.Store.TreeStore

/-!
Patches as signed objects: what git prints, what is stored of it, and what git is handed back.
-/

namespace NasTools

open Checked (lift panics)

/-- What a git process leaves when it ends. -/
structure GitOutput where
  success : Bool
  stdout : Bytes
  stderr : Bytes

/-- What git printed, as text; an error where it could not be started, or failed. -/
def git (ran : Except String GitOutput) : Except String (List Char) := do
  let out ← ran.mapError fun e => "git: " ++ e
  if out.success then return fromUtf8Lossy out.stdout
  else throw (String.ofList (Text.trim (fromUtf8Lossy out.stderr)))

/-- What objects of git are bound to. -/
def gitAad : Bytes := asciiBytes "nas-tools/aad/git-oidmap/v1"

/--
The pieces of a text between separators, as many as are asked for; the last one has all the rest.
-/
def splitn : Nat → Char → List Char → List (List Char)
  | 0, _, _ => []
  | 1, _, text => [text]
  | n + 2, sep, text =>
    match Text.splitOnce sep text with
    | none => [text]
    | some (piece, rest) => piece :: splitn (n + 1) sep rest

/--
Bytes that pairs of digits spell, where the text is cut after every second byte; no cut
falls inside a character.
-/
def unhexPairs : List Char → Checked String Bytes
  | [] => pure []
  | [c] => if c.utf8Size = 2 then lift (.error "bad hex") else panics
  | c :: d :: rest =>
    if c.utf8Size = 2 then lift (.error "bad hex")
    else if c.utf8Size = 1 ∧ d.utf8Size = 1 then do
      let byte ← lift (okOr (Text.parseHexByte [c, d]) "bad hex")
      let bytes ← unhexPairs rest
      return byte :: bytes
    else panics

/-- Bytes from hexadecimal text. -/
def unhexBytes (s : List Char) : Checked String Bytes := do
  lift (ensure ((textBytes s).length % 2 = 0) "odd hex")
  unhexPairs s

/-- A patch as it is stored: a line that says so, the key, the signature, and what git printed. -/
def encodePatch (vk sig body : Bytes) : Bytes :=
  asciiBytes "NASPATCH/v1\n" ++ textBytes (toHex vk) ++ [0x0A] ++ textBytes (toHex sig) ++
    [0x0A] ++ body

/-- Take a stored patch apart. -/
def decodePatch (bytes : Bytes) : Checked String (Bytes × Bytes × Bytes) := do
  let text ← lift (okOr (ofUtf8? bytes) "patch is not utf-8")
  let lines := splitn 4 '\n' text.toList
  lift (ensure (lines[0]? = some "NASPATCH/v1".toList) "not a nas patch")
  let vk ← lift (okOr lines[1]? "missing vk")
  let vk ← unhexBytes vk
  let sig ← lift (okOr lines[2]? "missing sig")
  let sig ← unhexBytes sig
  let body ← lift (okOr lines[3]? "missing body")
  return (vk, sig, textBytes body)

/-- What patches are made and imported with. -/
structure PatchRepo where
  sealer : Sealer
  padding : PaddingProfile
  dirRoot : DirSecret
  -- The keypair that signs slots, where it can be read.
  identity : Except String Identity

/-- How the steps of storing some bytes go, and of reading them back. -/
structure PatchDisk where
  opened : Disk
  chunks : Nat → Disk
  nonce : Option (FixedBytes nonceLen)
  stored : Disk
  fetched : Disk
  reads : Nat → ChunkDisk
  queue : Disk
  -- The file that is handed to git, and whether its name is text.
  temporary : Disk
  named : Bool

section

variable [Crypto] [Cipher] [Kdf]

/-- The manifest of an object of git, as it lies in the store. -/
def PatchRepo.protectManifest (r : PatchRepo) (nonce : Option (FixedBytes nonceLen))
    (plain : Bytes) :
    Except CryptoError Bytes :=
  match r.sealer with
  | .convergent _ => sealRandom (manifestKey r.dirRoot) nonce plain gitAad
  | .plaintext _ => .ok plain

/-- What a stored manifest is opened to. -/
def PatchRepo.openManifest (r : PatchRepo) (stored : Bytes) : Except CryptoError Bytes :=
  match r.sealer with
  | .convergent _ => openRandom (manifestKey r.dirRoot) stored gitAad
  | .plaintext _ => .ok stored

/-- Read some stored bytes back. -/
def PatchRepo.loadBytes (r : PatchRepo) (s : BlobStore) (disk : PatchDisk) (addr : Addr) :
    Except String Bytes := do
  disk.opened.mapError fun e => (StoreError.io e).display
  disk.fetched.mapError fun e => (StoreError.io e).display
  let stored ← (s.get addr).mapError (·.display)
  let encoded ← (r.openManifest stored).mapError (·.display)
  let manifest ← (Manifest.decode encoded).mapError (·.display)
  let (_, out) ← (s.readObject manifest disk.reads).mapError (·.display)
  return out

variable [GearTable]

/-- Store some bytes as an object; the address is that of its manifest. -/
def PatchRepo.storeBytes (r : PatchRepo) (s : BlobStore) (disk : PatchDisk) (now : Timestamp)
    (bytes : Bytes) :
    Checked String Addr × BlobStore :=
  match disk.opened, ObjectWriter.withDefaults r.sealer r.padding with
  | .error e, _ => (lift (.error (StoreError.io e).display), s)
  | .ok (), .error e => (lift (.error e.display), s)
  | .ok (), .ok writer =>
    match writer.write s disk.chunks now .file (.cursor bytes) with
    | (.error .panic, s) => (panics, s)
    | (.error (.error e), s) => (lift (.error e.display), s)
    | (.ok object, s) =>
      match object.encode with
      | .error e => (lift (.error e.display), s)
      | .ok encoded =>
        match r.protectManifest disk.nonce encoded with
        | .error e => (lift (.error e.display), s)
        | .ok sealed =>
          let (result, s) := s.put disk.stored now sealed
          (lift (result.mapError (·.display)), s)

/--
What making a patch changes: the blobs, and the file of the queue, where it can be read as text.
-/
structure PatchState where
  blobs : BlobStore
  queue : Option (List Char)

/-- Enter an address at the end of the queue; a queue that cannot be read counts as empty. -/
def appendQueue (queue : Option (List Char)) (addr : Addr) : List Char :=
  queue.getD [] ++ toHex addr.bytes ++ ['\n']

/-- Sign what git prints of some commits, and store both. -/
def PatchRepo.makeSignedPatch (r : PatchRepo) (formatPatch : Except String GitOutput)
    (disk : PatchDisk) (now : Timestamp) (p : PatchState) : Checked String Addr × PatchState :=
  match git formatPatch, r.identity with
  | .error e, _ => (lift (.error e), p)
  | .ok _, .error e => (lift (.error e), p)
  | .ok body, .ok id =>
    match id.sign .patch (textBytes body) with
    | .error e => (lift (.error e.display), p)
    | .ok sig =>
      match r.storeBytes p.blobs disk now (encodePatch id.verifyingKey sig (textBytes body)) with
      | (some (.ok addr), blobs) =>
        match disk.queue with
        | .ok () => (lift (.ok addr), ⟨blobs, some (appendQueue p.queue addr)⟩)
        | .error e => (lift (.error e.text), { p with blobs })
      | (failed, blobs) => (failed, { p with blobs })

omit [GearTable] in
/-- What git is handed of a stored patch: what was signed by the keypair of the importer. -/
def PatchRepo.patchFor (r : PatchRepo) (s : BlobStore) (disk : PatchDisk) (addr : Addr) :
    Checked String Bytes := do
  let bytes ← lift (r.loadBytes s disk addr)
  let (vk, sig, body) ← decodePatch bytes
  lift ((verify vk .patch body sig).mapError fun _ => "patch signature does not verify")
  let local_ ← lift r.identity
  lift (ensure (keyId vk = local_.id) "UNROSTERED")
  lift (disk.temporary.mapError (·.text))
  if disk.named then return body else panics

omit [GearTable] in
/-- Hand a stored patch to git; what it was handed, if anything, and how that went. -/
def PatchRepo.importPatch (r : PatchRepo) (s : BlobStore) (disk : PatchDisk) (addr : Addr)
    (am : Except String GitOutput) :
    Option Bytes × Checked String Unit :=
  match r.patchFor s disk addr with
  | some (.ok body) => (some body, lift ((git am).map fun _ => ()))
  | some (.error e) => (none, lift (.error e))
  | none => (none, panics)

end

end NasTools
