import NasTools.Model.Store.Cache
import NasTools.Model.Store.Chunker

/-! Writing an object as sealed chunks with a manifest, and reading any range of it back. -/

namespace NasTools

/-- What chunks are bound to; the same for all of them, so that equal chunks seal to equal bytes. -/
def chunkAad : Bytes := asciiBytes "nas-tools/aad/chunk/v1"

/-- How a key scheme is written in an error. -/
def KeyScheme.debug : KeyScheme → String
  | .convergent => "Convergent"
  | .indexedRandom => "IndexedRandom"
  | .plaintext => "Plaintext"

/-- Why an object is not written or not read. -/
inductive ObjectError where
  | pad (source : PadError)
  | crypto (source : CryptoError)
  | store (source : StoreError)
  | manifest (source : ManifestError)
  | config (source : ConfigError)
  -- Some chunk could be longer than the profile can frame.
  | profileMismatch (chunkMax padMax : Nat)
  | plaintextMismatch (addr : Addr)
  | lengthMismatch (addr : Addr) (want : UInt32) (got : Nat)
  | unsupportedKeyScheme (scheme : KeyScheme)
  -- The writer and the store salt addresses differently.
  | addressingMismatch (expected got : Addr)
deriving DecidableEq

/-- An address as text. -/
def addrText (addr : Addr) : String := String.ofList (toHex addr.bytes)

/-- The text an object error prints. -/
def ObjectError.display : ObjectError → String
  | .pad e => e.display
  | .crypto e => e.display
  | .store e => e.display
  | .manifest e => e.display
  | .config e => e.display
  | .profileMismatch chunkMax padMax =>
    "chunker may emit " ++ toString chunkMax ++ " B chunks but the padding profile tops out at " ++
      toString padMax ++ " B"
  | .plaintextMismatch addr => "chunk " ++ addrText addr ++ " decrypted to the wrong plaintext"
  | .lengthMismatch addr want got =>
    "chunk " ++ addrText addr ++ " decrypted to " ++ toString got ++ " B, manifest says " ++
      toString want ++ " B"
  | .unsupportedKeyScheme scheme => "key scheme " ++ scheme.debug ++ " is not implemented"
  | .addressingMismatch expected got =>
    "writer expected address " ++ addrText expected ++ " but the store filed " ++ addrText got ++
      ": salts disagree"

/-- How chunks are protected at rest. -/
inductive Sealer where
  | convergent (cs : FixedBytes keyLen)
  | plaintext (tenantSalt : Bytes)

/-- The key scheme a sealer's manifests name. -/
def Sealer.keyScheme : Sealer → KeyScheme
  | .convergent _ => .convergent
  | .plaintext _ => .plaintext

/-- How the writing of an object ends where it does not succeed. -/
inductive WriteFailure where
  | error (source : ObjectError)
  -- A chunk whose length is no 32-bit number, or a window that is too large to allocate.
  | panic

/-- Turns plaintext into blobs and a manifest; every chunk it cuts can be framed. -/
structure ObjectWriter where
  sealer : Sealer
  chunker : Chunker
  profile : PaddingProfile
  frames : profile.Frames chunker.cfg.max

namespace ObjectWriter

/-- A writer whose chunker and profile agree. -/
def new (sealer : Sealer) (profile : PaddingProfile) (cfg : ChunkerConfig) :
    Except ObjectError ObjectWriter :=
  if frames : profile.Frames cfg.max then
    match made : Chunker.new cfg with
    | .error e => .error (.config e)
    | .ok chunker => .ok ⟨sealer, chunker, profile, by rw [Chunker.cfg_of_new made]; exact frames⟩
  else .error (.profileMismatch cfg.max (profile.maxPlaintext.getD 0))

/-- A writer with the chunker configuration that goes with the profile. -/
def withDefaults (sealer : Sealer) (profile : PaddingProfile) : Except ObjectError ObjectWriter :=
  new sealer profile (.forProfile profile .default)

end ObjectWriter

section

variable [Crypto] [Cipher]

/-- The address of a plaintext chunk under a salt. -/
def saltedAddr (tenantSalt plaintext : Bytes) : Addr :=
  Crypto.blake3 (u64Le (UInt64.ofNat tenantSalt.length) ++ tenantSalt ++ plaintext)

/-- The blob a padded chunk becomes, and the key its manifest keeps. -/
def Sealer.protect (sealer : Sealer) (padded : Bytes) :
    Except CryptoError (Bytes × FixedBytes keyLen) :=
  match sealer with
  | .convergent cs => sealChunk cs padded chunkAad
  | .plaintext _ => .ok (padded, FixedBytes.zero _)

/-- Where the sealer says an address, the store must agree. -/
def Sealer.agrees (sealer : Sealer) (padded : Bytes) (addr : Addr) : Except ObjectError Unit :=
  match sealer with
  | .convergent _ => .ok ()
  | .plaintext tenantSalt => ensure (addr = saltedAddr tenantSalt padded)
    (.addressingMismatch (saltedAddr tenantSalt padded) addr)

namespace ObjectWriter

/-- Pad, protect and store one chunk, and say how the manifest refers to it. -/
def writeChunk (w : ObjectWriter) (s : BlobStore) (disk : Disk) (now : Timestamp) (plain : Bytes) :
    Except WriteFailure ChunkRef × BlobStore :=
  match w.profile.pad plain with
  | .error e => (.error (.error (.pad e)), s)
  | .ok padded =>
    match w.sealer.protect padded with
    | .error e => (.error (.error (.crypto e)), s)
    | .ok (blob, ck) =>
      match s.put disk now blob with
      | (.error e, s) => (.error (.error (.store e)), s)
      | (.ok addr, s) =>
        match w.sealer.agrees padded addr with
        | .error e => (.error (.error e), s)
        | .ok () =>
          if plain.length < 2 ^ 32
            then (.ok ⟨addr, ck, Crypto.blake3 plain, UInt32.ofNat plain.length⟩, s)
          else (.error .panic, s)

/-- Write chunks one after the other, each with its own luck with the disk. -/
def writeChunks (w : ObjectWriter) (disk : Nat → Disk) (now : Timestamp) :
    (i : Nat) → List Bytes → Manifest → BlobStore → Except WriteFailure Manifest × BlobStore
  | _, [], m, s => (.ok m, s)
  | i, plain :: rest, m, s =>
    match w.writeChunk s (disk i) now plain with
    | (.error e, s) => (.error e, s)
    | (.ok c, s) =>
      w.writeChunks disk now (i + 1) rest
        { m with chunks := m.chunks ++ [c], size := m.size + UInt64.ofNat plain.length } s

variable [GearTable]

/-- Chunk, pad, protect and store what a reader delivers, and make its manifest. -/
def write (w : ObjectWriter) (s : BlobStore) (disk : Nat → Disk) (now : Timestamp) (kind : Kind)
    (reader : Reader) :
    Except WriteFailure Manifest × BlobStore :=
  let empty : Manifest := ⟨manifestVersion, w.sealer.keyScheme, w.profile, kind, [], 0, [], []⟩
  match w.chunker.stream reader with
  | none => (.error .panic, s)
  | some plains =>
    match w.writeChunks disk now 0 plains empty s with
    | (.error e, s) => (.error e, s)
    | (.ok m, s) =>
      match m.validate with
      | .error e => (.error (.error (.manifest e)), s)
      | .ok () => (.ok m, s)

end ObjectWriter

end

/-- How much work a ranged read did. -/
structure ReadStats where
  chunksFetched : Nat
  bytesFetched : UInt64
  cacheHits : Nat
deriving DecidableEq

/-- What reading one chunk finds outside its own computation. -/
structure ChunkDisk where
  fetch : Disk
  cache : CacheDisk

/-- How far a ranged read has got. -/
structure ReadProgress where
  offset : UInt64
  written : UInt64
  stats : ReadStats
  out : Bytes

section

variable [Crypto] [Cipher]

/-- The padded chunk in a blob. -/
def Manifest.unprotect (m : Manifest) (c : ChunkRef) (stored : Bytes) : Except ObjectError Bytes :=
  match m.keyScheme with
  | .convergent => (openChunk c.ck stored chunkAad).mapError .crypto
  -- Nothing to decrypt; the hash of the plaintext is then the only check.
  | .plaintext => .ok stored
  -- Such a manifest is refused before any of its chunks is opened.
  | .indexedRandom => .error (.unsupportedKeyScheme .indexedRandom)

/-- The plaintext of a stored chunk, with every check that does not need the store. -/
def Manifest.openStored (m : Manifest) (c : ChunkRef) (stored : Bytes) :
    Except ObjectError Bytes := do
  let padded ← m.unprotect c stored
  let plain ← (m.paddingProfile.unpad padded).mapError .pad
  ensure (plain.length = c.len.toNat) (.lengthMismatch c.addr c.len plain.length)
  ensure (Crypto.blake3 plain = c.ptHash) (.plaintextMismatch c.addr)
  return plain

namespace BlobStore

/-- The plaintext of a chunk, from the cache or else from the store. -/
def openChunkPlain (s : BlobStore) (m : Manifest) (c : ChunkRef) (w : ChunkDisk)
    (cache : Option ChunkCache) (stats : ReadStats) :
    Except ObjectError (Bytes × ReadStats) × Option ChunkCache :=
  match ChunkCache.look cache w.cache.read c.addr with
  | (some plain, cache) => (.ok (plain, { stats with cacheHits := stats.cacheHits + 1 }), cache)
  | (none, cache) =>
    match w.fetch, s.get c.addr with
    | .error e, _ => (.error (.store (.io e)), cache)
    | .ok (), .error e => (.error (.store e), cache)
    | .ok (), .ok stored =>
      match m.openStored c stored with
      | .error e => (.error e, cache)
      | .ok plain =>
        -- A chunk that cannot be cached is read all the same.
        (.ok (plain, { stats with
            chunksFetched := stats.chunksFetched + 1
            bytesFetched := stats.bytesFetched + UInt64.ofNat stored.length }),
          cache.map fun cached => (cached.put w.cache c.addr plain).2)

/-- Read the part of each chunk that lies in a range, chunk by chunk. -/
def readChunks (s : BlobStore) (m : Manifest) (start stop : UInt64) (w : Nat → ChunkDisk) :
    (i : Nat) → List ChunkRef → ReadProgress → Option ChunkCache →
      Except ObjectError ReadProgress × Option ChunkCache
  | _, [], p, cache => (.ok p, cache)
  | i, c :: rest, p, cache =>
    let chunkEnd := p.offset + c.len.toUInt64
    if chunkEnd ≤ start ∨ stop ≤ p.offset then
      s.readChunks m start stop w (i + 1) rest { p with offset := chunkEnd } cache
    else
      match s.openChunkPlain m c (w i) cache p.stats with
      | (.error e, cache) => (.error e, cache)
      | (.ok (plain, stats), cache) =>
        let from_ := (satSub start p.offset).toNat
        let to_ := min (satSub stop p.offset).toNat plain.length
        let part := if from_ < to_ then (plain.take to_).drop from_ else []
        s.readChunks m start stop w (i + 1) rest
          ⟨chunkEnd, p.written + UInt64.ofNat part.length, stats, p.out ++ part⟩ cache

/-- Read a range of an object; only chunks that overlap it are opened. -/
def readObjectRange (s : BlobStore) (m : Manifest) (start stop : UInt64) (w : Nat → ChunkDisk)
    (cache : Option ChunkCache) :
    Except ObjectError (UInt64 × ReadStats × Bytes) × Option ChunkCache :=
  if m.keyScheme = .indexedRandom then (.error (.unsupportedKeyScheme m.keyScheme), cache)
  else
    match m.validate with
    | .error e => (.error (.manifest e), cache)
    | .ok () =>
      if stop ≤ start then (.ok (0, ⟨0, 0, 0⟩, []), cache)
      else
        match s.readChunks m start stop w 0 m.chunks ⟨0, 0, ⟨0, 0, 0⟩, []⟩ cache with
        | (.error e, cache) => (.error e, cache)
        | (.ok p, cache) => (.ok (p.written, p.stats, p.out), cache)

/-- Read an object from its start to the end. -/
def readObject (s : BlobStore) (m : Manifest) (w : Nat → ChunkDisk) :
    Except ObjectError (UInt64 × Bytes) := do
  let (n, _, out) ← (s.readObjectRange m 0 (UInt64.ofNat (2 ^ 64 - 1)) w none).1
  return (n, out)

end BlobStore

end

end NasTools
