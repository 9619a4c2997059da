import NasTools.Model.Store.Blobs
import NasTools.Model.Store.Cipher

/-!
The chunk cache: plaintext chunks sealed under a key of this boot, the oldest of which are dropped.
-/

namespace NasTools

/-- What cached chunks are bound to. -/
def cacheAad : Bytes := asciiBytes "nas-tools/aad/cache/v1"

/-- Why a chunk is not cached. -/
inductive CacheError where
  | io (source : IoError)
  | crypto (source : CryptoError)
deriving DecidableEq

/-- What the cache finds outside its own computation. -/
structure CacheDisk where
  -- Whether a cached file can be read, and a dropped one removed.
  read : Disk
  remove : Disk
  nonce : Option (FixedBytes nonceLen)
  write : Writing

/-- Cached chunks by address, and the order of their use. -/
structure ChunkCache where
  key : FixedBytes keyLen
  cap : Nat
  files : OrdMap Addr Bytes
  order : List Addr

namespace ChunkCache

/-- A cache in an empty directory, with the key drawn for this boot. -/
def fresh (key : FixedBytes keyLen) (cap : Nat) : ChunkCache := ⟨key, max cap 1, ∅, []⟩

/-- Count an address as used just now. -/
def touched (order : List Addr) (addr : Addr) : List Addr := order.filter (· ≠ addr) ++ [addr]

/--
Drop the chunks used longest ago, as long as there are too many; a removal that fails
is passed over.
-/
def evict (c : ChunkCache) (remove : Disk) : ChunkCache :=
  let excess := c.order.take (c.order.length - c.cap)
  let files := match remove with
    | .ok () => excess.foldl (fun files addr => files.erase addr) c.files
    | .error _ => c.files
  { c with files, order := c.order.drop (c.order.length - c.cap) }

/-- The directory after writing a sealed chunk. -/
def written (c : ChunkCache) (write : Writing) (addr : Addr) (sealed : Bytes) : ChunkCache :=
  match write.remains sealed with
  | some bytes => { c with files := c.files.insert addr bytes }
  | none => c

variable [Cipher]

/-- The plaintext of a cached chunk; whatever cannot be read or opened is not cached. -/
def get (c : ChunkCache) (read : Disk) (addr : Addr) : Option Bytes × ChunkCache :=
  match read, c.files[addr]? with
  | .ok (), some bytes =>
    match openRandom c.key bytes cacheAad with
    | .ok plain => (some plain, { c with order := touched c.order addr })
    | .error _ => (none, c)
  | _, _ => (none, c)

/-- Look a chunk up in a cache that may not be there. -/
def look (cache : Option ChunkCache) (read : Disk) (addr : Addr) :
    Option Bytes × Option ChunkCache :=
  match cache with
  | some c =>
    let (hit, c) := c.get read addr
    (hit, some c)
  | none => (none, none)

/-- Cache a chunk. -/
def put (c : ChunkCache) (w : CacheDisk) (addr : Addr) (plain : Bytes) :
    Except CacheError Unit × ChunkCache :=
  match sealRandom c.key w.nonce plain cacheAad with
  | .error e => (.error (.crypto e), c)
  | .ok sealed =>
    let c := c.written w.write addr sealed
    match w.write.report with
    | .error e => (.error (.io e), c)
    | .ok () => (.ok (), { c with order := touched c.order addr }.evict w.remove)

/-- Every cached chunk that can be opened is one that a relation allows under its address. -/
def Sound (right : Addr → Bytes → Prop) (c : ChunkCache) : Prop :=
  ∀ (addr : Addr) (bytes plain : Bytes), c.files[addr]? = some bytes →
    openRandom c.key bytes cacheAad = .ok plain → right addr plain

variable {right : Addr → Bytes → Prop} {c : ChunkCache}

/-- An empty cache says nothing wrong. -/
theorem sound_fresh (key : FixedBytes keyLen) (cap : Nat) : (fresh key cap).Sound right := by
  intro addr bytes plain held
  simp [fresh] at held

/-- What a sound cache gives is right, and looking it up changes no file. -/
theorem get_spec (sound : c.Sound right) (read : Disk) (addr : Addr) :
    (c.get read addr).2.Sound right ∧ ∀ plain, (c.get read addr).1 = some plain →
      right addr plain := by
  -- Reading changes nothing, and what opens is right.
  unfold get
  split
  · rename_i bytes held
    split
    · rename_i plain opened
      refine ⟨sound, ?_⟩
      intro found same
      rw [← Option.some.inj same]
      exact sound addr bytes plain held opened
    · exact ⟨sound, fun _ impossible => nomatch impossible⟩
  · exact ⟨sound, fun _ impossible => nomatch impossible⟩

omit [Cipher] in
/-- Dropping files leaves no file that was not there. -/
theorem getElem?_evict {remove : Disk} {addr : Addr} {bytes : Bytes}
    (held : (c.evict remove).files[addr]? = some bytes) : c.files[addr]? = some bytes := by
  unfold evict at held
  cases remove with
  | error e => exact held
  | ok u => exact OrdMap.getElem?_of_foldl_erase held

/-- What a write leaves of a right chunk, if anything, opens to that chunk or not at all. -/
theorem written_sound (trusted : Cipher.Trusted) (sound : c.Sound right) (write : Writing)
    {addr : Addr} {nonce : Option (FixedBytes nonceLen)} {plain sealed : Bytes}
    (made : sealRandom c.key nonce plain cacheAad = .ok sealed) (is : right addr plain) :
    (c.written write addr sealed).Sound right := by
  -- What remains of a write that was cut opens to the plain bytes or not at all.
  unfold written
  split
  · rename_i kept remains
    intro other bytes found held opened
    dsimp only at held opened
    rw [Std.ExtTreeMap.getElem?_insert] at held
    split at held
    · rename_i same
      obtain rfl := Std.LawfulEqCmp.eq_of_compare same
      obtain rfl := Option.some.inj held
      have whole : found = plain := by
        unfold Writing.remains at remains
        split at remains
        · rw [← Option.some.inj remains, openRandom_sealRandom trusted made] at opened
          exact (Except.ok.inj opened).symm
        · obtain ⟨k, _, rfl⟩ := Option.map_eq_some_iff.mp remains
          exact openRandom_take trusted made opened
      rw [whole]
      exact is
    · exact sound other bytes found held opened
  · exact sound

/-- Caching a right chunk keeps a cache sound, however the write goes. -/
theorem put_sound (trusted : Cipher.Trusted) (sound : c.Sound right) (w : CacheDisk) {addr : Addr}
    {plain : Bytes} (is : right addr plain) : (c.put w addr plain).2.Sound right := by
  -- Writing and evicting both leave only files that are right.
  unfold put
  split
  · exact sound
  · rename_i sealed made
    have kept := written_sound trusted sound w.write made is
    dsimp only
    split
    · exact kept
    · -- The files that are dropped afterwards were all right too.
      intro other bytes found held opened
      have before := getElem?_evict held
      exact kept other bytes found before opened

end ChunkCache

end NasTools
