import NasTools.Lib.Machine
import NasTools.Lib.Memo
import NasTools.Model.Store.Concrete
import NasTools.Model.Store.Object

/-! Ranged reads with the chunk cache: when a cached chunk answers as its blob would. -/

namespace NasTools

section

variable [Cipher]

/-- What a cache holds under an address, as far as it can be opened. -/
def ChunkCache.Caches (c : ChunkCache) (addr : Addr) (plain : Bytes) : Prop :=
  ∃ bytes, c.files[addr]? = some bytes ∧ openRandom c.key bytes cacheAad = .ok plain

/-- What a cache holds is right where the cache is sound. -/
theorem ChunkCache.Sound.right {right : Addr → Bytes → Prop} {c : ChunkCache}
    (sound : c.Sound right) {addr : Addr} {plain : Bytes} (caches : c.Caches addr plain) :
    right addr plain := by
  obtain ⟨bytes, held, opened⟩ := caches
  exact sound addr bytes plain held opened

/-- A cache is sound for what it holds. -/
theorem ChunkCache.sound_caches (c : ChunkCache) : c.Sound c.Caches :=
  fun _ bytes _ held opened => ⟨bytes, held, opened⟩

/-- With a cipher that can be trusted the chunk cache is a memo table. -/
def chunkMemo (trusted : Cipher.Trusted) : Memo ChunkCache Addr Bytes CacheDisk where
  look c luck addr := c.get luck.read addr
  keep c luck addr plain := (c.put luck addr plain).2
  mayAnswer := ChunkCache.Caches
  answers {c luck addr plain} hit := (ChunkCache.get_spec c.sound_caches luck.read addr).2 plain hit
  looked {c luck addr _ _} caches :=
    (ChunkCache.get_spec c.sound_caches luck.read addr).1.right caches
  kept {c luck addr _ plain _} caches := by
    have before : c.Sound fun a p => c.Caches a p ∨ a = addr ∧ p = plain :=
      fun _ bytes _ held opened => .inl ⟨bytes, held, opened⟩
    exact (ChunkCache.put_sound trusted before luck (.inr ⟨rfl, rfl⟩)).right caches

variable [Crypto]

namespace BlobStore

/-- The plaintext of a chunk as the store has it, with all checks. -/
def openDirect (s : BlobStore) (m : Manifest) (c : ChunkRef) (fetch : Disk) :
    Except ObjectError Bytes :=
  match fetch, s.get c.addr with
  | .error e, _ => .error (.store (.io e))
  | .ok (), .error e => .error (.store e)
  | .ok (), .ok stored => m.openStored c stored

variable {s : BlobStore} {m : Manifest} {start stop : UInt64} {w : Nat → ChunkDisk}

/-- Without a cache a chunk is what the store has. -/
theorem openChunkPlain_none (c : ChunkRef) (w : ChunkDisk) (stats : ReadStats) : ∃ stats',
    s.openChunkPlain m c w none stats =
      ((s.openDirect m c w.fetch).map fun plain => (plain, stats'), none) := by
  -- Without a cache nothing is hit, and nothing is kept.
  unfold openChunkPlain openDirect ChunkCache.look
  generalize w.fetch = fetch
  generalize s.get c.addr = blob
  cases fetch with
  | error e => exact ⟨stats, rfl⟩
  | ok u =>
    cases blob with
    | error e => exact ⟨stats, rfl⟩
    | ok stored =>
      dsimp only
      cases m.openStored c stored with
      | error e => exact ⟨stats, rfl⟩
      | ok plain => exact ⟨_, rfl⟩

/-- With a cache the cache is asked, and the store where the cache has no answer. -/
theorem openChunkPlain_some (trusted : Cipher.Trusted) (c : ChunkRef) (w : ChunkDisk)
    (cache : ChunkCache) (stats : ReadStats) : ∃ stats',
    let asked := (chunkMemo trusted).ask cache w.cache c.addr (s.openDirect m c w.fetch)
    s.openChunkPlain m c w (some cache) stats = (asked.1.map fun plain => (plain, stats'),
      some asked.2) := by
  -- A hit is returned as it is; on a miss the store is asked, and what it has is kept.
  unfold openChunkPlain openDirect ChunkCache.look Memo.ask chunkMemo
  dsimp only
  generalize cache.get w.cache.read c.addr = looked
  generalize w.fetch = fetch
  generalize s.get c.addr = blob
  obtain ⟨hit, cache'⟩ := looked
  cases hit with
  | some plain => exact ⟨_, rfl⟩
  | none =>
    cases fetch with
    | error e => exact ⟨stats, rfl⟩
    | ok u =>
      cases blob with
      | error e => exact ⟨stats, rfl⟩
      | ok stored =>
        dsimp only
        cases m.openStored c stored with
        | error e => exact ⟨stats, rfl⟩
        | ok plain => exact ⟨_, rfl⟩

end BlobStore

/-- The chunks that a range reaches, from an offset on, with their places in the manifest. -/
def reached (start stop : UInt64) :
    (i : Nat) → (offset : UInt64) → List ChunkRef → List (Nat × ChunkRef)
  | _, _, [] => []
  | i, offset, c :: rest =>
    if offset + c.len.toUInt64 ≤ start ∨ stop ≤ offset
      then reached start stop (i + 1) (offset + c.len.toUInt64) rest
    else (i, c) :: reached start stop (i + 1) (offset + c.len.toUInt64) rest

/-- What a reading of chunks has given so far. -/
def ReadProgress.given (p : ReadProgress) : UInt64 × Bytes := (p.written, p.out)

/-- What a store has of some chunks, under their addresses. -/
def BlobStore.findings (s : BlobStore) (m : Manifest) (w : Nat → ChunkDisk)
    (parts : List (Nat × ChunkRef)) :
    List (Addr × Except ObjectError Bytes) :=
  parts.map fun part => (part.2.addr, s.openDirect m part.2 (w part.1).fetch)

section

variable {s : BlobStore} {m : Manifest} {start stop : UInt64} {w : Nat → ChunkDisk}

/-- Where the store agrees with the cache, chunks are read with the cache as they are without it. -/
theorem BlobStore.readChunks_agrees (trusted : Cipher.Trusted) {refs : List ChunkRef} (i : Nat)
    (p : ReadProgress) (stats : ReadStats) {known : List (Addr × Bytes)} {cache : ChunkCache}
    (within : (chunkMemo trusted).Within known cache)
    (agree : Memo.Agree known (s.findings m w (reached start stop i p.offset refs))) :
    ∃ cache', (s.readChunks m start stop w i refs p (some cache)).2 = some cache' ∧
      (chunkMemo trusted).Within
        (known ++ Memo.learned (s.findings m w (reached start stop i p.offset refs))) cache' ∧
      (s.readChunks m start stop w i refs p (some cache)).1.map ReadProgress.given =
        (s.readChunks m start stop w i refs { p with stats } none).1.map ReadProgress.given := by
  -- Induction over the chunks, with what is known growing along the way.
  induction refs generalizing i p stats known cache with
  | nil => exact ⟨cache, rfl, within.mono (List.subset_append_left _ _), rfl⟩
  | cons c rest ih =>
    unfold readChunks
    rw [reached] at agree ⊢
    dsimp only
    by_cases outside : p.offset + c.len.toUInt64 ≤ start ∨ stop ≤ p.offset
    · simp only [if_pos outside] at agree ⊢
      exact ih (i + 1) { p with offset := p.offset + c.len.toUInt64 } stats within agree
    · simp only [if_neg outside] at agree ⊢
      obtain ⟨here, later⟩ := agree
      dsimp only at here later
      obtain ⟨after, isNone⟩ := openChunkPlain_none (s := s) (m := m) c (w i) stats
      obtain ⟨after', isSome⟩ := openChunkPlain_some (s := s) (m := m) trusted c (w i) cache p.stats
      have answered := Memo.ask_eq within (w i).cache here
      have next := Memo.ask_within within (w i).cache c.addr (s.openDirect m c (w i).fetch)
      rw [isNone, isSome]
      generalize (chunkMemo trusted).ask cache (w i).cache c.addr (s.openDirect m c (w i).fetch) =
        asked at *
      obtain ⟨answer, cache'⟩ := asked
      dsimp only at answered next ⊢
      subst answered
      rw [findings, List.map_cons]
      cases found : s.openDirect m c (w i).fetch with
      | error e =>
        rw [found] at next
        exact ⟨cache', rfl, next, rfl⟩
      | ok plain =>
        -- What was found is known from here on, and may be in the cache.
        rw [found] at next
        obtain ⟨cache'', is, within', given⟩ := ih (i + 1)
          ⟨p.offset + c.len.toUInt64, _, after', _⟩ after next (later plain found)
        refine ⟨cache'', is, ?_, given⟩
        rw [List.append_assoc] at within'
        exact within'

end

/-- One ranged read, on the store and the disk that it finds. -/
structure RangedRead where
  store : BlobStore
  manifest : Manifest
  start : UInt64
  stop : UInt64
  disk : Nat → ChunkDisk

namespace RangedRead

variable (r : RangedRead)

/-- The plaintext of a chunk as the store of the read has it. -/
def direct (part : Nat × ChunkRef) : Except ObjectError Bytes :=
  r.store.openDirect r.manifest part.2 (r.disk part.1).fetch

/-- The chunks that the read opens; a read that is refused or empty opens none. -/
def opens : List (Nat × ChunkRef) :=
  if r.manifest.keyScheme = .indexedRandom ∨ r.manifest.validate ≠ .ok () ∨ r.stop ≤ r.start then []
  else reached r.start r.stop 0 0 r.manifest.chunks

/-- The addresses that the read opens, and what the store has under them. -/
def findings : List (Addr × Except ObjectError Bytes) := r.store.findings r.manifest r.disk r.opens

/-- What the read gives, apart from the work it took. -/
def outcome (cache : Option ChunkCache) : Except ObjectError (UInt64 × Bytes) :=
  (r.store.readObjectRange r.manifest r.start r.stop r.disk cache).1.map fun result =>
    (result.1, result.2.2)

/-- The cache that the read leaves. -/
def cacheAfter (cache : ChunkCache) : ChunkCache :=
  (r.store.readObjectRange r.manifest r.start r.stop r.disk (some cache)).2.getD cache

end RangedRead

/-- A cache, and what the reads that went before took out of their stores. -/
structure CacheHistory where
  cache : ChunkCache
  known : List (Addr × Bytes)

/-- An empty cache, before all reads. -/
def CacheHistory.fresh (key : FixedBytes keyLen) (cap : Nat) : CacheHistory := ⟨.fresh key cap, []⟩

/-- Ranged reads of any manifests, one after the other, with one cache. -/
def cachedReads : Machine CacheHistory RangedRead (Except ObjectError (UInt64 × Bytes)) where
  step t r := (r.outcome (some t.cache), ⟨r.cacheAfter t.cache, t.known ++ Memo.learned r.findings⟩)

/-- What is known of the addresses that are in the cache still. -/
def CacheHistory.held (t : CacheHistory) : List (Addr × Bytes) :=
  t.known.filter fun entry => t.cache.files.contains entry.1

/--
What a read finds in its store agrees with the cache.

Where an address is in the cache still, or the read has opened it already, the blob that is
there now passes all checks of the reference, and opens to the plaintext that was found
under the address before.
-/
def CacheHistory.Agrees (t : CacheHistory) (r : RangedRead) : Prop := Memo.Agree t.held r.findings

/-- Where chunks are read without a cache, the store has all of them. -/
theorem BlobStore.direct_of_readChunks {s : BlobStore} {m : Manifest} {start stop : UInt64}
    {w : Nat → ChunkDisk} {refs : List ChunkRef} {i : Nat} {p p' : ReadProgress}
    (read : (s.readChunks m start stop w i refs p none).1 = .ok p') :
    ∀ part ∈ reached start stop i p.offset refs, ∃ plain, s.openDirect m part.2 (w part.1).fetch =
      .ok plain := by
  -- The first chunk that the store does not have ends the reading.
  induction refs generalizing i p with
  | nil => exact fun part impossible => nomatch impossible
  | cons c rest ih =>
    unfold readChunks at read
    dsimp only at read
    rw [reached]
    by_cases outside : p.offset + c.len.toUInt64 ≤ start ∨ stop ≤ p.offset
    · rw [if_pos outside] at read ⊢
      exact ih read
    · rw [if_neg outside] at read ⊢
      obtain ⟨after, isNone⟩ := openChunkPlain_none (s := s) (m := m) c (w i) p.stats
      rw [isNone] at read
      cases found : s.openDirect m c (w i).fetch with
      | error e =>
        rw [found] at read
        cases read
      | ok plain =>
        rw [found] at read
        intro part member
        rcases List.mem_cons.mp member with rfl | later
        · exact ⟨plain, found⟩
        · exact ih read part later

namespace RangedRead

variable {r : RangedRead}

/--
Where its store agrees with the cache, a read gives what it gives without, and leaves
nothing else in the cache.
-/
theorem outcome_agrees (trusted : Cipher.Trusted) {known : List (Addr × Bytes)} {cache : ChunkCache}
    (within : (chunkMemo trusted).Within known cache) (agree : Memo.Agree known r.findings) :
    r.outcome (some cache) = r.outcome none ∧
      (chunkMemo trusted).Within (known ++ Memo.learned r.findings) (r.cacheAfter cache) := by
  -- The guards do not look at the cache, so only the chunks are left.
  have kept := within.mono (List.subset_append_left known (Memo.learned r.findings))
  unfold outcome cacheAfter BlobStore.readObjectRange
  by_cases indexed : r.manifest.keyScheme = .indexedRandom
  · rw [if_pos indexed, if_pos indexed]
    exact ⟨rfl, kept⟩
  · rw [if_neg indexed, if_neg indexed]
    cases valid : r.manifest.validate with
    | error e => exact ⟨rfl, kept⟩
    | ok u =>
      dsimp only
      by_cases empty : r.stop ≤ r.start
      · rw [if_pos empty, if_pos empty]
        exact ⟨rfl, kept⟩
      · rw [if_neg empty, if_neg empty]
        have opened : r.opens = reached r.start r.stop 0 0 r.manifest.chunks := by
          rw [opens, if_neg]
          simp [indexed, valid, empty]
        rw [findings, opened] at agree ⊢
        obtain ⟨cache', is, within', given⟩ := BlobStore.readChunks_agrees trusted 0
          ⟨0, 0, ⟨0, 0, 0⟩, []⟩ ⟨0, 0, 0⟩ within agree
        generalize r.store.readChunks r.manifest r.start r.stop r.disk 0 r.manifest.chunks ⟨0, 0,
          ⟨0, 0, 0⟩, []⟩
          (some cache) = cached at is given ⊢
        dsimp only at given
        generalize r.store.readChunks r.manifest r.start r.stop r.disk 0 r.manifest.chunks ⟨0, 0,
          ⟨0, 0, 0⟩, []⟩
          none = uncached at given ⊢
        obtain ⟨result, _⟩ := cached
        obtain ⟨result', _⟩ := uncached
        obtain rfl := is
        cases result with
        | error e =>
          cases result' with
          | error e' => exact ⟨congrArg Except.error (Except.error.inj given), within'⟩
          | ok p' => cases given
        | ok p =>
          cases result' with
          | error e' => cases given
          | ok p' => exact ⟨congrArg Except.ok (Except.ok.inj given), within'⟩

/--
A read without a cache is refused where one of the chunks it opens is not what the manifest names.
-/
theorem outcome_refused {part : Nat × ChunkRef} (member : part ∈ r.opens) {e : ObjectError}
    (refused : r.direct part = .error e) :
    ∃ e', r.outcome none = .error e' := by
  -- A reading that succeeds has found every chunk it opens.
  unfold outcome BlobStore.readObjectRange
  unfold opens at member
  split at member
  · cases member
  · rename_i goes
    obtain ⟨supported, valid, some_⟩ : r.manifest.keyScheme ≠ .indexedRandom ∧
      r.manifest.validate = .ok () ∧
        ¬r.stop ≤ r.start := by simpa using goes
    rw [if_neg supported, valid]
    dsimp only
    rw [if_neg some_]
    cases read : r.store.readChunks r.manifest r.start r.stop r.disk 0 r.manifest.chunks ⟨0, 0,
      ⟨0, 0, 0⟩, []⟩ none with
    | mk result cache =>
      cases result with
      | error e => exact ⟨_, rfl⟩
      | ok p =>
        obtain ⟨plain, found⟩ := BlobStore.direct_of_readChunks (congrArg Prod.fst read) part member
        rw [direct, found] at refused
        cases refused

end RangedRead

/-- The cache of a history holds nothing but what is known. -/
def CacheHistory.Honest (trusted : Cipher.Trusted) (t : CacheHistory) : Prop :=
  (chunkMemo trusted).Within t.known t.cache

omit [Crypto] in
/-- An empty cache holds nothing. -/
theorem CacheHistory.honest_fresh (trusted : Cipher.Trusted) (key : FixedBytes keyLen) (cap : Nat) :
    (fresh key cap).Honest trusted := by
  intro addr plain caches
  obtain ⟨bytes, held, _⟩ := caches
  simp [fresh, ChunkCache.fresh] at held

omit [Crypto] in
/-- What an honest cache holds is known of addresses that it has still. -/
theorem CacheHistory.Honest.held {trusted : Cipher.Trusted} {t : CacheHistory}
    (honest : t.Honest trusted) :
    (chunkMemo trusted).Within t.held t.cache := by
  intro addr plain caches
  refine List.mem_filter.mpr ⟨honest addr plain caches, ?_⟩
  obtain ⟨bytes, present, _⟩ := caches
  simp [Std.ExtTreeMap.mem_iff_isSome_getElem?, present]

/-- A read that agrees with the cache leaves it honest. -/
theorem CacheHistory.Honest.step {trusted : Cipher.Trusted} {t : CacheHistory} {r : RangedRead}
    (honest : t.Honest trusted) (agrees : t.Agrees r) :
      (cachedReads.step t r).2.Honest trusted := by
  -- What is held afterwards was held before or has just been read.
  obtain ⟨_, within⟩ := RangedRead.outcome_agrees trusted honest.held agrees
  refine within.mono ?_
  intro entry member
  rcases List.mem_append.mp member with before | new
  · exact List.mem_append_left _ (List.mem_filter.mp before).1
  · exact List.mem_append_right _ new

/--
The cache changes no answer where what the reads find in their stores agrees with it.

After such reads the next one gives what it gives with an empty cache, and what it gives without
one. It is refused where one of the chunks it opens does not open as the manifest names it.
-/
theorem cached_reads_agree (trusted : Cipher.Trusted) (key : FixedBytes keyLen) (cap : Nat)
    (reads : List RangedRead) (r : RangedRead)
    (agrees : cachedReads.Permits CacheHistory.Agrees (.fresh key cap) (reads ++ [r])) :
    let t := cachedReads.run (.fresh key cap) reads
    r.outcome (some t.cache) = r.outcome none ∧
      (∀ key' cap', r.outcome (some (.fresh key' cap')) = r.outcome none) ∧
      ∀ part ∈ r.opens, ∀ e, r.direct part = .error e →
        ∃ e', r.outcome (some t.cache) = .error e' := by
  -- The cache that is reached is honest, and an honest cache changes no answer.
  obtain ⟨before, last, _⟩ := Machine.permits_append.mp agrees
  have honest : (cachedReads.run (.fresh key cap) reads).Honest trusted :=
    Machine.run_invariant (CacheHistory.honest_fresh trusted key cap) before fun _ _ agrees
      honest => honest.step agrees
  obtain ⟨same, _⟩ := RangedRead.outcome_agrees trusted honest.held last
  refine ⟨same, ?_, ?_⟩
  · intro key' cap'
    -- Nothing is known of an empty cache, so there is less to agree with.
    exact (RangedRead.outcome_agrees trusted (CacheHistory.honest_fresh trusted key' cap')
      (last.mono (List.nil_subset _))).1
  · intro part member e refused
    rw [same]
    exact RangedRead.outcome_refused member refused

end

section

open Concrete

/-- A store with one blob. -/
def oneBlob : BlobStore := ((BlobStore.empty .content).put (.ok ()) 0 [1, 2, 3]).2

/--
A read of the blob, on a disk that works, through a manifest that names a hash of its plaintext.
-/
def readNaming (hash : Digest) : RangedRead where
  store := oneBlob
  manifest := ⟨manifestVersion, .plaintext, .none, .file, [], 3,
    [⟨Addressing.addrOf .content [1, 2, 3], FixedBytes.zero _, hash, 3⟩], []⟩
  start := 0
  stop := 3
  disk _ := ⟨.ok (), ⟨.ok (), .ok (), some (FixedBytes.zero _), .done⟩⟩

/-- The second of two honest reads gives what the first one gave. -/
theorem honest_read_hits :
    (readNaming (Crypto.blake3 [1, 2, 3])).outcome
        (some (cachedReads.run (.fresh (FixedBytes.zero _) 64)
          [readNaming (Crypto.blake3 [1, 2, 3])]).cache) =
      (readNaming (Crypto.blake3 [1, 2, 3])).outcome none := by
  -- The condition of the theorem is evaluated for the two reads.
  have found : (readNaming (Crypto.blake3 [1, 2, 3])).findings =
      [(Addressing.addrOf .content [1, 2, 3], .ok [1, 2, 3])] := by
    decide
  have agrees : cachedReads.Permits CacheHistory.Agrees (.fresh (FixedBytes.zero _) 64)
      ([readNaming (Crypto.blake3 [1, 2, 3])] ++ [readNaming (Crypto.blake3 [1, 2, 3])]) := by
    refine ⟨?_, ?_, trivial⟩
    · rw [CacheHistory.Agrees, found]
      exact ⟨fun _ impossible => (List.not_mem_nil impossible).elim, fun _ _ => trivial⟩
    · rw [CacheHistory.Agrees, found]
      refine ⟨?_, fun _ _ => trivial⟩
      intro plain held
      -- The first read took just this plaintext out of the store.
      have known : (Addressing.addrOf .content [1, 2, 3], plain) ∈
          [] ++ Memo.learned (readNaming (Crypto.blake3 [1, 2, 3])).findings :=
            (List.mem_filter.mp held).1
      rw [found] at known
      obtain ⟨_, rfl⟩ := Prod.mk.inj (List.mem_singleton.mp known)
      rfl
  exact (cached_reads_agree trusted _ _ _ _ agrees).1

/--
A manifest that names another hash is refused with an empty cache, and read after an honest one.
-/
theorem hit_is_not_checked :
    (readNaming (FixedBytes.zero _)).outcome (some (.fresh (FixedBytes.zero _) 64)) =
        .error (.plaintextMismatch (Addressing.addrOf .content [1, 2, 3])) ∧
      (readNaming (FixedBytes.zero _)).outcome
          (some (cachedReads.run (.fresh (FixedBytes.zero _) 64)
            [readNaming (Crypto.blake3 [1, 2, 3])]).cache) =
        .ok (3, [1, 2, 3]) := by
  decide +kernel

end

end NasTools
