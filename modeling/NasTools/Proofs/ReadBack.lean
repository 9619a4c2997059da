import NasTools.Model.Store.Concrete
import NasTools.Model.Store.Objects

/-!
What is stored is what is read: every range of an object, from no other chunks than it touches.
-/

namespace NasTools

/-- Whether a chunk that begins at an offset has a byte in a range. -/
def ChunkRef.Overlaps (c : ChunkRef) (offset start stop : Nat) : Prop :=
  max start offset < min stop (offset + c.len.toNat)

instance (c : ChunkRef) (offset start stop : Nat) : Decidable (c.Overlaps offset start stop) :=
  inferInstanceAs (Decidable (max start offset < min stop (offset + c.len.toNat)))

/-- The chunks behind an offset that overlap a range, each with its place. -/
def overlapping (start stop : Nat) : (i offset : Nat) → List ChunkRef → List (Nat × ChunkRef)
  | _, _, [] => []
  | i, offset, c :: rest =>
    -- Each chunk begins where the one before it ends.
    let later := overlapping start stop (i + 1) (offset + c.len.toNat) rest
    if c.Overlaps offset start stop then (i, c) :: later else later

/-- The chunks of an object that overlap a range. -/
def Manifest.overlapping (m : Manifest) (start stop : UInt64) : List (Nat × ChunkRef) :=
  NasTools.overlapping start.toNat stop.toNat 0 0 m.chunks

/-- Nothing overlaps an empty range. -/
theorem overlapping_empty (start i offset : Nat) (refs : List ChunkRef) :
    overlapping start start i offset refs = [] := by
  -- Induction over the references: none overlaps an empty range.
  induction refs generalizing i offset with
  | nil => rfl
  | cons c rest ih =>
    have apart : ¬c.Overlaps offset start start := by
      unfold ChunkRef.Overlaps
      omega
    rw [overlapping, if_neg apart, ih]

/-- A chunk with something in it is passed over exactly where it does not overlap the range. -/
theorem ChunkRef.skipped_iff {c : ChunkRef} {o start stop : UInt64} (range : start < stop)
    (some_ : 0 < c.len.toNat) (room : o.toNat + c.len.toNat < 2 ^ 64) :
    (o + c.len.toUInt64 ≤ start ∨ stop ≤ o) ↔ ¬c.Overlaps o.toNat start.toNat stop.toNat := by
  -- The comparisons are those of the numbers.
  rw [UInt64.lt_iff_toNat_lt] at range
  -- The place of a chunk does not wrap, so its ends are those of a plain range.
  rw [UInt64.le_iff_toNat_le, UInt64.le_iff_toNat_le, UInt64.toNat_add, UInt32.toNat_toUInt64,
    Nat.mod_eq_of_lt room, ChunkRef.Overlaps]
  omega

section

variable [Crypto] [Cipher] {s t : BlobStore} {m : Manifest} {start stop : UInt64}

/-- Opening a chunk looks at nothing but the blob under its address. -/
theorem BlobStore.openChunkPlain_congr {c : ChunkRef} (same : t.get c.addr = s.get c.addr)
    (w : ChunkDisk) (cache : Option ChunkCache) (stats : ReadStats) :
    t.openChunkPlain m c w cache stats = s.openChunkPlain m c w cache stats := by
  unfold openChunkPlain
  rw [same]

/-- A chunk that is opened is counted, as fetched or as found in the cache. -/
theorem BlobStore.openChunkPlain_counts {c : ChunkRef} {w : ChunkDisk} {cache : Option ChunkCache}
    {stats after : ReadStats} {plain : Bytes}
    (opened : (s.openChunkPlain m c w cache stats).1 = .ok (plain, after)) :
    after.chunksFetched + after.cacheHits = stats.chunksFetched + stats.cacheHits + 1 := by
  -- The chunk is found in the cache, or it is fetched.
  unfold openChunkPlain at opened
  generalize ChunkCache.look cache w.cache.read c.addr = looked at opened
  obtain ⟨hit, cache'⟩ := looked
  -- A chunk from the cache counts as a hit, and every other one as fetched.
  cases hit with
  | some found =>
    simp only [Except.ok.injEq, Prod.mk.injEq] at opened
    rw [← opened.2]
    dsimp only
    omega
  | none =>
    dsimp only at opened
    split at opened
    · cases opened
    · cases opened
    · split at opened
      · cases opened
      · simp only [Except.ok.injEq, Prod.mk.injEq] at opened
        rw [← opened.2]
        dsimp only
        omega

/--
A reading depends on no chunk outside its range: not on its blob, nor on the disk
when it would be fetched.
-/
theorem BlobStore.readChunks_congr (range : start < stop) {w w' : Nat → ChunkDisk}
    {refs : List ChunkRef} (some_ : ∀ c ∈ refs, 0 < c.len.toNat) (i : Nat) (p : ReadProgress)
    (cache : Option ChunkCache) (room : p.offset.toNat + chunkLengths refs < 2 ^ 64)
    (same : ∀ part ∈ overlapping start.toNat stop.toNat i p.offset.toNat refs,
      t.get part.2.addr = s.get part.2.addr ∧ w' part.1 = w part.1) :
    t.readChunks m start stop w' i refs p cache = s.readChunks m start stop w i refs p cache := by
  -- Induction over the chunks.
  induction refs generalizing i p cache with
  | nil => rfl
  | cons c rest ih =>
    rw [chunkLengths_cons] at room
    have skipped := c.skipped_iff (o := p.offset) range (some_ c (by simp)) (by omega)
    have next : (p.offset + c.len.toUInt64).toNat = p.offset.toNat + c.len.toNat := by
      rw [UInt64.toNat_add, UInt32.toNat_toUInt64, Nat.mod_eq_of_lt (by omega)]
    have later :
      ∀ part ∈ overlapping start.toNat stop.toNat (i + 1) (p.offset + c.len.toUInt64).toNat rest,
        t.get part.2.addr = s.get part.2.addr ∧ w' part.1 = w part.1 := by
      intro part member
      apply same part
      rw [next] at member
      rw [overlapping]
      split
      · exact List.mem_cons_of_mem _ member
      · exact member
    have fits : (p.offset + c.len.toUInt64).toNat + chunkLengths rest < 2 ^ 64 := by
      rw [next]
      omega
    have tail (p' : ReadProgress) (here : p'.offset = p.offset + c.len.toUInt64)
        (cache : Option ChunkCache) :=
      ih (fun c member => some_ c (by simp [member])) (i + 1) p' cache (by rw [here]; exact fits)
        (by rw [here]; exact later)
    unfold readChunks
    dsimp only
    by_cases outside : p.offset + c.len.toUInt64 ≤ start ∨ stop ≤ p.offset
    · rw [if_pos outside, if_pos outside]
      -- A chunk outside the range is passed over in both stores.
      exact tail _ rfl cache
    · rw [if_neg outside, if_neg outside]
      -- The chunk is in the range, so both stores and both disks answer alike.
      have overlaps := not_not.mp (mt skipped.mpr outside)
      obtain ⟨blob, disk⟩ :=
        same (i, c) (by rw [overlapping, if_pos overlaps]; exact List.mem_cons_self)
      dsimp only at blob disk
      rw [openChunkPlain_congr blob, disk]
      split
      · rfl
      · exact tail _ rfl _

/-- A reading that succeeds counts each chunk in its range once, and each byte it gives. -/
theorem BlobStore.readChunks_counts (range : start < stop) {w : Nat → ChunkDisk}
    {refs : List ChunkRef} (some_ : ∀ c ∈ refs, 0 < c.len.toNat) (i : Nat) {p p' : ReadProgress}
    {cache : Option ChunkCache} (room : p.offset.toNat + chunkLengths refs < 2 ^ 64)
    (counted : p.written = UInt64.ofNat p.out.length)
    (read : (s.readChunks m start stop w i refs p cache).1 = .ok p') :
    p'.written = UInt64.ofNat p'.out.length ∧
      p'.stats.chunksFetched + p'.stats.cacheHits = p.stats.chunksFetched + p.stats.cacheHits +
        (overlapping start.toNat stop.toNat i p.offset.toNat refs).length := by
  -- Induction over the chunks.
  induction refs generalizing i p cache with
  | nil =>
    obtain rfl := Except.ok.inj read
    exact ⟨counted, rfl⟩
  | cons c rest ih =>
    rw [chunkLengths_cons] at room
    have skipped := c.skipped_iff (o := p.offset) range (some_ c (by simp)) (by omega)
    have next : (p.offset + c.len.toUInt64).toNat = p.offset.toNat + c.len.toNat := by
      rw [UInt64.toNat_add, UInt32.toNat_toUInt64, Nat.mod_eq_of_lt (by omega)]
    have fits : (p.offset + c.len.toUInt64).toNat + chunkLengths rest < 2 ^ 64 := by
      rw [next]
      omega
    have others : ∀ c ∈ rest, 0 < c.len.toNat := fun c member => some_ c (by simp [member])
    unfold readChunks at read
    dsimp only at read
    by_cases outside : p.offset + c.len.toUInt64 ≤ start ∨ stop ≤ p.offset
    · rw [if_pos outside] at read
      obtain ⟨bytes, chunks⟩ :=
        ih others (i + 1) (p := { p with offset := p.offset + c.len.toUInt64 }) fits counted read
      refine ⟨bytes, ?_⟩
      -- A chunk outside the range is not counted on either side.
      rw [chunks, overlapping, if_neg (skipped.mp outside)]
      dsimp only
      rw [next]
    · rw [if_neg outside] at read
      have overlaps := not_not.mp (mt skipped.mpr outside)
      cases opened : s.openChunkPlain m c (w i) cache p.stats with
      | mk result cache' =>
        rw [opened] at read
        cases result with
        | error e => cases read
        | ok pair =>
          obtain ⟨plain, stats⟩ := pair
          -- A chunk in the range is counted once.
          have one := openChunkPlain_counts (congrArg Prod.fst opened)
          dsimp only at read
          obtain ⟨bytes, chunks⟩ := ih others (i + 1) (by exact fits)
            (by
              dsimp only
              rw [counted, List.length_append, UInt64.ofNat_add])
            read
          refine ⟨bytes, ?_⟩
          rw [chunks, overlapping, if_pos overlaps]
          dsimp only
          rw [next, List.length_cons, one]
          omega

/--
Every range of an object reads as that range of some bytes, from the chunks that
overlap it and no others.
-/
structure Manifest.ReadsAs (m : Manifest) (s : BlobStore) (cache : Option ChunkCache)
    (data : Bytes) : Prop where
  range : ∀ (start stop : UInt64) (w : Nat → ChunkDisk), start ≤ stop →
    (∀ part ∈ m.overlapping start stop, (w part.1).fetch = .ok ()) →
    ∃ stats, (s.readObjectRange m start stop w cache).1 =
        .ok (UInt64.ofNat ((data.take stop.toNat).drop start.toNat).length, stats,
          (data.take stop.toNat).drop start.toNat) ∧
      stats.chunksFetched + stats.cacheHits = (m.overlapping start stop).length
  only : ∀ (start stop : UInt64) (t : BlobStore) (w w' : Nat → ChunkDisk),
    (∀ part ∈ m.overlapping start stop, t.get part.2.addr = s.get part.2.addr ∧
      w' part.1 = w part.1) →
    t.readObjectRange m start stop w' cache = s.readObjectRange m start stop w cache

section

variable {sealer : Sealer} {profile : PaddingProfile} {chunks : Set Bytes} {data : Bytes}
  (holds : m.Holds sealer profile chunks s data) (some_ : ∀ c ∈ m.chunks, 0 < c.len.toNat)
include holds

/-- The chunks of an object that is held have no more bytes than a 64-bit number counts. -/
theorem Manifest.Holds.room : chunkLengths m.chunks < 2 ^ 64 := by
  -- The parts put together are the body.
  obtain ⟨plains, filed, whole⟩ := holds.parts
  -- The lengths add up to the size, which is a 64-bit number.
  have lengths : chunkLengths m.chunks = plains.flatten.length := by
    clear whole
    generalize m.chunks = refs at filed
    induction filed with
    | nil => rfl
    | cons here later ih =>
      rw [chunkLengths_cons, ih, List.flatten_cons, List.length_append, here.len]
  rw [lengths, whole, ← holds.size]
  exact m.size.toNat_lt

include some_

/-- Reading a range depends on no chunk outside it. -/
theorem Manifest.Holds.readObjectRange_congr {w w' : Nat → ChunkDisk} (cache : Option ChunkCache)
    (same : ∀ part ∈ m.overlapping start stop, t.get part.2.addr = s.get part.2.addr ∧
      w' part.1 = w part.1) :
    t.readObjectRange m start stop w' cache = s.readObjectRange m start stop w cache := by
  -- Only the chunks that overlap are read.
  unfold BlobStore.readObjectRange
  by_cases empty : stop ≤ start
  · simp only [if_pos empty]
  · have room : (0 : UInt64).toNat + chunkLengths m.chunks < 2 ^ 64 := by
      rw [UInt64.toNat_zero, Nat.zero_add]
      exact holds.room
    simp only [if_neg empty]
    rw [BlobStore.readChunks_congr (UInt64.not_le.mp empty) some_ 0 ⟨0, 0, ⟨0, 0, 0⟩,
      []⟩ cache room same]

/-- A range that is read counts its bytes and its chunks. -/
theorem Manifest.Holds.readObjectRange_counts {w : Nat → ChunkDisk} {cache : Option ChunkCache}
    (ordered : start ≤ stop) {n : UInt64} {stats : ReadStats} {out : Bytes}
    (read : (s.readObjectRange m start stop w cache).1 = .ok (n, stats, out)) :
    n = UInt64.ofNat out.length ∧ stats.chunksFetched + stats.cacheHits =
      (m.overlapping start stop).length := by
  -- No sealer here makes chunks of the scheme that cannot be read.
  have supported : m.keyScheme ≠ .indexedRandom := by
    rw [holds.scheme]
    cases sealer <;> exact fun impossible => nomatch impossible
  unfold BlobStore.readObjectRange at read
  simp only [if_neg supported, holds.valid] at read
  by_cases empty : stop ≤ start
  · rw [if_pos empty] at read
    simp only [Except.ok.injEq, Prod.mk.injEq] at read
    obtain ⟨rfl, rfl, rfl⟩ := read
    -- An empty range gives nothing and opens nothing.
    obtain rfl := UInt64.le_antisymm empty ordered
    rw [Manifest.overlapping, overlapping_empty]
    exact ⟨rfl, rfl⟩
  · rw [if_neg empty] at read
    have room : (0 : UInt64).toNat + chunkLengths m.chunks < 2 ^ 64 := by
      rw [UInt64.toNat_zero, Nat.zero_add]
      exact holds.room
    cases after : s.readChunks m start stop w 0 m.chunks ⟨0, 0, ⟨0, 0, 0⟩, []⟩ cache with
    | mk result cache' =>
      rw [after] at read
      cases result with
      | error e => cases read
      | ok p =>
        simp only [Except.ok.injEq, Prod.mk.injEq] at read
        obtain ⟨rfl, rfl, rfl⟩ := read
        obtain ⟨bytes, parts⟩ :=
          BlobStore.readChunks_counts (UInt64.not_le.mp empty) some_ 0 room rfl
          (congrArg Prod.fst after)
        refine ⟨bytes, ?_⟩
        rw [parts]
        simp [Manifest.overlapping]

/-- An object that is held reads as its bytes while its chunks open. -/
theorem Manifest.Holds.readsAs {R : Option ChunkCache → Prop}
    (opens : ∀ c plain w cache stats, Filed sealer profile chunks s c plain → R cache →
      R (s.openChunkPlain m c w cache stats).2 ∧
        ((∃ e, (s.openChunkPlain m c w cache stats).1 = .error e ∧ w.fetch ≠ .ok ()) ∨
          ∃ stats', (s.openChunkPlain m c w cache stats).1 = .ok (plain, stats')))
    {cache : Option ChunkCache} (right : R cache) : m.ReadsAs s cache data := by
  -- What is given was shown before, and it is left to say when it fails.
  refine ⟨?_, fun start stop t w w' same => holds.readObjectRange_congr some_ cache same⟩
  intro start stop w ordered fetched
  -- A disk that fails nowhere in the range might as well fail nowhere.
  let w' : Nat → ChunkDisk := fun i => if i ∈ (m.overlapping start stop).map Prod.fst then w i
    else ⟨.ok (), (w i).cache⟩
  have healthy (i : Nat) : (w' i).fetch = .ok () := by
    show (if i ∈ (m.overlapping start stop).map Prod.fst then w i else _).fetch = _
    split
    · rename_i listed
      obtain ⟨part, member, rfl⟩ := List.mem_map.mp listed
      exact fetched part member
    · rfl
  have alike : s.readObjectRange m start stop w cache = s.readObjectRange m start stop w' cache :=
    holds.readObjectRange_congr some_ cache fun part member =>
      ⟨rfl, (if_pos (List.mem_map_of_mem member)).symm⟩
  -- The only way to fail is a disk that does.
  obtain ⟨_, ⟨e, i, _, fault⟩ | ⟨n, stats, read⟩⟩ :=
    BlobStore.readObjectRange_of_opens holds opens start stop w' right
  · exact absurd (healthy i) fault
  · obtain ⟨bytes, parts⟩ := holds.readObjectRange_counts some_ ordered read
    rw [alike, read, bytes]
    exact ⟨stats, rfl, parts⟩

end

/-- Where a sealer says addresses, the store computes the same ones. -/
def Sealer.Suits (sealer : Sealer) (addressing : Addressing) : Prop :=
  match sealer with
  | .convergent _ => True
  | .plaintext tenantSalt => addressing = .salted tenantSalt

namespace ObjectWriter

variable {w : ObjectWriter}

/-- A chunk that is written has a 32-bit length. -/
theorem small_of_writeChunk {disk : Disk} {now : Timestamp} {plain : Bytes} {c : ChunkRef}
    (written : (w.writeChunk s disk now plain).1 = .ok c) : plain.length < 2 ^ 32 := by
  -- The length is checked last, and only then is a chunk written.
  unfold writeChunk at written
  split at written
  · cases written
  · split at written
    · cases written
    · split at written
      · cases written
      · split at written
        · cases written
        · split at written
          · assumption
          · cases written

/-- Chunks that are written all have 32-bit lengths. -/
theorem small_of_writeChunks {disk : Nat → Disk} {now : Timestamp} {plains : List Bytes} {i : Nat}
    {m m' : Manifest} (written : (w.writeChunks disk now i plains m s).1 = .ok m') :
    ∀ plain ∈ plains, plain.length < 2 ^ 32 := by
  -- Induction over the chunks, each of which was written.
  induction plains generalizing i m s with
  | nil => exact fun _ impossible => nomatch impossible
  | cons plain rest ih =>
    unfold writeChunks at written
    cases first : w.writeChunk s (disk i) now plain with
    | mk result t =>
      rw [first] at written
      cases result with
      | error e => cases written
      | ok c =>
        intro other member
        rcases List.mem_cons.mp member with rfl | later
        · exact small_of_writeChunk (congrArg Prod.fst first)
        · exact ih written other later

/-- On a disk that works, a chunk that fits its frame and a 32-bit length is written. -/
theorem writeChunk_ok (aead : Cipher.Aead) (suits : w.sealer.Suits s.addressing) (now : Timestamp)
    {plain : Bytes} (bounded : plain.length ≤ w.chunker.cfg.max) (small : plain.length < 2 ^ 32) :
    ∃ c t, w.writeChunk s (.ok ()) now plain = (.ok c, t) ∧ t.addressing = s.addressing := by
  -- Every step succeeds for a chunk within the bounds: padding, sealing, storing and comparing.
  have frames : w.profile.Frames plain.length :=
    fun limit is => Nat.le_trans bounded (w.frames limit is)
  obtain ⟨padded, framed⟩ := PaddingProfile.pad_ok frames
  have short : padded.length < 2 ^ 64 := by
    rcases PaddingProfile.pad_eq_ok framed with rfl | class_
    · omega
    · have bound := PaddingProfile.class_lt class_
      simp only [padHeader] at bound
      omega
  obtain ⟨⟨blob, ck⟩, made⟩ : ∃ made, w.sealer.protect padded = .ok made := by
    cases w.sealer with
    | convergent cs => exact sealChunk_ok aead cs chunkAad short
    | plaintext salt => exact ⟨_, rfl⟩
  obtain ⟨t, stored⟩ := BlobStore.put_ok s now blob
  have agreed : w.sealer.agrees padded (s.addressing.addrOf blob) = .ok () := by
    unfold Sealer.agrees
    unfold Sealer.Suits at suits
    cases is : w.sealer with
    | convergent cs => rfl
    | plaintext salt =>
      rw [is] at suits made
      obtain ⟨rfl, _⟩ := Prod.mk.inj (Except.ok.inj made)
      dsimp only at suits ⊢
      rw [suits]
      exact ensure_of rfl
  have grows : s.Grows (s.put (.ok ()) now blob).2 := BlobStore.put_grows
  rw [stored] at grows
  refine ⟨⟨s.addressing.addrOf blob, ck, Crypto.blake3 plain, UInt32.ofNat plain.length⟩, t, ?_,
    grows.addressing⟩
  simp only [writeChunk, framed, made, stored, agreed, if_pos small]

/-- On a disk that works, chunks that fit are written. -/
theorem writeChunks_ok (aead : Cipher.Aead) (suits : w.sealer.Suits s.addressing) (now : Timestamp)
    {plains : List Bytes} (i : Nat) (m : Manifest)
    (fit : ∀ plain ∈ plains, plain.length ≤ w.chunker.cfg.max ∧ plain.length < 2 ^ 32) :
    ∃ m', (w.writeChunks (fun _ => .ok ()) now i plains m s).1 = .ok m' := by
  -- Induction over the chunks: each is written, and the store's addressing stays.
  induction plains generalizing i m s with
  | nil => exact ⟨m, rfl⟩
  | cons plain rest ih =>
    obtain ⟨bounded, small⟩ := fit plain (by simp)
    obtain ⟨c, t, first, same⟩ := writeChunk_ok (s := s) aead suits now bounded small
    unfold writeChunks
    rw [first]
    exact ih (by rw [same]; exact suits) (i + 1) _ fun other member => fit other (by simp [member])

variable [GearTable] {chunks blobs : Set Bytes} {now : Timestamp} {kind : Kind} {reader : Reader}

/-- An object that is written has a window that can be allocated, and chunks of 32-bit lengths. -/
theorem fits_of_write {disk : Nat → Disk} {m : Manifest}
    (written : (w.write s disk now kind reader).1 = .ok m) :
    w.chunker.cfg.max * 2 ≤ isizeMax ∧ ∀ chunk ∈ w.chunker.split reader.rest, chunk.length <
      2 ^ 32 := by
  -- A window that is too large gives no stream, and a chunk that is too long no reference.
  unfold write at written
  by_cases fits : w.chunker.cfg.max * 2 ≤ isizeMax
  · rw [Chunker.stream_eq_split fits] at written
    refine ⟨fits, ?_⟩
    dsimp only at written
    split at written
    · cases written
    · rename_i m' t done
      exact small_of_writeChunks (congrArg Prod.fst done)
  · rw [Chunker.stream_eq_none fits] at written
    cases written

omit [GearTable] in
/-- Chunks that are filed add up to the bytes they hold. -/
theorem chunkBytes_of_filed {sealer : Sealer} {profile : PaddingProfile} {refs : List ChunkRef}
    {plains : List Bytes} (filed : List.Forall₂ (Filed sealer profile chunks s) refs plains) :
    (refs.map fun c => c.len.toUInt64).sum = UInt64.ofNat plains.flatten.length := by
  -- Induction over the chunks: every reference has the length of its chunk.
  induction filed with
  | nil => rfl
  | cons here later ih =>
    rename_i c plain _ _
    have same : c.len.toUInt64 = UInt64.ofNat plain.length := by
      rw [← here.len, ← UInt32.toNat_toUInt64, UInt64.ofNat_toNat]
    rw [List.map_cons, List.sum_cons, ih, List.flatten_cons, List.length_append,
      UInt64.ofNat_add, same]

omit [GearTable] in
/-- Chunks that are filed have something in them where what was filed has. -/
theorem some_of_filed {sealer : Sealer} {profile : PaddingProfile} {refs : List ChunkRef}
    {plains : List Bytes} (filed : List.Forall₂ (Filed sealer profile chunks s) refs plains)
    (some_ : ∀ plain ∈ plains, plain ≠ []) :
    ∀ c ∈ refs, 0 < c.len.toNat := by
  -- Induction over the chunks: a chunk that is not empty has a length.
  induction filed with
  | nil => exact fun _ impossible => nomatch impossible
  | cons here later ih =>
    intro c member
    rcases List.mem_cons.mp member with rfl | member
    · rw [here.len]
      exact List.length_pos_iff.mpr (some_ _ (by simp))
    · exact ih (fun plain listed => some_ plain (by simp [listed])) c member

/--
On a disk that works, an object whose chunks fit is written, as chunks with something in them.
-/
theorem write_ok (aead : Cipher.Aead) (suits : w.sealer.Suits s.addressing)
    (within : s.Within blobs) (distinct : Set.InjOn s.addressing.addrOf blobs)
    (known : ∀ plain ∈ w.chunker.split reader.rest, w.Known blobs chunks plain)
    (fits : w.chunker.cfg.max * 2 ≤ isizeMax)
    (small : ∀ chunk ∈ w.chunker.split reader.rest, chunk.length < 2 ^ 32) :
    ∃ m, (w.write s (fun _ => .ok ()) now kind reader).1 = .ok m ∧
      ∀ c ∈ m.chunks, 0 < c.len.toNat := by
  -- The chunks are written first, and then the manifest is made.
  obtain ⟨m, written⟩ := writeChunks_ok (s := s) aead suits now 0
    ⟨manifestVersion, w.sealer.keyScheme, w.profile, kind, [], 0, [], []⟩
    fun plain member => ⟨(Chunker.mem_split member).2, small plain member⟩
  obtain ⟨_, _, filed⟩ := writeChunks_spec (fun _ => .ok ()) now 0
    ⟨manifestVersion, w.sealer.keyScheme, w.profile, kind, [], 0, [], []⟩ within distinct known
  obtain ⟨refs, same, parts⟩ := filed m written
  -- The lengths of the chunks add up to the size that is written down.
  have valid : m.validate = .ok () := by
    rw [same]
    simp only [Manifest.validate, Manifest.chunkBytes, List.nil_append, chunkBytes_of_filed parts,
      UInt64.zero_add, ensure_of, except_ok_bind]
  refine ⟨m, ?_, ?_⟩
  · unfold write
    rw [Chunker.stream_eq_split fits]
    dsimp only
    generalize w.writeChunks (fun _ => .ok ()) now 0 (w.chunker.split reader.rest) _ s = after
      at written ⊢
    obtain ⟨result, t⟩ := after
    obtain rfl : result = .ok m := written
    simp only [valid]
  · intro c member
    rw [same] at member
    exact some_of_filed parts (fun plain listed => (Chunker.mem_split listed).1) c
      (by simpa using member)

/--
A cache that may be used: what it holds are chunks of the store, and one address
stands for one chunk.
-/
def Usable (w : ObjectWriter) (chunks : Set Bytes) (s : BlobStore)
    (cache : Option ChunkCache) : Prop :=
  ∀ cached ∈ cache, Cipher.Trusted ∧ w.sealer.Separates chunks ∧
    cached.Sound (Says w.sealer w.profile chunks s)

/--
An object is written, and reads as its bytes: in full, and in every range, with and without a cache.
-/
def ReadsBack (w : ObjectWriter) (chunks : Set Bytes) (s : BlobStore) (now : Timestamp)
    (kind : Kind) (reader : Reader) : Prop :=
  ∃ m t, w.write s (fun _ => .ok ()) now kind reader = (.ok m, t) ∧
    (∀ disk : Nat → ChunkDisk, (∀ i, (disk i).fetch = .ok ()) →
      t.readObject m disk = .ok (UInt64.ofNat reader.rest.length, reader.rest)) ∧
    ∀ cache, w.Usable chunks t cache → m.ReadsAs t cache reader.rest

omit [GearTable] in
/-- A filed chunk opens to its plaintext with every usable cache, unless the disk fails. -/
theorem Usable.opens (aead : Cipher.Aead) (scheme : m.keyScheme = w.sealer.keyScheme)
    (same : m.paddingProfile = w.profile) {c : ChunkRef} {plain : Bytes}
    (filed : Filed w.sealer w.profile chunks s c plain) (disk : ChunkDisk)
    {cache : Option ChunkCache} (usable : w.Usable chunks s cache) (stats : ReadStats) :
    w.Usable chunks s (s.openChunkPlain m c disk cache stats).2 ∧
      ((∃ e, (s.openChunkPlain m c disk cache stats).1 = .error e ∧ disk.fetch ≠ .ok ()) ∨
        ∃ stats', (s.openChunkPlain m c disk cache stats).1 = .ok (plain, stats')) := by
  -- Without a cache the chunk is fetched, and a usable cache gives the same.
  cases cache with
  | none =>
    obtain ⟨none, result⟩ := filed.fetched aead.opens scheme same disk stats
    rw [none]
    exact ⟨(fun _ impossible => nomatch impossible), result⟩
  | some cached =>
    obtain ⟨trusted, separates, _⟩ := usable cached rfl
    obtain ⟨right, result⟩ := BlobStore.openChunkPlain_spec trusted separates scheme same filed disk
      (fun other is => (usable other is).2.2) stats
    exact ⟨fun other is => ⟨trusted, separates, right other is⟩, result⟩

/--
An object reads back exactly where its window can be allocated and its chunks have 32-bit lengths.
-/
theorem stored_is_read_iff (aead : Cipher.Aead) (suits : w.sealer.Suits s.addressing)
    (within : s.Within blobs) (distinct : Set.InjOn s.addressing.addrOf blobs)
    (known : ∀ plain ∈ w.chunker.split reader.rest, w.Known blobs chunks plain)
    (short : reader.rest.length < 2 ^ 64) :
    w.ReadsBack chunks s now kind reader ↔
      w.chunker.cfg.max * 2 ≤ isizeMax ∧ ∀ chunk ∈ w.chunker.split reader.rest, chunk.length <
        2 ^ 32 := by
  -- What was written is held by the store, and what is held is read.
  constructor
  · rintro ⟨m, t, written, _⟩
    -- Whatever was written fitted.
    exact fits_of_write (congrArg Prod.fst written)
  · rintro ⟨fits, small⟩
    obtain ⟨m, written, some_⟩ : ∃ m, (w.write s (fun _ => .ok ()) now kind reader).1 = .ok m ∧
        ∀ c ∈ m.chunks, 0 < c.len.toNat := write_ok aead suits within distinct known fits small
    obtain ⟨_, _, held⟩ := write_spec (fun _ => .ok ()) now kind within distinct known short
    have holds := held m written
    generalize is : w.write s (fun _ => .ok ()) now kind reader = after at written holds
    obtain ⟨result, t⟩ := after
    obtain rfl : result = .ok m := written
    have reads (cache : Option ChunkCache) (usable : w.Usable chunks t cache) :
        m.ReadsAs t cache reader.rest :=
      holds.readsAs some_ (R := w.Usable chunks t)
        (fun _ _ disk _ stats filed usable => Usable.opens aead holds.scheme holds.padding filed
          disk usable stats) usable
    refine ⟨m, t, is, ?_, reads⟩
    intro disk healthy
    obtain ⟨stats, read, _⟩ := (reads none (fun _ impossible => nomatch impossible)).range 0
      (UInt64.ofNat (2 ^ 64 - 1)) disk (UInt64.zero_le) (fun part _ => healthy part.1)
    -- The range to the greatest number is all of it.
    have whole : (reader.rest.take (UInt64.ofNat (2 ^ 64 - 1)).toNat).drop (0 : UInt64).toNat =
        reader.rest := by
      rw [UInt64.toNat_zero, List.drop_zero, List.take_of_length_le]
      rw [show (UInt64.ofNat (2 ^ 64 - 1)).toNat = 2 ^ 64 - 1 from rfl]
      omega
    rw [whole] at read
    rw [BlobStore.readObject, read]
    rfl

end ObjectWriter

end

/--
A reader is cut as its bytes are, however much each read delivers, exactly where the
window can be allocated.
-/
theorem Chunker.stream_agrees_iff [GearTable] (ch : Chunker) (reader : Reader) :
    ch.stream reader = some (ch.split reader.rest) ↔ ch.cfg.max * 2 ≤ isizeMax := by
  -- The stream agrees wherever its window can be allocated.
  constructor
  · intro agrees
    by_contra huge
    rw [stream_eq_none huge] at agrees
    cases agrees
  · exact fun fits => stream_eq_split fits reader

section

open Concrete

/-- A chunker that is accepted, and whose window cannot be allocated. -/
theorem endless_window_is_a_panic : ∃ ch, Chunker.new ⟨1, 1, 2 ^ 62⟩ = .ok ch ∧
    ch.stream (.cursor [1, 2, 3]) ≠ some (ch.split [1, 2, 3]) := by
  -- The configuration is accepted, and its window exceeds the bound.
  obtain ⟨ch, made⟩ :=
    Chunker.new_ok (show (⟨1, 1, 2 ^ 62⟩ : ChunkerConfig).validate = .ok () by decide)
  refine ⟨ch, made, ?_⟩
  rw [Chunker.stream_eq_none]
  · exact fun impossible => nomatch impossible
  · rw [Chunker.cfg_of_new made]
    decide

/-- A writer of chunks of one size, unpadded. -/
def fixedWriter (size : Nat) (valid : (ChunkerConfig.fixed size).validate = .ok ()) :
    ObjectWriter where
  sealer := .convergent (FixedBytes.zero _)
  chunker := ⟨.fixed size, mask (Nat.min (trailingZeros size) 63 + normalization),
    mask (Nat.min (trailingZeros size) 63 -
      Nat.min normalization (Nat.min (trailingZeros size) 63)), true, valid⟩
  profile := .none
  frames := fun _ impossible => nomatch impossible

/-- It is the writer that the source makes. -/
theorem fixedWriter_of_new {size : Nat} (valid : (ChunkerConfig.fixed size).validate = .ok ()) :
    ObjectWriter.new (.convergent (FixedBytes.zero _)) .none (.fixed size) =
      .ok (fixedWriter size valid) := by
  -- Both checks pass, so the writer is made.
  have made : Chunker.new (.fixed size) = .ok (fixedWriter size valid).chunker := by
    unfold Chunker.new
    split
    · rename_i refused
      rw [valid] at refused
      cases refused
    · simp [fixedWriter, ChunkerConfig.fixed]
  have frames : PaddingProfile.none.Frames size := fun _ impossible => nomatch impossible
  unfold ObjectWriter.new
  rw [dif_pos (show PaddingProfile.none.Frames (ChunkerConfig.fixed size).max from frames)]
  split
  · rename_i refused
    rw [made] at refused
    cases refused
  · rename_i ch is
    obtain rfl := Except.ok.inj (made.symm.trans is)
    rfl

/-- Five bytes in chunks of four are written and read back. -/
theorem two_chunks_are_read_back :
    (fixedWriter 4 (by decide)).ReadsBack {data | data ∈ [[1, 2, 3, 4], [5]]}
      (BlobStore.empty .content) 0 .file
      (.cursor [1, 2, 3, 4, 5]) := by
  -- The store is empty and the chunks are few, so the theorem's hypotheses are evaluated.
  have aead : Cipher.Aead := ⟨fun _ _ _ _ short => ⟨_, if_pos short⟩, trusted.opens⟩
  let blobs : List Bytes := [[1, 2, 3, 4], [5]].filterMap fun padded =>
    ((fixedWriter 4 (by decide)).sealer.protect padded).toOption.map Prod.fst
  have within : (BlobStore.empty .content).Within {data | data ∈ blobs} := by
    intro addr data held
    obtain ⟨file, filed, _⟩ := BlobStore.get_eq_ok.mp held
    simp [BlobStore.empty] at filed
  have distinct : Set.InjOn (Addressing.addrOf .content) {data | data ∈ blobs} :=
    injOn_of_nodup (by decide +kernel)
  have known : ∀ plain ∈ (fixedWriter 4 (by decide)).chunker.split [1, 2, 3, 4, 5],
      (fixedWriter 4 (by decide)).Known {data | data ∈ blobs} {data | data ∈ [[1, 2, 3, 4], [5]]}
      plain := by
    decide +kernel
  exact (ObjectWriter.stored_is_read_iff (w := fixedWriter 4 (by decide)) (s :=
    BlobStore.empty .content) aead trivial
    within distinct known (by decide)).mpr ⟨by decide, by decide⟩

/-- Where the one size is no 32-bit number, a file of that size is not written. -/
theorem fixedWriter_panics {size : Nat} (valid : (ChunkerConfig.fixed size).validate = .ok ())
    (huge : 2 ^ 32 ≤ size) {data : Bytes} (whole : data.length = size) (chunks : Set Bytes)
    (s : BlobStore) :
    ¬(fixedWriter size valid).ReadsBack chunks s 0 .file (.cursor data) := by
  -- Suppose such a file was written.
  rintro ⟨m, t, written, _⟩
  have small := (ObjectWriter.fits_of_write (congrArg Prod.fst written)).2
  -- The chunker takes everything there is, up to its one size.
  have cut : (fixedWriter size valid).chunker.cut data = size := by
    show Nat.min data.length size = size
    rw [whole]
    exact Nat.min_self size
  have some_ : data ≠ [] := List.ne_nil_of_length_pos (by omega)
  have first : data ∈ (fixedWriter size valid).chunker.split data := by
    rw [Chunker.split, pieces_of_ne_nil (Chunker.cut_advances _) some_, cut,
      List.take_of_length_le (by omega)]
    exact List.mem_cons_self
  have bound := small data first
  omega

/-- A writer of chunks of four GiB is accepted, and a file of that size is not written. -/
theorem huge_chunk_is_a_panic :
    ∃ w, ObjectWriter.new (.convergent (FixedBytes.zero _)) .none (.fixed (2 ^ 32)) = .ok w ∧
    ¬w.ReadsBack Set.univ (BlobStore.empty .content) 0 .file
      (.cursor (List.replicate (2 ^ 32) 0)) := by
  have valid : (ChunkerConfig.fixed (2 ^ 32)).validate = .ok () := by decide
  exact ⟨fixedWriter (2 ^ 32) valid, fixedWriter_of_new valid,
    fixedWriter_panics valid (Nat.le_refl _) List.length_replicate _ _⟩

end

end NasTools
