import NasTools.Model.Store.Object

/-! An object that was written is read back, in full and in part, with and without a cache. -/

namespace NasTools

variable [Crypto]

/-- Every blob that can be read is among the known ones. -/
def BlobStore.Within (s : BlobStore) (blobs : Set Bytes) : Prop :=
  ∀ addr data, s.get addr = .ok data → data ∈ blobs

/-- Storing a known blob keeps to the known ones. -/
theorem BlobStore.put_within {s : BlobStore} {blobs : Set Bytes} (within : s.Within blobs)
    {disk : Disk} {now : Timestamp} {data : Bytes} (known : data ∈ blobs) :
    (s.put disk now data).2.Within blobs := by
  intro addr found held
  rcases get_of_put held with before | rfl
  · exact within addr found before
  · exact known

/-- A known blob that was stored is what lies under its address, as no two known blobs share one. -/
theorem BlobStore.get_of_put_known {s : BlobStore} {blobs : Set Bytes} (within : s.Within blobs)
    (distinct : Set.InjOn s.addressing.addrOf blobs) {disk : Disk} {now : Timestamp} {data : Bytes}
    (known : data ∈ blobs) {addr : Addr} (stored : (s.put disk now data).1 = .ok addr) :
    (s.put disk now data).2.get addr = .ok data := by
  obtain ⟨found, held, rfl | ⟨earlier, clash⟩⟩ := get_put stored
  · exact held
  · rw [distinct (within _ _ earlier) known clash] at held
    exact held

variable [Cipher]

/-- No two of some padded chunks are protected as the same blob. -/
def Sealer.Separates (sealer : Sealer) (chunks : Set Bytes) : Prop :=
  ∀ a ∈ chunks, ∀ b ∈ chunks, ∀ blob x y, sealer.protect a = .ok (blob, x) →
    sealer.protect b = .ok (blob, y) → a = b

/-- A chunk that a sealer and a profile put into a store, as its manifest refers to it. -/
structure Filed (sealer : Sealer) (profile : PaddingProfile) (chunks : Set Bytes) (s : BlobStore)
    (c : ChunkRef) (plain : Bytes) : Prop where
  stored : ∃ padded blob, profile.pad plain = .ok padded ∧ padded ∈ chunks ∧
    sealer.protect padded = .ok (blob, c.ck) ∧ s.get c.addr = .ok blob
  hash : c.ptHash = Crypto.blake3 plain
  len : c.len.toNat = plain.length

/-- What a manifest says of an object that is in a store. -/
structure Manifest.Holds (sealer : Sealer) (profile : PaddingProfile) (chunks : Set Bytes)
    (s : BlobStore) (m : Manifest) (body : Bytes) : Prop where
  scheme : m.keyScheme = sealer.keyScheme
  padding : m.paddingProfile = profile
  valid : m.validate = .ok ()
  size : m.size.toNat = body.length
  parts : ∃ plains, List.Forall₂ (Filed sealer profile chunks s) m.chunks plains ∧
    plains.flatten = body

section

variable {sealer : Sealer} {profile : PaddingProfile} {chunks blobs : Set Bytes} {s t : BlobStore}
    {c : ChunkRef}
  {plain : Bytes}

/-- What is filed stays filed as the store grows. -/
theorem Filed.mono (filed : Filed sealer profile chunks s c plain) (grows : s.Grows t) :
    Filed sealer profile chunks t c plain := by
  obtain ⟨⟨padded, blob, framed, known, protected_, held⟩, hash, len⟩ := filed
  exact ⟨⟨padded, blob, framed, known, protected_, grows.kept _ _ held⟩, hash, len⟩

/-- A store that loses nothing keeps its objects. -/
theorem Manifest.Holds.mono {m : Manifest} {body : Bytes}
    (holds : m.Holds sealer profile chunks s body) (grows : s.Grows t) :
    m.Holds sealer profile chunks t body := by
  obtain ⟨scheme, padding, valid, size, plains, filed, whole⟩ := holds
  exact ⟨scheme, padding, valid, size, plains, filed.imp fun _ _ here => here.mono grows, whole⟩

/-- What lies under the address of a filed chunk opens to its plaintext. -/
theorem Filed.opens
    (opens : ∀ key nonce plain aad sealed, Cipher.sealWithNonce key nonce plain aad = some sealed →
      Cipher.openWithNonce key nonce sealed aad = some plain)
    (filed : Filed sealer profile chunks s c plain) {m : Manifest}
    (scheme : m.keyScheme = sealer.keyScheme) (same : m.paddingProfile = profile) :
    ∃ blob, s.get c.addr = .ok blob ∧ m.openStored c blob = .ok plain := by
  -- Opening undoes what writing did, in the opposite order.
  obtain ⟨⟨padded, blob, framed, _, protected_, held⟩, hash, len⟩ := filed
  refine ⟨blob, held, ?_⟩
  -- The blob opens to the padded chunk, which the frame gives back.
  have opened : m.unprotect c blob = .ok padded := by
    unfold Manifest.unprotect
    rw [scheme]
    cases sealer with
    | convergent cs =>
      have back := openChunk_sealChunk opens protected_
      simp only [Sealer.keyScheme, back, except_mapError_ok]
    | plaintext salt =>
      simp only [Sealer.protect, Except.ok.injEq, Prod.mk.injEq] at protected_
      simp only [Sealer.keyScheme, protected_.1]
  have unpadded := PaddingProfile.unpad_pad framed
  unfold Manifest.openStored
  rw [opened, same]
  simp only [except_ok_bind, unpadded, except_mapError_ok, ensure_of len.symm, ensure_of hash.symm,
    except_pure_eq]

/-- Two chunks filed under one address have the same plaintext. -/
theorem Filed.unique (separates : sealer.Separates chunks) {c' : ChunkRef} {plain' : Bytes}
    (first : Filed sealer profile chunks s c plain)
    (second : Filed sealer profile chunks s c' plain') (same : c.addr = c'.addr) :
      plain = plain' := by
  -- Every step of writing loses nothing.
  obtain ⟨⟨padded, blob, framed, known, protected_, held⟩, _, _⟩ := first
  obtain ⟨⟨padded', blob', framed', known', protected', held'⟩, _, _⟩ := second
  -- One address gives one blob, one blob gives one padded chunk, and that gives one plaintext.
  rw [same, held', Except.ok.injEq] at held
  subst held
  obtain rfl := separates _ known _ known' _ _ _ protected_ protected'
  exact PaddingProfile.pad_injective framed framed'

end

/-- What a writer makes of a chunk is known: the padded chunk, and the blob it becomes. -/
def ObjectWriter.Known (w : ObjectWriter) (blobs chunks : Set Bytes) (plain : Bytes) : Prop :=
  ∀ padded ∈ (w.profile.pad plain).toOption, padded ∈ chunks ∧
    ∀ made ∈ (w.sealer.protect padded).toOption, made.1 ∈ blobs

instance (blobs chunks : List Bytes) (w : ObjectWriter) (plain : Bytes) :
    Decidable (w.Known {data | data ∈ blobs} {data | data ∈ chunks} plain) :=
  inferInstanceAs (Decidable (∀ padded ∈ (w.profile.pad plain).toOption, padded ∈ chunks ∧
    ∀ made ∈ (w.sealer.protect padded).toOption, made.1 ∈ blobs))

namespace ObjectWriter

variable {w : ObjectWriter} {chunks blobs : Set Bytes} {s : BlobStore}

/-- Writing a chunk loses nothing, and a chunk that is written is filed. -/
theorem writeChunk_spec (within : s.Within blobs) (distinct : Set.InjOn s.addressing.addrOf blobs)
    (disk : Disk) (now : Timestamp) {plain : Bytes} (known : w.Known blobs chunks plain) :
    s.Grows (w.writeChunk s disk now plain).2 ∧ (w.writeChunk s disk now plain).2.Within blobs ∧
      ∀ c, (w.writeChunk s disk now plain).1 = .ok c →
        Filed w.sealer w.profile chunks (w.writeChunk s disk now plain).2 c plain := by
  -- Each way to fail leaves the store or has grown it, and behind the last one the chunk is
  -- filed.
  have failed {t : BlobStore} {f : WriteFailure} (grows : s.Grows t) (within : t.Within blobs) :
      s.Grows t ∧ t.Within blobs ∧ ∀ c :
        ChunkRef, (.error f : Except WriteFailure ChunkRef) = .ok c →
        Filed w.sealer w.profile chunks t c plain :=
    ⟨grows, within, fun _ impossible => nomatch impossible⟩
  generalize is : w.writeChunk s disk now plain = after
  unfold writeChunk at is
  cases framed : w.profile.pad plain with
  | error e =>
    simp only [framed] at is
    rw [← is]
    exact failed (.refl s) within
  | ok padded =>
    cases made : w.sealer.protect padded with
    | error e =>
      simp only [framed, made] at is
      rw [← is]
      exact failed (.refl s) within
    | ok pair =>
      obtain ⟨blob, ck⟩ := pair
      obtain ⟨inChunks, becomes⟩ := known padded (by simp [framed, Except.toOption])
      have inBlobs : blob ∈ blobs := becomes (blob, ck) (by simp [made, Except.toOption])
      have grows : s.Grows (s.put disk now blob).2 := BlobStore.put_grows
      have within' : (s.put disk now blob).2.Within blobs := BlobStore.put_within within inBlobs
      have readable (addr : Addr) (stored : (s.put disk now blob).1 = .ok addr) :=
        BlobStore.get_of_put_known within distinct inBlobs stored
      simp only [framed, made] at is
      -- From here on the store is the one after the put, whatever is reported.
      generalize s.put disk now blob = result at grows within' readable is
      obtain ⟨result, t⟩ := result
      cases result with
      | error e =>
        rw [← is]
        exact failed grows within'
      | ok addr =>
        cases agreed : w.sealer.agrees padded addr with
        | error e =>
          simp only [agreed] at is
          rw [← is]
          exact failed grows within'
        | ok u =>
          simp only [agreed] at is
          by_cases small : plain.length < 2 ^ 32
          · rw [if_pos small] at is
            rw [← is]
            refine ⟨grows, within', ?_⟩
            intro c same
            obtain rfl := Except.ok.inj same
            refine ⟨⟨padded, blob, framed, inChunks, made, readable addr rfl⟩, rfl, ?_⟩
            exact UInt32.toNat_ofNat_of_lt' small
          · rw [if_neg small] at is
            rw [← is]
            exact failed grows within'

/-- Writing chunks loses nothing, and files every one of them behind what the manifest had. -/
theorem writeChunks_spec (disk : Nat → Disk) (now : Timestamp) {plains : List Bytes} (i : Nat)
    (m : Manifest) (within : s.Within blobs) (distinct : Set.InjOn s.addressing.addrOf blobs)
    (known : ∀ plain ∈ plains, w.Known blobs chunks plain) :
    s.Grows (w.writeChunks disk now i plains m s).2 ∧
      (w.writeChunks disk now i plains m s).2.Within blobs ∧
      ∀ m', (w.writeChunks disk now i plains m s).1 = .ok m' →
        ∃ refs, m' = { m with
          chunks := m.chunks ++ refs, size := m.size + UInt64.ofNat plains.flatten.length } ∧
          List.Forall₂ (Filed w.sealer w.profile chunks (w.writeChunks disk now i plains m s).2)
            refs plains := by
  -- Induction over the chunks.
  induction plains generalizing i m s with
  | nil =>
    refine ⟨.refl s, within, ?_⟩
    intro m' is
    obtain rfl := Except.ok.inj is
    exact ⟨[], by simp, .nil⟩
  | cons plain rest ih =>
    obtain ⟨grows, within', filed⟩ :=
      writeChunk_spec within distinct (disk i) now (known plain (by simp))
    unfold writeChunks
    generalize w.writeChunk s (disk i) now plain = after at grows within' filed ⊢
    obtain ⟨result, t⟩ := after
    cases result with
    | error e => exact ⟨grows, within', fun _ impossible => nomatch impossible⟩
    | ok c =>
      have distinct' : Set.InjOn t.addressing.addrOf blobs := by
        rw [grows.addressing]
        exact distinct
      obtain ⟨grows', within'', rest'⟩ := ih (i + 1)
        { m with chunks := m.chunks ++ [c], size := m.size + UInt64.ofNat plain.length }
          within' distinct'
        fun other member => known other (by simp [member])
      refine ⟨grows.trans grows', within'', ?_⟩
      intro m' is
      obtain ⟨refs, same, later⟩ := rest' m' is
      refine ⟨c :: refs, ?_, .cons ((filed c rfl).mono grows') later⟩
      rw [same]
      -- The chunk just written is counted before those behind it.
      simp [UInt64.add_assoc, UInt64.ofNat_add]

omit [Crypto] [Cipher] in
/-- The writer of every profile can be made. -/
theorem withDefaults_ok (sealer : Sealer) (profile : PaddingProfile) :
    ∃ w, withDefaults sealer profile = .ok w ∧ w.sealer = sealer ∧ w.profile = profile := by
  -- The default configurations are few, and each of them is valid.
  have frames : profile.Frames (ChunkerConfig.forProfile profile .default).max := by
    cases profile <;> decide
  have valid : (ChunkerConfig.forProfile profile .default).validate = .ok () := by
    cases profile <;> decide
  obtain ⟨ch, made⟩ := Chunker.new_ok valid
  unfold withDefaults new
  rw [dif_pos frames]
  split
  · rename_i e refused
    rw [made] at refused
    cases refused
  · exact ⟨_, rfl, rfl, rfl⟩

variable [GearTable]

/-- Writing an object loses nothing, and the manifest of one that is written holds it. -/
theorem write_spec (disk : Nat → Disk) (now : Timestamp) (kind : Kind) {reader : Reader}
    (within : s.Within blobs) (distinct : Set.InjOn s.addressing.addrOf blobs)
    (known : ∀ plain ∈ w.chunker.split reader.rest, w.Known blobs chunks plain)
    (short : reader.rest.length < 2 ^ 64) :
    s.Grows (w.write s disk now kind reader).2 ∧ (w.write s disk now kind reader).2.Within blobs ∧
      ∀ m, (w.write s disk now kind reader).1 = .ok m →
        m.Holds w.sealer w.profile chunks (w.write s disk now kind reader).2 reader.rest := by
  -- The stream gives the chunks, and the manifest is checked at the end.
  obtain ⟨grows, within', filed⟩ := writeChunks_spec disk now 0
    ⟨manifestVersion, w.sealer.keyScheme, w.profile, kind, [], 0, [], []⟩ within distinct known
  generalize is : w.write s disk now kind reader = after
  unfold write at is
  dsimp only at is
  by_cases fits : w.chunker.cfg.max * 2 ≤ isizeMax
  case neg =>
    rw [Chunker.stream_eq_none fits] at is
    rw [← is]
    exact ⟨.refl s, within, fun _ impossible => nomatch impossible⟩
  rw [Chunker.stream_eq_split fits] at is
  dsimp only at is
  generalize w.writeChunks disk now 0 _ _ s = result at grows within' filed is
  obtain ⟨result, t⟩ := result
  cases result with
  | error e =>
    rw [← is]
    exact ⟨grows, within', fun _ impossible => nomatch impossible⟩
  | ok m =>
    obtain ⟨refs, same, parts⟩ := filed m rfl
    cases checked : m.validate with
    | error e =>
      simp only [checked] at is
      rw [← is]
      exact ⟨grows, within', fun _ impossible => nomatch impossible⟩
    | ok u =>
      simp only [checked] at is
      rw [← is]
      refine ⟨grows, within', ?_⟩
      intro m' found
      obtain rfl := Except.ok.inj found
      -- The chunks put together are what the reader had.
      have whole := w.chunker.flatten_split reader.rest
      have size : m.size.toNat = reader.rest.length := by
        rw [same, whole]
        dsimp only
        rw [UInt64.zero_add, UInt64.toNat_ofNat_of_lt' short]
      refine ⟨by rw [same], by rw [same], checked, size, _, ?_, whole⟩
      rw [same]
      simpa using parts

end ObjectWriter

section

variable {sealer : Sealer} {profile : PaddingProfile} {chunks : Set Bytes} {s t : BlobStore}

/-- What is filed under an address. -/
def Says (sealer : Sealer) (profile : PaddingProfile) (chunks : Set Bytes) (s : BlobStore)
    (addr : Addr) (plain : Bytes) : Prop := ∃ c : ChunkRef, c.addr = addr ∧
      Filed sealer profile chunks s c plain

/-- A cache, where there is one, that holds nothing but chunks of the store. -/
def Cached (sealer : Sealer) (profile : PaddingProfile) (chunks : Set Bytes) (s : BlobStore)
    (cache : Option ChunkCache) : Prop :=
  ∀ cached ∈ cache, cached.Sound (Says sealer profile chunks s)

/-- A cache stays right while the store loses nothing. -/
theorem Cached.mono {cache : Option ChunkCache} (right : Cached sealer profile chunks s cache)
    (grows : s.Grows t) :
    Cached sealer profile chunks t cache := by
  intro cached is addr bytes plain held opened
  obtain ⟨c, under, filed⟩ := right cached is addr bytes plain held opened
  exact ⟨c, under, filed.mono grows⟩

variable {m : Manifest} (trusted : Cipher.Trusted) (separates : sealer.Separates chunks)
  (scheme : m.keyScheme = sealer.keyScheme) (padding : m.paddingProfile = profile)
include trusted separates scheme padding

/-- A filed chunk is opened to its plaintext, unless the disk fails, and the cache stays right. -/
theorem BlobStore.openChunkPlain_spec {c : ChunkRef} {plain : Bytes}
    (filed : Filed sealer profile chunks s c plain) (w : ChunkDisk) {cache : Option ChunkCache}
    (right : Cached sealer profile chunks s cache) (stats : ReadStats) :
    Cached sealer profile chunks s (s.openChunkPlain m c w cache stats).2 ∧
      ((∃ e, (s.openChunkPlain m c w cache stats).1 = .error e ∧ w.fetch ≠ .ok ()) ∨
        ∃ stats', (s.openChunkPlain m c w cache stats).1 = .ok (plain, stats')) := by
  -- What the cache gives, where it gives anything, is the plaintext of this very chunk.
  have looked : Cached sealer profile chunks s (ChunkCache.look cache w.cache.read c.addr).2 ∧
      ∀ found, (ChunkCache.look cache w.cache.read c.addr).1 = some found → found = plain := by
    cases cache with
    | none => exact ⟨right, fun _ impossible => nomatch impossible⟩
    | some cached =>
      obtain ⟨sound, given⟩ := ChunkCache.get_spec (right cached rfl) w.cache.read c.addr
      refine ⟨?_, ?_⟩
      · intro other is
        rw [← Option.some.inj is]
        exact sound
      · intro found is
        obtain ⟨c', under, filed'⟩ := given found is
        exact filed'.unique separates filed under
  unfold openChunkPlain
  generalize ChunkCache.look cache w.cache.read c.addr = result at looked ⊢
  obtain ⟨hit, after⟩ := result
  obtain ⟨right', given⟩ := looked
  cases hit with
  | some found =>
    rw [given found rfl]
    exact ⟨right', .inr ⟨_, rfl⟩⟩
  | none =>
    obtain ⟨blob, held, opened⟩ := filed.opens trusted.opens scheme padding
    cases fetched : w.fetch with
    | error e => exact ⟨right', .inl ⟨_, rfl, fun impossible => nomatch impossible⟩⟩
    | ok u =>
      simp only [held, opened]
      refine ⟨?_, .inr ⟨_, rfl⟩⟩
      intro cached put
      obtain ⟨before, present, rfl⟩ := Option.map_eq_some_iff.mp put
      exact ChunkCache.put_sound trusted (right' before present) w.cache ⟨c, rfl, filed⟩

omit trusted separates scheme padding in
/--
Where every chunk opens, reading them goes on from the range of what came before to
the range of it all.
-/
theorem BlobStore.readChunks_spec {F : ChunkRef → Bytes → Prop} {R : Option ChunkCache → Prop}
    (lengths : ∀ c plain, F c plain → c.len.toNat = plain.length)
    (opens : ∀ c plain w cache stats, F c plain → R cache →
      R (s.openChunkPlain m c w cache stats).2 ∧
        ((∃ e, (s.openChunkPlain m c w cache stats).1 = .error e ∧ w.fetch ≠ .ok ()) ∨
          ∃ stats', (s.openChunkPlain m c w cache stats).1 = .ok (plain, stats')))
    (start stop : UInt64) (w : Nat → ChunkDisk) {refs : List ChunkRef} {plains : List Bytes}
    (filed : List.Forall₂ F refs plains) (i : Nat) {p : ReadProgress} {cache : Option ChunkCache}
    (right : R cache) (front : Bytes) (offset : p.offset.toNat = front.length)
    (out : p.out = (front.take stop.toNat).drop start.toNat)
    (short : (front ++ plains.flatten).length < 2 ^ 64) :
    R (s.readChunks m start stop w i refs p cache).2 ∧
      ((∃ e j, (s.readChunks m start stop w i refs p cache).1 = .error e ∧ (w j).fetch ≠ .ok ()) ∨
        ∃ p', (s.readChunks m start stop w i refs p cache).1 = .ok p' ∧
          p'.out = ((front ++ plains.flatten).take stop.toNat).drop start.toNat) := by
  -- Induction over the chunks, with what has been read in front of them.
  induction filed generalizing i p cache front with
  | nil => exact ⟨right, .inr ⟨p, rfl, by rw [out, List.flatten_nil, List.append_nil]⟩⟩
  | cons here later ih =>
    rename_i c plain refs plains
    rw [List.flatten_cons, ← List.append_assoc] at short ⊢
    -- The chunk ends where what came before it and its plaintext end.
    have room : front.length + plain.length < 2 ^ 64 := by
      simp only [List.length_append] at short
      omega
    have chunkEnd : (p.offset + c.len.toUInt64).toNat = (front ++ plain).length := by
      rw [UInt64.toNat_add, UInt32.toNat_toUInt64, offset, lengths c plain here,
        Nat.mod_eq_of_lt room, List.length_append]
    -- The range of the longer front is that of the front, and a part of the chunk.
    have extended : ((front ++ plain).take stop.toNat).drop start.toNat =
        p.out ++ (plain.take (stop.toNat - front.length)).drop (start.toNat - front.length) := by
      rw [List.take_append, List.drop_append, ← out, List.length_take]
      by_cases inside : front.length ≤ stop.toNat
      · rw [Nat.min_eq_right inside]
      · have none : stop.toNat - front.length = 0 := by omega
        simp [none]
    unfold readChunks
    dsimp only
    by_cases outside : p.offset + c.len.toUInt64 ≤ start ∨ stop ≤ p.offset
    · rw [if_pos outside]
      refine ih (i + 1) right (front ++ plain) chunkEnd ?_ short
      -- Nothing of this chunk is in the range.
      have empty :
          (plain.take (stop.toNat - front.length)).drop (start.toNat - front.length) = [] := by
        apply List.drop_eq_nil_of_le
        rw [List.length_take]
        rcases outside with before | after
        · rw [UInt64.le_iff_toNat_le, chunkEnd, List.length_append] at before
          omega
        · rw [UInt64.le_iff_toNat_le, offset] at after
          omega
      rw [extended, empty, List.append_nil]
    · rw [if_neg outside]
      obtain ⟨right', result⟩ := opens c plain (w i) cache p.stats here right
      generalize s.openChunkPlain m c (w i) cache p.stats = opened at right' result ⊢
      obtain ⟨opened, cache'⟩ := opened
      rcases result with ⟨e, rfl, fault⟩ | ⟨stats', rfl⟩
      · exact ⟨right', .inl ⟨e, i, rfl, fault⟩⟩
      · refine ih (i + 1) right' (front ++ plain) chunkEnd ?_ short
        have saturating (a : UInt64) : (satSub a p.offset).toNat = a.toNat - front.length := by
          rw [toNat_satSub, offset]
        -- Taking no more than the chunk has takes the same, and an empty part is an empty slice.
        dsimp only
        rw [extended, saturating, saturating]
        congr 1
        rw [List.take_eq_take_min (i := stop.toNat - front.length)]
        split
        · rfl
        · rename_i empty
          symm
          apply List.drop_eq_nil_of_le
          rw [List.length_take]
          omega

omit trusted separates scheme padding in
/--
Where every chunk opens, a range of an object that is held is read as that range,
unless the disk fails.
-/
theorem BlobStore.readObjectRange_of_opens {R : Option ChunkCache → Prop} {body : Bytes}
    (holds : m.Holds sealer profile chunks s body)
    (opens : ∀ c plain w cache stats, Filed sealer profile chunks s c plain → R cache →
      R (s.openChunkPlain m c w cache stats).2 ∧
        ((∃ e, (s.openChunkPlain m c w cache stats).1 = .error e ∧ w.fetch ≠ .ok ()) ∨
          ∃ stats', (s.openChunkPlain m c w cache stats).1 = .ok (plain, stats')))
    (start stop : UInt64) (w : Nat → ChunkDisk) {cache : Option ChunkCache} (right : R cache) :
    R (s.readObjectRange m start stop w cache).2 ∧
      ((∃ e i, (s.readObjectRange m start stop w cache).1 = .error e ∧ (w i).fetch ≠ .ok ()) ∨
        ∃ n stats, (s.readObjectRange m start stop w cache).1 =
          .ok (n, stats, (body.take stop.toNat).drop start.toNat)) := by
  -- The range is empty, or it is read chunk by chunk.
  obtain ⟨scheme, padding, valid, size, plains, filed, whole⟩ := holds
  have supported : m.keyScheme ≠ .indexedRandom := by
    rw [scheme]
    cases sealer <;> exact fun impossible => nomatch impossible
  unfold readObjectRange
  rw [if_neg supported, valid]
  dsimp only
  by_cases empty : stop ≤ start
  · rw [if_pos empty]
    refine ⟨right, .inr ⟨0, ⟨0, 0, 0⟩, ?_⟩⟩
    -- A range that ends where it starts, or before, has nothing in it.
    rw [List.drop_eq_nil_of_le]
    rw [UInt64.le_iff_toNat_le] at empty
    rw [List.length_take]
    omega
  · rw [if_neg empty]
    have short : ([] ++ plains.flatten).length < 2 ^ 64 := by
      rw [List.nil_append, whole, ← size]
      exact m.size.toNat_lt
    obtain ⟨right', result⟩ := readChunks_spec (fun _ _ here => here.len) opens start stop w filed 0
      (p := ⟨0, 0, ⟨0, 0, 0⟩, []⟩) right [] rfl (by simp) short
    generalize s.readChunks m start stop w 0 m.chunks ⟨0, 0, ⟨0, 0, 0⟩, []⟩ cache = after
      at right' result ⊢
    obtain ⟨result_, cache'⟩ := after
    rcases result with ⟨e, i, rfl, fault⟩ | ⟨p', rfl, out⟩
    · exact ⟨right', .inl ⟨e, i, rfl, fault⟩⟩
    · refine ⟨right', .inr ⟨p'.written, p'.stats, ?_⟩⟩
      rw [List.nil_append, whole] at out
      dsimp only
      rw [out]

omit scheme padding in
/--
A range of an object that is held is read as that range, unless the disk fails, and
the cache stays right.
-/
theorem BlobStore.readObjectRange_spec {body : Bytes} (holds : m.Holds sealer profile chunks s body)
    (start stop : UInt64) (w : Nat → ChunkDisk) {cache : Option ChunkCache}
    (right : Cached sealer profile chunks s cache) :
    Cached sealer profile chunks s (s.readObjectRange m start stop w cache).2 ∧
      ((∃ e i, (s.readObjectRange m start stop w cache).1 = .error e ∧ (w i).fetch ≠ .ok ()) ∨
        ∃ n stats, (s.readObjectRange m start stop w cache).1 =
          .ok (n, stats, (body.take stop.toNat).drop start.toNat)) :=
  readObjectRange_of_opens (R := Cached sealer profile chunks s) holds
    (fun _ _ w _ stats here right =>
      openChunkPlain_spec trusted separates holds.scheme holds.padding here w right stats)
    start stop w right

end

section

variable {sealer : Sealer} {profile : PaddingProfile} {chunks : Set Bytes} {s : BlobStore}
    {m : Manifest}
  (opens : ∀ key nonce plain aad sealed, Cipher.sealWithNonce key nonce plain aad = some sealed →
    Cipher.openWithNonce key nonce sealed aad = some plain)
include opens

/-- A chunk that is filed is fetched and opened, where there is no cache, unless the disk fails. -/
theorem Filed.fetched {c : ChunkRef} {plain : Bytes} (filed : Filed sealer profile chunks s c plain)
    (scheme : m.keyScheme = sealer.keyScheme) (same : m.paddingProfile = profile) (w : ChunkDisk)
    (stats : ReadStats) :
    (s.openChunkPlain m c w none stats).2 = none ∧
      ((∃ e, (s.openChunkPlain m c w none stats).1 = .error e ∧ w.fetch ≠ .ok ()) ∨
        ∃ stats', (s.openChunkPlain m c w none stats).1 = .ok (plain, stats')) := by
  -- Without a cache the chunk is fetched and opened, or fetching fails.
  obtain ⟨blob, held, opened⟩ := filed.opens opens scheme same
  unfold BlobStore.openChunkPlain
  simp only [ChunkCache.look, held]
  cases fetched : w.fetch with
  | error e => exact ⟨rfl, .inl ⟨_, rfl, fun impossible => nomatch impossible⟩⟩
  | ok u =>
    simp only [opened]
    exact ⟨rfl, .inr ⟨_, rfl⟩⟩

/-- An object that is held is read from its start to its end, unless the disk fails. -/
theorem Manifest.Holds.readObject_cases {body : Bytes}
    (holds : m.Holds sealer profile chunks s body) (disk : Nat → ChunkDisk) :
    (∃ e i, s.readObject m disk = .error e ∧ (disk i).fetch ≠ .ok ()) ∨
      ∃ n, s.readObject m disk = .ok (n, body) := by
  -- Reading the whole object is reading the range up to the greatest number.
  have short : body.length < 2 ^ 64 := by
    rw [← holds.size]
    exact m.size.toNat_lt
  obtain ⟨_, ⟨e, i, failed, fault⟩ | ⟨n, stats, read⟩⟩ :=
    BlobStore.readObjectRange_of_opens (R := fun cache => cache = none)
    holds
    (fun c plain w cache stats filed none => by
      subst none
      exact filed.fetched opens holds.scheme holds.padding w stats)
    0 (UInt64.ofNat (2 ^ 64 - 1)) disk rfl
  · exact .inl ⟨e, i, by rw [BlobStore.readObject, failed]; rfl, fault⟩
  · -- The range to the greatest number is all of it.
    have whole : (body.take (UInt64.ofNat (2 ^ 64 - 1)).toNat).drop (0 : UInt64).toNat = body := by
      rw [UInt64.toNat_zero, List.drop_zero, List.take_of_length_le]
      rw [show (UInt64.ofNat (2 ^ 64 - 1)).toNat = 2 ^ 64 - 1 from rfl]
      omega
    rw [whole] at read
    exact .inr ⟨n, by rw [BlobStore.readObject, read]; rfl⟩

/-- On a disk that works, an object that is held is read from its start to its end. -/
theorem Manifest.Holds.readObject {body : Bytes} (holds : m.Holds sealer profile chunks s body)
    {disk : Nat → ChunkDisk} (healthy : ∀ i, (disk i).fetch = .ok ()) :
    ∃ n, s.readObject m disk = .ok (n, body) := by
  rcases holds.readObject_cases opens disk with ⟨_, i, _, fault⟩ | read
  · exact absurd (healthy i) fault
  · exact read

end

end NasTools
