import NasTools.Model.Store.Objects

/-! Writing an object once more gives the same manifest, and stores nothing that is not there. -/

namespace NasTools

variable [Crypto]

namespace BlobStore

/-- Two stores that hold the same blobs, whenever each was touched. -/
structure SameContents (s t : BlobStore) : Prop where
  addressing : t.addressing = s.addressing
  contents : ∀ addr : Addr, t.files[addr]?.map BlobFile.content =
    s.files[addr]?.map BlobFile.content

omit [Crypto] in
/-- A store has its own contents. -/
theorem SameContents.refl (s : BlobStore) : SameContents s s := ⟨rfl, fun _ => rfl⟩

omit [Crypto] in
/-- Having the same contents is transitive. -/
theorem SameContents.trans {a b c : BlobStore} (first : SameContents a b)
    (second : SameContents b c) :
    SameContents a c :=
  ⟨second.addressing.trans first.addressing,
    fun addr => (second.contents addr).trans (first.contents addr)⟩

/-- A store with the same blobs gives back the same. -/
theorem SameContents.grows {s t : BlobStore} (same : SameContents s t) : s.Grows t := by
  -- A blob has the same content under the same addressing, so it is still right.
  refine ⟨same.addressing, ?_⟩
  intro addr data held
  obtain ⟨file, filed, verified, rfl⟩ := get_eq_ok.mp held
  have there := same.contents addr
  rw [filed, Option.map_some, Option.map_eq_some_iff] at there
  obtain ⟨file', filed', content⟩ := there
  exact get_eq_ok.mpr ⟨file', filed', by rw [same.addressing, content]; exact verified, content⟩

/-- Where something readable is under the address of some bytes, storing them stores nothing. -/
theorem put_again {s : BlobStore} {data found : Bytes}
    (held : s.get (s.addressing.addrOf data) = .ok found) (now : Timestamp) :
    ∃ t, s.put (.ok ()) now data = (.ok (s.addressing.addrOf data), t) ∧ s.SameContents t := by
  -- The blob that is there is found by its address.
  obtain ⟨file, filed, right, _⟩ := get_eq_ok.mp held
  -- What is under the address has the hash of these bytes.
  have verified : s.addressing.verifies (s.addressing.addrOf data) file.content = true := by
    simpa [Addressing.verifies] using right
  refine
    ⟨{ s with files := s.files.insert (s.addressing.addrOf data) { file with modified := now } },
      ?_, rfl, ?_⟩
  · simp only [put, filed, if_pos verified]
  · -- Only the time of the file under that address is another one.
    intro addr
    rw [Std.ExtTreeMap.getElem?_insert]
    split
    · rename_i same
      obtain rfl := Std.LawfulEqCmp.eq_of_compare same
      rw [filed]
      rfl
    · rfl

end BlobStore

variable [Cipher]

namespace ObjectWriter

variable {w : ObjectWriter} {a : Addressing} {s : BlobStore}

/-- How a manifest refers to a chunk, under the addressing of a store. -/
structure Refers (w : ObjectWriter) (a : Addressing) (c : ChunkRef) (plain : Bytes) : Prop where
  stored : ∃ padded blob, w.profile.pad plain = .ok padded ∧
    w.sealer.protect padded = .ok (blob, c.ck) ∧
    c.addr = a.addrOf blob ∧ w.sealer.agrees padded c.addr = .ok ()
  hash : c.ptHash = Crypto.blake3 plain
  len : c.len = UInt32.ofNat plain.length
  small : plain.length < 2 ^ 32

/-- There is one way to refer to a chunk. -/
theorem Refers.unique {c c' : ChunkRef} {plain : Bytes} (first : w.Refers a c plain)
    (second : w.Refers a c' plain) :
    c = c' := by
  -- Both references are taken apart.
  obtain ⟨⟨padded, blob, framed, protected_, under, _⟩, hash, len, _⟩ := first
  obtain ⟨⟨padded', blob', framed', protected', under', _⟩, hash', len', _⟩ := second
  -- Padding and sealing are functions of the bytes, so both come to one blob and one key.
  rw [framed, Except.ok.injEq] at framed'
  subst framed'
  rw [protected_, Except.ok.injEq, Prod.mk.injEq] at protected'
  obtain ⟨rfl, keys⟩ := protected'
  obtain ⟨addr, ck, ptHash, length⟩ := c
  obtain ⟨addr', ck', ptHash', length'⟩ := c'
  simp only [ChunkRef.mk.injEq]
  exact ⟨under.trans under'.symm, keys, hash.trans hash'.symm, len.trans len'.symm⟩

/-- Storing a chunk loses nothing, and one that is written is referred to as it must be. -/
theorem refers_of_writeChunk (disk : Disk) (now : Timestamp) (plain : Bytes) :
    s.Grows (w.writeChunk s disk now plain).2 ∧
      ∀ c, (w.writeChunk s disk now plain).1 = .ok c → w.Refers s.addressing c plain := by
  -- The steps of the write, in their order.
  unfold writeChunk
  -- Each step may fail, and the store has grown by one blob at most when one does.
  cases framed : w.profile.pad plain with
  | error e => exact ⟨.refl s, fun _ impossible => nomatch impossible⟩
  | ok padded =>
    dsimp only
    cases made : w.sealer.protect padded with
    | error e => exact ⟨.refl s, fun _ impossible => nomatch impossible⟩
    | ok pair =>
      obtain ⟨blob, ck⟩ := pair
      have grows : s.Grows (s.put disk now blob).2 := BlobStore.put_grows
      have under (addr : Addr) (is : (s.put disk now blob).1 = .ok addr) := BlobStore.addr_of_put is
      dsimp only
      generalize s.put disk now blob = after at grows under
      obtain ⟨result, t⟩ := after
      cases result with
      | error e => exact ⟨grows, fun _ impossible => nomatch impossible⟩
      | ok addr =>
        dsimp only
        cases agreed : w.sealer.agrees padded addr with
        | error e => exact ⟨grows, fun _ impossible => nomatch impossible⟩
        | ok u =>
          dsimp only
          -- The length of a chunk has to fit the 32 bits it is written in.
          by_cases small : plain.length < 2 ^ 32
          · rw [if_pos small]
            refine ⟨grows, ?_⟩
            intro c is
            obtain rfl := Except.ok.inj is
            exact ⟨⟨padded, blob, framed, made, under addr rfl, agreed⟩, rfl, rfl, small⟩
          · rw [if_neg small]
            exact ⟨grows, fun _ impossible => nomatch impossible⟩

/-- On a disk that works, a chunk whose blob is there is written as before, and stores nothing. -/
theorem Refers.again {c : ChunkRef} {plain found : Bytes} (refers : w.Refers s.addressing c plain)
    (held : s.get c.addr = .ok found) (now : Timestamp) :
    ∃ t, w.writeChunk s (.ok ()) now plain = (.ok c, t) ∧ s.SameContents t := by
  -- The steps of the write come to what is there already.
  obtain ⟨⟨padded, blob, framed, made, under, agreed⟩, hash, len, small⟩ := refers
  rw [under] at held
  -- The blob is there already, so the write comes to the same address.
  obtain ⟨t, stored, same⟩ := BlobStore.put_again held now
  rw [under] at agreed
  refine ⟨t, ?_, same⟩
  obtain ⟨addr, ck, ptHash, length⟩ := c
  dsimp only at under hash len made
  subst under hash len
  simp only [writeChunk, framed, made, stored, agreed, if_pos small]

/-- Chunks that are written are all referred to as they must be. -/
theorem refers_of_writeChunks (disk : Nat → Disk) (now : Timestamp) (i : Nat) (plains : List Bytes)
    (m : Manifest) :
    s.Grows (w.writeChunks disk now i plains m s).2 ∧
      ∀ m', (w.writeChunks disk now i plains m s).1 = .ok m' →
        ∃ refs, m' = { m with
          chunks := m.chunks ++ refs, size := m.size + UInt64.ofNat plains.flatten.length } ∧
          List.Forall₂ (w.Refers s.addressing) refs plains := by
  -- The manifest grows on the right and the store with it, so both stay general.
  induction plains generalizing i m s with
  | nil =>
    refine ⟨.refl s, ?_⟩
    intro m' is
    obtain rfl := Except.ok.inj is
    exact ⟨[], by simp, .nil⟩
  | cons plain rest ih =>
    obtain ⟨grows, refers⟩ := refers_of_writeChunk (w := w) (s := s) (disk i) now plain
    unfold writeChunks
    generalize w.writeChunk s (disk i) now plain = after at grows refers ⊢
    obtain ⟨result, t⟩ := after
    cases result with
    | error e =>
      refine ⟨grows, ?_⟩
      intro _ impossible
      cases impossible
    | ok c =>
      obtain ⟨grows', later⟩ := ih (s := t) (i + 1)
        { m with chunks := m.chunks ++ [c], size := m.size + UInt64.ofNat plain.length }
      refine ⟨grows.trans grows', ?_⟩
      intro m' is
      obtain ⟨refs, same, others⟩ := later m' is
      -- A write does not change how the store addresses.
      rw [grows.addressing] at others
      refine ⟨c :: refs, ?_, .cons (refers c rfl) others⟩
      rw [same]
      simp [UInt64.add_assoc, UInt64.ofNat_add]

/-- On a disk that works, chunks whose blobs are there are written as before, and store nothing. -/
theorem writeChunks_again (now : Timestamp) (i : Nat) {refs : List ChunkRef} {plains : List Bytes}
    (m : Manifest) (refers : List.Forall₂ (w.Refers s.addressing) refs plains)
    (held : ∀ c ∈ refs, ∃ found, s.get c.addr = .ok found) :
    ∃ t, w.writeChunks (fun _ => .ok ()) now i plains m s =
        (.ok { m with
          chunks := m.chunks ++ refs, size := m.size + UInt64.ofNat plains.flatten.length }, t) ∧
      s.SameContents t := by
  -- Induction over the chunks that are left.
  induction plains generalizing i m s refs with
  | nil =>
    cases refers
    exact ⟨s, by simp [writeChunks], .refl s⟩
  | cons plain rest ih =>
    cases refers with
    | cons here later =>
      rename_i c refs
      obtain ⟨found, readable⟩ := held c (by simp)
      -- Writing the first chunk keeps what the store gives back, so the others are still there.
      obtain ⟨t, written, same⟩ := here.again readable now
      rw [← same.addressing] at later
      obtain ⟨u, done, same'⟩ := ih (i + 1)
        { m with chunks := m.chunks ++ [c], size := m.size + UInt64.ofNat plain.length } later (by
          intro c' member
          obtain ⟨found', readable'⟩ := held c' (by simp [member])
          exact ⟨found', same.grows.kept _ _ readable'⟩)
      refine ⟨u, ?_, same.trans same'⟩
      unfold writeChunks
      rw [written]
      dsimp only
      rw [done]
      simp [UInt64.add_assoc, UInt64.ofNat_add]

/-- The manifest of some bytes, under the addressing of a store. -/
structure Describes (w : ObjectWriter) [GearTable] (a : Addressing) (kind : Kind) (data : Bytes)
    (m : Manifest) :
    Prop where
  fits : w.chunker.cfg.max * 2 ≤ isizeMax
  parts : List.Forall₂ (w.Refers a) m.chunks (w.chunker.split data)
  form : m = ⟨manifestVersion, w.sealer.keyScheme, w.profile, kind, [], UInt64.ofNat data.length,
    m.chunks, []⟩
  valid : m.validate = .ok ()

variable [GearTable] {kind : Kind} {data : Bytes} {m : Manifest}

/-- Some bytes have one manifest. -/
theorem Describes.unique {m' : Manifest} (first : w.Describes a kind data m)
    (second : w.Describes a kind data m') :
    m = m' := by
  -- The chunker cuts the bytes in one way, and each piece is referred to in one way.
  have chunks : m.chunks = m'.chunks :=
    List.left_unique_forall₂' (R := w.Refers a) (fun _ _ _ one other => one.unique other)
      first.parts second.parts
  rw [first.form, second.form, chunks]

/-- Writing an object loses nothing, and one that is written has the manifest of its bytes. -/
theorem describes_of_write (disk : Nat → Disk) (now : Timestamp) (kind : Kind) (reader : Reader) :
    s.Grows (w.write s disk now kind reader).2 ∧
      ∀ m, (w.write s disk now kind reader).1 = .ok m →
        w.Describes s.addressing kind reader.rest m := by
  -- The chunks are written first, and then the manifest is made.
  unfold write
  -- A window that does not fit an index is a panic, and nothing was written by then.
  by_cases fits : w.chunker.cfg.max * 2 ≤ isizeMax
  case neg =>
    rw [Chunker.stream_eq_none fits]
    exact ⟨.refl s, fun _ impossible => nomatch impossible⟩
  rw [Chunker.stream_eq_split fits]
  dsimp only
  obtain ⟨grows, refers⟩ :=
    refers_of_writeChunks (w := w) (s := s) disk now 0 (w.chunker.split reader.rest)
    ⟨manifestVersion, w.sealer.keyScheme, w.profile, kind, [], 0, [], []⟩
  generalize w.writeChunks disk now 0 _ _ s = after at grows refers ⊢
  obtain ⟨result, t⟩ := after
  cases result with
  | error f => exact ⟨grows, fun _ impossible => nomatch impossible⟩
  | ok m =>
    obtain ⟨refs, same, parts⟩ := refers m rfl
    dsimp only
    cases checked : m.validate with
    | error e => exact ⟨grows, fun _ impossible => nomatch impossible⟩
    | ok u =>
      refine ⟨grows, ?_⟩
      intro m' is
      obtain rfl := Except.ok.inj is
      -- The pieces make up the bytes again, so the sizes add up to the size of the object.
      rw [w.chunker.flatten_split] at same
      refine ⟨fits, ?_, ?_, checked⟩
      · rw [same]
        simpa using parts
      · rw [same]
        simp

/--
On a disk that works, an object whose blobs are there is written as before, and stores nothing.
-/
theorem Describes.again {reader : Reader} (describes : w.Describes s.addressing kind reader.rest m)
    (held : ∀ c ∈ m.chunks, ∃ found, s.get c.addr = .ok found) (now : Timestamp) :
    ∃ t, w.write s (fun _ => .ok ()) now kind reader = (.ok m, t) ∧ s.SameContents t := by
  -- Every chunk is there already, so writing touches them and gives the same manifest.
  obtain ⟨fits, parts, form, valid⟩ := describes
  obtain ⟨t, written, same⟩ := writeChunks_again now 0
    ⟨manifestVersion, w.sealer.keyScheme, w.profile, kind, [], 0, [], []⟩ parts held
  refine ⟨t, ?_, same⟩
  unfold write
  rw [Chunker.stream_eq_split fits]
  dsimp only
  rw [written]
  dsimp only
  rw [w.chunker.flatten_split, List.nil_append, UInt64.zero_add, ← form, valid]

end ObjectWriter

end NasTools
