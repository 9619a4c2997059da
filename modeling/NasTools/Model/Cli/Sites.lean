import NasTools.Model.Cli.Fleet
import NasTools.Model.Store.Objects

/-!
What the commands on one site keep of it: its secrets, its blobs, and a head that can be read.
-/

namespace NasTools

variable [Crypto]

namespace Site

variable {c : Credentials} {x y : Site} {blobs : Set Bytes}

/-- What no command changes of a site: its secrets, and every blob it could read. -/
structure Kept (x y : Site) : Prop where
  ns : y.device.ns = x.device.ns
  mode : y.device.mode = x.device.mode
  identity : y.device.slotIdentity = x.device.slotIdentity
  keys : y.device.keys = x.device.keys
  bucketKeys : y.bucketKeys = x.bucketKeys
  blobs : x.device.blobs.Grows y.device.blobs

/-- A site keeps what it has. -/
theorem Kept.refl (x : Site) : x.Kept x := ⟨rfl, rfl, rfl, rfl, rfl, .refl _⟩

/-- What is kept still belongs to the context. -/
theorem Kept.of (kept : x.Kept y) (is : x.Of c) : y.Of c where
  -- Each part is the same, and the store keeps its addressing.
  ns := kept.ns.trans is.ns
  mode := kept.mode.trans is.mode
  identity := kept.identity.trans is.identity
  keys := kept.keys.trans is.keys
  bucketKeys := kept.bucketKeys.trans is.bucketKeys
  addressing := kept.blobs.addressing.trans is.addressing

/-- A bucket that could be loaded still can be. -/
theorem Kept.loadBucket (kept : x.Kept y) {addr : Addr} {bucket : BucketManifest}
    (loaded : x.loadBucket addr = .ok bucket) : y.loadBucket addr = .ok bucket := by
  simp only [Site.loadBucket, BlobStore.loadBucket, except_bind_eq_ok, except_mapError_eq_ok] at *
  obtain ⟨stored, held, opened⟩ := loaded
  rw [kept.bucketKeys, kept.mode]
  exact ⟨stored, kept.blobs.kept addr stored held, opened⟩

/-- A published bucket stays readable while its head stays. -/
theorem Kept.loadPublishedHead (kept : x.Kept y) (same : y.device.head = x.device.head)
    {head : BucketManifest} (loaded : x.loadPublishedHead = .ok head) :
    y.loadPublishedHead = .ok head := by
  -- With the same head, the bucket that it names is still in the store.
  unfold Site.loadPublishedHead at *
  rw [same]
  split at loaded
  · exact loaded
  · cases loaded
  · rename_i addr _
    cases read : x.loadBucket addr with
    | error e =>
      rw [read] at loaded
      cases e <;> cases loaded
    | ok bucket =>
      rw [read] at loaded
      simp only [kept.loadBucket read]
      exact loaded

/-- A published bucket is valid. -/
theorem valid_of_loadPublishedHead {head : BucketManifest}
    (loaded : x.loadPublishedHead = .ok head) :
    head.Valid := by
  -- Without a head the bucket is empty; otherwise it was decoded.
  unfold loadPublishedHead at loaded
  split at loaded
  · rw [← Except.ok.inj loaded]
    exact BucketManifest.valid_empty
  · cases loaded
  · split at loaded
    · rename_i read
      rw [← Except.ok.inj loaded]
      exact BlobStore.valid_of_loadBucket read
    · cases loaded
    · cases loaded

/-- What a site reads from a record: the root manifest it names, and the tree that names. -/
theorem bucketOf_eq_some {r : SlotRecord} {bucket : BucketManifest} :
    x.bucketOf r = some bucket ↔ ∃ blob root, x.device.blobs.get r.root = .ok blob ∧
      x.device.keys.openRoot x.device.mode r.slotId r.seq r.rootNonce blob = .ok root ∧
      x.loadBucket root.tree = .ok bucket := by
  -- The record's root is read, opened and followed to its bucket.
  simp only [bucketOf, Option.bind_eq_bind, Option.bind_eq_some_iff, except_toOption_eq_some]
  constructor
  · intro parts
    obtain ⟨blob, held, root, opened, loaded⟩ := parts
    exact ⟨blob, root, held, opened, loaded⟩
  · intro parts
    obtain ⟨blob, root, held, opened, loaded⟩ := parts
    exact ⟨blob, held, root, opened, loaded⟩

/-- A bucket that a record names stays named by it. -/
theorem Kept.bucketOf (kept : x.Kept y) {r : SlotRecord} {bucket : BucketManifest}
    (named : x.bucketOf r = some bucket) : y.bucketOf r = some bucket := by
  obtain ⟨blob, root, held, opened, loaded⟩ := bucketOf_eq_some.mp named
  refine bucketOf_eq_some.mpr ⟨blob, root, kept.blobs.kept _ _ held, ?_, kept.loadBucket loaded⟩
  rw [kept.keys, kept.mode]
  exact opened

/-- Two sites that read the same record read the same bucket, as no two blobs share an address. -/
theorem bucketOf_unique (distinct : Set.InjOn c.addressing.addrOf blobs) (isX : x.Of c)
    (isY : y.Of c) (withinX : x.device.Within blobs) (withinY : y.device.Within blobs)
    {r : SlotRecord} {a b : BucketManifest} (readX : x.bucketOf r = some a)
    (readY : y.bucketOf r = some b) : a = b := by
  -- What lies under an address is the same on both sides.
  have same {addr : Addr} {here there : Bytes} (held : x.device.blobs.get addr = .ok here)
      (held' : y.device.blobs.get addr = .ok there) : here = there := by
    obtain ⟨_, _, verified, rfl⟩ := BlobStore.get_eq_ok.mp held
    obtain ⟨_, _, verified', rfl⟩ := BlobStore.get_eq_ok.mp held'
    rw [isX.addressing] at verified
    rw [isY.addressing] at verified'
    exact distinct (withinX _ _ held) (withinY _ _ held') (verified.trans verified'.symm)
  obtain ⟨blob, root, held, opened, loaded⟩ := bucketOf_eq_some.mp readX
  obtain ⟨blob', root', held', opened', loaded'⟩ := bucketOf_eq_some.mp readY
  obtain rfl := same held held'
  rw [isX.keys, isX.mode] at opened
  rw [isY.keys, isY.mode, opened] at opened'
  obtain rfl := Except.ok.inj opened'
  simp only [Site.loadBucket, BlobStore.loadBucket, except_bind_eq_ok, except_mapError_eq_ok] at *
  obtain ⟨stored, tree, readable⟩ := loaded
  obtain ⟨stored', tree', readable'⟩ := loaded'
  obtain rfl := same tree tree'
  rw [isX.bucketKeys, isX.mode] at readable
  rw [isY.bucketKeys, isY.mode, readable] at readable'
  exact Except.ok.inj readable'

omit [Crypto] in
/-- The keys of a site of a namespace are those of the namespace. -/
theorem Of.opens (is : x.Of c) (opens : c.bucketKeys.Opens) : x.bucketKeys.Opens := by
  rw [is.bucketKeys]
  exact opens

/-- Addresses that differ in the context differ at the site. -/
theorem Of.distinct (is : x.Of c) (distinct : Set.InjOn c.addressing.addrOf blobs) :
    Set.InjOn x.device.blobs.addressing.addrOf blobs := by
  rw [is.addressing]
  exact distinct

/-- The head of a site, where there is one, is a bucket. -/
def HeadReads (x : Site) : Prop :=
  x.device.head = none ∨ ∃ addr bucket, x.device.head = some (.ok addr) ∧
    x.loadBucket addr = .ok bucket

/-- Writing a key stores its chunks and leaves the head alone. -/
theorem put_kept (x : Site) (w : Surroundings) (subject : Option String) (key : String)
    (file : Written) (within : x.device.Within blobs) (known : ∀ data ∈ file.chunks, data ∈ blobs) :
    x.Kept (x.put w subject key file).2 ∧ (x.put w subject key file).2.device.head = x.device.head ∧
      (x.put w subject key file).2.device.Within blobs := by
  -- The site is kept by the chunks and by the staging.
  obtain ⟨grows, from_⟩ := BlobStore.putAll_spec x.device.blobs w.blob w.now file.chunks
  -- The chunks are the only blobs stored, and the staging that follows stores none.
  have stored (y : Site) (device : y.device = { x.device with
      blobs := x.device.blobs.putAll w.blob w.now file.chunks }) (keys : y.bucketKeys =
        x.bucketKeys) :
      x.Kept y ∧ y.device.head = x.device.head ∧ y.device.Within blobs := by
    refine ⟨⟨by rw [device], by rw [device], by rw [device], by rw [device], keys,
      by rw [device]; exact grows⟩, by rw [device], ?_⟩
    intro addr found held
    rw [device] at held
    rcases from_ addr found held with before | new
    · exact within addr found before
    · exact known found new
  unfold put
  split
  · exact ⟨.refl x, rfl, within⟩
  · dsimp only
    split
    · exact ⟨.refl x, rfl, within⟩
    · split
      · exact stored _ rfl rfl
      · exact stored _ rfl rfl
      · exact stored _ (enqueueDelta_device _ _ _ _).1 (enqueueDelta_device _ _ _ _).2

/-- What the head of a readable site loads as. -/
theorem loadPublishedHead_ok (reads : x.HeadReads) :
    ∃ base, x.loadPublishedHead = .ok base ∧ base.Valid ∧
    (x.device.head = none ∨ ∃ addr, x.device.head = some (.ok addr) ∧
      x.loadBucket addr = .ok base) := by
  rcases reads with none | ⟨addr, bucket, head, loaded⟩
  · exact ⟨.empty, by simp [loadPublishedHead, none], BucketManifest.valid_empty, .inl none⟩
  · refine ⟨bucket, by simp [loadPublishedHead, head, loaded], ?_, .inr ⟨addr, head, loaded⟩⟩
    exact BlobStore.valid_of_loadBucket loaded

/-- A bucket that is stored is readable, and nothing else on the site changes. -/
theorem storeBucket_spec (opens : x.bucketKeys.Opens)
    (distinct : Set.InjOn x.device.blobs.addressing.addrOf blobs) (within : x.device.Within blobs)
    {w : Surroundings} {bucket : BucketManifest} (valid : bucket.Valid)
    (known : ∀ data, x.bucketKeys.sealBucket x.device.mode w.nonce bucket = .ok data →
      data ∈ blobs) :
    x.Kept (x.storeBucket w bucket).2 ∧ (x.storeBucket w bucket).2.device.Within blobs ∧
      (x.storeBucket w bucket).2.outbox = x.outbox ∧
      (x.storeBucket w bucket).2.device.head = x.device.head ∧
      ∀ addr, (x.storeBucket w bucket).1 = .ok addr →
        (x.storeBucket w bucket).2.loadBucket addr = .ok bucket := by
  -- The bucket cannot be sealed, or it is sealed and stored.
  cases sealed : x.bucketKeys.sealBucket x.device.mode w.nonce bucket with
  | error e =>
    have saved : x.storeBucket w bucket = (.error (.other e.display), x) := by
      simp only [storeBucket, BlobStore.storeBucket, sealed, Except.mapError]
    rw [saved]
    exact ⟨.refl x, within, rfl, rfl, fun addr impossible => nomatch impossible⟩
  | ok stored =>
    have saved : x.storeBucket w bucket =
        (((x.device.blobs.put w.blob w.now stored).1.mapError BucketError.store).mapError fun e =>
          .other e.display,
          { x with device :=
            { x.device with blobs := (x.device.blobs.put w.blob w.now stored).2 } }) := by
      simp only [storeBucket, BlobStore.storeBucket, sealed]
    rw [saved]
    refine ⟨⟨rfl, rfl, rfl, rfl, rfl, BlobStore.put_grows⟩, ?_, rfl, rfl, ?_⟩
    · exact BlobStore.put_within within (known _ sealed)
    · intro addr result
      simp only [except_mapError_eq_ok] at result
      have readable := BlobStore.get_of_put_known within distinct (known _ sealed) result
      -- The sealed bucket opens again under the keys of the namespace.
      have opened : x.bucketKeys.openBucket x.device.mode stored = .ok bucket :=
        BucketKeys.openBucket_sealBucket opens valid sealed
      simp [loadBucket, BlobStore.loadBucket, readable, opened]

/-- A bucket that is published is readable, and nothing else on the site changes. -/
theorem savePublished_spec (opens : x.bucketKeys.Opens)
    (distinct : Set.InjOn x.device.blobs.addressing.addrOf blobs) (within : x.device.Within blobs)
    {w : Surroundings} {bucket : BucketManifest} (valid : bucket.Valid)
    (known : ∀ data, x.bucketKeys.sealBucket x.device.mode w.nonce bucket = .ok data →
      data ∈ blobs) :
    x.Kept (x.savePublished w bucket).2 ∧ (x.savePublished w bucket).2.device.Within blobs ∧
      (x.savePublished w bucket).2.outbox = x.outbox ∧
      (((x.savePublished w bucket).2.device.head = x.device.head ∧
        ∃ e, (x.savePublished w bucket).1 = .error e) ∨
        ∃ addr, (x.savePublished w bucket).2.device.head = some (.ok addr) ∧
          (x.savePublished w bucket).2.loadBucket addr = .ok bucket) := by
  -- The bucket is stored first, and then the head is written.
  obtain ⟨kept, within', outbox, head, readable⟩ :=
    storeBucket_spec opens distinct within valid known
  rw [savePublished_eq]
  generalize x.storeBucket w bucket = stored at *
  obtain ⟨result, y⟩ := stored
  cases result with
  | error e => exact ⟨kept, within', outbox, .inl ⟨head, e, rfl⟩⟩
  | ok addr =>
    -- What remains is the head itself, which nothing stored depends on.
    cases disk : w.head with
    | error e =>
      simp only [setHead, disk]
      exact ⟨kept, within', outbox, .inl ⟨head, _, rfl⟩⟩
    | ok u =>
      simp only [setHead, disk]
      exact ⟨⟨kept.ns, kept.mode, kept.identity, kept.keys, kept.bucketKeys, kept.blobs⟩,
        within', outbox, .inr ⟨addr, rfl, readable addr rfl⟩⟩

/-- A replay that lets the sync go on leaves the working view as the head, where there is a head. -/
theorem replayIntoHead_spec (is : x.Of c) (opens : c.bucketKeys.Opens)
    (distinct : Set.InjOn c.addressing.addrOf blobs) (within : x.device.Within blobs)
    (reads : x.HeadReads) {w : Surroundings} (known : ∀ data, x.replayBlob w = some data →
      data ∈ blobs) :
    x.Kept (x.replayIntoHead w).2 ∧ (x.replayIntoHead w).2.device.Within blobs ∧
      (x.replayIntoHead w).2.HeadReads ∧
      (goesOn (x.replayIntoHead w).1 → ∃ view, x.workingView (.ok ()) = .ok view ∧
        ∀ tree, (x.replayIntoHead w).2.device.head = some (.ok tree) →
          (x.replayIntoHead w).2.loadBucket tree = .ok view) := by
  -- The deltas cannot be loaded, there are none, or they are merged and saved.
  obtain ⟨base, loadedHead, validBase, headIs⟩ := loadPublishedHead_ok reads
  cases loaded : x.outbox.load w.read with
  | error text =>
    simp only [replayIntoHead, loaded]
    refine ⟨.refl x, within, reads, ?_⟩
    intro impossible
    cases impossible
  | ok deltas =>
    -- Reading the deltas went well, so it goes well on a disk that can be read.
    have again : x.outbox.load (.ok ()) = .ok deltas := by
      simp only [Outbox.load, except_bind_eq_ok] at loaded ⊢
      obtain ⟨_, _, read⟩ := loaded
      exact ⟨(), rfl, read⟩
    have view : x.workingView (.ok ()) = .ok (Outbox.fold base deltas) := by
      simp [workingView, loadedHead, again]
    cases deltas with
    | nil =>
      simp only [replayIntoHead, loaded]
      refine ⟨.refl x, within, reads, fun _ => ⟨base, view, ?_⟩⟩
      intro tree head
      rcases headIs with none | ⟨addr, published, readable⟩
      · rw [none] at head
        cases head
      · rw [published] at head
        obtain rfl := Except.ok.inj (Option.some.inj head)
        exact readable
    | cons delta rest =>
      have valid := Outbox.valid_fold validBase (Outbox.valid_of_load loaded)
      have stores (data : Bytes) (sealed : x.bucketKeys.sealBucket x.device.mode w.nonce
          (Outbox.fold base (delta :: rest)) = .ok data) : data ∈ blobs := by
        apply known
        simp [replayBlob, loaded, loadedHead, sealed, Except.toOption, guard]
      obtain ⟨kept, within', outbox, saved⟩ :=
        savePublished_spec (is.opens opens) (is.distinct distinct) within
        valid stores
      simp only [replayIntoHead, loaded, loadedHead]
      cases result : x.savePublished w (Outbox.fold base (delta :: rest)) with
      | mk outcome y =>
        rw [result] at kept within' outbox saved
        have reads' : y.HeadReads := by
          rcases saved with ⟨same, _⟩ | ⟨addr, head, loadable⟩
          · rcases headIs with none | ⟨addr, published, readable⟩
            · exact .inl (same.trans none)
            · exact .inr ⟨addr, base, same.trans published, kept.loadBucket readable⟩
          · exact .inr ⟨addr, _, head, loadable⟩
        cases outcome with
        | error e =>
          refine ⟨kept, within', reads', ?_⟩
          intro impossible
          cases impossible
        | ok addr =>
          have current (tree : Addr) (head : y.device.head = some (.ok tree)) :
              y.loadBucket tree = .ok (Outbox.fold base (delta :: rest)) := by
            rcases saved with ⟨_, e, impossible⟩ | ⟨addr', published, loadable⟩
            · cases impossible
            · rw [published] at head
              obtain rfl := Except.ok.inj (Option.some.inj head)
              exact loadable
          dsimp only
          split
          · refine ⟨⟨kept.ns, kept.mode, kept.identity, kept.keys, kept.bucketKeys, kept.blobs⟩,
              within', reads', ?_⟩
            intro impossible
            cases impossible
          · exact ⟨⟨kept.ns, kept.mode, kept.identity, kept.keys, kept.bucketKeys, kept.blobs⟩,
              within', reads', fun _ => ⟨_, view, current⟩⟩

end Site

end NasTools
