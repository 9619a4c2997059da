import NasTools.Model.Store.TreeStore
import NasTools.Proofs.ReadBack
import NasTools.Proofs.Rewriting

/-!
A tree written over any earlier one restores as one written afresh, and writing it
again stores nothing.
-/

namespace NasTools

/-- The names in a listing are those of the directory. -/
theorem DirTree.map_listing (tree : DirTree) :
    (DirTree.listing tree).map Prod.fst = tree.names := by
  -- Induction over the tree; a directory in it is listed by its name alone.
  induction tree with
  | nil => rfl
  | leaf name value rest ih => cases value <;> simp only [listing, List.map_cons, ih,
    NamedTree.names]
  | node name sub rest _ ih => simp only [listing, List.map_cons, ih, NamedTree.names]

/-- A directory that is listed has no name that is not safe. -/
theorem DirDisk.safe_of_scan {disk : DirDisk} {tree : DirTree} (scanned : disk.scan tree = .ok ()) :
    ∀ name ∈ tree.names, safeName name = .ok () := by
  -- The listing has every name, so each was tested.
  intro name member
  simp only [scan, except_bind_eq_ok, forM_eq_ok] at scanned
  obtain ⟨_, _, each⟩ := scanned
  -- The disk may list in any order, but lists every name.
  rw [← DirTree.map_listing] at member
  obtain ⟨entry, listed, rfl⟩ := List.mem_map.mp member
  obtain ⟨_, _, _, safe, _⟩ := each entry ((disk.perm _).mem_iff.mpr listed)
  exact safe

/-- Whether nothing fails while a directory is read that is to be stored. -/
structure DirDisk.Works (disk : DirDisk) : Prop where
  previous : disk.previous = .ok ()
  opened : disk.opened = .ok ()
  listed : ∀ name, disk.listed name = .ok ()
  typed : ∀ name, disk.typed name = .ok ()
  linked : ∀ name, disk.linked name = .ok ()
  fileOpened : ∀ name, disk.fileOpened name = .ok ()
  chunks : ∀ name i, disk.chunks name i = .ok ()

/-- Where nothing fails, a directory of safe names is listed. -/
theorem DirDisk.Works.scan {disk : DirDisk} (works : disk.Works) {tree : DirTree}
    (safe : ∀ name ∈ tree.names, safeName name = .ok ()) : disk.scan tree = .ok () := by
  -- Every question about an entry is answered, and its name is safe.
  have each : ∀ entry ∈ disk.order (DirTree.listing tree), safeName entry.1 = .ok () := by
    intro entry member
    apply safe
    rw [← DirTree.map_listing]
    exact List.mem_map_of_mem ((disk.perm _).mem_iff.mp member)
  simp only [DirDisk.scan, works.opened, except_mapError_ok, except_ok_bind, forM_eq_ok]
  intro entry member
  simp only [works.listed, works.typed, works.linked, each entry member, except_mapError_ok,
    except_ok_bind, ite_self]

/--
An entry under a name above all others is listed last, and below the names that come after it.
-/
theorem DirManifest.insert_top {dm : DirManifest} {name : Bytes} {names : List Bytes}
    (above : ∀ k ∈ dm.entries, ∀ n ∈ name :: names, compare k n = .lt)
    (later : ∀ n ∈ names, compare name n = .lt) (e : Entry) :
    (dm.insert name e).entries.toList = dm.entries.toList ++ [(name, e)] ∧
      ∀ k ∈ (dm.insert name e).entries, ∀ n ∈ names, compare k n = .lt := by
  -- The name is above those that are there and below those to come.
  refine ⟨OrdMap.toList_insert_top fun k present => above k present name List.mem_cons_self, ?_⟩
  intro k present n member
  rcases Std.ExtTreeMap.mem_insert.mp present with same | held
  · rw [← Std.LawfulEqCmp.eq_of_compare same]
    exact later n member
  · exact above k held n (List.mem_cons_of_mem _ member)

/-- Whether nothing fails while one name is restored. -/
structure EntryDisk.Works (disk : EntryDisk) : Prop where
  unlinked : disk.unlinked = .ok ()
  replaced : disk.replaced = .ok ()
  created : disk.created = .ok ()
  chunks : ∀ i, (disk.chunks i).fetch = .ok ()

/-- Whether nothing fails while one directory is restored. -/
structure RestoreDisk.Works (disk : RestoreDisk) : Prop where
  fetched : disk.fetched = .ok ()
  made : disk.made = .ok ()
  entry : ∀ name, (disk.entry name).Works

section

variable [Crypto]

/-- A store that was written to, with the manifests that were handed over to it. -/
structure Depot.Keeps (d e : Depot) : Prop where
  blobs : d.blobs.Grows e.blobs
  manifests : ∀ blob ∈ d.manifests, blob ∈ e.manifests

/-- A depot keeps what it has. -/
theorem Depot.Keeps.refl (d : Depot) : d.Keeps d := ⟨.refl _, fun _ member => member⟩

/-- Keeping is transitive. -/
theorem Depot.Keeps.trans {d e f : Depot} (first : d.Keeps e) (second : e.Keeps f) : d.Keeps f :=
  ⟨first.blobs.trans second.blobs,
    fun blob member => second.manifests blob (first.manifests blob member)⟩

variable [Cipher]

/-- The blobs of an object that is held are all there. -/
theorem Manifest.Holds.readable {sealer : Sealer} {profile : PaddingProfile} {chunks : Set Bytes}
    {s : BlobStore} {m : Manifest} {body : Bytes} (holds : m.Holds sealer profile chunks s body) :
    ∀ c ∈ m.chunks, ∃ found, s.get c.addr = .ok found := by
  -- The chunks were filed one after the other.
  obtain ⟨plains, filed, whole⟩ := holds.parts
  clear whole
  -- Only the list of chunks matters, taken one after the other.
  generalize m.chunks = refs at filed
  induction filed with
  | nil => exact fun _ impossible => nomatch impossible
  | cons here later ih =>
    obtain ⟨padded, blob, _, _, _, held⟩ := here.stored
    exact List.forall_mem_cons.mpr ⟨⟨blob, held⟩, ih⟩

variable [Kdf]

namespace TreeStore

variable {t : TreeStore} {s u : BlobStore} {dir : DirSecret} {addr : Addr} {dm : DirManifest}

/-- A manifest that can be read is read, unless the disk fails. -/
theorem readDirManifest_of (read : t.readDirManifest s (.ok ()) dir addr = .ok dm) (disk : Disk) :
    t.readDirManifest s disk dir addr = (disk.mapError fun e => .store (.io e)).map
      fun _ => dm := by
  cases disk with
  | error e => rfl
  | ok u => exact read

/-- What is read on some disk is read on one that works, also from a store that grew. -/
theorem readDirManifest_mono {disk : Disk} (read : t.readDirManifest s disk dir addr = .ok dm)
    (grows : s.Grows u) :
    t.readDirManifest u (.ok ()) dir addr = .ok dm := by
  -- The blob is still there, and opening it asks nothing of the store.
  unfold readDirManifest at read ⊢
  simp only [except_bind_eq_ok, except_mapError_eq_ok] at read
  obtain ⟨_, _, stored, held, opened⟩ := read
  simp only [except_mapError_ok, except_ok_bind, grows.kept _ _ held]
  exact opened

/-- A manifest that was handed over and stored can be read. -/
theorem read_of_put (trusted : Cipher.Trusted) {disk : DirDisk} {now : Timestamp} {d : Depot}
    {blobs : Set Bytes} (within : d.blobs.Within blobs)
    (distinct : Set.InjOn d.blobs.addressing.addrOf blobs) {plain : Bytes} (proper : dm.Proper)
    (encoded : dm.encode = .ok plain)
    (known : ∀ blob ∈ (t.putDirManifest disk now dir plain d).2.manifests, blob ∈ blobs)
    (stored : (t.putDirManifest disk now dir plain d).1 = .ok addr) :
    t.readDirManifest (t.putDirManifest disk now dir plain d).2.blobs (.ok ()) dir addr =
      .ok dm := by
  -- The manifest is sealed and stored, and then fetched and opened.
  unfold putDirManifest at known stored ⊢
  cases made : t.protectManifest dir disk.nonce plain with
  | error e =>
    rw [made] at stored
    cases stored
  | ok sealed =>
    simp only [made, except_mapError_eq_ok] at known stored ⊢
    -- The blob is under its own address: no other known blob has that one.
    have held := BlobStore.get_of_put_known within distinct (known sealed (by simp)) stored
    have decoded := DirManifest.decode_encode proper encoded
    unfold readDirManifest
    simp only [except_mapError_ok, except_ok_bind, held]
    -- What the store gives back opens to the manifest that was sealed.
    unfold protectManifest at made
    cases is : t.sealer with
    | convergent cs =>
      simp only [is] at made ⊢
      simp only [openRandom_sealRandom trusted made, except_mapError_ok, except_ok_bind, decoded]
    | plaintext salt =>
      simp only [is, Except.ok.injEq] at made ⊢
      rw [← made, decoded]

/-- Handing over a manifest loses nothing. -/
theorem putDirManifest_keeps (disk : DirDisk) (now : Timestamp) (dir : DirSecret) (plain : Bytes)
    (d : Depot) :
    d.Keeps (t.putDirManifest disk now dir plain d).2 := by
  -- The manifest is sealed or it is not.
  unfold putDirManifest
  -- A manifest that is not sealed is not handed over, and then nothing changes.
  split
  · exact .refl d
  · exact ⟨BlobStore.put_grows, fun blob member => List.mem_append_left _ member⟩

/-- Handing over a known manifest keeps to the known blobs. -/
theorem putDirManifest_within {disk : DirDisk} {now : Timestamp} {plain : Bytes} {d : Depot}
    {blobs : Set Bytes} (within : d.blobs.Within blobs)
    (known : ∀ blob ∈ (t.putDirManifest disk now dir plain d).2.manifests, blob ∈ blobs) :
    (t.putDirManifest disk now dir plain d).2.blobs.Within blobs := by
  -- Only the sealed manifest is stored.
  unfold putDirManifest at known ⊢
  split
  · exact within
  · rename_i sealed made
    simp only [made] at known
    exact BlobStore.put_within within (known sealed (by simp))

/-- How writing a directory can end, around its entries. -/
inductive DirOutcome (t : TreeStore) (now : Timestamp) (dir : DirSecret) (disk : DirDisk)
    (tree : DirTree) (prev : Option Addr) (entries : ObjectWriter → Option DirManifest → Depot →
      Except TreeFailure DirManifest × Depot) (d : Depot) :
    Except TreeFailure Addr × Depot → Prop
  | refused (f : TreeFailure) : DirOutcome t now dir disk tree prev entries d (.error f, d)
  | failed {w old f e} (writer : t.writer = .ok w) (scanned : disk.scan tree = .ok ())
      (wrote : entries w old d = (.error f, e)) :
        DirOutcome t now dir disk tree prev entries d (.error f, e)
  | kept {w old dm e addr} (writer : t.writer = .ok w) (scanned : disk.scan tree = .ok ())
      (wrote : entries w old d = (.ok dm, e)) (before : prev = some addr)
      (read : t.readDirManifest d.blobs disk.previous dir addr = .ok dm) :
      DirOutcome t now dir disk tree prev entries d (.ok addr, e)
  | unencoded {w old dm e} (writer : t.writer = .ok w) (scanned : disk.scan tree = .ok ())
      (wrote : entries w old d = (.ok dm, e)) (f : TreeFailure) :
      DirOutcome t now dir disk tree prev entries d (.error f, e)
  | stored {w old dm e plain} (writer : t.writer = .ok w) (scanned : disk.scan tree = .ok ())
      (wrote : entries w old d = (.ok dm, e)) (encoded : dm.encode = .ok plain) :
      DirOutcome t now dir disk tree prev entries d
        ((t.putDirManifest disk now dir plain e).1.mapError .error,
          (t.putDirManifest disk now dir plain e).2)

/-- A directory is refused, kept as it was, or written anew. -/
theorem asDirectory_outcome (t : TreeStore) (now : Timestamp) (dir : DirSecret) (disk : DirDisk)
    (tree : DirTree) (prev : Option Addr) (entries : ObjectWriter → Option DirManifest → Depot →
      Except TreeFailure DirManifest × Depot) (d : Depot) :
    DirOutcome t now dir disk tree prev entries d
      (t.asDirectory now dir disk tree prev entries d) := by
  -- The steps are followed in their order.
  unfold asDirectory
  dsimp only
  -- The steps in their order: the writer, the listing, the entries, the encoding.
  cases writer : t.writer with
  | error e => exact .refused _
  | ok w =>
    cases scanned : disk.scan tree with
    | error e => exact .refused _
    | ok u =>
      dsimp only
      -- The earlier manifest counts only where it can be read.
      generalize is :
        (prev.bind fun addr => (t.readDirManifest d.blobs disk.previous dir addr).toOption) = old
      cases wrote : entries w old d with
      | mk result e =>
        cases result with
        | error f => exact .failed writer scanned wrote
        | ok dm =>
          dsimp only
          split
          · rename_i addr same
            -- The address is kept only where the manifest under it was read and is the new one.
            by_cases unchanged : old = some dm
            · rw [if_pos unchanged] at same
              rw [unchanged, same, Option.bind_some, except_toOption_eq_some] at is
              exact .kept writer scanned wrote same is
            · rw [if_neg unchanged] at same
              cases same
          · cases encoded : dm.encode with
            | error e => exact .unencoded writer scanned wrote _
            | ok plain => exact .stored writer scanned wrote encoded

variable {now : Timestamp}

/-- Writing a directory loses nothing where writing its entries does not. -/
theorem asDirectory_keeps {disk : DirDisk} {tree : DirTree} {prev : Option Addr}
    {entries : ObjectWriter → Option DirManifest → Depot → Except TreeFailure DirManifest × Depot}
    (keeps : ∀ w old (d : Depot), d.Keeps (entries w old d).2) (d : Depot) :
    d.Keeps (t.asDirectory now dir disk tree prev entries d).2 := by
  -- Whatever the outcome, it is one of those three.
  have after {w old result e} (wrote : entries w old d = (result, e)) : d.Keeps e := by
    have kept := keeps w old d
    rwa [wrote] at kept
  have outcome := t.asDirectory_outcome now dir disk tree prev entries d
  generalize t.asDirectory now dir disk tree prev entries d = result at outcome ⊢
  -- In each case the depot is what the entries left, at most with one manifest more.
  cases outcome with
  | refused f => exact .refl d
  | failed writer scanned wrote => exact after wrote
  | kept writer scanned wrote before read => exact after wrote
  | unencoded writer scanned wrote f => exact after wrote
  | stored writer scanned wrote encoded =>
    exact (after wrote).trans (putDirManifest_keeps _ _ _ _ _)

variable [GearTable]

/-- Writing the entries of a directory loses nothing. -/
theorem writeEntries_keeps (tree : DirTree) (w : ObjectWriter) (dir : DirSecret)
    (old : Option DirManifest) (disk : List Bytes → DirDisk) (dm : DirManifest) (d : Depot) :
    d.Keeps (t.writeEntries now tree w dir old disk dm d).2 := by
  -- A link stores nothing, a file its chunks, and a directory what is below it.
  induction tree generalizing w dir old disk dm d with
  | nil => exact .refl d
  | leaf name value rest ih =>
    cases value with
    | link target => exact ih w dir old disk _ d
    | file content =>
      unfold writeEntries
      split
      · exact .refl d
      · have grows : d.blobs.Grows
            (w.write d.blobs ((disk []).chunks name) now .file ⟨content, (disk []).reads name⟩).2 :=
          (ObjectWriter.describes_of_write _ _ _ _).1
        split
        · rename_i blobs wrote
          rw [wrote] at grows
          exact ⟨grows, fun _ member => member⟩
        · rename_i blobs wrote
          rw [wrote] at grows
          exact Depot.Keeps.trans (e := { d with blobs }) ⟨grows, fun _ member => member⟩
            (ih w dir old disk _ _)
  | node name sub rest ihSub ih =>
    unfold writeEntries
    dsimp only
    have kept :
      d.Keeps (t.asDirectory now (dir.child name) (disk (name :: [])) sub
      (old.bind (·.childAt name))
        (fun w old d => t.writeEntries now sub w (dir.child name) old
          (fun path => disk (name :: path)) .empty d) d).2 :=
      asDirectory_keeps
        (fun w old d => ihSub w (dir.child name) old (fun path => disk (name :: path)) .empty d) d
    split
    · rename_i wrote
      rw [wrote] at kept
      exact kept
    · rename_i wrote
      rw [wrote] at kept
      exact kept.trans (ih w dir old disk _ _)

/-- Writing a directory over an earlier one loses nothing. -/
theorem writeDirIncremental_keeps (src : Directory) (prev : Option Addr)
    (disk : List Bytes → DirDisk) (d : Depot) :
    d.Keeps (t.writeDirIncremental now dir src prev disk d).2 :=
  asDirectory_keeps (fun w old d => writeEntries_keeps src.tree w dir old disk .empty d) d

/--
The entries of a directory, as its manifest lists them where the store holds it and
all that is below it.
-/
def Lists (t : TreeStore) (w : ObjectWriter) (s : BlobStore) :
    DirTree → DirSecret → List (Bytes × Entry) → Prop
  -- The listing ends where the directory does.
  | .nil, _, list => list = []
  -- A file that is held has all its chunks in the store.
  | .leaf name (.file content) rest, dir, list =>
    ∃ m more, list = (name, .file m) :: more ∧ safeName name = .ok () ∧
      w.Describes s.addressing .file content m ∧ m.Holds w.sealer w.profile Set.univ s content ∧
      t.Lists w s rest dir more
  | .leaf name (.link target) rest, dir, list =>
    ∃ more, list = (name, .symlink target) :: more ∧ safeName name = .ok () ∧
      t.Lists w s rest dir more
  -- The manifest of a directory is itself read from the store.
  | .node name sub rest, dir, list =>
    ∃ addr dm more, list = (name, .dir addr name) :: more ∧ safeName name = .ok () ∧
      t.readDirManifest s (.ok ()) (dir.child name) addr = .ok dm ∧
      t.Lists w s sub (dir.child name) dm.entries.toList ∧ t.Lists w s rest dir more

/-- A store holds a tree under an address. -/
def Stores (t : TreeStore) (w : ObjectWriter) (s : BlobStore) (dir : DirSecret) (tree : DirTree)
    (addr : Addr) : Prop :=
  ∃ dm, t.readDirManifest s (.ok ()) dir addr = .ok dm ∧ t.Lists w s tree dir dm.entries.toList

variable {w : ObjectWriter} {tree : DirTree} {list : List (Bytes × Entry)}

/-- A store that loses nothing keeps its trees. -/
theorem Lists.mono (lists : t.Lists w s tree dir list) (grows : s.Grows u) :
    t.Lists w u tree dir list := by
  -- Induction over the tree.
  induction tree generalizing dir list with
  | nil => exact lists
  | leaf name value rest ih =>
    cases value with
    | link target =>
      obtain ⟨more, is, safe, later⟩ := lists
      exact ⟨more, is, safe, ih later⟩
    | file content =>
      -- What describes a file depends on the addressing only, which does not change.
      obtain ⟨m, more, is, safe, describes, holds, later⟩ := lists
      exact ⟨m, more, is,
        safe, by rw [grows.addressing]; exact describes, holds.mono grows, ih later⟩
  | node name sub rest ihSub ih =>
    obtain ⟨addr, dm, more, is, safe, read, below, later⟩ := lists
    exact ⟨addr, dm, more, is, safe, readDirManifest_mono read grows, ihSub below, ih later⟩

/-- What is stored stays stored in a store that grows. -/
theorem Stores.mono (stores : t.Stores w s dir tree addr) (grows : s.Grows u) :
    t.Stores w u dir tree addr := by
  obtain ⟨dm, read, lists⟩ := stores
  exact ⟨dm, readDirManifest_mono read grows, lists.mono grows⟩

/-- What is listed are the names of the directory, all of them safe. -/
theorem Lists.names (lists : t.Lists w s tree dir list) :
    list.map Prod.fst = tree.names ∧ ∀ name ∈ tree.names, safeName name = .ok () := by
  -- Induction over the tree: every entry is listed under its name.
  induction tree generalizing dir list with
  | nil =>
    obtain rfl := lists
    exact ⟨rfl, fun _ impossible => nomatch impossible⟩
  | leaf name value rest ih =>
    obtain ⟨e, more, rfl, safe, later⟩ : ∃ e more, list = (name, e) :: more ∧
      safeName name = .ok () ∧
        t.Lists w s rest dir more := by
      cases value with
      | link target =>
        obtain ⟨more, is, safe, later⟩ := lists
        exact ⟨_, more, is, safe, later⟩
      | file content =>
        obtain ⟨m, more, is, safe, _, _, later⟩ := lists
        exact ⟨_, more, is, safe, later⟩
    obtain ⟨same, others⟩ := ih later
    exact ⟨by rw [List.map_cons, same, NamedTree.names], List.forall_mem_cons.mpr ⟨safe, others⟩⟩
  | node name sub rest _ ih =>
    obtain ⟨addr, dm, more, rfl, safe, _, _, later⟩ := lists
    obtain ⟨same, others⟩ := ih later
    exact ⟨by rw [List.map_cons, same, NamedTree.names], List.forall_mem_cons.mpr ⟨safe, others⟩⟩

/-- Every entry that is listed is sound, and the id of a directory is its name. -/
theorem Lists.entries (lists : t.Lists w s tree dir list) :
    ∀ entry ∈ list, entry.2.Sound ∧ ∀ dirId, entry.2.dirId? = some dirId → dirId = entry.1 := by
  -- Induction over the tree.
  induction tree generalizing dir list with
  | nil =>
    obtain rfl := lists
    exact fun _ impossible => nomatch impossible
  | leaf name value rest ih =>
    cases value with
    | link target =>
      obtain ⟨more, rfl, _, later⟩ := lists
      exact List.forall_mem_cons.mpr ⟨⟨trivial, fun _ impossible => nomatch impossible⟩, ih later⟩
    | file content =>
      obtain ⟨m, more, rfl, _, _, holds, later⟩ := lists
      exact List.forall_mem_cons.mpr ⟨⟨holds.valid, fun _ impossible => nomatch impossible⟩,
        ih later⟩
  | node name sub rest _ ih =>
    obtain ⟨addr, dm, more, rfl, safe, _, _, later⟩ := lists
    refine List.forall_mem_cons.mpr ⟨⟨?_, fun dirId is => (Option.some.inj is).symm⟩, ih later⟩
    -- A name that is safe is not empty.
    show name ≠ []
    rintro rfl
    cases safe

/-- The manifest of a directory can be read back. -/
theorem Lists.proper (lists : t.Lists w s tree dir dm.entries.toList) : dm.Proper := by
  -- The names and the ids of the entries are those of the listing.
  have entry {name : Bytes} {e : Entry} (held : dm.entries[name]? = some e) :=
    lists.entries (name, e) (Std.ExtTreeMap.mem_toList_iff_getElem?_eq_some.mpr held)
  refine ⟨fun name e held => (entry held).1, ?_⟩
  intro name name' e e' dirId held held' first second
  exact ((entry held).2 dirId first).symm.trans ((entry held').2 dirId second)

/-- The files of a tree are cut into chunks that are known, and each fits into memory. -/
def KnownFiles (w : ObjectWriter) (blobs : Set Bytes) (tree : DirTree) : Prop :=
  ∀ content, .file content ∈ tree.leaves →
    (∀ plain ∈ w.chunker.split content, w.Known blobs Set.univ plain) ∧ content.length < 2 ^ 64

/-- A depot with one addressing, in which there are only known blobs. -/
structure Settled (blobs : Set Bytes) (a : Addressing) (d : Depot) : Prop where
  within : d.blobs.Within blobs
  addressing : d.blobs.addressing = a

section

variable (trusted : Cipher.Trusted) (made : t.writer = .ok w) {blobs : Set Bytes} {a : Addressing}
  (distinct : Set.InjOn a.addrOf blobs)
include trusted made distinct

/--
A directory is stored where its entries are: under its earlier address, or under the
one of a new manifest.
-/
theorem asDirectory_stores (now : Timestamp) (disk : DirDisk) (prev : Option Addr)
    (entries : ObjectWriter → Option DirManifest → Depot → Except TreeFailure DirManifest × Depot)
    (keeps : ∀ w old (d : Depot), d.Keeps (entries w old d).2)
    (lists : ∀ old (d : Depot), Settled blobs a d → (∀ name ∈ tree.names, safeName name = .ok ()) →
      (∀ blob ∈ (entries w old d).2.manifests, blob ∈ blobs) → Settled blobs a (entries w old d).2 ∧
        ∀ dm, (entries w old d).1 = .ok dm →
          t.Lists w (entries w old d).2.blobs tree dir dm.entries.toList)
    {d : Depot} (settled : Settled blobs a d)
    (known : ∀ blob ∈ (t.asDirectory now dir disk tree prev entries d).2.manifests, blob ∈ blobs) :
    Settled blobs a (t.asDirectory now dir disk tree prev entries d).2 ∧
      ∀ addr, (t.asDirectory now dir disk tree prev entries d).1 = .ok addr →
        t.Stores w (t.asDirectory now dir disk tree prev entries d).2.blobs dir tree addr := by
  -- Whatever comes after them, the entries were written to a depot that keeps the earlier one.
  have after {w' old result e} (writer : t.writer = .ok w') (scanned : disk.scan tree = .ok ())
      (wrote : entries w' old d = (result, e)) (known : ∀ blob ∈ e.manifests, blob ∈ blobs) :
      Settled blobs a e ∧ d.Keeps e ∧ ∀ dm, result = .ok dm →
        t.Lists w e.blobs tree dir dm.entries.toList := by
    obtain rfl := Except.ok.inj (made.symm.trans writer)
    have kept := keeps w old d
    have result := lists old d settled (DirDisk.safe_of_scan scanned)
    rw [wrote] at kept result
    obtain ⟨settled', listed⟩ := result known
    exact ⟨settled', kept, listed⟩
  have outcome := t.asDirectory_outcome now dir disk tree prev entries d
  generalize t.asDirectory now dir disk tree prev entries d = result at outcome known ⊢
  cases outcome with
  | refused f => exact ⟨settled, fun _ impossible => nomatch impossible⟩
  | failed writer scanned wrote =>
    exact ⟨(after writer scanned wrote known).1, fun _ impossible => nomatch impossible⟩
  | unencoded writer scanned wrote f =>
    exact ⟨(after writer scanned wrote known).1, fun _ impossible => nomatch impossible⟩
  | kept writer scanned wrote before read =>
    rename_i dm _ _
    obtain ⟨settled', kept, listed⟩ := after writer scanned wrote known
    refine ⟨settled', ?_⟩
    intro addr is
    obtain rfl := Except.ok.inj is
    -- The manifest under the earlier address is the new one, and is still there.
    exact ⟨dm, readDirManifest_mono read kept.blobs, listed dm rfl⟩
  | stored writer scanned wrote encoded =>
    rename_i w' old dm e plain
    have put := putDirManifest_keeps (t := t) disk now dir plain e
    obtain ⟨settled', kept, listed⟩ := after writer scanned wrote
      fun blob member => known blob (put.manifests blob member)
    -- Putting the manifest does not disturb what it lists.
    have lists' := listed dm rfl
    have distinct' : Set.InjOn e.blobs.addressing.addrOf blobs := by
      rw [settled'.addressing]
      exact distinct
    refine ⟨⟨putDirManifest_within settled'.within known,
      put.blobs.addressing.trans settled'.addressing⟩, ?_⟩
    intro addr is
    rw [except_mapError_eq_ok] at is
    exact ⟨dm, read_of_put trusted settled'.within distinct' lists'.proper encoded known is,
      lists'.mono put.blobs⟩

/-- Entries that are written are listed in the manifest, above those that were there. -/
theorem writeEntries_lists {tree : DirTree} (files : KnownFiles w blobs tree)
    (ordered : tree.Ordered) (safe : ∀ name ∈ tree.names, safeName name = .ok ())
    (old : Option DirManifest) (disk : List Bytes → DirDisk) (dm : DirManifest)
    (above : ∀ k ∈ dm.entries, ∀ name ∈ tree.names, compare k name = .lt) {d : Depot}
    (settled : Settled blobs a d)
    (known : ∀ blob ∈ (t.writeEntries now tree w dir old disk dm d).2.manifests, blob ∈ blobs) :
    Settled blobs a (t.writeEntries now tree w dir old disk dm d).2 ∧
      ∀ dm', (t.writeEntries now tree w dir old disk dm d).1 = .ok dm' →
        ∃ list, dm'.entries.toList = dm.entries.toList ++ list ∧
          t.Lists w (t.writeEntries now tree w dir old disk dm d).2.blobs tree dir list := by
  -- What was entered so far grows at the end, and the store grows with it.
  induction tree generalizing dir old disk dm d with
  | nil =>
    refine ⟨settled, ?_⟩
    intro dm' is
    obtain rfl := Except.ok.inj is
    exact ⟨[], by simp, rfl⟩
  | leaf name value rest ih =>
    obtain ⟨later, orderedRest⟩ := ordered
    obtain ⟨safeHere, safeRest⟩ := List.forall_mem_cons.mp safe
    have filesRest : KnownFiles w blobs rest := fun content member =>
      files content (List.mem_cons_of_mem _ member)
    cases value with
    | link target =>
      -- A link is only entered.
      obtain ⟨entered, aboveRest⟩ := DirManifest.insert_top above later (.symlink target)
      obtain ⟨settled', listed⟩ :=
        ih filesRest orderedRest safeRest old disk _ aboveRest settled known
      refine ⟨settled', ?_⟩
      intro dm' is
      obtain ⟨list, whole, lists⟩ := listed dm' is
      exact ⟨(name, .symlink target) ::
        list, by rw [whole, entered, List.append_assoc]; rfl, list, rfl, safeHere, lists⟩
    | file content =>
      let reader : Reader := ⟨content, (disk []).reads name⟩
      obtain ⟨chunksKnown, short⟩ :
        (∀ plain ∈ w.chunker.split reader.rest, w.Known blobs Set.univ plain) ∧
        reader.rest.length < 2 ^ 64 := files content List.mem_cons_self
      -- A file is written first, and the store holds it from then on.
      have distinct' : Set.InjOn d.blobs.addressing.addrOf blobs := by
        rw [settled.addressing]
        exact distinct
      obtain ⟨grows, within, held⟩ :=
        w.write_spec ((disk []).chunks name) now .file settled.within distinct' chunksKnown
        short
      have describes :=
        (w.describes_of_write (s := d.blobs) ((disk []).chunks name) now .file reader).2
      have keeps (dm : DirManifest) (d : Depot) :
          d.Keeps (t.writeEntries now rest w dir old disk dm d).2 :=
        writeEntries_keeps rest w dir old disk dm d
      unfold writeEntries at known ⊢
      cases opened : (disk []).fileOpened name with
      | error e => exact ⟨settled, fun _ impossible => nomatch impossible⟩
      | ok u =>
        simp only [opened] at known ⊢
        generalize w.write d.blobs ((disk []).chunks name) now .file reader = after
          at grows within held describes known ⊢
        obtain ⟨result, s⟩ := after
        have settled' : Settled blobs a { d with blobs := s } :=
          ⟨within, grows.addressing.trans settled.addressing⟩
        cases result with
        | error f => exact ⟨settled', fun _ impossible => nomatch impossible⟩
        | ok m =>
          obtain ⟨entered, aboveRest⟩ := DirManifest.insert_top above later (.file m)
          obtain ⟨settled'', listed⟩ :=
            ih filesRest orderedRest safeRest old disk _ aboveRest settled' known
          refine ⟨settled'', ?_⟩
          intro dm' is
          obtain ⟨list, whole, lists⟩ := listed dm' is
          -- The rest of the directory is written into a store that grew.
          have later := (keeps (dm.insert name (.file m)) { d with blobs := s }).blobs
          have described := describes m rfl
          rw [settled.addressing, ← settled''.addressing] at described
          exact ⟨(name, .file m) :: list, by rw [whole, entered, List.append_assoc]; rfl,
            m, list, rfl, safeHere, described, (held m rfl).mono later, lists⟩
  | node name sub rest ihSub ih =>
    obtain ⟨later, orderedSub, orderedRest⟩ := ordered
    obtain ⟨safeHere, safeRest⟩ := List.forall_mem_cons.mp safe
    have filesSub : KnownFiles w blobs sub := fun content member =>
      files content (List.mem_append_left _ member)
    have filesRest : KnownFiles w blobs rest := fun content member =>
      files content (List.mem_append_right _ member)
    have keeps (dm : DirManifest) (d : Depot) :
        d.Keeps (t.writeEntries now rest w dir old disk dm d).2 :=
      writeEntries_keeps rest w dir old disk dm d
    -- A directory below is stored as one that starts with an empty manifest.
    have stores :=
      asDirectory_stores trusted made distinct now (disk (name :: [])) (old.bind (·.childAt name))
      (fun w old d => t.writeEntries now sub w (dir.child name) old
        (fun path => disk (name :: path)) .empty d)
      (fun w old d => writeEntries_keeps sub w _ old _ _ d)
      (by
        intro old d settled safe known
        obtain ⟨settled', listed⟩ := ihSub filesSub orderedSub safe old _ .empty
          (fun k present => absurd present Std.ExtTreeMap.not_mem_empty) settled known
        refine ⟨settled', ?_⟩
        intro dm' is
        obtain ⟨list, whole, lists⟩ := listed dm' is
        rw [DirManifest.empty, OrdMap.toList_empty, List.nil_append] at whole
        rw [whole]
        exact lists)
      settled
    unfold writeEntries at known ⊢
    dsimp only at known ⊢
    generalize t.asDirectory now (dir.child name) (disk (name :: [])) sub
      (old.bind (·.childAt name)) _ d = after
      at stores known ⊢
    obtain ⟨result, e⟩ := after
    cases result with
    | error f => exact ⟨(stores known).1, fun _ impossible => nomatch impossible⟩
    | ok addr =>
      dsimp only at known ⊢
      have kept := keeps (dm.insert name (.dir addr name)) e
      obtain ⟨settled', stored⟩ := stores fun blob member => known blob (kept.manifests blob member)
      obtain ⟨below, read, lists⟩ := stored addr rfl
      obtain ⟨entered, aboveRest⟩ := DirManifest.insert_top above later (.dir addr name)
      obtain ⟨settled'', listed⟩ :=
        ih filesRest orderedRest safeRest old disk _ aboveRest settled' known
      refine ⟨settled'', ?_⟩
      intro dm' is
      obtain ⟨list, whole, listsRest⟩ := listed dm' is
      exact ⟨(name, .dir addr name) ::
        list, by
        rw [whole, entered, List.append_assoc]; rfl, addr, below, list, rfl, safeHere,
        readDirManifest_mono read kept.blobs, lists.mono kept.blobs, listsRest⟩

/-- A directory that is written is stored with all that is below it, whatever was there before. -/
theorem writeDirIncremental_stores {src : Directory} (files : KnownFiles w blobs src.tree)
    (prev : Option Addr) (disk : List Bytes → DirDisk) {d : Depot} (settled : Settled blobs a d)
    (known : ∀ blob ∈ (t.writeDirIncremental now dir src prev disk d).2.manifests, blob ∈ blobs)
    (wrote : (t.writeDirIncremental now dir src prev disk d).1 = .ok addr) :
    t.Stores w (t.writeDirIncremental now dir src prev disk d).2.blobs dir src.tree addr := by
  -- The top directory is written as every other is.
  refine (asDirectory_stores trusted made distinct now (disk []) prev
    (fun w old d => t.writeEntries now src.tree w dir old disk .empty d)
    (fun w old d => writeEntries_keeps src.tree w _ old _ _ d) ?_ settled known).2 addr wrote
  intro old d settled safe known
  obtain ⟨settled', listed⟩ :=
    writeEntries_lists trusted made distinct files src.ordered safe old disk .empty
    (fun k present => absurd present Std.ExtTreeMap.not_mem_empty) settled known
  refine ⟨settled', ?_⟩
  intro dm is
  obtain ⟨list, whole, lists⟩ := listed dm is
  rw [DirManifest.empty, OrdMap.toList_empty, List.nil_append] at whole
  rw [whole]
  exact lists

end

section

variable (made : t.writer = .ok w)
include made

/--
Where the store holds a directory, writing it over itself gives its address and stores nothing.
-/
theorem asDirectory_again {disk : DirDisk} (works : disk.Works)
    {entries : ObjectWriter → Option DirManifest → Depot → Except TreeFailure DirManifest × Depot}
    {d : Depot} (read : t.readDirManifest d.blobs (.ok ()) dir addr = .ok dm)
    (lists : t.Lists w d.blobs tree dir dm.entries.toList)
    (again : ∃ s, entries w (some dm) d = (.ok dm, { d with blobs := s }) ∧
      d.blobs.SameContents s) :
    ∃ s, t.asDirectory now dir disk tree (some addr) entries d = (.ok addr, { d with blobs := s }) ∧
      d.blobs.SameContents s := by
  -- Each step comes to what is there already.
  obtain ⟨s, wrote, same⟩ := again
  refine ⟨s, ?_, same⟩
  -- The new manifest is the earlier one, so its address is kept and nothing is put.
  unfold asDirectory
  simp only [Option.bind_some, works.previous, read, Except.toOption, made,
    works.scan lists.names.2, wrote, if_true]

/--
Where the store holds the entries of a directory, writing them again lists the same
and stores nothing.
-/
theorem writeEntries_again {old : DirManifest} {disk : List Bytes → DirDisk}
    (works : ∀ path, (disk path).Works) (ordered : tree.Ordered) (dm : DirManifest)
    (above : ∀ k ∈ dm.entries, ∀ name ∈ tree.names, compare k name = .lt)
    (whole : old.entries.toList = dm.entries.toList ++ list) {d : Depot}
    (lists : t.Lists w d.blobs tree dir list) :
    ∃ s, t.writeEntries now tree w dir (some old) disk dm d = (.ok old, { d with blobs := s }) ∧
      d.blobs.SameContents s := by
  -- The store is another one after each file, and holds the same blobs.
  induction tree generalizing dir old dm disk d list with
  | nil =>
    obtain rfl := lists
    -- Nothing is left, so what was entered is the earlier manifest.
    rw [List.append_nil, Std.ExtTreeMap.toList_inj] at whole
    obtain ⟨entries⟩ := old
    subst whole
    exact ⟨d.blobs, rfl, .refl _⟩
  | leaf name value rest ih =>
    obtain ⟨later, orderedRest⟩ := ordered
    cases value with
    | link target =>
      obtain ⟨more, rfl, safe, listsRest⟩ := lists
      obtain ⟨entered, aboveRest⟩ := DirManifest.insert_top above later (.symlink target)
      exact ih works orderedRest _ aboveRest (by rw [whole, entered, List.append_assoc]; rfl)
        listsRest
    | file content =>
      obtain ⟨m, more, rfl, safe, describes, holds, listsRest⟩ := lists
      obtain ⟨entered, aboveRest⟩ := DirManifest.insert_top above later (.file m)
      let reader : Reader := ⟨content, (disk []).reads name⟩
      -- Each chunk is there already.
      have described : w.Describes d.blobs.addressing .file reader.rest m := describes
      obtain ⟨s, written, same⟩ := described.again holds.readable now
      obtain ⟨s', done, same'⟩ := ih (d := { d with blobs := s }) works orderedRest _ aboveRest
        (by rw [whole, entered, List.append_assoc]; rfl) (listsRest.mono same.grows)
      refine ⟨s', ?_, same.trans same'⟩
      have fine : (disk []).chunks name = fun _ => .ok () := funext ((works []).chunks name)
      unfold writeEntries
      rw [(works []).fileOpened name, fine, written]
      exact done
  | node name sub rest ihSub ih =>
    obtain ⟨later, orderedSub, orderedRest⟩ := ordered
    obtain ⟨addr, below, more, rfl, safe, read, listsSub, listsRest⟩ := lists
    obtain ⟨entered, aboveRest⟩ := DirManifest.insert_top above later (.dir addr name)
    -- The earlier manifest has the address of the directory below.
    have before : old.childAt name = some addr := by
      have entry : old.entries[name]? = some (.dir addr name) := by
        rw [← Std.ExtTreeMap.mem_toList_iff_getElem?_eq_some, whole]
        simp
      rw [DirManifest.childAt, entry]
    obtain ⟨s, written, same⟩ : ∃ s, t.asDirectory now (dir.child name) (disk (name :: []))
      sub (some addr) (fun w old d => t.writeEntries now sub w (dir.child name) old
          (fun path => disk (name :: path)) .empty d) d =
          (.ok addr, { d with blobs := s }) ∧ d.blobs.SameContents s :=
      asDirectory_again made (works (name :: [])) read listsSub
        (ihSub (fun path => works (name :: path)) orderedSub .empty
          (fun k present => absurd present Std.ExtTreeMap.not_mem_empty)
          (by rw [DirManifest.empty, OrdMap.toList_empty, List.nil_append]) listsSub)
    obtain ⟨s', done, same'⟩ := ih (d := { d with blobs := s }) works orderedRest _ aboveRest
      (by rw [whole, entered, List.append_assoc]; rfl) (listsRest.mono same.grows)
    refine ⟨s', ?_, same.trans same'⟩
    unfold writeEntries
    dsimp only
    rw [Option.bind_some, before, written]
    exact done

/--
Where the store holds a tree, writing it over its own address gives that address, and
stores nothing.
-/
theorem writeDirIncremental_again {src : Directory} {disk : List Bytes → DirDisk}
    (works : ∀ path, (disk path).Works) {d : Depot}
    (stores : t.Stores w d.blobs dir src.tree addr) :
    ∃ s, t.writeDirIncremental now dir src (some addr) disk d = (.ok addr, { d with blobs := s }) ∧
      d.blobs.SameContents s := by
  -- The top directory is found as it was written.
  obtain ⟨dm, read, lists⟩ := stores
  exact asDirectory_again made (works []) read lists
    (writeEntries_again made works src.ordered .empty
      (fun k present => absurd present Std.ExtTreeMap.not_mem_empty)
      (by rw [DirManifest.empty, OrdMap.toList_empty, List.nil_append]) lists)

end

section

variable {dotted : Bool}

/--
Where a store holds the same entries under two lists, both restore alike, wherever
and however that goes.
-/
theorem restoreEntries_alike {tree : DirTree} {dir : DirSecret} {list list' : List (Bytes × Entry)}
    (lists : t.Lists w s tree dir list) (lists' : t.Lists w s tree dir list') (depth : Nat)
    (disk : List Bytes → RestoreDisk) (dst : DirTree) :
    restoreEntries s dotted
        (fun name addr dirId there =>
          t.readDirTo s dotted depth (dir.child dirId) addr (fun path => disk (name :: path)) there)
        (disk []) list dst =
      restoreEntries s dotted
        (fun name addr dirId there =>
          t.readDirTo s dotted depth (dir.child dirId) addr (fun path => disk (name :: path)) there)
        (disk []) list' dst := by
  -- Induction over the tree.
  induction tree generalizing dir list list' depth disk dst with
  | nil =>
    obtain rfl := lists
    obtain rfl := lists'
    rfl
  | leaf name value rest ih =>
    cases value with
    | link target =>
      obtain ⟨more, rfl, _, later⟩ := lists
      obtain ⟨more', rfl, _, later'⟩ := lists'
      simp only [restoreEntries, ih later later']
    | file content =>
      obtain ⟨m, more, rfl, _, describes, _, later⟩ := lists
      obtain ⟨m', more', rfl, _, describes', _, later'⟩ := lists'
      -- Two manifests of one file are one manifest.
      obtain rfl := describes.unique describes'
      simp only [restoreEntries, ih later later']
  | node name sub rest ihSub ih =>
    obtain ⟨addr, dm, more, rfl, _, read, listsSub, later⟩ := lists
    obtain ⟨addr', dm', more', rfl, _, read', listsSub', later'⟩ := lists'
    -- The manifests below differ in nothing that is restored.
    have below (there : Option DirItem) :
        t.readDirTo s dotted depth (dir.child name) addr (fun path => disk (name :: path)) there =
          t.readDirTo s dotted depth (dir.child name) addr' (fun path => disk (name :: path))
            there := by
      cases depth with
      | zero => rfl
      | succ depth =>
        unfold readDirTo
        rw [readDirManifest_of read, readDirManifest_of read']
        cases (disk (name :: [])).fetched with
        | error e => rfl
        | ok u =>
          have entries :=
            fun dst => ihSub listsSub listsSub' depth (fun path => disk (name :: path)) dst
          simp only [except_mapError_ok, Except.map, except_ok_bind, entries]
    simp only [restoreEntries, below, ih later later']

/-- Two addresses under which a store holds one tree restore alike. -/
theorem Stores.restores_alike {addr' : Addr} (stores : t.Stores w s dir tree addr)
    (stores' : t.Stores w s dir tree addr') (depth : Nat) (disk : List Bytes → RestoreDisk)
    (there : Option DirItem) :
    t.readDirTo s dotted depth dir addr disk there =
      t.readDirTo s dotted depth dir addr' disk there := by
  -- Both manifests list the same tree.
  obtain ⟨dm, read, lists⟩ := stores
  obtain ⟨dm', read', lists'⟩ := stores'
  cases depth with
  | zero => rfl
  | succ depth =>
    unfold readDirTo
    rw [readDirManifest_of read, readDirManifest_of read']
    cases (disk []).fetched with
    | error e => rfl
    | ok u => simp only [except_mapError_ok, Except.map, except_ok_bind,
      restoreEntries_alike lists lists']

end

/--
Where nothing fails, the entries of a directory are restored above those that are there already.
-/
theorem restoreEntries_fresh (trusted : Cipher.Trusted) {tree : DirTree} (ordered : tree.Ordered)
    {dir : DirSecret} {list : List (Bytes × Entry)} (lists : t.Lists w s tree dir list)
    (depth : Nat) (deep : tree.height ≤ depth + 1) {disk : List Bytes → RestoreDisk}
    (works : ∀ path, (disk path).Works) (front : DirTree)
    (above : ∀ lower ∈ front.names, ∀ name ∈ tree.names, compare lower name = .lt) :
    restoreEntries s false
        (fun name addr dirId there =>
          t.readDirTo s false depth (dir.child dirId) addr (fun path => disk (name :: path)) there)
        (disk []) list front = .ok (front.append tree) := by
  -- What was restored so far is below the names that are left.
  induction tree generalizing dir list depth disk front with
  | nil =>
    obtain rfl := lists
    rw [NamedTree.append_nil]
    rfl
  | leaf name value rest ih =>
    obtain ⟨later, orderedRest⟩ := ordered
    have top : ∀ lower ∈ front.names, compare lower name = .lt :=
      fun lower member => above lower member name List.mem_cons_self
    -- The name is above all that is there, so nothing stands in its way.
    have free := NamedTree.find_above top
    have aboveRest (item : DirItem) := NamedTree.names_put_below top item
      (fun lower member n listed => above lower member n (List.mem_cons_of_mem _ listed)) later
    -- Putting the entry at the end is going on with the tree.
    have placed :
        (front.put name (.leaf value)).append rest = front.append (.leaf name value rest) := by
      rw [NamedTree.put_above top, NamedTree.append_assoc]
      rfl
    cases value with
    | link target =>
      obtain ⟨more, rfl, safe, listsRest⟩ := lists
      have rest_ := ih orderedRest listsRest depth deep works _ (aboveRest (.leaf (.link target)))
      simp only [restoreEntries, safe, except_mapError_ok, except_ok_bind, ensure_of,
        DirTree.unlink, free, DirTree.makeSymlink, ((works []).entry name).created, Except.map]
      rw [rest_, placed]
    | file content =>
      obtain ⟨m, more, rfl, safe, _, holds, listsRest⟩ := lists
      obtain ⟨n, read⟩ := holds.readObject trusted.opens ((works []).entry name).chunks
      have rest_ := ih orderedRest listsRest depth deep works _ (aboveRest (.leaf (.file content)))
      simp only [restoreEntries, safe, except_mapError_ok, except_ok_bind, ensure_of,
        DirTree.unlink, free, DirTree.create, ((works []).entry name).created, Except.map, read,
        NamedTree.put_put]
      rw [rest_, placed]
  | node name sub rest ihSub ih =>
    obtain ⟨later, orderedSub, orderedRest⟩ := ordered
    obtain ⟨addr, dm, more, rfl, safe, read, listsSub, listsRest⟩ := lists
    have top : ∀ lower ∈ front.names, compare lower name = .lt :=
      fun lower member => above lower member name List.mem_cons_self
    have free := NamedTree.find_above top
    rw [NamedTree.height] at deep
    -- One level of the depth is used up for the directory below.
    have below : t.readDirTo s false depth (dir.child name) addr (fun path => disk (name :: path))
        none = .ok sub := by
      have some_ := sub.height_pos
      obtain ⟨depth, rfl⟩ : ∃ k, depth = k + 1 := ⟨depth - 1, by omega⟩
      have entries :=
        ihSub orderedSub listsSub depth (by omega) (fun path => works (name :: path)) .nil
        (fun _ impossible => nomatch impossible)
      unfold readDirTo
      simp only [(works (name :: [])).fetched, read, except_mapError_ok, except_ok_bind,
        DirTree.createDirAll, (works (name :: [])).made, Except.map, entries]
      rfl
    have aboveRest := NamedTree.names_put_below top (.node sub)
      (fun lower member n listed => above lower member n (List.mem_cons_of_mem _ listed)) later
    have rest_ := ih orderedRest listsRest depth (by omega) works _ aboveRest
    have placed :
        (front.put name (.node sub)).append rest = front.append (.node name sub rest) := by
      rw [NamedTree.put_above top, NamedTree.append_assoc]
      rfl
    simp only [restoreEntries, safe, except_mapError_ok, except_ok_bind, ensure_of, DirTree.unlink,
      free, below]
    rw [rest_, placed]

/--
Where nothing fails, a stored tree is restored as it is into a directory that is new or empty.
-/
theorem Stores.restores (trusted : Cipher.Trusted) {src : Directory}
    (stores : t.Stores w s dir src.tree addr) {depth : Nat} (deep : src.tree.height ≤ depth)
    {disk : List Bytes → RestoreDisk} (works : ∀ path, (disk path).Works) {there : Option DirItem}
    (fresh : there = none ∨ there = some (.node .nil)) :
    t.readDirTo s false depth dir addr disk there = .ok src.tree := by
  -- The directory is made or used, and then its entries are restored.
  obtain ⟨dm, read, lists⟩ := stores
  have some_ := src.tree.height_pos
  obtain ⟨depth, rfl⟩ : ∃ k, depth = k + 1 := ⟨depth - 1, by omega⟩
  have entries := restoreEntries_fresh trusted src.ordered lists depth deep works .nil
    (fun _ impossible => nomatch impossible)
  -- A directory that is new is made, and one that is empty is used.
  have empty : DirTree.createDirAll (disk []) there = .ok .nil := by
    rcases fresh with rfl | rfl
    · rw [DirTree.createDirAll, (works []).made]
      rfl
    · rfl
  unfold readDirTo
  simp only [(works []).fetched, read, empty, except_mapError_ok, except_ok_bind, entries]
  rfl

/-- What is written was written by a writer. -/
theorem writer_of_write {src : Directory} {prev : Option Addr} {disk : List Bytes → DirDisk}
    {d : Depot} (wrote : (t.writeDirIncremental now dir src prev disk d).1 = .ok addr) :
    ∃ w, t.writer = .ok w := by
  -- Without a writer nothing is written.
  cases made : t.writer with
  | error e =>
    unfold writeDirIncremental asDirectory at wrote
    simp only [made] at wrote
    cases wrote
  | ok w => exact ⟨w, rfl⟩

/--
A directory written over any earlier version restores as one written afresh, which is as it was;
written over itself it keeps its address, and nothing is stored.
-/
theorem incremental_backup_is_full_backup (trusted : Cipher.Trusted) {src : Directory}
    {blobs : Set Bytes} (files : ∀ w, t.writer = .ok w → KnownFiles w blobs src.tree)
    (distinct : Set.InjOn s.addressing.addrOf blobs) (now now' : Timestamp) (prev : Option Addr)
    (disk disk' : List Bytes → DirDisk) (full incremental : Depot)
    (within : full.blobs.Within blobs) (within' : incremental.blobs.Within blobs)
    (known : ∀ blob ∈ (t.writeDir now dir src disk full).2.manifests, blob ∈ blobs)
    (known' : ∀ blob ∈ (t.writeDirIncremental now' dir src prev disk' incremental).2.manifests,
      blob ∈ blobs)
    {a b : Addr} (wrote : (t.writeDir now dir src disk full).1 = .ok a)
    (wrote' : (t.writeDirIncremental now' dir src prev disk' incremental).1 = .ok b)
    (grows : (t.writeDir now dir src disk full).2.blobs.Grows s)
    (grows' : (t.writeDirIncremental now' dir src prev disk' incremental).2.blobs.Grows s) :
    (∀ dotted depth restore there,
      t.readDirTo s dotted depth dir b restore there =
        t.readDirTo s dotted depth dir a restore there) ∧
    (∀ depth restore there, src.tree.height ≤ depth → (∀ path, (restore path).Works) →
      there = none ∨ there = some (.node .nil) →
        t.readDirTo s false depth dir b restore there = .ok src.tree) ∧
    ∀ now'' disk'' manifests, (∀ path, (disk'' path).Works) →
      ∃ u, t.writeDirIncremental now'' dir src (some b) disk'' ⟨s, manifests⟩ =
        (.ok b, ⟨u, manifests⟩) ∧
        s.SameContents u := by
  -- Both were written by one writer, into stores that grew into the same one.
  obtain ⟨w, made⟩ := writer_of_write wrote'
  have same : full.blobs.addressing = s.addressing :=
    ((writeDirIncremental_keeps src none disk full).blobs.trans grows).addressing.symm
  have same' : incremental.blobs.addressing = s.addressing :=
    ((writeDirIncremental_keeps src prev disk' incremental).blobs.trans grows').addressing.symm
  -- A fresh directory is one that is written over nothing.
  have stores : t.Stores w s dir src.tree a :=
    (writeDirIncremental_stores trusted made distinct (files w made) none disk ⟨within, same⟩ known
      wrote).mono grows
  have stores' : t.Stores w s dir src.tree b :=
    (writeDirIncremental_stores trusted made distinct (files w made) prev disk' ⟨within', same'⟩
      known' wrote').mono grows'
  refine ⟨?_, ?_, ?_⟩
  · exact fun dotted depth restore there => stores'.restores_alike stores depth restore there
  · exact fun depth restore there deep works fresh => stores'.restores trusted deep works fresh
  · intro now'' disk'' manifests works
    exact writeDirIncremental_again made works (d := ⟨s, manifests⟩) stores'

end TreeStore

end

section

open Concrete

/-- A stand-in for the derivation of keys. -/
local instance : Kdf where
  deriveKey context material := digest (asciiBytes context ++ material)

/-- A directory with a file and a link in it. -/
def firstTree : Directory :=
  ⟨.leaf [97] (.file [1, 2, 3]) (.leaf [98] (.link [99]) .nil), by decide⟩

/--
The same directory later: the file is a longer one, and the link has become a
directory with a link in it.
-/
def laterTree : Directory :=
  ⟨.leaf [97] (.file [1, 2, 3, 4, 5]) (.node [98] (.leaf [99] (.link [97]) .nil) .nil), by decide⟩

/-- A disk on which nothing fails, with nonces of one byte over and over. -/
def calmDir (nonce : UInt8) : DirDisk where
  previous := .ok ()
  opened := .ok ()
  order := id
  perm _ := .refl _
  listed _ := .ok ()
  typed _ := .ok ()
  linked _ := .ok ()
  fileOpened _ := .ok ()
  reads _ := []
  chunks _ _ := .ok ()
  nonce := some ⟨List.replicate nonceLen nonce, List.length_replicate⟩
  stored := .ok ()

/-- Nothing fails on a calm disk. -/
theorem calmDir_works (nonce : UInt8) : (calmDir nonce).Works :=
  ⟨rfl, rfl, fun _ => rfl, fun _ => rfl, fun _ => rfl, fun _ => rfl, fun _ _ => rfl⟩

/-- A disk on which nothing fails while a directory is restored. -/
def calmRestore : RestoreDisk :=
  ⟨.ok (), .ok (), ⟨"File exists"⟩, fun _ => ⟨.ok (), .ok (), .ok (), ⟨"File exists"⟩,
    fun _ => ⟨.ok (), .ok (), .ok (), none, .done⟩⟩⟩

/-- Nothing fails when restoring to a calm disk. -/
theorem calmRestore_works : calmRestore.Works := ⟨rfl, rfl, fun _ => ⟨rfl, rfl, rfl, fun _ => rfl⟩⟩

/-- A tree store that cuts files into chunks of four bytes. -/
def smallTreeStore : TreeStore := ⟨.convergent (FixedBytes.zero _), .none, .fixed 4⟩

/-- The directory that is backed up. -/
def homeDir : DirSecret := .root (FixedBytes.zero _)

/-- The first tree, written into an empty store. -/
def firstBackup : Except TreeFailure Addr × Depot :=
  smallTreeStore.writeDir 0 homeDir firstTree (fun _ => calmDir 1) ⟨.empty .content, []⟩

/-- The later tree, written afresh. -/
def fullBackup : Except TreeFailure Addr × Depot :=
  smallTreeStore.writeDir 0 homeDir laterTree (fun _ => calmDir 2) firstBackup.2

/-- The later tree, written over the first one. -/
def laterBackup : Except TreeFailure Addr × Depot :=
  smallTreeStore.writeDirIncremental 0 homeDir laterTree firstBackup.1.toOption (fun _ => calmDir 3)
    fullBackup.2

/-- Everything that is stored by then. -/
def backedUp : List Bytes :=
  laterBackup.2.blobs.files.listed.map BlobFile.content ++ laterBackup.2.manifests

/-- A store that grows into the last one holds nothing that is not there in the end. -/
theorem within_backedUp {s : BlobStore} (grows : s.Grows laterBackup.2.blobs) :
    s.Within {data | data ∈ backedUp} := by
  intro addr data held
  obtain ⟨file, filed, _, rfl⟩ := BlobStore.get_eq_ok.mp (grows.kept addr data held)
  exact List.mem_append_left _ (List.mem_map_of_mem (OrdMap.mem_listed.mpr ⟨addr, filed⟩))

/--
A changed tree is restored from what was written over the earlier one, and is written
once more for nothing.
-/
theorem changed_tree_is_backed_up : ∃ b, laterBackup.1 = .ok b ∧
    smallTreeStore.readDirTo laterBackup.2.blobs false 2 homeDir b (fun _ => calmRestore) none =
      .ok laterTree.tree ∧
    ∃ u, smallTreeStore.writeDirIncremental 0 homeDir laterTree (some b) (fun _ => calmDir 4)
          ⟨laterBackup.2.blobs, laterBackup.2.manifests⟩ =
        (.ok b, ⟨u, laterBackup.2.manifests⟩) ∧ laterBackup.2.blobs.SameContents u := by
  -- The two runs and the restoring are evaluated.
  have wrote {x : Except TreeFailure Addr} (ok : x.isOk = true) : ∃ addr, x = .ok addr := by
    cases x with
    | error f => cases ok
    | ok addr => exact ⟨addr, rfl⟩
  obtain ⟨a, full⟩ := wrote (x := fullBackup.1) (by decide +kernel)
  obtain ⟨b, later⟩ := wrote (x := laterBackup.1) (by decide +kernel)
  have kept : firstBackup.2.Keeps fullBackup.2 := by
    unfold fullBackup
    exact TreeStore.writeDirIncremental_keeps laterTree none (fun _ => calmDir 2) firstBackup.2
  have kept' : fullBackup.2.Keeps laterBackup.2 := by
    unfold laterBackup
    exact TreeStore.writeDirIncremental_keeps laterTree firstBackup.1.toOption (fun _ => calmDir 3)
      fullBackup.2
  have files (w : ObjectWriter) (made : smallTreeStore.writer = .ok w) :
      TreeStore.KnownFiles w {data | data ∈ backedUp} laterTree.tree := by
    obtain rfl :=
      Except.ok.inj ((fixedWriter_of_new
        (show (ChunkerConfig.fixed 4).validate = .ok () by decide)).symm.trans made)
    have known : ∀ plain ∈ (fixedWriter 4 (by decide)).chunker.split [1, 2, 3, 4, 5],
        (fixedWriter 4 (by decide)).Known {data | data ∈ backedUp}
          {data | data ∈ [[1, 2, 3, 4], [5]]} plain := by
      decide +kernel
    intro content member
    obtain rfl : content = [1, 2, 3, 4, 5] := by simpa [laterTree, NamedTree.leaves] using member
    exact ⟨fun plain cut padded framed => ⟨trivial, (known plain cut padded framed).2⟩, by decide⟩
  have distinct : Set.InjOn (Addressing.addrOf .content) {data | data ∈ backedUp} :=
    injOn_of_nodup (by decide +kernel)
  have addressing : laterBackup.2.blobs.addressing = .content := by decide +kernel
  have known : ∀ blob ∈ fullBackup.2.manifests, blob ∈ {data | data ∈ backedUp} :=
    fun blob member => List.mem_append_right _ (kept'.manifests blob member)
  have known' : ∀ blob ∈ laterBackup.2.manifests, blob ∈ {data | data ∈ backedUp} :=
    fun blob member => List.mem_append_right _ member
  have within := within_backedUp (kept.blobs.trans kept'.blobs)
  have within' := within_backedUp kept'.blobs
  -- From here on the runs are spelled out, but for the store that they end with.
  generalize is : laterBackup.2.blobs = s at addressing ⊢
  generalize laterBackup.2.manifests = manifests
  have same : laterBackup.2.blobs.Grows s := by
    rw [is]
    exact .refl s
  have grows : fullBackup.2.blobs.Grows s := kept'.blobs.trans same
  rw [laterBackup] at later known' same
  rw [fullBackup] at full known grows
  rw [← addressing] at distinct
  obtain ⟨_, restores, again⟩ :=
    TreeStore.incremental_backup_is_full_backup trusted files distinct 0 0 _ _ _ _ _ within
    within' known known' full later grows same
  exact ⟨b, later, restores 2 _ none (by decide) (fun _ => calmRestore_works) (.inl rfl),
    again 0 _ manifests fun _ => calmDir_works 4⟩

end

end NasTools
