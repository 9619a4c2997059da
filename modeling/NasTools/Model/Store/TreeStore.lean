import NasTools.Model.Store.Tree

/-! Writing a directory tree over an earlier version of it, and restoring one into a directory. -/

namespace NasTools

/-- A file with its content, or a link with its target. -/
inductive Leaf where
  | file (content : Bytes)
  | link (target : Bytes)
deriving DecidableEq

/-- A directory on disk, with everything below it. -/
abbrev DirTree := NamedTree Bytes Leaf

/-- What is at a path on disk. -/
abbrev DirItem := NamedTree.Item Bytes Leaf

/-- A directory as file systems have them: no name twice. -/
structure Directory where
  tree : DirTree
  ordered : tree.Ordered

/-- What the listing of a directory says of an entry. -/
inductive FileType where
  | file
  | symlink
  | dir
deriving DecidableEq

/-- A directory as it is listed. -/
def DirTree.listing : DirTree → List (Bytes × FileType)
  | .nil => []
  | .leaf name (.file _) rest => (name, .file) :: DirTree.listing rest
  | .leaf name (.link _) rest => (name, .symlink) :: DirTree.listing rest
  | .node name _ rest => (name, .dir) :: DirTree.listing rest

/-- How tree stores write: the mode at rest, and how files are cut and padded. -/
structure TreeStore where
  sealer : Sealer
  profile : PaddingProfile
  cfg : ChunkerConfig

/-- A tree store whose files are cut as its profile asks. -/
def TreeStore.new (sealer : Sealer) (profile : PaddingProfile) : TreeStore :=
  ⟨sealer, profile, .forProfile profile .default⟩

/-- What writes the files of a tree. -/
def TreeStore.writer (t : TreeStore) : Except ObjectError ObjectWriter :=
  ObjectWriter.new t.sealer t.profile t.cfg

/-- What writing one directory finds outside its own computation. -/
structure DirDisk where
  previous : Disk
  opened : Disk
  -- File systems list a directory in any order.
  order : List (Bytes × FileType) → List (Bytes × FileType)
  perm : ∀ listing, (order listing).Perm listing
  listed : Bytes → Disk
  typed : Bytes → Disk
  linked : Bytes → Disk
  fileOpened : Bytes → Disk
  -- How much each read of a file delivers, and how each of its chunks is stored.
  reads : Bytes → List Nat
  chunks : Bytes → Nat → Disk
  nonce : Option (FixedBytes nonceLen)
  stored : Disk

/-- How the writing of a tree ends where it does not succeed. -/
inductive TreeFailure where
  | error (source : TreeError)
  | panic
deriving DecidableEq

/-- A failure to write a file, as a failure to write the tree it is in. -/
def TreeFailure.ofObject : WriteFailure → TreeFailure
  | .error e => .error (.object e)
  | .panic => .panic

/-- The names and kinds of a directory's entries, before any of them is read. -/
def DirDisk.scan (disk : DirDisk) (tree : DirTree) : Except TreeError Unit := do
  disk.opened.mapError .io
  (disk.order tree.listing).forM fun entry => do
    (disk.listed entry.1).mapError .io
    safeName entry.1
    (disk.typed entry.1).mapError .io
    if entry.2 = .symlink then (disk.linked entry.1).mapError .io else .ok ()

section

variable [Crypto]

/-- The blobs, and the directory manifests that were handed over to be stored among them so far. -/
structure Depot where
  blobs : BlobStore
  manifests : List Bytes

variable [Cipher] [Kdf]

namespace TreeStore

/-- Read a directory manifest back. -/
def readDirManifest (t : TreeStore) (s : BlobStore) (disk : Disk) (dir : DirSecret) (addr : Addr) :
    Except TreeError DirManifest := do
  disk.mapError fun e => .store (.io e)
  let stored ← (s.get addr).mapError .store
  match t.sealer with
  | .convergent _ => do
    let plain ← (openRandom (manifestKey dir) stored dirAad).mapError .crypto
    DirManifest.decode plain
  -- Plaintext at rest: nothing to open, and no key needed to read.
  | .plaintext _ => DirManifest.decode stored

/-- A directory manifest as it lies in the store. -/
def protectManifest (t : TreeStore) (dir : DirSecret) (nonce : Option (FixedBytes nonceLen))
    (plain : Bytes) :
    Except CryptoError Bytes :=
  match t.sealer with
  | .convergent _ => sealRandom (manifestKey dir) nonce plain dirAad
  | .plaintext _ => .ok plain

/-- Store a directory manifest. -/
def putDirManifest (t : TreeStore) (disk : DirDisk) (now : Timestamp) (dir : DirSecret)
    (plain : Bytes) (d : Depot) :
    Except TreeError Addr × Depot :=
  match t.protectManifest dir disk.nonce plain with
  | .error e => (.error (.crypto e), d)
  | .ok sealed =>
    let (result, blobs) := d.blobs.put disk.stored now sealed
    (result.mapError .store, ⟨blobs, d.manifests ++ [sealed]⟩)

/--
Write a directory around its entries: read what was there before, and keep that where
nothing changed.
-/
def asDirectory (t : TreeStore) (now : Timestamp) (dir : DirSecret) (disk : DirDisk)
    (tree : DirTree) (prev : Option Addr) (entries : ObjectWriter → Option DirManifest → Depot →
      Except TreeFailure DirManifest × Depot) (d : Depot) :
    Except TreeFailure Addr × Depot :=
  -- A previous manifest that cannot be read is as good as none.
  let old := prev.bind fun addr => (t.readDirManifest d.blobs disk.previous dir addr).toOption
  match t.writer with
  | .error e => (.error (.error (.object e)), d)
  | .ok w =>
    match disk.scan tree with
    | .error e => (.error (.error e), d)
    | .ok () =>
      match entries w old d with
      | (.error f, d) => (.error f, d)
      | (.ok dm, d) =>
        match (if old = some dm then prev else none) with
        | some addr => (.ok addr, d)
        | none =>
          match dm.encode with
          | .error e => (.error (.error e), d)
          | .ok plain =>
            let (result, d) := t.putDirManifest disk now dir plain d
            (result.mapError .error, d)

variable [GearTable]

/--
Write the entries of a directory in the order of their names, and enter each into its manifest.
-/
def writeEntries (t : TreeStore) (now : Timestamp) :
    DirTree → (w : ObjectWriter) → (dir : DirSecret) →
    (old : Option DirManifest) → (disk : List Bytes → DirDisk) → DirManifest → Depot →
    Except TreeFailure DirManifest × Depot
  | .nil, _, _, _, _, dm, d => (.ok dm, d)
  -- A link is stored as its target, and never followed.
  | .leaf name (.link target) rest, w, dir, old, disk, dm, d =>
    t.writeEntries now rest w dir old disk (dm.insert name (.symlink target)) d
  | .leaf name (.file content) rest, w, dir, old, disk, dm, d =>
    match (disk []).fileOpened name with
    | .error e => (.error (.error (.io e)), d)
    | .ok () =>
      match w.write d.blobs ((disk []).chunks name) now .file ⟨content, (disk []).reads name⟩ with
      | (.error f, blobs) => (.error (.ofObject f), { d with blobs })
      | (.ok m, blobs) => t.writeEntries now rest w dir old disk (dm.insert name (.file m))
        { d with blobs }
  | .node name sub rest, w, dir, old, disk, dm, d =>
    let below (path : List Bytes) : DirDisk := disk (name :: path)
    let entries (w : ObjectWriter) (old : Option DirManifest) (d : Depot) :=
      t.writeEntries now sub w (dir.child name) old below .empty d
    match t.asDirectory now (dir.child name) (below []) sub (old.bind (·.childAt name))
      entries d with
    | (.error f, d) => (.error f, d)
    | (.ok addr, d) => t.writeEntries now rest w dir old disk (dm.insert name (.dir addr name)) d

/-- Store a directory, reusing what is stored under an earlier address where nothing changed. -/
def writeDirIncremental (t : TreeStore) (now : Timestamp) (dir : DirSecret) (src : Directory)
    (prev : Option Addr) (disk : List Bytes → DirDisk) (d : Depot) :
    Except TreeFailure Addr × Depot :=
  t.asDirectory now dir (disk []) src.tree prev
    (fun w old d => t.writeEntries now src.tree w dir old disk .empty d) d

/-- Store a directory with all that is below it. -/
def writeDir (t : TreeStore) (now : Timestamp) (dir : DirSecret) (src : Directory)
    (disk : List Bytes → DirDisk) (d : Depot) : Except TreeFailure Addr × Depot :=
  t.writeDirIncremental now dir src none disk d

end TreeStore

end

/-- What restoring one name finds outside its own computation. -/
structure EntryDisk where
  unlinked : Disk
  replaced : Disk
  created : Disk
  -- What the file system says where something of another kind is in the way.
  conflict : IoError
  chunks : Nat → ChunkDisk

/-- What restoring one directory finds outside its own computation. -/
structure RestoreDisk where
  fetched : Disk
  made : Disk
  conflict : IoError
  entry : Bytes → EntryDisk

/-- How a restoring ends where it does not succeed. -/
inductive RestoreFailure where
  | error (source : TreeError)
  -- There are more levels of directories than were asked for.
  | deeper
deriving DecidableEq

namespace DirTree

/-- Make sure that there is a directory at a path, where there may be something already. -/
def createDirAll (disk : RestoreDisk) : Option DirItem → Except IoError DirTree
  | none => disk.made.map fun _ => .nil
  | some (.node there) => .ok there
  | some (.leaf _) => .error disk.conflict

/-- Remove a link from a name, as whatever is written there would end up where it points. -/
def unlink (disk : EntryDisk) (name : Bytes) (dst : DirTree) : Except IoError DirTree :=
  match dst.find name with
  | some (.leaf (.link _)) => disk.unlinked.map fun _ => dst.erase name
  | _ => .ok dst

/-- Create a file, or empty the one that is there. -/
def create (disk : EntryDisk) (name : Bytes) (dst : DirTree) : Except IoError DirTree :=
  match dst.find name with
  | some (.node _) => .error disk.conflict
  | _ => disk.created.map fun _ => dst.put name (.leaf (.file []))

/-- Create a link; it replaces a regular file, and no directory. -/
def makeSymlink (disk : EntryDisk) (name target : Bytes) (dst : DirTree) : Except IoError DirTree :=
  match dst.find name with
  | some (.leaf (.file _)) => do
    disk.replaced
    disk.created
    return (dst.erase name).put name (.leaf (.link target))
  | some _ => .error disk.conflict
  | none => disk.created.map fun _ => dst.put name (.leaf (.link target))

end DirTree

section

variable [Crypto] [Cipher]

/--
Restore the entries of a directory, one after the other; `below` restores a directory at a name.
-/
def restoreEntries (s : BlobStore) (dotted : Bool)
    (below : (name : Bytes) → Addr → (dirId : Bytes) → Option DirItem →
      Except RestoreFailure DirTree)
    (disk : RestoreDisk) : List (Bytes × Entry) → DirTree → Except RestoreFailure DirTree
  | [], dst => .ok dst
  | (name, e) :: rest, dst => do
    let luck := disk.entry name
    let io {A : Type} (x : Except IoError A) : Except RestoreFailure A :=
  x.mapError fun e => .error (.io e)
    (safeName name).mapError .error
    -- No path with `..` in it is written to, wherever that stands in it.
    ensure (dotted = false) (.error (.unsafeName (shownName name)))
    let dst ← io (dst.unlink luck name)
    let dst ← match e with
      | .file m => do
        let dst ← io (dst.create luck name)
        let (_, content) ← (s.readObject m luck.chunks).mapError fun e => .error (.object e)
        .ok (dst.put name (.leaf (.file content)))
      | .dir addr dirId => do
        let sub ← below name addr dirId (dst.find name)
        .ok (dst.put name (.node sub))
      | .symlink target => io (dst.makeSymlink luck name target)
    restoreEntries s dotted below disk rest dst

variable [Kdf]

/--
Restore a stored tree into a directory, which may be there already, down to some depth.

Whether the path of the destination has `..` in it does not change on the way down.
-/
def TreeStore.readDirTo (t : TreeStore) (s : BlobStore) (dotted : Bool) :
    (depth : Nat) → DirSecret → Addr → (disk : List Bytes → RestoreDisk) → Option DirItem →
      Except RestoreFailure DirTree
  | 0, _, _, _, _ => .error .deeper
  | depth + 1, dir, addr, disk, there => do
    let dm ← (t.readDirManifest s (disk []).fetched dir addr).mapError .error
    let dst ← (DirTree.createDirAll (disk []) there).mapError fun e => .error (.io e)
    restoreEntries s dotted
      (fun name addr dirId there => t.readDirTo s dotted depth (dir.child dirId) addr
        (fun path => disk (name :: path)) there)
      (disk []) dm.entries.toList dst

end

end NasTools
