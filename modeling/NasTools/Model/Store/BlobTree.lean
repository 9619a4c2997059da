import NasTools.Lib.Links
import NasTools.Lib.Lossy
import NasTools.Model.Core.HexAddr
import NasTools.Model.Store.Blobs

/-!
The blob store as the files it is kept in: what storing and reading make of anything
that can stand there.

A file can have several names, and a name can be a link, so that writing under one name can change
what is read under another.
-/

namespace NasTools

open Links (Named)

/--
The path of a directory: a shard, the one that new blobs are written in, or one beside the store.
-/
inductive DirPath where
  | shard (name : Bytes)
  | tmp
  | other (k : Nat)
deriving DecidableEq

/-- A name in a directory. -/
structure Place where
  dir : DirPath
  name : Bytes
deriving DecidableEq

/-- What stands under a name that is no link. -/
inductive BlobThing where
  -- One of the files, which can have other names.
  | file (k : Nat)
  | folder (size : UInt64) (modified : Timestamp)
  -- Neither a file nor a directory, such as a socket, which cannot be opened.
  | special (size : UInt64) (modified : Timestamp)

/-- A name as its directory has it; where a link leads depends on the directory it is in. -/
abbrev DirName := Named (DirPath → Place) BlobThing

/-- What stands at the path of a directory. -/
inductive DirEntry where
  -- A directory, with whether it can be gone into.
  | folder (opens : Disk) (names : OrdMap Bytes DirName)
  -- A link to a directory; one to another link counts as one to where that leads.
  | link (target : DirPath)
  | other

/-- A file, with whether it can be opened to be read, and to be written or touched. -/
structure BlobNode where
  file : BlobFile
  reads : Disk
  touches : Disk

/-- How the steps of storing a blob go. -/
structure PutLuck where
  createDir : Disk
  write : Writing
  rename : Disk
  removeTemp : Disk

/-- What the system reports for an operation that does not go with what it finds. -/
def notADirectory : IoError := ⟨"Not a directory (os error 20)"⟩

def isADirectory : IoError := ⟨"Is a directory (os error 21)"⟩

def alreadyExists : IoError := ⟨"File exists (os error 17)"⟩

def noSuchFile : IoError := ⟨"No such file or directory (os error 2)"⟩

def noSuchDevice : IoError := ⟨"No such device or address (os error 6)"⟩

def tooManyLinks : IoError := ⟨"Too many levels of symbolic links (os error 40)"⟩

/-- How many names a chain can have, the last one included. -/
def chainLimit : Nat := 41

/-- The directories of a blob store and the files in them, and the process that has it open. -/
structure BlobTree where
  addressing : Addressing
  shards : OrdMap Bytes DirEntry
  tmp : Option DirEntry
  others : OrdMap Nat DirEntry
  files : List BlobNode
  pid : UInt32
  seq : UInt64

namespace BlobTree

/-- What stands at the path of a directory. -/
def dir (t : BlobTree) : DirPath → Option DirEntry
  | .shard name => t.shards[name]?
  | .tmp => t.tmp
  | .other k => t.others[k]?

/-- The tree with something else at the path of a directory. -/
def setDir (t : BlobTree) (path : DirPath) (entry : DirEntry) : BlobTree :=
  match path with
  | .shard name => { t with shards := t.shards.insert name entry }
  | .tmp => { t with tmp := some entry }
  | .other k => { t with others := t.others.insert k entry }

/-- A name in the directory that its path leads to. -/
def real (t : BlobTree) (p : Place) : Place :=
  match t.dir p.dir with
  | some (.link target) => ⟨target, p.name⟩
  | _ => p

/-- Look at a name in a directory, without following it. -/
def look (t : BlobTree) (p : Place) : Except IoError (Option (Named Place BlobThing)) :=
  match t.dir p.dir with
  | none => .ok none
  | some .other => .error notADirectory
  -- What leads to a link leads nowhere, or in a circle.
  | some (.link _) => .error tooManyLinks
  | some (.folder opens names) => do
    opens
    return names[p.name]?.map (.map fun leads => t.real (leads p.dir))

/-- Where the path of an address leads, behind every link to a directory. -/
def path (t : BlobTree) (addr : Addr) : Place := t.real ⟨.shard addr.shard.1, addr.shard.2⟩

/-- The place of the file that the next blob is written in. -/
def temp (t : BlobTree) : Place :=
  t.real ⟨.tmp, textBytes
    (Nat.toDigits 10 t.pid.toNat ++ '.' :: Nat.toDigits 10 t.seq.toNat ++ ".tmp".toList)⟩

/-- The place that a name leads to, behind every link. -/
def follow (t : BlobTree) (p : Place) : Except IoError Place :=
  Links.follow t.look tooManyLinks chainLimit p

/-- What a name leads to, behind every link. -/
def resolve (t : BlobTree) (p : Place) : Except IoError (Option BlobThing) :=
  Links.resolve t.look tooManyLinks chainLimit p

/-- Whether there is something at the path of an address. -/
def exists_ (t : BlobTree) (addr : Addr) : Bool :=
  match t.resolve (t.path addr) with
  | .ok (some _) => true
  | _ => false

/-- Read one of the files. -/
def readFile (t : BlobTree) (k : Nat) : Except (Option IoError) Bytes :=
  match t.files[k]? with
  | none => .error none
  | some node => (node.reads.map fun _ => node.file.content).mapError some

/-- Read the file at the path of an address. -/
def read (t : BlobTree) (addr : Addr) : Except (Option IoError) Bytes :=
  match t.resolve (t.path addr) with
  | .error e => .error (some e)
  -- Nothing there is told apart from everything else.
  | .ok none => .error none
  | .ok (some (.file k)) => t.readFile k
  | .ok (some (.folder _ _)) => .error (some isADirectory)
  | .ok (some (.special _ _)) => .error (some noSuchDevice)

/-- Open one of the files to write to it. -/
def openFile (t : BlobTree) (k : Nat) : Disk :=
  match t.files[k]? with
  | none => .error noSuchFile
  | some node => node.touches

/-- A directory with something else under a name, or nothing. -/
def enter (t : BlobTree) (p : Place) (found : Option DirName) : BlobTree :=
  match t.dir p.dir with
  | some (.folder opens names) =>
    t.setDir p.dir (.folder opens (names.alter p.name fun _ => found))
  | _ => t

/-- One of the files with something else in it. -/
def fill (t : BlobTree) (k : Nat) (f : BlobFile) : BlobTree :=
  { t with files := t.files.modify k fun node => { node with file := f } }

/-- One of the files with another time. -/
def touchFile (t : BlobTree) (k : Nat) (now : Timestamp) : BlobTree :=
  { t with files := t.files.modify k fun node => { node with file.modified := now } }

/-- A new file under a name. -/
def create (t : BlobTree) (p : Place) (f : BlobFile) : BlobTree :=
  BlobTree.enter { t with files := t.files ++ [⟨f, .ok (), .ok ()⟩] } p
    (some (.thing (.file t.files.length)))

/-- Make sure that there is a directory for an address. -/
def createShard (t : BlobTree) (luck : Disk) (addr : Addr) : Except IoError BlobTree :=
  match t.dir (t.path addr).dir with
  | some (.folder _ _) => .ok t
  | _ =>
    match t.dir (.shard addr.shard.1) with
    | some _ => .error alreadyExists
    | none => luck.map fun _ => t.setDir (.shard addr.shard.1) (.folder (.ok ()) ∅)

/--
Write a file in place: what is behind every link is overwritten, and created where nothing is.
-/
def write (t : BlobTree) (luck : Writing) (now : Timestamp) (p : Place) (data : Bytes) :
    Disk × BlobTree :=
  match t.follow p with
  | .error e => (.error e, t)
  | .ok p =>
    match t.look p with
    | .error e => (.error e, t)
    | .ok (some (.thing (.file k))) =>
      match t.openFile k, luck.remains data with
      | .error e, _ => (.error e, t)
      | .ok (), none => (luck.report, t)
      | .ok (), some left => (luck.report, t.fill k ⟨left, now⟩)
    | .ok (some (.thing (.folder _ _))) => (.error isADirectory, t)
    | .ok (some (.thing (.special _ _))) => (.error noSuchDevice, t)
    -- A chain that ended has no link there.
    | .ok (some (.link _)) => (.error tooManyLinks, t)
    | .ok none =>
      match t.dir p.dir, luck.remains data with
      | none, _ => (.error noSuchFile, t)
      | some _, none => (luck.report, t)
      | some _, some left => (luck.report, t.create p ⟨left, now⟩)

/-- The name itself, as its directory has it. -/
def nameAt (t : BlobTree) (p : Place) : Option DirName :=
  match t.dir p.dir with
  | some (.folder (.ok ()) names) => names[p.name]?
  | _ => none

/-- Whether what two names have is one file. -/
def sameFile : Named Place BlobThing → Option (Named Place BlobThing) → Bool
  | .thing (.file k), some (.thing (.file l)) => k == l
  | _, _ => false

/-- Move a name, which is that of a file or a link, in place of another one. -/
def rename (t : BlobTree) (luck : Disk) (old new : Place) : Except IoError BlobTree := do
  let moved ← okOr (← t.look old) noSuchFile
  ensure (t.dir new.dir).isSome noSuchFile
  match ← t.look new with
  | some (.thing (.folder _ _)) => throw isADirectory
  | there =>
    luck
    -- Two names of one file are left as they are.
    return if sameFile moved there then t else (t.enter new (t.nameAt old)).enter old none

/-- Remove a name, where that is possible. -/
def removeTemp (t : BlobTree) (luck : Disk) (p : Place) : BlobTree :=
  match t.look p, luck with
  | .ok (some (.thing (.folder _ _))), _ => t
  | .ok (some _), .ok () => t.enter p none
  | _, _ => t

/-- Set the time of a file to now. -/
def touchPath (t : BlobTree) (now : Timestamp) (addr : Addr) : Except StoreError Unit × BlobTree :=
  match t.resolve (t.path addr) with
  | .error e => (.error (.io e), t)
  | .ok none => (.error (.io noSuchFile), t)
  | .ok (some (.folder _ _)) => (.error (.io isADirectory), t)
  | .ok (some (.special _ _)) => (.error (.io noSuchDevice), t)
  | .ok (some (.file k)) =>
    match t.openFile k with
    | .error e => (.error (.io e), t)
    | .ok () => (.ok (), t.touchFile k now)

/-- Write a blob under a name of its own, and move it to its address. -/
def install (t : BlobTree) (luck : PutLuck) (now : Timestamp) (temp : Place) (addr : Addr)
    (data : Bytes) :
    Except StoreError Addr × BlobTree :=
  match t.write luck.write now temp data with
  | (.error e, t) => (.error (.io e), t)
  | (.ok (), t) =>
    match t.rename luck.rename temp (t.path addr) with
    | .ok t => (.ok addr, t)
    | .error e => (.error (.io e), t.removeTemp luck.removeTemp temp)

/--
Write a blob under its address, which a file that cannot be read or is corrupt is replaced by.
-/
def rewrite (t : BlobTree) (luck : PutLuck) (now : Timestamp) (addr : Addr) (data : Bytes) :
    Except StoreError Addr × BlobTree :=
  match t.createShard luck.createDir addr with
  | .error e => (.error (.io e), t)
  | .ok t => install { t with seq := t.seq + 1 } luck now t.temp addr data

variable [Crypto]

/-- Store some bytes, or touch what is already there. -/
def put (t : BlobTree) (luck : PutLuck) (now : Timestamp) (data : Bytes) :
    Except StoreError Addr × BlobTree :=
  let addr := t.addressing.addrOf data
  match t.exists_ addr, t.read addr with
  | true, .ok existing =>
    if t.addressing.verifies addr existing then
      match t.touchPath now addr with
      | (.error e, t) => (.error e, t)
      | (.ok (), t) => (.ok addr, t)
    else t.rewrite luck now addr data
  | _, _ => t.rewrite luck now addr data

/-- Read the bytes under an address, re-hashing them on the way. -/
def get (t : BlobTree) (addr : Addr) : Except StoreError Bytes :=
  match t.read addr with
  | .error none => .error (.missing addr)
  | .error (some e) => .error (.io e)
  | .ok data =>
    if t.addressing.verifies addr data then .ok data
    else .error (.corrupt addr (t.addressing.addrOf data))

variable {t u : BlobTree} {p q : Place} {addr : Addr} {k : Nat} {data : Bytes}

/-- What a read gives back: bytes that can be read at the path, and belong under the address. -/
theorem get_eq_ok :
    t.get addr = .ok data ↔ t.read addr = .ok data ∧ t.addressing.addrOf data = addr := by
  -- Only bytes that were read are compared with the address.
  unfold get
  match t.read addr with
  | .error none => simp
  | .error (some e) => simp
  | .ok found =>
    simp only [Addressing.verifies, beq_iff_eq, Except.ok.injEq]
    constructor
    · intro given
      split at given
      · rename_i right
        obtain rfl := Except.ok.inj given
        exact ⟨rfl, right⟩
      · cases given
    · rintro ⟨rfl, right⟩
      rw [if_pos right]

/-- A read depends on what can be read at the path alone. -/
theorem get_congr (addressing : u.addressing = t.addressing) (same : u.read addr = t.read addr) :
    u.get addr = t.get addr := by
  unfold get
  rw [same, addressing]

section

omit [Crypto]

/-- What can be read is there. -/
theorem exists_of_read (held : t.read addr = .ok data) : t.exists_ addr = true := by
  -- Only a file can be read.
  unfold read at held
  unfold exists_
  split at held <;> simp_all

/-- There is a directory for a name, which can be gone into. -/
def Stands (t : BlobTree) (p : Place) : Prop := ∃ names, t.dir p.dir = some (.folder (.ok ()) names)

/-- At the path of a directory is what was put there, and nothing else has changed. -/
theorem dir_setDir {path other : DirPath} {entry : DirEntry} :
    (t.setDir path entry).dir other = if other = path then some entry else t.dir other := by
  -- The two paths are of one kind or not.
  rw [if_congr eq_comm rfl rfl]
  cases path <;> cases other <;> simp [setDir, dir, Std.ExtTreeMap.getElem?_insert]

/-- Where paths lead depends on the links between directories alone. -/
theorem real_congr (links : ∀ path target, u.dir path = some (.link target) ↔
      t.dir path = some (.link target)) :
    u.real = t.real := by
  -- Where a path leads depends only on which directories are links.
  funext p
  unfold real
  split
  · rename_i target linked
    rw [(links _ _).mp linked]
  · rename_i plain
    split
    · rename_i target linked
      exact absurd ((links _ _).mpr linked) (plain target)
    · rfl

/-- In a directory that can be gone into, a name is looked up. -/
theorem look_eq {names : OrdMap Bytes DirName}
    (stands : t.dir p.dir = some (.folder (.ok ()) names)) :
    t.look p = .ok (names[p.name]?.map (.map fun leads => t.real (leads p.dir))) := by
  rw [look, stands]
  rfl

/-- What is found at a name stands in a directory. -/
theorem Stands.of_look {found : Named Place BlobThing} (seen : t.look p = .ok (some found)) :
    t.Stands p := by
  -- In every other case nothing is found.
  unfold look at seen
  split at seen
  · cases seen
  · cases seen
  · cases seen
  · rename_i opens names filed
    cases opens with
    | error e => cases seen
    | ok u => exact ⟨names, filed⟩

/-- Where there is a directory and it can be looked into, it can be gone into. -/
theorem Stands.of_dir {found : Option (Named Place BlobThing)} (seen : t.look p = .ok found)
    (there : (t.dir p.dir).isSome) : t.Stands p := by
  -- Looking fails in a directory that is shut, linked or none.
  obtain ⟨entry, filed⟩ := Option.isSome_iff_exists.mp there
  rw [look, filed] at seen
  match entry with
  | .other => cases seen
  | .link _ => cases seen
  | .folder (.error _) _ => cases seen
  | .folder (.ok ()) names => exact ⟨names, filed⟩

/-- A directory stays a directory when a name in it changes, so a link is where one was. -/
theorem dir_enter_link {found : Option DirName} {path target : DirPath} :
    (t.enter p found).dir path = some (.link target) ↔ t.dir path = some (.link target) := by
  -- Entering a name changes a directory that is no link, and it stays none.
  unfold enter
  split
  · rename_i opens names filed
    rw [dir_setDir]
    split
    · rename_i same
      rw [same, filed]
      simp
    · rfl
  · rfl

/-- Under one name something else is found, and nothing else changes. -/
theorem look_enter (stands : t.Stands p) (found : Option DirName) :
    (t.enter p found).real = t.real ∧
      (t.enter p found).look =
        Function.update t.look p (.ok (found.map (.map fun leads => t.real (leads p.dir)))) := by
  -- Only the directory that was entered changes, and in it only the name.
  have real : (t.enter p found).real = t.real := real_congr fun _ _ => dir_enter_link
  refine ⟨real, ?_⟩
  obtain ⟨names, filed⟩ := stands
  have entered :
      t.enter p found = t.setDir p.dir (.folder (.ok ()) (names.alter p.name fun _ => found)) := by
    rw [enter, filed]
  funext q
  by_cases same : q.dir = p.dir
  · have there : (t.enter p found).dir q.dir =
        some (.folder (.ok ()) (names.alter p.name fun _ => found)) := by
      rw [entered, dir_setDir, if_pos same]
    rw [look_eq there, real, Std.ExtTreeMap.getElem?_alter]
    by_cases here : p.name = q.name
    · obtain rfl : q = p := by
        cases p
        cases q
        simp_all
      simp
    · have apart : q ≠ p := by
        rintro rfl
        exact here rfl
      rw [Function.update_of_ne apart, look_eq (same ▸ filed)]
      simp [here]
  · have apart : q ≠ p := by
      rintro rfl
      exact same rfl
    rw [Function.update_of_ne apart, look, look, entered, dir_setDir, if_neg same, ← entered, real]

/-- What stays as it is when a name changes. -/
@[simp] theorem enter_files {found : Option DirName} : (t.enter p found).files = t.files := by
  unfold enter setDir
  split
  · split <;> rfl
  · rfl

/-- Entering a name leaves the addressing alone. -/
@[simp] theorem enter_addressing {found : Option DirName} :
    (t.enter p found).addressing = t.addressing := by
  unfold enter setDir
  split
  · split <;> rfl
  · rfl

/-- A name that is found is the one its directory has. -/
theorem nameAt_file (seen : t.look p = .ok (some (.thing (.file k)))) :
    t.nameAt p = some (.thing (.file k)) := by
  -- A file is looked up as it is named.
  obtain ⟨names, filed⟩ := Stands.of_look seen
  rw [look_eq filed] at seen
  rw [nameAt, filed]
  match entry : names[p.name]? with
  | none => simp [entry] at seen
  | some (.link leads) => simp [entry, Named.map] at seen
  | some (.thing x) => simpa [entry, Named.map] using seen

/-- No file is read under a number that no file has. -/
def Numbered (t : BlobTree) : Prop :=
  ∀ p k, t.look p = .ok (some (.thing (.file k))) → k < t.files.length

end

section

omit [Crypto]

/-- A directory stays one when a name in one has changed. -/
theorem Stands.enter (stands : t.Stands q) {found : Option DirName} :
    (t.enter p found).Stands q := by
  -- The directory that was entered still opens, and the others are as they were.
  obtain ⟨names, filed⟩ := stands
  unfold BlobTree.enter
  split
  · rename_i opens others there
    by_cases same : q.dir = p.dir
    · rw [same, there] at filed
      cases filed
      exact ⟨_, by rw [dir_setDir, if_pos same]⟩
    · exact ⟨names, by rw [dir_setDir, if_neg same, filed]⟩
  · exact ⟨names, filed⟩

/-- A name that its directory has for a file is found as that file. -/
theorem look_of_nameAt (named : t.nameAt p = some (.thing (.file k))) :
    t.look p = .ok (some (.thing (.file k))) := by
  -- A name in an open directory is looked up.
  unfold nameAt at named
  split at named
  · rename_i names filed
    rw [look_eq filed, named]
    rfl
  · cases named

/-- Under a name of a file there is one, when there was one under every name before. -/
theorem Numbered.enter (numbered : t.Numbered) (stands : t.Stands p) {found : Option DirName}
    (there : ∀ k, found = some (.thing (.file k)) → k < t.files.length) :
      (t.enter p found).Numbered := by
  -- The name that was entered leads to a file there is, and the others lead where they did.
  intro q k seen
  rw [enter_files]
  rw [(look_enter stands found).2] at seen
  by_cases here : q = p
  · subst here
    rw [Function.update_self] at seen
    apply there
    match found with
    | none => cases seen
    | some (.link _) => cases seen
    | some (.thing x) => simpa [Named.map] using seen
  · rw [Function.update_of_ne here] at seen
    exact numbered q k seen

/-- Filling a file makes no name lead elsewhere. -/
theorem Numbered.fill (numbered : t.Numbered) {f : BlobFile} : (t.fill k f).Numbered := by
  intro q l seen
  simpa [BlobTree.fill] using numbered q l seen

/-- A new file comes with its number. -/
theorem Numbered.create (numbered : t.Numbered) (stands : t.Stands p) {f : BlobFile} :
    (t.create p f).Numbered := by
  -- The new file has the next number.
  refine Numbered.enter (t := { t with files := t.files ++ [⟨f, .ok (), .ok ()⟩] }) ?_ stands ?_
  · intro q l seen
    have below : l < t.files.length := numbered q l seen
    simp
    omega
  · intro l named
    obtain rfl : t.files.length = l := by simpa using named
    simp

/-- Writing keeps names leading to files there are. -/
theorem Numbered.write (numbered : t.Numbered) {luck : Writing} {now : Timestamp} :
    (t.write luck now p data).2.Numbered := by
  -- A write fails, fills a file there is or makes a new one.
  unfold BlobTree.write
  split
  · exact numbered
  · rename_i q led
    split <;> try exact numbered
    · split
      · exact numbered
      · exact numbered
      · exact numbered.fill
    · rename_i seen
      split
      · exact numbered
      · exact numbered
      · rename_i entry left filed remains
        exact numbered.create (.of_dir seen (by rw [filed]; rfl))

/-- Renaming keeps names leading to files there are. -/
theorem Numbered.rename (numbered : t.Numbered) {luck : Disk} {old new : Place}
    (moved : t.rename luck old new = .ok u) : u.Numbered := by
  -- Each check of the renaming is passed, and then the name is entered and the old one taken out.
  unfold BlobTree.rename at moved
  simp only [except_bind_eq_ok, okOr_eq_ok, ensure_eq_ok] at moved
  obtain ⟨_, seen, _, rfl, _, there, found, taken, moved⟩ := moved
  split at moved
  · cases moved
  · rw [except_bind_eq_ok] at moved
    obtain ⟨_, _, moved⟩ := moved
    obtain rfl := Except.ok.inj moved
    split
    · exact numbered
    · -- The name that is moved was that of a file which is there.
      have onto : t.Stands new := .of_dir taken there
      refine Numbered.enter ?_ (Stands.of_look seen).enter (by simp)
      exact numbered.enter onto fun k named => numbered old k (look_of_nameAt named)

/-- Removing the temporary file keeps names leading to files there are. -/
theorem Numbered.removeTemp (numbered : t.Numbered) {luck : Disk} :
    (t.removeTemp luck p).Numbered := by
  -- Only a name that stands is taken out.
  unfold BlobTree.removeTemp
  split
  · exact numbered
  · rename_i found _ seen
    exact numbered.enter (.of_look seen) (by simp)
  · exact numbered

end

end BlobTree

/-- What a name in a shard stands for; a link to a file counts as that file. -/
inductive BlobEntry where
  -- A file, with whether it can be read, and whether it can be opened to be touched.
  | file (f : BlobFile) (reads touches : Disk)
  | folder (size : UInt64) (modified : Timestamp)
  -- A link that leads nowhere.
  | dangling
  -- Neither a file nor a directory, such as a socket.
  | special (size : UInt64) (modified : Timestamp)

/-- What a name beside the shards stands for. -/
inductive Shard where
  -- A directory, with whether it is reached through a link, and whether it can be gone into.
  | folder (linked : Bool) (opens : Disk) (entries : OrdMap Bytes BlobEntry)
  | dangling
  | other

/-- The size and the time of what a name stands for; links are followed. -/
def BlobEntry.metadata : BlobEntry → Option (UInt64 × Timestamp)
  | .file f _ _ => some (UInt64.ofNat f.content.length, f.modified)
  | .folder size modified | .special size modified => some (size, modified)
  | .dangling => none

/-- The directory of a blob store, by the names of its shards, and by the names in each of them. -/
structure BlobDir where
  addressing : Addressing
  shards : OrdMap Bytes Shard

namespace BlobTree

/--
What a name leads to, as a listing takes it; what leads nowhere or fails on the way is dangling.
-/
def entryAt (t : BlobTree) (p : Place) : BlobEntry :=
  match t.resolve p with
  | .ok (some (.file k)) =>
    match t.files[k]? with
    | some node => .file node.file node.reads node.touches
    | none => .dangling
  | .ok (some (.folder size modified)) => .folder size modified
  | .ok (some (.special size modified)) => .special size modified
  | .ok none | .error _ => .dangling

/-- The entries of a directory, each as what it leads to. -/
def entriesIn (t : BlobTree) (dir : DirPath) (names : OrdMap Bytes DirName) :
    OrdMap Bytes BlobEntry :=
  names.map fun name _ => t.entryAt ⟨dir, name⟩

/-- The directory of the blobs as it is listed. -/
def listing (t : BlobTree) : BlobDir where
  addressing := t.addressing
  shards := t.shards.map fun shard entry =>
    match entry with
    | .folder opens names => .folder false opens (t.entriesIn (.shard shard) names)
    | .other => .other
    | .link target =>
      match t.dir target with
      | some (.folder opens names) => .folder true opens (t.entriesIn target names)
      | some _ => .other
      | none => .dangling

end BlobTree

namespace BlobDir

/-- What stands at the path of an address. -/
def find (d : BlobDir) (addr : Addr) : Except IoError (Option BlobEntry) :=
  match d.shards[addr.shard.1]? with
  | none | some .dangling => .ok none
  | some .other => .error notADirectory
  | some (.folder _ opens entries) => do
    opens
    return entries[addr.shard.2]?

/-- Whether the path of an address is that of a file. -/
def isFile (d : BlobDir) (addr : Addr) : Bool :=
  match d.find addr with
  | .ok (some (.file _ _ _)) => true
  | _ => false

/-- The address that the name of an entry spells behind the name of its shard. -/
def spelled (shard name : Bytes) : Option Addr :=
  (Addr.fromHex (fromUtf8Lossy shard ++ fromUtf8Lossy name)).toOption

/-- List the addresses in one shard, where it is a directory; a link to one is none. -/
def listShard (out : List Addr) : Bytes × Shard → Except StoreError (List Addr)
  | (name, .folder false opens entries) => do
    opens.mapError .io
    return out ++ entries.toList.filterMap fun entry => spelled name entry.1
  | _ => .ok out

/-- Every address that the names in the directory spell, in order. -/
def addrs (d : BlobDir) : Except StoreError (List Addr) := do
  return (← d.shards.toList.foldlM listShard []).mergeSort fun a b => (compare a b).isLE

/-- Remove a blob; one that is not there is gone already. -/
def remove (d : BlobDir) (luck : Disk) (addr : Addr) : Except StoreError Unit × BlobDir :=
  match d.find addr with
  | .error e => (.error (.io e), d)
  | .ok none => (.ok (), d)
  | .ok (some (.folder _ _)) => (.error (.io isADirectory), d)
  | .ok (some _) =>
    match luck, d.shards[addr.shard.1]? with
    | .error e, _ => (.error (.io e), d)
    | .ok (), some (.folder linked opens entries) =>
      let entries := entries.erase addr.shard.2
      (.ok (), { d with shards := d.shards.insert addr.shard.1 (.folder linked opens entries) })
    | .ok (), _ => (.ok (), d)

variable {d : BlobDir} {addr : Addr}

/-- There is a directory for an address, which can be gone into. -/
def Stands (d : BlobDir) (addr : Addr) : Prop :=
  ∃ linked entries, d.shards[addr.shard.1]? = some (.folder linked (.ok ()) entries)

/-- Where there is a directory for an address, what is found is what it has under the name. -/
theorem Stands.of_find {found : BlobEntry} (here : d.find addr = .ok (some found)) :
    d.Stands addr := by
  unfold find at here
  rcases filed : d.shards[addr.shard.1]? with _ | (⟨linked, _ | _, entries⟩ | _ | _)
  case some.folder.ok => exact ⟨linked, entries, filed⟩
  all_goals rw [filed] at here; cases here

end BlobDir

end NasTools
