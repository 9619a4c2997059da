import NasTools.Model.Store.BlobTree

/-! What the steps of storing a blob change of what is read under other addresses. -/

namespace NasTools

open Links (Named Ends)

namespace BlobTree

variable {t u v : BlobTree} {p : Place} {addr : Addr} {data : Bytes} {k : Nat}

/-- The places that are looked at on the way to what is read under an address. -/
def trail (t : BlobTree) (addr : Addr) : List Place := Links.trail t.look chainLimit (t.path addr)

section

/-- Nothing of what is read under an address has changed. -/
structure Leaves (t : BlobTree) (addr : Addr) (u : BlobTree) : Prop where
  addressing : u.addressing = t.addressing
  path : u.path addr = t.path addr
  look : ∀ p ∈ t.trail addr, u.look p = t.look p
  file : ∀ k, t.resolve (t.path addr) = .ok (some (.file k)) → u.readFile k = t.readFile k

namespace Leaves

/-- Nothing has changed in an unchanged tree. -/
theorem refl (t : BlobTree) (addr : Addr) : t.Leaves addr t :=
  ⟨rfl, rfl, fun _ _ => rfl, fun _ _ => rfl⟩

/-- The address still leads where it led. -/
theorem resolve (leaves : t.Leaves addr u) : u.resolve (u.path addr) = t.resolve (t.path addr) := by
  -- The chain passes no place that has changed.
  rw [leaves.path]
  exact Links.resolve_congr leaves.look

/-- The address still passes the same places. -/
theorem trail (leaves : t.Leaves addr u) : u.trail addr = t.trail addr := by
  unfold BlobTree.trail
  rw [leaves.path]
  exact Links.trail_congr leaves.look

/-- The address still reads the same. -/
theorem read (leaves : t.Leaves addr u) : u.read addr = t.read addr := by
  -- Where it leads to a file, that file reads the same.
  unfold BlobTree.read
  rw [leaves.resolve]
  split <;> try rfl
  rename_i k led
  exact leaves.file k led

/-- The same blob is still found. -/
theorem get [Crypto] (leaves : t.Leaves addr u) : u.get addr = t.get addr :=
  get_congr leaves.addressing leaves.read

/-- What is left alone twice is left alone. -/
theorem trans (first : t.Leaves addr u) (second : u.Leaves addr v) : t.Leaves addr v where
  addressing := second.addressing.trans first.addressing
  path := second.path.trans first.path
  look p passed := (second.look p (first.trail ▸ passed)).trans (first.look p passed)
  file k led := (second.file k (first.resolve.trans led)).trans (first.file k led)

end Leaves

/-- A tree in which everything is found as it was. -/
structure Alike (t u : BlobTree) : Prop where
  addressing : u.addressing = t.addressing
  real : u.real = t.real
  look : u.look = t.look
  files : u.files = t.files

namespace Alike

/-- Trees that look alike leave every address alone. -/
theorem leaves (alike : t.Alike u) (addr : Addr) : t.Leaves addr u where
  addressing := alike.addressing
  path := by simp only [path, alike.real]
  look p _ := congrFun alike.look p
  file k _ := by simp only [readFile, alike.files]

/-- A tree that looks alike has the same files. -/
theorem numbered (alike : t.Alike u) (numbered : t.Numbered) : u.Numbered := by
  intro p k seen
  rw [alike.look] at seen
  rw [alike.files]
  exact numbered p k seen

end Alike

/-- A directory for an address is there or can be made. -/
def MakesShard (t : BlobTree) (addr : Addr) : Prop :=
  (∃ opens names, t.dir (t.path addr).dir = some (.folder opens names)) ∨
    t.dir (.shard addr.shard.1) = none

/--
A directory that was made for an address is empty, so nothing is found that was not found before.
-/
theorem createShard_spec {luck : Disk} (made : t.createShard luck addr = .ok u) :
    t.MakesShard addr ∧ t.Alike u ∧ u.temp = t.temp ∧
      ∀ path, (u.dir path).isSome ↔ (t.dir path).isSome ∨ path = (t.path addr).dir := by
  -- The shard was there, or it is made with nothing in it.
  unfold createShard at made
  split at made
  · -- It was there already.
    rename_i opens names filed
    obtain rfl := Except.ok.inj made
    refine ⟨.inl ⟨opens, names, filed⟩, ⟨rfl, rfl, rfl, rfl⟩, rfl, fun path => ⟨.inl, ?_⟩⟩
    rintro (there | rfl)
    · exact there
    · rw [filed]
      rfl
  · split at made
    · cases made
    · rename_i absent
      cases luck with
      | error e => cases made
      | ok _ =>
        obtain rfl := Except.ok.inj made
        set new := DirEntry.folder (.ok ()) ∅ with is
        have real : (t.setDir (.shard addr.shard.1) new).real = t.real := by
          apply real_congr
          intro path target
          rw [dir_setDir]
          split
          · rename_i same
            simp [same, absent, is]
          · rfl
        have look : (t.setDir (.shard addr.shard.1) new).look = t.look := by
          funext q
          by_cases inside : q.dir = .shard addr.shard.1
          · -- Nothing was found in the directory that was not there, and nothing is in the
            -- empty one.
            have there :
                (t.setDir (.shard addr.shard.1) new).dir q.dir = some (.folder (.ok ()) ∅) := by
              rw [dir_setDir, if_pos inside]
            rw [look_eq there, BlobTree.look, inside, absent]
            simp
          · rw [BlobTree.look, BlobTree.look, dir_setDir, if_neg inside, real]
        refine ⟨.inr absent, ⟨rfl, real, look, rfl⟩, congrFun real _, ?_⟩
        intro path
        have plain : (t.path addr).dir = .shard addr.shard.1 := by
          simp [BlobTree.path, BlobTree.real, absent]
        rw [dir_setDir, plain]
        split <;> simp_all

/-- A name changes nothing for an address whose chain does not pass it. -/
theorem Leaves.enter (stands : t.Stands p) {found : Option DirName} (apart : p ∉ t.trail addr) :
    t.Leaves addr (t.enter p found) where
  -- A name that the address does not pass makes no difference to it.
  addressing := enter_addressing
  path := congrFun (look_enter stands found).1 _
  look q passed := by
    have other : q ≠ p := by
      rintro rfl
      exact apart passed
    rw [(look_enter stands found).2, Function.update_of_ne other]
  file k _ := by simp only [readFile, enter_files]

/-- What is written to a file changes nothing for an address that does not lead to it. -/
theorem Leaves.fill {f : BlobFile}
    (apart : t.resolve (t.path addr) = .ok (some (.file k)) →
      (t.fill k f).readFile k = t.readFile k) :
    t.Leaves addr (t.fill k f) where
  -- A file that the address does not lead to makes no difference to it.
  addressing := rfl
  path := rfl
  look _ _ := rfl
  file l led := by
    by_cases same : k = l
    · subst same
      exact apart led
    · simp [readFile, BlobTree.fill, same]

/-- What a chain leads to has a number. -/
theorem Numbered.lt_of_resolve (numbered : t.Numbered) (led : t.resolve p = .ok (some (.file k))) :
    k < t.files.length := by
  -- The chain ends at a name of the file.
  unfold BlobTree.resolve Links.resolve at led
  rw [except_bind_eq_ok] at led
  obtain ⟨q, _, led⟩ := led
  rw [except_bind_eq_ok] at led
  obtain ⟨found, seen, led⟩ := led
  match found with
  | none => cases led
  | some (.link _) => cases led
  | some (.thing x) =>
    obtain rfl : x = .file k := by simpa using led
    exact numbered q k seen

/-- A new file changes nothing for an address whose chain does not pass its name. -/
theorem Leaves.create (numbered : t.Numbered) (stands : t.Stands p) {f : BlobFile}
    (apart : p ∉ t.trail addr) : t.Leaves addr (t.create p f) := by
  -- The file is put behind the others first, and then its name is entered.
  let more : BlobTree := { t with files := t.files ++ [⟨f, .ok (), .ok ()⟩] }
  have longer : t.Leaves addr more := by
    refine ⟨rfl, rfl, fun _ _ => rfl, ?_⟩
    intro k led
    -- The new file is behind all others.
    have old : more.files[k]? = t.files[k]? :=
      List.getElem?_append_left (numbered.lt_of_resolve led)
    simp only [readFile, old]
  exact longer.trans (Leaves.enter (t := more) stands apart)

/--
A file can be written in place under a name that is no link: over its own bytes, or as a new one.
-/
def Writes (t : BlobTree) (p : Place) : Prop :=
  (∃ k, t.look p = .ok (some (.thing (.file k))) ∧ t.openFile k = .ok ()) ∨
    t.look p = .ok none ∧ (t.dir p.dir).isSome

/-- The tree with some bytes in the file under a name, which is a new one where there is none. -/
def into (t : BlobTree) (p : Place) (f : BlobFile) : BlobTree :=
  match t.look p with
  | .ok (some (.thing (.file k))) => t.fill k f
  | _ => t.create p f

/-- A place that is written is no link. -/
theorem Writes.ends (writes : t.Writes p) : Ends t.look p := by
  rcases writes with ⟨k, seen, _⟩ | ⟨seen, _⟩
  · exact ⟨_, seen, nofun⟩
  · exact ⟨_, seen, nofun⟩

/-- Under a name that is no link, the bytes that are left are those of the file with that name. -/
theorem Writes.write (writes : t.Writes p) (luck : Writing) (now : Timestamp) (data : Bytes) :
    t.write luck now p data = (luck.report,
      match luck.remains data with
      | none => t
      | some left => t.into p ⟨left, now⟩) := by
  -- A file that is there is filled, and otherwise one is made.
  have led : t.follow p = .ok p := Links.follow_end writes.ends
  rcases writes with ⟨k, seen, opens⟩ | ⟨seen, there⟩
  · simp only [BlobTree.write, led, seen, opens, into]
    cases luck.remains data <;> rfl
  · obtain ⟨entry, filed⟩ := Option.isSome_iff_exists.mp there
    simp only [BlobTree.write, led, seen, filed, into]
    cases luck.remains data <;> rfl

/-- Where nothing can be written in place, a write fails and changes nothing. -/
theorem write_shut (plain : ∀ next, t.look p ≠ .ok (some (.link next))) (shut : ¬t.Writes p)
    (luck : Writing) (now : Timestamp) (data : Bytes) :
    ∃ e, t.write luck now p data = (.error e, t) := by
  -- Every case in which the place cannot be written fails and leaves the tree as it was.
  match seen : t.look p with
  | .error e =>
    have stuck : t.follow p = .error e := Links.follow_error seen
    exact ⟨e, by simp only [BlobTree.write, stuck]⟩
  | .ok (some (.link next)) => exact absurd seen (plain next)
  | .ok (some (.thing x)) =>
    have led : t.follow p = .ok p := Links.follow_end ⟨_, seen, nofun⟩
    match x with
    | .file k =>
      match opens : t.openFile k with
      | .ok () => exact absurd (.inl ⟨k, seen, opens⟩) shut
      | .error e => exact ⟨e, by simp only [BlobTree.write, led, seen, opens]⟩
    | .folder _ _ => exact ⟨isADirectory, by simp only [BlobTree.write, led, seen]⟩
    | .special _ _ => exact ⟨noSuchDevice, by simp only [BlobTree.write, led, seen]⟩
  | .ok none =>
    have led : t.follow p = .ok p := Links.follow_end ⟨_, seen, nofun⟩
    match there : t.dir p.dir with
    | some entry => exact absurd (.inr ⟨seen, by rw [there]; rfl⟩) shut
    | none => exact ⟨noSuchFile, by simp only [BlobTree.write, led, seen, there]⟩

/-- What is under a name that was written to: the file it had, or a new one that can be read. -/
theorem Writes.into (writes : t.Writes p) (f : BlobFile) :
    (t.into p f).addressing = t.addressing ∧ (t.into p f).real = t.real ∧
      ∃ k, (t.into p f).look = Function.update t.look p (.ok (some (.thing (.file k)))) ∧
        (t.look p = .ok none ∧ k = t.files.length ∧ (t.into p f).readFile k = .ok f.content ∨
          t.look p = .ok (some (.thing (.file k))) ∧
            (t.into p f).readFile k = (t.readFile k).map fun _ => f.content) := by
  -- Filling keeps every name, and a new file gets the next number.
  rcases writes with ⟨k, seen, opens⟩ | ⟨seen, there⟩
  · have filled : t.into p f = t.fill k f := by
      rw [BlobTree.into, seen]
    rw [filled]
    refine ⟨rfl, rfl, k, ?_, .inr ⟨seen, ?_⟩⟩
    · rw [← seen, Function.update_eq_self]
      rfl
    · simp only [readFile, fill, List.getElem?_modify_eq]
      cases t.files[k]? with
      | none => rfl
      | some node =>
        obtain ⟨_, reads, _⟩ := node
        cases reads <;> rfl
  · have created : t.into p f = t.create p f := by
      rw [BlobTree.into, seen]
    have stands : t.Stands p := .of_dir seen there
    let more : BlobTree := { t with files := t.files ++ [⟨f, .ok (), .ok ()⟩] }
    have stands : more.Stands p := stands
    rw [created, create]
    refine ⟨enter_addressing, (look_enter stands _).1, t.files.length, (look_enter stands _).2,
      .inl ⟨seen, rfl, ?_⟩⟩
    simp [readFile, Except.map, Except.mapError]

/-- A file can be moved in place of what a name stands for, which is no directory. -/
def Takes (t : BlobTree) (p : Place) : Prop :=
  ∃ found, t.look p = .ok found ∧ ∀ size modified, found ≠ some (.thing (.folder size modified))

/-- A name in a directory can be taken by a moved file when no directory has it. -/
theorem Takes.rename {old new : Place} (takes : t.Takes new) (there : (t.dir new.dir).isSome)
    {moved : Named Place BlobThing} (seen : t.look old = .ok (some moved)) :
    ∃ found, t.look new = .ok found ∧ t.rename (.ok ()) old new =
      .ok (if sameFile moved found then t else (t.enter new (t.nameAt old)).enter old none) := by
  -- The new name is free, a link, a file or a device; only a directory there would refuse.
  obtain ⟨found, taken, plain⟩ := takes
  refine ⟨found, taken, ?_⟩
  unfold BlobTree.rename
  simp only [seen, taken, there, except_ok_bind, okOr_some, ensure_of]
  rcases found with _ | _ | ⟨_ | ⟨size, modified⟩ | _⟩
  case some.thing.folder => exact absurd rfl (plain size modified)
  all_goals rfl

/-- A name that was moved could be: there is a directory for it, and none in its place. -/
theorem takes_of_rename {luck : Disk} {old new : Place} (moved : t.rename luck old new = .ok u) :
    t.Takes new ∧ (t.dir new.dir).isSome ∧ luck = .ok () := by
  -- Each check of the renaming is one part of the condition.
  unfold BlobTree.rename at moved
  simp only [except_bind_eq_ok, okOr_eq_ok, ensure_eq_ok] at moved
  obtain ⟨_, _, _, _, _, there, found, taken, moved⟩ := moved
  refine ⟨⟨found, taken, ?_⟩, there, ?_⟩
  · rintro size modified rfl
    cases moved
  · split at moved
    · cases moved
    · rw [except_bind_eq_ok] at moved
      obtain ⟨_, lucky, _⟩ := moved
      exact lucky

/-- A file that is moved is found under the other name, and not under its own. -/
theorem look_moved {old new : Place} (apart : old ≠ new)
    (seen : t.look old = .ok (some (.thing (.file k)))) (takes : t.Takes new)
    (there : (t.dir new.dir).isSome) :
    ((t.enter new (t.nameAt old)).enter old none).real = t.real ∧
      ((t.enter new (t.nameAt old)).enter old none).look =
        Function.update (Function.update t.look new (.ok (some (.thing (.file k))))) old
          (.ok none) := by
  -- The new name is entered, and then the old one is taken out.
  obtain ⟨found, taken, _⟩ := takes
  have entered := look_enter (.of_dir taken there) (t.nameAt old)
  rw [nameAt_file seen] at entered ⊢
  -- The old name still stands in its directory.
  have stands : (t.enter new (some (.thing (.file k)))).Stands old := by
    have still :
        (t.enter new (some (.thing (.file k)))).look old = .ok (some (.thing (.file k))) := by
      rw [entered.2, Function.update_of_ne apart, seen]
    exact .of_look still
  have erased := look_enter stands none
  rw [erased.2, erased.1, entered.1, entered.2]
  exact ⟨rfl, rfl⟩

/-- A moved file has the other name alone, unless both were names of it. -/
theorem rename_spec {luck : Disk} {old new : Place} (apart : old ≠ new)
    (seen : t.look old = .ok (some (.thing (.file k)))) (moved : t.rename luck old new = .ok u) :
    u.addressing = t.addressing ∧ u.real = t.real ∧ u.files = t.files ∧
      u.look new = .ok (some (.thing (.file k))) ∧ ∀ p, p ≠ old → p ≠ new →
        u.look p = t.look p := by
  -- Either both are names of one file, or the names are changed.
  obtain ⟨takes, there, rfl⟩ := takes_of_rename moved
  obtain ⟨found, taken, done⟩ := takes.rename there seen
  rw [done] at moved
  obtain rfl := Except.ok.inj moved
  split
  · rename_i same
    -- Both names are left, and the new one is one of them.
    refine ⟨rfl, rfl, rfl, ?_, fun _ _ _ => rfl⟩
    match found with
    | none => cases same
    | some (.link _) => cases same
    | some (.thing (.folder _ _)) => cases same
    | some (.thing (.special _ _)) => cases same
    | some (.thing (.file l)) =>
      obtain rfl : k = l := by simpa [sameFile] using same
      exact taken
  · obtain ⟨real, look⟩ := look_moved apart seen takes there
    refine ⟨by simp, real, by simp, ?_, ?_⟩
    · rw [look, Function.update_of_ne apart.symm, Function.update_self]
    · intro p other also
      rw [look, Function.update_of_ne other, Function.update_of_ne also]

/-- Moving a file changes nothing for an address whose chain passes neither of the names. -/
theorem Leaves.rename {luck : Disk} {old new : Place} (apart : old ≠ new)
    (seen : t.look old = .ok (some (.thing (.file k)))) (moved : t.rename luck old new = .ok u)
    (from_ : old ∉ t.trail addr) (onto : new ∉ t.trail addr) : t.Leaves addr u := by
  -- Only the two names change, and the address passes neither.
  obtain ⟨addressing, real, files, _, kept⟩ := rename_spec apart seen moved
  refine ⟨addressing, congrFun real _, ?_, fun k _ => by simp only [readFile, files]⟩
  intro p passed
  apply kept
  · rintro rfl
    exact from_ passed
  · rintro rfl
    exact onto passed

/-- Where a path leads to a file, the file is read. -/
theorem read_of_resolve (led : t.resolve (t.path addr) = .ok (some (.file k))) :
    t.read addr = t.readFile k := by
  unfold read
  rw [led]

/-- At the name of a file, the file is read. -/
theorem read_of_look (seen : t.look (t.path addr) = .ok (some (.thing (.file k)))) :
    t.read addr = t.readFile k := by
  apply read_of_resolve
  rw [resolve, Links.resolve, chainLimit, Links.follow_end ⟨_, seen, nofun⟩, except_ok_bind, seen]
  rfl

/-- The name of a file is removed, where that is possible. -/
theorem removeTemp_file {luck : Disk} (seen : t.look p = .ok (some (.thing (.file k)))) :
    t.removeTemp luck p = match luck with
      | .ok () => t.enter p none
      | .error _ => t := by
  unfold BlobTree.removeTemp
  rw [seen]
  cases luck <;> rfl

/-- A name that cannot be moved is removed, or stays as it is. -/
theorem Leaves.removeTemp {luck : Disk} (apart : p ∉ t.trail addr) :
    t.Leaves addr (t.removeTemp luck p) := by
  -- Only the temporary name changes, and the address does not pass it.
  unfold BlobTree.removeTemp
  split
  · exact .refl t addr
  · rename_i found _ seen
    exact .enter (.of_look seen) apart
  · exact .refl t addr

/-- A name in a directory keeps its last part, whatever its path leads to. -/
theorem real_name : (t.real p).name = p.name := by
  unfold BlobTree.real
  split <;> rfl

/-- No blob is filed under the name of a file that is being written. -/
theorem temp_ne_path (t u : BlobTree) (addr : Addr) : t.temp ≠ u.path addr := by
  -- Suppose the names were the same.
  intro same
  have names := congrArg Place.name same
  rw [temp, path, real_name, real_name] at names
  dsimp only at names
  -- There is a dot in the one, and no digit is a dot.
  have dot : '.'.toUInt8 ∈ addr.shard.2 := by
    rw [← names]
    exact List.mem_flatMap.mpr ⟨'.', by simp, by decide⟩
  have digit : '.'.toUInt8 ∈ addr.hex := by
    rw [← (Addr.shard_append addr).1]
    exact List.mem_append_right _ dot
  rw [Addr.hex, textBytes, List.mem_flatMap] at digit
  obtain ⟨c, among, inside⟩ := digit
  obtain ⟨n, below, rfl⟩ := Text.mem_toHex among
  revert inside
  interval_cases n <;> decide

/-- The next file can be written, once there is a directory for an address. -/
def TempOpens (t : BlobTree) (addr : Addr) : Prop :=
  (∃ k, t.look t.temp = .ok (some (.thing (.file k))) ∧ t.openFile k = .ok ()) ∨
    t.look t.temp = .ok none ∧ ((t.dir t.temp.dir).isSome ∨ t.temp.dir = (t.path addr).dir)

/-- The name that a file is written under leads to nothing of the blobs at other addresses. -/
structure Apart (t : BlobTree) (temp : Place) (addr : Addr) (data : Bytes) : Prop where
  -- No other blob is read through that name, or from the file that has it.
  through : ∀ other ≠ addr, temp ∉ t.trail other
  file : ∀ k content, t.look temp = .ok (some (.thing (.file k))) → t.readFile k = .ok content →
    (data ≠ [] ∨ content ≠ []) → ∀ other ≠ addr, t.resolve (t.path other) ≠ .ok (some (.file k))
  -- Nor is one read through the name it is moved to, where it can be moved there.
  name : t.Takes (t.path addr) → ∀ other ≠ addr, t.path addr ∉ t.trail other
  reads : t.Takes (t.path addr) → ∀ k, t.look temp = .ok (some (.thing (.file k))) →
    ∃ content, t.readFile k = .ok content

variable {temp : Place} {luck : PutLuck} {now : Timestamp}

/-- A tree that looks alike takes the same names. -/
theorem Alike.takes (alike : t.Alike u) : u.Takes p ↔ t.Takes p := by
  unfold Takes
  rw [alike.look]

/-- In a tree that looks alike the temporary name stays apart. -/
theorem Alike.apart (alike : t.Alike u) (apart : t.Apart temp addr data) :
    u.Apart temp addr data := by
  -- Everything that is asked is asked of what is found.
  have path (other : Addr) : u.path other = t.path other := (alike.leaves other).path
  have file (k : Nat) : u.readFile k = t.readFile k := by simp only [readFile, alike.files]
  refine ⟨?_, ?_, ?_, ?_⟩
  · intro other differs
    rw [(alike.leaves other).trail]
    exact apart.through other differs
  · intro k content seen read some_ other differs
    rw [alike.look] at seen
    rw [file] at read
    rw [(alike.leaves other).resolve]
    exact apart.file k content seen read some_ other differs
  · intro takes other differs
    rw [path, alike.takes] at takes
    rw [path, (alike.leaves other).trail]
    exact apart.name takes other differs
  · intro takes k seen
    rw [path, alike.takes] at takes
    rw [alike.look] at seen
    rw [file]
    exact apart.reads takes k seen

/-- Once there is a directory for an address, the next file can be written where it was said to. -/
theorem Alike.writes_temp (alike : t.Alike u)
    (dirs : ∀ path, (u.dir path).isSome ↔ (t.dir path).isSome ∨ path = (t.path addr).dir) :
    u.Writes t.temp ↔ t.TempOpens addr := by
  unfold Writes TempOpens
  rw [alike.look, dirs]
  simp only [openFile, alike.files]

/-- What a failed write leaves of nothing is nothing. -/
theorem remains_nil {luck : Writing} {left : Bytes} (remains : luck.remains [] = some left) :
    left = [] := by
  match luck with
  | .done => exact (Option.some.inj remains).symm
  | .failed _ none => cases remains
  | .failed _ (some k) => simpa [Writing.remains] using remains.symm

/-- Writing to a file that is apart from other blobs changes nothing of theirs. -/
theorem Apart.into {other : Addr} (apart : t.Apart temp addr data) (numbered : t.Numbered)
    (writes : t.Writes temp) (differs : other ≠ addr) {luck : Writing} {left : Bytes}
    {now : Timestamp} (remains : luck.remains data = some left) :
      t.Leaves other (t.into temp ⟨left, now⟩) := by
  -- Writing fills the file that is there, or makes a new one.
  unfold BlobTree.into
  rcases writes with ⟨k, seen, _⟩ | ⟨seen, there⟩
  · rw [seen]
    apply Leaves.fill
    intro led
    -- It can be read by no other blob, or was empty and stays so.
    match held : t.files[k]? with
    | none => simp [readFile, fill, held]
    | some ⟨f, .error e, touches⟩ => simp [readFile, fill, held, Except.map]
    | some ⟨f, .ok (), touches⟩ =>
      have read : t.readFile k = .ok f.content := by
        rw [readFile, held]
        rfl
      have empty : data = [] ∧ f.content = [] := by
        by_contra some_
        exact apart.file k f.content seen read (by tauto) other differs led
      obtain ⟨rfl, nothing⟩ := empty
      obtain rfl := remains_nil remains
      simp [readFile, fill, held, nothing]
  · rw [seen]
    exact .create numbered (.of_dir seen there) (apart.through other differs)

/-- A file that is moved to the path of its blob is read there, and other blobs are as before. -/
theorem Apart.moves {s : BlobTree} {luck : Disk} (apart : t.Apart temp addr data)
    (differ : temp ≠ t.path addr) (leaves : ∀ other ≠ addr, t.Leaves other s)
    (path : s.path addr = t.path addr) (elsewhere : s.look (t.path addr) = t.look (t.path addr))
    (seen : s.look temp = .ok (some (.thing (.file k))))
    (moved : s.rename luck temp (t.path addr) = .ok u) :
    t.Takes (t.path addr) ∧ (∀ other ≠ addr, t.Leaves other u) ∧ u.addressing = s.addressing ∧
      u.read addr = s.readFile k := by
  -- Only the two names change, and other blobs are read through neither of them.
  have takes : t.Takes (t.path addr) := by
    have able := (takes_of_rename moved).1
    unfold Takes at able ⊢
    rwa [elsewhere] at able
  obtain ⟨addressing, real, files, here, _⟩ := rename_spec differ seen moved
  refine ⟨takes, ?_, addressing, ?_⟩
  · intro other differs
    have first := leaves other differs
    exact first.trans (.rename differ seen moved (first.trail ▸ apart.through other differs)
      (first.trail ▸ apart.name takes other differs))
  · have same : u.path addr = t.path addr := (congrFun real _).trans path
    rw [read_of_look (same ▸ here), readFile, files, ← readFile]

/--
Where the name of a new file is apart, writing a blob changes nothing of the others, and files it.
-/
theorem install_spec (numbered : t.Numbered) (plain : ∀ next, t.look temp ≠ .ok (some (.link next)))
    (differ : temp ≠ t.path addr) (apart : t.Writes temp → t.Apart temp addr data) {luck : PutLuck}
    {now : Timestamp} {stored : Except StoreError Addr}
    (ended : t.install luck now temp addr data = (stored, u)) :
    (∀ other ≠ addr, t.Leaves other u) ∧ ∀ found, stored = .ok found →
      found = addr ∧ u.addressing = t.addressing ∧ u.read addr = .ok data := by
  -- The file is written and then moved; what goes wrong before leaves only the other files.
  unfold install at ended
  by_cases writes : t.Writes temp
  swap
  · obtain ⟨e, failed⟩ := write_shut plain writes luck.write now data
    rw [failed] at ended
    obtain ⟨rfl, rfl⟩ := ended
    exact ⟨fun other _ => .refl t other, nofun⟩
  have apart := apart writes
  rw [writes.write] at ended
  match written : luck.write with
  | .failed e none =>
    rw [written] at ended
    obtain ⟨rfl, rfl⟩ := ended
    exact ⟨fun other _ => .refl t other, nofun⟩
  | .failed e (some n) =>
    rw [written] at ended
    obtain ⟨rfl, rfl⟩ := ended
    have remains : (Writing.failed e (some n)).remains data =
      some (data.take (min n (data.length - 1))) := rfl
    exact ⟨fun other differs => apart.into numbered writes differs remains, nofun⟩
  | .done =>
    rw [written] at ended
    have remains : Writing.done.remains data = some data := rfl
    have leaves (other : Addr) (differs : other ≠ addr) :
        t.Leaves other (t.into temp ⟨data, now⟩) :=
      apart.into numbered writes differs remains
    obtain ⟨addressing, real, k, look, content⟩ := writes.into ⟨data, now⟩
    simp only [Writing.report, Writing.remains] at ended
    generalize t.into temp ⟨data, now⟩ = s at *
    have path : s.path addr = t.path addr := congrFun real _
    have seen : s.look temp = .ok (some (.thing (.file k))) := by rw [look, Function.update_self]
    have elsewhere : s.look (t.path addr) = t.look (t.path addr) := by
      rw [look, Function.update_of_ne differ.symm]
    match moved : s.rename luck.rename temp (s.path addr) with
    | .error e =>
      rw [moved] at ended
      obtain ⟨rfl, rfl⟩ := ended
      refine ⟨?_, nofun⟩
      intro other differs
      have first := leaves other differs
      exact first.trans (.removeTemp (first.trail ▸ apart.through other differs))
    | .ok w =>
      rw [moved] at ended
      obtain ⟨rfl, rfl⟩ := ended
      rw [path] at moved
      obtain ⟨takes, others, kept, read⟩ := apart.moves differ leaves path elsewhere seen moved
      refine ⟨others, ?_⟩
      intro found stored
      obtain rfl := Except.ok.inj stored
      refine ⟨rfl, kept.trans addressing, read.trans ?_⟩
      -- A new file can be read, and the one that was there too.
      rcases content with ⟨_, _, content⟩ | ⟨before, content⟩
      · exact content
      · obtain ⟨old, readable⟩ := apart.reads takes k before
        rw [content, readable]
        rfl

/-- Counting up the number of the next file changes nothing that is found. -/
theorem Alike.count {seq : UInt64} (alike : t.Alike u) : t.Alike { u with seq := seq } :=
  ⟨alike.addressing, alike.real, alike.look, alike.files⟩

/-- What storing a blob does before the file for it is written. -/
theorem rewrite_eq (t : BlobTree) (luck : PutLuck) (now : Timestamp) (addr : Addr) (data : Bytes) :
    (∃ e, t.rewrite luck now addr data = (.error (.io e), t)) ∨
      t.MakesShard addr ∧ ∃ s, t.Alike s ∧
        (∀ path, (s.dir path).isSome ↔ (t.dir path).isSome ∨ path = (t.path addr).dir) ∧
        t.rewrite luck now addr data = s.install luck now t.temp addr data := by
  -- The shard cannot be made, or it is there and the file is installed.
  unfold rewrite
  match made : t.createShard luck.createDir addr with
  | .error e => exact .inl ⟨e, rfl⟩
  | .ok s =>
    obtain ⟨makes, alike, temp, dirs⟩ := createShard_spec made
    refine .inr ⟨makes, { s with seq := s.seq + 1 }, alike.count, dirs, ?_⟩
    dsimp only
    rw [temp]

/--
Where the name of the next file is apart, writing a blob changes nothing of the
others, and files it.
-/
theorem rewrite_spec (numbered : t.Numbered)
    (plain : ∀ next, t.look t.temp ≠ .ok (some (.link next)))
    (apart : t.TempOpens addr → t.Apart t.temp addr data) {luck : PutLuck} {now : Timestamp}
    {stored : Except StoreError Addr} (ended : t.rewrite luck now addr data = (stored, u)) :
    (∀ other ≠ addr, t.Leaves other u) ∧ ∀ found, stored = .ok found →
      found = addr ∧ u.addressing = t.addressing ∧ u.read addr = .ok data := by
  -- What is installed reads back, and no other address passes the names involved.
  rcases t.rewrite_eq luck now addr data with ⟨e, failed⟩ | ⟨_, s, alike, dirs, goesOn⟩
  · rw [failed] at ended
    obtain ⟨rfl, rfl⟩ := ended
    exact ⟨fun other _ => .refl t other, nofun⟩
  · rw [goesOn] at ended
    have differ : t.temp ≠ s.path addr := temp_ne_path t s addr
    obtain ⟨leaves, files⟩ :=
      install_spec (alike.numbered numbered) (by rw [alike.look]; exact plain) differ
      (fun writes => alike.apart (apart ((alike.writes_temp dirs).mp writes))) ended
    refine ⟨fun other differs => (alike.leaves other).trans (leaves other differs), ?_⟩
    intro found stored
    obtain ⟨same, addressing, read⟩ := files found stored
    exact ⟨same, addressing.trans alike.addressing, read⟩

/-- A new time changes nothing of what is read. -/
theorem Leaves.touchPath {now : Timestamp} {other : Addr} :
    t.Leaves other (t.touchPath now addr).2 := by
  -- Touching changes a file's time only.
  unfold BlobTree.touchPath
  split <;> try exact .refl t other
  rename_i k _
  split
  · exact .refl t other
  · refine ⟨rfl, rfl, fun _ _ => rfl, ?_⟩
    intro l _
    by_cases same : k = l
    · subst same
      simp only [readFile, touchFile, List.getElem?_modify_eq]
      cases t.files[k]? <;> rfl
    · simp [readFile, touchFile, same]

/--
A chain that passes a name is read as what stands there now, where nothing before it has changed.
-/
theorem resolve_passed (found : Option BlobThing) (path : u.path addr = t.path addr)
    (passed : p ∈ t.trail addr) (seen : u.look p = .ok (found.map .thing))
    (same : ∀ r, r ≠ p → ¬Ends t.look r → u.look r = t.look r) :
    u.resolve (u.path addr) = .ok found := by
  have ends : Ends u.look p := ⟨_, seen, by cases found <;> simp⟩
  rw [path, resolve, Links.resolve, Links.follow_cut passed ends same, except_ok_bind, seen]
  cases found <;> rfl

/-- An address that passes a place where a file now is reads that file. -/
theorem read_passed_file (path : u.path addr = t.path addr) (passed : p ∈ t.trail addr)
    (seen : u.look p = .ok (some (.thing (.file k))))
    (same : ∀ r, r ≠ p → ¬Ends t.look r → u.look r = t.look r) : u.read addr = u.readFile k := by
  exact read_of_resolve (resolve_passed (some (.file k)) path passed seen same)

/-- An address that passes a place where nothing is any more reads nothing. -/
theorem read_passed_none (path : u.path addr = t.path addr) (passed : p ∈ t.trail addr)
    (seen : u.look p = .ok none) (same : ∀ r, r ≠ p → ¬Ends t.look r → u.look r = t.look r) :
    u.read addr = .error none := by
  rw [read, resolve_passed none path passed seen same]

/-- What is read through the path of another address is read under that address. -/
theorem read_of_passed {other : Addr} (passed : t.path addr ∈ t.trail other)
    (read : t.read other = .ok data) :
    t.read addr = .ok data := by
  -- Both paths lead along one chain, which goes on from the first.
  have led : t.resolve (t.path addr) = t.resolve (t.path other) := by
    obtain ⟨m, fewer, same⟩ : ∃ m ≤ chainLimit, Links.follow t.look tooManyLinks chainLimit
      (t.path other) =
        Links.follow t.look tooManyLinks m (t.path addr) := Links.follow_of_mem passed
    unfold resolve Links.resolve
    match ended : Links.follow t.look tooManyLinks chainLimit (t.path other) with
    | .ok q =>
      -- From there on the chain has more links left.
      rw [Links.follow_mono fewer (same.symm.trans ended)]
    | .error e =>
      rw [BlobTree.read, resolve, Links.resolve, ended] at read
      cases read
  rw [← read, BlobTree.read, BlobTree.read, led]

/-- A directory that can be made for an address is, on a disk that works. -/
theorem MakesShard.createShard (makes : t.MakesShard addr) :
    ∃ s, t.createShard (.ok ()) addr = .ok s := by
  -- The shard is there, or nothing is and it is made.
  unfold BlobTree.createShard
  rcases makes with ⟨opens, names, filed⟩ | absent
  · exact ⟨t, by rw [filed]⟩
  · have plain : t.path addr = ⟨.shard addr.shard.1, addr.shard.2⟩ := by
      simp [path, BlobTree.real, absent]
    exact ⟨_, by rw [plain, absent]; rfl⟩

/-- A file with a number can be read or not, but it is there. -/
theorem readFile_ne (below : k < t.files.length) : t.readFile k ≠ .error none := by
  rw [readFile, List.getElem?_eq_getElem below]
  generalize t.files[k] = node
  obtain ⟨_, reads, _⟩ := node
  cases reads <;> simp [Except.map, Except.mapError]

/-- A write that fails at its first byte leaves an empty file under the name. -/
theorem install_failed (writes : t.Writes temp) {e : IoError}
    (write : luck.write = .failed e (some 0)) :
    t.install luck now temp addr data = (.error (.io e), t.into temp ⟨[], now⟩) := by
  rw [install, writes.write, write]
  simp [Writing.report, Writing.remains]

/-- What was written but cannot be moved is removed, where that is possible. -/
theorem install_stuck (writes : t.Writes temp) {e : IoError} (write : luck.write = .done)
    (rename : luck.rename = .error e) :
    (t.install luck now temp addr data).2 =
      (t.into temp ⟨data, now⟩).removeTemp luck.removeTemp temp := by
  -- A renaming that the disk refuses does not happen, so the temporary file is taken away again.
  rw [install, writes.write, write]
  simp only [Writing.report, Writing.remains, rename]
  split
  · rename_i moved
    cases (takes_of_rename moved).2.2
  · rfl

/-- A directory is still there when a name in one has changed. -/
theorem isSome_into {path : DirPath} {f : BlobFile} (there : (t.dir path).isSome) :
    ((t.into p f).dir path).isSome := by
  -- Writing a file takes no directory away.
  unfold into
  split
  · exact there
  · unfold create enter
    split
    · rw [dir_setDir]
      split
      · rfl
      · exact there
    · exact there

/--
What is moved is read under the address: the bytes that were written, where the file can be read.
-/
theorem install_done (luck : PutLuck) (now : Timestamp) (data : Bytes) (writes : t.Writes temp)
    (differ : temp ≠ t.path addr) (takes : t.Takes (t.path addr))
    (there : (t.dir (t.path addr).dir).isSome) (write : luck.write = .done)
    (rename : luck.rename = .ok ()) :
    ∃ u k, t.install luck now temp addr data = (.ok addr, u) ∧ u.addressing = t.addressing ∧
      u.real = t.real ∧ u.look (t.path addr) = .ok (some (.thing (.file k))) ∧
      (∀ p, p ≠ temp → p ≠ t.path addr → u.look p = t.look p) ∧
      ∀ l, t.look temp = .ok (some (.thing (.file l))) → k = l ∧
        u.readFile k = (t.readFile l).map fun _ => data := by
  -- The file is written under the temporary name and moved to the address, where it is found.
  obtain ⟨addressing, real, k, look, content⟩ := writes.into ⟨data, now⟩
  have installed {u : BlobTree}
      (moved : (t.into temp ⟨data, now⟩).rename (.ok ()) temp
        ((t.into temp ⟨data, now⟩).path addr) = .ok u) :
      t.install luck now temp addr data = (.ok addr, u) := by
    rw [install, writes.write, write]
    simp only [Writing.report, Writing.remains, rename, moved]
  have isThere := isSome_into (p := temp) (f := ⟨data, now⟩) there
  generalize t.into temp ⟨data, now⟩ = s at *
  have path : s.path addr = t.path addr := congrFun real _
  have seen : s.look temp = .ok (some (.thing (.file k))) := by rw [look, Function.update_self]
  have able : s.Takes (t.path addr) := by
    obtain ⟨found, taken, plain⟩ := takes
    exact ⟨found, by rw [look, Function.update_of_ne differ.symm, taken], plain⟩
  obtain ⟨found, _, done⟩ := able.rename isThere seen
  obtain ⟨moves, kept, files, here, others⟩ := rename_spec differ seen done
  refine ⟨_, k, installed (by rw [path, done]), moves.trans addressing, kept.trans real,
    here, ?_, ?_⟩
  · intro p other also
    rw [others p other also, look, Function.update_of_ne other]
  · intro l before
    rcases content with ⟨none_, _⟩ | ⟨same, content⟩
    · rw [before] at none_
      cases none_
    · rw [before] at same
      obtain rfl : l = k := by simpa using same
      exact ⟨rfl, by rw [readFile, files, ← readFile, content]⟩

/-- Installing keeps names leading to files there are. -/
theorem Numbered.install (numbered : t.Numbered) :
    (t.install luck now temp addr data).2.Numbered := by
  -- The write, the renaming and the removal each do.
  unfold BlobTree.install
  have written : (t.write luck.write now temp data).2.Numbered := numbered.write
  split
  · rename_i ended
    rwa [ended] at written
  · rename_i ended
    rw [ended] at written
    split
    · rename_i moved
      exact written.rename moved
    · exact written.removeTemp

/-- Rewriting keeps names leading to files there are. -/
theorem Numbered.rewrite (numbered : t.Numbered) : (t.rewrite luck now addr data).2.Numbered := by
  -- It fails at the shard, or it installs.
  rcases t.rewrite_eq luck now addr data with ⟨e, failed⟩ | ⟨_, s, alike, _, goesOn⟩
  · rw [failed]
    exact numbered
  · rw [goesOn]
    exact (alike.numbered numbered).install

/-- Touching keeps names leading to files there are. -/
theorem Numbered.touchPath (numbered : t.Numbered) : (t.touchPath now addr).2.Numbered := by
  -- Only a file's time changes.
  unfold BlobTree.touchPath
  split <;> try exact numbered
  split
  · exact numbered
  · intro p k seen
    simpa [touchFile] using numbered p k seen

/-- A store stays of its kind, whatever a put does. -/
theorem install_addressing : (t.install luck now temp addr data).2.addressing = t.addressing := by
  -- None of the three steps touches the addressing.
  have written (p : Place) : (t.write luck.write now p data).2.addressing = t.addressing := by
    unfold BlobTree.write
    repeat' split
    all_goals first | rfl | exact enter_addressing
  have renamed {s w : BlobTree} {old new : Place} (moved : s.rename luck.rename old new = .ok w) :
      w.addressing = s.addressing := by
    unfold BlobTree.rename at moved
    simp only [except_bind_eq_ok, okOr_eq_ok, ensure_eq_ok] at moved
    obtain ⟨_, _, _, _, _, _, _, _, moved⟩ := moved
    split at moved
    · cases moved
    · rw [except_bind_eq_ok] at moved
      obtain ⟨_, _, moved⟩ := moved
      obtain rfl := Except.ok.inj moved
      split <;> simp
  have removed {s : BlobTree} : (s.removeTemp luck.removeTemp temp).addressing = s.addressing := by
    unfold BlobTree.removeTemp
    split <;> simp
  unfold BlobTree.install
  have written := written temp
  split
  · rename_i ended
    rwa [ended] at written
  · rename_i ended
    rw [ended] at written
    split
    · rename_i moved
      exact (renamed moved).trans written
    · exact removed.trans written

/-- Storing leaves the addressing alone. -/
theorem put_addressing [Crypto] : (t.put luck now data).2.addressing = t.addressing := by
  -- A file that is there is touched, and any other is rewritten.
  have rewritten (addr : Addr) : (t.rewrite luck now addr data).2.addressing = t.addressing := by
    rcases t.rewrite_eq luck now addr data with ⟨e, failed⟩ | ⟨_, s, alike, _, goesOn⟩
    · rw [failed]
    · rw [goesOn]
      exact install_addressing.trans alike.addressing
  unfold BlobTree.put
  dsimp only
  split
  · split
    · have leaves :
          t.Leaves (t.addressing.addrOf data) (t.touchPath now (t.addressing.addrOf data)).2 :=
        .touchPath
      have touched := leaves.addressing
      split <;> rename_i ended <;> rwa [ended] at touched
    · exact rewritten _
  · exact rewritten _

end

end BlobTree

end NasTools
