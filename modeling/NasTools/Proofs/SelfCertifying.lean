import NasTools.Model.Store.Concrete
import NasTools.Proofs.BlobSteps

/-! When a blob store vouches for what it gives back, whatever stands in its directories. -/

namespace NasTools

open Links (Named Ends)

namespace BlobTree

section

variable [Crypto] {t u : BlobTree} {p : Place} {addr : Addr} {data : Bytes} {k : Nat}

/--
Some bytes are stored already, or cannot be, or are written to a file that is apart
from other blobs.
-/
def Clear (t : BlobTree) (data : Bytes) : Prop :=
  let addr := t.addressing.addrOf data
  (∃ found, t.get addr = .ok found) ∨ ¬t.MakesShard addr ∨
    (∀ next, t.look t.temp ≠ .ok (some (.link next))) ∧
      (t.TempOpens addr → t.Apart t.temp addr data)

/--
Storing some bytes goes as it should: they are read back if they are stored, and
nothing else changes.
-/
structure Keeps (t : BlobTree) (luck : PutLuck) (now : Timestamp) (data : Bytes) : Prop where
  stored : ∀ addr, (t.put luck now data).1 = .ok addr →
    addr = t.addressing.addrOf data ∧ (t.put luck now data).2.get addr = .ok data
  others : ∀ other ≠ t.addressing.addrOf data, (t.put luck now data).2.get other = t.get other

variable {luck : PutLuck} {now : Timestamp}

/-- What is stored already is touched. -/
theorem put_of_has {found : Bytes} (has : t.get (t.addressing.addrOf data) = .ok found)
    (luck : PutLuck) (now : Timestamp) :
    (∀ other, t.Leaves other (t.put luck now data).2) ∧
      ∀ addr, (t.put luck now data).1 = .ok addr → addr = t.addressing.addrOf data := by
  -- What is there is right, so the put only touches it.
  obtain ⟨read, right⟩ := get_eq_ok.mp has
  have there := exists_of_read read
  have touched : t.put luck now data =
      ((t.touchPath now (t.addressing.addrOf data)).1.map fun _ => t.addressing.addrOf data,
        (t.touchPath now (t.addressing.addrOf data)).2) := by
    simp only [put, there, read, Addressing.verifies, right, beq_self_eq_true, if_true]
    rcases t.touchPath now (t.addressing.addrOf data) with ⟨_ | _, u⟩ <;> rfl
  rw [touched]
  refine ⟨fun other => .touchPath, fun addr stored => ?_⟩
  obtain ⟨_, _, same⟩ := except_map_eq_ok.mp stored
  exact same.symm

/-- What cannot be read back is written. -/
theorem put_eq_rewrite (absent : ∀ found, t.get (t.addressing.addrOf data) ≠ .ok found) :
    t.put luck now data = t.rewrite luck now (t.addressing.addrOf data) data := by
  -- The way past writing needs a content that verifies.
  unfold put
  dsimp only
  split
  · rename_i existing _ read
    rw [if_neg]
    intro verified
    exact absent existing (get_eq_ok.mpr ⟨read, by simpa [Addressing.verifies] using verified⟩)
  · rfl

/--
Where storing some bytes is clear, nothing of the other blobs changes, and the bytes are read back.
-/
theorem Clear.put_spec (numbered : t.Numbered) (clear : t.Clear data) :
    (∀ other ≠ t.addressing.addrOf data, t.Leaves other (t.put luck now data).2) ∧
      ∀ addr, (t.put luck now data).1 = .ok addr → addr = t.addressing.addrOf data ∧
        ∃ found, (t.put luck now data).2.get addr = .ok found ∧
          (found = data ∨ t.get addr = .ok found) := by
  -- What is there is touched, and what is not is written by way of the temporary file.
  by_cases has : ∃ found, t.get (t.addressing.addrOf data) = .ok found
  · obtain ⟨found, has⟩ := has
    obtain ⟨leaves, stored⟩ := put_of_has has luck now
    refine ⟨fun other _ => leaves other, ?_⟩
    intro addr done
    obtain rfl := stored addr done
    exact ⟨rfl, found, (leaves _).get.trans has, .inr has⟩
  · rw [put_eq_rewrite (not_exists.mp has)]
    rcases clear.resolve_left has with impossible | ⟨plain, apart⟩
    · -- Without a directory for it, nothing is written.
      rcases t.rewrite_eq luck now (t.addressing.addrOf data) data with ⟨e, failed⟩ | ⟨makes, _⟩
      · rw [failed]
        exact ⟨fun other _ => .refl t other, nofun⟩
      · exact absurd makes impossible
    · obtain ⟨leaves, files⟩ :=
        rewrite_spec numbered plain apart (Prod.mk.eta (p := t.rewrite luck now _ data)).symm
      refine ⟨leaves, ?_⟩
      intro addr done
      obtain ⟨rfl, addressing, read⟩ := files addr done
      exact ⟨rfl, data, get_eq_ok.mpr ⟨read, by rw [addressing]⟩, .inl rfl⟩

/-- A blob is missing when nothing is there to be read. -/
theorem get_eq_missing : t.get addr = .error (.missing addr) ↔ t.read addr = .error none := by
  -- Only reading nothing is missing.
  unfold get
  split
  · simp_all
  · simp_all
  · split <;> simp_all

/-- A blob is corrupt when what is read has another address. -/
theorem read_of_corrupt {found : Addr} (corrupt : t.get addr = .error (.corrupt addr found)) :
    ∃ content, t.read addr = .ok content ∧ t.addressing.addrOf content = found := by
  -- Corrupt is what was read and hashes to something else.
  unfold get at corrupt
  split at corrupt
  · cases corrupt
  · cases corrupt
  · rename_i content read
    split at corrupt
    · cases corrupt
    · cases corrupt
      exact ⟨content, read, rfl⟩

/-- What a read gives back tells the address of what is there. -/
theorem addrOf_of_get {x y : Bytes} (addressing : u.addressing = t.addressing)
    (new : u.read addr = .ok x) (old : t.read addr = .ok y) (same : u.get addr = t.get addr) :
    t.addressing.addrOf x = t.addressing.addrOf y := by
  simp only [get, new, old, addressing, Addressing.verifies, beq_iff_eq] at same
  split at same <;> split at same <;> simp_all

/-- The bytes of the files. -/
def contents (t : BlobTree) : Set Bytes := {content | ∃ node ∈ t.files, node.file.content = content}

omit [Crypto] in
/-- What is read is one of the contents. -/
theorem mem_contents {content : Bytes} (read : t.readFile k = .ok content) :
    content ∈ t.contents := by
  -- The file is one of the tree's.
  unfold readFile at read
  split at read
  · cases read
  · rename_i node held
    refine ⟨node, List.mem_of_getElem? held, ?_⟩
    obtain ⟨f, reads, _⟩ := node
    cases reads with
    | error e => cases read
    | ok _ => exact Except.ok.inj read

omit [Crypto] in
/-- What is read under an address is in one of the files. -/
theorem mem_contents_of_read (held : t.read addr = .ok data) : data ∈ t.contents := by
  -- Only a name that leads to a file is read.
  unfold BlobTree.read at held
  split at held
  · cases held
  · cases held
  · exact mem_contents held
  · cases held
  · cases held

/-- The tree that a blob is written in, once there is a directory for it. -/
structure Ready (t : BlobTree) (data : Bytes) (s : BlobTree) : Prop where
  alike : t.Alike s
  writes : s.Writes t.temp
  there : (s.dir (t.path (t.addressing.addrOf data)).dir).isSome
  put : ∀ luck now, luck.createDir = .ok () →
    t.put luck now data = s.install luck now t.temp (t.addressing.addrOf data) data

namespace Ready

variable {s : BlobTree} {other : Addr}

/-- How a write ends that stops at its first byte. -/
def stopped : PutLuck := ⟨.ok (), .failed noSuchDevice (some 0), .ok (), .ok ()⟩

/-- How a put ends whose file cannot be moved, and is removed or not. -/
def stuck (removed : Disk) : PutLuck := ⟨.ok (), .done, .error noSuchDevice, removed⟩

/-- How a put ends that succeeds. -/
def lucky : PutLuck := ⟨.ok (), .done, .ok (), .ok ()⟩

/--
When nothing goes wrong elsewhere, what another blob is read as after a write is what it was before.
-/
theorem get_other (ready : t.Ready data s) (keeps : ∀ luck now, t.Keeps luck now data)
    (differs : other ≠ t.addressing.addrOf data) (luck : PutLuck) (made : luck.createDir = .ok ())
    {ended : BlobTree} (is : (s.install luck 0 t.temp (t.addressing.addrOf data) data).2 = ended) :
      ended.get other = t.get other := by
  rw [← (keeps luck 0).others other differs, ready.put luck 0 made, is]

/-- No other blob is read through the name of the new file. -/
theorem through (ready : t.Ready data s) (numbered : t.Numbered)
    (keeps : ∀ luck now, t.Keeps luck now data) (differs : other ≠ t.addressing.addrOf data) :
    t.temp ∉ t.trail other := by
  -- If the trail passed by the temporary name, a put that fails would change what is read.
  intro passed
  have ends := ready.writes.ends
  rw [ready.alike.look] at ends
  have path : s.path other = t.path other := (ready.alike.leaves other).path
  rcases ready.writes with ⟨k, seen, _⟩ | ⟨seen, _⟩
  · -- The file is there, until a put that fails removes its name.
    have before : t.read other = t.readFile k :=
      read_passed_file rfl passed (ready.alike.look ▸ seen) fun _ _ _ => rfl
    have below : k < t.files.length := numbered _ k (ready.alike.look ▸ seen)
    obtain ⟨addressing, real, l, look, _⟩ := ready.writes.into ⟨data, 0⟩
    have there : (s.into t.temp ⟨data, 0⟩).look t.temp = .ok (some (.thing (.file l))) := by
      rw [look, Function.update_self]
    have erased := look_enter (.of_look there) none
    have same := ready.get_other keeps differs (stuck (.ok ())) rfl
      (install_stuck ready.writes rfl rfl)
    rw [stuck, removeTemp_file there] at same
    have gone : ((s.into t.temp ⟨data, 0⟩).enter t.temp none).read other = .error none := by
      apply read_passed_none (t := t) (p := t.temp) _ passed
      · rw [erased.2, Function.update_self]
        rfl
      · intro r apart _
        rw [erased.2, Function.update_of_ne apart, look, Function.update_of_ne apart,
          ready.alike.look]
      · rw [BlobTree.path, erased.1, real]
        exact path
    rw [get_eq_missing.mpr gone, eq_comm, get_eq_missing, before] at same
    exact readFile_ne below same
  · -- Nothing is there, until a write that fails leaves an empty file.
    have before : t.read other = .error none :=
      read_passed_none rfl passed (ready.alike.look ▸ seen) fun _ _ _ => rfl
    obtain ⟨addressing, real, k, look, content⟩ := ready.writes.into ⟨[], 0⟩
    have same := ready.get_other keeps differs stopped rfl
      (congrArg Prod.snd (install_failed ready.writes rfl))
    have empty : (s.into t.temp ⟨[], 0⟩).read other = .ok [] := by
      have read : (s.into t.temp ⟨[], 0⟩).readFile k = .ok [] := by
        rcases content with ⟨_, _, content⟩ | ⟨there, _⟩
        · exact content
        · rw [seen] at there
          cases there
      rw [← read]
      apply read_passed_file (t := t) (p := t.temp) _ passed
      · rw [look, Function.update_self]
      · intro r apart _
        rw [look, Function.update_of_ne apart, ready.alike.look]
      · rw [BlobTree.path, real]
        exact path
    rw [get_eq_missing.mpr before, get_eq_missing, empty] at same
    cases same

/-- No other blob is read from the file that has the name, unless it is empty and stays so. -/
theorem file (ready : t.Ready data s)
    (distinct : Set.InjOn t.addressing.addrOf ({data, []} ∪ t.contents))
    (keeps : ∀ luck now, t.Keeps luck now data) (differs : other ≠ t.addressing.addrOf data)
    {content : Bytes} (seen : t.look t.temp = .ok (some (.thing (.file k))))
    (read : t.readFile k = .ok content) (led : t.resolve (t.path other) = .ok (some (.file k))) :
    data = [] ∧ content = [] := by
  -- Suppose the file is filled and read under another address.
  have before : t.read other = .ok content := (read_of_resolve led).trans read
  -- Whatever is left in the file is read under the other address.
  have after (left : Bytes) :
      (s.into t.temp ⟨left, 0⟩).addressing = t.addressing ∧
        (s.into t.temp ⟨left, 0⟩).read other = .ok left := by
    obtain ⟨addressing, real, l, look, filled⟩ := ready.writes.into ⟨left, 0⟩
    refine ⟨addressing.trans ready.alike.addressing, ?_⟩
    rw [ready.alike.look, seen] at filled
    rcases filled with ⟨none_, _⟩ | ⟨same, filled⟩
    · cases none_
    · obtain rfl : k = l := by simpa using same
      have kept : (s.into t.temp ⟨left, 0⟩).look = t.look := by
        rw [look, ready.alike.look, ← seen, Function.update_eq_self]
      have led : (s.into t.temp ⟨left, 0⟩).resolve ((s.into t.temp ⟨left, 0⟩).path other) =
          .ok (some (.file k)) := by
        rw [BlobTree.path, real, ready.alike.real, ← BlobTree.path, resolve, kept]
        exact led
      have old : s.readFile k = .ok content := by
        rw [readFile, ready.alike.files]
        exact read
      rw [read_of_resolve led, filled, old]
      rfl
  have same (left : Bytes) (among : left ∈ ({data, []} : Set Bytes))
      (kept : (s.into t.temp ⟨left, 0⟩).get other = t.get other) : left = content := by
    obtain ⟨addressing, new⟩ := after left
    exact distinct (.inl among) (.inr (mem_contents read))
      (addrOf_of_get addressing new before kept)
  have empty : [] = content := by
    apply same [] (by simp)
    exact ready.get_other keeps differs stopped rfl
      (congrArg Prod.snd (install_failed ready.writes rfl))
  have whole : data = content := by
    apply same data (by simp)
    apply ready.get_other keeps differs (stuck (.error noSuchDevice)) rfl
    obtain ⟨_, _, l, look, _⟩ := ready.writes.into ⟨data, 0⟩
    have there : (s.into t.temp ⟨data, 0⟩).look t.temp = .ok (some (.thing (.file l))) := by
      rw [look, Function.update_self]
    rw [install_stuck ready.writes rfl rfl, stuck, removeTemp_file there]
  exact ⟨whole.trans empty.symm, empty.symm⟩

/-- What a put leaves that succeeds: the blob can be read from the file it was moved as. -/
theorem moved (ready : t.Ready data s) (keeps : ∀ luck now, t.Keeps luck now data)
    (takes : t.Takes (t.path (t.addressing.addrOf data))) :
    ∃ u k, (t.put lucky 0 data).2 = u ∧ u.addressing = t.addressing ∧ u.real = t.real ∧
      u.look (t.path (t.addressing.addrOf data)) = .ok (some (.thing (.file k))) ∧
        u.readFile k = .ok data ∧
      (∀ p, p ≠ t.temp → p ≠ t.path (t.addressing.addrOf data) → u.look p = t.look p) ∧
      ∀ l, t.look t.temp = .ok (some (.thing (.file l))) →
        ∃ content, t.readFile l = .ok content := by
  -- A put of which every step succeeds leaves the file at its own name.
  have path (addr : Addr) : s.path addr = t.path addr := (ready.alike.leaves addr).path
  have differ : t.temp ≠ s.path (t.addressing.addrOf data) := temp_ne_path t s _
  obtain ⟨u, k, done, addressing, real, here, others, before⟩ :=
    install_done lucky 0 data ready.writes differ
      ((path _).symm ▸ ready.alike.takes.mpr takes) ((path _).symm ▸ ready.there) rfl rfl
  rw [path] at here others
  have is := ready.put lucky 0 rfl
  rw [done] at is
  have real : u.real = t.real := real.trans ready.alike.real
  obtain ⟨_, stored⟩ := (keeps lucky 0).stored _ (congrArg Prod.fst is)
  rw [is] at stored
  have same : u.path (t.addressing.addrOf data) = t.path (t.addressing.addrOf data) :=
    congrFun real _
  have held : u.readFile k = .ok data := by
    rw [← read_of_look (same ▸ here)]
    exact (get_eq_ok.mp stored).1
  refine ⟨u, k, congrArg Prod.snd is, addressing.trans ready.alike.addressing, real, here,
    held, ?_, ?_⟩
  · intro p other also
    rw [others p other also, ready.alike.look]
  · intro l seen
    obtain ⟨_, content⟩ := before l (ready.alike.look ▸ seen)
    rw [content, except_map_eq_ok] at held
    obtain ⟨old, read, _⟩ := held
    exact ⟨old, by rw [← read, readFile, readFile, ready.alike.files]⟩

/-- No other blob is read through the name of this one. -/
theorem name (ready : t.Ready data s)
    (absent : ∀ found, t.get (t.addressing.addrOf data) ≠ .ok found)
    (keeps : ∀ luck now, t.Keeps luck now data)
    (takes : t.Takes (t.path (t.addressing.addrOf data)))
    (differs : other ≠ t.addressing.addrOf data) :
    t.path (t.addressing.addrOf data) ∉ t.trail other := by
  -- Suppose the other address were read through it.
  intro passed
  obtain ⟨u, k, is, addressing, real, here, held, others, _⟩ := ready.moved keeps takes
  have ends : Ends t.look t.temp := ready.alike.look ▸ ready.writes.ends
  have after : u.read other = .ok data := by
    rw [← held]
    apply read_passed_file (congrFun real _) passed here
    intro r apart goesOn
    apply others r _ apart
    rintro rfl
    exact goesOn ends
  -- So it was read before, and from where this blob is read.
  have same := (keeps lucky 0).others other differs
  rw [is] at same
  have corrupt : u.get other = .error (.corrupt other (t.addressing.addrOf data)) := by
    simp [get, after, Addressing.verifies, addressing, differs.symm]
  rw [corrupt] at same
  obtain ⟨content, before, right⟩ := read_of_corrupt same.symm
  exact absent content (get_eq_ok.mpr ⟨read_of_passed passed before, right⟩)

end Ready

/-- Whatever a put does, there is a file under every name of one. -/
theorem Numbered.put (numbered : t.Numbered) : (t.put luck now data).2.Numbered := by
  -- Touching and writing keep the files numbered.
  unfold BlobTree.put
  dsimp only
  split
  · split
    · have touched : (t.touchPath now (t.addressing.addrOf data)).2.Numbered := numbered.touchPath
      split <;> rename_i ended <;> rwa [ended] at touched
    · exact numbered.rewrite
  · exact numbered.rewrite

/-- What was read is read after a blob was stored that is clear. -/
theorem Clear.get_put (clear : t.Clear data) (numbered : t.Numbered) {found : Bytes}
    (held : t.get addr = .ok found) : (t.put luck now data).2.get addr = .ok found := by
  -- Its own address is touched, and every other is left.
  by_cases here : addr = t.addressing.addrOf data
  · -- It is stored already, so it is only touched.
    subst here
    rw [((put_of_has held _ _).1 _).get, held]
  · rw [((clear.put_spec numbered).1 addr here).get, held]

/-- Where storing some bytes is clear, it goes as it should. -/
theorem Clear.keeps (clear : t.Clear data) (numbered : t.Numbered)
    (distinct : Set.InjOn t.addressing.addrOf ({data, []} ∪ t.contents)) :
      t.Keeps luck now data where
  -- No two contents share an address, so what is read there is the blob.
  stored := by
    intro addr done
    obtain ⟨rfl, found, there, rfl | before⟩ := (clear.put_spec numbered).2 addr done
    · exact ⟨rfl, there⟩
    · -- What was there has the same address, so it is the same.
      obtain ⟨read, right⟩ := get_eq_ok.mp before
      obtain rfl : found = data :=
        distinct (.inr (mem_contents_of_read read)) (.inl (by simp)) right
      exact ⟨rfl, there⟩
  others other differs := ((clear.put_spec numbered).1 other differs).get

/-- A store by addresses that reads the blobs of a directory. -/
structure Shows (t : BlobTree) (s : BlobStore) : Prop where
  addressing : s.addressing = t.addressing
  get : ∀ addr data, s.get addr = .ok data ↔ t.get addr = .ok data

/-- File what can be read under the address of the bytes in a file. -/
def fileBlob (t : BlobTree) (m : OrdMap Addr BlobFile) (node : BlobNode) : OrdMap Addr BlobFile :=
  match t.get (t.addressing.addrOf node.file.content) with
  | .ok data => m.insert (t.addressing.addrOf node.file.content) ⟨data, node.file.modified⟩
  | .error _ => m

/-- The blobs of a directory, by their addresses. -/
def store (t : BlobTree) : BlobStore := ⟨t.addressing, t.files.foldl t.fileBlob ∅⟩

/-- What is filed under an address is what can be read there. -/
theorem getElem?_foldl_fileBlob (t : BlobTree) (addr : Addr) (files : List BlobNode)
    (m : OrdMap Addr BlobFile) :
    ((files.foldl t.fileBlob m)[addr]?).map BlobFile.content =
      if ∃ node ∈ files, t.addressing.addrOf node.file.content = addr then
        (t.get addr).toOption.or (m[addr]?.map BlobFile.content)
      else m[addr]?.map BlobFile.content := by
  -- Induction over the files: the last of one address decides, and all of them agree.
  induction files generalizing m with
  | nil => simp
  | cons first rest ih =>
    rw [List.foldl_cons, ih]
    by_cases here : t.addressing.addrOf first.file.content = addr
    · subst here
      cases held : t.get (t.addressing.addrOf first.file.content) <;>
        simp [fileBlob, held, Except.toOption]
    · have same : (t.fileBlob m first)[addr]? = m[addr]? := by
        unfold fileBlob
        split <;> simp [Std.ExtTreeMap.getElem?_insert, here]
      simp [same, here]

/-- Every directory shows the store of its blobs. -/
theorem shows_store (t : BlobTree) : t.Shows t.store := by
  -- The store files every content that can be read.
  refine ⟨rfl, ?_⟩
  intro addr data
  have filed := t.getElem?_foldl_fileBlob addr t.files ∅
  rw [BlobStore.get_eq_ok]
  constructor
  · rintro ⟨file, there, _, rfl⟩
    rw [show (t.files.foldl t.fileBlob ∅)[addr]? = some file from there] at filed
    split at filed
    · simpa [except_toOption_eq_some] using filed.symm
    · simp at filed
  · intro held
    obtain ⟨read, right⟩ := get_eq_ok.mp held
    obtain ⟨node, listed, content⟩ := mem_contents_of_read read
    rw [if_pos ⟨node, listed, content ▸ right⟩, held] at filed
    obtain ⟨file, there, is⟩ := Option.map_eq_some_iff.mp (filed.trans (Option.some_or ..))
    exact ⟨file, there, is ▸ right, is⟩

/-- A put that succeeds is that of the store, where it is clear. -/
theorem Shows.put {s : BlobStore} (shows : t.Shows s) (numbered : t.Numbered) (clear : t.Clear data)
    (distinct : Set.InjOn t.addressing.addrOf ({data, []} ∪ t.contents))
    (stored : (t.put luck now data).1 = .ok addr) :
    (s.put (.ok ()) now data).1 = .ok addr ∧
      (t.put luck now data).2.Shows (s.put (.ok ()) now data).2 := by
  -- Both puts succeed, and file the same bytes.
  have keeps : t.Keeps luck now data := clear.keeps numbered distinct
  obtain ⟨rfl, back⟩ := keeps.stored addr stored
  obtain ⟨filed, done⟩ := s.put_ok now data
  rw [shows.addressing] at done
  have report : (s.put (.ok ()) now data).1 = .ok (t.addressing.addrOf data) :=
    congrArg Prod.fst done
  -- What was there under the address of the blob is the blob.
  have same {found : Bytes} (held : t.get (t.addressing.addrOf data) = .ok found) :
      found = data := by
    obtain ⟨read, right⟩ := get_eq_ok.mp held
    exact distinct (.inr (mem_contents_of_read read)) (.inl (by simp)) right
  refine ⟨report, ?_, ?_⟩
  · rw [BlobStore.put_grows.addressing, shows.addressing, put_addressing]
  · intro other found
    by_cases here : other = t.addressing.addrOf data
    · subst here
      rw [back]
      constructor
      · intro held
        rcases BlobStore.get_of_put held with before | rfl
        · rw [same ((shows.get _ _).mp before)]
        · rfl
      · intro held
        obtain rfl := Except.ok.inj held
        obtain ⟨kept, there, rfl | ⟨before, _⟩⟩ := BlobStore.get_put report
        · exact there
        · rwa [same ((shows.get _ _).mp before)] at there
    · rw [keeps.others other here, ← shows.get]
      refine ⟨?_, BlobStore.put_grows.kept other found⟩
      intro held
      rcases BlobStore.get_of_put held with before | rfl
      · exact before
      · -- The blob itself is read under its own address alone.
        obtain ⟨_, _, right, rfl⟩ := BlobStore.get_eq_ok.mp held
        rw [BlobStore.put_grows.addressing, shows.addressing] at right
        exact absurd right.symm here

/-- Nothing leads elsewhere: no path of a directory is a link, and no name in one. -/
structure Unlinked (t : BlobTree) : Prop where
  dirs : ∀ path target, t.dir path ≠ some (.link target)
  names : ∀ p next, t.look p ≠ .ok (some (.link next))

omit [Crypto] in
/-- Without links, an address is read at its own names. -/
theorem Unlinked.path (unlinked : t.Unlinked) (addr : Addr) :
    t.path addr = ⟨.shard addr.shard.1, addr.shard.2⟩ := by
  -- No directory is a link, so the path is the address's own.
  unfold BlobTree.path BlobTree.real
  split
  · rename_i target linked
    exact absurd linked (unlinked.dirs _ target)
  · rfl

omit [Crypto] in
/-- Without links the trail is the path alone. -/
theorem Unlinked.trail (unlinked : t.Unlinked) (addr : Addr) : t.trail addr = [t.path addr] := by
  rw [BlobTree.trail, chainLimit, Links.trail_last (unlinked.names _)]

/-- Without links, storing some bytes is clear when the name of the next file is free. -/
theorem Unlinked.clear (unlinked : t.Unlinked) (free : ∀ found, t.look t.temp ≠ .ok (some found)) :
    t.Clear data := by
  -- Of the ways to be clear it is the last one.
  refine .inr (.inr ⟨unlinked.names _, fun _ => ⟨?_, ?_, ?_, ?_⟩⟩)
  · intro other _ passed
    rw [unlinked.trail, List.mem_singleton] at passed
    exact temp_ne_path t t other passed
  · exact fun k _ seen => absurd seen (free _)
  · intro _ other differs passed
    rw [unlinked.trail, List.mem_singleton, unlinked.path, unlinked.path] at passed
    -- No two addresses are filed under the same names.
    have names : (t.addressing.addrOf data).shard = other.shard := by
      simpa [Prod.ext_iff] using passed
    exact differs (Addr.shard_injective names).symm
  · exact fun _ k seen => absurd seen (free _)

end

end BlobTree

/-- The files of a blob store, with one under every name of a file. -/
structure BlobRoot extends BlobTree where
  numbered : toBlobTree.Numbered

namespace BlobRoot

section

variable [Crypto]

/-- Store some bytes, or touch what is already there. -/
def put (r : BlobRoot) (luck : PutLuck) (now : Timestamp) (data : Bytes) :
    Except StoreError Addr × BlobRoot :=
  ((r.toBlobTree.put luck now data).1, ⟨(r.toBlobTree.put luck now data).2, r.numbered.put⟩)

/-- Store several blobs, one after the other, however each goes. -/
def putAll (r : BlobRoot) (blobs : List (PutLuck × Timestamp × Bytes)) : BlobRoot :=
  blobs.foldl (fun r (luck, now, data) => (r.put luck now data).2) r

variable {r : BlobRoot} {addr : Addr} {found : Bytes}

end

section

open Concrete BlobTree

/-- A new store of process 4242, with the directory of one blob. -/
def bare : BlobTree where
  addressing := .content
  shards := (∅ : OrdMap Bytes DirEntry).insert (Addr.shard (digest [7])).1 (.folder (.ok ()) ∅)
  tmp := some (.folder (.ok ()) ∅)
  others := ∅
  files := []
  pid := 4242
  seq := 0

/-- Both of its directories can be gone into, and nothing is in them. -/
theorem bare_stands : bare.Stands (bare.path (digest [7])) ∧ bare.Stands bare.temp := by
  simp [Stands, path, temp, real, dir, bare]

/-- Nothing stands in the bare tree. -/
theorem bare_look (p : Place) (found : Named Place BlobThing) : bare.look p ≠ .ok (some found) := by
  -- It has directories and no names in them.
  obtain ⟨names | _ | _, _⟩ := p
  · by_cases here : (Addr.shard (digest [7])).1 = names <;>
      simp [look, dir, bare, here]
  · simp [look, dir, bare]
  · simp [look, dir, bare]

/-- The store with the file of that blob. -/
def holding (content : Bytes) : BlobRoot where
  toBlobTree := bare.create (bare.path (digest [7])) ⟨content, 0⟩
  numbered := Numbered.create (fun p _ seen => absurd seen (bare_look p _)) bare_stands.1

/-- The name of the next file is another one of the file that the blob is in. -/
def linked : BlobRoot where
  toBlobTree := (holding [7]).enter bare.temp (some (.thing (.file 0)))
  numbered := by
    have stands : (holding [7]).Stands bare.temp :=
      Stands.enter (t := { bare with files := [⟨⟨[7], 0⟩, .ok (), .ok ()⟩] }) (q :=
        bare.temp) bare_stands.2
    refine (holding [7]).numbered.enter stands ?_
    intro k named
    obtain rfl : 0 = k := by simpa using named
    simp [holding, create]

end

end BlobRoot

end NasTools
