import NasTools.Lib.Lossy
import NasTools.Lib.NamedTree
import NasTools.Lib.OrderedSet
import NasTools.Model.Store.Object

/-!
Directory trees: one sealed manifest for each directory, files inlined, subdirectories by address.
-/

namespace NasTools

/-- The key derivation of BLAKE3, which comes from another package; nothing is assumed of it. -/
class Kdf where
  deriveKey : (context : String) → (material : Bytes) → FixedBytes keyLen

/-- What the secrets of directories are derived under. -/
def contextDir : String := "nas-tools/dir/v1"

/-- What the keys of directory manifests are derived under. -/
def contextDirManifest : String := "nas-tools/dir/manifest/v1"

/-- What a directory manifest starts with. -/
def dirMagic : Bytes := asciiBytes "NASD"

/-- What a sealed directory manifest is bound to. -/
def dirAad : Bytes := asciiBytes "nas-tools/aad/dir/v1"

/-- A directory's secret in the chain from the root of its namespace. -/
structure DirSecret where
  bytes : FixedBytes keyLen
deriving DecidableEq

section

variable [Kdf]

/-- The secret of the topmost directory. -/
def DirSecret.root (namespaceRootSecret : FixedBytes keyLen) : DirSecret :=
  ⟨Kdf.deriveKey contextDir namespaceRootSecret.bytes⟩

/-- The secret of a directory below, which its id tells from its siblings. -/
def DirSecret.child (dir : DirSecret) (dirId : Bytes) : DirSecret :=
  ⟨Kdf.deriveKey contextDir (dir.bytes.bytes ++ dirId)⟩

/-- The key of a directory's manifests. -/
def manifestKey (dir : DirSecret) : FixedBytes keyLen :=
  Kdf.deriveKey contextDirManifest dir.bytes.bytes

end

/-- Why a tree is not written or not read. -/
inductive TreeError where
  | object (source : ObjectError)
  | store (source : StoreError)
  | manifest (source : ManifestError)
  | io (source : IoError)
  | crypto (source : CryptoError)
  | decode (source : DecodeError)
  | badMagic
  | badEntry (value : UInt8)
  -- A name that is no plain path component; it is refused rather than normalised.
  | unsafeName (name : String)
  | duplicateName (name : String)
  | raggedEntries (fields : Nat)
  -- Well-formed, and yet nothing that is ever encoded.
  | nonCanonical (reason : String)
deriving DecidableEq

/-- One entry of a directory. -/
inductive Entry where
  | file (manifest : Manifest)
  | dir (addr : Addr) (dirId : Bytes)
  | symlink (target : Bytes)
deriving DecidableEq

/-- A directory manifest: its entries by name. -/
structure DirManifest where
  entries : OrdMap Bytes Entry

instance : DecidableEq DirManifest := fun a b =>
  decidable_of_iff (a.entries.toList = b.entries.toList) (by
    rw [Std.ExtTreeMap.toList_inj]
    cases a
    cases b
    simp)

/-- A name as it is shown in an error. -/
def shownName (name : Bytes) : String := String.ofList (fromUtf8Lossy name)

/-- Refuse what is not a single, ordinary path component. -/
def safeName (name : Bytes) : Except TreeError Unit :=
  let bad := name = [] ∨ name = asciiBytes "." ∨ name = asciiBytes ".." ∨ 0x2F ∈ name ∨
    0x5C ∈ name ∨ 0 ∈ name
  ensure (¬bad) (.unsafeName (shownName name))

namespace DirManifest

/-- A directory with nothing in it. -/
def empty : DirManifest := ⟨∅⟩

/-- Enter something under a name. -/
def insert (dm : DirManifest) (name : Bytes) (e : Entry) : DirManifest := ⟨dm.entries.insert name e⟩

/-- The kind of an entry, and what is kept of it. -/
def encodeEntry : Entry → Except TreeError (UInt8 × Bytes)
  | .file m => do
    let bytes ← m.encode.mapError .manifest
    return (0, bytes)
  | .dir addr dirId => .ok (1, addr.bytes ++ dirId)
  | .symlink target => do
    ensure (target ≠ []) (.nonCanonical "empty symlink target")
    return (2, target)

/-- The three fields of one entry. -/
def entryFields (entry : Bytes × Entry) : Except TreeError (List Bytes) := do
  safeName entry.1
  let (kind, payload) ← encodeEntry entry.2
  return [entry.1, [kind], payload]

/-- The manifest as it is stored, before it is sealed. -/
def encode (dm : DirManifest) : Except TreeError Bytes := do
  let groups ← dm.entries.toList.mapM entryFields
  (encodeFields (dirMagic :: groups.flatten)).mapError .decode

/-- The kind of an entry, which is one byte. -/
def decodeKind (field : Bytes) : Except TreeError UInt8 :=
  match field with
  | [kind] => .ok kind
  | _ => .error (.nonCanonical "kind field is not one byte")

/-- The address and the id of a directory, where no sibling before it has that id. -/
def decodeDir (dirIds : OrdSet Bytes) (payload : Bytes) : Except TreeError (Addr × Bytes) :=
  if long : addrLen ≤ payload.length then do
    let dirId := payload.drop addrLen
    ensure (dirId ≠ []) (.nonCanonical "empty dir_id")
    ensure (¬dirIds.contains dirId) (.nonCanonical "two sibling directories share a dir_id")
    return (⟨payload.take addrLen, by simp [addrLen] at long ⊢; exact long⟩, dirId)
  else .error (.badEntry 1)

/-- Read an entry of some kind, and note the id of a directory. -/
def decodeEntry (dirIds : OrdSet Bytes) (kind : UInt8) (payload : Bytes) :
    Except TreeError (Entry × OrdSet Bytes) :=
  match kind with
  | 0 => do
    let m ← (Manifest.decode payload).mapError .manifest
    return (.file m, dirIds)
  | 1 => do
    let (addr, dirId) ← decodeDir dirIds payload
    return (.dir addr dirId, dirIds.insert dirId)
  | 2 => do
    ensure (payload ≠ []) (.nonCanonical "empty symlink target")
    return (.symlink payload, dirIds)
  | value => .error (.badEntry value)

/-- Read entries three fields at a time, each name above the one before it. -/
def decodeEntries : (prev : Option Bytes) → (dirIds : OrdSet Bytes) → OrdMap Bytes Entry →
    List Bytes → Except TreeError (OrdMap Bytes Entry)
  | prev, dirIds, entries, name :: kind :: payload :: rest => do
    safeName name
    ensure (prev.all fun p => compare p name == .lt)
      (.nonCanonical "entries are not in ascending name order")
    let kind ← decodeKind kind
    let (e, dirIds) ← decodeEntry dirIds kind payload
    ensure (¬entries.contains name) (.duplicateName (shownName name))
    decodeEntries (some name) dirIds (entries.insert name e) rest
  | _, _, entries, _ => .ok entries

/-- Read a directory manifest back. -/
def decode (bytes : Bytes) : Except TreeError DirManifest :=
  match decodeFields bytes with
  | .error e => .error (.decode e)
  | .ok [] => .error .badMagic
  | .ok (magic :: body) => do
    ensure (magic = dirMagic) .badMagic
    ensure (body.length % 3 = 0) (.raggedEntries body.length)
    let entries ← decodeEntries none ∅ ∅ body
    return ⟨entries⟩

/-- The address of the directory that is entered under a name. -/
def childAt (dm : DirManifest) (name : Bytes) : Option Addr :=
  match dm.entries[name]? with
  | some (.dir addr _) => some addr
  | _ => none

end DirManifest

/-- The id of an entry that is a directory. -/
def Entry.dirId? : Entry → Option Bytes
  | .dir _ dirId => some dirId
  | _ => none

/-- A file agrees with itself, and a directory has an id. -/
def Entry.Sound : Entry → Prop
  | .file m => m.validate = .ok ()
  | .dir _ dirId => dirId ≠ []
  | .symlink _ => True

namespace DirManifest

/-- Every entry is sound, and no two directories have one id. -/
structure Proper (dm : DirManifest) : Prop where
  sound : ∀ (name : Bytes) e, dm.entries[name]? = some e → e.Sound
  apart : ∀ (name name' : Bytes) e e' dirId, dm.entries[name]? = some e →
    dm.entries[name']? = some e' →
    e.dirId? = some dirId → e'.dirId? = some dirId → name = name'

/-- A sound entry reads back, and its id is noted. -/
theorem decodeEntry_encode {e : Entry} {kind : UInt8} {payload : Bytes}
    (encoded : encodeEntry e = .ok (kind, payload)) (sound : e.Sound) {dirIds : OrdSet Bytes}
    (fresh : ∀ dirId, e.dirId? = some dirId → dirId ∉ dirIds) :
    decodeEntry dirIds kind payload = .ok (e, e.dirId?.elim dirIds dirIds.insert) := by
  -- One case for each kind of entry: a directory has its address in front of its id.
  cases e with
  | file m =>
    simp only [encodeEntry, except_bind_eq_ok, except_mapError_eq_ok, except_pure_eq,
      Except.ok.injEq, Prod.mk.injEq] at encoded
    obtain ⟨bytes, written, rfl, rfl⟩ := encoded
    have decoded := Manifest.decode_encode sound written
    simp only [decodeEntry, decoded, except_mapError_ok, except_ok_bind]
    rfl
  | dir addr dirId =>
    simp only [encodeEntry, Except.ok.injEq, Prod.mk.injEq] at encoded
    obtain ⟨rfl, rfl⟩ := encoded
    have size : addr.bytes.length = addrLen := addr.size
    have long : addrLen ≤ (addr.bytes ++ dirId).length := by
      rw [List.length_append, size]
      exact Nat.le_add_right _ _
    have absent : ¬dirIds.contains dirId = true :=
      fun present => fresh dirId rfl (by simpa using present)
    obtain ⟨bytes, width⟩ := addr
    simp only [decodeEntry, decodeDir, dif_pos long, List.drop_left' size, List.take_left' size,
      ensure_of (show dirId ≠ [] from sound), except_ok_bind, ensure_of absent, except_pure_eq]
    rfl
  | symlink target =>
    simp only [encodeEntry, except_bind_eq_ok, ensure_eq_ok, except_pure_eq, Except.ok.injEq,
      Prod.mk.injEq] at encoded
    obtain ⟨_, some_, rfl, rfl⟩ := encoded
    simp only [decodeEntry, ensure_of some_, except_ok_bind]
    rfl

/-- Sound entries in the order of their names read back one after the other. -/
theorem decodeEntries_encode {list : List (Bytes × Entry)} {groups : List (List Bytes)}
    (encoded : list.mapM entryFields = .ok groups) (sound : ∀ entry ∈ list, entry.2.Sound)
    (apart : list.Pairwise fun a b => ∀ dirId, a.2.dirId? = some dirId → b.2.dirId? ≠ some dirId)
    (sorted : list.Pairwise fun a b => compare a.1 b.1 = .lt) (prev : Option Bytes)
    (dirIds : OrdSet Bytes) (entries : OrdMap Bytes Entry) (upTo : OrdMap.ReadUpTo entries prev)
    (after : ∀ entry ∈ list, prev.all (fun p => compare p entry.1 == .lt) = true)
    (fresh : ∀ entry ∈ list, ∀ dirId, entry.2.dirId? = some dirId → dirId ∉ dirIds) :
    ∃ result, decodeEntries prev dirIds entries groups.flatten = .ok result ∧
      result.toList = entries.toList ++ list := by
  -- What was read so far grows at the end, so it stays quantified over.
  induction list generalizing groups prev dirIds entries with
  | nil =>
    obtain rfl : [] = groups := by simpa using encoded
    exact ⟨entries, rfl, by simp⟩
  | cons entry rest ih =>
    obtain ⟨name, e⟩ := entry
    simp only [List.mapM_cons, except_bind_eq_ok, except_pure_eq, Except.ok.injEq] at encoded
    obtain ⟨first, here, others, later, rfl⟩ := encoded
    simp only [entryFields, except_bind_eq_ok, except_pure_eq, Except.ok.injEq] at here
    obtain ⟨_, safe, ⟨kind, payload⟩, written, rfl⟩ := here
    obtain ⟨apartHere, apartRest⟩ := List.pairwise_cons.mp apart
    obtain ⟨below, sortedRest⟩ := List.pairwise_cons.mp sorted
    have read := decodeEntry_encode written (sound (name, e) (by simp)) (fresh (name, e) (by simp))
    have ascending := after (name, e) List.mem_cons_self
    have top := upTo.below ascending
    have absent := OrdMap.not_contains_of_below top
    -- The new entry goes on top, and its id is one that no later directory has.
    obtain ⟨result, decoded, listed⟩ :=
      ih later (fun x member => sound x (by simp [member])) apartRest sortedRest
      (some name) (e.dirId?.elim dirIds dirIds.insert) (entries.insert name e)
        (OrdMap.readUpTo_insert top)
      (fun x member => by simpa using below x member)
      (by
        intro x member dirId is noted
        cases own : e.dirId? with
        | none =>
          rw [own] at noted
          exact fresh x (by simp [member]) dirId is noted
        | some id =>
          rw [own] at noted
          rcases Std.ExtTreeSet.mem_insert.mp noted with same | held
          · rw [Std.LawfulEqCmp.eq_of_compare same] at own
            exact apartHere x member dirId own is
          · exact fresh x (by simp [member]) dirId is held)
    refine ⟨result, ?_, ?_⟩
    · simp only [List.flatten_cons, List.cons_append, List.nil_append, decodeEntries, safe,
        except_ok_bind, ensure_of ascending, decodeKind, read, ensure_of absent]
      exact decoded
    · rw [listed, OrdMap.toList_insert_top top, List.append_assoc]
      rfl

/-- Three fields for every entry. -/
theorem groups_length {list : List (Bytes × Entry)} {groups : List (List Bytes)}
    (encoded : list.mapM entryFields = .ok groups) : groups.flatten.length % 3 = 0 := by
  -- Every entry is written as three fields.
  induction list generalizing groups with
  | nil =>
    obtain rfl : [] = groups := by simpa using encoded
    rfl
  | cons entry rest ih =>
    simp only [List.mapM_cons, except_bind_eq_ok, except_pure_eq, Except.ok.injEq] at encoded
    obtain ⟨first, here, others, later, rfl⟩ := encoded
    simp only [entryFields, except_bind_eq_ok, except_pure_eq, Except.ok.injEq] at here
    obtain ⟨_, _, _, _, rfl⟩ := here
    have even := ih later
    simp only [List.flatten_cons, List.length_append, List.length_cons, List.length_nil]
    omega

/-- A proper directory manifest reads back from its stored form. -/
theorem decode_encode {dm : DirManifest} {bytes : Bytes} (proper : dm.Proper)
    (encoded : dm.encode = .ok bytes) :
    decode bytes = .ok dm := by
  -- The listing that was written is read entry by entry into the same map.
  simp only [encode, except_bind_eq_ok, except_mapError_eq_ok] at encoded
  obtain ⟨groups, mapped, framed⟩ := encoded
  have fits := fits_of_encodeFields framed
  rw [encodeFields_ok fits, Except.ok.injEq] at framed
  subst framed
  have held {entry : Bytes × Entry} (member : entry ∈ dm.entries.toList) :
      dm.entries[entry.1]? = some entry.2 :=
    Std.ExtTreeMap.mem_toList_iff_getElem?_eq_some.mp member
  have sorted := Std.ExtTreeMap.ordered_keys_toList (t := dm.entries)
  -- One id stands under one name, and the names in the listing are all different.
  have apart : dm.entries.toList.Pairwise fun a b => ∀ dirId, a.2.dirId? = some dirId →
      b.2.dirId? ≠ some dirId := by
    refine sorted.imp_of_mem ?_
    intro a b inA inB less dirId first second
    have same := proper.apart _ _ _ _ _ (held inA) (held inB) first second
    rw [same] at less
    simp at less
  obtain ⟨result, decoded, listed⟩ := decodeEntries_encode mapped
    (fun entry member => proper.sound _ _ (held member)) apart sorted none ∅ ∅ OrdMap.readUpTo_empty
    (fun _ _ => rfl) (by simp)
  -- The entries read are those listed, and a map is determined by its listing.
  rw [OrdMap.toList_empty, List.nil_append] at listed
  obtain rfl : result = dm.entries := Std.ExtTreeMap.toList_inj.mp listed
  simp only [decode, decodeFields_framed fits, ensure_of, except_ok_bind,
    ensure_of (groups_length mapped), decoded, except_pure_eq]

/-- An entry that was read is sound, has an id of its own, and is written again as it was. -/
theorem encodeEntry_of_decode {dirIds noted : OrdSet Bytes} {kind : UInt8}
    {payload : Bytes} {e : Entry} (decoded : decodeEntry dirIds kind payload = .ok (e, noted)) :
    e.Sound ∧ (∀ dirId, e.dirId? = some dirId → dirId ∉ dirIds) ∧
      noted = e.dirId?.elim dirIds dirIds.insert ∧
      encodeEntry e = .ok (kind, payload) := by
  -- One case for each kind of entry that is accepted.
  unfold decodeEntry at decoded
  split at decoded
  · simp only [except_bind_eq_ok, except_mapError_eq_ok, except_pure_eq, Except.ok.injEq,
      Prod.mk.injEq] at decoded
    obtain ⟨m, read, rfl, rfl⟩ := decoded
    refine ⟨Manifest.valid_of_decode read, (fun _ impossible => by cases impossible), rfl, ?_⟩
    rw [encodeEntry, Manifest.encode_of_decode read, except_mapError_ok]
    rfl
  · simp only [except_bind_eq_ok, except_pure_eq, Except.ok.injEq, Prod.mk.injEq] at decoded
    obtain ⟨⟨addr, dirId⟩, read, rfl, rfl⟩ := decoded
    unfold decodeDir at read
    split at read
    · simp only [except_bind_eq_ok, ensure_eq_ok, except_pure_eq, Except.ok.injEq,
        Prod.mk.injEq] at read
      obtain ⟨_, some_, _, fresh, rfl, rfl⟩ := read
      refine ⟨some_, ?_, rfl, ?_⟩
      · intro dirId is held
        obtain rfl := Option.some.inj is
        exact fresh (by simpa using held)
      · rw [encodeEntry, List.take_append_drop]
    · cases read
  · simp only [except_bind_eq_ok, ensure_eq_ok, except_pure_eq, Except.ok.injEq, Prod.mk.injEq]
      at decoded
    obtain ⟨_, some_, rfl, rfl⟩ := decoded
    refine ⟨trivial, (fun _ impossible => by cases impossible), rfl, ?_⟩
    rw [encodeEntry, ensure_of some_]
    rfl
  · cases decoded

/-- Entries that were read are written again as they were. -/
theorem encode_of_decodeEntries {prev : Option Bytes} {dirIds : OrdSet Bytes}
    {entries result : OrdMap Bytes Entry} {fields : List Bytes}
    (read : OrdMap.ReadUpTo entries prev) (whole : fields.length % 3 = 0)
    (decoded : decodeEntries prev dirIds entries fields = .ok result) :
    ∃ list groups, list.mapM entryFields = .ok groups ∧ groups.flatten = fields ∧
      result.toList = entries.toList ++ list := by
  -- Induction over the groups of three fields, in the order they are read.
  induction prev, dirIds, entries, fields using decodeEntries.induct with
  | case1 prev dirIds entries name kindField payload rest ih =>
    simp only [decodeEntries, except_bind_eq_ok, ensure_eq_ok] at decoded
    obtain ⟨_, safe, _, ascending, kind, isKind, ⟨e, noted⟩, isEntry, _, _, decoded⟩ := decoded
    have below := read.below ascending
    have shorter : rest.length % 3 = 0 := by
      simp only [List.length_cons] at whole
      omega
    obtain ⟨list, groups, later, rfl, listed⟩ :=
      ih _ _ (OrdMap.readUpTo_insert below) shorter decoded
    obtain ⟨_, _, _, written⟩ := encodeEntry_of_decode isEntry
    obtain rfl : kindField = [kind] := by
      unfold decodeKind at isKind
      split at isKind
      · rw [Except.ok.inj isKind]
      · cases isKind
    -- The entry just read is written in front of those behind it.
    have here : entryFields (name, e) = .ok [name, [kind], payload] := by
      simp only [entryFields, safe, except_ok_bind, written, except_pure_eq]
    refine ⟨(name, e) :: list, [name, [kind], payload] :: groups, ?_, rfl, ?_⟩
    · rw [List.mapM_cons, here, later]
      rfl
    · rw [listed, OrdMap.toList_insert_top below, List.append_assoc]
      rfl
  | case2 fields prev dirIds entries few =>
    rw [decodeEntries] at decoded
    · -- Fewer than three fields that are a multiple of three are none.
      obtain rfl := Except.ok.inj decoded
      rcases fields with _ | ⟨a, _ | ⟨b, _ | ⟨c, rest⟩⟩⟩
      · exact ⟨[], [], rfl, rfl, by simp⟩
      · cases whole
      · cases whole
      · exact (few a b c rest rfl).elim
    · exact few

/-- Entries that were read are proper where those before them are, and their ids are noted. -/
theorem proper_of_decodeEntries {prev : Option Bytes} {dirIds : OrdSet Bytes}
    {entries result : OrdMap Bytes Entry} {fields : List Bytes} (start : Proper ⟨entries⟩)
    (noted : ∀ (name : Bytes) e dirId, entries[name]? = some e → e.dirId? = some dirId →
      dirId ∈ dirIds)
    (decoded : decodeEntries prev dirIds entries fields = .ok result) : Proper ⟨result⟩ := by
  -- Induction over the groups of three fields, each of which adds one entry.
  induction prev, dirIds, entries, fields using decodeEntries.induct with
  | case1 prev dirIds entries name kindField payload rest ih =>
    simp only [decodeEntries, except_bind_eq_ok, ensure_eq_ok] at decoded
    obtain ⟨_, _, _, _, kind, _, ⟨e, noted'⟩, isEntry, _, free, decoded⟩ := decoded
    obtain ⟨sound, fresh, rfl, _⟩ := encodeEntry_of_decode isEntry
    -- An entry of the larger map is the new one, or was there before.
    have lookup {other : Bytes} {found : Entry}
      (held : (entries.insert name e)[other]? = some found) :
        (name = other ∧ found = e) ∨ entries[other]? = some found := by
      rw [Std.ExtTreeMap.getElem?_insert] at held
      split at held
      · rename_i same
        exact .inl ⟨Std.LawfulEqCmp.eq_of_compare same, (Option.some.inj held).symm⟩
      · exact .inr held
    refine ih _ _ ⟨?_, ?_⟩ ?_ decoded
    · intro other found held
      rcases lookup held with ⟨rfl, rfl⟩ | before
      · exact sound
      · exact start.sound other found before
    · intro first second a b dirId heldA heldB isA isB
      rcases lookup heldA with ⟨rfl, rfl⟩ | beforeA
      · rcases lookup heldB with ⟨rfl, rfl⟩ | beforeB
        · rfl
        · exact (fresh dirId isA (noted _ _ _ beforeB isB)).elim
      · rcases lookup heldB with ⟨rfl, rfl⟩ | beforeB
        · exact (fresh dirId isB (noted _ _ _ beforeA isA)).elim
        · exact start.apart _ _ _ _ _ beforeA beforeB isA isB
    · intro other found dirId held is
      have kept (inside : dirId ∈ dirIds) : dirId ∈ e.dirId?.elim dirIds dirIds.insert := by
        cases e.dirId? with
        | none => exact inside
        | some own => exact Std.ExtTreeSet.mem_insert.mpr (.inr inside)
      rcases lookup held with ⟨rfl, rfl⟩ | before
      · rw [is]
        exact Std.ExtTreeSet.mem_insert_self
      · exact kept (noted _ _ _ before is)
  | case2 fields prev dirIds entries few =>
    rw [decodeEntries] at decoded
    · rw [← Except.ok.inj decoded]
      exact start
    · exact few

/-- What was read is proper, and is written again as it was. -/
theorem encode_of_decode {dm : DirManifest} {bytes : Bytes} (decoded : decode bytes = .ok dm) :
    dm.Proper ∧ dm.encode = .ok bytes := by
  -- The entries are what they are written as, in the order of their names.
  unfold decode at decoded
  split at decoded
  · cases decoded
  · cases decoded
  · rename_i magic body split
    simp only [except_bind_eq_ok, ensure_eq_ok, except_pure_eq, Except.ok.injEq] at decoded
    obtain ⟨_, rfl, _, whole, entries, read, rfl⟩ := decoded
    obtain ⟨list, groups, written, rfl, listed⟩ :=
      encode_of_decodeEntries OrdMap.readUpTo_empty whole read
    rw [OrdMap.toList_empty, List.nil_append] at listed
    refine ⟨proper_of_decodeEntries ⟨?_, ?_⟩ ?_ read, ?_⟩
    · intro name e held
      simp at held
    · intro name name' e e' dirId held
      simp at held
    · intro name e dirId held
      simp at held
    · rw [encode, listed, written, except_ok_bind, except_mapError_eq_ok]
      exact encodeFields_of_decodeFields split

end DirManifest

end NasTools
