import NasTools.Model.Store.Indexed
import NasTools.Model.Store.Tree

/-!
Stored tables have one spelling: file manifests, buckets, maps of git objects, and directories.
-/

namespace NasTools

open Checked (lift)

/-- How a manifest is written and read. -/
def manifestFormat : Codec ManifestError Manifest := ⟨Manifest.encode, Manifest.decodeChecked⟩

/-- How a bucket is written and read. -/
def bucketFormat : Codec BucketError BucketManifest :=
  ⟨BucketManifest.encode, BucketManifest.decodeChecked⟩

/-- How a map of git objects is written and read. -/
def oidMapFormat : Codec GitError OidMap := ⟨OidMap.encode, OidMap.decodeChecked⟩

/-- A manifest that started empty, that was read, or that the writer of an object made. -/
inductive Manifest.Built [Crypto] [Cipher] [GearTable] : Manifest → Prop
  | new (kind : Kind) (scheme : KeyScheme) (profile : PaddingProfile) :
    Built (Manifest.new kind scheme profile)
  | decoded {bytes : Bytes} {m : Manifest} (read : Manifest.decode bytes = .ok m) : Built m
  | written {w : ObjectWriter} {s after : BlobStore} {disk : Nat → Disk} {now : Timestamp}
    {kind : Kind} {reader : Reader} {m : Manifest}
    (made : w.write s disk now kind reader = (.ok m, after)) : Built m

/--
A bucket that came about by the operations on buckets, with objects that came about
by those on manifests.
-/
inductive BucketManifest.Built [Crypto] [Cipher] [GearTable] : BucketManifest → Prop
  | empty : Built BucketManifest.empty
  | put {b after : BucketManifest} {key : Bytes} {object : KeyObject} (before : Built b)
    (holds : ∀ m, object.object = some m → m.Built)
    (done : b.put key object = .ok after) : Built after
  | merge {a b : BucketManifest} (first : Built a) (second : Built b) :
    Built (BucketManifest.merge a b)
  | decoded {bytes : Bytes} {b : BucketManifest}
    (read : BucketManifest.decode bytes = .ok b) : Built b

section

variable [Crypto] [Cipher] [GearTable]

/-- The parts of a manifest that was built agree. -/
theorem Manifest.Built.valid {m : Manifest} (built : m.Built) : m.validate = .ok () := by
  -- One way of building after the other.
  cases built with
  | new kind scheme profile => rfl
  | decoded read => exact Manifest.valid_of_decode read
  | written made =>
    rename_i w s after disk now kind reader
    -- The writer returns nothing that does not pass the check.
    simp only [ObjectWriter.write] at made
    split at made
    · cases made
    · split at made
      · cases made
      · split at made
        · cases made
        · rename_i passed
          cases made
          exact passed

/-- The objects of a bucket that was built are valid. -/
theorem BucketManifest.Built.valid {b : BucketManifest} (built : b.Built) : b.Valid := by
  -- Induction over the way it was built.
  induction built with
  | empty => exact valid_empty
  | @put b after key object _ holds done valid =>
    simp only [BucketManifest.put, except_bind_eq_ok, except_pure_eq, Except.ok.injEq] at done
    obtain ⟨_, _, rfl⟩ := done
    intro other e found m is
    simp only [get, Std.ExtTreeMap.getElem?_insert] at found
    -- Under the key there is the object just put, under any other what was there.
    split at found
    · obtain rfl := Option.some.inj found
      exact (holds m is).valid
    · exact valid other e found m is
  | merge _ _ first second => exact valid_merge first second
  | decoded read => exact valid_of_decode read

/--
File manifests, buckets and maps of git objects have one spelling each.

No input makes a reader panic, and none makes the sum of the lengths overflow.
-/
theorem tables_oneSpelling :
    manifestFormat.OneSpelling (fun m => m.Built ∧ ∃ bytes, m.encode = .ok bytes) ∧
    (∀ bytes m, manifestFormat.decode bytes = lift (.ok m) → chunkLengths m.chunks = m.size.toNat) ∧
    bucketFormat.OneSpelling (fun b => b.Built ∧ ∃ bytes, b.encode = .ok bytes) ∧
    oidMapFormat.OneSpelling (fun map => ∃ bytes, OidMap.encode map = .ok bytes) := by
  -- Each of the readers is the one without indices, for which both round trips are known.
  refine ⟨?_, ?_, ?_, ?_⟩
  · exact Codec.oneSpelling_of_total Manifest.decodeChecked_eq
      (fun m ⟨built, bytes, written⟩ => ⟨bytes, written,
        Manifest.decode_encode built.valid written⟩)
      (fun bytes m => Manifest.encode_of_decode)
  · intro bytes m decoded
    have read := (Manifest.decodeChecked_eq bytes).symm.trans decoded
    exact Manifest.chunkLengths_of_decode (Checked.lift_inj.mp read)
  · exact Codec.oneSpelling_of_total BucketManifest.decodeChecked_eq
      (fun b ⟨built, bytes, written⟩ => ⟨bytes, written,
        BucketManifest.decode_encode built.valid written⟩)
      (fun bytes b => BucketManifest.encode_of_decode)
  · exact Codec.oneSpelling_of_total OidMap.decodeChecked_eq
      (fun map ⟨bytes, written⟩ => ⟨bytes, written, OidMap.decode_encode written⟩)
      (fun bytes map => OidMap.encode_of_decode)

end

/-- What a name has to be to stand for a single path component on every platform. -/
structure PlainComponent (name : Bytes) : Prop where
  some_ : name ≠ []
  notHere : name ≠ asciiBytes "."
  notAbove : name ≠ asciiBytes ".."
  noSlash : 0x2F ∉ name
  noBackslash : 0x5C ∉ name
  noNul : 0 ∉ name

/-- The names that pass are the plain ones. -/
theorem safeName_eq_ok {name : Bytes} : safeName name = .ok () ↔ PlainComponent name := by
  -- The six tests are the six conditions.
  simp only [safeName, ensure_eq_ok, not_or]
  constructor
  · intro ⟨some_, notHere, notAbove, noSlash, noBackslash, noNul⟩
    exact ⟨some_, notHere, notAbove, noSlash, noBackslash, noNul⟩
  · intro plain
    exact ⟨plain.some_, plain.notHere, plain.notAbove, plain.noSlash, plain.noBackslash,
      plain.noNul⟩

example : safeName (asciiBytes "a.b") = .ok () := by decide +kernel

namespace DirManifest

variable {dm : DirManifest} {bytes : Bytes}

/-- Every file of a directory agrees with itself. -/
def FilesValid (dm : DirManifest) : Prop :=
  ∀ (name : Bytes) m, dm.entries[name]? = some (.file m) → m.validate = .ok ()

/-- Every directory below has an id, which no sibling of it has. -/
structure OwnIds (dm : DirManifest) : Prop where
  present : ∀ (name : Bytes) addr dirId, dm.entries[name]? = some (.dir addr dirId) → dirId ≠ []
  apart : ∀ (name name' : Bytes) addr addr' dirId, dm.entries[name]? = some (.dir addr dirId) →
    dm.entries[name']? = some (.dir addr' dirId) → name = name'

/-- A manifest is proper when its files are valid and its directories have ids of their own. -/
theorem proper_iff : dm.Proper ↔ dm.FilesValid ∧ dm.OwnIds := by
  -- Files and directories are told apart by what an entry holds.
  have isDir {e : Entry} {dirId : Bytes} (is : e.dirId? = some dirId) :
      ∃ addr, e = .dir addr dirId := by
    cases e with
    | dir addr id => exact ⟨addr, by rw [Option.some.inj is]⟩
    | file m => cases is
    | symlink target => cases is
  constructor
  · intro proper
    refine ⟨fun name m held => proper.sound name _ held,
      fun name addr dirId held => proper.sound name _ held, ?_⟩
    intro name name' addr addr' dirId first second
    exact proper.apart name name' _ _ dirId first second rfl rfl
  · intro ⟨files, ids⟩
    refine ⟨?_, ?_⟩
    · intro name e held
      cases e with
      | file m => exact files name m held
      | dir addr dirId => exact ids.present name addr dirId held
      | symlink target => trivial
    · intro name name' e e' dirId first second is is'
      obtain ⟨addr, rfl⟩ := isDir is
      obtain ⟨addr', rfl⟩ := isDir is'
      exact ids.apart name name' addr addr' dirId first second

/-- A manifest that is written has plain names only. -/
theorem plain_of_encode (encoded : dm.encode = .ok bytes) {name : Bytes} {e : Entry}
    (held : dm.entries[name]? = some e) : PlainComponent name := by
  -- Every entry was written, and writing checks its name first.
  simp only [encode, except_bind_eq_ok] at encoded
  obtain ⟨groups, mapped, _⟩ := encoded
  have member := Std.ExtTreeMap.mem_toList_iff_getElem?_eq_some.mpr held
  obtain ⟨fields, written⟩ := exists_of_mapM mapped (name, e) member
  simp only [entryFields, except_bind_eq_ok] at written
  obtain ⟨_, safe, _⟩ := written
  exact safeName_eq_ok.mp safe

/--
A written directory reads back exactly when its subdirectories have ids of their own.

What is read is written again as it was, with plain names in ascending order.
-/
theorem reads_iff_ownIds (dm : DirManifest) (bytes : Bytes) :
    (dm.FilesValid → dm.encode = .ok bytes → (decode bytes = .ok dm ↔ dm.OwnIds)) ∧
    (decode bytes = .ok dm → dm.encode = .ok bytes ∧
      (∀ (name : Bytes) e, dm.entries[name]? = some e → PlainComponent name) ∧
      dm.entries.toList.Pairwise fun a b => compare a.1 b.1 = .lt) := by
  -- What is read is proper, and what is proper reads back; the files are valid in any case.
  constructor
  · intro files encoded
    constructor
    · intro decoded
      exact (proper_iff.mp (encode_of_decode decoded).1).2
    · intro ids
      exact decode_encode (proper_iff.mpr ⟨files, ids⟩) encoded
  · intro decoded
    have encoded := (encode_of_decode decoded).2
    exact ⟨encoded, fun name e => plain_of_encode encoded, Std.ExtTreeMap.ordered_keys_toList⟩

/-- A directory that is accepted is written. -/
theorem encode_of_isOk (accepted : dm.encode.isOk = true) : ∃ bytes, dm.encode = .ok bytes := by
  -- An encoding that is accepted has bytes.
  cases written : dm.encode with
  | error e =>
    rw [written] at accepted
    cases accepted
  | ok bytes => exact ⟨bytes, rfl⟩

/-- A file of three bytes in one chunk. -/
def note : Manifest :=
  ⟨manifestVersion, .convergent, .none, .file, [7], 3,
    [⟨FixedBytes.zero _, FixedBytes.zero _, FixedBytes.zero _, 3⟩], []⟩

/-- A directory with a file and two directories in it, which have ids of their own. -/
def home : DirManifest :=
  ((empty.insert (asciiBytes "docs") (.dir (FixedBytes.zero _) [1])).insert (asciiBytes "pictures")
    (.dir (FixedBytes.zero _) [2])).insert (asciiBytes "note") (.file note)

/-- What is in it. -/
theorem of_home {name : Bytes} {e : Entry} (held : home.entries[name]? = some e) :
    name = asciiBytes "note" ∧ e = .file note ∨
      name = asciiBytes "pictures" ∧ e = .dir (FixedBytes.zero _) [2] ∨
      name = asciiBytes "docs" ∧ e = .dir (FixedBytes.zero _) [1] := by
  -- The three names are looked up one after the other, from the last one entered.
  have is {k : Bytes} (same : compare k name = .eq) : name = k :=
    (Std.LawfulEqCmp.eq_of_compare same).symm
  simp only [home, insert, empty, Std.ExtTreeMap.getElem?_insert] at held
  split at held
  · rename_i same
    exact .inl ⟨is same, (Option.some.inj held).symm⟩
  · split at held
    · rename_i same
      exact .inr (.inl ⟨is same, (Option.some.inj held).symm⟩)
    · split at held
      · rename_i same
        exact .inr (.inr ⟨is same, (Option.some.inj held).symm⟩)
      · simp at held

/-- Such a directory reads back, and is listed in order. -/
theorem home_reads : ∃ bytes, home.encode = .ok bytes ∧ decode bytes = .ok home ∧
    home.entries.toList.Pairwise fun a b => compare a.1 b.1 = .lt := by
  -- The conditions are looked up entry by entry.
  obtain ⟨bytes, written⟩ := encode_of_isOk (show home.encode.isOk = true by decide +kernel)
  have reads := (reads_iff_ownIds home bytes).1 ?_ written
  · refine ⟨bytes, written, reads.mpr ?ids, ((reads_iff_ownIds home bytes).2 (reads.mpr ?ids)).2.2⟩
    refine ⟨?_, ?_⟩
    · intro name addr dirId held
      rcases of_home held with ⟨_, is⟩ | ⟨_, is⟩ | ⟨_, is⟩ <;> cases is <;> decide
    · intro name name' addr addr' dirId first second
      rcases of_home first with ⟨rfl, is⟩ | ⟨rfl, is⟩ | ⟨rfl, is⟩ <;> cases is <;>
        rcases of_home second with ⟨rfl, is⟩ | ⟨rfl, is⟩ | ⟨rfl, is⟩ <;> cases is <;> rfl
  · intro name m held
    rcases of_home held with ⟨_, is⟩ | ⟨_, is⟩ | ⟨_, is⟩ <;> cases is
    decide

/-- Two directories under different names that share one id. -/
def shared : DirManifest :=
  (empty.insert (asciiBytes "a") (.dir (FixedBytes.zero _) (asciiBytes "x"))).insert
    (asciiBytes "b") (.dir (FixedBytes.zero _) (asciiBytes "x"))

/-- They are written, and what was written is refused. -/
theorem shared_unreadable : ¬∀ dm : DirManifest, ∀ bytes, dm.FilesValid → dm.encode = .ok bytes →
    decode bytes = .ok dm := by
  -- The two entries are directories, so there is no file to be valid.
  intro always
  have refused : (shared.encode >>= decode) =
      .error (.nonCanonical "two sibling directories share a dir_id") := by
    decide
  have files : shared.FilesValid := by
    intro name m held
    simp only [shared, insert, empty, Std.ExtTreeMap.getElem?_insert] at held
    split at held
    · cases held
    · split at held
      · cases held
      · simp at held
  obtain ⟨bytes, written⟩ := encode_of_isOk (show shared.encode.isOk = true by decide)
  rw [written, except_ok_bind, always shared bytes files written] at refused
  cases refused

end DirManifest

end NasTools
