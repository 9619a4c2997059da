import NasTools.Lib.OrderedSet
import NasTools.Lib.Utf8
import NasTools.Model.Delete.Formats
import NasTools.Model.Peer.Acl

/-! The file an access table is kept in, and which tables are read back from theirs. -/

namespace NasTools

/-- Why a file is no access table. -/
inductive AclError where
  | decode (source : DecodeError)
  | unknownRight (value : UInt8)
  | badSubject
  -- Not the magic bytes and then a whole number of two-field entries.
  | raggedEntries (fields : Nat)
  | nonCanonical (reason : String)
deriving DecidableEq

/-- The text an error prints. -/
def AclError.display : AclError → String
  | .decode e => "acl encoding: " ++ e.debug
  | .unknownRight value => "unknown right " ++ toString value
  | .badSubject => "malformed subject"
  | .raggedEntries fields => toString fields ++ " acl fields is not a multiple of 2"
  | .nonCanonical reason => "non-canonical acl: " ++ reason

namespace Right

def all : List Right := [.read, .write, .append, .deleteRequest, .deleteApprove, .publish, .admin]

/-- The right a byte stands for. -/
def ofU8? (v : UInt8) : Option Right := all.find? fun r => r.toU8 == v

/-- A byte is read as the right that is written as it. -/
theorem ofU8?_eq_some {v : UInt8} {r : Right} : ofU8? v = some r ↔ r.toU8 = v := by
  -- The search returns a right with that byte, and there is only one.
  constructor
  · intro found
    simpa using List.find?_some found
  · rintro rfl
    cases r <;> rfl

/-- Different rights are written as different bytes. -/
theorem toU8_inj {r r' : Right} : r.toU8 = r'.toU8 ↔ r = r' := by
  cases r <;> cases r' <;> decide

instance : Std.LawfulEqOrd Right where
  eq_of_compare same := toU8_inj.mp (@Std.LawfulEqCmp.eq_of_compare UInt8 compare _ _ _ same)

end Right

/-- What the file of an access table starts with. -/
def aclMagic : Bytes := asciiBytes "NASA"

/-- The two fields of a subject: its name, and the bytes of its rights in their order. -/
def aclEntryFields (entry : String × OrdSet Right) : List Bytes :=
  [utf8 entry.1, entry.2.toList.map Right.toU8]

/-- Read the rights of a subject, each above the one before it. -/
def decodeRights : (last : Option UInt8) → OrdSet Right → Bytes → Except AclError (OrdSet Right)
  | _, rights, [] => .ok rights
  | last, rights, b :: rest => do
    ensure (last.all fun l => l < b) (.nonCanonical "rights are not in ascending order")
    let right ← okOr (Right.ofU8? b) (.unknownRight b)
    decodeRights (some b) (rights.insert right) rest

/-- Read the entries of a table, two fields at a time. -/
def decodeAclEntries : (prev : Option Bytes) → OrdMap String (OrdSet Right) → List Bytes →
    Except AclError (OrdMap String (OrdSet Right))
  | prev, entries, name :: rights :: rest => do
    let subject ← okOr (ofUtf8? name) .badSubject
    ensure (subject ≠ "") .badSubject
    -- What the encoder would not write is refused.
    ensure (prev.all fun p => compare p name == .lt)
      (.nonCanonical "subjects are not in ascending order")
    let rights ← decodeRights none ∅ rights
    decodeAclEntries (some name) (entries.insert subject rights) rest
  | _, entries, _ => .ok entries

namespace Acl

def fields (a : Acl) : List Bytes := aclMagic :: a.entries.toList.flatMap aclEntryFields

/-- The file of a table. -/
def encode (a : Acl) : Except AclError Bytes := (encodeFields a.fields).mapError .decode

/-- Read the file of a table. -/
def decode (bytes : Bytes) : Except AclError Acl := do
  let f ← (decodeFields bytes).mapError .decode
  ensure (f.head? = some aclMagic) .badSubject
  let body := f.tail
  ensure (body.length % 2 = 0) (.raggedEntries body.length)
  return ⟨← decodeAclEntries none ∅ body⟩

end Acl

/-- Bytes are read as rights exactly when they are those of ascending rights. -/
theorem decodeRights_eq_ok {last : Option UInt8} {held rights : OrdSet Right} {bytes : Bytes} :
    decodeRights last held bytes = .ok rights ↔ ∃ list : List Right, bytes = list.map Right.toU8 ∧
      (list.Pairwise fun a b => compare a b = .lt) ∧
        (∀ r ∈ list, last.all (fun l => l < r.toU8) = true) ∧
      rights = list.foldl (fun set right => set.insert right) held := by
  -- What was read so far grows with every byte, so it stays quantified over.
  induction bytes generalizing last held with
  | nil =>
    constructor
    · intro read
      cases read
      exact ⟨[], rfl, .nil, fun _ member => (List.not_mem_nil member).elim, rfl⟩
    · rintro ⟨list, none_, _, _, is⟩
      obtain rfl := List.map_eq_nil_iff.mp none_.symm
      rw [is]
      rfl
  | cons b rest ih =>
    simp only [decodeRights, except_bind_eq_ok, ensure_eq_ok, okOr_eq_ok, Right.ofU8?_eq_some, ih]
    constructor
    · rintro ⟨_, above, right, is, list, bytes, sorted, later, whole⟩
      subst is bytes
      refine ⟨right :: list, rfl, List.pairwise_cons.mpr ⟨?_, sorted⟩, ?_, whole⟩
      · intro r member
        have less : right.toU8 < r.toU8 := by simpa using later r member
        have numbers : compare right.toU8 r.toU8 = .lt := Std.compare_eq_lt.mpr less
        exact numbers
      · intro r member
        rcases List.mem_cons.mp member with rfl | further
        · exact above
        · cases last with
          | none => rfl
          | some l =>
            have first : l < right.toU8 := by simpa using above
            have second : right.toU8 < r.toU8 := by simpa using later r further
            simpa using UInt8.lt_trans first second
    · rintro ⟨list, bytes, sorted, above, whole⟩
      cases list with
      | nil => cases bytes
      | cons right list =>
        obtain ⟨rfl, rfl⟩ := List.cons.inj bytes
        obtain ⟨least, sorted⟩ := List.pairwise_cons.mp sorted
        refine ⟨(), above right List.mem_cons_self, right, rfl, list, rfl, sorted, ?_, whole⟩
        intro r member
        have numbers : compare right.toU8 r.toU8 = .lt := least r member
        have less : right.toU8 < r.toU8 := Std.compare_eq_lt.mp numbers
        simpa using less

/-- A set of rights has one spelling. -/
theorem decodeRights_none_eq_ok {rights : OrdSet Right} {bytes : Bytes} :
    decodeRights none ∅ bytes = .ok rights ↔ bytes = rights.toList.map Right.toU8 := by
  -- The rights come in ascending order, which is how a set lists them.
  rw [decodeRights_eq_ok]
  constructor
  · rintro ⟨list, bytes, sorted, _, is⟩
    rw [bytes, is, OrdSet.toList_insertAll sorted]
  · intro bytes
    exact ⟨rights.toList, bytes, Std.ExtTreeSet.ordered_toList, fun _ _ => rfl,
      (OrdSet.insertAll_toList rights).symm⟩

/-- Names compare as their bytes do. -/
theorem compare_utf8 (a b : String) : compare (utf8 a) (utf8 b) = compare a b := by
  -- Texts are ordered by their characters, and so are their encodings.
  have bytes (text : String) : utf8 text = text.toList.flatMap String.utf8EncodeChar := by
    have same : text.toUTF8 = text.toList.utf8Encode := String.utf8Encode_toList.symm
    rw [utf8, same, List.utf8Encode]
    simp
  rw [bytes, bytes]
  exact Utf8.compare_text a b

/--
Fields are read as entries exactly when they are those of named entries in the order of their names.
-/
theorem decodeAclEntries_eq_ok {prev : Option Bytes} {held entries : OrdMap String (OrdSet Right)}
    {body : List Bytes} (even : body.length % 2 = 0) :
    decodeAclEntries prev held body = .ok entries ↔ ∃ list : List (String × OrdSet Right),
      body = list.flatMap aclEntryFields ∧ (list.Pairwise fun a b => compare a.1 b.1 = .lt) ∧
      (∀ e ∈ list, e.1 ≠ "" ∧ prev.all (fun p => compare p (utf8 e.1) == .lt) = true) ∧
      entries = list.foldl (fun m e => m.insert e.1 e.2) held := by
  -- Two fields are read at a time, and what was read so far stays quantified over.
  match body with
  | [] =>
    constructor
    · intro read
      cases read
      exact ⟨[], rfl, .nil, fun _ member => (List.not_mem_nil member).elim, rfl⟩
    · rintro ⟨list, none_, _, _, is⟩
      cases list with
      | nil =>
        rw [is]
        rfl
      | cons e list => cases none_
  | [_] => simp at even
  | name :: bytes :: rest =>
    have evenRest : rest.length % 2 = 0 := by
      simp only [List.length_cons] at even
      omega
    simp only [decodeAclEntries, except_bind_eq_ok, ensure_eq_ok, okOr_eq_ok, ofUtf8?_eq_some,
      decodeRights_none_eq_ok, decodeAclEntries_eq_ok evenRest]
    constructor
    · rintro ⟨subject, is, _, named, _, above, rights, spelled, list, fields, sorted, later, whole⟩
      subst is spelled fields
      refine ⟨(subject, rights) :: list, rfl, List.pairwise_cons.mpr ⟨?_, sorted⟩, ?_, whole⟩
      · intro e member
        have less := (later e member).2
        simpa [compare_utf8] using less
      · intro e member
        rcases List.mem_cons.mp member with rfl | further
        · exact ⟨named, above⟩
        · refine ⟨(later e further).1, ?_⟩
          cases prev with
          | none => rfl
          | some p =>
            have first : compare p (utf8 subject) = .lt := by simpa using above
            have second : compare (utf8 subject) (utf8 e.1) = .lt := by
              simpa using (later e further).2
            simpa using Std.TransCmp.lt_trans first second
    · rintro ⟨list, fields, sorted, each, whole⟩
      cases list with
      | nil => cases fields
      | cons e list =>
        obtain ⟨subject, rights⟩ := e
        simp only [List.flatMap_cons, aclEntryFields, List.cons_append, List.nil_append,
          List.cons.injEq] at fields
        obtain ⟨rfl, rfl, rfl⟩ := fields
        obtain ⟨least, sorted⟩ := List.pairwise_cons.mp sorted
        obtain ⟨named, above⟩ := each _ List.mem_cons_self
        refine ⟨subject, rfl, (), named, (), above, rights, rfl, list, rfl, sorted, ?_, whole⟩
        intro e member
        have less : compare (utf8 subject) (utf8 e.1) = .lt :=
          (compare_utf8 _ _).trans (least e member)
        exact ⟨(each e (List.mem_cons_of_mem _ member)).1, by simpa using less⟩
termination_by body.length

namespace Acl

/--
A file is read as a table exactly when it is the encoding of that table, and no
subject of it is empty.
-/
theorem decode_eq_ok {bytes : Bytes} {a : Acl} :
    decode bytes = .ok a ↔ a.encode = .ok bytes ∧ ∀ subject ∈ a.entries, subject ≠ "" := by
  -- The fields are read in pairs, and a pair is an entry.
  have twoFields (list : List (String × OrdSet Right)) :
      (list.flatMap aclEntryFields).length % 2 = 0 := by
    simp [aclEntryFields]
  have named : (∀ subject ∈ a.entries, subject ≠ "") ↔ ∀ e ∈ a.entries.toList, e.1 ≠ "" := by
    simp only [Std.ExtTreeMap.mem_iff_isSome_getElem?, Option.isSome_iff_exists, Prod.forall,
      Std.ExtTreeMap.mem_toList_iff_getElem?_eq_some]
    constructor
    · intro each subject rights held
      exact each subject ⟨rights, held⟩
    · rintro each subject ⟨rights, held⟩
      exact each subject rights held
  rw [named]
  simp only [decode, except_bind_eq_ok, except_mapError_eq_ok, ensure_eq_ok, except_pure_eq,
    Except.ok.injEq, encode]
  constructor
  · rintro ⟨f, split, _, magic, _, even, entries, read, is⟩
    obtain ⟨list, body, sorted, each, whole⟩ := (decodeAclEntries_eq_ok even).mp read
    have listed : a.entries.toList = list := by
      rw [← is, whole]
      exact OrdMap.toList_fileAll sorted
    rw [listed]
    refine ⟨?_, fun e member => (each e member).1⟩
    -- The fields that were read are those that are written, so they have the same bytes.
    obtain ⟨spelled, fits⟩ := framed_of_decodeFields split
    have same : a.fields = f := by
      rw [fields, listed, ← body]
      exact (List.eq_cons_of_mem_head? magic).symm
    rw [same, encodeFields_ok fits, spelled]
  · rintro ⟨written, each⟩
    have split : decodeFields bytes = .ok a.fields := decodeFields_of_encodeFields written
    refine ⟨a.fields, split, (), rfl, (), twoFields _, a.entries, ?_, rfl⟩
    exact (decodeAclEntries_eq_ok (twoFields _)).mpr
      ⟨a.entries.toList, rfl, Std.ExtTreeMap.ordered_keys_toList,
        fun e member => ⟨each e member, rfl⟩, (OrdMap.fileAll_toList a.entries).symm⟩

/-- There are no more rights in a set than there are rights. -/
theorem length_rights_le (rights : OrdSet Right) :
    (rights.toList.map Right.toU8).length ≤ maxField := by
  -- There are only so many rights, and a set lists each of them once.
  have within : rights.toList ⊆ Right.all := by
    intro r _
    cases r <;> decide
  have few := ((OrdSet.nodup_toList rights).subperm within).length_le
  rw [List.length_map]
  exact Nat.le_trans few (by decide)

/-- A table is written exactly when the names of its subjects fit into a field. -/
theorem encode_isOk_iff {a : Acl} :
    (∃ bytes, a.encode = .ok bytes) ↔ ∀ subject ∈ a.entries, (utf8 subject).length ≤ maxField := by
  -- The table is written if its fields fit.
  have fit : FieldsFit a.fields ↔ ∀ subject ∈ a.entries, (utf8 subject).length ≤ maxField := by
    constructor
    · intro fits subject member
      rw [Std.ExtTreeMap.mem_iff_isSome_getElem?, Option.isSome_iff_exists] at member
      obtain ⟨rights, held⟩ := member
      have listed := Std.ExtTreeMap.mem_toList_iff_getElem?_eq_some.mpr held
      refine fits (utf8 subject)
        (List.mem_cons_of_mem _ (List.mem_flatMap.mpr ⟨(subject, rights), listed, ?_⟩))
      simp [aclEntryFields]
    · intro each field member
      rcases List.mem_cons.mp member with rfl | further
      · decide
      · obtain ⟨⟨subject, rights⟩, listed, inEntry⟩ := List.mem_flatMap.mp further
        have held := Std.ExtTreeMap.mem_toList_iff_getElem?_eq_some.mp listed
        simp only [aclEntryFields, List.mem_cons, List.not_mem_nil, or_false] at inEntry
        -- The magic bytes and the rights are always short enough.
        rcases inEntry with rfl | rfl
        · exact each subject (Std.ExtTreeMap.mem_iff_isSome_getElem?.mpr (by simp [held]))
        · exact length_rights_le rights
  rw [← fit]
  constructor
  · rintro ⟨bytes, written⟩
    exact fits_of_encodeFields (except_mapError_eq_ok.mp written)
  · intro fits
    exact ⟨_, except_mapError_eq_ok.mpr (encodeFields_ok fits)⟩

/-- What is done to an access table. -/
inductive Edit where
  | grant (subject : String) (rights : List Right)
  | revoke (subject : String) (right : Right)
  | removeSubject (subject : String)

def edit (a : Acl) : Edit → Acl
  | .grant subject rights => a.grant subject rights
  | .revoke subject right => a.revoke subject right
  | .removeSubject subject => a.removeSubject subject

/--
A table that edits made is read back from its file exactly when no subject of it is empty or longer
than a field, and whatever is read as a table is the file of that table.
-/
theorem table_reads_back_iff (edits : List Edit) (file : Bytes) (read : Acl) :
    ((∃ bytes, (edits.foldl edit empty).encode = .ok bytes ∧
      decode bytes = .ok (edits.foldl edit empty)) ↔
      ∀ subject ∈ (edits.foldl edit empty).entries, subject ≠ "" ∧
        (utf8 subject).length ≤ maxField) ∧
    (decode file = .ok read → read.encode = .ok file) := by
  -- Writing fails only on subjects that are too long, and reading refuses the empty one.
  refine ⟨?_, fun accepted => (decode_eq_ok.mp accepted).1⟩
  simp only [decode_eq_ok, forall_and, ← encode_isOk_iff]
  constructor
  · rintro ⟨bytes, written, _, named⟩
    exact ⟨named, bytes, written⟩
  · rintro ⟨named, bytes, written⟩
    exact ⟨bytes, written, written, named⟩

/-- A table in which somebody without a name may read. -/
def nameless : Acl := edit empty (.grant "" [.read])

/-- Its file. -/
def namelessFile : Bytes := framedField aclMagic ++ framedField [] ++ framedField [0]

/-- A table with an entry for the empty subject is written but not read back. -/
theorem nameless_table_is_lost :
    nameless.encode = .ok namelessFile ∧ decode namelessFile ≠ .ok nameless := by
  refine ⟨by decide, fun read => ?_⟩
  have named := (decode_eq_ok.mp read).2 ""
  exact named (by decide) rfl

end Acl

end NasTools
