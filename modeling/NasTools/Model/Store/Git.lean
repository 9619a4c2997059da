import NasTools.Lib.OrderedMap
import NasTools.Model.Core.Checked
import NasTools.Model.Crypto.Sign

/-!
Git objects by their git names: what they are, where they are stored, and the map as it is written.
-/

namespace NasTools

/-- Bytes of a git object's name. -/
def gitOidLen : Nat := 20

/-- The name of a git object. -/
abbrev GitOid := FixedBytes gitOidLen

/-- What a git object is. -/
inductive GitKind where
  | blob
  | tree
  | commit
  | tag
deriving DecidableEq

/-- Where an object is stored. -/
structure OidEntry where
  addr : Addr
  kind : GitKind
  size : UInt32
deriving DecidableEq

/-- The stored objects by their git names. -/
abbrev OidMap := OrdMap GitOid OidEntry

/-- The discriminant a kind of object is written as. -/
def GitKind.toU8 : GitKind → UInt8
  | .blob => 1
  | .tree => 2
  | .commit => 3
  | .tag => 4

/-- The kind of object a discriminant stands for. -/
def GitKind.fromU8 : UInt8 → Option GitKind
  | 1 => some .blob
  | 2 => some .tree
  | 3 => some .commit
  | 4 => some .tag
  | _ => none

/-- A kind is read from the byte it is written as. -/
@[simp] theorem GitKind.fromU8_toU8 (kind : GitKind) : GitKind.fromU8 kind.toU8 = some kind := by
  cases kind <;> rfl

/-- A discriminant that stands for a kind is the one it is written as. -/
theorem GitKind.toU8_of_fromU8 {b : UInt8} {kind : GitKind} (known : GitKind.fromU8 b = some kind) :
    kind.toU8 = b := by
  unfold GitKind.fromU8 at known
  split at known <;> cases known <;> rfl

/-- Why a map of git objects is refused. -/
inductive GitError where
  | decode (source : DecodeError)
  | badMagic
  | badVersion (value : UInt8)
  | badWidth (field : String) (want got : Nat)
  | ragged (fields : Nat)
  | badKind (value : UInt8)
  | nonCanonical (reason : String)
deriving DecidableEq

/-- The text such an error prints. -/
def GitError.display : GitError → String
  | .decode e => "encoding: " ++ e.debug
  | .badMagic => "not a git oid map"
  | .badVersion value => "git oid map version " ++ toString value
  | .badWidth field want got => "git " ++ field ++ " is " ++ toString got ++ " B, want " ++
    toString want ++ " B"
  | .ragged fields => toString fields ++ " git fields is not a multiple of 4"
  | .badKind value => "unknown git object kind " ++ toString value
  | .nonCanonical reason => "non-canonical git oid map: " ++ reason

/-- What a map of git objects starts with. -/
def gitMagic : Bytes := asciiBytes "NASG"

/-- The version byte of the encoding. -/
def gitVersion : UInt8 := 1

/-- Read a field of an expected width. -/
def gitFixed (width : Nat) (field : String) (data : Bytes) : Except GitError (FixedBytes width) :=
  fixedField .badWidth width field data

namespace OidMap

/-- The four fields of one entry. -/
def entryFields (entry : GitOid × OidEntry) : List Bytes :=
  [entry.1.bytes, entry.2.addr.bytes, [entry.2.kind.toU8], natToLe 4 entry.2.size.toNat]

/-- The map as it is stored, before it is sealed. -/
def encode (map : OidMap) : Except GitError Bytes :=
  (encodeFields (gitMagic :: [gitVersion] :: map.toList.flatMap entryFields)).mapError .decode

/-- Read entries four fields at a time, each name above the one before it. -/
def decodeEntries : (prev : Option GitOid) → OidMap → List Bytes → Except GitError OidMap
  | prev, entries, oid :: addr :: kind :: size :: rest => do
    let oid ← gitFixed gitOidLen "oid" oid
    ensure (prev.all fun p => compare p oid == .lt)
      (.nonCanonical "oids are not in ascending order")
    let addr ← gitFixed addrLen "addr" addr
    let kind ← gitFixed 1 "kind" kind
    let value := kind.bytes.headD 0
    let kind ← okOr (GitKind.fromU8 value) (.badKind value)
    let size ← gitFixed 4 "size" size
    ensure (¬entries.contains oid) (.nonCanonical "duplicate oid")
    decodeEntries (some oid)
      (entries.insert oid ⟨addr, kind, UInt32.ofNat (natOfLe size.bytes)⟩) rest
  | _, entries, _ => .ok entries

/-- Read a map back. -/
def decode (bytes : Bytes) : Except GitError OidMap :=
  match decodeFields bytes with
  | .error e => .error (.decode e)
  | .ok [] => .error .badMagic
  | .ok [magic] => do
    ensure (magic = gitMagic) .badMagic
    throw (.ragged 1)
  | .ok (magic :: version :: body) => do
    ensure (magic = gitMagic) .badMagic
    let version ← gitFixed 1 "version" version
    let value := version.bytes.headD 0
    ensure (value = gitVersion) (.badVersion value)
    ensure (body.length % 4 = 0) (.ragged body.length)
    decodeEntries none ∅ body

/-- A 32-bit size reads back. -/
theorem gitFixed_size (size : UInt32) :
    ∃ a, gitFixed 4 "size" (natToLe 4 size.toNat) = .ok a ∧
      UInt32.ofNat (natOfLe a.bytes) = size := by
  refine ⟨⟨_, natToLe_length 4 _⟩, fixedField_of_length _ _ (natToLe_length 4 _), ?_⟩
  rw [natOfLe_natToLe 4 _ (show size.toNat < 256 ^ 4 from size.toNat_lt), UInt32.ofNat_toNat]

/-- Entries in the order of their names read back one after the other. -/
theorem decodeEntries_fields {list : List (GitOid × OidEntry)}
    (sorted : list.Pairwise fun a b => compare a.1 b.1 = .lt) (prev : Option GitOid)
    (entries : OidMap) (read : OrdMap.ReadUpTo entries prev)
    (after : ∀ entry ∈ list, prev.all (fun p => compare p entry.1 == .lt) = true) :
    ∃ result, decodeEntries prev entries (list.flatMap entryFields) = .ok result ∧
      result.toList = entries.toList ++ list := by
  -- Induction over the list: each entry goes to the end of the map.
  induction list generalizing prev entries with
  | nil => exact ⟨entries, by cases prev <;> rfl, by simp⟩
  | cons entry rest ih =>
    obtain ⟨oid, addr, kind, size⟩ := entry
    obtain ⟨above, sortedRest⟩ := List.pairwise_cons.mp sorted
    -- The next name is above all that were read.
    have ascending := after (oid, ⟨addr, kind, size⟩) List.mem_cons_self
    have below := read.below ascending
    obtain ⟨number, readSize, is⟩ := gitFixed_size size
    have readKind : gitFixed 1 "kind" [kind.toU8] = .ok ⟨[kind.toU8], rfl⟩ :=
      fixedField_of_length _ _ (show [kind.toU8].length = 1 from rfl)
    have readOid : gitFixed gitOidLen "oid" oid.bytes = .ok oid := fixedField_bytes _ _ _
    have readAddr : gitFixed addrLen "addr" addr.bytes = .ok addr := fixedField_bytes _ _ _
    obtain ⟨result, decoded, listed⟩ :=
      ih sortedRest (some oid) (entries.insert oid ⟨addr, kind, size⟩)
      (OrdMap.readUpTo_insert below) (fun entry member => by simpa using above entry member)
    refine ⟨result, ?_, ?_⟩
    · simp only [List.flatMap_cons, entryFields, List.cons_append, List.nil_append, decodeEntries,
        readOid, except_ok_bind, ensure_of ascending, readAddr, readKind, List.headD_cons,
        GitKind.fromU8_toU8, okOr_some, readSize, is,
        ensure_of (OrdMap.not_contains_of_below below)]
      exact decoded
    · rw [listed, OrdMap.toList_insert_top below, List.append_assoc]
      rfl

/-- Entries that were read are those the fields were written from. -/
theorem fields_of_decodeEntries {prev : Option GitOid} {entries result : OidMap}
    {fields : List Bytes} (read : OrdMap.ReadUpTo entries prev) (whole : fields.length % 4 = 0)
    (decoded : decodeEntries prev entries fields = .ok result) :
    ∃ list, fields = list.flatMap entryFields ∧ result.toList = entries.toList ++ list := by
  -- Along the reader's own cases.
  induction prev, entries, fields using decodeEntries.induct with
  | case1 prev entries oidField addrField kindField sizeField rest ih =>
    simp only [decodeEntries, except_bind_eq_ok, ensure_eq_ok, gitFixed, fixedField_eq_ok,
      okOr_eq_ok] at decoded
    obtain ⟨oid, rfl, _, ascending, addr, rfl, one, rfl, kind, known, number, rfl, _, _,
      decoded⟩ := decoded
    -- The name is above all that were read, so it goes to the end of the map.
    have below := read.below ascending
    have shorter : rest.length % 4 = 0 := by
      simp only [List.length_cons] at whole
      omega
    obtain ⟨list, rfl, listed⟩ := ih _ _ _ _ (OrdMap.readUpTo_insert below) shorter decoded
    refine ⟨(oid, ⟨addr, kind, UInt32.ofNat (natOfLe number.bytes)⟩) :: list, ?_, ?_⟩
    · -- Every field is spelled by what was read from it.
      rw [List.flatMap_cons, entryFields, GitKind.toU8_of_fromU8 known, oneByte_spelled,
        natToLe_natOfLe_fixed]
      rfl
    · rw [listed, OrdMap.toList_insert_top below, List.append_assoc]
      rfl
  | case2 fields prev entries few =>
    rw [decodeEntries] at decoded
    · -- Fewer than four fields that are a multiple of four are none.
      obtain rfl := Except.ok.inj decoded
      rcases fields with _ | ⟨a, _ | ⟨b, _ | ⟨c, _ | ⟨d, rest⟩⟩⟩⟩
      · exact ⟨[], rfl, by simp⟩
      · cases whole
      · cases whole
      · cases whole
      · exact (few a b c d rest rfl).elim
    · exact few

/-- Four fields for every entry. -/
theorem length_entryFields (list : List (GitOid × OidEntry)) :
    (list.flatMap entryFields).length = 4 * list.length := by
  -- Every entry takes four fields.
  induction list with
  | nil => rfl
  | cons entry rest ih =>
    rw [List.flatMap_cons, List.length_append, ih, List.length_cons, Nat.mul_succ, Nat.add_comm]
    rfl

/-- A map reads back from its stored form. -/
theorem decode_encode {map : OidMap} {bytes : Bytes} (encoded : encode map = .ok bytes) :
    decode bytes = .ok map := by
  -- The entries are read in the order in which the map lists them.
  rw [encode, except_mapError_eq_ok] at encoded
  have version : gitFixed 1 "version" [gitVersion] = .ok ⟨[gitVersion], rfl⟩ :=
    fixedField_of_length _ _ (show [gitVersion].length = 1 from rfl)
  have whole : (map.toList.flatMap entryFields).length % 4 = 0 := by
    rw [length_entryFields]
    exact Nat.mul_mod_right _ _
  obtain ⟨result, decoded, listed⟩ :=
    decodeEntries_fields (Std.ExtTreeMap.ordered_keys_toList (t := map)) none ∅
    OrdMap.readUpTo_empty (fun _ _ => rfl)
  rw [OrdMap.toList_empty, List.nil_append] at listed
  obtain rfl : result = map := Std.ExtTreeMap.toList_inj.mp listed
  rw [decode, decodeFields_of_encodeFields encoded]
  simp only [ensure_of, except_ok_bind, version, List.headD_cons, ensure_of whole, decoded]

/-- What was read is written again as it was. -/
theorem encode_of_decode {map : OidMap} {bytes : Bytes} (decoded : decode bytes = .ok map) :
    encode map = .ok bytes := by
  -- What passed the checks has the fields that writing it makes.
  unfold decode at decoded
  split at decoded
  · cases decoded
  · cases decoded
  · simp only [except_bind_eq_ok] at decoded
    obtain ⟨_, _, impossible⟩ := decoded
    cases impossible
  · rename_i magic version body split
    simp only [except_bind_eq_ok, ensure_eq_ok, gitFixed, fixedField_eq_ok] at decoded
    obtain ⟨_, rfl, one, rfl, _, known, _, whole, decoded⟩ := decoded
    obtain ⟨list, rfl, listed⟩ := fields_of_decodeEntries OrdMap.readUpTo_empty whole decoded
    rw [OrdMap.toList_empty, List.nil_append] at listed
    rw [encode, except_mapError_eq_ok, listed, ← known, oneByte_spelled]
    exact encodeFields_of_decodeFields split

end OidMap

end NasTools
