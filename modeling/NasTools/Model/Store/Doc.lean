import NasTools.Lib.Ancestry
import NasTools.Lib.Latest
import NasTools.Model.Core.Checked
import NasTools.Model.Crypto.Sign
import NasTools.Model.Store.Chunker

/-! Documents: a log of insertions and deletions, the text it shows, and how two logs are merged. -/

namespace NasTools

open Checked (lift panics)

/-- Who writes in a document. -/
abbrev DocWriter := FixedBytes 32

/-- The name of an operation. -/
structure OpId where
  writer : DocWriter
  counter : UInt64
deriving DecidableEq

namespace OpId

/-- Operations are ordered by their writers, then by their counters. -/
def key (id : OpId) : DocWriter × UInt64 := (id.writer, id.counter)

instance : Ord OpId := ⟨compareOn key⟩

instance : Std.TransOrd OpId := inferInstanceAs (Std.TransCmp (compareOn key))

instance : Std.LawfulEqOrd OpId where
  eq_of_compare := by
    intro a b same
    have compared : compare a.key b.key = .eq := same
    have keys : a.key = b.key := Std.LawfulEqCmp.eq_of_compare compared
    obtain ⟨writer, counter⟩ := a
    obtain ⟨writer', counter'⟩ := b
    cases keys
    rfl

/-- Where a document starts. -/
def root : OpId := ⟨FixedBytes.zero 32, 0⟩

end OpId

/-- What an operation does. -/
inductive OpKind where
  | insert (after : OpId) (ch : UInt32)
  | delete (target : OpId)
deriving DecidableEq

/-- Why a document is refused. -/
inductive DocError where
  | decode (source : DecodeError)
  | badMagic
  | badVersion (value : UInt8)
  | badWidth (field : String) (want got : Nat)
  | ragged (fields : Nat)
  | badKind (value : UInt8)
  | badChar (ch : UInt32)
  | range
  | nonCanonical (reason : String)
deriving DecidableEq

/-- The text a document error prints. -/
def DocError.display : DocError → String
  | .decode e => "encoding: " ++ e.debug
  | .badMagic => "not a doc op-log"
  | .badVersion value => "doc op-log version " ++ toString value
  | .badWidth field want got => "doc " ++ field ++ " is " ++ toString got ++ " B, want " ++
    toString want ++ " B"
  | .ragged fields => toString fields ++ " doc fields is not a multiple of 6"
  | .badKind value => "unknown doc op " ++ toString value
  | .badChar ch => "not a unicode scalar: " ++ toString ch
  | .range => "position is outside the document"
  | .nonCanonical reason => "non-canonical doc op-log: " ++ reason

/-- The character a number stands for. -/
def charFromU32 (ch : UInt32) : Option Char :=
  if valid : ch.toNat.isValidChar then some ⟨ch, valid⟩ else none

/-- A document: its operations, and the last counter of each writer. -/
structure DocLog where
  ops : OrdMap OpId OpKind
  clock : OrdMap DocWriter UInt64
deriving DecidableEq

namespace DocLog

/-- An operation is in the log if it has a kind there. -/
theorem mem_ops {d : DocLog} {id : OpId} : id ∈ d.ops ↔ ∃ kind, d.ops[id]? = some kind := by
  rw [Std.ExtTreeMap.mem_iff_isSome_getElem?, Option.isSome_iff_exists]

/-- An operation is not in the log if it has no kind there. -/
theorem not_mem_ops {d : DocLog} {id : OpId} : id ∉ d.ops ↔ d.ops[id]? = none := by
  rw [Std.ExtTreeMap.mem_iff_isSome_getElem?, Option.not_isSome_iff_eq_none]

/-- A document nobody has written in. -/
def empty : DocLog := ⟨∅, ∅⟩

/-- The last counter a writer used. -/
def last (d : DocLog) (writer : DocWriter) : UInt64 := (d.clock[writer]?).getD 0

/-- The next name for an operation of a writer; counting past the last counter is a panic. -/
def nextId {E : Type} (d : DocLog) (writer : DocWriter) : Checked E (OpId × DocLog) :=
  if (d.last writer).toNat + 1 < 2 ^ 64 then
    let n := d.last writer + 1
    lift (.ok (⟨writer, n⟩, { d with clock := d.clock.insert writer n }))
  else panics

/-- Add one operation. -/
def record {E : Type} (d : DocLog) (writer : DocWriter) (kind : OpKind) :
    Checked E (OpId × DocLog) := do
  let (id, d) ← d.nextId writer
  return (id, { d with ops := d.ops.insert id kind })

def insertCh {E : Type} (d : DocLog) (writer : DocWriter) (after : OpId) (ch : Char) :
    Checked E (OpId × DocLog) :=
  d.record writer (.insert after ch.val)

def deleteId {E : Type} (d : DocLog) (writer : DocWriter) (target : OpId) :
    Checked E (OpId × DocLog) :=
  d.record writer (.delete target)

/-- Whether some operation deletes an atom. -/
def deleted (d : DocLog) (id : OpId) : Bool := d.ops.toList.any fun op => op.2 == .delete id

/-- The atoms inserted after another one, the greatest name first. -/
def kids (d : DocLog) (id : OpId) : List OpId :=
  let found := d.ops.toList.filterMap fun op =>
    match op.2 with
    | .insert after _ => if after = id then some op.1 else none
    | .delete _ => none
  found.insertionSort fun a b => (compare b a).isLE

/-- The number of an atom's character; a name that no insertion has counts as zero. -/
def charOf (d : DocLog) (id : OpId) : UInt32 :=
  match d.ops[id]? with
  | some (.insert _ ch) => ch
  | _ => 0

/-- Show an atom, unless it is the start of the document or deleted. -/
def visit (d : DocLog) (id : OpId) (out : List (OpId × Char)) :
    Checked DocError (List (OpId × Char)) :=
  if id ≠ OpId.root ∧ d.deleted id = false then
    -- A number that is no character ends the walk with an error.
    match charFromU32 (d.charOf id) with
    | none => lift (.error (.badChar (d.charOf id)))
    | some ch => pure (out ++ [(id, ch)])
  else pure out

/--
Walk over an atom and everything inserted after it, to a depth.

The source has no such bound; where the depth runs out the walk does not end there.
-/
def walk (d : DocLog) :
    (depth : Nat) → OpId → List (OpId × Char) → Checked DocError (List (OpId × Char))
  | 0, _, _ => panics
  | depth + 1, id, out => do
    -- The atom comes before all that was inserted after it.
    let out ← d.visit id out
    (d.kids id).foldlM (fun out kid => walk d depth kid out) out

/-- The visible atoms in the order of the document; no path is longer than there are operations. -/
def atoms (d : DocLog) : Checked DocError (List (OpId × Char)) :=
  d.walk (d.ops.size + 1) OpId.root []

def text (d : DocLog) : Checked DocError (List Char) := do return (← d.atoms).map Prod.snd

/-- Insert characters one after the other. -/
def insertChars (d : DocLog) (writer : DocWriter) : OpId → List Char → Checked DocError DocLog
  | _, [] => pure d
  | after, ch :: rest => do
    let (id, d) ← d.insertCh writer after ch
    d.insertChars writer id rest

def insertText (d : DocLog) (writer : DocWriter) (at_ : Nat) (text : List Char) :
    Checked DocError DocLog := do
  let atoms ← d.atoms
  if at_ > atoms.length then lift (.error .range)
  else
    -- Text goes after the atom before the position, or after the start.
    let after := if at_ = 0 then OpId.root else ((atoms[at_ - 1]?).map Prod.fst).getD OpId.root
    d.insertChars writer after text

/-- Delete atoms one after the other. -/
def deleteIds (d : DocLog) (writer : DocWriter) : List OpId → Checked DocError DocLog
  | [] => pure d
  | id :: rest => do
    let (_, d) ← d.deleteId writer id
    d.deleteIds writer rest

def deleteRange (d : DocLog) (writer : DocWriter) (at_ count : Nat) : Checked DocError DocLog := do
  let atoms ← d.atoms
  if min (at_ + count) (2 ^ 64 - 1) > atoms.length then lift (.error .range)
  else d.deleteIds writer (((atoms.drop at_).take count).map Prod.fst)

/--
The union of two logs: an operation that is there stays as it is, and the greater counter stays.
-/
def merge (d other : DocLog) : DocLog where
  -- An operation is entered only where its name is free.
  ops := Latest.merge (fun _ _ => false) d.ops other.ops
  clock := Latest.merge (fun new old => decide (old < new)) d.clock other.clock

/-- Insert atoms that are there already, each after the one before it. -/
def chain : OpId → List (OpId × Char) → OrdMap OpId OpKind → OrdMap OpId OpKind
  | _, [], ops => ops
  | prev, (id, ch) :: rest, ops => chain id rest (ops.insert id (.insert prev ch.val))

/-- Drop what was deleted, and keep the visible atoms as one chain. -/
def compact (d : DocLog) : Checked DocError DocLog := do
  let atoms ← d.atoms
  return ⟨chain OpId.root atoms ∅, d.clock⟩

end DocLog

/-- What a document starts with. -/
def docMagic : Bytes := asciiBytes "NASO"

/-- The version byte of the encoding. -/
def docVersion : UInt8 := 1

/-- The two fields of a writer's counter. -/
def clockFields (entry : DocWriter × UInt64) : List Bytes := [entry.1.bytes, u64Le entry.2]

/-- The six fields of an operation. -/
def opFields (op : OpId × OpKind) : List Bytes :=
  [op.1.writer.bytes, u64Le op.1.counter] ++
    match op.2 with
    | .insert after ch => [[1], after.writer.bytes, u64Le after.counter, natToLe 4 ch.toNat]
    | .delete target => [[2], target.writer.bytes, u64Le target.counter, []]

/-- Two fields for every counter. -/
theorem length_clockFields (entries : List (DocWriter × UInt64)) :
    (entries.flatMap clockFields).length = entries.length * 2 := by
  -- Every entry of the clock takes two fields.
  induction entries with
  | nil => rfl
  | cons entry rest ih =>
    rw [List.flatMap_cons, List.length_append, ih, List.length_cons, Nat.succ_mul, Nat.add_comm]
    rfl

/-- Six fields for every operation. -/
theorem length_opFields (list : List (OpId × OpKind)) :
    (list.flatMap opFields).length = list.length * 6 := by
  -- Every operation takes six fields, whichever kind it is.
  induction list with
  | nil => rfl
  | cons op rest ih =>
    have six : (opFields op).length = 6 := by
      obtain ⟨id, kind⟩ := op
      cases kind <;> rfl
    rw [List.flatMap_cons, List.length_append, six, ih, List.length_cons, Nat.succ_mul,
      Nat.add_comm]

/-- Read a field of an expected width. -/
def docFixed (width : Nat) (field : String) (data : Bytes) : Except DocError (FixedBytes width) :=
  fixedField .badWidth width field data

/-- Read the counters of the writers, two fields at a time. -/
def decodeClock : OrdMap DocWriter UInt64 → List Bytes → Except DocError (OrdMap DocWriter UInt64)
  | clock, w :: n :: rest => do
    let w ← docFixed 32 "clock-writer" w
    let n ← docFixed 8 "clock-n" n
    -- A writer is listed once.
    ensure (¬clock.contains w) (.nonCanonical "duplicate clock writer")
    decodeClock (clock.insert w (u64OfLe n.bytes)) rest
  | clock, _ => .ok clock

/-- Read what an operation does, from its kind, the operation it refers to, and its character. -/
def decodeKind (kind : UInt8) (ref : OpId) (ch : Bytes) : Except DocError OpKind :=
  if kind = 1 then do
    let ch ← docFixed 4 "ch" ch
    let n := UInt32.ofNat (natOfLe ch.bytes)
    ensure (charFromU32 n).isSome (.badChar n)
    return .insert ref n
  else if kind = 2 then do
    ensure (ch = []) (.nonCanonical "delete carries a character")
    return .delete ref
  else .error (.badKind kind)

/-- Read operations six fields at a time, each name above the one before it. -/
def decodeOps : (prev : Option OpId) → OrdMap OpId OpKind → List Bytes →
    Except DocError (OrdMap OpId OpKind)
  | prev, ops, writer :: counter :: kind :: refWriter :: refCounter :: ch :: rest => do
    let writer ← docFixed 32 "writer" writer
    let counter ← docFixed 8 "counter" counter
    let id : OpId := ⟨writer, u64OfLe counter.bytes⟩
    -- The order is the one the encoding writes, so one log has one encoding.
    ensure (prev.all fun p => compare p id == .lt)
      (.nonCanonical "ops are not in ascending id order")
    let kind ← docFixed 1 "kind" kind
    let refWriter ← docFixed 32 "ref-writer" refWriter
    let refCounter ← docFixed 8 "ref-counter" refCounter
    let op ← decodeKind (kind.bytes.headD 0) ⟨refWriter, u64OfLe refCounter.bytes⟩ ch
    ensure (¬ops.contains id) (.nonCanonical "duplicate op id")
    decodeOps (some id) (ops.insert id op) rest
  | _, ops, _ => .ok ops

namespace DocLog

/-- All fields of an encoding. -/
def fields (d : DocLog) : List Bytes :=
  [docMagic, [docVersion], u64Le (UInt64.ofNat d.clock.size)] ++ d.clock.toList.flatMap
    clockFields ++
    d.ops.toList.flatMap opFields

/-- Bytes that a list of byte strings takes for each of them. -/
def fieldWidth : Nat := 24

/-- The stored form of a document; more fields than memory can hold are a panic. -/
def encode (d : DocLog) : Checked DocError Bytes :=
  if d.fields.length * fieldWidth ≤ isizeMax then lift ((encodeFields d.fields).mapError .decode)
    else panics

/-- Read a document back; a count that overflows is a panic. -/
def decode (bytes : Bytes) : Checked DocError DocLog :=
  match decodeFields bytes with
  | .error e => lift (.error (.decode e))
  | .ok f =>
    if f.head? ≠ some docMagic then lift (.error .badMagic)
    else
      match f with
      | _ :: version :: count :: body => do
        let version ← lift (docFixed 1 "version" version)
        let value := version.bytes.headD 0
        if value ≠ docVersion then lift (.error (.badVersion value))
        else
          let count ← lift (docFixed 8 "clock-count" count)
          let nClock := (u64OfLe count.bytes).toNat
          -- The count is whatever the bytes say, so the bound may overflow.
          if 3 + nClock * 2 < 2 ^ 64 then
            if f.length < 3 + nClock * 2 then lift (.error (.ragged f.length))
            else do
              let clock ← lift (decodeClock ∅ (body.take (nClock * 2)))
              let ops := body.drop (nClock * 2)
              if ops.length % 6 ≠ 0 then lift (.error (.ragged ops.length))
              else do
                let ops ← lift (decodeOps none ∅ ops)
                return ⟨ops, clock⟩
          else panics
      | _ => lift (.error (.ragged f.length))

/-- The atom an insertion is after. -/
def parent (d : DocLog) (id : OpId) : Option OpId :=
  match d.ops[id]? with
  | some (.insert after _) => some after
  | _ => none

/-- The kids of an atom are those inserted after it. -/
theorem mem_kids {d : DocLog} {id kid : OpId} : kid ∈ d.kids id ↔ d.parent kid = some id := by
  -- The children are the insertions whose parent it is.
  simp only [kids, List.mem_insertionSort, List.mem_filterMap, Prod.exists,
    Std.ExtTreeMap.mem_toList_iff_getElem?_eq_some, parent]
  constructor
  · rintro ⟨found, kind, held, is⟩
    cases kind with
    | delete target => cases is
    | insert after ch =>
      dsimp only at is
      split at is
      · rename_i same
        cases is
        rw [held]
        exact congrArg some same
      · cases is
  · intro is
    split at is
    · rename_i after ch held
      exact ⟨kid, .insert after ch, held, by simp [Option.some.inj is]⟩
    · cases is

/-- An atom is deleted exactly when some operation deletes it. -/
theorem deleted_iff {d : DocLog} {id : OpId} : d.deleted id = true ↔ ∃ op :
    OpId, d.ops[op]? = some (.delete id) := by
  simp [deleted, Std.ExtTreeMap.mem_toList_iff_getElem?_eq_some]

/-- Every inserted number is a character. -/
def Spelled (d : DocLog) : Prop :=
  ∀ (id after : OpId) (ch : UInt32), d.ops[id]? = some (.insert after ch) → (charFromU32 ch).isSome

/-- Every inserted number is a character, and the start of the document is no operation. -/
structure Readable (d : DocLog) : Prop where
  spelled : d.Spelled
  rootless : d.ops[OpId.root]? = none

/-- Every character is read back from its number. -/
theorem charFromU32_val (ch : Char) : charFromU32 ch.val = some ch := by
  exact dif_pos ch.valid

/-- The number of a character that is inserted is one. -/
theorem isSome_of_insert {x after : OpId} {ch : Char} {n : UInt32}
    (is : OpKind.insert x ch.val = .insert after n) :
    (charFromU32 n).isSome := by
  cases is
  rw [charFromU32_val]
  rfl

/-- What a walk adds is visible: inserted, with this character, and not deleted. -/
def Visible (d : DocLog) (atom : OpId × Char) : Prop :=
  (∃ (after : OpId) (ch : UInt32), d.ops[atom.1]? = some (.insert after ch) ∧
    charFromU32 ch = some atom.2) ∧ d.deleted atom.1 = false

/-- The number of an inserted atom. -/
theorem charOf_of_parent {d : DocLog} {id p : OpId} (inserted : d.parent id = some p) :
    d.ops[id]? = some (.insert p (d.charOf id)) := by
  -- Only an insertion has a parent.
  unfold parent at inserted
  unfold charOf
  split at inserted
  · rename_i after ch held
    rw [held, Option.some.inj inserted]
  · cases inserted

/-- A walk adds visible atoms only. -/
theorem visible_of_walk {d : DocLog} {depth : Nat} {id : OpId} {out result : List (OpId × Char)}
    (walked : d.walk depth id out = lift (.ok result))
    (start : id = OpId.root ∨ (d.parent id).isSome) :
    ∀ atom ∈ result, atom ∈ out ∨ d.Visible atom := by
  -- Induction over the depth.
  induction depth generalizing id out result with
  | zero => cases walked
  | succ depth ih =>
    rw [walk, Checked.bind_eq_ok] at walked
    obtain ⟨out', here, below⟩ := walked
    -- The atom itself, and then its kids one after the other.
    have first : ∀ atom ∈ out', atom ∈ out ∨ d.Visible atom := by
      unfold visit at here
      split at here
      · rename_i shown
        obtain ⟨apart, kept⟩ := shown
        obtain ⟨p, inserted⟩ := Option.isSome_iff_exists.mp (start.resolve_left apart)
        split at here
        · cases here
        · rename_i ch read
          cases here
          intro atom member
          rcases List.mem_append.mp member with before | new
          · exact .inl before
          · obtain rfl := List.mem_singleton.mp new
            exact .inr ⟨⟨p, _, charOf_of_parent inserted, read⟩, kept⟩
      · cases here
        exact fun atom member => .inl member
    have rest : ∀ (kids : List OpId) (out' result : List (OpId × Char)),
      (∀ kid ∈ kids, d.parent kid = some id) →
        kids.foldlM (fun out kid => d.walk depth kid out) out' = lift (.ok result) →
        ∀ atom ∈ result, atom ∈ out' ∨ d.Visible atom := by
      intro kids
      induction kids with
      | nil =>
        intro out' result _ done
        cases done
        exact fun atom member => .inl member
      | cons kid kids ihKids =>
        intro out' result inserted done
        rw [List.foldlM_cons, Checked.bind_eq_ok] at done
        obtain ⟨mid, walked, later⟩ := done
        intro atom member
        rcases ihKids mid result (fun k m => inserted k (by simp [m])) later atom member
          with here | visible
        · exact ih walked (.inr (by rw [inserted kid (by simp)]; rfl)) atom here
        · exact .inr visible
    intro atom member
    rcases rest (d.kids id) out' result (fun kid m => mem_kids.mp m) below atom member
      with before | visible
    · exact first atom before
    · exact .inr visible

/-- The start is not inserted below itself. -/
def Rooted (d : DocLog) : Prop :=
  ¬Relation.TransGen (fun p c => d.parent c = some p) OpId.root OpId.root

/-- The atom an insertion is after, where no insertion counts for the start. -/
def above (d : DocLog) (id : OpId) : Option OpId := if id = OpId.root then none else d.parent id

/--
A document whose start is not below itself is walked to its end: no path comes to
more nodes than operations.
-/
theorem walk_of_rooted {d : DocLog} (spelled : d.Spelled) (rooted : d.Rooted) {depth : Nat}
    {id : OpId} {up : List OpId} (path : Ancestry d.above OpId.root (id :: up))
    (enough : d.ops.size + 1 ≤ depth + up.length) (out : List (OpId × Char)) :
    ∃ result, d.walk depth id out = lift (.ok result) := by
  -- Induction over the depth, with the path from the root.
  have topmost : d.above OpId.root = none := if_pos rfl
  have parent_of_above {x p : OpId} (is : d.above x = some p) : d.parent x = some p := by
    rw [above] at is
    split at is
    · cases is
    · exact is
  induction depth generalizing id up out with
  | zero =>
    -- The path would be longer than there are operations.
    have listed : ∀ x, (d.above x).isSome → x ∈ d.ops.keys := by
      intro x inserted
      obtain ⟨p, is⟩ := Option.isSome_iff_exists.mp inserted
      have inserted := parent_of_above is
      unfold parent at inserted
      split at inserted
      · rename_i held
        exact Std.ExtTreeMap.mem_keys.mpr (mem_ops.mpr ⟨_, held⟩)
      · cases inserted
    have bound := path.length_le topmost listed
    rw [Std.ExtTreeMap.length_keys, List.length_cons] at bound
    omega
  | succ depth ih =>
    have shown : ∃ out', d.visit id out = lift (.ok out') := by
      unfold visit
      split
      · rename_i apart
        obtain ⟨p, is⟩ :=
          Option.isSome_iff_exists.mp (path.parent_of_mem List.mem_cons_self apart.1)
        obtain ⟨ch, read⟩ :=
          Option.isSome_iff_exists.mp (spelled _ _ _ (charOf_of_parent (parent_of_above is)))
        rw [read]
        exact ⟨_, rfl⟩
      · exact ⟨out, rfl⟩
    -- The start is above this atom, so it is none of the atoms below.
    have kidAbove {kid : OpId} (inserted : d.parent kid = some id) : d.above kid = some id := by
      rw [above, if_neg, inserted]
      rintro rfl
      have up : Relation.ReflTransGen (fun p c => d.parent c = some p) OpId.root id :=
        path.reaches.lift (fun x => x) fun _ _ => parent_of_above
      exact rooted (.tail' up inserted)
    have below : ∀ (kids : List OpId) (out : List (OpId × Char)),
      (∀ kid ∈ kids, d.parent kid = some id) →
        ∃ result, kids.foldlM (fun out kid => d.walk depth kid out) out = lift (.ok result) := by
      intro kids
      induction kids with
      | nil => exact fun out _ => ⟨out, rfl⟩
      | cons kid kids ihKids =>
        intro out inserted
        obtain ⟨mid, walked⟩ := ih (path.child (kidAbove (inserted kid (by simp))))
          (by simpa [Nat.add_assoc, Nat.add_comm 1] using enough) out
        rw [List.foldlM_cons, walked, Checked.lift_ok_bind]
        exact ihKids mid fun k member => inserted k (by simp [member])
    obtain ⟨out', here⟩ := shown
    rw [walk, here, Checked.lift_ok_bind]
    exact below _ out' fun kid member => mem_kids.mp member

/-- The start of a readable document is below nothing. -/
theorem Readable.rooted {d : DocLog} (readable : d.Readable) : d.Rooted := by
  intro below
  obtain ⟨p, _, inserted⟩ := Relation.TransGen.tail'_iff.mp below
  simp [parent, readable.rootless] at inserted

/-- A readable document shows its atoms. -/
theorem atoms_ok {d : DocLog} (readable : d.Readable) : ∃ atoms, d.atoms = lift (.ok atoms) :=
  walk_of_rooted readable.spelled readable.rooted .root (by simp) []

/-- What is shown is visible. -/
theorem visible_of_atoms {d : DocLog} {atoms : List (OpId × Char)}
    (shown : d.atoms = lift (.ok atoms)) :
    ∀ atom ∈ atoms, d.Visible atom := by
  intro atom member
  rcases visible_of_walk shown (.inl rfl) atom member with before | visible
  · simp at before
  · exact visible

/--
An operation of a merged log is the one of the first log, or of the second where the first has none.
-/
theorem getElem?_merge (d other : DocLog) (id : OpId) :
    (d.merge other).ops[id]? = (d.ops[id]?).or other.ops[id]? := by
  rw [merge, Latest.getElem?_merge]
  cases d.ops[id]? <;> cases other.ops[id]? <;> rfl

/-- A merge holds the operations of both logs. -/
theorem mem_merge {d other : DocLog} {id : OpId} :
    id ∈ (d.merge other).ops ↔ id ∈ d.ops ∨ id ∈ other.ops := by
  simp only [Std.ExtTreeMap.mem_iff_isSome_getElem?, getElem?_merge, Option.isSome_or,
    Bool.or_eq_true]

/-- Merging the same log again changes nothing. -/
theorem merge_merge (d other : DocLog) : (d.merge other).merge other = d.merge other := by
  -- The merged log absorbs the other one, both its operations and its clock.
  have ops : Latest.Absorbs (fun _ _ => false) (d.merge other).ops other.ops :=
    Latest.absorbs_merge_right (fun _ => rfl) d.ops other.ops
  have clock : Latest.Absorbs (fun new old => decide (old < new)) (d.merge other).clock
      other.clock :=
    Latest.absorbs_merge_right (fun x => by simp) d.clock other.clock
  exact congrArg₂ DocLog.mk ops clock

/-- Merging lowers no counter. -/
theorem le_last_merge (d other : DocLog) (writer : DocWriter) :
    d.last writer ≤ (d.merge other).last writer := by
  -- The greater counter wins.
  simp only [last, merge, Latest.getElem?_merge]
  cases d.clock[writer]? with
  | none => exact UInt64.zero_le
  | some mine =>
    cases other.clock[writer]? with
    | none => exact UInt64.le_refl mine
    | some theirs =>
      simp only [Latest.winner, Option.getD_some, decide_eq_true_eq]
      split
      · rename_i less
        exact UInt64.le_of_lt less
      · exact UInt64.le_refl mine

/-- Whatever is in a chain was there, or is one of the atoms. -/
theorem of_chain {atoms : List (OpId × Char)} {prev : OpId} {ops : OrdMap OpId OpKind} {id : OpId}
    {kind : OpKind} (found : (chain prev atoms ops)[id]? = some kind) :
    ops[id]? = some kind ∨ ∃ after ch, (id, ch) ∈ atoms ∧ kind = .insert after ch.val := by
  -- Induction over the characters: each insertion is new or was there before.
  induction atoms generalizing prev ops with
  | nil => exact .inl found
  | cons atom rest ih =>
    rcases ih found with here | ⟨after, ch, member, is⟩
    · rw [Std.ExtTreeMap.getElem?_insert] at here
      split at here
      · rename_i same
        obtain rfl : atom.1 = id := by simpa using same
        exact .inr ⟨prev, atom.2, by simp, (Option.some.inj here).symm⟩
      · exact .inl here
    · exact .inr ⟨after, ch, by simp [member], is⟩

/-- A compacted document has the counters it had, and visible atoms only. -/
theorem of_compact {d c : DocLog} (compacted : d.compact = lift (.ok c)) :
    c.clock = d.clock ∧ ∀ (id : OpId) (kind : OpKind), c.ops[id]? = some kind →
      ∃ after ch, d.Visible (id, ch) ∧ kind = .insert after ch.val := by
  -- Only what is visible is chained again, and the clock is kept.
  rw [compact, Checked.bind_eq_ok] at compacted
  obtain ⟨atoms, shown, rest⟩ := compacted
  obtain rfl := Except.ok.inj (Option.some.inj rest)
  refine ⟨rfl, ?_⟩
  intro id kind found
  rcases of_chain found with before | ⟨after, ch, member, is⟩
  · simp at before
  · exact ⟨after, ch, visible_of_atoms shown _ member, is⟩

/-- A writer's counter has room for so many operations. -/
def Room (d : DocLog) (writer : DocWriter) (count : Nat) : Prop :=
  (d.last writer).toNat + count < 2 ^ 64

/-- The name of an operation so many steps ahead of a writer's counter. -/
def ahead (d : DocLog) (writer : DocWriter) (steps : Nat) : OpId :=
  ⟨writer, d.last writer + UInt64.ofNat steps⟩

section

variable {d d' : DocLog} {writer : DocWriter} {kind : OpKind} {id : OpId}

/-- The document with one operation more, under the next name of a writer. -/
def recorded (d : DocLog) (writer : DocWriter) (kind : OpKind) : DocLog :=
  ⟨d.ops.insert (d.ahead writer 1) kind, d.clock.insert writer (d.last writer + 1)⟩

/-- An operation is added exactly when the writer's counter has room for it. -/
theorem record_eq_ok {E : Type} : (d.record writer kind : Checked E _) = lift (.ok (id, d')) ↔
    d.Room writer 1 ∧ id = d.ahead writer 1 ∧ d' = d.recorded writer kind := by
  -- The next name needs a counter that does not run over.
  unfold record nextId Room
  split
  · rename_i room
    simp only [Checked.lift_ok_bind, Checked.pure_eq, Checked.lift_inj, Except.ok.injEq,
      Prod.mk.injEq, room, true_and]
    exact and_congr eq_comm eq_comm
  · rename_i full
    refine iff_of_false ?_ fun granted => full granted.1
    intro impossible
    cases impossible

/-- A recorded operation is found under its own name. -/
theorem getElem?_recorded (x : OpId) :
    (d.recorded writer kind).ops[x]? = if d.ahead writer 1 = x then some kind else d.ops[x]? := by
  simp only [recorded, Std.ExtTreeMap.getElem?_insert, Std.LawfulEqCmp.compare_eq_iff_eq]

/-- Recording adds one name. -/
theorem mem_recorded {x : OpId} :
    x ∈ (d.recorded writer kind).ops ↔ x = d.ahead writer 1 ∨ x ∈ d.ops := by
  rw [recorded, Std.ExtTreeMap.mem_insert, Std.LawfulEqCmp.compare_eq_iff_eq]
  exact or_congr_left eq_comm

/-- With room for them, the names ahead count on from the writer's last one. -/
theorem toNat_ahead {steps : Nat} (room : d.Room writer steps) :
    (d.ahead writer steps).counter.toNat = (d.last writer).toNat + steps := by
  -- The steps fit above the last counter.
  have small : steps < 2 ^ 64 := Nat.lt_of_le_of_lt (Nat.le_add_left _ _) room
  rw [ahead]
  dsimp only
  rw [UInt64.toNat_add, UInt64.toNat_ofNat', Nat.mod_eq_of_lt small]
  exact Nat.mod_eq_of_lt room

/-- Recording moves the counter of its own writer. -/
theorem last_recorded (other : DocWriter) :
    (d.recorded writer kind).last other = if writer = other then d.last writer + 1
      else d.last other := by
  simp only [recorded, last, Std.ExtTreeMap.getElem?_insert, Std.LawfulEqCmp.compare_eq_iff_eq]
  split <;> rfl

/-- Recording moves the counter by one. -/
theorem toNat_last_recorded (room : d.Room writer 1) :
    ((d.recorded writer kind).last writer).toNat = (d.last writer).toNat + 1 := by
  rw [last_recorded, if_pos rfl]
  exact toNat_ahead room

end

/-- No operation of a writer is beyond its counter. -/
def Clocked (d : DocLog) (writer : DocWriter) : Prop :=
  ∀ id ∈ d.ops, id.writer = writer → id.counter.toNat ≤ (d.last writer).toNat

/-- What a writer can add: a character, or the deletion of something that is there. -/
def Allows (d : DocLog) : OpKind → Prop
  | .insert _ ch => (charFromU32 ch).isSome
  | .delete target => target ∈ d.ops

/-- One document is another with operations added by a writer, under names it has not used. -/
structure Edited (writer : DocWriter) (before after : DocLog) : Prop where
  kept : ∀ (id : OpId) (kind : OpKind), before.ops[id]? = some kind → after.ops[id]? = some kind
  added : ∀ (id : OpId) (kind : OpKind), after.ops[id]? = some kind → before.ops[id]? = some kind ∨
    (id.writer = writer ∧ (before.last writer).toNat < id.counter.toNat ∧
      id.counter.toNat ≤ (after.last writer).toNat ∧ after.Allows kind)
  others : ∀ other, other ≠ writer → after.last other = before.last other
  grows : (before.last writer).toNat ≤ (after.last writer).toNat

namespace Edited

variable {writer : DocWriter} {a b c : DocLog}

/-- No edit is an edit. -/
theorem refl (d : DocLog) : Edited writer d d where
  kept _ _ held := held
  added _ _ held := .inl held
  others _ _ := rfl
  grows := Nat.le_refl _

/-- What was there is there still. -/
theorem mem (edited : Edited writer a b) {id : OpId} (member : id ∈ a.ops) : id ∈ b.ops := by
  obtain ⟨kind, held⟩ := mem_ops.mp member
  exact mem_ops.mpr ⟨kind, edited.kept id kind held⟩

/-- What was allowed before an edit is allowed after it. -/
theorem allows (edited : Edited writer a b) {kind : OpKind} (allowed : a.Allows kind) :
    b.Allows kind := by
  cases kind with
  | insert after ch => exact allowed
  | delete target => exact edited.mem allowed

/-- Edits in turn are an edit. -/
theorem trans (first : Edited writer a b) (second : Edited writer b c) : Edited writer a c where
  -- Each operation comes from the second edit or was there before it.
  kept id kind held := second.kept id kind (first.kept id kind held)
  added id kind held := by
    rcases second.added id kind held with before | ⟨is, above, upTo, allowed⟩
    · rcases first.added id kind before with start | ⟨is, above, upTo, allowed⟩
      · exact .inl start
      · exact .inr ⟨is, above, Nat.le_trans upTo second.grows, second.allows allowed⟩
    · exact .inr ⟨is, Nat.lt_of_le_of_lt first.grows above, upTo, allowed⟩
  others other apart := (second.others other apart).trans (first.others other apart)
  grows := Nat.le_trans first.grows second.grows

/-- A writer's counter stays ahead of what it adds. -/
theorem clocked (edited : Edited writer a b) (clocked : a.Clocked writer) : b.Clocked writer := by
  -- A new operation of the writer lies below its counter.
  intro id member is
  obtain ⟨kind, held⟩ := mem_ops.mp member
  rcases edited.added id kind held with before | ⟨_, _, upTo, _⟩
  · exact Nat.le_trans (clocked id (mem_ops.mpr ⟨kind, before⟩) is) edited.grows
  · exact upTo

end Edited

/-- One operation more. -/
theorem edited_of_record {E : Type} {d d' : DocLog} {writer : DocWriter} {kind : OpKind} {id : OpId}
    (clocked : d.Clocked writer) (allowed : d.Allows kind)
    (recorded : (d.record writer kind : Checked E (OpId × DocLog)) = lift (.ok (id, d'))) :
      Edited writer d d' := by
  -- One operation is recorded under the writer's next name.
  obtain ⟨room, rfl, rfl⟩ := record_eq_ok.mp recorded
  have next := toNat_ahead room
  have last : ((d.recorded writer kind).last writer).toNat = (d.last writer).toNat + 1 :=
    toNat_last_recorded room
  refine ⟨?_, ?_, ?_, ?_⟩
  · intro x old held
    rw [getElem?_recorded, if_neg, held]
    rintro rfl
    -- The new counter is above every one the writer used, so the name is new.
    have bound := clocked _ (mem_ops.mpr ⟨old, held⟩) rfl
    omega
  · intro x kind' held
    rw [getElem?_recorded] at held
    split at held
    · rename_i same
      subst same
      cases held
      refine .inr ⟨rfl, by omega, by omega, ?_⟩
      cases kind with
      | insert after ch => exact allowed
      | delete target => exact mem_recorded.mpr (.inr allowed)
    · exact .inl held
  · intro other apart
    rw [last_recorded, if_neg (Ne.symm apart)]
  · omega

/-- Inserting characters is an edit. -/
theorem edited_of_insertChars {d d' : DocLog} {writer : DocWriter} {after : OpId} {text : List Char}
    (clocked : d.Clocked writer) (inserted : d.insertChars writer after text = lift (.ok d')) :
      Edited writer d d' := by
  -- Induction over the text: each character is recorded behind the one before.
  induction text generalizing d after with
  | nil =>
    obtain rfl := Except.ok.inj (Option.some.inj inserted)
    exact .refl d
  | cons ch rest ih =>
    rw [insertChars, Checked.bind_eq_ok] at inserted
    obtain ⟨⟨id, mid⟩, here, later⟩ := inserted
    have first : Edited writer d mid :=
      edited_of_record clocked (by simp [Allows, charFromU32_val]) here
    exact first.trans (ih (first.clocked clocked) later)

/-- Deleting characters is an edit. -/
theorem edited_of_deleteIds {d d' : DocLog} {writer : DocWriter} {targets : List OpId}
    (clocked : d.Clocked writer) (present : ∀ target ∈ targets, target ∈ d.ops)
    (deleted : d.deleteIds writer targets = lift (.ok d')) : Edited writer d d' := by
  -- Induction over the targets, which stay in the log.
  induction targets generalizing d with
  | nil =>
    obtain rfl := Except.ok.inj (Option.some.inj deleted)
    exact .refl d
  | cons target rest ih =>
    rw [deleteIds, Checked.bind_eq_ok] at deleted
    obtain ⟨⟨id, mid⟩, here, later⟩ := deleted
    have allowed : d.Allows (.delete target) := present target (by simp)
    have first : Edited writer d mid := edited_of_record clocked allowed here
    exact first.trans
      (ih (first.clocked clocked) (fun t m => first.mem (present t (by simp [m]))) later)

/-- Inserting text adds operations of its writer. -/
theorem edited_of_insertText {d d' : DocLog} {writer : DocWriter} {at_ : Nat} {text : List Char}
    (clocked : d.Clocked writer) (inserted : d.insertText writer at_ text = lift (.ok d')) :
      Edited writer d d' := by
  -- The place is looked up first, and then the text goes in.
  rw [insertText, Checked.bind_eq_ok] at inserted
  obtain ⟨atoms, _, rest⟩ := inserted
  split at rest
  · cases rest
  · exact edited_of_insertChars clocked rest

/-- Deleting a range adds operations of its writer. -/
theorem edited_of_deleteRange {d d' : DocLog} {writer : DocWriter} {at_ count : Nat}
    (clocked : d.Clocked writer) (deleted : d.deleteRange writer at_ count = lift (.ok d')) :
      Edited writer d d' := by
  -- The atoms of the range are deleted one after the other.
  rw [deleteRange, Checked.bind_eq_ok] at deleted
  obtain ⟨atoms, shown, rest⟩ := deleted
  split at rest
  · cases rest
  · refine edited_of_deleteIds clocked ?_ rest
    -- A visible atom was inserted by some operation, which may be deleted.
    intro target member
    obtain ⟨atom, taken, rfl⟩ := List.mem_map.mp member
    obtain ⟨⟨after, ch, held, _⟩, _⟩ :=
      visible_of_atoms shown atom (List.mem_of_mem_drop (List.mem_of_mem_take taken))
    exact mem_ops.mpr ⟨_, held⟩

/-- A field of a fixed width reads back. -/
@[simp] theorem docFixed_bytes {width : Nat} (field : String) (a : FixedBytes width) :
    docFixed width field a.bytes = .ok a := fixedField_bytes _ field a

/-- A number in eight bytes reads back. -/
theorem docFixed_u64Le (field : String) (n : UInt64) :
    ∃ a, docFixed 8 field (u64Le n) = .ok a ∧ u64OfLe a.bytes = n :=
  ⟨⟨u64Le n, u64Le_length n⟩, fixedField_of_length _ _ (u64Le_length n), u64OfLe_u64Le n⟩

/-- Counters in the order of their writers read back. -/
theorem decodeClock_fields {entries : List (DocWriter × UInt64)}
    (sorted : entries.Pairwise fun a b => compare a.1 b.1 = .lt) (clock : OrdMap DocWriter UInt64)
    (above : ∀ w ∈ clock, ∀ entry ∈ entries, compare w entry.1 = .lt) :
    ∃ result, decodeClock clock (entries.flatMap clockFields) = .ok result ∧
      result.toList = clock.toList ++ entries := by
  -- What was read so far grows at the end, so it stays quantified over.
  induction entries generalizing clock with
  | nil => exact ⟨clock, rfl, by simp⟩
  | cons entry rest ih =>
    obtain ⟨w, n⟩ := entry
    obtain ⟨below, sortedRest⟩ := List.pairwise_cons.mp sorted
    have top : ∀ k ∈ clock, compare k w = .lt := fun k present => above k present (w, n) (by simp)
    have fresh : ¬clock.contains w = true := by
      intro present
      simpa using top w (by simpa using present)
    obtain ⟨a, read, is⟩ := docFixed_u64Le "clock-n" n
    obtain ⟨result, decoded, listed⟩ := ih sortedRest (clock.insert w n) (by
      intro k present entry member
      rcases Std.ExtTreeMap.mem_insert.mp present with same | held
      · rw [← Std.LawfulEqCmp.eq_of_compare same]
        exact below entry member
      · exact above k held entry (by simp [member]))
    refine ⟨result, ?_, ?_⟩
    · simp only [List.flatMap_cons, clockFields, List.cons_append, List.nil_append, decodeClock,
        docFixed_bytes, except_ok_bind, read, ensure_of fresh, is]
      exact decoded
    · rw [listed, OrdMap.toList_insert_top top, List.append_assoc]
      rfl

/-- What an operation does reads back. -/
theorem decodeKind_insert (after : OpId) {ch : UInt32} (spelled : (charFromU32 ch).isSome) :
    decodeKind 1 after (natToLe 4 ch.toNat) = .ok (.insert after ch) := by
  -- A character's number is read back from its four bytes.
  have width : (natToLe 4 ch.toNat).length = 4 := natToLe_length 4 ch.toNat
  have back : UInt32.ofNat (natOfLe (natToLe 4 ch.toNat)) = ch := by
    rw [natOfLe_natToLe 4 ch.toNat ch.toNat_lt]
    exact UInt32.ofNat_toNat
  have read : docFixed 4 "ch" (natToLe 4 ch.toNat) = .ok ⟨natToLe 4 ch.toNat, width⟩ :=
    fixedField_of_length _ _ width
  simp [decodeKind, read, back, ensure_of spelled]

/-- Operations in the order of their names read back. -/
theorem decodeOps_fields {list : List (OpId × OpKind)}
    (sorted : list.Pairwise fun a b => compare a.1 b.1 = .lt) (spelled : ∀ op ∈ list, ∀ after ch,
      op.2 = .insert after ch → (charFromU32 ch).isSome) (prev : Option OpId)
    (ops : OrdMap OpId OpKind) (upTo : OrdMap.ReadUpTo ops prev)
    (after : ∀ op ∈ list, prev.all (fun p => compare p op.1 == .lt) = true) :
    ∃ result, decodeOps prev ops (list.flatMap opFields) = .ok result ∧
      result.toList = ops.toList ++ list := by
  -- Induction over the list: each operation goes to the end of the map.
  induction list generalizing prev ops with
  | nil => exact ⟨ops, by cases prev <;> rfl, by simp⟩
  | cons op rest ih =>
    obtain ⟨id, kind⟩ := op
    obtain ⟨below, sortedRest⟩ := List.pairwise_cons.mp sorted
    -- What is read next is above all that was read, as the check demands.
    have ascending := after (id, kind) List.mem_cons_self
    have top := upTo.below ascending
    have fresh := OrdMap.not_contains_of_below top
    obtain ⟨result, decoded, listed⟩ :=
      ih sortedRest (fun op member => spelled op (by simp [member])) (some id)
      (ops.insert id kind) (OrdMap.readUpTo_insert top)
        (fun op member => by simpa using below op member)
    refine ⟨result, ?_, by rw [listed, OrdMap.toList_insert_top top, List.append_assoc]; rfl⟩
    obtain ⟨writer, counter⟩ := id
    obtain ⟨c, readCounter, isCounter⟩ := docFixed_u64Le "counter" counter
    have one : ∀ b : UInt8, docFixed 1 "kind" [b] = .ok ⟨[b], rfl⟩ := fun b =>
      fixedField_of_length _ _ (show [b].length = 1 from rfl)
    cases kind with
    | insert target ch =>
      obtain ⟨r, readRef, isRef⟩ := docFixed_u64Le "ref-counter" target.counter
      have kind := decodeKind_insert target (spelled _ List.mem_cons_self target ch rfl)
      simp only [List.flatMap_cons, opFields, List.cons_append, List.nil_append, decodeOps,
        docFixed_bytes, except_ok_bind, readCounter, isCounter, ensure_of ascending, one, readRef,
        isRef, List.headD_cons, kind, ensure_of fresh]
      exact decoded
    | delete target =>
      obtain ⟨r, readRef, isRef⟩ := docFixed_u64Le "ref-counter" target.counter
      have kind : decodeKind 2 target [] = .ok (.delete target) := rfl
      simp only [List.flatMap_cons, opFields, List.cons_append, List.nil_append, decodeOps,
        docFixed_bytes, except_ok_bind, readCounter, isCounter, ensure_of ascending, one, readRef,
        isRef, List.headD_cons, kind, ensure_of fresh]
      exact decoded

/-- The counters of a document read back. -/
theorem decodeClock_toList (clock : OrdMap DocWriter UInt64) :
    decodeClock ∅ (clock.toList.flatMap clockFields) = .ok clock := by
  obtain ⟨result, read, listed⟩ :=
    decodeClock_fields (Std.ExtTreeMap.ordered_keys_toList (t := clock)) ∅ (by simp)
  rw [OrdMap.toList_empty, List.nil_append] at listed
  rw [read, Std.ExtTreeMap.toList_inj.mp listed]

/-- The operations of a document read back. -/
theorem decodeOps_toList {d : DocLog} (spelled : d.Spelled) :
    decodeOps none ∅ (d.ops.toList.flatMap opFields) = .ok d.ops := by
  -- The operations are listed by name in ascending order, as they are read.
  have each : ∀ op ∈ d.ops.toList, ∀ after ch, op.2 = .insert after ch →
      (charFromU32 ch).isSome := by
    rintro ⟨id, kind⟩ member after ch rfl
    exact spelled id after ch (Std.ExtTreeMap.mem_toList_iff_getElem?_eq_some.mp member)
  obtain ⟨result, read, listed⟩ :=
    decodeOps_fields Std.ExtTreeMap.ordered_keys_toList each none ∅ OrdMap.readUpTo_empty
      (fun _ _ => rfl)
  rw [OrdMap.toList_empty, List.nil_append] at listed
  rw [read, Std.ExtTreeMap.toList_inj.mp listed]

/-- A document that was written reads back. -/
theorem decode_of_encode {d : DocLog} {bytes : Bytes} (spelled : d.Spelled)
    (encoded : d.encode = lift (.ok bytes)) :
    decode bytes = lift (.ok d) := by
  -- The fields are counted, and then the two tables are read back.
  unfold encode at encoded
  split at encoded
  · rename_i fits
    simp only [Checked.lift_inj, except_mapError_eq_ok] at encoded
    -- Two fields for each counter and six for each operation tell the parts apart.
    have clockLength : (d.clock.toList.flatMap clockFields).length = d.clock.size * 2 := by
      rw [length_clockFields, Std.ExtTreeMap.length_toList]
    have opsLength : (d.ops.toList.flatMap opFields).length % 6 = 0 := by
      rw [length_opFields]
      exact Nat.mul_mod_left _ _
    have shape : d.fields = docMagic :: [docVersion] :: u64Le (UInt64.ofNat d.clock.size) ::
        (d.clock.toList.flatMap clockFields ++ d.ops.toList.flatMap opFields) := by
      simp [fields]
    have length :
        d.fields.length = 3 + d.clock.size * 2 + (d.ops.toList.flatMap opFields).length := by
      rw [shape]
      simp only [List.length_cons, List.length_append, clockLength]
      omega
    -- The number of fields fits into memory, so the bound does not overflow.
    have small : d.clock.size < 2 ^ 64 ∧ 3 + d.clock.size * 2 < 2 ^ 64 := by
      rw [length, fieldWidth, isizeMax] at fits
      omega
    have readClock := decodeClock_toList d.clock
    have readOps := decodeOps_toList spelled
    obtain ⟨n, readCount, isCount⟩ := docFixed_u64Le "clock-count" (UInt64.ofNat d.clock.size)
    have count : (UInt64.ofNat d.clock.size).toNat = d.clock.size := by
      rw [UInt64.toNat_ofNat']
      exact Nat.mod_eq_of_lt small.1
    have version : docFixed 1 "version" [docVersion] = .ok ⟨[docVersion], rfl⟩ :=
      fixedField_of_length _ _ (show [docVersion].length = 1 from rfl)
    have take : (d.clock.toList.flatMap clockFields ++ d.ops.toList.flatMap opFields).take
      (d.clock.size * 2) = d.clock.toList.flatMap clockFields := List.take_left' clockLength
    have drop : (d.clock.toList.flatMap clockFields ++ d.ops.toList.flatMap opFields).drop
      (d.clock.size * 2) = d.ops.toList.flatMap opFields := List.drop_left' clockLength
    have enough : ¬d.fields.length < 3 + d.clock.size * 2 := by omega
    rw [decode, decodeFields_of_encodeFields encoded]
    dsimp only
    rw [shape] at enough ⊢
    simp only [List.head?_cons, ne_eq, not_true_eq_false, if_false, version, Checked.lift_ok_bind,
      List.headD_cons, readCount, isCount, count, small.2, if_true, enough, take, readClock, drop,
      opsLength, readOps, Checked.pure_eq]
  · cases encoded

end DocLog

end NasTools
