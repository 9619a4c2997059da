import NasTools.Model.Store.Doc
import NasTools.Model.Store.Indexed

/-!
The stored form of a document: what a reader of it accepts, and when that is what would be written.
-/

namespace NasTools

open Checked (lift item panics)

/-- The writers in a table of counters, as they are spelled there. -/
def clockWriters : List Bytes → List Bytes
  | w :: _ :: rest => w :: clockWriters rest
  | _ => []

/-- The table of counters among the fields of a document, as long as the third field says. -/
def clockTable (f : List Bytes) : List Bytes := (f.drop 3).take ((u64OfLe (f.getD 2 [])).toNat * 2)

/-- The writers are the first field of every entry. -/
theorem clockWriters_fields (entries : List (DocWriter × UInt64)) :
    clockWriters (entries.flatMap clockFields) = entries.map fun entry => entry.1.bytes := by
  -- Induction over the entries, two fields each.
  induction entries with
  | nil => rfl
  | cons entry rest ih =>
    rw [List.flatMap_cons, List.map_cons, ← ih]
    rfl

/-- Counters that were read in the order of their writers are those the fields were written from. -/
theorem fields_of_decodeClock {prev : Option DocWriter} {clock result : OrdMap DocWriter UInt64}
    {fields : List Bytes} (read : OrdMap.ReadUpTo clock prev) (whole : fields.length % 2 = 0)
    (sorted : (prev.toList.map FixedBytes.bytes ++ clockWriters fields).Pairwise fun a b =>
      compare a b = .lt)
    (decoded : decodeClock clock fields = .ok result) :
    ∃ list, fields = list.flatMap clockFields ∧ result.toList = clock.toList ++ list := by
  -- What was read so far is below all that follows, as the table is in order.
  induction clock, fields using decodeClock.induct generalizing prev with
  | case1 clock writerField countField rest ih =>
    simp only [decodeClock, except_bind_eq_ok, ensure_eq_ok, docFixed, fixedField_eq_ok] at decoded
    obtain ⟨w, rfl, n, rfl, _, _, decoded⟩ := decoded
    rw [clockWriters] at sorted
    have ascending : prev.all (fun p => compare p w == .lt) = true := by
      cases prev with
      | none => rfl
      | some p =>
        have less : compare p w = .lt := (List.pairwise_cons.mp sorted).1 w.bytes (by simp)
        simpa using less
    have below := read.below ascending
    have shorter : rest.length % 2 = 0 := by
      simp only [List.length_cons] at whole
      omega
    have later : ((some w).toList.map FixedBytes.bytes ++ clockWriters rest).Pairwise fun a b =>
        compare a b = .lt :=
      sorted.sublist (List.sublist_append_right _ _)
    obtain ⟨list, rfl, listed⟩ := ih w n (OrdMap.readUpTo_insert below) shorter later decoded
    refine ⟨(w, u64OfLe n.bytes) :: list, ?_, ?_⟩
    · rw [List.flatMap_cons, clockFields, u64Le_u64OfLe_fixed]
      rfl
    · rw [listed, OrdMap.toList_insert_top below, List.append_assoc]
      rfl
  | case2 fields clock few =>
    rw [decodeClock] at decoded
    · obtain rfl := Except.ok.inj decoded
      rcases fields with _ | ⟨a, _ | ⟨b, rest⟩⟩
      · exact ⟨[], rfl, by simp⟩
      · cases whole
      · exact (few a b rest rfl).elim
    · exact few

/-- What an operation does is spelled by the fields it was read from. -/
theorem spelled_of_decodeKind {kind : UInt8} {ref : OpId} {ch : Bytes} {op : OpKind}
    (decoded : decodeKind kind ref ch = .ok op) :
    (∃ n, op = .insert ref n ∧ (charFromU32 n).isSome ∧ kind = 1 ∧ natToLe 4 n.toNat = ch) ∨
      (op = .delete ref ∧ kind = 2 ∧ ch = []) := by
  -- The byte of the kind decides how the last field is read.
  unfold decodeKind at decoded
  split at decoded
  · rename_i isInsert
    simp only [except_bind_eq_ok, ensure_eq_ok, docFixed, fixedField_eq_ok, except_pure_eq,
      Except.ok.injEq] at decoded
    obtain ⟨number, rfl, _, isChar, rfl⟩ := decoded
    exact .inl ⟨_, rfl, isChar, isInsert, natToLe_natOfLe_fixed number⟩
  · split at decoded
    · rename_i isDelete
      simp only [except_bind_eq_ok, ensure_eq_ok, except_pure_eq, Except.ok.injEq] at decoded
      obtain ⟨_, rfl, rfl⟩ := decoded
      exact .inr ⟨rfl, isDelete, rfl⟩
    · cases decoded

/--
Operations that were read are those the fields were written from, and every inserted
number is a character.
-/
theorem fields_of_decodeOps {prev : Option OpId} {ops result : OrdMap OpId OpKind}
    {fields : List Bytes} (read : OrdMap.ReadUpTo ops prev) (whole : fields.length % 6 = 0)
    (decoded : decodeOps prev ops fields = .ok result) :
    ∃ list, fields = list.flatMap opFields ∧ result.toList = ops.toList ++ list ∧
      ∀ op ∈ list, ∀ after ch, op.2 = .insert after ch → (charFromU32 ch).isSome := by
  -- What was read so far is below the operation that is read, as the check demands.
  induction prev, ops, fields using decodeOps.induct with
  | case1 prev ops writerField counterField kindField refWriterField refCounterField ch rest ih =>
    simp only [decodeOps, except_bind_eq_ok, ensure_eq_ok, docFixed, fixedField_eq_ok] at decoded
    obtain ⟨writer, rfl, counter, rfl, _, ascending, kind, rfl, refWriter, rfl, refCounter, rfl,
      op, isOp, _, _, decoded⟩ := decoded
    have below := read.below ascending
    have shorter : rest.length % 6 = 0 := by
      simp only [List.length_cons] at whole
      omega
    obtain ⟨list, rfl, listed, spelled⟩ :=
      ih writer counter op (OrdMap.readUpTo_insert below) shorter decoded
    refine ⟨(⟨writer, u64OfLe counter.bytes⟩, op) :: list, ?_, ?_, ?_⟩
    · -- Each kind of operation is spelled by its own byte and its own last field.
      have byte := oneByte_spelled kind
      rcases spelled_of_decodeKind isOp with ⟨n, rfl, _, isInsert, rfl⟩ | ⟨rfl, isDelete, rfl⟩
      · rw [isInsert] at byte
        simp only [List.flatMap_cons, opFields, u64Le_u64OfLe_fixed, byte, List.cons_append,
          List.nil_append]
      · rw [isDelete] at byte
        simp only [List.flatMap_cons, opFields, u64Le_u64OfLe_fixed, byte, List.cons_append,
          List.nil_append]
    · rw [listed, OrdMap.toList_insert_top below, List.append_assoc]
      rfl
    · intro found member after n is
      rcases List.mem_cons.mp member with rfl | inRest
      · rcases spelled_of_decodeKind isOp with ⟨m, isInsert, isChar, _⟩ | ⟨isDelete, _⟩
        · cases isInsert.symm.trans is
          exact isChar
        · cases isDelete.symm.trans is
      · exact spelled found inRest after n is
  | case2 fields prev ops few =>
    rw [decodeOps] at decoded
    · -- Fewer than six fields that are a multiple of six are none.
      obtain rfl := Except.ok.inj decoded
      rcases fields with _ | ⟨a, _ | ⟨b, _ | ⟨c, _ | ⟨d, _ | ⟨e, _ | ⟨f, rest⟩⟩⟩⟩⟩⟩
      · exact ⟨[], rfl, by simp, fun _ member => (List.not_mem_nil member).elim⟩
      · cases whole
      · cases whole
      · cases whole
      · cases whole
      · cases whole
      · exact (few a b c d e f rest rfl).elim
    · exact few

namespace DocLog

variable {bytes : Bytes} {d : DocLog}

/-- What was read of a document, part by part. -/
theorem parts_of_decode (decoded : decode bytes = lift (.ok d)) :
    ∃ (count : FixedBytes 8) (body : List Bytes),
      decodeFields bytes = .ok (docMagic :: [docVersion] :: count.bytes :: body) ∧
      (u64OfLe count.bytes).toNat * 2 ≤ body.length ∧
      decodeClock ∅ (body.take ((u64OfLe count.bytes).toNat * 2)) = .ok d.clock ∧
      (body.drop ((u64OfLe count.bytes).toNat * 2)).length % 6 = 0 ∧
      decodeOps none ∅ (body.drop ((u64OfLe count.bytes).toNat * 2)) = .ok d.ops := by
  -- Each check is passed in the order in which the reader makes it.
  unfold decode at decoded
  split at decoded
  · cases decoded
  · rename_i f split
    split at decoded
    · cases decoded
    · rename_i first
      split at decoded
      · rename_i magic version count body
        obtain rfl : magic = docMagic := by simpa using first
        rw [Checked.bind_eq_ok] at decoded
        obtain ⟨one, isOne, decoded⟩ := decoded
        rw [Checked.lift_inj, docFixed, fixedField_eq_ok] at isOne
        subst isOne
        dsimp only at decoded
        split at decoded
        · cases decoded
        · rename_i known
          rw [Checked.bind_eq_ok] at decoded
          obtain ⟨eight, isEight, decoded⟩ := decoded
          rw [Checked.lift_inj, docFixed, fixedField_eq_ok] at isEight
          subst isEight
          split at decoded
          · split at decoded
            · cases decoded
            · rename_i _ enough
              rw [Checked.bind_eq_ok] at decoded
              obtain ⟨clock, isClock, decoded⟩ := decoded
              split at decoded
              · cases decoded
              · rename_i whole
                rw [Checked.bind_eq_ok] at decoded
                obtain ⟨ops, isOps, decoded⟩ := decoded
                obtain rfl := Except.ok.inj (Option.some.inj decoded)
                have version : one.bytes = [docVersion] := by
                  rw [← oneByte_spelled one, not_not.mp known]
                rw [version] at split
                refine ⟨eight, body, split, ?_, Checked.lift_inj.mp isClock, by simpa using whole,
                  Checked.lift_inj.mp isOps⟩
                simp only [List.length_cons] at enough
                omega
          · cases decoded
      · cases decoded

/-- Every number of an operation that was read is a character. -/
theorem spelled_of_decode (decoded : decode bytes = lift (.ok d)) : d.Spelled := by
  -- Every operation is checked as it is read.
  obtain ⟨count, body, _, _, _, whole, readOps⟩ := parts_of_decode decoded
  obtain ⟨list, _, listed, spelled⟩ := fields_of_decodeOps OrdMap.readUpTo_empty whole readOps
  rw [OrdMap.toList_empty, List.nil_append] at listed
  intro id after ch held
  have member := Std.ExtTreeMap.mem_toList_iff_getElem?_eq_some.mpr held
  rw [listed] at member
  exact spelled _ member after ch rfl

/--
A document that was read is written again as it was in one case only.

The counters have to be in the order of their writers, and the table of the fields
has to fit into memory.
-/
theorem encode_iff_of_decode {f : List Bytes} (split : decodeFields bytes = .ok f)
    (decoded : decode bytes = lift (.ok d)) :
    d.encode = lift (.ok bytes) ↔
      (clockWriters (clockTable f)).Pairwise (fun a b => compare a b = .lt) ∧
        f.length * fieldWidth ≤ isizeMax := by
  -- What was decoded is written with its clocks in order, so only the order can differ.
  obtain ⟨count, body, split', enough, readClock, whole, readOps⟩ := parts_of_decode decoded
  obtain rfl := Except.ok.inj (split'.symm.trans split)
  have table : clockTable (docMagic :: [docVersion] :: count.bytes :: body) =
      body.take ((u64OfLe count.bytes).toNat * 2) := rfl
  have opsPart : body.drop ((u64OfLe count.bytes).toNat * 2) = d.ops.toList.flatMap opFields := by
    obtain ⟨list, is, listed, _⟩ := fields_of_decodeOps OrdMap.readUpTo_empty whole readOps
    rw [OrdMap.toList_empty, List.nil_append] at listed
    rw [is, listed]
  have parts : body = body.take ((u64OfLe count.bytes).toNat * 2) ++
      d.ops.toList.flatMap opFields := by
    rw [← opsPart, List.take_append_drop]
  rw [table]
  constructor
  · intro encoded
    unfold encode at encoded
    split at encoded
    · rename_i fits
      rw [Checked.lift_inj, except_mapError_eq_ok] at encoded
      -- The fields that were written are those that were read.
      have same := Except.ok.inj ((decodeFields_of_encodeFields encoded).symm.trans split)
      rw [same] at fits
      refine ⟨?_, fits⟩
      have bodyIs : d.clock.toList.flatMap clockFields ++ d.ops.toList.flatMap opFields = body := by
        simpa [fields] using congrArg (List.drop 3) same
      rw [List.append_cancel_right (parts.symm.trans bodyIs.symm), clockWriters_fields,
        List.pairwise_map]
      exact Std.ExtTreeMap.ordered_keys_toList (t := d.clock)
    · cases encoded
  · rintro ⟨sorted, fits⟩
    have even : (body.take ((u64OfLe count.bytes).toNat * 2)).length % 2 = 0 := by
      rw [List.length_take, Nat.min_eq_left enough]
      exact Nat.mul_mod_left _ _
    obtain ⟨list, clockPart, listed⟩ :=
      fields_of_decodeClock OrdMap.readUpTo_empty even sorted readClock
    rw [OrdMap.toList_empty, List.nil_append] at listed
    subst listed
    -- The number of counters is the one that was announced.
    have counted : d.clock.size = (u64OfLe count.bytes).toNat := by
      have length := congrArg List.length clockPart
      rw [List.length_take, Nat.min_eq_left enough, length_clockFields,
        Std.ExtTreeMap.length_toList] at length
      omega
    have same : d.fields = docMagic :: [docVersion] :: count.bytes :: body := by
      rw [parts, clockPart, fields, counted, UInt64.ofNat_toNat, u64Le_u64OfLe_fixed]
      rfl
    rw [encode, same, if_pos fits, encodeFields_of_decodeFields split]
    rfl

/--
Read counters from an index up to the end of their table; rounds that run out never came to an end.
-/
def decodeClockFrom (f : List Bytes) (clockEnd : Nat) : (rounds i : Nat) → OrdMap DocWriter UInt64 →
    Checked DocError (OrdMap DocWriter UInt64)
  | 0, _, _ => panics
  | rounds + 1, i, clock =>
    if i + 1 < clockEnd then do
      let w ← lift (docFixed 32 "clock-writer" (← item f i))
      let n ← lift (docFixed 8 "clock-n" (← item f (i + 1)))
      lift (ensure (¬clock.contains w) (.nonCanonical "duplicate clock writer"))
      decodeClockFrom f clockEnd rounds (i + 2) (clock.insert w (u64OfLe n.bytes))
    else pure clock

/--
What an operation does, from its kind, and its last field, which is looked up where it is needed.
-/
def decodeKindFrom (f : List Bytes) (i : Nat) (kind : UInt8) (ref : OpId) :
    Checked DocError OpKind :=
  if kind = 1 then do
    let ch ← lift (docFixed 4 "ch" (← item f i))
    let n := UInt32.ofNat (natOfLe ch.bytes)
    lift (ensure (charFromU32 n).isSome (.badChar n))
    return .insert ref n
  else if kind = 2 then do
    lift (ensure ((← item f i) = []) (.nonCanonical "delete carries a character"))
    return .delete ref
  else lift (.error (.badKind kind))

/--
Read operations from an index on, six fields at a time; rounds that run out never came to an end.
-/
def decodeOpsFrom (f : List Bytes) : (rounds i : Nat) → (prev : Option OpId) → OrdMap OpId OpKind →
    Checked DocError (OrdMap OpId OpKind)
  | 0, _, _, _ => panics
  | rounds + 1, i, prev, ops =>
    if i + 5 < f.length then do
      let writer ← lift (docFixed 32 "writer" (← item f i))
      let counter ← lift (docFixed 8 "counter" (← item f (i + 1)))
      let id : OpId := ⟨writer, u64OfLe counter.bytes⟩
      lift (ensure (prev.all fun p => compare p id == .lt)
        (.nonCanonical "ops are not in ascending id order"))
      let kind ← lift (docFixed 1 "kind" (← item f (i + 2)))
      let kind ← item kind.bytes 0
      let refWriter ← lift (docFixed 32 "ref-writer" (← item f (i + 3)))
      let refCounter ← lift (docFixed 8 "ref-counter" (← item f (i + 4)))
      let op ← decodeKindFrom f (i + 5) kind ⟨refWriter, u64OfLe refCounter.bytes⟩
      lift (ensure (¬ops.contains id) (.nonCanonical "duplicate op id"))
      decodeOpsFrom f rounds (i + 6) (some id) (ops.insert id op)
    else pure ops

/-- Where the table of counters ends; a number past 64 bits is a panic. -/
def clockEnd (n : UInt64) : Checked DocError Nat :=
  if 3 + n.toNat * 2 < 2 ^ 64 then pure (3 + n.toNat * 2) else panics

/-- Read a document back, index by index. -/
def decodeChecked (bytes : Bytes) : Checked DocError DocLog := do
  let f ← (Checked.decodeFields bytes).mapError DocError.decode
  lift (ensure (f.head? = some docMagic) .badMagic)
  lift (ensure (3 ≤ f.length) (.ragged f.length))
  let version ← lift (docFixed 1 "version" (← item f 1))
  let value ← item version.bytes 0
  lift (ensure (value = docVersion) (.badVersion value))
  let count ← lift (docFixed 8 "clock-count" (← item f 2))
  let clockEnd ← clockEnd (u64OfLe count.bytes)
  lift (ensure (clockEnd ≤ f.length) (.ragged f.length))
  let clock ← decodeClockFrom f clockEnd f.length 3 ∅
  lift (ensure ((f.length - clockEnd) % 6 = 0) (.ragged (f.length - clockEnd)))
  let ops ← decodeOpsFrom f f.length clockEnd none ∅
  return ⟨ops, clock⟩

/-- Inside the table the counters are those that are left of it. -/
theorem decodeClockFrom_eq {f : List Bytes} {clockEnd rounds i : Nat} (fits : clockEnd ≤ f.length)
    (inside : i ≤ clockEnd) (enough : clockEnd < i + rounds) (clock : OrdMap DocWriter UInt64) :
    decodeClockFrom f clockEnd rounds i clock =
      lift (decodeClock clock ((f.take clockEnd).drop i)) := by
  -- Induction over the rounds: two fields are taken at a time.
  induction rounds generalizing i clock with
  | zero => omega
  | succ rounds ih =>
    by_cases more : i + 1 < clockEnd
    · have count : 2 ≤ ((f.take clockEnd).drop i).length := by
        simp only [List.length_drop, List.length_take]
        omega
      match left : (f.take clockEnd).drop i, count with
      | w :: n :: rest, _ =>
        obtain ⟨atW, left'⟩ := Checked.item_of_drop (E := DocError) left
        obtain ⟨atN, left''⟩ := Checked.item_of_drop (E := DocError) left'
        -- The table ends inside the list, so its items are those of the list.
        have inList {j : Nat} (before : j < clockEnd) :
            (item f j : Checked DocError Bytes) = item (f.take clockEnd) j := by
          rw [item, item, List.getElem?_take_of_lt before]
        rw [decodeClockFrom, if_pos more, inList (show i < clockEnd by omega), inList more]
        simp only [atW, atN, Checked.lift_ok_bind, ih (show i + 2 ≤ clockEnd by omega) (by omega),
          left'', decodeClock, Checked.lift_bind]
    · -- Fewer than two fields are left, and they are not looked at.
      rw [decodeClockFrom, if_neg more, decodeClock]
      · rfl
      · intro w n rest left
        have count := congrArg List.length left
        simp only [List.length_drop, List.length_take, List.length_cons] at count
        omega

/-- Reading a kind from its place does not panic. -/
theorem decodeKindFrom_eq {f : List Bytes} {i : Nat} {ch : Bytes}
    (found : (item f i : Checked DocError Bytes) = lift (.ok ch)) (kind : UInt8) (ref : OpId) :
    decodeKindFrom f i kind ref = lift (decodeKind kind ref ch) := by
  -- Only one branch looks its field up, and finds it.
  unfold decodeKindFrom decodeKind
  split
  · simp only [found, Checked.lift_ok_bind, Checked.lift_bind]
    rfl
  · split
    · simp only [found, Checked.lift_ok_bind, Checked.lift_bind]
      rfl
    · rfl

/-- Six fields that are left are found by their indices. -/
theorem decodeOpsFrom_step {f : List Bytes} {rounds i : Nat} {prev : Option OpId}
    {ops : OrdMap OpId OpKind} (ih : ∀ prev ops, decodeOpsFrom f rounds (i + 6) prev ops =
      lift (decodeOps prev ops (f.drop (i + 6))))
    {writer counter kind refWriter refCounter ch : Bytes} {rest : List Bytes}
    (left : f.drop i = writer :: counter :: kind :: refWriter :: refCounter :: ch :: rest) :
    decodeOpsFrom f (rounds + 1) i prev ops = lift (decodeOps prev ops (f.drop i)) := by
  -- Six fields are left, so each of the six indices is in the list.
  obtain ⟨atWriter, left'⟩ := Checked.item_of_drop (E := DocError) left
  obtain ⟨atCounter, left'⟩ := Checked.item_of_drop (E := DocError) left'
  obtain ⟨atKind, left'⟩ := Checked.item_of_drop (E := DocError) left'
  obtain ⟨atRefWriter, left'⟩ := Checked.item_of_drop (E := DocError) left'
  obtain ⟨atRefCounter, left'⟩ := Checked.item_of_drop (E := DocError) left'
  obtain ⟨atCh, left'⟩ := Checked.item_of_drop (E := DocError) left'
  have inside : i + 5 < f.length := by
    have count := congrArg List.length left
    simp only [List.length_drop, List.length_cons] at count
    omega
  rw [decodeOpsFrom, if_pos inside, left]
  simp only [atWriter, atCounter, atKind, atRefWriter, atRefCounter, decodeKindFrom_eq atCh,
    Checked.lift_ok_bind, item_oneByte, ih, left', decodeOps, Checked.lift_bind]

/--
With a round for every field the operations come to an end, and no index lies outside the list.
-/
theorem decodeOpsFrom_eq {f : List Bytes} {rounds i : Nat} (inside : i ≤ f.length)
    (enough : f.length < i + rounds) (prev : Option OpId) (ops : OrdMap OpId OpKind) :
    decodeOpsFrom f rounds i prev ops = lift (decodeOps prev ops (f.drop i)) := by
  -- Each round takes six fields, and there is a round for every field.
  induction rounds generalizing i prev ops with
  | zero => omega
  | succ rounds ih =>
    by_cases more : i + 5 < f.length
    · have count : 6 ≤ (f.drop i).length := by
        rw [List.length_drop]
        omega
      match left : f.drop i, count with
      | writer :: counter :: kind :: refWriter :: refCounter :: ch :: rest, _ =>
        rw [← left]
        exact decodeOpsFrom_step (ih (by omega) (by omega)) left
    · -- Fewer than six fields are left, and they are not looked at.
      rw [decodeOpsFrom, if_neg more, decodeOps]
      · rfl
      · intro writer counter kind refWriter refCounter ch rest left
        have count := congrArg List.length left
        simp only [List.length_drop, List.length_cons] at count
        omega

/-- Behind the first three fields the two tables are those that the counters' number tells apart. -/
theorem tables_eq (magic version count : Bytes) (body : List Bytes) (n : Nat) :
    let f := magic :: version :: count :: body
    (do
      lift (ensure (3 + n * 2 ≤ f.length) (.ragged f.length))
      let clock ← decodeClockFrom f (3 + n * 2) f.length 3 ∅
      lift (ensure ((f.length - (3 + n * 2)) % 6 = 0) (.ragged (f.length - (3 + n * 2))))
      let ops ← decodeOpsFrom f f.length (3 + n * 2) none ∅
      return (⟨ops, clock⟩ : DocLog)) =
    if f.length < 3 + n * 2 then lift (.error (.ragged f.length))
    else do
      let clock ← lift (decodeClock ∅ (body.take (n * 2)))
      if (body.drop (n * 2)).length % 6 ≠ 0 then lift (.error (.ragged (body.drop (n * 2)).length))
      else do
        let ops ← lift (decodeOps none ∅ (body.drop (n * 2)))
        return ⟨ops, clock⟩ := by
  -- Cut at the end of the first table, the fields are those of the two tables.
  intro f
  have length : f.length = body.length + 3 := rfl
  have upTo : (f.take (3 + n * 2)).drop 3 = body.take (n * 2) := by
    rw [Nat.add_comm]
    rfl
  have behind : f.drop (3 + n * 2) = body.drop (n * 2) := by
    rw [Nat.add_comm]
    rfl
  have left : f.length - (3 + n * 2) = (body.drop (n * 2)).length := by
    rw [List.length_drop]
    omega
  by_cases enough : 3 + n * 2 ≤ f.length
  · rw [ensure_of enough, Checked.lift_ok_bind, if_neg (Nat.not_lt.mpr enough),
      decodeClockFrom_eq enough (Nat.le_add_right _ _) (by omega), upTo, left]
    refine bind_congr fun clock => ?_
    by_cases whole : (body.drop (n * 2)).length % 6 = 0
    · rw [ensure_of whole, Checked.lift_ok_bind, if_neg (not_not.mpr whole),
        decodeOpsFrom_eq enough (by omega), behind]
    · rw [ensure_of_not whole, if_pos whole]
      rfl
  · rw [ensure_of_not enough, if_pos (Nat.lt_of_not_le enough)]
    rfl

/-- No index of a document lies outside its list, and its tables come to an end. -/
theorem decodeChecked_eq (bytes : Bytes) : decodeChecked bytes = decode bytes := by
  -- Up to the tables both readers make the same checks.
  unfold decodeChecked decode
  rw [Checked.decodeFields_eq]
  cases decodeFields bytes with
  | error e => rfl
  | ok f =>
    simp only [Checked.mapError_lift, except_mapError_ok, Checked.lift_ok_bind]
    by_cases first : f.head? = some docMagic
    · rw [ensure_of first, Checked.lift_ok_bind, if_neg (not_not.mpr first)]
      rcases f with _ | ⟨magic, _ | ⟨version, _ | ⟨count, body⟩⟩⟩
      · rfl
      · rfl
      · rfl
      · simp only [List.length_cons, Nat.le_add_left, ensure_of, Checked.lift_ok_bind,
          Checked.item_cons_zero, Checked.item_cons_succ, item_oneByte]
        refine bind_congr fun one => ?_
        by_cases known : one.bytes.headD 0 = docVersion
        · rw [ensure_of known, Checked.lift_ok_bind, if_neg (not_not.mpr known)]
          refine bind_congr fun eight => ?_
          rw [clockEnd]
          split
          · rw [Checked.pure_eq, Checked.lift_ok_bind]
            exact tables_eq magic version count body _
          · rfl
        · rw [ensure_of_not known, if_pos known]
          rfl
    · rw [ensure_of_not first, if_pos first]
      rfl

/-- The number of counters a document announces puts the end of their table past 64 bits. -/
def CountOverflows (bytes : Bytes) : Prop :=
  ∃ (count : FixedBytes 8) (body : List Bytes), decodeFields bytes =
    .ok (docMagic :: [docVersion] :: count.bytes :: body) ∧
    2 ^ 64 ≤ 3 + (u64OfLe count.bytes).toNat * 2

/-- A reader panics over that number only. -/
theorem total_decode_iff : (decode bytes).Total ↔ ¬CountOverflows bytes := by
  -- Past the count every index is inside, so only the count itself can go wrong.
  constructor
  · intro total overflows
    obtain ⟨count, body, split, past⟩ := overflows
    have version : docFixed 1 "version" [docVersion] = .ok ⟨[docVersion], rfl⟩ :=
      fixedField_of_length _ _ (show [docVersion].length = 1 from rfl)
    have panicked : decode bytes = panics := by
      rw [decode, split]
      simp only [List.head?_cons, ne_eq, not_true_eq_false, if_false, version, Checked.lift_ok_bind,
        List.headD_cons, docFixed_bytes, if_neg (Nat.not_lt.mpr past)]
    obtain ⟨outcome, is⟩ := total
    cases panicked.symm.trans is
  · intro fits
    unfold decode
    split
    · exact Checked.total_lift _
    · rename_i f split_
      split
      · exact Checked.total_lift _
      · rename_i first
        split
        · rename_i magic version count body
          obtain rfl : magic = docMagic := by simpa using first
          refine Checked.total_bind (Checked.total_lift _) fun one isOne => ?_
          rw [Checked.lift_inj, docFixed, fixedField_eq_ok] at isOne
          subst isOne
          dsimp only
          split
          · exact Checked.total_lift _
          · rename_i known
            refine Checked.total_bind (Checked.total_lift _) fun eight isEight => ?_
            rw [Checked.lift_inj, docFixed, fixedField_eq_ok] at isEight
            subst isEight
            -- Here is the only number that can be too large.
            split
            · split
              · exact Checked.total_lift _
              · refine Checked.total_bind (Checked.total_lift _) fun clock _ => ?_
                split
                · exact Checked.total_lift _
                · exact Checked.total_bind (Checked.total_lift _) fun ops _ => Checked.total_lift _
            · rename_i past
              rw [← oneByte_spelled one, not_not.mp known] at split_
              exact (fits ⟨eight, body, split_, Nat.not_lt.mp past⟩).elim
        · exact Checked.total_lift _

end DocLog

end NasTools
