import NasTools.Model.Store.DocEdits

/-!
New names in documents that were read: an edit overwrites nothing while counters are
ahead of what was read.
-/

namespace NasTools

open Checked (lift panics)

namespace DocLog

/--
A document that came about by the operations on documents, from those that some byte
strings are read as.
-/
inductive Reached (loaded : Set Bytes) : DocLog → Prop
  | empty : Reached loaded DocLog.empty
  | read {d : DocLog} {bytes : Bytes} (member : bytes ∈ loaded)
    (done : decode bytes = lift (.ok d)) : Reached loaded d
  | insertCh {d d' : DocLog} {writer : DocWriter} {after id : OpId} {ch : Char}
    (before : Reached loaded d) (done : (d.insertCh writer after ch : Checked DocError _) =
    lift (.ok (id, d'))) : Reached loaded d'
  | deleteId {d d' : DocLog} {writer : DocWriter} {target id : OpId} (before : Reached loaded d)
    (done : (d.deleteId writer target : Checked DocError _) = lift (.ok (id, d'))) :
      Reached loaded d'
  | insertText {d d' : DocLog} {writer : DocWriter} {at_ : Nat} {text : List Char}
    (before : Reached loaded d) (done : d.insertText writer at_ text = lift (.ok d')) :
    Reached loaded d'
  | deleteRange {d d' : DocLog} {writer : DocWriter} {at_ count : Nat} (before : Reached loaded d)
    (done : d.deleteRange writer at_ count = lift (.ok d')) : Reached loaded d'
  | merge {d other : DocLog} (first : Reached loaded d) (second : Reached loaded other) :
    Reached loaded (d.merge other)
  | compact {d d' : DocLog} (before : Reached loaded d) (done : d.compact = lift (.ok d')) :
    Reached loaded d'

/-- The next name of a writer is not taken, and an edit under it leaves every operation as it is. -/
structure Spares (d : DocLog) : Prop where
  fresh : ∀ (writer : DocWriter) (id : OpId) (d' : DocLog),
    (d.nextId writer : Checked DocError _) = lift (.ok (id, d')) → id ∉ d.ops
  inserting : ∀ (writer : DocWriter) (after id : OpId) (ch : Char) (d' : DocLog),
    (d.insertCh writer after ch : Checked DocError _) = lift (.ok (id, d')) →
      ∀ (x : OpId) (kind : OpKind), d.ops[x]? = some kind → d'.ops[x]? = some kind
  deleting : ∀ (writer : DocWriter) (target id : OpId) (d' : DocLog),
    (d.deleteId writer target : Checked DocError _) = lift (.ok (id, d')) →
      ∀ (x : OpId) (kind : OpKind), d.ops[x]? = some kind → d'.ops[x]? = some kind

variable {d d' : DocLog} {writer : DocWriter} {kind : OpKind} {id : OpId}

/-- The next name of a writer is one step ahead of its counter. -/
theorem nextId_eq_ok {E : Type} : (d.nextId writer : Checked E _) = lift (.ok (id, d')) ↔
    d.Room writer 1 ∧ id = d.ahead writer 1 ∧
      d' = ⟨d.ops, d.clock.insert writer (d.last writer + 1)⟩ := by
  -- The only test is whether there is room for one more.
  unfold nextId Room
  split
  · rename_i room
    simp only [Checked.lift_inj, Except.ok.injEq, Prod.mk.injEq, room, true_and]
    exact and_congr eq_comm eq_comm
  · rename_i full
    refine iff_of_false ?_ fun granted => full granted.1
    intro impossible
    cases impossible

/-- Where the next name is free, the operations that are there stay. -/
theorem kept_of_fresh {E : Type} (fresh : d.ahead writer 1 ∉ d.ops)
    (done : (d.record writer kind : Checked E _) = lift (.ok (id, d'))) {x : OpId} {old : OpKind}
    (held : d.ops[x]? = some old) : d'.ops[x]? = some old := by
  obtain ⟨_, _, rfl⟩ := record_eq_ok.mp done
  rw [getElem?_recorded, if_neg, held]
  rintro rfl
  exact fresh (mem_ops.mpr ⟨old, held⟩)

/-- A document whose counters are ahead of its operations is edited without a loss. -/
theorem Counted.spares (counted : d.Counted) : d.Spares := by
  -- A name above every counted one is new, and what is new overwrites nothing.
  have free (writer : DocWriter) (room : d.Room writer 1) : d.ahead writer 1 ∉ d.ops :=
    counted.ahead_not_mem room Nat.one_pos
  refine ⟨?_, ?_, ?_⟩
  · intro writer id d' named
    obtain ⟨room, rfl, _⟩ := nextId_eq_ok.mp named
    exact free writer room
  · intro writer after id ch d' done x kind held
    exact kept_of_fresh (free writer (record_eq_ok.mp done).1) done held
  · intro writer target id d' done x kind held
    exact kept_of_fresh (free writer (record_eq_ok.mp done).1) done held

/-- From counted documents no operation leads to any other. -/
theorem Reached.counted {loaded : Set Bytes}
    (start : ∀ bytes ∈ loaded, ∀ d, decode bytes = lift (.ok d) → d.Counted)
    (reached : Reached loaded d) :
    d.Counted := by
  -- Induction over the run: each operation counts what it records.
  induction reached with
  | empty => exact counted_empty
  | read member done => exact start _ member _ done
  | insertCh _ done ih =>
    obtain ⟨room, _, rfl⟩ := record_eq_ok.mp done
    exact ih.recorded room
  | deleteId _ done ih =>
    obtain ⟨room, _, rfl⟩ := record_eq_ok.mp done
    exact ih.recorded room
  | insertText _ done ih => exact insertText_keeps Counted.recorded ih done
  | deleteRange _ done ih => exact deleteRange_keeps Counted.recorded ih done
  | merge _ _ first second => exact first.merge second
  | compact _ done ih => exact ih.compact done

/--
Where an operation is beyond the counter of its writer, that writer comes to its name in the end.
-/
theorem not_spares_of_beyond {loaded : Set Bytes} {steps : Nat} (reached : Reached loaded d)
    (member : id ∈ d.ops) (beyond : id.counter.toNat = (d.last id.writer).toNat + (steps + 1)) :
    ∃ d', Reached loaded d' ∧ ¬d'.Spares := by
  -- Induction over how far the operation is beyond the counter.
  have bound := id.counter.toNat_lt
  -- Every deletion brings the counter one step closer, and takes no operation away.
  induction steps generalizing d with
  | zero =>
    have room : d.Room id.writer 1 := by
      rw [Room]
      omega
    refine ⟨d, reached, fun spares => ?_⟩
    have same : d.ahead id.writer 1 = id := by
      have counter : (d.ahead id.writer 1).counter = id.counter :=
        UInt64.toNat.inj ((toNat_ahead room).trans beyond.symm)
      calc d.ahead id.writer 1 = ⟨id.writer, (d.ahead id.writer 1).counter⟩ := rfl
        _ = id := by rw [counter]
    exact spares.fresh id.writer id _ (nextId_eq_ok.mpr ⟨room, same.symm, rfl⟩) member
  | succ steps ih =>
    have room : d.Room id.writer 1 := by
      rw [Room]
      omega
    have done : (d.deleteId id.writer OpId.root : Checked DocError _) =
        lift (.ok (d.ahead id.writer 1, d.recorded id.writer (.delete OpId.root))) :=
          record_eq_ok.mpr ⟨room, rfl, rfl⟩
    refine ih (reached.deleteId done) (mem_recorded.mpr (.inr member)) ?_
    rw [toNat_last_recorded room]
    omega

/--
In whatever was reached from some byte strings an edit overwrites nothing, exactly when no document
that these are read as has an operation beyond the counter of its writer.
-/
theorem names_are_new_iff (loaded : Set Bytes) :
    (∀ d, Reached loaded d → d.Spares) ↔
      ∀ bytes ∈ loaded, ∀ d, decode bytes = lift (.ok d) →
        ∀ id ∈ d.ops, id.counter ≤ d.last id.writer := by
  -- A name beyond the clock is reached by editing, and then it is overwritten.
  constructor
  · intro spares bytes member d done id present
    by_contra more
    have above : (d.last id.writer).toNat < id.counter.toNat :=
      UInt64.lt_iff_toNat_lt.mp (UInt64.not_le.mp more)
    obtain ⟨steps, is⟩ := Nat.exists_eq_add_of_lt above
    have beyond : id.counter.toNat = (d.last id.writer).toNat + (steps + 1) := by omega
    obtain ⟨d', reached, lossy⟩ := not_spares_of_beyond (.read member done) present beyond
    exact lossy (spares d' reached)
  · intro counted d reached
    refine Counted.spares (reached.counted ?_)
    rintro bytes member d done writer id present rfl
    exact UInt64.le_iff_toNat_le.mp (counted bytes member d done id present)

/-- The bytes of a writer, all ones. -/
theorem length_ones : (List.replicate 32 (1 : UInt8)).length = 32 := List.length_replicate

/-- A document with one operation, and no counter for its writer. -/
def uncounted : DocLog :=
  ⟨(∅ : OrdMap OpId OpKind).insert ⟨⟨List.replicate 32 1, length_ones⟩,
      1⟩ (.insert OpId.root 97), ∅⟩

/-- Its encoding. -/
def uncountedBytes : Bytes := uncounted.fields.flatMap framedField

/-- A document that does not count its own names is decoded, and editing it overwrites one. -/
theorem uncounted_edit_overwrites :
    decode uncountedBytes = lift (.ok uncounted) ∧ ¬∀ d, Reached Set.univ d → d.Spares := by
  -- The document is decoded and edited, and both are evaluated.
  have read : decode uncountedBytes = lift (.ok uncounted) := by
    show (_ : Option (Except DocError DocLog)) = _
    decide +kernel
  refine ⟨read, fun spares => ?_⟩
  -- The writer's next character replaces the one that is there.
  have lossless := (spares _ (.read (Set.mem_univ _) read)).inserting ⟨List.replicate 32 1,
    rfl⟩ OpId.root
    ⟨⟨List.replicate 32 1, rfl⟩, 1⟩ 'b' _ rfl ⟨⟨List.replicate 32 1, rfl⟩, 1⟩ (.insert OpId.root 97)
  exact absurd (lossless (by decide)) (by decide)

end DocLog

end NasTools
