import NasTools.Model.Store.Doc

/-! Documents as their operations make them, and what holds of all of these. -/

namespace NasTools

open Checked (lift panics)

namespace DocLog

/--
A document that came about by the operations on documents, under whatever names these were given.
-/
inductive Built : DocLog → Prop
  | empty : Built DocLog.empty
  | insertCh {d d' : DocLog} {writer : DocWriter} {after id : OpId} {ch : Char} (before : Built d)
    (done : (d.insertCh writer after ch : Checked DocError _) = lift (.ok (id, d'))) : Built d'
  | deleteId {d d' : DocLog} {writer : DocWriter} {target id : OpId} (before : Built d)
    (done : (d.deleteId writer target : Checked DocError _) = lift (.ok (id, d'))) : Built d'
  | insertText {d d' : DocLog} {writer : DocWriter} {at_ : Nat} {text : List Char}
    (before : Built d) (done : d.insertText writer at_ text = lift (.ok d')) : Built d'
  | deleteRange {d d' : DocLog} {writer : DocWriter} {at_ count : Nat} (before : Built d)
    (done : d.deleteRange writer at_ count = lift (.ok d')) : Built d'
  | merge {d other : DocLog} (first : Built d) (second : Built other) : Built (d.merge other)
  | compact {d d' : DocLog} (before : Built d) (done : d.compact = lift (.ok d')) : Built d'
  | reload {d d' : DocLog} {bytes : Bytes} (before : Built d)
    (written : d.encode = lift (.ok bytes)) (done : decode bytes = lift (.ok d')) : Built d'

section

variable {d d' other : DocLog} {writer : DocWriter} {kind : OpKind} {id : OpId}

/-- What every single insertion keeps is kept by a whole text. -/
theorem insertText_keeps {P : DocLog → Prop} {at_ : Nat} {text : List Char}
    (each : ∀ {d : DocLog} {after : OpId} {ch : Char}, P d → d.Room writer 1 →
      P (d.recorded writer (.insert after ch.val)))
    (before : P d) (done : d.insertText writer at_ text = lift (.ok d')) : P d' := by
  -- Every character goes in under a name of its own, and leaves a document for the next one.
  have chars : ∀ (text : List Char) {d : DocLog} {after : OpId}, P d →
      d.insertChars writer after text = lift (.ok d') → P d' := by
    intro text
    induction text with
    | nil =>
      intro d after before done
      obtain rfl := Except.ok.inj (Option.some.inj done)
      exact before
    | cons ch rest ih =>
      intro d after before done
      rw [insertChars, Checked.bind_eq_ok] at done
      obtain ⟨⟨id, mid⟩, here, later⟩ := done
      obtain ⟨room, _, rfl⟩ := record_eq_ok.mp here
      exact ih (each before room) later
  rw [insertText, Checked.bind_eq_ok] at done
  obtain ⟨atoms, _, rest⟩ := done
  split at rest
  · cases rest
  · exact chars _ before rest

/-- What every single deletion keeps is kept by the deletion of a range. -/
theorem deleteRange_keeps {P : DocLog → Prop} {at_ count : Nat}
    (each : ∀ {d : DocLog} {target : OpId}, P d → d.Room writer 1 →
      P (d.recorded writer (.delete target)))
    (before : P d) (done : d.deleteRange writer at_ count = lift (.ok d')) : P d' := by
  -- The characters of the range are deleted one by one.
  have ids : ∀ (targets : List OpId) {d : DocLog}, P d →
      d.deleteIds writer targets = lift (.ok d') → P d' := by
    intro targets
    induction targets with
    | nil =>
      intro d before done
      obtain rfl := Except.ok.inj (Option.some.inj done)
      exact before
    | cons target rest ih =>
      intro d before done
      rw [deleteIds, Checked.bind_eq_ok] at done
      obtain ⟨⟨id, mid⟩, here, later⟩ := done
      obtain ⟨room, _, rfl⟩ := record_eq_ok.mp here
      exact ih (each before room) later
  rw [deleteRange, Checked.bind_eq_ok] at done
  obtain ⟨atoms, _, rest⟩ := done
  split at rest
  · cases rest
  · exact ids _ before rest

/-- No operation is beyond the counter of its writer, whoever that is. -/
def Counted (d : DocLog) : Prop := ∀ writer, d.Clocked writer

/-- A name ahead of the writer's counter is not taken. -/
theorem Counted.ahead_not_mem (counted : d.Counted) {steps : Nat} (room : d.Room writer steps)
    (some_ : 0 < steps) :
    d.ahead writer steps ∉ d.ops := by
  intro taken
  have bound := counted writer _ taken rfl
  rw [toNat_ahead room] at bound
  omega

/-- An empty log has nothing to count. -/
theorem counted_empty : Counted .empty := by
  intro writer id member
  simp [DocLog.empty] at member

/-- One operation counts its writer up, and leaves the other counters. -/
theorem Counted.recorded (counted : d.Counted) (room : d.Room writer 1) :
    (d.recorded writer kind).Counted := by
  -- The new name is the counter's own, and the others were counted before.
  intro other id member is
  by_cases here : writer = other
  · subst here
    rw [toNat_last_recorded room]
    rcases mem_recorded.mp member with rfl | before
    · exact Nat.le_of_eq (toNat_ahead room)
    · exact Nat.le_succ_of_le (counted writer id before is)
  · rw [last_recorded, if_neg here]
    rcases mem_recorded.mp member with rfl | before
    · exact (here is).elim
    · exact counted other id before is

/-- Merging lowers no counter of the other document either. -/
theorem le_last_merge_right (d other : DocLog) (writer : DocWriter) :
    other.last writer ≤ (d.merge other).last writer := by
  -- The greater of two counters wins.
  simp only [last, merge, Latest.getElem?_merge]
  cases other.clock[writer]? with
  | none => exact UInt64.zero_le
  | some theirs =>
    cases d.clock[writer]? with
    | none => exact UInt64.le_refl theirs
    | some mine =>
      simp only [Latest.winner, Option.getD_some, decide_eq_true_eq]
      split
      · exact UInt64.le_refl theirs
      · rename_i notLess
        exact UInt64.not_lt.mp notLess

/-- Merging keeps every name counted. -/
theorem Counted.merge (first : d.Counted) (second : other.Counted) : (d.merge other).Counted := by
  -- Every operation comes from one of the two logs, and no counter goes down.
  intro writer id member is
  rcases mem_merge.mp member with mine | theirs
  · exact Nat.le_trans (first writer id mine is)
      (UInt64.le_iff_toNat_le.mp (le_last_merge d other writer))
  · exact Nat.le_trans (second writer id theirs is)
      (UInt64.le_iff_toNat_le.mp (le_last_merge_right d other writer))

/-- Whatever a compacted document holds was there before. -/
theorem mem_of_compact (done : d.compact = lift (.ok d')) (member : id ∈ d'.ops) : id ∈ d.ops := by
  obtain ⟨kind, held⟩ := mem_ops.mp member
  obtain ⟨_, _, ⟨⟨after, ch, found, _⟩, _⟩, _⟩ := (of_compact done).2 id kind held
  exact mem_ops.mpr ⟨_, found⟩

/-- Compacting keeps every name counted. -/
theorem Counted.compact (counted : d.Counted) (done : d.compact = lift (.ok d')) : d'.Counted := by
  intro writer id member is
  rw [last, (of_compact done).1]
  exact counted writer id (mem_of_compact done member) is

end

/-- What holds of every document that was built. -/
structure Sound (d : DocLog) : Prop where
  clocked : ∀ writer, d.Clocked writer
  spelled : d.Spelled
  -- No operation has the name of the start.
  positive : ∀ id ∈ d.ops, 0 < id.counter.toNat

variable {d d' other : DocLog} {writer : DocWriter} {kind : OpKind} {id : OpId}

/-- After one operation the names ahead are those that were one step further. -/
theorem ahead_recorded (steps : Nat) :
    (d.recorded writer kind).ahead writer steps = d.ahead writer (steps + 1) := by
  rw [ahead, ahead, last_recorded, if_pos rfl, UInt64.add_assoc, Nat.add_comm steps,
    UInt64.ofNat_add]
  rfl

/-- One operation takes one place of the room. -/
theorem room_recorded {count : Nat} (room : d.Room writer (count + 1)) :
    (d.recorded writer kind).Room writer count := by
  have one : d.Room writer 1 := Nat.lt_of_le_of_lt (by omega) room
  rw [Room] at room ⊢
  rw [toNat_last_recorded one]
  omega

/-- With room for one operation, the room behind it adds up. -/
theorem room_of_recorded {count : Nat} (one : d.Room writer 1)
    (later : (d.recorded writer kind).Room writer count) :
    d.Room writer (count + 1) := by
  rw [Room, toNat_last_recorded one] at later
  rw [Room]
  omega

/-- An operation more, with a character where it is an insertion, leaves a sound document. -/
theorem Sound.recorded (sound : d.Sound) (room : d.Room writer 1)
    (spelled : ∀ after ch, kind = .insert after ch → (charFromU32 ch).isSome) :
      (d.recorded writer kind).Sound where
  -- The new operation is spelled as asked and has a counter above zero.
  clocked := Counted.recorded sound.clocked room
  spelled id after ch held := by
    rw [getElem?_recorded] at held
    split at held
    · exact spelled after ch (Option.some.inj held)
    · exact sound.spelled id after ch held
  positive id member := by
    rcases mem_recorded.mp member with rfl | before
    · rw [toNat_ahead room]
      omega
    · exact sound.positive id before

/-- A character that is inserted is one. -/
theorem Sound.inserted {after : OpId} {ch : Char} (sound : d.Sound) (room : d.Room writer 1) :
    (d.recorded writer (.insert after ch.val)).Sound :=
  sound.recorded room fun _ _ => isSome_of_insert

/-- A deletion inserts nothing, so there is no character to look at. -/
theorem Sound.deleted {target : OpId} (sound : d.Sound) (room : d.Room writer 1) :
    (d.recorded writer (.delete target)).Sound :=
  sound.recorded room fun _ _ impossible => nomatch impossible

/-- Merging keeps logs sound. -/
theorem Sound.merge (first : d.Sound) (second : other.Sound) : (d.merge other).Sound := by
  -- Every operation comes from one of the two logs.
  have from_ {id : OpId} {kind : OpKind} (held : (d.merge other).ops[id]? = some kind) :
      d.ops[id]? = some kind ∨ other.ops[id]? = some kind := by
    rw [getElem?_merge, Option.or_eq_some_iff] at held
    exact held.imp_right And.right
  refine ⟨Counted.merge first.clocked second.clocked, ?_, ?_⟩
  · intro id after ch held
    exact (from_ held).elim (first.spelled id after ch) (second.spelled id after ch)
  · intro id member
    exact (mem_merge.mp member).elim (first.positive id) (second.positive id)

/-- Compacting keeps a log sound. -/
theorem Sound.compact (sound : d.Sound) (done : d.compact = lift (.ok d')) : d'.Sound := by
  -- What is kept was visible, so it was there already, and has a character.
  refine ⟨Counted.compact sound.clocked done, ?_, ?_⟩
  · intro id after n held
    obtain ⟨_, ch, _, is⟩ := (of_compact done).2 id _ held
    cases is
    rw [charFromU32_val]
    rfl
  · exact fun id member => sound.positive id (mem_of_compact done member)

/-- Every document that was built is sound. -/
theorem Built.sound (built : d.Built) : d.Sound := by
  -- Induction over the way the document was built.
  induction built with
  | empty =>
    refine ⟨counted_empty, ?_, ?_⟩
    · intro id after ch held
      simp [DocLog.empty] at held
    · intro id member
      simp [DocLog.empty] at member
  | insertCh _ done ih =>
    obtain ⟨room, _, rfl⟩ := record_eq_ok.mp done
    exact ih.inserted room
  | deleteId _ done ih =>
    obtain ⟨room, _, rfl⟩ := record_eq_ok.mp done
    exact ih.deleted room
  | insertText _ done ih => exact insertText_keeps Sound.inserted ih done
  | deleteRange _ done ih => exact deleteRange_keeps Sound.deleted ih done
  | merge _ _ first second => exact first.merge second
  | compact _ done ih => exact ih.compact done
  | reload _ written done ih =>
    -- What is read back is what was written.
    rw [decode_of_encode ih.spelled written, Checked.lift_inj] at done
    obtain rfl := Except.ok.inj done
    exact ih

end DocLog

/-- The operation that another one refers to. -/
def OpKind.ref : OpKind → OpId
  | .insert after _ => after
  | .delete target => target

namespace DocLog

/-- The start and the operations of a document, which an operation can refer to. -/
def Knows (ops : OrdMap OpId OpKind) (id : OpId) : Prop := id = OpId.root ∨ id ∈ ops

/-- Every operation refers to something that is there. -/
def Closed (ops : OrdMap OpId OpKind) : Prop :=
  ∀ (id : OpId) (kind : OpKind), ops[id]? = some kind → Knows ops kind.ref

/--
A document that came about by operations on what it showed or named, so that none
refers to what is not there.
-/
inductive Typed : DocLog → Prop
  | empty : Typed DocLog.empty
  | insertCh {d d' : DocLog} {writer : DocWriter} {after id : OpId} {ch : Char} (before : Typed d)
    (known : Knows d.ops after)
    (done : (d.insertCh writer after ch : Checked DocError _) = lift (.ok (id, d'))) : Typed d'
  | deleteId {d d' : DocLog} {writer : DocWriter} {target id : OpId} (before : Typed d)
    (known : Knows d.ops target)
    (done : (d.deleteId writer target : Checked DocError _) = lift (.ok (id, d'))) : Typed d'
  | insertText {d d' : DocLog} {writer : DocWriter} {at_ : Nat} {text : List Char}
    (before : Typed d) (done : d.insertText writer at_ text = lift (.ok d')) : Typed d'
  | deleteRange {d d' : DocLog} {writer : DocWriter} {at_ count : Nat} (before : Typed d)
    (done : d.deleteRange writer at_ count = lift (.ok d')) : Typed d'
  | merge {d other : DocLog} (first : Typed d) (second : Typed other) : Typed (d.merge other)
  | compact {d d' : DocLog} (before : Typed d) (done : d.compact = lift (.ok d')) : Typed d'
  | reload {d d' : DocLog} {bytes : Bytes} (before : Typed d)
    (written : d.encode = lift (.ok bytes)) (done : decode bytes = lift (.ok d')) : Typed d'

variable {d d' other : DocLog} {writer : DocWriter} {kind : OpKind} {id : OpId}

/-- Such a document was built. -/
theorem Typed.built (typed : d.Typed) : d.Built := by
  -- Each operation is one of those on documents, whatever it refers to.
  induction typed with
  | empty => exact .empty
  | insertCh _ _ done ih => exact ih.insertCh done
  | deleteId _ _ done ih => exact ih.deleteId done
  | insertText _ done ih => exact ih.insertText done
  | deleteRange _ done ih => exact ih.deleteRange done
  | merge _ _ first second => exact first.merge second
  | compact _ done ih => exact ih.compact done
  | reload _ written done ih => exact ih.reload written done

/-- Operations that are added take nothing away that is known. -/
theorem Knows.insert {ops : OrdMap OpId OpKind} {x : OpId} (known : Knows ops x) :
    Knows (ops.insert id kind) x :=
  known.imp_right fun member => Std.ExtTreeMap.mem_insert.mpr (.inr member)

/-- An operation that refers to something known leaves the operations closed. -/
theorem Closed.insert {ops : OrdMap OpId OpKind} (closed : Closed ops)
    (known : Knows ops kind.ref) :
    Closed (ops.insert id kind) := by
  -- The new operation refers to a known one, and all that was known still is.
  intro x held is
  rw [Std.ExtTreeMap.getElem?_insert] at is
  split at is
  · obtain rfl := Option.some.inj is
    exact known.insert
  · exact (closed x held is).insert

/-- Inserting characters keeps a log closed. -/
theorem Closed.insertChars {after : OpId} {text : List Char} (closed : Closed d.ops)
    (known : Knows d.ops after) (done : d.insertChars writer after text = lift (.ok d')) :
    Closed d'.ops := by
  -- Induction over the text.
  induction text generalizing d after with
  | nil =>
    obtain rfl := Except.ok.inj (Option.some.inj done)
    exact closed
  | cons ch rest ih =>
    rw [DocLog.insertChars, Checked.bind_eq_ok] at done
    obtain ⟨⟨id, mid⟩, here, later⟩ := done
    obtain ⟨_, rfl, rfl⟩ := record_eq_ok.mp here
    -- The next character goes after the one that was just inserted.
    have grown : Closed (d.recorded writer (.insert after ch.val)).ops := closed.insert known
    exact ih grown (.inr (mem_recorded.mpr (.inl rfl))) later

/-- Deleting characters keeps a log closed. -/
theorem Closed.deleteIds {targets : List OpId} (closed : Closed d.ops)
    (known : ∀ target ∈ targets, Knows d.ops target)
    (done : d.deleteIds writer targets = lift (.ok d')) : Closed d'.ops := by
  -- Deletions take nothing away that the next one could refer to.
  induction targets generalizing d with
  | nil =>
    obtain rfl := Except.ok.inj (Option.some.inj done)
    exact closed
  | cons target rest ih =>
    rw [DocLog.deleteIds, Checked.bind_eq_ok] at done
    obtain ⟨⟨id, mid⟩, here, later⟩ := done
    obtain ⟨_, rfl, rfl⟩ := record_eq_ok.mp here
    have grown : Closed (d.recorded writer (.delete target)).ops :=
      closed.insert (known target List.mem_cons_self)
    exact ih grown (fun x member => (known x (List.mem_cons_of_mem _ member)).insert) later

/-- Merging keeps logs closed. -/
theorem Closed.merge (first : Closed d.ops) (second : Closed other.ops) :
    Closed (d.merge other).ops := by
  -- What an operation refers to is in its own log.
  intro id kind held
  rw [getElem?_merge, Option.or_eq_some_iff] at held
  rcases held with mine | ⟨_, theirs⟩
  · exact (first id kind mine).imp_right fun member => mem_merge.mpr (.inl member)
  · exact (second id kind theirs).imp_right fun member => mem_merge.mpr (.inr member)

/-- In a chain each atom refers to the one before it. -/
theorem Closed.chain {atoms : List (OpId × Char)} {prev : OpId} {ops : OrdMap OpId OpKind}
    (closed : Closed ops) (known : Knows ops prev) : Closed (chain prev atoms ops) := by
  induction atoms generalizing prev ops with
  | nil => exact closed
  | cons atom rest ih => exact ih (closed.insert known) (.inr Std.ExtTreeMap.mem_insert_self)

/-- What a document shows is known to it. -/
theorem knows_of_atoms {atoms : List (OpId × Char)} (shown : d.atoms = lift (.ok atoms))
    {atom : OpId × Char} (member : atom ∈ atoms) : Knows d.ops atom.1 := by
  obtain ⟨⟨after, ch, held, _⟩, _⟩ := visible_of_atoms shown atom member
  exact .inr (mem_ops.mpr ⟨_, held⟩)

/-- No operation of such a document refers to something that is not there. -/
theorem Typed.closed (typed : d.Typed) : Closed d.ops := by
  -- Induction over the way the document was typed.
  have fresh : Closed ∅ := by
    intro id kind held
    simp at held
  induction typed with
  | empty => exact fresh
  | insertCh _ known done ih =>
    obtain ⟨_, _, rfl⟩ := record_eq_ok.mp done
    exact ih.insert known
  | deleteId _ known done ih =>
    obtain ⟨_, _, rfl⟩ := record_eq_ok.mp done
    exact ih.insert known
  | @insertText d _ _ at_ _ _ done ih =>
    rw [DocLog.insertText, Checked.bind_eq_ok] at done
    obtain ⟨atoms, shown, rest⟩ := done
    split at rest
    · cases rest
    · refine ih.insertChars ?_ rest
      -- Text goes after the start or after an atom that is shown.
      split
      · exact .inl rfl
      · cases before : atoms[at_ - 1]? with
        | none => exact .inl rfl
        | some atom => exact knows_of_atoms shown (List.mem_of_getElem? before)
  | deleteRange _ done ih =>
    rw [DocLog.deleteRange, Checked.bind_eq_ok] at done
    obtain ⟨atoms, shown, rest⟩ := done
    split at rest
    · cases rest
    · refine ih.deleteIds ?_ rest
      intro target member
      obtain ⟨atom, taken, rfl⟩ := List.mem_map.mp member
      exact knows_of_atoms shown (List.mem_of_mem_drop (List.mem_of_mem_take taken))
  | merge _ _ first second => exact first.merge second
  | compact _ done ih =>
    rw [DocLog.compact, Checked.bind_eq_ok] at done
    obtain ⟨atoms, _, is⟩ := done
    obtain rfl := Except.ok.inj (Option.some.inj is)
    exact fresh.chain (.inl rfl)
  | reload before written done ih =>
    rw [decode_of_encode before.built.sound.spelled written, Checked.lift_inj] at done
    obtain rfl := Except.ok.inj done
    exact ih

end DocLog

end NasTools
