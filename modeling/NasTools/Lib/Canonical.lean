import NasTools.Lib.Bytes
import NasTools.Lib.Fallible

/-! Procedures that can panic, and formats in which every value has exactly one spelling. -/

namespace NasTools

/-- The result of a procedure that may fail, or panic: nothing at all stands for the panic. -/
abbrev Checked (E A : Type) := ExceptT E Option A

namespace Checked

variable {E F A B : Type}

/-- A step that cannot panic. -/
def lift (x : Except E A) : Checked E A := some x

/-- A panic. -/
def panics : Checked E A := (none : Option (Except E A))

/-- The value a step cannot go on without, as `expect` and an index take it. -/
def expect (x : Option A) : Checked E A :=
  match x with
  | some a => pure a
  | none => panics

/-- The item at an index, which has to be there. -/
def item (list : List A) (i : Nat) : Checked E A := expect list[i]?

/-- The two parts of a string cut at a position that has to lie inside it. -/
def splitAt (list : List A) (n : Nat) : Checked E (List A × List A) :=
  expect (if n ≤ list.length then some (list.take n, list.drop n) else none)

/-- The items from a position on, which has to lie inside the list. -/
def itemsFrom (list : List A) (n : Nat) : Checked E (List A) :=
  expect (if n ≤ list.length then some (list.drop n) else none)

/-- Rename the error of a step. -/
def mapError (f : E → F) (x : Checked E A) : Checked F A := Option.map (Except.mapError f) x

/-- A step that does not panic. -/
def Total (x : Checked E A) : Prop := ∃ outcome, x = lift outcome

/-- Expecting a value that is there does not panic. -/
@[simp] theorem expect_some (a : A) : (expect (some a) : Checked E A) = lift (.ok a) := rfl

/-- A plain value is a computation that neither panics nor fails. -/
@[simp] theorem pure_eq (a : A) : (pure a : Checked E A) = lift (.ok a) := rfl

/-- After a success the computation goes on with its value. -/
@[simp] theorem lift_ok_bind (a : A) (f : A → Checked E B) : (lift (.ok a) >>= f) = f a := rfl

/-- After an error the rest is not run. -/
@[simp] theorem lift_error_bind (e : E) (f : A → Checked E B) :
    (lift (.error e) >>= f) = lift (.error e) := rfl

/-- Renaming errors commutes with lifting. -/
@[simp] theorem mapError_lift (f : E → F) (x : Except E A) :
    mapError f (lift x) = lift (x.mapError f) :=
  rfl

/-- A sequence of steps that cannot panic is one such step. -/
theorem lift_bind (x : Except E A) (f : A → Except E B) :
    lift (x >>= f) = (lift x >>= fun a => lift (f a)) := by
  cases x <;> rfl

/-- Lifting loses nothing of a result. -/
@[simp] theorem lift_inj {x y : Except E A} : lift x = lift y ↔ x = y := Option.some_inj

/-- The first item is the head. -/
@[simp] theorem item_cons_zero (a : A) (rest : List A) :
    (item (a :: rest) 0 : Checked E A) = lift (.ok a) := rfl

/-- Every later item is an item of the tail. -/
@[simp] theorem item_cons_succ (a : A) (rest : List A) (i : Nat) :
    (item (a :: rest) (i + 1) : Checked E A) = item rest i := rfl

/-- A cut inside the string is made. -/
theorem splitAt_of_le {list : List A} {n : Nat} (inside : n ≤ list.length) :
    (splitAt list n : Checked E _) = lift (.ok (list.take n, list.drop n)) := by
  simp [splitAt, inside]

/-- From a position inside the list, the rest of it. -/
theorem itemsFrom_of_le {list : List A} {n : Nat} (inside : n ≤ list.length) :
    (itemsFrom list n : Checked E _) = lift (.ok (list.drop n)) := by
  simp [itemsFrom, inside]

/-- A sequence succeeds exactly when each step succeeds in turn. -/
theorem bind_eq_ok {x : Checked E A} {f : A → Checked E B} {b : B} :
    (x >>= f) = lift (.ok b) ↔ ∃ a, x = lift (.ok a) ∧ f a = lift (.ok b) := by
  -- The first step has to give a value for the second to be taken.
  constructor
  · intro found
    -- A panic and an error both end the sequence.
    rcases x with _ | (e | a)
    · cases found
    · cases found
    · exact ⟨a, rfl, found⟩
  · rintro ⟨a, rfl, found⟩
    exact found

/-- A value that is there is what is expected. -/
theorem expect_eq_ok {x : Option A} {a : A} :
    (expect x : Checked E A) = lift (.ok a) ↔ x = some a := by
  -- A missing value panics, so no success comes of it.
  cases x with
  | some b => simp [lift_inj]
  | none =>
    constructor
    · intro panicked
      cases panicked
    · intro impossible
      cases impossible

/-- A lifted result does not panic. -/
theorem total_lift (x : Except E A) : Total (lift x) := ⟨x, rfl⟩

/-- A sequence panics only where one of its steps does. -/
theorem total_bind {x : Checked E A} {f : A → Checked E B} (first : Total x)
    (next : ∀ a, x = lift (.ok a) → Total (f a)) : Total (x >>= f) := by
  obtain ⟨outcome, rfl⟩ := first
  cases outcome with
  | error e => exact total_lift (.error e)
  | ok a => exact next a rfl

/-- An index inside the list is found. -/
theorem total_item {list : List A} {i : Nat} (inside : i < list.length) :
    Total (item list i : Checked E A) :=
  ⟨.ok list[i], by simp [item, inside]⟩

/-- A list is gone through without a panic where each element is. -/
theorem mapM_lift {f : A → Checked E B} {g : A → Except E B} {items : List A}
    (each : ∀ a ∈ items, f a = lift (g a)) :
    items.mapM f = lift (items.mapM g) := by
  -- Induction over the list: the first step is lifted, and so are the later ones.
  induction items with
  | nil => rfl
  | cons first rest ih =>
    have later := ih fun a member => each a (List.mem_cons_of_mem _ member)
    -- A step that cannot panic is followed by a list that cannot.
    simp only [List.mapM_cons, each first List.mem_cons_self, later, lift_bind,
      except_pure_eq, pure_eq]

/-- A list of which every item is expected is what its items are. -/
theorem mapM_expect {f : A → Except F B} {items : List A} {out : List B} :
    (items.mapM fun a => (expect (f a).toOption : Checked E B)) = lift (.ok out) ↔
      items.mapM f = .ok out := by
  -- Induction over the items: the first has to be there, and so have all the others.
  induction items generalizing out with
  | nil => simp [lift_inj]
  | cons first rest ih =>
    simp only [List.mapM_cons, bind_eq_ok, expect_eq_ok, except_toOption_eq_some, ih, pure_eq,
      lift_inj, except_bind_eq_ok, except_pure_eq, Except.ok.injEq]

end Checked

/-- A format: how values are written, and how bytes are read. -/
structure Codec (E A : Type) where
  encode : A → Except E Bytes
  decode : Bytes → Checked E A

/--
A format in which the values that can be sent and the strings that are accepted are in bijection.

No input makes the reader panic, accepted or not.
-/
structure Codec.Canonical {E A : Type} (format : Codec E A) (Proper : A → Prop) : Prop where
  total : ∀ bytes, (format.decode bytes).Total
  reads : ∀ a, Proper a → ∃ bytes, format.encode a = .ok bytes ∧
    format.decode bytes = Checked.lift (.ok a)
  spelled : ∀ bytes a, format.decode bytes = Checked.lift (.ok a) → format.encode a = .ok bytes
  proper : ∀ bytes a, format.decode bytes = Checked.lift (.ok a) → Proper a

/-- A reader that never panics is judged by its errors and values alone. -/
theorem Codec.canonical_of_total {E A : Type} {format : Codec E A} {Proper : A → Prop}
    {read : Bytes → Except E A} (total : ∀ bytes, format.decode bytes = Checked.lift (read bytes))
    (reads : ∀ a, Proper a → ∃ bytes, format.encode a = .ok bytes ∧ read bytes = .ok a)
    (accepted : ∀ bytes a, read bytes = .ok a → Proper a ∧ format.encode a = .ok bytes) :
    format.Canonical Proper where
  -- The reader that never panics decides each field of the statement.
  total bytes := ⟨read bytes, total bytes⟩
  reads a proper := by
    obtain ⟨bytes, written, found⟩ := reads a proper
    exact ⟨bytes, written, by rw [total, found]⟩
  spelled bytes a found := by
    rw [total, Checked.lift_inj] at found
    exact (accepted bytes a found).2
  proper bytes a found := by
    rw [total, Checked.lift_inj] at found
    exact (accepted bytes a found).1

/-- A value is written, and read back as itself. -/
def Codec.ReadsBack {E A : Type} (format : Codec E A) (a : A) : Prop :=
  ∃ bytes, format.encode a = .ok bytes ∧ format.decode bytes = Checked.lift (.ok a)

/--
A reader that never panics and accepts exactly the encodings of proper values makes a
canonical format.
-/
theorem Codec.canonical_of_iff {E A : Type} {format : Codec E A} {Proper : A → Prop}
    (total : ∀ bytes, (format.decode bytes).Total)
    (accepts : ∀ bytes a, format.decode bytes = Checked.lift (.ok a) ↔ Proper a ∧
      format.encode a = .ok bytes)
    (encodes : ∀ a, Proper a → ∃ bytes, format.encode a = .ok bytes) : format.Canonical Proper where
  -- Accepting exactly the spellings of proper values gives all three parts at once.
  total := total
  reads a proper := by
    obtain ⟨bytes, encoded⟩ := encodes a proper
    exact ⟨bytes, encoded, (accepts bytes a).mpr ⟨proper, encoded⟩⟩
  spelled bytes a decoded := ((accepts bytes a).mp decoded).2
  proper bytes a decoded := ((accepts bytes a).mp decoded).1

/-- In a canonical format exactly the proper values are read back. -/
theorem Codec.Canonical.readsBack_iff {E A : Type} {format : Codec E A} {Proper : A → Prop}
    (canonical : format.Canonical Proper) {a : A} : format.ReadsBack a ↔ Proper a :=
  ⟨fun ⟨bytes, _, decoded⟩ => canonical.proper bytes a decoded, canonical.reads a⟩

/--
A format with one spelling for every value made in some way.

No input makes the reader panic, and what it accepts is written as it was read.
-/
structure Codec.OneSpelling {E A : Type} (format : Codec E A) (Made : A → Prop) : Prop where
  total : ∀ bytes, (format.decode bytes).Total
  reads : ∀ a, Made a → format.ReadsBack a
  spelled : ∀ bytes a, format.decode bytes = Checked.lift (.ok a) → format.encode a = .ok bytes

/-- A reader that never panics is judged by its errors and values alone, for one spelling too. -/
theorem Codec.oneSpelling_of_total {E A : Type} {format : Codec E A} {Made : A → Prop}
    {read : Bytes → Except E A} (total : ∀ bytes, format.decode bytes = Checked.lift (read bytes))
    (reads : ∀ a, Made a → ∃ bytes, format.encode a = .ok bytes ∧ read bytes = .ok a)
    (spelled : ∀ bytes a, read bytes = .ok a → format.encode a = .ok bytes) :
    format.OneSpelling Made where
  -- As for a canonical format, but nothing is asked of what is read.
  total bytes := ⟨read bytes, total bytes⟩
  reads a made := by
    obtain ⟨bytes, written, found⟩ := reads a made
    exact ⟨bytes, written, by rw [total, found]⟩
  spelled bytes a found := by
    rw [total, Checked.lift_inj] at found
    exact spelled bytes a found

/-- A canonical format has one spelling for whatever is made proper. -/
theorem Codec.Canonical.oneSpelling {E A : Type} {format : Codec E A} {Proper Made : A → Prop}
    (canonical : format.Canonical Proper) (made : ∀ a, Made a → Proper a) :
      format.OneSpelling Made where
  total := canonical.total
  reads a is := canonical.readsBack_iff.mpr (made a is)
  spelled := canonical.spelled

/-- A list converted element by element is converted back, where each element is. -/
theorem mapM_back {E F A B : Type} {f : A → Except E B} {g : B → Except F A} {items : List A}
    {out : List B} (converted : items.mapM f = .ok out)
    (back : ∀ a ∈ items, ∀ b, f a = .ok b → g b = .ok a) :
    out.mapM g = .ok items ∧ out.length = items.length := by
  -- Induction over the list: its head and its rest are converted in turn.
  induction items generalizing out with
  | nil =>
    obtain rfl : [] = out := by simpa using converted
    exact ⟨rfl, rfl⟩
  | cons first rest ih =>
    simp only [List.mapM_cons, except_bind_eq_ok, except_pure_eq, Except.ok.injEq] at converted
    -- The head is converted back by itself, and the rest by the induction.
    obtain ⟨b, here, others, later, rfl⟩ := converted
    obtain ⟨again, size⟩ := ih later fun a member => back a (List.mem_cons_of_mem _ member)
    refine ⟨?_, by simp [size]⟩
    rw [List.mapM_cons, back first List.mem_cons_self b here, again]
    rfl

end NasTools
