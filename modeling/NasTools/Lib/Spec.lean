import NasTools.Lib.Machine

/-! Specifications as a start and a next-step relation, and machines that carry them out. -/

namespace NasTools

/-- A specification: where a system may start, and what it may do next. -/
structure Spec (S : Type) where
  init : S → Prop
  next : S → S → Prop

namespace Spec

variable {S T A O : Type} {spec wider : Spec S} {s t : S}

/-- Some steps one after the other, or none. -/
def Steps (spec : Spec S) : S → S → Prop := Relation.ReflTransGen spec.next

/-- A state the system can get into. -/
def Reachable (spec : Spec S) (s : S) : Prop := ∃ start, spec.init start ∧ spec.Steps start s

/-- No step leads from a state to itself. -/
theorem Steps.refl (s : S) : spec.Steps s s := Relation.ReflTransGen.refl

/-- Steps are put together. -/
theorem Steps.trans {u : S} (first : spec.Steps s t) (second : spec.Steps t u) : spec.Steps s u :=
  Relation.ReflTransGen.trans first second

/-- One step is some steps. -/
theorem Steps.single (next : spec.next s t) : spec.Steps s t := Relation.ReflTransGen.single next

/-- Where a step would change nothing, it need not be taken. -/
theorem Steps.of_next_or_eq (either : spec.next s t ∨ t = s) : spec.Steps s t := by
  rcases either with next | rfl
  · exact .single next
  · exact .refl t

/-- Steps taken under a rule are steps under any laxer one. -/
theorem Steps.mono (laxer : ∀ s t, spec.next s t → wider.next s t) (steps : spec.Steps s t) :
    wider.Steps s t :=
  Relation.ReflTransGen.mono laxer _ _ steps

/-- An initial state is reachable. -/
theorem reachable_of_init (start : spec.init s) : spec.Reachable s := ⟨s, start, .refl s⟩

/-- What steps lead to from a reachable state is reachable. -/
theorem Reachable.steps (reachable : spec.Reachable s) (steps : spec.Steps s t) :
    spec.Reachable t := by
  obtain ⟨start, init, before⟩ := reachable
  exact ⟨start, init, before.trans steps⟩

/-- The next state of a reachable state is reachable. -/
theorem Reachable.next (reachable : spec.Reachable s) (next : spec.next s t) : spec.Reachable t :=
  reachable.steps (.single next)

/-- What one system can get into, a laxer one can too. -/
theorem Reachable.mono (starts : ∀ s, spec.init s → wider.init s)
    (laxer : ∀ s t, spec.next s t → wider.next s t) (reachable : spec.Reachable s) :
    wider.Reachable s := by
  obtain ⟨start, init, steps⟩ := reachable
  exact ⟨start, starts start init, steps.mono laxer⟩

/-- What every step keeps, some steps keep. -/
theorem Steps.invariant {P : S → Prop} (kept : ∀ s t, P s → spec.next s t → P t)
    (steps : spec.Steps s t) (start : P s) : P t := by
  induction steps with
  | refl => exact start
  | tail _ next ih => exact kept _ _ ih next

/-- What holds at the start and is kept by every step holds wherever the system can get. -/
theorem Reachable.invariant {P : S → Prop} (reachable : spec.Reachable s)
    (starts : ∀ s, spec.init s → P s) (kept : ∀ s t, P s → spec.next s t → P t) : P s := by
  obtain ⟨start, init, steps⟩ := reachable
  exact steps.invariant kept (starts start init)

/-- A step taken again and again, as long as a condition allows it. -/
theorem Steps.iterate {P : S → Prop} {f : S → S} (kept : ∀ s, P s → P (f s))
    (steps : ∀ s, P s → spec.next s (f s)) (start : P s) (n : ℕ) : spec.Steps s (f^[n] s) := by
  induction n generalizing s with
  | zero => exact .refl s
  | succ n ih => exact (Steps.single (steps s start)).trans (ih (kept s start))

/-- A step for every entry of a list, one after the other. -/
theorem Steps.foldl {E : Type} {f : S → E → S} (steps : ∀ s e, spec.Steps s (f s e))
    (entries : List E) (s : S) :
    spec.Steps s (entries.foldl f s) := by
  induction entries generalizing s with
  | nil => exact .refl s
  | cons e rest ih => exact (steps s e).trans (ih (f s e))

/--
A machine carries a specification out, as seen through a relation between their states.

What the machine does in one permitted step, the system may do in some steps of its own or in none.
-/
def CarriedOut (spec : Spec T) (m : Machine S A O) (allowed : S → A → Prop)
    (shows : S → T → Prop) : Prop :=
  ∀ s a t, allowed s a → shows s t → ∃ t', spec.Steps t t' ∧ shows (m.step s a).2 t'

variable {system : Spec T} {m : Machine S A O} {allowed : S → A → Prop} {shows : S → T → Prop}
    {actions : List A}

/-- Whatever a permitted run does, the system could have done. -/
theorem CarriedOut.run (carried : system.CarriedOut m allowed shows) {u : T} (shown : shows s u)
    (permitted : m.Permits allowed s actions) :
    ∃ u', system.Steps u u' ∧ shows (m.run s actions) u' := by
  -- Induction over the run.
  induction actions generalizing s u with
  | nil => exact ⟨u, .refl u, shown⟩
  | cons a rest ih =>
    -- One action, and then the rest of the run from what it shows.
    obtain ⟨middle, first, between⟩ := carried s a u permitted.1 shown
    obtain ⟨last, later, after⟩ := ih between permitted.2
    exact ⟨last, first.trans later, after⟩

/-- A permitted run from where the system may start only shows states the system can get into. -/
theorem CarriedOut.reachable (carried : system.CarriedOut m allowed shows) {start : T}
    (init : system.init start) (shown : shows s start) (permitted : m.Permits allowed s actions) :
    ∃ u, system.Reachable u ∧ shows (m.run s actions) u := by
  obtain ⟨u, steps, after⟩ := carried.run shown permitted
  exact ⟨u, ⟨start, init, steps⟩, after⟩

end Spec

namespace Machine

variable {S A O : Type} {m open_ : Machine S A O} {heard : A → Bool} {refused : A → O}
    {actions : List A}

section

variable (same : ∀ s a, heard a = true → m.step s a = open_.step s a)
  (inert : ∀ s a, heard a = false → m.step s a = (refused a, s))
include same inert

/-- A machine that only hears some actions runs like one that is given just these. -/
theorem run_filter (s : S) : m.run s actions = open_.run s (actions.filter heard) := by
  -- Induction over the actions: those that are not heard change nothing.
  induction actions generalizing s with
  | nil => rfl
  | cons a rest ih =>
    rw [run_cons, ih]
    cases is : heard a with
    | true => rw [List.filter_cons_of_pos is, run_cons, same s a is]
    | false => rw [List.filter_cons_of_neg (by simp [is]), inert s a is]

/-- What it answers to these is what the other one answers. -/
theorem log_filter (s : S) :
    (m.log s actions).filter (fun e => heard e.1) = open_.log s (actions.filter heard) := by
  -- Induction over the actions: those that are not heard are dropped on both sides.
  induction actions generalizing s with
  | nil => rfl
  | cons a rest ih =>
    rw [log]
    cases is : heard a with
    | true => rw [List.filter_cons_of_pos (by simpa using is), List.filter_cons_of_pos is, log, ih,
      same s a is]
    | false => rw [List.filter_cons_of_neg (by simp [is]), List.filter_cons_of_neg (by simp [is]),
      ih, inert s a is]

omit same in
/-- What it answers to the others does not depend on its state. -/
theorem answer_of_unheard (s : S) {e : A × O} (answered : e ∈ m.log s actions)
    (is : heard e.1 = false) :
    e.2 = refused e.1 := by
  -- Induction over the actions, up to the one in question.
  induction actions generalizing s with
  | nil => cases answered
  | cons a rest ih =>
    rcases List.mem_cons.mp answered with rfl | later
    · exact congrArg Prod.fst (inert s a is)
    · exact ih _ later

end

end Machine

end NasTools
