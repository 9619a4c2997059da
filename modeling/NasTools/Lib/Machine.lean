import Mathlib

/-!
State machines driven by an environment: what one step keeps, every run keeps, and
what a run answered.
-/

namespace NasTools

/-- A machine that answers each action with an output and its next state. -/
structure Machine (S A O : Type) where
  step : S → A → O × S

namespace Machine

variable {S A O : Type}

/-- The state after a list of actions. -/
def run (m : Machine S A O) (s : S) (actions : List A) : S :=
  actions.foldl (fun s a => (m.step s a).2) s

/-- Every action of a run is one the environment may take where it is taken. -/
def Permits (m : Machine S A O) (allowed : S → A → Prop) (s : S) : List A → Prop
  | [] => True
  | a :: rest => allowed s a ∧ m.Permits allowed (m.step s a).2 rest

variable {m : Machine S A O} {allowed : S → A → Prop} {s : S} {actions : List A}

/-- Whether a run is permitted is checked action by action. -/
instance decidablePermits [∀ s a, Decidable (allowed s a)] (s : S) :
    (actions : List A) → Decidable (m.Permits allowed s actions)
  | [] => isTrue trivial
  | a :: rest =>
    have := decidablePermits (m.step s a).2 rest
    inferInstanceAs (Decidable (allowed s a ∧ m.Permits allowed (m.step s a).2 rest))

/-- A run of no steps ends where it starts. -/
@[simp] theorem run_nil : m.run s [] = s := rfl

/-- A run takes its first step and goes on from there. -/
@[simp] theorem run_cons {a : A} {rest : List A} :
    m.run s (a :: rest) = m.run (m.step s a).2 rest := rfl

/-- A run in two parts goes on where the first part ends. -/
theorem run_append {first second : List A} :
    m.run s (first ++ second) = m.run (m.run s first) second := List.foldl_append

/-- A run is permitted in full exactly when both halves are. -/
theorem permits_append {first second : List A} : m.Permits allowed s (first ++ second) ↔
    m.Permits allowed s first ∧ m.Permits allowed (m.run s first) second := by
  -- The first half moves the state, so it stays quantified over.
  induction first generalizing s with
  | nil => simp [Permits]
  | cons a rest ih => simp [Permits, ih, and_assoc]

/-- A run permitted under one rule is permitted under any laxer one. -/
theorem permits_mono {laxer : S → A → Prop} (implied : ∀ s a, allowed s a → laxer s a)
    (permitted : m.Permits allowed s actions) : m.Permits laxer s actions := by
  induction actions generalizing s with
  | nil => trivial
  | cons a rest ih => exact ⟨implied s a permitted.1, ih permitted.2⟩

/-- What holds at the start and is kept by every permitted step holds after every permitted run. -/
theorem run_invariant {P : S → Prop} (start : P s) (permitted : m.Permits allowed s actions)
    (kept : ∀ s a, allowed s a → P s → P (m.step s a).2) : P (m.run s actions) := by
  induction actions generalizing s with
  | nil => exact start
  | cons a rest ih => exact ih (kept s a permitted.1 start) permitted.2

/--
A preorder that every permitted step respects, where an invariant holds, relates a run's ends.
-/
theorem run_related {P : S → Prop} {R : S → S → Prop} (start : P s)
    (permitted : m.Permits allowed s actions)
    (kept : ∀ s a, allowed s a → P s → P (m.step s a).2) (refl : ∀ s, R s s)
    (trans : ∀ a b c, R a b → R b c → R a c)
    (moves : ∀ s a, allowed s a → P s → R s (m.step s a).2) : R s (m.run s actions) := by
  -- Induction over the run.
  induction actions generalizing s with
  | nil => exact refl s
  | cons a rest ih =>
    -- One step, then the rest of the run from a state that keeps the invariant.
    have here := moves s a permitted.1 start
    have later := ih (kept s a permitted.1 start) permitted.2
    exact trans _ _ _ here later

/-- Without restrictions every run is permitted. -/
theorem permits_always : m.Permits (fun _ _ => True) s actions := by
  induction actions generalizing s with
  | nil => trivial
  | cons a rest ih => exact ⟨trivial, ih⟩

end Machine

/-- Something happened in a log, and nothing of another kind has happened since. -/
def Since {E : Type} (happened undone : E → Prop) (log : List E) : Prop :=
  ∃ before e after, log = before ++ e :: after ∧ happened e ∧ ∀ later ∈ after, ¬undone later

/-- One more entry either is what happened, or does not undo it. -/
theorem since_append {E : Type} {happened undone : E → Prop} {log : List E} {e : E} :
    Since happened undone (log ++ [e]) ↔ happened e ∨ (Since happened undone log ∧ ¬undone e) := by
  -- The new entry is the one that happened, or it comes after what happened and does not undo it.
  constructor
  · intro happened
    obtain ⟨before, first, after, split, is, kept⟩ := happened
    rcases List.eq_nil_or_concat after with rfl | ⟨rest, last, rfl⟩
    · have last := (List.append_inj' split rfl).2
      obtain rfl := List.singleton_injective last
      exact .inl is
    · -- What happened lies before the last entry.
      have same : log ++ [e] = (before ++ first :: rest) ++ [last] := by simpa using split
      obtain ⟨rfl, equal⟩ := List.append_inj' same rfl
      obtain rfl := List.singleton_injective equal
      exact .inr ⟨⟨before, first, rest, rfl, is, fun later member => kept later (by simp [member])⟩,
        kept e (by simp)⟩
  · intro either
    obtain is | ⟨⟨before, first, after, rfl, is, kept⟩, spared⟩ := either
    · exact ⟨log, e, [], rfl, is, by simp⟩
    · refine ⟨before, first, after ++ [e], by simp, is, ?_⟩
      intro later member
      rcases List.mem_append.mp member with among | last
      · exact kept later among
      · rw [List.mem_singleton.mp last]
        exact spared

namespace Machine

variable {S A O : Type} {m : Machine S A O} {s : S} {actions : List A}

/-- The actions of a run, each with its answer. -/
def log (m : Machine S A O) (s : S) : List A → List (A × O)
  | [] => []
  | a :: rest => (a, (m.step s a).1) :: m.log (m.step s a).2 rest

/-- The log of a run in two parts goes on with the log of the second. -/
@[simp] theorem log_append {first second : List A} :
    m.log s (first ++ second) = m.log s first ++ m.log (m.run s first) second := by
  induction first generalizing s with
  | nil => rfl
  | cons a rest ih => simp [log, ih]

/-- The log names the actions of the run in order. -/
@[simp] theorem map_fst_log : (m.log s actions).map Prod.fst = actions := by
  induction actions generalizing s with
  | nil => rfl
  | cons a rest ih => simp [log, ih]

/--
What holds of the start, and is kept as each permitted action and its answer are
added, holds of every run.
-/
theorem log_invariant {allowed : S → A → Prop} {P : List (A × O) → S → Prop} (start : P [] s)
    (permitted : m.Permits allowed s actions)
    (kept : ∀ past s a, allowed s a → P past s → P (past ++ [(a, (m.step s a).1)]) (m.step s a).2) :
    P (m.log s actions) (m.run s actions) := by
  -- What was answered before the actions at hand stays in front of their answers.
  have general : ∀ past s, m.Permits allowed s actions → P past s →
      P (past ++ m.log s actions) (m.run s actions) := by
    clear start permitted
    induction actions with
    | nil =>
      intro past s _ held
      simpa [log] using held
    | cons a rest ih =>
      intro past s permitted held
      have next := ih _ _ permitted.2 (kept past s a permitted.1 held)
      simpa [log, List.append_assoc] using next
  simpa using general [] s permitted start

/-- A run is permitted exactly when each of its actions is, where it is taken. -/
theorem permits_iff_each {allowed : S → A → Prop} : m.Permits allowed s actions ↔
    ∀ before a after, actions = before ++ a :: after → allowed (m.run s before) a := by
  -- From left to right the run is split at the action; from right to left the first action is
  -- split off.
  constructor
  · rintro permitted before a after rfl
    exact (permits_append.mp permitted).2.1
  · intro each
    induction actions generalizing s with
    | nil => trivial
    | cons a rest ih =>
      refine ⟨each [] a rest rfl, ih ?_⟩
      rintro before next after rfl
      exact each (a :: before) next after rfl

/-- Two rules that agree wherever an invariant holds, and keep it, permit the same runs. -/
theorem permits_iff {P : S → Prop} {allowed same : S → A → Prop} (start : P s)
    (kept : ∀ s a, P s → allowed s a → P (m.step s a).2)
    (agree : ∀ s a, P s → (allowed s a ↔ same s a)) :
    m.Permits allowed s actions ↔ m.Permits same s actions := by
  -- Induction over the run, whose states keep the invariant.
  induction actions generalizing s with
  | nil => exact Iff.rfl
  | cons a rest ih =>
    constructor
    · intro all
      obtain ⟨here, later⟩ := all
      exact ⟨(agree s a start).mp here, (ih (kept s a start here)).mp later⟩
    · intro all
      obtain ⟨here, later⟩ := all
      -- The invariant goes on because the first rule allows what the second does.
      have allowed := (agree s a start).mpr here
      exact ⟨allowed, (ih (kept s a start allowed)).mpr later⟩

end Machine

end NasTools
