import Mathlib

/-!
Procedures that question a world: what holds of every conversation, and their pre-
and postconditions.
-/

namespace NasTools

/--
A procedure that asks questions, one after the other, until it ends or gives up.

The type of an answer depends on the question, and the next step may depend on the answer.
-/
inductive Script (Q : Type) (R : Q → Type) (E A : Type) where
  | done (a : A)
  | stop (e : E)
  | ask (q : Q) (next : R q → Script Q R E A)

namespace Script

variable {Q : Type} {R : Q → Type} {E A B : Type}

/-- Go on with a result, unless the first procedure gave up. -/
protected def bind : Script Q R E A → (A → Script Q R E B) → Script Q R E B
  | .done a, f => f a
  | .stop e, _ => .stop e
  | .ask q next, f => .ask q fun r => (next r).bind f

instance : Monad (Script Q R E) where
  pure := .done
  bind := Script.bind

/-- Ask one question. -/
def send (q : Q) : Script Q R E (R q) := .ask q .done

/-- A plain value is a script that is done. -/
@[simp] theorem pure_eq (a : A) : (pure a : Script Q R E A) = .done a := rfl

/-- After a script that is done the rest runs with its value. -/
@[simp] theorem done_bind (a : A) (f : A → Script Q R E B) : (Script.done a >>= f) = f a := rfl

/-- After a script that stops the rest is not run. -/
@[simp] theorem stop_bind (e : E) (f : A → Script Q R E B) :
    (Script.stop e >>= f : Script Q R E B) = .stop e := rfl

/-- A question comes first, whatever follows. -/
@[simp] theorem ask_bind (q : Q) (next : R q → Script Q R E A) (f : A → Script Q R E B) :
    (Script.ask q next >>= f) = .ask q fun r => next r >>= f := rfl

/-- A question that is all of a script hands its answer on. -/
@[simp] theorem send_bind (q : Q) (f : R q → Script Q R E B) :
    ((send q : Script Q R E (R q)) >>= f) = .ask q f := rfl

/-- One question with the answer it got. -/
abbrev Exchange (R : Q → Type) := (q : Q) × R q

/-- A conversation a procedure can have, with how it ends. -/
inductive Plays : Script Q R E A → List (Exchange R) → Except E A → Prop where
  | done (a : A) : Plays (.done a) [] (.ok a)
  | stop (e : E) : Plays (.stop e) [] (.error e)
  | ask (q : Q) (next : R q → Script Q R E A) (r : R q) (rest : List (Exchange R))
      (outcome : Except E A) (later : Plays (next r) rest outcome) :
      Plays (.ask q next) (⟨q, r⟩ :: rest) outcome

variable {said : List (Exchange R)}

/-- A sequence is a conversation of its first part, and of the second part where the first ended. -/
theorem plays_bind {s : Script Q R E A} {f : A → Script Q R E B} {outcome : Except E B} :
    (s >>= f).Plays said outcome ↔
      (∃ e, outcome = .error e ∧ s.Plays said (.error e)) ∨
        ∃ a front back, said = front ++ back ∧ s.Plays front (.ok a) ∧
          (f a).Plays back outcome := by
  -- The question asked first is the first one either way.
  induction s generalizing said with
  | done a =>
    constructor
    · intro played
      exact .inr ⟨a, [], said, rfl, .done a, played⟩
    · intro split
      rcases split with ⟨e, _, played⟩ | ⟨b, front, back, rfl, played, later⟩
      · cases played
      · cases played
        exact later
  -- A procedure that gave up does not get to its second part.
  | stop e =>
    constructor
    · intro played
      cases played
      exact .inl ⟨e, rfl, .stop e⟩
    · intro split
      rcases split with ⟨e', rfl, played⟩ | ⟨b, front, back, rfl, played, later⟩
      · cases played
        exact .stop e
      · cases played
  | ask q next ih =>
    constructor
    · intro played
      cases played with
      | ask _ _ r rest _ later =>
        rcases (ih r).mp later with ⟨e, rfl, failed⟩ | ⟨a, front, back, rfl, first, second⟩
        · exact .inl ⟨e, rfl, .ask q next r _ _ failed⟩
        · exact .inr ⟨a, ⟨q, r⟩ :: front, back, rfl, .ask q next r _ _ first, second⟩
    · intro split
      rcases split with ⟨e, rfl, failed⟩ | ⟨a, front, back, rfl, first, second⟩
      · cases failed with
        | ask _ _ r rest _ later => exact .ask q _ r rest _ ((ih r).mpr (.inl ⟨e, rfl, later⟩))
      · cases first with
        | ask _ _ r rest _ later =>
          exact .ask q _ r _ _ ((ih r).mpr (.inr ⟨a, rest, back, rfl, later, second⟩))

/-- A sequence that succeeds is a success followed by a success. -/
theorem plays_bind_ok {s : Script Q R E A} {f : A → Script Q R E B} {b : B} :
    (s >>= f).Plays said (.ok b) ↔
      ∃ a front back, said = front ++ back ∧ s.Plays front (.ok a) ∧ (f a).Plays back (.ok b) := by
  -- A script that stops does not end well, so only the second case is left.
  rw [plays_bind]
  constructor
  · intro split
    rcases split with ⟨e, impossible, _⟩ | parts
    · cases impossible
    · exact parts
  · exact .inr

/-- A script that is done asks nothing and ends with its value. -/
@[simp] theorem plays_done {a : A} {outcome : Except E A} :
    (Script.done a : Script Q R E A).Plays said outcome ↔ said = [] ∧ outcome = .ok a := by
  -- This is the constructor read in both directions.
  constructor
  · intro played
    cases played
    exact ⟨rfl, rfl⟩
  · intro ended
    obtain ⟨rfl, rfl⟩ := ended
    exact .done a

/-- A script that stops asks nothing and ends with its error. -/
@[simp] theorem plays_stop {e : E} {outcome : Except E A} :
    (Script.stop e : Script Q R E A).Plays said outcome ↔ said = [] ∧ outcome = .error e := by
  -- This is the constructor read in both directions.
  constructor
  · intro played
    cases played
    exact ⟨rfl, rfl⟩
  · intro ended
    obtain ⟨rfl, rfl⟩ := ended
    exact .stop e

/-- A question is the first thing said, and some answer decides the rest. -/
@[simp] theorem plays_ask {q : Q} {next : R q → Script Q R E A} {outcome : Except E A} :
    (Script.ask q next).Plays said outcome ↔
      ∃ r rest, said = ⟨q, r⟩ :: rest ∧ (next r).Plays rest outcome := by
  -- This is the constructor read in both directions.
  constructor
  · intro played
    cases played with
    | ask _ _ r rest _ later => exact ⟨r, rest, rfl, later⟩
  · intro asked
    obtain ⟨r, rest, rfl, later⟩ := asked
    exact .ask q next r rest outcome later

/-- Carry a procedure out against an environment with a state of its own. -/
def exec {S : Type} (answer : S → (q : Q) → R q × S) : Script Q R E A → S → Except E A × S
  | .done a, s => (.ok a, s)
  | .stop e, s => (.error e, s)
  | .ask q next, s => (next (answer s q).1).exec answer (answer s q).2

variable {S : Type} {answer : S → (q : Q) → R q × S}

/-- A script that is done leaves the world alone. -/
@[simp] theorem exec_done {a : A} {s : S} :
    (Script.done a : Script Q R E A).exec answer s = (.ok a, s) :=
  rfl

/-- A script that stops leaves the world alone. -/
@[simp] theorem exec_stop {e : E} {s : S} :
    (Script.stop e : Script Q R E A).exec answer s = (.error e, s) := rfl

/-- A question is answered by the world, which goes on changed. -/
@[simp] theorem exec_ask {q : Q} {next : R q → Script Q R E A} {s : S} :
    (Script.ask q next).exec answer s = (next (answer s q).1).exec answer (answer s q).2 := rfl

/-- What is said when a procedure is carried out. -/
def transcript (answer : S → (q : Q) → R q × S) : Script Q R E A → S → List (Exchange R)
  | .done _, _ => []
  | .stop _, _ => []
  | .ask q next, s => ⟨q, (answer s q).1⟩ :: (next (answer s q).1).transcript answer (answer s q).2

/-- Carrying a procedure out is one of the conversations it can have. -/
theorem exec_plays (answer : S → (q : Q) → R q × S) (p : Script Q R E A) (s : S) :
    p.Plays (p.transcript answer s) (p.exec answer s).1 := by
  induction p generalizing s with
  | done a => exact .done a
  | stop e => exact .stop e
  | ask q next ih => exact .ask q next _ _ _ (ih (answer s q).1 (answer s q).2)

/-- A procedure that only ever asks questions of one kind, whatever it is answered. -/
def Asks (allowed : Q → Prop) : Script Q R E A → Prop
  | .done _ => True
  | .stop _ => True
  | .ask q next => allowed q ∧ ∀ r, (next r).Asks allowed

variable {allowed : Q → Prop}

/-- A script that is done asks nothing. -/
@[simp] theorem asks_done {a : A} : (Script.done a : Script Q R E A).Asks allowed := trivial

/-- A script that stops asks nothing. -/
@[simp] theorem asks_stop {e : E} : (Script.stop e : Script Q R E A).Asks allowed := trivial

/-- A script's first question has to be allowed, and so have all that follow any answer. -/
@[simp] theorem asks_ask {q : Q} {next : R q → Script Q R E A} :
    (Script.ask q next).Asks allowed ↔ allowed q ∧ ∀ r, (next r).Asks allowed := Iff.rfl

/-- A sequence asks what its parts ask. -/
theorem asks_bind {s : Script Q R E A} {f : A → Script Q R E B} (first : s.Asks allowed)
    (second : ∀ a, (f a).Asks allowed) : (s >>= f).Asks allowed := by
  induction s with
  | done a => exact second a
  | stop e => trivial
  | ask q next ih => exact ⟨first.1, fun r => ih r (first.2 r)⟩

/-- What follows a part need only be looked at for the results the part can have. -/
theorem asks_bind_of_plays {s : Script Q R E A} {f : A → Script Q R E B} (first : s.Asks allowed)
    (second : ∀ a said, s.Plays said (.ok a) → (f a).Asks allowed) : (s >>= f).Asks allowed := by
  -- Induction over the first script, adding each question and its answer to what was said.
  induction s with
  | done a => exact second a [] (.done a)
  | stop e => trivial
  | ask q next ih =>
    refine ⟨first.1, fun r => ih r (first.2 r) ?_⟩
    intro a said played
    exact second a (⟨q, r⟩ :: said) (.ask q next r said _ played)

/-- Fewer questions are questions too. -/
theorem Asks.mono {s : Script Q R E A} {wider : Q → Prop} (asks : s.Asks allowed)
    (weaker : ∀ q, allowed q → wider q) : s.Asks wider := by
  induction s with
  | done a => trivial
  | stop e => trivial
  | ask q next ih => exact ⟨weaker q asks.1, fun r => ih r (asks.2 r)⟩

/-- In every conversation, everything asked is of that kind. -/
theorem asked_of_plays {s : Script Q R E A} {outcome : Except E A} (asks : s.Asks allowed)
    (played : s.Plays said outcome) : ∀ x ∈ said, allowed x.1 := by
  -- Induction over the play: the first question is allowed, and the later ones belong to a script
  -- that asks what is allowed.
  induction played with
  | done a => simp
  | stop e => simp
  | ask q next r rest outcome later ih =>
    intro x member
    rcases List.mem_cons.mp member with rfl | held
    · exact asks.1
    · exact ih (asks.2 r) x held

/-- Two conversations in which every question gets the same answer are one conversation. -/
theorem plays_same {s : Script Q R E A} {outcome outcome' : Except E A} {said' : List (Exchange R)}
    (answers : (q : Q) → R q) (asks : s.Asks allowed) (played : s.Plays said outcome)
    (played' : s.Plays said' outcome') (fixed : ∀ x ∈ said, allowed x.1 → x.2 = answers x.1)
    (fixed' : ∀ x ∈ said', allowed x.1 → x.2 = answers x.1) :
    said' = said ∧ outcome' = outcome := by
  -- Induction over the first play, along which the second is taken apart.
  induction played generalizing said' with
  | done a => exact plays_done.mp played'
  | stop e => exact plays_stop.mp played'
  | ask q next r rest outcome later ih =>
    obtain ⟨r', rest', rfl, later'⟩ := plays_ask.mp played'
    have here : r = answers q := fixed ⟨q, r⟩ (by simp) asks.1
    have there : r' = answers q := fixed' ⟨q, r'⟩ (by simp) asks.1
    -- The same question was asked, and it has one answer.
    obtain rfl : r' = r := there.trans here.symm
    obtain ⟨rfl, same⟩ := ih (asks.2 r') later' (fun x member => fixed x (by simp [member]))
      fun x member => fixed' x (by simp [member])
    exact ⟨rfl, same⟩

/-- A part that went well once goes well again when it gets the same answers. -/
theorem plays_follow {s : Script Q R E A} {f : A → Script Q R E B} {a : A} {outcome : Except E B}
    {front : List (Exchange R)} (answers : (q : Q) → R q) (asks : s.Asks allowed)
    (ran : s.Plays front (.ok a)) (played : (s >>= f).Plays said outcome)
    (fixed : ∀ x ∈ front, allowed x.1 → x.2 = answers x.1)
    (fixed' : ∀ x ∈ said, allowed x.1 → x.2 = answers x.1) :
    ∃ back, said = front ++ back ∧ (f a).Plays back outcome := by
  -- The first part cannot fail now, since it did not fail with the same answers.
  rcases plays_bind.mp played with ⟨e, rfl, failed⟩ | ⟨b, front', back, rfl, went, later⟩
  · obtain ⟨_, same⟩ := plays_same answers asks ran failed fixed fixed'
    cases same
  · obtain ⟨rfl, same⟩ := plays_same answers asks ran went fixed
      fun x member => fixed' x (by simp [member])
    obtain rfl := Except.ok.inj same
    exact ⟨back, rfl, later⟩

/-- A procedure that only ever gives up in one way, whatever it is answered. -/
def Stops (ways : E → Prop) : Script Q R E A → Prop
  | .done _ => True
  | .stop e => ways e
  | .ask _ next => ∀ r, (next r).Stops ways

variable {ways : E → Prop}

/-- A sequence gives up as its parts do. -/
theorem stops_bind {s : Script Q R E A} {f : A → Script Q R E B} (first : s.Stops ways)
    (second : ∀ a, (f a).Stops ways) : (s >>= f).Stops ways := by
  induction s with
  | done a => exact second a
  | stop e => exact first
  | ask q next ih => exact fun r => ih r (first r)

/-- In every conversation that is given up, it is given up in that way. -/
theorem stopped_of_plays {s : Script Q R E A} {e : E} (stops : s.Stops ways)
    (played : s.Plays said (.error e)) : ways e := by
  -- The outcome is an error, which only the last step of the induction sees.
  generalize ended : (Except.error e : Except E A) = outcome at played
  induction played with
  | done a => cases ended
  | stop e' =>
    obtain rfl := Except.error.inj ended
    exact stops
  | ask q next r rest outcome later ih => exact ih (stops r) ended

end Script

end NasTools

namespace NasTools.Script

variable {Q : Type} {R : Q → Type} {E A B S : Type} (world : S → Exchange R → S → Prop)

/-- A conversation in a world, from one state to another. -/
inductive Runs : S → List (Exchange R) → S → Prop where
  | nil (s : S) : Runs s [] s
  | cons {s t u : S} {x : Exchange R} {rest : List (Exchange R)} (here : world s x t)
      (later : Runs t rest u) : Runs s (x :: rest) u

variable {world} {s u : S} {front back : List (Exchange R)}

/-- A conversation in two parts passes through a state in between. -/
theorem runs_append :
    Runs world s (front ++ back) u ↔ ∃ t, Runs world s front t ∧ Runs world t back u := by
  -- Induction over the first part, one answer at a time.
  induction front generalizing s with
  | nil =>
    constructor
    · exact fun ran => ⟨s, .nil s, ran⟩
    · intro split
      obtain ⟨t, first, second⟩ := split
      cases first
      exact second
  | cons x rest ih =>
    constructor
    · intro ran
      cases ran with
      | cons here later =>
        obtain ⟨t, first, second⟩ := ih.mp later
        exact ⟨t, .cons here first, second⟩
    · intro split
      obtain ⟨t, first, second⟩ := split
      cases first with
      | cons here later => exact .cons here (ih.mpr ⟨t, later, second⟩)

variable (world)

/--
From a state as in `pre`, a procedure that ends leaves one as in `post`.

One that gives up leaves one as in `fault`, and the reason for giving up may matter.
-/
def Triple (pre : S → Prop) (p : Script Q R E A) (post : A → S → Prop)
    (fault : E → S → Prop) : Prop :=
  ∀ s said outcome t, pre s → p.Plays said outcome → Runs world s said t →
    (∀ a, outcome = .ok a → post a t) ∧ ∀ e, outcome = .error e → fault e t

variable {world} {pre : S → Prop} {post : A → S → Prop} {fault : E → S → Prop}

/-- A value that satisfies the postcondition wherever the precondition holds proves the triple. -/
theorem triple_done {a : A} (holds : ∀ s, pre s → post a s) :
    Triple world pre (.done a) post fault := by
  -- Nothing is said, so the world is where it started.
  intro s said outcome t start played ran
  obtain ⟨rfl, rfl⟩ := plays_done.mp played
  cases ran
  refine ⟨?_, fun _ impossible => nomatch impossible⟩
  intro b same
  obtain rfl := Except.ok.inj same
  exact holds s start

/--
An error that satisfies the fault condition wherever the precondition holds proves the triple.
-/
theorem triple_stop {e : E} (holds : ∀ s, pre s → fault e s) :
    Triple world pre (.stop e) post fault := by
  -- Nothing is said, so the world is where it started.
  intro s said outcome t start played ran
  obtain ⟨rfl, rfl⟩ := plays_stop.mp played
  cases ran
  refine ⟨(fun _ impossible => nomatch impossible), ?_⟩
  intro b same
  obtain rfl := Except.error.inj same
  exact holds s start

/-- A question: for each answer, what follows starts from the states the answer can leave. -/
theorem triple_ask {q : Q} {next : R q → Script Q R E A}
    (rest : ∀ r, Triple world (fun t => ∃ s, pre s ∧ world s ⟨q, r⟩ t) (next r) post fault) :
    Triple world pre (.ask q next) post fault := by
  intro s said outcome t start played ran
  obtain ⟨r, later, rfl, goes⟩ := plays_ask.mp played
  cases ran with
  | cons here after => exact rest r _ later outcome t ⟨s, start, here⟩ goes after

/-- A sequence: the second part starts where the first one ended, with a result it can have. -/
theorem triple_bind_of_plays {p : Script Q R E A} {f : A → Script Q R E B} {mid : A → S → Prop}
    {last : B → S → Prop} (first : Triple world pre p mid fault)
    (second : ∀ a said, p.Plays said (.ok a) → Triple world (mid a) (f a) last fault) :
    Triple world pre (p >>= f) last fault := by
  -- The first script fails, or what was said is split where it ends.
  intro s said outcome t start played ran
  rcases plays_bind.mp played with ⟨e, rfl, failed⟩ | ⟨a, front, back, rfl, went, later⟩
  · refine ⟨(fun _ impossible => nomatch impossible), ?_⟩
    intro e' same
    obtain rfl := Except.error.inj same
    exact (first s said _ t start failed ran).2 e rfl
  · obtain ⟨middle, ranFirst, ranSecond⟩ := runs_append.mp ran
    have between := (first s front _ middle start went ranFirst).1 a rfl
    exact second a front went middle back outcome t between later ranSecond

/-- A sequence whose second part does not depend on what the first can return. -/
theorem triple_bind {p : Script Q R E A} {f : A → Script Q R E B} {mid : A → S → Prop}
    {last : B → S → Prop} (first : Triple world pre p mid fault)
    (second : ∀ a, Triple world (mid a) (f a) last fault) : Triple world pre (p >>= f) last fault :=
  triple_bind_of_plays first fun a _ _ => second a

/-- A weaker start and stronger ends. -/
theorem Triple.mono {p : Script Q R E A} {pre' : S → Prop} {post' : A → S → Prop}
    {fault' : E → S → Prop} (triple : Triple world pre p post fault) (start : ∀ s, pre' s → pre s)
    (ends : ∀ a s, post a s → post' a s) (gives : ∀ e s, fault e s → fault' e s) :
    Triple world pre' p post' fault' := by
  intro s said outcome t held played ran
  obtain ⟨good, bad⟩ := triple s said outcome t (start s held) played ran
  exact ⟨fun a same => ends a t (good a same), fun e same => gives e t (bad e same)⟩

/-- What every permitted exchange keeps, a procedure that asks nothing else keeps. -/
theorem triple_of_asks {p : Script Q R E A} {allowed : Q → Prop} (asks : p.Asks allowed)
    (kept : ∀ s x t, allowed x.1 → world s x t → pre s → pre t) :
    Triple world pre p (fun _ => pre) fun _ => pre := by
  -- Induction over the run: every question that was asked is allowed, so its answer keeps the
  -- condition.
  intro s said outcome t start played ran
  have ended : pre t := by
    have asked := asked_of_plays asks played
    clear played
    induction ran with
    | nil s => exact start
    | cons here later ih =>
      exact ih (kept _ _ _ (asked _ (List.mem_cons_self ..)) here start)
        fun x member => asked x (by simp [member])
  exact ⟨fun _ _ => ended, fun _ _ => ended⟩

/-- A part that keeps where it started is passed through, to what follows it. -/
theorem triple_through {p : Script Q R E A} {f : A → Script Q R E B} {P : Q → Prop}
    {last : B → S → Prop} (asks : p.Asks P)
    (kept : ∀ s x t, P x.1 → world s x t → pre s → pre t) (gives : ∀ e s, pre s → fault e s)
    (second : ∀ a said, p.Plays said (.ok a) → Triple world pre (f a) last fault) :
    Triple world pre (p >>= f) last fault :=
  triple_bind_of_plays ((triple_of_asks asks kept).mono (fun _ start => start)
    (fun _ _ ended => ended) gives) second

end NasTools.Script
