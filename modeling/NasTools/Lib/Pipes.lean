import Mathlib

/-!
Two processes joined by two pipes of bounded capacity: one sends all its requests before it reads
any answer, and the other one answers each request in full before it turns to the next.

What the other one reads goes through a buffer, so that it can take more than the request it is at.
-/

namespace NasTools.Pipes

variable {A : Type}

/-- Where the answering process stands. -/
inductive Serving (A : Type) where
  -- What is left to be read of a request, what it will be answered with, and the
  -- requests behind it.
  | reading (request answer : List A) (later : List (List A × List A))
  | answering (left : List A) (later : List (List A × List A))
  -- Every request is answered, and the end of the input is not seen yet.
  | waiting
  | gone

/-- How the answering process goes on to its next request. -/
def serve : List (List A × List A) → Serving A
  | [] => .waiting
  | (request, answer) :: later => .reading request answer later

/-- The two processes and what is in the pipes between them. -/
structure State (A : Type) where
  toSend : List A
  closed : Bool
  requests : List A
  -- What the answering process has read, and not made use of yet.
  buffered : List A
  answers : List A
  collected : List A
  done : Bool
  serving : Serving A

/-- Nothing is sent yet of some requests, each with its answer. -/
def start (exchanges : List (List A × List A)) : State A :=
  ⟨(exchanges.map Prod.fst).flatten, false, [], [], [], [], false, serve exchanges⟩

/--
One step of either process; a pipe takes any number of bytes that it has room for.

The answering process reads when its buffer is empty and the request it is at is not complete.
It then gets whatever is in the pipe, up to the size of its buffer.
-/
inductive Step (a b ahead : Nat) : State A → State A → Prop where
  | send {s : State A} {x y : List A} (some_ : x ≠ []) (has : s.toSend = x ++ y)
      (room : s.requests.length + x.length ≤ a) :
      Step a b ahead s { s with toSend := y, requests := s.requests ++ x }
  | close {s : State A} (sent : s.toSend = []) (opened : s.closed = false) :
      Step a b ahead s { s with closed := true }
  | collect {s : State A} {x y : List A} (some_ : x ≠ []) (closed : s.closed = true)
    (has : s.answers = x ++ y) :
      Step a b ahead s { s with answers := y, collected := s.collected ++ x }
  | finish {s : State A} (closed : s.closed = true) (all : s.answers = [])
    (gone : s.serving = .gone)
      (going : s.done = false) : Step a b ahead s { s with done := true }
  | fetch {s : State A} {request answer : List A} {later : List (List A × List A)}
      (some_ : s.requests ≠ []) (stands : s.serving = .reading request answer later)
      (wants : request ≠ []) (used : s.buffered = []) :
      Step a b ahead s
        { s with requests := s.requests.drop ahead, buffered := s.requests.take ahead }
  | take {s : State A} {x y rest answer : List A} {later : List (List A × List A)} (some_ : x ≠ [])
      (stands : s.serving = .reading (x ++ y) answer later) (has : s.buffered = x ++ rest) :
      Step a b ahead s { s with buffered := rest, serving := .reading y answer later }
  | turn {s : State A} {answer : List A} {later : List (List A × List A)}
      (stands : s.serving = .reading [] answer later) :
      Step a b ahead s { s with serving := .answering answer later }
  | reply {s : State A} {x y : List A} {later : List (List A × List A)} (some_ : x ≠ [])
      (stands : s.serving = .answering (x ++ y) later) (room : s.answers.length + x.length ≤ b) :
      Step a b ahead s { s with answers := s.answers ++ x, serving := .answering y later }
  | next {s : State A} {later : List (List A × List A)} (stands : s.serving = .answering [] later) :
      Step a b ahead s { s with serving := serve later }
  | leave {s : State A} (stands : s.serving = .waiting) (closed : s.closed = true)
    (all : s.requests = []) :
      Step a b ahead s { s with serving := .gone }

/-- What the processes can get to. -/
def Reaches (a b ahead : Nat) : State A → State A → Prop := Relation.ReflTransGen (Step a b ahead)

/-- The asking process waits for room in a full pipe, or for something in an empty one. -/
def State.AskerBlocked (s : State A) (a : Nat) : Prop :=
  (s.toSend ≠ [] ∧ a ≤ s.requests.length) ∨ (s.closed = true ∧ s.answers = [] ∧ s.serving ≠ .gone)

/-- The answering process waits for room in a full pipe, or for something in an empty one. -/
def State.AnswererBlocked (s : State A) (b : Nat) : Prop :=
  (s.closed = false ∧ s.requests = [] ∧ s.buffered = [] ∧
      (s.serving = .waiting ∨ ∃ request answer later, s.serving = .reading request answer later ∧
        request ≠ [])) ∨
    ∃ left later, s.serving = .answering left later ∧ left ≠ [] ∧ b ≤ s.answers.length

/-- Both processes wait for each other. -/
def State.Deadlocked (s : State A) (a b : Nat) : Prop := s.AskerBlocked a ∧ s.AnswererBlocked b

/-- What the answering process has still to read. -/
def Serving.toRead : Serving A → List A
  | .reading request _ later => request ++ (later.map Prod.fst).flatten
  | .answering _ later => (later.map Prod.fst).flatten
  | .waiting | .gone => []

/--
Which of the exchanges it is at: some of the request is read by then, or some of the
answer is written.
-/
def Serving.At (exchanges : List (List A × List A)) : Serving A → Prop
  | .reading request answer later => ∃ read, (read ++ request, answer) :: later <:+ exchanges
  | .answering left later => ∃ request written, (request, written ++ left) :: later <:+ exchanges
  | .waiting | .gone => True

/-- What it has still to write. -/
def Serving.toWrite : Serving A → List A
  | .reading _ answer later => answer ++ (later.map Prod.snd).flatten
  | .answering left later => left ++ (later.map Prod.snd).flatten
  | .waiting | .gone => []

/-- What is to be read is the requests in order. -/
@[simp] theorem toRead_serve (exchanges : List (List A × List A)) :
    (serve exchanges).toRead = (exchanges.map Prod.fst).flatten := by
  cases exchanges <;> rfl

/-- What is to be written is the answers in order. -/
@[simp] theorem toWrite_serve (exchanges : List (List A × List A)) :
    (serve exchanges).toWrite = (exchanges.map Prod.snd).flatten := by
  cases exchanges <;> rfl

/-- The next request is that of the first exchange behind. -/
theorem at_serve {later exchanges : List (List A × List A)} (behind : later <:+ exchanges) :
    (serve later).At exchanges := by
  cases later with
  | nil => trivial
  | cons exchange later => exact ⟨[], behind⟩

/--
Nothing is lost: what is on its way is what is still to be read, and nothing is
collected before all is sent.
-/
structure Sound (exchanges : List (List A × List A)) (s : State A) : Prop where
  requests : s.buffered ++ s.requests ++ s.toSend = s.serving.toRead
  answers : s.collected ++ s.answers ++ s.serving.toWrite = (exchanges.map Prod.snd).flatten
  sent : s.closed = true → s.toSend = []
  collected : s.closed = false → s.collected = []
  gone : s.serving = .gone → s.closed = true
  place : s.serving.At exchanges
  finished : s.done = true → s.serving = .gone ∧ s.answers = []

/-- The start of a run is sound. -/
theorem sound_start (exchanges : List (List A × List A)) : Sound exchanges (start exchanges) where
  -- Nothing has been sent, answered or collected yet, and the answerer stands at the first
  -- exchange.
  requests := by simp [start]
  answers := by simp [start]
  sent impossible := by cases impossible
  collected _ := rfl
  gone is := by cases exchanges <;> cases is
  place := at_serve List.suffix_rfl
  finished impossible := by cases impossible

/-- Every step keeps a sound state sound. -/
theorem Step.sound {exchanges : List (List A × List A)} {a b ahead : Nat} {s t : State A}
    (step : Step a b ahead s t) (sound : Sound exchanges s) : Sound exchanges t := by
  -- One case for each step, which moves bytes from one place to the next.
  obtain ⟨requests, answers, sent, collected, gone, place, finished⟩ := sound
  cases step with
  | send some_ has room =>
    refine ⟨?_, answers, ?_, collected, gone, place, finished⟩
    · rw [← requests, has]
      simp
    · intro closed
      rw [sent closed] at has
      exact (List.append_eq_nil_iff.mp has.symm).2
  | close all opened =>
    exact ⟨requests, answers, fun _ => all, by simp, fun _ => rfl, place, finished⟩
  | collect some_ closed has =>
    refine ⟨requests, ?_, sent, ?_, gone, place, ?_⟩
    · rw [← answers, has]
      simp
    · intro opened
      rw [closed] at opened
      cases opened
    · intro done
      obtain ⟨left, none⟩ := finished done
      rw [none] at has
      exact ⟨left, (List.append_eq_nil_iff.mp has.symm).2⟩
  | finish closed all left going =>
    exact ⟨requests, answers, sent, collected, gone, place, fun _ => ⟨left, all⟩⟩
  | fetch some_ stands wants used =>
    -- What is read is only moved, from the pipe to the buffer.
    refine ⟨?_, answers, sent, collected, gone, place, finished⟩
    rw [← requests, used]
    simp
  | @take x y rest answer later some_ stands has =>
    rw [stands] at requests answers place finished
    obtain ⟨read, behind⟩ := place
    refine ⟨?_, answers, sent, collected, fun is => (nomatch is), ⟨read ++ x, ?_⟩,
      fun done => (nomatch (finished done).1)⟩
    · rw [has] at requests
      simpa [Serving.toRead] using requests
    · rwa [List.append_assoc]
  | turn stands =>
    rw [stands] at requests answers place finished
    obtain ⟨read, behind⟩ := place
    exact ⟨requests, answers, sent, collected, fun is => (nomatch is), ⟨_, [], behind⟩,
      fun done => (nomatch (finished done).1)⟩
  | @reply x y later some_ stands room =>
    rw [stands] at requests answers place finished
    obtain ⟨request, written, behind⟩ := place
    refine ⟨requests, ?_, sent, collected, fun is => (nomatch is), ⟨request, written ++ x, ?_⟩,
      fun done => (nomatch (finished done).1)⟩
    · simpa [Serving.toWrite] using answers
    · rwa [List.append_assoc]
  | @next later stands =>
    rw [stands] at requests answers place finished
    obtain ⟨request, written, behind⟩ := place
    refine ⟨?_, ?_, sent, collected, ?_, at_serve ((List.suffix_cons _ _).trans behind),
      fun done => (nomatch (finished done).1)⟩
    · rw [toRead_serve]
      exact requests
    · rw [toWrite_serve]
      exact answers
    · intro is
      cases later <;> cases is
  | leave stands closed all =>
    rw [stands] at requests answers place finished
    exact ⟨requests, answers, sent, collected, fun _ => closed, trivial,
      fun done => (nomatch (finished done).1)⟩

/-- Every state that is reached is sound. -/
theorem Reaches.sound {exchanges : List (List A × List A)} {a b ahead : Nat} {s : State A}
    (reached : Reaches a b ahead (start exchanges) s) : Sound exchanges s := by
  induction reached with
  | refl => exact sound_start exchanges
  | tail _ step ih => exact step.sound ih

variable {exchanges : List (List A × List A)} {a b ahead : Nat} {s : State A}

/-- Once all is done, every answer has been collected. -/
theorem Sound.all_collected (sound : Sound exchanges s) (done : s.done = true) :
    s.collected = (exchanges.map Prod.snd).flatten := by
  obtain ⟨gone, none⟩ := sound.finished done
  have answers := sound.answers
  rw [gone, none] at answers
  simpa [Serving.toWrite] using answers

/--
Where the two wait for each other, some answers do not fit into one pipe, nor the requests
behind them into the other.
-/
theorem Sound.overrun (sound : Sound exchanges s) (positiveA : 0 < a) (positiveB : 0 < b)
    (deadlocked : s.Deadlocked a b) :
    ∃ front later, exchanges = front ++ later ∧ b < (front.map Prod.snd).flatten.length ∧
      a < (later.map Prod.fst).flatten.length := by
  -- Two ways to be stuck, of which the first does not exist.
  obtain ⟨asker, ⟨opened, none, _, serving⟩ | ⟨left, later, stands, some_, full⟩⟩ := deadlocked
  · -- An answerer that waits for input has read all that was sent, so the asker does not wait for
    -- room.
    rcases asker with ⟨_, room⟩ | ⟨closed, _⟩
    · rw [none] at room
      exact absurd room (Nat.not_le.mpr positiveA)
    · rw [opened] at closed
      cases closed
  · have opened : s.closed = false := by
      rcases asker with ⟨unsent, _⟩ | ⟨_, none, _⟩
      · by_contra closed
        exact unsent (sound.sent (by simpa using closed))
      · rw [none] at full
        exact absurd full (Nat.not_le.mpr positiveB)
    obtain ⟨unsent, room⟩ : s.toSend ≠ [] ∧ a ≤ s.requests.length := by
      rcases asker with waits | ⟨closed, _⟩
      · exact waits
      · rw [opened] at closed
        cases closed
    have place := sound.place
    have answers := sound.answers
    have requests := sound.requests
    rw [stands] at place answers requests
    obtain ⟨request, written, front, parted⟩ := place
    rw [sound.collected opened, ← parted] at answers
    -- The exchange it is at belongs to those whose answers do not fit.
    refine ⟨front ++ [(request, written ++ left)],
      later, by rw [← parted, List.append_cons], ?_, ?_⟩
    · have lengths := congrArg List.length answers
      have more := List.length_pos_iff.mpr some_
      simp only [Serving.toWrite, List.nil_append, List.length_append, List.map_append,
        List.map_cons, List.map_nil, List.flatten_append, List.flatten_cons, List.flatten_nil,
        List.length_nil] at lengths ⊢
      omega
    · have lengths := congrArg List.length requests
      have more := List.length_pos_iff.mpr unsent
      simp only [Serving.toRead, List.length_append] at lengths
      omega

/-- The pipes and the buffer hold no more than they have room for. -/
structure Bounded (a b ahead : Nat) (s : State A) : Prop where
  requests : s.requests.length ≤ a
  buffered : s.buffered.length ≤ ahead
  answers : s.answers.length ≤ b

/-- Every step keeps both pipes and the read-ahead within their bounds. -/
theorem Step.bounded {t : State A} (step : Step a b ahead s t) (bounded : Bounded a b ahead s) :
    Bounded a b ahead t := by
  -- Only sending, fetching and replying add to something, and each of them asks for the room.
  obtain ⟨requests, buffered, answers⟩ := bounded
  cases step with
  | send _ _ room => exact ⟨by simpa using room, buffered, answers⟩
  | close | finish | turn | next | leave => exact ⟨requests, buffered, answers⟩
  | collect _ _ has =>
    rw [has, List.length_append] at answers
    exact ⟨requests, buffered, by dsimp only; omega⟩
  | fetch => exact ⟨by simp; omega, by simp, answers⟩
  | take _ _ has =>
    rw [has, List.length_append] at buffered
    exact ⟨requests, by dsimp only; omega, answers⟩
  | reply _ _ room => exact ⟨requests, buffered, by simpa using room⟩

/-- In every state that is reached both pipes and the read-ahead are within their bounds. -/
theorem Reaches.bounded (reached : Reaches a b ahead (start exchanges) s) :
    Bounded a b ahead s := by
  induction reached with
  | refl => exact ⟨Nat.zero_le a, Nat.zero_le ahead, Nat.zero_le b⟩
  | tail _ step ih => exact step.bounded ih

/--
While nothing is collected, an answerer with a full pipe in front of it leaves requests unsent.

This is where the requests behind fit neither into their pipe nor into the buffer.
-/
theorem Sound.unsent {front later : List (List A × List A)} (sound : Sound (front ++ later) s)
    (bounded : Bounded a b ahead s) (opened : s.closed = false)
    (beyond : b < (front.map Prod.snd).flatten.length)
    (behind : a + ahead < (later.map Prod.fst).flatten.length) : s.toSend ≠ [] := by
  -- All the places a byte can be are bounded, and the bytes in question do not fit into them.
  obtain ⟨room, room', room''⟩ := bounded
  have answers := congrArg List.length sound.answers
  have requests := congrArg List.length sound.requests
  have place := sound.place
  simp only [sound.collected opened, List.length_append, List.map_append, List.flatten_append,
    List.length_nil] at answers
  -- What is written is less than the answers in front, so the exchange it is at is one of these.
  have within {exchange : List A × List A} {rest : List (List A × List A)}
    (there : exchange :: rest <:+ front ++ later)
      (more : s.serving.toWrite.length ≤ exchange.2.length + (rest.map Prod.snd).flatten.length) :
      (later.map Prod.fst).flatten.length ≤ (rest.map Prod.fst).flatten.length := by
    have parts {x y : List (List A × List A)} (suffix : x <:+ y) (f : List A × List A → List A) :
        (x.map f).flatten.length ≤ (y.map f).flatten.length := by
      obtain ⟨z, rfl⟩ := suffix
      simp
    rcases List.suffix_or_suffix_of_suffix there (List.suffix_append front later)
      with inside | outside
    · have less := parts inside Prod.snd
      simp only [List.map_cons, List.flatten_cons, List.length_append] at less
      omega
    · rcases List.suffix_cons_iff.mp outside with rfl | outside
      · simp only [List.map_cons, List.flatten_cons, List.length_append] at answers
        omega
      · exact parts outside Prod.fst
  rintro none
  rw [none] at requests
  cases serving : s.serving with
  | reading request answer rest =>
    rw [serving] at place requests within
    obtain ⟨read, there⟩ := place
    have enough := within there (by simp [Serving.toWrite])
    simp only [Serving.toRead, List.length_append, List.length_nil] at requests
    omega
  | answering left rest =>
    rw [serving] at place requests within
    obtain ⟨request, written, there⟩ := place
    have enough := within there (by simp [Serving.toWrite])
    simp only [Serving.toRead, List.length_append, List.length_nil] at requests
    omega
  | waiting | gone =>
    rw [serving] at answers
    simp only [Serving.toWrite, List.length_nil] at answers
    omega

/-- Where the buffer makes no room for the requests that are left either, no run gets to the end. -/
theorem Reaches.never_done {front later : List (List A × List A)}
    (reached : Reaches a b ahead (start (front ++ later)) s)
    (beyond : b < (front.map Prod.snd).flatten.length)
    (behind : a + ahead < (later.map Prod.fst).flatten.length) : s.done = false := by
  -- The pipe stays open along the run, for something is always left to send.
  have opened : s.closed = false := by
    induction reached with
    | refl => rfl
    | tail before step ih =>
      cases step with
      | close sent =>
        exact absurd sent ((Reaches.sound before).unsent (Reaches.bounded before) ih beyond behind)
      | send | collect | finish | fetch | take | turn | reply | next | leave => exact ih
  -- An asker that is done has closed its pipe.
  by_contra done
  have gone := (reached.sound.finished (by simpa using done)).1
  rw [reached.sound.gone gone] at opened
  cases opened

/-- A state before all is sent, with nothing on its way to the answerer. -/
def early (toSend answers : List A) (serving : Serving A) : State A :=
  ⟨toSend, false, [], [], answers, [], false, serving⟩

variable {request answer rest written x y : List A} {front later : List (List A × List A)}

/-- A request is handed over byte by byte, however small the pipe and however large the buffer. -/
theorem reaches_read (positiveA : 0 < a) (positive : 0 < ahead) :
    Reaches a b ahead (early (request ++ rest) written (.reading request answer later))
      (early rest written (.answering answer later)) := by
  -- Induction over the request: a byte is sent, and then it is read.
  induction request with
  | nil => exact .single (.turn rfl)
  | cons first request ih =>
    have sent :
      Step a b ahead
      (early (first :: request ++ rest) written (.reading (first :: request) answer later))
        { early (request ++ rest) written
          (.reading (first :: request) answer later) with requests := [first] } :=
      .send (x := [first]) (by simp) rfl positiveA
    -- The one byte in the pipe is all that a read can get.
    have fetched : Step a b ahead
        { early (request ++ rest) written
          (.reading (first :: request) answer later) with requests := [first] }
        { early (request ++ rest) written
          (.reading (first :: request) answer later) with buffered := [first] } := by
      have whole : [first].take ahead = [first] ∧ [first].drop ahead = [] := by
        simp [List.take_of_length_le, Nat.succ_le_of_lt positive]
      let sent := { early (request ++ rest) written (.reading (first :: request) answer later) with
        requests := [first] }
      have step : Step a b ahead sent
          { sent with requests := [first].drop ahead, buffered := [first].take ahead } :=
        .fetch (by simp [sent]) rfl (by simp) rfl
      rwa [whole.1, whole.2] at step
    have taken : Step a b ahead
        { early (request ++ rest) written
          (.reading (first :: request) answer later) with buffered := [first] }
        (early (request ++ rest) written (.reading request answer later)) :=
      .take (x := [first]) (by simp) rfl rfl
    exact .head sent (.head fetched (.head taken ih))

/-- Some bytes of an answer are written, where there is room for them. -/
theorem reaches_reply (room : written.length + x.length ≤ b) :
    Reaches a b ahead (early rest written (.answering (x ++ y) later))
      (early rest (written ++ x) (.answering y later)) := by
  -- Writing nothing is no step at all.
  by_cases some_ : x = []
  · subst some_
    rw [List.append_nil, List.nil_append]
    exact .refl
  · exact .single (.reply some_ rfl room)

/-- Exchanges whose answers fit into the pipe are carried out before anything is collected. -/
theorem reaches_serve (positiveA : 0 < a) (positive : 0 < ahead)
    (room : written.length + (front.map Prod.snd).flatten.length ≤ b) :
    Reaches a b ahead (early ((front ++ later).map Prod.fst).flatten written
      (serve (front ++ later)))
      (early (later.map Prod.fst).flatten (written ++ (front.map Prod.snd).flatten)
        (serve later)) := by
  -- Induction over the exchanges: each request is read and its answer fits what is left of the
  -- pipe.
  induction front generalizing written with
  | nil =>
    simp only [List.nil_append, List.map_nil, List.flatten_nil, List.append_nil]
    exact .refl
  | cons exchange front ih =>
    obtain ⟨request, answer⟩ := exchange
    simp only [List.map_cons, List.flatten_cons, List.length_append] at room
    have replied :
      Reaches a b ahead (early ((front ++ later).map Prod.fst).flatten written
      (.answering answer (front ++ later)))
        (early ((front ++ later).map Prod.fst).flatten (written ++ answer)
          (.answering [] (front ++ later))) := by
      have whole : Reaches a b ahead
          (early ((front ++ later).map Prod.fst).flatten written
            (.answering (answer ++ []) (front ++ later)))
          (early ((front ++ later).map Prod.fst).flatten (written ++ answer)
            (.answering [] (front ++ later))) :=
        reaches_reply (by omega)
      rwa [List.append_nil] at whole
    have fits : (written ++ answer).length + (front.map Prod.snd).flatten.length ≤ b := by
      rw [List.length_append]
      omega
    have more := ih fits
    rw [List.append_assoc, ← List.flatten_cons, ← List.map_cons (f := Prod.snd) (a :=
      (request, answer))] at more
    exact ((reaches_read positiveA positive).trans replied).trans (.head (.next rfl) more)

/-- Of exchanges whose answers do not fit there is a first one whose answer does not. -/
theorem exists_first {room : Nat} (beyond : room < (front.map Prod.snd).flatten.length) :
    ∃ fit exchange more, front = fit ++ exchange :: more ∧
      (fit.map Prod.snd).flatten.length ≤ room ∧
      room < (fit.map Prod.snd).flatten.length + exchange.2.length := by
  -- Induction over the exchanges: the first one whose answer does not fit the room that is left.
  induction front generalizing room with
  | nil => simp at beyond
  | cons exchange front ih =>
    simp only [List.map_cons, List.flatten_cons, List.length_append] at beyond
    by_cases fits : exchange.2.length ≤ room
    · have after : room - exchange.2.length < (front.map Prod.snd).flatten.length := by omega
      obtain ⟨fit, next, more, rfl, below, above⟩ := ih after
      refine ⟨exchange :: fit, next, more, rfl, ?_, ?_⟩
      all_goals simp only [List.map_cons, List.flatten_cons, List.length_append]; omega
    · exact ⟨[], exchange, front, rfl, by simp, by simpa using fits⟩

/--
Where some answers do not fit, nor the requests behind them, the two can come to wait
for each other.
-/
theorem reaches_deadlock (positiveA : 0 < a) (positive : 0 < ahead)
    (beyond : b < (front.map Prod.snd).flatten.length)
    (behind : a < (later.map Prod.fst).flatten.length) :
    ∃ s, Reaches a b ahead (start (front ++ later)) s ∧ s.Deadlocked a b := by
  -- The run is built piece by piece: what fits is served, and then both pipes are filled.
  obtain ⟨fit, ⟨request, answer⟩, more, rfl, below, above⟩ := exists_first beyond
  dsimp only at above
  let tail := more ++ later
  let lines := (tail.map Prod.fst).flatten
  let written := (fit.map Prod.snd).flatten
  let fitting := answer.take (b - written.length)
  have long : a < lines.length := by
    simp only [lines, tail, List.map_append, List.flatten_append, List.length_append]
    omega
  -- Everything before the first answer that does not fit is carried out.
  have served : Reaches a b ahead
      (early ((fit ++ (request, answer) :: tail).map Prod.fst).flatten []
        (serve (fit ++ (request, answer) :: tail)))
      (early (request ++ lines) ([] ++ written) (.reading request answer tail)) :=
    reaches_serve positiveA positive (by simpa using below)
  rw [List.nil_append] at served
  have read : Reaches a b ahead (early (request ++ lines) written (.reading request answer tail))
      (early lines written (.answering answer tail)) := reaches_read positiveA positive
  -- Then the one pipe is filled with the answer, and the other one with requests.
  have full : (written ++ fitting).length = b := by
    simp only [fitting, List.length_append, List.length_take, written]
    omega
  have replied : Reaches a b ahead (early lines written (.answering answer tail))
      (early lines (written ++ fitting) (.answering (answer.drop (b - written.length)) tail)) := by
    have whole :
      Reaches a b ahead
      (early lines written (.answering (fitting ++ answer.drop (b - written.length)) tail))
        (early lines (written ++ fitting) (.answering (answer.drop (b - written.length)) tail)) :=
      reaches_reply (by rw [← List.length_append, full])
    rwa [List.take_append_drop] at whole
  have sent :
    Step a b ahead
    (early lines (written ++ fitting) (.answering (answer.drop (b - written.length)) tail))
      { early (lines.drop a) (written ++ fitting)
        (.answering (answer.drop (b - written.length)) tail) with
        requests := lines.take a } := by
    refine .send (x := lines.take a) ?_ (List.take_append_drop a lines).symm ?_
    · rw [← List.length_pos_iff, List.length_take]
      omega
    · simp [early]
  have whole : start (fit ++ (request, answer) :: more ++ later) =
      early ((fit ++ (request, answer) :: tail).map Prod.fst).flatten []
        (serve (fit ++ (request, answer) :: tail)) := by
    simp [start, early, tail]
  refine ⟨_, whole ▸ ((served.trans read).trans replied).tail sent, .inl ⟨?_, ?_⟩,
    .inr ⟨_, tail, rfl, ?_, full.ge⟩⟩
  · show lines.drop a ≠ []
    rw [ne_eq, List.drop_eq_nil_iff]
    omega
  · show a ≤ (lines.take a).length
    rw [List.length_take]
    omega
  · rw [ne_eq, List.drop_eq_nil_iff]
    simp only [written]
    omega

/--
The two can come to wait for each other exactly when some answers do not fit into the one pipe, nor
the requests behind them into the other.

The size of the buffer does not matter: a read may find no more than the request it was made for.
-/
theorem deadlock_iff (a b ahead : ℕ+) (exchanges : List (List A × List A)) :
    (∃ s, Reaches a b ahead (start exchanges) s ∧ s.Deadlocked a b) ↔
      ∃ front later, exchanges = front ++ later ∧ b < (front.map Prod.snd).flatten.length ∧
        a < (later.map Prod.fst).flatten.length := by
  -- A deadlock shows what was overrun, and an overrun is driven into a deadlock.
  constructor
  · intro found
    obtain ⟨s, reached, deadlocked⟩ := found
    exact reached.sound.overrun a.pos b.pos deadlocked
  · intro parted
    obtain ⟨front, later, rfl, beyond, behind⟩ := parted
    exact reaches_deadlock a.pos ahead.pos beyond behind

/-- While the two wait for each other, neither of them has a step to take. -/
theorem Sound.not_step (sound : Sound exchanges s) (deadlocked : s.Deadlocked a b) (t : State A) :
    ¬Step a b ahead s t := by
  -- One case for each step: whoever would take it waits for what the step needs.
  obtain ⟨asker, answerer⟩ := deadlocked
  intro step
  have sent := sound.sent
  cases step with
  | send some_ has room =>
    rcases asker with ⟨_, full⟩ | ⟨closed, _⟩
    · have more := List.length_pos_iff.mpr some_
      omega
    · rw [sent closed] at has
      exact some_ (List.append_eq_nil_iff.mp has.symm).1
  | close all opened =>
    rcases asker with ⟨unsent, _⟩ | ⟨closed, _⟩
    · exact unsent all
    · simp [opened] at closed
  | collect some_ closed has =>
    rcases asker with ⟨unsent, _⟩ | ⟨_, none, _⟩
    · exact unsent (sent closed)
    · rw [none] at has
      exact some_ (List.append_eq_nil_iff.mp has.symm).1
  | finish closed all stands going =>
    rcases asker with ⟨unsent, _⟩ | ⟨_, _, here⟩
    · exact unsent (sent closed)
    · exact here stands
  | fetch some_ stands wants used =>
    rcases answerer with ⟨_, none, _⟩ | ⟨_, _, other, _⟩
    · exact some_ none
    · simp [stands] at other
  | take some_ stands has =>
    rcases answerer with ⟨_, _, none, _⟩ | ⟨_, _, other, _⟩
    · rw [none] at has
      exact some_ (List.append_eq_nil_iff.mp has.symm).1
    · simp [stands] at other
  | turn stands =>
    rcases answerer with ⟨_, _, _, other | ⟨_, _, _, other, some_⟩⟩ | ⟨_, _, other, _⟩
    · simp [stands] at other
    · rw [stands] at other
      cases other
      exact some_ rfl
    · simp [stands] at other
  | reply some_ stands room =>
    rcases answerer with ⟨_, _, _, other | ⟨_, _, _, other, _⟩⟩ | ⟨_, _, _, _, full⟩
    · simp [stands] at other
    · simp [stands] at other
    · have more := List.length_pos_iff.mpr some_
      omega
  | next stands =>
    rcases answerer with ⟨_, _, _, other | ⟨_, _, _, other, _⟩⟩ | ⟨_, _, other, some_, _⟩
    · simp [stands] at other
    · simp [stands] at other
    · rw [stands] at other
      cases other
      exact some_ rfl
  | leave stands closed all =>
    rcases answerer with ⟨opened, _⟩ | ⟨_, _, other, _⟩
    · simp [opened] at closed
    · simp [stands] at other

/-- Where nothing happens while the answerer is there, the asker waits. -/
theorem askerBlocked_of_still (here : s.serving ≠ .gone) (still : ∀ t, ¬Step a b ahead s t) :
    s.AskerBlocked a := by
  -- With something to send it waits for room, and else for an answer.
  rcases unsent : s.toSend with _ | ⟨c, rest⟩
  · have closed : s.closed = true := by
      by_contra opened
      exact still _ (.close unsent (by simpa using opened))
    refine .inr ⟨closed, ?_, here⟩
    by_contra some_
    exact still _ (.collect some_ closed (List.append_nil _).symm)
  · refine .inl ⟨by simp [unsent], ?_⟩
    by_contra room
    exact still _ (.send (x := [c]) (by simp) unsent (by simp; omega))

/-- Where nothing happens, an answerer that is there waits. -/
theorem Sound.answererBlocked_of_still (sound : Sound exchanges s) (here : s.serving ≠ .gone)
    (still : ∀ t, ¬Step a b ahead s t) : s.AnswererBlocked b := by
  -- It waits for the rest of a request, for room for its answer, or for the end of the input.
  have requests := sound.requests
  rcases stands : s.serving with ⟨request, answer, later⟩ | ⟨left, later⟩ | _ | _
  · rw [stands] at requests
    rcases request with _ | ⟨c, request⟩
    · exact absurd (.turn stands) (still _)
    · -- What is read, and then what is on its way, begins with what is to be read.
      rcases ready : s.buffered with _ | ⟨r, rest⟩
      · have waiting : s.requests = [] := by
          by_contra some_
          exact still _ (.fetch some_ stands (by simp) ready)
        refine .inl ⟨?_, waiting, ready, .inr ⟨_, _, _, stands, by simp⟩⟩
        by_contra closed
        rw [ready, waiting, sound.sent (by simpa using closed)] at requests
        simp [Serving.toRead] at requests
      · rw [ready] at requests
        obtain ⟨rfl, _⟩ := List.cons.inj requests
        exact absurd (.take (x := [r]) (by simp) stands ready) (still _)
  · rcases left with _ | ⟨c, left⟩
    · exact absurd (.next stands) (still _)
    · refine .inr ⟨_, _, stands, by simp, ?_⟩
      by_contra room
      exact still _ (.reply (x := [c]) (by simp) stands (by simp; omega))
  · rw [stands] at requests
    obtain ⟨ready, none⟩ := List.append_eq_nil_iff.mp (List.append_eq_nil_iff.mp requests).1
    refine .inl ⟨?_, none, ready, .inl stands⟩
    by_contra closed
    exact still _ (.leave stands (by simpa using closed) none)
  · exact absurd stands here

/--
Nothing happens any more while there is something to do exactly where the two wait for each other.
-/
theorem Sound.deadlocked_iff (sound : Sound exchanges s) :
    s.Deadlocked a b ↔ s.serving ≠ .gone ∧ ∀ t, ¬Step a b ahead s t := by
  -- A deadlock stops every kind of step, and without a step each of the two waits.
  constructor
  · intro deadlocked
    refine ⟨?_, sound.not_step deadlocked⟩
    rcases deadlocked.2 with ⟨_, _, _, stands | ⟨_, _, _, stands, _⟩⟩ | ⟨_, _, stands, _⟩ <;>
      simp [stands]
  · intro still
    obtain ⟨here, still⟩ := still
    exact ⟨askerBlocked_of_still here still, sound.answererBlocked_of_still here still⟩

end NasTools.Pipes
