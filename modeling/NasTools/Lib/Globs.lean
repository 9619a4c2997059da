import Mathlib

/-!
Patterns with wildcards, over letters of any kind.

Letters that are written as several smaller ones give a pattern a second meaning, and a condition
tells when the two meanings agree.
-/

namespace NasTools.Globs

variable {A B : Type}

/-- A part of a pattern: a letter, any one letter, or any number of them. -/
inductive Item (A : Type) where
  | letter (a : A)
  | one
  | many

/-- A text is what a pattern means. -/
inductive Matches : List (Item A) → List A → Prop where
  | nil : Matches [] []
  | letter {a : A} {p : List (Item A)} {t : List A} (rest : Matches p t) :
    Matches (.letter a :: p) (a :: t)
  | one {a : A} {p : List (Item A)} {t : List A} (rest : Matches p t) : Matches (.one :: p) (a :: t)
  | many {p : List (Item A)} {t : List A} (skipped : List A) (rest : Matches p t) :
    Matches (.many :: p) (skipped ++ t)

/--
Wildcards without a letter between them: at least so many letters, and whether there may be more.
-/
structure Run where
  ones : Nat
  more : Bool
deriving DecidableEq

namespace Run

/-- No wildcard at all. -/
def none : Run := ⟨0, false⟩

def addOne (r : Run) : Run := { r with ones := r.ones + 1 }

def addMany (r : Run) : Run := { r with more := true }

/-- Whether so many letters stand for the wildcards. -/
def Fits (r : Run) (n : Nat) : Prop := if r.more then r.ones ≤ n else n = r.ones

/-- The run of no wildcards fits only the empty block. -/
theorem fits_none {n : Nat} : none.Fits n ↔ n = 0 := by simp [none, Fits]

/-- One more single wildcard takes one more letter. -/
theorem fits_addOne {r : Run} {n : Nat} : r.addOne.Fits n ↔ ∃ m, n = m + 1 ∧ r.Fits m := by
  -- With a wildcard for many the count is a lower bound, and without it is exact.
  unfold addOne Fits
  dsimp only
  split
  · constructor
    · intro fits
      exact ⟨n - 1, by omega, by omega⟩
    · intro found
      obtain ⟨m, rfl, fits⟩ := found
      omega
  · constructor
    · intro fits
      exact ⟨r.ones, fits, rfl⟩
    · intro found
      obtain ⟨m, rfl, rfl⟩ := found
      rfl

/-- A wildcard for many takes any number of letters more. -/
theorem fits_addMany {r : Run} {n : Nat} : r.addMany.Fits n ↔ ∃ m ≤ n, r.Fits m := by
  -- The count stays a lower bound, and what the new wildcard takes is the excess.
  unfold addMany Fits
  simp only [if_true]
  constructor
  · intro fits
    exact ⟨r.ones, fits, by split <;> omega⟩
  · intro found
    obtain ⟨m, below, fits⟩ := found
    split at fits <;> omega

/--
The wildcards do not count letters: none of them is for just one, or one of them next
to one for any number.
-/
def Loose (r : Run) : Prop := r.ones = 0 ∨ r.ones = 1 ∧ r.more = true

instance (r : Run) : Decidable r.Loose := inferInstanceAs (Decidable (_ ∨ _))

end Run

/-- A pattern as its letters, with the wildcards in front of each and at the end. -/
inductive Runs (A : Type) where
  | last (r : Run)
  | step (r : Run) (a : A) (rest : Runs A)

namespace Runs

def mapFirst (f : Run → Run) : Runs A → Runs A
  | .last r => .last (f r)
  | .step r a rest => .step (f r) a rest

def letters : Runs A → List A
  | .last _ => []
  | .step _ a rest => a :: rest.letters

def runs : Runs A → List Run
  | .last r => [r]
  | .step r _ rest => r :: rest.runs

/--
A text is what such a pattern means, where each of its letters counts as many times as its size.
-/
inductive Fits (size : A → Nat) : Runs A → List A → Prop where
  | last {r : Run} {block : List A} (fits : r.Fits (block.map size).sum) : Fits size (.last r) block
  | step {r : Run} {a : A} {rest : Runs A} {block t : List A} (fits : r.Fits (block.map size).sum)
      (later : Fits size rest t) : Fits size (.step r a rest) (block ++ a :: t)

variable {size : A → Nat}

/-- The last run has to fit all that is left. -/
theorem fits_last {r : Run} {text : List A} :
    Fits size (.last r) text ↔ r.Fits (text.map size).sum := by
  -- This is the constructor read in both directions.
  constructor
  · intro fits
    cases fits with
    | last fits => exact fits
  · exact .last

/-- Before the next letter of the pattern stands a block that its run fits. -/
theorem fits_step {r : Run} {a : A} {rest : Runs A} {text : List A} :
    Fits size (.step r a rest) text ↔
      ∃ block t, text = block ++ a :: t ∧ r.Fits (block.map size).sum ∧ Fits size rest t := by
  -- This is the constructor read in both directions.
  constructor
  · intro fits
    cases fits with
    | step fits later => exact ⟨_, _, rfl, fits, later⟩
  · intro found
    obtain ⟨block, t, rfl, fits, later⟩ := found
    exact .step fits later

/-- Letters of size one are counted. -/
theorem sum_ones (block : List A) : (block.map fun _ => 1).sum = block.length := by simp

/-- One more single letter comes first. -/
theorem fits_addOne {p : Runs A} {text : List A} :
    Fits (fun _ => 1) (p.mapFirst Run.addOne) text ↔ ∃ a t, text = a :: t ∧
      Fits (fun _ => 1) p t := by
  -- The new wildcard belongs to the first run, whose block loses its first letter.
  cases p with
  | last r =>
    rw [mapFirst, fits_last, sum_ones, Run.fits_addOne]
    constructor
    · intro found
      obtain ⟨m, length, fits⟩ := found
      obtain ⟨a, t, rfl⟩ := List.exists_cons_of_length_eq_add_one length
      refine ⟨a, t, rfl, fits_last.mpr ?_⟩
      rw [sum_ones, Nat.add_right_cancel length]
      exact fits
    · intro found
      obtain ⟨a, t, rfl, fits⟩ := found
      rw [fits_last, sum_ones] at fits
      exact ⟨t.length, rfl, fits⟩
  | step r c rest =>
    rw [mapFirst, fits_step]
    constructor
    · intro found
      obtain ⟨block, t, rfl, fits, later⟩ := found
      rw [sum_ones, Run.fits_addOne] at fits
      obtain ⟨m, length, fits⟩ := fits
      obtain ⟨a, block, rfl⟩ := List.exists_cons_of_length_eq_add_one length
      refine ⟨a, block ++ c :: t, rfl, .step ?_ later⟩
      rw [sum_ones, Nat.add_right_cancel length]
      exact fits
    · intro found
      obtain ⟨a, t, rfl, fits⟩ := found
      obtain ⟨block, t, rfl, fits, later⟩ := fits_step.mp fits
      rw [sum_ones] at fits
      exact ⟨a :: block, t, rfl, by rw [sum_ones]; exact Run.fits_addOne.mpr ⟨_, rfl, fits⟩, later⟩

/-- Any number of letters more come first. -/
theorem fits_addMany {p : Runs A} {text : List A} :
    Fits (fun _ => 1) (p.mapFirst Run.addMany) text ↔ ∃ skipped t, text = skipped ++ t ∧
      Fits (fun _ => 1) p t := by
  -- The new wildcard takes a front of the first run's block, which is parted at the length that
  -- the run fits.
  have parted : ∀ {block : List A} {m : Nat}, m ≤ block.length →
      ∃ skipped kept, block = skipped ++ kept ∧ kept.length = m :=
    fun {block m} below => ⟨block.take (block.length - m), block.drop (block.length - m),
      (List.take_append_drop _ _).symm, by rw [List.length_drop]; omega⟩
  cases p with
  | last r =>
    rw [mapFirst, fits_last, sum_ones, Run.fits_addMany]
    constructor
    · intro found
      obtain ⟨m, below, fits⟩ := found
      obtain ⟨skipped, kept, rfl, rfl⟩ := parted below
      exact ⟨skipped, kept, rfl, fits_last.mpr (by rw [sum_ones]; exact fits)⟩
    · intro found
      obtain ⟨skipped, t, rfl, fits⟩ := found
      rw [fits_last, sum_ones] at fits
      exact ⟨t.length, by simp, fits⟩
  | step r c rest =>
    rw [mapFirst, fits_step]
    constructor
    · intro found
      obtain ⟨block, t, rfl, fits, later⟩ := found
      rw [sum_ones, Run.fits_addMany] at fits
      obtain ⟨m, below, fits⟩ := fits
      obtain ⟨skipped, kept, rfl, rfl⟩ := parted below
      exact ⟨skipped, kept ++ c :: t, List.append_assoc _ _ _,
        .step (by rw [sum_ones]; exact fits) later⟩
    · intro found
      obtain ⟨skipped, t, rfl, fits⟩ := found
      obtain ⟨block, t, rfl, fits, later⟩ := fits_step.mp fits
      rw [sum_ones] at fits
      exact ⟨skipped ++ block, t, (List.append_assoc _ _ _).symm,
        by rw [sum_ones]; exact Run.fits_addMany.mpr ⟨_, by simp, fits⟩, later⟩

end Runs

/-- A pattern with its wildcards gathered. -/
def gather : List (Item A) → Runs A
  | [] => .last .none
  | .letter a :: p => .step .none a (gather p)
  | .one :: p => (gather p).mapFirst Run.addOne
  | .many :: p => (gather p).mapFirst Run.addMany

/-- Gathering the wildcards does not change what a pattern means. -/
theorem matches_iff {p : List (Item A)} {text : List A} :
    Matches p text ↔ (gather p).Fits (fun _ => 1) text := by
  -- Induction over the pattern: a letter ends a run, and a wildcard joins the first one.
  induction p generalizing text with
  | nil =>
    rw [gather, Runs.fits_last, Runs.sum_ones, Run.fits_none, List.length_eq_zero_iff]
    constructor
    · intro found
      cases found
      rfl
    · rintro rfl
      exact .nil
  | cons item p ih =>
    cases item with
    | letter a =>
      rw [gather, Runs.fits_step]
      constructor
      · intro found
        cases found with
        | letter rest => exact ⟨[], _, rfl, Run.fits_none.mpr rfl, ih.mp rest⟩
      · intro found
        obtain ⟨block, t, rfl, fits, later⟩ := found
        rw [Runs.sum_ones, Run.fits_none, List.length_eq_zero_iff] at fits
        subst fits
        exact .letter (ih.mpr later)
    | one =>
      rw [gather, Runs.fits_addOne]
      constructor
      · intro found
        cases found with
        | one rest => exact ⟨_, _, rfl, ih.mp rest⟩
      · intro found
        obtain ⟨a, t, rfl, later⟩ := found
        exact .one (ih.mpr later)
    | many =>
      rw [gather, Runs.fits_addMany]
      constructor
      · intro found
        cases found with
        | many skipped rest => exact ⟨skipped, _, rfl, ih.mp rest⟩
      · intro found
        obtain ⟨skipped, t, rfl, later⟩ := found
        exact .many skipped (ih.mpr later)

/-- The same pattern over the small letters that its letters are written in. -/
def spell (enc : A → List B) : List (Item A) → List (Item B)
  | [] => []
  | .letter a :: p => (enc a).map .letter ++ spell enc p
  | .one :: p => .one :: spell enc p
  | .many :: p => .many :: spell enc p

/-- Letters can be told in what is written: where one is written, it was written as such. -/
structure Readable (enc : A → List B) : Prop where
  written : ∀ a, enc a ≠ []
  found : ∀ (text : List A) (a : A) (block t : List B), text.flatMap enc = block ++ enc a ++ t →
    ∃ u v, text = u ++ a :: v ∧ u.flatMap enc = block ∧ v.flatMap enc = t

/-- Several letters, and then a pattern. -/
def Runs.after (bs : List B) (p : Runs B) : Runs B := bs.foldr (fun b p => .step .none b p) p

/-- A pattern with its wildcards gathered, over the small letters. -/
def Runs.spell (enc : A → List B) : Runs A → Runs B
  | .last r => .last r
  | .step r a rest => (Runs.after (enc a) (rest.spell enc)).mapFirst fun _ => r

/-- Letters in front of a pattern stand in front of its runs. -/
theorem gather_letters (bs : List B) (p : List (Item B)) :
    gather (bs.map .letter ++ p) = Runs.after bs (gather p) := by
  -- Each letter starts a run of its own.
  induction bs with
  | nil => rfl
  | cons b bs ih =>
    rw [List.map_cons, List.cons_append, gather, ih]
    rfl

/-- Between letters in front of a pattern there are no wildcards to change. -/
theorem Runs.mapFirst_after {f : Run → Run} {bs : List B} (some_ : bs ≠ []) (p : Runs B)
    (same : f .none = .none) :
    (after bs p).mapFirst f = after bs p := by
  cases bs with
  | nil => exact absurd rfl some_
  | cons b bs => simp [after, mapFirst, same]

variable {enc : A → List B}

/-- Wildcards are gathered alike over the small letters. -/
theorem gather_spell (readable : Readable enc) (p : List (Item A)) :
    gather (spell enc p) = (gather p).spell enc := by
  -- The first wildcards of a pattern are its first ones over the small letters.
  have first :
      ∀ (f : Run → Run) (q : Runs A), (q.mapFirst f).spell enc = (q.spell enc).mapFirst f := by
    intro f q
    cases q with
    | last r => rfl
    | step r a rest =>
      rw [Runs.mapFirst, Runs.spell, Runs.spell]
      cases written : enc a with
      | nil => exact absurd written (readable.written a)
      | cons b bs => rfl
  induction p with
  | nil => rfl
  | cons item p ih =>
    cases item with
    | letter a =>
      rw [spell, gather_letters, ih, gather, Runs.spell,
        Runs.mapFirst_after (readable.written a) _ rfl]
    | one => rw [spell, gather, gather, ih, first]
    | many => rw [spell, gather, gather, ih, first]

/-- What follows the small letters of one letter. -/
theorem Runs.fits_after {p : Runs B} {r : Run} {bs text : List B} (some_ : bs ≠ []) :
    Fits (fun _ => 1) ((after bs p).mapFirst fun _ => r) text ↔
      ∃ block t, text = block ++ bs ++ t ∧ r.Fits block.length ∧ Fits (fun _ => 1) p t := by
  -- Only the first of the letters has a run in front of it, so the others are read one by one.
  have plain : ∀ {bs text : List B}, Fits (fun _ => 1) (after bs p) text ↔ ∃ t, text = bs ++ t ∧
      Fits (fun _ => 1) p t := by
    intro bs
    induction bs with
    | nil => simp [after]
    | cons b bs ih =>
      intro text
      rw [after, List.foldr_cons, fits_step]
      constructor
      · intro found
        obtain ⟨block, t, rfl, fits, later⟩ := found
        rw [sum_ones, Run.fits_none, List.length_eq_zero_iff] at fits
        subst fits
        obtain ⟨t, rfl, after⟩ := ih.mp later
        exact ⟨t, rfl, after⟩
      · intro found
        obtain ⟨t, rfl, later⟩ := found
        exact ⟨[], bs ++ t, rfl, Run.fits_none.mpr rfl, ih.mpr ⟨t, rfl, later⟩⟩
  cases bs with
  | nil => exact absurd rfl some_
  | cons b bs =>
    rw [after, List.foldr_cons, mapFirst, fits_step]
    constructor
    · intro found
      obtain ⟨block, t, rfl, fits, later⟩ := found
      obtain ⟨t, rfl, after⟩ := plain.mp later
      rw [sum_ones] at fits
      exact ⟨block, t, by simp, fits, after⟩
    · intro found
      obtain ⟨block, t, rfl, fits, later⟩ := found
      exact ⟨block, bs ++ t, by simp, by rw [sum_ones]; exact fits, plain.mpr ⟨t, rfl, later⟩⟩

/--
What a pattern means of small letters is what it means of letters, each as big as it is written.
-/
theorem Runs.fits_spell (readable : Readable enc) {p : Runs A} {text : List A} :
    Fits (fun _ => 1) (p.spell enc) (text.flatMap enc) ↔ Fits (fun a => (enc a).length) p text := by
  -- A text that is spelled out splits only between letters, so blocks of bytes are blocks of
  -- letters.
  have sizes :
      ∀ block : List A, (block.flatMap enc).length = (block.map fun a => (enc a).length).sum := by
    intro block
    rw [List.length_flatMap]
  induction p generalizing text with
  | last r => rw [spell, fits_last, fits_last, sum_ones, sizes]
  | step r a rest ih =>
    rw [spell, fits_after (readable.written a), fits_step]
    constructor
    · intro found
      obtain ⟨block, t, parted, fits, later⟩ := found
      obtain ⟨u, v, rfl, rfl, rfl⟩ := readable.found text a block t parted
      rw [sizes] at fits
      exact ⟨u, v, rfl, fits, ih.mp later⟩
    · intro found
      obtain ⟨u, v, rfl, fits, later⟩ := found
      exact ⟨u.flatMap enc, v.flatMap enc, by simp, by rw [sizes]; exact fits, ih.mpr later⟩

/--
A pattern over the small letters means what it means when each letter is as big as it is written.
-/
theorem matches_spell_iff (readable : Readable enc) {p : List (Item A)} {text : List A} :
    Matches (spell enc p) (text.flatMap enc) ↔ (gather p).Fits (fun a => (enc a).length) text := by
  rw [matches_iff, gather_spell readable, Runs.fits_spell readable]

namespace Runs

variable {size : A → Nat}

/-- A text for a pattern: something for each run of wildcards, between the letters. -/
def fill (f : Run → List A) : Runs A → List A
  | .last r => f r
  | .step r a rest => f r ++ a :: rest.fill f

/-- Such a text is made of the letters and of what is put in. -/
theorem mem_fill {f : Run → List A} {p : Runs A} {x : A} (member : x ∈ p.fill f) :
    x ∈ p.letters ∨ ∃ r ∈ p.runs, x ∈ f r := by
  -- Induction over the runs: what fills a run comes from it, and what stands between runs is a
  -- letter of the pattern.
  induction p with
  | last r => exact .inr ⟨r, List.mem_singleton_self r, member⟩
  | step r a rest ih =>
    rcases List.mem_append.mp member with here | later
    · exact .inr ⟨r, List.mem_cons_self, here⟩
    · rcases List.mem_cons.mp later with rfl | later
      · exact .inl List.mem_cons_self
      · rcases ih later with letter | ⟨r', member', inside⟩
        · exact .inl (List.mem_cons_of_mem _ letter)
        · exact .inr ⟨r', List.mem_cons_of_mem _ member', inside⟩

/-- What fits into every run makes a text that the pattern means. -/
theorem fits_fill {f : Run → List A} {p : Runs A}
    (each : ∀ r ∈ p.runs, r.Fits ((f r).map size).sum) :
    Fits size p (p.fill f) := by
  -- Induction over the runs of the pattern.
  induction p with
  | last r => exact .last (each r (List.mem_singleton_self r))
  | step r a rest ih =>
    exact .step (each r List.mem_cons_self)
      (ih fun r' member => each r' (List.mem_cons_of_mem _ member))

/-- The number of letters a pattern asks for. -/
def count : Runs A → Nat
  | .last r => r.ones
  | .step r _ rest => r.ones + 1 + rest.count

/-- A pattern asks for no more letters than a text that fits it has. -/
theorem count_le {p : Runs A} {text : List A}
    (each : ∀ r ∈ p.runs, ∀ block : List A, r.Fits (block.map size).sum → r.ones ≤ block.length)
    (fits : Fits size p text) : p.count ≤ text.length := by
  -- Each block is as long as its run asks, and each letter of the pattern takes one.
  induction fits with
  | last fits => exact each _ (List.mem_singleton_self _) _ fits
  | step fits later ih =>
    have front := each _ List.mem_cons_self _ fits
    have back := ih fun r' member => each r' (List.mem_cons_of_mem _ member)
    simp only [count, List.length_append, List.length_cons]
    omega

/-- Filling runs with no more than they ask for gives no more than the pattern asks for. -/
theorem length_fill_le {f : Run → List A} {p : Runs A}
    (each : ∀ r ∈ p.runs, (f r).length ≤ r.ones) :
    (p.fill f).length ≤ p.count := by
  -- Induction over the runs, adding up their bounds.
  induction p with
  | last r => exact each r (List.mem_singleton_self r)
  | step r a rest ih =>
    have front := each r List.mem_cons_self
    have back := ih fun r' member => each r' (List.mem_cons_of_mem _ member)
    simp only [fill, count, List.length_append, List.length_cons]
    omega

/-- If one run gets less than it asks for, so does the whole pattern. -/
theorem length_fill_lt {f : Run → List A} {p : Runs A} (each : ∀ r ∈ p.runs, (f r).length ≤ r.ones)
    (some_ : ∃ r ∈ p.runs, (f r).length < r.ones) : (p.fill f).length < p.count := by
  -- The short run is the first one or a later one, and all the others are bounded.
  induction p with
  | last r =>
    obtain ⟨r', member, less⟩ := some_
    obtain rfl := List.mem_singleton.mp member
    exact less
  | step r a rest ih =>
    have front := each r List.mem_cons_self
    have each' : ∀ r ∈ rest.runs, (f r).length ≤ r.ones :=
      fun r' member => each r' (List.mem_cons_of_mem _ member)
    have back := length_fill_le each'
    obtain ⟨r', member, less⟩ := some_
    simp only [fill, count, List.length_append, List.length_cons]
    rcases List.mem_cons.mp member with rfl | later
    · omega
    · have shorter := ih each' ⟨r', later, less⟩
      omega

/-- Where no wildcard counts letters, it does not matter how big they are. -/
theorem fits_iff_of_loose {p : Runs A} {text : List A} (positive : ∀ a, 1 ≤ size a)
    (loose : ∀ r ∈ p.runs, r.Loose) :
    Fits size p text ↔ Fits (fun _ => 1) p text := by
  -- A loose run takes any block, or any but the empty one, and sizes do not change which blocks
  -- are empty.
  have run : ∀ r : Run, r.Loose → ∀ block : List A, r.Fits (block.map size).sum ↔
      r.Fits (block.map fun _ => 1).sum := by
    intro r loose block
    have bound : (block.map fun _ => 1).sum ≤ (block.map size).sum :=
      List.sum_le_sum fun a _ => positive a
    rw [sum_ones] at bound ⊢
    have empty : block.length = 0 → (block.map size).sum = 0 := by
      intro zero
      rw [List.length_eq_zero_iff.mp zero]
      rfl
    unfold Run.Fits
    rcases loose with none | ⟨one, more⟩
    · rw [none]
      split <;> omega
    · rw [one, if_pos more, if_pos more]
      omega
  induction p generalizing text with
  | last r => rw [fits_last, fits_last, run r (loose r (List.mem_singleton_self r))]
  | step r a rest ih =>
    have later : ∀ t, Fits size rest t ↔ Fits (fun _ => 1) rest t :=
      fun t => ih fun r' member => loose r' (List.mem_cons_of_mem _ member)
    rw [fits_step, fits_step]
    simp only [run r (loose r List.mem_cons_self), later]

/--
Where at most one letter is asked for at a time, a text of the least length fits in one way only.
-/
theorem fits_fill_only {f : Run → List A} {p : Runs A} (few : ∀ r ∈ p.runs, r.ones ≤ 1)
    (exact_ : ∀ r ∈ p.runs, (f r).length = r.ones) (fits : Fits size p (p.fill f)) :
    ∀ r ∈ p.runs, r.Fits ((f r).map size).sum := by
  -- Each block has the fewest letters that its run takes, so none can take from another.
  have least : ∀ r : Run, r.ones ≤ 1 → ∀ block : List A, r.Fits (block.map size).sum →
      r.ones ≤ block.length := by
    intro r few block fits
    rcases block with _ | ⟨x, block⟩
    · unfold Run.Fits at fits
      simp only [List.map_nil, List.sum_nil] at fits
      split at fits <;> simp <;> omega
    · simp only [List.length_cons]
      omega
  induction p with
  | last r =>
    rw [fill, fits_last] at fits
    intro r' member
    obtain rfl := List.mem_singleton.mp member
    exact fits
  | step r a rest ih =>
    have few' : ∀ r ∈ rest.runs, r.ones ≤ 1 :=
      fun r' member => few r' (List.mem_cons_of_mem _ member)
    have exact' : ∀ r ∈ rest.runs, (f r).length = r.ones :=
      fun r' member => exact_ r' (List.mem_cons_of_mem _ member)
    rw [fill, fits_step] at fits
    obtain ⟨block, t, parted, here, later⟩ := fits
    -- Both sides need all the letters they have, so the text is parted where it was put together.
    have front := least r (few r List.mem_cons_self) block here
    have back := count_le (fun r' member block fits => least r' (few' r' member) block fits) later
    have whole := length_fill_le fun r' member => (exact' r' member).le
    have length := congrArg List.length parted
    simp only [List.length_append, List.length_cons, exact_ r List.mem_cons_self] at length
    obtain ⟨same, tail⟩ := List.append_inj parted (by rw [exact_ r List.mem_cons_self]; omega)
    obtain ⟨_, rest'⟩ := List.cons.inj tail
    intro r' member
    rcases List.mem_cons.mp member with rfl | later'
    · rw [same]
      exact here
    · exact ih few' exact' (rest' ▸ later) r' later'

/-- For a text without letters, it does not matter how big they are. -/
theorem fits_nil_iff {size' : A → Nat} {p : Runs A} : Fits size p [] ↔ Fits size' p [] := by
  cases p with
  | last r => rw [fits_last, fits_last, List.map_nil, List.map_nil]
  | step r a rest => simp [fits_step]

/-- Where some wildcard counts letters, it matters that there are letters of two sizes. -/
theorem exists_apart {p : Runs A} {a z : A} (small : size a = 1) (large : size z = 2)
    (counts : ∃ r ∈ p.runs, ¬r.Loose) :
    ∃ text, (∀ x ∈ text, x ∈ p.letters ∨ x = a ∨ x = z) ∧ text ≠ [] ∧
      ¬(Fits size p text ↔ Fits (fun _ => 1) p text) := by
  -- A run that counts can be given large letters, which two ways of measuring count differently.
  suffices found : ∃ text, (∀ x ∈ text, x ∈ p.letters ∨ x = a ∨ x = z) ∧
      ¬(Fits size p text ↔ Fits (fun _ => 1) p text) by
    obtain ⟨text, made, apart⟩ := found
    exact ⟨text, made, fun empty => apart (empty ▸ fits_nil_iff), apart⟩
  by_cases few : ∀ r ∈ p.runs, r.ones ≤ 1
  · -- Large letters in every place: just one of them is too large for a single wildcard.
    refine ⟨p.fill fun r => List.replicate r.ones z, ?_, ?_⟩
    · intro x member
      rcases mem_fill member with letter | ⟨r, _, inside⟩
      · exact .inl letter
      · exact .inr (.inr (List.eq_of_mem_replicate inside))
    · intro same
      have plain : Fits (fun _ => 1) p (p.fill fun r => List.replicate r.ones z) := by
        apply fits_fill
        intro r _
        rw [sum_ones, List.length_replicate, Run.Fits]
        split <;> rfl
      have each := fits_fill_only few (fun r _ => List.length_replicate) (same.mpr plain)
      obtain ⟨r, member, counts⟩ := counts
      have here := each r member
      have atMost := few r member
      rw [List.map_replicate, large, List.sum_replicate, smul_eq_mul, Run.Fits] at here
      refine counts ?_
      unfold Run.Loose
      split at here
      · rename_i more
        rw [more]
        simp only [and_true]
        omega
      · omega
  · -- A large letter stands for two single wildcards.
    rw [not_forall] at few
    obtain ⟨r, few⟩ := few
    rw [Classical.not_imp, Nat.not_le] at few
    obtain ⟨member, two⟩ := few
    let f : Run → List A := fun r => if 2 ≤ r.ones then z :: List.replicate (r.ones - 2) a
      else List.replicate r.ones a
    have sizes : ∀ r : Run, ((f r).map size).sum = r.ones := by
      intro r
      simp only [f]
      split
      · rw [List.map_cons, List.sum_cons, List.map_replicate, small, large, List.sum_replicate,
          smul_eq_mul]
        omega
      · rw [List.map_replicate, small, List.sum_replicate, smul_eq_mul, Nat.mul_one]
    have lengths : ∀ r : Run, (f r).length ≤ r.ones := by
      intro r
      simp only [f]
      split
      · rw [List.length_cons, List.length_replicate]
        omega
      · rw [List.length_replicate]
    refine ⟨p.fill f, ?_, ?_⟩
    · intro x inText
      rcases mem_fill inText with letter | ⟨r, _, inside⟩
      · exact .inl letter
      · simp only [f] at inside
        split at inside
        · rcases List.mem_cons.mp inside with rfl | rest
          · exact .inr (.inr rfl)
          · exact .inr (.inl (List.eq_of_mem_replicate rest))
        · exact .inr (.inl (List.eq_of_mem_replicate inside))
    · intro same
      have fits : Fits size p (p.fill f) := by
        apply fits_fill
        intro r _
        rw [sizes r, Run.Fits]
        split <;> rfl
      have enough : p.count ≤ (p.fill f).length := by
        refine count_le (fun r _ block fits => ?_) (same.mp fits)
        rw [sum_ones, Run.Fits] at fits
        split at fits <;> omega
      have short : (p.fill f).length < p.count := by
        refine length_fill_lt (fun r _ => lengths r) ⟨r, member, ?_⟩
        simp only [f]
        rw [if_pos (by omega), List.length_cons, List.length_replicate]
        omega
      omega

/-- A text of small letters that a pattern means either way. -/
theorem exists_common {p : Runs A} {a : A} (small : size a = 1) :
    ∃ text, (∀ x ∈ text, x ∈ p.letters ∨ x = a) ∧ (p ≠ .last .none → text ≠ []) ∧ Fits size p text ∧
      Fits (fun _ => 1) p text := by
  -- Filling each run with small letters measures the same both ways.
  let f : Run → List A := fun r => List.replicate (if r.more then r.ones + 1 else r.ones) a
  have fits : ∀ size' : A → Nat, size' a = 1 → Fits size' p (p.fill f) := by
    intro size' small
    apply fits_fill
    intro r _
    simp only [f]
    rw [List.map_replicate, small, List.sum_replicate, smul_eq_mul, Nat.mul_one, Run.Fits]
    split
    · exact Nat.le_succ _
    · rfl
  refine ⟨p.fill f, ?_, ?_, fits size small, fits _ rfl⟩
  · intro x member
    rcases mem_fill member with letter | ⟨r, _, inside⟩
    · exact .inl letter
    · exact .inr (List.eq_of_mem_replicate inside)
  · intro something
    cases p with
    | step r b rest => simp [fill]
    | last r =>
      obtain ⟨ones, more⟩ := r
      simp only [fill, f, ne_eq, List.replicate_eq_nil_iff]
      intro zero
      cases more with
      | true => simp at zero
      | false =>
        refine something ?_
        simp only [Bool.false_eq_true, if_false] at zero
        rw [zero]
        rfl

end Runs

variable {P T : Type}

/--
A list of parts is what a list of patterns means, of which some stand for any number of parts.
-/
inductive Paths (deep : P → Prop) (means : P → T → Prop) : List P → List T → Prop where
  | nil : Paths deep means [] []
  | deep {p : P} {ps : List P} {ts : List T} (is : deep p) (skipped : List T)
    (rest : Paths deep means ps ts) :
    Paths deep means (p :: ps) (skipped ++ ts)
  | part {p : P} {t : T} {ps : List P} {ts : List T} (not : ¬deep p) (here : means p t)
    (rest : Paths deep means ps ts) :
    Paths deep means (p :: ps) (t :: ts)

namespace Paths

variable {deep : P → Prop} {means means' : P → T → Prop} {ps : List P} {ts : List T}

/-- Weakening what the parts mean keeps a path matched. -/
theorem mono (implies : ∀ p ∈ ps, ¬deep p → ∀ t ∈ ts, means p t → means' p t)
    (path : Paths deep means ps ts) :
    Paths deep means' ps ts := by
  -- Induction over the match: only parts that are not deep, and texts on the path, are compared.
  induction path with
  | nil => exact .nil
  | deep is skipped _ ih =>
    refine .deep is skipped (ih fun p member not t inside => ?_)
    exact implies p (List.mem_cons_of_mem _ member) not t (List.mem_append_right _ inside)
  | part not here _ ih =>
    refine .part not (implies _ List.mem_cons_self not _ List.mem_cons_self here)
      (ih fun p member not t inside => ?_)
    exact implies p (List.mem_cons_of_mem _ member) not t (List.mem_cons_of_mem _ inside)

/-- A match depends only on what its shallow parts mean on the path. -/
theorem congr (same : ∀ p ∈ ps, ¬deep p → ∀ t ∈ ts, means p t ↔ means' p t) :
    Paths deep means ps ts ↔ Paths deep means' ps ts :=
  ⟨mono fun p member not t inside => (same p member not t inside).mp,
    mono fun p member not t inside => (same p member not t inside).mpr⟩

/-- Patterns and parts that are written in another way mean what they meant. -/
theorem map_iff {P' T' : Type} {deep : P' → Prop} {means : P' → T' → Prop} {f : P → P'}
    {g : T → T'} :
    Paths deep means (ps.map f) (ts.map g) ↔
      Paths (fun p => deep (f p)) (fun p t => means (f p) (g t)) ps ts := by
  -- From left to right the pieces of the path are read back through the map; from right to left
  -- they are mapped.
  constructor
  · intro path
    induction ps generalizing ts with
    | nil =>
      cases ts with
      | nil => exact .nil
      | cons t ts => cases path
    | cons p ps ih =>
      generalize whole : ts.map g = written at path
      cases path with
      | deep is skipped rest =>
        obtain ⟨before, after, rfl, rfl, rfl⟩ := List.map_eq_append_iff.mp whole
        refine .deep ?_ before (ih rest)
        exact is
      | part not here rest =>
        obtain ⟨t, after, rfl, rfl, rfl⟩ := List.map_eq_cons_iff.mp whole
        refine .part ?_ ?_ (ih rest)
        · exact not
        · exact here
  · intro path
    induction path with
    | nil => exact .nil
    | deep is skipped _ ih =>
      rw [List.map_append]
      exact .deep is (skipped.map g) ih
    | part not here _ ih => exact .part not here ih

variable [DecidablePred deep]

/-- Every pattern for one part needs a part. -/
theorem length_le (path : Paths deep means ps ts) :
    (ps.filter fun p => ¬deep p).length ≤ ts.length := by
  -- A shallow part takes exactly one name, and a deep one any number.
  induction path with
  | nil => exact Nat.le_refl 0
  | deep is skipped _ ih =>
    rw [List.filter_cons_of_neg (by simpa using is), List.length_append]
    omega
  | part not _ _ ih =>
    rw [List.filter_cons_of_pos (by simpa using not), List.length_cons, List.length_cons]
    omega

/-- Where there are no more parts than needed, each is for one pattern. -/
theorem forall₂_iff (length : ts.length = (ps.filter fun p => ¬deep p).length) :
    Paths deep means ps ts ↔ List.Forall₂ means (ps.filter fun p => ¬deep p) ts := by
  -- With as many names as shallow parts, a deep part can take none.
  constructor
  · intro path
    induction path with
    | nil => exact .nil
    | deep is skipped rest ih =>
      have least := rest.length_le
      rw [List.filter_cons_of_neg (by simpa using is), List.length_append] at length
      obtain rfl : skipped = [] := List.length_eq_zero_iff.mp (by omega)
      rw [List.filter_cons_of_neg (by simpa using is)]
      exact ih (by simpa using length)
    | part not here _ ih =>
      rw [List.filter_cons_of_pos (by simpa using not)] at length ⊢
      exact .cons here (ih (by simpa using length))
  · intro each
    induction ps generalizing ts with
    | nil =>
      cases each
      exact .nil
    | cons p ps ih =>
      by_cases is : deep p
      · rw [List.filter_cons_of_neg (by simpa using is)] at length each
        exact .deep is [] (ih length each)
      · rw [List.filter_cons_of_pos (by simpa using is)] at length each
        cases each with
        | cons here rest => exact .part is here (ih (by simpa using length) rest)

end Paths

end NasTools.Globs
