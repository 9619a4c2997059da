import NasTools.Lib.Text

/-!
Texts in which others were replaced by a mark.

Replacing goes from left to right. What comes out is described from its end: which of the marks
stand for a text that was replaced, so that the text it came from can be spelled again.
-/

namespace NasTools.Text

variable {old mark : List Char}

/-- A text that came out of a replacement, and one it came from. -/
inductive Unmarked (old mark : List Char) : (image text : List Char) → Prop where
  | last {piece : List Char} (free : ¬old <:+: piece) : Unmarked old mark piece piece
  -- The old text starts behind the piece and nowhere in it.
  | step {piece image text : List Char} (free : ¬old <:+: piece ++ old.dropLast)
    (rest : Unmarked old mark image text) :
    Unmarked old mark (piece ++ mark ++ image) (piece ++ old ++ text)

/-- Characters that are passed are dropped. -/
theorem replaceAfter_skip (skip : Nat) (text : List Char) :
    replaceAfter old mark skip text = replaceAfter old mark 0 (text.drop skip) := by
  -- Skipped letters are dropped one at a time.
  induction skip generalizing text with
  | zero => rfl
  | succ skip ih =>
    cases text with
    | nil => simp [replaceAfter]
    | cons c rest => rw [replaceAfter, ih, List.drop_succ_cons]

/-- The old text at the start is replaced. -/
theorem replaceAfter_here (some_ : old ≠ []) (text : List Char) :
    replaceAfter old mark 0 (old ++ text) = mark ++ replaceAfter old mark 0 text := by
  obtain ⟨c, more, rfl⟩ := List.exists_cons_of_ne_nil some_
  have first : (c :: more).isPrefixOf (c :: (more ++ text)) = true := by simp
  rw [List.cons_append, replaceAfter, if_pos first, replaceAfter_skip]
  simp

/-- A character in front of which the old text does not start is copied. -/
theorem replaceAfter_copy {c : Char} {rest : List Char} (other : ¬old <+: c :: rest) :
    replaceAfter old mark 0 (c :: rest) = c :: replaceAfter old mark 0 rest := by
  rw [replaceAfter, if_neg (by simpa [List.isPrefixOf_iff_prefix] using other)]

/-- A text without the old one is left as it is. -/
theorem replaceAfter_free {text : List Char} (free : ¬old <:+: text) :
    replaceAfter old mark 0 text = text := by
  -- A text that holds no old word is copied letter by letter.
  induction text with
  | nil => rfl
  | cons c rest ih =>
    rw [List.infix_cons_iff, not_or] at free
    rw [replaceAfter_copy free.1, ih free.2]

/-- A piece in which the old text does not start is copied up to it. -/
theorem replaceAfter_piece (some_ : old ≠ []) {piece : List Char}
    (free : ¬old <:+: piece ++ old.dropLast) (text : List Char) :
    replaceAfter old mark 0 (piece ++ old ++ text) =
      piece ++ mark ++ replaceAfter old mark 0 text := by
  -- Induction over the piece: at none of its characters does the old text start.
  induction piece with
  | nil => exact replaceAfter_here some_ text
  | cons c piece ih =>
    rw [List.cons_append, List.infix_cons_iff, not_or] at free
    have other : ¬old <+: c :: (piece ++ old ++ text) := by
      -- The old text is no longer than what follows the first character without the
      -- last one of the old text.
      intro starts
      apply free.1
      have longer : c :: (piece ++ old.dropLast) <+: c :: (piece ++ old ++ text) := by
        rw [List.append_assoc]
        exact (List.prefix_append_right_inj (c :: piece)).mpr
          ((List.dropLast_prefix old).trans (List.prefix_append old text))
      refine List.prefix_of_prefix_length_le starts longer ?_
      simp only [List.length_cons, List.length_append, List.length_dropLast]
      omega
    rw [List.cons_append, List.cons_append, replaceAfter_copy other, ih free.2]
    rfl

/-- A letter that starts no old word belongs to the piece before the next mark. -/
theorem Unmarked.copy {c : Char} {image text : List Char} (other : ¬old <+: c :: text)
    (rest : Unmarked old mark image text) :
    Unmarked old mark (c :: image) (c :: text) := by
  -- The letter joins the first piece, which stays free: an old word across its end would start at
  -- the letter.
  cases rest with
  | last free => exact .last (by rw [List.infix_cons_iff]; exact not_or.mpr ⟨other, free⟩)
  | @step piece image text free rest =>
    refine @Unmarked.step old mark (c :: piece) image text ?_ rest
    rw [List.cons_append, List.infix_cons_iff]
    refine not_or.mpr ⟨fun starts => other (starts.trans ?_), free⟩
    rw [List.append_assoc]
    exact (List.prefix_append_right_inj (c :: piece)).mpr
      ((List.dropLast_prefix old).trans (List.prefix_append old text))

/-- The texts from which a text comes are those in which its marks stand for the old text again. -/
theorem unmarked_iff (some_ : old ≠ []) {image text : List Char} :
    Unmarked old mark image text ↔ replaceAfter old mark 0 text = image := by
  -- From the derivation by induction, and to it by the places where the old text starts.
  constructor
  · intro unmarked
    induction unmarked with
    | last free => exact replaceAfter_free free
    | step free _ ih => rw [replaceAfter_piece some_ free, ih]
  · rintro rfl
    have short : 0 < old.length := List.length_pos_iff.mpr some_
    -- On the length, for a replaced text takes several characters at once.
    induction length : text.length using Nat.strong_induction_on generalizing text with
    | _ n ih =>
      cases text with
      | nil => exact .last (List.infix_nil.not.mpr some_)
      | cons c rest =>
        by_cases starts : old <+: c :: rest
        · obtain ⟨more, is⟩ := starts
          have fewer : more.length < n := by
            rw [← length, ← is, List.length_append]
            omega
          rw [← is, replaceAfter_here some_]
          refine @Unmarked.step old mark [] _ _ (fun inside => ?_) (ih _ fewer rfl)
          have fits := inside.length_le
          simp only [List.nil_append, List.length_dropLast] at fits
          omega
        · rw [replaceAfter_copy starts]
          exact (ih rest.length (by simp [← length]) rfl).copy starts

/-- A member in the middle of two lists that are joined is in one of them. -/
theorem append_eq_middle {A : Type} {a : A} {first second front back : List A}
    (is : first ++ second = front ++ a :: back) :
    (∃ more, first = front ++ a :: more ∧ back = more ++ second) ∨ ∃ more, front = first ++ more ∧
      second = more ++ a :: back := by
  -- The letter stands in the first part or in the second.
  rcases List.append_eq_append_iff.mp is with ⟨more, here, there⟩ | ⟨more, here, there⟩
  · exact .inr ⟨more, here, there⟩
  · cases more with
    | nil => exact .inr ⟨[], by simpa using here.symm, there.symm⟩
    | cons b more =>
      obtain ⟨rfl, rfl⟩ := List.cons.inj there
      exact .inl ⟨more, here, rfl⟩

/-- A text with a character that marks do not have is cut there, and so is the one it came from. -/
theorem Unmarked.cut {c : Char} (other : c ∉ mark) {image text : List Char}
    (unmarked : Unmarked old mark image text) {front back : List Char}
    (is : image = front ++ c :: back) :
    ∃ front' back', text = front' ++ c :: back' ∧ Unmarked old mark front front' ∧
      Unmarked old mark back back' := by
  -- Induction over the marks: the letter is in the piece before the first one, or behind that
  -- mark, since no mark holds it.
  have behind : ∀ front rest : List Char, rest <:+: front ++ c :: rest := by
    intro front rest
    exact ((List.suffix_cons c rest).trans (List.suffix_append front _)).isInfix
  induction unmarked generalizing front with
  | last free =>
    subst is
    exact ⟨front, back, rfl,
      .last fun inside => free (inside.trans (List.prefix_append front _).isInfix),
      .last fun inside => free (inside.trans (behind front back))⟩
  | @step piece image text free rest ih =>
    rw [List.append_assoc] at is
    rcases append_eq_middle is with ⟨more, rfl, rfl⟩ | ⟨more, rfl, there⟩
    · -- In the piece: what is behind it there is a piece again.
      rw [List.append_assoc] at free
      refine ⟨front,
        more ++ old ++ text, by
        simp, .last fun inside => free (inside.trans (List.prefix_append front _).isInfix), ?_⟩
      rw [← List.append_assoc]
      exact .step (fun inside => free (inside.trans (behind front _))) rest
    · rcases append_eq_middle there with ⟨more', rfl, _⟩ | ⟨more', rfl, there⟩
      · exact absurd (by simp) other
      · -- Behind the mark.
        rw [List.append_assoc, List.append_cancel_left_eq] at there
        obtain ⟨front', back', rfl, first, second⟩ := ih there
        refine ⟨piece ++ old ++ front', back', by simp, ?_, second⟩
        rw [← List.append_assoc]
        exact .step free first

/-- A text without a mark came from itself. -/
theorem unmarked_of_markFree {image text : List Char} (none_ : ¬mark <:+: image) :
    Unmarked old mark image text ↔ text = image ∧ ¬old <:+: image := by
  -- A step would put a mark into the image.
  constructor
  · intro unmarked
    cases unmarked with
    | last free => exact ⟨rfl, free⟩
    | step free rest => exact absurd (List.infix_append _ _ _) none_
  · intro found
    obtain ⟨rfl, free⟩ := found
    exact .last free

/-- A text that comes out of several replacements, one after the other, and one it came from. -/
def TakenBack (mark : List Char) : (olds : List (List Char)) → (image text : List Char) → Prop
  | [], image, text => text = image
  | old :: later, image, text => ∃ between, TakenBack mark later image between ∧
    Unmarked old mark between text

/-- Several texts, each replaced by the mark, one after the other. -/
def replaceEach (mark : List Char) (olds : List (List Char)) (text : List Char) : List Char :=
  olds.foldl (fun s old => replaceAfter old mark 0 s) text

/-- Taking words back in turn is replacing them in turn. -/
theorem takenBack_iff {olds : List (List Char)} (each : ∀ old ∈ olds, old ≠ [])
    {image text : List Char} :
    TakenBack mark olds image text ↔ replaceEach mark olds text = image := by
  -- Induction over the words: each one is replaced, and the later ones are taken back from what
  -- that leaves.
  induction olds generalizing text with
  | nil => exact Iff.rfl
  | cons old later ih =>
    have here := each old List.mem_cons_self
    have step : ∀ {between : List Char}, TakenBack mark later image between ↔
        replaceEach mark later between = image :=
      ih fun other member => each other (List.mem_cons_of_mem _ member)
    constructor
    · intro found
      obtain ⟨between, after, first⟩ := found
      rw [unmarked_iff here] at first
      rw [replaceEach, List.foldl_cons, first]
      exact step.mp after
    · intro is
      exact ⟨replaceAfter old mark 0 text, step.mpr is, (unmarked_iff here).mpr rfl⟩

/-- A text without a mark came from itself, and has none of the texts that were replaced. -/
theorem takenBack_of_markFree {olds : List (List Char)} {image text : List Char}
    (none_ : ¬mark <:+: image) :
    TakenBack mark olds image text ↔ text = image ∧ ∀ old ∈ olds, ¬old <:+: image := by
  -- Induction over the words: without marks no word was replaced, and each is absent.
  induction olds generalizing text with
  | nil => simp [TakenBack]
  | cons old later ih =>
    simp only [TakenBack, ih, List.forall_mem_cons]
    constructor
    · intro found
      obtain ⟨between, ⟨rfl, free⟩, first⟩ := found
      obtain ⟨rfl, here⟩ := (unmarked_of_markFree none_).mp first
      exact ⟨rfl, here, free⟩
    · intro found
      obtain ⟨rfl, here, free⟩ := found
      exact ⟨text, ⟨rfl, free⟩, .last here⟩

/-- A text without any of those that are replaced comes from itself. -/
theorem takenBack_self {olds : List (List Char)} {text : List Char}
    (free : ∀ old ∈ olds, ¬old <:+: text) :
    TakenBack mark olds text text := by
  -- Induction over the texts that are looked for, none of which is found.
  induction olds with
  | nil => rfl
  | cons old later ih =>
    exact ⟨text, ih fun other member => free other (List.mem_cons_of_mem _ member),
      .last (free old List.mem_cons_self)⟩

/--
What comes out of replacements is cut, at a character that marks do not have, into
texts that come out of them.
-/
theorem TakenBack.cut {c : Char} (other : c ∉ mark) {olds : List (List Char)}
    {front back text : List Char} (taken : TakenBack mark olds (front ++ c :: back) text) :
    ∃ front' back', text = front' ++ c :: back' ∧ TakenBack mark olds front front' ∧
      TakenBack mark olds back back' := by
  -- Induction over the words, cutting each of the texts between them at the same letter.
  induction olds generalizing text with
  | nil => exact ⟨front, back, taken, rfl, rfl⟩
  | cons old later ih =>
    obtain ⟨between, after, first⟩ := taken
    obtain ⟨front', back', is, before, behind⟩ := ih after
    obtain ⟨front'', back'', is', before', behind'⟩ := first.cut other is
    exact ⟨front'', back'', is', ⟨front', before, before'⟩, ⟨back', behind, behind'⟩⟩

/--
A word is not empty and has no white space in it, and a property that goes over to both sides of
white space goes over to it.
-/
theorem forall_words {P : List Char → Prop}
    (cut : ∀ front c back, isWhite c = true → P (front ++ c :: back) → P front ∧ P back)
    {text : List Char} (all : P text) :
    ∀ word ∈ words text, P word ∧ word ≠ [] ∧ Solid word := by
  -- Strong induction on the length: a text with white space is cut there into two shorter ones.
  intro word member
  induction length : text.length using Nat.strong_induction_on generalizing text with
  | _ n ih =>
    by_cases solid : Solid text
    · -- Without white space the text is its only word.
      rw [words, List.splitOnP_eq_singleton solid] at member
      obtain ⟨here, some_⟩ := List.mem_filter.mp member
      obtain rfl : word = text := List.mem_singleton.mp here
      exact ⟨all, by simpa using some_, solid⟩
    · unfold Solid at solid
      push Not at solid
      obtain ⟨c, there, white⟩ := solid
      obtain ⟨front, back, rfl⟩ := List.append_of_mem there
      obtain ⟨first, second⟩ := cut front c back (by simpa using white) all
      simp only [List.length_append, List.length_cons] at length
      rw [words, List.splitOnP_append_cons _ _ (by simpa using white), List.filter_append,
        List.mem_append] at member
      rcases member with before | behind
      · exact ih front.length (by omega) first before rfl
      · exact ih back.length (by omega) second behind rfl

/-- No occurrence of a text reaches into a mark. -/
def Apart (mark old : List Char) : Prop :=
  ∀ front back, old <:+: front ++ mark ++ back → old <:+: front ∨ old <:+: back

/--
A text stays apart from marks that start and end with characters it does not have, and
have not all of its own.
-/
theorem apart_of_letters {first last : Char} {rest front : List Char}
    (starts : mark = first :: rest) (ends : mark = front ++ [last]) (start : first ∉ old)
    (stop : last ∉ old) (letter : ∃ c ∈ old, c ∉ mark) :
    Apart mark old := by
  -- An old word across an end of the mark would hold the mark's first or last letter, and one
  -- inside it only letters of the mark.
  intro before behind inside
  rcases List.infix_append_iff.mp inside with inside | here | ⟨near, far, rfl, suffix, starts'⟩
  · rcases List.infix_append_iff.mp inside with here | within | ⟨near, far, rfl, suffix, ⟨more, is⟩⟩
    · exact .inl here
    · obtain ⟨c, member, foreign⟩ := letter
      exact absurd (within.subset member) foreign
    · -- It ends in the mark.
      cases far with
      | nil => exact .inl (by simpa using suffix.isInfix)
      | cons c far =>
        obtain ⟨rfl, _⟩ := List.cons.inj (is.trans starts)
        exact absurd (by simp) start
  · exact .inr here
  · -- It starts in the mark.
    rcases List.eq_nil_or_concat near with rfl | ⟨near, c, rfl⟩
    · exact .inr starts'.isInfix
    · obtain ⟨more, is⟩ := suffix
      rw [ends, List.concat_eq_append, ← List.append_assoc, ← List.append_assoc] at is
      obtain rfl : c = last := List.singleton_inj.mp (List.append_inj_right' is rfl)
      exact absurd (by simp) stop

namespace Unmarked

variable {held image text : List Char}

/-- A text that stays apart from the marks was there before them. -/
theorem held_of_apart (apart : Apart mark held) (unmarked : Unmarked old mark image text)
    (inside : held <:+: image) :
    held <:+: text := by
  -- Induction over the marks: the word held lies in the first piece or behind the mark.
  induction unmarked with
  | last free => exact inside
  | step free rest ih =>
    rcases apart _ _ inside with here | later
    · rw [List.append_assoc]
      exact List.infix_append_of_infix_left here
    · exact List.infix_append_of_infix_right (ih later)

/-- Such a text is replaced wherever it stands. -/
theorem not_held (apart : Apart mark old) (unmarked : Unmarked old mark image text) :
    ¬old <:+: image := by
  -- Induction over the marks: each piece is free of the old word, and no mark makes one.
  induction unmarked with
  | last free => exact free
  | step free rest ih =>
    intro inside
    rcases apart _ _ inside with here | later
    · exact free (List.infix_append_of_infix_left here)
    · exact ih later

end Unmarked

/-- A word that no mark touches is held before if it is held after. -/
theorem TakenBack.held_of_apart {olds : List (List Char)} {held image text : List Char}
    (apart : Apart mark held) (taken : TakenBack mark olds image text) (inside : held <:+: image) :
    held <:+: text := by
  -- Induction over the words that were replaced.
  induction olds generalizing text with
  | nil =>
    obtain rfl : text = image := taken
    exact inside
  | cons old later ih =>
    obtain ⟨between, after, first⟩ := taken
    exact first.held_of_apart apart (ih after)

/-- What comes out of replacements has none of the texts that stay apart from the marks. -/
theorem TakenBack.not_held {olds : List (List Char)} {held image text : List Char}
    (apart : Apart mark held) (member : held ∈ olds) (taken : TakenBack mark olds image text) :
    ¬held <:+: image := by
  -- Induction over the words: the one in question is gone when it is replaced, and later ones do
  -- not bring it back.
  induction olds generalizing text with
  | nil => exact absurd member List.not_mem_nil
  | cons old later ih =>
    obtain ⟨between, after, first⟩ := taken
    rcases List.mem_cons.mp member with rfl | member
    · intro inside
      exact first.not_held apart (after.held_of_apart apart inside)
    · exact ih member after

end NasTools.Text
