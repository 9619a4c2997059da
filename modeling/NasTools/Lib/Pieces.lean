import Mathlib

/-! Cutting a list into pieces, each as long as a rule says of what is left. -/

namespace NasTools

variable {α : Type}

/-- Cut a list by a rule, into at most `fuel` pieces. -/
def piecesUpTo (cut : List α → Nat) : (fuel : Nat) → List α → List (List α)
  | 0, _ => []
  | _ + 1, [] => []
  | fuel + 1, x :: xs =>
    (x :: xs).take (cut (x :: xs)) :: piecesUpTo cut fuel ((x :: xs).drop (cut (x :: xs)))

/-- Cut a list by a rule, until nothing is left. -/
def pieces (cut : List α → Nat) (data : List α) : List (List α) := piecesUpTo cut data.length data

/-- The items that a procedure gives one after the other, until it gives none. -/
inductive Yields {S A : Type} (next : S → Option (A × S)) : S → List A → Prop where
  | done {s : S} (ended : next s = none) : Yields next s []
  | more {s s' : S} {a : A} {later : List A} (given : next s = some (a, s'))
    (rest : Yields next s' later) :
    Yields next s (a :: later)

/-- A rule that always cuts something off. -/
def Advances (cut : List α → Nat) : Prop := ∀ data, data ≠ [] → 0 < cut data

/-- A rule that looks at no more than the first `limit` elements. -/
def LooksAt (limit : Nat) (cut : List α → Nat) : Prop :=
  ∀ window rest, limit ≤ window.length → cut (window ++ rest) = cut window

variable {cut : List α → Nat} {data : List α}

/-- No data, no pieces. -/
@[simp] theorem pieces_nil : pieces cut [] = [] := rfl

/-- What is left behind a piece is shorter. -/
theorem Advances.length_drop_lt (advances : Advances cut) (some_ : data ≠ []) :
    (data.drop (cut data)).length < data.length := by
  -- Something is cut off, and there was something to cut.
  have cutOff := advances data some_
  have long := List.length_pos_iff.mpr some_
  rw [List.length_drop]
  omega

/-- Two allowances that both cover the list give the same pieces. -/
theorem piecesUpTo_eq (advances : Advances cut) {fuel other : Nat} (enough : data.length ≤ fuel)
    (enoughToo : data.length ≤ other) : piecesUpTo cut fuel data = piecesUpTo cut other data := by
  -- Both cut the same piece off, and what is left is shorter.
  induction fuel generalizing data other with
  | zero =>
    obtain rfl := List.length_eq_zero_iff.mp (Nat.le_zero.mp enough)
    cases other <;> rfl
  | succ fuel ih =>
    cases data with
    | nil => cases other <;> rfl
    | cons x xs =>
      cases other with
      | zero => exact absurd enoughToo (Nat.not_succ_le_zero _)
      | succ other =>
        have shorter := advances.length_drop_lt (List.cons_ne_nil x xs)
        have first : ((x :: xs).drop (cut (x :: xs))).length ≤ fuel := by omega
        have second : ((x :: xs).drop (cut (x :: xs))).length ≤ other := by omega
        simp only [piecesUpTo, ih first second]

/-- The first piece, and the pieces of what is left. -/
theorem pieces_of_ne_nil (advances : Advances cut) (some_ : data ≠ []) :
    pieces cut data = data.take (cut data) :: pieces cut (data.drop (cut data)) := by
  -- The allowance left over still covers what is left.
  have shorter := advances.length_drop_lt some_
  unfold pieces
  cases data with
  | nil => exact absurd rfl some_
  | cons x xs =>
    have enough : ((x :: xs).drop (cut (x :: xs))).length ≤ xs.length := by
      rw [List.length_cons] at shorter
      omega
    rw [List.length_cons, piecesUpTo, piecesUpTo_eq advances enough (Nat.le_refl _)]

/--
What holds of nothing, and of a list once it holds behind the first piece, holds of every list.
-/
theorem pieces_induction (advances : Advances cut) {P : List α → Prop} (nil : P [])
    (piece : ∀ data, data ≠ [] → P (data.drop (cut data)) → P data) (data : List α) : P data := by
  -- Induction on a bound of the length, since the piece cut off can have any length.
  have bounded : ∀ bound (data : List α), data.length ≤ bound → P data := by
    intro bound
    induction bound with
    | zero =>
      intro data none
      rw [List.length_eq_zero_iff.mp (Nat.le_zero.mp none)]
      exact nil
    | succ bound ih =>
      intro data short
      cases data with
      | nil => exact nil
      | cons x xs =>
        have shorter := advances.length_drop_lt (List.cons_ne_nil x xs)
        exact piece _ (List.cons_ne_nil x xs) (ih _ (by omega))
  exact bounded data.length data (Nat.le_refl _)

/-- The pieces put together are the list. -/
theorem flatten_pieces (advances : Advances cut) (data : List α) :
    (pieces cut data).flatten = data := by
  induction data using pieces_induction advances with
  | nil => rfl
  | piece data some_ ih =>
    rw [pieces_of_ne_nil advances some_, List.flatten_cons, ih, List.take_append_drop]

/-- Every piece is a part that the rule cut off something left of the list. -/
theorem mem_pieces (advances : Advances cut) {piece : List α} (member : piece ∈ pieces cut data) :
    ∃ left, left ≠ [] ∧ piece = left.take (cut left) := by
  -- Induction over the cuts: a piece is the first cut of what is left when it is taken.
  induction data using pieces_induction advances with
  | nil => cases member
  | piece data some_ ih =>
    rw [pieces_of_ne_nil advances some_] at member
    rcases List.mem_cons.mp member with rfl | later
    · exact ⟨data, some_, rfl⟩
    · exact ih later

/-- No piece is empty. -/
theorem ne_nil_of_mem_pieces (advances : Advances cut) {piece : List α}
    (member : piece ∈ pieces cut data) :
    piece ≠ [] := by
  -- A piece is cut from data that is left, and a cut takes something of it.
  obtain ⟨left, some_, rfl⟩ := mem_pieces advances member
  have cutOff := advances left some_
  have long := List.length_pos_iff.mpr some_
  apply List.ne_nil_of_length_pos
  rw [List.length_take]
  omega

/-- Every piece but the last leaves something behind it. -/
theorem mem_dropLast_pieces (advances : Advances cut) {piece : List α}
    (member : piece ∈ (pieces cut data).dropLast) :
    ∃ left : List α, left.drop (cut left) ≠ [] ∧ piece = left.take (cut left) := by
  -- Every piece but the last is cut off with data left behind it.
  induction data using pieces_induction advances with
  | nil => cases member
  | piece data some_ ih =>
    rw [pieces_of_ne_nil advances some_] at member
    by_cases last : data.drop (cut data) = []
    · -- The only piece is the last one.
      rw [last, pieces_nil] at member
      cases member
    · rw [List.dropLast_cons_of_ne_nil
        (by rw [pieces_of_ne_nil advances last]; exact List.cons_ne_nil _ _)] at member
      rcases List.mem_cons.mp member with rfl | later
      · exact ⟨data, last, rfl⟩
      · exact ih later

/-- Taking one piece after the other comes to an end, and gives all of them. -/
theorem yields_pieces (advances : Advances cut) {next : List α → Option (List α × List α)}
    (ends : next [] = none) (cuts : ∀ data, data ≠ [] →
      next data = some (data.take (cut data), data.drop (cut data))) (data : List α) :
    Yields next data (pieces cut data) := by
  -- Induction over the cuts: an iterator that makes the same cuts yields the same pieces.
  induction data using pieces_induction advances with
  | nil => exact .done ends
  | piece data some_ ih =>
    rw [pieces_of_ne_nil advances some_]
    exact .more (cuts data some_) ih

end NasTools
