import Mathlib

/-!
Memo tables: what is asked again is answered from what was found before, and when
that changes no answer.
-/

namespace NasTools

/-- Answers kept by their keys, where each use of the table has its own luck. -/
structure Memo (C K V L : Type) where
  look : C → L → K → Option V × C
  keep : C → L → K → V → C
  -- What a table may answer, which is never more than was put into it.
  mayAnswer : C → K → V → Prop
  answers : ∀ {c : C} {luck : L} {k : K} {v : V}, (look c luck k).1 = some v → mayAnswer c k v
  looked : ∀ {c : C} {luck : L} {k k' : K} {v : V}, mayAnswer (look c luck k).2 k' v →
    mayAnswer c k' v
  kept : ∀ {c : C} {luck : L} {k k' : K} {v v' : V}, mayAnswer (keep c luck k v) k' v' →
    mayAnswer c k' v' ∨ k' = k ∧ v' = v

namespace Memo

variable {C K V L E : Type} {m : Memo C K V L} {c : C} {known more : List (K × V)}

/-- Ask the table first, and keep what is found where it has no answer. -/
def ask (m : Memo C K V L) (c : C) (luck : L) (k : K) (found : Except E V) : Except E V × C :=
  match m.look c luck k with
  | (some v, c) => (.ok v, c)
  | (none, c) =>
    match found with
    | .error e => (.error e, c)
    | .ok v => (.ok v, m.keep c luck k v)

/-- A table answers nothing but what is known. -/
def Within (m : Memo C K V L) (known : List (K × V)) (c : C) : Prop :=
  ∀ k v, m.mayAnswer c k v → (k, v) ∈ known

/--
What is found is what is known of its key, and becomes known in its turn, up to the first failure.
-/
def Agree : (known : List (K × V)) → (findings : List (K × Except E V)) → Prop
  | _, [] => True
  | known, (k, found) :: rest =>
    (∀ v, (k, v) ∈ known → found = .ok v) ∧ ∀ v, found = .ok v → Agree (known ++ [(k, v)]) rest

/-- What becomes known by some findings. -/
def learned : (findings : List (K × Except E V)) → List (K × V)
  | (k, .ok v) :: rest => (k, v) :: learned rest
  | _ => []

/-- A computation within fewer known answers is within more. -/
theorem Within.mono (within : m.Within known c) (fewer : known ⊆ more) : m.Within more c :=
  fun k v answer => fewer (within k v answer)

/-- Where more is known to agree, less is. -/
theorem Agree.mono {findings : List (K × Except E V)} (agree : Agree more findings)
    (fewer : known ⊆ more) :
    Agree known findings := by
  -- What was found is known on both sides from then on.
  induction findings generalizing known more with
  | nil => trivial
  | cons finding rest ih =>
    obtain ⟨here, later⟩ := agree
    refine ⟨fun v isKnown => here v (fewer isKnown), fun v is => ih (later v is) ?_⟩
    intro x member
    rcases List.mem_append.mp member with before | new
    · exact List.mem_append_left _ (fewer before)
    · exact List.mem_append_right _ new

/-- Where what is found agrees with what is known, the table answers as if there were none. -/
theorem ask_eq (within : m.Within known c) (luck : L) {k : K} {found : Except E V}
    (agrees : ∀ v, (k, v) ∈ known → found = .ok v) :
    (m.ask c luck k found).1 = found := by
  -- A question is answered by the table, or it is asked and its answer is filed.
  unfold ask
  split
  · rename_i v c' looked
    -- A hit is an answer that the table may give, so it is known.
    have hit : (m.look c luck k).1 = some v := congrArg Prod.fst looked
    exact (agrees v (within k v (m.answers hit))).symm
  · split <;> rfl

/-- After a question the table answers no more than was known before or was found. -/
theorem ask_within (within : m.Within known c) (luck : L) (k : K) (found : Except E V) :
    m.Within (known ++ learned [(k, found)]) (m.ask c luck k found).2 := by
  -- Looking up adds no answer, and keeping adds the one that was found.
  have still : m.Within known (m.look c luck k).2 := fun k' v answer =>
    within k' v (m.looked answer)
  unfold ask
  split
  · rename_i v c' looked
    rw [looked] at still
    exact still.mono (List.subset_append_left _ _)
  · rename_i c' looked
    rw [looked] at still
    split
    · exact still.mono (List.subset_append_left _ _)
    · rename_i v
      intro k' v' answer
      rcases m.kept answer with before | ⟨rfl, rfl⟩
      · exact List.mem_append_left _ (still k' v' before)
      · simp [learned]

end Memo

end NasTools
