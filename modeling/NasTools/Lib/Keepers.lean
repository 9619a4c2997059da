import Mathlib

/-!
Things held until a deadline: who still keeps what, and when a renewal keeps at least as much.
-/

namespace NasTools

universe u v

/-- Somebody who holds some things, and the last moment at which that counts. -/
structure Keeper (A : Type u) (T : Type v) where
  holds : Set A
  last : T

namespace Keeper

variable {A : Type u} {T : Type v} [LinearOrder T] {keepers more : Set (Keeper A T)}
  {a : A} {t start : T}

/-- Nobody who holds a thing counts any more. -/
def Lapsed (keepers : Set (Keeper A T)) (a : A) (t : T) : Prop :=
  ∀ k ∈ keepers, a ∈ k.holds → k.last < t

/-- What has lapsed stays lapsed. -/
theorem Lapsed.stays {later : T} (lapsed : Lapsed keepers a t) (after : t ≤ later) :
    Lapsed keepers a later :=
  fun k member holds => lt_of_lt_of_le (lapsed k member holds) after

/-- Every keeper of the first lot has one in the second that holds as much for as long. -/
def Covered (keepers more : Set (Keeper A T)) : Prop :=
  ∀ k ∈ keepers, ∃ k' ∈ more, k.holds ⊆ k'.holds ∧ k.last ≤ k'.last

/-- What has lapsed with more keepers has lapsed with fewer. -/
theorem Lapsed.of_covered (lapsed : Lapsed more a t) (covered : Covered keepers more) :
    Lapsed keepers a t := by
  -- Whoever held the thing is covered by someone who held it at least as long.
  intro k member holds
  obtain ⟨k', member', wider, longer⟩ := covered k member
  exact lt_of_le_of_lt longer (lapsed k' member' (wider holds))

/--
A renewal that holds at least as much exposes nothing new exactly when it does not end earlier, or
nothing held before is exposed on the last moment of before.

What is exposed to begin with may only grow in time, so that last moment is the worst.
-/
theorem renewal_keeps_iff (old renewed : Keeper A T) (Exposed : A → T → Prop)
    (grows : ∀ a t later, t ≤ later → Exposed a t → Exposed a later)
    (wider : old.holds ⊆ renewed.holds) (begun : start ≤ renewed.last) :
    (∀ t, start ≤ t → ∀ a, Exposed a t → (a ∈ renewed.holds → renewed.last < t) → a ∈ old.holds →
      old.last < t) ↔ (old.last ≤ renewed.last ∨ ∀ a ∈ old.holds, ¬Exposed a old.last) := by
  -- The renewal can only fail where it ends earlier, and then at the last moment of the old one.
  constructor
  · intro keeps
    by_contra fails
    obtain ⟨earlier, some⟩ := not_or.mp fails
    have earlier : renewed.last < old.last := lt_of_not_ge earlier
    -- At the last moment of before, the renewal has ended already.
    apply some
    intro a held exposed
    exact lt_irrefl _ (keeps old.last (le_trans begun earlier.le) a exposed (fun _ => earlier) held)
  · intro safe t _ a exposed lapsed held
    rcases safe with longer | covered
    · exact lt_of_le_of_lt longer (lapsed (wider held))
    · -- Were it still held at that moment, it would be exposed on the last one too.
      by_contra within
      exact covered a held (grows a t old.last (le_of_not_gt within) exposed)

end Keeper

end NasTools
