import Mathlib

/-!
Arithmetic on 64-bit words that panics where it would wrap: nothing at all stands for the panic.
-/

namespace NasTools

namespace Words

/-- A sum that has to fit into a word. -/
def add? (a b : UInt64) : Option UInt64 :=
  if a.toNat + b.toNat < 2 ^ 64 then some (a + b) else none

/-- A difference that must not fall below zero. -/
def sub? (a b : UInt64) : Option UInt64 :=
  if b ≤ a then some (a - b) else none

/-- A sum is computed exactly when it fits, and it is the sum of the numbers. -/
theorem add?_eq_some_iff {a b c : UInt64} : add? a b = some c ↔ c.toNat = a.toNat + b.toNat := by
  -- The sum fits, or there is none.
  unfold add?
  have bound := c.toNat_lt
  split
  · -- There is room, so the wrapping sum is the plain one.
    rename_i room
    rw [Option.some.injEq, ← UInt64.toNat_inj, UInt64.toNat_add, Nat.mod_eq_of_lt room]
    exact eq_comm
  · -- No word is as large as a sum that does not fit.
    simp
    omega

/-- A difference is computed exactly when there is one, and it is the difference of the numbers. -/
theorem sub?_eq_some_iff {a b c : UInt64} : sub? a b = some c ↔ c.toNat + b.toNat = a.toNat := by
  -- The difference is not negative, or there is none.
  unfold sub?
  split
  · -- From something at least as large, the wrapping difference is the plain one.
    rename_i below
    rw [Option.some.injEq, ← UInt64.toNat_inj, UInt64.toNat_sub_of_le _ _ below]
    rw [UInt64.le_iff_toNat_le] at below
    omega
  · -- No word is a difference below zero.
    rename_i above
    rw [UInt64.le_iff_toNat_le] at above
    simp
    omega

/-- Words are ordered as the numbers they denote. -/
scoped instance wordOrder : LinearOrder UInt64 where
  le_refl _ := UInt64.le_refl _
  le_trans _ _ _ := UInt64.le_trans
  le_antisymm _ _ := UInt64.le_antisymm
  le_total := UInt64.le_total
  lt_iff_le_not_ge a b := by
    rw [UInt64.lt_iff_toNat_lt, UInt64.le_iff_toNat_le, UInt64.le_iff_toNat_le]
    omega
  toDecidableLE := inferInstance
  compare_eq_compareOfLessAndEq _ _ := rfl

end Words

variable {A : Type}

/-- Keep what a test picks, when the test may panic. -/
def filterChecked (test : A → Option Bool) : List A → Option (List A)
  | [] => some []
  | a :: rest => do
    let picked ← test a
    let others ← filterChecked test rest
    return if picked then a :: others else others

/-- With a test that never panics this is the plain filter. -/
theorem filterChecked_eq {test : A → Option Bool} {pick : A → Bool}
    (total : ∀ a, test a = some (pick a)) (items : List A) :
    filterChecked test items = some (items.filter pick) := by
  -- The test answers at every element, so no step of the loop is given up.
  induction items with
  | nil => rfl
  | cons a rest ih =>
    rw [filterChecked, total, ih, List.filter_cons]
    rfl

/-- There is no maximum of what a test picks exactly when it picks nothing. -/
theorem max?_filter_eq_none_iff [LinearOrder A] {pick : A → Bool} {items : List A} :
    (items.filter pick).max? = none ↔ ∀ a ∈ items, ¬pick a := by
  rw [List.max?_eq_none_iff, List.filter_eq_nil_iff]

section

variable [LinearOrder A] {items : List A} {m : A}

/-- The maximum of a list is the greatest of its members. -/
theorem max?_eq_some_iff_isGreatest : items.max? = some m ↔ IsGreatest {a | a ∈ items} m :=
  List.max?_eq_some_iff

/-- The maximum of what a test picks is the greatest member that passes it. -/
theorem max?_filter_eq_some_iff {pick : A → Bool} :
    (items.filter pick).max? = some m ↔ IsGreatest {a | a ∈ items ∧ pick a} m := by
  rw [max?_eq_some_iff_isGreatest]
  simp only [List.mem_filter]

end

end NasTools
