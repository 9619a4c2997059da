import Mathlib

/-!
Fallible procedures as guard sequences, and loops as folds: what each success and
each step says of the whole.
-/

namespace NasTools

universe u v w

variable {E : Type u} {F : Type w} {A B : Type v}

/-- A guard: go on when the condition holds, fail with the error otherwise. -/
def ensure (condition : Prop) [Decidable condition] (e : E) : Except E Unit :=
  if condition then .ok () else .error e

/-- The value of an option, or an error in its place. -/
def okOr (x : Option A) (e : E) : Except E A :=
  match x with
  | some a => .ok a
  | none => .error e

section

variable {condition : Prop} [Decidable condition]

/-- A guard passes exactly when its condition holds. -/
@[simp] theorem ensure_eq_ok {e : E} {u : Unit} : ensure condition e = .ok u ↔ condition := by
  unfold ensure
  split <;> simp_all

/-- A guard that passes can be dropped. -/
@[simp] theorem ensure_of {e : E} (holds : condition) : ensure condition e = .ok () := if_pos holds

/-- A guard that fails reports its own error. -/
@[simp] theorem ensure_of_not {e : E} (fails : ¬condition) : ensure condition e = .error e :=
  if_neg fails

end

/-- An option gives its value or the error. -/
@[simp] theorem okOr_eq_ok {x : Option A} {e : E} {a : A} : okOr x e = .ok a ↔ x = some a := by
  cases x <;> simp [okOr]

/-- A value that is there becomes a success. -/
@[simp] theorem okOr_some {e : E} {a : A} : okOr (some a) e = .ok a := rfl

/-- A missing value becomes the error given for it. -/
@[simp] theorem okOr_none {e : E} : okOr (none : Option A) e = .error e := rfl

/-- A sequence succeeds exactly when each step succeeds in turn. -/
@[simp] theorem except_bind_eq_ok {x : Except E A} {f : A → Except E B} {b : B} :
    (x >>= f) = .ok b ↔ ∃ a, x = .ok a ∧ f a = .ok b := by
  cases x <;> simp [Bind.bind, Except.bind]

/-- After a success the computation goes on with its value. -/
@[simp] theorem except_ok_bind {a : A} {f : A → Except E B} : (Except.ok a >>= f) = f a := rfl

/-- After an error the rest is not run. -/
@[simp] theorem except_error_bind {e : E} {f : A → Except E B} :
    (Except.error e >>= f : Except E B) = .error e := rfl

/-- A plain value is a success. -/
@[simp] theorem except_pure_eq {a : A} : (pure a : Except E A) = .ok a := rfl

/-- Renaming the error changes no success. -/
@[simp] theorem except_mapError_eq_ok {x : Except E A} {f : E → F} {a : A} :
    x.mapError f = .ok a ↔ x = .ok a := by
  cases x <;> simp [Except.mapError]

/-- A success has no error to rename. -/
@[simp] theorem except_mapError_ok {f : E → F} {a : A} :
    (Except.ok a : Except E A).mapError f = .ok a := rfl

/-- An error is renamed. -/
@[simp] theorem except_mapError_error {f : E → F} {e : E} :
    (Except.error e : Except E A).mapError f = .error (f e) := rfl

/-- Changing the value changes that of a success. -/
theorem except_map_eq_ok {E : Type u} {A B : Type v} {x : Except E A} {f : A → B} {b : B} :
    x.map f = .ok b ↔ ∃ a, x = .ok a ∧ f a = b := by
  cases x <;> simp [Except.map]

/-- Changing the value changes nothing about whether there is one. -/
@[simp] theorem isOk_map {E : Type u} {A B : Type v} (x : Except E A) (f : A → B) :
    (x.map f).isOk = x.isOk := by
  cases x <;> rfl

/-- Checks made on every element of a list pass together exactly when each one does. -/
@[simp] theorem forM_eq_ok {E A : Type} {check : A → Except E Unit} {items : List A} {u : Unit} :
    items.forM check = .ok u ↔ ∀ item ∈ items, check item = .ok () := by
  -- Induction over the items: the first is checked, and then the rest.
  induction items with
  | nil => exact ⟨fun _ _ member => (List.not_mem_nil member).elim, fun _ => rfl⟩
  | cons first rest ih =>
    rw [List.forall_mem_cons, ← ih]
    show (check first >>= fun _ => rest.forM check) = .ok u ↔ _
    rw [except_bind_eq_ok]
    exact ⟨fun ⟨_, here, later⟩ => ⟨here, later⟩, fun ⟨here, later⟩ => ⟨(), here, later⟩⟩

/-- A result that is there is the one that was computed. -/
theorem except_toOption_eq_some {E A : Type} {x : Except E A} {a : A} :
    x.toOption = some a ↔ x = .ok a := by
  cases x <;> simp [Except.toOption]

/-- What is left of a result is its value, if it has one. -/
theorem except_mem_toOption {E A : Type} {x : Except E A} {a : A} : a ∈ x.toOption ↔ x = .ok a :=
  except_toOption_eq_some

/-- A list whose elements can all be converted is converted. -/
theorem mapM_ok {E A B : Type} {f : A → Except E B} {items : List A}
    (each : ∀ a ∈ items, ∃ b, f a = .ok b) :
    ∃ out, items.mapM f = .ok out := by
  -- Each item converts, so each step of the traversal goes on.
  induction items with
  | nil => exact ⟨[], rfl⟩
  | cons first rest ih =>
    obtain ⟨b, here⟩ := each first (by simp)
    obtain ⟨out, later⟩ := ih fun a member => each a (by simp [member])
    exact ⟨b :: out, by simp [here, later]⟩

/-- Every element of a list that was converted was. -/
theorem exists_of_mapM {E A B : Type} {f : A → Except E B} {items : List A} {out : List B}
    (converted : items.mapM f = .ok out) : ∀ a ∈ items, ∃ b, f a = .ok b := by
  -- The traversal stops at the first failure, so every item it passed converts.
  induction items generalizing out with
  | nil => exact fun _ member => nomatch member
  | cons first rest ih =>
    simp only [List.mapM_cons, except_bind_eq_ok, except_pure_eq, Except.ok.injEq] at converted
    obtain ⟨c, here, others, later, rfl⟩ := converted
    intro a member
    rcases List.mem_cons.mp member with rfl | inRest
    · exact ⟨c, here⟩
    · exact ih later a inRest

/-- What a list was converted to is what its elements were converted to. -/
theorem mem_mapM {E A B : Type} {f : A → Except E B} {items : List A} {out : List B}
    (converted : items.mapM f = .ok out) (b : B) : b ∈ out ↔ ∃ a ∈ items, f a = .ok b := by
  -- The outputs are the conversions of the items, in order.
  induction items generalizing out with
  | nil =>
    obtain rfl : [] = out := by simpa using converted
    simp
  | cons first rest ih =>
    simp only [List.mapM_cons, except_bind_eq_ok, except_pure_eq, Except.ok.injEq] at converted
    obtain ⟨c, here, others, later, rfl⟩ := converted
    simp only [List.mem_cons, exists_eq_or_imp, here, Except.ok.injEq, ih later]
    exact or_congr_left eq_comm

/-- What every step of a fold keeps holds of what the fold comes to. -/
theorem foldlM_keeps {E S A : Type} {P : S → Prop} {step : S → A → Except E S}
    {items : List A} {s s' : S} (start : P s) (keeps : ∀ s a s', P s → step s a = .ok s' → P s')
    (folded : items.foldlM step s = .ok s') : P s' := by
  -- Induction over the items, with the state of the fold kept general.
  induction items generalizing s with
  | nil =>
    cases folded
    exact start
  | cons first rest ih =>
    rw [List.foldlM_cons, except_bind_eq_ok] at folded
    obtain ⟨t, here, later⟩ := folded
    exact ih (keeps s first t start here) later

section

variable {A : Type u} {S : Type v} {f : S → A → S}

/-- What every step keeps, the loop keeps. -/
theorem foldl_keeps {P : S → Prop} {items : List A} (kept : ∀ s, ∀ a ∈ items, P s → P (f s a)) :
    ∀ s, P s → P (items.foldl f s) := by
  -- Each element moves the accumulator, so it stays quantified over.
  induction items with
  | nil => exact fun s start => start
  | cons a rest ih =>
    intro s start
    have here : P (f s a) := kept s a (by simp) start
    exact ih (fun s b member => kept s b (by simp [member])) (f s a) here

/-- What one element achieves, and no step undoes, holds at the end of the loop. -/
theorem foldl_achieves {P : S → Prop} {items : List A} {a : A} (member : a ∈ items)
    (achieved : ∀ s, P (f s a)) (kept : ∀ s b, P s → P (f s b)) (s : S) : P (items.foldl f s) := by
  -- The loop is cut at the element: before it nothing is known, after it everything is kept.
  obtain ⟨before, after, rfl⟩ := List.append_of_mem member
  rw [List.foldl_append, List.foldl_cons]
  exact foldl_keeps (fun s b _ holds => kept s b holds) _ (achieved _)

end

end NasTools
