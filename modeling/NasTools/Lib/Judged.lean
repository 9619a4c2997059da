import NasTools.Lib.Canonical

/-! Loops that judge each element in turn: what a loop that came through says about all of them. -/

namespace NasTools

/--
A monad in which a sequence returns a value exactly when each of its steps returns one in turn.
-/
class Returning (M : Type → Type) [Monad M] : Prop where
  pure_inj : ∀ {A : Type} {a b : A}, (pure a : M A) = pure b → a = b
  bind_eq_pure : ∀ {A B : Type} {x : M A} {f : A → M B} {b : B},
    x >>= f = pure b ↔ ∃ a, x = pure a ∧ f a = pure b

instance {E : Type} : Returning (Except E) where
  pure_inj := Except.ok.inj
  bind_eq_pure := except_bind_eq_ok

instance {E : Type} : Returning (ExceptT E Option) where
  pure_inj same := Except.ok.inj (Option.some.inj same)
  bind_eq_pure := Checked.bind_eq_ok

variable {M : Type → Type} [Monad M] [LawfulMonad M] [Returning M] {A S : Type} {step : S → A → M S}
  {items : List A} {s' : S}

/--
A loop comes through exactly when each element passes after those before it.

The state is a function of what was seen so far, so what is judged is the list itself.
-/
theorem foldlM_judged_iff {state : List A → S} {Passes : List A → A → Prop}
    (judged : ∀ front a s', step (state front) a = pure s' ↔ Passes front a ∧
      s' = state (front ++ [a])) :
    items.foldlM step (state []) = pure s' ↔
      (∀ front a back, items = front ++ a :: back → Passes front a) ∧ s' = state items := by
  -- Elements are judged from the front, so the induction is from the back.
  induction items using List.reverseRecOn generalizing s' with
  | nil =>
    simp only [List.foldlM_nil, List.nil_eq, List.append_eq_nil_iff, reduceCtorEq, and_false,
      false_imp_iff, implies_true, true_and]
    exact ⟨fun same => (Returning.pure_inj same).symm, fun same => congrArg pure same.symm⟩
  | append_singleton rest last ih =>
    rw [List.foldlM_append, Returning.bind_eq_pure]
    simp only [List.foldlM_cons, List.foldlM_nil, bind_pure]
    constructor
    · intro came
      obtain ⟨s, before, here⟩ := came
      obtain ⟨earlier, rfl⟩ := ih.mp before
      obtain ⟨passed, rfl⟩ := (judged rest last s').mp here
      refine ⟨?_, rfl⟩
      intro front a back split
      rcases List.eq_nil_or_concat back with rfl | ⟨middle, end_, rfl⟩
      · -- The element is the last one.
        obtain ⟨rfl, same⟩ := List.append_inj' split rfl
        obtain rfl := List.singleton_inj.mp same
        exact passed
      · apply earlier front a middle
        rw [List.concat_eq_append, ← List.cons_append, ← List.append_assoc] at split
        exact (List.append_inj' split rfl).1
    · intro all
      obtain ⟨passes, rfl⟩ := all
      refine ⟨state rest, ih.mpr ⟨?_, rfl⟩, (judged rest last _).mpr ⟨passes rest last [] rfl, rfl⟩⟩
      intro front a back split
      exact passes front a (back ++ [last]) (by simp [split])

/-- Where each element is judged on its own, the loop comes through exactly when all are good. -/
theorem foldlM_good_iff {Good : A → Prop} {add : S → A → S}
    (judged : ∀ s a s', step s a = pure s' ↔ Good a ∧ s' = add s a) {s : S} :
    items.foldlM step s = pure s' ↔ (∀ a ∈ items, Good a) ∧ s' = items.foldl add s := by
  -- Each step's verdict depends on the item alone, so judging the whole list is judging each
  -- item.
  have each : ∀ front a s', step (front.foldl add s) a = pure s' ↔
      Good a ∧ s' = (front ++ [a]).foldl add s := by
    simp [judged]
  have whole : items.foldlM step ([].foldl add s) = pure s' ↔
      (∀ front a back, items = front ++ a :: back → Good a) ∧ s' = items.foldl add s :=
    foldlM_judged_iff each
  rw [List.foldl_nil] at whole
  rw [whole]
  refine and_congr_left fun _ => ?_
  constructor
  · intro all a member
    obtain ⟨front, back, split⟩ := List.append_of_mem member
    exact all front a back split
  · intro all front a back split
    exact all a (by simp [split])

/-- The last item of a list that starts with some item. -/
theorem getLast?_cons_eq (first : A) (rest : List A) :
    (first :: rest).getLast? = some (rest.getLastD first) := by
  rw [List.getLast?_cons, List.getLastD_eq_getLast?]

omit [LawfulMonad M] in
/--
Where only the last element is remembered, the loop comes through exactly on a chain
of good elements.

Each of them is judged by itself and against the one before, and the last one is what
is remembered in the end.
-/
theorem foldlM_linked_iff {mark : A → S} {Good : A → Prop} {Follows : A → A → Prop}
    (judged : ∀ a b s', step (mark a) b = pure s' ↔ Good b ∧ Follows a b ∧ s' = mark b) {a : A} :
    items.foldlM step (mark a) = pure s' ↔
      (∀ b ∈ items, Good b) ∧ (a :: items).IsChain Follows ∧ s' = mark (items.getLastD a) := by
  -- The loop only remembers the element before, so that element stays quantified over.
  induction items generalizing a with
  | nil =>
    simp only [List.foldlM_nil, List.not_mem_nil, false_imp_iff, implies_true,
      List.isChain_singleton, true_and, List.getLastD_nil]
    exact ⟨fun same => (Returning.pure_inj same).symm, fun same => congrArg pure same.symm⟩
  | cons b rest ih =>
    rw [List.foldlM_cons, Returning.bind_eq_pure]
    constructor
    · intro came
      obtain ⟨_, here, later⟩ := came
      obtain ⟨good, follows, rfl⟩ := (judged a b _).mp here
      obtain ⟨others, chained, rfl⟩ := ih.mp later
      refine ⟨?_, List.isChain_cons_cons.mpr ⟨follows, chained⟩, by rw [List.getLastD_cons]⟩
      intro x member
      rcases List.mem_cons.mp member with rfl | behind
      · exact good
      · exact others x behind
    · intro all
      obtain ⟨good, chained, rfl⟩ := all
      obtain ⟨follows, chained⟩ := List.isChain_cons_cons.mp chained
      refine ⟨mark b, (judged a b _).mpr ⟨good b (by simp), follows, rfl⟩, ?_⟩
      refine ih.mpr ⟨?_, chained, by rw [List.getLastD_cons]⟩
      intro x behind
      exact good x (by simp [behind])

/-- What gets no verdict and what gets one are together everything that was judged. -/
theorem judged_perm {A B K : Type} (judge : A → Option K) (f : A → B) (items : List A) :
    ((items.filter fun a => (judge a).isNone).map f ++
      (items.filterMap fun a => (judge a).map fun why => (f a, why)).map Prod.fst).Perm
        (items.map f) := by
  -- Induction over the items, each of which is kept or given a reason.
  induction items with
  | nil => rfl
  | cons a rest ih =>
    rw [List.filter_cons, List.filterMap_cons]
    cases judge a with
    | none => simpa using ih
    | some why =>
      -- An element that is kept moves past those that are not.
      simpa using List.perm_middle.trans (ih.cons (f a))

/-- Where keys are distinct, one element has the key of a given one. -/
theorem filter_key_eq_singleton {A K : Type} [DecidableEq K] {key : A → K} {items : List A}
    (distinct : (items.map key).Nodup) {a : A} (member : a ∈ items) :
    (items.filter fun b => key b = key a) = [a] := by
  -- Induction over the items: no two of them share the key.
  induction items with
  | nil => cases member
  | cons first rest ih =>
    rw [List.map_cons, List.nodup_cons] at distinct
    obtain ⟨fresh, later⟩ := distinct
    rcases List.mem_cons.mp member with rfl | there
    · -- No later element has its key.
      have none : (rest.filter fun b => key b = key a) = [] := by
        apply List.filter_eq_nil_iff.mpr
        intro b within same
        have equal : key b = key a := by simpa using same
        exact fresh (List.mem_map.mpr ⟨b, within, equal⟩)
      simp [none]
    · have other : ¬key first = key a := by
        intro same
        exact fresh (List.mem_map.mpr ⟨a, there, same.symm⟩)
      simp [other, ih later there]

end NasTools
