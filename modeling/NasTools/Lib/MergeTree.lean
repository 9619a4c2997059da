import NasTools.Lib.Latest

/-! Merging in any order and grouping: when the outcome depends on neither. -/

namespace NasTools

/-- An order and a grouping in which some things are merged. -/
inductive MergeTree (α : Type) where
  | one (item : α)
  | join (left right : MergeTree α)

namespace MergeTree

variable {α : Type}

/-- The things that are merged, from left to right. -/
def leaves : MergeTree α → List α
  | one item => [item]
  | join left right => left.leaves ++ right.leaves

/-- What comes of merging them. -/
def eval (merge : α → α → α) : MergeTree α → α
  | one item => item
  | join left right => merge (left.eval merge) (right.eval merge)

/-- Things merged one after the other into the first. -/
def chain (first : MergeTree α) (rest : List α) : MergeTree α :=
  rest.foldl (fun tree item => join tree (one item)) first

/-- A chain has its first item and then the rest. -/
theorem leaves_chain (first : MergeTree α) (rest : List α) :
    (chain first rest).leaves = first.leaves ++ rest := by
  -- What was merged so far is the first of what is left, so it stays general.
  induction rest generalizing first with
  | nil => simp [chain]
  | cons item rest ih =>
    show (chain (join first (one item)) rest).leaves = _
    rw [ih, leaves, leaves, List.append_assoc]
    rfl

/-- Evaluating a chain is folding the merge from its first item. -/
theorem eval_chain (merge : α → α → α) (first : MergeTree α) (rest : List α) :
    (chain first rest).eval merge = rest.foldl merge (first.eval merge) := by
  induction rest generalizing first with
  | nil => rfl
  | cons item rest ih => exact ih (join first (one item))

/-- The same order and grouping of other things. -/
def map {β : Type} (f : α → β) : MergeTree α → MergeTree β
  | one item => one (f item)
  | join left right => join (left.map f) (right.map f)

/-- Mapping a tree maps its items in place. -/
@[simp] theorem leaves_map {β : Type} (f : α → β) (tree : MergeTree α) :
    (tree.map f).leaves = tree.leaves.map f := by
  induction tree with
  | one item => rfl
  | join left right ihLeft ihRight => simp [map, leaves, ihLeft, ihRight]

/-- A map that commutes with merging commutes with evaluating. -/
theorem eval_map {β : Type} {f : α → β} {merge : α → α → α} {merge' : β → β → β}
    (commutes : ∀ a b, f (merge a b) = merge' (f a) (f b)) (tree : MergeTree α) :
    (tree.map f).eval merge' = f (tree.eval merge) := by
  induction tree with
  | one item => rfl
  | join left right ihLeft ihRight => rw [map, eval, eval, ihLeft, ihRight, commutes]

end MergeTree

namespace Latest

variable {K V : Type} [Ord K] [Std.TransOrd K] [Std.LawfulEqOrd K] {beats : V → V → Bool}

/-- Merging a map with itself changes nothing. -/
theorem merge_self (irrefl : ∀ x, beats x x = false) (a : OrdMap K V) : merge beats a a = a := by
  -- Under each key a value does not beat itself.
  apply Std.ExtTreeMap.ext_getElem?
  intro key
  rw [getElem?_merge]
  cases held : a[key]? with
  | none => rfl
  | some x => simp [winner, irrefl]

/--
Two maps merge to the same in both orders exactly where entries that beat neither way are the same.
-/
theorem merge_comm_iff (asymm : ∀ x y, beats x y → beats y x = false) {a b : OrdMap K V} :
    merge beats a b = merge beats b a ↔
      ∀ (key : K) x y, a[key]? = some x → b[key]? = some y → beats x y = false →
        beats y x = false → x = y := by
  -- The two merges agree under every key, or two unbeaten entries differ.
  constructor
  · intro same key x y inA inB first second
    -- Read at this key, each order keeps the entry it met first.
    have here := congrArg (·[key]?) same
    simp only [getElem?_merge, inA, inB, winner, first, second, Bool.false_eq_true,
      if_false] at here
    exact Option.some.inj here
  · intro agree
    apply Std.ExtTreeMap.ext_getElem?
    intro key
    rw [getElem?_merge, getElem?_merge]
    -- Only where both maps have an entry does the order matter.
    cases inA : a[key]? with
    | none => cases b[key]? <;> rfl
    | some x =>
      cases inB : b[key]? with
      | none => rfl
      | some y =>
        simp only [winner]
        cases first : beats x y with
        | true => simp [asymm x y first]
        | false =>
          cases second : beats y x with
          | true => simp
          | false => simp [agree key x y inA inB first second]

section

variable (chain : ∀ a b c, beats a b → beats b c → beats a c)
    (weak : ∀ a b c, beats a c → beats a b ∨ beats b c)
include chain weak

/-- Of three versions the same one wins, whichever two are compared first. -/
theorem winner_assoc (first second third : Option V) :
    winner beats (winner beats first second) third =
      winner beats first (winner beats second third) := by
  -- Only with three versions is there something to show.
  cases first with
  | none => rfl
  | some x =>
    cases second with
    | none => rfl
    | some y =>
      cases third with
      | none => rfl
      | some z =>
        simp only [winner]
        -- With three versions, four cases: who beats the first, and who beats the second.
        by_cases yx : beats y x
        · by_cases zy : beats z y
          · simp [yx, zy, chain z y x zy yx]
          · simp [yx, zy]
        · by_cases zy : beats z y
          · simp [yx, zy]
          · -- What does not beat the second, which does not beat the first, does not beat the
            -- first.
            have zx : beats z x = false := by
              cases wins : beats z x with
              | false => rfl
              | true => rcases weak z y x wins with one | other <;> contradiction
            simp [yx, zy, zx]

/-- Merging is associative where not beating is transitive. -/
theorem merge_assoc (a b c : OrdMap K V) :
    merge beats (merge beats a b) c = merge beats a (merge beats b c) := by
  apply Std.ExtTreeMap.ext_getElem?
  intro key
  simp only [getElem?_merge, winner_assoc chain weak]

end

variable (beats) in
/-- An entry of a key that no other one beats. -/
def Newest (maps : List (OrdMap K V)) (key : K) (x : V) : Prop :=
  (∃ m ∈ maps, m[key]? = some x) ∧ ∀ m ∈ maps, ∀ y, m[key]? = some y → beats y x = false

omit [Std.LawfulEqOrd K] in
/-- What nothing on the right beats either is still a newest entry. -/
theorem Newest.append_left {left right : List (OrdMap K V)} {key : K} {x : V}
    (newest : Newest beats left key x) (best : ∀ m ∈ right, ∀ y, m[key]? = some y →
      beats y x = false) : Newest beats (left ++ right) key x := by
  -- The newest of the left part wins if nothing on the right beats it.
  obtain ⟨⟨m, member, found⟩, bestLeft⟩ := newest
  refine ⟨⟨m, List.mem_append_left _ member, found⟩, ?_⟩
  intro other inside y held
  rcases List.mem_append.mp inside with here | there
  · exact bestLeft other here y held
  · exact best other there y held

omit [Std.LawfulEqOrd K] in
/-- What nothing on the left beats either is still a newest entry. -/
theorem Newest.append_right {left right : List (OrdMap K V)} {key : K} {x : V}
    (newest : Newest beats right key x) (best : ∀ m ∈ left, ∀ y, m[key]? = some y →
      beats y x = false) : Newest beats (left ++ right) key x := by
  -- The newest of the right part wins if nothing on the left beats it.
  obtain ⟨⟨m, member, found⟩, bestRight⟩ := newest
  refine ⟨⟨m, List.mem_append_right _ member, found⟩, ?_⟩
  intro other inside y held
  rcases List.mem_append.mp inside with here | there
  · exact best other here y held
  · exact bestRight other there y held

omit [Std.LawfulEqOrd K] in
/-- Where there is no entry, none beats another. -/
theorem unbeaten_of_none {maps : List (OrdMap K V)} {key : K} (absent : ∀ m ∈ maps, m[key]? = none)
    (x : V) :
    ∀ m ∈ maps, ∀ y, m[key]? = some y → beats y x = false := by
  intro m member y found
  rw [absent m member] at found
  cases found

section

variable (irrefl : ∀ x, beats x x = false) (chain : ∀ a b c, beats a b → beats b c → beats a c)
  (weak : ∀ a b c, beats a c → beats a b ∨ beats b c)

include irrefl chain weak in
/-- What is left under a key is a newest entry of it, or there was none. -/
theorem newest_of_eval (tree : MergeTree (OrdMap K V)) (key : K) :
    (∀ m ∈ tree.leaves, m[key]? = none) ∧ (tree.eval (merge beats))[key]? = none ∨
      ∃ x, (tree.eval (merge beats))[key]? = some x ∧ Newest beats tree.leaves key x := by
  -- Induction over the tree: the winner of two newest entries is the newest.
  induction tree with
  -- A single map has one entry under a key, and no entry beats itself.
  | one m =>
    cases held : m[key]? with
    | none => exact .inl ⟨by simpa [MergeTree.leaves] using held, held⟩
    | some x =>
      refine .inr ⟨x, held, ⟨m, by simp [MergeTree.leaves], held⟩, ?_⟩
      intro other member y found
      obtain rfl : other = m := by simpa [MergeTree.leaves] using member
      rw [held, Option.some.injEq] at found
      rw [← found]
      exact irrefl x
  | join left right ihLeft ihRight =>
    simp only [MergeTree.leaves, MergeTree.eval, getElem?_merge]
    rcases ihLeft with ⟨noneLeft, left_⟩ | ⟨x, left_, newestLeft⟩
    · rcases ihRight with ⟨noneRight, right_⟩ | ⟨y, right_, newestRight⟩
      · refine .inl ⟨?_, by rw [left_, right_]; rfl⟩
        intro m member
        rcases List.mem_append.mp member with here | here
        · exact noneLeft m here
        · exact noneRight m here
      · exact .inr
          ⟨y, by rw [left_, right_]; rfl, newestRight.append_right (unbeaten_of_none noneLeft y)⟩
    · rcases ihRight with ⟨noneRight, right_⟩ | ⟨y, right_, newestRight⟩
      · exact .inr
          ⟨x, by rw [left_, right_]; rfl, newestLeft.append_left (unbeaten_of_none noneRight x)⟩
      · rw [left_, right_]
        -- Both sides have an entry, and the one that wins is unbeaten on the other side as well.
        by_cases wins : beats y x
        · refine .inr ⟨y, by simp [winner, wins], newestRight.append_right ?_⟩
          intro m member z found
          cases again : beats z y with
          | false => rfl
          | true =>
            -- What beat the right winner would beat the left one too.
            have lost := newestLeft.2 m member z found
            rw [chain z y x again wins] at lost
            exact lost
        · refine .inr ⟨x, by simp [winner, wins], newestLeft.append_left ?_⟩
          intro m member z found
          cases again : beats z x with
          | false => rfl
          | true =>
            -- What beats the left winner beats the right one, or the right one beats the left.
            rcases weak z y x again with one | other
            · rw [newestRight.2 m member z found] at one
              cases one
            · exact absurd other wins

/-- An entry that nothing beats stands where it comes first. -/
theorem foldl_merge_first {maps : List (OrdMap K V)} {base : OrdMap K V} {key : K} {x : V}
    (held : base[key]? = some x) (best : ∀ m ∈ maps, ∀ y, m[key]? = some y → beats y x = false) :
    (maps.foldl (merge beats) base)[key]? = some x := by
  -- Induction over the maps, none of which beats the entry.
  induction maps generalizing base with
  | nil => exact held
  | cons m rest ih =>
    refine ih ?_ fun other member => best other (by simp [member])
    -- The next map does not beat the entry, so the merge keeps it.
    rw [getElem?_merge, held]
    cases found : m[key]? with
    | none => rfl
    | some y => simp [winner, best m (by simp) y found]

/-- Every order and grouping of the same maps comes to the same. -/
def Converges (beats : V → V → Bool) (maps : List (OrdMap K V)) : Prop :=
  ∀ t u : MergeTree (OrdMap K V), (∀ m, m ∈ t.leaves ↔ m ∈ maps) → (∀ m, m ∈ u.leaves ↔ m ∈ maps) →
    t.eval (merge beats) = u.eval (merge beats)

include irrefl chain weak in
/-- Order and grouping make no difference exactly where every key has one newest entry. -/
theorem converges_iff {maps : List (OrdMap K V)} :
    Converges beats maps ↔ ∀ key x y, Newest beats maps key x →
      Newest beats maps key y → x = y := by
  -- Two orders show two newest entries, and where there is one only, every merge has it.
  constructor
  · intro same key x y first second
    obtain ⟨⟨m, inMaps, foundX⟩, bestX⟩ := first
    obtain ⟨⟨m', inMaps', foundY⟩, bestY⟩ := second
    -- One order starts with the first, and the other with the second.
    have covers {start : OrdMap K V} (member : start ∈ maps) (other : OrdMap K V) :
        other ∈ (MergeTree.chain (.one start) maps).leaves ↔ other ∈ maps := by
      rw [MergeTree.leaves_chain, MergeTree.leaves, List.singleton_append, List.mem_cons]
      exact ⟨fun either => either.elim (fun is => is ▸ member) id, .inr⟩
    have equal := same _ _ (covers inMaps) (covers inMaps')
    rw [MergeTree.eval_chain, MergeTree.eval_chain] at equal
    have here := congrArg (·[key]?) equal
    simp only [MergeTree.eval, foldl_merge_first foundX bestX,
      foldl_merge_first foundY bestY] at here
    exact Option.some.inj here
  · intro one t u coversT coversU
    -- A merge of exactly these maps has the newest entries they have.
    have transfer {tree : MergeTree (OrdMap K V)} (covers : ∀ m, m ∈ tree.leaves ↔ m ∈ maps)
      {key : K} {x : V}
        (newest : Newest beats tree.leaves key x) : Newest beats maps key x := by
      obtain ⟨⟨m, member, found⟩, best⟩ := newest
      exact ⟨⟨m, (covers m).mp member, found⟩,
        fun other inMaps => best other ((covers other).mpr inMaps)⟩
    apply Std.ExtTreeMap.ext_getElem?
    intro key
    -- Under each key both merges have nothing, or each has a newest entry, and there is one.
    rcases newest_of_eval irrefl chain weak t key with ⟨noneT, evalT⟩ | ⟨x, evalT, newestT⟩
    · rcases newest_of_eval irrefl chain weak u key
        with ⟨_, evalU⟩ | ⟨y, _, ⟨⟨m, member, found⟩, _⟩⟩
      · rw [evalT, evalU]
      · rw [noneT m ((coversT m).mpr ((coversU m).mp member))] at found
        cases found
    · rcases newest_of_eval irrefl chain weak u key with ⟨noneU, _⟩ | ⟨y, evalU, newestU⟩
      · obtain ⟨⟨m, member, found⟩, _⟩ := newestT
        rw [noneU m ((coversU m).mpr ((coversT m).mp member))] at found
        cases found
      · rw [evalT, evalU, one key x y (transfer coversT newestT) (transfer coversU newestU)]

end

end Latest

end NasTools
