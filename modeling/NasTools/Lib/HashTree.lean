import Mathlib

/-!
Hash trees built level by level, where equal digests reveal equal trees or a
collision among their own inputs.
-/

namespace NasTools

/-- The level above: neighbours are joined, and an odd node at the end is promoted. -/
def pairUp {N : Type} (join : N → N → N) : List N → List N
  | l :: r :: rest => join l r :: pairUp join rest
  | rest => rest

/-- Levels until one node is left, at most so many of them. -/
def buildUp {N : Type} (join : N → N → N) : (rounds : Nat) → List N → List N
  | 0, level => level
  | rounds + 1, level => if 1 < level.length then buildUp join rounds (pairUp join level) else level

section

variable {N N' : Type} {join : N → N → N} {join' : N' → N' → N'} {f : N → N'}

/-- Half of the nodes are left on the level above, rounded up. -/
@[simp] theorem length_pairUp (join : N → N → N) (level : List N) :
    (pairUp join level).length = (level.length + 1) / 2 := by
  -- Two nodes go at a time, and the last one alone stays as it is.
  induction level using pairUp.induct with
  | case1 l r rest ih =>
    simp only [pairUp, List.length_cons, ih]
    omega
  | case2 level few =>
    match level, few with
    | [], _ => simp [pairUp]
    | [_], _ => simp [pairUp]
    | l :: r :: rest, few => exact (few l r rest rfl).elim

/-- Joining neighbours goes along with a map that goes along with the join. -/
theorem map_pairUp (along : ∀ l r, f (join l r) = join' (f l) (f r)) (level : List N) :
    (pairUp join level).map f = pairUp join' (level.map f) := by
  -- Two neighbours at a time, as the pairing goes.
  induction level using pairUp.induct with
  | case1 l r rest ih => simp only [pairUp, List.map_cons, along, ih]
  | case2 level few =>
    match level, few with
    | [], _ => simp [pairUp]
    | [_], _ => simp [pairUp]
    | l :: r :: rest, few => exact (few l r rest rfl).elim

/-- So does building all levels. -/
theorem map_buildUp (along : ∀ l r, f (join l r) = join' (f l) (f r)) (rounds : Nat)
    (level : List N) :
    (buildUp join rounds level).map f = buildUp join' rounds (level.map f) := by
  -- The rounds go on while there is more than one node, and mapping changes no length.
  induction rounds generalizing level with
  | zero => rfl
  | succ rounds ih =>
    unfold buildUp
    rw [List.length_map]
    split
    · rw [ih, map_pairUp along]
    · rfl

/-- A round for each node is enough to come down to a single one. -/
theorem buildUp_eq_singleton {rounds : Nat} {level : List N} (some_ : level ≠ [])
    (enough : level.length ≤ rounds) :
    ∃ top, buildUp join rounds level = [top] := by
  -- Each round leaves fewer nodes, and never none.
  have long := List.length_pos_iff.mpr some_
  induction rounds generalizing level with
  | zero => omega
  | succ rounds ih =>
    unfold buildUp
    split
    · -- The level above has fewer nodes, and at least one.
      have above := length_pairUp join level
      exact ih (List.ne_nil_of_length_pos (by omega)) (by omega) (by omega)
    · exact List.length_eq_one_iff.mp (by omega)

end

/-- A binary tree of hash computations, with what is hashed at its leaves. -/
inductive HashTree (A : Type) where
  | leaf (a : A)
  | fork (left right : HashTree A)
deriving DecidableEq

/--
How leaves and forks are hashed: each has an input of its own, and no input is one of both kinds.
-/
structure Hashing (A M D : Type) where
  hash : M → D
  leaf : A → M
  node : D → D → M
  leaf_injective : Function.Injective leaf
  node_injective : ∀ l r l' r', node l r = node l' r' → l = l' ∧ r = r'
  apart : ∀ a l r, leaf a ≠ node l r

namespace HashTree

variable {A M D : Type}

/-- The leaves from left to right. -/
def leaves : HashTree A → List A
  | leaf a => [a]
  | fork left right => left.leaves ++ right.leaves

/-- The hash at the top. -/
def digest (h : Hashing A M D) : HashTree A → D
  | leaf a => h.hash (h.leaf a)
  | fork left right => h.hash (h.node (left.digest h) (right.digest h))

/-- What is hashed anywhere in a tree. -/
def inputs (h : Hashing A M D) : HashTree A → List M
  | leaf a => [h.leaf a]
  | fork left right => h.node (left.digest h) (right.digest h) :: (left.inputs h ++ right.inputs h)

/-- What is hashed at the top. -/
def top (h : Hashing A M D) : HashTree A → M
  | leaf a => h.leaf a
  | fork left right => h.node (left.digest h) (right.digest h)

/-- A tree's digest is the hash of what stands at its top. -/
theorem digest_eq (h : Hashing A M D) (tree : HashTree A) :
    tree.digest h = h.hash (tree.top h) := by
  cases tree <;> rfl

/-- What stands at the top is one of the tree's hash inputs. -/
theorem top_mem (h : Hashing A M D) (tree : HashTree A) : tree.top h ∈ tree.inputs h := by
  cases tree <;> exact List.mem_cons_self

/-- Equal digests have equal trees, where no two inputs of these trees collide. -/
theorem eq_of_digest {h : Hashing A M D} {tree other : HashTree A}
    (distinct : Set.InjOn h.hash {m | m ∈ tree.inputs h ∨ m ∈ other.inputs h})
    (same : tree.digest h = other.digest h) : tree = other := by
  -- Induction over the tree, comparing what is hashed at the top.
  induction tree generalizing other with
  | leaf a =>
    rw [digest_eq, digest_eq] at same
    have inputs := distinct (.inl (top_mem h _)) (.inr (top_mem h _)) same
    cases other with
    | leaf b => rw [h.leaf_injective inputs]
    | fork left right => exact (h.apart _ _ _ inputs).elim
  | fork left right ihLeft ihRight =>
    rw [digest_eq, digest_eq] at same
    have inputs := distinct (.inl (top_mem h _)) (.inr (top_mem h _)) same
    cases other with
    | leaf b => exact (h.apart _ _ _ inputs.symm).elim
    | fork left' right' =>
      -- Both digests below agree, and the inputs below are inputs of the whole.
      obtain ⟨sameLeft, sameRight⟩ := h.node_injective _ _ _ _ inputs
      have below {sub sub' : HashTree A}
        (within : ∀ m ∈ sub.inputs h, m ∈ (fork left right).inputs h)
          (within' : ∀ m ∈ sub'.inputs h, m ∈ (fork left' right').inputs h) :
          Set.InjOn h.hash {m | m ∈ sub.inputs h ∨ m ∈ sub'.inputs h} :=
        distinct.mono fun m either => either.imp (within m) (within' m)
      rw [ihLeft (below (by simp +contextual [HashTree.inputs])
        (by simp +contextual [HashTree.inputs])) sameLeft,
        ihRight (below (by simp +contextual [HashTree.inputs])
          (by simp +contextual [HashTree.inputs])) sameRight]

/-- The level above has the same leaves. -/
theorem leaves_pairUp (level : List (HashTree A)) :
    (pairUp fork level).flatMap leaves = level.flatMap leaves := by
  -- Pairing neighbours keeps them in order; an odd one at the end is kept as it is.
  induction level using pairUp.induct with
  | case1 l r rest ih => simp only [pairUp, List.flatMap_cons, leaves, ih, List.append_assoc]
  | case2 level few =>
    match level, few with
    | [], _ => simp [pairUp]
    | [_], _ => simp [pairUp]
    | l :: r :: rest, few => exact (few l r rest rfl).elim

/-- All levels have the same leaves. -/
theorem leaves_buildUp (rounds : Nat) (level : List (HashTree A)) :
    (buildUp fork rounds level).flatMap leaves = level.flatMap leaves := by
  -- A round keeps the leaves and their order, so all rounds do.
  induction rounds generalizing level with
  | zero => rfl
  | succ rounds ih =>
    unfold buildUp
    split
    · rw [ih, leaves_pairUp]
    · rfl

/-- The tree over some leaves, if there are any. -/
def ofLeaves (items : List A) : Option (HashTree A) :=
  (buildUp fork items.length (items.map leaf)).head?

/-- A tree over some leaves has just these leaves. -/
theorem leaves_of_ofLeaves {items : List A} {tree : HashTree A} (is : ofLeaves items = some tree) :
    tree.leaves = items := by
  -- Building up the levels keeps the leaves, and what is left of them is one tree.
  have some_ : items.map leaf ≠ [] := by
    intro none
    rw [ofLeaves, none] at is
    cases items with
    | nil => cases is
    | cons a rest => cases none
  obtain ⟨single, built⟩ : ∃ top, buildUp fork items.length (items.map leaf) = [top] :=
    buildUp_eq_singleton some_ (Nat.le_of_eq (List.length_map _))
  rw [ofLeaves, built] at is
  obtain rfl := Option.some.inj is
  -- Nothing was lost on the way up.
  have kept := leaves_buildUp items.length (items.map leaf)
  rw [built] at kept
  simpa [leaves, List.flatMap_map] using kept

/-- The digests of the levels are built like the levels themselves. -/
theorem digest_ofLeaves (h : Hashing A M D) (items : List A) : (ofLeaves items).map (digest h) =
    (buildUp (fun l r => h.hash (h.node l r)) items.length
      (items.map fun a => h.hash (h.leaf a))).head? := by
  -- Building the tree and then hashing is hashing while building, since digests commute with
  -- joining.
  have along : (buildUp fork items.length (items.map leaf)).map (digest h) =
      buildUp (fun l r => h.hash (h.node l r)) items.length ((items.map leaf).map (digest h)) :=
    map_buildUp (fun _ _ => rfl) _ _
  rw [ofLeaves, ← List.head?_map, along, List.map_map]
  rfl

end HashTree

end NasTools
