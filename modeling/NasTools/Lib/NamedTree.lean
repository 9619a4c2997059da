import NasTools.Lib.OrderedMap

/-!
Trees whose branches are listed by name: finding, placing and removing what a name stands for.
-/

namespace NasTools

/-- The names of one level in their order, each with a leaf or with a level of its own. -/
inductive NamedTree (N L : Type) where
  | nil
  | leaf (name : N) (value : L) (rest : NamedTree N L)
  | node (name : N) (sub rest : NamedTree N L)
deriving DecidableEq

namespace NamedTree

/-- What a name stands for. -/
inductive Item (N L : Type) where
  | leaf (value : L)
  | node (sub : NamedTree N L)
deriving DecidableEq

variable {N L : Type}

/-- The names of the first level. -/
def names : NamedTree N L → List N
  | nil => []
  | leaf name _ rest => name :: rest.names
  | node name _ rest => name :: rest.names

/-- The leaves of every level. -/
def leaves : NamedTree N L → List L
  | nil => []
  | leaf _ value rest => value :: rest.leaves
  | node _ sub rest => sub.leaves ++ rest.leaves

/-- How many levels there are. -/
def height : NamedTree N L → Nat
  | nil => 1
  | leaf _ _ rest => rest.height
  | node _ sub rest => max (sub.height + 1) rest.height

/-- List a name before others. -/
def cons (name : N) : Item N L → NamedTree N L → NamedTree N L
  | .leaf value, rest => leaf name value rest
  | .node sub, rest => node name sub rest

/-- List one level after another. -/
def append : NamedTree N L → NamedTree N L → NamedTree N L
  | nil, other => other
  | leaf name value rest, other => leaf name value (rest.append other)
  | node name sub rest, other => node name sub (rest.append other)

/-- Appending no entries changes nothing. -/
@[simp] theorem append_nil (t : NamedTree N L) : t.append nil = t := by
  induction t with
  | nil => rfl
  | leaf name value rest ih => rw [append, ih]
  | node name sub rest _ ih => rw [append, ih]

/-- Appending is associative. -/
theorem append_assoc (a b c : NamedTree N L) : (a.append b).append c = a.append (b.append c) := by
  induction a with
  | nil => rfl
  | leaf name value rest ih => simp only [append, ih]
  | node name sub rest _ ih => simp only [append, ih]

/-- The names of the first tree come first. -/
@[simp] theorem names_append (a b : NamedTree N L) : (a.append b).names = a.names ++ b.names := by
  induction a with
  | nil => rfl
  | leaf name value rest ih => simp only [append, names, ih, List.cons_append]
  | node name sub rest _ ih => simp only [append, names, ih, List.cons_append]

/-- The name of an entry in front comes first. -/
@[simp] theorem names_cons (name : N) (item : Item N L) (rest : NamedTree N L) :
    (cons name item rest).names = name :: rest.names := by
  cases item <;> rfl

/-- Every tree has a height. -/
theorem height_pos (t : NamedTree N L) : 0 < t.height := by
  induction t with
  | nil => exact Nat.one_pos
  | leaf name value rest ih => exact ih
  | node name sub rest _ ih => exact Nat.lt_of_lt_of_le ih (Nat.le_max_right _ _)

variable [Ord N]

/-- What a name of the first level stands for. -/
def find (name : N) : NamedTree N L → Option (Item N L)
  | nil => none
  | leaf other value rest => if compare name other = .eq then some (.leaf value) else rest.find name
  | node other sub rest => if compare name other = .eq then some (.node sub) else rest.find name

/-- Let a name stand for something, in place of what it stood for. -/
def put (name : N) (item : Item N L) : NamedTree N L → NamedTree N L
  | nil => cons name item nil
  | leaf other value rest =>
    match compare name other with
    | .lt => cons name item (leaf other value rest)
    | .eq => cons name item rest
    | .gt => leaf other value (rest.put name item)
  | node other sub rest =>
    match compare name other with
    | .lt => cons name item (node other sub rest)
    | .eq => cons name item rest
    | .gt => node other sub (rest.put name item)

/-- Let a name stand for nothing. -/
def erase (name : N) : NamedTree N L → NamedTree N L
  | nil => nil
  | leaf other value rest => if compare name other = .eq then rest
    else leaf other value (rest.erase name)
  | node other sub rest => if compare name other = .eq then rest
    else node other sub (rest.erase name)

/-- On every level each name is above those before it. -/
def Ordered : NamedTree N L → Prop
  | nil => True
  | leaf name _ rest => (∀ later ∈ rest.names, compare name later = .lt) ∧ rest.Ordered
  | node name sub rest => (∀ later ∈ rest.names, compare name later = .lt) ∧ sub.Ordered ∧
    rest.Ordered

instance decidableOrdered : (t : NamedTree N L) → Decidable t.Ordered
  | nil => isTrue trivial
  | leaf _ _ rest =>
    have := decidableOrdered rest
    inferInstanceAs (Decidable (_ ∧ _))
  | node _ sub rest =>
    have := decidableOrdered sub
    have := decidableOrdered rest
    inferInstanceAs (Decidable (_ ∧ _ ∧ _))

variable [Std.OrientedOrd N] {name : N} {t : NamedTree N L}

/-- A name above all others stands for nothing. -/
theorem find_above (above : ∀ lower ∈ t.names, compare lower name = .lt) : t.find name = none := by
  -- Every name of the tree is less, so the search passes all of them.
  induction t with
  | nil => rfl
  | leaf other value rest ih =>
    have apart : compare name other = .gt :=
      Std.OrientedCmp.gt_of_lt (above other (by simp [names]))
    rw [find, if_neg (by simp [apart]),
      ih fun lower member => above lower (by simp [names, member])]
  | node other sub rest _ ih =>
    have apart : compare name other = .gt :=
      Std.OrientedCmp.gt_of_lt (above other (by simp [names]))
    rw [find, if_neg (by simp [apart]),
      ih fun lower member => above lower (by simp [names, member])]

/-- A name above all others is listed last. -/
theorem put_above (above : ∀ lower ∈ t.names, compare lower name = .lt) (item : Item N L) :
    t.put name item = t.append (cons name item nil) := by
  -- Every name of the tree is less, so the entry is put behind all of them.
  induction t with
  | nil => rfl
  | leaf other value rest ih =>
    have apart : compare name other = .gt :=
      Std.OrientedCmp.gt_of_lt (above other (by simp [names]))
    rw [put, apart, append, ih fun lower member => above lower (by simp [names, member])]
  | node other sub rest _ ih =>
    have apart : compare name other = .gt :=
      Std.OrientedCmp.gt_of_lt (above other (by simp [names]))
    rw [put, apart, append, ih fun lower member => above lower (by simp [names, member])]

/-- A name that is put above all others stays below the names above it. -/
theorem names_put_below (above : ∀ lower ∈ t.names, compare lower name = .lt) (item : Item N L)
    {later : List N} (below : ∀ lower ∈ t.names, ∀ n ∈ later, compare lower n = .lt)
    (here : ∀ n ∈ later, compare name n = .lt) :
    ∀ lower ∈ (t.put name item).names, ∀ n ∈ later, compare lower n = .lt := by
  -- The new entry stands last, and both it and the entries before it are below what follows.
  intro lower member n listed
  rw [put_above above, names_append, names_cons, List.mem_append] at member
  rcases member with before | last
  · exact below lower before n listed
  · obtain rfl := List.mem_singleton.mp last
    exact here n listed

/-- What a name stands for is what it was last made to stand for. -/
theorem put_put (first second : Item N L) :
    (t.put name first).put name second = t.put name second := by
  -- Each entry on the way compares the same both times, and at the end the second put finds the
  -- first.
  have here (rest : NamedTree N L) :
      (cons name first rest).put name second = cons name second rest := by
    cases first <;> simp only [cons, put, Std.ReflCmp.compare_self]
  induction t with
  | nil => exact here nil
  | leaf other value rest ih =>
    cases way : compare name other <;> simp only [put, way, here, ih]
  | node other sub rest _ ih =>
    cases way : compare name other <;> simp only [put, way, here, ih]

end NamedTree

end NasTools
