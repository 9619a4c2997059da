import Mathlib

/-!
Paths of folders in a flat space of texts: the names in front of a text, each with a
separator behind it.
-/

namespace NasTools.Folders

variable {α : Type} {sep : α}

/-- Around the first separator a text is put together in one way. -/
theorem around_inj {a a' b b' : List α} (free : sep ∉ a) (free' : sep ∉ a')
    (same : a ++ sep :: b = a' ++ sep :: b') :
    a = a' ∧ b = b' := by
  -- If one front were longer, the separator behind the other would stand in it.
  rcases List.append_eq_append_iff.mp same with ⟨more, rfl, is⟩ | ⟨more, rfl, is⟩
  · cases more with
    | nil => exact ⟨(List.append_nil a).symm, (List.cons.inj is).2⟩
    | cons c more =>
      obtain ⟨rfl, _⟩ := List.cons.inj is
      exact absurd (List.mem_append_right _ List.mem_cons_self) free'
  · cases more with
    | nil => exact ⟨List.append_nil a', (List.cons.inj is).2.symm⟩
    | cons c more =>
      obtain ⟨rfl, _⟩ := List.cons.inj is
      exact absurd (List.mem_append_right _ List.mem_cons_self) free

/-- The name of a folder: not empty, and without the separator. -/
def Name (sep : α) (d : List α) : Prop := d ≠ [] ∧ sep ∉ d

/-- The path of some folders, each with the separator behind it. -/
def path (sep : α) (ds : List (List α)) : List α := ds.flatMap fun d => d ++ [sep]

/-- A text that lies in no folder: it has no name in front with the separator behind it. -/
def Leaf (sep : α) (r : List α) : Prop := ∀ d rest, Name sep d → r ≠ d ++ sep :: rest

variable {d r text : List α} {ds es : List (List α)}

/-- No folders make an empty path. -/
@[simp] theorem path_nil : path sep [] = [] := rfl

/-- A path is its first folder, a separator and the rest. -/
@[simp] theorem path_cons : path sep (d :: ds) = d ++ sep :: path sep ds := by
  rw [path, List.flatMap_cons, List.append_assoc, List.singleton_append, path]

/-- The path through more folders goes on where the first one ends. -/
theorem path_append : path sep (ds ++ es) = path sep ds ++ path sep es := List.flatMap_append

/-- The path of some folders and one more. -/
theorem path_concat : path sep (ds ++ [d]) = path sep ds ++ (d ++ [sep]) := by
  rw [path_append, path_cons, path_nil]

/-- A path of folders ends with the separator. -/
theorem getLast?_path (some_ : ds ≠ []) : (path sep ds).getLast? = some sep := by
  obtain ⟨front, d, rfl⟩ := (List.eq_nil_or_concat' ds).resolve_left some_
  rw [path_concat, ← List.append_assoc, List.getLast?_concat]

/-- Nothing lies in front of the path of no folder. -/
theorem path_ne_nil (some_ : ds ≠ []) : path sep ds ≠ [] := by
  intro empty
  have last : (path sep ds).getLast? = some sep := getLast?_path some_
  rw [empty] at last
  cases last

/-- An empty name lies in no folder. -/
theorem leaf_nil : Leaf sep ([] : List α) := by
  intro d rest _ same
  cases d <;> cases same

/-- Every text is a path of folders and something that lies in none. -/
theorem exists_path (text : List α) :
    ∃ ds r, (∀ d ∈ ds, Name sep d) ∧ Leaf sep r ∧ text = path sep ds ++ r := by
  -- The folders are taken off the front as long as there is one.
  by_cases leaf : Leaf sep text
  · exact ⟨[], text, by simp, leaf, rfl⟩
  · obtain ⟨d, rest, name, is⟩ : ∃ d rest, Name sep d ∧ text = d ++ sep :: rest := by
      unfold Leaf at leaf
      push Not at leaf
      exact leaf
    obtain ⟨ds, r, names, leaf', is'⟩ := exists_path rest
    refine ⟨d :: ds, r, List.forall_mem_cons.mpr ⟨name, names⟩, leaf', ?_⟩
    rw [is, path_cons, is', List.append_assoc, List.cons_append]
termination_by text.length
decreasing_by
  rw [is, List.length_append, List.length_cons]
  omega

/-- A path in front of a text is a beginning of the path the text lies in. -/
theorem path_prefix_iff (names : ∀ d ∈ ds, Name sep d) (names' : ∀ d ∈ es, Name sep d)
    (leaf : Leaf sep r) :
    path sep ds <+: path sep es ++ r ↔ ds <+: es := by
  -- A leaf has no separator, so only folders can stand in front.
  constructor
  · intro front
    -- Both paths are read from their first folders.
    induction ds generalizing es with
    | nil => exact List.nil_prefix
    | cons d ds ih =>
      obtain ⟨more, is⟩ := front
      have name := names d List.mem_cons_self
      rw [path_cons, List.append_assoc, List.cons_append] at is
      cases es with
      | nil => exact absurd is.symm (leaf d _ name)
      | cons e es =>
        rw [path_cons, List.append_assoc, List.cons_append] at is
        obtain ⟨rfl, later⟩ := around_inj name.2 (names' e List.mem_cons_self).2 is
        rw [List.cons_prefix_cons]
        exact ⟨rfl, ih (fun d member => names d (List.mem_cons_of_mem _ member))
          (fun d member => names' d (List.mem_cons_of_mem _ member)) ⟨more, later⟩⟩
  · rintro ⟨more, rfl⟩
    rw [path_append, List.append_assoc]
    exact List.prefix_append _ _

/-- Different lists of folders have different paths. -/
theorem path_inj (names : ∀ d ∈ ds, Name sep d) (names' : ∀ d ∈ es, Name sep d)
    (same : path sep ds = path sep es) :
    ds = es := by
  -- Each path is in front of the other, so they have the same length.
  have forth : ds <+: es :=
    (path_prefix_iff (r := []) names names' leaf_nil).mp (by rw [same, List.append_nil])
  have back : es <+: ds :=
    (path_prefix_iff (r := []) names' names leaf_nil).mp (by rw [same, List.append_nil])
  exact forth.eq_of_length (Nat.le_antisymm forth.length_le back.length_le)

end NasTools.Folders
