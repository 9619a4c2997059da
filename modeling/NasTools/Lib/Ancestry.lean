import Mathlib

/-! Paths up a parent function: no node comes twice on a path that ends where there is no parent. -/

namespace NasTools

/-- A path from a node up to the root, each node followed by its parent. -/
inductive Ancestry {N : Type} (parent : N → Option N) (root : N) : List N → Prop where
  | root : Ancestry parent root [root]
  | child {c p : N} {up : List N} (above : Ancestry parent root (p :: up))
    (is : parent c = some p) :
    Ancestry parent root (c :: p :: up)

namespace Ancestry

variable {N : Type} {parent : N → Option N} {root : N}

/-- The parent of whatever is on a path is further up on it. -/
theorem parent_mem {c : N} {up : List N} (path : Ancestry parent root (c :: up))
    (rootless : parent root = none) {x p : N} (member : x ∈ c :: up)
    (is : parent x = some p) : p ∈ up := by
  -- Induction over the path: either the node is the last one, or it is higher up.
  generalize whole : c :: up = nodes at path member
  induction path generalizing c up with
  | root =>
    -- The root has no parent.
    obtain rfl := List.mem_singleton.mp member
    rw [rootless] at is
    cases is
  | child above here ih =>
    cases whole
    rcases List.mem_cons.mp member with rfl | further
    · obtain rfl := Option.some.inj (here.symm.trans is)
      exact List.mem_cons_self
    · exact List.mem_cons_of_mem _ (ih rfl further)

/-- No node comes twice on a path. -/
theorem nodup {nodes : List N} (path : Ancestry parent root nodes) (rootless : parent root = none) :
    nodes.Nodup := by
  -- Induction over the path, where only the new node can come twice.
  induction path with
  | root => exact List.nodup_singleton root
  | child above is ih =>
    refine List.nodup_cons.mpr ⟨fun again => ?_, ih⟩
    -- Its parent would be strictly above itself.
    exact (List.nodup_cons.mp ih).1 (above.parent_mem rootless again is)

/-- Every node of a path but the root has a parent. -/
theorem parent_of_mem {nodes : List N} (path : Ancestry parent root nodes) {x : N}
    (member : x ∈ nodes) (apart : x ≠ root) : (parent x).isSome := by
  -- Every node of the path but the first was reached by a step, and that step names its parent.
  induction path with
  | root => exact (apart (List.mem_singleton.mp member)).elim
  | child above is ih =>
    rcases List.mem_cons.mp member with rfl | further
    · rw [is]
      rfl
    · exact ih further

/-- The root is above every node that has a path up to it. -/
theorem reaches {c : N} {up : List N} (path : Ancestry parent root (c :: up)) :
    Relation.ReflTransGen (fun p c => parent c = some p) root c := by
  -- Each step of the path adds one edge at its end; the path is kept general so that the
  -- induction reads it.
  generalize whole : c :: up = nodes at path
  induction path generalizing c up with
  | root =>
    cases whole
    exact .refl
  | child above is ih =>
    cases whole
    exact .tail (ih rfl) is

/-- A path is no longer than there are nodes with a parent, and the root. -/
theorem length_le {nodes all : List N} (path : Ancestry parent root nodes)
    (rootless : parent root = none) (listed : ∀ x, (parent x).isSome → x ∈ all) :
    nodes.length ≤ all.length + 1 := by
  -- The nodes are distinct and each of them is the root or listed, so the list bounds their
  -- number.
  have distinct := path.nodup rootless
  have within : nodes ⊆ root :: all := by
    intro x member
    by_cases apart : x = root
    · simp [apart]
    · exact List.mem_cons_of_mem _ (listed x (path.parent_of_mem member apart))
  simpa using (distinct.subperm within).length_le

end Ancestry

end NasTools
