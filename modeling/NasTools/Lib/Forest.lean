import Mathlib.Logic.Relation
import Mathlib.Data.List.Nodup

/-! Forests listed from the top: every node stands in front of everything below it. -/

namespace NasTools

open Relation

/-- Some trees of a forest as one list, each node followed by what is below it, tree by tree. -/
inductive Listing {N : Type} (kids : N → List N) : List N → List N → Prop where
  | nil : Listing kids [] []
  | cons {a : N} {forest below rest : List N} (under : Listing kids (kids a) below)
    (later : Listing kids forest rest) :
    Listing kids (a :: forest) (a :: below ++ rest)

namespace Listing

variable {N : Type} {kids kids' : N → List N} {forest other l m : List N} {a : N}

/-- There is one listing of some trees. -/
theorem unique (first : Listing kids forest l) (second : Listing kids forest m) : l = m := by
  -- Induction over the first listing: both list the same node, its children and then the later
  -- trees.
  induction first generalizing m with
  | nil =>
    cases second
    rfl
  | cons _ _ ihUnder ihLater =>
    cases second with
    | cons under later => rw [ihUnder under, ihLater later]

/-- Trees are listed one behind the other. -/
theorem append (first : Listing kids forest l) (second : Listing kids other m) :
    Listing kids (forest ++ other) (l ++ m) := by
  -- The second forest is listed after the last tree of the first.
  induction first with
  | nil => exact second
  | cons under _ _ ih =>
    rw [List.append_assoc]
    exact .cons under ih

/-- The listing of trees falls into those of the first ones and of the rest. -/
theorem split (listing : Listing kids (forest ++ other) l) :
    ∃ first second, Listing kids forest first ∧ Listing kids other second ∧
      l = first ++ second := by
  -- Only the first tree of the listing has to be taken apart; the others are split by induction.
  induction forest generalizing l with
  | nil => exact ⟨[], l, .nil, listing, rfl⟩
  | cons a forest ih =>
    cases listing with
    | cons under later =>
      obtain ⟨first, second, here, there, rfl⟩ := ih later
      exact ⟨_, second, .cons under here, there, by rw [← List.append_assoc]⟩

/-- The tree below a listed node is listed too, in fewer places. -/
theorem below_of_mem (listing : Listing kids forest l) {x : N} (member : x ∈ l) :
    ∃ below, Listing kids (kids x) below ∧ below.length < l.length := by
  -- A node is the root of a tree, or below a child of it, or in one of the later trees.
  induction listing with
  | nil => cases member
  | cons under later ihUnder ihLater =>
    rename_i a forest below rest
    have size : (a :: below ++ rest).length = below.length + rest.length + 1 := by
      simp
    rcases List.mem_append.mp member with here | there
    · rcases List.mem_cons.mp here with rfl | deeper
      · exact ⟨below, under, by omega⟩
      · obtain ⟨part, listed, shorter⟩ := ihUnder deeper
        exact ⟨part, listed, by omega⟩
    · obtain ⟨part, listed, shorter⟩ := ihLater there
      exact ⟨part, listed, by omega⟩

/-- No node is below itself where what is below it can be listed. -/
theorem not_mem_below {below : List N} (listing : Listing kids (kids a) below) : a ∉ below := by
  intro again
  obtain ⟨part, listed, shorter⟩ := listing.below_of_mem again
  rw [listed.unique listing] at shorter
  exact Nat.lt_irrefl _ shorter

/-- The listing depends on the children of listed nodes only. -/
theorem congr (listing : Listing kids forest l) (same : ∀ x ∈ l, kids' x = kids x) :
    Listing kids' forest l := by
  -- The children of listed nodes are all that a listing looks at.
  induction listing with
  | nil => exact .nil
  | cons _ _ ihUnder ihLater =>
    rename_i a forest below rest _ _
    have here := ihUnder fun x member => same x (by simp [member])
    rw [← same a (by simp)] at here
    exact .cons here (ihLater fun x member => same x (by simp [member]))

/-- What is listed is what is below one of the trees' roots. -/
theorem mem_iff (listing : Listing kids forest l) {x : N} :
    x ∈ l ↔ ∃ c ∈ forest, ReflTransGen (fun p c => c ∈ kids p) c x := by
  -- Downwards a listed node brings its children along; upwards the listing is
  -- followed from its roots.
  induction listing with
  | nil => simp
  | cons _ _ ihUnder ihLater =>
    rename_i a forest below rest _ _
    have top : x ∈ a :: below ↔ ReflTransGen (fun p c => c ∈ kids p) a x := by
      rw [List.mem_cons, ihUnder, ReflTransGen.cases_head_iff]
      exact or_congr eq_comm Iff.rfl
    rw [List.mem_append, top, ihLater]
    simp [or_and_right, exists_or]

section Nodup

variable {parent : N → Option N}

/-- Of two nodes above a third one, one is above the other. -/
theorem above_total (single : ∀ p c, c ∈ kids p → parent c = some p) {b x : N}
    (first : ReflTransGen (fun p c => c ∈ kids p) a x)
    (second : ReflTransGen (fun p c => c ∈ kids p) b x) :
    ReflTransGen (fun p c => c ∈ kids p) a b ∨ ReflTransGen (fun p c => c ∈ kids p) b a := by
  -- A node has one parent, so what is above it forms a chain.
  have unique : Relator.RightUnique (Function.swap fun p c => c ∈ kids p) := by
    intro c p q isP isQ
    exact Option.some.inj ((single p c isP).symm.trans (single q c isQ))
  -- Seen from below, every node has one way up.
  rcases ReflTransGen.total_of_right_unique unique first.swap second.swap with up | up
  · exact .inr up.swap
  · exact .inl up.swap

/-- Trees of siblings share no node, and no node comes twice in one of them. -/
theorem nodup_of_siblings (single : ∀ p c, c ∈ kids p → parent c = some p)
    (distinct : ∀ p, (kids p).Nodup) {p : N} (listing : Listing kids forest l)
    (apart : forest.Nodup) (siblings : ∀ c ∈ forest, parent c = some p) (outside : p ∉ l) :
    l.Nodup := by
  -- Induction over the listing: the trees of siblings have no node in common.
  induction listing generalizing p with
  | nil => exact List.nodup_nil
  | cons under later ihUnder ihLater =>
    rename_i a forest below rest
    obtain ⟨aApart, restApart⟩ := List.nodup_cons.mp apart
    have nodupBelow := ihUnder (distinct a) (single a) under.not_mem_below
    have nodupRest := ihLater restApart (fun c member => siblings c (by simp [member]))
      fun inRest => outside (by simp [inRest])
    -- A node above its sibling would be above their parent.
    have apartFrom {b c : N} (isChild : parent c = some p) (unequal : b ≠ c)
        (above : ReflTransGen (fun p c => c ∈ kids p) b c) :
          ReflTransGen (fun p c => c ∈ kids p) b p := by
      rcases ReflTransGen.cases_tail above with same | ⟨q, up, step⟩
      · exact (unequal same.symm).elim
      · obtain rfl := Option.some.inj (isChild.symm.trans (single q c step))
        exact up
    have both := Listing.cons under later
    refine List.Nodup.append (List.nodup_cons.mpr ⟨under.not_mem_below, nodupBelow⟩) nodupRest ?_
    intro x here there
    obtain ⟨c, inForest, upC⟩ := later.mem_iff.mp there
    have upA : ReflTransGen (fun p c => c ∈ kids p) a x := by
      rcases List.mem_cons.mp here with rfl | deeper
      · exact .refl
      · obtain ⟨k, isKid, up⟩ := under.mem_iff.mp deeper
        exact .head isKid up
    have unequal : a ≠ c := fun same => aApart (same ▸ inForest)
    rcases above_total single upA upC with up | up
    · exact outside
        (both.mem_iff.mpr ⟨a, by simp, apartFrom (siblings c (by simp [inForest])) unequal up⟩)
    · exact outside
        (both.mem_iff.mpr ⟨c, by simp [inForest], apartFrom (siblings a (by simp)) unequal.symm up⟩)

/-- No node of a tree comes twice in its listing. -/
theorem nodup (single : ∀ p c, c ∈ kids p → parent c = some p) (distinct : ∀ p, (kids p).Nodup)
    (listing : Listing kids [a] l) : l.Nodup := by
  -- The root is not below itself, and the trees below it share no node because a node has one
  -- parent.
  cases listing with
  | cons under later =>
    cases later
    rw [List.append_nil]
    have outside := under.not_mem_below
    exact List.nodup_cons.mpr ⟨outside, nodup_of_siblings single distinct under (distinct a)
      (single a) outside⟩

end Nodup

/-- A new leaf below a node is listed behind the trees of the children in front of it. -/
theorem insert_leaf {n : N} {front back before after : List N}
    (listing : Listing kids forest (before ++ a :: after)) (nodup : (before ++ a :: after).Nodup)
    (split_ : kids a = front ++ back) (grown : kids' a = front ++ n :: back) (leaf : kids' n = [])
    (same : ∀ x, x ≠ a → x ≠ n → kids' x = kids x) (fresh : n ∉ before ++ a :: after) :
    ∃ ahead behind, after = ahead ++ behind ∧ Listing kids front ahead ∧
      Listing kids' forest (before ++ a :: ahead ++ n :: behind) := by
  -- Induction over the listing: the node is the first tree's root, below it, or in a later tree.
  generalize whole : before ++ a :: after = l at listing nodup fresh
  induction listing generalizing before after with
  | nil => simp at whole
  | cons under later ihUnder ihLater =>
    rename_i b forest below rest
    obtain ⟨nodupTop, nodupRest, disjoint⟩ := List.nodup_append'.mp nodup
    obtain ⟨bApart, nodupBelow⟩ := List.nodup_cons.mp nodupTop
    -- A tree without the node and the leaf is listed as before.
    have kept {f l : List N} (old : Listing kids f l) (without : a ∉ l)
      (within : ∀ x ∈ l, x ∈ b :: below ++ rest) :
        Listing kids' f l := by
      refine old.congr fun x member => same x ?_ ?_
      · rintro rfl
        exact without member
      · rintro rfl
        exact fresh (within _ member)
    have unfresh {l : List N} (within : ∀ x ∈ l, x ∈ b :: below ++ rest) : n ∉ l :=
      fun member => fresh (within n member)
    -- Where the node is in the later trees, the first one stays as it is.
    have inLater {before' : List N} (here : before' ++ a :: after = rest) :
        ∃ ahead behind, after = ahead ++ behind ∧ Listing kids front ahead ∧
          Listing kids' (b :: forest) (b :: below ++ (before' ++ a :: ahead ++ n :: behind)) := by
      obtain ⟨ahead, behind, rfl, listed, grew⟩ :=
        ihLater here nodupRest (unfresh fun x member => by simp [member])
      have without : a ∉ b :: below := fun top => disjoint top (by simp [← here])
      have bOther : b ≠ a := fun is => without (by simp [is])
      have under' := kept under (fun member => without (by simp [member])) fun x member => by
        simp [member]
      rw [← same b bOther fun is => fresh (by simp [is])] at under'
      exact ⟨ahead, behind, rfl, listed, .cons under' grew⟩
    cases before with
    | nil =>
      obtain ⟨rfl, rfl⟩ := List.cons.inj whole
      rw [split_] at under
      obtain ⟨first, second, listedFront, listedBack, rfl⟩ := under.split
      have keptFront :=
        kept listedFront (fun member => bApart (by simp [member])) fun x member => by simp [member]
      have keptBack := kept listedBack (fun member => bApart (by simp [member])) fun x member => by
        simp [member]
      have keptRest := kept later (fun member => disjoint (by simp) member) fun x member => by
        simp [member]
      -- The leaf stands between the children's trees.
      have leafListing : Listing kids' (n :: back) (n :: [] ++ second) :=
        .cons (by rw [leaf]; exact .nil) keptBack
      have under' := keptFront.append leafListing
      rw [← grown] at under'
      exact ⟨first,
        second ++ rest, by simp, listedFront, by simpa using Listing.cons under' keptRest⟩
    | cons c before' =>
      obtain ⟨rfl, split'⟩ := List.cons.inj whole
      rcases List.append_eq_append_iff.mp split' with ⟨middle, belowIs, restIs⟩ |
        ⟨middle, beforeIs, restIs⟩
      · cases middle with
        | nil =>
          rw [List.append_nil] at belowIs
          have here : [] ++ a :: after = rest := restIs
          obtain ⟨ahead, behind, rfl, listed, grew⟩ := inLater here
          exact ⟨ahead, behind, rfl, listed, by simpa [belowIs] using grew⟩
        | cons x mid =>
          obtain ⟨rfl, rfl⟩ := List.cons.inj restIs
          obtain ⟨ahead, behind, rfl, listed, grew⟩ :=
            ihUnder belowIs.symm nodupBelow (unfresh fun x member => by simp [member])
          have inBelow : a ∈ below := by simp [belowIs]
          have later' := kept later (fun member => disjoint (by simp [inBelow]) member) fun x
            member => by simp [member]
          have bOther : c ≠ a := fun is => bApart (is ▸ inBelow)
          rw [← same c bOther fun is => fresh (by simp [is])] at grew
          exact ⟨ahead, behind ++ rest, by simp, listed, by simpa using Listing.cons grew later'⟩
      · obtain ⟨ahead, behind, rfl, listed, grew⟩ := inLater restIs.symm
        exact ⟨ahead, behind, rfl, listed, by simpa [beforeIs] using grew⟩

end Listing

end NasTools
