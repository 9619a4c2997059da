import Mathlib

/-!
Thinning a history: its nodes stand for the nodes of another one, and a node that is left out stands
for what the first of its parents stands for.
-/

namespace NasTools

variable {N M L : Type}

/-- Every node of a list comes once, and after its parents. -/
structure ParentsFirst (parents : N → List N) (listed : List N) : Prop where
  nodup : listed.Nodup
  before : ∀ front node back, listed = front ++ node :: back → ∀ p ∈ parents node, p ∈ front

/-- One node is an ancestor of another one, or is that node. -/
def Below (parents : N → List N) : N → N → Prop := Relation.ReflTransGen fun p c => p ∈ parents c

/-- What is below something below is below. -/
theorem Below.trans {parents : N → List N} {a b c : N} (first : Below parents a b)
    (second : Below parents b c) :
    Below parents a c := Relation.ReflTransGen.trans first second

namespace ParentsFirst

variable {parents : N → List N} {listed : List N}

/-- What stands at the front of such a list is one as well. -/
theorem front {front back : List N} (first : ParentsFirst parents (front ++ back)) :
    ParentsFirst parents front where
  nodup := (List.nodup_append.mp first.nodup).1
  before start node rest parted p parent := by
    apply first.before start node (rest ++ back) _ p parent
    rw [parted, List.append_assoc, List.cons_append]

/-- The parents of a listed node are listed. -/
theorem parent_mem (first : ParentsFirst parents listed) {node p : N} (member : node ∈ listed)
    (parent : p ∈ parents node) : p ∈ listed := by
  obtain ⟨front, back, rfl⟩ := List.append_of_mem member
  exact List.mem_append_left _ (first.before front node back rfl p parent)

/-- Everything below a listed node is listed. -/
theorem below_mem (first : ParentsFirst parents listed) {a node : N} (member : node ∈ listed)
    (below : Below parents a node) : a ∈ listed := by
  induction below using Relation.ReflTransGen.head_induction_on with
  | refl => exact member
  | head parent _ ih => exact first.parent_mem ih parent

/-- What holds of a node as soon as it holds of its parents holds of every node. -/
theorem induct {P : N → Prop} (first : ParentsFirst parents listed)
    (step : ∀ node ∈ listed, (∀ p ∈ parents node, P p) → P node) : ∀ node ∈ listed, P node := by
  -- Along the list: every parent of the last node is in front of it.
  induction listed using List.reverseRecOn with
  | nil => simp
  | append_singleton start last ih =>
    have earlier := ih first.front fun node member => step node (List.mem_append_left _ member)
    intro node member
    rcases List.mem_append.mp member with before | here
    · exact earlier node before
    · obtain rfl := List.mem_singleton.mp here
      apply step node member
      intro p parent
      exact earlier p (first.before start node [] rfl p parent)

/-- A node that all others are ancestors of comes last. -/
theorem getLast?_eq (first : ParentsFirst parents listed) {head : N} (member : head ∈ listed)
    (all : ∀ node ∈ listed, Below parents node head) : listed.getLast? = some head := by
  -- Everything is below the head, so nothing can be listed behind it.
  obtain ⟨front, back, rfl⟩ := List.append_of_mem member
  rcases back with _ | ⟨next, back⟩
  · simp
  · -- Whatever comes after it would be in front of it too.
    have upTo : ParentsFirst parents (front ++ [head]) := by
      have whole := first
      rw [List.append_cons] at whole
      exact whole.front
    have below := all next (by simp)
    have again := upTo.below_mem (by simp) below
    have apart := first.nodup
    rw [List.append_cons, List.nodup_append] at apart
    exact absurd rfl (apart.2.2 next again next (by simp))

/-- The same said by positions. -/
theorem iff_getElem : ParentsFirst parents listed ↔
    listed.Nodup ∧ ∀ i : Fin listed.length, ∀ p ∈ parents listed[i], p ∈ listed.take i := by
  -- A split of the list is a place in it.
  constructor
  · intro first
    refine ⟨first.nodup, ?_⟩
    intro i p parent
    refine first.before (listed.take i) listed[i] (listed.drop (i + 1)) ?_ p parent
    exact (List.take_append_drop i.val listed).symm.trans
      (congrArg _ (List.drop_eq_getElem_cons i.isLt))
  · intro both
    obtain ⟨nodup, before⟩ := both
    refine ⟨nodup, ?_⟩
    intro front node back parted p parent
    subst parted
    have here := before ⟨front.length, by simp⟩ p (by simpa using parent)
    simpa using here

instance [DecidableEq N] : Decidable (ParentsFirst parents listed) :=
  decidable_of_iff' _ iff_getElem

end ParentsFirst

/-- The first node of a list that can be seen. -/
def IsFirst (seen : N → Prop) (nodes : List N) (p : N) : Prop :=
  ∃ front back, nodes = front ++ p :: back ∧ seen p ∧ ∀ x ∈ front, ¬seen x

/-- The first one seen is one of the nodes. -/
theorem IsFirst.mem {seen : N → Prop} {nodes : List N} {p : N} (first : IsFirst seen nodes p) :
    p ∈ nodes := by
  obtain ⟨front, back, rfl, _, _⟩ := first
  simp

/-- The first one seen is seen. -/
theorem IsFirst.seen {seen : N → Prop} {nodes : List N} {p : N}
    (first : IsFirst seen nodes p) : seen p := by
  obtain ⟨_, _, _, here, _⟩ := first
  exact here

/-- The first image is the image of the first node that has one. -/
theorem head?_filterMap_iff {image : N → Option M} {nodes : List N} {x : M} :
    (nodes.filterMap image).head? = some x ↔ ∃ p, IsFirst (fun n => (image n).isSome) nodes p ∧
      image p = some x := by
  -- Induction over the nodes: one with no image is passed over, and the first with one is found.
  induction nodes with
  | nil => simp [IsFirst]
  | cons n nodes ih =>
    rcases is : image n with _ | m
    · rw [List.filterMap_cons_none is, ih]
      constructor
      · intro found
        obtain ⟨p, ⟨front, back, rfl, here, none⟩, same⟩ := found
        refine ⟨p, ⟨n :: front, back, rfl, here, ?_⟩, same⟩
        intro y member
        rcases List.mem_cons.mp member with rfl | later
        · simp [is]
        · exact none y later
      · intro found
        obtain ⟨p, ⟨front, back, parted, here, none⟩, same⟩ := found
        rcases front with _ | ⟨y, front⟩
        · obtain ⟨rfl, _⟩ := List.cons.inj parted
          rw [is] at same
          cases same
        · obtain ⟨rfl, rfl⟩ := List.cons.inj parted
          exact ⟨p,
            ⟨front, back, rfl, here, fun z member => none z (List.mem_cons_of_mem _ member)⟩, same⟩
    · rw [List.filterMap_cons_some is, List.head?_cons]
      constructor
      · intro same
        exact ⟨n, ⟨[], nodes, rfl, by simp [is], by simp⟩, by rw [is, same]⟩
      · intro found
        obtain ⟨p, ⟨front, back, parted, here, none⟩, same⟩ := found
        rcases front with _ | ⟨y, front⟩
        · obtain ⟨rfl, _⟩ := List.cons.inj parted
          rw [← is, same]
        · obtain ⟨rfl, _⟩ := List.cons.inj parted
          exact absurd (by simp [is]) (none n List.mem_cons_self)

/-- How the nodes of a history stand for nodes of another one, where some are left out. -/
structure Thinned (parents : N → List N) (parents' : M → List M) (drops : N → Prop)
    (image : N → Option M) (listed : List N) : Prop where
  first : ParentsFirst parents listed
  kept : ∀ n ∈ listed, ¬drops n → ∃ x, image n = some x ∧ parents' x = (parents n).filterMap image
  dropped : ∀ n ∈ listed, drops n → image n = ((parents n).filterMap image).head?

namespace Thinned

variable {parents : N → List N} {parents' : M → List M} {drops seen : N → Prop}
    {image : N → Option M}
  {listed : List N}

/-- Where a parent stands for something, so does its child. -/
theorem isSome_of_parent (thinned : Thinned parents parents' drops image listed) {n p : N}
    (member : n ∈ listed) (parent : p ∈ parents n) (some_ : (image p).isSome) :
    (image n).isSome := by
  -- A dropped node takes the image of a parent, and a kept one has an image of its own.
  by_cases drop : drops n
  · rw [thinned.dropped n member drop, List.isSome_head?]
    intro none
    obtain ⟨x, is⟩ := Option.isSome_iff_exists.mp some_
    have there := List.mem_filterMap.mpr ⟨p, parent, is⟩
    rw [none] at there
    cases there
  · obtain ⟨x, is, _⟩ := thinned.kept n member drop
    rw [is]
    rfl

/-- A listed node above something that has an image has one. -/
theorem isSome_of_below (thinned : Thinned parents parents' drops image listed) {n a : N}
    (member : n ∈ listed) (below : Below parents a n) (some_ : (image a).isSome) :
    (image n).isSome := by
  induction below with
  | refl => exact some_
  | tail _ parent ih =>
    exact thinned.isSome_of_parent member parent (ih (thinned.first.parent_mem member parent))

/-- The ancestors of an image are images of ancestors. -/
theorem exists_below (thinned : Thinned parents parents' drops image listed) :
    ∀ n ∈ listed, ∀ x y, image n = some x → Below parents' y x → ∃ a, Below parents a n ∧
      image a = some y := by
  -- Induction over the list, whose parents come first.
  refine thinned.first.induct ?_
  intro n member ih x y is below
  -- A parent whose image has the ancestor is one step further down.
  have further : ∀ p ∈ parents n, ∀ z, image p = some z → Below parents' y z →
      ∃ a, Below parents a n ∧ image a = some y := by
    intro p parent z is' below'
    obtain ⟨a, under, same⟩ := ih p parent z y is' below'
    exact ⟨a, .tail under parent, same⟩
  by_cases drop : drops n
  · rw [thinned.dropped n member drop] at is
    obtain ⟨p, first, same⟩ := head?_filterMap_iff.mp is
    exact further p first.mem x same below
  · obtain ⟨x', is', through⟩ := thinned.kept n member drop
    obtain rfl := Option.some.inj (is.symm.trans is')
    rcases Relation.ReflTransGen.cases_tail below with rfl | ⟨z, below', parent⟩
    · exact ⟨n, .refl, is⟩
    · rw [through] at parent
      obtain ⟨p, parent', same⟩ := List.mem_filterMap.mp parent
      exact further p parent' z same below'

/--
Images follow the order of the history exactly when, wherever a node is left out, every other image
of its parents is the image of something under its first parent.
-/
theorem forward_iff_image (thinned : Thinned parents parents' drops image listed) :
    (∀ n ∈ listed, ∀ o, Below parents o n → ∀ y x, image o = some y → image n = some x →
      Below parents' y x) ↔
      ∀ n ∈ listed, drops n → ∀ p, IsFirst (fun n => (image n).isSome) (parents n) p →
        ∀ q ∈ parents n, (image q).isSome → ∃ a, Below parents a p ∧ image a = image q := by
  -- A dropped node stands for its first parent, so all its other parents have to be below that
  -- one.
  constructor
  · intro forward n member drop p first q parent some_
    obtain ⟨x, is⟩ := Option.isSome_iff_exists.mp first.seen
    obtain ⟨y, is'⟩ := Option.isSome_iff_exists.mp some_
    have same : image n = some x := by
      rw [thinned.dropped n member drop]
      exact head?_filterMap_iff.mpr ⟨p, first, is⟩
    have below := forward n member q (.single parent) y x is' same
    obtain ⟨a, under, same'⟩ :=
      thinned.exists_below p (thinned.first.parent_mem member first.mem) x y is below
    exact ⟨a, under, same'.trans is'.symm⟩
  -- Induction over the list, parents first: the step from the last parent on the way decides.
  · intro under
    refine thinned.first.induct ?_
    intro n member ih o below y x is is'
    rcases Relation.ReflTransGen.cases_tail below with rfl | ⟨q, below', parent⟩
    · obtain rfl := Option.some.inj (is.symm.trans is')
      exact .refl
    · -- The parent on the way stands for something, and its image comes after that of the ancestor.
      have listedQ := thinned.first.parent_mem member parent
      have someQ := thinned.isSome_of_below listedQ below' (Option.isSome_iff_exists.mpr ⟨y, is⟩)
      obtain ⟨z, isQ⟩ := Option.isSome_iff_exists.mp someQ
      have before := ih q parent o below' y z is isQ
      by_cases drop : drops n
      · rw [thinned.dropped n member drop] at is'
        obtain ⟨p, first, isP⟩ := head?_filterMap_iff.mp is'
        obtain ⟨a, belowP, same⟩ := under n member drop p first q parent someQ
        exact before.trans (ih p first.mem a belowP z x (same.trans isQ) isP)
      · obtain ⟨x', is'', through⟩ := thinned.kept n member drop
        obtain rfl := Option.some.inj (is'.symm.trans is'')
        refine .tail before ?_
        rw [through]
        exact List.mem_filterMap.mpr ⟨q, parent, isQ⟩

end Thinned

/--
Two nodes are the same but for what is left out: they are labelled alike, and their parents are
such nodes pair by pair.
-/
inductive Alike (parents : N → List N) (drops seen : N → Prop) [DecidablePred seen]
    (label : N → L) : N → N → Prop where
  | left {n m p : N} (dropped : drops n) (first : IsFirst seen (parents n) p)
      (alike : Alike parents drops seen label p m) : Alike parents drops seen label n m
  | right {n m p : N} (dropped : drops m) (first : IsFirst seen (parents m) p)
      (alike : Alike parents drops seen label n p) : Alike parents drops seen label n m
  | same {n m : N} (kept : ¬drops n) (kept' : ¬drops m) (labels : label n = label m)
      (lengths : ((parents n).filter seen).length = ((parents m).filter seen).length)
      (alike : ∀ p q, (p, q) ∈ ((parents n).filter seen).zip ((parents m).filter seen) →
        Alike parents drops seen label p q) : Alike parents drops seen label n m

namespace Thinned

variable {parents : N → List N} {parents' : M → List M} {drops seen : N → Prop} [DecidablePred seen]
    {image : N → Option M}
  {label : N → L} {listed : List N}

omit [DecidablePred seen] in
/-- The first node that can be seen is the first one with an image. -/
theorem isFirst_iff {nodes : List N} (shows : ∀ n ∈ nodes, seen n ↔ (image n).isSome) {p : N} :
    IsFirst seen nodes p ↔ IsFirst (fun n => (image n).isSome) nodes p := by
  -- Being seen and having an image are the same for the nodes in question.
  unfold IsFirst
  constructor
  · intro found
    obtain ⟨front, back, rfl, here, none⟩ := found
    refine ⟨front, back, rfl, (shows p (by simp)).mp here, ?_⟩
    intro x member some_
    exact none x member ((shows x (by simp [member])).mpr some_)
  · intro found
    obtain ⟨front, back, rfl, here, none⟩ := found
    refine ⟨front, back, rfl, (shows p (by simp)).mpr here, ?_⟩
    intro x member some_
    exact none x member ((shows x (by simp [member])).mp some_)

/-- Leaving out what has no image is leaving out what cannot be seen. -/
theorem map_filter_seen {nodes : List N} (shows : ∀ n ∈ nodes, seen n ↔ (image n).isSome) :
    (nodes.filter seen).map image = (nodes.filterMap image).map some := by
  -- Induction over the nodes: those that are seen are those that have an image.
  induction nodes with
  | nil => rfl
  | cons n nodes ih =>
    have rest := ih fun m member => shows m (List.mem_cons_of_mem _ member)
    have here := shows n List.mem_cons_self
    rcases is : image n with _ | x
    · have unseen : ¬seen n := by simp [here, is]
      rw [List.filterMap_cons_none is, List.filter_cons_of_neg (by simpa using unseen), rest]
    · have sees : seen n := by simp [here, is]
      rw [List.filterMap_cons_some is, List.filter_cons_of_pos (by simpa using sees), List.map_cons,
        List.map_cons, rest, is]

/-- Lists of nodes have the same images where they have so many, pair by pair. -/
theorem filterMap_eq_iff {ps qs : List N} (shows : ∀ n ∈ ps, seen n ↔ (image n).isSome)
    (shows' : ∀ n ∈ qs, seen n ↔ (image n).isSome) :
    ps.filterMap image = qs.filterMap image ↔ (ps.filter seen).length = (qs.filter seen).length ∧
      ∀ p q, (p, q) ∈ (ps.filter seen).zip (qs.filter seen) → image p = image q := by
  have some_ : Function.Injective (some : M → Option M) := Option.some_injective M
  rw [← some_.list_map.eq_iff, ← map_filter_seen shows, ← map_filter_seen
    shows', ← List.forall₂_eq_eq_eq, List.forall₂_map_left_iff, List.forall₂_map_right_iff,
    List.forall₂_iff_zip]

variable (thinned : Thinned parents parents' drops image listed)
    (shows : ∀ n ∈ listed, seen n ↔ (image n).isSome)
  (labelled : ∀ n ∈ listed, ∀ m ∈ listed, ¬drops n → ¬drops m → ∀ x y, image n = some x →
    image m = some y → (x = y ↔ label n = label m ∧ parents' x = parents' y))

include thinned shows labelled

/-- Nodes that are the same but for what is left out stand for the same. -/
theorem image_eq_of_alike {n m : N} (alike : Alike parents drops seen label n m)
    (member : n ∈ listed) (member' : m ∈ listed) : image n = image m := by
  -- Induction over why the two are alike: a dropped one is followed to its first parent, and two
  -- kept ones are compared.
  have showsParents : ∀ n ∈ listed, ∀ p ∈ parents n, seen p ↔ (image p).isSome := by
    intro n member p parent
    exact shows p (thinned.first.parent_mem member parent)
  induction alike with
  | @left n m p dropped first _ ih =>
    obtain ⟨x, is⟩ :=
      Option.isSome_iff_exists.mp
      ((shows p (thinned.first.parent_mem member first.mem)).mp first.seen)
    have image_ : image n = some x := by
      rw [thinned.dropped n member dropped]
      exact head?_filterMap_iff.mpr ⟨p, (isFirst_iff (showsParents n member)).mp first, is⟩
    rw [image_, ← is]
    exact ih (thinned.first.parent_mem member first.mem) member'
  | @right n m p dropped first _ ih =>
    obtain ⟨x, is⟩ :=
      Option.isSome_iff_exists.mp
      ((shows p (thinned.first.parent_mem member' first.mem)).mp first.seen)
    have image_ : image m = some x := by
      rw [thinned.dropped m member' dropped]
      exact head?_filterMap_iff.mpr ⟨p, (isFirst_iff (showsParents m member')).mp first, is⟩
    rw [image_, ← is]
    exact ih member (thinned.first.parent_mem member' first.mem)
  | @same n m kept kept' labels lengths _ ih =>
    obtain ⟨x, is, through⟩ := thinned.kept n member kept
    obtain ⟨y, is', through'⟩ := thinned.kept m member' kept'
    have images : (parents n).filterMap image = (parents m).filterMap image := by
      refine (filterMap_eq_iff (showsParents n member) (showsParents m member')).mpr ⟨lengths, ?_⟩
      intro p q paired
      have inside := List.of_mem_zip paired
      exact ih p q paired (thinned.first.parent_mem member (List.mem_of_mem_filter inside.1))
        (thinned.first.parent_mem member' (List.mem_of_mem_filter inside.2))
    rw [is, is', (labelled n member m member' kept kept' x y is is').mpr
      ⟨labels, by rw [through, through', images]⟩]

/-- Nodes that stand for the same are the same but for what is left out. -/
theorem alike_of_image_eq : ∀ n ∈ listed, ∀ m ∈ listed, ∀ x, image n = some x → image m = some x →
    Alike parents drops seen label n m := by
  -- Induction over the list, whose parents come first.
  have showsParents : ∀ n ∈ listed, ∀ p ∈ parents n, seen p ↔ (image p).isSome := by
    intro n member p parent
    exact shows p (thinned.first.parent_mem member parent)
  -- What is left out on either side is skipped first.
  refine thinned.first.induct ?_
  intro n member ih
  refine thinned.first.induct ?_
  intro m member' ih' x is is'
  by_cases drop : drops n
  · rw [thinned.dropped n member drop] at is
    obtain ⟨p, first, isP⟩ := head?_filterMap_iff.mp is
    exact .left drop ((isFirst_iff (showsParents n member)).mpr first)
      (ih p first.mem m member' x isP is')
  · by_cases drop' : drops m
    · rw [thinned.dropped m member' drop'] at is'
      obtain ⟨p, first, isP⟩ := head?_filterMap_iff.mp is'
      exact .right drop' ((isFirst_iff (showsParents m member')).mpr first)
        (ih' p first.mem x is isP)
    · obtain ⟨y, isN, through⟩ := thinned.kept n member drop
      obtain ⟨z, isM, through'⟩ := thinned.kept m member' drop'
      obtain rfl := Option.some.inj (is.symm.trans isN)
      obtain rfl := Option.some.inj (is'.symm.trans isM)
      obtain ⟨labels, same⟩ := (labelled n member m member' drop drop' x x is is').mp rfl
      have images : (parents n).filterMap image = (parents m).filterMap image := by
        rw [← through, ← through']
      obtain ⟨lengths, pairs⟩ :=
        (filterMap_eq_iff (showsParents n member) (showsParents m member')).mp images
      refine .same drop drop' labels lengths ?_
      intro p q paired
      have inside := List.of_mem_zip paired
      have parent := List.mem_of_mem_filter inside.1
      have sees : seen p := by simpa using List.of_mem_filter inside.1
      obtain ⟨w, isP⟩ := Option.isSome_iff_exists.mp ((showsParents n member p parent).mp sees)
      exact ih p parent q (thinned.first.parent_mem member' (List.mem_of_mem_filter inside.2)) w isP
        ((pairs p q paired).symm.trans isP)

/--
Images follow the order of the history exactly when, wherever a node is left out, each of its other
parents is the same as something under the first one, but for what is left out.
-/
theorem forward_iff :
    (∀ n ∈ listed, ∀ o, Below parents o n → ∀ y x, image o = some y → image n = some x →
      Below parents' y x) ↔
      ∀ n ∈ listed, drops n → ∀ p, IsFirst seen (parents n) p → ∀ q ∈ parents n, seen q →
        ∃ a, Below parents a p ∧ Alike parents drops seen label q a := by
  -- The condition on images is put in words of the nodes: seen ones have an image, and alike ones
  -- have the same.
  have showsParents : ∀ n ∈ listed, ∀ p ∈ parents n, seen p ↔ (image p).isSome := by
    intro n member p parent
    exact shows p (thinned.first.parent_mem member parent)
  rw [thinned.forward_iff_image]
  constructor
  · intro under n member drop p first q parent sees
    have some_ := (showsParents n member q parent).mp sees
    obtain ⟨a, below, same⟩ :=
      under n member drop p ((isFirst_iff (showsParents n member)).mp first) q parent some_
    obtain ⟨x, is⟩ := Option.isSome_iff_exists.mp some_
    have listedA := thinned.first.below_mem (thinned.first.parent_mem member first.mem) below
    exact ⟨a, below, thinned.alike_of_image_eq shows labelled q
      (thinned.first.parent_mem member parent) a listedA x is (same.trans is)⟩
  · intro under n member drop p first q parent some_
    obtain ⟨a, below, alike⟩ :=
      under n member drop p ((isFirst_iff (showsParents n member)).mpr first) q parent
      ((showsParents n member q parent).mpr some_)
    have listedA := thinned.first.below_mem (thinned.first.parent_mem member first.mem) below
    exact ⟨a, below,
      (thinned.image_eq_of_alike shows labelled alike (thinned.first.parent_mem member parent)
      listedA).symm⟩

end Thinned

end NasTools
