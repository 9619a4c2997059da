import NasTools.Proofs.Faithful

/-!
When publishing again only adds to what is public: a merge that is dropped may leave
a parent behind.
-/

namespace NasTools

namespace PrivateRepo

variable (private_ : PrivateRepo) (rules : MirrorRules)

/-- The tree of a commit as it would be written. -/
def shown (hex : ObjectName) : WrittenTree :=
  ((private_.tree hex).map fun t => t.shown rules).getD ∅

/--
A commit can be seen in public: empty ones are kept, or some file of its history is let through.
-/
def Shows (hex : ObjectName) : Prop :=
  rules.dropEmptyCommits = false ∨
    ∃ a t, Below private_.parents a hex ∧ private_.tree a = some t ∧ t.kept rules ≠ []

/--
A commit is dropped: nothing of it can be seen, or just what can be seen of the first
parent that can.
-/
def Drops (hex : ObjectName) : Prop :=
  rules.dropEmptyCommits = true ∧ (¬private_.Shows rules hex ∨
    ∃ p, IsFirst (private_.Shows rules) (private_.parents hex) p ∧
      private_.shown rules p = private_.shown rules hex)

/-- What is published of a commit, apart from its parents. -/
def label (hex : ObjectName) : Option PublicCommit :=
  (private_.about hex).map fun about => rewritten rules about (private_.shown rules hex) []

variable {private_ rules}

/-- A commit shows something if a parent does. -/
theorem Shows.child {hex p : ObjectName} (shows : private_.Shows rules p)
    (parent : p ∈ private_.parents hex) :
    private_.Shows rules hex := by
  rcases shows with keeps | ⟨a, t, below, files, some_⟩
  · exact .inl keeps
  · exact .inr ⟨a, t, .tail below parent, files, some_⟩

/-- A commit that keeps files shows something. -/
theorem Shows.of_files {hex : ObjectName} {t : GitTree} (files : private_.tree hex = some t)
    (some_ : t.kept rules ≠ []) :
    private_.Shows rules hex := .inr ⟨hex, t, .refl, files, some_⟩

/-- What shows has files that are let through, or a parent that shows. -/
theorem Shows.cases {hex : ObjectName} {t : GitTree} (files : private_.tree hex = some t)
    (shows : private_.Shows rules hex) :
    rules.dropEmptyCommits = false ∨ t.kept rules ≠ [] ∨
      ∃ p ∈ private_.parents hex, private_.Shows rules p := by
  -- What is below the commit is the commit itself or below one of its parents.
  rcases shows with keeps | ⟨a, t', below, files', some_⟩
  · exact .inl keeps
  · rcases Relation.ReflTransGen.cases_tail below with rfl | ⟨p, below', parent⟩
    · obtain rfl := Option.some.inj (files.symm.trans files')
      exact .inr (.inl some_)
    · exact .inr (.inr ⟨p, parent, .inr ⟨a, t', below', files', some_⟩⟩)

/-- What a commit shows is read off its tree. -/
theorem shown_of_tree {hex : ObjectName} {t : GitTree} (files : private_.tree hex = some t) :
    private_.shown rules hex = t.shown rules := by
  rw [shown, files]
  rfl

end PrivateRepo

variable {g : Git} {luck : GitCall → Except String Unit} {rules : MirrorRules}
    {made : Set PublicCommit}

namespace Derived

variable {run : Derived g luck rules made}

/-- A commit is mapped exactly when it can be seen. -/
theorem Comes.shows_iff (comes : run.Comes) :
    ∀ hex ∈ run.listed, run.history.Shows rules hex ↔ (run.map[hex]?).isSome := by
  -- Induction over the listing, in which parents come first.
  refine run.first.induct ?_
  intro hex member ih
  obtain ⟨about, t, parents, settled⟩ := comes.settled hex member
  have above := PrivateRepo.parents_of_about settled.said
  rw [above] at ih
  -- The public parents are the images of the parents that can be seen.
  have through : ∀ p ∈ parents, ∃ q ∈ about.parents, run.map[q]? = some p := by
    intro p inside
    rw [settled.mapped] at inside
    exact List.mem_filterMap.mp inside
  have shows_of_parent : ∀ p ∈ parents, run.history.Shows rules hex := by
    intro p inside
    obtain ⟨q, parent, is⟩ := through p inside
    have shows := (ih q parent).mpr (by rw [is]; rfl)
    rw [← above] at parent
    exact shows.child parent
  cases drops : dropsCommit luck rules run.repo t parents with
  | false =>
    rw [(settled.written drops).1]
    refine ⟨fun _ => rfl, fun _ => ?_⟩
    rw [dropsCommit, changesNothing] at drops
    cases empties : rules.dropEmptyCommits with
    | false => exact .inl empties
    | true =>
      by_cases some_ : t.kept rules = []
      · rcases parents with _ | ⟨p, parents⟩
        · simp [empties, some_] at drops
        · exact shows_of_parent p List.mem_cons_self
      · exact .of_files settled.files some_
  | true =>
    rw [settled.dropped drops]
    rw [dropsCommit, Bool.and_eq_true] at drops
    obtain ⟨empties, nothing⟩ := drops
    rcases parents with _ | ⟨p, parents⟩
    · -- Nothing of it is let through, and no parent can be seen.
      simp only [List.head?_nil, Option.isSome_none, Bool.false_eq_true, iff_false]
      intro shows
      rcases shows.cases settled.files with keeps | some_ | ⟨q, parent, shows'⟩
      · rw [keeps] at empties
        cases empties
      · simp [changesNothing] at nothing
        exact some_ nothing
      · rw [above] at parent
        obtain ⟨p, is⟩ := Option.isSome_iff_exists.mp ((ih q parent).mp shows')
        have there := List.mem_filterMap.mpr ⟨q, parent, is⟩
        rw [← settled.mapped] at there
        cases there
    · exact ⟨fun _ => rfl, fun _ => shows_of_parent p List.mem_cons_self⟩

/-- A commit is dropped exactly when the private history says so. -/
theorem Comes.drops_iff (comes : run.Comes) (answers : ∀ name, luck (.treeOf name) = .ok ())
    {hex : ObjectName} (member : hex ∈ run.listed) {about : CommitMeta} {t : GitTree}
    {parents : List ObjectName}
    (settled : CommitSettled g luck run.history rules run.repo run.map hex about t parents) :
    run.history.Drops rules hex ↔ dropsCommit luck rules run.repo t parents = true := by
  -- Both sides compare the same two trees.
  have shows := comes.shows_iff
  have above := PrivateRepo.parents_of_about settled.said
  have showsParents : ∀ p ∈ about.parents, run.history.Shows rules p ↔ (run.map[p]?).isSome := by
    intro p parent
    rw [← above] at parent
    exact shows p (run.first.parent_mem member parent)
  -- The tree of the first public parent is what is shown of the first parent that can be seen.
  have first_tree : ∀ q p, q ∈ about.parents → run.map[q]? = some p →
      run.repo.treeOf luck p = some (run.history.shown rules q) := by
    intro q p parent is
    rw [← above] at parent
    obtain ⟨about', t', parents', settled'⟩ := comes.settled q (run.first.parent_mem member parent)
    obtain ⟨c, found, tree⟩ := settled'.tree_of_mapped comes.found is
    rw [PublicRepo.treeOf_of_find found, answers, tree, PrivateRepo.shown_of_tree settled'.files]
  rw [PrivateRepo.Drops, above, PrivateRepo.shown_of_tree settled.files]
  constructor
  · intro drops
    obtain ⟨empties, unseen | ⟨q, first, same⟩⟩ := drops
    · -- What is not dropped is mapped, so it can be seen.
      by_contra keeps
      refine unseen ((shows hex member).mpr ?_)
      rw [(settled.written (by simpa using keeps)).1]
      rfl
    · obtain ⟨p, is⟩ := Option.isSome_iff_exists.mp ((showsParents q first.mem).mp first.seen)
      have head : parents.head? = some p := by
        rw [settled.mapped]
        exact head?_filterMap_iff.mpr ⟨q, (Thinned.isFirst_iff showsParents).mp first, is⟩
      simp [dropsCommit, changesNothing, empties, head, first_tree q p first.mem is, same]
  · intro drops
    have dropped := settled.dropped drops
    rw [dropsCommit, Bool.and_eq_true] at drops
    obtain ⟨empties, nothing⟩ := drops
    refine ⟨empties, ?_⟩
    cases head : parents.head? with
    | none =>
      refine .inl ?_
      rw [shows hex member, dropped, head]
      simp
    | some p =>
      have images := head
      rw [settled.mapped] at images
      obtain ⟨q, first, is⟩ := head?_filterMap_iff.mp images
      refine .inr ⟨q, (Thinned.isFirst_iff showsParents).mpr first, ?_⟩
      have some_ : parents ≠ [] := by
        intro none
        rw [none] at head
        cases head
      simpa [changesNothing, head, some_, first_tree q p first.mem is] using nothing

/-- What a derivation makes of a history is the history thinned by what is dropped. -/
theorem Comes.thinned (comes : run.Comes) (answers : ∀ name, luck (.treeOf name) = .ok ()) :
    Thinned run.history.parents run.repo.parents (run.history.Drops rules)
      (fun hex => run.map[hex]?) run.listed where
  -- What happened to each commit is known: it was written or it was dropped.
  first := run.first
  kept := by
    intro hex member keeps
    obtain ⟨about, t, parents, settled⟩ := comes.settled hex member
    rw [comes.drops_iff answers member settled, Bool.not_eq_true] at keeps
    obtain ⟨maps, found⟩ := settled.written keeps
    refine ⟨_, maps, ?_⟩
    rw [PublicRepo.parents, found, PrivateRepo.parents_of_about settled.said, ← settled.mapped]
    rfl
  dropped := by
    intro hex member drops
    obtain ⟨about, t, parents, settled⟩ := comes.settled hex member
    rw [comes.drops_iff answers member settled] at drops
    rw [settled.dropped drops, PrivateRepo.parents_of_about settled.said, settled.mapped]

/-- Commits that are written are the same where what is published of them is, and their parents. -/
theorem Comes.labelled (comes : run.Comes) (answers : ∀ name, luck (.treeOf name) = .ok ())
    (injective : Set.InjOn g.commitTree made) : ∀ n ∈ run.listed, ∀ m ∈ run.listed,
      ¬run.history.Drops rules n →
      ¬run.history.Drops rules m → ∀ x y, run.map[n]? = some x → run.map[m]? = some y →
        (x = y ↔ run.history.label rules n = run.history.label rules m ∧
          run.repo.parents x = run.repo.parents y) := by
  -- What is written of a commit is what is published of it, with its public parents.
  have written : ∀ n ∈ run.listed, ¬run.history.Drops rules n → ∀ x, run.map[n]? = some x →
      ∃ c, (x, c) ∈ run.repo.commits ∧ x = (g.commitTree c).name ∧ run.repo.parents x = c.parents ∧
        run.history.label rules n = some { c with parents := [] } := by
    intro n member keeps x is
    obtain ⟨about, t, parents, settled⟩ := comes.settled n member
    rw [comes.drops_iff answers member settled, Bool.not_eq_true] at keeps
    obtain ⟨maps, found⟩ := settled.written keeps
    obtain rfl := Option.some.inj (is.symm.trans maps)
    refine ⟨_, (comes.named.of_find found).1, rfl, ?_, ?_⟩
    · rw [PublicRepo.parents, found]
      rfl
    · rw [PrivateRepo.label, settled.said, PrivateRepo.shown_of_tree settled.files]
      rfl
  intro n member m member' keeps keeps' x y is is'
  obtain ⟨c, there, name, parents, label⟩ := written n member keeps x is
  obtain ⟨c', there', name', parents', label'⟩ := written m member' keeps' y is'
  rw [label, label', parents, parents', Option.some.injEq]
  constructor
  · intro same
    have names : (g.commitTree c).name = (g.commitTree c').name := by rw [← name, ← name', same]
    obtain rfl := injective (run.within _ there) (run.within _ there') (GitOid.name_injective names)
    exact ⟨rfl, rfl⟩
  · intro both
    obtain ⟨labels, same⟩ := both
    obtain ⟨tree, ps, author, committer, message⟩ := c
    obtain ⟨tree', ps', author', committer', message'⟩ := c'
    obtain rfl : ps = ps' := same
    cases labels
    rw [name, name']

/-- The commit that all listed ones are under. -/
def IsHead (run : Derived g luck rules made) (head : ObjectName) : Prop :=
  head ∈ run.listed ∧ ∀ hex ∈ run.listed, Below run.history.parents hex head

/-- Where something is public, the public head is what the private head maps to. -/
theorem IsHead.image {head : ObjectName} (is : run.IsHead head)
    (injective : Set.InjOn g.commitTree made) (answers : ∀ name, luck (.treeOf name) = .ok ())
    {name : ObjectName} (public_ : run.report.publicHead = some name) :
    run.map[head]? = some name := by
  -- The commit that the public head is for lies below the head, so the head has an image, which
  -- is the last.
  have comes := run.comes_of_injOn injective
  obtain ⟨hex, member, mapped⟩ := comes.some_ name public_
  have some_ := (comes.thinned answers).isSome_of_below is.1 (is.2 hex member) (by rw [mapped]; rfl)
  obtain ⟨x, image⟩ := Option.isSome_iff_exists.mp some_
  have last := comes.last head x (run.first.getLast?_eq is.1 is.2) image
  rw [image, ← last, public_]

/--
Public ancestors follow private ones, and the public head moves forward where the private one does.
-/
structure FastForward (run : Derived g luck rules made) : Prop where
  images : ∀ n ∈ run.listed, ∀ o, Below run.history.parents o n → ∀ y x, run.map[o]? = some y →
    run.map[n]? = some x → Below run.repo.parents y x
  heads : ∀ earlier : Derived g luck rules made, run.Agrees earlier → ∀ o n, earlier.IsHead o →
    run.IsHead n → Below run.history.parents o n → ∀ y x, earlier.report.publicHead = some y →
      run.report.publicHead = some x →
      Below run.repo.parents y x

open Classical in
/--
Publishing never needs a forced push exactly when every dropped commit leaves no parent behind: but
for dropped commits, each parent that can be seen is the same as something under the first one.
-/
theorem fastForward_iff (injective : Set.InjOn g.commitTree made)
    (answers : ∀ name, luck (.treeOf name) = .ok ()) (run : Derived g luck rules made) :
    run.FastForward ↔ ∀ n ∈ run.listed, run.history.Drops rules n →
      ∀ p, IsFirst (run.history.Shows rules) (run.history.parents n) p →
        ∀ q ∈ run.history.parents n, run.history.Shows rules q →
          ∃ a, Below run.history.parents a p ∧
          Alike run.history.parents (run.history.Drops rules) (run.history.Shows rules)
            (run.history.label rules) q a := by
  -- Both derivations come from their turns, and the new one has the commits of the old one.
  have comes := run.comes_of_injOn injective
  rw [← (comes.thinned answers).forward_iff comes.shows_iff (comes.labelled answers injective)]
  constructor
  · intro forward
    exact forward.images
  · intro images
    refine ⟨images, ?_⟩
    intro earlier agrees o n head head' below y x public_ public_'
    -- The old head maps to the same as it did.
    have image := head.image injective answers public_
    rw [agrees.map_eq injective o (run.first.below_mem head'.1 below) head.1] at image
    exact images n head'.1 o below y x image (head'.image injective answers public_')

end Derived

/-- Files with these contents under these paths. -/
def smallFiles (files : List (String × UInt8)) : List GitFile :=
  files.map fun (path, b) => ⟨.regular, plainOid [b], textBytes path.toList⟩

/-- What is in these files. -/
def smallBlobs : List (ObjectName × Bytes) :=
  [(GitOid.name (plainOid [1]), [1]), (GitOid.name (plainOid [2]), [2]),
    (GitOid.name (plainOid [3]), [3])]

/-- Two sides of a merge: the one adds a public file, and the other one a file that is excluded. -/
def quietHistory : PrivateRepo :=
  .ofCommits [("c1".toList, plainCommit [] "start", ⟨smallFiles [("b", 1)], by decide +kernel⟩),
      ("c2".toList, plainCommit ["c1".toList] "hidden",
        ⟨smallFiles [("b", 1), ("fixes/a", 2)], by decide +kernel⟩),
      ("c3".toList, plainCommit ["c1".toList] "shown",
        ⟨smallFiles [("b", 1), ("c", 3)], by decide +kernel⟩),
      ("c4".toList, plainCommit ["c3".toList, "c2".toList] "merge",
        ⟨smallFiles [("b", 1), ("c", 3), ("fixes/a", 2)], by decide +kernel⟩)]
    smallBlobs

def quietRun :
    Derived plainGit noFaults .defaultPub {c | c ∈ (freshCommits .defaultPub quietHistory).map
      Prod.snd} :=
  freshRun .defaultPub quietHistory ["c1".toList, "c2".toList, "c3".toList, "c4".toList] rfl
    (by decide +kernel) (by decide +kernel) (by decide +kernel)

/--
What the derivation of that history comes to, evaluated once: the map, and commits
with names of their own.
-/
theorem quietRun_comes :
    (∀ n ∈ quietRun.listed, quietRun.map[n]? =
      some (plainHead (if n = "c1".toList ∨ n = "c2".toList then "start" else "shown"))) ∧
    (((freshCommits .defaultPub quietHistory).map Prod.snd).map plainGit.commitTree).Nodup := by
  decide +kernel

open Classical in
/-- A merge that is dropped leaves nothing behind where its other side was dropped too. -/
theorem quiet_merge_is_fast_forward :
    quietRun.map[("c4".toList : ObjectName)]? = quietRun.map[("c3".toList : ObjectName)]? ∧
      quietRun.FastForward := by
  -- The history has four commits, and the condition is checked for each of them.
  obtain ⟨mapped, nodup⟩ := quietRun_comes
  have one : quietRun.map[("c1".toList : ObjectName)]? = some (plainHead "start") :=
    mapped _ (by decide)
  have two : quietRun.map[("c2".toList : ObjectName)]? = some (plainHead "start") :=
    mapped _ (by decide)
  have three : quietRun.map[("c3".toList : ObjectName)]? = some (plainHead "shown") :=
    mapped _ (by decide)
  have four : quietRun.map[("c4".toList : ObjectName)]? = some (plainHead "shown") :=
    mapped _ (by decide)
  refine ⟨four.trans three.symm, ?_⟩
  have injective :
      Set.InjOn plainGit.commitTree {c | c ∈ (freshCommits .defaultPub quietHistory).map
      Prod.snd} :=
    commitTree_injOn nodup
  refine (Derived.fastForward_iff injective (fun _ => rfl) quietRun).mpr ?_
  have comes := quietRun.comes_of_injOn injective
  have alike : ∀ q ∈ quietRun.listed, ∀ a ∈ quietRun.listed, (quietRun.map[q]?).isSome →
      quietRun.map[a]? = quietRun.map[q]? →
        Alike quietRun.history.parents (quietRun.history.Drops .defaultPub)
        (quietRun.history.Shows .defaultPub) (quietRun.history.label .defaultPub) q a := by
    intro q member a member' some_ same
    obtain ⟨x, is⟩ := Option.isSome_iff_exists.mp some_
    exact (comes.thinned fun _ => rfl).alike_of_image_eq comes.shows_iff
      (comes.labelled (fun _ => rfl) injective)
      q member a member' x is (same.trans is)
  have parents : ∀ n ∈ quietRun.listed, quietRun.history.parents n = if n = "c1".toList then [] else
      if n = "c4".toList then ["c3".toList, "c2".toList] else ["c1".toList] := by decide
  intro n member _ p first q parent _
  rw [parents n member] at first parent
  split at parent
  · cases parent
  · rename_i notRoot
    rw [if_neg notRoot] at first
    split at parent
    · -- The merge: its first side can be seen, and under it is the commit that the other side
      -- maps to.
      rename_i merge
      rw [if_pos merge] at first
      obtain ⟨front, back, parted, _, unseen⟩ := first
      have seen := (comes.shows_iff "c3".toList (by decide +kernel)).mpr (by decide +kernel)
      rcases front with _ | ⟨x, front⟩
      · obtain ⟨rfl, _⟩ := List.cons.inj parted
        rcases List.mem_cons.mp parent with rfl | other
        · exact ⟨_, .refl, alike _ (by decide) _ (by decide) (Option.isSome_of_mem three) rfl⟩
        · obtain rfl := List.mem_singleton.mp other
          exact ⟨"c1".toList, .single (by decide),
            alike _ (by decide) _ (by decide) (Option.isSome_of_mem two) (one.trans two.symm)⟩
      · obtain ⟨rfl, _⟩ := List.cons.inj parted
        exact absurd seen (unseen _ List.mem_cons_self)
    · rename_i notMerge
      rw [if_neg notMerge] at first
      obtain rfl := List.mem_singleton.mp parent
      obtain rfl := List.mem_singleton.mp first.mem
      exact ⟨_, .refl, alike _ (by decide) _ (by decide) (Option.isSome_of_mem one) rfl⟩

/-- Two sides of a merge with a public file each, where the merge keeps what the first side has. -/
def oursHistory : PrivateRepo :=
  .ofCommits [("c1".toList, plainCommit [] "start", ⟨smallFiles [("b", 1)], by decide +kernel⟩),
      ("c2".toList, plainCommit ["c1".toList] "left",
        ⟨smallFiles [("b", 1), ("c", 3)], by decide +kernel⟩),
      ("c3".toList, plainCommit ["c1".toList] "right",
        ⟨smallFiles [("b", 1), ("d", 2)], by decide +kernel⟩),
      ("c4".toList, plainCommit ["c2".toList, "c3".toList] "merge",
        ⟨smallFiles [("b", 1), ("c", 3)], by decide +kernel⟩)]
    smallBlobs

def oursRun :
    Derived plainGit noFaults .defaultPub {c | c ∈ (freshCommits .defaultPub oursHistory).map
      Prod.snd} :=
  freshRun .defaultPub oursHistory ["c1".toList, "c2".toList, "c3".toList, "c4".toList] rfl
    (by decide +kernel) (by decide +kernel) (by decide +kernel)

/--
What the derivation of that history comes to, evaluated once: two entries of the map,
and the public parents.
-/
theorem oursRun_comes :
    oursRun.map[("c4".toList : ObjectName)]? = some (plainHead "left") ∧
    oursRun.map[("c3".toList : ObjectName)]? = some (plainHead "right") ∧
    oursRun.repo.parents (plainHead "left") = [plainHead "start"] ∧
    oursRun.repo.parents (plainHead "start") = [] := by decide +kernel

/-- A merge that keeps what the first side has leaves the other side behind. -/
theorem dropped_merge_is_not_fast_forward : ¬oursRun.FastForward := by
  -- The side that was merged in is not below the commit that the merge maps to.
  intro forward
  obtain ⟨merged, side, parents, root⟩ := oursRun_comes
  have below : Below oursRun.repo.parents (plainHead "right") (plainHead "left") := by
    refine forward.images _ ?_ _ ?_ _ _ side merged
    · decide
    · exact .single (by decide)
  rcases Relation.ReflTransGen.cases_tail below with same | ⟨p, below', parent⟩
  · exact absurd same (by decide)
  · rw [parents, List.mem_singleton] at parent
    subst parent
    rcases Relation.ReflTransGen.cases_tail below' with same | ⟨p, _, parent⟩
    · exact absurd same (by decide)
    · rw [root] at parent
      cases parent

end NasTools
