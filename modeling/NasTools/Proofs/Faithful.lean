import NasTools.Proofs.Derivation

/-! The public mirror shows every private commit as it is, but for what the rules exclude. -/

namespace NasTools

variable {g : Git} {luck : GitCall → Except String Unit} {rules : MirrorRules}
    {made : Set PublicCommit}

namespace Derived

/-- Two derivations see the same of the commits that both list. -/
def Agrees (run other : Derived g luck rules made) : Prop :=
  ∀ hex ∈ run.listed, hex ∈ other.listed →
    other.history.commit hex = run.history.commit hex ∧
      other.history.tree hex = run.history.tree hex

/-- The map and the trees of a derivation follow the private history. -/
structure Faithful (run : Derived g luck rules made) : Prop where
  mapped : ∀ hex ∈ run.listed, ∀ t, run.history.tree hex = some t → (t.filtered rules).Nonempty →
    (run.map[hex]?).isSome
  trees : ∀ hex name, run.map[hex]? = some name → ∃ t c, run.history.tree hex = some t ∧
    run.repo.find name = some c ∧ treeFiles c.tree = t.filtered rules
  head : ∀ head ∈ run.listed, (∀ hex ∈ run.listed, Below run.history.parents hex head) →
    ∀ name, run.map[head]? = some name → run.report.publicHead = some name
  stable : ∀ other : Derived g luck rules made, run.Agrees other →
    ∀ hex ∈ run.listed, hex ∈ other.listed → other.map[hex]? = run.map[hex]?

variable {run other : Derived g luck rules made}

/-- A commit that both list says the same in both. -/
theorem Agrees.about (agrees : run.Agrees other) {hex : ObjectName} (member : hex ∈ run.listed)
    (member' : hex ∈ other.listed) : other.history.about hex = run.history.about hex := by
  rw [PrivateRepo.about, PrivateRepo.about, (agrees hex member member').1]

/-- The map does not depend on the order of the listing, nor on what else is listed. -/
theorem Agrees.map_eq (injective : Set.InjOn g.commitTree made) (agrees : run.Agrees other) :
    ∀ hex ∈ run.listed, hex ∈ other.listed → other.map[hex]? = run.map[hex]? := by
  -- Both derivations come from their turns, and a commit maps by what its parents map to.
  have comes := run.comes_of_injOn injective
  have comes' := other.comes_of_injOn injective
  refine run.first.induct ?_
  intro hex member ih member'
  obtain ⟨about, t, parents, settled⟩ := comes.settled hex member
  obtain ⟨about', t', parents', settled'⟩ := comes'.settled hex member'
  obtain rfl : about' = about := by
    have same := agrees.about member member'
    rw [settled.said, settled'.said] at same
    exact Option.some.inj same
  obtain rfl : t' = t := by
    have same := (agrees hex member member').2
    rw [settled.files, settled'.files] at same
    exact Option.some.inj same
  -- Its parents are listed in both, and map to the same.
  obtain rfl : parents' = parents := by
    rw [settled.mapped, settled'.mapped]
    apply List.filterMap_congr
    intro p parent
    have above := PrivateRepo.parents_of_about settled.said
    have above' := PrivateRepo.parents_of_about settled'.said
    rw [← above] at parent
    refine ih p parent ?_
    rw [above, ← above'] at parent
    exact other.first.parent_mem member' parent
  -- One name stands for one commit in both repositories.
  have trees : ∀ p ∈ parents', other.repo.treeOf luck p = run.repo.treeOf luck p := by
    intro p inside
    have inside' := inside
    rw [settled.mapped] at inside
    rw [settled'.mapped] at inside'
    obtain ⟨q, _, is⟩ := List.mem_filterMap.mp inside
    obtain ⟨q', _, is'⟩ := List.mem_filterMap.mp inside'
    obtain ⟨c, found⟩ := comes.found q p is
    obtain ⟨c', found'⟩ := comes'.found q' p is'
    obtain ⟨there, name⟩ := comes.named.of_find found
    obtain ⟨there', name'⟩ := comes'.named.of_find found'
    obtain rfl :=
      injective (run.within _ there) (other.within _ there')
      (GitOid.name_injective (name.symm.trans name'))
    rw [PublicRepo.treeOf_of_find found, PublicRepo.treeOf_of_find found']
  have test :
      dropsCommit luck rules other.repo t' parents' = dropsCommit luck rules run.repo t' parents' :=
    dropsCommit_congr trees
  cases drops : dropsCommit luck rules run.repo t' parents' with
  | true => rw [settled.dropped drops, settled'.dropped (test.trans drops)]
  | false => rw [(settled.written drops).1, (settled'.written (test.trans drops)).1]

/-- In a derivation that is faithful, printing changes nothing of what is let through. -/
theorem Faithful.printed (faithful : run.Faithful) (injective : Set.InjOn g.commitTree made)
    {hex : ObjectName} (member : hex ∈ run.listed) {t : GitTree}
    (files : run.history.tree hex = some t) :
    t.printedOpen rules = t.filtered rules := by
  -- Every commit that can be seen is faithful, and the others show nothing.
  have comes := run.comes_of_injOn injective
  obtain ⟨about, t', parents, settled⟩ := comes.settled hex member
  obtain rfl : t' = t := Option.some.inj (settled.files.symm.trans files)
  cases is : run.map[hex]? with
  | none =>
    -- What is not mapped shows nothing, and would be mapped if there were anything to show.
    have nothing : t'.filtered rules = ∅ := by
      rw [← Set.not_nonempty_iff_eq_empty]
      intro some_
      have there := faithful.mapped hex member t' files some_
      rw [is] at there
      cases there
    rw [nothing, GitTree.printedOpen_of_kept_nil (settled.kept_of_unmapped is)]
  | some name =>
    obtain ⟨t, c, files', found, tree⟩ := faithful.trees hex name is
    obtain ⟨c', found', tree'⟩ := settled.tree_of_mapped comes.found is
    obtain rfl := Option.some.inj (files.symm.trans files')
    obtain rfl := Option.some.inj (found.symm.trans found')
    rw [← tree, tree', GitTree.treeFiles_shown]

/--
A derivation is faithful exactly when, of every private tree, the files let through under the paths
git prints are the files that the rules let through.
-/
theorem faithful_iff (injective : Set.InjOn g.commitTree made) (run : Derived g luck rules made) :
    run.Faithful ↔ ∀ hex ∈ run.listed, ∀ t, run.history.tree hex = some t →
      t.printedOpen rules = t.filtered rules := by
  -- What a commit shows is what its printed lines let through, so the trees agree if the lines
  -- do.
  constructor
  · intro faithful hex member t files
    exact faithful.printed injective member files
  · intro printed
    have comes := run.comes_of_injOn injective
    refine ⟨?_, ?_, ?_, ?_⟩
    · intro hex member t files some_
      obtain ⟨about, t', parents, settled⟩ := comes.settled hex member
      obtain rfl : t' = t := Option.some.inj (settled.files.symm.trans files)
      cases is : run.map[hex]? with
      | none =>
        rw [← printed hex member t' files,
          GitTree.printedOpen_of_kept_nil (settled.kept_of_unmapped is)] at some_
        exact absurd some_ Set.not_nonempty_empty
      | some name => rfl
    · intro hex name is
      have member := comes.keys hex name is
      obtain ⟨about, t, parents, settled⟩ := comes.settled hex member
      obtain ⟨c, found, tree⟩ := settled.tree_of_mapped comes.found is
      refine ⟨t, c, settled.files, found, ?_⟩
      rw [tree, GitTree.treeFiles_shown, printed hex member t settled.files]
    · intro head member all name is
      exact comes.last head name (run.first.getLast?_eq member all) is
    · intro other agrees
      exact agrees.map_eq injective

end Derived

/-- Where every path is printed as it is, printing changes nothing of what is let through. -/
theorem GitTree.printedOpen_of_plain {t : GitTree}
    (plain : ∀ f ∈ t.files, textBytes (Quoting.quote f.path) = f.path) :
    t.printedOpen rules = t.filtered rules := by
  -- A plain path is quoted as it is, so the rules see the path itself.
  ext e
  constructor
  · intro found
    obtain ⟨f, member, through, rfl⟩ := found
    rw [excluded, plain f member] at through
    exact ⟨f, member, through, by rw [plain f member]⟩
  · intro found
    obtain ⟨f, member, through, rfl⟩ := found
    refine ⟨f, member, ?_, by rw [plain f member]⟩
    rw [excluded, plain f member]
    exact through

/-- The commits that a derivation into nothing leaves, when nothing fails. -/
def freshCommits (rules : MirrorRules) (history : PrivateRepo) : List (ObjectName × PublicCommit) :=
  (derive plainGit noFaults history rules .absent).dir.contents.commits

/-- What such a derivation reports. -/
def freshReport (rules : MirrorRules) (history : PrivateRepo) : Derive :=
  (derive plainGit noFaults history rules .absent).outcome.toOption.getD ⟨none, 0, 0⟩

/-- A derivation into nothing, when nothing fails. -/
def freshRun (rules : MirrorRules) (history : PrivateRepo) (listed : List ObjectName)
    (lists : history.listed = some listed) (first : ParentsFirst history.parents listed)
    (lines : [] ∉ listed) (done : (derive plainGit noFaults history rules .absent).outcome =
      .ok (freshReport rules history)) :
    Derived plainGit noFaults rules {c | c ∈ (freshCommits rules history).map Prod.snd} where
  history := history
  dir := .absent
  listed := listed
  report := freshReport rules history
  lists := by rw [lists]; rfl
  first := first
  lines := lines
  named := fun c member => nomatch member
  done := done
  within := fun c member => List.mem_map_of_mem member

/-- Commits with names of their own. -/
theorem commitTree_injOn {commits : List PublicCommit}
    (nodup : (commits.map plainGit.commitTree).Nodup) :
    Set.InjOn plainGit.commitTree {c | c ∈ commits} := by
  intro a inA b inB same
  exact List.inj_on_of_nodup_map nodup inA inB same

/-- Two commits, the later one with a file under an excluded directory beside the public one. -/
def growingHistory : PrivateRepo :=
  .ofCommits [("c1".toList, plainCommit [] "start",
    ⟨[⟨.regular, plainOid [2], textBytes "b".toList⟩], by decide⟩),
      ("c2".toList, plainCommit ["c1".toList] "more",
        ⟨[⟨.regular, plainOid [2], textBytes "b".toList⟩,
        ⟨.regular, plainOid [3], textBytes "c".toList⟩,
        ⟨.regular, plainOid [1], textBytes "fixes/a".toList⟩],
        by decide⟩)]
    [(GitOid.name (plainOid [1]), [1]), (GitOid.name (plainOid [2]), [2]),
      (GitOid.name (plainOid [3]), [3])]

def growingRun :
    Derived plainGit noFaults .defaultPub {c | c ∈ (freshCommits .defaultPub growingHistory).map
      Prod.snd} :=
  freshRun .defaultPub growingHistory ["c1".toList, "c2".toList] rfl (by decide) (by decide)
    (by decide +kernel)

/-- A growing history with plain names is derived faithfully. -/
theorem growing_history_is_faithful :
    growingRun.Faithful ∧ growingRun.report.publicHead =
      some (plainOid (textBytes "more".toList)).name := by
  -- The names are checked one by one, and commits that differ get different names.
  have evaluated :
    (((freshCommits .defaultPub growingHistory).map Prod.snd).map plainGit.commitTree).Nodup ∧
      growingRun.report.publicHead = some (plainOid (textBytes "more".toList)).name := by
        decide +kernel
  refine ⟨(Derived.faithful_iff (commitTree_injOn evaluated.1) growingRun).mpr ?_, evaluated.2⟩
  intro hex member t files
  apply GitTree.printedOpen_of_plain
  have plain : ∀ hex ∈ growingRun.listed, (growingHistory.tree hex).all (fun t =>
      t.files.all fun f => textBytes (Quoting.quote f.path) == f.path) = true := by decide
  have here := plain hex member
  rw [show growingHistory.tree hex = some t from files, Option.all_some, List.all_eq_true] at here
  intro f inside
  exact beq_iff_eq.mp (here f inside)

/-- One commit with one file, whose name has an accent. -/
def frenchHistory : PrivateRepo :=
  .ofCommits [("c1".toList, plainCommit [] "start",
    ⟨[⟨.regular, plainOid [1], textBytes "é".toList⟩], by decide⟩)]
    [(GitOid.name (plainOid [1]), [1])]

def frenchRun :
    Derived plainGit noFaults .defaultPub {c | c ∈ (freshCommits .defaultPub frenchHistory).map
      Prod.snd} :=
  freshRun .defaultPub frenchHistory ["c1".toList] rfl (by decide) (by decide) (by decide)

/-- A file whose name has an accent is published under another name. -/
theorem accent_is_not_carried_over :
    frenchRun.report.publicHead = some (plainOid (textBytes "start".toList)).name ∧
      ¬frenchRun.Faithful := by
  -- The file is among those that should be shown, and the tree that was written holds it under
  -- another name.
  have evaluated : frenchRun.report.publicHead = some (plainOid (textBytes "start".toList)).name ∧
      (((freshCommits .defaultPub frenchHistory).map Prod.snd).map plainGit.commitTree).Nodup := by
        decide
  refine ⟨evaluated.1, ?_⟩
  intro faithful
  have same := faithful.printed (commitTree_injOn evaluated.2) (List.mem_singleton_self _) rfl
  have there : (textBytes "é".toList, "100644".toList, GitOid.name (plainOid [1])) ∈
      GitTree.filtered ⟨[⟨.regular, plainOid [1], textBytes "é".toList⟩], by decide⟩ .defaultPub :=
    ⟨_, List.mem_singleton_self _, by decide, rfl⟩
  rw [← same] at there
  obtain ⟨f, member, _, is⟩ := there
  obtain rfl := List.mem_singleton.mp member
  exact absurd (congrArg Prod.fst is) (by decide)

end NasTools
