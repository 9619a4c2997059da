import NasTools.Lib.Thinning
import NasTools.Proofs.Excludes

/-!
What a derivation of the public mirror comes to: one public commit for each private
one, whatever the order.
-/

namespace NasTools

/-- Objects of one name have one hash. -/
theorem GitOid.name_injective : Function.Injective GitOid.name := by
  intro a b same
  have bytes := congrArg Text.parseHexBytes same
  rw [GitOid.name, GitOid.name, Text.parseHexBytes_toHex, Text.parseHexBytes_toHex] at bytes
  exact FixedBytes.ext (Option.some.inj bytes)

/-- The tree that is written of a private commit. -/
def GitTree.shown (t : GitTree) (rules : MirrorRules) : WrittenTree :=
  (t.kept rules).foldl (fun index f => index.insert f.path (f.mode, f.oid)) ∅

namespace PrivateRepo

variable (private_ : PrivateRepo)

/-- What a commit says of itself. -/
def about (hex : ObjectName) : Option CommitMeta :=
  (private_.commit hex).bind fun raw => (parseCommit raw).toOption

def parents (hex : ObjectName) : List ObjectName :=
  ((private_.about hex).map CommitMeta.parents).getD []

end PrivateRepo

namespace PublicRepo

/-- The commit with a name. -/
def find (r : PublicRepo) (name : ObjectName) : Option PublicCommit :=
  (r.commits.find? (·.1 == name)).map (·.2)

def parents (r : PublicRepo) (name : ObjectName) : List ObjectName :=
  ((r.find name).map PublicCommit.parents).getD []

/-- Every commit is under the name git gives it. -/
def Named (r : PublicRepo) (g : Git) : Prop := ∀ c ∈ r.commits, c.1 = (g.commitTree c.2).name

variable {r r' : PublicRepo} {luck : GitCall → Except String Unit}

/-- Git tells the tree of a commit that is there. -/
theorem treeOf_of_find {name : ObjectName} {c : PublicCommit} (found : r.find name = some c) :
    r.treeOf luck name = match luck (.treeOf name) with
      | .error _ => none
      | .ok () => some c.tree := by
  obtain ⟨made, here, rfl⟩ := Option.map_eq_some_iff.mp found
  rw [treeOf, here]
  rfl

/-- What was found is found after more is written. -/
theorem find_append {name : ObjectName} {c : PublicCommit} {more : List (ObjectName × PublicCommit)}
    (after : r'.commits = r.commits ++ more) (found : r.find name = some c) :
      r'.find name = some c := by
  obtain ⟨made, here, rfl⟩ := Option.map_eq_some_iff.mp found
  rw [find, after, List.find?_append, here]
  rfl

/-- What is found is under its name. -/
theorem Named.of_find {g : Git} (named : r.Named g) {name : ObjectName} {c : PublicCommit}
    (found : r.find name = some c) :
    (name, c) ∈ r.commits ∧ name = (g.commitTree c).name := by
  -- The commit that is found carries its own name.
  obtain ⟨made, here, rfl⟩ := Option.map_eq_some_iff.mp found
  have member := List.mem_of_find?_eq_some here
  have same : made.1 = name := by simpa using List.find?_some here
  rw [← same]
  exact ⟨member, named made member⟩

/-- A commit is found under its name where no other one has that name. -/
theorem Named.find_of_mem {g : Git} {made : Set PublicCommit} (named : r.Named g)
    (injective : Set.InjOn g.commitTree made) (within : ∀ c ∈ r.commits, c.2 ∈ made)
    {name : ObjectName} {c : PublicCommit} (member : (name, c) ∈ r.commits) :
    r.find name = some c := by
  -- Another commit of the same name would have to be the same commit.
  obtain ⟨found, here⟩ : ∃ found, r.commits.find? (·.1 == name) = some found :=
    Option.isSome_iff_exists.mp (List.find?_isSome.mpr ⟨(name, c), member, by simp⟩)
  have inside := List.mem_of_find?_eq_some here
  have same : found.1 = name := by simpa using List.find?_some here
  have names : (g.commitTree found.2).name = (g.commitTree c).name := by
    rw [← named found inside, same]
    exact named _ member
  rw [find, here, Option.map_some,
    injective (within _ inside) (within _ member) (GitOid.name_injective names)]

end PublicRepo

variable {g : Git} {luck : GitCall → Except String Unit} {private_ : PrivateRepo}
    {rules : MirrorRules}

/-- A tree that is written holds the files that were given, each under its path. -/
theorem updateIndex_eq {files : List TreeEnt} {index tree : WrittenTree}
    (done : updateIndex g luck files index = .ok tree) :
    tree = files.foldl (fun index f => index.insert f.path (f.mode, f.oid)) index := by
  -- Induction over the files: each that is accepted is inserted.
  induction files generalizing index with
  | nil =>
    cases done
    rfl
  | cons f files ih => exact ih (updateIndex_cons done)

/-- What is read of a commit is what it says, and its files that the rules leave in. -/
theorem readCommit_ok {hex : ObjectName} {about : CommitMeta} {kept : List TreeEnt}
    (read : readCommit luck private_ rules hex = .ok (about, kept)) :
    private_.about hex = some about ∧ ∃ t, private_.tree hex = some t ∧ kept = t.kept rules := by
  -- Each question to git is answered from the private repository.
  have whole := read
  simp only [readCommit, except_bind_eq_ok] at read
  obtain ⟨raw, given, about', parsed, t, found, files, listed, same⟩ := read
  cases same
  simp only [gitAnswered, except_bind_eq_ok] at given found
  obtain ⟨_, _, given⟩ := given
  obtain ⟨_, _, found⟩ := found
  refine ⟨?_, ?_⟩
  · rcases is : private_.commit hex with _ | raw'
    · rw [is] at given
      cases given
    · rw [is] at given
      cases given
      rw [PrivateRepo.about, is, Option.bind_some, parsed]
      rfl
  · rcases is : private_.tree hex with _ | t'
    · rw [is] at found
      cases found
    · exact ⟨t', rfl, kept_of_readCommit is whole⟩

/-- The public commit that a private one is rewritten to. -/
def rewritten (rules : MirrorRules) (about : CommitMeta) (tree : WrittenTree)
    (parents : List ObjectName) : PublicCommit :=
  ⟨tree, parents, about.author, about.committer,
    if rules.filterMessages then filterMsg about.message rules else about.message⟩

/-- Whether a commit with these files and public parents is dropped. -/
def dropsCommit (luck : GitCall → Except String Unit) (rules : MirrorRules) (r : PublicRepo)
    (t : GitTree) (parents : List ObjectName) : Bool :=
  rules.dropEmptyCommits && changesNothing luck r (t.kept rules) parents (t.shown rules)

/--
How one private commit is dealt with: what it maps to, if to anything, and what is written for it.
-/
structure Turn (g : Git) (luck : GitCall → Except String Unit) (private_ : PrivateRepo)
    (rules : MirrorRules) (hex : ObjectName) (d d' : Deriving) (about : CommitMeta) (t : GitTree)
    (parents : List ObjectName) (outcome : Option ObjectName)
    (more : List (ObjectName × PublicCommit)) : Prop where
  said : private_.about hex = some about
  files : private_.tree hex = some t
  mapped : parents = about.parents.filterMap fun p => d.map[p]?
  commits : d'.repo.commits = d.repo.commits ++ more
  map : d'.map = match outcome with
    | none => d.map
    | some p => d.map.insert hex p
  last : d'.lastPublic = outcome.or d.lastPublic
  dropped : dropsCommit luck rules d.repo t parents = true → more = [] ∧ outcome = parents.head?
  written : dropsCommit luck rules d.repo t parents = false →
    more = [((g.commitTree (rewritten rules about (t.shown rules) parents)).name,
        rewritten rules about (t.shown rules) parents)] ∧
      outcome = some (g.commitTree (rewritten rules about (t.shown rules) parents)).name

/-- Copying blobs writes no commit. -/
theorem copyBlobs_commits {files : List TreeEnt} {r r' : PublicRepo} {copied : Except String Unit}
    (done : copyBlobs g luck private_ files r = (copied, r')) : r'.commits = r.commits := by
  -- Induction over the files: copying a blob writes no commit.
  induction files generalizing r with
  | nil =>
    cases done
    rfl
  | cons f files ih =>
    have one : (copyBlob g luck private_ f.oid r).2.commits = r.commits := by
      unfold copyBlob
      split
      · rfl
      · dsimp only
        split <;> rfl
    rw [copyBlobs] at done
    split at done
    · rename_i failed
      rw [failed] at one
      cases done
      exact one
    · rename_i first
      rw [first] at one
      exact (ih done).trans one

/-- Whether a commit changes anything depends on the commits that are there already. -/
theorem changesNothing_congr {r r' : PublicRepo} (same : r'.commits = r.commits)
    (kept : List TreeEnt) (parents : List ObjectName) (tree : WrittenTree) :
    changesNothing luck r' kept parents tree = changesNothing luck r kept parents tree := by
  unfold changesNothing PublicRepo.treeOf
  rw [same]

/-- A commit that is rewritten takes one turn of the loop. -/
theorem rewriteCommit_ok {hex : ObjectName} {d d' : Deriving}
    (done : rewriteCommit g luck private_ rules hex d = (.ok (), d')) :
    ∃ about t parents outcome more, Turn g luck private_ rules hex d d' about t parents
      outcome more := by
  -- Every step before the end has succeeded, and it stored no commit but the last.
  unfold rewriteCommit at done
  split at done
  · cases done
  rename_i about kept read
  obtain ⟨said, t, tree, rfl⟩ := readCommit_ok read
  split at done
  · cases done
  rename_i repo copied
  have commits := copyBlobs_commits copied
  split at done
  · cases done
  rename_i written wrote
  obtain rfl : written = t.shown rules := by
    simp only [writeTree, except_bind_eq_ok, except_pure_eq, Except.ok.injEq] at wrote
    obtain ⟨index, filled, _, _, rfl⟩ := wrote
    exact updateIndex_eq filled
  dsimp only at done
  -- What was stored meanwhile is no commit, so it does not matter for the test.
  have test : changesNothing luck { repo with trees := repo.trees ++ [t.shown rules] }
    (t.kept rules) (about.parents.filterMap fun p => d.map[p]?) (t.shown rules) =
        changesNothing luck d.repo (t.kept rules) (about.parents.filterMap fun p => d.map[p]?)
          (t.shown rules) :=
    changesNothing_congr commits _ _ _
  rcases drops : rules.dropEmptyCommits && changesNothing luck d.repo (t.kept rules)
      (about.parents.filterMap fun p => d.map[p]?) (t.shown rules)
  · rw [test, drops, if_neg Bool.false_ne_true] at done
    split at done
    · cases done
    · cases done
      exact ⟨about, t, _, _, _, said, tree, rfl, by rw [← commits]; rfl, rfl, rfl,
        fun drops' => absurd (drops'.symm.trans drops) Bool.noConfusion, fun _ => ⟨rfl, rfl⟩⟩
  · rw [test, if_pos drops] at done
    have keeps : ∀ {P : Prop},
        dropsCommit luck rules d.repo t (about.parents.filterMap fun p => d.map[p]?) = false → P :=
      fun keeps => absurd (keeps.symm.trans drops) Bool.noConfusion
    split at done
    · rename_i none
      cases done
      exact ⟨about, t, _, _, _, said, tree, rfl, by rw [← commits, List.append_nil], rfl, rfl,
        fun _ => ⟨rfl, none.symm⟩, keeps⟩
    · rename_i p first
      cases done
      exact ⟨about, t, _, _, _, said, tree, rfl, by rw [← commits, List.append_nil], rfl, rfl,
        fun _ => ⟨rfl, first.symm⟩, keeps⟩

/--
A private commit is dealt with for good: what it maps to follows from what its parents map to.

This says the same of every public repository and map that hold at least what they held then.
-/
structure CommitSettled (g : Git) (luck : GitCall → Except String Unit) (private_ : PrivateRepo)
    (rules : MirrorRules) (r : PublicRepo) (map : OrdMap ObjectName ObjectName) (hex : ObjectName)
    (about : CommitMeta) (t : GitTree) (parents : List ObjectName) : Prop where
  said : private_.about hex = some about
  files : private_.tree hex = some t
  mapped : parents = about.parents.filterMap fun p => map[p]?
  dropped : dropsCommit luck rules r t parents = true → map[hex]? = parents.head?
  written : dropsCommit luck rules r t parents = false →
    map[hex]? = some (g.commitTree (rewritten rules about (t.shown rules) parents)).name ∧
      r.find (g.commitTree (rewritten rules about (t.shown rules) parents)).name =
        some (rewritten rules about (t.shown rules) parents)

/-- What holds of a derivation while some commits are done. -/
structure Along (g : Git) (luck : GitCall → Except String Unit) (private_ : PrivateRepo)
    (rules : MirrorRules) (done : List ObjectName) (d : Deriving) : Prop where
  named : d.repo.Named g
  keys : ∀ hex name, d.map[hex]? = some name → hex ∈ done
  found : ∀ (hex name : ObjectName), d.map[hex]? = some name → ∃ c, d.repo.find name = some c
  settled : ∀ hex ∈ done, ∃ about t parents, CommitSettled g luck private_ rules d.repo d.map hex
    about t parents
  last : ∀ hex name, done.getLast? = some hex → d.map[hex]? = some name → d.lastPublic = some name
  some_ : ∀ name, d.lastPublic = some name → ∃ hex ∈ done, d.map[hex]? = some name

/-- Whether a commit is dropped depends on the first of its public parents. -/
theorem dropsCommit_congr {r r' : PublicRepo} {t : GitTree} {parents : List ObjectName}
    (same : ∀ p ∈ parents, r'.treeOf luck p = r.treeOf luck p) :
    dropsCommit luck rules r' t parents = dropsCommit luck rules r t parents := by
  unfold dropsCommit changesNothing
  rcases parents with _ | ⟨p, parents⟩
  · rfl
  · simp only [List.head?_cons, same p List.mem_cons_self]

/--
Where the public parents are there already, nothing that is written later changes
whether a commit is dropped.
-/
theorem dropsCommit_grows {r r' : PublicRepo} {t : GitTree} {parents : List ObjectName}
    (known : ∀ p ∈ parents, ∃ c, r.find p = some c)
    (finds : ∀ name c, r.find name = some c → r'.find name = some c) :
    dropsCommit luck rules r' t parents = dropsCommit luck rules r t parents := by
  apply dropsCommit_congr
  intro p member
  obtain ⟨c, found⟩ := known p member
  rw [PublicRepo.treeOf_of_find found, PublicRepo.treeOf_of_find (finds p c found)]

/-- A commit stays settled while the map and the repository only grow. -/
theorem CommitSettled.grows {r r' : PublicRepo} {map map' : OrdMap ObjectName ObjectName}
    {hex : ObjectName} {about : CommitMeta} {t : GitTree} {parents : List ObjectName}
    (settled : CommitSettled g luck private_ rules r map hex about t parents)
    (here : map'[hex]? = map[hex]?) (above : ∀ p ∈ about.parents, map'[p]? = map[p]?)
    (known : ∀ p ∈ parents, ∃ c, r.find p = some c)
    (finds : ∀ name c, r.find name = some c → r'.find name = some c) :
    CommitSettled g luck private_ rules r' map' hex about t parents := by
  -- Later turns change neither the map of its parents nor the commits it refers to.
  have same : dropsCommit luck rules r' t parents = dropsCommit luck rules r t parents :=
    dropsCommit_grows known finds
  refine ⟨settled.said, settled.files, ?_, ?_, ?_⟩
  · rw [settled.mapped]
    exact (List.filterMap_congr above).symm
  · intro drops
    rw [here]
    exact settled.dropped (same ▸ drops)
  · intro keeps
    obtain ⟨maps, found⟩ := settled.written (same ▸ keeps)
    exact ⟨here.trans maps, finds _ _ found⟩

/-- What a settled commit maps to is there, where its public parents are. -/
theorem CommitSettled.found {r : PublicRepo} {map : OrdMap ObjectName ObjectName}
    {hex name : ObjectName} {about : CommitMeta} {t : GitTree} {parents : List ObjectName}
    (settled : CommitSettled g luck private_ rules r map hex about t parents)
    (known : ∀ p ∈ parents, ∃ c, r.find p = some c) (is : map[hex]? = some name) :
    ∃ c, r.find name = some c := by
  -- The commit was dropped, or written anew.
  cases drops : dropsCommit luck rules r t parents with
  | true =>
    -- A commit that is dropped maps to its first public parent.
    have first := settled.dropped drops
    rw [is] at first
    exact known name (List.mem_of_mem_head? first.symm)
  | false =>
    obtain ⟨maps, found⟩ := settled.written drops
    obtain rfl := Option.some.inj (is.symm.trans maps)
    exact ⟨_, found⟩

/-- The parents are those that the commit names. -/
theorem PrivateRepo.parents_of_about {hex : ObjectName} {about : CommitMeta}
    (said : private_.about hex = some about) :
    private_.parents hex = about.parents := by
  rw [PrivateRepo.parents, said]
  rfl

variable {made : Set PublicCommit}

namespace Turn

variable {hex : ObjectName} {d d' : Deriving} {about : CommitMeta} {t : GitTree}
    {parents : List ObjectName}
  {outcome : Option ObjectName} {more : List (ObjectName × PublicCommit)}

/-- A commit that the map did not have maps to what its turn came to. -/
theorem map_own (turn : Turn g luck private_ rules hex d d' about t parents outcome more)
    (fresh : d.map[hex]? = none) :
    d'.map[hex]? = outcome := by
  rw [turn.map]
  cases outcome with
  | none => exact fresh
  | some p => exact Std.ExtTreeMap.getElem?_insert_self

/-- No other commit maps to anything else than before. -/
theorem map_other (turn : Turn g luck private_ rules hex d d' about t parents outcome more)
    {x : ObjectName} (apart : x ≠ hex) : d'.map[x]? = d.map[x]? := by
  -- A turn maps its own commit and no other.
  rw [turn.map]
  cases outcome with
  | none => rfl
  | some p =>
    rw [Std.ExtTreeMap.getElem?_insert, if_neg]
    simpa using apart.symm

/-- What is written for a commit is under the name git gives it. -/
theorem named (turn : Turn g luck private_ rules hex d d' about t parents outcome more)
    (named : d.repo.Named g) :
    d'.repo.Named g := by
  -- The commit that a turn writes is named by git.
  intro c member
  rw [turn.commits] at member
  rcases List.mem_append.mp member with old | new
  · exact named c old
  · cases drops : dropsCommit luck rules d.repo t parents with
    | true =>
      rw [(turn.dropped drops).1] at new
      cases new
    | false =>
      rw [(turn.written drops).1, List.mem_singleton] at new
      rw [new]

/-- The commit is settled by its turn, when its parents had theirs before. -/
theorem settled (turn : Turn g luck private_ rules hex d d' about t parents outcome more)
    (fresh : d.map[hex]? = none) (before : ∀ p ∈ about.parents, d'.map[p]? = d.map[p]?)
    (known : ∀ p ∈ parents, ∃ c, d.repo.find p = some c) (named : d.repo.Named g)
    (injective : Set.InjOn g.commitTree made) (within : ∀ c ∈ d'.repo.commits, c.2 ∈ made) :
    CommitSettled g luck private_ rules d'.repo d'.map hex about t parents := by
  -- The test of whether it is dropped comes out as it did in its turn.
  have same : dropsCommit luck rules d'.repo t parents = dropsCommit luck rules d.repo t parents :=
    dropsCommit_grows known fun _ _ found => PublicRepo.find_append turn.commits found
  refine ⟨turn.said, turn.files, ?_, ?_, ?_⟩
  · rw [turn.mapped]
    exact (List.filterMap_congr before).symm
  · intro drops
    rw [turn.map_own fresh]
    exact (turn.dropped (same ▸ drops)).2
  · intro keeps
    obtain ⟨wrote, maps⟩ := turn.written (same ▸ keeps)
    -- The new commit is found under its own name, for no other commit has that name.
    refine ⟨(turn.map_own fresh).trans maps, (turn.named named).find_of_mem injective within ?_⟩
    rw [turn.commits, wrote]
    exact List.mem_append_right _ (List.mem_singleton_self _)

end Turn

/-- What some commits map to is there. -/
theorem Along.known {done above parents : List ObjectName} {d : Deriving}
    (along : Along g luck private_ rules done d)
    (mapped : parents = above.filterMap fun p => d.map[p]?) :
    ∀ p ∈ parents, ∃ c, d.repo.find p = some c := by
  intro p member
  rw [mapped] at member
  obtain ⟨q, _, is⟩ := List.mem_filterMap.mp member
  exact along.found q p is

/-- One more commit is dealt with. -/
theorem Along.turn {done : List ObjectName} {hex : ObjectName} {d d' : Deriving}
    {about : CommitMeta} {t : GitTree} {parents : List ObjectName} {outcome : Option ObjectName}
    {more : List (ObjectName × PublicCommit)} (along : Along g luck private_ rules done d)
    (first : ParentsFirst private_.parents (done ++ [hex]))
    (turn : Turn g luck private_ rules hex d d' about t parents outcome more)
    (injective : Set.InjOn g.commitTree made) (within : ∀ c ∈ d'.repo.commits, c.2 ∈ made) :
    Along g luck private_ rules (done ++ [hex]) d' := by
  -- The commit was not dealt with before, and all others stay settled.
  have fresh : hex ∉ done := by
    intro member
    exact (List.nodup_append.mp first.nodup).2.2 hex member hex (List.mem_singleton_self hex) rfl
  have unmapped : d.map[hex]? = none := by
    by_contra some_
    obtain ⟨name, is⟩ := Option.ne_none_iff_exists'.mp some_
    exact fresh (along.keys hex name is)
  have before : ∀ p ∈ about.parents, p ∈ done := by
    intro p parent
    rw [← PrivateRepo.parents_of_about turn.said] at parent
    exact first.before done hex [] rfl p parent
  -- What the map says of this commit is new, and nothing else in it changes.
  have elders : ∀ x ∈ done, d'.map[x]? = d.map[x]? := fun x member => turn.map_other fun same =>
    fresh (same ▸ member)
  have finds : ∀ name c, d.repo.find name = some c → d'.repo.find name = some c :=
    fun name c found => PublicRepo.find_append turn.commits found
  have settled :=
    turn.settled unmapped (fun p parent => elders p (before p parent)) (along.known turn.mapped)
    along.named injective within
  refine ⟨turn.named along.named, ?_, ?_, ?_, ?_, ?_⟩
  · intro x name is
    by_cases same : x = hex
    · simp [same]
    · rw [turn.map_other same] at is
      exact List.mem_append_left _ (along.keys x name is)
  · intro x name is
    by_cases same : x = hex
    · subst same
      refine settled.found (fun p member => ?_) is
      obtain ⟨c, found⟩ := along.known turn.mapped p member
      exact ⟨c, finds p c found⟩
    · rw [turn.map_other same] at is
      obtain ⟨c, found⟩ := along.found x name is
      exact ⟨c, finds name c found⟩
  · intro x member
    rcases List.mem_append.mp member with old | new
    · -- A commit that was settled stays so, for its parents are older still.
      obtain ⟨about', t', parents', settled'⟩ := along.settled x old
      refine ⟨about', t', parents',
        settled'.grows (elders x old) ?_ (along.known settled'.mapped) finds⟩
      intro p parent
      rw [← PrivateRepo.parents_of_about settled'.said] at parent
      exact elders p (first.front.parent_mem old parent)
    · obtain rfl := List.mem_singleton.mp new
      exact ⟨about, t, parents, settled⟩
  · intro x name last is
    obtain rfl : hex = x := by simpa using last
    rw [turn.map_own unmapped] at is
    rw [turn.last, is]
    rfl
  · intro name last
    rw [turn.last] at last
    cases is : outcome with
    | none =>
      rw [is] at last
      obtain ⟨x, member, maps⟩ := along.some_ name last
      exact ⟨x, List.mem_append_left _ member, (elders x member).trans maps⟩
    | some p =>
      rw [is] at last
      exact ⟨hex, by simp, by rw [turn.map_own unmapped, is]; exact last⟩

/-- One turn that goes through, and the ones after it. -/
theorem rewriteCommits_cons {hex : ObjectName} {rest : List ObjectName} {d d' : Deriving}
    (line : hex ≠ []) (ran : rewriteCommits g luck private_ rules (hex :: rest) d = (.ok (), d')) :
    ∃ d₁, rewriteCommit g luck private_ rules hex d = (.ok (), d₁) ∧
      rewriteCommits g luck private_ rules rest d₁ = (.ok (), d') := by
  -- A line that is not empty is a commit to rewrite, and the rest follows it.
  rw [rewriteCommits, if_neg line] at ran
  split at ran
  · cases ran
  · rename_i d₁ turned
    exact ⟨d₁, turned, ran⟩

/-- No commit that is written goes away again. -/
theorem rewriteCommits_grows {rest : List ObjectName} {d d' : Deriving} (lines : [] ∉ rest)
    (ran : rewriteCommits g luck private_ rules rest d = (.ok (), d')) :
      d.repo.commits <+: d'.repo.commits := by
  -- Induction over the list: each turn adds commits at the end.
  induction rest generalizing d with
  | nil =>
    cases ran
    exact List.prefix_rfl
  | cons hex rest ih =>
    rw [List.mem_cons, not_or] at lines
    obtain ⟨d₁, turned, later⟩ := rewriteCommits_cons (Ne.symm lines.1) ran
    obtain ⟨_, _, _, _, more, turn⟩ := rewriteCommit_ok turned
    exact (turn.commits ▸ List.prefix_append d.repo.commits more).trans (ih lines.2 later)

/-- All that are left are dealt with in turn. -/
theorem Along.run {done rest : List ObjectName} {d d' : Deriving}
    (along : Along g luck private_ rules done d)
    (first : ParentsFirst private_.parents (done ++ rest)) (lines : [] ∉ rest)
    (ran : rewriteCommits g luck private_ rules rest d = (.ok (), d'))
    (injective : Set.InjOn g.commitTree made) (within : ∀ c ∈ d'.repo.commits, c.2 ∈ made) :
    Along g luck private_ rules (done ++ rest) d' := by
  -- Induction over the list: each turn keeps the invariant for what has been done so far.
  induction rest generalizing done d with
  | nil =>
    cases ran
    rw [List.append_nil]
    exact along
  | cons hex rest ih =>
    rw [List.mem_cons, not_or] at lines
    obtain ⟨d₁, turned, later⟩ := rewriteCommits_cons (Ne.symm lines.1) ran
    obtain ⟨about, t, parents, outcome, more, turn⟩ := rewriteCommit_ok turned
    rw [List.append_cons] at first ⊢
    have grows := rewriteCommits_grows lines.2 later
    exact ih (along.turn first.front turn injective fun c member => within c (grows.subset member))
      first lines.2 later

/-- The commits in a place where a public repository may be. -/
def PublicDir.contents : PublicDir → PublicRepo
  | .repo r => r
  | _ => .fresh

/--
A derivation that went through, of a history whose commits are listed after their parents.

The public repository may have commits already; each is under its own name.
-/
structure Derived (g : Git) (luck : GitCall → Except String Unit) (rules : MirrorRules)
    (made : Set PublicCommit) where
  history : PrivateRepo
  dir : PublicDir
  listed : List ObjectName
  report : Derive
  lists : gitAnswered (luck .revList) history.listed = .ok listed
  first : ParentsFirst history.parents listed
  lines : [] ∉ listed
  named : dir.contents.Named g
  done : (derive g luck history rules dir).outcome = .ok report
  within : ∀ c ∈ (derive g luck history rules dir).dir.contents.commits, c.2 ∈ made

namespace Derived

variable (run : Derived g luck rules made)

/-- The public repository in the end. -/
def repo : PublicRepo := (derive g luck run.history rules run.dir).dir.contents

/-- The map from private to public commits. -/
def map : OrdMap ObjectName ObjectName := (derive g luck run.history rules run.dir).map

/-- Where a repository is opened, it has the commits that were there, or none. -/
theorem openPublic_ok {dir dir' : PublicDir} {r : PublicRepo}
    (opened : openPublic luck dir = (.ok r, dir')) :
    r = dir.contents ∧ dir'.contents = r := by
  -- Opening succeeds on a repository that is there or on one that is made.
  unfold openPublic at opened
  split at opened
  · cases opened
    exact ⟨rfl, rfl⟩
  · rename_i other
    split at opened <;> cases opened
    cases dir with
    | absent => exact ⟨rfl, rfl⟩
    | folder => exact ⟨rfl, rfl⟩
    | repo r => exact absurd rfl (other r)

/-- Moving the main branch writes no commit. -/
theorem moveMain_commits {d : Deriving} {moved : Except String Unit} {r : PublicRepo}
    (is : moveMain luck d = (moved, r)) : r.commits = d.repo.commits := by
  -- Moving a branch writes no commit.
  unfold moveMain at is
  split at is
  · cases is
    rfl
  · split at is <;> cases is <;> rfl

/-- The turns of a derivation, from the commits that were there to the ones that are. -/
theorem exists_turns :
    ∃ d, rewriteCommits g luck run.history rules run.listed (.start run.dir.contents) =
      (.ok (), d) ∧ run.map = d.map ∧ run.repo.commits = d.repo.commits ∧
        run.report.publicHead = d.lastPublic := by
  -- Of the four stages only the loop writes commits and maps them.
  have done := run.done
  have map : run.map = (derive g luck run.history rules run.dir).map := rfl
  have repo : run.repo = (derive g luck run.history rules run.dir).dir.contents := rfl
  generalize is : derive g luck run.history rules run.dir = derivation at done map repo
  unfold derive at is
  split at is
  · subst is
    cases done
  rename_i r dir opened
  obtain ⟨rfl, same⟩ := openPublic_ok opened
  rw [run.lists] at is
  dsimp only at is
  split at is
  · subst is
    cases done
  rename_i d ran
  split at is
  · subst is
    cases done
  rename_i r moved
  subst is
  obtain report := Except.ok.inj done
  refine ⟨d, ran, map, ?_, by rw [← report]⟩
  rw [repo]
  exact moveMain_commits moved

/-- At the start nothing has been done. -/
theorem Along.start {r : PublicRepo} (named : r.Named g) :
    Along g luck private_ rules [] (.start r) where
  -- Nothing is mapped and nothing is listed.
  named := named
  keys hex name is := by simp [Deriving.start] at is
  found hex name is := by simp [Deriving.start] at is
  settled hex member := by cases member
  last hex name last := by cases last
  some_ name last := by cases last

/-- What a derivation comes to, commit by commit. -/
structure Comes (run : Derived g luck rules made) : Prop where
  named : run.repo.Named g
  keys : ∀ hex name, run.map[hex]? = some name → hex ∈ run.listed
  found : ∀ (hex name : ObjectName), run.map[hex]? = some name → ∃ c, run.repo.find name = some c
  settled : ∀ hex ∈ run.listed, ∃ about t parents,
    CommitSettled g luck run.history rules run.repo run.map hex about t parents
  last : ∀ hex name, run.listed.getLast? = some hex → run.map[hex]? = some name →
    run.report.publicHead = some name
  some_ : ∀ name, run.report.publicHead = some name → ∃ hex ∈ run.listed, run.map[hex]? = some name

/-- A derivation that succeeds comes from its turns. -/
theorem comes_of_injOn (injective : Set.InjOn g.commitTree made) : run.Comes := by
  -- The invariant of the loop is read at its end, where the repository holds what was written.
  obtain ⟨d, ran, map, commits, head⟩ := run.exists_turns
  have along : Along g luck run.history rules ([] ++ run.listed) d := by
    apply (Along.start run.named).run run.first run.lines ran injective
    rw [← commits]
    exact run.within
  rw [List.nil_append] at along
  have finds : ∀ name c, d.repo.find name = some c → run.repo.find name = some c := by
    intro name c found
    rw [PublicRepo.find, commits]
    exact found
  refine ⟨?_, ?_, ?_, ?_, ?_, ?_⟩
  · rw [PublicRepo.Named, commits]
    exact along.named
  · rw [map]
    exact along.keys
  · intro hex name is
    rw [map] at is
    obtain ⟨c, found⟩ := along.found hex name is
    exact ⟨c, finds name c found⟩
  · intro hex member
    obtain ⟨about, t, parents, settled⟩ := along.settled hex member
    refine ⟨about, t, parents, settled.grows (by rw [map]) (fun _ _ => by rw [map]) ?_ finds⟩
    intro p inside
    rw [settled.mapped] at inside
    obtain ⟨q, _, is⟩ := List.mem_filterMap.mp inside
    exact along.found q p is
  · rw [map, head]
    exact along.last
  · rw [map, head]
    exact along.some_

end Derived

/-- The files of a tree that was written, as bytes. -/
def treeFiles (w : WrittenTree) : Set (Bytes × List Char × ObjectName) :=
  {e | ∃ path held, w[path]? = some held ∧ e = (textBytes path, held)}

namespace GitTree

/-- The private tree without what the rules exclude. -/
def filtered (t : GitTree) (rules : MirrorRules) : Set (Bytes × List Char × ObjectName) :=
  {e | ∃ f ∈ t.files, rules.excludes f.path = false ∧ e = (f.path, f.mode.text, GitOid.name f.oid)}

/-- The files that the rules let through under the paths that git prints, and under these paths. -/
def printedOpen (t : GitTree) (rules : MirrorRules) : Set (Bytes × List Char × ObjectName) :=
  {e | ∃ f ∈ t.files, excluded (Quoting.quote f.path) rules = false ∧
    e = (textBytes (Quoting.quote f.path), f.mode.text, GitOid.name f.oid)}

/-- An index that takes everything. -/
theorem updateIndex_plain (files : List TreeEnt) (index : WrittenTree) :
    updateIndex plainGit noFaults files index =
      .ok (files.foldl (fun index f => index.insert f.path (f.mode, f.oid)) index) := by
  induction files generalizing index with
  | nil => rfl
  | cons f files ih => exact ih (index.insert f.path (f.mode, f.oid))

/-- A file is kept if the rules do not exclude its quoted path. -/
theorem mem_kept {t : GitTree} {rules : MirrorRules} {e : TreeEnt} :
    e ∈ t.kept rules ↔ ∃ f ∈ t.files, excluded (Quoting.quote f.path) rules = false ∧
      e = f.entry := by
  -- Listing and filtering are undone one after the other.
  simp only [kept, List.mem_filter, List.mem_map, Bool.not_eq_true']
  constructor
  · intro found
    obtain ⟨⟨f, member, rfl⟩, through⟩ := found
    exact ⟨f, member, through, rfl⟩
  · intro found
    obtain ⟨f, member, through, rfl⟩ := found
    exact ⟨⟨f, member, rfl⟩, through⟩

/-- What is written of a tree are its files that are let through under their printed paths. -/
theorem treeFiles_shown (t : GitTree) (rules : MirrorRules) :
    treeFiles (t.shown rules) = t.printedOpen rules := by
  -- The index holds the kept files, each under its own path.
  have filled := updateIndex_plain (t.kept rules) ∅
  ext e
  constructor
  · intro found
    obtain ⟨path, held, is, rfl⟩ := found
    rcases of_updateIndex filled is with before | ⟨ent, member, rfl, rfl⟩
    · simp at before
    · obtain ⟨f, member', through, rfl⟩ := mem_kept.mp member
      exact ⟨f, member', through, rfl⟩
  · intro found
    obtain ⟨f, member, through, rfl⟩ := found
    exact ⟨_, _,
      mem_updateIndex filled (t.kept_paths rules) (mem_kept.mpr ⟨f, member, through, rfl⟩), rfl⟩

/-- Nothing is let through exactly when no entry is kept. -/
theorem printedOpen_of_kept_nil {t : GitTree} {rules : MirrorRules} (none : t.kept rules = []) :
    t.printedOpen rules = ∅ := by
  -- A file that is shown would have been kept.
  ext e
  simp only [Set.mem_empty_iff_false, iff_false]
  intro found
  obtain ⟨f, member, through, _⟩ := found
  have there := mem_kept.mpr ⟨f, member, through, rfl⟩
  rw [none] at there
  cases there

end GitTree

/-- What a commit maps to has its tree. -/
theorem CommitSettled.tree_of_mapped {r : PublicRepo} {map : OrdMap ObjectName ObjectName}
    {hex : ObjectName} {about : CommitMeta} {t : GitTree} {parents : List ObjectName}
    (settled : CommitSettled g luck private_ rules r map hex about t parents)
    (known : ∀ (x name : ObjectName), map[x]? = some name → ∃ c, r.find name = some c)
    {name : ObjectName} (is : map[hex]? = some name) :
    ∃ c, r.find name = some c ∧ c.tree = t.shown rules := by
  -- The commit was dropped, or written anew.
  cases drops : dropsCommit luck rules r t parents with
  | false =>
    obtain ⟨maps, found⟩ := settled.written drops
    obtain rfl := Option.some.inj (is.symm.trans maps)
    exact ⟨_, found, rfl⟩
  | true =>
    -- It was dropped for having the tree of its first public parent.
    have first := (settled.dropped drops).symm.trans is
    obtain ⟨c, found⟩ := known hex name is
    refine ⟨c, found, ?_⟩
    rw [dropsCommit, changesNothing, first] at drops
    rcases parents with _ | ⟨p, parents⟩
    · cases first
    · simp only [List.isEmpty_cons, Bool.and_false, Bool.false_or, Bool.and_eq_true, beq_iff_eq]
        at drops
      rw [PublicRepo.treeOf_of_find found] at drops
      split at drops
      · cases drops.2
      · exact Option.some.inj drops.2

/-- What maps to nothing shows nothing. -/
theorem CommitSettled.kept_of_unmapped {r : PublicRepo} {map : OrdMap ObjectName ObjectName}
    {hex : ObjectName} {about : CommitMeta} {t : GitTree} {parents : List ObjectName}
    (settled : CommitSettled g luck private_ rules r map hex about t parents)
    (none : map[hex]? = none) :
    t.kept rules = [] := by
  -- A commit that was written is mapped, so this one was dropped, and with no parent it kept
  -- nothing.
  cases drops : dropsCommit luck rules r t parents with
  | false =>
    rw [(settled.written drops).1] at none
    cases none
  | true =>
    have first := (settled.dropped drops).symm.trans none
    rw [List.head?_eq_none_iff] at first
    subst first
    simpa [dropsCommit, changesNothing] using (Bool.and_eq_true_iff.mp drops).2

end NasTools
