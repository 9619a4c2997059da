import NasTools.Model.Cli.Publish

/-!
Which files of a private commit reach the public one: the filter sees paths as git prints them.
-/

namespace NasTools

/-- A file as the mirror reads it from git's listing. -/
def GitFile.entry (f : GitFile) : TreeEnt := ⟨f.mode.text, GitOid.name f.oid, Quoting.quote f.path⟩

namespace GitFile

/-- The three words in front of a line's tab. -/
def about (f : GitFile) : List Char :=
  f.mode.text ++ ' ' :: (f.mode.kind ++ ' ' :: GitOid.name f.oid)

/-- A file's line is what is said of it, a tab and its quoted path. -/
theorem line_eq_about_path (f : GitFile) :
    f.line = (f.about ++ '\t' :: Quoting.quote f.path) ++ ['\n'] := by
  simp [line, about, GitOid.name]

/-- A mode and a kind are words. -/
theorem mode_words (mode : FileMode) :
    Text.Solid mode.text ∧ mode.text ≠ [] ∧ Text.Solid mode.kind ∧ mode.kind ≠ [] := by
  -- Every visible character is no blank, and modes and kinds are written in visible ones.
  have visible : ∀ word : List Char, word.all (fun c => '!' ≤ c && c ≤ '~') = true →
      Text.Solid word := by
    intro word all c member
    have shown := List.all_eq_true.mp all c member
    simp only [Bool.and_eq_true, decide_eq_true_eq] at shown
    exact Text.isWhite_of_visible shown.1 shown.2
  cases mode <;> exact ⟨visible _ (by decide), by decide, visible _ (by decide), by decide⟩

/-- An object's name holds no white space. -/
theorem solid_name (oid : GitOid) : Text.Solid (GitOid.name oid) := Text.solid_toHex oid.bytes

/-- An object's name is not empty. -/
theorem name_ne_nil (oid : GitOid) : GitOid.name oid ≠ [] := by
  -- It has two digits for each byte of the id.
  have length : (GitOid.name oid).length = 2 * gitOidLen := by
    rw [GitOid.name, Text.toHex_length, oid.size]
  intro empty
  rw [empty] at length
  simp [gitOidLen] at length

/-- What is said of a file is its mode, its kind and its object. -/
theorem words_about (f : GitFile) :
    Text.words f.about = [f.mode.text, f.mode.kind, GitOid.name f.oid] := by
  obtain ⟨mode, mode', kind, kind'⟩ := mode_words f.mode
  have blank : Text.isWhite ' ' = true := by decide
  rw [about, Text.words_append mode mode' blank, Text.words_append kind kind' blank,
    Text.words_single (solid_name _) (name_ne_nil _)]

/-- No character in front of the tab is a tab or the end of a line. -/
theorem about_plain {f : GitFile} {c : Char} (member : c ∈ f.about) : c ≠ '\t' ∧ c ≠ '\n' := by
  -- The text is a mode, a kind and a name.
  obtain ⟨mode, _, kind, _⟩ := mode_words f.mode
  -- Three solid words, with blanks between them.
  have solid : Text.isWhite c = false ∨ c = ' ' := by
    simp only [about, List.mem_append, List.mem_cons] at member
    rcases member with here | rfl | here | rfl | here
    · exact .inl (mode c here)
    · exact .inr rfl
    · exact .inl (kind c here)
    · exact .inr rfl
    · exact .inl (Text.solid_toHex _ c here)
  constructor <;> rintro rfl <;> exact absurd solid (by decide)

/-- A line of the listing is read as the file it was printed for. -/
theorem parseTreeLine_line (f : GitFile) :
    parseTreeLine (f.about ++ '\t' :: Quoting.quote f.path) = .ok f.entry := by
  -- The first tab of the line is the one that git puts in front of the path.
  have tab : '\t' ∉ f.about := fun member => (about_plain member).1 rfl
  simp [parseTreeLine, Text.splitOnce_append tab, words_about, entry]

/-- A line of the listing ends where git ended it. -/
theorem oneLine_line (f : GitFile) : Text.OneLine (f.about ++ '\t' :: Quoting.quote f.path) := by
  -- The path is quoted, and what stands before the tab is plain.
  have last : ∀ c, (f.about ++ '\t' :: Quoting.quote f.path).getLast? = some c → c = '\t' ∨
      c ∈ Quoting.quote f.path := by
    intro c is
    rw [List.getLast?_append_of_ne_nil _ (by simp)] at is
    simpa using List.mem_of_getLast? is
  constructor
  · -- A quoted path has only visible characters, so no line ends inside it.
    intro member
    simp only [List.mem_append, List.mem_cons] at member
    rcases member with here | here | here
    · exact (about_plain here).2 rfl
    · exact absurd here (by decide)
    · exact absurd (Quoting.visible_of_mem_quote here).1 (by decide)
  · -- Nor does the line end with a carriage return, that the reader would take off.
    intro is
    rcases last _ is with here | here
    · exact absurd here (by decide)
    · exact absurd (Quoting.visible_of_mem_quote here).1 (by decide)

end GitFile

/-- The files of a commit are read back, each under its printed path. -/
theorem GitTree.parseTree_printed (t : GitTree) :
    parseTree t.printed = .ok (t.files.map GitFile.entry) := by
  -- The listing is made of characters, so reading it as text loses nothing.
  have text : fromUtf8Lossy t.printed = t.files.flatMap GitFile.line := by
    have whole := fromUtf8Lossy_chars (t.files.flatMap GitFile.line) []
    simpa [printed, textBytes, fromUtf8Lossy, lossyAfter] using whole
  have lines : t.files.flatMap GitFile.line =
      (t.files.map fun f => f.about ++ '\t' :: Quoting.quote f.path).flatMap (· ++ ['\n']) := by
    rw [List.flatMap_map]
    exact List.flatMap_congr fun f _ => f.line_eq_about_path
  rw [parseTree, text, lines, Text.lines_flatMap]
  · rw [List.mapM_map]
    -- Line by line, each file is read back.
    induction t.files with
    | nil => rfl
    | cons f files ih =>
      rw [List.mapM_cons, ih]
      simp [f.parseTreeLine_line, bind, Except.bind, pure, Except.pure]
  · intro line member
    obtain ⟨f, _, rfl⟩ := List.mem_map.mp member
    exact f.oneLine_line

/-- The files of a commit that the rules leave in, as they are read. -/
def GitTree.kept (t : GitTree) (rules : MirrorRules) : List TreeEnt :=
  (t.files.map GitFile.entry).filter fun e => !excluded e.path rules

/-- What is read of a commit is its files that the rules leave in. -/
theorem kept_of_readCommit {luck : GitCall → Except String Unit} {private_ : PrivateRepo}
    {rules : MirrorRules} {hex : ObjectName} {about : CommitMeta} {kept : List TreeEnt}
    {t : GitTree} (tree : private_.tree hex = some t)
    (read : readCommit luck private_ rules hex = .ok (about, kept)) : kept = t.kept rules := by
  -- The steps that succeed are taken apart.
  simp only [readCommit, except_bind_eq_ok] at read
  obtain ⟨raw, _, about', _, t', found, files, parsed, same⟩ := read
  -- What git answers for the tree of this commit is the tree it has.
  have this : t' = t := by
    simp only [gitAnswered, tree, except_bind_eq_ok] at found
    obtain ⟨_, _, is⟩ := found
    simpa using is.symm
  rw [this, t.parseTree_printed] at parsed
  cases parsed
  cases same
  rfl

variable {g : Git} {luck : GitCall → Except String Unit}

/-- One more file was put into the index, and then the rest. -/
theorem updateIndex_cons {f : TreeEnt} {files : List TreeEnt} {index tree : WrittenTree}
    (done : updateIndex g luck (f :: files) index = .ok tree) :
    updateIndex g luck files (index.insert f.path (f.mode, f.oid)) = .ok tree := by
  rw [updateIndex] at done
  split at done
  · exact done
  · cases done

/-- Where no file is put, the index stays as it was. -/
theorem updateIndex_elsewhere {files : List TreeEnt} {index tree : WrittenTree} {path : List Char}
    (done : updateIndex g luck files index = .ok tree) (elsewhere : path ∉ files.map TreeEnt.path) :
    tree[path]? = index[path]? := by
  -- Induction over the files that are put.
  induction files generalizing index with
  | nil =>
    cases done
    rfl
  | cons f files ih =>
    simp only [List.map_cons, List.mem_cons, not_or] at elsewhere
    -- No file of the list has this path, and neither the first nor a later one overwrites it.
    rw [ih (updateIndex_cons done) elsewhere.2, Std.ExtTreeMap.getElem?_insert, if_neg]
    simpa using Ne.symm elsewhere.1

/-- Files with paths of their own are all in the tree. -/
theorem mem_updateIndex {files : List TreeEnt} {index tree : WrittenTree} {f : TreeEnt}
    (done : updateIndex g luck files index = .ok tree) (paths : (files.map TreeEnt.path).Nodup)
    (member : f ∈ files) :
    tree[f.path]? = some (f.mode, f.oid) := by
  -- Induction over the files: what is put in for one stays, for the others have other paths.
  induction files generalizing index with
  | nil => simp at member
  | cons f' files ih =>
    have rest := updateIndex_cons done
    rw [List.map_cons, List.nodup_cons] at paths
    rcases List.mem_cons.mp member with rfl | later
    · -- No later file takes its path.
      rw [updateIndex_elsewhere rest paths.1, Std.ExtTreeMap.getElem?_insert_self]
    · exact ih rest paths.2 later

/-- Whatever is in the tree was put there. -/
theorem of_updateIndex {files : List TreeEnt} {index tree : WrittenTree} {path : List Char}
    {held : List Char × ObjectName} (done : updateIndex g luck files index = .ok tree)
    (found : tree[path]? = some held) :
    index[path]? = some held ∨ ∃ f ∈ files, f.path = path ∧ held = (f.mode, f.oid) := by
  -- Induction over the files: what is found was put in by one of them or was there before.
  induction files generalizing index with
  | nil =>
    cases done
    exact .inl found
  | cons f files ih =>
    rcases ih (updateIndex_cons done) with before | ⟨f', member, is⟩
    · rw [Std.ExtTreeMap.getElem?_insert] at before
      split at before
      · -- The path is that of the file just put in.
        rename_i here
        cases before
        exact .inr ⟨f, by simp, by simpa using here, rfl⟩
      · exact .inl before
    · exact .inr ⟨f', by simp [member], is⟩

/-- A public commit was written for a private one: its tree holds what was read of that one. -/
def WrittenFor (g : Git) (luck : GitCall → Except String Unit) (private_ : PrivateRepo)
    (rules : MirrorRules) (hex : ObjectName) (w : PublicCommit) : Prop :=
  ∃ about kept, readCommit luck private_ rules hex = .ok (about, kept) ∧
    writeTree g luck hex kept = .ok w.tree

variable {private_ : PrivateRepo} {rules : MirrorRules}

/-- One turn writes for the commit it rewrites, or not at all. -/
theorem rewriteCommit_written {hex : ObjectName} {d : Deriving} {made : ObjectName × PublicCommit}
    (member : made ∈ (rewriteCommit g luck private_ rules hex d).2.written) :
    made ∈ d.written ∨ made.1 = hex ∧ WrittenFor g luck private_ rules hex made.2 := by
  -- Only the last way out writes a commit, which is the one that the turn is about.
  unfold rewriteCommit at member
  split at member
  · exact .inl member
  · -- Every way out but the last one leaves what was written as it was.
    rename_i about kept read
    split at member
    · exact .inl member
    · split at member
      · exact .inl member
      · rename_i tree wrote
        dsimp only at member
        split at member
        · -- The commit is dropped: nothing is written.
          split at member <;> exact .inl member
        · split at member
          · exact .inl member
          · simp only [List.mem_append, List.mem_singleton] at member
            rcases member with before | rfl
            · exact .inl before
            · exact .inr ⟨rfl, about, kept, read, wrote⟩

/-- Every commit that was written was written for the commit it is listed with. -/
theorem rewriteCommits_written {listed : List ObjectName} {d : Deriving}
    (before : ∀ made ∈ d.written, WrittenFor g luck private_ rules made.1 made.2) :
    ∀ made ∈ (rewriteCommits g luck private_ rules listed d).2.written,
      WrittenFor g luck private_ rules made.1 made.2 := by
  -- Induction over the list, with what has been written so far.
  induction listed generalizing d with
  | nil => exact before
  | cons hex rest ih =>
    rw [rewriteCommits]
    split
    · exact ih before
    · -- One turn adds at most the commit it is about.
      have turn : ∀ made ∈ (rewriteCommit g luck private_ rules hex d).2.written,
          WrittenFor g luck private_ rules made.1 made.2 := by
        intro made member
        rcases rewriteCommit_written member with old | ⟨rfl, new⟩
        · exact before made old
        · exact new
      split
      · rename_i same
        rw [same] at turn
        exact turn
      · rename_i same
        rw [same] at turn
        exact ih turn

/-- The same of a whole derivation, however it ends. -/
theorem derive_written {dir : PublicDir} {made : ObjectName × PublicCommit}
    (member : made ∈ (derive g luck private_ rules dir).written) :
    WrittenFor g luck private_ rules made.1 made.2 := by
  -- The derivation is a run of the loop from nothing written.
  unfold derive at member
  split at member
  · simp at member
  · split at member
    · simp at member
    · rename_i r _ _ _ listed _
      -- Nothing is written when the turns begin.
      have all : ∀ made ∈ (rewriteCommits g luck private_ rules listed (.start r)).2.written,
          WrittenFor g luck private_ rules made.1 made.2 :=
          rewriteCommits_written (by simp [Deriving.start])
      split at member
      · rename_i same
        rw [same] at all
        exact all made member
      · rename_i same
        rw [same] at all
        split at member <;> exact all made member

/-- The files that the rules leave in have paths of their own, as git prints them too. -/
theorem GitTree.kept_paths (t : GitTree) (rules : MirrorRules) :
    ((t.kept rules).map TreeEnt.path).Nodup := by
  -- Filtering keeps the paths apart.
  have all : ((t.files.map GitFile.entry).map TreeEnt.path).Nodup := by
    -- The spelling of git tells paths apart.
    have printed : (t.files.map GitFile.entry).map TreeEnt.path =
        (t.files.map GitFile.path).map Quoting.quote := by
      simp [GitFile.entry, Function.comp_def]
    rw [printed]
    exact t.paths.map fun _ _ => Quoting.quote_injective
  exact (List.filter_sublist.map TreeEnt.path).nodup all

/-- No blob of a file that the rules exclude is anywhere in a public commit. -/
def PublicCommit.Hides (w : PublicCommit) (t : GitTree) (rules : MirrorRules) : Prop :=
  ∀ f ∈ t.files, rules.excludes f.path = true →
    ∀ (path : List Char) (held : List Char × ObjectName), w.tree[path]? = some held →
      held.2 ≠ GitOid.name f.oid

/--
A public commit hides what the rules exclude exactly when git's spelling of every path shows it.

A blob under an excluded path must lie under no path whose printed form the rules let through.
-/
theorem derive_hides_iff {dir : PublicDir} {hex : ObjectName} {w : PublicCommit} {t : GitTree}
    (made : (hex, w) ∈ (derive g luck private_ rules dir).written)
    (tree : private_.tree hex = some t) :
    w.Hides t rules ↔ ∀ f ∈ t.files, rules.excludes f.path = true →
      ∀ f' ∈ t.files, f'.oid = f.oid → excluded (Quoting.quote f'.path) rules = true := by
  -- A blob of the commit is one of the files that the rules leave in.
  obtain ⟨about, kept, read, wrote⟩ := derive_written made
  cases kept_of_readCommit tree read
  obtain ⟨index, filled, same⟩ : ∃ index, updateIndex g luck (t.kept rules) ∅ = .ok index ∧
    index = w.tree := by
    simp only [writeTree, except_bind_eq_ok, except_pure_eq, Except.ok.injEq] at wrote
    obtain ⟨index, filled, _, _, same⟩ := wrote
    exact ⟨index, filled, same⟩
  subst same
  constructor
  · -- A file that is let through is in the tree, so its blob is none of the hidden ones.
    intro hides f member hidden f' member' same
    by_contra shown
    have kept : f'.entry ∈ t.kept rules := by
      simp only [GitTree.kept, List.mem_filter, List.mem_map]
      exact ⟨⟨f', member', rfl⟩, by simpa [GitFile.entry] using shown⟩
    have found := mem_updateIndex filled (t.kept_paths rules) kept
    exact hides f member hidden _ _ found (by rw [← same]; rfl)
  · -- Whatever is in the tree was let through.
    intro printed f member hidden path held found is
    rcases of_updateIndex filled found with before | ⟨e, kept, _, same⟩
    · simp at before
    · simp only [GitTree.kept, List.mem_filter, List.mem_map] at kept
      obtain ⟨⟨f', member', rfl⟩, through⟩ := kept
      -- Blobs of one name are one blob, since a name spells its hash.
      have oids : f'.oid = f.oid := by
        have names : toHex f.oid.bytes = toHex f'.oid.bytes :=
          is.symm.trans (congrArg Prod.snd same)
        have bytes := congrArg Text.parseHexBytes names
        rw [Text.parseHexBytes_toHex, Text.parseHexBytes_toHex] at bytes
        exact FixedBytes.ext (Option.some.inj bytes).symm
      have shown := printed f member hidden f' member' oids
      simp [GitFile.entry, shown] at through

/-- A file under an excluded directory beside a public one, both with plain names. -/
def plainTree : GitTree :=
  ⟨[⟨.regular, plainOid [2], textBytes "b".toList⟩,
    ⟨.regular, plainOid [1], textBytes "fixes/a".toList⟩], by decide⟩

/-- One commit with these files in it. -/
def plainHistory : PrivateRepo :=
  .ofCommits [("c1".toList, plainCommit [] "start", plainTree)]
    [(GitOid.name (plainOid [1]), [1]), (GitOid.name (plainOid [2]), [2])]

/-- A file with a plain name that the rules exclude is not published. -/
theorem plain_file_is_hidden :
    ∃ w, ("c1".toList, w) ∈ (derive plainGit noFaults plainHistory .defaultPub .absent).written ∧
      w.Hides plainTree .defaultPub := by
  -- The derivation is evaluated, and its tree is judged by the theorem.
  have shown : (derive plainGit noFaults plainHistory .defaultPub .absent).written.any
      (fun made => made.1 == "c1".toList) = true := by decide +kernel
  obtain ⟨⟨hex, w⟩, member, here⟩ := List.any_eq_true.mp shown
  obtain rfl : hex = "c1".toList := by simpa using here
  exact ⟨w, member, (derive_hides_iff member rfl).mpr (by decide)⟩

/-- One file under an excluded directory, with an accent in its name. -/
def accentedTree : GitTree := ⟨[⟨.regular, plainOid [1], textBytes "fixes/é".toList⟩], by decide⟩

/-- One commit with that file in it. -/
def accentedHistory : PrivateRepo :=
  .ofCommits [("c1".toList, plainCommit [] "start", accentedTree)]
    [(GitOid.name (plainOid [1]), [1])]

/-- A file with an accent in its name is published although the rules exclude it. -/
theorem accented_file_is_published :
    parseRules MirrorRules.defaultPub.encode = .ok .defaultPub ∧
      accentedHistory.tree "c1".toList = some accentedTree ∧
      ∃ w, ("c1".toList, w) ∈
        (derive plainGit noFaults accentedHistory .defaultPub .absent).written ∧
        ¬w.Hides accentedTree .defaultPub := by
  -- The derivation is evaluated.
  refine ⟨by decide, rfl, ?_⟩
  have shown : (derive plainGit noFaults accentedHistory .defaultPub .absent).written.any
    (fun made =>
      made.1 == "c1".toList && made.2.tree[(Quoting.quote (textBytes "fixes/é".toList))]? ==
        some ("100644".toList, GitOid.name (plainOid [1]))) = true := by decide
  obtain ⟨⟨hex, w⟩, member, here⟩ := List.any_eq_true.mp shown
  simp only [Bool.and_eq_true, beq_iff_eq] at here
  obtain ⟨rfl, found⟩ := here
  -- The blob is in the tree under the quoted path, where no rule looked for it.
  refine ⟨w, member, fun hides => ?_⟩
  exact hides _ (List.mem_singleton_self _) (by decide) _ _ found rfl

end NasTools
