import NasTools.Proofs.Mirror

/-! What stands between a dry run and a publication: a receipt that nobody compares. -/

namespace NasTools

variable {g : Git} {luck : GitCall → Except String Unit} {private_ : PrivateRepo}
    {rules : MirrorRules}

/-- Names of public commits have no line ends in them. -/
def PlainNames (d : Deriving) : Prop :=
  (∀ p ∈ d.lastPublic, '\n' ∉ p) ∧ ∀ (k p : ObjectName), d.map[k]? = some p → '\n' ∉ p

/-- The name of an object has no line end. -/
theorem newline_not_mem_name (oid : GitOid) : '\n' ∉ GitOid.name oid := by
  intro member
  exact absurd (GitFile.solid_name oid _ member) (by decide)

/-- Adding a plain name for one more commit keeps all names plain. -/
theorem PlainNames.insert {d : Deriving} {hex p : ObjectName} (plain : PlainNames d)
    (new : '\n' ∉ p) :
    ∀ (k q : ObjectName), (d.map.insert hex p)[k]? = some q → '\n' ∉ q := by
  -- What is found is the new name or was there before.
  intro k q found
  rw [Std.ExtTreeMap.getElem?_insert] at found
  split at found
  · cases found
    exact new
  · exact plain.2 k q found

/-- Rewriting a commit gives no name with a line end. -/
theorem rewriteCommit_plainNames {hex : ObjectName} {d : Deriving} (plain : PlainNames d) :
    PlainNames (rewriteCommit g luck private_ rules hex d).2 := by
  -- A dropped commit takes the name of a parent, and a written one that of its object.
  unfold rewriteCommit
  split
  · exact plain
  · rename_i about kept _
    split
    · exact plain
    · split
      · exact plain
      · dsimp only
        split
        · split
          · exact plain
          · -- A parent's name comes from the map.
            rename_i p first
            have known : '\n' ∉ p := by
              obtain ⟨q, _, found⟩ := List.mem_filterMap.mp (List.mem_of_mem_head? first)
              exact plain.2 q p found
            exact ⟨by simpa using known, plain.insert known⟩
        · split
          · exact plain
          · -- The name of a new commit is a name that git gave.
            have fresh := newline_not_mem_name
            exact ⟨by simpa using fresh _, plain.insert (fresh _)⟩

/-- Rewriting commits gives no name with a line end. -/
theorem rewriteCommits_plainNames {listed : List ObjectName} {d : Deriving} (plain : PlainNames d) :
    PlainNames (rewriteCommits g luck private_ rules listed d).2 := by
  -- Induction over the commits that are listed.
  induction listed generalizing d with
  | nil => exact plain
  | cons hex rest ih =>
    have turn := @rewriteCommit_plainNames g luck private_ rules hex d plain
    -- A commit that is rewritten already is passed over, and a turn that fails is the last one.
    rw [rewriteCommits]
    split
    · exact ih plain
    · split
      · rename_i same
        rw [same] at turn
        exact turn
      · rename_i same
        rw [same] at turn
        exact ih turn

/-- What a receipt names has no line end in it. -/
theorem newline_not_mem_headText {dir : PublicDir} {report : Derive}
    (ok : (derive g luck private_ rules dir).outcome = .ok report) :
      '\n' ∉ headText report.publicHead := by
  -- Without a public head the receipt says so in a word.
  have empty : '\n' ∉ headText none := by decide
  unfold derive at ok
  split at ok
  · cases ok
  · split at ok
    · cases ok
      exact empty
    · rename_i r _ _ _ listed _
      have plain : PlainNames (rewriteCommits g luck private_ rules listed (.start r)).2 :=
        rewriteCommits_plainNames ⟨by simp [Deriving.start], by simp [Deriving.start]⟩
      split at ok
      · cases ok
      · rename_i d done
        rw [done] at plain
        split at ok
        · cases ok
        · cases ok
          show '\n' ∉ headText d.lastPublic
          cases head : d.lastPublic with
          | none => exact empty
          | some p => exact plain.1 p (by rw [head]; rfl)

/-- A receipt that was written in part is no receipt. -/
theorem cut_ne_receiptText {hash head hash' head' : List Char} {length : Nat} (first : '\n' ∉ hash)
    (second : '\n' ∉ head) :
    (receiptText hash head).dropLast.take length ≠ receiptText hash' head' := by
  -- Suppose a part of one receipt were another receipt.
  intro same
  -- Two lines have ended in a receipt, and one at most in a part of one.
  have whole : (receiptText hash head).dropLast = hash ++ '\n' :: head := by
    rw [receiptText, List.dropLast_concat]
  have less : ((receiptText hash head).dropLast.take length).count '\n' ≤ 1 := by
    rw [whole]
    calc (List.take length (hash ++ '\n' :: head)).count '\n'
        ≤ (hash ++ '\n' :: head).count '\n' := (List.take_sublist _ _).count_le _
      _ = 1 := by simp [List.count_eq_zero_of_not_mem first, List.count_eq_zero_of_not_mem second]
  -- The other receipt ends both of its lines, whatever stands in them.
  have more : 2 ≤ (receiptText hash' head').count '\n' := by
    simp [receiptText]
    omega
  rw [same] at less
  omega

namespace MirrorSite

variable [Crypto]

/-- The hash of the rules in force. -/
def rulesHash (s : MirrorSite) : Option (List Char) := s.currentRules.toOption.map MirrorRules.hash

omit [Crypto] in
/--
The head of the public history that git derives from the private one under the rules in force.
-/
def derivedHead (s : MirrorSite) (g : Git) : Option (Option ObjectName) := do
  let rules ← s.currentRules.toOption
  let report ← (derive g noFaults s.history rules (.repo .fresh)).outcome.toOption
  return report.publicHead

/-- What would be published. -/
def publication (s : MirrorSite) (g : Git) : Option (List Char) × Option (Option ObjectName) :=
  (s.rulesHash, s.derivedHead g)

/-- A receipt is of what would be published. -/
def Names (s : MirrorSite) (g : Git) (text : List Char) : Prop :=
  ∃ hash head, s.publication g = (some hash, some head) ∧ text = receiptText hash (headText head)

/-- What would be published depends on the rules in force and the private history only. -/
theorem publication_congr {s s' : MirrorSite} (rules : s'.currentRules = s.currentRules)
    (history : s'.history = s.history) :
    s'.publication g = s.publication g := by
  simp only [publication, rulesHash, derivedHead, rules, history]

omit [Crypto] in
/-- Saving the map touches only its file. -/
theorem saveShamap_frame (s : MirrorSite) (w : MirrorLuck) (map : OrdMap ObjectName ObjectName) :
    ∃ shamap, (s.saveShamap w map).2 = { s with shamap } := by
  unfold saveShamap
  split
  · exact ⟨s.shamap, rfl⟩
  · exact ⟨_, rfl⟩

/-- Signing touches only the approval. -/
theorem signPublish_frame (s : MirrorSite) (w : MirrorLuck) (head : ObjectName)
    (rules : MirrorRules) :
    ∃ approval, (s.signPublish w head rules).2 = { s with approval } := by
  unfold signPublish
  split
  · exact ⟨s.approval, rfl⟩
  · exact ⟨_, rfl⟩

/-- Sealing touches only the map's file and the approval. -/
theorem sealPublication_frame (s : MirrorSite) (w : MirrorLuck) (rules : MirrorRules) (d : Derive)
    (map : OrdMap ObjectName ObjectName) :
    ∃ shamap approval, (s.sealPublication w rules d map).2 = { s with shamap, approval } := by
  -- The map is saved first, and only then is anything signed.
  obtain ⟨shamap, saved⟩ := s.saveShamap_frame w map
  unfold sealPublication
  split
  · rename_i same
    rw [same] at saved
    exact ⟨shamap, s.approval, saved⟩
  · rename_i s' same
    rw [same] at saved
    obtain rfl : s' = { s with shamap } := saved
    split
    · exact ⟨shamap, s.approval, rfl⟩
    · -- With a public head an approval is signed, and the map was saved before.
      rename_i head _
      obtain ⟨approval, signed⟩ := ({ s with shamap } : MirrorSite).signPublish_frame w head rules
      split
      all_goals
        rename_i same'
        rw [same'] at signed
        exact ⟨shamap, approval, signed⟩

/--
A publication touches neither the receipt nor the private history, and the rules only
as its start does.
-/
theorem publish_frame (s : MirrorSite) (g : Git) (w : MirrorLuck) (requireDry scan : Bool) :
    ∃ publicDir shamap approval, (s.runDerive g w true requireDry scan).2 =
      { (s.prepare w requireDry).2 with publicDir, shamap, approval } := by
  -- The command is followed up to the derivation.
  unfold runDerive
  split
  · rename_i same
    rw [same]
    exact ⟨_, _, _, rfl⟩
  · rename_i rules s' same
    rw [same]
    -- From here on only the three public places are written to.
    simp only [destination, showing, if_true]
    split
    · exact ⟨_, _, _, rfl⟩
    · split
      · exact ⟨_, _, _, rfl⟩
      · exact ⟨_, _, _, rfl⟩
      · obtain ⟨shamap, approval, sealed⟩ := sealPublication_frame
          { s' with publicDir := (derive g w.git s'.history rules (w.cleared s'.publicDir)).dir }
            w rules _
          (derive g w.git s'.history rules (w.cleared s'.publicDir)).map
        exact ⟨_, shamap, approval, sealed⟩

omit [Crypto] in
/--
What comes before the derivation succeeds with a receipt only, where one is needed,
and fails as it says.
-/
theorem prepare_gate (s : MirrorSite) (w : MirrorLuck) (requireDry : Bool) :
    (∀ rules, (s.prepare w requireDry).1 = .ok rules → requireDry = true → s.receipt.isSome) ∧
      ∀ gate, (s.prepare w requireDry).1 = .error gate → gate.succeeds = false := by
  -- Each gate is passed in turn, and none of their refusals is a success.
  obtain ⟨⟨file, loaded⟩, _⟩ := s.loadRules_spec w
  unfold prepare
  split
  · exact ⟨nofun, by rintro _ ⟨⟩; rfl⟩
  · exact ⟨nofun, by rintro _ ⟨⟩; rfl⟩
  · split
    · exact ⟨nofun, by rintro _ ⟨⟩; rfl⟩
    · rename_i s' same
      rw [same] at loaded
      obtain rfl : s' = { s with rules := file } := loaded
      split
      · exact ⟨nofun, by rintro _ ⟨⟩; rfl⟩
      · -- The receipt is asked for after the rules were loaded.
        rename_i present
        split
        · exact ⟨nofun, by rintro _ ⟨⟩; rfl⟩
        · refine ⟨?_, nofun⟩
          rintro _ _ rfl
          simpa [Option.isSome_iff_ne_none] using present

/-- A publication that succeeds found a receipt. -/
theorem receipt_of_published {s : MirrorSite} {w : MirrorLuck} {scan : Bool} {d : Derive}
    (published : (s.runDerive g w true true scan).1 = .ok d) : ∃ text, s.receipt = some text := by
  -- Without a receipt the command ends before the derivation.
  obtain ⟨present, failing⟩ := s.prepare_gate w true
  cases outcome : (s.prepare w true).1 with
  | ok rules => exact Option.isSome_iff_exists.mp (present rules outcome rfl)
  | error gate =>
    -- What comes before the derivation ends the command as it failed.
    have gated : (s.runDerive g w true true scan).1 = gate := by
      unfold runDerive
      split
      · rename_i same
        rw [same] at outcome
        cases outcome
        rfl
      · rename_i same
        rw [same] at outcome
        cases outcome
    have failed := failing gate outcome
    rw [← gated, published] at failed
    cases failed

/--
A dry run leaves the private history alone.

It succeeds and leaves a receipt of the rules in force and the head it derived, or it fails and
leaves the receipt that was there or a part of one.
-/
theorem preview_spec (s : MirrorSite) (g : Git) (w : MirrorLuck) :
    (s.runDerive g w false false false).2.history = s.history ∧
      ((∃ rules report, (s.runDerive g w false false false).1 = .ok report ∧
        s.currentRules = .ok rules ∧
          (s.runDerive g w false false false).2.currentRules = .ok rules ∧
          (derive g w.git s.history rules (.repo .fresh)).outcome = .ok report ∧
          (s.runDerive g w false false false).2.receipt =
            some (receiptText rules.hash (headText report.publicHead))) ∨
        (s.runDerive g w false false false).2.receipt = s.receipt ∨
        ∃ (rules : MirrorRules) (report : Derive) (length : Nat),
          (derive g w.git s.history rules (.repo .fresh)).outcome = .ok report ∧
          (s.runDerive g w false false false).2.receipt =
            some ((receiptText rules.hash (headText report.publicHead)).dropLast.take length)) := by
  -- The command is followed step by step.
  obtain ⟨⟨file, prepared⟩, inForce⟩ := s.prepare_spec w false
  unfold runDerive
  cases outcome : s.prepare w false with
  | mk result s' =>
    rw [outcome] at prepared inForce
    obtain rfl : s' = { s with rules := file } := prepared
    cases result with
    | error gate => exact ⟨rfl, .inr (.inl rfl)⟩
    | ok rules =>
      obtain ⟨before, after⟩ := inForce rules rfl
      simp only [destination, showing, if_false, Bool.false_eq_true]
      cases w.scratch with
      -- Without a scratch directory nothing is derived, and the old receipt stays.
      | error e => exact ⟨rfl, .inr (.inl rfl)⟩
      | ok _ =>
        dsimp only [Except.map]
        cases derived : (derive g w.git s.history rules (.repo .fresh)).outcome with
        | error e => exact ⟨rfl, .inr (.inl rfl)⟩
        | ok report =>
          simp only [sealPreview, writeReceipt]
          -- The receipt is the last thing that is written.
          cases w.receiptWrite with
          | refused e => exact ⟨rfl, .inr (.inl rfl)⟩
          | cut e length => exact ⟨rfl, .inr (.inr ⟨rules, report, length, derived, rfl⟩)⟩
          | done => exact ⟨rfl, .inl ⟨rules, report, rfl, before, after, derived, rfl⟩⟩

end MirrorSite

/-- Whether a command edits the rules or changes the private history. -/
def MirrorCommand.isChange : MirrorCommand → Bool
  | .edit _ => true
  | .push _ => true
  | _ => false

section Runs

variable [Crypto]

/--
A dry run of what would be published now was made, and no edit or push has changed that since.
-/
def Previewed (g : Git) (start : MirrorSite) (past : List MirrorCommand) : Prop :=
  ∃ first w between, past = first ++ .dryRun w :: between ∧
    (∃ report, ((mirror g).step ((mirror g).run start first) (.dryRun w)).1 = some (.ok report)) ∧
    ((mirror g).run start first).publication g = ((mirror g).run start past).publication g ∧
    ∀ before a after, between = before ++ a :: after → a.isChange = true →
      ((mirror g).run start (first ++ .dryRun w :: before ++ [a])).publication g =
        ((mirror g).run start (first ++ .dryRun w :: before)).publication g

/-- A command brings back what the receipt names, after something else was there. -/
def Restores (g : Git) (s : MirrorSite) (a : MirrorCommand) : Prop :=
  ((mirror g).step s a).2.publication g ≠ s.publication g ∧
    ∃ text, s.receipt = some text ∧ ((mirror g).step s a).2.Names g text

/--
What keeps the receipt honest.

A publication is asked for only where the receipt names it, and nothing brings back
what an older receipt names.
-/
def Gated (g : Git) (s : MirrorSite) (a : MirrorCommand) : Prop :=
  ¬Restores g s a ∧
    match a with
    | .publish _ => ∀ text, s.receipt = some text → s.Names g text
    | _ => True

/-- One more command that leaves the receipt and what would be published alone. -/
theorem Previewed.snoc {start : MirrorSite} {past : List MirrorCommand} {a : MirrorCommand}
    (previewed : Previewed g start past)
    (same : ((mirror g).run start (past ++ [a])).publication g =
      ((mirror g).run start past).publication g) :
    Previewed g start (past ++ [a]) := by
  -- The new command changes nothing, so the dry run before it still shows what would be
  -- published.
  obtain ⟨first, w, between, rfl, made, now, quiet⟩ := previewed
  refine ⟨first, w, between ++ [a], by simp, made, now.trans same.symm, ?_⟩
  intro before c after parts change
  rcases List.eq_nil_or_concat' after with rfl | ⟨front, last, rfl⟩
  · -- The change is the new command itself.
    obtain ⟨rfl, rfl⟩ : between = before ∧ a = c := by simpa using List.append_inj' parts rfl
    exact same
  · have inside : between = before ++ c :: front := by
      have longer : between ++ [a] = (before ++ c :: front) ++ [last] := by simpa using parts
      exact (List.append_inj' longer rfl).1
    exact quiet before c front inside change

/--
What one command does to the receipt.

It stays, or a dry run succeeds without changing what would be published, or what is
there now is no receipt.
-/
theorem step_receipt (g : Git) (s : MirrorSite) (a : MirrorCommand) :
    ((mirror g).step s a).2.receipt = s.receipt ∨
      (∃ w report, a = .dryRun w ∧ ((mirror g).step s a).1 = some (.ok report) ∧
        ((mirror g).step s a).2.publication g = s.publication g) ∨
      ∀ text, ((mirror g).step s a).2.receipt = some text →
        ¬((mirror g).step s a).2.Names g text := by
  -- One kind of command after the other.
  cases a with
  -- An edit and a push leave the receipt alone, and so does a publication.
  | edit rules => exact .inl rfl
  | push history => exact .inl rfl
  | publish w =>
    obtain ⟨_, _, _, after⟩ := s.publish_frame g w true true
    obtain ⟨⟨file, prepared⟩, _⟩ := s.prepare_spec w true
    refine .inl ?_
    show (s.runDerive g w true true true).2.receipt = s.receipt
    rw [after, prepared]
  | dryRun w =>
    obtain ⟨history, ⟨rules, report, gate, before, now, _, _⟩ | kept | ⟨rules, report, length,
      derived, cut⟩⟩ :=
      s.preview_spec g w
    · refine .inr (.inl ⟨w, report, rfl, congrArg some gate, ?_⟩)
      exact MirrorSite.publication_congr (now.trans before.symm) history
    · exact .inl kept
    · -- A receipt cut short has one line end at most, so it names nothing.
      refine .inr (.inr ?_)
      intro text receipt parts
      obtain ⟨hash, head, _, rfl⟩ := parts
      have solid : '\n' ∉ rules.hash :=
        fun member => absurd (Text.solid_toHex _ _ member) (by decide)
      have whole := cut.symm.trans receipt
      exact cut_ne_receiptText solid (newline_not_mem_headText derived) (Option.some.inj whole)

/-- Wherever the receipt names what would be published, a dry run of it was made. -/
theorem previewed_of_names {start : MirrorSite} {past : List MirrorCommand}
    (unused : start.receipt = none) (gated : (mirror g).Permits (Gated g) start past)
    {text : List Char} (receipt : ((mirror g).run start past).receipt = some text)
    (names : ((mirror g).run start past).Names g text) :
    Previewed g start past := by
  -- The last command is the one that counts, so the run is taken from its end.
  induction past using List.reverseRecOn generalizing text with
  | nil =>
    rw [Machine.run_nil, unused] at receipt
    cases receipt
  | append_singleton past a ih =>
    obtain ⟨gatedPast, gatedHere, _⟩ := Machine.permits_append.mp gated
    have last :
        (mirror g).run start (past ++ [a]) = ((mirror g).step ((mirror g).run start past) a).2 :=
      Machine.run_append
    rw [last] at receipt names
    rcases step_receipt g ((mirror g).run start past) a with kept |
      ⟨w, report, rfl, made, same⟩ | none_
    · by_cases same : ((mirror g).step ((mirror g).run start past) a).2.publication g =
          ((mirror g).run start past).publication g
      · -- What was named before is named still.
        rw [kept] at receipt
        have before : ((mirror g).run start past).Names g text := by
          obtain ⟨hash, head, is, text⟩ := names
          exact ⟨hash, head, same.symm.trans is, text⟩
        exact (ih gatedPast receipt before).snoc (by rw [last, same])
      · -- What was named comes back here, which the gate does not let happen.
        exact (gatedHere.1 ⟨same, text, kept.symm.trans receipt, names⟩).elim
    · -- The last command is the dry run that is asked for.
      exact ⟨past, w, [], rfl, ⟨report, made⟩, by rw [last, same], by simp⟩
    · exact (none_ text receipt names).elim

/--
Where the receipt is kept honest, every publication that succeeds was seen in a dry run.

That dry run was under the same rules and derived the same head, and nothing changed either since.
-/
theorem gated_publish_was_previewed {start : MirrorSite} {commands : List MirrorCommand}
    (unused : start.receipt = none) (gated : (mirror g).Permits (Gated g) start commands) :
    ∀ past w later report, commands = past ++ .publish w :: later →
      ((mirror g).step ((mirror g).run start past) (.publish w)).1 = some (.ok report) →
        Previewed g start past := by
  rintro past w later report rfl published
  obtain ⟨gatedPast, gatedHere, _⟩ := Machine.permits_append.mp gated
  obtain ⟨text, receipt⟩ := MirrorSite.receipt_of_published (Option.some.inj published)
  exact previewed_of_names unused gatedPast receipt (gatedHere.2 text receipt)

end Runs

section Concrete

open Concrete

/-- A namespace after its first dry run. -/
def previewedSite : MirrorSite := ((mirror plainGit).step plainSite (.dryRun (calmLuck []))).2

/--
What publications after that dry run come to, evaluated once: under the same rules,
and under edited ones.
-/
theorem publications_evaluated :
    previewedSite.publication plainGit = (some MirrorRules.defaultPub.hash,
      some (some (plainHead "start"))) ∧
      previewedSite.receipt =
        some (receiptText MirrorRules.defaultPub.hash (headText (some (plainHead "start")))) ∧
      ((mirror plainGit).step previewedSite (.publish (calmLuck (plainHead "start")))).2.publication
        plainGit = previewedSite.publication plainGit ∧
      ((mirror plainGit).step ((mirror plainGit).run plainSite [.dryRun (calmLuck [])])
        (.publish (calmLuck (plainHead "start")))).1 = some (.ok ⟨some (plainHead "start"), 1, 0⟩) ∧
      ((mirror plainGit).step ((mirror plainGit).run plainSite
        [.dryRun (calmLuck []), .edit (some "exclude_paths=x\n".toList)])
          (.publish (calmLuck (plainHead "start")))).1 =
          some (.ok ⟨some (plainHead "start"), 1, 0⟩) := by
  decide +kernel

/-- That dry run and a publication keep the receipt honest. -/
theorem gated_dry_run_publish : (mirror plainGit).Permits (Gated plainGit) plainSite
    [.dryRun (calmLuck []), .publish (calmLuck (plainHead "start"))] := by
  -- Both commands are evaluated: the second finds the receipt of the first.
  obtain ⟨publication, receipt, still, _⟩ := publications_evaluated
  have first : Gated plainGit plainSite (.dryRun (calmLuck [])) := by
    refine ⟨?_, trivial⟩
    intro held
    obtain ⟨_, text, receipt, _⟩ := held
    cases receipt
  have second : Gated plainGit previewedSite (.publish (calmLuck (plainHead "start"))) := by
    refine ⟨fun restores => restores.1 still, ?_⟩
    intro text found
    exact ⟨_, _, publication, Option.some.inj (found.symm.trans receipt)⟩
  exact ⟨first, second, trivial⟩

/-- The publication of the example was previewed by its dry run. -/
theorem publish_after_dry_run_was_previewed :
    Previewed plainGit plainSite [.dryRun (calmLuck [])] := by
  obtain ⟨_, _, _, published, _⟩ := publications_evaluated
  exact gated_publish_was_previewed rfl gated_dry_run_publish [.dryRun (calmLuck [])] _ [] _
    rfl published

/-- After a dry run the rules are edited and the publication still goes ahead, unseen. -/
theorem edited_rules_are_published_unseen :
    plainSite.receipt = none ∧
      (∃ report, ((mirror plainGit).step ((mirror plainGit).run plainSite
        [.dryRun (calmLuck []), .edit (some "exclude_paths=x\n".toList)])
          (.publish (calmLuck (plainHead "start")))).1 =
          some (.ok report)) ∧
      ¬Previewed plainGit plainSite [.dryRun (calmLuck []),
        .edit (some "exclude_paths=x\n".toList)] := by
  -- The two publications are evaluated.
  obtain ⟨_, _, _, _, published⟩ := publications_evaluated
  refine ⟨rfl, ⟨_, published⟩, ?_⟩
  intro previewed
  obtain ⟨first, w, between, parts, _, same, _⟩ := previewed
  -- The one dry run there is was made under other rules.
  rcases first with _ | ⟨a, _ | ⟨b, first⟩⟩
  · exact absurd (congrArg Prod.fst same) (by decide +kernel)
  · cases parts
  · simp at parts

end Concrete

end NasTools
