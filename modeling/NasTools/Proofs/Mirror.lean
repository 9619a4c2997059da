import NasTools.Model.Crypto.Concrete
import NasTools.Proofs.Derivation

/-! A publication that fails: when it leaves what was published before as it was. -/

namespace NasTools

section Deriving

variable {g : Git} {luck : GitCall → Except String Unit} {private_ : PrivateRepo}
    {rules : MirrorRules}

/-- Put a file into an index under its path. -/
def WrittenTree.put (index : WrittenTree) (f : TreeEnt) : WrittenTree :=
  index.insert f.path (f.mode, f.oid)

/-- Rewriting a commit moves no branch. -/
theorem rewriteCommit_main (hex : ObjectName) (d : Deriving) :
    (rewriteCommit g luck private_ rules hex d).2.repo.main = d.repo.main := by
  -- Each step of the rewriting is followed to its end.
  have copied (files : List TreeEnt) (r : PublicRepo) :
      (copyBlobs g luck private_ files r).2.main = r.main := by
    induction files generalizing r with
    | nil => rfl
    | cons f files ih =>
      have one : (copyBlob g luck private_ f.oid r).2.main = r.main := by
        unfold copyBlob
        split
        · rfl
        · dsimp only
          split <;> rfl
      rw [copyBlobs]
      split
      · rename_i same
        rw [same] at one
        exact one
      · rename_i same
        rw [same] at one
        exact (ih _).trans one
  unfold rewriteCommit
  split
  · rfl
  · rename_i about kept _
    have stays := copied kept d.repo
    split
    · rename_i same
      rw [same] at stays
      exact stays
    · rename_i same
      rw [same] at stays
      -- Every way out keeps the branch of what was copied.
      split
      · exact stays
      · dsimp only
        split
        · split <;> exact stays
        · split <;> exact stays

/-- The same of several commits. -/
theorem rewriteCommits_main (listed : List ObjectName) (d : Deriving) :
    (rewriteCommits g luck private_ rules listed d).2.repo.main = d.repo.main := by
  -- No rewritten commit moves the branch.
  induction listed generalizing d with
  | nil => rfl
  | cons hex rest ih =>
    have one : (rewriteCommit g luck private_ rules hex d).2.repo.main = d.repo.main :=
      rewriteCommit_main hex d
    rw [rewriteCommits]
    split
    · exact ih d
    · split
      · rename_i same
        rw [same] at one
        exact one
      · rename_i same
        rw [same] at one
        exact (ih _).trans one

/-- Where no repository stands, one is made in three steps. -/
theorem openPublic_bare {dir : PublicDir} (bare : ∀ left, dir ≠ .repo left) :
    openPublic luck dir = match luck .createDir, luck .init, luck .config with
      | .error e, _, _ => (.error e, dir)
      | .ok (), .error e, _ => (.error e, .folder)
      | .ok (), .ok (), .error e => (.error e, .repo .fresh)
      | .ok (), .ok (), .ok () => (.ok .fresh, .repo .fresh) := by
  cases dir with
  | absent => rfl
  | folder => rfl
  | repo left => exact absurd rfl (bare left)

/-- A derivation that fails has moved no branch of the repository it made. -/
theorem main_of_derive_error {dir : PublicDir} {e : String} {r : PublicRepo}
    (bare : ∀ left, dir ≠ .repo left)
    (failed : (derive g luck private_ rules dir).outcome = .error e)
    (stands : (derive g luck private_ rules dir).dir = .repo r) : r.main = none := by
  -- What was made is a fresh repository, if anything.
  have made : (∀ e', (openPublic luck dir).1 = .error e' → (openPublic luck dir).2 = .repo r →
    r = .fresh) ∧ ∀ r', (openPublic luck dir).1 = .ok r' → r' = .fresh := by
    rw [openPublic_bare bare]
    split
    · exact ⟨fun _ _ here => absurd here (bare r), nofun⟩
    · exact ⟨fun _ _ here => (nomatch here), nofun⟩
    · exact ⟨fun _ _ here => (PublicDir.repo.inj here).symm, nofun⟩
    · exact ⟨nofun, fun _ here => (Except.ok.inj here).symm⟩
  unfold derive at failed stands
  split at failed
  · rename_i opened
    rw [opened] at made stands
    rw [made.1 _ rfl stands]
    rfl
  · rename_i r' _ opened
    rw [opened] at made stands
    obtain rfl := made.2 r' rfl
    dsimp only at failed stands
    split at failed
    · cases failed
    · rename_i listed asked
      rw [asked] at stands
      dsimp only at stands
      have kept :
          (rewriteCommits g luck private_ rules listed (.start .fresh)).2.repo.main = none :=
        rewriteCommits_main listed _
      split at failed
      · rename_i rewrote
        rw [rewrote] at kept stands
        obtain rfl := PublicDir.repo.inj stands
        exact kept
      · rename_i d rewrote
        rw [rewrote] at kept stands
        dsimp only at stands
        -- The commits are rewritten, so it is the move of the branch that fails.
        split at failed
        · rename_i moved
          rw [moved] at stands
          obtain rfl := PublicDir.repo.inj stands
          unfold moveMain at moved
          split at moved
          · cases moved
          · split at moved <;> cases moved <;> exact kept
        · cases failed

end Deriving

namespace MirrorSite

/-- The rules that a command would find. -/
def currentRules (s : MirrorSite) : Except RulesError MirrorRules :=
  match s.rules with
  | none => .ok .defaultPub
  | some text => parseRules text

/-- Loading the rules touches nothing but their file, and what is loaded was and stays in force. -/
theorem loadRules_spec (s : MirrorSite) (w : MirrorLuck) :
    (∃ file, (s.loadRules w).2 = { s with rules := file }) ∧
      ∀ rules, (s.loadRules w).1 = .ok rules →
      s.currentRules = .ok rules ∧ (s.loadRules w).2.currentRules = .ok rules := by
  -- The default rules are written to a file that reads as the default rules.
  have readable : parseRules MirrorRules.defaultPub.encode = .ok .defaultPub := by decide
  cases file : s.rules with
  -- Without a file the default rules are in force, and are written.
  | none =>
    constructor
    · exact ⟨(w.rulesWrite.write MirrorRules.defaultPub.encode none).2, by simp [loadRules, file]⟩
    · intro rules loaded
      simp only [loadRules, file] at loaded ⊢
      cases written : w.rulesWrite with
      | done =>
        rw [written] at loaded
        cases loaded
        exact ⟨by simp [currentRules, file], readable⟩
      | refused e =>
        rw [written] at loaded
        cases loaded
      | cut e length =>
        rw [written] at loaded
        cases loaded
  -- A file that is there is read and not touched.
  | some text =>
    have same : (s.loadRules w).2 = s := by
      simp only [loadRules, file]
      split <;> rfl
    refine ⟨⟨s.rules, same⟩, ?_⟩
    intro rules loaded
    have parsed : s.currentRules = .ok rules := by
      simp only [loadRules, file] at loaded
      split at loaded
      · cases loaded
      · simpa [currentRules, file] using loaded
    exact ⟨parsed, by rw [same]; exact parsed⟩

/-- The same of everything that comes before the derivation. -/
theorem prepare_spec (s : MirrorSite) (w : MirrorLuck) (requireDry : Bool) :
    (∃ file, (s.prepare w requireDry).2 = { s with rules := file }) ∧
      ∀ rules, (s.prepare w requireDry).1 = .ok rules →
        s.currentRules = .ok rules ∧ (s.prepare w requireDry).2.currentRules = .ok rules := by
  -- The steps in front of the derivation succeed or end the command.
  obtain ⟨⟨file, loadedSite⟩, loaded⟩ := s.loadRules_spec w
  -- The namespace, the repository and the rules come first, and then the two gates.
  unfold prepare
  split
  · exact ⟨⟨s.rules, rfl⟩, nofun⟩
  · exact ⟨⟨s.rules, rfl⟩, nofun⟩
  · split
    · rename_i same
      rw [same] at loadedSite
      exact ⟨⟨file, loadedSite⟩, nofun⟩
    · rename_i rules s' same
      rw [same] at loadedSite loaded
      have current := loaded rules rfl
      split
      · exact ⟨⟨file, loadedSite⟩, nofun⟩
      · split
        · exact ⟨⟨file, loadedSite⟩, nofun⟩
        · refine ⟨⟨file, loadedSite⟩, ?_⟩
          rintro _ ⟨⟩
          exact current

/-- The places that a publication writes to are in one state as in another. -/
def SamePlaces (s s' : MirrorSite) : Prop :=
  s'.publicDir = s.publicDir ∧ s'.shamap = s.shamap ∧ s'.approval = s.approval

end MirrorSite

namespace MirrorSite

/--
A published mirror is lost when the derivation fails or the scan refuses, if
directories can be removed.

So a publication that gets past its gates has to get through the scan as well.
-/
theorem failed_publish_loses_the_mirror [Crypto] {s : MirrorSite} {w : MirrorLuck}
    {requireDry scan : Bool} {g : Git} {rules : MirrorRules} {r : PublicRepo} {head : ObjectName}
    (published : s.publicDir = .repo r) (points : r.main = some head)
    (cleared : ∀ left, w.cleared s.publicDir ≠ .repo left)
    (discarded : ∀ dir left, w.discarded dir ≠ .repo left)
    (prepared : (s.prepare w requireDry).1 = .ok rules)
    (failed : (∃ e, (derive g w.git s.history rules (w.cleared s.publicDir)).outcome = .error e) ∨
      ∃ path, (s.runDerive g w true requireDry scan).1 = .refuse (.secret path)) :
    ¬s.SamePlaces (s.runDerive g w true requireDry scan).2 := by
  -- What is in front of the derivation has passed.
  obtain ⟨⟨file, left⟩, _⟩ := s.prepare_spec w requireDry
  have outcome : s.prepare w requireDry = (.ok rules, { s with rules := file }) :=
    Prod.ext prepared left
  rintro ⟨same, _⟩
  rw [published] at same
  unfold runDerive at failed same
  simp only [outcome, destination, if_true, showing] at failed same
  cases derived : (derive g w.git s.history rules (w.cleared s.publicDir)).outcome with
  | error e =>
    -- The branch of the mirror is gone with it.
    simp only [derived] at same
    rw [main_of_derive_error cleared derived same] at points
    cases points
  | ok d =>
    obtain ⟨e, is⟩ | ⟨path, refused⟩ := failed
    · rw [derived] at is
      cases is
    · simp only [derived] at refused same
      cases scanned : (if scan = true then
          scanSecrets w.git w.listed (derive g w.git s.history rules (w.cleared s.publicDir)).dir
            else .ok none) with
      | error e => simp [scanned] at refused
      | ok found =>
        simp only [scanned] at refused same
        cases found with
        | some path => exact discarded _ _ same
        | none =>
          dsimp only at refused
          -- What seals a publication refuses nothing.
          unfold sealPublication at refused
          split at refused
          · cases refused
          · split at refused
            · cases refused
            · split at refused <;> cases refused

end MirrorSite

section Concrete

open Concrete

/-- A command that nothing goes wrong for; the scan looks at one commit. -/
def calmLuck (head : ObjectName) : MirrorLuck where
  ensured := .ok ()
  opened := .ok ()
  rulesRead := .ok ()
  rulesWrite := .done
  materialized := .ok ()
  scratch := .ok ()
  git := noFaults
  listed _ := [head]
  cleared _ := .absent
  discarded _ := .absent
  stored data := .ok (Crypto.blake3 data)
  shamapWrite := .done
  signed body := .ok ([1], body)
  approvalWrite := .done
  receiptWrite := .done

/-- A namespace with a private history and nothing published. -/
def plainSite : MirrorSite := ⟨none, none, .absent, none, none, plainHistory⟩

end Concrete

end NasTools
