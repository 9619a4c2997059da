import NasTools.Model.Cli.Repo
import NasTools.Model.Store.Concrete
import NasTools.Proofs.Vaults

/-!
A rotation of the convergence secret happens altogether or not at all, and the namespace
opens to what is in memory.
-/

namespace NasTools

open Checked (lift)

/-- Every place where a key is looked up under a name holds one key, if it holds any. -/
structure OneKey (name : List Char) (key : FixedBytes keyLen) (d : NsDisk) : Prop where
  keychain : ∀ k, d.keychain[name]? = some k → k = key
  file : ∀ bytes, d.vaultKey = some bytes → bytes = key.bytes

/--
A lookup finds a key where one is held, and at most copies the key of the file into the keychain.
-/
theorem loadVaultKey_cases {name : List Char} {l : KeyLookup} {d d' : NsDisk}
    {result : Except RepoError (FixedBytes keyLen)}
    (looked : loadVaultKey name l d = (d', result)) :
    (d' = d ∨ ∃ key, d.vaultKey = some key.bytes ∧
      d' = { d with keychain := d.keychain.insert name key }) ∧
      ∀ key, result = .ok key → d.keychain[name]? = some key ∨ d.vaultKey = some key.bytes := by
  -- The keychain is asked first, and the file after it.
  unfold loadVaultKey at looked
  split at looked
  · -- The keychain has the key.
    rename_i key found
    obtain ⟨rfl, rfl⟩ := Prod.mk.inj looked
    refine ⟨.inl rfl, ?_⟩
    rintro _ ⟨⟩
    split at found
    · exact .inl found
    · cases found
  · split at looked
    · obtain ⟨rfl, rfl⟩ := Prod.mk.inj looked
      exact ⟨.inl rfl, by simp⟩
    · obtain ⟨rfl, rfl⟩ := Prod.mk.inj looked
      exact ⟨.inl rfl, by simp⟩
    · rename_i bytes _ held
      split at looked
      · obtain ⟨rfl, rfl⟩ := Prod.mk.inj looked
        exact ⟨.inl rfl, by simp⟩
      · -- The file has the key, which the helper may take as well.
        rename_i key read
        have is : key.bytes = bytes := FixedBytes.bytes_of_ofBytes? read
        obtain ⟨rfl, rfl⟩ := Prod.mk.inj looked
        refine ⟨?_, ?_⟩
        · split
          · exact .inr ⟨key, by rw [held, is], rfl⟩
          · exact .inl rfl
        · rintro _ ⟨⟩
          exact .inr (by rw [held, is])

/-- A lookup under any name leaves the vault and the places of its key as they are. -/
theorem OneKey.look {ns name : List Char} {key : FixedBytes keyLen} {l : KeyLookup} {d d' : NsDisk}
    {result : Except RepoError (FixedBytes keyLen)} (one : OneKey ns key d)
    (looked : loadVaultKey name l d = (d', result)) :
    OneKey ns key d' ∧ d'.vaultBin = d.vaultBin ∧ d'.renames = d.renames := by
  -- Looking may copy the file's key into the keychain, and both are the one key.
  obtain ⟨rfl | ⟨copied, held, rfl⟩, _⟩ := loadVaultKey_cases looked
  · exact ⟨one, rfl, rfl⟩
  · refine ⟨⟨fun k there => ?_, one.file⟩, rfl, rfl⟩
    rw [Std.ExtTreeMap.getElem?_insert] at there
    split at there
    · -- What is copied is the key of the file, and so the key of the namespace.
      obtain rfl := Option.some.inj there
      exact FixedBytes.ext (one.file _ held)
    · exact one.keychain k there

/-- A lookup gives the one key that is held. -/
theorem OneKey.found {name : List Char} {key k : FixedBytes keyLen} {l : KeyLookup} {d d' : NsDisk}
    (one : OneKey name key d) (looked : loadVaultKey name l d = (d', .ok k)) : k = key := by
  rcases (loadVaultKey_cases looked).2 k rfl with held | held
  · exact one.keychain k held
  · exact FixedBytes.ext (one.file _ held)

/--
The vault is replaced where every step of the replacement succeeds, and is not touched otherwise.
-/
theorem writeVaultReplace_cases {bytes : Bytes} {w : Replacement} {d d' : NsDisk}
    {result : Except RepoError Unit} (replaced : writeVaultReplace bytes w d = (d', result)) :
    ((∃ e, result = .error e) ∧ ∃ sibling, d' = { d with sibling }) ∨
      result = .ok () ∧ d' = { d with vaultBin := bytes, renames := d.renames + 1 } := by
  -- Only the rename replaces the vault, and it is the last step.
  unfold writeVaultReplace at replaced
  split at replaced
  · obtain ⟨rfl, rfl⟩ := Prod.mk.inj replaced
    exact .inl ⟨⟨_, rfl⟩, d.sibling, rfl⟩
  · split at replaced
    · obtain ⟨rfl, rfl⟩ := Prod.mk.inj replaced
      exact .inl ⟨⟨_, rfl⟩, d.sibling, rfl⟩
    · obtain ⟨rfl, rfl⟩ := Prod.mk.inj replaced
      exact .inl ⟨⟨_, rfl⟩, _, rfl⟩
    · obtain ⟨rfl, rfl⟩ := Prod.mk.inj replaced
      exact .inl ⟨⟨_, rfl⟩, _, rfl⟩
    · obtain ⟨rfl, rfl⟩ := Prod.mk.inj replaced
      exact .inr ⟨rfl, rfl⟩

namespace NsRepo

section

variable [Cipher]

/--
What a rotation left where the vault was replaced: a vault with one generation more, sealed
under the key that was found.
-/
structure Committed (r : NsRepo) (w : RotateWorld) (d : NsDisk) (out : Rotated) : Prop where
  grown : ∃ (v grown : Vault) (g : Generation) (name : List Char) (d' : NsDisk)
    (key : FixedBytes keyLen),
    r.secrets = .vault v ∧ v.rotateConvergence w.draw = lift (.ok (grown, g.number)) ∧
      grown.generations.getLast? = some g ∧ r.rootName = some name ∧
        loadVaultKey name w.lookup d = (d', .ok key) ∧
      grown.sealWith key w.nonce = lift (.ok out.disk.vaultBin) ∧
      out.disk = { d' with vaultBin := out.disk.vaultBin, renames := d'.renames + 1 } ∧
      out.repo = { r with secrets := .vault grown, csHolder := g.secret }

/--
What a rotation left where the vault was not replaced: the namespace as it was, but
for the places of its key.
-/
structure Undone (r : NsRepo) (w : RotateWorld) (d : NsDisk) (out : Rotated) : Prop where
  repo : out.repo = r
  failed : ∃ e, out.result = .error e
  disk : ∃ d' sibling, out.disk = { d' with sibling } ∧
    (d' = d ∨ ∃ name result, r.rootName = some name ∧ loadVaultKey name w.lookup d = (d', result))

/--
Sealing the vault again either fails and puts the earlier one back, or replaces the
file and keeps the new one.
-/
theorem sealRotated_cases {r : NsRepo} {prior grown : Vault} {g : Generation} {w : RotateWorld}
    {d : NsDisk} {out : Rotated} (last : grown.generations.getLast? = some g)
    (went : r.sealRotated prior grown g.number w d = some out) :
    (out.repo = { r with secrets := .vault prior } ∧ (∃ e, out.result = .error e) ∧ ∃ d' sibling,
      out.disk = { d' with sibling } ∧
      (d' = d ∨ ∃ name result, r.rootName = some name ∧
        loadVaultKey name w.lookup d = (d', result))) ∨
    ∃ (name : List Char) (d' : NsDisk) (key : FixedBytes keyLen), r.rootName = some name ∧
      loadVaultKey name w.lookup d = (d', .ok key) ∧
        grown.sealWith key w.nonce = lift (.ok out.disk.vaultBin) ∧
      out.disk = { d' with vaultBin := out.disk.vaultBin, renames := d'.renames + 1 } ∧
      out.repo = { r with csHolder := g.secret } := by
  -- The name in the keychain is asked for first.
  unfold sealRotated at went
  dsimp only at went
  -- The steps are gone through in their order, and each failure ends the rotation.
  split at went
  · obtain rfl := Option.some.inj went
    exact .inl ⟨rfl, ⟨_, rfl⟩, d, d.sibling, rfl, .inl rfl⟩
  · rename_i name named
    split at went
    · rename_i d' e looked
      obtain rfl := Option.some.inj went
      exact .inl ⟨rfl, ⟨_, rfl⟩, d', d'.sibling, rfl, .inr ⟨name, _, named, looked⟩⟩
    · rename_i d' key looked
      split at went
      · cases went
      · obtain rfl := Option.some.inj went
        exact .inl ⟨rfl, ⟨_, rfl⟩, d', d'.sibling, rfl, .inr ⟨name, _, named, looked⟩⟩
      · rename_i sealed_ sealing
        split at went
        · rename_i d'' e replaced
          obtain rfl := Option.some.inj went
          rcases writeVaultReplace_cases replaced with ⟨_, sibling, rfl⟩ | ⟨impossible, _⟩
          · exact .inl ⟨rfl, ⟨_, rfl⟩, d', sibling, rfl, .inr ⟨name, _, named, looked⟩⟩
          · cases impossible
        · rename_i d'' replaced
          rcases writeVaultReplace_cases replaced with ⟨⟨_, impossible⟩, _⟩ | ⟨_, rfl⟩
          · cases impossible
          · -- The file was replaced, so what is in memory stays, whether or not the directory is
            -- synced.
            have shown : grown.currentGeneration = some (.ok g) := by
              rw [Vault.currentGeneration, last, Checked.expect_some]
              rfl
            rw [shown] at went
            dsimp only at went
            split at went
            · obtain rfl := Option.some.inj went
              exact .inr ⟨name, d', key, named, looked, sealing, rfl, rfl⟩
            · obtain rfl := Option.some.inj went
              exact .inr ⟨name, d', key, named, looked, sealing, rfl, rfl⟩

/-- A rotation is committed, or it is undone. -/
theorem rotate_cases {r : NsRepo} {w : RotateWorld} {d : NsDisk} {out : Rotated}
    (rotated : r.rotateConvergence w d = some out) :
    r.Undone w d out ∨ r.Committed w d out := by
  -- Before the vault is sealed every failure leaves it as it was.
  unfold rotateConvergence at rotated
  split at rotated
  · -- A namespace under a passphrase is refused.
    obtain rfl := Option.some.inj rotated
    exact .inl ⟨rfl, ⟨_, rfl⟩, d, d.sibling, rfl, .inl rfl⟩
  · rename_i v held
    split at rotated
    · cases rotated
    · obtain rfl := Option.some.inj rotated
      exact .inl ⟨rfl, ⟨_, rfl⟩, d, d.sibling, rfl, .inl rfl⟩
    · rename_i grown number grew
      obtain ⟨s, last, _, _, _, _, is⟩ := Vault.rotateConvergence_eq_ok.mp grew
      have current : grown.generations.getLast? = some ⟨number, s⟩ := by
        rw [is, List.getLast?_concat]
      rcases sealRotated_cases current rotated with ⟨back, failed, disk⟩ |
        ⟨name, d', key, named, looked, sealing, disk, repo⟩
      · -- The vault that is put back is the one that was there.
        refine .inl ⟨back.trans ?_, failed, disk⟩
        cases r
        simp only at held
        rw [held]
      · exact .inr ⟨v, grown, ⟨number, s⟩, name, d', key, held, grew, current, named, looked,
          sealing, disk, repo⟩

/-- What was sealed of a sound vault opens to it. -/
theorem openWith_sealWith (trusted : Cipher.Trusted) {v : Vault} (sound : v.Sound)
    {key : FixedBytes keyLen} {nonce : Option (FixedBytes nonceLen)} {bytes : Bytes}
    (made : v.sealWith key nonce = lift (.ok bytes)) :
    Vault.openWith bytes key = lift (.ok v) := by
  simp only [Vault.sealWith, Checked.bind_eq_ok, Checked.lift_inj, except_mapError_eq_ok] at made
  obtain ⟨p, written, sealed⟩ := made
  simp only [Vault.openWith, openRandom_sealRandom trusted sealed, except_mapError_ok,
    Checked.lift_ok_bind, sound.fromPlain_plain written]

end

end NsRepo

/-- A namespace that is open, with what it has outside its process. -/
structure NsState where
  disk : NsDisk
  repo : NsRepo

section

variable [Cipher]

/--
The vault in memory, the secret that was taken from it and the file all describe one
vault, under one key.
-/
structure Agrees (ns : List Char) (key : FixedBytes keyLen) (s : NsState) : Prop where
  keys : OneKey ns key s.disk
  vault : ∃ v g, s.repo.secrets = .vault v ∧ v.Sound ∧ v.generations.getLast? = some g ∧
    s.repo.csHolder = g.secret ∧
    Vault.openWith s.disk.vaultBin key = lift (.ok v)

/-- A rotation, however its steps go. -/
def Rotates (s t : NsState) : Prop :=
  ∃ w out, s.repo.rotateConvergence w s.disk = some out ∧ t = ⟨out.disk, out.repo⟩

/-- The namespace is opened again, or is not, or another one leaves its key in the keychain. -/
inductive Elsewhere (ns : List Char) : NsState → NsState → Prop
  | opened (s : NsState) (reads : Disk) (l : KeyLookup) (d : NsDisk) (r : NsRepo)
      (opens : NsRepo.openVault ns s.repo.rootName s.repo.mode s.repo.tenantSalt reads l s.disk =
        (d, lift (.ok r))) :
      Elsewhere ns s ⟨d, r⟩
  | unopened (s : NsState) (reads : Disk) (l : KeyLookup) : Elsewhere ns s
      ⟨(NsRepo.openVault ns s.repo.rootName s.repo.mode s.repo.tenantSalt reads l s.disk).1, s.repo⟩
  | other (s : NsState) (name : List Char) (key : FixedBytes keyLen) (apart : name ≠ ns) :
      Elsewhere ns s ⟨{ s.disk with keychain := s.disk.keychain.insert name key }, s.repo⟩

/-- No other key stands in the keychain under the last component of the directory. -/
def OwnName (key : FixedBytes keyLen) (s : NsState) : Prop :=
  ∀ name, s.repo.rootName = some name → ∀ k, s.disk.keychain[name]? = some k → k = key

/-- A step of a run in which the namespace rotates under its own name. -/
def Turns (ns : List Char) (key : FixedBytes keyLen) (s t : NsState) : Prop :=
  Rotates s t ∧ OwnName key s ∨ Elsewhere ns s t

omit [Cipher] in
/-- A namespace whose name is one component rotates under its own name. -/
theorem ownName_of_component {ns : List Char} {key : FixedBytes keyLen} {s : NsState}
    (one : OneKey ns key s.disk) (component : s.repo.rootName = some ns) : OwnName key s := by
  intro name named k held
  obtain rfl := Option.some.inj (named.symm.trans component)
  exact one.keychain k held

/-- What opens of a namespace whose copies agree is what is in memory. -/
theorem Agrees.opened {ns : List Char} {key : FixedBytes keyLen} {s : NsState}
    (agrees : Agrees ns key s) {l : KeyLookup} {d : NsDisk} {k : FixedBytes keyLen}
    (looked : loadVaultKey ns l s.disk = (d, .ok k)) :
    NsRepo.openVault ns s.repo.rootName s.repo.mode s.repo.tenantSalt (.ok ()) l s.disk =
      (d, lift (.ok s.repo)) := by
  -- The key that is found opens the file, which holds the vault in memory.
  obtain ⟨v, g, memory, _, last, holder, file⟩ := agrees.vault
  obtain rfl := agrees.keys.found looked
  have current : v.currentGeneration = lift (.ok g) := by
    rw [Vault.currentGeneration, last, Checked.expect_some]
  simp only [NsRepo.openVault, looked, file, Checked.mapError_lift, except_mapError_ok,
    Checked.lift_ok_bind, secretsConvergence, current, Checked.pure_eq, ← holder, ← memory]

/-- Nothing else opens. -/
theorem Agrees.of_opened {ns : List Char} {key : FixedBytes keyLen} {s : NsState}
    (agrees : Agrees ns key s) {reads : Disk} {l : KeyLookup} {d : NsDisk} {r : NsRepo}
    (opens : NsRepo.openVault ns s.repo.rootName s.repo.mode s.repo.tenantSalt reads l s.disk =
      (d, lift (.ok r))) :
    r = s.repo := by
  -- Without the file or its key nothing is opened, and with them it is the vault in memory.
  cases reads with
  | error e =>
    have impossible := (Prod.mk.inj opens).2
    rw [Checked.lift_inj] at impossible
    cases impossible
  | ok done =>
    cases looked : loadVaultKey ns l s.disk with
    | mk d' result =>
      cases result with
      | error e =>
        simp only [NsRepo.openVault, looked, Prod.mk.injEq, Checked.lift_inj] at opens
        cases opens.2
      | ok k =>
        rw [agrees.opened looked] at opens
        exact (Except.ok.inj (Checked.lift_inj.mp (Prod.mk.inj opens).2)).symm

/-- A namespace keeps the generations that it had. -/
def KeepsGenerations (s t : NsState) : Prop :=
  ∀ v, s.repo.secrets = .vault v → ∃ w, t.repo.secrets = .vault w ∧ v.generations <+: w.generations

omit [Cipher] in
/-- The same vault keeps its generations. -/
theorem keepsGenerations_of_eq {s t : NsState} (same : t.repo = s.repo) : KeepsGenerations s t :=
  fun v held => ⟨v, same ▸ held, List.prefix_refl _⟩

/-- A rotation under its own name keeps the copies in agreement, whatever fails in it. -/
theorem Agrees.rotates (trusted : Cipher.Trusted) {ns : List Char} {key : FixedBytes keyLen}
    {s t : NsState} (agrees : Agrees ns key s) (rotates : Rotates s t) (own : OwnName key s) :
    Agrees ns key t ∧ KeepsGenerations s t := by
  -- The rotation failed and was taken back, or it went through.
  obtain ⟨w, out, rotated, rfl⟩ := rotates
  rcases NsRepo.rotate_cases rotated with undone | committed
  · -- The repository is as it was, and so is the vault; a lookup may have copied the key.
    obtain ⟨d', sibling, disk, looked⟩ := undone.disk
    refine ⟨⟨?_, ?_⟩, keepsGenerations_of_eq undone.repo⟩
    · rcases looked with rfl | ⟨name, result, named, looked⟩
      · rw [disk]
        exact ⟨agrees.keys.keychain, agrees.keys.file⟩
      · rw [disk]
        have one := (agrees.keys.look looked).1
        exact ⟨one.keychain, one.file⟩
    · have file : out.disk.vaultBin = s.disk.vaultBin := by
        rw [disk]
        rcases looked with rfl | ⟨name, result, named, looked⟩
        · rfl
        · exact (agrees.keys.look looked).2.1
      rw [undone.repo, file]
      exact agrees.vault
  · obtain ⟨v, grown, g, name, d', found, memory, grew, last, named, looked, sealing, disk, repo⟩ :=
      committed.grown
    obtain ⟨v', g', memory', sound, _, _, _⟩ := agrees.vault
    obtain rfl := Secrets.vault.inj (memory.symm.trans memory')
    obtain ⟨sound', earlier⟩ := sound.step (.rotate v w.draw grown g.number grew)
    -- The key that was found is the key of the namespace, since the keychain holds
    -- no other under that name.
    have one : OneKey name key s.disk := ⟨own name named, agrees.keys.file⟩
    obtain rfl := one.found looked
    have kept := (agrees.keys.look looked).1
    refine ⟨⟨?_, grown, g, ?_, sound', last, ?_, NsRepo.openWith_sealWith trusted sound' sealing⟩,
      ?_⟩
    · rw [disk]
      exact ⟨kept.keychain, kept.file⟩
    · rw [repo]
    · rw [repo]
    · intro v' held
      obtain rfl := Secrets.vault.inj (memory.symm.trans held)
      exact ⟨grown, by rw [repo], earlier⟩

/-- What else happens keeps the copies in agreement. -/
theorem Agrees.elsewhere {ns : List Char} {key : FixedBytes keyLen} {s t : NsState}
    (agrees : Agrees ns key s) (step : Elsewhere ns s t) :
    Agrees ns key t ∧ KeepsGenerations s t := by
  -- Opening looks the key up, and does nothing else to the disk.
  have looked {reads : Disk} {l : KeyLookup} {d : NsDisk} {result : Checked RepoError NsRepo}
      (opens : NsRepo.openVault ns s.repo.rootName s.repo.mode s.repo.tenantSalt reads l s.disk =
        (d, result)) :
      OneKey ns key d ∧ d.vaultBin = s.disk.vaultBin := by
    cases reads with
    | error e =>
      obtain rfl := (Prod.mk.inj opens).1
      exact ⟨agrees.keys, rfl⟩
    | ok done =>
      cases found : loadVaultKey ns l s.disk with
      | mk d' result' =>
        obtain ⟨one, file, _⟩ := agrees.keys.look found
        have same : d' = d := by
          cases result' with
          | error e =>
            simp only [NsRepo.openVault, found] at opens
            exact (Prod.mk.inj opens).1
          | ok k =>
            simp only [NsRepo.openVault, found] at opens
            exact (Prod.mk.inj opens).1
        exact same ▸ ⟨one, file⟩
  cases step with
  | opened reads l d r opens =>
    obtain ⟨one, file⟩ := looked opens
    obtain rfl := agrees.of_opened opens
    exact ⟨⟨one, file ▸ agrees.vault⟩, keepsGenerations_of_eq rfl⟩
  | unopened reads l =>
    obtain ⟨one, file⟩ := @looked reads l _ _ rfl
    exact ⟨⟨one, file ▸ agrees.vault⟩, keepsGenerations_of_eq rfl⟩
  | other name other_ apart =>
    refine ⟨⟨⟨fun k held => ?_, agrees.keys.file⟩, agrees.vault⟩, keepsGenerations_of_eq rfl⟩
    have differs : compare name ns ≠ .eq := fun same => apart (Std.LawfulEqCmp.eq_of_compare same)
    rw [Std.ExtTreeMap.getElem?_insert, if_neg differs] at held
    exact agrees.keys.keychain k held

/-- A run of rotations keeps the copies in agreement, and every generation there was. -/
theorem Agrees.run (trusted : Cipher.Trusted) {ns : List Char} {key : FixedBytes keyLen}
    {s t : NsState} (agrees : Agrees ns key s) (run : Relation.ReflTransGen (Turns ns key) s t) :
    Agrees ns key t ∧ KeepsGenerations s t := by
  -- Induction over the run: a rotation and every other step keep the agreement.
  induction run with
  | refl => exact ⟨agrees, keepsGenerations_of_eq rfl⟩
  | tail _ step ih =>
    obtain ⟨before, kept⟩ := ih
    have next :=
      step.elim (fun rotation => before.rotates trusted rotation.1 rotation.2) before.elsewhere
    refine ⟨next.1, fun v held => ?_⟩
    obtain ⟨w, held', earlier⟩ := kept v held
    obtain ⟨x, held'', more⟩ := next.2 w held'
    exact ⟨x, held'', earlier.trans more⟩

/--
What a rotation leaves: all as it was, or the new generation in the file, in memory
and behind the sealer.
-/
structure AllOrNothing (r : NsRepo) (w : RotateWorld) (d : NsDisk) (out : Rotated) : Prop where
  before : out.disk.renames = d.renames → out.disk.vaultBin = d.vaultBin ∧
    out.repo.generation = r.generation ∧
    out.repo.csHolder = r.csHolder ∧ out.repo = r
  after : out.disk.renames ≠ d.renames → ∃ v grown g key, r.secrets = .vault v ∧
    grown.generations = v.generations ++ [g] ∧ out.repo.secrets = .vault grown ∧
    out.repo.generation = lift (.ok g.number) ∧ out.repo.csHolder = g.secret ∧
    grown.sealWith key w.nonce = lift (.ok out.disk.vaultBin)

/-- A rotation is all or nothing, with the rename as its only turn. -/
theorem allOrNothing {r : NsRepo} {w : RotateWorld} {d : NsDisk} {out : Rotated}
    (rotated : r.rotateConvergence w d = some out) :
    AllOrNothing r w d out := by
  -- Either the rotation was undone and nothing was renamed, or it was committed by one rename.
  rcases NsRepo.rotate_cases rotated with undone | committed
  · obtain ⟨d', sibling, disk, looked⟩ := undone.disk
    have kept : d'.vaultBin = d.vaultBin ∧ d'.renames = d.renames := by
      rcases looked with rfl | ⟨name, result, _, looked⟩
      · exact ⟨rfl, rfl⟩
      · obtain ⟨rfl | ⟨_, _, rfl⟩, _⟩ := loadVaultKey_cases looked
        · exact ⟨rfl, rfl⟩
        · exact ⟨rfl, rfl⟩
    have same : out.disk.renames = d.renames := by rw [disk, ← kept.2]
    refine ⟨fun _ =>
      ⟨by rw [disk, ← kept.1], by rw [undone.repo], by rw [undone.repo], undone.repo⟩, fun other =>
      absurd same other⟩
  · obtain ⟨v, grown, g, name, d', key, memory, grew, last, _, looked, sealing, disk, repo⟩ :=
      committed.grown
    have more : out.disk.renames ≠ d.renames := by
      rw [disk]
      obtain ⟨rfl | ⟨_, _, rfl⟩, _⟩ := loadVaultKey_cases looked
      · exact Nat.succ_ne_self _
      · exact Nat.succ_ne_self _
    refine ⟨fun same => absurd same more, fun _ => ?_⟩
    obtain ⟨s, _, _, _, _, _, is⟩ := Vault.rotateConvergence_eq_ok.mp grew
    have made : (⟨g.number, s⟩ : Generation) = g := by
      rw [is, List.getLast?_concat] at last
      exact Option.some.inj last
    have current : grown.currentGeneration = lift (.ok g) := by
      rw [Vault.currentGeneration, last, Checked.expect_some]
    refine ⟨v, grown, g, key, memory, by rw [is, made], by rw [repo], ?_, by rw [repo], sealing⟩
    simp only [repo, NsRepo.generation, current, Checked.lift_ok_bind, Checked.pure_eq]

/-- A new namespace, in a directory and under a name that hold no key yet, starts in agreement. -/
theorem agrees_createVault (trusted : Cipher.Trusted) {ns : List Char}
    {rootName : Option (List Char)} {mode : Mode} {salt : Bytes} {w : CreateWorld} {d d' : NsDisk}
    {r : NsRepo} (file : d.vaultKey = none) (item : d.keychain[ns]? = none)
    (made : NsRepo.createVault ns rootName mode salt w d = lift (.ok (d', r))) :
    ∃ key, Agrees ns key ⟨d', r⟩ := by
  -- The vault is sealed under the new key, which is kept in the keychain or in the file.
  simp only [NsRepo.createVault, Checked.bind_eq_ok, Checked.lift_inj, except_mapError_eq_ok,
    Checked.pure_eq, Except.ok.injEq, Prod.mk.injEq] at made
  obtain ⟨v, fresh, key, _, sealed, sealing, _, _, kept, keeps, holder, held, rfl, rfl⟩ := made
  have sound := Vault.sound_create fresh
  have mapError_eq {A : Type} {x : Checked VaultError A} {a : A}
      (is : Checked.mapError (fun e => RepoError.other e.display) x = lift (.ok a)) :
        x = lift (.ok a) := by
    rcases x with _ | (e | b)
    · cases is
    · cases is
    · rw [Except.ok.inj (Option.some.inj is)]
      rfl
  have opens := NsRepo.openWith_sealWith trusted sound (mapError_eq sealing)
  obtain ⟨g, current, secret⟩ := Checked.bind_eq_ok.mp (mapError_eq held)
  have last : v.generations.getLast? = some g := Checked.expect_eq_ok.mp current
  have holds : holder = g.secret := by
    simpa [Checked.pure_eq, Checked.lift_inj, eq_comm] using secret
  refine ⟨key, ?_⟩
  unfold NsRepo.keepKey at keeps
  split at keeps
  · -- The keychain took the key, so there is no file.
    simp only [Checked.pure_eq, Checked.lift_inj, Except.ok.injEq] at keeps
    subst keeps
    refine ⟨⟨fun k there => ?_, fun bytes there => ?_⟩, v, g, rfl, sound, last, holds, opens⟩
    · rw [Std.ExtTreeMap.getElem?_insert_self] at there
      exact (Option.some.inj there).symm
    · rw [show d.vaultKey = some bytes from there] at file
      cases file
  · simp only [Checked.bind_eq_ok, Checked.lift_inj, Checked.pure_eq, Except.ok.injEq] at keeps
    obtain ⟨_, _, rfl⟩ := keeps
    refine ⟨⟨fun k there => ?_, fun bytes there => (Option.some.inj there).symm⟩, v, g, rfl, sound,
      last, holds, opens⟩
    rw [show d.keychain[ns]? = some k from there] at item
    cases item

/--
Every rotation is all or nothing, and in every run whose rotations look the key up under a name that
holds no other key, from a namespace whose copies agree, they agree afterwards: what opens is what
is in memory, and no generation is lost.
-/
theorem rotation_is_all_or_nothing (trusted : Cipher.Trusted) (ns : List Char)
    (key : FixedBytes keyLen) :
    (∀ (r : NsRepo) w d out, r.rotateConvergence w d = some out → AllOrNothing r w d out) ∧
    ∀ s t, Agrees ns key s → Relation.ReflTransGen (Turns ns key) s t →
      Agrees ns key t ∧ KeepsGenerations s t ∧
      (∀ l d k, loadVaultKey ns l t.disk = (d, .ok k) →
        NsRepo.openVault ns t.repo.rootName t.repo.mode t.repo.tenantSalt (.ok ()) l t.disk =
          (d, lift (.ok t.repo))) ∧
      ∀ reads l d r, NsRepo.openVault ns t.repo.rootName t.repo.mode t.repo.tenantSalt reads l
        t.disk = (d, lift (.ok r)) →
        r.generation = t.repo.generation ∧ r.sealer = t.repo.sealer := by
  -- Each rotation by itself, and then any run of steps on which memory and disk agree.
  refine ⟨fun r w d out rotated => allOrNothing rotated, fun s t agrees run => ?_⟩
  obtain ⟨after, kept⟩ := agrees.run trusted run
  refine ⟨after, kept, fun l d k looked => after.opened looked, fun reads l d r opens => ?_⟩
  rw [after.of_opened opens]
  exact ⟨rfl, rfl⟩

end

section

open Concrete

/-- A key of one repeated byte. -/
def keyOf (b : UInt8) : FixedBytes keyLen := ⟨List.replicate keyLen b, List.length_replicate⟩

/-- A creation in which every step succeeds. -/
def created : CreateWorld :=
  ⟨.ok (keyOf 1), .ok (keyOf 2), .ok (keyOf 3), some (FixedBytes.zero nonceLen), .ok (),
      true, .ok ()⟩

/-- A directory with nothing in it, and a keychain with the key of another namespace. -/
def emptyDisk : NsDisk :=
  ⟨[], false, none, (∅ : OrdMap (List Char) (FixedBytes keyLen)).insert ['b'] (keyOf 9), 0⟩

/-- A lookup in which the helper answers. -/
def answeredKey : KeyLookup := ⟨true, .ok (), true⟩

/-- A rotation in which every step succeeds, but for the sync of the directory. -/
def unsynced : RotateWorld :=
  ⟨.ok (keyOf 4), answeredKey, some (FixedBytes.zero nonceLen), ⟨.ok (), .ok (), .ok (), true⟩,
    .error ⟨"I/O error"⟩⟩

/-- A namespace is made and rotated, and what is asked of it then holds. -/
theorem exists_rotated {ns rootName : List Char} {w : RotateWorld} {asked : NsRepo → Rotated → Bool}
    (run : (match NsRepo.createVault ns (some rootName) .e2ee [] created emptyDisk with
      | some (.ok (d, r)) => (r.rotateConvergence w d).any (asked r)
      | _ => false) = true) :
    ∃ d r out, NsRepo.createVault ns (some rootName) .e2ee [] created emptyDisk =
      lift (.ok (d, r)) ∧ r.rotateConvergence w d = some out ∧ asked r out = true := by
  -- The run is evaluated up to a Boolean, from which its parts are read off.
  split at run
  · rename_i d r made
    obtain ⟨out, rotated, holds⟩ := (Option.any_eq_true _ _).mp run
    exact ⟨d, r, out, made, rotated, holds⟩
  · cases run

/--
A namespace is rotated, and opens to the new generation although its directory was not synced.
-/
theorem rotated_namespace_opens : ∃ d r out d', NsRepo.createVault ['a'] (some ['a']) .e2ee []
    created emptyDisk = lift (.ok (d, r)) ∧
    r.rotateConvergence unsynced d = some out ∧ out.result = .error (.os ⟨"I/O error"⟩) ∧
      out.repo.csHolder = keyOf 4 ∧
    NsRepo.openVault ['a'] out.repo.rootName out.repo.mode out.repo.tenantSalt (.ok ())
      answeredKey out.disk = (d', lift (.ok out.repo)) := by
  -- A namespace is made and rotated, and both are evaluated.
  obtain ⟨d, r, out, made, rotated, holds⟩ := @exists_rotated ['a'] ['a'] unsynced
    (fun r out => decide (out.result = .error (.os ⟨"I/O error"⟩) ∧ out.repo.csHolder = keyOf 4 ∧
      r.rootName = some ['a']) &&
      (loadVaultKey ['a'] answeredKey out.disk).2.isOk) (by decide +kernel)
  obtain ⟨plain, found⟩ := Bool.and_eq_true_iff.mp holds
  obtain ⟨result, secret, component⟩ := of_decide_eq_true plain
  obtain ⟨key, agrees⟩ := agrees_createVault trusted rfl (by decide) made
  -- The namespace has a name of one component, so it rotates under its own.
  have turn : Turns ['a'] key ⟨d, r⟩ ⟨out.disk, out.repo⟩ :=
    .inl ⟨⟨unsynced, out, rotated, rfl⟩, ownName_of_component agrees.keys component⟩
  have run :=
    (rotation_is_all_or_nothing trusted ['a'] key).2 _ _ agrees (Relation.ReflTransGen.single turn)
  cases looked : loadVaultKey ['a'] answeredKey out.disk with
  | mk d' outcome =>
    cases outcome with
    | error e =>
      rw [looked] at found
      cases found
    | ok k => exact ⟨d, r, out, d', made, rotated, result, secret,
      run.2.2.1 answeredKey d' k looked⟩

/-- An outcome that is not a value is an error, unless there is none. -/
theorem exists_error {E A : Type} {outcome : Checked E A}
    (refused : (Option.any (fun ended => !ended.isOk) outcome) = true) :
      ∃ e, outcome = lift (.error e) := by
  -- An outcome is none, an error or a value.
  cases outcome with
  | none => cases refused
  | some ended =>
    cases ended with
    | error e => exact ⟨e, rfl⟩
    | ok value => cases refused

/--
A namespace in a directory of another one is sealed under the key of the other, and does not open.
-/
theorem nested_namespace_does_not_open : ∃ d r out,
    NsRepo.createVault ['a', '/', 'b'] (some ['b']) .e2ee [] created emptyDisk = lift (.ok (d, r)) ∧
    r.rotateConvergence { unsynced with syncDir := .ok () } d = some out ∧ out.result = .ok 1 ∧
    ∃ e, (NsRepo.openVault ['a', '/', 'b'] (some ['b']) .e2ee [] (.ok ()) answeredKey out.disk).2 =
      lift (.error e) := by
  -- Both the rotation and the attempt to open are evaluated.
  obtain ⟨d, r, out, made, rotated, holds⟩ :=
    @exists_rotated ['a', '/', 'b'] ['b'] { unsynced with syncDir := .ok () }
    (fun _ out => decide (out.result = .ok 1) &&
      Option.any (fun ended => !ended.isOk)
        (NsRepo.openVault ['a', '/', 'b'] (some ['b']) .e2ee [] (.ok ()) answeredKey out.disk).2)
          (by decide +kernel)
  obtain ⟨result, refused⟩ := Bool.and_eq_true_iff.mp holds
  exact ⟨d, r, out, made, rotated, of_decide_eq_true result, exists_error refused⟩

end

end NasTools
