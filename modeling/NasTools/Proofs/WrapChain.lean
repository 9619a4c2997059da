import NasTools.Proofs.Wraps

/-!
Chains of wrap records: what a rewrap is told, and when the floor never goes down along a chain.
-/

namespace NasTools

open Checked (lift)

/-- What a rewrap is called with, and what it draws. -/
structure Rewrap where
  oldPassphrase : Bytes
  newPassphrase : Bytes
  params : Argon2Params
  policy : WrapPolicy
  seq : UInt64
  anchor : Anchor
  salt : Except String (FixedBytes 32)
  nonce : Option (FixedBytes nonceLen)

/-- A rewrap is told the next sequence, and a floor that is no lower. -/
structure Rewrap.Raises (call : Rewrap) (old : WrapRecord) : Prop where
  seq : call.seq.toNat = old.seq.toNat + 1
  floor : old.anchor.seq ≤ call.anchor.seq

section

variable [Crypto]

/--
A record is the next one of a chain: it counts on, names the record before it, and
does not lower its floor.
-/
structure WrapRecord.Follows (r old : WrapRecord) : Prop where
  seq : r.seq.toNat = old.seq.toNat + 1
  prev : old.chainHash = lift (.ok r.prev)
  floor : old.anchor.seq ≤ r.anchor.seq

variable [Kdf] [SigKeyPair] [Cipher] [Argon2]

/-- The outcome of a rewrap of a record. -/
def Rewrap.run (call : Rewrap) (old : WrapRecord) : Checked WrapError WrapRecord :=
  old.rewrap call.oldPassphrase call.newPassphrase call.params call.policy call.seq call.anchor
    call.salt call.nonce

/-- A rewrapped record says what the rewrap was told, and names the old one. -/
theorem Rewrap.run_eq_ok {call : Rewrap} {old r : WrapRecord} (ran : call.run old = lift (.ok r)) :
    r.seq = call.seq ∧ r.anchor = call.anchor ∧ old.chainHash = lift (.ok r.prev) := by
  obtain ⟨dek, prev, _, named, created⟩ := WrapCall.rewrap_eq_ok.mp ran
  obtain ⟨_, _, _, seq, floor, rfl⟩ := WrapRecord.create_eq_ok created
  exact ⟨seq, floor, named⟩

/-- A rewrapped record is the next one of the chain exactly when the rewrap was told so. -/
theorem Rewrap.follows_iff {call : Rewrap} {old r : WrapRecord}
    (ran : call.run old = lift (.ok r)) :
    r.Follows old ↔ call.Raises old := by
  -- The record has the sequence and the floor that were asked for.
  obtain ⟨seq, floor, named⟩ := Rewrap.run_eq_ok ran
  constructor
  · intro follows
    exact ⟨seq ▸ follows.seq, floor ▸ follows.floor⟩
  · intro raises
    exact ⟨seq.symm ▸ raises.seq, named, floor.symm ▸ raises.floor⟩

/-- A chain of rewraps that starts with a record: each wraps the record before it. -/
inductive Rewrapped : WrapRecord → List (Rewrap × WrapRecord) → Prop where
  | nil {first : WrapRecord} : Rewrapped first []
  | step {first r : WrapRecord} {call : Rewrap} {later : List (Rewrap × WrapRecord)}
    (ran : call.run first = lift (.ok r))
    (rest : Rewrapped r later) : Rewrapped first ((call, r) :: later)

omit [Crypto] [Kdf] [SigKeyPair] [Cipher] [Argon2] in
/-- Every rewrap of a chain is told the next sequence, and no lower floor. -/
def AllRaise : WrapRecord → List (Rewrap × WrapRecord) → Prop
  | _, [] => True
  | first, (call, r) :: later => call.Raises first ∧ AllRaise r later

/-- Whatever two records open to, the later floor is no lower. -/
def WrapRecord.KeepsFloor (r r' : WrapRecord) : Prop :=
  ∀ passphrase policy secrets floor passphrase' policy' secrets' floor',
    r.unwrap passphrase policy = lift (.ok (secrets, floor)) →
      r'.unwrap passphrase' policy' = lift (.ok (secrets', floor')) → floor.seq ≤ floor'.seq

/-- The floor of a record is what it opens to. -/
theorem WrapRecord.keepsFloor_of_le {r r' : WrapRecord} (floors : r.anchor.seq ≤ r'.anchor.seq) :
    r.KeepsFloor r' := by
  intro passphrase policy secrets floor passphrase' policy' secrets' floor' opened opened'
  obtain ⟨_, _, _, _, rfl⟩ := WrapRecord.unwrap_eq_ok.mp opened
  obtain ⟨_, _, _, _, rfl⟩ := WrapRecord.unwrap_eq_ok.mp opened'
  exact floors

/-- Along a chain whose rewraps all raise the floor, each record follows the one before it. -/
theorem Rewrapped.follows {first : WrapRecord} {steps : List (Rewrap × WrapRecord)}
    (chain : Rewrapped first steps) (raise : AllRaise first steps) :
    (first :: steps.map Prod.snd).IsChain fun old r => r.Follows old := by
  -- Induction over the chain, each of whose calls raises.
  induction chain with
  | nil => exact List.isChain_singleton _
  | step ran rest ih =>
    obtain ⟨here, later⟩ := raise
    rw [List.map_cons]
    exact List.isChain_cons_cons.mpr ⟨(Rewrap.follows_iff ran).mpr here, ih later⟩

/--
A rewrap makes the next record of the chain exactly when it is told the next sequence and
a floor that is no lower.

Along a chain of such rewraps no record opens to a lower floor than one before it.
-/
theorem floor_never_goes_down_iff :
    (∀ (call : Rewrap) old r, call.run old = lift (.ok r) →
      old.chainHash = lift (.ok r.prev) ∧ (r.Follows old ↔ call.Raises old)) ∧
    (∀ first steps, Rewrapped first steps → AllRaise first steps →
      (first :: steps.map Prod.snd).IsChain (fun old r => r.Follows old) ∧
      (first :: steps.map Prod.snd).Pairwise WrapRecord.KeepsFloor) := by
  -- One rewrap is looked at first, and then a chain of them.
  refine ⟨fun call old r ran => ⟨(Rewrap.run_eq_ok ran).2.2, Rewrap.follows_iff ran⟩, ?_⟩
  intro first steps chain raise
  have follows := chain.follows raise
  -- No lower than the record before is no lower than any record before.
  have floors : (first :: steps.map Prod.snd).IsChain fun old r => old.anchor.seq ≤ r.anchor.seq :=
    follows.imp fun _ _ next => next.floor
  exact ⟨follows, floors.pairwise.imp WrapRecord.keepsFloor_of_le⟩

end

section

open Concrete

attribute [local instance] kdfByDigest keyPairByByte argon2ByDigest

/-- A rewrap under the same passphrase, told a sequence and a floor. -/
def rewrapTo (seq floor : UInt64) : Rewrap :=
  ⟨[112, 119], [112, 119], .weakForTests, .fast, seq, ⟨floor, FixedBytes.zero 32⟩,
    .ok (FixedBytes.zero 32), some (FixedBytes.zero _)⟩

/--
A record that holds the data key of the first one, under the same passphrase and the same cost.
-/
structure HoldsKey (r : WrapRecord) : Prop where
  wraps : r.Wraps [112, 119] (FixedBytes.zero 32)
  params : r.params = .weakForTests

/-- Such a record is rewrapped to whatever it is told but sequence zero. -/
theorem HoldsKey.rewrapped {old : WrapRecord} (holds : HoldsKey old) {seq : UInt64}
    (later : seq ≠ 0) (floor : UInt64) :
    ∃ r, (rewrapTo seq floor).run old = lift (.ok r) ∧ HoldsKey r := by
  -- Every check of the rewrap passes.
  have checked : Argon2Params.weakForTests.check .fast = .ok () := by decide
  have recovered : old.recoverDek [112, 119] .fast = lift (.ok (FixedBytes.zero 32)) :=
    holds.wraps.recoverDek trusted (holds.params ▸ checked)
  obtain ⟨_, _, a, _, bound, _⟩ := holds.wraps.sealed
  obtain ⟨prev, named⟩ : ∃ prev, old.chainHash = lift (.ok prev) := by
    rw [WrapRecord.chainHash, bound, Checked.lift_ok_bind]
    exact ⟨_, rfl⟩
  -- The stand-in digest is never zero, so the old record can be named.
  have genesis : seq = 0 ↔ prev = Digest.zero := by
    refine iff_of_false later fun zero => ?_
    rw [WrapRecord.chainHash, bound, Checked.lift_ok_bind] at named
    obtain rfl := Except.ok.inj (Checked.lift_inj.mp named)
    exact noZeroDigest _ zero
  have seals (key : FixedBytes 32) (a : Bytes) : ∃ wrapped,
      sealRandom key (some (FixedBytes.zero _)) (FixedBytes.zero 32).bytes a = .ok wrapped ∧
        wrapped.length ≤ maxField := by
    refine ⟨_, rfl, ?_⟩
    simp [FixedBytes.size, nonceLen, maxField, FixedBytes.zero]
  obtain ⟨r, created⟩ := WrapRecord.create_ok ⟨floor, FixedBytes.zero 32⟩ (FixedBytes.zero 32)
    checked genesis rfl (seals _)
    rfl (identity_signs _)
  obtain ⟨wraps, _, params, _⟩ := WrapRecord.create_eq_ok created
  exact ⟨r, WrapCall.rewrap_eq_ok.mpr ⟨_, prev, recovered, named, created⟩, wraps, params⟩

/-- The first record of a namespace, with its floor at seven. -/
theorem exists_first :
    ∃ r, firstWrap.Made r (FixedBytes.zero 32) ∧ HoldsKey r ∧ r.seq = 0 ∧ r.anchor.seq = 7 := by
  obtain ⟨r, made⟩ := firstWrap_made
  obtain ⟨_, _, params, seq, anchor, _⟩ := WrapRecord.create_eq_ok made.record
  exact ⟨r, made, ⟨made.wraps.1, params⟩, seq, by rw [anchor]⟩

/-- A chain of two rewraps, of which the second raises the floor. -/
theorem floor_goes_up : ∃ first r r', firstWrap.Made first (FixedBytes.zero 32) ∧
    (rewrapTo 1 7).run first = lift (.ok r) ∧ (rewrapTo 2 42).run r = lift (.ok r') ∧
    [first, r, r'].Pairwise WrapRecord.KeepsFloor := by
  -- The chain is made of two calls, and both raise.
  obtain ⟨first, made, holds, zero, seven⟩ := exists_first
  obtain ⟨r, ran, holds'⟩ := holds.rewrapped (by decide : (1 : UInt64) ≠ 0) 7
  obtain ⟨r', ran', _⟩ := holds'.rewrapped (by decide : (2 : UInt64) ≠ 0) 42
  obtain ⟨one, floor, _⟩ := Rewrap.run_eq_ok ran
  have raise : AllRaise first [(rewrapTo 1 7, r), (rewrapTo 2 42, r')] :=
    ⟨⟨by rw [zero]; rfl, by rw [seven]; decide⟩, ⟨by rw [one]; rfl, by rw [floor]; decide⟩, trivial⟩
  exact ⟨first, r, r', made, ran, ran',
    (floor_never_goes_down_iff.2 first [(rewrapTo 1 7, r), (rewrapTo 2 42, r')]
      (.step ran (.step ran' .nil)) raise).2⟩

/--
A rewrap is told any later sequence and a floor of three, and makes a record that opens to it.
-/
theorem rewrap_lowers_the_floor : ∃ first r, firstWrap.Made first (FixedBytes.zero 32) ∧
    first.anchor.seq = 7 ∧
    (rewrapTo 9 3).run first = lift (.ok r) ∧ r.seq = 9 ∧ r.anchor.seq = 3 ∧ ¬r.Follows first ∧
    ¬first.KeepsFloor r := by
  -- The call is made as any other, and the floor it gives is lower.
  have grows : ∀ seed id, SigKeyPair.fromSeed seed = some id → id.Signs := by
    intro seed id grown
    obtain rfl := Option.some.inj grown
    exact identity_signs _
  have checked : Argon2Params.weakForTests.check .fast = .ok () := by decide
  obtain ⟨first, made, holds, zero, seven⟩ := exists_first
  obtain ⟨r, ran, holds'⟩ := holds.rewrapped (by decide : (9 : UInt64) ≠ 0) 3
  obtain ⟨nine, floor, _⟩ := Rewrap.run_eq_ok ran
  have three : r.anchor.seq = 3 := by rw [floor]; rfl
  refine ⟨first, r, made, seven, ran, nine, three, fun follows => ?_, fun keeps => ?_⟩
  · have lower := follows.floor
    rw [seven, three] at lower
    exact absurd lower (by decide)
  · -- Both records open, each to its own floor.
    have lower :=
      keeps _ .fast _ _ _ .fast _ _ (holds.wraps.unwrap trusted grows (holds.params ▸ checked))
      (holds'.wraps.unwrap trusted grows (holds'.params ▸ checked))
    rw [seven, three] at lower
    exact absurd lower (by decide)

end

end NasTools
