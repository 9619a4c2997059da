import NasTools.Lib.Judged
import NasTools.Model.Crypto.Concrete
import NasTools.Model.Lease.Set

/-!
Replaying a lease history: the chain it accepts, the set it gives, and the checkpoints it looks at.
-/

namespace NasTools

open Checked (lift)

/-- Renaming the error of a step changes no value and no panic. -/
theorem Checked.mapError_eq_ok {E F A : Type} {f : E → F} {x : Checked E A} {a : A} :
    x.mapError f = lift (.ok a) ↔ x = lift (.ok a) := by
  -- A step is a panic, an error or a value.
  rcases x with _ | (e | b)
  -- Neither a panic nor an error is a value, under any name.
  · exact ⟨nofun, nofun⟩
  · exact ⟨nofun, nofun⟩
  · constructor
    · intro same
      cases same
      rfl
    · intro same
      cases same
      rfl

section

variable [Crypto] {deltas front : List LeaseDelta} {checkpoints : List LeaseCheckpoint}
    {d : LeaseDelta}
  {s' : Replaying}

/-- The hash a verified delta is linked by. -/
def LeaseDelta.linkHash (d : LeaseDelta) : Digest :=
  match deltaBody d.epoch d.seq d.add d.remove d.prev with
  | some (.ok body) => leaseChainHash (body ++ d.sig)
  | _ => Digest.zero

/-- A delta that verifies has a body, so it has a hash. -/
theorem LeaseDelta.chainHash_of_verify (verified : d.verify = lift (.ok ())) :
    d.chainHash = lift (.ok d.linkHash) := by
  -- The signature was checked over that body.
  simp only [verify, Checked.bind_eq_ok] at verified
  obtain ⟨_, _, _, _, _, _, body, fits, _⟩ := verified
  rw [chainHash, linkHash, fits]
  rfl

/-- The sequence that comes after some deltas. -/
def seqAfter (front : List LeaseDelta) : UInt64 :=
  (front.getLast?.map fun d => satAdd d.seq 1).getD 0

/-- The link that the next delta after some must carry. -/
def linkAfter (front : List LeaseDelta) : Digest :=
  (front.getLast?.map LeaseDelta.linkHash).getD Digest.zero

/-- The set after some deltas: the left fold of adding and then removing. -/
def setAfter (front : List LeaseDelta) : LeaseSet := front.foldl LeaseSet.apply ∅

/-- Where a replay of some deltas stands. -/
def replayed (front : List LeaseDelta) : Replaying :=
  ⟨setAfter front, seqAfter front, linkAfter front, front.head?.map LeaseDelta.holderId⟩

/-- A checkpoint describes a set: it verifies, is by the holder, and covers it. -/
structure Describes (holder : Digest) (set : LeaseSet) (c : LeaseCheckpoint) : Prop where
  verified : c.verify = .ok ()
  holder : c.holderId = holder
  covers : c.covers set.toList = .ok ()

/-- A delta that may follow some others, with every checkpoint of its sequence. -/
structure Follows (checkpoints : List LeaseCheckpoint) (front : List LeaseDelta)
    (d : LeaseDelta) : Prop where
  verified : d.verify = lift (.ok ())
  holder : ∀ first ∈ front.head?, d.holderId = first.holderId
  seq : d.seq = seqAfter front
  prev : d.prev = linkAfter front
  described : ∀ c ∈ checkpoints, c.seq = d.seq → Describes d.holderId (setAfter (front ++ [d])) c

/-- The checkpoints of a sequence pass together exactly when each describes the set. -/
theorem checkpoints_ok_iff {holder : Digest} {set : LeaseSet} {u : Unit} :
    (checkpoints.filter fun c => c.seq = d.seq).forM (checkCheckpoint (some holder) set) = .ok u ↔
      ∀ c ∈ checkpoints, c.seq = d.seq → Describes holder set c := by
  -- Each checkpoint of the sequence is tested, and the three tests say that it describes the set.
  have one (c : LeaseCheckpoint) : checkCheckpoint (some holder) set c = .ok () ↔
      Describes holder set c := by
    simp only [checkCheckpoint, except_bind_eq_ok, except_mapError_eq_ok, ensure_eq_ok,
      Option.some.injEq]
    constructor
    · intro passed
      obtain ⟨_, verified, _, same, covers⟩ := passed
      exact ⟨verified, same, covers⟩
    · intro describes
      exact ⟨(), describes.verified, (), describes.holder, describes.covers⟩
  simp only [forM_eq_ok, List.mem_filter, decide_eq_true_eq, and_imp, one]

omit [Crypto] in
/-- Where a replay stands after one more delta. -/
theorem setAfter_append : setAfter (front ++ [d]) = (setAfter front).apply d := by
  rw [setAfter, setAfter, List.foldl_append]
  rfl

/-- Where a replay stands after one more delta by the same holder. -/
theorem replayed_append (same : ∀ first ∈ front.head?, d.holderId = first.holderId) :
    replayed (front ++ [d]) = ⟨(setAfter front).apply d, satAdd d.seq 1, d.linkHash,
      some d.holderId⟩ := by
  -- The last delta gives the sequence and the link.
  rw [replayed, setAfter_append, seqAfter, linkAfter, List.getLast?_concat]
  cases front with
  -- The first delta names the holder itself.
  | nil => rfl
  | cons first rest => simp [same first rfl]

/-- The holder of a chain is the one of its first delta, and must be that of every other. -/
theorem holder_ok_iff {holder : Digest} :
    (match front.head?.map LeaseDelta.holderId with
      | none => Except.ok d.holderId
      | some h => if h ≠ d.holderId then .error (ApplyError.mixedHolders d.seq) else .ok h) =
        .ok holder ↔
      (∀ first ∈ front.head?, d.holderId = first.holderId) ∧ d.holderId = holder := by
  -- The first delta sets the holder, and the others have to be of the same.
  cases front with
  | nil => simp
  | cons first rest =>
    by_cases same : first.holderId = d.holderId
    · simp [same]
    · simp [same, Ne.symm same]

/-- What one delta of a replay goes through, and what comes of it. -/
theorem replayDelta_ok_iff :
    replayDelta checkpoints (replayed front) d = lift (.ok s') ↔
      Follows checkpoints front d ∧ s' = replayed (front ++ [d]) := by
  -- The steps that succeed are taken apart.
  simp only [replayDelta, Checked.bind_eq_ok, Checked.mapError_eq_ok, Checked.lift_inj,
    ensure_eq_ok, checkpoints_ok_iff, Checked.pure_eq, Except.ok.injEq]
  constructor
  · intro passed
    obtain ⟨_, verified, holder, named, _, seq, _, prev, _, described, link, hashed, rfl⟩ := passed
    obtain ⟨same, rfl⟩ := holder_ok_iff.mp named
    -- The link carried on is the hash of the delta, which a verified one has.
    rw [LeaseDelta.chainHash_of_verify verified, Checked.lift_inj, Except.ok.injEq] at hashed
    subst hashed
    rw [replayed_append same]
    refine ⟨⟨verified, same, seq, prev, ?_⟩, rfl⟩
    rw [setAfter_append]
    exact described
  · intro passed
    obtain ⟨follows, rfl⟩ := passed
    have described := follows.described
    rw [setAfter_append] at described
    rw [replayed_append follows.holder]
    exact ⟨(), follows.verified, d.holderId, holder_ok_iff.mpr ⟨follows.holder, rfl⟩, (),
      follows.seq, (), follows.prev, (), described, d.linkHash,
      LeaseDelta.chainHash_of_verify follows.verified, rfl⟩

/-- Every delta of a list may follow those before it. -/
def AllFollow (checkpoints : List LeaseCheckpoint) (deltas : List LeaseDelta) : Prop :=
  ∀ front d back, deltas = front ++ d :: back → Follows checkpoints front d

/--
A replay comes through exactly when every delta may follow those before it, and gives
the set after all.
-/
theorem replay_ok_iff {set : LeaseSet} : replay deltas checkpoints = lift (.ok set) ↔
    AllFollow checkpoints deltas ∧ set = setAfter deltas := by
  -- Induction over the deltas, from the end of those that were replayed.
  have whole (s' : Replaying) : deltas.foldlM (replayDelta checkpoints) (replayed []) =
    lift (.ok s') ↔ AllFollow checkpoints deltas ∧ s' = replayed deltas :=
    foldlM_judged_iff fun front d s' => replayDelta_ok_iff
  -- The replay starts where it stands after no delta at all.
  have start : (⟨∅, 0, Digest.zero, none⟩ : Replaying) = replayed [] := rfl
  rw [replay, start, Checked.bind_eq_ok]
  simp only [whole, Checked.pure_eq, Checked.lift_inj, Except.ok.injEq]
  constructor
  · intro passed
    obtain ⟨s, ⟨all, rfl⟩, rfl⟩ := passed
    exact ⟨all, rfl⟩
  · intro passed
    obtain ⟨all, rfl⟩ := passed
    exact ⟨_, ⟨all, rfl⟩, rfl⟩

/--
A replay that tells exactly what a holder leases.

The deltas are one holder's chain from sequence zero, the set is their left fold, and every
checkpoint that was supplied describes the set as it stood after a delta of its sequence.
-/
structure ExactReplay (deltas : List LeaseDelta) (checkpoints : List LeaseCheckpoint)
    (set : LeaseSet) : Prop where
  verified : ∀ d ∈ deltas, d.verify = lift (.ok ())
  oneHolder : ∀ d ∈ deltas, ∀ other ∈ deltas, d.holderId = other.holderId
  -- Sequences are counted up to the largest `u64`, which no list in memory is long enough to reach.
  numbered : ∀ i d, deltas[i]? = some d → d.seq.toNat = min i (2 ^ 64 - 1)
  first : ∀ d ∈ deltas.head?, d.prev = Digest.zero
  linked : deltas.IsChain fun a b => a.chainHash = lift (.ok b.prev)
  folded : set = deltas.foldl LeaseSet.apply ∅
  described : ∀ c ∈ checkpoints, ∃ front d back, deltas = front ++ d :: back ∧ d.seq = c.seq ∧
    Describes d.holderId (setAfter (front ++ [d])) c

/-- Each delta of an accepted chain follows those before its place. -/
theorem AllFollow.at_ (all : AllFollow checkpoints deltas) {i : Nat} (bound : i < deltas.length) :
    Follows checkpoints (deltas.take i) deltas[i] := by
  refine all (deltas.take i) deltas[i] (deltas.drop (i + 1)) ?_
  rw [← List.drop_eq_getElem_cons bound, List.take_append_drop]

omit [Crypto] in
/-- The last of some first deltas is the one before the next. -/
theorem getLast?_take_succ {i : Nat} (bound : i < deltas.length) :
    (deltas.take (i + 1)).getLast? = some deltas[i] := by
  rw [List.take_succ_eq_append_getElem bound, List.getLast?_concat]

/-- The sequences of an accepted chain count up from zero. -/
theorem AllFollow.numbered (all : AllFollow checkpoints deltas) (i : Nat) :
    ∀ d, deltas[i]? = some d → d.seq.toNat = min i (2 ^ 64 - 1) := by
  -- Induction over the place.
  induction i with
  | zero =>
    intro d found
    obtain ⟨bound, rfl⟩ := List.getElem?_eq_some_iff.mp found
    rw [(all.at_ bound).seq]
    rfl
  | succ i ih =>
    intro d found
    obtain ⟨bound, rfl⟩ := List.getElem?_eq_some_iff.mp found
    have before : i < deltas.length := Nat.lt_of_succ_lt bound
    -- The sequence is one above that of the delta before, as far as there is one above.
    rw [(all.at_ bound).seq, seqAfter, getLast?_take_succ before, Option.map_some, Option.getD_some,
      toNat_satAdd, ih _ (List.getElem?_eq_getElem before), UInt64.toNat_one]
    omega

/-- Every delta of an accepted chain carries the hash of the one before. -/
theorem AllFollow.linked (all : AllFollow checkpoints deltas) :
    deltas.IsChain fun a b => a.chainHash = lift (.ok b.prev) := by
  -- What a delta has to carry is told by those in front of it.
  rw [List.isChain_iff_getElem]
  -- At each place but the first, the link to carry is the hash at the place before.
  intro i bound
  have before : i < deltas.length := Nat.lt_of_succ_lt bound
  rw [LeaseDelta.chainHash_of_verify (all.at_ before).verified, (all.at_ bound).prev, linkAfter,
    getLast?_take_succ before, Option.map_some, Option.getD_some]

/-- Every delta of an accepted chain is by the holder of the first. -/
theorem AllFollow.holder (all : AllFollow checkpoints deltas) (member : d ∈ deltas) :
    ∀ first ∈ deltas.head?, d.holderId = first.holderId := by
  -- The delta is the first one itself, or it was compared with it.
  obtain ⟨front, back, rfl⟩ := List.append_of_mem member
  cases front with
  | nil =>
    intro first here
    obtain rfl := Option.some.inj here
    rfl
  | cons a rest => exact (all (a :: rest) d back rfl).holder

/--
An accepted replay is exact exactly when no supplied checkpoint has a sequence of its own.

Checkpoints are looked up by the sequences of the deltas, so one that has none of them is never
looked at, whatever it says and whoever signed it.
-/
theorem replay_is_exact_iff {set : LeaseSet}
    (accepted : replay deltas checkpoints = lift (.ok set)) :
    ExactReplay deltas checkpoints set ↔ ∀ c ∈ checkpoints, ∃ d ∈ deltas, d.seq = c.seq := by
  -- Only whether a checkpoint was looked at is left open, and that is its sequence's delta.
  obtain ⟨all, rfl⟩ := replay_ok_iff.mp accepted
  constructor
  · intro exact_ c supplied
    obtain ⟨front, d, back, split, same, _⟩ := exact_.described c supplied
    exact ⟨d, by simp [split], same⟩
  · intro matched
    refine ⟨?_, ?_, all.numbered, ?_, all.linked, rfl, ?_⟩
    · intro d member
      obtain ⟨front, back, split⟩ := List.append_of_mem member
      exact (all front d back split).verified
    · intro d member other member'
      cases deltas with
      | nil => cases member
      | cons first rest =>
        exact (all.holder member first rfl).trans (all.holder member' first rfl).symm
    · intro d here
      cases deltas with
      | nil => cases here
      | cons first rest =>
        obtain rfl := Option.some.inj here
        exact (all [] first rest rfl).prev
    · -- The checkpoint was looked at when the delta of its sequence was applied.
      intro c supplied
      obtain ⟨d, member, same⟩ := matched c supplied
      obtain ⟨front, back, split⟩ := List.append_of_mem member
      exact ⟨front, d, back, split, same, (all front d back split).described c supplied same.symm⟩

end

section

open Concrete

/-- One delta follows nothing but itself. -/
theorem allFollow_singleton [Crypto] {checkpoints : List LeaseCheckpoint} {d : LeaseDelta}
    (follows : Follows checkpoints [] d) : AllFollow checkpoints [d] := by
  -- There is one way to part a list of one.
  intro front d' back split
  obtain ⟨rfl, same⟩ := List.append_eq_cons_iff.mp split.symm |>.resolve_right (by
    intro longer
    obtain ⟨_, _, rest⟩ := longer
    simp at rest)
  obtain ⟨rfl, _⟩ := List.cons.inj same
  exact follows

/-- A holder leases one address. -/
def onlyDelta : LeaseDelta :=
  ⟨(identity 1).verifyingKey, 1, 0, [digest [1]], [], Digest.zero,
    signature (identity 1).verifyingKey (framed .lease
      (expectFields [u64Le 1, u64Le 0, pack [digest [1]], [], Digest.zero.bytes]))⟩

/-- The only delta verifies. -/
theorem onlyDelta_verifies : onlyDelta.verify = lift (.ok ()) := by
  show @Eq (Option (Except LeaseError Unit)) onlyDelta.verify (some (.ok ()))
  decide +kernel

/-- A checkpoint of a sequence that the history does not reach, which nobody signed. -/
def strayCheckpoint : LeaseCheckpoint :=
  ⟨(identity 2).verifyingKey, 1, 7, Digest.zero, 5, digest [3], []⟩

/--
A checkpoint that nobody signed is accepted along with a history, for want of a delta
of its sequence.
-/
theorem stray_checkpoint_is_ignored :
    replay [onlyDelta] [strayCheckpoint] = lift (.ok (setAfter [onlyDelta])) ∧
      ¬ExactReplay [onlyDelta] [strayCheckpoint] (setAfter [onlyDelta]) := by
  -- The replay is evaluated.
  constructor
  · refine replay_ok_iff.mpr ⟨allFollow_singleton ⟨onlyDelta_verifies, by simp, rfl, rfl, ?_⟩, rfl⟩
    -- The checkpoint has another sequence, so nothing is asked of it.
    intro c supplied same
    obtain rfl := List.mem_singleton.mp supplied
    exact absurd same (by decide)
  · intro exact_
    obtain ⟨_, _, _, _, _, describes⟩ := exact_.described _ List.mem_cons_self
    exact absurd describes.verified (by decide +kernel)

/-- The checkpoint that the same holder signs over the set after its delta. -/
def onlyCheckpoint : LeaseCheckpoint :=
  ⟨(identity 1).verifyingKey, 1, 0, merkleRoot [digest [1]], 1, Digest.zero,
    signature (identity 1).verifyingKey (framed .leaseCheckpoint
      (cpBody 1 0 (merkleRoot [digest [1]]) 1 Digest.zero))⟩

/-- The only checkpoint describes the set after the only delta. -/
theorem onlyCheckpoint_describes :
    Describes onlyDelta.holderId (setAfter [onlyDelta]) onlyCheckpoint where
  -- Its signature is evaluated, and its root is that of one address.
  verified := by
    have width : onlyCheckpoint.sig.length = signatureLen := by
      rw [onlyCheckpoint, signature, List.length_append, FixedBytes.size, List.length_replicate]
      decide
    have key : onlyCheckpoint.holderPk.length = verifyingKeyLen := by
      simp [onlyCheckpoint, identity]
    have genesis : leaseCheckGenesis onlyCheckpoint.seq onlyCheckpoint.prev = .ok () := rfl
    have signed : Crypto.mldsaVerify onlyCheckpoint.holderPk (framed .leaseCheckpoint
        (cpBody onlyCheckpoint.epoch onlyCheckpoint.seq onlyCheckpoint.root onlyCheckpoint.count
          onlyCheckpoint.prev)) onlyCheckpoint.sig = true := beq_self_eq_true _
    simp [LeaseCheckpoint.verify, genesis, NasTools.verify, key, width, signed]
  holder := rfl
  covers := by
    have listed : (setAfter [onlyDelta]).toList = [digest [1]] := by decide
    have one : canonicalise [digest [1]] = [digest [1]] := by simp [canonicalise]
    rw [listed, LeaseCheckpoint.covers, one]
    simp [onlyCheckpoint]

/-- With the one checkpoint of its own sequence, the replay of the delta is exact. -/
theorem matched_checkpoint_is_exact :
    ExactReplay [onlyDelta] [onlyCheckpoint] (setAfter [onlyDelta]) := by
  -- The replay is accepted, and its one checkpoint has the sequence of its one delta.
  have accepted : replay [onlyDelta] [onlyCheckpoint] = lift (.ok (setAfter [onlyDelta])) := by
    refine replay_ok_iff.mpr ⟨allFollow_singleton ⟨onlyDelta_verifies, by simp, rfl, rfl, ?_⟩, rfl⟩
    intro c supplied _
    obtain rfl := List.mem_singleton.mp supplied
    exact onlyCheckpoint_describes
  refine (replay_is_exact_iff accepted).mpr ?_
  intro c supplied
  obtain rfl := List.mem_singleton.mp supplied
  exact ⟨onlyDelta, List.mem_cons_self, rfl⟩

end

end NasTools
