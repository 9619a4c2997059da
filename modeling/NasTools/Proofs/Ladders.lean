import NasTools.Model.Slots.Skip
import NasTools.Proofs.Chains

/-! What an accepted ladder is, what its anchor binds, and that climbing agrees with walking. -/

namespace NasTools

section

variable [Crypto] {slotId : SlotId} {roster : Roster} {anchor : Option Digest}
    {handoffs : List SlotHandoff}
  {checkpoints : List Checkpoint} {tail : List SlotRecord} {walk : SkipWalk}

/-- Without a ladder exactly a chain from genesis is accepted, and none of it is skipped. -/
theorem verifySkipChain_bare :
    verifySkipChain [] tail slotId roster anchor handoffs = .ok walk ↔
      ∃ inner, verifyChainWithHandoffs tail slotId roster none handoffs = .ok inner ∧
        walk = ⟨slotId, inner.firstSeq, inner.headSeq, inner.headHash, Digest.zero, 0,
          tail.length, 0⟩ := by
  -- Nothing was served, or a chain was.
  cases tail with
  | nil =>
    -- Nothing at all is refused before any walk, and a walk over nothing is refused too.
    simp [verifySkipChain, verifyChainWithHandoffs]
  | cons first rest =>
    simp only [verifySkipChain, List.foldlM_nil, List.getLast?_nil, tailAttached, tailPrev,
      except_bind_eq_ok, except_mapError_eq_ok, except_pure_eq, Except.ok.injEq, ensure_eq_ok]
    constructor
    · intro accepted
      obtain ⟨_, _, _, _, _, _, expectPrev, opened, inner, walked, rfl⟩ := accepted
      split at opened
      · obtain rfl := Except.ok.inj opened
        refine ⟨inner, walked, ?_⟩
        -- The walk starts at the first record, so the gap below it is empty.
        obtain ⟨_, _, _, rfl⟩ := verifyChainWithHandoffs_ok_iff.mp walked
        simp [satSub]
      · cases opened
    · intro accepted
      obtain ⟨inner, walked, rfl⟩ := accepted
      obtain ⟨admitted, start, _, rfl⟩ := verifyChainWithHandoffs_ok_iff.mp walked
      -- A verified record without a predecessor stands at sequence zero.
      obtain ⟨_, _, vk, _, signed⟩ := admitted first (by simp)
      have genesis : first.seq = 0 := (genesis_of_verify signed).mpr start
      exact ⟨(), by simp, none, rfl, (), trivial, none, by simp [genesis], _, walked,
        by simp [satSub]⟩

/--
An anchor binds every accepted ladder exactly when the ladder is not left out altogether.

A chain from genesis that is served without a ladder is accepted under any anchor.
-/
theorem anchor_binds_iff (checkpoints : List Checkpoint) (tail : List SlotRecord) (slotId : SlotId)
    (roster : Roster) (h : Digest) (handoffs : List SlotHandoff) :
    (∀ walk, verifySkipChain checkpoints tail slotId roster (some h) handoffs = .ok walk →
        ∃ first, checkpoints.head? = some first ∧ first.checkpointHash = h) ↔
      ¬(checkpoints = [] ∧ ∃ inner, verifyChainWithHandoffs tail slotId roster none handoffs =
        .ok inner) := by
  -- There is a ladder or there is none.
  cases checkpoints with
  | nil =>
    constructor
    · intro binds served
      obtain ⟨_, inner, walked⟩ := served
      obtain ⟨first, isFirst, _⟩ := binds _ (verifySkipChain_bare.mpr ⟨inner, walked, rfl⟩)
      simp at isFirst
    · intro refused walk accepted
      obtain ⟨inner, walked, _⟩ := verifySkipChain_bare.mp accepted
      exact absurd ⟨rfl, inner, walked⟩ refused
  | cons first rest =>
    constructor
    · intro _ served
      exact absurd served.1 (by simp)
    · intro _ walk accepted
      refine ⟨first, rfl, ?_⟩
      -- The first rung is compared with the anchor, whether records follow the ladder or not.
      cases tail with
      | nil => exact (verifySkipChain_ladder.mp accepted).2.1
      | cons record records => exact (verifySkipChain_tail.mp accepted).2.1

/-- What an accepted ladder with its tail is, said of the whole of both. -/
structure Climbed (checkpoints : List Checkpoint) (tail : List SlotRecord) (slotId : SlotId)
    (roster : Roster) (anchor : Option Digest) (handoffs : List SlotHandoff)
    (walk : SkipWalk) : Prop where
  ascending : (checkpoints.map Checkpoint.seq).Pairwise (· < ·)
  -- Neighbours in the ladder: the upper one carries the place and the hash of the lower one.
  linked : ∀ below above, [below, above] <:+: checkpoints →
    above.prevSeq = below.seq ∧ above.prevHash = below.checkpointHash
  signed : ∀ c ∈ checkpoints, c.slotId = slotId ∧
    ∃ vk, roster.get c.writerId = some vk ∧ c.verify vk = .ok ()
  genesis : anchor = none → ∀ first, checkpoints.head? = some first → first.seq = 0
  -- The tail is a chain of records, with its first link open exactly when a rung
  -- names its first record.
  walked : ∀ first, tail.head? = some first →
    ∃ inner, verifyChainWithHandoffs tail slotId roster (checkpoints.getLast?.map fun _ =>
      first.prev) handoffs = .ok inner
  named : ∀ first top, tail.head? = some first → checkpoints.getLast? = some top →
    first.seq = top.seq ∧ first.recordHash = top.recordHash
  unnamed : ∀ first, tail.head? = some first → checkpoints = [] → first.seq = 0 ∧
    first.prev = Digest.zero
  head : ∀ last, tail.getLast? = some last → walk.headSeq = last.seq ∧
    walk.headHash = last.recordHash
  headNamed : tail = [] →
    ∃ top, checkpoints.getLast? = some top ∧ walk.headSeq = top.seq ∧ walk.headHash = top.recordHash
  foot : walk.fromSeq = (checkpoints.head?.map Checkpoint.seq).getD 0
  -- Walked and skipped records together are all from the foot of the ladder up to the head.
  counted : tail ≠ [] → walk.headSeq.toNat < 2 ^ 64 - 1 →
    walk.records + walk.skipped.toNat + walk.fromSeq.toNat = walk.headSeq.toNat + 1

/-- A rung linked to another one stands strictly above it, as no hash is the zero digest. -/
theorem Links.above (noZero : NoZeroDigest) {below above : Checkpoint} (links : Links below above)
    (climbable : Climbable slotId roster above) : below.seq < above.seq := by
  -- Only a rung at genesis points nowhere, and this one carries a hash.
  obtain ⟨_, vk, _, signed⟩ := climbable
  rw [Checkpoint.verify, except_bind_eq_ok] at signed
  obtain ⟨_, placed, _⟩ := signed
  rcases Checkpoint.checkpointCheckGenesis_ok_iff.mp placed with ⟨none, _, _⟩ | ⟨_, _, lower⟩
  · rw [links.2] at none
    exact absurd none (noZero _)
  · rwa [links.1] at lower

/-- The rungs of an accepted ladder ascend strictly. -/
theorem ladder_ascends (noZero : NoZeroDigest)
    (climbable : ∀ c ∈ checkpoints, Climbable slotId roster c)
    (linked : checkpoints.IsChain Links) : (checkpoints.map Checkpoint.seq).Pairwise (· < ·) := by
  -- Being below is transitive, so neighbours are all that has to be compared.
  rw [← List.isChain_iff_pairwise, List.isChain_map]
  induction linked with
  | nil => exact .nil
  | singleton c => exact .singleton c
  | cons_cons links _ ih =>
    have here := links.above noZero (climbable _ (by simp))
    exact .cons_cons here (ih fun c member => climbable c (by simp [member]))

/--
The records of a walk and the gap below it make up the span, while the numbers do not run out.
-/
theorem span_of_walk {first : SlotRecord} {rest : List SlotRecord} {ctx : WalkContext}
    (chained : (first :: rest).IsChain ctx.Follows)
    (room : (rest.getLastD first).seq.toNat < 2 ^ 64 - 1) {foot : UInt64}
    (below : foot ≤ first.seq) :
    rest.length + 1 + (satSub first.seq foot).toNat + foot.toNat =
      (rest.getLastD first).seq.toNat + 1 := by
  -- Below the largest number the last record is as far above the first as the chain is long.
  have last := seq_of_last chained
  rw [UInt64.le_iff_toNat_le] at below
  rw [toNat_satSub]
  omega

/-- A ladder alone is climbed up to its top rung. -/
theorem climbed_of_ladder (noZero : NoZeroDigest) {first : Checkpoint} {rest : List Checkpoint}
    (accepted : verifySkipChain (first :: rest) [] slotId roster anchor handoffs = .ok walk) :
    Climbed (first :: rest) [] slotId roster anchor handoffs walk := by
  -- What the ladder was checked for is read off part by part.
  obtain ⟨climbable, anchored, linked, rfl⟩ := verifySkipChain_ladder.mp accepted
  refine ⟨ladder_ascends noZero climbable linked, isChain_iff_neighbours.mp linked, climbable,
    ?_, by simp, by simp,
    by simp, by simp, fun _ => ⟨_, getLast?_cons_eq first rest, rfl, rfl⟩, rfl, by simp⟩
  -- Without an anchor the ladder has to start at the first record of the slot.
  intro free other isFirst
  rw [List.head?_cons, Option.some.injEq] at isFirst
  subst isFirst free
  exact anchored

/-- A ladder with a tail is climbed up to the last record of the tail. -/
theorem climbed_of_tail (noZero : NoZeroDigest) {first : Checkpoint} {rest : List Checkpoint}
    {record : SlotRecord} {records : List SlotRecord}
    (accepted : verifySkipChain (first :: rest) (record :: records) slotId roster anchor handoffs =
      .ok walk) :
    Climbed (first :: rest) (record :: records) slotId roster anchor handoffs walk := by
  -- What the ladder and the tail were checked for is read off part by part.
  obtain ⟨climbable, anchored, linked, place, hash, inner, walked, rfl⟩ :=
    verifySkipChain_tail.mp accepted
  have ends := verifyChainWithHandoffs_ok_iff.mp walked
  obtain ⟨_, _, chained, rfl⟩ := ends
  have top := getLast?_cons_eq first rest
  refine ⟨ladder_ascends noZero climbable linked, isChain_iff_neighbours.mp linked, climbable, ?_,
    ?_, ?_, by simp, ?_, by simp, rfl, ?_⟩
  · intro free other isFirst
    rw [List.head?_cons, Option.some.injEq] at isFirst
    subst isFirst free
    exact anchored
  · intro other isFirst
    rw [List.head?_cons, Option.some.injEq] at isFirst
    subst isFirst
    rw [top]
    exact ⟨_, walked⟩
  · intro other c isFirst isTop
    rw [List.head?_cons, Option.some.injEq] at isFirst
    rw [top, Option.some.injEq] at isTop
    subst isFirst isTop
    exact ⟨place, hash⟩
  · intro last isLast
    rw [getLast?_cons_eq, Option.some.injEq] at isLast
    subst isLast
    exact ⟨rfl, rfl⟩
  · intro _ room
    -- The foot of a rising ladder is not above its top, which is where the tail starts.
    have foot := first_le_top (ladder_rises climbable linked)
    rw [← place] at foot
    exact span_of_walk chained room foot

/-- Records without a ladder are walked from genesis, and nothing of them is skipped. -/
theorem climbed_of_records {record : SlotRecord} {records : List SlotRecord}
    (accepted : verifySkipChain [] (record :: records) slotId roster anchor handoffs = .ok walk) :
    Climbed [] (record :: records) slotId roster anchor handoffs walk := by
  -- The walk alone was checked.
  obtain ⟨inner, walked, rfl⟩ := verifySkipChain_bare.mp accepted
  have ends := verifyChainWithHandoffs_ok_iff.mp walked
  obtain ⟨admitted, start, chained, rfl⟩ := ends
  -- A verified record without a predecessor stands at sequence zero.
  obtain ⟨_, _, vk, _, signed⟩ := admitted record (by simp)
  have genesis : record.seq = 0 := (genesis_of_verify signed).mpr start
  refine ⟨by simp, by simp, by simp, by simp, ?_, by simp, ?_, ?_, by simp, genesis, ?_⟩
  · intro other _
    exact ⟨_, walked⟩
  · intro other isFirst _
    rw [List.head?_cons, Option.some.injEq] at isFirst
    subst isFirst
    exact ⟨genesis, start⟩
  · intro last isLast
    rw [getLast?_cons_eq, Option.some.injEq] at isLast
    subst isLast
    exact ⟨rfl, rfl⟩
  · intro _ room
    have all := span_of_walk chained room (UInt64.le_refl _)
    simpa [satSub] using all

/--
Everything an accepted ladder with its tail says of itself is so.

The rungs ascend, are linked, signed and anchored; the tail hangs from the top one; and no record
between the foot of the ladder and the head is left out of the count.
-/
theorem accepted_ladder_is_climbed (noZero : NoZeroDigest) (checkpoints : List Checkpoint)
    (tail : List SlotRecord) (slotId : SlotId) (roster : Roster) (anchor : Option Digest)
    (handoffs : List SlotHandoff) (walk : SkipWalk)
    (accepted : verifySkipChain checkpoints tail slotId roster anchor handoffs = .ok walk) :
    Climbed checkpoints tail slotId roster anchor handoffs walk := by
  -- Four cases: with or without rungs, and with or without records above them.
  cases checkpoints with
  | nil =>
    cases tail with
    | nil => simp [verifySkipChain] at accepted
    | cons record records => exact climbed_of_records accepted
  | cons first rest =>
    cases tail with
    | nil => exact climbed_of_ladder noZero accepted
    | cons record records => exact climbed_of_tail noZero accepted

/--
The rungs over some records, each signed by a writer of its own and chained to the rung before.
-/
def ladderOver (below : Option Checkpoint) :
    List (Identity × SlotRecord) → Except CheckpointError (List Checkpoint)
  | [] => .ok []
  | (writer, rec) :: more => do
    let c ← Checkpoint.ofRecord writer rec below
    let above ← ladderOver (some c) more
    return c :: above

/--
A rung over a record: a verified rung of the slot that names the record and links to the rung below.
-/
structure RungOver (slotId : SlotId) (roster : Roster) (below : Option Checkpoint)
    (rec : SlotRecord) (c : Checkpoint) : Prop where
  seq : c.seq = rec.seq
  recordHash : c.recordHash = rec.recordHash
  climbable : Climbable slotId roster c
  links : ∀ b, below = some b → Links b c

/-- A writer on a roster, whose key signs. -/
def Rostered (roster : Roster) (writer : Identity) : Prop :=
  writer.Signs ∧ roster.get writer.id = some writer.verifyingKey

/-- A writer on the roster makes the first rung over a record at genesis. -/
theorem ofRecord_first {writer : Identity} (rostered : Rostered roster writer) {rec : SlotRecord}
    (slot : rec.slotId = slotId) (genesis : rec.seq = 0) :
    ∃ c, Checkpoint.ofRecord writer rec none = .ok c ∧ RungOver slotId roster none rec c := by
  -- The writer works, and its key is known.
  obtain ⟨works, known⟩ := rostered
  -- The first rung points nowhere, as a rung at sequence zero has to.
  have placed : checkpointCheckGenesis rec.seq 0 Digest.zero = .ok () :=
    Checkpoint.checkpointCheckGenesis_ok_iff.mpr (.inl ⟨rfl, genesis, rfl⟩)
  obtain ⟨sig, made, _, verified⟩ := works.sign_verifies .slotCheckpoint
    (checkpointBody rec.slotId rec.seq rec.recordHash 0 Digest.zero)
  refine ⟨_, Checkpoint.sign_ok_iff.mpr ⟨placed, sig, made, rfl⟩, rfl, rfl,
    ⟨slot, _, known, ?_⟩, by simp⟩
  simp [Checkpoint.verify, placed, Checkpoint.body, verified]

/-- A writer on the roster makes a rung over every record above the rung below. -/
theorem ofRecord_above (noZero : NoZeroDigest) {writer : Identity}
    (rostered : Rostered roster writer) {rec : SlotRecord} (slot : rec.slotId = slotId)
    {b : Checkpoint} (place : b.seq < rec.seq) :
    ∃ c, Checkpoint.ofRecord writer rec (some b) = .ok c ∧
      RungOver slotId roster (some b) rec c := by
  -- The writer works, and its key is known.
  obtain ⟨works, known⟩ := rostered
  have above : rec.seq ≠ 0 := by
    intro start
    rw [start, UInt64.lt_iff_toNat_lt, UInt64.toNat_zero] at place
    omega
  -- The hash of a rung is not the zero digest, so this one points down.
  have placed : checkpointCheckGenesis rec.seq b.seq b.checkpointHash = .ok () :=
    Checkpoint.checkpointCheckGenesis_ok_iff.mpr (.inr ⟨noZero _, above, place⟩)
  obtain ⟨sig, made, _, verified⟩ := works.sign_verifies .slotCheckpoint
    (checkpointBody rec.slotId rec.seq rec.recordHash b.seq b.checkpointHash)
  refine ⟨_, Checkpoint.sign_ok_iff.mpr ⟨placed, sig, made, rfl⟩, rfl, rfl,
    ⟨slot, _, known, ?_⟩, ?_⟩
  · simp [Checkpoint.verify, placed, Checkpoint.body, verified]
  · intro other same
    obtain rfl := Option.some.inj same
    exact ⟨rfl, rfl⟩

/-- Above a rung, a ladder is made over all records whose sequences ascend from there. -/
theorem ladderOver_above (noZero : NoZeroDigest) {b : Checkpoint}
    {chosen : List (Identity × SlotRecord)} (signers : ∀ rung ∈ chosen, Rostered roster rung.1)
    (slots : ∀ rung ∈ chosen, rung.2.slotId = slotId)
    (rising : (b.seq :: chosen.map fun rung => rung.2.seq).Pairwise (· < ·)) :
    ∃ rungs, ladderOver (some b) chosen = .ok rungs ∧ (∀ c ∈ rungs, Climbable slotId roster c) ∧
      (b :: rungs).IsChain Links ∧
      rungs.map (fun c => (c.seq, c.recordHash)) = chosen.map fun rung =>
        (rung.2.seq, rung.2.recordHash) := by
  -- Each rung is the one below for the rungs after it.
  induction chosen generalizing b with
  | nil => exact ⟨[], rfl, by simp, .singleton b, rfl⟩
  | cons rung more ih =>
    obtain ⟨writer, rec⟩ := rung
    rw [List.map_cons, List.pairwise_cons, List.pairwise_cons] at rising
    obtain ⟨above, later⟩ := rising
    obtain ⟨c, made, over_⟩ := ofRecord_above noZero (signers (writer, rec) (by simp))
      (slots (writer, rec) (by simp)) (above rec.seq (by simp))
    have higher : (c.seq :: more.map fun rung => rung.2.seq).Pairwise (· < ·) := by
      rw [over_.seq]
      exact List.pairwise_cons.mpr later
    obtain ⟨rungs, built, climbable, linked, named⟩ :=
      ih (fun rung member => signers rung (by simp [member]))
      (fun rung member => slots rung (by simp [member])) higher
    refine ⟨c ::
      rungs, by simp [ladderOver, made, built], ?_, ?_, by
      simp [named, over_.seq, over_.recordHash]⟩
    · intro x member
      rcases List.mem_cons.mp member with rfl | upper
      · exact over_.climbable
      · exact climbable x upper
    · exact List.isChain_cons_cons.mpr ⟨over_.links b rfl, linked⟩

/-- A choice of records of a chain to put rungs over, and of a writer for each rung. -/
structure RungChoice (roster : Roster) (records : List SlotRecord)
    (chosen : List (Identity × SlotRecord)) : Prop where
  taken : ∀ rung ∈ chosen, rung.2 ∈ records
  signers : ∀ rung ∈ chosen, Rostered roster rung.1
  start : (chosen.map fun rung => rung.2.seq).head? = some 0
  rising : (chosen.map fun rung => rung.2.seq).Pairwise (· < ·)

/--
A walk can also start in the middle of a chain, with its first link open, and it ends
where the whole one does.
-/
theorem walk_from_middle {before : List SlotRecord} {record : SlotRecord}
    {records : List SlotRecord} {expectPrev : Option Digest} {whole : Walk}
    (walked : verifyChainWithHandoffs (before ++ record :: records) slotId roster expectPrev
      handoffs = .ok whole) :
    ∃ inner, verifyChainWithHandoffs (record :: records) slotId roster (some record.prev) handoffs =
      .ok inner ∧ inner.headSeq = whole.headSeq ∧ inner.headHash = whole.headHash := by
  -- What the walk checks of the later records it has checked already.
  obtain ⟨first, rest, shape⟩ : ∃ first rest, before ++ record :: records = first :: rest :=
    List.exists_cons_of_ne_nil (by simp)
  rw [shape] at walked
  obtain ⟨admitted, _, chained, rfl⟩ := verifyChainWithHandoffs_ok_iff.mp walked
  rw [← shape] at admitted chained
  -- Every record keeps to the regime of the first, so the walk from the middle is
  -- held to the same one.
  have regime : record.regime = first.regime := (admitted record (by simp)).2.1
  have last : rest.getLastD first = records.getLastD record := by
    have ends := congrArg List.getLast? shape
    rw [List.getLast?_append_of_ne_nil _ (by simp), getLast?_cons_eq, getLast?_cons_eq] at ends
    exact (Option.some.inj ends).symm
  refine ⟨_, verifyChainWithHandoffs_ok_iff.mpr ⟨?_, rfl, ?_, rfl⟩, by rw [last], by rw [last]⟩
  · intro r member
    rw [regime]
    exact admitted r (List.mem_append_right _ member)
  · rw [regime]
    exact (List.isChain_append.mp chained).2.1

/-- A ladder and a tail are accepted and end at some head. -/
def Reached (checkpoints : List Checkpoint) (tail : List SlotRecord) (slotId : SlotId)
    (roster : Roster) (anchor : Option Digest) (handoffs : List SlotHandoff)
    (whole : Walk) : Prop :=
  ∃ skip, verifySkipChain checkpoints tail slotId roster anchor handoffs = .ok skip ∧
    skip.headSeq = whole.headSeq ∧ skip.headHash = whole.headHash

/-- A ladder whose top rung names a record of a chain reaches the head of that chain from there. -/
theorem reached_of_ladder {before records : List SlotRecord} {record : SlotRecord} {whole : Walk}
    (walked : verifyChainWithHandoffs (before ++ record :: records) slotId roster none handoffs =
      .ok whole)
    {first : Checkpoint} {rest : List Checkpoint}
    (climbable : ∀ c ∈ first :: rest, Climbable slotId roster c)
    (linked : (first :: rest).IsChain Links) (anchored : Anchored anchor first)
    (seq : record.seq = (rest.getLastD first).seq)
    (hash : record.recordHash = (rest.getLastD first).recordHash) :
    Reached (first :: rest) (record :: records) slotId roster anchor handoffs whole := by
  -- The rung names the first record of the tail, so its first link is left open.
  obtain ⟨inner, fromMiddle, headSeq, headHash⟩ := walk_from_middle walked
  have accepted := verifySkipChain_tail.mpr ⟨climbable, anchored, linked, seq, hash, inner,
    fromMiddle, rfl⟩
  exact ⟨_, accepted, headSeq, headHash⟩

/-- Rungs can be put over every choice of records, and the ladder names them in order. -/
theorem ladderOver_choice (noZero : NoZeroDigest) {records : List SlotRecord}
    {chosen : List (Identity × SlotRecord)} (choice : RungChoice roster records chosen)
    (slots : ∀ r ∈ records, r.slotId = slotId) :
    ∃ first rest, ladderOver none chosen = .ok (first :: rest) ∧ first.seq = 0 ∧
      (∀ c ∈ first :: rest, Climbable slotId roster c) ∧ (first :: rest).IsChain Links ∧
      (first :: rest).map (fun c => (c.seq, c.recordHash)) =
        chosen.map fun rung => (rung.2.seq, rung.2.recordHash) := by
  -- The first rung stands over a record at genesis, and each later one above the last.
  obtain ⟨taken, signers, start, rising⟩ := choice
  cases chosen with
  | nil => simp at start
  | cons rung more =>
    obtain ⟨writer, rec⟩ := rung
    -- The first rung has nothing below it, and all others have.
    have genesis : rec.seq = 0 := by simpa using start
    obtain ⟨first, made, over_⟩ := ofRecord_first (signers (writer, rec) (by simp))
      (slots rec (taken (writer, rec) (by simp))) genesis
    rw [List.map_cons, ← over_.seq] at rising
    obtain ⟨rest, built, climbable, linked, named⟩ := ladderOver_above noZero
      (fun rung member => signers rung (by simp [member]))
      (fun rung member => slots rung.2 (taken rung (by simp [member]))) rising
    refine ⟨first, rest, by simp [ladderOver, made, built], over_.seq.trans genesis, ?_, linked,
      by simp [named, over_.seq, over_.recordHash]⟩
    intro c member
    rcases List.mem_cons.mp member with rfl | upper
    · exact over_.climbable
    · exact climbable c upper

/--
Climbing agrees with walking on every chain that is accepted from genesis.

Rungs can be put over any of its records that ascend from the first; with the tail from the
top one the ladder is accepted from genesis, and from each of its rungs by that rung's hash,
and it ends at the same head.
-/
theorem climbing_agrees_with_walking (noZero : NoZeroDigest) {before tail : List SlotRecord}
    {slotId : SlotId} {roster : Roster} {handoffs : List SlotHandoff} {whole : Walk}
    (walked : verifyChainWithHandoffs (before ++ tail) slotId roster none handoffs = .ok whole)
    {chosen : List (Identity × SlotRecord)} (choice : RungChoice roster (before ++ tail) chosen)
    (top : tail.head? = (chosen.map Prod.snd).getLast?) :
    ∃ ladder, ladderOver none chosen = .ok ladder ∧
      Reached ladder tail slotId roster none handoffs whole ∧
      ∀ lower c upper, ladder = lower ++ c :: upper →
        Reached (c :: upper) tail slotId roster (some c.checkpointHash) handoffs whole := by
  -- The ladder is made first, and then it is climbed.
  have slots : ∀ r ∈ before ++ tail, r.slotId = slotId := by
    obtain ⟨_, _, shape⟩ : ∃ first rest, before ++ tail = first :: rest := by
      cases both : before ++ tail with
      | nil => simp [both, verifyChainWithHandoffs] at walked
      | cons first rest => exact ⟨first, rest, rfl⟩
    rw [shape] at walked ⊢
    intro r member
    exact ((verifyChainWithHandoffs_ok_iff.mp walked).1 r member).1
  obtain ⟨first, rest, built, genesis, climbable, linked, named⟩ :=
    ladderOver_choice noZero choice slots
  -- The top rung names the record that the tail starts with.
  have ends := congrArg List.getLast? named
  rw [List.getLast?_map, List.getLast?_map, getLast?_cons_eq] at ends
  rw [List.getLast?_map] at top
  cases last : chosen.getLast? with
  | none => simp [last] at ends
  | some rung =>
    rw [last] at ends top
    simp only [Option.map_some, Option.some.injEq, Prod.mk.injEq] at ends top
    obtain ⟨records, rfl⟩ := List.head?_eq_some_iff.mp top
    refine ⟨_, built, reached_of_ladder walked climbable linked genesis ends.1.symm ends.2.symm, ?_⟩
    intro lower c upper split
    -- The rungs from one of them up are a ladder with the same top.
    have sameTop : upper.getLastD c = rest.getLastD first := by
      have tops := congrArg List.getLast? split
      rw [List.getLast?_append_of_ne_nil _ (by simp), getLast?_cons_eq, getLast?_cons_eq] at tops
      exact (Option.some.inj tops).symm
    rw [split] at climbable linked
    refine reached_of_ladder walked ?_ (List.isChain_append.mp linked).2.1 rfl ?_ ?_
    · intro x member
      exact climbable x (List.mem_append_right _ member)
    · rw [sameTop]
      exact ends.1.symm
    · rw [sameTop]
      exact ends.2.symm

end

section

open Concrete

/-- A rung that a keypair signs over a record, on top of the rung below. -/
def rungOn (seed : UInt8) (rec : SlotRecord) (prevSeq : UInt64) (prevHash : Digest) : Checkpoint :=
  let body := checkpointBody rec.slotId rec.seq rec.recordHash prevSeq prevHash
  let key := (identity seed).verifyingKey
  ⟨rec.slotId, rec.seq, rec.recordHash, prevSeq, prevHash, key,
    signature key (framed .slotCheckpoint body)⟩

/-- The rung over the first record of a slot. -/
def footRung : Checkpoint := rungOn 7 ownedGenesis 0 Digest.zero

/-- The rung over the record that changed hands, signed by the new owner. -/
def takeoverRung : Checkpoint := rungOn 8 (onTopOfGenesis 8) 0 footRung.checkpointHash

/-- A peer that serves no ladder is believed by a client that is anchored to a rung. -/
theorem missing_ladder_escapes_the_anchor :
    ¬∀ (checkpoints : List Checkpoint) (tail : List SlotRecord) (slotId : SlotId) (roster : Roster)
    (h : Digest) (handoffs : List SlotHandoff) (walk : SkipWalk),
      verifySkipChain checkpoints tail slotId roster (some h) handoffs = .ok walk →
        ∃ first, checkpoints.head? = some first ∧ first.checkpointHash = h := by
  -- Suppose the anchor bound every ladder.
  intro binds
  -- The client holds the rung over the second record, and is served the first record alone.
  have accepted :
    verifySkipChain [] [ownedGenesis] (slot 1) jointRoster (some takeoverRung.checkpointHash) [] =
      .ok ⟨slot 1, 0, 0, ownedGenesis.recordHash, Digest.zero, 0, 1, 0⟩ := by decide +kernel
  obtain ⟨first, isFirst, _⟩ := binds _ _ _ _ _ _ _ accepted
  simp at isFirst

/-- A ladder of two rungs, with the record of the top one as its tail, is climbed from genesis. -/
theorem two_rungs_are_climbed : ∃ walk,
    Climbed [footRung, takeoverRung] [onTopOfGenesis 8] (slot 1) jointRoster none [] walk := by
  -- That the ladder is accepted is evaluated.
  have accepted : verifySkipChain [footRung, takeoverRung] [onTopOfGenesis 8] (slot 1)
    jointRoster none [] =
      .ok ⟨slot 1, 0, 1, (onTopOfGenesis 8).recordHash, takeoverRung.checkpointHash, 2, 1, 1⟩ := by
        decide +kernel
  exact ⟨_, accepted_ladder_is_climbed noZeroDigest _ _ _ _ _ _ _ accepted⟩

/-- A chain that changed hands is climbed to its head, over a rung of each of its owners. -/
theorem takeover_is_climbed : ∃ whole ladder,
    ladderOver none [(identity 7, ownedGenesis), (identity 8, onTopOfGenesis 8)] = .ok ladder ∧
      Reached ladder [onTopOfGenesis 8] (slot 1) jointRoster none [consent] whole ∧
      ∀ lower c upper, ladder = lower ++ c :: upper →
        Reached (c :: upper) [onTopOfGenesis 8] (slot 1) jointRoster (some c.checkpointHash)
          [consent] whole := by
  -- The slot was handed over and walked, and a rung is laid by each of its two owners.
  obtain ⟨whole, walked⟩ :
    ∃ whole, verifyChainWithHandoffs ([ownedGenesis] ++ [onTopOfGenesis 8]) (slot 1)
      jointRoster none [consent] = .ok whole := consented_walk
  have known : jointRoster.get (identity 7).id = some (identity 7).verifyingKey ∧
      jointRoster.get (identity 8).id = some (identity 8).verifyingKey := by decide +kernel
  have choice : RungChoice jointRoster ([ownedGenesis] ++ [onTopOfGenesis 8])
      [(identity 7, ownedGenesis), (identity 8, onTopOfGenesis 8)] := by
    refine ⟨by simp, ?_, rfl, by decide⟩
    intro rung member
    rcases List.mem_pair.mp member with rfl | rfl
    · exact ⟨identity_signs 7, known.1⟩
    · exact ⟨identity_signs 8, known.2⟩
  exact ⟨whole, climbing_agrees_with_walking noZeroDigest walked choice rfl⟩

end

end NasTools
