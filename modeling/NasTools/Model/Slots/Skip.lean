import NasTools.Model.Slots.Checkpoint

/-! Walking the ladder: checkpoints up to a rung, then every record from there to the head. -/

namespace NasTools

/-- Why a ladder, or a ladder and its tail, is refused. -/
inductive SkipError where
  | checkpoint (seq : UInt64) (source : CheckpointError)
  | wrongSlot (seq : UInt64)
  | unknownWriter (seq : UInt64) (writer : WriterId)
  -- The back-link does not match the checkpoint below.
  | brokenLadder (seq : UInt64)
  -- A ladder that starts anywhere is a ladder the peer chose.
  | notAnchored (seq : UInt64)
  | tailDetached (checkpointSeq tailSeq : UInt64)
  | tailMismatch (seq : UInt64)
  | chain (source : ChainError)
  | empty
deriving DecidableEq

/-- The text a skip error prints. -/
def SkipError.display : SkipError → String
  | .checkpoint seq source => "checkpoint " ++ toString seq ++ ": " ++ source.display
  | .wrongSlot seq => "checkpoint " ++ toString seq ++ " belongs to another slot"
  | .unknownWriter seq writer =>
    "checkpoint " ++ toString seq ++ ": " ++ String.ofList (toHex writer.bytes) ++
      " is not on the roster"
  | .brokenLadder seq => "checkpoint " ++ toString seq ++ " does not link to the one below it"
  | .notAnchored seq =>
    "the ladder starts at checkpoint " ++ toString seq ++
      ", which is not where this client is anchored"
  | .tailDetached checkpointSeq tailSeq =>
    "the top checkpoint is at seq " ++ toString checkpointSeq ++ " but the records begin at " ++
      toString tailSeq
  | .tailMismatch seq =>
    "the record at seq " ++ toString seq ++ " is not the one the checkpoint names"
  | .chain e => e.display
  | .empty => "nothing to verify"

/-- What a skip walk did. -/
structure SkipWalk where
  slotId : SlotId
  -- The lowest checkpoint verified.
  fromSeq : UInt64
  headSeq : UInt64
  headHash : Digest
  topCheckpoint : Digest
  checkpoints : Nat
  records : Nat
  -- Records a checkpoint was trusted to stand for.
  skipped : UInt64
deriving DecidableEq

variable [Crypto]

/-- The place of a rung: anchored when it is the first, linked to the rung below otherwise. -/
def ladderPlace (anchor : Option Digest) (link : Option (UInt64 × Digest)) (c : Checkpoint) :
    Except SkipError Unit :=
  match link with
  | none =>
    match anchor with
    | some h => ensure (c.checkpointHash = h) (.notAnchored c.seq)
    | none => ensure (c.seq = 0) (.notAnchored c.seq)
  | some (prevSeq, prevHash) =>
    ensure (c.prevSeq = prevSeq ∧ c.prevHash = prevHash) (.brokenLadder c.seq)

/-- One rung of the ladder. -/
def ladderStep (slotId : SlotId) (roster : Roster) (anchor : Option Digest)
    (link : Option (UInt64 × Digest)) (c : Checkpoint) :
    Except SkipError (Option (UInt64 × Digest)) := do
  ensure (c.slotId = slotId) (.wrongSlot c.seq)
  let vk ← okOr (roster.get c.writerId) (.unknownWriter c.seq c.writerId)
  (c.verify vk).mapError (.checkpoint c.seq)
  ladderPlace anchor link c
  return some (c.seq, c.checkpointHash)

/-- The tail starts at the very record the top rung names. -/
def tailAttached (top : Option Checkpoint) (tail : List SlotRecord) : Except SkipError Unit :=
  match top, tail with
  | some c, first :: _ => do
    ensure (first.seq = c.seq) (.tailDetached c.seq first.seq)
    ensure (first.recordHash = c.recordHash) (.tailMismatch c.seq)
  | _, _ => .ok ()

/-- What the first link of the tail must be: open under a rung, and genesis without one. -/
def tailPrev (top : Option Checkpoint) (first : SlotRecord) : Except SkipError (Option Digest) :=
  match top with
  | some _ => .ok (some first.prev)
  | none => if first.seq = 0 then .ok none else .error (.notAnchored first.seq)

/-- Verify a checkpoint ladder followed by a full record walk to the head. -/
def verifySkipChain (checkpoints : List Checkpoint) (tail : List SlotRecord) (slotId : SlotId)
    (roster : Roster) (anchor : Option Digest) (handoffs : List SlotHandoff) :
    Except SkipError SkipWalk := do
  ensure (¬(checkpoints = [] ∧ tail = [])) .empty
  let _ ← checkpoints.foldlM (ladderStep slotId roster anchor) none
  let top := checkpoints.getLast?
  tailAttached top tail
  match tail, top with
  | [], none => .error .empty
  | [], some c =>
    -- Without a tail the head is named by the top rung, and not held.
    let fromSeq := (checkpoints.head?.map Checkpoint.seq).getD c.seq
    return ⟨slotId, fromSeq, c.seq, c.recordHash, c.checkpointHash, checkpoints.length, 0,
      satSub c.seq fromSeq⟩
  | first :: _, top => do
    let expectPrev ← tailPrev top first
    let walk ← (verifyChainWithHandoffs tail slotId roster expectPrev handoffs).mapError .chain
    let fromSeq := (checkpoints.head?.map Checkpoint.seq).getD walk.firstSeq
    return ⟨slotId, fromSeq, walk.headSeq, walk.headHash,
      (top.map Checkpoint.checkpointHash).getD Digest.zero, checkpoints.length, tail.length,
      satSub first.seq fromSeq⟩

/-- A rung of the slot, signed by a writer on the roster. -/
def Climbable (slotId : SlotId) (roster : Roster) (c : Checkpoint) : Prop :=
  c.slotId = slotId ∧ ∃ vk, roster.get c.writerId = some vk ∧ c.verify vk = .ok ()

/-- A rung linked to the one below it. -/
def Links (below above : Checkpoint) : Prop :=
  above.prevSeq = below.seq ∧ above.prevHash = below.checkpointHash

/-- A rung a ladder may start from. -/
def Anchored (anchor : Option Digest) (c : Checkpoint) : Prop :=
  match anchor with
  | some h => c.checkpointHash = h
  | none => c.seq = 0

/-- One rung is accepted exactly when it is climbable and in its place. -/
theorem ladderStep_ok_iff {slotId : SlotId} {roster : Roster} {anchor : Option Digest}
    {link next : Option (UInt64 × Digest)} {c : Checkpoint} :
    ladderStep slotId roster anchor link c = .ok next ↔
      Climbable slotId roster c ∧ ladderPlace anchor link c = .ok () ∧
        next = some (c.seq, c.checkpointHash) := by
  -- Each check of the step is one part of the condition.
  constructor
  · intro accepted
    simp only [ladderStep, except_bind_eq_ok, ensure_eq_ok, okOr_eq_ok, except_mapError_eq_ok,
      except_pure_eq, Except.ok.injEq] at accepted
    obtain ⟨_, slot, vk, key, _, signed, _, placed, rfl⟩ := accepted
    exact ⟨⟨slot, vk, key, signed⟩, placed, rfl⟩
  · intro accepted
    obtain ⟨⟨slot, vk, key, signed⟩, placed, rfl⟩ := accepted
    simp [ladderStep, slot, key, signed, placed]

/-- Above a rung, a ladder is accepted exactly when every rung is climbable and linked. -/
theorem ladder_above_iff {slotId : SlotId} {roster : Roster} {anchor : Option Digest}
    {below : Checkpoint} {rungs : List Checkpoint} {link : Option (UInt64 × Digest)} :
    rungs.foldlM (ladderStep slotId roster anchor) (some (below.seq, below.checkpointHash)) =
      .ok link ↔ (∀ c ∈ rungs, Climbable slotId roster c) ∧ (below :: rungs).IsChain Links ∧
        link = some ((rungs.getLastD below).seq, (rungs.getLastD below).checkpointHash) := by
  -- Only the rung below is remembered, and a rung has to link to it.
  have judged : ∀ lower upper next,
      ladderStep slotId roster anchor (some (lower.seq, lower.checkpointHash)) upper = .ok next ↔
        Climbable slotId roster upper ∧ Links lower upper ∧
          next = some (upper.seq, upper.checkpointHash) := by
    intro lower upper next
    rw [ladderStep_ok_iff, ladderPlace, ensure_eq_ok]
    rfl
  exact foldlM_linked_iff judged

/-- A ladder is accepted exactly when it is anchored, climbable throughout, and linked. -/
theorem ladder_ok_iff {slotId : SlotId} {roster : Roster} {anchor : Option Digest}
    {first : Checkpoint} {rest : List Checkpoint} {link : Option (UInt64 × Digest)} :
    (first :: rest).foldlM (ladderStep slotId roster anchor) none = .ok link ↔
      (∀ c ∈ first :: rest, Climbable slotId roster c) ∧ Anchored anchor first ∧
        (first :: rest).IsChain Links ∧
        link = some ((rest.getLastD first).seq, (rest.getLastD first).checkpointHash) := by
  -- The first rung is judged by the anchor, and the others by the rung below.
  have place : ladderPlace anchor none first = .ok () ↔ Anchored anchor first := by
    unfold ladderPlace Anchored
    cases anchor <;> simp
  rw [List.foldlM_cons, except_bind_eq_ok]
  constructor
  · intro climbed
    obtain ⟨_, stepped, later⟩ := climbed
    obtain ⟨climbable, placed, rfl⟩ := ladderStep_ok_iff.mp stepped
    obtain ⟨others, linked, rfl⟩ := ladder_above_iff.mp later
    refine ⟨?_, place.mp placed, linked, rfl⟩
    intro x member
    rcases List.mem_cons.mp member with rfl | above
    · exact climbable
    · exact others x above
  · intro climbed
    obtain ⟨climbable, anchored, linked, rfl⟩ := climbed
    refine ⟨_, ladderStep_ok_iff.mpr ⟨climbable first (by simp), place.mpr anchored, rfl⟩, ?_⟩
    exact ladder_above_iff.mpr ⟨fun x above => climbable x (by simp [above]), linked, rfl⟩

/-- A ladder on its own is accepted exactly as its rungs are, and ends at the top one. -/
theorem verifySkipChain_ladder {first : Checkpoint} {rest : List Checkpoint} {slotId : SlotId}
    {roster : Roster} {anchor : Option Digest} {handoffs : List SlotHandoff} {walk : SkipWalk} :
    verifySkipChain (first :: rest) [] slotId roster anchor handoffs = .ok walk ↔
      (∀ c ∈ first :: rest, Climbable slotId roster c) ∧ Anchored anchor first ∧
        (first :: rest).IsChain Links ∧
        walk = ⟨slotId, first.seq, (rest.getLastD first).seq, (rest.getLastD first).recordHash,
          (rest.getLastD first).checkpointHash, rest.length + 1, 0,
          satSub (rest.getLastD first).seq first.seq⟩ := by
  -- Without records above it the walk is the ladder, and its top is the head.
  have top := getLast?_cons_eq first rest
  simp only [verifySkipChain, except_bind_eq_ok, ensure_eq_ok, top, tailAttached]
  constructor
  · intro accepted
    obtain ⟨_, _, link, climbed, _, _, ended⟩ := accepted
    obtain ⟨climbable, anchored, linked, _⟩ := ladder_ok_iff.mp climbed
    refine ⟨climbable, anchored, linked, ?_⟩
    simpa [eq_comm] using ended
  · intro accepted
    obtain ⟨climbable, anchored, linked, rfl⟩ := accepted
    refine ⟨(), by simp, _, ladder_ok_iff.mpr ⟨climbable, anchored, linked, rfl⟩, (), trivial, ?_⟩
    simp

/--
A ladder with a tail is accepted exactly when the ladder is, the tail starts at the record the top
rung names, and the tail is a chain from there.
-/
theorem verifySkipChain_tail {first : Checkpoint} {rest : List Checkpoint} {record : SlotRecord}
    {records : List SlotRecord} {slotId : SlotId} {roster : Roster} {anchor : Option Digest}
    {handoffs : List SlotHandoff} {walk : SkipWalk} :
    verifySkipChain (first :: rest) (record :: records) slotId roster anchor handoffs = .ok walk ↔
      (∀ c ∈ first :: rest, Climbable slotId roster c) ∧ Anchored anchor first ∧
        (first :: rest).IsChain Links ∧ record.seq = (rest.getLastD first).seq ∧
        record.recordHash = (rest.getLastD first).recordHash ∧
        ∃ tail, verifyChainWithHandoffs (record :: records) slotId roster (some record.prev)
            handoffs = .ok tail ∧
          walk = ⟨slotId, first.seq, tail.headSeq, tail.headHash,
            (rest.getLastD first).checkpointHash, rest.length + 1, records.length + 1,
            satSub record.seq first.seq⟩ := by
  -- The records have to start at the top of the ladder and to walk on from there.
  have top := getLast?_cons_eq first rest
  simp only [verifySkipChain, except_bind_eq_ok, ensure_eq_ok, top, tailAttached, tailPrev,
    except_mapError_eq_ok, except_pure_eq, Except.ok.injEq]
  constructor
  · intro accepted
    obtain ⟨_, _, link, climbed, _, ⟨_, seq, hash⟩, _, rfl, tail, walked, ended⟩ := accepted
    obtain ⟨climbable, anchored, linked, _⟩ := ladder_ok_iff.mp climbed
    refine ⟨climbable, anchored, linked, seq, hash, tail, walked, ?_⟩
    simpa [eq_comm] using ended
  · intro accepted
    obtain ⟨climbable, anchored, linked, seq, hash, tail, walked, rfl⟩ := accepted
    refine ⟨(), by simp, _, ladder_ok_iff.mpr ⟨climbable, anchored, linked, rfl⟩, (),
      ⟨(), seq, hash⟩, _, rfl, tail, walked, ?_⟩
    simp

/-- A rung is not below the one it follows, and above it unless both stand at genesis. -/
def Rises (below above : Checkpoint) : Prop :=
  below.seq ≤ above.seq ∧ (above.seq ≠ 0 → below.seq < above.seq)

omit [Crypto] in
/-- Rising is transitive. -/
theorem Rises.trans {a b c : Checkpoint} (first : Rises a b) (second : Rises b c) : Rises a c :=
  ⟨UInt64.le_trans first.1 second.1, fun above => UInt64.lt_of_le_of_lt first.1 (second.2 above)⟩

/-- A link a verified rung carries points down. -/
theorem Links.rises {below above : Checkpoint} {slotId : SlotId} {roster : Roster}
    (links : Links below above) (climbable : Climbable slotId roster above) :
      Rises below above := by
  -- A rung that verifies names a lower one below it, or stands at genesis.
  obtain ⟨_, vk, _, signed⟩ := climbable
  rw [Checkpoint.verify, except_bind_eq_ok] at signed
  obtain ⟨_, placed, _⟩ := signed
  rw [Rises, ← links.1]
  rcases Checkpoint.checkpointCheckGenesis_ok_iff.mp placed with ⟨_, start, zero⟩ | ⟨_, _, lower⟩
  · -- At genesis the back-link is zero, so the rung below stands at zero too.
    rw [start, zero]
    exact ⟨UInt64.le_refl _, fun impossible => absurd rfl impossible⟩
  · exact ⟨UInt64.le_of_lt lower, fun _ => lower⟩

/-- The rungs of a verified ladder rise, each above every one before it. -/
theorem ladder_rises {slotId : SlotId} {roster : Roster} {rungs : List Checkpoint}
    (climbable : ∀ c ∈ rungs, Climbable slotId roster c) (linked : rungs.IsChain Links) :
    rungs.Pairwise Rises := by
  -- Induction over the chain for neighbours; rising is transitive, so it holds of every two
  -- rungs.
  have rising : rungs.IsChain Rises := by
    induction linked with
    | nil => exact .nil
    | singleton c => exact .singleton c
    | cons_cons links _ ih =>
      exact .cons_cons (links.rises (climbable _ (by simp)))
        (ih fun c member => climbable c (by simp [member]))
  have transitive : Trans Rises Rises Rises := ⟨Rises.trans⟩
  exact List.isChain_iff_pairwise.mp rising

omit [Crypto] in
/-- The top of a rising ladder is not below its foot. -/
theorem first_le_top {first : Checkpoint} {rest : List Checkpoint}
    (rising : (first :: rest).Pairwise Rises) : first.seq ≤ (rest.getLastD first).seq := by
  -- The top is the first rung or one above it.
  cases rest with
  | nil => exact UInt64.le_refl _
  | cons next later =>
    have member : (next :: later).getLastD first ∈ next :: later := by
      rw [List.getLastD_cons]
      exact List.getLastD_mem_cons
    exact ((List.pairwise_cons.mp rising).1 _ member).1

/-- Where every writer may follow every other, no handoff is looked at. -/
theorem verifyChainWithHandoffs_merging {records : List SlotRecord} {slotId : SlotId}
    {roster : Roster} {expectPrev : Option Digest} (handoffs handoffs' : List SlotHandoff)
    (merging : ∀ first, records.head? = some first → first.regime = .casMerge) :
    verifyChainWithHandoffs records slotId roster expectPrev handoffs =
      verifyChainWithHandoffs records slotId roster expectPrev handoffs' := by
  -- Under merging no step looks at the handoffs.
  cases records with
  | nil => rfl
  | cons first rest =>
    have regime := merging first rfl
    have same : WalkContext.step ⟨slotId, first.regime, roster, handoffs⟩ =
        WalkContext.step ⟨slotId, first.regime, roster, handoffs'⟩ := by
      funext s r
      simp only [WalkContext.step, WalkContext.nextOwner, regime]
    simp only [verifyChainWithHandoffs, same]

/-- The same of a ladder and its tail. -/
theorem verifySkipChain_merging {checkpoints : List Checkpoint} {tail : List SlotRecord}
    {slotId : SlotId} {roster : Roster} {anchor : Option Digest}
    (handoffs handoffs' : List SlotHandoff) (merging : ∀ first, tail.head? = some first →
      first.regime = .casMerge) :
    verifySkipChain checkpoints tail slotId roster anchor handoffs =
      verifySkipChain checkpoints tail slotId roster anchor handoffs' := by
  cases tail with
  | nil => rfl
  | cons first rest =>
    simp only [verifySkipChain, verifyChainWithHandoffs_merging handoffs handoffs' merging]

end NasTools
