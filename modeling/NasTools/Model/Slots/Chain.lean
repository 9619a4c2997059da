import NasTools.Lib.Judged
import NasTools.Model.Slots.Handoff
import NasTools.Model.Slots.Roster

/-! Walking a slot history: what a chain of records must satisfy to be believed. -/

namespace NasTools

/-- Why a chain is refused. -/
inductive ChainError where
  | record (seq : UInt64) (source : RecordError)
  | unknownWriter (seq : UInt64) (writer : WriterId)
  | wrongSlot (seq : UInt64) (want got : SlotId)
  | notContiguous (expected got : UInt64)
  | brokenLink (seq : UInt64)
  | regimeChanged (seq : UInt64) (before after : Regime)
  -- Under single-writer a second writer without a handoff is an alarm, not a merge.
  | concurrentWriters (seq : UInt64) (first second : WriterId)
  | empty
deriving DecidableEq

/-- The text a chain error prints. -/
def ChainError.display : ChainError → String
  | .record seq source => "record " ++ toString seq ++ ": " ++ source.display
  | .unknownWriter seq writer =>
    "record " ++ toString seq ++ ": " ++ writerIdDebug writer ++ " is not on the roster"
  | .wrongSlot seq want got =>
    "record " ++ toString seq ++ " belongs to " ++ slotIdDebug got ++ ", expected " ++
      slotIdDebug want
  | .notContiguous expected got => "expected seq " ++ toString expected ++ ", got " ++ toString got
  | .brokenLink seq => "record " ++ toString seq ++ " does not chain to its predecessor"
  | .regimeChanged seq before after =>
    "record " ++ toString seq ++ " changes regime from " ++ before.debug ++ " to " ++ after.debug
  | .concurrentWriters seq first second =>
    "record " ++ toString seq ++ ": single-writer slot written by both " ++ writerIdDebug first ++
      " and " ++ writerIdDebug second
  | .empty => "empty chain"

/-- The outcome of a successful walk. -/
structure Walk where
  slotId : SlotId
  regime : Regime
  firstSeq : UInt64
  headSeq : UInt64
  -- The hash of the head record, which is what a client pins to.
  headHash : Digest
deriving DecidableEq

/-- What the walk carries from one record to the next. -/
structure WalkState where
  expectedSeq : UInt64
  link : Digest
  soleWriter : Option WriterId
deriving DecidableEq

variable [Crypto]

/-- What stays fixed while a chain is walked. -/
structure WalkContext where
  slotId : SlotId
  regime : Regime
  roster : Roster
  handoffs : List SlotHandoff

namespace WalkContext

/-- The writer to remember after a record, or the refusal of an unauthorised change of writer. -/
def nextOwner (ctx : WalkContext) (owner : Option WriterId) (r : SlotRecord) :
    Except ChainError (Option WriterId) :=
  match ctx.regime with
  | .casMerge => .ok owner
  | .singleWriter =>
    match owner with
    | none => .ok (some r.writerId)
    | some w =>
      if w ≠ r.writerId then
        -- Only the outgoing writer can say that ownership moves, and only at this sequence.
        if ctx.handoffs.any fun h => h.authorises ctx.slotId r.seq w r.writerId then
          .ok (some r.writerId)
        else .error (.concurrentWriters r.seq w r.writerId)
      else .ok owner

/-- One record of the walk. -/
def step (ctx : WalkContext) (s : WalkState) (r : SlotRecord) : Except ChainError WalkState := do
  ensure (r.slotId = ctx.slotId) (.wrongSlot r.seq ctx.slotId r.slotId)
  ensure (r.seq = s.expectedSeq) (.notContiguous s.expectedSeq r.seq)
  ensure (r.regime = ctx.regime) (.regimeChanged r.seq ctx.regime r.regime)
  ensure (r.prev = s.link) (.brokenLink r.seq)
  let vk ← okOr (ctx.roster.get r.writerId) (.unknownWriter r.seq r.writerId)
  (r.verify vk).mapError (.record r.seq)
  let owner ← ctx.nextOwner s.soleWriter r
  return ⟨satAdd r.seq 1, r.recordHash, owner⟩

end WalkContext

/-- Verify that `records` is a contiguous, signed, hash-linked chain, given the known handoffs. -/
def verifyChainWithHandoffs (records : List SlotRecord) (slotId : SlotId) (roster : Roster)
    (expectPrev : Option Digest) (handoffs : List SlotHandoff) : Except ChainError Walk :=
  match records with
  | [] => .error .empty
  | first :: rest => do
    let ctx : WalkContext := ⟨slotId, first.regime, roster, handoffs⟩
    let s ← records.foldlM ctx.step ⟨first.seq, expectPrev.getD Digest.zero, none⟩
    return ⟨slotId, first.regime, first.seq, (rest.getLastD first).seq, s.link⟩

/-- The same walk with no handoffs known, so that any change of a sole writer is refused. -/
def verifyChain (records : List SlotRecord) (slotId : SlotId) (roster : Roster)
    (expectPrev : Option Digest) : Except ChainError Walk :=
  verifyChainWithHandoffs records slotId roster expectPrev []

/-- A record of the slot, in the chain's regime, signed by a writer on the roster. -/
def WalkContext.Admits (ctx : WalkContext) (r : SlotRecord) : Prop :=
  r.slotId = ctx.slotId ∧ r.regime = ctx.regime ∧
    ∃ vk, ctx.roster.get r.writerId = some vk ∧ r.verify vk = .ok ()

/-- A change of writer between two neighbours is covered by a handoff. -/
def WalkContext.Owned (ctx : WalkContext) (before : WriterId) (r : SlotRecord) : Prop :=
  ctx.regime = .singleWriter → before ≠ r.writerId →
    ∃ h ∈ ctx.handoffs, h.authorises ctx.slotId r.seq before r.writerId = true

/-- A record that follows another: the next sequence, the right link, and an authorised writer. -/
structure WalkContext.Follows (ctx : WalkContext) (a b : SlotRecord) : Prop where
  seq : b.seq = satAdd a.seq 1
  link : b.prev = a.recordHash
  owned : ctx.Owned a.writerId b

namespace WalkContext

variable {ctx : WalkContext}

/-- The writer the walk remembers after a record: the last one, under single-writer only. -/
def ownerAfter (ctx : WalkContext) (w : WriterId) : Option WriterId :=
  match ctx.regime with
  | .singleWriter => some w
  | .casMerge => none

/-- Ownership is settled exactly when every change of writer is covered by a handoff. -/
theorem nextOwner_ok_iff {before : WriterId} {r : SlotRecord} {owner : Option WriterId} :
    ctx.nextOwner (ctx.ownerAfter before) r = .ok owner ↔
      ctx.Owned before r ∧ ctx.ownerAfter r.writerId = owner := by
  -- With one writer at a time a change of writer needs a handoff, and otherwise nothing is asked.
  unfold nextOwner Owned ownerAfter
  cases regime : ctx.regime with
  | casMerge => simp
  | singleWriter =>
    by_cases same : before = r.writerId
    · simp [same]
    · -- Two writers: the search for a handoff decides.
      by_cases covered : ctx.handoffs.any fun h => h.authorises ctx.slotId r.seq before r.writerId
      · have found := List.any_eq_true.mp covered
        simp [same, covered, found]
      · constructor
        · intro settled
          simp [same, covered] at settled
        · intro settled
          obtain ⟨owned, _⟩ := settled
          exact absurd (List.any_eq_true.mpr (owned rfl same)) covered

/-- The first record has no owner to take over from. -/
theorem nextOwner_none {r : SlotRecord} :
    ctx.nextOwner none r = .ok (ctx.ownerAfter r.writerId) := by
  unfold nextOwner ownerAfter
  cases ctx.regime <;> rfl

/-- A step accepts exactly an admitted record at the expected place, with its owner settled. -/
theorem step_ok_iff {s s' : WalkState} {r : SlotRecord} :
    ctx.step s r = .ok s' ↔ ctx.Admits r ∧ r.seq = s.expectedSeq ∧ r.prev = s.link ∧
      ∃ owner, ctx.nextOwner s.soleWriter r = .ok owner ∧
        s' = ⟨satAdd r.seq 1, r.recordHash, owner⟩ := by
  -- Each check of the step is one part of the condition.
  constructor
  · intro accepted
    simp only [step, except_bind_eq_ok, ensure_eq_ok, okOr_eq_ok, except_mapError_eq_ok,
      except_pure_eq, Except.ok.injEq] at accepted
    obtain ⟨_, slot, _, seq, _, regime, _, link, vk, key, _, signed, owner, settled, rfl⟩ :=
      accepted
    exact ⟨⟨slot, regime, vk, key, signed⟩, seq, link, owner, settled, rfl⟩
  · intro judged
    obtain ⟨⟨slot, regime, vk, key, signed⟩, seq, link, owner, settled, rfl⟩ := judged
    simp [step, slot, regime, key, signed, seq, link, settled]

/-- What the walk carries on from a record it accepted. -/
def past (ctx : WalkContext) (r : SlotRecord) : WalkState :=
  ⟨satAdd r.seq 1, r.recordHash, ctx.ownerAfter r.writerId⟩

/-- Past a record, exactly the admitted records that follow it are accepted. -/
theorem step_past_iff {a r : SlotRecord} {s : WalkState} :
    ctx.step (ctx.past a) r = .ok s ↔ ctx.Admits r ∧ ctx.Follows a r ∧ s = ctx.past r := by
  -- The state past a record asks for the next number, a link to it and its owner.
  rw [step_ok_iff]
  simp only [past, nextOwner_ok_iff]
  constructor
  · intro stepped
    obtain ⟨admitted, seq, link, owner, ⟨owned, rfl⟩, rfl⟩ := stepped
    exact ⟨admitted, ⟨seq, link, owned⟩, rfl⟩
  · intro next
    obtain ⟨admitted, follows, rfl⟩ := next
    exact ⟨admitted, follows.seq, follows.link, _, ⟨follows.owned, rfl⟩, rfl⟩

/--
Past a record, a run of records is accepted exactly when each is admitted and follows the last.
-/
theorem walk_past_iff {a : SlotRecord} {records : List SlotRecord} {s : WalkState} :
    records.foldlM ctx.step (ctx.past a) = .ok s ↔
      (∀ r ∈ records, ctx.Admits r) ∧ (a :: records).IsChain ctx.Follows ∧
        s = ctx.past (records.getLastD a) := by
  -- The walk only remembers the record before, which the record at hand is judged against.
  refine foldlM_linked_iff ?_
  intro before r s'
  exact step_past_iff

end WalkContext

/--
A walk succeeds exactly on a non-empty chain of admitted records, each following the one before.

The first link is the expected one, and the last record gives the head and its hash.
-/
theorem verifyChainWithHandoffs_ok_iff {first : SlotRecord} {rest : List SlotRecord}
    {slotId : SlotId} {roster : Roster} {expectPrev : Option Digest} {handoffs : List SlotHandoff}
    {walk : Walk} :
    verifyChainWithHandoffs (first :: rest) slotId roster expectPrev handoffs = .ok walk ↔
      (∀ r ∈ first :: rest, WalkContext.Admits ⟨slotId, first.regime, roster, handoffs⟩ r) ∧
        first.prev = expectPrev.getD Digest.zero ∧
        (first :: rest).IsChain (WalkContext.Follows ⟨slotId, first.regime, roster, handoffs⟩) ∧
        walk = ⟨slotId, first.regime, first.seq, (rest.getLastD first).seq,
          (rest.getLastD first).recordHash⟩ := by
  -- After the first record the walk is in the state the run lemma speaks of.
  simp only [verifyChainWithHandoffs, List.foldlM_cons, except_bind_eq_ok, except_pure_eq,
    Except.ok.injEq]
  constructor
  · intro accepted
    obtain ⟨s, ⟨_, stepped, walked⟩, rfl⟩ := accepted
    obtain ⟨admitted, _, link, owner, settled, rfl⟩ := WalkContext.step_ok_iff.mp stepped
    rw [WalkContext.nextOwner_none, Except.ok.injEq] at settled
    subst settled
    obtain ⟨others, chained, rfl⟩ := WalkContext.walk_past_iff.mp walked
    refine ⟨?_, link, chained, rfl⟩
    intro r member
    rcases List.mem_cons.mp member with rfl | later
    · exact admitted
    · exact others r later
  · intro genuine
    obtain ⟨admitted, link, chained, rfl⟩ := genuine
    let ctx : WalkContext := ⟨slotId, first.regime, roster, handoffs⟩
    have started :
        ctx.step ⟨first.seq, expectPrev.getD Digest.zero, none⟩ first = .ok (ctx.past first) :=
      WalkContext.step_ok_iff.mpr ⟨admitted first (by simp), rfl, link, _,
        WalkContext.nextOwner_none, rfl⟩
    have walked := WalkContext.walk_past_iff.mpr
      ⟨fun r later => admitted r (by simp [later]), chained, rfl⟩
    exact ⟨_, ⟨_, started, walked⟩, rfl⟩

end NasTools
