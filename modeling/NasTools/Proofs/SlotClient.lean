import NasTools.Model.Slots.Client
import NasTools.Model.Slots.Concrete

/-! What holds of a client's pin over whole runs, whichever way heads are offered. -/

namespace NasTools

/-- The pin a verdict grants, if it grants one. -/
def Verdict.granted : Verdict → Option Pin
  | .accepted pin => some pin
  | .degraded pin _ => some pin
  | .rejected _ => none
  | .alarm _ => none

namespace SlotClient

section

variable [Crypto]

variable {c : SlotClient}

/-- Taking records as evidence touches nothing but the evidence. -/
theorem observeRecords_frame (c : SlotClient) (records : List SlotRecord) :
    ∃ evidence recordEvidence,
      c.observeRecords records = { c with evidence, recordEvidence } := by
  -- Every record only adds to the two maps, so the list is folded with the client quantified over.
  induction records generalizing c with
  | nil => exact ⟨c.evidence, c.recordEvidence, rfl⟩
  | cons r rest ih =>
    obtain ⟨e, re, rest⟩ := ih ((c.observe r.seq r.sigHash).observeRecordHash r.seq r.recordHash)
    exact ⟨e, re, rest⟩

/-- Observing records leaves the pin. -/
@[simp] theorem observeRecords_pin (records : List SlotRecord) :
    (c.observeRecords records).pin = c.pin := by
  obtain ⟨_, _, same⟩ := observeRecords_frame c records
  rw [same]

/-- Observing records leaves the anchor. -/
@[simp] theorem observeRecords_anchor (records : List SlotRecord) :
    (c.observeRecords records).anchor = c.anchor := by
  obtain ⟨_, _, same⟩ := observeRecords_frame c records
  rw [same]

/-- A proof is built from witnesses alone, so records offered never make or break one. -/
@[simp] theorem observeRecords_forkProof (records : List SlotRecord) :
    (c.observeRecords records).forkProof = c.forkProof := by
  obtain ⟨_, _, same⟩ := observeRecords_frame c records
  rw [same]
  rfl

/-- Judging a chain does not look at the evidence. -/
@[simp] theorem observeRecords_judgeChain (records : List SlotRecord) :
    (c.observeRecords records).judgeChain = c.judgeChain := by
  obtain ⟨_, _, same⟩ := observeRecords_frame c records
  rw [same]
  rfl

/-- Judging a head does not look at the evidence. -/
@[simp] theorem observeRecords_judgeHead (records : List SlotRecord) :
    (c.observeRecords records).judgeHead = c.judgeHead := by
  obtain ⟨_, _, same⟩ := observeRecords_frame c records
  rw [same]
  rfl

/-- What an operation must offer to be granted a pin. -/
def Earns (c : SlotClient) (pin : Pin) : ClientOp → Prop
  | .offer records roster => ∃ head, records.getLast? = some head ∧ head.slotId = c.slotId ∧
      c.forkProof = none ∧ c.judgeChain records head roster = .ok pin
  | .offerHeadOnly head roster => head.slotId = c.slotId ∧ c.forkProof = none ∧
      c.judgeHead head roster = .ok pin
  | _ => False

/-- The pin an offer grants, and where it leaves the client. -/
theorem offer_spec (records : List SlotRecord) (roster : Roster) :
    (∀ pin, (c.offer records roster).1.granted = some pin ↔ c.Earns pin (.offer records roster)) ∧
      (c.offer records roster).2.pin = (c.offer records roster).1.granted.or c.pin ∧
      (c.offer records roster).2.anchor = c.anchor := by
  -- Only a verdict in favour sets the pin, and it is the one that was earned.
  unfold offer Earns
  cases last : records.getLast? with
  | none => simp [last, Verdict.granted]
  | some head =>
    by_cases slot : head.slotId = c.slotId
    · cases proof : c.forkProof with
      | some p => simp [last, slot, proof, Verdict.granted]
      | none =>
        cases judged : c.judgeChain records head roster with
        | error why => simp [last, slot, proof, judged, Verdict.granted]
        | ok pin => simp [last, slot, proof, judged, Verdict.granted]
    · simp [last, slot, Verdict.granted]

/-- The pin a head alone grants, and where it leaves the client. -/
theorem offerHeadOnly_spec (head : SlotRecord) (roster : Roster) :
    (∀ pin, (c.offerHeadOnly head roster).1.granted = some pin ↔
        c.Earns pin (.offerHeadOnly head roster)) ∧
      (c.offerHeadOnly head roster).2.pin = (c.offerHeadOnly head roster).1.granted.or c.pin ∧
      (c.offerHeadOnly head roster).2.anchor = c.anchor := by
  -- Only a verdict in favour sets the pin, and it is the one that was earned.
  unfold offerHeadOnly Earns
  by_cases slot : head.slotId = c.slotId
  · cases proof : c.forkProof with
    | some p => simp [slot, proof, Verdict.granted]
    | none =>
      cases judged : c.judgeHead head roster with
      | error why => simp [slot, proof, judged, Verdict.granted]
      | ok pin => simp [slot, proof, judged, Verdict.granted]
  · simp [slot, Verdict.granted]

/-- A witness changes neither the pin nor the anchor. -/
theorem observeWitness_spec (w : Witness) :
    (c.observeWitness w).2.pin = c.pin ∧ (c.observeWitness w).2.anchor = c.anchor := by
  -- Every way out leaves the pin and the anchor.
  unfold observeWitness observeRecordHash
  split
  · exact ⟨rfl, rfl⟩
  split
  · exact ⟨rfl, rfl⟩
  split
  · exact ⟨rfl, rfl⟩
  · dsimp only
    split <;> exact ⟨rfl, rfl⟩

/-- The pin an operation grants, if it grants one. -/
def grantedBy (c : SlotClient) (op : ClientOp) : Option Pin :=
  (slotClient.step c op).1.bind Verdict.granted

/-- One operation: what it grants is what it earned, and only a granted pin replaces the old one. -/
theorem step_spec (op : ClientOp) :
    (∀ pin, c.grantedBy op = some pin ↔ c.Earns pin op) ∧
      (slotClient.step c op).2.pin = (c.grantedBy op).or c.pin ∧
      (slotClient.step c op).2.anchor = c.anchor := by
  -- One kind of operation after the other.
  cases op with
  | offer records roster => exact offer_spec records roster
  | offerHeadOnly head roster => exact offerHeadOnly_spec head roster
  | observe seq sigHash => simp [slotClient, grantedBy, observe, Earns]
  | observeWitness w =>
    obtain ⟨pin, anchor⟩ := observeWitness_spec (c := c) w
    simp [slotClient, grantedBy, Earns, pin, anchor]
  | trustWitness key =>
    -- A refused key leaves the whole client as it was.
    cases added : c.trustWitness key with
    | error e => simp [slotClient, grantedBy, Earns, added]
    | ok c' =>
      obtain ⟨roster, _, same⟩ := except_bind_eq_ok.mp added
      simp only [except_pure_eq, Except.ok.injEq] at same
      subst same
      simp [slotClient, grantedBy, Earns, added]

/-- Passing the rollback check means not being older than the pin. -/
theorem checkRollback_ok {head : SlotRecord} {u : Unit} :
    c.checkRollback head = .ok u ↔ ∀ pin, c.pin = some pin → pin.seq ≤ head.seq := by
  unfold checkRollback
  cases c.pin <;> simp

/-- The head of a walk is the last record walked. -/
theorem headOf_walk {records : List SlotRecord} {head : SlotRecord} {slotId : SlotId}
    {roster : Roster} {expectPrev : Option Digest} {walk : Walk}
    (last : records.getLast? = some head)
    (walked : verifyChain records slotId roster expectPrev = .ok walk) :
    walk.headSeq = head.seq ∧ walk.headHash = head.recordHash := by
  -- The walk ends at the last record.
  cases records with
  | nil => cases last
  | cons first rest =>
    obtain ⟨_, _, _, rfl⟩ := verifyChainWithHandoffs_ok_iff.mp walked
    have top : rest.getLastD first = head := by
      rw [← List.getLastD_cons (a := first), List.getLastD_eq_getLast?, last]
      rfl
    rw [top]
    exact ⟨rfl, rfl⟩

/-- A pin a chain earns names the head of that chain, which is not below the floor or the pin. -/
theorem judgeChain_ok {records : List SlotRecord} {head : SlotRecord} {roster : Roster} {pin : Pin}
    (last : records.getLast? = some head) (judged : c.judgeChain records head roster = .ok pin) :
    c.anchor.seq ≤ head.seq ∧ (∀ old, c.pin = some old → old.seq ≤ head.seq) ∧
      pin = ⟨head.seq, head.recordHash⟩ ∧ c.checkAnchorRecord records = .ok () ∧
      ∃ walk, verifyChain records c.slotId roster (c.pin.map Pin.recordHash) = .ok walk ∧
        walk.regime = c.regime := by
  -- The tests come in turn, and the pin is that of the walk's end.
  simp only [judgeChain, except_bind_eq_ok, ensure_eq_ok, except_mapError_eq_ok, except_pure_eq,
    Except.ok.injEq, checkRollback_ok] at judged
  obtain ⟨_, floor, _, newer, walk, walked, _, regime, _, anchored, rfl⟩ := judged
  obtain ⟨seq, hash⟩ := headOf_walk last walked
  exact ⟨floor, newer, by rw [seq, hash], anchored, walk, walked, regime⟩

/-- A pin a head earns names that head, which is not below the floor or the pin. -/
theorem judgeHead_ok {head : SlotRecord} {roster : Roster} {pin : Pin}
    (judged : c.judgeHead head roster = .ok pin) :
    c.anchor.seq ≤ head.seq ∧ (∀ old, c.pin = some old → old.seq ≤ head.seq) ∧
      pin = ⟨head.seq, head.recordHash⟩ ∧
      (head.seq ≠ c.anchor.seq ∨ head.sigHash = c.anchor.sigHash) ∧
      (∃ vk, roster.get head.writerId = some vk ∧ head.verify vk = .ok ()) ∧
      head.regime = c.regime := by
  simp only [judgeHead, except_bind_eq_ok, ensure_eq_ok, okOr_eq_ok, except_mapError_eq_ok,
    except_pure_eq, Except.ok.injEq, checkRollback_ok] at judged
  obtain ⟨_, floor, _, anchored, _, newer, vk, known, _, signed, _, regime, rfl⟩ := judged
  exact ⟨floor, newer, rfl, anchored, ⟨vk, known, signed⟩, regime⟩

/-- A pin is earned only at or above the anchor and the pin held before. -/
theorem earns_floor {op : ClientOp} {pin : Pin} (earned : c.Earns pin op) :
    c.anchor.seq ≤ pin.seq ∧ ∀ old, c.pin = some old → old.seq ≤ pin.seq := by
  -- Both judgements test against the anchor and the pin.
  cases op with
  | offer records roster =>
    obtain ⟨head, last, _, _, judged⟩ := earned
    obtain ⟨floor, newer, rfl, _⟩ := judgeChain_ok last judged
    exact ⟨floor, newer⟩
  | offerHeadOnly head roster =>
    obtain ⟨_, _, judged⟩ := earned
    obtain ⟨floor, newer, rfl, _⟩ := judgeHead_ok judged
    exact ⟨floor, newer⟩
  | observe seq sigHash => cases earned
  | observeWitness w => cases earned
  | trustWitness key => cases earned

/-- A pin, when there is one, is not below the anchor. -/
def AboveAnchor (c : SlotClient) : Prop := ∀ pin, c.pin = some pin → c.anchor.seq ≤ pin.seq

/-- One client is not behind another: same anchor, and a pin at least as high as any it had. -/
def NotBehind (before after : SlotClient) : Prop :=
  after.anchor = before.anchor ∧
    ∀ old, before.pin = some old → ∃ new, after.pin = some new ∧ old.seq ≤ new.seq

/-- One operation keeps the pin above the anchor. -/
theorem step_aboveAnchor (op : ClientOp) (above : c.AboveAnchor) :
    (slotClient.step c op).2.AboveAnchor := by
  -- A pin that is kept was above the anchor, and one that is granted was earned.
  obtain ⟨earned, pinned, anchored⟩ := step_spec (c := c) op
  intro pin held
  rw [pinned] at held
  rw [anchored]
  cases granted : c.grantedBy op with
  | none =>
    rw [granted, Option.none_or] at held
    exact above pin held
  | some new =>
    rw [granted, Option.some_or, Option.some.injEq] at held
    subst held
    exact (earns_floor ((earned new).mp granted)).1

/-- One operation never moves the pin back. -/
theorem step_notBehind (op : ClientOp) : NotBehind c (slotClient.step c op).2 := by
  -- The pin is kept, or the one that is granted is no lower.
  obtain ⟨earned, pinned, anchored⟩ := step_spec (c := c) op
  refine ⟨anchored, ?_⟩
  intro old held
  rw [pinned]
  cases granted : c.grantedBy op with
  | none => exact ⟨old, by simpa using held, UInt64.le_refl _⟩
  | some new =>
    have newer := (earns_floor ((earned new).mp granted)).2 old held
    exact ⟨new, rfl, newer⟩

/-- A client is not behind itself. -/
theorem notBehind_refl (c : SlotClient) : NotBehind c c :=
  ⟨rfl, fun old held => ⟨old, held, UInt64.le_refl _⟩⟩

/-- Not being behind is transitive. -/
theorem notBehind_trans (a b c : SlotClient) (first : NotBehind a b) (second : NotBehind b c) :
    NotBehind a c := by
  -- The pin goes up twice, by way of the one between.
  refine ⟨second.1.trans first.1, ?_⟩
  intro old held
  obtain ⟨mid, midHeld, lower⟩ := first.2 old held
  obtain ⟨new, newHeld, upper⟩ := second.2 mid midHeld
  exact ⟨new, newHeld, UInt64.le_trans lower upper⟩

/-- Any number of operations never move the pin back. -/
theorem run_notBehind (ops : List ClientOp) : NotBehind c (slotClient.run c ops) :=
  Machine.run_related (P := fun _ => True) trivial Machine.permits_always
    (fun _ _ _ _ => trivial) notBehind_refl notBehind_trans (fun _ op _ _ => step_notBehind op)

/-- The pin of a fresh client never falls below its anchor. -/
theorem run_aboveAnchor (slotId : SlotId) (regime : Regime) (anchor : Anchor)
    (ops : List ClientOp) : (slotClient.run (new slotId regime anchor) ops).AboveAnchor :=
  -- A fresh client has no pin, so there is nothing to check at the start.
  Machine.run_invariant (fun pin held => by cases held) Machine.permits_always
    fun _ op _ above => step_aboveAnchor op above

/--
Over every run from a fresh client, the pin stays at or above the anchor and never moves back.

A refusal or an alarm leaves it exactly as it was, whichever offer produced it.
-/
theorem client_floors_hold (slotId : SlotId) (regime : Regime) (anchor : Anchor)
    (ops : List ClientOp) :
    let c := slotClient.run (new slotId regime anchor) ops
    (∀ pin, c.pin = some pin → anchor.seq ≤ pin.seq) ∧
      (∀ more pin, c.pin = some pin →
        ∃ pin', (slotClient.run c more).pin = some pin' ∧ pin.seq ≤ pin'.seq) ∧
      ∀ op why proof,
        (slotClient.step c op).1 = some (.rejected why) ∨
          (slotClient.step c op).1 = some (.alarm proof) →
        (slotClient.step c op).2.pin = c.pin := by
  -- The run is cut at the operation in question.
  intro c
  have anchored : c.anchor = anchor := (run_notBehind ops).1
  refine ⟨?_, ?_, ?_⟩
  · intro pin held
    rw [← anchored]
    exact run_aboveAnchor slotId regime anchor ops pin held
  · intro more
    exact (run_notBehind more).2
  · intro op why proof refused
    obtain ⟨_, pinned, _⟩ := step_spec (c := c) op
    -- Neither a refusal nor an alarm grants anything, so the old pin is what is left.
    have nothing : c.grantedBy op = none := by
      unfold grantedBy
      rcases refused with refused | refused <;> rw [refused] <;> rfl
    rw [pinned, nothing, Option.none_or]

/-- A record at the pinned sequence that is not the pinned record. -/
def Rivals (c : SlotClient) (head : SlotRecord) : Prop :=
  ∃ pin, c.pin = some pin ∧ head.seq = pin.seq ∧ head.recordHash ≠ pin.recordHash

/--
An offer of a genuine rival: another record at the pinned height that passes every check but one.

Slot, signature, regime and anchor are in order, and no fork proof is at hand to raise an alarm.
-/
def OffersRival (c : SlotClient) : ClientOp → Prop
  | .offer records roster => ∃ head walk, records.getLast? = some head ∧ c.Rivals head ∧
      head.slotId = c.slotId ∧ c.forkProof = none ∧
      verifyChain records c.slotId roster (c.pin.map Pin.recordHash) = .ok walk ∧
      walk.regime = c.regime ∧ c.checkAnchorRecord records = .ok ()
  | .offerHeadOnly head roster => c.Rivals head ∧ head.slotId = c.slotId ∧ c.forkProof = none ∧
      (∃ vk, roster.get head.writerId = some vk ∧ head.verify vk = .ok ()) ∧
      head.regime = c.regime ∧ (head.seq ≠ c.anchor.seq ∨ head.sigHash = c.anchor.sigHash)
  | _ => False

/-- An operation that replaces the pin by another one at the same height. -/
def MovesSideways (c : SlotClient) (op : ClientOp) : Prop :=
  ∃ pin new, c.pin = some pin ∧ c.grantedBy op = some new ∧ new.seq = pin.seq ∧
    new.recordHash ≠ pin.recordHash

/-- A head that stands as high as the pin is stopped by neither floor. -/
theorem level_with_pin (above : c.AboveAnchor) {pin : Pin} (held : c.pin = some pin)
    {head : SlotRecord} (level : head.seq = pin.seq) :
    c.anchor.seq ≤ head.seq ∧ c.checkRollback head = .ok () := by
  -- The pin itself is above the anchor, and level is not below.
  constructor
  · rw [level]
    exact above pin held
  · refine checkRollback_ok.mpr ?_
    intro old kept
    rw [held, Option.some.injEq] at kept
    subst kept
    exact level ▸ UInt64.le_refl _

/-- A client above its anchor is moved sideways exactly by the offer of a genuine rival. -/
theorem movesSideways_iff (above : c.AboveAnchor) (op : ClientOp) :
    c.MovesSideways op ↔ c.OffersRival op := by
  -- What moves the pin sideways has been judged, and every test of the judgement is one of the
  -- rival's.
  have earned := (step_spec (c := c) op).1
  constructor
  · rintro ⟨pin, new, held, granted, level, other⟩
    have earns := (earned new).mp granted
    cases op with
    | offer records roster =>
      obtain ⟨head, last, slot, quiet, judged⟩ := earns
      obtain ⟨_, _, rfl, anchored, walk, walked, regime⟩ := judgeChain_ok last judged
      exact ⟨head, walk, last, ⟨pin, held, level, other⟩, slot, quiet, walked, regime, anchored⟩
    | offerHeadOnly head roster =>
      obtain ⟨slot, quiet, judged⟩ := earns
      obtain ⟨_, _, rfl, anchored, signed, regime⟩ := judgeHead_ok judged
      exact ⟨⟨pin, held, level, other⟩, slot, quiet, signed, regime, anchored⟩
    | observe seq sigHash => cases earns
    | observeWitness w => cases earns
    | trustWitness key => cases earns
  · intro rival
    cases op with
    | offer records roster =>
      obtain ⟨head, walk, last, ⟨pin, held, level, other⟩, slot, quiet, walked, regime, anchored⟩ :=
        rival
      obtain ⟨seq, hash⟩ := headOf_walk last walked
      obtain ⟨floor, newer⟩ := level_with_pin above held level
      have judged : c.judgeChain records head roster = .ok ⟨head.seq, head.recordHash⟩ := by
        simp [judgeChain, floor, newer, walked, regime, anchored, seq, hash]
      exact ⟨pin, _, held, (earned _).mpr ⟨head, last, slot, quiet, judged⟩, level, other⟩
    | offerHeadOnly head roster =>
      obtain ⟨⟨pin, held, level, other⟩, slot, quiet, ⟨vk, known, signed⟩, regime,
        anchored⟩ := rival
      obtain ⟨floor, newer⟩ := level_with_pin above held level
      have judged : c.judgeHead head roster = .ok ⟨head.seq, head.recordHash⟩ := by
        simp [judgeHead, floor, newer, known, signed, regime, anchored]
      exact ⟨pin, _, held, (earned _).mpr ⟨slot, quiet, judged⟩, level, other⟩
    | observe seq sigHash => cases rival
    | observeWitness w => cases rival
    | trustWitness key => cases rival

/--
Once pinned, no later offer is granted a pin at the same height with another hash.

The pin may be held at any moment of the run, and the offer may come at any later one.
-/
def NeverMovedSideways (start : SlotClient) (ops : List ClientOp) : Prop :=
  ∀ before between op after pin new, ops = before ++ between ++ op :: after →
    (slotClient.run start before).pin = some pin →
    (slotClient.run start (before ++ between)).grantedBy op = some new →
    new.seq = pin.seq → new.recordHash = pin.recordHash

/-- A client that has not been moved sideways since a pin still holds it, or a higher one. -/
theorem stillPinned {pin : Pin} {ops : List ClientOp} (held : c.pin = some pin)
    (straight : ∀ before op after, ops = before ++ op :: after →
      ¬(slotClient.run c before).MovesSideways op) :
    ∃ now, (slotClient.run c ops).pin = some now ∧ (now = pin ∨ pin.seq < now.seq) := by
  -- The last operation either granted nothing, went up, or stayed where it was.
  induction ops using List.reverseRecOn with
  | nil => exact ⟨pin, held, .inl rfl⟩
  | append_singleton front last ih =>
    obtain ⟨now, nowHeld, place⟩ := ih fun before op after split =>
      straight before op (after ++ [last]) (by simp [split])
    obtain ⟨earned, pinned, _⟩ := step_spec (c := slotClient.run c front) last
    rw [Machine.run_append]
    simp only [Machine.run_cons, Machine.run_nil]
    rw [pinned]
    cases granted : (slotClient.run c front).grantedBy last with
    | none => exact ⟨now, by simpa using nowHeld, place⟩
    | some new =>
      refine ⟨new, rfl, ?_⟩
      have newer := (earns_floor ((earned new).mp granted)).2 now nowHeld
      by_cases level : new.seq = now.seq
      · -- At the same height it must be the same record, or this step moved sideways.
        have same : new.recordHash = now.recordHash := by
          by_contra other
          exact straight front last [] (by simp) ⟨now, new, nowHeld, granted, level, other⟩
        have : new = now := by
          cases new
          cases now
          simp_all
        rwa [this]
      · right
        have higher : now.seq < new.seq := UInt64.lt_of_le_of_ne newer (Ne.symm level)
        rcases place with rfl | above
        · exact higher
        · exact UInt64.lt_trans above higher

/-- A fresh client is never moved sideways exactly in the runs that offer it no genuine rival. -/
theorem never_moved_sideways_iff (slotId : SlotId) (regime : Regime) (anchor : Anchor)
    (ops : List ClientOp) :
    NeverMovedSideways (new slotId regime anchor) ops ↔
      ∀ before op after, ops = before ++ op :: after →
        ¬(slotClient.run (new slotId regime anchor) before).OffersRival op := by
  -- Both ways the run is cut where a rival was offered.
  have above := run_aboveAnchor slotId regime anchor
  constructor
  · intro never before op after split rival
    obtain ⟨pin, new, held, granted, level, other⟩ :=
      (movesSideways_iff (above before) op).mpr rival
    exact other (never before [] op after pin new (by simpa using split) held
      (by simpa using granted) level)
  · intro noRival before between op after pin new split held granted level
    -- Nothing between the two moments moved the client sideways, so its pin is known.
    have straight : ∀ front o rest, between = front ++ o :: rest →
        ¬(slotClient.run (slotClient.run (SlotClient.new slotId regime anchor) before)
          front).MovesSideways o := by
      intro front o rest parts sideways
      rw [← Machine.run_append] at sideways
      refine noRival (before ++ front) o (rest ++ op :: after) (by simp [split, parts]) ?_
      exact (movesSideways_iff (above _) o).mp sideways
    obtain ⟨now, nowHeld, place⟩ := stillPinned held straight
    rw [← Machine.run_append] at nowHeld
    rcases place with rfl | higher
    · by_contra other
      refine noRival (before ++ between) op after split ?_
      exact (movesSideways_iff (above _) op).mp ⟨now, new, nowHeld, granted, level, other⟩
    · -- A higher pin rules out a grant at the old height.
      have earned := (step_spec (c := slotClient.run (SlotClient.new slotId regime anchor)
        (before ++ between)) op).1
      have newer := (earns_floor ((earned new).mp granted)).2 now nowHeld
      rw [level] at newer
      exact absurd (UInt64.lt_of_le_of_lt newer higher) (UInt64.lt_irrefl _)

end

section

open Concrete

/-- Two heads at sequence one, both signed by the one writer on the roster. -/
def rivalOffers : List ClientOp :=
  let roster := rosterOf [(identity 7).verifyingKey]
  [.offerHeadOnly (record 7 1 1 2 (digest [9]) .casMerge) roster,
    .offerHeadOnly (record 7 1 1 3 (digest [9]) .casMerge) roster]

/-- Offered two heads of one height in turn, a client moves from the first to the second. -/
theorem head_only_moves_sideways :
    ¬NeverMovedSideways (new (slot 1) .casMerge ⟨0, Digest.zero⟩) rivalOffers := by
  -- Suppose no client ever moved sideways.
  intro never
  let pin : Pin := ⟨1, (record 7 1 1 2 (digest [9]) .casMerge).recordHash⟩
  let rival : Pin := ⟨1, (record 7 1 1 3 (digest [9]) .casMerge).recordHash⟩
  let pinned := slotClient.run (new (slot 1) .casMerge ⟨0, Digest.zero⟩) (rivalOffers.take 1)
  -- Both heads are accepted on their signature alone, and only their heights are compared.
  have moved : pinned.pin = some pin ∧
      pinned.grantedBy (rivalOffers.getLast (by decide)) = some rival ∧
      rival.recordHash ≠ pin.recordHash := by decide +kernel
  obtain ⟨held, granted, other⟩ := moved
  exact other (never (rivalOffers.take 1) [] _ [] pin rival rfl held granted rfl)

end

end SlotClient

end NasTools
