import NasTools.Proofs.ForkEvidence

/-! When a client speaks of a fork: evidence never weakens, and one history raises no alarm. -/

namespace NasTools

/-- One history of a slot: the two names of the record at each sequence. -/
structure Lineage where
  sigHash : UInt64 → Digest
  recordHash : UInt64 → Digest

/-- A witness describes a record of the history, and the edge below it. -/
def Lineage.Tells (h : Lineage) (w : Witness) : Prop :=
  w.recordHash = h.recordHash w.seq ∧ (w.seq ≠ 0 → w.prev = h.recordHash (w.seq - 1))

/-- Witnesses of one history never conflict. -/
theorem Lineage.not_conflicted {h : Lineage} {ws : List Witness} (told : ∀ w ∈ ws, h.Tells w) :
    ¬Conflicted ws := by
  -- Both witnesses name the records of the one history.
  rintro ⟨a, aMember, b, bMember, conflict⟩
  obtain ⟨aRecord, _⟩ := told a aMember
  obtain ⟨bRecord, bEdge⟩ := told b bMember
  -- They conflict at one sequence, or across the edge between two.
  rcases conflict with ⟨level, other⟩ | ⟨near, missed⟩
  · rw [aRecord, bRecord, level] at other
    exact other rfl
  · -- The higher witness stands on the history's record, which the lower one names.
    have above : b.seq ≠ 0 := by
      intro genesis
      rw [genesis] at near
      simp at near
    have below : b.seq - 1 = a.seq := by
      apply UInt64.toNat_inj.mp
      rw [SlotClient.pred_toNat (by omega)]
      omega
    rw [bEdge above, below, aRecord] at missed
    exact missed rfl

section

variable [Crypto]

/-- A record is the history's at its sequence, under both names. -/
def Lineage.Has (h : Lineage) (r : SlotRecord) : Prop :=
  r.sigHash = h.sigHash r.seq ∧ r.recordHash = h.recordHash r.seq

end

namespace SlotClient

/-- A hash once kept survives any number of additions. -/
theorem mem_hashesAt_addAll {m : Evidence} {k : UInt64} {h : Digest} (kept : h ∈ hashesAt m k)
    (shown : List (UInt64 × Digest)) : h ∈ hashesAt (addAll m shown) k := by
  refine foldl_keeps (P := fun m => h ∈ hashesAt m k) ?_ m kept
  intro m entry _ still
  exact mem_hashesAt_addBounded still entry.1 entry.2

/-- Evidence that agrees with one name for each sequence. -/
def Agrees (m : Evidence) (name : UInt64 → Digest) : Prop := ∀ k, ∀ h ∈ hashesAt m k, h = name k

/-- Adding the right names keeps the evidence in agreement. -/
theorem addAll_agrees {m : Evidence} {name : UInt64 → Digest} {shown : List (UInt64 × Digest)}
    (agrees : Agrees m name) (right : ∀ entry ∈ shown, entry.2 = name entry.1) :
    Agrees (addAll m shown) name := by
  -- The entries are added one by one.
  refine foldl_keeps (P := fun m => Agrees m name) ?_ m agrees
  intro m entry member agrees k h kept
  -- What is kept was there before, or is the entry just added.
  rcases of_mem_hashesAt_addBounded kept with old | ⟨rfl, rfl⟩
  · exact agrees k h old
  · exact right entry member

/-- Evidence in agreement is split nowhere. -/
theorem Agrees.not_split {m : Evidence} {name : UInt64 → Digest} (agrees : Agrees m name)
    (k : UInt64) : ¬Split m k := by
  rintro ⟨a, b, other, aKept, bKept⟩
  exact other ((agrees k a aKept).trans (agrees k b bKept).symm)

/-- At most two hashes are kept at every sequence. -/
def Bounded (m : Evidence) : Prop := ∀ k, (hashesAt m k).size ≤ maxHashesPerSeq

/-- Additions keep the bound. -/
theorem addAll_bounded {m : Evidence} (bounded : Bounded m) (shown : List (UInt64 × Digest)) :
    Bounded (addAll m shown) := by
  refine foldl_keeps (P := Bounded) ?_ m bounded
  intro m entry _ bounded k
  exact size_hashesAt_addBounded (bounded k) entry.1 entry.2

section

variable [Crypto] {c : SlotClient}

/-- Everything the first client holds as evidence, the second one holds too. -/
structure Grows (before after : SlotClient) : Prop where
  sigs : ∀ k, ∀ h ∈ hashesAt before.evidence k, h ∈ hashesAt after.evidence k
  hashes : ∀ k, ∀ h ∈ hashesAt before.recordEvidence k, h ∈ hashesAt after.recordEvidence k
  witnesses : before.witnesses ⊆ after.witnesses

/-- One operation only adds to the evidence. -/
theorem step_grows (op : ClientOp) : Grows c (slotClient.step c op).2 := by
  -- What one operation leaves is known part by part.
  obtain ⟨_, sigs, hashes, kept⟩ := step_leaves (c := c) op
  -- Hashes and witnesses are only ever added.
  refine ⟨?_, ?_, ?_⟩
  · intro k h held
    rw [sigs]
    exact mem_hashesAt_addAll held _
  · intro k h held
    rw [hashes]
    exact mem_hashesAt_addAll held _
  · rw [kept]
    split
    · exact List.subset_append_left _ _
    · exact List.Subset.refl _

/-- Any number of operations only add to the evidence. -/
theorem run_grows (ops : List ClientOp) : Grows c (slotClient.run c ops) :=
  -- Growing is kept by every step, and grown twice is grown.
  Machine.run_related (P := fun _ => True) trivial Machine.permits_always
    (fun _ _ _ _ => trivial)
    (fun _ => ⟨fun _ _ held => held, fun _ _ held => held, fun _ held => held⟩)
    (fun _ _ _ first second => ⟨fun k h held => second.sigs k h (first.sigs k h held),
      fun k h held => second.hashes k h (first.hashes k h held),
      fun _ held => second.witnesses (first.witnesses held)⟩)
    (fun _ op _ _ => step_grows op)

/-- More evidence never names a later sequence. -/
theorem Grows.forked {after : SlotClient} {s : UInt64} (grows : Grows c after)
    (named : NamedBy s c.forked) : NamedBy s after.forked := by
  -- A fork is named by two hashes at one place, or by an edge that misses.
  rw [forked_namedBy] at named ⊢
  -- Whatever named the sequence before is still in the evidence.
  rcases named with ⟨k, below, a, b, other, aKept, bKept⟩ | ⟨k, below, a, b, other, aKept, bKept⟩ |
    ⟨low, lowKept, high, highKept, below, parts⟩
  · exact .inl ⟨k, below, a, b, other, grows.sigs k a aKept, grows.sigs k b bKept⟩
  · exact .inr (.inl ⟨k, below, a, b, other, grows.hashes k a aKept, grows.hashes k b bKept⟩)
  · exact .inr (.inr ⟨low, grows.witnesses lowKept, high, grows.witnesses highKept, below, parts⟩)

/-- What a client always keeps to: its bounds, and witnesses that are genuine. -/
structure Disciplined (c : SlotClient) : Prop where
  sigs : Bounded c.evidence
  hashes : Bounded c.recordEvidence
  witnesses : c.witnesses.length ≤ maxWitnesses
  genuine : c.Genuine

/-- An admitted witness is of the slot and verifies. -/
theorem admitted_genuine {op : ClientOp} {w : Witness} (member : w ∈ c.admitted op) :
    op = .observeWitness w ∧ c.Admits w ∧ w.slotId = c.slotId ∧ w.verify = .ok () := by
  -- Only a witness that is observed can be admitted, and it has passed the gates.
  cases op with
  | observeWitness v =>
    simp only [admitted] at member
    split at member
    · rename_i admits
      obtain rfl := List.mem_singleton.mp member
      have verifies := admits.2.2
      refine ⟨rfl, admits, admits.1, ?_⟩
      cases verified : w.verify with
      | ok u => rfl
      | error e => simp [verified, Except.isOk, Except.toBool] at verifies
    · cases member
  | offer records roster => cases member
  | offerHeadOnly head roster => cases member
  | observe seq sigHash => cases member
  | trustWitness key => cases member

/-- What is kept after an operation was kept before or has just been admitted. -/
theorem mem_witnesses_step {op : ClientOp} {w : Witness}
    (member : w ∈ (slotClient.step c op).2.witnesses) : w ∈ c.witnesses ∨ w ∈ c.admitted op := by
  rw [(step_leaves op).kept] at member
  split at member
  · exact List.mem_append.mp member
  · exact .inl member

/-- Every operation leaves only genuine witnesses. -/
theorem step_genuine (op : ClientOp) (genuine : c.Genuine) :
    (slotClient.step c op).2.Genuine := by
  -- A witness is new, and then it was checked, or it was there before.
  intro w member
  rw [(step_leaves op).slot]
  rcases mem_witnesses_step member with old | new
  · exact genuine w old
  · exact (admitted_genuine new).2.2

/-- One operation keeps the client's discipline. -/
theorem step_disciplined (op : ClientOp) (disciplined : c.Disciplined) :
    (slotClient.step c op).2.Disciplined := by
  -- The bounds hold hash by hash, and the witnesses stop at the last free place.
  obtain ⟨_, sigs, hashes, kept⟩ := step_leaves (c := c) op
  refine ⟨?_, ?_, ?_, step_genuine op disciplined.genuine⟩
  · rw [sigs]
    exact addAll_bounded disciplined.sigs _
  · rw [hashes]
    exact addAll_bounded disciplined.hashes _
  · rw [kept]
    split
    · -- There is room for one, and an operation admits one at most.
      have one : (c.admitted op).length ≤ 1 := by
        cases op <;> simp only [admitted, List.length_nil, Nat.zero_le]
        split <;> simp
      rw [List.length_append]
      omega
    · exact disciplined.witnesses

/-- A fresh client is disciplined. -/
theorem new_disciplined (slotId : SlotId) (regime : Regime) (anchor : Anchor) :
    (new slotId regime anchor).Disciplined := by
  -- A new client knows its anchor and nothing else.
  refine ⟨?_, ?_, by simp [new], by simp [new, Genuine]⟩
  · -- Only the anchor is known, at its own sequence.
    intro k
    have start : hashesAt (new slotId regime anchor).evidence k =
        if anchor.seq = k then (∅ : OrdSet Digest).insert anchor.sigHash else ∅ := by
      simp [new, hashesAt, Std.ExtTreeMap.getD_insert]
    rw [start]
    split <;> simp [Std.ExtTreeSet.size_insert, maxHashesPerSeq]
  · intro k
    simp [new, hashesAt]

/-- A client is disciplined after any operations. -/
theorem run_disciplined (slotId : SlotId) (regime : Regime) (anchor : Anchor)
    (ops : List ClientOp) : (slotClient.run (new slotId regime anchor) ops).Disciplined :=
  Machine.run_invariant (new_disciplined slotId regime anchor) Machine.permits_always
    fun _ op _ disciplined => step_disciplined op disciplined

/-- The counters read the sizes of the sets kept. -/
theorem evidenceAt_eq (seq : UInt64) : c.evidenceAt seq = (hashesAt c.evidence seq).size ∧
    c.recordEvidenceAt seq = (hashesAt c.recordEvidence seq).size := by
  -- Both counts are of the set that is filed there, if there is one.
  unfold evidenceAt recordEvidenceAt hashesAt
  rw [Std.ExtTreeMap.getD_eq_getD_getElem?, Std.ExtTreeMap.getD_eq_getD_getElem?]
  constructor
  · cases c.evidence[seq]? <;> simp
  · cases c.recordEvidence[seq]? <;> simp

/--
From every reachable client, further operations never raise the sequence of a fork or lose a proof.

At all times the evidence stays within its bounds.
-/
theorem fork_evidence_is_monotone (slotId : SlotId) (regime : Regime) (anchor : Anchor)
    (ops : List ClientOp) :
    let c := slotClient.run (new slotId regime anchor) ops
    (∀ more s, c.forked = some s → ∃ s', (slotClient.run c more).forked = some s' ∧ s' ≤ s) ∧
      (∀ more, c.forkProof.isSome → (slotClient.run c more).forkProof.isSome) ∧
      (∀ seq, c.evidenceAt seq ≤ maxHashesPerSeq ∧ c.recordEvidenceAt seq ≤ maxHashesPerSeq) ∧
      c.witnesses.length ≤ maxWitnesses := by
  -- The three bounds are those of any client that came of a fresh one.
  intro c
  have disciplined : c.Disciplined := run_disciplined slotId regime anchor ops
  refine ⟨?_, ?_, ?_, disciplined.witnesses⟩
  · intro more s reported
    exact (run_grows more).forked ⟨s, reported, UInt64.le_refl _⟩
  · intro more proven
    -- What comes later is a run of the fresh client as well.
    have later : (slotClient.run c more).Disciplined := by
      rw [← Machine.run_append]
      exact run_disciplined slotId regime anchor (ops ++ more)
    rw [forkProof_isSome_iff disciplined.genuine] at proven
    rw [forkProof_isSome_iff later.genuine]
    exact proven.mono (run_grows more).witnesses
  · intro seq
    rw [(evidenceAt_eq seq).1, (evidenceAt_eq seq).2]
    exact ⟨disciplined.sigs seq, disciplined.hashes seq⟩

/-- Every witness admitted along the way describes one history. -/
def ToldBy (h : Lineage) (c : SlotClient) (op : ClientOp) : Prop := ∀ w ∈ c.admitted op, h.Tells w

/-- A client keeps only witnesses of the history, as long as it admits no others. -/
theorem step_told {h : Lineage} (op : ClientOp) (honest : ToldBy h c op)
    (told : ∀ w ∈ c.witnesses, h.Tells w) :
    ∀ w ∈ (slotClient.step c op).2.witnesses, h.Tells w := by
  intro w member
  rcases mem_witnesses_step member with old | new
  · exact told w old
  · exact honest w new

/-- An alarm carries a proof the client held before the offer. -/
theorem forkProof_of_alarm {op : ClientOp} {p : ForkProof}
    (alarm : (slotClient.step c op).1 = some (.alarm p)) : c.forkProof = some p := by
  -- Only an offer is answered with an alarm.
  cases op with
  | offer records roster =>
    simp only [slotClient, offer, Option.some.injEq] at alarm
    -- Every other outcome is not an alarm.
    cases last : records.getLast? with
    | none => simp [last] at alarm
    | some head =>
      by_cases slot : head.slotId = c.slotId
      · cases proof : c.forkProof with
        | some q =>
          simp [last, slot, proof] at alarm
          rw [alarm]
        | none => cases judged : c.judgeChain records head roster <;>
            simp [last, slot, proof, judged] at alarm
      · simp [last, slot] at alarm
  | offerHeadOnly head roster =>
    simp only [slotClient, offerHeadOnly, Option.some.injEq] at alarm
    by_cases slot : head.slotId = c.slotId
    · cases proof : c.forkProof with
      | some q =>
        simp [slot, proof] at alarm
        rw [alarm]
      | none => cases judged : c.judgeHead head roster <;> simp [slot, proof, judged] at alarm
    · simp [slot] at alarm
  | observe seq sigHash => simp [slotClient] at alarm
  | observeWitness w => simp [slotClient] at alarm
  | trustWitness key => cases added : c.trustWitness key <;> simp [slotClient, added] at alarm

/-- Witnesses of one history leave nothing to prove. -/
theorem forkProof_none_of_told {h : Lineage} {slotId : SlotId} {regime : Regime} {anchor : Anchor}
    {ops : List ClientOp}
    (honest : slotClient.Permits (ToldBy h) (new slotId regime anchor) ops) :
    (slotClient.run (new slotId regime anchor) ops).forkProof = none := by
  -- Every witness that is kept tells of the one history.
  have told := Machine.run_invariant (P := fun c => ∀ w ∈ c.witnesses, h.Tells w)
    (by simp [new]) honest fun _ op toldBy told => step_told op toldBy told
  have genuine := (run_disciplined slotId regime anchor ops).genuine
  -- A proof would need two witnesses that conflict.
  rw [← Option.not_isSome_iff_eq_none, forkProof_isSome_iff genuine]
  exact Lineage.not_conflicted told

/--
Witnesses that all describe one history never lead to a proof or an alarm.

The records offered may be anything, and so may every witness the client does not admit.
-/
theorem one_history_raises_no_alarm (h : Lineage) (slotId : SlotId) (regime : Regime)
    (anchor : Anchor) (ops : List ClientOp)
    (honest : slotClient.Permits (fun c op => ∀ w, op = .observeWitness w → c.Admits w → h.Tells w)
      (new slotId regime anchor) ops) :
    (slotClient.run (new slotId regime anchor) ops).forkProof = none ∧
      ∀ before op after p, ops = before ++ op :: after →
        (slotClient.step (slotClient.run (new slotId regime anchor) before) op).1 ≠
          some (.alarm p) := by
  -- Nothing but admitted witnesses enters a proof, and these all tell of one history.
  have toldBy : slotClient.Permits (ToldBy h) (new slotId regime anchor) ops := by
    -- Witnesses that are not admitted do not matter.
    refine Machine.permits_mono ?_ honest
    intro c op told w member
    obtain ⟨rfl, admits, _⟩ := admitted_genuine member
    exact told w rfl admits
  refine ⟨forkProof_none_of_told toldBy, ?_⟩
  intro before op after p split alarm
  -- Up to the offer, the run is one of its own.
  rw [split, Machine.permits_append] at toldBy
  have quiet := forkProof_none_of_told toldBy.1
  rw [forkProof_of_alarm alarm] at quiet
  cases quiet

/--
Every signed thing an operation presents is on the history, and unsigned records may be anything.

Signed is a record that verifies under the key the offer's roster files for its writer.
-/
def SignedOn (h : Lineage) (c : SlotClient) : ClientOp → Prop
  | .offer records roster =>
    ∀ r ∈ records, (∃ vk, roster.get r.writerId = some vk ∧ r.verify vk = .ok ()) → h.Has r
  | .offerHeadOnly head roster =>
    (∃ vk, roster.get head.writerId = some vk ∧ head.verify vk = .ok ()) → h.Has head
  | .observe seq sigHash => sigHash = h.sigHash seq
  | .observeWitness w => c.Admits w → h.Tells w
  | .trustWitness _ => True

/-- What an operation shows the client is on the history, signed or not. -/
def ShownOn (h : Lineage) (c : SlotClient) (op : ClientOp) : Prop :=
  (∀ r ∈ c.shownRecords op, h.Has r) ∧
    (∀ seq sigHash, op = .observe seq sigHash → sigHash = h.sigHash seq) ∧
    ∀ w, op = .observeWitness w → c.Admits w → h.Tells w

/-- All the evidence a client holds is on the history. -/
structure OnHistory (h : Lineage) (c : SlotClient) : Prop where
  sigs : Agrees c.evidence h.sigHash
  hashes : Agrees c.recordEvidence h.recordHash
  told : ∀ w ∈ c.witnesses, h.Tells w

/-- What is shown from one history keeps the evidence on it. -/
theorem step_onHistory {h : Lineage} (op : ClientOp) (shown : ShownOn h c op)
    (before : c.OnHistory h) : (slotClient.step c op).2.OnHistory h := by
  -- Whatever the operation adds was shown, and what is shown is on the history.
  obtain ⟨records, observed, witnessed⟩ := shown
  obtain ⟨_, sigs, hashes, _⟩ := step_leaves (c := c) op
  have toldBy : ToldBy h c op := by
    intro w member
    obtain ⟨rfl, admits, _⟩ := admitted_genuine member
    exact witnessed w rfl admits
  refine ⟨?_, ?_, step_told op toldBy before.told⟩
  · rw [sigs]
    refine addAll_agrees before.sigs ?_
    intro entry member
    -- What is observed is a hash of its own, and else records are shown.
    cases op with
    | observe seq sigHash =>
      obtain rfl := List.mem_singleton.mp member
      exact observed seq sigHash rfl
    | _ =>
      obtain ⟨r, shown, rfl⟩ := List.mem_map.mp member
      exact (records r shown).1
  · rw [hashes]
    refine addAll_agrees before.hashes ?_
    intro entry member
    -- The hash of a record comes with the record, or with a witness of it.
    rcases List.mem_append.mp member with ofRecord | ofWitness
    · obtain ⟨r, shown, rfl⟩ := List.mem_map.mp ofRecord
      exact (records r shown).2
    · obtain ⟨w, shown, rfl⟩ := List.mem_map.mp ofWitness
      exact (toldBy w shown).1

/-- A client whose evidence is on one history sees no fork. -/
theorem OnHistory.forked {h : Lineage} (on : c.OnHistory h) : c.forked = none := by
  -- Suppose a fork was reported.
  cases reported : c.forked with
  | none => rfl
  | some s =>
    have named := forked_namedBy.mp ⟨s, reported, UInt64.le_refl _⟩
    -- Each of the three kinds of evidence would need two names at one place.
    rcases named with ⟨k, _, split⟩ | ⟨k, _, split⟩ | ⟨low, lowKept, high, highKept, _, parts⟩
    · exact absurd split (on.sigs.not_split k)
    · exact absurd split (on.hashes.not_split k)
    · exact absurd ⟨low, lowKept, high, highKept, .inr parts⟩ (Lineage.not_conflicted on.told)

/-- A fresh client knows the anchor alone. -/
theorem new_onHistory {h : Lineage} (slotId : SlotId) (regime : Regime) {anchor : Anchor}
    (anchored : anchor.sigHash = h.sigHash anchor.seq) :
    (new slotId regime anchor).OnHistory h := by
  -- The only name known is the anchor's, which is on the history.
  refine ⟨?_, ?_, by simp [new]⟩
  · intro k name kept
    simp only [new, hashesAt, Std.ExtTreeMap.getD_insert] at kept
    split at kept
    · rename_i same
      have place : anchor.seq = k := by simpa using same
      have only : anchor.sigHash = name := by simpa using kept
      rw [← only, ← place]
      exact anchored
    · simp at kept
  · intro k name kept
    simp [new, hashesAt] at kept

/--
While everything shown is on one history with the anchor, the client sees no fork.

Counted as shown are all records of an offer whose head names this slot, signed or not, and the
admitted witnesses; offers for other slots and refused witnesses do not count.
-/
theorem one_history_shows_no_fork (h : Lineage) (slotId : SlotId) (regime : Regime)
    (anchor : Anchor) (ops : List ClientOp) (anchored : anchor.sigHash = h.sigHash anchor.seq)
    (shown : slotClient.Permits (ShownOn h) (new slotId regime anchor) ops) :
    (slotClient.run (new slotId regime anchor) ops).forked = none :=
  OnHistory.forked (Machine.run_invariant (new_onHistory slotId regime anchored) shown
    fun _ op shownOn on => step_onHistory op shownOn on)

/-- A relay of witnesses, one after another. -/
def relayed (ws : List Witness) : List ClientOp := ws.map .observeWitness

/-- Taking in a witness leaves the observers believed as they are. -/
theorem observeWitness_roster (w : Witness) :
    (c.observeWitness w).2.witnessRoster = c.witnessRoster := by
  -- Each way out leaves the roster alone.
  unfold observeWitness observeRecordHash
  split
  · rfl
  split
  · rfl
  split
  · rfl
  · dsimp only
    split <;> rfl

/-- Taking in a witness leaves the three gates as they are. -/
theorem observeWitness_admits (w v : Witness) : (c.observeWitness w).2.Admits v ↔ c.Admits v := by
  rw [Admits, Admits, (observeWitness_leaves (c := c) w).slot, observeWitness_roster]

/-- Relaying admits exactly the admissible ones, and keeps the first of them there is room for. -/
theorem relayed_witnesses (ws : List Witness) (c : SlotClient)
    (room : c.witnesses.length ≤ maxWitnesses) :
    (slotClient.run c (relayed ws)).witnesses =
      (c.witnesses ++ ws.filter fun w => c.Admits w).take maxWitnesses := by
  -- Each witness leaves the gates as they are, so all are judged by those at the start.
  induction ws generalizing c with
  | nil => simp [relayed, List.take_of_length_le room]
  | cons w rest ih =>
    have step := observeWitness_leaves (c := c) w
    have gates : ∀ v, (c.observeWitness w).2.Admits v ↔ c.Admits v := observeWitness_admits w
    have sameGates : (rest.filter fun v => (c.observeWitness w).2.Admits v) =
        rest.filter fun v => c.Admits v := by
      simp [gates]
    show (slotClient.run (c.observeWitness w).2 (relayed rest)).witnesses = _
    have kept := step.kept
    by_cases free : c.witnesses.length < maxWitnesses
    · rw [if_pos free] at kept
      have still : (c.observeWitness w).2.witnesses.length ≤ maxWitnesses := by
        rw [kept, List.length_append, admitted]
        split <;> simp only [List.length_nil, List.length_singleton] <;> omega
      rw [ih _ still, sameGates, kept, admitted, List.filter_cons]
      by_cases admits : c.Admits w <;> simp [admits]
    · -- The list is full, so nothing relayed any more is kept.
      rw [if_neg free] at kept
      have full : c.witnesses.length = maxWitnesses := by omega
      rw [ih _ (by rw [kept]; exact room), kept, List.take_append_of_le_length (by omega),
        List.take_append_of_le_length (by omega)]

/-- From a client without witnesses, every witness kept is genuine. -/
theorem run_genuine (fresh : c.witnesses = []) (ops : List ClientOp) :
    (slotClient.run c ops).Genuine := by
  refine Machine.run_invariant (P := Genuine) (by simp [Genuine, fresh]) Machine.permits_always ?_
  intro c op _ genuine
  exact step_genuine op genuine

/-- A proof is at hand exactly when two of the admissible witnesses relayed conflict. -/
def Unmasked (c : SlotClient) (ws : List Witness) : Prop :=
  (slotClient.run c (relayed ws)).forkProof.isSome ↔ Conflicted (ws.filter fun w => c.Admits w)

/--
No relay masks a fork exactly when a conflict, if there is one, is among the first places.

Every admissible witness takes a place each time it is relayed, also when it is a repetition.
-/
theorem unmasked_iff (c : SlotClient) (ws : List Witness) (fresh : c.witnesses = []) :
    Unmasked c ws ↔ (Conflicted (ws.filter fun w => c.Admits w) →
      Conflicted ((ws.filter fun w => c.Admits w).take maxWitnesses)) := by
  -- The relay keeps the witnesses it admits, up to their bound.
  have kept := relayed_witnesses ws c (by simp [fresh])
  rw [fresh, List.nil_append] at kept
  -- What is kept are the first that were admitted, and they are what a proof is made of.
  rw [Unmasked, forkProof_isSome_iff (run_genuine fresh _), kept]
  constructor
  · intro same
    exact same.mpr
  · intro early
    exact ⟨Conflicted.mono (List.take_subset _ _), early⟩

end

section

open Concrete

/-- A client of one slot that trusts one observer. -/
def watcher : SlotClient :=
  slotClient.run (new (slot 1) .casMerge ⟨0, Digest.zero⟩) [.trustWitness (identity 8).verifyingKey]

/-- A witness by the trusted observer. -/
def seen : Witness := witness 8 1 1 (digest [2]) (digest [9])

/-- Another witness of the same sequence by the same observer, of another record. -/
def rivalSeen : Witness := witness 8 1 1 (digest [3]) (digest [9])

/-- A rival witness by an observer nobody trusts. -/
def slander : Witness := witness 9 1 1 (digest [3]) (digest [9])

/-- The history the trusted observer tells of. -/
def toldLineage : Lineage :=
  ⟨fun _ => Digest.zero, fun seq => if seq = 1 then digest [2] else digest [9]⟩

/-- Both of the observer's witnesses pass the gates, and the stranger's does not. -/
theorem watcher_admits :
    watcher.witnesses = [] ∧ watcher.Admits seen ∧ watcher.Admits rivalSeen ∧
      ¬(slotClient.step watcher (.observeWitness seen)).2.Admits slander ∧
        toldLineage.Tells seen := by
  unfold Lineage.Tells
  decide +kernel

/-- A stranger's rival witness, relayed after an honest one, raises nothing. -/
theorem slander_raises_no_alarm :
    (slotClient.run (new (slot 1) .casMerge ⟨0, Digest.zero⟩)
      [.trustWitness (identity 8).verifyingKey, .observeWitness seen,
        .observeWitness slander]).forkProof = none := by
  -- The second witness is not signed by the one who is trusted, so nothing more is asked of it.
  obtain ⟨_, _, _, refused, tells⟩ := watcher_admits
  refine (one_history_raises_no_alarm toldLineage (slot 1) .casMerge ⟨0, Digest.zero⟩ _ ?_).1
  refine ⟨?_, ?_, ?_, trivial⟩
  · intro w relay
    cases relay
  · intro w relay _
    cases relay
    exact tells
  · intro w relay admits
    cases relay
    exact absurd admits refused

/-- Relayed at once, two rival witnesses of one observer are a fork in the open. -/
theorem rivals_are_unmasked : Unmasked watcher [seen, rivalSeen] := by
  -- The condition is read off the two witnesses.
  refine (unmasked_iff watcher [seen, rivalSeen] watcher_admits.1).mpr ?_
  intro conflict
  -- Two witnesses leave room to spare.
  have short : ([seen, rivalSeen].filter fun w => watcher.Admits w).length ≤ maxWitnesses :=
    Nat.le_trans (List.length_filter_le _ _) (by decide)
  rwa [List.take_of_length_le short]

/-- One witness relayed until the list is full, and then its rival. -/
def replay : List Witness := List.replicate maxWitnesses seen ++ [rivalSeen]

/-- Repeated often enough, one witness keeps its rival out, and a fork between two stays hidden. -/
theorem replay_masks_a_fork :
    (replay.filter fun w => watcher.Admits w).toFinset.card ≤ maxWitnesses ∧
      ¬Unmasked watcher replay := by
  -- All of the replay is admitted, and its first places are one witness.
  obtain ⟨fresh, first, second, _⟩ := watcher_admits
  have all : (replay.filter fun w => watcher.Admits w) = replay := by
    rw [List.filter_eq_self]
    intro w member
    rcases List.mem_append.mp member with copy | last
    · rw [List.eq_of_mem_replicate copy]
      exact decide_eq_true first
    · rw [List.mem_singleton.mp last]
      exact decide_eq_true second
  rw [Unmasked, all]
  constructor
  · -- However long the replay is, only two different witnesses are in it.
    have few : replay.toFinset ⊆ {seen, rivalSeen} := by
      intro w member
      rcases List.mem_append.mp (List.mem_toFinset.mp member) with copy | last
      · simp [List.eq_of_mem_replicate copy]
      · simp [List.mem_singleton.mp last]
    have two : ({seen, rivalSeen} : Finset Witness).card ≤ 2 := Finset.card_le_two
    exact Nat.le_trans (Finset.card_le_card few) (Nat.le_trans two (by decide))
  · intro same
    have rivals : Conflicts seen rivalSeen := by decide
    have open_ : Conflicted replay :=
      ⟨seen, by simp [replay, maxWitnesses], rivalSeen, by simp [replay], rivals⟩
    have proven := same.mpr open_
    rw [forkProof_isSome_iff (run_genuine fresh _),
      relayed_witnesses replay watcher (by simp [fresh]),
      fresh, List.nil_append, all, replay, List.take_append_of_le_length (by simp),
      List.take_of_length_le (by simp)] at proven
    -- What was kept is one witness many times over, and it does not conflict with itself.
    obtain ⟨a, aMember, b, bMember, conflict⟩ := proven
    rw [List.eq_of_mem_replicate aMember, List.eq_of_mem_replicate bMember] at conflict
    rcases conflict with ⟨_, other⟩ | ⟨near, _⟩
    · exact other rfl
    · omega

/-- The one record the slot's writer signed. -/
def signedHead : SlotRecord := record 7 1 1 2 (digest [9]) .casMerge

/-- The same record with its signature blanked out. -/
def unsignedHead : SlotRecord := { signedHead with sig := List.replicate signatureLen 0 }

/-- The history of the one signed record. -/
def signedLineage : Lineage :=
  ⟨fun seq => if seq = 1 then signedHead.sigHash else Digest.zero,
    fun seq => if seq = 1 then signedHead.recordHash else digest [9]⟩

/-- A signed head, then unsigned bytes at the same sequence. -/
def unsignedOffers : List ClientOp :=
  let roster := rosterOf [(identity 7).verifyingKey]
  [.offerHeadOnly signedHead roster, .offerHeadOnly unsignedHead roster]

/-- Unsigned bytes served beside the one signed record look like a fork. -/
theorem unsigned_bytes_look_like_a_fork :
    ¬∀ (h : Lineage) (slotId : SlotId) (regime : Regime) (anchor : Anchor) (ops : List ClientOp),
      anchor.sigHash = h.sigHash anchor.seq →
        slotClient.Permits (SignedOn h) (new slotId regime anchor) ops →
          (slotClient.run (new slotId regime anchor) ops).forked = none := by
  -- The head offered is not signed, so the condition asks nothing of it, and still it counts.
  intro never
  have facts : (∀ vk, (rosterOf [(identity 7).verifyingKey]).get unsignedHead.writerId = some vk →
        unsignedHead.verify vk ≠ .ok ()) ∧
      (slotClient.run (new (slot 1) .casMerge ⟨0, Digest.zero⟩) unsignedOffers).forked =
        some 1 := by
    decide +kernel
  obtain ⟨unsigned, raised⟩ := facts
  have quiet := never signedLineage (slot 1) .casMerge ⟨0, Digest.zero⟩ unsignedOffers rfl ?_
  · rw [quiet] at raised
    cases raised
  · refine ⟨?_, ?_, trivial⟩
    · intro _
      exact ⟨rfl, rfl⟩
    · rintro ⟨vk, rostered, verifies⟩
      exact absurd verifies (unsigned vk rostered)

/-- A single signed head shows no fork. -/
theorem signed_head_shows_no_fork :
    (slotClient.run (new (slot 1) .casMerge ⟨0, Digest.zero⟩)
      [.offerHeadOnly signedHead (rosterOf [(identity 7).verifyingKey])]).forked = none := by
  -- The one record shown is the one of the history.
  refine one_history_shows_no_fork signedLineage (slot 1) .casMerge ⟨0, Digest.zero⟩ _ rfl ?_
  refine ⟨⟨?_, ?_, ?_⟩, trivial⟩
  · intro r shown
    simp only [shownRecords] at shown
    split at shown
    · rw [List.mem_singleton.mp shown]
      exact ⟨rfl, rfl⟩
    · cases shown
  · intro seq sigHash observed
    cases observed
  · intro w relay
    cases relay

end

end SlotClient

end NasTools
