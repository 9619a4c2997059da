import NasTools.Proofs.Memory

/-! A head at the pinned sequence that is not the pinned record. -/

namespace NasTools

section

variable [Crypto]

namespace WalkContext

variable {ctx : WalkContext} {first : SlotRecord} {rest : List SlotRecord}

/-- In a walked chain that ends below the greatest sequence, the last record stands alone. -/
theorem eq_last (walked : (first :: rest).IsChain ctx.Follows)
    (room : (rest.getLastD first).seq ≠ u64Max) {r : SlotRecord} (member : r ∈ first :: rest)
    (same : r.seq = (rest.getLastD first).seq) : r = rest.getLastD first := by
  -- Induction over the records behind the first.
  induction rest generalizing first with
  -- The first record is the last one, or it is below it.
  | nil => simpa using member
  | cons next later ih =>
    obtain ⟨follows, onward⟩ := List.isChain_cons_cons.mp walked
    rw [List.getLastD_cons] at room same ⊢
    rcases List.mem_cons.mp member with rfl | above
    · -- The next record would stand above the last one.
      have notTop : r.seq.toNat ≠ u64Max.toNat := by
        intro top
        exact room (same ▸ UInt64.toNat_inj.mp top)
      have greatest : u64Max.toNat = 2 ^ 64 - 1 := by decide
      have limit := r.seq.toNat_lt
      have step : next.seq.toNat = r.seq.toNat + 1 := by
        rw [follows.seq]
        exact satAdd_one (by omega)
      have bound := le_last onward next (by simp)
      rw [← same] at bound
      omega
    · exact ih onward room above same

end WalkContext

/-- A ladder with a tail ends where the tail's own walk does. -/
theorem verifySkipChain_records {checkpoints : List Checkpoint} {first : SlotRecord}
    {rest : List SlotRecord} {slotId : SlotId} {roster : Roster} {anchor : Option Digest}
    {handoffs : List SlotHandoff} {walk : SkipWalk}
    (verified : verifySkipChain checkpoints (first :: rest) slotId roster anchor handoffs =
      .ok walk) :
    (first :: rest).IsChain (WalkContext.Follows ⟨slotId, first.regime, roster, handoffs⟩) ∧
      walk.headSeq = (rest.getLastD first).seq ∧
      walk.headHash = (rest.getLastD first).recordHash := by
  -- The steps that succeed are taken apart.
  simp only [verifySkipChain, except_bind_eq_ok, except_mapError_eq_ok, except_pure_eq,
    Except.ok.injEq] at verified
  obtain ⟨_, _, _, _, _, _, _, _, _, walked, rfl⟩ := verified
  -- The tail is walked like any chain, and the ladder takes its end from that walk.
  rw [verifyChainWithHandoffs_ok_iff] at walked
  obtain ⟨_, _, chained, rfl⟩ := walked
  exact ⟨chained, rfl, rfl⟩

/-- A ladder without a tail ends at the record its top rung names. -/
theorem verifySkipChain_no_records {checkpoints : List Checkpoint} {slotId : SlotId}
    {roster : Roster} {anchor : Option Digest} {handoffs : List SlotHandoff} {walk : SkipWalk}
    (verified : verifySkipChain checkpoints [] slotId roster anchor handoffs = .ok walk) :
    ∃ top ∈ checkpoints, walk.headSeq = top.seq ∧ walk.headHash = top.recordHash := by
  -- Without records the walk ends at the top rung.
  simp only [verifySkipChain, except_bind_eq_ok] at verified
  obtain ⟨_, _, _, _, _, _, ended⟩ := verified
  cases last : checkpoints.getLast? with
  | none => simp [last] at ended
  | some top =>
    refine ⟨top, List.mem_of_getLast? last, ?_⟩
    simp only [last, except_pure_eq, Except.ok.injEq] at ended
    subst ended
    exact ⟨rfl, rfl⟩

namespace Sync

variable {rungs : List Checkpoint} {said : Conversation}

/-- A verified walk ends at its last record, or at a rung when it has no records. -/
theorem verifyWalk_ends {r : Reader} {anchor : Option Digest} {authorisations : List SlotHandoff}
    {w : Walking} {ended : UInt64 × Digest}
    (verified : verifyWalk r anchor authorisations rungs w = .ok ended) :
    (∃ first rest, w.chain = first :: rest ∧
        (first :: rest).IsChain
          (WalkContext.Follows ⟨r.slot, first.regime, r.roster, authorisations⟩) ∧
        ended = ((rest.getLastD first).seq, (rest.getLastD first).recordHash)) ∨
      (w.chain = [] ∧ w.skipped ≠ 0 ∧ ∃ top ∈ rungs, ended = (top.seq, top.recordHash)) := by
  -- A walk from its start has no ladder in it.
  by_cases full : w.skipped = 0
  · exact .inl (verifyWalk_full full verified)
  · simp only [verifyWalk, full, if_false] at verified
    split at verified
    · rename_i walk climbed
      obtain rfl := Except.ok.inj verified
      cases records : w.chain with
      | nil =>
        rw [records] at climbed
        obtain ⟨top, member, seq, hash⟩ := verifySkipChain_no_records climbed
        exact .inr ⟨rfl, full, top, (List.mem_filter.mp member).1, by rw [seq, hash]⟩
      | cons first rest =>
        rw [records] at climbed
        obtain ⟨chained, seq, hash⟩ := verifySkipChain_records climbed
        exact .inl ⟨first, rest, rfl, chained, by rw [seq, hash]⟩
    · cases verified

omit [Crypto] in
/-- A rung found at a sequence above genesis is the only one there. -/
theorem rungAt_unique (rising : rungs.Pairwise Rises) {c found : Checkpoint} (member : c ∈ rungs)
    (above : c.seq ≠ 0) (at_ : rungAt rungs c.seq = some found) : found = c := by
  -- The rung that was found stands below, at, or above this one.
  rw [rungAt, List.find?_eq_some_iff_append] at at_
  obtain ⟨seq, below, higher, rfl, others⟩ := at_
  simp only [decide_eq_true_eq] at seq
  rcases List.mem_append.mp member with lower | here
  · have differs := others c lower
    simp at differs
  · rcases List.mem_cons.mp here with rfl | later
    · rfl
    · -- A rung further up stands strictly higher.
      have rises := (List.pairwise_cons.mp (List.pairwise_append.mp rising).2.1).1 c later
      have strictly := rises.2 above
      rw [seq] at strictly
      exact absurd strictly (UInt64.lt_irrefl _)

omit [Crypto] in
/-- A rung that was served has a rung to find at its sequence. -/
theorem rungAt_of_mem {c : Checkpoint} (member : c ∈ rungs) :
    ∃ found, rungAt rungs c.seq = some found := by
  apply Option.isSome_iff_exists.mp
  rw [rungAt, List.find?_isSome]
  exact ⟨c, member, by simp⟩

/-- With no record walked at the pin, a rung there must name the pinned record. -/
theorem checkPin_rung {chain : List SlotRecord} {p : Device.Pin} {want : Digest} {c : Checkpoint}
    {n : Nat} (named : p.recordHash = some want) (missing : recordAt chain p.seq = none)
    (found : rungAt rungs p.seq = some c) (passed : checkPin chain rungs (some p) = .ok n) :
    c.recordHash = want := by
  -- The check is followed to the rung.
  simp only [checkPin, named, missing, found] at passed
  -- The pin is looked for among the records first, and a rung stands in for a record.
  split at passed
  · cases passed
  · rename_i same
    exact not_not.mp same

omit [Crypto] in
/-- A ladder is climbed only towards a head above genesis. -/
theorem chooseWalk_skips {slot : SlotId} {start headSeq : UInt64} {w : Walking}
    (played : (chooseWalk slot rungs start headSeq).Plays said (.ok w)) (skips : w.skipped ≠ 0) :
    headSeq ≠ 0 := by
  -- The steps that succeed are taken apart.
  simp only [chooseWalk, Script.plays_bind_ok] at played
  obtain ⟨offered, _, _, _, _, later⟩ := played
  split at later
  · obtain ⟨_, rfl⟩ : _ ∧ w = _ := by simpa using later
    exact absurd rfl skips
  · split at later
    · cases later
    · rename_i topSeq skipped records plan
      simp only [Script.plays_bind_ok, Script.pure_eq, Script.plays_done, Except.ok.injEq] at later
      obtain ⟨chain, _, _, _, _, _, rfl⟩ := later
      intro zero
      -- With the head at zero the span is within the budget, and everything is walked.
      subst zero
      have span : satSub 0 start = 0 := by
        unfold satSub
        split
        · rfl
        · rename_i atZero
          have none : start.toNat = 0 := by
            rw [UInt64.lt_iff_toNat_lt] at atZero
            simpa using atZero
          simp [UInt64.toNat_inj.mp (none.trans UInt64.toNat_zero.symm)]
      simp [planWalk, span, retainN] at plan
    · cases later

/-- A walk that reaches a head at the pinned sequence reaches the pinned record. -/
theorem walkHistory_pinned {r : Reader} {cpPin : Option (UInt64 × Digest)} {want : Digest}
    {witnessed : List Witness} {authorisations : List SlotHandoff} {h : SlotRecord}
    {walked : Walked} (rising : rungs.Pairwise Rises) (room : h.seq ≠ u64Max)
    (played : (walkHistory r cpPin (some ⟨h.seq, some want⟩) witnessed authorisations rungs h).Plays
      said (.ok walked)) : h.recordHash = want := by
  -- The walk ends at the served head, and the pin is compared with what is walked there.
  simp only [walkHistory, Script.plays_bind_ok, plays_orRefuse_ok] at played
  obtain ⟨w, _, _, _, chosen, ended, _, _, _, ⟨_, verified⟩, _, _, _, _, ⟨_, reached⟩, unchecked, _,
    _, _, ⟨_, passed⟩, _⟩ := played
  simp only [checkReached, ensure_eq_ok] at reached
  obtain ⟨⟨n, pinPassed⟩, _⟩ := checkMemories_ok passed
  rcases verifyWalk_ends verified with ⟨first, rest, listed, chained, rfl⟩ |
    ⟨listed, skips, top, member, rfl⟩
  · -- The record walked at the pinned sequence can only be the last one.
    obtain ⟨seq, hash⟩ : (rest.getLastD first).seq = h.seq ∧
        (rest.getLastD first).recordHash = h.recordHash := reached
    rw [listed] at pinPassed
    obtain ⟨last, inChain, lastSeq⟩ : ∃ last ∈ first :: rest, last.seq = h.seq :=
      ⟨rest.getLastD first, List.getLastD_mem_cons, seq⟩
    obtain ⟨found, at_⟩ := recordAt_of_mem inChain lastSeq
    obtain ⟨foundMem, foundSeq⟩ := recordAt_spec at_
    have only : found = rest.getLastD first :=
      WalkContext.eq_last chained (by rw [seq]; exact room) foundMem (by rw [foundSeq, seq])
    have compared := checkPin_walked (p := ⟨h.seq, some want⟩) rfl at_ pinPassed
    rw [← hash, ← only, compared]
  · -- Nothing was walked, and the rung at the pinned sequence can only be the top one.
    obtain ⟨seq, hash⟩ : top.seq = h.seq ∧ top.recordHash = h.recordHash := reached
    obtain ⟨found, at_⟩ := rungAt_of_mem member
    have only : found = top :=
      rungAt_unique rising member (by rw [seq]; exact chooseWalk_skips chosen skips) at_
    rw [seq] at at_
    have compared := checkPin_rung (p := ⟨h.seq, some want⟩) rfl (by simp [listed, recordAt]) at_
      pinPassed
    rw [← hash, ← only, compared]

/-- A head the peer served in a conversation, whole enough to be decoded. -/
def HeadServed (said : Conversation) (r : SlotRecord) : Prop :=
  ∃ slot bytes, (⟨.call .peer (.slotHead slot), .ok (.record (some bytes))⟩ :
    Script.Exchange Op.Answer) ∈ said ∧ SlotRecord.decode bytes = .ok r

omit [Crypto] in
/-- Where the head is not asked for, it is not served. -/
theorem HeadServed.in_left {front back : Conversation} {r : SlotRecord}
    (served : HeadServed (front ++ back) r) (silent : ∀ x ∈ back, NotHead x.1) :
    HeadServed front r := by
  obtain ⟨slot, bytes, member, decoded⟩ := served
  rcases List.mem_append.mp member with here | there
  · exact ⟨slot, bytes, here, decoded⟩
  · exact (silent _ there).elim

omit [Crypto] in
/-- A head that was served, and not in front, was served behind. -/
theorem HeadServed.in_right {front back : Conversation} {r : SlotRecord}
    (served : HeadServed (front ++ back) r) (silent : ∀ x ∈ front, NotHead x.1) :
    HeadServed back r := by
  obtain ⟨slot, bytes, member, decoded⟩ := served
  rcases List.mem_append.mp member with there | here
  · exact (silent _ there).elim
  · exact ⟨slot, bytes, here, decoded⟩

omit [Crypto] in
/-- Nothing quiet asks for the head. -/
theorem notHead_of_plays {A : Type} {s : Sync A} {outcome : Except Exit A} (quiet : s.Asks Quiet)
    (played : s.Plays said outcome) : ∀ x ∈ said, NotHead x.1 :=
  Script.asked_of_plays (quiet.mono fun _ => Quiet.notHead) played

omit [Crypto] in
/-- The head a sync goes on with is the head that was served. -/
theorem servedHead_is {slot : SlotId} {served : Option SlotRecord} {r : SlotRecord}
    (played : (servedHead slot).Plays said (.ok served)) (head : HeadServed said r) :
    served = some r := by
  -- The steps that succeed are taken apart.
  simp only [servedHead, Script.plays_bind_ok, plays_request_ok] at played
  obtain ⟨answer, _, back, rfl, ⟨reply, rfl, picked⟩, later⟩ := played
  obtain rfl : reply = .record answer := Response.asRecord_eq_some.mp picked
  cases answer with
  -- No record was answered, so none was served.
  | none =>
    obtain ⟨rfl, _⟩ := Script.plays_done.mp later
    obtain ⟨_, bytes, member, _⟩ := head
    simp at member
  | some sent =>
    simp only [Script.plays_bind_ok, plays_orRefuse_ok, except_mapError_eq_ok, Script.pure_eq,
      Script.plays_done, Except.ok.injEq] at later
    obtain ⟨decoded, _, _, rfl, ⟨rfl, is⟩, rfl, rfl⟩ := later
    obtain ⟨_, bytes, member, same⟩ := head
    obtain ⟨rfl, rfl⟩ : _ ∧ bytes = sent := by simpa using member
    rw [is] at same
    rw [Except.ok.inj same]

/-- The rungs a sync goes on with rise. -/
theorem readLadder_rising {d : Device} {r : Reader} {authorisations : List SlotHandoff}
    {ladder : List Checkpoint × Option Checkpoint}
    (played : (readLadder d r authorisations).Plays said (.ok ladder)) :
    ladder.1.Pairwise Rises := by
  -- The steps that succeed are taken apart.
  simp only [readLadder, Script.plays_bind_ok, Script.pure_eq, Script.plays_done,
    Except.ok.injEq] at played
  obtain ⟨rungs, _, _, _, _, top, _, _, _, checked, _, rfl⟩ := played
  cases rungs with
  -- An empty ladder rises, and any other was verified.
  | nil => exact .nil
  | cons first rest =>
    have last := getLast?_cons_eq first rest
    simp only [checkLadder, last, Script.plays_bind_ok, plays_orRefuse_ok, except_mapError_eq_ok,
      verifySkipChain_ladder] at checked
    obtain ⟨_, _, _, _, ⟨_, climbable, _, linked, _⟩, _⟩ := checked
    exact ladder_rises climbable linked

/-- A slot read in full walked from the memory to the very head that was served. -/
theorem readSlot_served {d : Device} {o : SyncOpts} {read : SlotRead} {h : SlotRecord}
    (played : (readSlot d o).Plays said (.ok read)) (head : HeadServed said h) :
    ∃ r witnessed authorisations rungs part walked, d.slotIdentity = .ok r.writer ∧
      checkHead r d.pin (some h) = .ok () ∧ rungs.Pairwise Rises ∧
      (walkHistory r d.cpPin d.pin witnessed authorisations rungs h).Plays part (.ok walked) := by
  -- The steps that succeed are taken apart.
  simp only [readSlot, Script.plays_bind_ok, plays_orRefuse_ok, plays_orFail_ok] at played
  obtain ⟨opened, s₁, _, rfl, opening, served, s₂, _, rfl, serving, roster, _, _, rfl,
    ⟨rfl, _⟩, _, _, _, rfl, ⟨rfl, headPassed⟩, witness, s₃, _, rfl, asking, _, _, _, rfl, ⟨rfl, _⟩,
    authorisations, s₄, _, rfl, handing, ladder, s₅, s₆, rfl, climbing, rest⟩ := played
  have quietWalk : ∀ x ∈ s₆, NotHead x.1 := by
    -- Without a head nothing is walked, and the walk asks for pages only.
    cases served with
    | none =>
      obtain ⟨rfl, _⟩ := Script.plays_done.mp rest
      simp
    | some r =>
      simp only [Script.plays_bind_ok, Script.pure_eq, Script.plays_done, Except.ok.injEq] at rest
      obtain ⟨_, s₇, _, rfl, walking, rfl, _⟩ := rest
      rw [List.append_nil]
      exact notHead_of_plays (walkHistory_quiet _ _ _ _ _ _ _) walking
  have quietLadder : ∀ x ∈ s₅, NotHead x.1 := by
    refine Script.asked_of_plays (Script.asks_bind ((ladderPages_quiet _ _ _ _).mono fun _ =>
      Quiet.notHead) fun rungs => ?_) climbing
    exact Script.asks_bind (checkLadder_asks _ _ _ _ fun _ _ => trivial) fun _ => trivial
  -- Only the second part asked for the head.
  have inServing : HeadServed s₂ h := by
    refine (head.in_right (notHead_of_plays (openReader_quiet d) opening)).in_left ?_
    intro x member
    simp only [List.nil_append, List.mem_append] at member
    rcases member with asked | asked | asked | asked
    · exact notHead_of_plays (askWitness_quiet d o _) asking x asked
    · exact notHead_of_plays (askHandoffs_quiet _) handing x asked
    · exact quietLadder x asked
    · exact quietWalk x asked
  obtain rfl := servedHead_is serving inServing
  simp only [Script.plays_bind_ok] at rest
  obtain ⟨walked, part, _, _, walking, _⟩ := rest
  refine ⟨_, _, _, _, part, walked, ?_, headPassed, readLadder_rising climbing, walking⟩
  exact (plays_openReader_ok opening).2.1

/--
A head at the pinned sequence that is not the pinned record ends the sync before it publishes.
-/
theorem substituted_head_refused {d : Device} {o : SyncOpts} {outcome : Except Exit Unit}
    {h : SlotRecord} {want : Digest} (played : (sync d o).Plays said outcome)
    (head : HeadServed said h) (pinned : d.pin = some ⟨h.seq, some want⟩)
    (differs : h.recordHash ≠ want)
    (room : ∀ writer, d.slotIdentity = .ok writer → h.verify writer.verifyingKey = .ok () →
      h.seq ≠ u64Max) :
    (∀ u, outcome ≠ .ok u) ∧ ∀ x ∈ said, ReadOnly x.1 := by
  -- The sync is taken apart up to the check of the head.
  have dialling : (dial .peer).Asks Quiet := asks_dial.mpr trivial
  have readOnly {A : Type} {s : Sync A} {part : Conversation} {ended : Except Exit A}
      (quiet : s.Asks Quiet) (spoken : s.Plays part ended) : ∀ x ∈ part, ReadOnly x.1 :=
    Script.asked_of_plays (quiet.mono fun _ => Quiet.readOnly) spoken
  -- Whichever part failed, what was said up to there only read.
  rcases Script.plays_bind.mp played with ⟨e, rfl, failed⟩ | ⟨_, s₁, _, rfl, dialled, later⟩
  · exact ⟨(fun _ impossible => nomatch impossible), readOnly dialling failed⟩
  rcases Script.plays_bind.mp later with ⟨e, rfl, failed⟩ | ⟨_, s₂, _, rfl, offered, later⟩
  · refine ⟨(fun _ impossible => nomatch impossible), ?_⟩
    intro x member
    rcases List.mem_append.mp member with asked | asked
    · exact readOnly dialling dialled x asked
    · exact readOnly (offerBlobs_quiet d) failed x asked
  rcases Script.plays_bind.mp later with ⟨e, rfl, failed⟩ | ⟨read, s₃, s₄, rfl, reads, later⟩
  · refine ⟨(fun _ impossible => nomatch impossible), ?_⟩
    intro x member
    simp only [List.mem_append] at member
    rcases member with asked | asked | asked
    · exact readOnly dialling dialled x asked
    · exact readOnly (offerBlobs_quiet d) offered x asked
    · exact Script.asked_of_plays (readSlot_readOnly d o) failed x asked
  · -- The slot was read in full, so the walk reached the pinned record after all.
    have inReading : HeadServed s₃ h :=
      ((head.in_right (notHead_of_plays dialling dialled)).in_right
        (notHead_of_plays (offerBlobs_quiet d) offered)).in_left
        (Script.asked_of_plays (finish_notHead d read) later)
    obtain ⟨r, witnessed, authorisations, rungs, part, walked, identity, passed, rising, walking⟩ :=
      readSlot_served reads inReading
    -- The check of the head verified it, so it is none at the greatest sequence.
    have signed : h.verify r.writer.verifyingKey = .ok () := by
      simp only [checkHead, except_bind_eq_ok, except_mapError_eq_ok] at passed
      obtain ⟨_, _, _, signed, _⟩ := passed
      exact signed
    rw [pinned] at walking
    exact absurd (walkHistory_pinned rising (room r.writer identity signed) walking) differs

end Sync

/--
Syncs of one device, one after the other, each with any peer and each cut off anywhere.

Between them everything on the device but its two pins may change.
-/
inductive Syncs : Device → List Conversation → Device → Prop where
  | none (d : Device) : Syncs d [] d
  | sync {d₀ d d' : Device} {past : List Conversation} {o : SyncOpts} {said front : Conversation}
      {outcome : Except Exit Unit} (before : Syncs d₀ past d)
        (played : (sync d o).Plays said outcome)
      (cut : front <+: said) (kept : d'.memory = d.memory.after front) :
        Syncs d₀ (past ++ [said]) d'

/-- The rungs shown in any of several conversations. -/
def shownIn (past : List Conversation) : Set Checkpoint := {c | ∃ said ∈ past, Shown said c}

namespace Syncs

variable {d d' : Device} {past : List Conversation} {seen : Set Checkpoint}

/-- A run of syncs moves the memory onward. -/
theorem onward (run : Syncs d past d') (known : d.memory.Named seen)
    (shown : shownIn past ⊆ seen)
    (injective : Set.InjOn Crypto.blake3 (Checkpoint.hashInput '' seen)) :
    Memory.Onward seen d.memory d'.memory := by
  -- Induction over the run.
  induction run with
  | none => exact .refl _
  | sync before played cut kept ih =>
    have earlier := ih fun c held => by
      obtain ⟨said, member, here⟩ := held
      exact shown ⟨said, by simp [member], here⟩
    have moved := Sync.moves_sync injective _ _ _ ⟨rfl, rfl, earlier.named known⟩ played
      fun c here => shown ⟨_, by simp, here⟩
    -- A sync that is cut off has moved the memory by a prefix of what it would have.
    rw [kept]
    exact earlier.trans (Memory.onward_of_advances moved.1 cut)

end Syncs

omit [Crypto] in
/-- Questions that only read leave the record pin alone. -/
theorem Memory.pin_of_readOnly {m : Memory} {said : Conversation}
    (reads : ∀ x ∈ said, Sync.ReadOnly x.1) : (m.after said).pin = m.pin := by
  -- Induction over the conversation: a question that reads writes no pin.
  induction said generalizing m with
  | nil => rfl
  | cons x rest ih =>
    rw [Memory.after_cons, ih fun y later => reads y (by simp [later])]
    obtain ⟨op, answer⟩ := x
    have reading : Sync.ReadOnly op := reads ⟨op, answer⟩ (by simp)
    cases op with
    | writePin seq hash => exact reading.elim
    | writeCpPin seq hash =>
      cases answer with
      | ok u => rfl
      | error e => rfl
    | _ => rfl

/--
Over every run of syncs, with any peers, neither pin goes down or is unset.

From wherever a run has led, a sync that is served a head at the pinned sequence with another hash
does not succeed, publishes nothing, and leaves the record pin as it was wherever it is cut off.

The hash has no collision among the rungs seen, and no head at the greatest sequence is signed.
-/
theorem memory_only_moves_forward {d d' : Device} {past : List Conversation}
    (before : Set Checkpoint) (known : d.memory.Named before) (run : Syncs d past d')
    (injective : Set.InjOn Crypto.blake3 (Checkpoint.hashInput '' (before ∪ shownIn past))) :
    Memory.Forward d.memory d'.memory ∧
      ∀ o said outcome h want, (sync d' o).Plays said outcome → Sync.HeadServed said h →
        d'.pin = some ⟨h.seq, some want⟩ → h.recordHash ≠ want →
        (∀ writer, d'.slotIdentity = .ok writer → h.verify writer.verifyingKey = .ok () →
          h.seq ≠ u64Max) →
        (∀ u, outcome ≠ .ok u) ∧
          (∀ node bytes answer,
            (⟨.call node (.publishSlot bytes), answer⟩ : Script.Exchange Op.Answer) ∉ said ∧
            (⟨.call node (.publishCheckpoint bytes), answer⟩ : Script.Exchange Op.Answer) ∉ said) ∧
          ∀ front, front <+: said → (d'.memory.after front).pin = d'.pin := by
  -- The first half is an induction over the syncs, and the second is about the next one.
  refine ⟨?_, ?_⟩
  · have named : d.memory.Named (before ∪ shownIn past) := by
      intro pin held
      obtain ⟨c, member, is⟩ := known pin held
      exact ⟨c, .inl member, is⟩
    exact (run.onward named Set.subset_union_right injective).forward
  · intro o said outcome h want played head pinned differs room
    obtain ⟨failed, reads⟩ := Sync.substituted_head_refused played head pinned differs room
    refine ⟨failed, ?_, ?_⟩
    · -- A question that only reads is no publication.
      intro node bytes answer
      exact ⟨fun asked => reads _ asked, fun asked => reads _ asked⟩
    · intro front cut
      exact Memory.pin_of_readOnly fun x member => reads x (cut.subset member)

end

section

open Concrete

/-- An exchange that shows no rung. -/
def showsNoRung : Script.Exchange Op.Answer → Bool
  | ⟨.call .peer (.checkpoints _ _), .ok (.records items)⟩ => items.isEmpty
  | ⟨.call .peer (.publishCheckpoint _), _⟩ => false
  | _ => true

/-- A conversation that shows no rung shows none. -/
theorem not_shown {said : Conversation} (silent : said.all showsNoRung) (c : Checkpoint) :
    ¬Shown said c := by
  -- A rung is shown in a page or published, and neither happens.
  rw [List.all_eq_true] at silent
  intro shown
  rcases shown with ⟨slot, start, items, asked, bytes, held, _⟩ | ⟨answer, bytes, asked, _⟩
  · have empty := silent _ asked
    simp only [showsNoRung, List.isEmpty_iff] at empty
    simp [empty] at held
  · exact absurd (silent _ asked) (by simp [showsNoRung])

/-- The record a device is pinned to. -/
def pinnedVersion : SlotRecord := version 1 (digest [1]) (digest [9])

/-- The record the peer has moved on to. -/
def laterVersion : SlotRecord := version 2 (digest [2]) pinnedVersion.recordHash

/-- What an honest peer answers to a device pinned one record below its head. -/
def laterReplies : List Response :=
  [.addrs [], .ok, .record (some (sent laterVersion)), .records [], .records [],
    .records [sent pinnedVersion, sent laterVersion], .blob (sealedRoot (digest [2]))]

/-- Another record at the sequence the peer has moved on to. -/
def otherVersion : SlotRecord := version 2 (digest [3]) pinnedVersion.recordHash

/-- An exchange in which a given head is served. -/
def servesHead (h : SlotRecord) : Script.Exchange Op.Answer → Bool
  | ⟨.call .peer (.slotHead _), .ok (.record (some bytes))⟩ =>
    (SlotRecord.decode bytes).toOption == some h
  | _ => false

/-- A head that some exchange serves was served. -/
theorem headServed_of_any {said : Conversation} {h : SlotRecord}
    (served : said.any (servesHead h)) :
    Sync.HeadServed said h := by
  -- The exchange answers with a record that is decoded.
  obtain ⟨x, member, serves⟩ := List.any_eq_true.mp served
  unfold servesHead at serves
  split at serves
  · rename_i slot bytes
    refine ⟨slot, bytes, member, ?_⟩
    cases decoded : SlotRecord.decode bytes with
    | error e => simp [decoded, Except.toOption] at serves
    | ok r => simpa [decoded, Except.toOption] using serves
  · cases serves

/--
A sync against an honest peer moves the pin up to the served head, and the next sync does not
succeed when it is served another record there.
-/
theorem pin_moves_to_the_served_head :
    let d := device (some ⟨1, some pinnedVersion.recordHash⟩)
    let d' := device (some ⟨2, some laterVersion.recordHash⟩)
    let said := (sync d ⟨false, false⟩).transcript scripted laterReplies
    let next := [Response.addrs [], .ok, .record (some (sent otherVersion))]
    Syncs d [said] d' ∧ Memory.Forward d.memory d'.memory ∧
      ∀ u, ((sync d' ⟨false, false⟩).exec scripted next).1 ≠ .ok u := by
  -- The second part is the general theorem, at the pin the first sync left.
  intro d d' said next
  -- The two syncs are evaluated once, for all that is to be known of them.
  have evaluated : ((d.memory.after said).pin = d'.pin ∧ (d.memory.after said).cpPin = d'.cpPin) ∧
      said.all showsNoRung ∧
        ((sync d' ⟨false, false⟩).transcript scripted next).any (servesHead otherVersion) ∧
        otherVersion.recordHash ≠ laterVersion.recordHash := by decide +kernel
  obtain ⟨kept, silent, served, differs⟩ := evaluated
  have run : Syncs d ([] ++ [said]) d' := by
    refine .sync (.none d) (Script.exec_plays scripted (sync d ⟨false, false⟩) _)
      (List.prefix_refl _) ?_
    simp only [Device.memory, ← kept.1, ← kept.2]
  -- No rung was shown, so there is nothing to collide.
  have nothing : ∅ ∪ shownIn [said] = ∅ := by
    rw [Set.empty_union, Set.eq_empty_iff_forall_notMem]
    intro c shown
    obtain ⟨s, member, here⟩ := shown
    rw [List.mem_singleton] at member
    exact not_shown (member ▸ silent) c here
  have unpinned : d.memory.Named ∅ := by
    intro pin held
    cases held
  obtain ⟨forward, refuses⟩ := memory_only_moves_forward ∅ unpinned run (by
    rw [List.nil_append, nothing]
    simp)
  have head : Sync.HeadServed ((sync d' ⟨false, false⟩).transcript scripted next) otherVersion :=
    headServed_of_any served
  refine ⟨run, forward, ?_⟩
  exact (refuses ⟨false, false⟩ _ _ otherVersion laterVersion.recordHash
    (Script.exec_plays scripted (sync d' ⟨false, false⟩) next) head rfl differs
    fun _ _ _ => by decide).1

end

end NasTools
