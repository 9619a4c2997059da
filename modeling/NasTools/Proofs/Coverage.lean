import NasTools.Model.Cli.Concrete
import NasTools.Model.Cli.Rules

/-! A full walk and the memories of the device that made it. -/

namespace NasTools

section

variable [Crypto]

namespace WalkContext

variable {ctx : WalkContext} {first : SlotRecord} {rest : List SlotRecord}

/-- In a walked chain nothing stands below the first record. -/
theorem first_le (walked : (first :: rest).IsChain ctx.Follows) :
    ∀ r ∈ first :: rest, first.seq.toNat ≤ r.seq.toNat := by
  -- Each record is at least as high as the one before it.
  induction rest generalizing first with
  | nil => simp
  | cons next later ih =>
    obtain ⟨follows, walked⟩ := List.isChain_cons_cons.mp walked
    intro r member
    rcases List.mem_cons.mp member with rfl | above
    · exact Nat.le_refl _
    · have step : first.seq.toNat ≤ next.seq.toNat := by
        rw [follows.seq]
        exact le_satAdd_one first.seq
      exact Nat.le_trans step (ih walked r above)

/-- In a walked chain nothing stands above the last record. -/
theorem le_last (walked : (first :: rest).IsChain ctx.Follows) :
    ∀ r ∈ first :: rest, r.seq.toNat ≤ (rest.getLastD first).seq.toNat := by
  -- Induction over the chain: each record is followed by a later one.
  induction rest generalizing first with
  | nil => simp
  | cons next later ih =>
    obtain ⟨follows, onward⟩ := List.isChain_cons_cons.mp walked
    have step : first.seq.toNat ≤ next.seq.toNat := by
      rw [follows.seq]
      exact le_satAdd_one first.seq
    intro r member
    rw [List.getLastD_cons]
    rcases List.mem_cons.mp member with rfl | above
    · exact Nat.le_trans step (ih onward next (by simp))
    · exact ih onward r above

/-- A walked chain leaves no sequence out between its ends. -/
theorem exists_between (walked : (first :: rest).IsChain ctx.Follows) {seq : UInt64}
    (above : first.seq.toNat ≤ seq.toNat) (below : seq.toNat ≤ (rest.getLastD first).seq.toNat) :
    ∃ r ∈ first :: rest, r.seq = seq := by
  -- Induction over the chain: the sequence is here, or above the next record.
  induction rest generalizing first with
  | nil =>
    have same : first.seq = seq := UInt64.toNat_inj.mp (Nat.le_antisymm above below)
    exact ⟨first, by simp, same⟩
  | cons next later ih =>
    obtain ⟨follows, walked⟩ := List.isChain_cons_cons.mp walked
    rw [List.getLastD_cons] at below
    by_cases here : first.seq = seq
    · exact ⟨first, by simp, here⟩
    · -- Strictly above the first record, so at or above the one after it.
      have apart : first.seq.toNat ≠ seq.toNat := fun same => here (UInt64.toNat_inj.mp same)
      have room : first.seq.toNat + 1 < 2 ^ 64 := by
        have bound := seq.toNat_lt
        omega
      have reached : next.seq.toNat ≤ seq.toNat := by
        rw [follows.seq, satAdd_one room]
        omega
      obtain ⟨r, member, at_⟩ := ih walked reached below
      exact ⟨r, by simp [member], at_⟩

end WalkContext

namespace Sync

variable {chain : List SlotRecord} {rungs : List Checkpoint}

omit [Crypto] in
/-- A record found at a sequence is one of those walked. -/
theorem recordAt_spec {seq : UInt64} {r : SlotRecord} (found : recordAt chain seq = some r) :
    r ∈ chain ∧ r.seq = seq := by
  refine ⟨List.mem_of_find?_eq_some found, ?_⟩
  simpa using List.find?_some found

omit [Crypto] in
/-- A sequence that was walked has a record to find. -/
theorem recordAt_of_mem {seq : UInt64} {r : SlotRecord} (member : r ∈ chain) (at_ : r.seq = seq) :
    ∃ found, recordAt chain seq = some found := by
  apply Option.isSome_iff_exists.mp
  rw [recordAt, List.find?_isSome]
  exact ⟨r, member, by simpa using at_⟩

/-- The record a memory names was walked. -/
def PinCovered (chain : List SlotRecord) (pin : Option Device.Pin) : Prop :=
  ∀ p want, pin = some p → p.recordHash = some want →
    ∃ r ∈ chain, r.seq = p.seq ∧ r.recordHash = want

/-- The record a witness names was walked, or the record above it that descends from it. -/
def WitnessCovered (chain : List SlotRecord) (w : Witness) : Prop :=
  ∃ r ∈ chain, (r.seq = w.seq ∧ r.recordHash = w.recordHash) ∨
    (r.seq.toNat = w.seq.toNat + 1 ∧ r.prev = w.recordHash)

/-- Every memory lies on what was walked. -/
structure Covers (chain : List SlotRecord) (pin : Option Device.Pin) (witnessed : List Witness) :
    Prop where
  pin : PinCovered chain pin
  witnesses : ∀ w ∈ witnessed, WitnessCovered chain w

/-- A record right above the witnessed one that descends from it was walked. -/
def DescendantWalked (chain : List SlotRecord) (w : Witness) : Prop :=
  ∃ r ∈ chain, r.seq.toNat = w.seq.toNat + 1 ∧ r.prev = w.recordHash

/--
The walked records start at or below what a witness saw, or right above it.

Right above, a rung served at the witnessed sequence would be compared in place of the link.
-/
def StartsAtWitness (chain : List SlotRecord) (rungs : List Checkpoint) (first : SlotRecord)
    (w : Witness) : Prop :=
  first.seq ≤ w.seq ∨
    (first.seq.toNat = w.seq.toNat + 1 ∧ (rungAt rungs w.seq = none ∨ DescendantWalked chain w))

/-- The first record served is low enough for every memory. -/
def StartsLow (chain : List SlotRecord) (rungs : List Checkpoint) (pin : Option Device.Pin)
    (witnessed : List Witness) : Prop :=
  ∀ first, chain.head? = some first →
    (∀ p want, pin = some p → p.recordHash = some want → first.seq ≤ p.seq) ∧
      ∀ w ∈ witnessed, StartsAtWitness chain rungs first w

/-- What the memory check says once it has passed. -/
theorem checkMemories_ok {pin : Option Device.Pin} {witnessed : List Witness} {unchecked : Nat}
    (passed : checkMemories chain rungs pin witnessed = .ok unchecked) :
    (∃ n, checkPin chain rungs pin = .ok n) ∧
      ∀ w ∈ witnessed, ∃ n, checkWitness chain rungs w = .ok n := by
  -- The pin is checked first and then each witness in turn.
  rw [checkMemories, except_bind_eq_ok] at passed
  obtain ⟨start, pinned, counted⟩ := passed
  refine ⟨⟨start, pinned⟩, ?_⟩
  clear pinned
  induction witnessed generalizing start with
  | nil => simp
  | cons first rest ih =>
    rw [List.foldlM_cons, except_bind_eq_ok] at counted
    obtain ⟨next, judged, later⟩ := counted
    rw [except_bind_eq_ok] at judged
    obtain ⟨n, passed, _⟩ := judged
    intro w member
    rcases List.mem_cons.mp member with rfl | held
    · exact ⟨n, passed⟩
    · exact ih next later w held

/-- The pin check passes over a walked pin only when its hash is the one walked. -/
theorem checkPin_walked {p : Device.Pin} {want : Digest} {r : SlotRecord} {n : Nat}
    (named : p.recordHash = some want) (found : recordAt chain p.seq = some r)
    (passed : checkPin chain rungs (some p) = .ok n) : r.recordHash = want := by
  -- The pinned record is in the chain, so its hash is compared.
  simp only [checkPin, named, found] at passed
  split at passed
  · cases passed
  · rename_i same
    exact not_not.mp same

/-- The witness check passes over a walked witness only when its hash is the one walked. -/
theorem checkWitness_walked {w : Witness} {r : SlotRecord} {n : Nat}
    (found : recordAt chain w.seq = some r) (passed : checkWitness chain rungs w = .ok n) :
    r.recordHash = w.recordHash := by
  -- The witnessed record is in the chain, so its hash is compared.
  simp only [checkWitness, found] at passed
  split at passed
  · cases passed
  · rename_i same
    exact not_not.mp same

/-- With neither the record nor a rung, the record above decides. -/
theorem checkWitness_above {w : Witness} {r : SlotRecord} {n : Nat} (room : w.seq ≠ u64Max)
    (missing : recordAt chain w.seq = none) (noRung : rungAt rungs w.seq = none)
    (found : recordAt chain (w.seq + 1) = some r) (passed : checkWitness chain rungs w = .ok n) :
    r.prev = w.recordHash := by
  -- Only the record above the witnessed one is in the chain, and its link is compared.
  simp only [checkWitness, missing, noRung, found, if_neg room] at passed
  split at passed
  · cases passed
  · rename_i same
    exact not_not.mp same

omit [Crypto] in
/-- The sequence above one that is not the greatest. -/
theorem toNat_succ {a : UInt64} (room : a.toNat + 1 < 2 ^ 64) : (a + 1).toNat = a.toNat + 1 := by
  rw [UInt64.toNat_add]
  simp
  omega

/-- A pin is covered exactly when the walked records start at or below it. -/
theorem pinCovered_iff {ctx : WalkContext} {first : SlotRecord} {rest : List SlotRecord}
    {pin : Option Device.Pin} {n : Nat} (walked : (first :: rest).IsChain ctx.Follows)
    (reached : ∀ p, pin = some p → p.seq.toNat ≤ (rest.getLastD first).seq.toNat)
    (passed : checkPin (first :: rest) rungs pin = .ok n) :
    PinCovered (first :: rest) pin ↔
      ∀ p want, pin = some p → p.recordHash = some want → first.seq ≤ p.seq := by
  -- The walked sequences are those from the first to the last.
  constructor
  · intro covered p want held named
    -- The record that covers the pin is walked, so it is not below the first one.
    obtain ⟨r, member, seq, _⟩ := covered p want held named
    rw [← seq]
    exact UInt64.le_iff_toNat_le.mpr (WalkContext.first_le walked r member)
  · intro low p want held named
    -- Records are walked one after the other, so the pinned sequence is among them.
    have above := UInt64.le_iff_toNat_le.mp (low p want held named)
    obtain ⟨r, member, seq⟩ := WalkContext.exists_between walked above (reached p held)
    obtain ⟨found, at_⟩ := recordAt_of_mem member seq
    obtain ⟨inChain, foundSeq⟩ := recordAt_spec at_
    rw [held] at passed
    exact ⟨found, inChain, foundSeq, checkPin_walked named at_ passed⟩

/-- A witness is covered exactly when the walked records start low enough for it. -/
theorem witnessCovered_iff {ctx : WalkContext} {first : SlotRecord} {rest : List SlotRecord}
    {w : Witness} {n : Nat} (walked : (first :: rest).IsChain ctx.Follows)
    (reached : w.seq.toNat ≤ (rest.getLastD first).seq.toNat)
    (passed : checkWitness (first :: rest) rungs w = .ok n) :
    WitnessCovered (first :: rest) w ↔ StartsAtWitness (first :: rest) rungs first w := by
  -- A witness is covered by the record at its place, or by the one right above it.
  have lowest := WalkContext.first_le walked
  by_cases low : first.seq.toNat ≤ w.seq.toNat
  · -- The witnessed sequence itself was walked, and its hash was compared.
    obtain ⟨r, member, seq⟩ := WalkContext.exists_between walked low reached
    obtain ⟨found, at_⟩ := recordAt_of_mem member seq
    obtain ⟨inChain, foundSeq⟩ := recordAt_spec at_
    have hash := checkWitness_walked at_ passed
    constructor
    · intro _
      exact .inl (UInt64.le_iff_toNat_le.mpr low)
    · intro _
      exact ⟨found, inChain, .inl ⟨foundSeq, hash⟩⟩
  · -- It was not walked, so only the record right above it can speak for it.
    have missing : recordAt (first :: rest) w.seq = none := by
      rw [recordAt, List.find?_eq_none]
      intro r member
      have bound := lowest r member
      simp only [decide_eq_true_eq]
      intro same
      rw [same] at bound
      exact low bound
    constructor
    · intro covered
      obtain ⟨r, member, ⟨seq, _⟩ | ⟨next, prev⟩⟩ := covered
      · have bound := lowest r member
        rw [seq] at bound
        exact absurd bound low
      · right
        have bound := lowest r member
        exact ⟨by omega, .inr ⟨r, member, next, prev⟩⟩
    · intro starts
      rcases starts with atOrBelow | ⟨next, noRung | ⟨r, member, seq, prev⟩⟩
      · exact absurd (UInt64.le_iff_toNat_le.mp atOrBelow) low
      · have bound := first.seq.toNat_lt
        -- Without a rung there, the walk checked the record right above the witness.
        have above : first.seq = w.seq + 1 := UInt64.toNat_inj.mp (by
          rw [next, toNat_succ (by omega)])
        have room : w.seq ≠ u64Max := by
          intro top
          have : w.seq.toNat = 2 ^ 64 - 1 := by rw [top]; decide
          omega
        obtain ⟨found, at_⟩ := recordAt_of_mem (List.mem_cons_self (a := first) (l := rest)) above
        obtain ⟨inChain, foundSeq⟩ := recordAt_spec at_
        refine ⟨found, inChain, .inr ⟨?_, checkWitness_above room missing noRung at_ passed⟩⟩
        rw [foundSeq, ← above, next]
      · exact ⟨r, member, .inr ⟨seq, prev⟩⟩

/-- What a walk that skips nothing has verified. -/
theorem verifyWalk_full {r : Reader} {anchor : Option Digest} {authorisations : List SlotHandoff}
    {w : Walking} {ended : UInt64 × Digest} (full : w.skipped = 0)
    (verified : verifyWalk r anchor authorisations rungs w = .ok ended) :
    ∃ first rest, w.chain = first :: rest ∧
      (first :: rest).IsChain
        (WalkContext.Follows ⟨r.slot, first.regime, r.roster, authorisations⟩) ∧
      ended = ((rest.getLastD first).seq, (rest.getLastD first).recordHash) := by
  -- Without skipping, the walk is the plain one.
  simp only [verifyWalk, full, if_true] at verified
  -- A walk that skips nothing is verified as one chain.
  split at verified
  · rename_i walk walked
    cases listed : w.chain with
    | nil =>
      rw [listed] at walked
      cases walked
    | cons first rest =>
      rw [listed, verifyChainWithHandoffs_ok_iff] at walked
      obtain ⟨_, _, chained, rfl⟩ := walked
      refine ⟨first, rest, rfl, chained, ?_⟩
      exact (Except.ok.inj verified).symm
  · cases verified

/-- A walk of a served head covers the memories exactly when the records served start low enough. -/
theorem walkHistory_covers_iff {r : Reader} {cpPin : Option (UInt64 × Digest)}
    {pin : Option Device.Pin} {witnessed : List Witness} {authorisations : List SlotHandoff}
    {h : SlotRecord} {walked : Walked} {said : List (Script.Exchange Op.Answer)}
    (pinned : ∀ p, pin = some p → p.seq ≤ h.seq) (witnesses : ∀ w ∈ witnessed, w.seq ≤ h.seq)
    (played : (walkHistory r cpPin pin witnessed authorisations rungs h).Plays said (.ok walked))
    (full : walked.skipped = 0) :
    Covers walked.chain pin witnessed ↔ StartsLow walked.chain rungs pin witnessed := by
  -- What was served is walked, and each memory is held against what was walked.
  simp only [walkHistory, Script.plays_bind_ok, plays_orRefuse_ok, Script.pure_eq,
    Script.plays_done, Except.ok.injEq] at played
  obtain ⟨w, _, _, _, _, ended, _, _, _, ⟨_, verified⟩, _, _, _, _, ⟨_, reached⟩, unchecked, _, _,
    _, ⟨_, passed⟩, _, rfl⟩ := played
  obtain ⟨first, rest, listed, chained, rfl⟩ := verifyWalk_full full verified
  simp only [checkReached, ensure_eq_ok] at reached
  obtain ⟨⟨n, pinPassed⟩, witnessPassed⟩ := checkMemories_ok passed
  rw [listed] at pinPassed witnessPassed
  simp only [listed]
  -- The walk ends at the head, and no memory lies above the head.
  have top : (rest.getLastD first).seq = h.seq := reached.1
  have pinReached (p : Device.Pin) (held : pin = some p) :
      p.seq.toNat ≤ (rest.getLastD first).seq.toNat := by
    rw [top]
    exact UInt64.le_iff_toNat_le.mp (pinned p held)
  -- Each memory is judged by itself.
  have pinIff := pinCovered_iff chained pinReached pinPassed
  have witnessIff (w : Witness) (held : w ∈ witnessed) :
      WitnessCovered (first :: rest) w ↔ StartsAtWitness (first :: rest) rungs first w := by
    obtain ⟨m, judged⟩ := witnessPassed w held
    refine witnessCovered_iff chained ?_ judged
    rw [top]
    exact UInt64.le_iff_toNat_le.mp (witnesses w held)
  constructor
  · intro covers f start
    obtain rfl : first = f := by simpa using start
    exact ⟨pinIff.mp covers.pin, fun w held => (witnessIff w held).mp (covers.witnesses w held)⟩
  · intro low
    obtain ⟨pinLow, witnessLow⟩ := low first rfl
    exact ⟨pinIff.mpr pinLow, fun w held => (witnessIff w held).mpr (witnessLow w held)⟩

/-- A head at or above the pin is the only one the head check lets through. -/
theorem checkHead_pinned {r : Reader} {pin : Option Device.Pin} {h : SlotRecord}
    (passed : checkHead r pin (some h) = .ok ()) : ∀ p, pin = some p → p.seq ≤ h.seq := by
  -- The last check of the head compares it with the pin.
  intro p held
  subst held
  simp only [checkHead, except_bind_eq_ok, ensure_eq_ok] at passed
  obtain ⟨_, _, _, _, above⟩ := passed
  exact above

omit [Crypto] in
/-- No witness that passes lies above the head. -/
theorem checkWitnessed_ok {h : SlotRecord} {witnessed : List Witness}
    (passed : checkWitnessed (some h) witnessed = .ok ()) : ∀ w ∈ witnessed, w.seq ≤ h.seq := by
  -- Each witness is checked against the head in turn.
  induction witnessed with
  | nil => simp
  | cons first rest ih =>
    simp only [checkWitnessed, except_bind_eq_ok, ensure_eq_ok] at passed
    obtain ⟨_, below, later⟩ := passed
    intro w member
    rcases List.mem_cons.mp member with rfl | held
    · exact below
    · exact ih later w held

/-- The witnesses a sync believes. -/
def SlotRead.witnessed (read : SlotRead) : List Witness := (read.witness.map Prod.snd).getD []

/-- What a slot that was read in full went through, when a head was served. -/
theorem readSlot_walked {d : Device} {o : SyncOpts} {said : List (Script.Exchange Op.Answer)}
    {read : SlotRead} {walked : Walked} (played : (readSlot d o).Plays said (.ok read))
    (walk : read.walked = some walked) :
    ∃ h authorisations front part back, read.served = some h ∧ said = front ++ part ++ back ∧
      checkHead read.reader d.pin (some h) = .ok () ∧
      checkWitnessed (some h) read.witnessed = .ok () ∧
      (∃ asked, (askWitness d o read.reader.slot).Plays asked (.ok read.witness)) ∧
      (walkHistory read.reader d.cpPin d.pin read.witnessed authorisations read.rungs h).Plays part
        (.ok walked) := by
  -- The steps that succeed are taken apart, up to the walk.
  simp only [readSlot, Script.plays_bind_ok, plays_orRefuse_ok, plays_orFail_ok] at played
  obtain ⟨opened, s₁, _, rfl, _, served, s₂, _, rfl, _, roster, _, _, rfl, ⟨rfl, _⟩, _, _, _, rfl,
    ⟨rfl, head⟩, witness, s₃, _, rfl, asking, _, _, _, rfl, ⟨rfl, seen⟩, authorisations,
    s₄, _, rfl, _,
    ladder, s₅, s₆, rfl, _, rest⟩ := played
  -- Without a served head nothing is walked.
  cases served with
  | none =>
    simp only [Script.pure_eq, Script.plays_done, Except.ok.injEq] at rest
    obtain ⟨_, rfl⟩ := rest
    cases walk
  | some h =>
    simp only [Script.plays_bind_ok, Script.pure_eq, Script.plays_done, Except.ok.injEq] at rest
    obtain ⟨w, s₇, s₈, rfl, walking, rfl, rfl⟩ := rest
    obtain rfl : w = walked := by simpa using walk
    refine ⟨h, authorisations, s₁ ++ (s₂ ++ ([] ++ ([] ++ (s₃ ++ ([] ++ (s₄ ++ s₅)))))),
      s₇, [], rfl, by simp, head, seen, ⟨s₃, asking⟩, walking⟩

/--
A full walk covers the device's memory exactly when the records served start low enough.

This holds for every conversation in which the sync gets past the walk without skipping.
-/
theorem full_walk_covers_memory_iff (d : Device) (o : SyncOpts)
    (said : List (Script.Exchange Op.Answer)) (read : SlotRead) (walked : Walked)
    (played : (readSlot d o).Plays said (.ok read)) (walk : read.walked = some walked)
    (full : walked.skipped = 0) :
    Covers walked.chain d.pin read.witnessed ↔
      StartsLow walked.chain read.rungs d.pin read.witnessed := by
  obtain ⟨h, authorisations, _, part, _, _, _, head, seen, _, walking⟩ :=
    readSlot_walked played walk
  exact walkHistory_covers_iff (checkHead_pinned head) (checkWitnessed_ok seen) walking full

/-- Whatever is answered, a walk that skips nothing covers what the device remembers. -/
def FullWalksCover (d : Device) (o : SyncOpts) : Prop :=
  ∀ said read walked, (readSlot d o).Plays said (.ok read) → read.walked = some walked →
    walked.skipped = 0 → Covers walked.chain d.pin read.witnessed

end Sync

end

section

open Concrete

/-- The head a peer serves at sequence two, over a record the device never saw. -/
def forkedHead : SlotRecord := recordIn 7 deviceSlot 2 3 (digest [9]) .casMerge

/-- The head, no handoffs, no rungs, and a history that starts at the head. -/
def forkedReplies : List Response :=
  [.record (some (sent forkedHead)), .records [], .records [], .records [sent forkedHead]]

/-- A device pinned at sequence one. -/
def pinnedDevice (hash : Digest) : Device := device (some ⟨1, some hash⟩)

/-- The run of a read against given replies, with what it walked. -/
def walkedOf (d : Device) (replies : List Response) : Option (UInt64 × List SlotRecord) :=
  ((((Sync.readSlot d ⟨false, false⟩).exec scripted replies).1.toOption.bind
    Sync.SlotRead.walked).map fun w => (w.skipped, w.chain))

/-- A read that walked something is a conversation in which it got past the walk. -/
theorem plays_of_walkedOf {d : Device} {replies : List Response} {skipped : UInt64}
    {chain : List SlotRecord} (run : walkedOf d replies = some (skipped, chain)) :
    ∃ said read walked, (Sync.readSlot d ⟨false, false⟩).Plays said (.ok read) ∧
      read.walked = some walked ∧ walked.skipped = skipped ∧ walked.chain = chain := by
  -- The scripted run is a play of the reader, and it ended well with a walk.
  have played := Script.exec_plays scripted (Sync.readSlot d ⟨false, false⟩) replies
  unfold walkedOf at run
  obtain ⟨walked, found, parts⟩ := Option.map_eq_some_iff.mp run
  obtain ⟨read, ended, walk⟩ := Option.bind_eq_some_iff.mp found
  obtain ⟨rfl, rfl⟩ := Prod.mk.inj parts
  cases outcome : ((Sync.readSlot d ⟨false, false⟩).exec scripted replies).1 with
  | error e => simp [outcome, Except.toOption] at ended
  | ok value =>
    rw [outcome] at played
    obtain rfl : value = read := by simpa [outcome, Except.toOption] using ended
    exact ⟨_, value, walked, played, walk, rfl, rfl⟩

/-- The record the device is pinned to, and the head over it. -/
def honestChain : List SlotRecord :=
  let one := recordIn 7 deviceSlot 1 2 (digest [9]) .casMerge
  [one, recordIn 7 deviceSlot 2 3 one.recordHash .casMerge]

/-- What is walked of a history that starts above the pin, and of one that starts at it. -/
theorem walks_evaluated :
    walkedOf (pinnedDevice (digest [5])) forkedReplies = some (0, [forkedHead]) ∧
      walkedOf (pinnedDevice (recordIn 7 deviceSlot 1 2 (digest [9]) .casMerge).recordHash)
        [.record (honestChain.getLast?.map sent), .records [], .records [],
          .records (honestChain.map sent)] = some (0, honestChain) := by
  constructor
  · decide +kernel
  · decide +kernel

/-- A peer that answers with a history starting above the pin gets past the walk. -/
theorem history_above_the_pin_passes :
    ¬Sync.FullWalksCover (pinnedDevice (digest [5])) ⟨false, false⟩ := by
  -- The one conversation is evaluated.
  intro cover
  have run := walks_evaluated.1
  obtain ⟨said, read, walked, played, walk, full, chain⟩ := plays_of_walkedOf run
  -- The pin is at sequence one, and the only record walked is at sequence two.
  obtain ⟨r, member, seq, _⟩ := (cover said read walked played walk full).pin ⟨1, some (digest [5])⟩
    (digest [5]) rfl rfl
  rw [chain, List.mem_singleton] at member
  rw [member] at seq
  exact absurd seq (by decide)

/-- A history that starts at the pin covers it. -/
theorem history_from_the_pin_covers :
    let one := recordIn 7 deviceSlot 1 2 (digest [9]) .casMerge
    ∃ said read walked,
      (Sync.readSlot (pinnedDevice one.recordHash) ⟨false, false⟩).Plays said (.ok read) ∧
        read.walked = some walked ∧ walked.skipped = 0 ∧
        Sync.Covers walked.chain (pinnedDevice one.recordHash).pin read.witnessed := by
  -- The walk is evaluated and starts at the pin, so the theorem applies to it.
  intro one
  have run : walkedOf (pinnedDevice one.recordHash)
      [.record (honestChain.getLast?.map sent), .records [], .records [],
        .records (honestChain.map sent)] = some (0, honestChain) := walks_evaluated.2
  obtain ⟨said, read, walked, played, walk, full, chain⟩ := plays_of_walkedOf run
  refine ⟨said, read, walked, played, walk, full, ?_⟩
  refine (Sync.full_walk_covers_memory_iff _ _ said read walked played walk full).mpr ?_
  intro first start
  rw [chain] at start
  obtain rfl : one = first := by simpa [honestChain] using start
  refine ⟨?_, ?_⟩
  · intro p want held _
    obtain rfl : (⟨1, some one.recordHash⟩ : Device.Pin) = p := by
      simpa [pinnedDevice, device] using held
    exact UInt64.le_refl _
  · -- No witness node was asked, so nothing was witnessed.
    obtain ⟨_, _, _, _, _, _, _, _, _, ⟨_, asked⟩, _⟩ := Sync.readSlot_walked played walk
    simp only [Sync.askWitness, Script.plays_done, Except.ok.injEq] at asked
    simp [Sync.SlotRead.witnessed, asked.2]

end

end NasTools
