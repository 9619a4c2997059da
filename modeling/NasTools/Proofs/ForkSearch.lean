import NasTools.Proofs.Alarms

/-!
What the search for a fork comes to: the least place where evidence parts, and the proof made of it.
-/

namespace NasTools

namespace SlotClient

section

variable [Crypto] {c : SlotClient}

/-- The evidence held is of two histories at a sequence, in one of the three ways it can be. -/
def TornAt (c : SlotClient) (s : UInt64) : Prop :=
  Split c.evidence s ∨ Split c.recordEvidence s ∨
    ∃ low ∈ c.witnesses, ∃ high ∈ c.witnesses, low.seq = s ∧ Parts low high

/--
The sequence reported is at or below a given one exactly when the evidence is torn there or below.
-/
theorem forked_namedBy_iff {s : UInt64} : NamedBy s c.forked ↔ ∃ k ≤ s, c.TornAt k := by
  -- The search has a part for each way to be torn; each names a place at or below the given one.
  rw [forked_namedBy]
  constructor
  · intro found
    obtain ⟨k, below, split⟩ | ⟨k, below, split⟩ |
      ⟨low, lowKept, high, highKept, below, parts⟩ := found
    · exact ⟨k, below, .inl split⟩
    · exact ⟨k, below, .inr (.inl split)⟩
    · exact ⟨low.seq, below, .inr (.inr ⟨low, lowKept, high, highKept, rfl, parts⟩)⟩
  · intro tear
    obtain ⟨k, below, split | split | ⟨low, lowKept, high, highKept, rfl, parts⟩⟩ := tear
    · exact .inl ⟨k, below, split⟩
    · exact .inr (.inl ⟨k, below, split⟩)
    · exact .inr (.inr ⟨low, lowKept, high, highKept, below, parts⟩)

/-- What is reported is the least sequence at which the evidence is torn. -/
theorem forked_eq_some_iff {s : UInt64} : c.forked = some s ↔ IsLeast {k | c.TornAt k} s := by
  -- What is reported names a tear below it, and a tear is named by what is reported.
  constructor
  · intro reported
    obtain ⟨k, below, torn⟩ := forked_namedBy_iff.mp ⟨s, reported, UInt64.le_refl s⟩
    have least : ∀ j, c.TornAt j → s ≤ j := by
      intro j tornThere
      obtain ⟨t, named, lower⟩ := forked_namedBy_iff.mpr ⟨j, UInt64.le_refl j, tornThere⟩
      rw [reported, Option.some.injEq] at named
      rwa [named]
    -- The place found is at or below the one reported, and nothing is below that.
    have same : k = s := UInt64.le_antisymm below (least k torn)
    rw [same] at torn
    exact ⟨torn, least⟩
  · intro tear
    obtain ⟨torn, least⟩ := tear
    -- Something is reported at or below the least tear, and what is reported is a tear itself.
    obtain ⟨t, named, lower⟩ := forked_namedBy_iff.mpr ⟨s, UInt64.le_refl s, torn⟩
    obtain ⟨k, below, tornThere⟩ := forked_namedBy_iff.mp ⟨t, named, UInt64.le_refl t⟩
    have higher := UInt64.le_trans (least tornThere) below
    rw [named, UInt64.le_antisymm lower higher]

/-- Nothing is reported exactly when the evidence is torn nowhere. -/
theorem forked_eq_none_iff : c.forked = none ↔ ∀ s, ¬c.TornAt s := by
  -- A tear is always named, and what is named is a tear.
  constructor
  · intro nothing s torn
    obtain ⟨t, named, _⟩ := forked_namedBy_iff.mpr ⟨s, UInt64.le_refl s, torn⟩
    rw [nothing] at named
    cases named
  · intro whole
    cases reported : c.forked with
    | none => rfl
    | some s => exact absurd (forked_eq_some_iff.mp reported).1 (whole s)

/-- Two clients whose evidence is torn at the same places report the same. -/
theorem forked_congr {c' : SlotClient} (same : ∀ s, c.TornAt s ↔ c'.TornAt s) :
    c.forked = c'.forked := by
  -- The answer is the least tear or none, and both depend on the places alone.
  have places : {k | c.TornAt k} = {k | c'.TornAt k} := Set.ext same
  cases reported : c'.forked with
  | none =>
    rw [forked_eq_none_iff] at reported ⊢
    intro s torn
    exact reported s ((same s).mp torn)
  | some s =>
    rw [forked_eq_some_iff] at reported ⊢
    rwa [places]

omit [Crypto] in
/-- A hash is kept at its sequence, or there are two others already. -/
theorem kept_or_split (m : Evidence) (seq : UInt64) (hash : Digest) :
    hash ∈ hashesAt (addBounded m seq hash) seq ∨ Split m seq := by
  -- The hash is either added or turned away.
  unfold addBounded
  dsimp only
  split
  · left
    simp [hashesAt]
  · -- A hash is turned away only at a sequence that is full, and full is two hashes.
    rename_i full
    rw [not_or, Nat.not_lt] at full
    right
    rw [split_iff_size]
    exact full.1

/-- Two different hashes are known at a sequence: kept already, or among those to be added. -/
def SplitWith (m : Evidence) (shown : List (UInt64 × Digest)) (k : UInt64) : Prop :=
  ∃ a b, a ≠ b ∧ (a ∈ hashesAt m k ∨ (k, a) ∈ shown) ∧ (b ∈ hashesAt m k ∨ (k, b) ∈ shown)

omit [Crypto] in
/-- The bound on what is kept never hides that two hashes were shown. -/
theorem split_addAll_iff (m : Evidence) (shown : List (UInt64 × Digest)) (k : UInt64) :
    Split (addAll m shown) k ↔ SplitWith m shown k := by
  -- One hash is added at a time, to a map that grows.
  induction shown generalizing m with
  | nil => simp [addAll, Split, SplitWith]
  | cons entry rest ih =>
    obtain ⟨seq, hash⟩ := entry
    show Split (addAll (addBounded m seq hash) rest) k ↔ _
    rw [ih]
    constructor
    · intro two
      obtain ⟨a, b, other, aKnown, bKnown⟩ := two
      -- What is kept was kept before or is the one that was added.
      have known : ∀ h, (h ∈ hashesAt (addBounded m seq hash) k ∨ (k, h) ∈ rest) →
          h ∈ hashesAt m k ∨ (k, h) ∈ (seq, hash) :: rest := by
        rintro h (kept | later)
        · rcases of_mem_hashesAt_addBounded kept with old | ⟨rfl, rfl⟩
          · exact .inl old
          · exact .inr List.mem_cons_self
        · exact .inr (List.mem_cons_of_mem _ later)
      exact ⟨a, b, other, known a aKnown, known b bKnown⟩
    · intro two
      obtain ⟨a, b, other, aKnown, bKnown⟩ := two
      -- What was turned away makes no difference, since two others are kept then.
      by_cases already : Split m k
      · obtain ⟨x, y, apart, xKept, yKept⟩ := already
        exact ⟨x, y, apart, .inl (mem_hashesAt_addBounded xKept seq hash),
          .inl (mem_hashesAt_addBounded yKept seq hash)⟩
      have known : ∀ h, (h ∈ hashesAt m k ∨ (k, h) ∈ (seq, hash) :: rest) →
          h ∈ hashesAt (addBounded m seq hash) k ∨ (k, h) ∈ rest := by
        rintro h (kept | shown)
        · exact .inl (mem_hashesAt_addBounded kept seq hash)
        · rcases List.mem_cons.mp shown with here | later
          · obtain ⟨place, same⟩ := Prod.mk.inj here
            rw [← place, ← same]
            rcases kept_or_split m k h with kept | split
            · exact .inl kept
            · exact absurd split already
          · exact .inr later
      exact ⟨a, b, other, known a aKnown, known b bKnown⟩

/-- What a relay of witnesses leaves of the two maps: the hashes of the admitted ones are added. -/
theorem relayed_evidence (ws : List Witness) (c : SlotClient) :
    (slotClient.run c (relayed ws)).evidence = c.evidence ∧
      (slotClient.run c (relayed ws)).recordEvidence =
        addAll c.recordEvidence ((ws.filter fun w => c.Admits w).map fun w => (w.seq,
          w.recordHash)) := by
  -- Induction over the witnesses, each of which is admitted or not.
  induction ws generalizing c with
  | nil => exact ⟨rfl, rfl⟩
  | cons w rest ih =>
    obtain ⟨_, sigs, hashes, _⟩ := observeWitness_leaves (c := c) w
    obtain ⟨evidence, recordEvidence⟩ := ih (c.observeWitness w).2
    -- A witness changes neither the roster nor the slot, so the gates stay where they are.
    have gates : ∀ v, (c.observeWitness w).2.Admits v ↔ c.Admits v :=
      fun v => observeWitness_admits w v
    have sameGates : (rest.filter fun v => (c.observeWitness w).2.Admits v) =
        rest.filter fun v => c.Admits v := by
      simp [gates]
    constructor
    · show (slotClient.run (c.observeWitness w).2 (relayed rest)).evidence = _
      rw [evidence, sigs]
      rfl
    · show (slotClient.run (c.observeWitness w).2 (relayed rest)).recordEvidence = _
      rw [recordEvidence, hashes, sameGates, List.filter_cons]
      by_cases admits : c.Admits w <;> simp [admits, shownHashes, shownRecords, admitted, addAll]

/-- The same witnesses, relayed in another order, tear the evidence at the same places. -/
theorem relayed_torn {ws ws' : List Witness} (reordered : ws.Perm ws')
    (room : c.witnesses.length + (ws.filter fun w => c.Admits w).length ≤ maxWitnesses)
    (s : UInt64) :
    (slotClient.run c (relayed ws)).TornAt s ↔ (slotClient.run c (relayed ws')).TornAt s := by
  -- The two relays admit the same witnesses.
  have admitted := reordered.filter fun w => c.Admits w
  have start : c.witnesses.length ≤ maxWitnesses := by omega
  -- Everything relayed is kept, so the two clients keep the same witnesses.
  have kept : ∀ w, w ∈ (slotClient.run c (relayed ws)).witnesses ↔
      w ∈ (slotClient.run c (relayed ws')).witnesses := by
    intro w
    rw [relayed_witnesses ws c start, relayed_witnesses ws' c start,
      List.take_of_length_le (by rw [List.length_append]; exact room),
      List.take_of_length_le (by rw [List.length_append, ← admitted.length_eq]; exact room),
      List.mem_append, List.mem_append, admitted.mem_iff]
  have hashes : ∀ m : Evidence, ∀ k,
      Split (addAll m ((ws.filter fun w => c.Admits w).map fun w => (w.seq, w.recordHash))) k ↔
        Split
          (addAll m ((ws'.filter fun w => c.Admits w).map fun w => (w.seq, w.recordHash))) k := by
    intro m k
    have shown := admitted.map fun w : Witness => (w.seq, w.recordHash)
    simp only [split_addAll_iff, SplitWith, shown.mem_iff]
  unfold TornAt
  simp only [(relayed_evidence ws c).1, (relayed_evidence ws' c).1, (relayed_evidence ws c).2,
    (relayed_evidence ws' c).2, hashes, kept]

/--
What a client reports is the least sequence at which its evidence is torn, and
nothing if there is none.

So neither the order in which it keeps its witnesses matters, nor the order in which they came.
-/
theorem forked_is_the_least_tear (slotId : SlotId) (regime : Regime) (anchor : Anchor)
    (ops : List ClientOp) :
    let c := slotClient.run (new slotId regime anchor) ops
    (∀ s, c.forked = some s ↔ IsLeast {k | c.TornAt k} s) ∧ (c.forked = none ↔ ∀ s, ¬c.TornAt s) ∧
      (∀ ws, ws.Perm c.witnesses → { c with witnesses := ws }.forked = c.forked) ∧
      ∀ ws ws', ws.Perm ws' →
        c.witnesses.length + (ws.filter fun w => c.Admits w).length ≤ maxWitnesses →
        (slotClient.run c (relayed ws)).forked = (slotClient.run c (relayed ws')).forked := by
  -- Each part rests on one fact: the answer depends on the tears alone.
  intro c
  refine ⟨fun s => forked_eq_some_iff, forked_eq_none_iff, ?_, ?_⟩
  · -- Being torn asks which witnesses are kept, and not where they stand.
    intro ws reordered
    refine forked_congr ?_
    intro s
    simp only [TornAt, reordered.mem_iff]
  · intro ws ws' reordered room
    exact forked_congr (relayed_torn reordered room)

/-- What is found is always one step wide, so that nothing has to be linked. -/
theorem link_of_witnessConflict {found : Conflict} (reported : c.witnessConflict = some found) :
    found.2.2.2 = [] := by
  -- The search looks at the nearest pairs first.
  obtain ⟨_, highKept, place, reached, walked, missed⟩ := witnessConflict_shows reported
  -- A longer walk ends on a witness one above, which parts from the lower one by itself.
  obtain ⟨w, wKept, height, named⟩ := walkTo_last highKept walked
  have parts : Parts found.2.1 w := ⟨height, by rwa [named]⟩
  obtain ⟨best, same, lower | ⟨_, close⟩⟩ :=
    witnessConflict_foundNear (witnessConflict_shows reported).lowKept wKept parts
  · rw [reported, Option.some.injEq] at same
    rw [← same, place] at lower
    exact absurd lower (UInt64.lt_irrefl _)
  · rw [reported, Option.some.injEq] at same
    rw [← same, UInt64.le_iff_toNat_le] at close
    have above : found.2.1.seq.toNat < found.2.2.1.seq.toNat := by
      unfold walkTo at walked
      split at walked
      · cases walked
      · rename_i ahead
        rw [not_or, ge_iff_le, UInt64.not_le, UInt64.lt_iff_toNat_lt] at ahead
        exact ahead.1
    rw [walkTo_near (by omega), Option.some.injEq, Prod.mk.injEq] at walked
    exact walked.1.symm

/-- A proof of two witnesses of one sequence is made of witnesses that are kept. -/
theorem sameSeqProof_of {ws : List Witness} {p : ForkProof} (made : sameSeqProof ws = some p) :
    ∃ a ∈ ws, ∃ b ∈ ws, ForkProof.tryNew a b = some p := by
  -- The first witness is tried against all that come after it, and then the rest among themselves.
  induction ws with
  | nil => cases made
  | cons a rest ih =>
    rw [sameSeqProof] at made
    cases first : rest.findSome? (ForkProof.tryNew a) with
    | some q =>
      rw [first, Option.some_or, Option.some.injEq] at made
      obtain ⟨b, member, found⟩ := List.exists_of_findSome?_eq_some first
      rw [made] at found
      exact ⟨a, by simp, b, by simp [member], found⟩
    | none =>
      rw [first, Option.none_or] at made
      obtain ⟨x, xMember, y, yMember, found⟩ := ih made
      exact ⟨x, by simp [xMember], y, by simp [yMember], found⟩

/-- A proof of two witnesses of one sequence stands up to its own re-check. -/
theorem verify_of_tryNew {a b : Witness} {p : ForkProof} (made : ForkProof.tryNew a b = some p) :
    p = ⟨a.slotId, a.seq, a, b, []⟩ ∧ p.verify = true := by
  -- Past both tests the proof repeats what they have checked.
  unfold ForkProof.tryNew at made
  split at made
  · cases made
  rename_i conflict
  simp only [not_or, ne_eq, not_not] at conflict
  obtain ⟨slot, seq, other⟩ := conflict
  split at made
  · rename_i verified
    rw [Bool.and_eq_true] at verified
    rw [Option.some.injEq] at made
    subst made
    exact ⟨rfl, by simp [ForkProof.verify, slot, seq, verified.1, verified.2, other]⟩
  · cases made

/--
Every proof a client derives is of two witnesses it keeps, links nothing, and stands
up to its re-check.
-/
theorem forkProof_spec {p : ForkProof} (derived : c.forkProof = some p) :
    p.verify = true ∧ p.a ∈ c.witnesses ∧ p.b ∈ c.witnesses ∧ p.link = [] := by
  -- A proof comes from one of two searches.
  unfold forkProof at derived
  cases level : sameSeqProof c.witnesses with
  -- Two witnesses of one sequence are looked for first.
  | some q =>
    simp only [level, Option.some.injEq] at derived
    subst derived
    obtain ⟨a, aKept, b, bKept, made⟩ := sameSeqProof_of level
    obtain ⟨rfl, verified⟩ := verify_of_tryNew made
    exact ⟨verified, aKept, bKept, rfl⟩
  -- Only without such a pair is the search for linked ones used.
  | none =>
    simp only [level] at derived
    cases searched : c.witnessConflict with
    | none => simp [searched] at derived
    | some found =>
      simp only [searched] at derived
      have shown := witnessConflict_shows searched
      have empty := link_of_witnessConflict searched
      unfold ForkProof.tryLinked at derived
      split at derived
      · cases derived
      · dsimp only at derived
        split at derived
        · rename_i verified
          rw [Option.some.injEq] at derived
          subst derived
          exact ⟨verified, shown.lowKept, shown.highKept, empty⟩
        · cases derived

/-- The observers a client believes are never fewer after an operation. -/
theorem step_roster (op : ClientOp) :
    (slotClient.step c op).2.witnessRoster.Extends c.witnessRoster := by
  -- One kind of operation after the other.
  have same {c' : SlotClient} (is : c'.witnessRoster = c.witnessRoster) :
      c'.witnessRoster.Extends c.witnessRoster := by
    rw [is]
    exact .refl _
  cases op with
  | offer records roster =>
    refine same ?_
    show (c.offer records roster).2.witnessRoster = _
    unfold offer
    split
    · rfl
    split
    · rfl
    -- Whatever the verdict is, only the evidence and the pin change.
    dsimp only
    rw [observeRecords_eq]
    split
    · rfl
    · split <;> rfl
  | offerHeadOnly head roster =>
    refine same ?_
    show (c.offerHeadOnly head roster).2.witnessRoster = _
    unfold offerHeadOnly
    split
    · rfl
    dsimp only
    rw [observeRecords_eq]
    split
    · rfl
    · split <;> rfl
  | observe seq sigHash => exact same rfl
  | observeWitness w => exact same (observeWitness_roster w)
  | trustWitness key =>
    cases added : c.trustWitness key with
    | error e =>
      have kept : (slotClient.step c (.trustWitness key)).2 = c := by simp only [slotClient, added]
      exact same (congrArg witnessRoster kept)
    | ok c' =>
      have is : (slotClient.step c (.trustWitness key)).2 = c' := by simp only [slotClient, added]
      obtain ⟨roster, grown, rest⟩ := except_bind_eq_ok.mp added
      rw [except_pure_eq, Except.ok.injEq] at rest
      subst rest
      rw [is]
      exact Roster.add_extends grown

/-- A witness that passes the gates goes on to pass them. -/
theorem step_admits (op : ClientOp) {w : Witness} (admits : c.Admits w) :
    (slotClient.step c op).2.Admits w := by
  -- The three gates one by one.
  obtain ⟨slot, rostered, verified⟩ := admits
  -- The slot never changes and the observers only grow; the signature is the witness's own.
  refine ⟨slot.trans (step_leaves op).slot.symm, ?_, verified⟩
  rw [Roster.contains, Std.ExtTreeMap.contains_eq_isSome_getElem?, Option.isSome_iff_exists]
    at rostered ⊢
  obtain ⟨vk, found⟩ := rostered
  exact ⟨vk, step_roster op _ vk found⟩

/-- Every witness a client keeps passes the gates it has. -/
def AllAdmitted (c : SlotClient) : Prop := ∀ w ∈ c.witnesses, c.Admits w

/-- An operation keeps only witnesses that passed the gates. -/
theorem step_allAdmitted (op : ClientOp) (all : c.AllAdmitted) :
    (slotClient.step c op).2.AllAdmitted := by
  intro w member
  rcases mem_witnesses_step member with old | new
  · exact step_admits op (all w old)
  · exact step_admits op (admitted_genuine new).2.1

/-- A client keeps only admitted witnesses after any operations. -/
theorem run_allAdmitted (slotId : SlotId) (regime : Regime) (anchor : Anchor)
    (ops : List ClientOp) :
    (slotClient.run (new slotId regime anchor) ops).AllAdmitted :=
  Machine.run_invariant (P := AllAdmitted) (by simp [AllAdmitted, new]) Machine.permits_always
    fun _ op _ all => step_allAdmitted op all

/--
Every proof a client derives can be published: it verifies, and is made of two
admitted witnesses alone.

And where two witnesses kept conflict, at one sequence or as the search finds them, one is derived.
-/
theorem every_alarm_can_be_published (slotId : SlotId) (regime : Regime) (anchor : Anchor)
    (ops : List ClientOp) :
    let c := slotClient.run (new slotId regime anchor) ops
    (∀ p, c.forkProof = some p →
      p.verify = true ∧ (∀ w ∈ p.a :: p.b :: p.link, c.Admits w) ∧ p.link = []) ∧
      (∀ a ∈ c.witnesses, ∀ b ∈ c.witnesses, a.seq = b.seq → a.recordHash ≠ b.recordHash →
        c.forkProof.isSome) ∧
      (c.witnessConflict.isSome → c.forkProof.isSome) := by
  -- Every kept witness was admitted, so whatever is derived from them verifies.
  intro c
  have all : c.AllAdmitted := run_allAdmitted slotId regime anchor ops
  have genuine := (run_disciplined slotId regime anchor ops).genuine
  refine ⟨?_, ?_, ?_⟩
  · intro p derived
    obtain ⟨verified, aKept, bKept, empty⟩ := forkProof_spec derived
    refine ⟨verified, ?_, empty⟩
    intro w member
    simp only [empty, List.mem_cons, List.not_mem_nil, or_false] at member
    rcases member with rfl | rfl
    · exact all _ aKept
    · exact all _ bKept
  · -- Kept witnesses are genuine, so a proof that is tried on them verifies.
    intro a aKept b bKept level other
    exact (forkProof_isSome_iff genuine).mpr ⟨a, aKept, b, bKept, .inl ⟨level, other⟩⟩
  · intro found
    obtain ⟨conflict, searched⟩ := Option.isSome_iff_exists.mp found
    obtain ⟨low, lowKept, high, highKept, _, parts⟩ := (witnessConflict_shows searched).parts
    exact (forkProof_isSome_iff genuine).mpr ⟨low, lowKept, high, highKept, .inr parts⟩

end

end SlotClient

open Concrete in
/-- A client that was shown nothing reports nothing. -/
example : (SlotClient.new Digest.zero .casMerge ⟨0, Digest.zero⟩).forked = none := by decide +kernel

end NasTools
