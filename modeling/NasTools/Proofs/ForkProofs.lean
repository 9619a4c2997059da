import NasTools.Proofs.ForkEvidence

/-!
What a fork proof shows to someone without a roster: exactly which proofs verify, and
why they convince.
-/

namespace NasTools

/-- One history: what the record of each sequence is called, and what it names below itself. -/
structure Trunk where
  recordHash : UInt64 → Digest
  prev : UInt64 → Digest
  linked : ∀ lower upper : UInt64, upper.toNat = lower.toNat + 1 → prev upper = recordHash lower

/-- A witness says of its sequence what the history has there. -/
def Trunk.Agrees (h : Trunk) (w : Witness) : Prop :=
  w.recordHash = h.recordHash w.seq ∧ w.prev = h.prev w.seq

namespace ForkProof

section

variable [Crypto]

/-- Every witness in a proof. -/
def witnesses (p : ForkProof) : List Witness := p.a :: p.b :: p.link

/-- A witness of the proof's slot, under its own signature. -/
def Vouches (p : ForkProof) (w : Witness) : Prop := w.slotId = p.slotId ∧ w.verify = .ok ()

/--
The link leads from the higher witness down to the lower one's sequence, and misses its record.
-/
structure StepsDown (p : ForkProof) : Prop where
  above : p.seq < p.b.seq
  short : p.link.length ≤ maxLink
  -- One witness for each sequence strictly between the two.
  spans : p.b.seq.toNat = p.seq.toNat + p.link.length + 1
  places : ∀ i w, p.link[i]? = some w → w.seq.toNat + i + 1 = p.b.seq.toNat
  -- Each is the record that the one above it names.
  named : (p.b :: p.link).IsChain fun upper lower => lower.recordHash = upper.prev
  misses : (p.link.getLastD p.b).prev ≠ p.a.recordHash

variable {p : ForkProof}

/-- A witness verifies if there is no error. -/
theorem isOk_verify_iff {w : Witness} : w.verify.isOk = true ↔ w.verify = .ok () := by
  cases w.verify <;> simp [Except.isOk, Except.toBool]

/--
From above the lower witness, re-walking a link succeeds exactly when it steps down
to it and misses.
-/
theorem rewalk_iff {upper : Witness} {link : List Witness} {seq : UInt64}
    (above : p.seq.toNat ≤ seq.toNat) :
    p.rewalk link upper.prev seq = true ↔
      seq.toNat = p.seq.toNat + link.length ∧ (∀ w ∈ link, p.Vouches w) ∧
        (∀ i w, link[i]? = some w → w.seq.toNat + i = seq.toNat) ∧
        (upper :: link).IsChain (fun upper lower => lower.recordHash = upper.prev) ∧
        (link.getLastD upper).prev ≠ p.a.recordHash := by
  -- The countdown passes from each witness to the next, which then is the upper one.
  induction link generalizing upper seq with
  | nil =>
    simp only [ForkProof.rewalk, Bool.and_eq_true, beq_iff_eq, bne_iff_ne, ne_eq, List.length_nil,
      Nat.add_zero, List.getElem?_nil, List.not_mem_nil, List.getLastD_nil]
    constructor
    · intro arrives
      obtain ⟨rfl, missed⟩ := arrives
      -- There is no witness in an empty link to be asked of.
      refine ⟨rfl, ?_, ?_, .singleton _, missed⟩
      · intro w member
        cases member
      · intro i w member
        cases member
    · intro down
      obtain ⟨arrived, _, _, _, missed⟩ := down
      exact ⟨UInt64.toNat_inj.mp arrived, missed⟩
  | cons w rest ih =>
    unfold ForkProof.rewalk
    rw [List.length_cons]
    split
    · -- The countdown is over, and the link is not.
      rename_i arrived
      constructor
      · intro impossible
        cases impossible
      · intro down
        obtain ⟨spans, _⟩ := down
        rw [arrived] at spans
        omega
    rename_i notYet
    have higher : p.seq.toNat < seq.toNat := by
      have other : p.seq.toNat ≠ seq.toNat := fun same => notYet (UInt64.toNat_inj.mp same.symm)
      omega
    -- Above the lower witness the countdown is at least one, so subtracting does not wrap.
    have below := SlotClient.pred_toNat (s := seq) (by omega)
    split
    · rename_i refused
      constructor
      · intro impossible
        cases impossible
      · -- Each of the four refusals contradicts what the link has to be.
        intro down
        obtain ⟨_, vouched, places, named, _⟩ := down
        obtain ⟨slot, verified⟩ := vouched w (by simp)
        have place := places 0 w rfl
        rcases refused with wrongSlot | wrongSeq | wrongHash | unsigned
        · exact absurd slot wrongSlot
        · exact absurd (UInt64.toNat_inj.mp place) wrongSeq
        · exact absurd (List.isChain_cons_cons.mp named).1 wrongHash
        · exact absurd (isOk_verify_iff.mpr verified) unsigned
    · -- The witness is as the countdown wants it, and what is left is a shorter link below it.
      rename_i passed
      simp only [not_or, not_not] at passed
      obtain ⟨slot, place, named, verified⟩ := passed
      rw [ih (by omega), List.isChain_cons_cons, List.getLastD_cons]
      constructor
      · intro down
        obtain ⟨spans, vouched, places, chained, missed⟩ := down
        refine ⟨by omega, ?_, ?_, ⟨named, chained⟩, missed⟩
        · intro v member
          rcases List.mem_cons.mp member with rfl | later
          · exact ⟨slot, isOk_verify_iff.mp verified⟩
          · exact vouched v later
        · -- Places are counted from the upper end, so each moves down by one.
          intro i v found
          cases i with
          | zero =>
            obtain rfl : w = v := by simpa using found
            rw [place]
            rfl
          | succ i =>
            have deeper := places i v (by simpa using found)
            omega
      · intro down
        obtain ⟨spans, vouched, places, ⟨_, chained⟩, missed⟩ := down
        refine ⟨by omega, ?_, ?_, chained, missed⟩
        · intro v later
          exact vouched v (List.mem_cons_of_mem _ later)
        · intro i v found
          have deeper := places (i + 1) v (by simpa using found)
          omega

/--
A proof verifies exactly when its witnesses vouch for two records where one history
has room for one.
-/
theorem verify_iff : p.verify = true ↔
    (∀ w ∈ p.witnesses, p.Vouches w) ∧ p.a.seq = p.seq ∧
      ((p.b.seq = p.seq ∧ p.b.recordHash ≠ p.a.recordHash ∧ p.link = []) ∨ p.StepsDown) := by
  -- The checks of the proof, in the order they are made.
  unfold ForkProof.verify
  split
  · -- One of the two is about another slot.
    rename_i stray
    constructor
    · intro impossible
      cases impossible
    · intro proof
      obtain ⟨vouched, _⟩ := proof
      rcases stray with wrong | wrong
      · exact absurd (vouched p.a (by simp [witnesses])).1 wrong
      · exact absurd (vouched p.b (by simp [witnesses])).1 wrong
  rename_i slots
  simp only [not_or, ne_eq, not_not] at slots
  split
  · -- The lower witness is not at the sequence of the proof, or one of the two is not signed.
    rename_i unsound
    constructor
    · intro impossible
      cases impossible
    · intro proof
      obtain ⟨vouched, seq, _⟩ := proof
      rcases unsound with wrong | wrong | wrong
      · exact absurd seq wrong
      · exact absurd (isOk_verify_iff.mpr (vouched p.a (by simp [witnesses])).2) wrong
      · exact absurd (isOk_verify_iff.mpr (vouched p.b (by simp [witnesses])).2) wrong
  rename_i sound
  simp only [not_or, ne_eq, not_not] at sound
  obtain ⟨seq, aVerified, bVerified⟩ := sound
  have ends : p.Vouches p.a ∧ p.Vouches p.b :=
    ⟨⟨slots.1, isOk_verify_iff.mp aVerified⟩, slots.2, isOk_verify_iff.mp bVerified⟩
  -- The two ends are checked by now, so only the link is left to vouch.
  have all : (∀ w ∈ p.witnesses, p.Vouches w) ↔ ∀ w ∈ p.link, p.Vouches w := by
    simp [witnesses, ends]
  rw [all]
  split
  · -- Both stand at one sequence, so there is nothing to step through.
    rename_i level
    simp only [Bool.and_eq_true, List.isEmpty_iff, bne_iff_ne, ne_eq]
    constructor
    · intro beside
      obtain ⟨empty, other⟩ := beside
      exact ⟨by simp [empty], seq, .inl ⟨level, fun same => other same.symm, empty⟩⟩
    · intro rivals
      obtain ⟨_, _, ⟨_, other, empty⟩ | stepped⟩ := rivals
      · exact ⟨empty, fun same => other same.symm⟩
      · have above := stepped.above
        rw [level] at above
        exact absurd above (UInt64.lt_irrefl _)
  rename_i apart
  split
  · -- The higher witness is below the lower one, or the link is longer than any that is published.
    rename_i refused
    constructor
    · intro impossible
      cases impossible
    · intro rivals
      obtain ⟨_, _, ⟨level, _⟩ | stepped⟩ := rivals
      · exact absurd level apart
      · rcases refused with lower | long
        · exact absurd lower (UInt64.not_lt.mpr (UInt64.le_of_lt stepped.above))
        · exact absurd stepped.short (by omega)
  · rename_i room
    rw [not_or, UInt64.not_lt] at room
    have above : p.seq < p.b.seq := UInt64.lt_of_le_of_ne room.1 fun same => apart same.symm
    have higher := UInt64.lt_iff_toNat_lt.mp above
    have below := SlotClient.pred_toNat (s := p.b.seq) (by omega)
    -- The re-walk starts one below the higher witness, where its first link has to stand.
    rw [rewalk_iff (by omega), below]
    constructor
    · intro down
      obtain ⟨spans, vouched, places, named, missed⟩ := down
      refine ⟨vouched, seq, .inr ⟨above, by omega, by omega, ?_, named, missed⟩⟩
      intro i w found
      have place := places i w found
      omega
    · intro rivals
      obtain ⟨vouched, _, ⟨level, _⟩ | stepped⟩ := rivals
      · exact absurd level apart
      · have spans := stepped.spans
        refine ⟨by omega, vouched, ?_, stepped.named, stepped.misses⟩
        intro i w found
        have place := stepped.places i w found
        omega

end

/-- No one history agrees with a proof whose two ends stand side by side on different records. -/
theorem StepsDown.convinces [Crypto] {p : ForkProof} (stepped : p.StepsDown) (seq : p.a.seq = p.seq)
    (h : Trunk) (agrees : ∀ w ∈ p.witnesses, h.Agrees w) : False := by
  -- Whatever the link says in between, its last witness stands one above the lower end.
  have last : p.link.getLastD p.b ∈ p.witnesses ∧
      (p.link.getLastD p.b).seq.toNat = p.seq.toNat + 1 := by
    have spans := stepped.spans
    cases linked : p.link.getLast? with
    -- With an empty link the higher witness is itself the last one, one above the lower.
    | none =>
      rw [List.getLastD_eq_getLast?, linked]
      rw [List.getLast?_eq_none_iff] at linked
      rw [linked, List.length_nil] at spans
      exact ⟨by simp [witnesses], by simpa using spans⟩
    | some w =>
      rw [List.getLastD_eq_getLast?, linked, Option.getD_some]
      have member := List.mem_of_getLast? linked
      rw [List.getLast?_eq_getElem?] at linked
      have place := stepped.places _ w linked
      have some_ := List.length_pos_of_mem member
      exact ⟨by simp [witnesses, member], by omega⟩
  obtain ⟨member, height⟩ := last
  -- What the last witness names below itself is what the history has at the sequence of the proof.
  have edge := (agrees _ member).2
  have record := (agrees p.a (by simp [witnesses])).1
  rw [h.linked p.seq _ height] at edge
  rw [seq] at record
  exact stepped.misses (edge.trans record.symm)

/--
A proof that verifies fits no single history, and exactly the well-formed proofs verify.

Well-formed is a proof whose witnesses all verify and name its slot, whose lower witness is at its
sequence, and whose higher one is at the same sequence on another record, or linked down past it.
-/
theorem fork_proof_is_sound_and_exact [Crypto] (p : ForkProof) :
    (p.verify = true → ¬∃ h : Trunk, ∀ w ∈ p.witnesses, h.Agrees w) ∧
      (p.verify = true ↔
        (∀ w ∈ p.witnesses, p.Vouches w) ∧ p.a.seq = p.seq ∧
          ((p.b.seq = p.seq ∧ p.b.recordHash ≠ p.a.recordHash ∧ p.link = []) ∨ p.StepsDown)) := by
  -- Exactness is the characterisation of `verify`, and soundness follows from it.
  refine ⟨?_, verify_iff⟩
  intro verified trunk
  obtain ⟨h, agrees⟩ := trunk
  obtain ⟨_, seq, ⟨level, other, _⟩ | stepped⟩ := verify_iff.mp verified
  · -- One history has one record at one sequence.
    have below := (agrees p.a (by simp [witnesses])).1
    have above := (agrees p.b (by simp [witnesses])).1
    rw [level, ← seq, ← below] at above
    exact other above
  · exact stepped.convinces seq h agrees

end ForkProof

end NasTools
