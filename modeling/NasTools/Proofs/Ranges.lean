import NasTools.Model.Peer.SlotHistory
import NasTools.Model.Transfer.Server

/-! Reading a slot from a sequence on: what a range up to the head serves, and where it panics. -/

namespace NasTools

section

variable [Crypto]

namespace Peer

variable {p : Peer} {slot : SlotId} {start : UInt64}

/-- The head that an honest peer shows is its last record. -/
theorem slotHead_eq (honest : p.hostility = .honest) (slot : SlotId) :
    p.slotHead slot = (p.recordsOf slot).getLast? := by
  -- An honest peer has one branch for everybody, which is the history itself.
  unfold slotHead branch recordsOf
  rw [honest, Std.ExtTreeMap.getD_eq_getD_getElem?]
  cases p.slots[slot]? <;> simp [Hostility.honest, OrdMap.last?]

/-- No key of a history in order lies above the sequence of its last record. -/
theorem WellChained.le_last {history : History} (well : WellChained history) {k : UInt64}
    {r top : SlotRecord} (filed : history[k]? = some r) (last : history.last? = some top) :
    k ≤ top.seq := by
  -- The last record stands in the last entry of the map.
  rw [OrdMap.last?_eq] at last
  -- The last record stands under the largest key, and records stand under their own sequences.
  obtain ⟨⟨key, _⟩, entry, rfl⟩ := Option.map_eq_some_iff.mp last
  have found := Std.ExtTreeMap.mem_toList_iff_getElem?_eq_some.mp (List.mem_of_getLast? entry)
  have topKey : history.lastKey? = some key := by
    rw [OrdMap.lastKey?_eq, entry]
    rfl
  have present : k ∈ history := Std.ExtTreeMap.mem_iff_isSome_getElem?.mpr (by simp [filed])
  have notAbove := OrdMap.le_lastKey? topKey present
  rw [well.filed key _ found]
  by_contra above
  have higher : compare key k = .lt :=
    u64_compare_lt (by simpa [UInt64.le_iff_toNat_le] using above)
  exact notAbove (Std.OrientedCmp.gt_iff_lt.mpr higher)

/-- Up to the head, a range takes in the records from its start on. -/
theorem WellChained.listedWhere_eq {history : History} (well : WellChained history)
    (start : UInt64) :
    (history.listedWhere fun k => start ≤ k && k ≤ (history.last?.map SlotRecord.seq).getD u64Max) =
      history.listed.filter fun r => start ≤ r.seq := by
  -- Both are filtered listings of the same map.
  rw [OrdMap.listedWhere, OrdMap.listed, List.filter_map]
  congr 1
  -- Entry by entry both keep the same, since none lies above the head.
  apply List.filter_congr
  intro entry listed
  obtain ⟨k, r⟩ := entry
  have filed := Std.ExtTreeMap.mem_toList_iff_getElem?_eq_some.mp listed
  have below : k ≤ (history.last?.map SlotRecord.seq).getD u64Max := by
    cases last : history.last? with
    | none =>
      -- Without a last record nothing is listed.
      rw [OrdMap.last?_eq, Option.map_eq_none_iff, List.getLast?_eq_none_iff] at last
      simp [last] at listed
    | some top => exact well.le_last filed last
  simp [below, well.filed k r filed]

/-- The records of a slot stand in ascending order. -/
theorem WellChained.ascending {history : History} (well : WellChained history) :
    history.listed.Pairwise fun a b => a.seq < b.seq := by
  -- The list has the records in the order of their keys.
  rw [List.pairwise_iff_getElem]
  -- A record's sequence is its place in the list.
  intro i j inI inJ before
  rw [UInt64.lt_iff_toNat_lt, well.numbered i _ (List.getElem?_eq_getElem inI),
    well.numbered j _ (List.getElem?_eq_getElem inJ)]
  exact before

/--
What a range of an honest peer's slot serves: all records from its start, unless it
starts above the head.
-/
theorem slotHistory_from (sound : p.Sound) (slot : SlotId) (start : UInt64) :
    p.slotHistory slot start =
      if ∀ head, p.slotHead slot = some head → start ≤ head.seq then
        some ((p.recordsOf slot).filter fun r => start ≤ r.seq)
      else none := by
  -- The slot has records or it has none.
  have well := sound.2 slot
  have head := slotHead_eq sound.1 slot
  unfold slotHistory branch
  rw [sound.1, head]
  unfold recordsOf
  rw [Std.ExtTreeMap.getD_eq_getD_getElem?] at well ⊢
  cases held : p.slots[slot]? with
  -- A slot without records is answered with nothing, whatever the start.
  | none => simp [Hostility.honest]
  | some history =>
    rw [held, Option.getD_some] at well
    have range := well.listedWhere_eq start
    -- The upper bound is the head's own sequence, so the range is upside down only above it.
    have reaches : (history.last?.map SlotRecord.seq).getD u64Max < start ↔
        ¬∀ head, history.last? = some head → start ≤ head.seq := by
      cases history.last? with
      | none =>
        have bound := start.toNat_lt
        simp [u64Max, UInt64.lt_iff_toNat_lt]
        omega
      | some top => simp
    simp only [Hostility.honest, Bool.false_eq_true, false_and, if_false, Option.getD_some]
    by_cases above : (history.last?.map SlotRecord.seq).getD u64Max < start
    · -- The range would end before it starts, which is the panic.
      exact (if_pos above).trans (if_neg (reaches.mp above)).symm
    · have within := not_not.mp fun short => above (reaches.mpr short)
      exact (if_neg above).trans ((congrArg some range).trans (if_pos within).symm)

/-- A range from zero up to the head takes in the whole history. -/
theorem slotHistory_eq (sound : p.Sound) (slot : SlotId) :
    p.slotHistory slot 0 = some (p.recordsOf slot) := by
  have low (k : UInt64) : 0 ≤ k := by simp [UInt64.le_iff_toNat_le]
  rw [slotHistory_from sound]
  refine (if_pos fun (head : SlotRecord) _ => low head.seq).trans ?_
  simp [low]

/-- A slot answers for a sequence: every record from there on, in ascending order. -/
def ServesFrom (p : Peer) (slot : SlotId) (start : UInt64) : Prop :=
  ∃ records, p.slotHistory slot start = some records ∧
    records = ((p.recordsOf slot).filter fun r => start ≤ r.seq) ∧
      records.Pairwise fun a b => a.seq < b.seq

/--
In every run of an honest peer, a slot answers exactly for the sequences up to its head.

A slot without records answers for every sequence. A sequence above the head makes the range upside
down, and there is no answer at all, where the empty list would be the right one.
-/
theorem history_is_served_iff (noZero : NoZeroDigest) (mode : Mode) (addressing : Addressing)
    (ops : List PeerOp) (slot : SlotId) (start : UInt64) :
    (peer.run (Peer.new mode addressing .honest) ops).ServesFrom slot start ↔
      ∀ head, (peer.run (Peer.new mode addressing .honest) ops).slotHead slot = some head →
        start ≤ head.seq := by
  -- The history is served as a whole from the sequence on, unless the range is inverted.
  have sound := run_sound noZero (sound_new mode addressing) ops
  unfold ServesFrom
  rw [slotHistory_from sound]
  constructor
  · intro served
    obtain ⟨records, served, _⟩ := served
    by_contra above
    rw [if_neg above] at served
    cases served
  · intro within
    refine ⟨_, if_pos within, rfl, ?_⟩
    exact (sound.2 slot).ascending.filter _

end Peer

end

section

open Concrete

/-- One writer is let in, and publishes the first record of a slot. -/
def firstRecordOps : List PeerOp :=
  [.addWriter (identity 7).verifyingKey, .setAcl (Acl.empty.grant "laptop" [.write]),
    .publishSlot (.ok ()) "laptop" (record 7 1 0 2 Digest.zero .casMerge)]

/-- Whoever asks for what comes after the only record gets no answer, and the peer panics. -/
theorem range_above_the_head_panics :
    ¬(peer.run (Peer.new .e2ee .content .honest) firstRecordOps).ServesFrom (slot 1) 1 ∧
      (handleAt (peer.run (Peer.new .e2ee .content .honest) firstRecordOps) (.ok ()) "laptop" 5
        (.slotHistory (slot 1) 1)).1 = none := by
  -- The answer is evaluated, and it is none.
  have panics : (peer.run (Peer.new .e2ee .content .honest) firstRecordOps).slotHistory (slot 1) 1 =
      none := by
    decide +kernel
  constructor
  · intro serves
    obtain ⟨records, served, _⟩ := serves
    rw [panics] at served
    cases served
  · decide +kernel

/-- From the first record on the same slot answers. -/
theorem first_record_is_served :
    (peer.run (Peer.new .e2ee .content .honest) firstRecordOps).ServesFrom (slot 1) 0 := by
  refine (Peer.history_is_served_iff noZeroDigest .e2ee .content firstRecordOps (slot 1) 0).mpr ?_
  intro head _
  simp [UInt64.le_iff_toNat_le]

end

end NasTools
