import NasTools.Model.Peer.Run
import NasTools.Model.Slots.Concrete

/-! Slot histories on an honest peer: contiguous, linked, append-only, over every run. -/

namespace NasTools

section

variable [Crypto]

namespace Peer

variable {p : Peer}

/-- The records of a slot, in order. -/
def recordsOf (p : Peer) (slot : SlotId) : List SlotRecord := (p.slots.getD slot ∅).listed

/-- Contiguous from zero, each record filed under its own sequence and linked to the one before. -/
structure WellChained (h : History) : Prop where
  filed : ∀ k (r : SlotRecord), h[k]? = some r → r.seq = k
  numbered : ∀ i (r : SlotRecord), h.listed[i]? = some r → r.seq.toNat = i
  linked : h.listed.IsChain fun a b => b.prev = a.recordHash

/-- Every history of the peer is in order. -/
def HistoriesOk (p : Peer) : Prop := ∀ slot, WellChained (p.slots.getD slot ∅)

/-- A history with nothing in it is in order. -/
theorem wellChained_empty : WellChained (∅ : History) where
  filed k r found := by simp at found
  numbered i r found := by simp [OrdMap.listed] at found
  linked := by simp [OrdMap.listed]

/-- The head of a slot is the last entry of its history. -/
theorem headOf_eq (slot : SlotId) : p.headOf slot = (p.slots.getD slot ∅).toList.getLast? := by
  -- The head is the entry under the last key.
  unfold headOf
  rw [Std.ExtTreeMap.getD_eq_getD_getElem?]
  cases p.slots[slot]? with
  | none => simp
  | some history =>
    simp only [Option.bind_eq_bind, Option.bind_some, Option.getD_some, OrdMap.lastKey?_eq]
    cases last : history.toList.getLast? with
    | none => rfl
    | some entry =>
      -- The last entry is in the map, so looking its key up finds its value.
      have found := Std.ExtTreeMap.mem_toList_iff_getElem?_eq_some.mp (List.mem_of_getLast? last)
      simp [found]

omit [Crypto] in
/-- The last record of a non-empty list stands at its last index. -/
private theorem last_index {records : List SlotRecord} {r : SlotRecord}
    (last : records.getLast? = some r) : records[records.length - 1]? = some r := by
  rw [← List.getLast?_eq_getElem?]
  exact last

/--
What the peer's checks say of a record about to be filed: it takes the next free sequence.

The sequence after the greatest `u64` would be zero, and the genesis rule keeps it out.
-/
theorem next_sequence (noZero : NoZeroDigest) {rec : SlotRecord}
    (well : WellChained (p.slots.getD rec.slotId ∅))
    (genesis : rec.seq = 0 ↔ rec.prev = Digest.zero) (next : p.checkNext rec = .ok ()) :
    rec.seq.toNat = (p.recordsOf rec.slotId).length ∧
      ∀ prior, (p.recordsOf rec.slotId).getLast? = some prior → rec.prev = prior.recordHash := by
  -- Either nothing is there and the record is the first, or it follows the head.
  unfold checkNext at next
  rw [headOf_eq] at next
  have listed : (p.recordsOf rec.slotId).getLast? =
      (p.slots.getD rec.slotId ∅).toList.getLast?.map Prod.snd := by
    rw [recordsOf, OrdMap.listed, List.getLast?_map]
  cases last : (p.slots.getD rec.slotId ∅).toList.getLast? with
  | none =>
    simp only [last, ensure_eq_ok] at next
    rw [last, Option.map_none] at listed
    have none : p.recordsOf rec.slotId = [] := List.getLast?_eq_none_iff.mp listed
    simp [none, next]
  | some entry =>
    obtain ⟨head, prior⟩ := entry
    simp only [last, except_bind_eq_ok, ensure_eq_ok] at next
    obtain ⟨_, seq, _, link, _⟩ := next
    rw [last, Option.map_some] at listed
    have found := Std.ExtTreeMap.mem_toList_iff_getElem?_eq_some.mp (List.mem_of_getLast? last)
    have priorSeq : prior.seq = head := well.filed head prior found
    have place := well.numbered _ prior (last_index listed)
    -- Were the head at the greatest sequence, the record would be a genesis with a predecessor.
    have room : head.toNat + 1 < 2 ^ 64 := by
      by_contra full
      have wraps : rec.seq = 0 := by
        apply UInt64.toNat_inj.mp
        have := head.toNat_lt
        rw [seq, UInt64.toNat_add]
        simp
        omega
      exact recordHash_ne_zero noZero prior (by rw [← link]; exact genesis.mp wraps)
    refine ⟨?_, ?_⟩
    · have some : 0 < (p.recordsOf rec.slotId).length := by
        cases empty : p.recordsOf rec.slotId with
        | nil => simp [empty] at listed
        | cons => simp
      rw [priorSeq] at place
      change head.toNat = (p.recordsOf rec.slotId).length - 1 at place
      rw [seq, UInt64.toNat_add]
      simp
      omega
    · intro other held
      rw [listed, Option.some.injEq] at held
      rw [← held]
      exact link

/-- Filing a record leaves every other slot alone. -/
theorem fileSlot_other {rec : SlotRecord} {slot : SlotId} (other : rec.slotId ≠ slot) :
    (p.fileSlot rec).slots.getD slot ∅ = p.slots.getD slot ∅ := by
  simp [fileSlot, Std.ExtTreeMap.getD_insert, other]

/-- A record that takes the next free sequence is listed after all the others. -/
theorem fileSlot_listed {rec : SlotRecord} (well : WellChained (p.slots.getD rec.slotId ∅))
    (place : rec.seq.toNat = (p.recordsOf rec.slotId).length) :
    ((p.fileSlot rec).slots.getD rec.slotId ∅).toList =
      (p.slots.getD rec.slotId ∅).toList ++ [(rec.seq, rec)] := by
  -- The record goes behind all others.
  have history : (p.fileSlot rec).slots.getD rec.slotId ∅ =
      (p.slots.getD rec.slotId ∅).insert rec.seq rec := by
    simp [fileSlot]
  rw [history]
  apply OrdMap.toList_insert_top
  intro k present
  -- Every key is the index of its record, and all indices are below the new one.
  obtain ⟨r, found⟩ :=
    Option.isSome_iff_exists.mp (Std.ExtTreeMap.mem_iff_isSome_getElem?.mp present)
  have listed : r ∈ p.recordsOf rec.slotId := OrdMap.mem_listed.mpr ⟨k, found⟩
  obtain ⟨i, bound, at_⟩ := List.mem_iff_getElem.mp listed
  have index := well.numbered i r (by rw [← at_]; exact List.getElem?_eq_getElem bound)
  rw [well.filed k r found] at index
  exact u64_compare_lt (by omega)

/-- Filing the next record appends it, and the history stays in order. -/
theorem fileSlot_spec (noZero : NoZeroDigest) {rec : SlotRecord}
    (well : WellChained (p.slots.getD rec.slotId ∅))
    (genesis : rec.seq = 0 ↔ rec.prev = Digest.zero) (next : p.checkNext rec = .ok ()) :
    (p.fileSlot rec).recordsOf rec.slotId = p.recordsOf rec.slotId ++ [rec] ∧
      WellChained ((p.fileSlot rec).slots.getD rec.slotId ∅) := by
  -- The record has the next number and links to the last one, so it goes to the end of the list.
  obtain ⟨place, link⟩ := next_sequence noZero well genesis next
  have entries := fileSlot_listed well place
  have appended : (p.fileSlot rec).recordsOf rec.slotId = p.recordsOf rec.slotId ++ [rec] := by
    rw [recordsOf, OrdMap.listed, entries, List.map_append]
    rfl
  -- Filing, numbering and linking are checked for the list with the record at its end.
  refine ⟨appended, ?_, ?_, ?_⟩
  · intro k r found
    have member := Std.ExtTreeMap.mem_toList_iff_getElem?_eq_some.mpr found
    rw [entries, List.mem_append, List.mem_singleton, Prod.mk.injEq] at member
    rcases member with older | ⟨rfl, rfl⟩
    · exact well.filed k r (Std.ExtTreeMap.mem_toList_iff_getElem?_eq_some.mp older)
    · rfl
  · intro i r found
    change ((p.fileSlot rec).recordsOf rec.slotId)[i]? = some r at found
    rw [appended] at found
    rcases Nat.lt_or_ge i (p.recordsOf rec.slotId).length with below | above
    · rw [List.getElem?_append_left below] at found
      exact well.numbered i r found
    · rw [List.getElem?_append_right above, List.getElem?_singleton] at found
      split at found
      · cases found
        omega
      · cases found
  · change ((p.fileSlot rec).recordsOf rec.slotId).IsChain _
    rw [appended]
    refine List.IsChain.append well.linked (by simp) ?_
    intro prior last r first
    simp only [List.head?_cons, Option.mem_def, Option.some.injEq] at first
    rw [← first]
    exact link prior last

/-- What one operation does to the histories of an honest peer. -/
theorem step_records (noZero : NoZeroDigest) (honest : p.hostility = .honest)
    (well : p.HistoriesOk) (op : PeerOp) :
    (peer.step p op).2.HistoriesOk ∧
      ((peer.step p op).2.slots = p.slots ∨
        ∃ rec, p.Published op rec ∧
          (peer.step p op).2.recordsOf rec.slotId = p.recordsOf rec.slotId ++ [rec] ∧
          rec.seq.toNat = (p.recordsOf rec.slotId).length ∧
          ∀ slot, slot ≠ rec.slotId → (peer.step p op).2.recordsOf slot = p.recordsOf slot) := by
  -- Only a published record changes a history, and it is the checks before it that make it the
  -- next one.
  obtain ⟨_, same | ⟨rec, published⟩⟩ := step_cases honest op
  · exact ⟨fun slot => by rw [same]; exact well slot, .inl same⟩
  · have unfolded := published
    obtain ⟨disk, subject, _, admitted, next, _, stepped⟩ := unfolded
    simp only [admitSlot, except_bind_eq_ok, except_mapError_eq_ok] at admitted
    obtain ⟨_, _, vk, _, verified⟩ := admitted
    have genesis := genesis_of_verify verified
    obtain ⟨appended, chained⟩ := fileSlot_spec noZero (well rec.slotId) genesis next
    have place := (next_sequence noZero (well rec.slotId) genesis next).1
    rw [stepped]
    refine ⟨?_, .inr ⟨rec, published, appended, place, ?_⟩⟩
    · intro slot
      by_cases other : rec.slotId = slot
      · rw [← other]
        exact chained
      · show WellChained ((p.fileSlot rec).slots.getD slot ∅)
        rw [fileSlot_other other]
        exact well slot
    · intro slot other
      show ((p.fileSlot rec).slots.getD slot ∅).listed = _
      rw [fileSlot_other (Ne.symm other)]
      rfl

/-- An honest peer whose histories are in order. -/
def Sound (p : Peer) : Prop := p.hostility = .honest ∧ p.HistoriesOk

/-- A new honest peer is sound. -/
theorem sound_new (mode : Mode) (addressing : Addressing) :
    (Peer.new mode addressing .honest).Sound := by
  refine ⟨rfl, ?_⟩
  intro slot
  simpa [Peer.new] using wellChained_empty

/-- Every step keeps a sound peer sound. -/
theorem step_sound (noZero : NoZeroDigest) (op : PeerOp) (sound : p.Sound) :
    (peer.step p op).2.Sound :=
  ⟨(step_cases sound.1 op).1.hostility.trans sound.1, (step_records noZero sound.1 sound.2 op).1⟩

/-- Every run from a sound peer ends in one. -/
theorem run_sound (noZero : NoZeroDigest) (sound : p.Sound) (ops : List PeerOp) :
    (peer.run p ops).Sound :=
  Machine.run_invariant sound Machine.permits_always fun _ op _ kept => step_sound noZero op kept

/-- One operation only ever adds to the end of a history. -/
theorem step_extends (noZero : NoZeroDigest) (sound : p.Sound) (op : PeerOp) (slot : SlotId) :
    p.recordsOf slot <+: (peer.step p op).2.recordsOf slot := by
  -- A step adds a record at the end of its own history, or nothing.
  obtain ⟨_, same | ⟨rec, _, appended, _, others⟩⟩ := step_records noZero sound.1 sound.2 op
  · have unchanged : (peer.step p op).2.recordsOf slot = p.recordsOf slot := by
      rw [recordsOf, recordsOf, same]
    exact unchanged ▸ List.prefix_rfl
  · by_cases published : slot = rec.slotId
    · rw [published, appended]
      exact List.prefix_append _ _
    · exact (others slot published) ▸ List.prefix_rfl

/-- Any number of operations only ever add to the end of a history. -/
theorem run_extends (noZero : NoZeroDigest) (sound : p.Sound) (ops : List PeerOp) (slot : SlotId) :
    p.recordsOf slot <+: (peer.run p ops).recordsOf slot := by
  -- Being a prefix is kept by every step, and prefixes of prefixes are prefixes.
  refine Machine.run_related (R := fun a b => a.recordsOf slot <+: b.recordsOf slot) sound
    Machine.permits_always (fun _ op _ kept => step_sound noZero op kept)
    (fun _ => List.prefix_rfl) ?_ (fun _ op _ kept => step_extends noZero kept op slot)
  intro a b c first second
  exact List.IsPrefix.trans first second

/-- A record an honest peer accepted was published, and no other operation was carried out. -/
theorem published_of_ok {disk : Disk} {subject : String} {rec : SlotRecord}
    (honest : p.hostility = .honest) (accepted : (p.publishSlot disk subject rec).1 = .ok ()) :
    p.Published (.publishSlot disk subject rec) rec := by
  -- Accepting a record means that every check passed and the file was written.
  rcases publishSlot_cases honest disk subject rec with
    ⟨e, refused⟩ | ⟨admitted, next, written, filed⟩
  · rw [refused] at accepted
    cases accepted
  · exact ⟨disk, subject, rfl, admitted, next, written, filed⟩

/-- A published record is appended to its slot, at the next sequence, and to no other slot. -/
theorem publishSlot_appends (noZero : NoZeroDigest) {disk : Disk} {subject : String}
    {rec : SlotRecord} (sound : p.Sound) (accepted : (p.publishSlot disk subject rec).1 = .ok ()) :
    (p.publishSlot disk subject rec).2.recordsOf rec.slotId = p.recordsOf rec.slotId ++ [rec] ∧
      rec.seq.toNat = (p.recordsOf rec.slotId).length ∧
      ∀ slot, slot ≠ rec.slotId →
        (p.publishSlot disk subject rec).2.recordsOf slot = p.recordsOf slot := by
  -- The step is one that publishes, for an accepted record is filed.
  obtain ⟨_, same | ⟨rec', published, appended, place, others⟩⟩ :=
    step_records noZero sound.1 sound.2 (.publishSlot disk subject rec)
  · -- The record was filed, so the histories cannot all be as they were.
    obtain ⟨_, _, _, admitted, next, _, stepped⟩ := published_of_ok sound.1 accepted
    simp only [admitSlot, except_bind_eq_ok, except_mapError_eq_ok] at admitted
    obtain ⟨_, _, vk, _, verified⟩ := admitted
    have appended := (fileSlot_spec noZero (sound.2 rec.slotId) (genesis_of_verify verified) next).1
    rw [stepped] at same
    rw [recordsOf, same] at appended
    exact absurd (congrArg List.length appended) (by simp [recordsOf])
  · obtain ⟨_, _, sameOp, _⟩ := published
    obtain rfl : rec = rec' := by simpa using (PeerOp.publishSlot.inj sameOp).2.2
    exact ⟨appended, place, others⟩

/--
No slot update is lost on an honest peer, whatever is asked of it and in whatever order.

Histories stay contiguous and linked, only ever grow at their ends by published records, and no
sequence of a slot is published twice.
-/
theorem no_slot_update_is_lost (noZero : NoZeroDigest) (mode : Mode) (addressing : Addressing)
    (ops : List PeerOp) :
    let p := peer.run (Peer.new mode addressing .honest) ops
    (∀ slot, WellChained (p.slots.getD slot ∅)) ∧
      (∀ disk subject rec, (p.publishSlot disk subject rec).1 = .ok () →
        (p.publishSlot disk subject rec).2.recordsOf rec.slotId = p.recordsOf rec.slotId ++ [rec] ∧
          ∀ slot, slot ≠ rec.slotId →
            (p.publishSlot disk subject rec).2.recordsOf slot = p.recordsOf slot) ∧
      (∀ disk subject rec e, (p.publishSlot disk subject rec).1 = .error e →
        (p.publishSlot disk subject rec).2.slots = p.slots) ∧
      (∀ more slot, p.recordsOf slot <+: (peer.run p more).recordsOf slot) ∧
      ∀ disk subject rec more disk' subject' rec',
        (p.publishSlot disk subject rec).1 = .ok () →
        ((peer.run (p.publishSlot disk subject rec).2 more).publishSlot disk' subject' rec').1 =
          .ok () →
        rec'.slotId = rec.slotId → rec'.seq ≠ rec.seq := by
  -- The invariant of the run gives every part.
  intro p
  have sound : p.Sound := run_sound noZero (sound_new mode addressing) ops
  refine ⟨sound.2, ?_, ?_, ?_, ?_⟩
  · intro disk subject rec accepted
    obtain ⟨appended, _, others⟩ := publishSlot_appends noZero sound accepted
    exact ⟨appended, others⟩
  · intro disk subject rec e refused
    rcases publishSlot_cases sound.1 disk subject rec with
      ⟨_, same⟩ | ⟨_, _, _, filed⟩
    · rw [same]
    · rw [filed] at refused
      cases refused
  · intro more slot
    exact run_extends noZero sound more slot
  · intro disk subject rec more disk' subject' rec' first second slot seq
    obtain ⟨appended, place, _⟩ := publishSlot_appends noZero sound first
    have sound' : (p.publishSlot disk subject rec).2.Sound :=
      step_sound noZero (.publishSlot disk subject rec) sound
    obtain ⟨_, place', _⟩ :=
      publishSlot_appends noZero (run_sound noZero sound' more) second
    -- By the second publish the history is longer than the sequence the first one took.
    have grown := (run_extends noZero sound' more rec.slotId).length_le
    rw [appended, List.length_append, List.length_singleton] at grown
    rw [slot, seq] at place'
    omega

end Peer

end

open Concrete in
/-- A writer on the roster with the right to write publishes the first record of a slot. -/
theorem first_record_is_appended :
    let rec0 := record 7 1 0 2 Digest.zero .casMerge
    let p := peer.run (Peer.new .e2ee .content .honest)
      [.addWriter (identity 7).verifyingKey, .setAcl (Acl.empty.grant "laptop" [.write])]
    (p.publishSlot (.ok ()) "laptop" rec0).1 = .ok () ∧
      (p.publishSlot (.ok ()) "laptop" rec0).2.recordsOf (slot 1) = p.recordsOf (slot 1) ++
        [rec0] := by
  -- The peer accepts the record, which is evaluated, and then appends it, which is the theorem.
  have accepted : ((peer.run (Peer.new .e2ee .content .honest)
      [.addWriter (identity 7).verifyingKey,
        .setAcl (Acl.empty.grant "laptop" [.write])]).publishSlot (.ok ()) "laptop"
          (record 7 1 0 2 Digest.zero .casMerge)).1 = .ok () := by decide +kernel
  refine ⟨accepted, ?_⟩
  exact ((Peer.no_slot_update_is_lost noZeroDigest .e2ee .content _).2.1 _ _ _ accepted).1

end NasTools
