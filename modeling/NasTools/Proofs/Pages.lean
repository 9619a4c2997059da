import NasTools.Lib.Paging
import NasTools.Model.Cli.Hosted
import NasTools.Proofs.Fetching
import NasTools.Proofs.Ranges

/-! The ladder and the history, fetched page by page: from any peer, and from an honest one. -/

namespace NasTools

open Paging

/-- No sequence is behind the last one. -/
theorem toNat_le_top (seq : UInt64) : seq.toNat ≤ u64Max.toNat := Nat.le_of_lt_succ seq.toNat_lt

/-- How the rungs of a ladder are read: no more of them are asked for than a peer may hold. -/
def ladderReading : Reading Checkpoint where
  place c := c.seq.toNat
  top := u64Max.toNat
  enough out _ := decide (maxCheckpointsPerSlot ≤ out.length)
  within c := toNat_le_top c.seq

/-- How the records of a slot are read: up to its head, within a budget. -/
def historyReading (headSeq : UInt64) (budget : Nat) : Reading SlotRecord where
  place r := r.seq.toNat
  top := u64Max.toNat
  enough out last := decide (headSeq.toNat ≤ last ∨ budget ≤ out.length)
  within r := toNat_le_top r.seq

/-- Bytes that are all read, item by item. -/
def Reads {T E : Type} (decode : Bytes → Except E T) (page : List Bytes) (items : List T) : Prop :=
  List.Forall₂ (fun bytes item => decode bytes = .ok item) page items

/-- A page that reads is decoded. -/
theorem Reads.decodePage {T E : Type} {decode : Bytes → Except E T} {report : E → String}
    {page : List Bytes} {items : List T} (reads : Reads decode page items) :
    Sync.decodePage decode report page = .ok items := by
  induction reads with
  | nil => rfl
  | cons read _ ih =>
    simp only [Sync.decodePage, read, ih, except_mapError_ok, except_ok_bind, except_pure_eq]

/-- A page is empty if and only if nothing is read from it. -/
theorem Reads.eq_nil_iff {T E : Type} {decode : Bytes → Except E T} {page : List Bytes}
    {items : List T} (reads : Reads decode page items) : page = [] ↔ items = [] := by
  cases reads <;> simp

/--
How a loop ends that reads pages: with what was read, or with the panic of a step
past the last sequence.
-/
def concluded {A S : Type} : Option A × S → Except Exit A × S
  | (some out, s) => (.ok out, s)
  | (none, s) => (.error .panic, s)

/-- The outcome is a value only if the loop has ended. -/
@[simp] theorem concluded_eq_ok {A S : Type} {outcome : Option A × S} {a : A} :
    (concluded outcome).1 = .ok a ↔ outcome.1 = some a := by
  obtain ⟨_ | b, s⟩ := outcome <;> simp [concluded]

/--
A world whose peer answers a question for items from a sequence on with a page of them.

It does so where it is ready for that sequence, and stays ready behind every sequence
from which the loop goes on.
-/
def Answers {S A E : Type} (answer : S → (q : Op) → q.Answer × S) (req : UInt64 → Request)
    (decode : Bytes → Except E A) (ask : S → Nat → List A × S) (goesOn : UInt64 → Prop)
    (ready : S → UInt64 → Prop) : Prop :=
  ∀ s next, ready s next → (∀ last, goesOn last → ready (ask s next.toNat).2 (last + 1)) ∧
    ∃ page, answer s (.call .peer (req next)) = (.ok (.records page), (ask s next.toNat).2) ∧
      Reads decode page (ask s next.toNat).1

section

variable {S : Type} {answer : S → (q : Op) → q.Answer × S} {slot : SlotId}
    {ready : S → UInt64 → Prop} {s : S}

/-- Below the last number counting on does not wrap. -/
theorem toNat_succ {last : UInt64} (below : last ≠ u64Max) : (last + 1).toNat = last.toNat + 1 := by
  -- The number has room for one more.
  have bound := last.toNat_lt
  have other : last.toNat ≠ u64Max.toNat := fun same => below (UInt64.toNat_inj.mp same)
  rw [UInt64.toNat_add]
  have top : u64Max.toNat = 2 ^ 64 - 1 := by decide
  exact Nat.mod_eq_of_lt (by simp; omega)

/-- The sequence a page ends at is its last place. -/
theorem toNat_lastSeq {A : Type} (seq : A → UInt64) (out : List A) (next : UInt64) :
    ((out.getLast?.map seq).getD next).toNat =
      lastPlace (fun a => (seq a).toNat) out next.toNat := by
  unfold lastPlace
  cases out.getLast? <;> rfl

/-- The loop over the ladder is a reading of pages. -/
theorem exec_ladderPages {ask : S → Nat → List Checkpoint × S}
    (answers : Answers answer (.checkpoints slot) Checkpoint.decode ask (fun _ => True) ready)
    (fuel : Nat) (rungs : List Checkpoint) (next : UInt64) (is : ready s next) :
    (Sync.ladderPages slot fuel rungs next).exec answer s =
      concluded (gather ladderReading ask fuel s rungs next.toNat) := by
  -- Induction over the fuel: one round of the script is one round of the reading.
  induction fuel generalizing s rungs next with
  | zero => rfl
  | succ fuel ih =>
    obtain ⟨stays, page, answered, reads⟩ := answers s next is
    rw [Sync.ladderPages, gather, Sync.request]
    simp only [Script.ask_bind, Script.exec_ask, answered, Response.asRecords, Script.done_bind]
    by_cases empty : page = []
    · have none_ : (ask s next.toNat).1 = [] := reads.eq_nil_iff.mp empty
      rw [if_pos empty, none_]
      rfl
    have some_ : ¬(ask s next.toNat).1.isEmpty = true := by simpa [← reads.eq_nil_iff] using empty
    rw [if_neg empty, if_neg some_, reads.decodePage]
    simp only [Sync.orRefuse, Script.done_bind]
    have last := toNat_lastSeq Checkpoint.seq (rungs ++ (ask s next.toNat).1) next
    generalize ((rungs ++ (ask s next.toNat).1).getLast?.map Checkpoint.seq).getD next =
      lastSeq at last ⊢
    rw [show lastPlace ladderReading.place (rungs ++ (ask s next.toNat).1) next.toNat =
      lastSeq.toNat from last.symm]
    have same : (ladderReading.enough (rungs ++ (ask s next.toNat).1) lastSeq.toNat = true ∨
      lastSeq.toNat < next.toNat) ↔
        (maxCheckpointsPerSlot ≤ (rungs ++ (ask s next.toNat).1).length ∨ lastSeq < next) := by
      rw [ladderReading, decide_eq_true_eq, UInt64.lt_iff_toNat_lt]
    by_cases ends : maxCheckpointsPerSlot ≤ (rungs ++ (ask s next.toNat).1).length ∨ lastSeq < next
    · rw [if_pos ends, if_pos (same.mpr ends)]
      rfl
    · rw [if_neg ends, if_neg (same.not.mpr ends)]
      by_cases top : lastSeq = u64Max
      · have isTop : lastSeq.toNat = ladderReading.top := congrArg UInt64.toNat top
        rw [if_pos top, if_pos isTop]
        rfl
      · have other : lastSeq.toNat ≠ ladderReading.top := fun same => top (UInt64.toNat_inj.mp same)
        rw [if_neg top, if_neg other, ih _ _ (stays lastSeq trivial), toNat_succ top]

/-- The loop over the history is a reading of pages, and never gets to the last sequence. -/
theorem exec_historyPages {ask : S → Nat → List SlotRecord × S} {headSeq : UInt64} {budget : Nat}
    (answers : Answers answer (.slotHistory slot) SlotRecord.decode ask (· < headSeq) ready)
    (fuel : Nat) (out : List SlotRecord) (next : UInt64) (is : ready s next) :
    (Sync.historyPages slot headSeq budget fuel out next).exec answer s =
      concluded (gather (historyReading headSeq budget) ask fuel s out next.toNat) := by
  -- Induction over the rounds that are left.
  induction fuel generalizing s out next with
  | zero => rfl
  | succ fuel ih =>
    obtain ⟨stays, page, answered, reads⟩ := answers s next is
    rw [Sync.historyPages, gather, Sync.request]
    simp only [Script.ask_bind, Script.exec_ask, answered, Response.asRecords, Script.done_bind]
    by_cases empty : page = []
    · have none_ : (ask s next.toNat).1 = [] := reads.eq_nil_iff.mp empty
      rw [if_pos empty, none_]
      rfl
    have some_ : ¬(ask s next.toNat).1.isEmpty = true := by simpa [← reads.eq_nil_iff] using empty
    rw [if_neg empty, if_neg some_, reads.decodePage]
    simp only [Sync.orRefuse, Script.done_bind]
    have last := toNat_lastSeq SlotRecord.seq (out ++ (ask s next.toNat).1) next
    generalize ((out ++ (ask s next.toNat).1).getLast?.map SlotRecord.seq).getD next =
      lastSeq at last ⊢
    rw [show lastPlace (historyReading headSeq budget).place (out ++ (ask s next.toNat).1)
      next.toNat = lastSeq.toNat from last.symm]
    have same :
      ((historyReading headSeq budget).enough (out ++ (ask s next.toNat).1) lastSeq.toNat = true ∨
          lastSeq.toNat < next.toNat) ↔
        (headSeq ≤ lastSeq ∨ budget ≤ (out ++ (ask s next.toNat).1).length ∨ lastSeq < next) := by
      rw [historyReading, decide_eq_true_eq, UInt64.lt_iff_toNat_lt,
        UInt64.le_iff_toNat_le, or_assoc]
    by_cases ends : headSeq ≤ lastSeq ∨ budget ≤ (out ++ (ask s next.toNat).1).length ∨
      lastSeq < next
    · rw [if_pos ends, if_pos (same.mpr ends)]
      rfl
    · rw [if_neg ends, if_neg (same.not.mpr ends)]
      -- The head is no further than the last sequence, and was not reached.
      have before : lastSeq < headSeq := UInt64.not_le.mp fun reached => ends (.inl reached)
      have top : lastSeq ≠ u64Max := by
        rintro rfl
        exact absurd (UInt64.lt_iff_toNat_lt.mp before) (Nat.not_lt_of_le (toNat_le_top headSeq))
      have other : lastSeq.toNat ≠ (historyReading headSeq budget).top :=
        fun same => top (UInt64.toNat_inj.mp same)
      rw [if_neg other, ih _ _ (stays lastSeq before), toNat_succ top]

end

/-- A world whose peer answers with one list of bytes after the other, whatever it is asked. -/
def replying (around : (op : Op) → op.Answer) (pages : Nat → List Bytes) (i : Nat) :
    (op : Op) → op.Answer × Nat
  | .call .peer _ => (.ok (.records (pages i)), i + 1)
  | op => (around op, i)

/-- A stream of pages that read answers every request in turn. -/
theorem replying_answers {A E : Type} {around : (op : Op) → op.Answer} {pages : Nat → List Bytes}
    {decode : Bytes → Except E A} {sent : Nat → List A}
    (reads : ∀ i, Reads decode (pages i) (sent i)) (req : UInt64 → Request)
    (goesOn : UInt64 → Prop) :
    Answers (replying around pages) req decode (stream sent) goesOn fun _ _ => True :=
  fun i _ _ => ⟨fun _ _ => trivial, pages i, rfl, reads i⟩

/--
A loop ends by itself: after so many questions at most, with less than that and one
page in its hands.
-/
def EndsWithin {A : Type} (bound : Nat) (sent : Nat → List A)
    (outcome : Except Exit (List A) × Nat) : Prop :=
  ∃ out, outcome.1 = .ok out ∧ outcome.2 ≤ bound ∧
    ∃ i < outcome.2, out.length < bound + (sent i).length

/-- A reader that never steps past the last sequence ends by itself. -/
theorem endsWithin_iff {A : Type} {r : Reading A} {sent : Nat → List A} {bound fuel next : Nat}
    (bounded : ∀ out last, bound ≤ out.length → r.enough out last = true) (positive : 0 < bound)
    (covers : bound ≤ fuel) :
    EndsWithin bound sent (concluded (gather r (stream sent) fuel 0 [] next)) ↔
      (gather r (stream sent) fuel 0 [] next).1 ≠ none := by
  -- Where the loop ends, the number of rounds and of items is bounded already.
  have rounds := @gather_rounds Nat A r (stream sent) bound fuel 0 [] next bounded (fun i => i)
    (fun _ _ => rfl) positive
  have kept :=
    fun result => @gather_stream_kept A r bound fuel [] next sent 0 result bounded positive
  generalize gather r (stream sent) fuel 0 [] next = outcome at rounds kept ⊢
  obtain ⟨_ | result, asked⟩ := outcome
  · refine iff_of_false ?_ (by simp)
    intro ⟨_, impossible, _⟩
    cases impossible
  · refine iff_of_true ⟨result, rfl, ?_, kept result ?_ rfl⟩ (by simp)
    · simpa [concluded] using rounds
    · simpa using covers

section

variable [Crypto]

namespace Peer

/--
What a peer has in its slots can be sent: records and rungs in their places, and no
more rungs than it may hold.
-/
structure Sends (p : Peer) : Prop where
  serving : p.witnessOnly = false
  records : p.slots.Indexed (fun r => (r.slotId, r.seq)) SlotRecord.Proper
  rungs : p.checkpoints.Indexed (fun c => (c.slotId, (c.seq, c.checkpointHash))) Checkpoint.Proper
  few : ∀ slot, (p.checkpoints.getD slot ∅).size ≤ maxCheckpointsPerSlot

variable {p : Peer}

/-- A rung is filed only where there is room for it. -/
theorem publishCheckpoint_room (disk : Disk) (c : Checkpoint) :
    (p.publishCheckpoint disk c).2 = p ∨
      (p.checkpoints.getD c.slotId ∅).size < maxCheckpointsPerSlot ∧ p.admitsCheckpoint c ∧
        (p.publishCheckpoint disk c).2 = p.fileCheckpoint c := by
  -- A full slot refuses, and otherwise the checkpoint is filed as admitted.
  rcases publishCheckpoint_cases (p := p) disk c with same | ⟨admitted, filed⟩
  · exact .inl same
  by_cases room : (p.checkpoints.getD c.slotId ∅).size < maxCheckpointsPerSlot
  · exact .inr ⟨room, admitted, filed⟩
  left
  unfold publishCheckpoint
  dsimp only
  split
  · rfl
  · split
    · rfl
    · rw [if_pos (Nat.le_of_not_lt room)]

/-- A rung comes to a peer as bytes, which were read. -/
def FromWire : PeerOp → Prop
  | .publishCheckpoint _ c => ∃ bytes, Checkpoint.decode bytes = .ok c
  | _ => True

/-- A request over the wire leaves a peer that sends what it holds. -/
theorem step_sends (honest : p.hostility = .honest) (sends : p.Sends) (op : PeerOp)
    (wire : FromWire op) :
    (peer.step p op).2.Sends := by
  -- The slots stay as they are, or one thing is filed in them.
  have serving : (peer.step p op).2.witnessOnly = false :=
    (step_onlyIn (p := p) op).witnessOnly.trans sends.serving
  rcases step_slots honest op with kept | ⟨rec, published⟩ | ⟨h, disk, is, _, _, filed⟩ |
    ⟨c, disk, is, admitted, filed⟩
  · exact ⟨serving, kept.slots ▸ sends.records, kept.checkpoints ▸ sends.rungs,
      kept.checkpoints ▸ sends.few⟩
  · obtain ⟨disk, subject, _, admitted, _, _, stepped⟩ := published
    simp only [admitSlot, except_bind_eq_ok, except_mapError_eq_ok] at admitted
    obtain ⟨_, _, vk, _, verified⟩ := admitted
    rw [stepped] at serving ⊢
    -- What verifies has the width of a signature.
    have proper : rec.Proper := by
      refine ⟨?_, genesis_of_verify verified⟩
      simp only [SlotRecord.verify, except_bind_eq_ok, except_mapError_eq_ok] at verified
      obtain ⟨_, _, _, _, _, _, signed⟩ := verified
      exact (widths_of_verify signed).2
    exact ⟨serving, sends.records.insert2 proper, sends.rungs, sends.few⟩
  · rw [filed] at serving ⊢
    exact ⟨serving, sends.records, sends.rungs, sends.few⟩
  · subst is
    rcases publishCheckpoint_room (p := p) disk c with same | ⟨room, _, filed⟩
    · rw [show (peer.step p (.publishCheckpoint disk c)).2 = p from same]
      exact sends
    rw [show (peer.step p (.publishCheckpoint disk c)).2 = p.fileCheckpoint c from filed]
      at serving ⊢
    obtain ⟨bytes, decoded⟩ := wire
    have proper : c.Proper := (Checkpoint.accepted decoded).1
    exact ⟨serving, sends.records, sends.rungs.insert2 proper,
      (OrdMap.size_insert2_le_iff sends.few).mpr (.inr room)⟩

/-- What an honest peer can send after any run. -/
theorem run_sends (honest : p.hostility = .honest) (sends : p.Sends) {ops : List PeerOp}
    (wire : ∀ op ∈ ops, FromWire op) :
    (peer.run p ops).Sends := by
  -- Induction over the run, whose steps keep the peer honest.
  induction ops generalizing p with
  | nil => exact sends
  | cons op rest ih =>
    exact ih ((step_onlyIn (p := p) op).hostility.trans honest)
      (step_sends honest sends op (wire op List.mem_cons_self))
      fun other member => wire other (List.mem_cons_of_mem _ member)

/-- A new peer sends what it holds. -/
theorem sends_new (mode : Mode) (addressing : Addressing) :
    (Peer.new mode addressing .honest).Sends :=
  ⟨rfl, OrdMap.indexed_empty, OrdMap.indexed_empty, fun slot => by simp [Peer.new]⟩

/-- Every rung held for a slot, ascending. -/
def rungsOf (p : Peer) (slot : SlotId) : List Checkpoint := (p.checkpoints.getD slot ∅).listed

omit [Crypto] in
/-- No array is less than the zero one. -/
theorem zero_isLE {width : Nat} (a : FixedBytes width) :
    (compare (FixedBytes.zero width) a).isLE := by
  -- Induction over the bytes: zero is the least of each.
  obtain ⟨bytes, rfl⟩ := a
  show (compare (List.replicate bytes.length (0 : UInt8)) bytes).isLE
  induction bytes with
  | nil => rfl
  | cons byte rest ih =>
    rw [List.length_cons, List.replicate_succ, List.compare_cons_cons]
    by_cases least : byte = 0
    · have self : compare (0 : UInt8) 0 = .eq := rfl
      rw [least, self]
      exact ih
    · have less : compare 0 byte = .lt := by
        show compareOfLessAndEq 0 byte = .lt
        exact if_pos (UInt8.pos_iff_ne_zero.mpr least)
      rw [less]
      rfl

omit [Crypto] in
/-- Pairs of a sequence and a hash, from a sequence and the zero hash on. -/
theorem from_isLE_iff {start seq : UInt64} {hash : Digest} :
    (compare (start, Digest.zero) (seq, hash)).isLE = true ↔ start.toNat ≤ seq.toNat := by
  -- The sequences decide, and at the same sequence the zero digest is the least.
  show ((compare start seq).then (compare Digest.zero hash)).isLE = true ↔ _
  rcases Nat.lt_trichotomy start.toNat seq.toNat with less | same | greater
  · rw [u64_compare_lt less]
    simp [less.le]
  · obtain rfl := UInt64.toNat_inj.mp same
    have self : compare start start = .eq := Std.ReflCmp.compare_self
    rw [self]
    exact iff_of_true (zero_isLE hash) le_rfl
  · rw [Std.OrientedCmp.gt_of_lt (u64_compare_lt greater)]
    simp [greater]

/-- Where a rung is filed among those of its slot. -/
def ladderKey (c : Checkpoint) : UInt64 × Digest := (c.seq, c.checkpointHash)

/-- A rung of a higher sequence is filed behind. -/
theorem ladderKey_lt {a b : Checkpoint} (less : a.seq.toNat < b.seq.toNat) :
    compare (ladderKey a) (ladderKey b) = .lt := by
  -- The sequences differ, so the hashes are not compared.
  show (compare a.seq b.seq).then (compare a.checkpointHash b.checkpointHash) = .lt
  rw [u64_compare_lt less]
  rfl

/-- A rung that is let in above all others is filed. -/
theorem publishCheckpoint_top {c : Checkpoint} (admitted : p.admitsCheckpoint c) (proper : c.Proper)
    (room : (p.checkpoints.getD c.slotId ∅).size < maxCheckpointsPerSlot)
    (top : ∀ key ∈ p.checkpoints.getD c.slotId ∅, compare key (ladderKey c) = .lt) :
    (p.publishCheckpoint (.ok ()) c).2 = p.fileCheckpoint c := by
  -- None of the ways out before the filing is taken.
  obtain ⟨vk, known, verified⟩ := admitted
  obtain ⟨bytes, encoded, _⟩ := Checkpoint.reads_back proper
  have fresh : (p.checkpoints.getD c.slotId ∅).contains (c.seq, c.checkpointHash) = false :=
    Bool.eq_false_iff.mpr (OrdMap.not_contains_of_below top)
  simp [publishCheckpoint, known, verified, encoded, fresh, Nat.not_le.mpr room]

/-- Rungs that are let in one above the other are listed in that order. -/
theorem toList_run_rising {cs : List Checkpoint} {slot : SlotId}
    (admitted : ∀ c ∈ cs, c.slotId = slot ∧ p.admitsCheckpoint c ∧ c.Proper)
    (rising : cs.Pairwise fun a b => compare (ladderKey a) (ladderKey b) = .lt)
    (above : ∀ key ∈ p.checkpoints.getD slot ∅, ∀ c ∈ cs, compare key (ladderKey c) = .lt)
    (room : (p.checkpoints.getD slot ∅).size + cs.length ≤ maxCheckpointsPerSlot) :
    ((peer.run p (cs.map (.publishCheckpoint (.ok ())))).checkpoints.getD slot ∅).toList =
      (p.checkpoints.getD slot ∅).toList ++ cs.map fun c => (ladderKey c, c) := by
  -- Induction over the rungs, each of which becomes the top of those that are filed.
  induction cs generalizing p with
  | nil => simp
  | cons c rest ih =>
    obtain ⟨here, letIn, proper⟩ := admitted c List.mem_cons_self
    obtain ⟨least, rising⟩ := List.pairwise_cons.mp rising
    rw [List.length_cons] at room
    have top : ∀ key ∈ p.checkpoints.getD c.slotId ∅, compare key (ladderKey c) = .lt :=
      fun key held => above key (by rwa [here] at held) c List.mem_cons_self
    have filed : (peer.step p (.publishCheckpoint (.ok ()) c)).2 = p.fileCheckpoint c :=
      publishCheckpoint_top letIn proper (by rw [here]; omega) top
    have held : (p.fileCheckpoint c).checkpoints.getD slot ∅ =
        (p.checkpoints.getD slot ∅).insert (ladderKey c) c := by
      simp [fileCheckpoint, ladderKey, here]
    have fresh : ladderKey c ∉ p.checkpoints.getD slot ∅ := by
      intro present
      simpa using above _ present c List.mem_cons_self
    rw [List.map_cons, Machine.run_cons, filed, ih, held, OrdMap.toList_insert_top,
      List.append_assoc]
    · rfl
    · exact fun key present => above key present c List.mem_cons_self
    · intro d member
      obtain ⟨same, letIn, proper⟩ := admitted d (List.mem_cons_of_mem _ member)
      exact ⟨same, letIn, proper⟩
    · exact rising
    · intro key present d member
      rw [held, Std.ExtTreeMap.mem_insert] at present
      rcases present with same | before
      · rw [← Std.LawfulEqCmp.eq_of_compare same]
        exact least d member
      · exact above key before d (List.mem_cons_of_mem _ member)
    · rw [held, Std.ExtTreeMap.size_insert, if_neg (by simpa using fresh)]
      omega

/-- The rungs from a sequence on are those whose sequence is no less. -/
theorem Sends.checkpointsOf_eq (sends : p.Sends) (slot : SlotId) (start : UInt64) :
    p.checkpointsOf slot start = (p.rungsOf slot).filter fun c => start.toNat ≤ c.seq.toNat := by
  -- The range of keys begins at the sequence, for the zero digest is the least.
  rw [checkpointsOf, rungsOf, OrdMap.listedWhere, OrdMap.listed, List.filter_map]
  congr 1
  apply List.filter_congr
  intro entry listed
  obtain ⟨⟨seq, hash⟩, c⟩ := entry
  have place :=
    (sends.rungs slot (seq, hash) c (Std.ExtTreeMap.mem_toList_iff_getElem?_eq_some.mp listed)).2
  obtain rfl : c.seq = seq := congrArg (fun key => key.2.1) place
  rw [Bool.eq_iff_iff, from_isLE_iff]
  simp

/-- Rungs stand in the order of their sequences. -/
theorem Sends.rungs_sorted (sends : p.Sends) (slot : SlotId) :
    (p.rungsOf slot).Pairwise fun a b => a.seq.toNat ≤ b.seq.toNat := by
  -- Rungs are listed by their keys, which start with the sequence.
  rw [rungsOf, OrdMap.listed, List.pairwise_map]
  refine List.Pairwise.imp_of_mem ?_ (Std.ExtTreeMap.ordered_keys_toList (t :=
    p.checkpoints.getD slot ∅))
  rintro ⟨⟨seq, hash⟩, c⟩ ⟨⟨seq', hash'⟩, c'⟩ first second less
  have place := (sends.rungs slot _ c (Std.ExtTreeMap.mem_toList_iff_getElem?_eq_some.mp first)).2
  have place' :=
    (sends.rungs slot _ c' (Std.ExtTreeMap.mem_toList_iff_getElem?_eq_some.mp second)).2
  obtain rfl : c.seq = seq := congrArg (fun key => key.2.1) place
  obtain rfl : c'.seq = seq' := congrArg (fun key => key.2.1) place'
  show c.seq.toNat ≤ c'.seq.toNat
  by_contra above
  -- A greater sequence comes first by no hash.
  have greater : compare (c.seq, hash) (c'.seq, hash') = .gt := by
    show (compare c.seq c'.seq).then _ = .gt
    rw [Std.OrientedCmp.gt_of_lt (u64_compare_lt (Nat.lt_of_not_le above))]
    rfl
  rw [greater] at less
  cases less

end Peer

end

/-- The widths of what rungs and records are written as. -/
def rungWidths : List Nat := [32, 8, 32, 8, 32, verifyingKeyLen, signatureLen]

def recordWidths : List Nat := [32, 8, 32, rootNonceLen, 32, 32, 1, signatureLen]

/-- How many of each one answer holds. -/
def rungPage : Nat := pageOf (framedLen rungWidths)

def recordPage : Nat := pageOf (framedLen recordWidths)

/-- A page holds 48 rungs or 74 records. -/
theorem page_lengths : rungPage = 48 ∧ recordPage = 74 := by decide

/-- A proper rung is written at one length, and read back. -/
theorem Checkpoint.sent {c : Checkpoint} (proper : c.Proper) :
    ∃ bytes, c.encode = .ok bytes ∧ bytes.length = framedLen rungWidths ∧
      Checkpoint.decode bytes = .ok c := by
  -- Its fields have fixed widths, so the frame has one too.
  obtain ⟨bytes, encoded, back⟩ := Checkpoint.reads_back proper
  obtain ⟨bytes', encoded', width⟩ := encodeFields_width
    [c.slotId.bytes, u64Le c.seq, c.recordHash.bytes, u64Le c.prevSeq, c.prevHash.bytes, c.writerPk,
      c.sig] rungWidths
    (by simp [FixedBytes.size, proper.key, proper.sig, rungWidths]) (by decide)
  obtain rfl := Except.ok.inj ((except_mapError_eq_ok.mp encoded).symm.trans encoded')
  exact ⟨bytes, encoded, width, back⟩

/-- A proper record is written at one length, and read back. -/
theorem SlotRecord.sent {r : SlotRecord} (proper : r.Proper) :
    ∃ bytes, r.encode = .ok bytes ∧ bytes.length = framedLen recordWidths ∧
      SlotRecord.decode bytes = .ok r := by
  -- Its fields have fixed widths, so the frame has one too.
  obtain ⟨bytes, encoded, back⟩ := SlotRecord.reads_back proper
  obtain ⟨bytes', encoded', width⟩ := encodeFields_width (r.bodyFields ++ [r.sig]) recordWidths
    (by simp [SlotRecord.bodyFields, FixedBytes.size, proper.sig, recordWidths]) (by decide)
  obtain rfl := Except.ok.inj ((except_mapError_eq_ok.mp encoded).symm.trans encoded')
  exact ⟨bytes, encoded, width, back⟩

/-- A list answer over items of one length is a page of them, as it is read. -/
theorem bounded_reads {T E : Type} {encode : T → Except E Bytes} {decode : Bytes → Except E T}
    {len : Nat} {items : List T} (display : E → String)
    (each : ∀ item ∈ items, ∃ bytes, encode item = .ok bytes ∧ bytes.length = len ∧
      decode bytes = .ok item) :
    ∃ page, bounded items encode display = .records page ∧
      Reads decode page (items.take (pageOf len)) := by
  -- Items of one length fill a page up to its bound, and each reads back.
  have whole : boundedFrom encode display [] (0 * recordCost len) items =
      .records ([] ++ (items.take (pageOf len - 0)).map (spelled encode)) :=
    boundedFrom_uniform (fun item member => by
      obtain ⟨bytes, encoded, width, _⟩ := each item member
      exact ⟨bytes, encoded, width⟩) [] (Nat.zero_le _)
  refine ⟨(items.take (pageOf len)).map (spelled encode), by simpa [bounded] using whole, ?_⟩
  rw [Reads, List.forall₂_map_left_iff, List.forall₂_same]
  intro item member
  obtain ⟨bytes, encoded, _, back⟩ := each item (List.mem_of_mem_take member)
  rw [spelled_eq encoded, back]

section

variable [Crypto] {around : (op : Op) → op.Answer} {lost subject : String} {p : Peer}

/-- An honest peer answers with pages of its rungs. -/
theorem rungs_answers (sends : p.Sends) (slot : SlotId) :
    Answers (host around lost subject) (.checkpoints slot) Checkpoint.decode
      (shelf (fun c => c.seq.toNat) (p.rungsOf slot) rungPage) (fun _ => True) fun q
        _ => q = p := by
  -- Each answer is a page of the rungs from the sequence on.
  intro q next same
  rw [same]
  have each : ∀ c ∈ p.checkpointsOf slot next, _ := fun c member => by
    rw [sends.checkpointsOf_eq] at member
    exact Checkpoint.sent (sends.rungs.of_listed (List.mem_filter.mp member).1).1
  obtain ⟨page, is, reads⟩ := bounded_reads CheckpointError.display each
  refine ⟨fun _ _ => rfl, page, ?_, ?_⟩
  · simp [host, handleAt, sends.serving, told, is, shelf]
  · rw [sends.checkpointsOf_eq] at reads
    exact reads

/--
An honest peer answers with pages of the records of a slot, from every sequence up to its head.
-/
theorem records_answers (sound : p.Sound) (sends : p.Sends) {slot : SlotId} {head : SlotRecord}
    (isHead : p.slotHead slot = some head) :
    Answers (host around lost subject) (.slotHistory slot) SlotRecord.decode
      (shelf (fun r => r.seq.toNat) (p.recordsOf slot) recordPage) (· < head.seq) fun q next =>
        q = p ∧ next ≤ head.seq := by
  -- Below the head a page is served, and the next request stays below it.
  intro q next ⟨same, below⟩
  rw [same]
  have served := Peer.slotHistory_from sound slot next
  rw [if_pos (by rw [isHead]; rintro _ ⟨⟩; exact below)] at served
  have each : ∀ r ∈ (p.recordsOf slot).filter fun r => next ≤ r.seq, _ := fun r member =>
    SlotRecord.sent (sends.records.of_listed (List.mem_filter.mp member).1).1
  obtain ⟨page, is, reads⟩ := bounded_reads RecordError.display each
  refine ⟨?_, page, ?_, ?_⟩
  · intro last before
    have bound := UInt64.lt_iff_toNat_lt.mp before
    have other : last ≠ u64Max := by
      rintro rfl
      exact absurd bound (Nat.not_lt_of_le (toNat_le_top head.seq))
    exact ⟨rfl, UInt64.le_iff_toNat_le.mpr (by rw [toNat_succ other]; exact bound)⟩
  · simp [host, handleAt, sends.serving, told, served, is, shelf]
  · simp only [UInt64.le_iff_toNat_le] at reads
    exact reads

/--
The two loops end by themselves, exactly where no page of the ladder leads past the last sequence.

From any peer the ladder ends unless full pages climb to the last sequence before there are enough
rungs; the history always ends. In both it is the loop that ends, and not the rounds it is allowed.
From an honest peer the ladder is whole exactly when no two rungs of one sequence stand on both
sides of the end of a page, and no rung at the last sequence leaves room for more; the history is
whole, up to the budget.
-/
theorem paging_is_safe_iff (noZero : NoZeroDigest) (mode : Mode) (addressing : Addressing)
    {ops : List PeerOp} (wire : ∀ op ∈ ops, Peer.FromWire op) (around : (op : Op) → op.Answer)
    (lost subject : String) (slot : SlotId) (start : UInt64) :
    (∀ (pages : Nat → List Bytes) (sent : Nat → List Checkpoint),
      (∀ i, Reads Checkpoint.decode (pages i) (sent i)) →
      ∀ fuel ≥ maxCheckpointsPerSlot,
        (EndsWithin maxCheckpointsPerSlot sent
          ((Sync.ladderPages slot fuel [] start).exec (replying around pages) 0) ↔
          ¬∃ k, Tops ladderReading maxCheckpointsPerSlot start.toNat sent k) ∧
        (Sync.ladderPages slot fuel [] start).exec (replying around pages) 0 =
          (Sync.ladderPages slot maxCheckpointsPerSlot [] start).exec (replying around pages) 0) ∧
    (∀ (pages : Nat → List Bytes) (sent : Nat → List SlotRecord),
      (∀ i, Reads SlotRecord.decode (pages i) (sent i)) →
      ∀ headSeq, ∀ fuel ≥ retainN,
        EndsWithin retainN sent ((Sync.historyPages slot headSeq retainN fuel [] start).exec
          (replying around pages) 0) ∧
        (Sync.historyPages slot headSeq retainN fuel [] start).exec (replying around pages) 0 =
          (Sync.historyPages slot headSeq retainN retainN [] start).exec
            (replying around pages) 0) ∧
    ∀ p, p = peer.run (Peer.new mode addressing .honest) ops →
      (∀ fuel ≥ maxCheckpointsPerSlot,
        (((Sync.ladderPages slot fuel [] start).exec (host around lost subject) p).1 =
          .ok (p.checkpointsOf slot start) ↔
          Apart (fun c => c.seq.toNat) rungPage (p.checkpointsOf slot start) ∧
            ∀ top, (p.checkpointsOf slot start).getLast? = some top → top.seq = u64Max →
              maxCheckpointsPerSlot ≤ (p.checkpointsOf slot start).length)) ∧
      ∀ head, p.slotHead slot = some head → start ≤ head.seq → ∀ fuel ≥ retainN, ∃ n,
        ((Sync.historyPages slot head.seq retainN fuel [] start).exec
          (host around lost subject) p).1 =
            .ok (((p.recordsOf slot).filter fun r => start ≤ r.seq).take n) ∧
          (((p.recordsOf slot).filter fun r => start ≤ r.seq).length ≤ n ∨ retainN ≤ n) ∧
          (((p.recordsOf slot).filter fun r => start ≤ r.seq).take n).length <
            retainN + recordPage := by
  -- The ladder of any peer, the history of any peer, and both of an honest one.
  refine ⟨?_, ?_, ?_⟩
  · intro pages sent reads fuel covers
    have bounded : ∀ (out : List Checkpoint) (last : Nat), maxCheckpointsPerSlot ≤ out.length →
        ladderReading.enough out last = true := fun out last full => decide_eq_true full
    have room : (maxCheckpointsPerSlot : Nat) ≤ ([] : List Checkpoint).length + fuel := by
      simpa using covers
    rw [exec_ladderPages (replying_answers reads _ _) fuel [] start trivial,
      exec_ladderPages (replying_answers reads _ _) maxCheckpointsPerSlot [] start trivial]
    refine ⟨?_, congrArg concluded (gather_fuel bounded (by decide) room (by simp))⟩
    rw [endsWithin_iff bounded (by decide) covers, ne_eq,
      gather_stream_none_iff (fun _ _ => rfl) (by decide) room]
    simp
  · intro pages sent reads headSeq fuel covers
    have bounded : ∀ (out : List SlotRecord) (last : Nat), retainN ≤ out.length →
        (historyReading headSeq retainN).enough out last = true := fun out last full =>
          decide_eq_true (.inr full)
    have room : (retainN : Nat) ≤ ([] : List SlotRecord).length + fuel := by simpa using covers
    rw [exec_historyPages (replying_answers reads _ _) fuel [] start trivial,
      exec_historyPages (replying_answers reads _ _) retainN [] start trivial]
    refine ⟨?_, congrArg concluded (gather_fuel bounded (by decide) room (by simp))⟩
    rw [endsWithin_iff bounded (by decide) covers]
    -- The head is never behind the last sequence.
    exact gather_ne_none fun out => decide_eq_true (.inl (toNat_le_top headSeq))
  · rintro p rfl
    generalize after : peer.run (Peer.new mode addressing .honest) ops = p
    have sound : p.Sound := after ▸ Peer.run_sound noZero (Peer.sound_new mode addressing) ops
    have sends : p.Sends := after ▸ Peer.run_sends rfl (Peer.sends_new mode addressing) wire
    constructor
    · intro fuel covers
      have rungs := sends.checkpointsOf_eq slot start
      have few : (p.checkpointsOf slot start).length ≤ maxCheckpointsPerSlot := by
        rw [rungs]
        refine (List.length_filter_le _ _).trans ?_
        rw [Peer.rungsOf, OrdMap.length_listed]
        exact sends.few slot
      rw [exec_ladderPages (rungs_answers sends slot) fuel [] start rfl, concluded_eq_ok]
      rw [rungs] at few ⊢
      have positive : 0 < rungPage := by rw [page_lengths.1]; decide
      have whole := @gather_shelf_iff Peer _ ladderReading maxCheckpointsPerSlot fuel p []
        start.toNat _ rungPage
        (sends.rungs_sorted slot) positive (fun _ _ => rfl) (by decide) (by simpa using covers)
        (by rw [List.length_nil, Nat.zero_add]; exact few)
      refine whole.trans (and_congr_right fun _ => forall_congr' fun top => imp_congr_right
        fun _ => ?_)
      rw [List.length_nil, Nat.zero_add, ← UInt64.toNat_inj]
      exact Iff.rfl
    · intro head isHead below fuel covers
      have positive : 0 < recordPage := by rw [page_lengths.2]; decide
      have strict : (p.recordsOf slot).Pairwise fun a b => a.seq.toNat < b.seq.toNat :=
        (sound.2 slot).ascending.imp fun less => UInt64.lt_iff_toNat_lt.mp less
      have top : ∀ r ∈ p.recordsOf slot, r.seq.toNat ≤ head.seq.toNat := by
        intro r held
        obtain ⟨k, found⟩ := OrdMap.mem_listed.mp held
        rw [Peer.slotHead_eq sound.1] at isHead
        have filed := (sound.2 slot).filed k r found
        have least := (sound.2 slot).le_last found isHead
        rw [filed]
        exact UInt64.le_iff_toNat_le.mp least
      obtain ⟨n, is, ends, kept⟩ :=
        @gather_shelf_front Peer _ (historyReading head.seq retainN) retainN fuel p []
        start.toNat _ recordPage positive _ strict top (toNat_le_top head.seq)
          (fun _ _ => rfl) (by decide)
        (by simpa using covers)
      rw [List.length_nil, Nat.zero_add] at ends kept
      simp only [UInt64.le_iff_toNat_le]
      refine ⟨n, ?_, ends, kept⟩
      rw [exec_historyPages (records_answers sound sends isHead) fuel [] start ⟨rfl, below⟩,
        concluded_eq_ok]
      exact is

end

section

open Concrete

/-- A rung that one writer signs in one slot. -/
def signedRung (seq : UInt64) (prevHash : Digest) : Checkpoint :=
  ⟨slot 1, seq, digest [1], 0, prevHash, (identity 1).verifyingKey,
    signature (identity 1).verifyingKey
    (framed .slotCheckpoint (checkpointBody (slot 1) seq (digest [1]) 0 prevHash))⟩

/-- A rung signed by the first writer has a key and a signature of the right widths. -/
theorem signedRung_proper (seq : UInt64) (prevHash : Digest) :
    (signedRung seq prevHash).Proper where
  key := (identity_signs 1).keyLength
  sig := by
    rw [signedRung, signature, List.length_append, FixedBytes.size, List.length_replicate]
    decide

/-- Surroundings that do nothing. -/
def silent : (op : Op) → op.Answer
  | .dial _ => .ok ()
  | .call _ _ => .error "silence"
  | .nonce | .rootNonce | .keepBlob _ | .writePin _ _ | .writeCpPin _ _ => .error "silence"

/-- Two rungs of one sequence on the first page, and more rungs than a page has. -/
def longLadder : List Checkpoint :=
  signedRung 0 Digest.zero ::
    (signedRung 1 (digest [3]) :: (List.range 50).map fun n => signedRung (UInt64.ofNat (n + 1))
      (digest [2]))

/-- The rungs are published one by one. -/
def ladderPuts : List PeerOp :=
  .addWriter (identity 1).verifyingKey :: longLadder.map (.publishCheckpoint (.ok ()))

/-- A rung of that writer verifies where its sequence and what it points to agree. -/
theorem signedRung_admitted {p : Peer} {seq : UInt64} {prevHash : Digest}
    (known : p.roster.get (signedRung 0 Digest.zero).writerId = some (identity 1).verifyingKey)
    (placed : checkpointCheckGenesis seq 0 prevHash = .ok ()) :
      p.admitsCheckpoint (signedRung seq prevHash) := by
  -- The key and the signature have their widths, and verifying makes the same signature.
  refine ⟨_, known, ?_⟩
  have proper := signedRung_proper seq prevHash
  have key : (identity 1).verifyingKey.length = verifyingKeyLen := proper.key
  have sig : (signedRung seq prevHash).sig.length = signatureLen := proper.sig
  have checks : Crypto.mldsaVerify (identity 1).verifyingKey
    (framed .slotCheckpoint (signedRung seq prevHash).body)
      (signedRung seq prevHash).sig = true := beq_self_eq_true _
  have genesis :
    checkpointCheckGenesis (signedRung seq prevHash).seq (signedRung seq prevHash).prevSeq
      (signedRung seq prevHash).prevHash = .ok () := placed
  simp [Checkpoint.verify, NasTools.verify, genesis, key, sig, checks]

/-- A peer that knows the writer, and has no rungs yet. -/
def welcoming : Peer :=
  (peer.step (Peer.new .e2ee .content .honest) (.addWriter (identity 1).verifyingKey)).2

/-- No rung is held before the first one is published. -/
theorem welcoming_checkpoints : welcoming.checkpoints = ∅ := by
  simp only [welcoming, peer]
  split <;> rfl

/-- Every rung of the long ladder is let in by a peer that knows the writer. -/
theorem longLadder_admitted :
    ∀ c ∈ longLadder, c.slotId = slot 1 ∧ welcoming.admitsCheckpoint c ∧ c.Proper := by
  -- The first rung stands at zero and points to nothing; every other one points to something.
  have known : welcoming.roster.get (signedRung 0 Digest.zero).writerId =
      some (identity 1).verifyingKey := by
    decide +kernel
  intro c among
  rcases List.mem_cons.mp among with rfl | among
  · exact ⟨rfl, signedRung_admitted known rfl, signedRung_proper _ _⟩
  · have above {n : UInt64} (some_ : n ≠ 0) {hash : Digest} (points : hash ≠ Digest.zero) :
        checkpointCheckGenesis n 0 hash = .ok () := by
      rw [Checkpoint.checkpointCheckGenesis_ok_iff]
      exact .inr ⟨points, some_, UInt64.pos_iff_ne_zero.mpr some_⟩
    rcases List.mem_cons.mp among with rfl | among
    · exact ⟨rfl, signedRung_admitted known (above (by decide) (by decide)), signedRung_proper _ _⟩
    · obtain ⟨n, inside, rfl⟩ := List.mem_map.mp among
      have some_ : UInt64.ofNat (n + 1) ≠ 0 := by
        have small := List.mem_range.mp inside
        rw [ne_eq, ← UInt64.toNat_inj, UInt64.toNat_ofNat_of_lt' (by rw [UInt64.size]; omega)]
        simp
      exact ⟨rfl, signedRung_admitted known (above some_ (by decide)), signedRung_proper _ _⟩

/-- The rungs of the long ladder stand in the order they are filed in. -/
theorem longLadder_rising :
    longLadder.Pairwise fun a b => compare (Peer.ladderKey a) (Peer.ladderKey b) = .lt := by
  -- The sequences rise, but for the two rungs at the first one.
  have number {n : Nat} (inside : n < 50) : (UInt64.ofNat (n + 1)).toNat = n + 1 :=
    UInt64.toNat_ofNat_of_lt' (by rw [UInt64.size]; omega)
  -- The first two hashes of one sequence are compared; elsewhere the sequences decide.
  have pair : compare (Peer.ladderKey (signedRung 1 (digest [3])))
      (Peer.ladderKey (signedRung 1 (digest [2]))) = .lt := by
    decide +kernel
  refine List.pairwise_cons.mpr ⟨?_, List.pairwise_cons.mpr ⟨?_, ?_⟩⟩
  · intro c among
    apply Peer.ladderKey_lt
    rcases List.mem_cons.mp among with rfl | among
    · decide
    · obtain ⟨n, inside, rfl⟩ := List.mem_map.mp among
      show 0 < (UInt64.ofNat (n + 1)).toNat
      rw [number (List.mem_range.mp inside)]
      omega
  · intro c among
    obtain ⟨n, inside, rfl⟩ := List.mem_map.mp among
    rcases Nat.eq_zero_or_pos n with rfl | later
    · exact pair
    · apply Peer.ladderKey_lt
      show 1 < (UInt64.ofNat (n + 1)).toNat
      rw [number (List.mem_range.mp inside)]
      omega
  · rw [List.pairwise_map]
    refine List.pairwise_lt_range.imp_of_mem ?_
    intro m n inside inside' less
    apply Peer.ladderKey_lt
    show (UInt64.ofNat (m + 1)).toNat < (UInt64.ofNat (n + 1)).toNat
    rw [number (List.mem_range.mp inside), number (List.mem_range.mp inside')]
    omega

/-- A ladder longer than a page is published, and asking for the ladder gives all of it. -/
theorem long_ladder_is_whole :
    ((Sync.ladderPages (slot 1) maxCheckpointsPerSlot [] 0).exec (host silent "lost" "laptop")
      (peer.run (Peer.new .e2ee .content .honest) ladderPuts)).1 = .ok longLadder := by
  -- The run is one over the wire, and what the peer holds is evaluated.
  have wire : ∀ op ∈ ladderPuts, Peer.FromWire op := by
    intro op member
    rcases List.mem_cons.mp member with rfl | member
    · exact trivial
    · obtain ⟨c, among, rfl⟩ := List.mem_map.mp member
      obtain ⟨_, _, proper⟩ := longLadder_admitted c among
      obtain ⟨bytes, _, read⟩ := Checkpoint.reads_back proper
      exact ⟨bytes, read⟩
  have held : (peer.run (Peer.new .e2ee .content .honest) ladderPuts).checkpointsOf (slot 1) 0 =
      longLadder := by
    have listed := Peer.toList_run_rising longLadder_admitted longLadder_rising
      (by simp [welcoming_checkpoints])
        (by simp [welcoming_checkpoints, longLadder, maxCheckpointsPerSlot])
    have all : ∀ c ∈ longLadder,
        (compare ((0 : UInt64), Digest.zero) (Peer.ladderKey c)).isLE = true :=
      fun c _ => Peer.from_isLE_iff.mpr (Nat.zero_le _)
    rw [ladderPuts, Machine.run_cons, ← welcoming, Peer.checkpointsOf, OrdMap.listedWhere, listed]
    simpa [welcoming_checkpoints, List.filter_map, Function.comp_def] using all
  rw [← held]
  refine ((paging_is_safe_iff noZeroDigest .e2ee .content wire silent "lost" "laptop" (slot 1)
    0).2.2 _ rfl).1
    maxCheckpointsPerSlot le_rfl |>.mpr ?_
  rw [held]
  have ends : ∀ a ∈ longLadder[47]?, ∀ b ∈ longLadder[48]?, a.seq.toNat < b.seq.toNat := by
    decide +kernel
  refine ⟨?_, ?_⟩
  · -- Only the first page has another one behind it.
    intro k a b here behind
    rw [page_lengths.1] at here behind
    have inside := (List.getElem?_eq_some_iff.mp behind).1
    rw [longLadder, List.length_cons, List.length_cons, List.length_map, List.length_range]
      at inside
    obtain rfl : k = 0 := by omega
    exact ends a here b behind
  intro top last isTop
  have lower : ∀ c, longLadder.getLast? = some c → c.seq ≠ u64Max := by decide +kernel
  exact absurd isTop (lower top last)

/-- One rung at the last sequence, from any peer, and the loop panics. -/
theorem last_rung_panics :
    ∃ pages : Nat →
      List Bytes, (∀ i, Reads Checkpoint.decode (pages i) [signedRung u64Max (digest [2])]) ∧
      ((Sync.ladderPages (slot 1) (maxCheckpointsPerSlot + 1) [] 0).exec (replying silent pages)
        0).1 = .error .panic := by
  -- The stream never ends before the last number, so the reading has no result.
  obtain ⟨bytes, _, read⟩ := Checkpoint.reads_back (signedRung_proper u64Max (digest [2]))
  have reads : ∀ i : Nat, Reads Checkpoint.decode [bytes] [signedRung u64Max (digest [2])] :=
    fun _ => .cons read .nil
  refine ⟨fun _ => [bytes], reads, ?_⟩
  have none_ :
    (gather ladderReading (stream fun _ => [signedRung u64Max (digest [2])])
    (maxCheckpointsPerSlot + 1) 0 []
      (0 : UInt64).toNat).1 = none := by
    refine (gather_stream_none_iff (fun _ _ => rfl) (by decide) (by decide)).mpr ⟨0,
      ?_, by decide, Nat.zero_le _, nofun, rfl⟩
    exact fun _ _ => List.cons_ne_nil _ _
  rw [exec_ladderPages (replying_answers reads _ _) _ [] 0 trivial]
  generalize gather ladderReading (stream fun _ => [signedRung u64Max (digest [2])])
    (maxCheckpointsPerSlot + 1) 0 []
    (0 : UInt64).toNat = outcome at none_ ⊢
  obtain ⟨_ | out, asked⟩ := outcome
  · rfl
  · cases none_

end

end NasTools
