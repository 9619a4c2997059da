import NasTools.Lib.Machine
import NasTools.Model.Slots.Concrete
import NasTools.Proofs.Publishing

/-! The witness relay of a peer: what was accepted is served, unless its observer replaces it. -/

namespace NasTools

section

variable [Crypto]

/-- A witness that some operation of a run published, and that was accepted. -/
def AcceptedIn (log : List (PeerOp × Except PeerError Unit)) (w : Witness) : Prop :=
  ∃ disk, (PeerOp.publishWitness disk w, .ok ()) ∈ log

namespace Peer

variable {p : Peer}

/-- The witness filed for a slot under an observer and a sequence. -/
def filedWitness (p : Peer) (slot : SlotId) (key : Digest × UInt64) : Option Witness :=
  p.witnesses.find2 slot key

/-- What is filed after a witness was accepted: the witness itself, and otherwise what was there. -/
theorem filedWitness_fileWitness (w : Witness) (slot : SlotId) (key : Digest × UInt64) :
    (p.fileWitness w).filedWitness slot key =
      if w.slotId = slot ∧ (w.witnessId, w.seq) = key then some w else p.filedWitness slot key :=
  OrdMap.find2_insert2

/-- An honest peer serves exactly what is filed. -/
theorem mem_witnessesOf (honest : p.hostility = .honest) {slot : SlotId} {w : Witness} :
    w ∈ p.witnessesOf slot ↔ ∃ key, p.filedWitness slot key = some w := by
  unfold witnessesOf
  rw [if_neg (by simp [honest, Hostility.honest]), OrdMap.mem_listed]
  rfl

/-- Two witnesses of one observer that say the same of one sequence. -/
structure SameEvidence (w w' : Witness) : Prop where
  slotId : w'.slotId = w.slotId
  observer : w'.witnessId = w.witnessId
  seq : w'.seq = w.seq
  recordHash : w'.recordHash = w.recordHash
  prev : w'.prev = w.prev

/-- The evidence of a witness is served to whoever asks for its slot. -/
def Serves (p : Peer) (w : Witness) : Prop := ∃ w' ∈ p.witnessesOf w.slotId, SameEvidence w w'

/-- What a relay keeps while it runs. -/
structure Relayed (past : List (PeerOp × Except PeerError Unit)) (p : Peer) : Prop where
  honest : p.hostility = .honest
  -- A witness is filed where its own fields say.
  placed : ∀ slot key w, p.filedWitness slot key = some w → w.slotId = slot ∧
    (w.witnessId, w.seq) = key
  -- Everything filed was accepted once.
  accepted : ∀ slot key w, p.filedWitness slot key = some w → AcceptedIn past w

/-- What is served of a slot is what is filed under the observer and the sequence. -/
theorem Relayed.serves_iff {past : List (PeerOp × Except PeerError Unit)} (relayed : Relayed past p)
    (w : Witness) :
    p.Serves w ↔ ∃ w', p.filedWitness w.slotId (w.witnessId, w.seq) = some w' ∧
      SameEvidence w w' := by
  -- Every witness is filed under its own observer and sequence, and nowhere else.
  constructor
  · intro served
    obtain ⟨w', served, same⟩ := served
    obtain ⟨key, filed⟩ := (mem_witnessesOf relayed.honest).mp served
    have here := (relayed.placed _ _ _ filed).2
    rw [same.observer, same.seq] at here
    exact ⟨w', here ▸ filed, same⟩
  · intro kept
    obtain ⟨w', filed, same⟩ := kept
    exact ⟨w', (mem_witnessesOf relayed.honest).mpr ⟨_, filed⟩, same⟩

/-- Any other operation leaves what is filed alone. -/
theorem step_filedWitness {op : PeerOp} (other : op.part ≠ .witnesses) (slot : SlotId)
    (key : Digest × UInt64) :
    (peer.step p op).2.filedWitness slot key = p.filedWitness slot key := by
  rw [filedWitness, (step_onlyIn op).witnesses other]
  rfl

/-- Every operation keeps to the relay's rules, and to what was accepted before. -/
theorem relayed_step (past : List (PeerOp × Except PeerError Unit)) (p : Peer) (op : PeerOp)
    (relayed : Relayed past p) :
      Relayed (past ++ [(op, (peer.step p op).1)]) (peer.step p op).2 := by
  -- Only publishing a witness files one, and then its acceptance is logged.
  have earlier : ∀ w, AcceptedIn past w → AcceptedIn (past ++ [(op, (peer.step p op).1)]) w :=
    fun w ⟨disk, logged⟩ => ⟨disk, List.mem_append_left _ logged⟩
  have honest := (step_onlyIn (p := p) op).hostility.trans relayed.honest
  by_cases part : op.part = .witnesses
  · cases op with
    | publishWitness disk w =>
      rcases publishWitness_cases (p := p) disk w with ⟨_, e, refused⟩ | ⟨_, filed⟩
      · rw [show peer.step p (.publishWitness disk w) = _ from refused] at *
        exact ⟨honest, relayed.placed,
          fun slot key w' held => earlier w' (relayed.accepted slot key w' held)⟩
      · rw [show peer.step p (.publishWitness disk w) = _ from filed] at *
        refine ⟨honest, ?_, ?_⟩ <;> intro slot key w' held <;> rw [filedWitness_fileWitness]
          at held <;>
          split at held
        · -- The new witness stands under its own key.
          rename_i here
          obtain rfl := Option.some.inj held
          exact here
        · exact relayed.placed slot key w' held
        · obtain rfl := Option.some.inj held
          exact ⟨disk, by simp⟩
        · exact earlier w' (relayed.accepted slot key w' held)
    | _ => cases part
  · refine ⟨honest, ?_, ?_⟩ <;> intro slot key w held <;> rw [step_filedWitness part] at held
    · exact relayed.placed slot key w held
    · exact earlier w (relayed.accepted slot key w held)

/-- A witness the relay lets in over one that says something else under its key. -/
def Overwrites (p : Peer) (op : PeerOp) : Prop :=
  ∃ disk w held, op = .publishWitness disk w ∧ p.RelaysIn disk w ∧
    p.filedWitness w.slotId (w.witnessId, w.seq) = some held ∧
      (held.recordHash ≠ w.recordHash ∨ held.prev ≠ w.prev)

/-- An operation that does not overwrite leaves all evidence served. -/
theorem step_serves {past : List (PeerOp × Except PeerError Unit)} (relayed : Relayed past p)
    {op : PeerOp} (careful : ¬p.Overwrites op) {w : Witness} (served : p.Serves w) :
    (peer.step p op).2.Serves w := by
  -- A careful step that files under the same key says the same.
  obtain ⟨w', filed, same⟩ := (relayed.serves_iff w).mp served
  rw [(relayed_step past p op relayed).serves_iff]
  by_cases part : op.part = .witnesses
  · cases op with
    | publishWitness disk new =>
      rcases publishWitness_cases (p := p) disk new with ⟨_, e, refused⟩ | ⟨relays, accepted⟩
      · rw [show peer.step p (.publishWitness disk new) = _ from refused]
        exact ⟨w', filed, same⟩
      · rw [show peer.step p (.publishWitness disk new) = _ from accepted]
        rw [filedWitness_fileWitness]
        split
        · -- The new witness takes the place of the one served before, and says the same.
          rename_i here
          obtain ⟨slot, key⟩ := here
          rw [← slot, ← key] at filed
          obtain ⟨observer, seq⟩ := Prod.mk.inj key
          have agree : w'.recordHash = new.recordHash ∧ w'.prev = new.prev := by
            by_contra differ
            exact careful ⟨disk, new, w', rfl, relays, filed, by tauto⟩
          exact ⟨new, rfl, slot, observer, seq, agree.1.symm.trans same.recordHash,
            agree.2.symm.trans same.prev⟩
        · exact ⟨w', filed, same⟩
    | _ => cases part
  · exact ⟨w', (step_filedWitness part _ _).trans filed, same⟩

/-- Everything accepted in the past is served. -/
def KeepsEvidence (past : List (PeerOp × Except PeerError Unit)) (p : Peer) : Prop :=
  ∀ w, AcceptedIn past w → p.Serves w

/-- What is accepted is served at once, and what was served before stays so. -/
theorem keepsEvidence_step (past : List (PeerOp × Except PeerError Unit)) (p : Peer) (op : PeerOp)
    (careful : ¬p.Overwrites op) (relayed : Relayed past p) (keeps : KeepsEvidence past p) :
    KeepsEvidence (past ++ [(op, (peer.step p op).1)]) (peer.step p op).2 := by
  -- The new witness is served, and what was accepted before still is.
  intro w accepted
  obtain ⟨disk, logged⟩ := accepted
  rcases List.mem_append.mp logged with before | now
  · exact step_serves relayed careful (keeps w ⟨disk, before⟩)
  · obtain ⟨rfl, answer⟩ := Prod.mk.inj (List.mem_singleton.mp now)
    rcases publishWitness_cases (p := p) disk w with ⟨_, e, refused⟩ | ⟨_, filed⟩
    · rw [show peer.step p (.publishWitness disk w) = _ from refused] at answer
      cases answer
    · rw [(relayed_step past p _ relayed).serves_iff, show peer.step p (.publishWitness disk w) =
        _ from filed, filedWitness_fileWitness, if_pos ⟨rfl, rfl⟩]
      exact ⟨w, rfl, rfl, rfl, rfl, rfl, rfl⟩

/-- What overwrites a witness loses its evidence. -/
theorem not_serves_of_overwrites {past : List (PeerOp × Except PeerError Unit)}
    (relayed : Relayed past p) {op : PeerOp} (overwrites : p.Overwrites op) :
    ∃ w, AcceptedIn past w ∧ ¬(peer.step p op).2.Serves w := by
  -- The one that was held was accepted, and it is no longer there.
  obtain ⟨disk, new, held, rfl, relays, filed, differ⟩ := overwrites
  obtain ⟨slot, key⟩ := relayed.placed _ _ _ filed
  obtain ⟨observer, seq⟩ := Prod.mk.inj key
  refine ⟨held, relayed.accepted _ _ _ filed, ?_⟩
  rw [(relayed_step past p _ relayed).serves_iff]
  intro found
  obtain ⟨w', served, same⟩ := found
  rcases publishWitness_cases (p := p) disk new with ⟨refused, _⟩ | ⟨_, accepted⟩
  · exact refused relays
  · -- Under the key of both stands the new one, which says something else.
    rw [show peer.step p (.publishWitness disk new) = _ from accepted, filedWitness_fileWitness,
      if_pos ⟨slot.symm, by rw [observer, seq]⟩] at served
    obtain rfl := Option.some.inj served
    rcases differ with hash | prev
    · exact hash same.recordHash.symm
    · exact prev same.prev.symm

/-- In every state a run goes through, all evidence accepted so far is served. -/
def NeverLosesEvidence (start : Peer) (ops : List PeerOp) : Prop :=
  ∀ before after, ops = before ++ after →
    KeepsEvidence (peer.log start before) (peer.run start before)

/--
When the relay loses no accepted evidence, over every run of an honest peer.

It does exactly when no observer publishes a second, different witness at one sequence of a slot.
-/
theorem relay_keeps_evidence_iff (mode : Mode) (addressing : Addressing) (ops : List PeerOp) :
    NeverLosesEvidence (Peer.new mode addressing .honest) ops ↔
      peer.Permits (fun p op => ¬p.Overwrites op) (Peer.new mode addressing .honest) ops := by
  -- A run of a fresh peer, which has relayed nothing.
  have fresh : Relayed [] (Peer.new mode addressing .honest) := by
    refine ⟨rfl, ?_, ?_⟩ <;> intro slot key w held <;> simp [filedWitness, Peer.new] at held
  have relayed : ∀ before, Relayed (peer.log (Peer.new mode addressing .honest) before)
      (peer.run (Peer.new mode addressing .honest) before) := fun before =>
    Machine.log_invariant fresh Machine.permits_always fun past p op _ held =>
      relayed_step past p op held
  constructor
  · intro never
    rw [Machine.permits_iff_each]
    rintro before op after rfl overwrites
    -- The overwritten witness was accepted before the operation, and is not served after it.
    obtain ⟨w, ⟨disk, logged⟩, lost⟩ := not_serves_of_overwrites (relayed before) overwrites
    have kept := never (before ++ [op]) after (by simp)
    rw [Machine.log_append, Machine.run_append] at kept
    exact lost (kept w ⟨disk, List.mem_append_left _ logged⟩)
  · rintro permitted before after rfl
    have careful := (Machine.permits_append.mp permitted).1
    have nothing : KeepsEvidence [] (Peer.new mode addressing .honest) := by
      intro w accepted
      obtain ⟨_, logged⟩ := accepted
      simp at logged
    -- The evidence is carried along with the rules of the relay.
    have both := Machine.log_invariant (P := fun past p => Relayed past p ∧ KeepsEvidence past p)
      ⟨fresh, nothing⟩ careful fun past p op careful held =>
        ⟨relayed_step past p op held.1, keepsEvidence_step past p op careful held.1 held.2⟩
    exact both.2

end Peer

end

section Replaced

open Concrete

/-- What an observer says of the first sequence of a slot, and what it says of it later. -/
def seenFirst : Witness := witness 1 1 0 (digest [1]) Digest.zero

def seenLater : Witness := witness 1 1 0 (digest [2]) Digest.zero

/-- Both witnesses are accepted, and the first is no longer served. -/
theorem second_witness_replaces_the_first :
    ¬Peer.NeverLosesEvidence (Peer.new .e2ee .content .honest)
      [.publishWitness (.ok ()) seenFirst, .publishWitness (.ok ()) seenLater] := by
  -- Suppose none were ever lost.
  intro never
  have accepted :
      (peer.step (Peer.new .e2ee .content .honest) (.publishWitness (.ok ()) seenFirst)).1 =
      .ok () := by
    decide +kernel
  have logged : AcceptedIn (peer.log (Peer.new .e2ee .content .honest)
      [.publishWitness (.ok ()) seenFirst, .publishWitness (.ok ()) seenLater]) seenFirst :=
    ⟨.ok (), by rw [← accepted]; exact List.mem_cons_self⟩
  obtain ⟨w, served, same⟩ := never _ [] (List.append_nil _).symm seenFirst logged
  -- All that is served of the slot is the later hash.
  have left : ((peer.run (Peer.new .e2ee .content .honest) [.publishWitness (.ok ()) seenFirst,
      .publishWitness (.ok ()) seenLater]).witnessesOf seenFirst.slotId).map Witness.recordHash =
      [digest [2]] := by
    decide +kernel
  have hash := List.mem_map_of_mem (f := Witness.recordHash) served
  rw [left, same.recordHash] at hash
  revert hash
  decide

end Replaced

end NasTools
