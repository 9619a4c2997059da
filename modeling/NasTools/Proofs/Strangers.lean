import NasTools.Model.Cli.Concrete
import NasTools.Model.Cli.Hosted
import NasTools.Model.Peer.SlotHistory
import NasTools.Proofs.Memory

/-! A stranger on the same peer, and what its requests do to the syncs of a namespace. -/

namespace NasTools

namespace Sync

/-- An ending that is no refusal of what the peer serves for the slot. -/
def Beside : Exit → Prop
  | .refused .head _ | .refused .handoffs _ | .refused .ladder _ | .refused .history _ => False
  | _ => True

section

variable {A : Type}

/-- A failure of the device's own is beside the head. -/
theorem stops_orFail {result : Except String A} : (orFail result).Stops Beside := by
  cases result <;> trivial

/-- A refusal is beside the head where every text of it is. -/
theorem stops_orRefuse {stage : Stage} {result : Except String A}
    (beside : ∀ text, Beside (.refused stage text)) : (orRefuse stage result).Stops Beside := by
  cases result with
  | error e => exact beside e
  | ok a => trivial

/-- A request is beside the head where its error is. -/
theorem stops_request {node : Node} {req : Request} {name : String} {onError : String → Exit}
    {pick : Response → Option A} (beside : ∀ text, Beside (onError text)) :
    (request node req name onError pick).Stops Beside := by
  -- One question is asked, and answered.
  intro answer
  cases answer with
  -- A call that is lost ends the sync with the loss, whatever was asked.
  | error e => trivial
  | ok reply =>
    cases picked : pick reply with
    | none => cases reply <;> simp only [picked] <;> first | exact beside _ | trivial
    | some a => simp only [picked]; trivial

end

end Sync

section

variable [Crypto]

namespace Sync

/-- Pushing a blob does not refuse the head. -/
theorem pushBlob_beside (addr : Addr) (ct : Bytes) : (pushBlob addr ct).Stops Beside := by
  -- The peer is asked whether it holds the blob.
  refine Script.stops_bind (stops_request fun _ => trivial) fun held => ?_
  cases held with
  -- A blob the peer does not hold is sent, and one it holds is proved.
  | false =>
    refine Script.stops_bind (stops_request fun _ => trivial) fun stored => ?_
    split <;> trivial
  | true =>
    refine Script.stops_bind (fun _ => stops_orFail) fun nonce => ?_
    refine Script.stops_bind (stops_request fun _ => trivial) fun answer => ?_
    split <;> trivial

/-- Nothing before the slot is read refuses it. -/
theorem offerBlobs_beside (d : Device) : (offerBlobs d).Stops Beside := by
  -- The questions are asked one behind the other, and none is about the head.
  refine Script.stops_bind (stops_request fun _ => trivial) fun _ => ?_
  refine Script.stops_bind stops_orFail fun _ => ?_
  refine Script.stops_bind ?_ fun _ => ?_
  · -- The blobs are pushed one by one, and then leased batch by batch.
    generalize d.blobs.files.keys = addrs
    induction addrs with
    | nil => trivial
    | cons addr rest ih =>
      refine Script.stops_bind stops_orFail fun ct => ?_
      exact Script.stops_bind (pushBlob_beside addr ct) fun _ => ih
  · generalize leaseBatches d.blobs.files.keys = batches
    generalize d.blobs.files.keys.length = total
    generalize 0 = leased
    induction batches generalizing leased with
    | nil => trivial
    | cons batch rest ih => exact Script.stops_bind (stops_request fun _ => trivial) fun _ => ih _

/-- A root manifest that does not open is refused as what it is, and not as a head. -/
theorem openServed_beside (d : Device) (read : SlotRead) : (openServed d read).Stops Beside := by
  -- Opening asks for one blob and then opens it.
  unfold openServed
  split
  · trivial
  · refine Script.stops_bind ?_ fun _ => trivial
    refine Script.stops_bind (stops_request fun _ => trivial) fun bytes => ?_
    split
    · exact stops_orRefuse fun _ => trivial
    · trivial

/-- The one way in which choosing the next version ends a sync is the largest number. -/
theorem nextRecord_beside (root : Option Addr) (served : Option (SlotRecord × RootManifest)) :
    (nextRecord root served).Stops Beside := by
  -- Counting on can only fail at the end of the numbers.
  unfold nextRecord
  split
  · trivial
  · trivial
  · split
    · trivial
    · split <;> trivial

omit [Crypto] in
/-- Sealing the root does not refuse the head. -/
theorem sealRoot_beside (d : Device) (slot : SlotId) (seq : UInt64) (manifest : RootManifest) :
    (sealRoot d slot seq manifest).Stops Beside := by
  unfold sealRoot
  split
  · exact stops_orFail
  · exact fun _ => Script.stops_bind stops_orFail fun _ => stops_orFail

/-- A record that the peer turns down is refused at its publication. -/
theorem publishRecord_beside (d : Device) (r : Reader) (seq : UInt64) (prev : Digest)
    (tree : Addr) :
    (publishRecord d r seq prev tree).Stops Beside := by
  -- Every step of publishing fails for a reason of its own.
  refine Script.stops_bind (sealRoot_beside _ _ _ _) fun _ => ?_
  refine Script.stops_bind (fun _ => stops_orFail) fun _ => ?_
  refine Script.stops_bind (pushBlob_beside _ _) fun _ => ?_
  refine Script.stops_bind (stops_request fun _ => trivial) fun _ => ?_
  refine Script.stops_bind stops_orFail fun _ => ?_
  refine Script.stops_bind stops_orFail fun _ => ?_
  refine Script.stops_bind (stops_request fun _ => trivial) fun _ => ?_
  exact Script.stops_bind (fun _ => stops_orFail) fun _ => trivial

/-- Laying a rung does not refuse the head. -/
theorem maybeRung_beside (r : Reader) (top : Option Checkpoint) (rec_ : SlotRecord) :
    (maybeRung r top rec_).Stops Beside := by
  -- Every step of laying a rung fails for a reason of its own.
  unfold maybeRung
  split
  · refine Script.stops_bind stops_orFail fun _ => ?_
    refine Script.stops_bind stops_orFail fun _ => ?_
    refine Script.stops_bind (stops_request fun _ => trivial) fun _ => ?_
    exact fun _ => stops_orFail
  · trivial

/-- Settling does not refuse the head. -/
theorem settle_beside (d : Device) (read : SlotRead) (next : Option (UInt64 × Digest × Addr)) :
    (settle d read next).Stops Beside := by
  -- Three cases: nothing to settle, a head to pin, or a record to publish.
  unfold settle
  split
  · trivial
  · -- The served head is accepted, and pinned where it is news.
    split
    · exact Script.stops_bind (fun _ => stops_orFail) fun _ => trivial
    · trivial
  · refine Script.stops_bind (publishRecord_beside _ _ _ _ _) fun rec_ => ?_
    exact Script.stops_bind (maybeRung_beside _ _ _) fun _ => trivial

/-- A witness node that turns an observation down does not refuse what the peer serves. -/
theorem observe_beside (read : SlotRead) (held : SlotRecord) :
    (observe read held).Stops Beside := by
  -- A witness is signed and published.
  simp only [observe]
  split
  · trivial
  · refine Script.stops_bind stops_orFail fun _ => ?_
    refine Script.stops_bind stops_orFail fun _ => ?_
    exact stops_request fun _ => trivial

/-- Nothing after the slot is read refuses it. -/
theorem finish_beside (d : Device) (read : SlotRead) : (finish d read).Stops Beside := by
  -- The stages after the head has been read.
  refine Script.stops_bind (openServed_beside d read) fun served => ?_
  refine Script.stops_bind (nextRecord_beside _ _) fun next => ?_
  refine Script.stops_bind (settle_beside _ _ _) fun held => ?_
  cases held with
  | none => trivial
  | some record => exact observe_beside read record

end Sync

namespace Peer

variable {p q : Peer} {slot : SlotId}

/-- Every handoff held verifies. -/
def HandoffsVerify (p : Peer) : Prop := ∀ slot, ∀ h ∈ p.handoffsOf slot, h.verify = .ok ()

/-- Filing a handoff adds it to those of its slot, and to no others. -/
theorem mem_handoffsOf_file {h g : SlotHandoff} (held : g ∈ (p.fileHandoff h).handoffsOf slot) :
    g = h ∨ g ∈ p.handoffsOf slot := by
  -- Only the slot of the new handoff changes.
  unfold handoffsOf fileHandoff at *
  by_cases same : h.slotId = slot
  · -- Under its own slot the new handoff stands beside the old ones, or in place of one.
    subst same
    rw [Std.ExtTreeMap.getD_insert_self] at held
    obtain ⟨key, found⟩ := OrdMap.mem_listed.mp held
    rw [Std.ExtTreeMap.getElem?_insert] at found
    split at found
    · exact .inl (Option.some.inj found).symm
    · exact .inr (OrdMap.mem_listed.mpr ⟨key, found⟩)
  · right
    simpa [Std.ExtTreeMap.getD_insert, same] using held

/-- Only handoffs that verify are ever filed. -/
theorem step_handoffsVerify (honest : p.hostility = .honest) (op : PeerOp)
    (sound : p.HandoffsVerify) :
    (peer.step p op).2.HandoffsVerify := by
  -- Only a handoff that verifies is filed.
  rcases step_slots honest op with kept | ⟨rec, _, _, _, _, _, _, filed⟩ |
    ⟨h, _, _, verified, _, filed⟩ | ⟨c, _, _, _, filed⟩
  · intro slot h held
    rw [handoffsOf, kept.handoffs] at held
    exact sound slot h held
  · -- A record and a rung are filed elsewhere; a handoff is verified before it is filed.
    rw [filed]
    exact sound
  · rw [filed]
    intro slot g held
    rcases mem_handoffsOf_file held with rfl | older
    · exact verified
    · exact sound slot g older
  · rw [filed]
    exact sound

/-- An honest peer whose handoffs verify stays one. -/
theorem visit_handoffsVerify (v : Visit) (honest : p.hostility = .honest)
    (sound : p.HandoffsVerify) :
    (p.visit v).hostility = .honest ∧ (p.visit v).HandoffsVerify := by
  -- A visit is one step, or it changes nothing.
  rcases visit_cases (p := p) v with same | ⟨op, _, stepped⟩
  · rw [same]
    exact ⟨honest, sound⟩
  · rw [stepped]
    exact ⟨(step_cases honest op).1.hostility.trans honest, step_handoffsVerify honest op sound⟩

/-- Every peer that started empty and honest is honest and holds handoffs that verify. -/
theorem run_handoffsVerify (mode : Mode) (addressing : Addressing) (ops : List PeerOp) :
    let p := peer.run (Peer.new mode addressing .honest) ops
    p.hostility = .honest ∧ p.HandoffsVerify := by
  -- It holds of a new peer, and every step keeps it.
  refine Machine.run_invariant (P := fun p : Peer => p.hostility = .honest ∧ p.HandoffsVerify) ?_
    Machine.permits_always ?_
  · refine ⟨rfl, ?_⟩
    intro slot h held
    simp [handoffsOf, Peer.new] at held
  · intro p op _ kept
    exact ⟨(step_cases kept.1 op).1.hostility.trans kept.1, step_handoffsVerify kept.1 op kept.2⟩

/-- Every record of a slot is one that anybody on the roster may follow. -/
def Merging (p : Peer) (slot : SlotId) : Prop := ∀ r ∈ p.recordsOf slot, r.regime = .casMerge

/--
A request that reaches into a slot: a record or a rung the peer lets in, or a handoff of a slot that
has known a sole writer.
-/
def Intrudes (slot : SlotId) (p : Peer) (v : Visit) : Prop :=
  (∃ bytes rec, v.req = .publishSlot bytes ∧ SlotRecord.decode bytes = .ok rec ∧ rec.slotId = slot ∧
    p.admitSlot v.subject rec = .ok () ∧ p.checkNext rec = .ok ()) ∨
  (∃ bytes c, v.req = .publishCheckpoint bytes ∧ Checkpoint.decode bytes = .ok c ∧ c.slotId = slot ∧
    p.admitsCheckpoint c) ∨
  ∃ bytes h, v.req = .publishHandoff bytes ∧ SlotHandoff.decode bytes = .ok h ∧ h.slotId = slot ∧
    h.verify = .ok () ∧ ¬p.Merging slot

/-- No request of a sequence reaches into a slot, in the state it arrives in. -/
def Undisturbed (slot : SlotId) (p : Peer) : List Visit → Prop
  | [] => True
  | v :: rest => ¬Intrudes slot p v ∧ Undisturbed slot (p.visit v) rest

/-- Two peers that show one slot alike, up to handoffs that no reader of the slot needs. -/
structure AgreeOn (slot : SlotId) (p q : Peer) : Prop where
  hostility : q.hostility = p.hostility
  witnessOnly : q.witnessOnly = p.witnessOnly
  slots : q.slots[slot]? = p.slots[slot]?
  checkpoints : q.checkpoints[slot]? = p.checkpoints[slot]?
  handoffs : q.handoffs[slot]? = p.handoffs[slot]? ∨ p.Merging slot

/-- Peers that agree on a slot have the same records of it. -/
theorem recordsOf_of_agree (agree : AgreeOn slot p q) : q.recordsOf slot = p.recordsOf slot := by
  rw [recordsOf, recordsOf, Std.ExtTreeMap.getD_eq_getD_getElem?, agree.slots,
    ← Std.ExtTreeMap.getD_eq_getD_getElem?]

/-- Agreeing on a slot is transitive. -/
theorem AgreeOn.trans {a b c : Peer} (first : AgreeOn slot a b) (second : AgreeOn slot b c) :
    AgreeOn slot a c where
  -- The handoffs are the same, or readers need none.
  hostility := second.hostility.trans first.hostility
  witnessOnly := second.witnessOnly.trans first.witnessOnly
  slots := second.slots.trans first.slots
  checkpoints := second.checkpoints.trans first.checkpoints
  handoffs := by
    rcases first.handoffs with same | merging
    · rcases second.handoffs with same' | merging
      · exact .inl (same'.trans same)
      · -- The records are the same in between, so they are merging ones there as well.
        right
        intro r member
        rw [← recordsOf_of_agree first] at member
        exact merging r member
    · exact .inr merging

/-- Peers agree where the slots are kept. -/
theorem agreeOn_of_kept (kept : SlotsKept p q) : AgreeOn slot p q where
  -- All that is seen of a slot is the same.
  hostility := kept.hostility
  witnessOnly := kept.witnessOnly
  slots := by rw [kept.slots]
  checkpoints := by rw [kept.checkpoints]
  handoffs := .inl (by rw [kept.handoffs])

/-- Peers agree where the slots are kept, the other way round. -/
theorem agreeOn_of_kept_back (kept : SlotsKept p q) : AgreeOn slot q p where
  -- The same equalities, read backwards.
  hostility := kept.hostility.symm
  witnessOnly := kept.witnessOnly.symm
  slots := by rw [kept.slots]
  checkpoints := by rw [kept.checkpoints]
  handoffs := .inl (by rw [kept.handoffs])

/-- A request that does not reach into a slot leaves it as readers see it. -/
theorem visit_agrees (honest : p.hostility = .honest) {v : Visit} (outside : ¬Intrudes slot p v) :
    AgreeOn slot p (p.visit v) := by
  -- Whatever is filed for this slot would intrude.
  rcases visit_slots honest v with kept | ⟨bytes, rec, is, decoded, admitted, next, filed⟩ |
    ⟨bytes, h, is, decoded, verified, filed⟩ | ⟨bytes, c, is, decoded, admitted, filed⟩
  · exact agreeOn_of_kept kept
  · -- A record that was let in is of another slot, or it would intrude.
    have other : rec.slotId ≠ slot := fun same =>
      outside (.inl ⟨bytes, rec, is, decoded, same, admitted, next⟩)
    rw [filed]
    exact ⟨rfl, rfl, by simp [fileSlot, Std.ExtTreeMap.getElem?_insert, other], rfl, .inl rfl⟩
  · rw [filed]
    refine ⟨rfl, rfl, rfl, rfl, ?_⟩
    by_cases same : h.slotId = slot
    · -- A handoff of this slot is let in only where no reader needs one.
      right
      by_contra sole
      exact outside (.inr (.inr ⟨bytes, h, is, decoded, same, verified, sole⟩))
    · left
      simp [fileHandoff, Std.ExtTreeMap.getElem?_insert, same]
  · have other : c.slotId ≠ slot := fun same =>
      outside (.inr (.inl ⟨bytes, c, is, decoded, same, admitted⟩))
    rw [filed]
    exact ⟨rfl, rfl, rfl, by simp [fileCheckpoint, Std.ExtTreeMap.getElem?_insert, other], .inl rfl⟩

/-- Requests that do not reach into a slot leave it as readers see it. -/
theorem visits_agree {vs : List Visit} (honest : p.hostility = .honest) (sound : p.HandoffsVerify)
    (undisturbed : Undisturbed slot p vs) :
    AgreeOn slot p (p.visits vs) ∧ (p.visits vs).HandoffsVerify := by
  -- Induction over the requests.
  induction vs generalizing p with
  | nil => exact ⟨agreeOn_of_kept (.refl p), sound⟩
  | cons v rest ih =>
    -- One request at a time, each arriving at an honest peer.
    obtain ⟨honest', sound'⟩ := visit_handoffsVerify v honest sound
    obtain ⟨later, ends⟩ := ih honest' sound' undisturbed.2
    exact ⟨(visit_agrees honest undisturbed.1).trans later, ends⟩

/-- Whatever range of a history is listed, it lists records of the slot. -/
theorem mem_of_slotHistory (honest : p.hostility = .honest) {start : UInt64}
    {records : List SlotRecord} {r : SlotRecord} (listing : p.slotHistory slot start = some records)
    (listed : r ∈ records) :
    r ∈ p.recordsOf slot := by
  -- The history is that of the slot itself, for an honest peer has no other branch.
  have branch : p.branch slot = p.slots[slot]? := by simp [Peer.branch, honest, Hostility.honest]
  rw [recordsOf, Std.ExtTreeMap.getD_eq_getD_getElem?]
  unfold slotHistory at listing
  rw [branch] at listing
  cases held : p.slots[slot]? with
  | none =>
    rw [held] at listing
    obtain rfl := Option.some.inj listing
    cases listed
  | some history =>
    simp only [held] at listing
    split at listing
    · cases listing
    · obtain rfl := Option.some.inj listing
      simp only [OrdMap.listedWhere, List.mem_map, List.mem_filter] at listed
      obtain ⟨entry, ⟨member, _⟩, rfl⟩ := listed
      exact List.mem_map.mpr ⟨entry, member, rfl⟩

section

variable (honest : p.hostility = .honest) (agree : AgreeOn slot p q)

include honest agree

/-- Peers that agree serve the same head. -/
theorem slotHead_of_agree : q.slotHead slot = p.slotHead slot := by
  simp [slotHead, branch, agree.hostility, agree.slots, honest, Hostility.honest]

/-- Peers that agree serve the same history. -/
theorem slotHistory_of_agree (start : UInt64) :
    q.slotHistory slot start = p.slotHistory slot start := by
  have head := slotHead_of_agree honest agree
  simp [slotHistory, branch, agree.hostility, agree.slots, honest, Hostility.honest, head]

omit honest in
/-- Peers that agree serve the same rungs. -/
theorem checkpointsOf_of_agree (start : UInt64) :
    q.checkpointsOf slot start = p.checkpointsOf slot start := by
  simp only [checkpointsOf, Std.ExtTreeMap.getD_eq_getD_getElem?, agree.checkpoints]

/-- Two peers that show a slot alike answer alike about it, but for its handoffs. -/
theorem steady_of_agree (around : (op : Op) → op.Answer) (lost : String) {op : Op}
    (about : Sync.AboutSlot slot op)
    (same : (∀ s, op ≠ .call .peer (.handoffs s)) ∨ q.handoffs[slot]? = p.handoffs[slot]?) :
    Hosted.steady around lost q op = Hosted.steady around lost p op := by
  -- One kind of question after the other.
  cases op with
  | call node req =>
    cases node with
    | witness => rfl
    | peer =>
      simp only [Hosted.steady, handleAt, agree.witnessOnly]
      -- A node for witnesses alone turns both questions away alike.
      by_cases shut : p.witnessOnly ∧ ¬req.relayed
      · simp only [if_pos shut]
      · simp only [if_neg shut]
        cases req with
        | slotHead s =>
          obtain rfl : s = slot := about
          simp only [slotHead_of_agree honest agree]
        | slotHistory s start =>
          obtain rfl : s = slot := about
          simp only [slotHistory_of_agree honest agree]
        | checkpoints s start =>
          obtain rfl : s = slot := about
          simp only [checkpointsOf_of_agree agree]
        -- The one question whose answer may differ.
        | handoffs s =>
          obtain rfl : s = slot := about
          rcases same with other | same
          · exact absurd rfl (other s)
          · simp only [handoffsOf, Std.ExtTreeMap.getD_eq_getD_getElem?, same]
        | _ => exact about.elim
  | _ => rfl

end

end Peer

namespace Sync

variable {p q : Peer} {slot : SlotId} {around : (op : Op) → op.Answer} {lost : String}

/-- Questions about a slot that are not about its handoffs. -/
def NotHandoffs (slot : SlotId) (op : Op) : Prop :=
  AboutSlot slot op ∧ ∀ s, op ≠ .call .peer (.handoffs s)

/-- Handoffs that decode are handed on, those of other slots left out. -/
theorem believeHandoffs_ok {items : List Bytes}
    (decodes : ∀ bytes ∈ items, ∃ h, SlotHandoff.decode bytes = .ok h) :
    ∃ ours, believeHandoffs slot items = .ok ours := by
  -- Induction over the handoffs.
  induction items with
  | nil => exact ⟨[], rfl⟩
  | cons bytes rest ih =>
    obtain ⟨h, decoded⟩ := decodes bytes (by simp)
    obtain ⟨ours, believed⟩ := ih fun other member => decodes other (by simp [member])
    simp only [believeHandoffs, decoded, believed, except_mapError_ok, except_ok_bind]
    -- A handoff of another slot is left out, and none is refused.
    split
    · exact ⟨_, rfl⟩
    · exact ⟨_, rfl⟩

/-- A peer that holds only handoffs that verify is never refused for what it answers about them. -/
theorem askHandoffs_goes_well {A : Type} {f : List SlotHandoff → Sync A} {said : Conversation}
    {outcome : Except Exit A} (sound : q.HandoffsVerify) (serving : q.witnessOnly = false)
    (played : (askHandoffs slot >>= f).Plays said outcome)
    (fixed : ∀ x ∈ said, x.2 = Hosted.steady around lost q x.1) :
    ∃ authorisations back, (∀ x ∈ back, x ∈ said) ∧ (f authorisations).Plays back outcome := by
  -- A handoff that verifies has the widths it is stored with.
  have encodes (h : SlotHandoff) (held : h ∈ q.handoffsOf slot) :
      ∃ bytes, h.encode = .ok bytes := by
    obtain ⟨key, sig⟩ := SlotHandoff.widths_of_verify (sound slot h held)
    exact SlotHandoff.encode_ok key sig
  obtain ⟨page, answer⟩ : ∃ page, bounded (q.handoffsOf slot) SlotHandoff.encode
      HandoffError.display = .records page := boundedFrom_of_encodes encodes
  have decodes (bytes : Bytes) (member : bytes ∈ page) : ∃ h, SlotHandoff.decode bytes = .ok h := by
    rcases boundedFrom_records answer bytes member with impossible | ⟨h, held, encoded⟩
    · cases impossible
    · obtain ⟨key, sig⟩ := SlotHandoff.widths_of_verify (sound slot h held)
      exact ⟨h, SlotHandoff.decode_encode encoded key sig⟩
  obtain ⟨ours, believed⟩ : ∃ ours, believeHandoffs slot page = .ok ours :=
    believeHandoffs_ok decodes
  have steady :
      Hosted.steady around lost q (.call .peer (.handoffs slot)) = .ok (.records page) := by
    simp [Hosted.steady, handleAt, serving, answer, told]
  -- The question is answered with the page, and the page is believed.
  unfold askHandoffs request at played
  obtain ⟨given, back, rfl, later⟩ := Script.plays_ask.mp played
  have given_eq : given = .ok (.records page) := (fixed _ (List.mem_cons_self ..)).trans steady
  subst given_eq
  refine ⟨ours, back, fun x member => by simp [member], ?_⟩
  simpa [Response.asRecords, orRefuse, believed, Script.bind] using later

/-- A peer that served a head to somebody is no witness-only node. -/
theorem serving_of_servedHead {served : Option SlotRecord} {said : Conversation}
    (played : (servedHead slot).Plays said (.ok served))
    (fixed : ∀ x ∈ said, x.2 = Hosted.steady around lost p x.1) : p.witnessOnly = false := by
  -- The steps that succeed are taken apart.
  simp only [servedHead, Script.plays_bind_ok, plays_request_ok] at played
  obtain ⟨answer, _, back, rfl, ⟨reply, rfl, picked⟩, _⟩ := played
  have told : (.ok reply : Except String Response) =
      Hosted.steady around lost p (.call .peer (.slotHead slot)) :=
    fixed ⟨.call .peer (.slotHead slot), .ok reply⟩ (by simp)
  -- A witness-only node answers with an error, which is no head.
  by_contra shut
  have only : p.witnessOnly = true := by simpa using shut
  simp only [Hosted.steady, handleAt, only, Request.relayed, NasTools.told] at told
  obtain rfl := Except.ok.inj told
  cases picked

/-- Every record of a page of history is one the peer holds. -/
theorem historyPages_held {headSeq : UInt64} {budget fuel : Nat} {out result : List SlotRecord}
    {next : UInt64} {said : Conversation} (serving : p.witnessOnly = false)
    (honest : p.hostility = .honest)
    (played : (historyPages slot headSeq budget fuel out next).Plays said (.ok result))
    (fixed : ∀ x ∈ said, x.2 = Hosted.steady around lost p x.1) :
    ∀ r ∈ result, r ∈ out ∨ r ∈ p.recordsOf slot := by
  -- Induction over the rounds that are left.
  induction fuel generalizing out next said with
  -- Without a round left, what was read so far is the answer.
  | zero =>
    obtain ⟨_, same⟩ := Script.plays_done.mp played
    obtain rfl := Except.ok.inj same
    exact fun r member => .inl member
  | succ fuel ih =>
    simp only [historyPages, Script.plays_bind_ok, plays_request_ok] at played
    obtain ⟨page, _, back, rfl, ⟨reply, rfl, picked⟩, later⟩ := played
    obtain rfl : reply = .records page := Response.asRecords_eq_some.mp picked
    split at later
    · obtain ⟨_, same⟩ := Script.plays_done.mp later
      obtain rfl := Except.ok.inj same
      exact fun r member => .inl member
    · simp only [Script.plays_bind_ok, plays_orRefuse_ok] at later
      obtain ⟨fresh, _, rest, rfl, ⟨rfl, decoded⟩, later⟩ := later
      have answered : (.ok (.records page) : Except String Response) =
          Hosted.steady around lost p (.call .peer (.slotHistory slot next)) :=
        fixed ⟨.call .peer (.slotHistory slot next), .ok (.records page)⟩ (by simp)
      -- What was served is the encoding of records that are held.
      have held (r : SlotRecord) (member : r ∈ out ++ fresh) : r ∈ out ∨ r ∈ p.recordsOf slot := by
        rcases List.mem_append.mp member with before | new
        · exact .inl before
        · obtain ⟨bytes, onPage, decodes⟩ := decodePage_mem decoded r new
          right
          simp only [Hosted.steady, handleAt, serving, Bool.false_eq_true, false_and, if_false]
            at answered
          cases listing : p.slotHistory slot next with
          | none =>
            rw [listing] at answered
            cases answered
          | some records =>
            rw [listing] at answered
            have page_eq : bounded records SlotRecord.encode RecordError.display = .records page :=
              (Except.ok.inj answered).symm
            rcases boundedFrom_records page_eq bytes onPage with impossible | ⟨s, listed, encoded⟩
            · cases impossible
            · rw [SlotRecord.decode_of_encode encoded decodes]
              exact Peer.mem_of_slotHistory honest listing listed
      split at later
      · obtain ⟨_, same⟩ := Script.plays_done.mp later
        obtain rfl := Except.ok.inj same
        exact held
      · intro r member
        rcases ih later (fun x inRest => fixed x (by simp [inRest])) r member with before | kept
        · exact held r before
        · exact .inr kept

/-- The ladder is checked without a look at the handoffs. -/
theorem readLadder_handoffs (d : Device) (r : Reader)
    (authorisations authorisations' : List SlotHandoff) :
    readLadder d r authorisations = readLadder d r authorisations' := by
  -- A ladder without records asks nobody who may follow whom.
  have same (rungs : List Checkpoint) :
      checkLadder r d.cpPin authorisations rungs = checkLadder r d.cpPin authorisations' rungs := by
    unfold checkLadder
    rw [verifySkipChain_merging authorisations authorisations' (by simp)]
  simp only [readLadder, same]

/-- A walk over records that anybody may follow is verified without a look at the handoffs. -/
theorem verifyWalk_handoffs {r : Reader} {anchor : Option Digest} {rungs : List Checkpoint}
    {w : Walking} (authorisations authorisations' : List SlotHandoff)
    (merging : ∀ x ∈ w.chain, x.regime = .casMerge) :
    verifyWalk r anchor authorisations rungs w = verifyWalk r anchor authorisations' rungs w := by
  -- A merging slot asks for no handoff.
  have first (x : SlotRecord) (head : w.chain.head? = some x) : x.regime = .casMerge :=
    merging x (List.mem_of_mem_head? head)
  unfold verifyWalk
  dsimp only
  rw [verifyChainWithHandoffs_merging authorisations authorisations' first,
    verifySkipChain_merging authorisations authorisations' first]

/-- Every record of a walk is one the peer holds. -/
theorem chooseWalk_held {rungs : List Checkpoint} {start headSeq : UInt64} {w : Walking}
    {said : Conversation} (serving : p.witnessOnly = false) (honest : p.hostility = .honest)
    (played : (chooseWalk slot rungs start headSeq).Plays said (.ok w))
    (fixed : ∀ x ∈ said, x.2 = Hosted.steady around lost p x.1) :
    ∀ r ∈ w.chain, r ∈ p.recordsOf slot := by
  -- Both reads, the first and the one from a rung, are of this peer.
  have held {start : UInt64} {part : Conversation} {result : List SlotRecord}
      (fetched : (fetch slot headSeq start).Plays part (.ok result))
        (inside : ∀ x ∈ part, x ∈ said) :
      ∀ r ∈ result, r ∈ p.recordsOf slot := by
    intro r member
    rcases historyPages_held serving honest fetched (fun x inPart => fixed x (inside x inPart))
      r member
      with impossible | kept
    · cases impossible
    · exact kept
  simp only [chooseWalk, Script.plays_bind_ok] at played
  obtain ⟨offered, front, back, rfl, fetched, later⟩ := played
  split at later
  · obtain ⟨_, rfl⟩ : _ ∧ w = _ := by simpa using later
    exact held fetched fun x member => by simp [member]
  · split at later
    · cases later
    · simp only [Script.plays_bind_ok, Script.pure_eq, Script.plays_done, Except.ok.injEq] at later
      obtain ⟨chain, middle, _, rfl, again, rfl, rfl⟩ := later
      exact held again fun x member => by simp [member]
    · cases later

/-- A walk that went well goes well again, whatever handoffs are known. -/
theorem walkHistory_again {r : Reader} {cpPin : Option (UInt64 × Digest)} {pin : Option Device.Pin}
    {witnessed : List Witness} {authorisations authorisations' : List SlotHandoff}
    {rungs : List Checkpoint} {h : SlotRecord} {walked : Walked} {said said' : Conversation}
    {outcome : Except Exit Walked} (serving : p.witnessOnly = false)
    (honest : p.hostility = .honest) (merging : p.Merging r.slot)
    (ran : (walkHistory r cpPin pin witnessed authorisations rungs h).Plays said (.ok walked))
    (fixed : ∀ x ∈ said, x.2 = Hosted.steady around lost p x.1)
    (played : (walkHistory r cpPin pin witnessed authorisations' rungs h).Plays said' outcome)
    (fixed' : ∀ x ∈ said', NotHandoffs r.slot x.1 → x.2 = Hosted.steady around lost p x.1) :
    outcome = .ok walked := by
  -- The walk is taken apart, and put together with other handoffs.
  unfold walkHistory at ran played
  obtain ⟨w, front, back, rfl, chosen, checked⟩ := Script.plays_bind_ok.mp ran
  have choosing : (chooseWalk r.slot rungs (memoryStart pin witnessed h.seq) h.seq).Asks
      (NotHandoffs r.slot) := chooseWalk_asks _ _ _ _ fun _ => ⟨rfl, fun _ => nofun⟩
  obtain ⟨back', rfl, again⟩ :=
    Script.plays_follow (Hosted.steady around lost p) choosing chosen played
    (fun x member _ => fixed x (by simp [member])) fixed'
  -- The same records were walked, and their verification does not look at the handoffs.
  have records := chooseWalk_held serving honest chosen fun x member => fixed x (by simp [member])
  rw [verifyWalk_handoffs authorisations' authorisations fun x member =>
    merging x (records x member)] at again
  refine (Script.plays_same (Hosted.steady around lost p) ?_ checked again
    (fun x member (_ : NotHandoffs r.slot x.1) => fixed x (by simp [member]))
    fun x member => fixed' x (by simp [member])).2
  refine Script.asks_bind asks_orRefuse fun _ => ?_
  refine Script.asks_bind asks_orRefuse fun _ => ?_
  exact Script.asks_bind asks_orRefuse fun _ => trivial

/-- A slot that was read from one peer is read from every peer that shows it alike. -/
theorem readSlot_again {d : Device} {o : SyncOpts} {read : SlotRead} {said said' : Conversation}
    {outcome : Except Exit SlotRead}
    (own : ∀ writer, d.slotIdentity = .ok writer → slotIdOf writer.verifyingKey d.ns = slot)
    (honest : p.hostility = .honest) (agree : Peer.AgreeOn slot p q) (sound : q.HandoffsVerify)
    (ran : (readSlot d o).Plays said (.ok read))
    (fixed : ∀ x ∈ said, x.2 = Hosted.steady around lost p x.1)
    (played : (readSlot d o).Plays said' outcome)
    (fixed' : ∀ x ∈ said', x.2 = Hosted.steady around lost q x.1) :
    ∃ read', outcome = .ok read' := by
  -- The reading is taken apart, and its parts are gone through again.
  have asks := readSlot_asks d o own
  have about := Script.asked_of_plays asks played
  rcases agree.handoffs with same | merging
  · -- Everything is answered alike, so the two readings are one.
    refine ⟨read, (Script.plays_same (Hosted.steady around lost p) asks ran played
      (fun x member _ => fixed x member) fun x member isAbout => ?_).2⟩
    rw [fixed' x member]
    exact Peer.steady_of_agree honest agree around lost isAbout (.inr same)
  -- Everything but the handoffs is answered alike, and the handoffs decide nothing.
  have alike (x : Script.Exchange Op.Answer) (member : x ∈ said') (other : NotHandoffs slot x.1) :
      x.2 = Hosted.steady around lost p x.1 := by
    rw [fixed' x member]
    exact Peer.steady_of_agree honest agree around lost other.1 (.inl other.2)
  -- A step that went well without the requests goes well with them.
  have follow {A B : Type} {s : Sync A} {f : A → Sync B} {a : A} {front rest : Conversation}
      {ending : Except Exit B} (only : s.Asks (NotHandoffs slot)) (went : s.Plays front (.ok a))
      (known : ∀ x ∈ front, x ∈ said) (again : (s >>= f).Plays rest ending)
      (inside : ∀ x ∈ rest, x ∈ said') :
      ∃ back, (∀ x ∈ back, x ∈ said') ∧ (f a).Plays back ending := by
    obtain ⟨back, rfl, later⟩ := Script.plays_follow (Hosted.steady around lost p) only went again
      (fun x member _ => fixed x (known x member)) fun x member => alike x (inside x member)
    exact ⟨back, fun x member => inside x (by simp [member]), later⟩
  unfold readSlot at ran played
  obtain ⟨⟨root, writer, s⟩, s₁, r₁, rfl, opening, ran⟩ := Script.plays_bind_ok.mp ran
  obtain ⟨_, identity, rfl⟩ := plays_openReader_ok opening
  obtain rfl := own writer identity
  obtain ⟨served, s₂, r₂, rfl, serving, ran⟩ := Script.plays_bind_ok.mp ran
  obtain ⟨roster, s₃, r₃, rfl, rostered, ran⟩ := Script.plays_bind_ok.mp ran
  obtain ⟨_, s₄, r₄, rfl, checked, ran⟩ := Script.plays_bind_ok.mp ran
  obtain ⟨witness, s₅, r₅, rfl, witnessing, ran⟩ := Script.plays_bind_ok.mp ran
  obtain ⟨_, s₆, r₆, rfl, compared, ran⟩ := Script.plays_bind_ok.mp ran
  obtain ⟨authorisations, s₇, r₇, rfl, handing, ran⟩ := Script.plays_bind_ok.mp ran
  obtain ⟨⟨rungs, top⟩, s₈, r₈, rfl, climbing, ran⟩ := Script.plays_bind_ok.mp ran
  -- The peer that served the head serves the pages as well.
  have open_ : p.witnessOnly = false :=
    serving_of_servedHead serving fun x member => fixed x (by simp [member])
  have whole : ∀ x ∈ said', x ∈ said' := fun _ member => member
  obtain ⟨_, in₁, played⟩ := follow (openReader_asks d) opening (by simp +contextual) played whole
  obtain ⟨_, in₂, played⟩ := follow (servedHead_asks _ ⟨rfl, fun _ => nofun⟩) serving
    (by simp +contextual) played in₁
  obtain ⟨_, in₃, played⟩ := follow asks_orFail rostered (by simp +contextual) played in₂
  obtain ⟨_, in₄, played⟩ := follow asks_orRefuse checked (by simp +contextual) played in₃
  obtain ⟨_, in₅, played⟩ := follow (askWitness_asks d o _ ⟨trivial, fun _ => nofun⟩
    ⟨trivial, fun _ => nofun⟩) witnessing (by simp +contextual) played in₄
  obtain ⟨_, in₆, played⟩ := follow asks_orRefuse compared (by simp +contextual) played in₅
  obtain ⟨authorisations', back, inside, played⟩ := askHandoffs_goes_well sound
    (agree.witnessOnly.trans open_) played fun x member => fixed' x (in₆ x member)
  have in₇ : ∀ x ∈ back, x ∈ said' := fun x member => in₆ x (inside x member)
  rw [readLadder_handoffs d _ authorisations' authorisations] at played
  have ladder :
    (readLadder d ⟨writer, slotIdOf writer.verifyingKey d.ns, roster⟩ authorisations).Asks
      (NotHandoffs (slotIdOf writer.verifyingKey d.ns)) := by
    refine Script.asks_bind (ladderPages_asks _ _ _ _ fun _ => ⟨rfl, fun _ => nofun⟩)
      fun rungs => ?_
    exact Script.asks_bind (checkLadder_asks _ _ _ _ fun _ _ => ⟨trivial, fun _ => nofun⟩)
      fun _ => trivial
  obtain ⟨_, in₈, played⟩ := follow ladder climbing (by simp +contextual) played in₇
  cases served with
  | none => exact ⟨_, (Script.plays_done.mp played).2⟩
  -- A head that is served is walked to, and the walk does not look at the handoffs either.
  | some h =>
    obtain ⟨walked, s₉, _, rfl, walking, _⟩ := Script.plays_bind_ok.mp ran
    rcases Script.plays_bind.mp played with ⟨e, rfl, failed⟩ | ⟨walked', _, _, _, _, later⟩
    · have again := walkHistory_again open_ honest merging walking
        (fun x member => fixed x (by simp [member])) failed
        fun x member => alike x (in₈ x member)
      cases again
    · exact ⟨_, (Script.plays_done.mp later).2⟩

/-- A connection that was made once is made again in the same surroundings. -/
theorem dial_again {A : Type} {f : Unit → Sync A} {subject subject' : String} {p' q' : Peer}
    {said said' : Conversation} {outcome : Except Exit A}
    (dialled : (dial .peer).Plays said (.ok ())) (hosted : Hosted around lost subject p said p')
    (played : (dial .peer >>= f).Plays said' outcome)
    (hosted' : Hosted around lost subject' q said' q') :
    ∃ front back, said' = front ++ back ∧ (∀ x ∈ front, Quiet x.1) ∧ (f ()).Plays back outcome := by
  -- One question is asked, and answered.
  obtain ⟨answer, rest, rfl, went⟩ := Script.plays_ask.mp dialled
  obtain ⟨answer', rest', rfl, later⟩ := Script.plays_ask.mp played
  -- A connection is part of the surroundings, which are the same in both.
  cases hosted with
  | free _ _ free => exact free.elim
  | fixed =>
    cases hosted' with
    | free _ _ free => exact free.elim
    | fixed =>
      cases made : around (.dial .peer) with
      | error e => simp [made] at went
      | ok u =>
        refine ⟨[⟨.dial .peer, .ok u⟩], rest', rfl, ?_, ?_⟩
        · intro x member
          rw [List.mem_singleton.mp member]
          trivial
        · rw [made] at later
          exact later

end Sync

/--
A sync that would have succeeded before some requests is not refused after them for what the peer
serves for its own slot.

The two syncs run in the same surroundings; the peer's clock and disk may differ.
-/
def Unwedged (p : Peer) (vs : List Visit) (d : Device) : Prop :=
  ∀ around lost subject o said said' p' q' outcome, Hosted around lost subject p said p' →
    (sync d o).Plays said (.ok ()) → Hosted around lost subject (p.visits vs) said' q' →
    (sync d o).Plays said' outcome → ∀ e, outcome = .error e → Sync.Beside e

/--
On every honest peer, whatever a client asks for, no namespace is wedged whose slot is left alone.

A record or a rung the peer lets into the slot is what must not come, and a handoff only where the
slot has known a sole writer; requests that name other slots, and witnesses, never matter.
-/
theorem strangers_cannot_wedge (mode : Mode) (addressing : Addressing) (ops : List PeerOp)
    (vs : List Visit) (d : Device)
    (undisturbed : ∀ writer, d.slotIdentity = .ok writer →
      Peer.Undisturbed (slotIdOf writer.verifyingKey d.ns)
        (peer.run (Peer.new mode addressing .honest) ops) vs) :
    Unwedged (peer.run (Peer.new mode addressing .honest) ops) vs d := by
  -- The sync is taken apart twice, without the requests and with them.
  obtain ⟨honest, sound⟩ := Peer.run_handoffsVerify mode addressing ops
  generalize peer.run (Peer.new mode addressing .honest) ops = p at undisturbed honest sound
  intro around lost subject o said said' p' q' outcome hosted ran hosted' played e ended
  -- Without the requests: the connection, the blobs, the reading, each leaving the slots alone.
  obtain ⟨_, s₁, r₁, rfl, dialled, ran⟩ := Script.plays_bind_ok.mp ran
  obtain ⟨_, s₂, r₂, rfl, offered, ran⟩ := Script.plays_bind_ok.mp ran
  obtain ⟨read, s₃, r₃, rfl, reading, _⟩ := Script.plays_bind_ok.mp ran
  obtain ⟨p₁, h₁, hosted⟩ := hosted.split
  obtain ⟨p₂, h₂, hosted⟩ := hosted.split
  obtain ⟨p₃, h₃, _⟩ := hosted.split
  obtain ⟨⟨root, writer, slot⟩, _, _, _, opening, _⟩ := Script.plays_bind_ok.mp reading
  obtain ⟨_, identity, rfl⟩ := Sync.plays_openReader_ok opening
  have own (other : Identity) (is : d.slotIdentity = .ok other) :
      slotIdOf other.verifyingKey d.ns = slotIdOf writer.verifyingKey d.ns := by
    rw [identity, Except.ok.injEq] at is
    rw [is]
  have kept₁ :=
    h₁.slotsKept_of_quiet honest (Script.asked_of_plays (Sync.asks_dial.mpr trivial) dialled)
  have kept₂ := h₂.slotsKept_of_quiet (kept₁.hostility.trans honest)
    (Script.asked_of_plays (Sync.offerBlobs_quiet d) offered)
  have kept := kept₁.trans kept₂
  obtain ⟨_, fixed⟩ := h₃.about_slot (Script.asked_of_plays (Sync.readSlot_asks d o own) reading)
  -- With them: the same parts, up to the point where something else ends the sync.
  obtain ⟨agree, sound'⟩ := Peer.visits_agree honest sound (undisturbed writer identity)
  have honest' : (p.visits vs).hostility = .honest := agree.hostility.trans honest
  obtain ⟨t₁, _, rfl, quiet₁, played⟩ := Sync.dial_again dialled h₁ played hosted'
  obtain ⟨q₁, g₁, hosted'⟩ := hosted'.split
  have keptQ₁ := g₁.slotsKept_of_quiet honest' quiet₁
  rcases Script.plays_bind.mp played with ⟨e', rfl, failed⟩ | ⟨_, t₂, _, rfl, offered', played⟩
  · obtain rfl := Except.error.inj ended
    exact Script.stopped_of_plays (Sync.offerBlobs_beside d) failed
  obtain ⟨q₂, g₂, hosted'⟩ := hosted'.split
  have keptQ := keptQ₁.trans (g₂.slotsKept_of_quiet (keptQ₁.hostility.trans honest')
    (Script.asked_of_plays (Sync.offerBlobs_quiet d) offered'))
  rcases Script.plays_bind.mp played with ⟨e', rfl, failed⟩ | ⟨read', t₃, t₄, rfl, _, finishing⟩
  · -- The slot looks the same, so reading it cannot fail.
    obtain ⟨_, fixed'⟩ := hosted'.about_slot
      (Script.asked_of_plays (Sync.readSlot_asks d o own) failed)
    have alike : Peer.AgreeOn (slotIdOf writer.verifyingKey d.ns) p₂ q₂ :=
      ((Peer.agreeOn_of_kept_back kept).trans agree).trans (Peer.agreeOn_of_kept keptQ)
    have sound₂ : q₂.HandoffsVerify := by
      intro slot h held
      rw [Peer.handoffsOf, keptQ.handoffs] at held
      exact sound' slot h held
    obtain ⟨read', again⟩ :=
      Sync.readSlot_again own (kept.hostility.trans honest) alike sound₂ reading
      fixed failed fixed'
    cases again
  · subst ended
    exact Script.stopped_of_plays (Sync.finish_beside d read') finishing

end

section

open Concrete

/-- A peer with two namespaces on its roster, either of which may write. -/
def sharedOps : List PeerOp :=
  [.addWriter (identity 7).verifyingKey, .addWriter (identity 9).verifyingKey,
    .setAcl ((Acl.empty.grant "a" [.write]).grant "b" [.write])]

/-- That peer, before anybody has published anything. -/
def sharedPeer : Peer := peer.run (Peer.new .e2ee .content .honest) sharedOps

/-- The other namespace publishes a first record of its own to some slot. -/
def strangerWrites (slot : SlotId) : Visit where
  subject := "b"
  disk := .ok ()
  now := 0
  req := .publishSlot (sent (recordOf 9 slot 0 (digest [1]) Digest.zero .casMerge))

/-- How a sync against a peer ends, everything else going well. -/
def endsAs (d : Device) (p : Peer) : Except Exit Unit :=
  ((sync d ⟨false, false⟩).exec (host (fun op => (scripted [] op).1) "closed" "a") p).1

/-- An ending that refuses the served head. -/
def refusesHead : Except Exit Unit → Bool
  | .error (.refused .head _) => true
  | _ => false

/-- What refuses the head is not beside it. -/
theorem not_beside_of_refusesHead {e : Exit} (refuses : refusesHead (.error e)) :
    ¬Sync.Beside e := by
  -- There is one way to refuse the head.
  unfold refusesHead at refuses
  split at refuses
  · rename_i is
    obtain rfl := Except.error.inj is
    exact id
  · cases refuses

/--
A stranger that fills the first place of an empty slot wedges the namespace it belongs to.

Both keys are on the peer's roster, and the stranger's is not on the client's.
-/
theorem stranger_wedges_a_slot :
    (sharedPeer.roster.get (identity 7).id).isSome ∧
      (sharedPeer.roster.get (identity 9).id).isSome ∧
      ((device none).loadClientRoster.toOption.bind fun r => r.get (identity 9).id) = none ∧
      ¬Unwedged sharedPeer [strangerWrites deviceSlot] (device none) := by
  -- Without the stranger the sync ends well, and with it the head is refused.
  have evaluated : ((sharedPeer.roster.get (identity 7).id).isSome ∧
    (sharedPeer.roster.get (identity 9).id).isSome ∧
      ((device none).loadClientRoster.toOption.bind fun r => r.get (identity 9).id) = none) ∧
      endsAs (device none) sharedPeer = .ok () ∧
        refusesHead (endsAs (device none) (sharedPeer.visits [strangerWrites deviceSlot])) := by
          decide +kernel
  obtain ⟨keys, alone, wedged⟩ := evaluated
  refine ⟨keys.1, keys.2.1, keys.2.2, ?_⟩
  intro unwedged
  have ran := Script.exec_plays (host (fun op => (scripted [] op).1) "closed" "a")
    (sync (device none) ⟨false, false⟩) sharedPeer
  rw [show (Script.exec _ _ sharedPeer).1 = _ from alone] at ran
  cases ending : endsAs (device none) (sharedPeer.visits [strangerWrites deviceSlot]) with
  | ok u => simp [ending, refusesHead] at wedged
  | error e =>
    have beside := unwedged _ "closed" "a" ⟨false, false⟩ _ _ _ _ _
      (hosted_transcript _ _ _ _ sharedPeer) ran
      (hosted_transcript _ _ _ _ (sharedPeer.visits [strangerWrites deviceSlot]))
      (Script.exec_plays _ _ _) e ending
    rw [ending] at wedged
    exact not_beside_of_refusesHead wedged beside

/-- A stranger that writes to a slot of its own leaves the namespace alone. -/
theorem stranger_on_its_own_slot :
    sharedPeer.visits [strangerWrites (slot 5)] ≠ sharedPeer ∧
      Unwedged sharedPeer [strangerWrites (slot 5)] (device none) := by
  -- The stranger writes to another slot, so the theorem applies.
  have decoded :
    SlotRecord.decode (sent (recordOf 9 (slot 5) 0 (digest [1]) Digest.zero .casMerge)) =
      .ok (recordOf 9 (slot 5) 0 (digest [1]) Digest.zero .casMerge) := by decide +kernel
  have elsewhere : slot 5 ≠ deviceSlot := by decide +kernel
  refine ⟨?_, strangers_cannot_wedge .e2ee .content sharedOps _ _ ?_⟩
  · intro same
    have published : ((sharedPeer.visits [strangerWrites (slot 5)]).slotHead (slot 5)).isSome := by
      decide +kernel
    rw [same] at published
    exact absurd published (by decide +kernel)
  · intro writer identity
    obtain rfl : Concrete.identity 7 = writer := Except.ok.inj identity
    refine ⟨?_, trivial⟩
    intro intrudes
    rcases intrudes with ⟨bytes, rec, is, read, named, _⟩ | ⟨bytes, c, is, _⟩ | ⟨bytes, h, is, _⟩
    · -- The record it sends names the other slot.
      obtain rfl : sent _ = bytes := Request.publishSlot.inj is
      rw [decoded] at read
      obtain rfl := Except.ok.inj read
      exact elsewhere named
    · cases is
    · cases is

end

end NasTools
