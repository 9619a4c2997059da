import NasTools.Model.Cli.Sync

/-! Which conversations the steps of a sync can have, and which questions each part asks. -/

namespace NasTools

namespace Sync

variable {A : Type} {said : List (Script.Exchange Op.Answer)} {a : A}

/-- A result that may be refused goes on only if it is a success. -/
@[simp] theorem plays_orRefuse_ok {stage : Stage} {result : Except String A} :
    (orRefuse stage result).Plays said (.ok a) ↔ said = [] ∧ result = .ok a := by
  cases result <;> simp [orRefuse, refuse, eq_comm]

/-- A result that may fail goes on only if it is a success. -/
@[simp] theorem plays_orFail_ok {result : Except String A} :
    (orFail result).Plays said (.ok a) ↔ said = [] ∧ result = .ok a := by
  cases result <;> simp [orFail, fail, eq_comm]

/-- A refusal does not end well. -/
@[simp] theorem not_plays_refuse_ok {stage : Stage} {text : String} :
    ¬(refuse stage text : Sync A).Plays said (.ok a) := by
  simp [refuse]

/-- A failure does not end well. -/
@[simp] theorem not_plays_fail_ok {text : String} : ¬(fail text : Sync A).Plays said (.ok a) := by
  simp [fail]

/-- A round trip that succeeds is one exchange, answered with what the step can use. -/
@[simp] theorem plays_request_ok {node : Node} {req : Request} {name : String}
    {onError : String → Exit} {pick : Response → Option A} :
    (request node req name onError pick).Plays said (.ok a) ↔
      ∃ reply, said = [⟨.call node req, .ok reply⟩] ∧ pick reply = some a := by
  -- One question is asked, and its answer is picked.
  unfold request
  rw [Script.plays_ask]
  constructor
  · intro asked
    obtain ⟨answer, rest, rfl, played⟩ := asked
    cases answer with
    | error e => simp at played
    | ok reply =>
      refine ⟨reply, ?_⟩
      -- An answer of another kind ends the step with an error.
      cases picked : pick reply with
      | none => cases reply <;> simp [picked] at played
      | some b =>
        simp only [picked, Script.plays_done, Except.ok.injEq] at played
        obtain ⟨rfl, rfl⟩ := played
        exact ⟨rfl, rfl⟩
  · intro asked
    obtain ⟨reply, rfl, picked⟩ := asked
    exact ⟨.ok reply, [], rfl, by simp [picked]⟩

section

variable {allowed : Op → Prop} {B : Type}

/-- A result that may fail asks nothing. -/
@[simp] theorem asks_orFail {result : Except String A} : (orFail result).Asks allowed := by
  cases result <;> trivial

/-- A result that may be refused asks nothing. -/
@[simp] theorem asks_orRefuse {stage : Stage} {result : Except String A} :
    (orRefuse stage result).Asks allowed := by
  cases result <;> trivial

/-- A refusal asks nothing. -/
@[simp] theorem asks_refuse {stage : Stage} {text : String} :
    (refuse stage text : Sync A).Asks allowed := trivial

/-- A failure asks nothing. -/
@[simp] theorem asks_fail {text : String} : (fail text : Sync A).Asks allowed := trivial

/-- A round trip asks one question. -/
@[simp] theorem asks_request {node : Node} {req : Request} {name : String}
    {onError : String → Exit} {pick : Response → Option A} :
    (request node req name onError pick).Asks allowed ↔ allowed (.call node req) := by
  -- Whatever comes back, nothing more is asked.
  unfold request
  rw [Script.asks_ask]
  refine ⟨fun asks => asks.1, fun may => ⟨may, ?_⟩⟩
  intro answer
  cases answer with
  | error e => exact asks_fail
  | ok reply =>
    cases picked : pick reply with
    | none => cases reply <;> simp [picked]
    | some b => simp [picked]

/-- Dialling a node asks only that. -/
@[simp] theorem asks_dial {node : Node} : (dial node).Asks allowed ↔ allowed (.dial node) := by
  -- Whether or not it is reached, nothing more is asked.
  unfold dial
  rw [Script.asks_ask]
  refine ⟨fun asks => asks.1, fun may => ⟨may, ?_⟩⟩
  intro answer
  cases answer <;> trivial

end

/-- A question that moves no pin. -/
def Still : Op → Prop
  | .writePin _ _ | .writeCpPin _ _ => False
  | _ => True

/--
A question that neither moves a pin, nor publishes anything to a slot, nor asks for the head.

All parts of a sync but four ask no other.
-/
def Quiet : Op → Prop
  | .writePin _ _ | .writeCpPin _ _ => False
  | .call _ (.publishSlot _) | .call _ (.publishCheckpoint _) | .call _ (.publishHandoff _) => False
  | .call _ (.slotHead _) => False
  | _ => True

/-- A question that does not ask for the head. -/
def NotHead : Op → Prop
  | .call _ (.slotHead _) => False
  | _ => True

/-- A question that neither moves the record pin nor publishes anything to the slot. -/
def ReadOnly : Op → Prop
  | .writePin _ _ | .call _ (.publishSlot _) | .call _ (.publishCheckpoint _) => False
  | _ => True

/-- A quiet operation does not publish a head. -/
theorem Quiet.notHead {op : Op} (quiet : Quiet op) : NotHead op := by
  unfold NotHead
  split
  · exact quiet.elim
  · trivial

/-- A quiet operation writes nothing of a slot. -/
theorem Quiet.readOnly {op : Op} (quiet : Quiet op) : ReadOnly op := by
  -- Each of the operations that write is not quiet.
  unfold ReadOnly
  split
  · exact quiet.elim
  · exact quiet.elim
  · exact quiet.elim
  · trivial

/-- A quiet operation leaves the pins alone. -/
theorem Quiet.still {op : Op} (quiet : Quiet op) : Still op := by
  cases op <;> trivial

variable [Crypto]

/-- Pushing a blob is quiet. -/
theorem pushBlob_quiet (addr : Addr) (ct : Bytes) : (pushBlob addr ct).Asks Quiet := by
  -- The peer is asked first whether it has the blob.
  refine Script.asks_bind (asks_request.mpr trivial) ?_
  intro held
  cases held with
  -- The peer does not have the blob, so it is sent.
  | false =>
    refine Script.asks_bind (asks_request.mpr trivial) ?_
    intro stored
    split <;> trivial
  -- The peer has it, and is asked for a proof over a fresh nonce.
  | true =>
    refine Script.asks_bind ⟨trivial, fun _ => asks_orFail⟩ ?_
    intro nonce
    refine Script.asks_bind (asks_request.mpr trivial) ?_
    intro answer
    split <;> trivial

/-- Pushing blobs is quiet. -/
theorem pushBlobs_quiet (d : Device) (addrs : List Addr) : (pushBlobs d addrs).Asks Quiet := by
  -- Induction over the addresses: each blob is read and then pushed.
  induction addrs with
  | nil => trivial
  | cons addr rest ih =>
    refine Script.asks_bind asks_orFail ?_
    intro ct
    exact Script.asks_bind (pushBlob_quiet addr ct) fun _ => ih

omit [Crypto] in
/-- Taking leases is quiet. -/
theorem takeLeases_quiet (total leased : Nat) (batches : List (List Addr)) :
    (takeLeases total leased batches).Asks Quiet := by
  induction batches generalizing leased with
  | nil => trivial
  | cons batch rest ih => exact Script.asks_bind (asks_request.mpr trivial) fun _ => ih _

/-- Offering blobs is quiet. -/
theorem offerBlobs_quiet (d : Device) : (offerBlobs d).Asks Quiet := by
  refine Script.asks_bind (asks_request.mpr trivial) fun _ => ?_
  refine Script.asks_bind asks_orFail fun _ => ?_
  exact Script.asks_bind (pushBlobs_quiet d _) fun _ => takeLeases_quiet _ _ _

section

variable {allowed : Op → Prop}

/-- Opening the reader asks nothing. -/
theorem openReader_asks (d : Device) : (openReader d).Asks allowed :=
  Script.asks_bind asks_orFail fun _ => Script.asks_bind asks_orFail fun _ => trivial

/-- Asking the witness takes a dial and one call. -/
theorem askWitness_asks (d : Device) (o : SyncOpts) (slot : SlotId)
    (dials : allowed (.dial .witness)) (calls : allowed (.call .witness (.witnesses slot))) :
    (askWitness d o slot).Asks allowed := by
  -- With no witness named, or none wanted, nothing is asked.
  unfold askWitness
  split
  · refine Script.asks_bind asks_orFail fun _ => ?_
    refine Script.asks_bind (asks_dial.mpr dials) fun _ => ?_
    refine Script.asks_bind (asks_request.mpr calls) fun _ => ?_
    exact Script.asks_bind asks_orRefuse fun _ => trivial
  · trivial
  · trivial

/-- Asking for handoffs takes one call. -/
theorem askHandoffs_asks (slot : SlotId) (may : allowed (.call .peer (.handoffs slot))) :
    (askHandoffs slot).Asks allowed :=
  Script.asks_bind (asks_request.mpr may) fun _ => asks_orRefuse

omit [Crypto] in
/-- Reading the ladder asks for its pages. -/
theorem ladderPages_asks (slot : SlotId) (fuel : Nat) (rungs : List Checkpoint) (next : UInt64)
    (may : ∀ start, allowed (.call .peer (.checkpoints slot start))) :
    (ladderPages slot fuel rungs next).Asks allowed := by
  -- Every page is asked for in the same words, from another place on.
  induction fuel generalizing rungs next with
  | zero => trivial
  | succ fuel ih =>
    refine Script.asks_bind (asks_request.mpr (may _)) ?_
    intro page
    dsimp only
    split
    · trivial
    · refine Script.asks_bind asks_orRefuse ?_
      intro fresh
      split
      · trivial
      · split
        · trivial
        · exact ih _ _

omit [Crypto] in
/-- Reading the history asks for its pages. -/
theorem historyPages_asks (slot : SlotId) (headSeq : UInt64) (budget fuel : Nat)
    (out : List SlotRecord) (next : UInt64)
    (may : ∀ start, allowed (.call .peer (.slotHistory slot start))) :
    (historyPages slot headSeq budget fuel out next).Asks allowed := by
  -- Induction over the pages that may still be asked for.
  induction fuel generalizing out next with
  | zero => trivial
  | succ fuel ih =>
    refine Script.asks_bind (asks_request.mpr (may _)) ?_
    intro page
    dsimp only
    split
    · trivial
    · refine Script.asks_bind asks_orRefuse ?_
      intro fresh
      split
      · trivial
      · exact ih _ _

omit [Crypto] in
/-- Choosing what to walk asks for pages of the history. -/
theorem chooseWalk_asks (slot : SlotId) (rungs : List Checkpoint) (start headSeq : UInt64)
    (may : ∀ start, allowed (.call .peer (.slotHistory slot start))) :
    (chooseWalk slot rungs start headSeq).Asks allowed := by
  -- One page is asked for, and the choice then asks for more or for nothing.
  refine Script.asks_bind (historyPages_asks _ _ _ _ _ _ may) ?_
  intro offered
  split
  · trivial
  · split
    · trivial
    · exact Script.asks_bind (historyPages_asks _ _ _ _ _ _ may) fun _ => trivial
    · trivial

/-- Walking the history asks for its pages. -/
theorem walkHistory_asks (r : Reader) (cpPin : Option (UInt64 × Digest))
    (pinned : Option Device.Pin) (witnessed : List Witness) (authorisations : List SlotHandoff)
    (rungs : List Checkpoint) (h : SlotRecord)
    (may : ∀ start, allowed (.call .peer (.slotHistory r.slot start))) :
    (walkHistory r cpPin pinned witnessed authorisations rungs h).Asks allowed := by
  refine Script.asks_bind (chooseWalk_asks _ _ _ _ may) fun _ => ?_
  refine Script.asks_bind asks_orRefuse fun _ => ?_
  refine Script.asks_bind asks_orRefuse fun _ => ?_
  exact Script.asks_bind asks_orRefuse fun _ => trivial

end

/-- Opening the reader is quiet. -/
theorem openReader_quiet (d : Device) : (openReader d).Asks Quiet := openReader_asks d

/-- Asking the witness is quiet. -/
theorem askWitness_quiet (d : Device) (o : SyncOpts) (slot : SlotId) :
    (askWitness d o slot).Asks Quiet :=
  askWitness_asks d o slot trivial trivial

/-- Asking for handoffs is quiet. -/
theorem askHandoffs_quiet (slot : SlotId) : (askHandoffs slot).Asks Quiet :=
  askHandoffs_asks slot trivial

omit [Crypto] in
/-- Reading the ladder is quiet. -/
theorem ladderPages_quiet (slot : SlotId) (fuel : Nat) (rungs : List Checkpoint) (next : UInt64) :
    (ladderPages slot fuel rungs next).Asks Quiet :=
  ladderPages_asks _ _ _ _ fun _ => trivial

/-- Walking the history is quiet. -/
theorem walkHistory_quiet (r : Reader) (cpPin : Option (UInt64 × Digest))
    (pinned : Option Device.Pin) (witnessed : List Witness) (authorisations : List SlotHandoff)
    (rungs : List Checkpoint) (h : SlotRecord) :
    (walkHistory r cpPin pinned witnessed authorisations rungs h).Asks Quiet :=
  walkHistory_asks _ _ _ _ _ _ _ fun _ => trivial

/-- Opening what is served is quiet. -/
theorem openServed_quiet (d : Device) (read : SlotRead) : (openServed d read).Asks Quiet := by
  -- Where a head is served its manifest is asked for and read.
  unfold openServed
  split
  · trivial
  · refine Script.asks_bind ?_ fun _ => trivial
    refine Script.asks_bind (asks_request.mpr trivial) ?_
    intro bytes
    split
    · exact asks_orRefuse
    · trivial

/-- Deciding on the next record asks nothing. -/
theorem nextRecord_quiet (root : Option Addr) (served : Option (SlotRecord × RootManifest)) :
    (nextRecord root served).Asks Quiet := by
  -- No way through the decision asks anything.
  unfold nextRecord
  split
  · trivial
  · trivial
  · split
    · trivial
    · split <;> trivial

omit [Crypto] in
/-- Sealing the root is quiet. -/
theorem sealRoot_quiet (d : Device) (slot : SlotId) (seq : UInt64) (manifest : RootManifest) :
    (sealRoot d slot seq manifest).Asks Quiet := by
  -- A fresh nonce is all that may be asked for.
  unfold sealRoot
  split
  · exact asks_orFail
  · refine ⟨trivial, fun _ => ?_⟩
    exact Script.asks_bind asks_orFail fun _ => asks_orFail

/-- Publishing what was seen is quiet. -/
theorem observe_quiet (read : SlotRead) (held : SlotRecord) : (observe read held).Asks Quiet := by
  -- Without a key to sign with nothing is published.
  unfold observe
  split
  · trivial
  · refine Script.asks_bind asks_orFail fun _ => ?_
    refine Script.asks_bind asks_orFail fun _ => ?_
    exact asks_request.mpr trivial

omit [Crypto] in
/-- Only the head itself is asked for when the head is asked for. -/
theorem servedHead_asks {allowed : Op → Prop} (slot : SlotId)
    (may : allowed (.call .peer (.slotHead slot))) : (servedHead slot).Asks allowed := by
  -- The head is asked for, and what comes back is decoded.
  refine Script.asks_bind (asks_request.mpr may) ?_
  intro bytes
  cases bytes with
  | none => trivial
  | some bytes => exact Script.asks_bind asks_orRefuse fun _ => trivial

/-- The check of the ladder does nothing but pin its top. -/
theorem checkLadder_asks {allowed : Op → Prop} (r : Reader) (cpPin : Option (UInt64 × Digest))
    (authorisations : List SlotHandoff) (rungs : List Checkpoint)
    (may : ∀ seq hash, allowed (.writeCpPin seq hash)) :
    (checkLadder r cpPin authorisations rungs).Asks allowed := by
  -- Only a ladder that checks out moves the pin of its last rung.
  unfold checkLadder
  split
  · split <;> trivial
  · refine Script.asks_bind asks_orRefuse fun _ => ?_
    split
    · exact Script.asks_bind ⟨may _ _, fun _ => asks_orFail⟩ fun _ => trivial
    · trivial

/-- What is asked while the slot is read: the peer about the slot, the witness node, and one pin. -/
def AboutSlot (slot : SlotId) : Op → Prop
  | .call .peer (.slotHead s) | .call .peer (.handoffs s) => s = slot
  | .call .peer (.checkpoints s _) | .call .peer (.slotHistory s _) => s = slot
  | .dial .witness | .call .witness (.witnesses _) | .writeCpPin _ _ => True
  | _ => False

/-- What a device finds out about itself before it reads: its root, its key and its slot. -/
theorem plays_openReader_ok {d : Device} {said : List (Script.Exchange Op.Answer)}
    {root : Option Addr} {writer : Identity} {slot : SlotId}
    (played : (openReader d).Plays said (.ok (root, writer, slot))) :
    said = [] ∧ d.slotIdentity = .ok writer ∧ slot = slotIdOf writer.verifyingKey d.ns := by
  simp only [openReader, Script.plays_bind_ok, plays_orFail_ok, except_mapError_eq_ok,
    Script.pure_eq, Script.plays_done, Except.ok.injEq, Prod.mk.injEq] at played
  obtain ⟨_, _, _, rfl, ⟨rfl, _⟩, key, _, _, rfl, ⟨rfl, identity⟩, rfl, _, rfl, rfl⟩ := played
  exact ⟨rfl, identity, rfl⟩

/-- Reading the slot asks about the slot only. -/
theorem readSlot_asks (d : Device) (o : SyncOpts) {s : SlotId}
    (own : ∀ writer, d.slotIdentity = .ok writer → slotIdOf writer.verifyingKey d.ns = s) :
    (readSlot d o).Asks (AboutSlot s) := by
  -- The slot is only known once the device has looked at its own keys.
  refine Script.asks_bind_of_plays (openReader_asks d) fun opened said opening => ?_
  obtain ⟨root, writer, slot⟩ := opened
  obtain ⟨_, identity, rfl⟩ := plays_openReader_ok opening
  have mine := own writer identity
  refine Script.asks_bind (servedHead_asks _ mine) fun served => ?_
  refine Script.asks_bind asks_orFail fun roster => ?_
  refine Script.asks_bind asks_orRefuse fun _ => ?_
  refine Script.asks_bind (askWitness_asks d o _ trivial trivial) fun witness => ?_
  refine Script.asks_bind asks_orRefuse fun _ => ?_
  refine Script.asks_bind (askHandoffs_asks _ mine) fun authorisations => ?_
  refine Script.asks_bind ?_ fun ladder => ?_
  · refine Script.asks_bind (ladderPages_asks _ _ _ _ fun _ => mine) fun rungs => ?_
    exact Script.asks_bind (checkLadder_asks _ _ _ _ fun _ _ => trivial) fun _ => trivial
  · cases served with
    | none => trivial
    | some h =>
      exact Script.asks_bind (walkHistory_asks _ _ _ _ _ _ _ fun _ => mine) fun _ => trivial

omit [Crypto] in
/-- Questions about a slot neither move the record pin nor publish anything. -/
theorem AboutSlot.readOnly {slot : SlotId} {op : Op} (about : AboutSlot slot op) : ReadOnly op := by
  -- Each of the operations that write is not about reading a slot.
  unfold ReadOnly
  split
  · exact about.elim
  · rename_i node bytes
    cases node <;> exact about.elim
  · rename_i node bytes
    cases node <;> exact about.elim
  · trivial

/-- Reading the slot neither moves the record pin nor publishes anything. -/
theorem readSlot_readOnly (d : Device) (o : SyncOpts) : (readSlot d o).Asks ReadOnly := by
  -- The slot is the writer's own, if there is one to be had.
  cases identity : d.slotIdentity with
  | ok writer =>
    refine (readSlot_asks d o (s := slotIdOf writer.verifyingKey d.ns) ?_).mono fun _ =>
      AboutSlot.readOnly
    intro other same
    rw [identity, Except.ok.injEq] at same
    rw [same]
  | error e =>
    refine (readSlot_asks d o (s := Digest.zero) ?_).mono fun _ => AboutSlot.readOnly
    intro writer same
    rw [identity] at same
    cases same

/-- Publishing asks quiet questions, publishes, and pins. -/
theorem settle_asks {allowed : Op → Prop} (d : Device) (read : SlotRead)
    (next : Option (UInt64 × Digest × Addr)) (quiet : ∀ op, Quiet op → allowed op)
    (record : ∀ bytes, allowed (.call .peer (.publishSlot bytes)))
    (rung : ∀ bytes, allowed (.call .peer (.publishCheckpoint bytes)))
    (pin : ∀ seq hash, allowed (.writePin seq hash))
    (cpPin : ∀ seq hash, allowed (.writeCpPin seq hash)) : (settle d read next).Asks allowed := by
  -- Only a record that is due is sealed, pushed and published; the pin and the ladder follow it.
  unfold settle
  split
  · trivial
  · split
    · exact Script.asks_bind ⟨pin _ _, fun _ => asks_orFail⟩ fun _ => trivial
    · trivial
  · refine Script.asks_bind ?_ fun rec_ => Script.asks_bind ?_ fun _ => trivial
    · refine Script.asks_bind ((sealRoot_quiet _ _ _ _).mono quiet) fun _ => ?_
      refine Script.asks_bind ⟨quiet _ trivial, fun _ => asks_orFail⟩ fun _ => ?_
      refine Script.asks_bind ((pushBlob_quiet _ _).mono quiet) fun _ => ?_
      refine Script.asks_bind (asks_request.mpr (quiet _ trivial)) fun _ => ?_
      refine Script.asks_bind asks_orFail fun _ => ?_
      refine Script.asks_bind asks_orFail fun _ => ?_
      refine Script.asks_bind (asks_request.mpr (record _)) fun _ => ?_
      exact Script.asks_bind ⟨pin _ _, fun _ => asks_orFail⟩ fun _ => trivial
    · unfold maybeRung
      split
      · refine Script.asks_bind asks_orFail fun _ => ?_
        refine Script.asks_bind asks_orFail fun _ => ?_
        refine Script.asks_bind (asks_request.mpr (rung _)) fun _ => ?_
        exact ⟨cpPin _ _, fun _ => asks_orFail⟩
      · trivial

/-- Nothing after the reading of the slot asks for the head. -/
theorem finish_notHead (d : Device) (read : SlotRead) : (finish d read).Asks NotHead := by
  -- The parts before and after settling are quiet, and settling publishes slot records of its own
  -- only.
  refine Script.asks_bind ((openServed_quiet d read).mono fun _ => Quiet.notHead) fun served => ?_
  refine Script.asks_bind ((nextRecord_quiet _ _).mono fun _ => Quiet.notHead) fun next => ?_
  refine Script.asks_bind (settle_asks d read next (fun _ => Quiet.notHead) (fun _ => trivial)
    (fun _ => trivial) (fun _ _ => trivial) fun _ _ => trivial) fun held => ?_
  cases held with
  | none => trivial
  | some record => exact (observe_quiet read record).mono fun _ => Quiet.notHead

end Sync

end NasTools
