import NasTools.Model.Cli.Rules
import NasTools.Model.Transfer.Session

/-! A sync whose peer is a peer of this model: what it is told, and what it leaves behind. -/

namespace NasTools

variable [Crypto]

namespace Peer

variable {p : Peer}

/-- A peer keeps its own slots. -/
theorem SlotsKept.refl (p : Peer) : SlotsKept p p := slotsKept_of_eq rfl rfl rfl rfl rfl rfl rfl

/-- Slots that are kept twice are kept. -/
theorem SlotsKept.trans {a b c : Peer} (first : SlotsKept a b) (second : SlotsKept b c) :
    SlotsKept a c where
  -- Each part of the state is the same across both steps.
  hostility := second.hostility.trans first.hostility
  witnessOnly := second.witnessOnly.trans first.witnessOnly
  roster := first.roster.trans second.roster
  slots := second.slots.trans first.slots
  handoffs := second.handoffs.trans first.handoffs
  checkpoints := second.checkpoints.trans first.checkpoints

/-- A request that publishes nothing to a slot leaves the slots alone. -/
theorem visit_quiet (honest : p.hostility = .honest) (v : Visit)
    (quiet : Sync.Quiet (.call .peer v.req)) : SlotsKept p (p.visit v) := by
  -- Of the visits that change slots, each asks something that is not quiet.
  rcases visit_slots honest v with kept | ⟨_, _, is, _⟩ | ⟨_, _, is, _⟩ | ⟨_, _, is, _⟩
  · exact kept
  all_goals
    rw [is] at quiet
    exact quiet.elim

end Peer

/-- What a client is told: the answer, or that the connection is lost when there is none. -/
def told (lost : String) : Option Response → Except String Response
  | some reply => .ok reply
  | none => .error lost

/-- What a sync does away from the peer that may come out differently each time. -/
def Free : Op → Prop
  | .nonce | .rootNonce | .keepBlob _ | .writePin _ _ => True
  | _ => False

/-- What a sync does away from the peer that comes out as the surroundings have it. -/
def Fixed : Op → Prop
  | .dial _ | .call .witness _ | .writeCpPin _ _ => True
  | _ => False

/--
A conversation whose peer is `p` at its start and `q` at its end.

The surroundings are the other node, the network and the disk of the device.
-/
inductive Hosted (around : (op : Op) → op.Answer) (lost subject : String) :
    Peer → Conversation → Peer → Prop where
  | done (p : Peer) : Hosted around lost subject p [] p
  | call {p q : Peer} {said : Conversation} (v : Visit) (mine : v.subject = subject)
      (later : Hosted around lost subject (p.visit v) said q) :
      Hosted around lost subject p
        (⟨.call .peer v.req, told lost (handleAt p v.disk v.subject v.now v.req).1⟩ :: said) q
  | fixed {p q : Peer} {said : Conversation} (op : Op) (fixed : Fixed op)
      (later : Hosted around lost subject p said q) :
      Hosted around lost subject p (⟨op, around op⟩ :: said) q
  | free {p q : Peer} {said : Conversation} (op : Op) (answer : op.Answer) (free : Free op)
      (later : Hosted around lost subject p said q) :
      Hosted around lost subject p (⟨op, answer⟩ :: said) q

/-- A world around a peer of this model, in which its disk takes everything and no time passes. -/
def host (around : (op : Op) → op.Answer) (lost subject : String) (p : Peer) :
    (op : Op) → op.Answer × Peer
  | .call .peer req =>
    (told lost (handleAt p (.ok ()) subject 0 req).1, (handleAt p (.ok ()) subject 0 req).2)
  | op => (around op, p)

/-- What is said in that world is hosted by that peer. -/
theorem hosted_transcript {A : Type} (around : (op : Op) → op.Answer) (lost subject : String)
    (s : Sync A) (p : Peer) :
    Hosted around lost subject p (s.transcript (host around lost subject) p)
      (s.exec (host around lost subject) p).2 := by
  -- Induction over the script: each of its operations is answered by the peer, or beside it.
  induction s generalizing p with
  | done a => exact .done p
  | stop e => exact .done p
  | ask op next ih =>
    cases op with
    | call node req =>
      cases node with
      | peer => exact .call ⟨subject, .ok (), 0, req⟩ rfl (ih _ _)
      | witness => exact .fixed (.call .witness req) trivial (ih _ p)
    | dial node => exact .fixed (.dial node) trivial (ih _ p)
    | writeCpPin seq hash => exact .fixed (.writeCpPin seq hash) trivial (ih _ p)
    | nonce => exact .free .nonce _ trivial (ih _ p)
    | rootNonce => exact .free .rootNonce _ trivial (ih _ p)
    | keepBlob data => exact .free (.keepBlob data) _ trivial (ih _ p)
    | writePin seq hash => exact .free (.writePin seq hash) _ trivial (ih _ p)

namespace Hosted

variable {around : (op : Op) → op.Answer} {lost subject : String} {p q : Peer}
  {said front back : Conversation}

/-- A conversation in two parts is hosted part by part. -/
theorem split (hosted : Hosted around lost subject p (front ++ back) q) :
    ∃ mid, Hosted around lost subject p front mid ∧ Hosted around lost subject mid back q := by
  -- Induction over the first part, one answer at a time.
  induction front generalizing p with
  | nil => exact ⟨p, .done p, hosted⟩
  | cons x rest ih =>
    cases hosted with
    | call v mine later =>
      obtain ⟨mid, first, second⟩ := ih later
      exact ⟨mid, .call v mine first, second⟩
    | fixed op fixed later =>
      obtain ⟨mid, first, second⟩ := ih later
      exact ⟨mid, .fixed op fixed first, second⟩
    | free op answer free later =>
      obtain ⟨mid, first, second⟩ := ih later
      exact ⟨mid, .free op answer free first, second⟩

/-- Quiet questions leave the slots of an honest peer alone. -/
theorem slotsKept_of_quiet (hosted : Hosted around lost subject p said q)
    (honest : p.hostility = .honest) (quiet : ∀ x ∈ said, Sync.Quiet x.1) : Peer.SlotsKept p q := by
  -- Induction over the conversation: a quiet call keeps the slots, and nothing else reaches the
  -- peer.
  induction hosted with
  | done p => exact .refl p
  | @call p q said v mine later ih =>
    have here := Peer.visit_quiet honest v (quiet _ (List.mem_cons_self ..))
    exact here.trans (ih (here.hostility.trans honest) fun x member => quiet x (by simp [member]))
  | fixed op fixed later ih => exact ih honest fun x member => quiet x (by simp [member])
  | free op answer free later ih => exact ih honest fun x member => quiet x (by simp [member])

/-- What a question about a slot is answered by a peer, whoever asks and whenever. -/
def steady (around : (op : Op) → op.Answer) (lost : String) (p : Peer) : (op : Op) → op.Answer
  | .call .peer req => told lost (handleAt p (.ok ()) "" 0 req).1
  | op => around op

/-- A question about a slot is answered from the peer as it stands, and changes nothing. -/
theorem about_slot {slot : SlotId} (hosted : Hosted around lost subject p said q)
    (about : ∀ x ∈ said, Sync.AboutSlot slot x.1) :
    q = p ∧ ∀ x ∈ said, x.2 = steady around lost p x.1 := by
  -- Induction over the conversation: no request of it changes the peer.
  induction hosted with
  | done p => simp
  | @call p q said v mine later ih =>
    obtain ⟨subject, disk, now, req⟩ := v
    have asked : Sync.AboutSlot slot (.call .peer req) := about _ (List.mem_cons_self ..)
    -- The answer is read off the slots, and nobody looks at the sender or the clock.
    have reading : handleAt p disk subject now req = ((handleAt p (.ok ()) "" 0 req).1, p) := by
      cases req <;> first | exact asked.elim | (unfold handleAt; split <;> rfl)
    have same : p.visit ⟨subject, disk, now, req⟩ = p := congrArg Prod.snd reading
    rw [same] at ih
    obtain ⟨rfl, rest⟩ := ih fun x member => about x (by simp [member])
    refine ⟨rfl, ?_⟩
    intro x member
    rcases List.mem_cons.mp member with rfl | held
    · simp only [steady, reading]
    · exact rest x held
  | fixed op fixed later ih =>
    obtain ⟨rfl, rest⟩ := ih fun x member => about x (by simp [member])
    refine ⟨rfl, ?_⟩
    intro x member
    rcases List.mem_cons.mp member with rfl | held
    · cases op with
      | call node req =>
        cases node with
        | peer => exact fixed.elim
        | witness => rfl
      | _ => rfl
    · exact rest x held
  | free op answer free later ih =>
    have asked : Sync.AboutSlot slot op := about _ (List.mem_cons_self ..)
    cases op <;> first | exact asked.elim | exact free.elim

end Hosted

end NasTools
