import NasTools.Model.Cli.Concrete
import NasTools.Model.Cli.Rules
import NasTools.Proofs.Coverage

/-! The two pins of a device, over every run of syncs with every peer. -/

namespace NasTools

/-- What a device remembers: the record it saw last, and the top rung. -/
@[ext] structure Memory where
  pin : Option Device.Pin
  cpPin : Option (UInt64 × Digest)

/-- A rung the peer served in a conversation, or one the device published in it. -/
def Shown (said : Conversation) (c : Checkpoint) : Prop :=
  (∃ slot start items, (⟨.call .peer (.checkpoints slot start), .ok (.records items)⟩ :
      Script.Exchange Op.Answer) ∈ said ∧ ∃ bytes ∈ items, Checkpoint.decode bytes = .ok c) ∨
    ∃ answer bytes,
      (⟨.call .peer (.publishCheckpoint bytes), answer⟩ : Script.Exchange Op.Answer) ∈ said ∧
      c.encode = .ok bytes

/-- What was shown in the front was shown in the whole. -/
theorem Shown.append_left {front back : Conversation} {c : Checkpoint} (shown : Shown front c) :
    Shown (front ++ back) c := by
  rcases shown with ⟨slot, start, items, asked, held⟩ | ⟨answer, bytes, asked, encoded⟩
  · exact .inl ⟨slot, start, items, List.mem_append_left _ asked, held⟩
  · exact .inr ⟨answer, bytes, List.mem_append_left _ asked, encoded⟩

/-- What was shown at the back was shown in the whole. -/
theorem Shown.append_right {front back : Conversation} {c : Checkpoint} (shown : Shown back c) :
    Shown (front ++ back) c := by
  rcases shown with ⟨slot, start, items, asked, held⟩ | ⟨answer, bytes, asked, encoded⟩
  · exact .inl ⟨slot, start, items, List.mem_append_right _ asked, held⟩
  · exact .inr ⟨answer, bytes, List.mem_append_right _ asked, encoded⟩

/-- What a device remembers when a sync starts. -/
def Device.memory (d : Device) : Memory := ⟨d.pin, d.cpPin⟩

namespace Memory

/-- What an exchange does to the memory: a pin file is replaced by a write that succeeds. -/
def remember (m : Memory) : Script.Exchange Op.Answer → Memory
  | ⟨.writePin seq hash, .ok ()⟩ => { m with pin := some ⟨seq, some hash⟩ }
  | ⟨.writeCpPin seq hash, .ok ()⟩ => { m with cpPin := some (seq, hash) }
  -- A write that fails leaves the file as it was, and nothing else touches it.
  | _ => m

/-- The memory after a conversation. -/
def after (m : Memory) (said : Conversation) : Memory := said.foldl remember m

/-- Neither pin was unset, and neither went down. -/
structure Forward (m m' : Memory) : Prop where
  pin : ∀ p, m.pin = some p → ∃ p', m'.pin = some p' ∧ p.seq ≤ p'.seq
  cpPin : ∀ c, m.cpPin = some c → ∃ c', m'.cpPin = some c' ∧ c.1 ≤ c'.1

/-- A memory that does not change moves forward. -/
theorem Forward.refl (m : Memory) : Forward m m :=
  ⟨fun p held => ⟨p, held, UInt64.le_refl _⟩, fun c held => ⟨c, held, UInt64.le_refl _⟩⟩

/-- Two moves forward make one. -/
theorem Forward.trans {a b c : Memory} (first : Forward a b) (second : Forward b c) :
    Forward a c where
  -- A pin goes up twice, by way of the one between.
  pin p held := by
    obtain ⟨q, heldQ, up⟩ := first.pin p held
    obtain ⟨r, heldR, further⟩ := second.pin q heldQ
    exact ⟨r, heldR, UInt64.le_trans up further⟩
  cpPin p held := by
    obtain ⟨q, heldQ, up⟩ := first.cpPin p held
    obtain ⟨r, heldR, further⟩ := second.cpPin q heldQ
    exact ⟨r, heldR, UInt64.le_trans up further⟩

variable {m : Memory} {said front back : Conversation}

/-- Nothing was said, so nothing is remembered. -/
@[simp] theorem after_nil : m.after [] = m := rfl

/-- What was said first is remembered first. -/
@[simp] theorem after_cons {x : Script.Exchange Op.Answer} :
    m.after (x :: said) = (m.remember x).after said := rfl

/-- Two conversations are remembered one behind the other. -/
theorem after_append : m.after (front ++ back) = (m.after front).after back := List.foldl_append

/-- Only the writing of a pin changes the memory. -/
theorem remember_of_still {x : Script.Exchange Op.Answer} (still : Sync.Still x.1) :
    m.remember x = m := by
  obtain ⟨op, answer⟩ := x
  cases op <;> first | rfl | exact still.elim

section

variable [Crypto] (seen : Set Checkpoint)

/-- The checkpoint pin, if any, is the place and hash of a rung among those seen. -/
def Named (m : Memory) : Prop :=
  ∀ pin, m.cpPin = some pin → ∃ c ∈ seen, pin = (c.seq, c.checkpointHash)

/-- A memory that moved forward, its checkpoint pin still a rung that was seen. -/
structure Onward (m m' : Memory) : Prop where
  forward : Forward m m'
  named : m.Named seen → m'.Named seen

/-- Every exchange of a conversation moves the memory onward, from where it then is. -/
def Advances (m : Memory) : Conversation → Prop
  | [] => True
  | x :: rest => Onward seen m (m.remember x) ∧ (m.remember x).Advances rest

variable {seen}

/-- A memory that does not change moves onward. -/
theorem Onward.refl (m : Memory) : Onward seen m m := ⟨.refl m, id⟩

/-- Two moves onward make one. -/
theorem Onward.trans {a b c : Memory} (first : Onward seen a b) (second : Onward seen b c) :
    Onward seen a c :=
  ⟨first.forward.trans second.forward, fun named => second.named (first.named named)⟩

/-- A conversation advances exactly when both its halves do. -/
theorem advances_append : m.Advances seen (front ++ back) ↔
    m.Advances seen front ∧ (m.after front).Advances seen back := by
  -- The first half moves the memory, so it stays quantified over.
  induction front generalizing m with
  | nil => simp [Advances]
  | cons x rest ih => simp [Advances, ih, and_assoc]

/-- Cut off anywhere, a conversation that advances has moved the memory onward. -/
theorem onward_of_advances (advances : m.Advances seen said) (cut : front <+: said) :
    Onward seen m (m.after front) := by
  -- The part in front of the cut has advanced by itself.
  obtain ⟨back, rfl⟩ := cut
  have moved := (advances_append.mp advances).1
  -- What comes after the cut does not matter.
  clear advances
  induction front generalizing m with
  | nil => exact .refl m
  | cons x rest ih => exact moved.1.trans (ih moved.2)

/-- A conversation that writes no pin leaves the memory alone. -/
theorem after_of_still (still : ∀ x ∈ said, Sync.Still x.1) :
    m.after said = m ∧ m.Advances seen said := by
  -- Induction over the conversation: no operation in it is one that is remembered.
  induction said with
  | nil => exact ⟨rfl, trivial⟩
  | cons x rest ih =>
    have here : m.remember x = m := remember_of_still (still x (by simp))
    obtain ⟨same, advances⟩ := ih fun y later => still y (by simp [later])
    rw [after_cons, here]
    exact ⟨same, by rw [Advances, here]; exact ⟨.refl m, advances⟩⟩

end

end Memory

section

variable [Crypto]

namespace Sync

open Memory

variable {A B : Type} (seen : Set Checkpoint)

/--
From a memory as in `pre`, a part of a sync only moves the memory onward, and ends as in `post`.

The rungs shown on the way are among those seen.
-/
def Moves (pre : Memory → Prop) (s : Sync A) (post : A → Memory → Prop) : Prop :=
  ∀ m said outcome, pre m → s.Plays said outcome → (∀ c, Shown said c → c ∈ seen) →
    m.Advances seen said ∧ ∀ a, outcome = .ok a → post a (m.after said)

variable {seen} {pre : Memory → Prop} {post : B → Memory → Prop}

/-- A sequence moves the memory as its parts do. -/
theorem moves_bind {s : Sync A} {f : A → Sync B} {mid : A → Memory → Prop}
    (first : Moves seen pre s mid) (second : ∀ a, Moves seen (mid a) (f a) post) :
    Moves seen pre (s >>= f) post := by
  -- The conversation is taken apart where the first part ends.
  intro m said outcome start played shown
  -- Either the first part fails, or the second starts from the memory it leaves.
  rcases Script.plays_bind.mp played with ⟨e, rfl, failed⟩ | ⟨a, front, back, rfl, went, later⟩
  · exact ⟨(first m said _ start failed shown).1, fun _ impossible => nomatch impossible⟩
  · obtain ⟨advances, middle⟩ := first m front _ start went fun c held => shown c held.append_left
    obtain ⟨onward, ended⟩ := second a (m.after front) back outcome (middle a rfl) later
      fun c held => shown c held.append_right
    rw [after_append]
    exact ⟨advances_append.mpr ⟨advances, onward⟩, ended⟩

/-- A weaker start and a stronger end. -/
theorem Moves.mono {s : Sync B} {pre' : Memory → Prop} {post' : B → Memory → Prop}
    (moves : Moves seen pre s post) (start : ∀ m, pre' m → pre m)
    (stop : ∀ b m, post b m → post' b m) : Moves seen pre' s post' := by
  intro m said outcome held played shown
  obtain ⟨advances, ended⟩ := moves m said outcome (start m held) played shown
  exact ⟨advances, fun b same => stop b _ (ended b same)⟩

/-- A script that is done moves nothing. -/
theorem moves_done {b : B} (ends : ∀ m, pre m → post b m) : Moves seen pre (.done b) post := by
  -- Nothing was said, and the outcome is the one that was given.
  intro m said outcome start played _
  obtain ⟨rfl, rfl⟩ := Script.plays_done.mp played
  refine ⟨trivial, ?_⟩
  intro a same
  obtain rfl := Except.ok.inj same
  exact ends m start

/-- A script that stops moves nothing. -/
theorem moves_stop {e : Exit} : Moves seen pre (.stop e) post := by
  intro m said outcome _ played _
  obtain ⟨rfl, rfl⟩ := Script.plays_stop.mp played
  exact ⟨trivial, fun _ impossible => nomatch impossible⟩

/-- A part that writes no pin leaves the memory alone. -/
theorem moves_still {s : Sync A} (fact : A → Prop) (still : s.Asks Still)
    (holds : ∀ a said, s.Plays said (.ok a) → (∀ c, Shown said c → c ∈ seen) → fact a) :
    Moves seen pre s fun a m => pre m ∧ fact a := by
  -- The memory stays as it was, so only the fact about the outcome is new.
  intro m said outcome start played shown
  have moved : m.after said = m ∧ m.Advances seen said :=
    after_of_still (Script.asked_of_plays still played)
  obtain ⟨same, advances⟩ := moved
  refine ⟨advances, ?_⟩
  intro a ended
  subst ended
  rw [same]
  exact ⟨start, holds a said played shown⟩

/-- What the result of such a part satisfies is known to everything after it. -/
theorem moves_known {s : Sync A} {f : A → Sync B} (fact : A → Prop) (still : s.Asks Still)
    (holds : ∀ a said, s.Plays said (.ok a) → (∀ c, Shown said c → c ∈ seen) → fact a)
    (later : ∀ a, fact a → Moves seen pre (f a) post) : Moves seen pre (s >>= f) post := by
  refine moves_bind (moves_still fact still holds) ?_
  intro a m said outcome start played shown
  exact later a start.2 m said outcome start.1 played shown

/-- A part that asks only quiet questions, and whose result does not matter. -/
theorem moves_quiet {s : Sync A} {f : A → Sync B} (quiet : s.Asks Quiet)
    (later : ∀ a, Moves seen pre (f a) post) : Moves seen pre (s >>= f) post :=
  moves_known (fun _ => True) (quiet.mono fun _ => Quiet.still) (fun _ _ _ _ => trivial)
    fun a _ => later a

/-- After a local check that ends in a refusal, the check is known to have passed. -/
theorem moves_orRefuse {stage : Stage} {result : Except String A} {f : A → Sync B}
    (later : ∀ a, result = .ok a → Moves seen pre (f a) post) :
    Moves seen pre (orRefuse stage result >>= f) post := by
  cases result with
  | error e => exact moves_stop
  | ok a => exact later a rfl

/-- After a local step that ends in an error, the step is known to have succeeded. -/
theorem moves_orFail {result : Except String A} {f : A → Sync B}
    (later : ∀ a, result = .ok a → Moves seen pre (f a) post) :
    Moves seen pre (orFail result >>= f) post := by
  cases result with
  | error e => exact moves_stop
  | ok a => exact later a rfl

/-- A record pin may be written when it is not below the one held. -/
theorem moves_writePin (pre : Memory → Prop) (seq : UInt64) (hash : Digest) :
    Moves seen (fun m => pre m ∧ ∀ p, m.pin = some p → p.seq ≤ seq) (writePin seq hash)
      fun _ m => ∃ before, pre before ∧ m = { before with pin := some ⟨seq, some hash⟩ } := by
  -- One question is asked, and answered.
  intro m said outcome start played _
  obtain ⟨answer, rest, rfl, later⟩ := Script.plays_ask.mp played
  cases answer with
  -- A pin that is not written stays as it was.
  | error e =>
    obtain ⟨rfl, rfl⟩ := Script.plays_stop.mp later
    exact ⟨⟨.refl m, trivial⟩, fun _ impossible => nomatch impossible⟩
  | ok u =>
    obtain ⟨rfl, rfl⟩ := Script.plays_done.mp later
    -- The record pin goes up, and the checkpoint pin is not touched.
    refine ⟨⟨⟨⟨?_, ?_⟩, id⟩, trivial⟩, fun _ _ => ⟨m, start.1, rfl⟩⟩
    · intro p held
      exact ⟨⟨seq, some hash⟩, rfl, start.2 p held⟩
    · intro c held
      exact ⟨c, held, UInt64.le_refl _⟩

/-- A rung seen may be pinned when it is not below the one held. -/
theorem moves_writeCpPin (pre : Memory → Prop) (c : Checkpoint) (seq : UInt64) (known : c ∈ seen)
    (at_ : c.seq = seq) :
    Moves seen (fun m => pre m ∧ ∀ pin, m.cpPin = some pin → pin.1 ≤ seq)
      (writeCpPin seq c.checkpointHash)
      fun _ m => ∃ before, pre before ∧
        m = { before with cpPin := some (seq, c.checkpointHash) } := by
  -- One question is asked, and answered.
  subst at_
  intro m said outcome start played _
  obtain ⟨answer, rest, rfl, later⟩ := Script.plays_ask.mp played
  cases answer with
  | error e =>
    obtain ⟨rfl, rfl⟩ := Script.plays_stop.mp later
    exact ⟨⟨.refl m, trivial⟩, fun _ impossible => nomatch impossible⟩
  | ok u =>
    obtain ⟨rfl, rfl⟩ := Script.plays_done.mp later
    refine ⟨⟨⟨⟨?_, ?_⟩, ?_⟩, trivial⟩, fun _ _ => ⟨m, start.1, rfl⟩⟩
    · intro p held
      exact ⟨p, held, UInt64.le_refl _⟩
    · intro pin held
      exact ⟨(c.seq, c.checkpointHash), rfl, start.2 pin held⟩
    · intro _ pin held
      -- The pin that was just written names the rung.
      obtain rfl : (c.seq, c.checkpointHash) = pin := by simpa [remember] using held
      exact ⟨c, known, rfl⟩

omit [Crypto] in
/-- Everything on a decoded page was on it as bytes. -/
theorem decodePage_mem {T E : Type} {decode : Bytes → Except E T} {report : E → String}
    {page : List Bytes} {items : List T} (decoded : decodePage decode report page = .ok items) :
    ∀ item ∈ items, ∃ bytes ∈ page, decode bytes = .ok item := by
  -- Induction over the page: every item was decoded from one of the bytes.
  induction page generalizing items with
  | nil =>
    obtain rfl : items = [] := by simpa [decodePage, eq_comm] using decoded
    simp
  | cons bytes rest ih =>
    simp only [decodePage, except_bind_eq_ok, except_mapError_eq_ok, except_pure_eq,
      Except.ok.injEq] at decoded
    obtain ⟨first, here, later, others, rfl⟩ := decoded
    intro item member
    rcases List.mem_cons.mp member with rfl | held
    · exact ⟨bytes, by simp, here⟩
    · obtain ⟨b, inRest, decodes⟩ := ih others item held
      exact ⟨b, by simp [inRest], decodes⟩

omit [Crypto] in
/-- Every rung of the ladder was held before, or was shown while it was asked for. -/
theorem ladderPages_shown {slot : SlotId} {fuel : Nat} {rungs out : List Checkpoint}
    {next : UInt64} {said : Conversation}
    (played : (ladderPages slot fuel rungs next).Plays said (.ok out)) :
    ∀ c ∈ out, c ∈ rungs ∨ Shown said c := by
  -- Page by page, what was fetched so far stays.
  induction fuel generalizing rungs next said with
  | zero =>
    obtain ⟨_, same⟩ := Script.plays_done.mp played
    obtain rfl := Except.ok.inj same
    exact fun c member => .inl member
  | succ fuel ih =>
    simp only [ladderPages, Script.plays_bind_ok, plays_request_ok] at played
    obtain ⟨page, _, back, rfl, ⟨reply, rfl, picked⟩, later⟩ := played
    obtain rfl : reply = .records page := Response.asRecords_eq_some.mp picked
    split at later
    · obtain ⟨_, same⟩ := Script.plays_done.mp later
      obtain rfl := Except.ok.inj same
      exact fun c member => .inl member
    · simp only [Script.plays_bind_ok, plays_orRefuse_ok] at later
      obtain ⟨fresh, _, rest, rfl, ⟨rfl, decoded⟩, later⟩ := later
      -- A rung of this page was shown by the exchange that asked for it.
      have served (c : Checkpoint) (member : c ∈ rungs ++ fresh) :
          c ∈ rungs ∨ Shown ([⟨.call .peer (.checkpoints slot next), .ok (.records page)⟩] ++
            ([] ++ rest)) c := by
        rcases List.mem_append.mp member with held | new
        · exact .inl held
        · obtain ⟨bytes, onPage, decodes⟩ := decodePage_mem decoded c new
          exact .inr (.inl ⟨slot, next, page, by simp, bytes, onPage, decodes⟩)
      split at later
      · obtain ⟨_, same⟩ := Script.plays_done.mp later
        obtain rfl := Except.ok.inj same
        exact served
      · split at later
        · cases later
        · intro c member
          rcases ih later c member with held | shown
          · exact served c held
          · exact .inr (Shown.append_right (Shown.append_right shown))

/-- The checkpoint pin stands at the sequence of the ladder's top, or both are missing. -/
def Topped (top : Option Checkpoint) (m : Memory) : Prop :=
  m.cpPin.map Prod.fst = top.map Checkpoint.seq

/-- Rungs with one hash stand at one sequence, where the hash has no collision. -/
theorem seq_of_hash (injective : Set.InjOn Crypto.blake3 (Checkpoint.hashInput '' seen))
    {c c' : Checkpoint} (known : c ∈ seen) (known' : c' ∈ seen)
    (same : c.checkpointHash = c'.checkpointHash) : c.seq = c'.seq :=
  Checkpoint.seq_of_hashInput
    (injective (Set.mem_image_of_mem _ known) (Set.mem_image_of_mem _ known') same)

/-- The check of the ladder ends with its top pinned. -/
theorem moves_checkLadder (injective : Set.InjOn Crypto.blake3 (Checkpoint.hashInput '' seen))
    {r : Reader} {cpPin : Option (UInt64 × Digest)} {pin : Option Device.Pin}
    {authorisations : List SlotHandoff} {rungs : List Checkpoint} (known : ∀ c ∈ rungs, c ∈ seen) :
    Moves seen (fun m => m.cpPin = cpPin ∧ m.pin = pin ∧ m.Named seen)
      (checkLadder r cpPin authorisations rungs) fun top m => m.pin = pin ∧ Topped top m := by
  -- There are rungs or there are none.
  cases rungs with
  | nil =>
    cases cpPin with
    -- A device that has seen a rung refuses a ladder without any.
    | some held => exact moves_stop
    | none => exact moves_done fun m start => ⟨start.2.1, by simp [Topped, start.1]⟩
  | cons first rest =>
    have last := getLast?_cons_eq first rest
    have topKnown : rest.getLastD first ∈ seen := known _ (List.mem_of_getLast? last)
    simp only [checkLadder, last]
    refine moves_orRefuse fun walk verified => ?_
    rw [except_mapError_eq_ok, verifySkipChain_ladder] at verified
    obtain ⟨climbable, anchored, linked, _⟩ := verified
    -- The foot is the lowest rung, and the top the highest.
    have up := first_le_top (ladder_rises climbable linked)
    split
    · -- The top is above the pin, which moves up to it.
      rename_i higher
      have written := moves_writeCpPin (fun m => m.pin = pin) _ _ topKnown rfl
      refine moves_bind (written.mono ?_ fun _ _ ended => ended) fun _ => ?_
      · intro m start
        refine ⟨start.2.1, ?_⟩
        intro held same
        rw [start.1] at same
        subst same
        exact UInt64.le_of_lt (by simpa using higher)
      · refine moves_done ?_
        intro m start
        obtain ⟨before, same, rfl⟩ := start
        exact ⟨same, rfl⟩
    · -- A pin at or above the top, of which the foot is the rung, stands at the top.
      rename_i notHigher
      refine moves_done fun m start => ⟨start.2.1, ?_⟩
      obtain ⟨held, _, named⟩ := start
      cases cpPin with
      | none => exact absurd rfl notHigher
      | some pinned =>
        obtain ⟨c, cKnown, rfl⟩ := named pinned held
        have foot : first.seq = c.seq :=
          seq_of_hash injective (known first (by simp)) cKnown anchored
        have notBelow : ¬c.seq < (rest.getLastD first).seq := by simpa using notHigher
        have same : c.seq = (rest.getLastD first).seq := by
          rw [foot] at up
          exact UInt64.le_antisymm up (UInt64.not_lt.mp notBelow)
        simp [Topped, held, same]

/-- A rung over the verified top is not below it, and may be pinned. -/
theorem moves_publishRung {r : Reader} {top : Option Checkpoint} {rec_ : SlotRecord} :
    Moves seen (Topped top) (publishRung r top rec_) fun _ _ => True := by
  -- The rung is made first, and pinned where it is published.
  refine moves_orFail fun c made => ?_
  rw [except_mapError_eq_ok] at made
  obtain ⟨at_, up⟩ := Checkpoint.ofRecord_seq made
  refine moves_orFail fun bytes encoded => ?_
  rw [except_mapError_eq_ok] at encoded
  refine moves_known (fun _ => c ∈ seen) (asks_request.mpr trivial) ?_ fun _ known => ?_
  · -- The rung was shown to the peer, whatever the peer answered.
    intro _ said played shown
    obtain ⟨reply, rfl, _⟩ := plays_request_ok.mp played
    exact shown c (.inr ⟨.ok reply, bytes, by simp, encoded⟩)
  have written := moves_writeCpPin (fun _ => True) c rec_.seq known at_
  refine written.mono ?_ fun _ _ _ => trivial
  intro m start
  refine ⟨trivial, ?_⟩
  intro pin held
  -- The pin stands at the top, and the top is not above the record.
  rw [Topped, held] at start
  obtain ⟨t, isTop, seq⟩ := Option.map_eq_some_iff.mp start.symm
  rw [← seq]
  exact up t isTop

/-- A rung is published only above the top one, and the memory moves forward. -/
theorem moves_maybeRung {r : Reader} {top : Option Checkpoint} {rec_ : SlotRecord} :
    Moves seen (Topped top) (maybeRung r top rec_) fun _ _ => True := by
  unfold maybeRung
  split
  · exact moves_publishRung
  · exact moves_done fun _ _ => trivial

/-- Publishing a version pins it, so it must not be below the pin. -/
theorem moves_publishRecord (top : Option Checkpoint) {d : Device} {r : Reader} {seq : UInt64}
    {prev : Digest} {tree : Addr} :
    Moves seen (fun m => Topped top m ∧ ∀ p, m.pin = some p → p.seq ≤ seq)
      (publishRecord d r seq prev tree) fun _ m => Topped top m := by
  -- The record is signed and sent before it is pinned.
  refine moves_quiet (sealRoot_quiet _ _ _ _) fun sealed => ?_
  refine moves_quiet ⟨trivial, fun _ => asks_orFail⟩ fun root => ?_
  refine moves_quiet (pushBlob_quiet _ _) fun _ => ?_
  refine moves_quiet (asks_request.mpr trivial) fun _ => ?_
  refine moves_orFail fun rec_ _ => ?_
  refine moves_orFail fun bytes _ => ?_
  refine moves_known (fun _ => True) (asks_request.mpr trivial) (fun _ _ _ _ => trivial)
    fun _ _ => ?_
  -- All before the pin is quiet.
  refine moves_bind (moves_writePin (Topped top) seq _) fun _ => moves_done ?_
  intro m ended
  obtain ⟨before, topped, rfl⟩ := ended
  exact topped

/-- What reading the slot established about the pins. -/
structure Settled (d : Device) (read : SlotRead) (m : Memory) : Prop where
  topped : Topped read.top m
  pin : m.pin = d.pin
  missing : read.served = none → d.pin = none
  above : ∀ h, read.served = some h → ∀ p, d.pin = some p → p.seq ≤ h.seq

/-- The next record goes over the served head, or is the first. -/
theorem moves_settle {d : Device} {read : SlotRead} {next : Option (UInt64 × Digest × Addr)}
    (higher : ∀ seq prev tree, next = some (seq, prev, tree) → ∀ p, d.pin = some p → p.seq ≤ seq) :
    Moves seen (Settled d read) (settle d read next) fun _ _ => True := by
  -- Either a new record is published and pinned, or the served head is.
  cases next with
  | none =>
    cases served : read.served with
    | none =>
      simp only [settle, served]
      exact moves_done fun _ _ => trivial
    | some h =>
      simp only [settle, served]
      split
      · -- Nothing is published, so the served head is pinned.
        refine moves_bind ((moves_writePin (fun _ => True) h.seq h.recordHash).mono ?_
          fun _ _ _ => trivial) fun _ => moves_done fun _ _ => trivial
        intro m start
        refine ⟨trivial, ?_⟩
        intro p held
        rw [start.pin] at held
        exact start.above h served p held
      · exact moves_done fun _ _ => trivial
  | some version =>
    obtain ⟨seq, prev, tree⟩ := version
    refine moves_bind ((moves_publishRecord read.top).mono ?_ fun _ _ ended => ended) fun rec_ => ?_
    · intro m start
      refine ⟨start.topped, ?_⟩
      intro p held
      rw [start.pin] at held
      exact higher seq prev tree rfl p held
    · exact moves_bind moves_maybeRung fun _ => moves_done fun _ _ => trivial

/-- The version after a served head stands above it, and a first version needs no head served. -/
theorem nextRecord_above {root : Option Addr} {served : Option (SlotRecord × RootManifest)}
    {seq : UInt64} {prev : Digest} {tree : Addr} {said : Conversation}
    (played : (nextRecord root served).Plays said (.ok (some (seq, prev, tree)))) :
    served = none ∨ ∃ h manifest, served = some (h, manifest) ∧ h.seq ≤ seq := by
  -- The new number is one more than that of the served head.
  cases served with
  | none => exact .inl rfl
  | some pair =>
    obtain ⟨h, manifest⟩ := pair
    right
    refine ⟨h, manifest, rfl, ?_⟩
    cases root with
    | none => simp [nextRecord] at played
    | some r =>
      simp only [nextRecord] at played
      split at played
      · simp at played
      · split at played
        · simp at played
        · -- The last number of all is refused, so counting on does not wrap.
          rename_i room
          simp only [Script.plays_done, Except.ok.injEq, Option.some.injEq, Prod.mk.injEq] at played
          obtain ⟨_, rfl, _⟩ := played
          have bound : h.seq.toNat ≠ u64Max.toNat := fun same => room (UInt64.toNat_inj.mp same)
          have top : u64Max.toNat = 2 ^ 64 - 1 := by decide
          have limit := h.seq.toNat_lt
          rw [UInt64.le_iff_toNat_le, toNat_succ (by omega)]
          omega

/-- Opening the served head adds its root manifest to it. -/
theorem openServed_fst {d : Device} {read : SlotRead} {served : Option (SlotRecord × RootManifest)}
    {said : Conversation} (played : (openServed d read).Plays said (.ok served)) :
    served.map Prod.fst = read.served := by
  -- Opening adds the manifest to the head and leaves the head as it is.
  unfold openServed at played
  split at played
  · rename_i none
    obtain ⟨_, same⟩ := Script.plays_done.mp played
    obtain rfl := Except.ok.inj same
    exact none.symm
  · rename_i h some
    simp only [Script.plays_bind_ok, Script.pure_eq, Script.plays_done, Except.ok.injEq] at played
    obtain ⟨manifest, _, _, _, _, _, rfl⟩ := played
    exact some.symm

/-- Everything after the slot has been read moves the memory onward. -/
theorem moves_finish {d : Device} {read : SlotRead} :
    Moves seen (Settled d read) (finish d read) fun _ _ => True := by
  -- What was read decides which of the parts follow.
  intro m said outcome start
  have moves : Moves seen (Settled d read) (finish d read) fun _ _ => True := by
    refine moves_known (fun served => served.map Prod.fst = read.served)
      ((openServed_quiet d read).mono fun _ => Quiet.still)
      (fun served said played _ => openServed_fst played) ?_
    intro served opened
    refine moves_known (fun next => ∀ seq prev tree, next = some (seq, prev, tree) →
        ∀ p, d.pin = some p → p.seq ≤ seq)
      ((nextRecord_quiet _ _).mono fun _ => Quiet.still) ?_ ?_
    · intro next said played _ seq prev tree is p held
      subst is
      -- Without a served head there was no pin; with one, the pin is not above it.
      rcases nextRecord_above played with rfl | ⟨h, manifest, rfl, above⟩
      · have missing := start.missing opened.symm
        rw [missing] at held
        cases held
      · exact UInt64.le_trans (start.above h opened.symm p held) above
    · intro next higher
      refine moves_bind (moves_settle higher) ?_
      intro held
      cases held with
      | none => exact moves_done fun _ _ => trivial
      | some record =>
        exact (moves_still (fun _ => True) ((observe_quiet read record).mono fun _ => Quiet.still)
          fun _ _ _ _ => trivial).mono (fun _ begun => begun) fun _ _ _ => trivial
  exact moves m said outcome start

/-- What the head check let through bounds the pin. -/
theorem checkHead_missing {r : Reader} {pin : Option Device.Pin}
    (passed : checkHead r pin none = .ok ()) : pin = none := by
  cases pin with
  | none => rfl
  | some p => cases passed

/-- Reading the slot leaves the record pin alone and the checkpoint pin at the top of the ladder. -/
theorem moves_readSlot (injective : Set.InjOn Crypto.blake3 (Checkpoint.hashInput '' seen))
    {d : Device} {o : SyncOpts} :
    Moves seen (fun m => m.cpPin = d.cpPin ∧ m.pin = d.pin ∧ m.Named seen) (readSlot d o)
      fun read m => Settled d read m := by
  -- The parts of the reading, one after the other.
  refine moves_quiet (openReader_quiet d) fun opened => ?_
  obtain ⟨root, writer, slot⟩ := opened
  refine moves_known (fun _ => True) (servedHead_asks slot trivial) (fun _ _ _ _ => trivial)
    fun served _ => ?_
  refine moves_orFail fun roster _ => ?_
  refine moves_orRefuse fun _ headPassed => ?_
  refine moves_quiet (askWitness_quiet d o slot) fun witness => ?_
  refine moves_orRefuse fun _ _ => ?_
  refine moves_quiet (askHandoffs_quiet slot) fun authorisations => ?_
  -- The ladder is the one part of the reading that writes a pin.
  have ladder : Moves seen (fun m => m.cpPin = d.cpPin ∧ m.pin = d.pin ∧ m.Named seen)
      (readLadder d ⟨writer, slot, roster⟩ authorisations)
      fun result m => m.pin = d.pin ∧ Topped result.2 m := by
    refine moves_known (fun rungs => ∀ c ∈ rungs, c ∈ seen)
      ((ladderPages_quiet _ _ _ _).mono fun _ => Quiet.still) ?_ fun rungs known => ?_
    · intro rungs said played shown c member
      rcases ladderPages_shown played c member with impossible | here
      · cases impossible
      · exact shown c here
    · exact moves_bind (moves_checkLadder injective known) fun top =>
        moves_done fun _ ended => ended
  refine moves_bind ladder fun result => ?_
  obtain ⟨rungs, top⟩ := result
  cases served with
  | none =>
    refine moves_done fun m ended => ⟨ended.2, ended.1, fun _ => checkHead_missing headPassed, ?_⟩
    intro h impossible
    cases impossible
  | some h =>
    -- The history is walked after the pin is written, and writes none itself.
    refine moves_quiet (walkHistory_quiet _ _ _ _ _ _ _) fun walked => moves_done fun m ended => ?_
    refine ⟨ended.2, ended.1, (fun impossible => nomatch impossible), ?_⟩
    intro h' same
    obtain rfl := Option.some.inj same
    exact checkHead_pinned headPassed

/-- A sync moves the memory of its device onward, whatever it is answered. -/
theorem moves_sync (injective : Set.InjOn Crypto.blake3 (Checkpoint.hashInput '' seen))
    {d : Device} {o : SyncOpts} :
    Moves seen (fun m => m.cpPin = d.cpPin ∧ m.pin = d.pin ∧ m.Named seen) (sync d o)
      fun _ _ => True := by
  -- Dialling and offering the blobs come before anything is pinned.
  refine moves_quiet (asks_dial.mpr trivial) fun _ => ?_
  refine moves_quiet (offerBlobs_quiet d) fun _ => ?_
  exact moves_bind (moves_readSlot injective) fun read => moves_finish

end Sync

end

end NasTools
