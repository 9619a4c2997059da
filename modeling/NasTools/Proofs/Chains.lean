import NasTools.Proofs.SlotClient

/-!
What a walk accepts, said of the whole chain: in one piece, in two, and from where a client stands.
-/

namespace NasTools

/-- A relation holds along a list exactly when it holds between any two that stand side by side. -/
theorem isChain_iff_neighbours {A : Type} {R : A → A → Prop} {items : List A} :
    items.IsChain R ↔ ∀ a b, [a, b] <:+: items → R a b := by
  -- Neighbours are a part of the list of two elements.
  constructor
  · intro chained a b beside
    have pair : [a, b].IsChain R := List.IsChain.infix chained beside
    exact List.isChain_pair.mp pair
  · intro related
    -- Every list relates its own neighbours by standing side by side in it.
    exact (List.isChain_isInfix items).imp related

section

variable [Crypto] {ctx : WalkContext} {first : SlotRecord} {rest : List SlotRecord}

/-- Along a chain the sequences count up from the first one, and stay at the largest number. -/
theorem seq_at (chained : (first :: rest).IsChain ctx.Follows) {i : Nat} {r : SlotRecord}
    (place : (first :: rest)[i]? = some r) :
      r.seq.toNat = min (first.seq.toNat + i) (2 ^ 64 - 1) := by
  -- Each record is one above the one before, so the induction moves the first record along.
  induction rest generalizing first i with
  | nil =>
    have bound := first.seq.toNat_lt
    cases i with
    | zero =>
      obtain rfl : first = r := by simpa using place
      omega
    | succ i => simp at place
  | cons second rest ih =>
    obtain ⟨follows, later⟩ := List.isChain_cons_cons.mp chained
    have bound := first.seq.toNat_lt
    cases i with
    | zero =>
      obtain rfl : first = r := by simpa using place
      omega
    | succ i =>
      have next := ih later (i := i) (by simpa using place)
      rw [follows.seq, toNat_satAdd, UInt64.toNat_one] at next
      omega

/-- While the numbers do not run out, neighbours of a chain carry consecutive sequences. -/
theorem consecutive_of_chain (chained : (first :: rest).IsChain ctx.Follows)
    (fits : first.seq.toNat + (first :: rest).length ≤ 2 ^ 64) :
    (first :: rest).IsChain fun a b => b.seq.toNat = a.seq.toNat + 1 := by
  -- Induction over the records behind the first.
  induction rest generalizing first with
  | nil => exact .singleton _
  | cons second rest ih =>
    obtain ⟨follows, later⟩ := List.isChain_cons_cons.mp chained
    simp only [List.length_cons] at fits ih
    -- There is room for at least two records, so counting does not saturate here.
    have next : second.seq.toNat = first.seq.toNat + 1 := by
      rw [follows.seq, toNat_satAdd, UInt64.toNat_one]
      omega
    exact List.isChain_cons_cons.mpr ⟨next, ih later (by omega)⟩

/-- The last record of a chain carries the sequence its length leads to. -/
theorem seq_of_last (chained : (first :: rest).IsChain ctx.Follows) :
    (rest.getLastD first).seq.toNat = min (first.seq.toNat + rest.length) (2 ^ 64 - 1) := by
  -- The last record stands at the end of the numbering.
  refine seq_at chained ?_
  rw [List.getLastD_eq_getLast?]
  cases rest with
  | nil => rfl
  | cons second others => simp [List.getLast?_eq_getElem?]

/-- What a chain is as a whole, said without walking it. -/
structure GenuineChain (slotId : SlotId) (roster : Roster) (expectPrev : Option Digest)
    (handoffs : List SlotHandoff) (first : SlotRecord) (rest : List SlotRecord) : Prop where
  -- One slot, one regime, and a signature of a writer the roster knows.
  slot : ∀ r ∈ first :: rest, r.slotId = slotId
  consecutive : ∀ a b, [a, b] <:+: first :: rest → b.seq.toNat = a.seq.toNat + 1
  regime : ∀ r ∈ first :: rest, r.regime = first.regime
  start : first.prev = expectPrev.getD Digest.zero
  linked : ∀ a b, [a, b] <:+: first :: rest → b.prev = a.recordHash
  signed : ∀ r ∈ first :: rest, ∃ vk, roster.get r.writerId = some vk ∧ r.verify vk = .ok ()
  -- Under single-writer, the outgoing writer signed each change for exactly this place.
  handed : first.regime = .singleWriter → ∀ a b, [a, b] <:+: first :: rest →
    a.writerId ≠ b.writerId →
    ∃ h ∈ handoffs, h.slotId = slotId ∧ h.atSeq = b.seq ∧ h.fromWriter = a.writerId ∧
      h.toWriter = b.writerId ∧ h.verify = .ok ()

/-- A handoff authorises a change when it names exactly that change and its signature verifies. -/
theorem authorises_iff {h : SlotHandoff} {slot : SlotId} {atSeq : UInt64}
    {outgoing incoming : WriterId} :
    h.authorises slot atSeq outgoing incoming = true ↔
      h.slotId = slot ∧ h.atSeq = atSeq ∧ h.fromWriter = outgoing ∧ h.toWriter = incoming ∧
        h.verify = .ok () := by
  -- The checks are a conjunction of comparisons and a signature.
  have verified : h.verify.isOk = true ↔ h.verify = .ok () := by
    cases h.verify <;> simp [Except.isOk, Except.toBool]
  simp only [SlotHandoff.authorises, Bool.and_eq_true, beq_iff_eq, verified]
  -- Both sides are the same five conditions; the code checks them in another order.
  tauto

variable {slotId : SlotId} {roster : Roster} {expectPrev : Option Digest}
    {handoffs : List SlotHandoff}

/-- A chain that is walked to its end is genuine, while the numbers do not run out. -/
theorem genuine_of_walk {walk : Walk} (fits : first.seq.toNat + (first :: rest).length ≤ 2 ^ 64)
    (walked : verifyChainWithHandoffs (first :: rest) slotId roster expectPrev handoffs =
      .ok walk) :
    GenuineChain slotId roster expectPrev handoffs first rest := by
  -- The three things a walk checks are turned into the parts of a genuine chain.
  obtain ⟨admitted, start, chained, _⟩ := verifyChainWithHandoffs_ok_iff.mp walked
  have follows := isChain_iff_neighbours.mp chained
  have consecutive := isChain_iff_neighbours.mp (consecutive_of_chain chained fits)
  -- What the walk checks of one record, and what it checks of a record and the one before.
  refine ⟨?_, consecutive, ?_, start, ?_, ?_, ?_⟩
  · intro r member
    exact (admitted r member).1
  · intro r member
    exact (admitted r member).2.1
  · intro a b beside
    exact (follows a b beside).link
  · intro r member
    exact (admitted r member).2.2
  · -- The owner the walk carries is the writer of the record before.
    intro single a b beside other
    obtain ⟨h, known, authorised⟩ := (follows a b beside).owned single other
    exact ⟨h, known, authorises_iff.mp authorised⟩

/-- A genuine chain is walked to its end. -/
theorem walk_of_genuine (genuine : GenuineChain slotId roster expectPrev handoffs first rest) :
    verifyChainWithHandoffs (first :: rest) slotId roster expectPrev handoffs =
      .ok ⟨slotId, first.regime, first.seq, (rest.getLastD first).seq,
        (rest.getLastD first).recordHash⟩ := by
  -- Each condition of the definition is one check of the walk.
  refine verifyChainWithHandoffs_ok_iff.mpr ⟨?_, genuine.start, ?_, rfl⟩
  · intro r member
    exact ⟨genuine.slot r member, genuine.regime r member, genuine.signed r member⟩
  · rw [isChain_iff_neighbours]
    intro a b beside
    refine ⟨?_, genuine.linked a b beside, ?_⟩
    · -- The sequence above exists, so the sum does not saturate.
      have next := genuine.consecutive a b beside
      have bound := b.seq.toNat_lt
      apply UInt64.toNat_inj.mp
      rw [toNat_satAdd, UInt64.toNat_one]
      omega
    · intro single other
      obtain ⟨h, known, exact_⟩ := genuine.handed single a b beside other
      exact ⟨h, known, authorises_iff.mpr exact_⟩

/--
A walk accepts exactly the genuine chains, and reports the last record of each.

The sequences have to fit: past the largest number the walk counts no further.
-/
theorem walk_accepts_exactly_genuine_chains (records : List SlotRecord) (slotId : SlotId)
    (roster : Roster) (expectPrev : Option Digest) (handoffs : List SlotHandoff)
    (first : SlotRecord) (rest : List SlotRecord) (shape : records = first :: rest)
    (fits : first.seq.toNat + records.length ≤ 2 ^ 64) :
    ((∃ walk, verifyChainWithHandoffs records slotId roster expectPrev handoffs = .ok walk) ↔
        GenuineChain slotId roster expectPrev handoffs first rest) ∧
      ∀ walk, verifyChainWithHandoffs records slotId roster expectPrev handoffs = .ok walk →
        ∃ last, records.getLast? = some last ∧ walk.headSeq = last.seq ∧
          walk.headHash = last.recordHash := by
  -- A walk is accepted where its checks pass, and these are the parts of a genuine chain.
  subst shape
  refine ⟨⟨?_, ?_⟩, ?_⟩
  · intro accepted
    obtain ⟨walk, walked⟩ := accepted
    exact genuine_of_walk fits walked
  · intro genuine
    exact ⟨_, walk_of_genuine genuine⟩
  · intro walk walked
    -- The walk ends with the head it reports, which is the last record.
    obtain ⟨_, _, _, rfl⟩ := verifyChainWithHandoffs_ok_iff.mp walked
    exact ⟨rest.getLastD first, getLast?_cons_eq first rest, rfl, rfl⟩

/-- Sequences that are all different, and in ascending order. -/
def AscendingSeqs (records : List SlotRecord) : Prop :=
  (records.map SlotRecord.seq).Nodup ∧ (records.map SlotRecord.seq).Pairwise (· < ·)

/-- The sequences of an accepted chain ascend exactly when the numbers do not run out on the way. -/
theorem accepted_ascending_iff {walk : Walk}
    (accepted : verifyChainWithHandoffs (first :: rest) slotId roster expectPrev handoffs =
      .ok walk) :
    AscendingSeqs (first :: rest) ↔ first.seq.toNat + (first :: rest).length ≤ 2 ^ 64 := by
  -- Neighbours of an accepted chain carry the next number, or both the largest.
  obtain ⟨_, _, chained, _⟩ := verifyChainWithHandoffs_ok_iff.mp accepted
  constructor
  · intro both
    obtain ⟨_, ascending⟩ := both
    -- Were the numbers to run out, the last two records would both carry the largest one.
    by_contra full
    have bound := first.seq.toNat_lt
    rw [List.length_cons] at full
    have two : 0 < rest.length := by omega
    have before : rest.length - 1 < (first :: rest).length := by
      rw [List.length_cons]
      omega
    have after : rest.length < (first :: rest).length := by
      rw [List.length_cons]
      omega
    have lower := seq_at chained (List.getElem?_eq_getElem before)
    have upper := seq_at chained (List.getElem?_eq_getElem after)
    rw [List.pairwise_map, List.pairwise_iff_getElem] at ascending
    have less := ascending (rest.length - 1) rest.length before after (by omega)
    rw [UInt64.lt_iff_toNat_lt] at less
    omega
  · intro fits
    -- Consecutive numbers rise from each record to the next, and so between any two.
    have counted := consecutive_of_chain chained fits
    have increasing : ((first :: rest).map SlotRecord.seq).Pairwise (· < ·) := by
      rw [← List.isChain_iff_pairwise, List.isChain_map]
      refine counted.imp ?_
      intro a b next
      rw [UInt64.lt_iff_toNat_lt]
      omega
    exact ⟨increasing.imp fun less => UInt64.ne_of_lt less, increasing⟩

/-- A whole chain is accepted in one walk. -/
def WalkedAtOnce (slotId : SlotId) (roster : Roster) (expectPrev : Option Digest)
    (handoffs : List SlotHandoff) (c1 c2 : List SlotRecord) : Prop :=
  ∃ walk, verifyChainWithHandoffs (c1 ++ c2) slotId roster expectPrev handoffs = .ok walk

/-- A chain is accepted in two walks, the second of which goes on from the head of the first. -/
def WalkedInPieces (slotId : SlotId) (roster : Roster) (expectPrev : Option Digest)
    (handoffs : List SlotHandoff) (c1 c2 : List SlotRecord) : Prop :=
  ∃ walk1 walk2, verifyChainWithHandoffs c1 slotId roster expectPrev handoffs = .ok walk1 ∧
    verifyChainWithHandoffs c2 slotId roster (some walk1.headHash) handoffs = .ok walk2 ∧
    walk2.firstSeq.toNat = walk1.headSeq.toNat + 1 ∧ walk2.regime = walk1.regime

/--
Two pieces in order by themselves, the second of which starts where a walk of the first leaves off.
-/
structure Meet (ctx : WalkContext) (expectPrev : Option Digest) (first : SlotRecord)
    (rest : List SlotRecord) (next : SlotRecord) (more : List SlotRecord) : Prop where
  admitted : ∀ r ∈ (first :: rest) ++ (next :: more), ctx.Admits r
  start : first.prev = expectPrev.getD Digest.zero
  front : (first :: rest).IsChain ctx.Follows
  back : (next :: more).IsChain ctx.Follows
  link : next.prev = (rest.getLastD first).recordHash
  seq : next.seq = satAdd (rest.getLastD first).seq 1

variable {next : SlotRecord} {more : List SlotRecord}

/-- In one walk, the pieces have to meet, and a change of writer between them has to be covered. -/
theorem walkedAtOnce_iff :
    WalkedAtOnce slotId roster expectPrev handoffs (first :: rest) (next :: more) ↔
      Meet ⟨slotId, first.regime, roster, handoffs⟩ expectPrev first rest next more ∧
        WalkContext.Owned ⟨slotId, first.regime, roster, handoffs⟩ (rest.getLastD first).writerId
          next := by
  -- The one walk and the two walks make the same checks but for those at the seam.
  have last := getLast?_cons_eq first rest
  unfold WalkedAtOnce
  rw [List.cons_append]
  constructor
  · intro accepted
    obtain ⟨walk, walked⟩ := accepted
    obtain ⟨admitted, start, chained, _⟩ := verifyChainWithHandoffs_ok_iff.mp walked
    -- The one walk also compares the last record of the first piece with the first of the second.
    rw [← List.cons_append, List.isChain_append] at chained
    obtain ⟨front, back, joined⟩ := chained
    have follows := joined _ last next rfl
    exact ⟨⟨admitted, start, front, back, follows.link, follows.seq⟩, follows.owned⟩
  · intro meets
    obtain ⟨meet, owned⟩ := meets
    refine ⟨_, verifyChainWithHandoffs_ok_iff.mpr ⟨meet.admitted, meet.start, ?_, rfl⟩⟩
    rw [← List.cons_append, List.isChain_append]
    -- The only neighbours in two pieces are the last of the one and the first of the other.
    refine ⟨meet.front, meet.back, ?_⟩
    intro a isLast b isNext
    rw [last, Option.mem_some_iff] at isLast
    rw [List.head?_cons, Option.mem_some_iff] at isNext
    subst isLast isNext
    exact ⟨meet.seq, meet.link, owned⟩

/--
In two walks, the pieces have to meet below the largest number, and no one asks who writes next.
-/
theorem walkedInPieces_iff :
    WalkedInPieces slotId roster expectPrev handoffs (first :: rest) (next :: more) ↔
      Meet ⟨slotId, first.regime, roster, handoffs⟩ expectPrev first rest next more ∧
        (rest.getLastD first).seq.toNat < 2 ^ 64 - 1 := by
  -- Each walk is accepted for itself, and the second starts from the hash of the first.
  constructor
  · intro accepted
    obtain ⟨walk1, walk2, walked1, walked2, counted, sameRegime⟩ := accepted
    -- The second walk starts anew: it takes the regime and the writer of its own first record.
    obtain ⟨admitted1, start, front, rfl⟩ := verifyChainWithHandoffs_ok_iff.mp walked1
    obtain ⟨admitted2, link, back, rfl⟩ := verifyChainWithHandoffs_ok_iff.mp walked2
    dsimp only at counted sameRegime link
    rw [sameRegime] at admitted2 back
    have bound := next.seq.toNat_lt
    refine ⟨⟨?_, start, front, back, link, ?_⟩, by omega⟩
    · intro r member
      rcases List.mem_append.mp member with old | new
      · exact admitted1 r old
      · exact admitted2 r new
    · -- The caller counts without saturation, which leaves the largest number no successor.
      apply UInt64.toNat_inj.mp
      rw [toNat_satAdd, UInt64.toNat_one]
      omega
  · intro meets
    obtain ⟨meet, room⟩ := meets
    -- Every record of the second piece keeps to the regime of the first.
    have sameRegime : next.regime = first.regime := (meet.admitted next (by simp)).2.1
    have back := meet.back
    rw [← sameRegime] at back
    refine ⟨_, _, verifyChainWithHandoffs_ok_iff.mpr ⟨?_, meet.start, meet.front, rfl⟩,
      verifyChainWithHandoffs_ok_iff.mpr ⟨?_, meet.link, back, rfl⟩, ?_, sameRegime⟩
    · intro r member
      exact meet.admitted r (List.mem_append_left _ member)
    · intro r member
      rw [sameRegime]
      exact meet.admitted r (List.mem_append_right _ member)
    · show next.seq.toNat = (rest.getLastD first).seq.toNat + 1
      rw [meet.seq, toNat_satAdd, UInt64.toNat_one]
      omega

/--
Walking in pieces agrees with walking at once exactly when, where two pieces meet, the change of
writer between them is covered, unless the first piece ends at the largest number.

There the walk at once goes on with the same number again, and the walks in pieces stop.
-/
theorem pieces_agree_iff (slotId : SlotId) (roster : Roster) (expectPrev : Option Digest)
    (handoffs : List SlotHandoff) (first : SlotRecord) (rest : List SlotRecord) (next : SlotRecord)
    (more : List SlotRecord) :
    (WalkedAtOnce slotId roster expectPrev handoffs (first :: rest) (next :: more) ↔
        WalkedInPieces slotId roster expectPrev handoffs (first :: rest) (next :: more)) ↔
      (Meet ⟨slotId, first.regime, roster, handoffs⟩ expectPrev first rest next more →
        (WalkContext.Owned ⟨slotId, first.regime, roster, handoffs⟩
          (rest.getLastD first).writerId next ↔
          (rest.getLastD first).seq.toNat < 2 ^ 64 - 1)) := by
  -- Both walks ask that the pieces meet; they differ in what they ask besides.
  rw [walkedAtOnce_iff, walkedInPieces_iff, and_congr_right_iff]

namespace SlotClient

variable {c : SlotClient} {records : List SlotRecord} {new : Pin}

/-- What an accepted offer was: a chain from where the client stands to at least its floor. -/
structure Reaches (c : SlotClient) (roster : Roster) (first : SlotRecord) (rest : List SlotRecord)
    (new : Pin) : Prop where
  pin : new = ⟨(rest.getLastD first).seq, (rest.getLastD first).recordHash⟩
  floor : c.anchor.seq ≤ (rest.getLastD first).seq
  anchored : c.checkAnchorRecord (first :: rest) = .ok ()
  admitted : ∀ r ∈ first :: rest, WalkContext.Admits ⟨c.slotId, c.regime, roster, []⟩ r
  start : first.prev = (c.pin.map Pin.recordHash).getD Digest.zero
  chained : (first :: rest).IsChain (WalkContext.Follows ⟨c.slotId, c.regime, roster, []⟩)

/-- An offer is accepted only when it reaches from where the client stands to its floor. -/
theorem reaches_of_accepted (accepted : (c.offer records roster).1 = .accepted new) :
    ∃ first rest, records = first :: rest ∧ c.Reaches roster first rest new := by
  -- Of the ways an offer can be accepted, one makes a walk and the others need none.
  have granted : (c.offer records roster).1.granted = some new := by rw [accepted, Verdict.granted]
  obtain ⟨head, last, _, _, judged⟩ := ((offer_spec records roster).1 new).mp granted
  obtain ⟨floor, _, pin, anchored, walk, walked, sameRegime⟩ := judgeChain_ok last judged
  -- The client walks from its own pin and regime, so the walk is over exactly this chain.
  cases records with
  | nil => cases last
  | cons first rest =>
    have top : rest.getLastD first = head := by
      rw [getLast?_cons_eq] at last
      exact Option.some.inj last
    obtain ⟨admitted, start, chained, rfl⟩ := verifyChainWithHandoffs_ok_iff.mp walked
    dsimp only at sameRegime
    rw [sameRegime] at admitted chained
    exact ⟨first, rest,
      rfl, by rw [top, pin], by rw [top]; exact floor, anchored, admitted, start, chained⟩

/-- The new pin is where counting on from the old one leads, from a record directly on top of it. -/
def Continues (pin new : Pin) (records : List SlotRecord) : Prop :=
  ∃ first, records.head? = some first ∧ first.seq.toNat = pin.seq.toNat + 1 ∧
    first.prev = pin.recordHash ∧ new.seq.toNat = pin.seq.toNat + records.length

/--
Nothing was signed on top of the pinned record at any sequence but the next, and the
numbers suffice.
-/
def NextOnTop (pin : Pin) (records : List SlotRecord) : Prop :=
  (∀ first, records.head? = some first → first.prev = pin.recordHash →
    first.seq.toNat = pin.seq.toNat + 1) ∧ pin.seq.toNat + records.length < 2 ^ 64

/--
An accepted offer continues from the pin exactly when what it puts on top carries the next sequence.
-/
theorem accepted_continues_iff {pin : Pin} (pinned : c.pin = some pin)
    (accepted : (c.offer records roster).1 = .accepted new) :
    Continues pin new records ↔ NextOnTop pin records := by
  -- An accepted offer reaches from the pin to its head.
  obtain ⟨first, rest, rfl, reaches⟩ := reaches_of_accepted accepted
  have onTop : first.prev = pin.recordHash := by
    have start := reaches.start
    rwa [pinned] at start
  have headSeq := seq_of_last reaches.chained
  have newSeq : new.seq = (rest.getLastD first).seq := by rw [reaches.pin]
  constructor
  · intro moved
    obtain ⟨other, same, next, _, counted⟩ := moved
    rw [List.head?_cons, Option.some.injEq] at same
    subst same
    have bound := new.seq.toNat_lt
    -- Anything on top of the pin in this offer is its first record, which has the next number.
    refine ⟨?_, by omega⟩
    intro top isTop _
    rw [List.head?_cons, Option.some.injEq] at isTop
    rwa [← isTop]
  · intro served
    obtain ⟨nextOnTop, room⟩ := served
    have next := nextOnTop first rfl onTop
    refine ⟨first, rfl, next, onTop, ?_⟩
    -- Below the largest number the head is as far above the first record as the chain is long.
    rw [List.length_cons] at room ⊢
    rw [newSeq, headSeq]
    omega

/-- A chain that starts from nothing starts with the genesis record. -/
theorem Reaches.genesis {first : SlotRecord} {rest : List SlotRecord} (fresh : c.pin = none)
    (reaches : c.Reaches roster first rest new) : first.seq = 0 := by
  -- The first record was admitted, so it keeps the rule of the genesis.
  obtain ⟨_, _, vk, _, verified⟩ := reaches.admitted first (by simp)
  have start := reaches.start
  -- Without a pin the chain has to start at the zero hash, and a signed record there
  -- has number zero.
  rw [fresh] at start
  exact (genesis_of_verify verified).mpr start

/-- From the genesis record on, the record of each sequence is at the place of that number. -/
theorem Reaches.seq_at_place {first : SlotRecord} {rest : List SlotRecord} (fresh : c.pin = none)
    (reaches : c.Reaches roster first rest new) {i : Nat} {r : SlotRecord}
    (place : (first :: rest)[i]? = some r) : r.seq.toNat = min i (2 ^ 64 - 1) := by
  have seq := seq_at reaches.chained place
  rw [reaches.genesis fresh, UInt64.toNat_zero, Nat.zero_add] at seq
  exact seq

/-- The first record found at the anchor's sequence is the one at the place of that number. -/
theorem Reaches.anchor_at_place {first : SlotRecord} {rest : List SlotRecord} (fresh : c.pin = none)
    (reaches : c.Reaches roster first rest new) :
    ∃ r, (first :: rest)[c.anchor.seq.toNat]? = some r ∧ r.seq = c.anchor.seq ∧
      r.sigHash = c.anchor.sigHash := by
  -- The floor puts the head at or above the anchor, so the chain is long enough to hold it.
  have headSeq := seq_of_last reaches.chained
  rw [reaches.genesis fresh, UInt64.toNat_zero, Nat.zero_add] at headSeq
  have floor := UInt64.le_iff_toNat_le.mp reaches.floor
  have bound := c.anchor.seq.toNat_lt
  have within : c.anchor.seq.toNat < (first :: rest).length := by
    rw [List.length_cons]
    omega
  let r := (first :: rest)[c.anchor.seq.toNat]
  have place : (first :: rest)[c.anchor.seq.toNat]? = some r := List.getElem?_eq_getElem within
  have seq : r.seq = c.anchor.seq := by
    apply UInt64.toNat_inj.mp
    rw [reaches.seq_at_place fresh place]
    omega
  refine ⟨r, place, seq, ?_⟩
  have anchored := reaches.anchored
  unfold checkAnchorRecord at anchored
  cases found : (first :: rest).find? (·.seq == c.anchor.seq) with
  -- The search reaches the place of the anchor, so it finds something.
  | none =>
    have missed := List.find?_eq_none.mp found r (List.mem_of_getElem? place)
    simp [seq] at missed
  | some other =>
    simp only [found, ensure_eq_ok] at anchored
    obtain ⟨sameSeq, before, after, cut, earlier⟩ := List.find?_eq_some_iff_append.mp found
    rw [beq_iff_eq] at sameSeq
    have otherPlace : (first :: rest)[before.length]? = some other := by
      rw [cut, List.getElem?_append_right (Nat.le_refl _), Nat.sub_self, List.getElem?_cons_zero]
    have counted := reaches.seq_at_place fresh otherPlace
    rw [sameSeq] at counted
    -- Nothing before the record that was found has its sequence, so it is not past
    -- the anchor's place.
    have notPast : before.length ≤ c.anchor.seq.toNat := by
      by_contra past
      rw [not_le] at past
      rw [cut, List.getElem?_append_left past] at place
      have different := earlier r (List.mem_of_getElem? place)
      simp [seq] at different
    have same : before.length = c.anchor.seq.toNat := by omega
    rw [same, place, Option.some.injEq] at otherPlace
    rw [otherPlace]
    exact anchored

/--
A client without a pin accepts only a history from the genesis record on, with the
anchored record in it.

At every place that a number of 64 bits can name stands the record of that sequence.
-/
theorem fresh_client_accepts_only_its_own_history (c : SlotClient) (records : List SlotRecord)
    (roster : Roster) (new : Pin) (fresh : c.pin = none)
    (accepted : (c.offer records roster).1 = .accepted new) :
    (∀ i : UInt64, ∀ r, records[i.toNat]? = some r → r.seq = i) ∧
      (∀ r ∈ records, r.slotId = c.slotId ∧ r.regime = c.regime ∧
        ∃ vk, roster.get r.writerId = some vk ∧ r.verify vk = .ok ()) ∧
      (∀ a b, [a, b] <:+: records → b.prev = a.recordHash) ∧
      ∃ r, records[c.anchor.seq.toNat]? = some r ∧ r.seq = c.anchor.seq ∧
        r.sigHash = c.anchor.sigHash := by
  -- Being accepted gives a chain that starts at genesis and reaches the anchor.
  obtain ⟨first, rest, rfl, reaches⟩ := reaches_of_accepted accepted
  refine ⟨?_, reaches.admitted, ?_, reaches.anchor_at_place fresh⟩
  · intro i r place
    have bound := i.toNat_lt
    apply UInt64.toNat_inj.mp
    rw [reaches.seq_at_place fresh place]
    omega
  · intro a b beside
    exact (isChain_iff_neighbours.mp reaches.chained a b beside).link

end SlotClient

end

section

open Concrete

/-- The keys of two writers. -/
def jointRoster : Roster := rosterOf [(identity 7).verifyingKey, (identity 8).verifyingKey]

/-- The first record of a slot that one of them owns. -/
def ownedGenesis : SlotRecord := record 7 1 0 2 Digest.zero .singleWriter

/-- The record one of them signs on top of it. -/
def onTopOfGenesis (seed : UInt8) : SlotRecord :=
  record seed 1 1 3 ownedGenesis.recordHash .singleWriter

/-- The owner's consent to being followed by the other writer. -/
def consent : SlotHandoff :=
  let body := handoffBody (slot 1) 1 (identity 7).id (identity 8).id
  ⟨slot 1, 1, (identity 7).verifyingKey, (identity 8).id,
    signature (identity 7).verifyingKey (framed .slotHandoff body)⟩

/--
What walks over these records come to, evaluated once: with the owner's consent,
without it, and in two pieces.
-/
theorem owned_walks :
    verifyChainWithHandoffs [ownedGenesis, onTopOfGenesis 8] (slot 1) jointRoster none [consent] =
        .ok ⟨slot 1, .singleWriter, 0, 1, (onTopOfGenesis 8).recordHash⟩ ∧
      verifyChainWithHandoffs [ownedGenesis, onTopOfGenesis 8] (slot 1) jointRoster none [] =
        .error (.concurrentWriters 1 (identity 7).id (identity 8).id) ∧
      verifyChainWithHandoffs [ownedGenesis] (slot 1) jointRoster none [] =
        .ok ⟨slot 1, .singleWriter, 0, 0, ownedGenesis.recordHash⟩ ∧
      verifyChainWithHandoffs [onTopOfGenesis 8] (slot 1) jointRoster
        (some ownedGenesis.recordHash) [] =
        .ok ⟨slot 1, .singleWriter, 1, 1, (onTopOfGenesis 8).recordHash⟩ := by
  decide +kernel

/-- With the owner's consent, a chain of two writers is accepted. -/
theorem consented_walk :
    ∃ walk, verifyChainWithHandoffs [ownedGenesis, onTopOfGenesis 8] (slot 1) jointRoster
    none [consent] = .ok walk := ⟨_, owned_walks.1⟩

/-- A chain that changes hands with consent is genuine. -/
theorem consented_chain_is_genuine :
    GenuineChain (slot 1) jointRoster none [consent] ownedGenesis [onTopOfGenesis 8] :=
  (walk_accepts_exactly_genuine_chains _ (slot 1) jointRoster none [consent] ownedGenesis
    [onTopOfGenesis 8] rfl (by decide)).1.mp consented_walk

/-- Its sequences ascend. -/
theorem consented_chain_ascends : AscendingSeqs [ownedGenesis, onTopOfGenesis 8] := by
  obtain ⟨walk, walked⟩ := consented_walk
  exact (accepted_ascending_iff walked).mpr (by decide)

/-- The largest sequence. -/
def topSeq : UInt64 := UInt64.ofNat (2 ^ 64 - 1)

/-- A record at the largest sequence, and one on top of it that carries the same sequence. -/
def topTwice : List SlotRecord :=
  let top := record 7 1 topSeq 2 (digest [9]) .casMerge
  [top, record 7 1 topSeq 3 top.recordHash .casMerge]

/-- At the end of the range a chain is accepted in which two records share a sequence. -/
theorem top_sequence_is_accepted_twice :
    (∃ walk, verifyChainWithHandoffs topTwice (slot 1) jointRoster (some (digest [9])) [] =
      .ok walk) ∧ ¬AscendingSeqs topTwice := by
  -- The walk is evaluated, and its two records are compared.
  have facts :
    (verifyChainWithHandoffs topTwice (slot 1) jointRoster (some (digest [9])) []).isOk = true ∧
      ¬(topTwice.map SlotRecord.seq).Nodup := by decide +kernel
  obtain ⟨accepted, repeated⟩ := facts
  refine ⟨?_, fun ascending => repeated ascending.1⟩
  -- A walk that succeeds has a result; only its success was evaluated.
  cases walked : verifyChainWithHandoffs topTwice (slot 1) jointRoster (some (digest [9])) [] with
  | ok walk => exact ⟨walk, rfl⟩
  | error e => simp [walked, Except.isOk, Except.toBool] at accepted

/--
A writer who may not take a slot over is stopped in the middle of a walk, and not between two.
-/
theorem takeover_between_two_pieces :
    ¬(WalkedAtOnce (slot 1) jointRoster none [] [ownedGenesis] [onTopOfGenesis 8] ↔
      WalkedInPieces (slot 1) jointRoster none [] [ownedGenesis] [onTopOfGenesis 8]) := by
  -- The walks are evaluated, at once and in pieces.
  obtain ⟨_, whole, front, back⟩ := owned_walks
  intro same
  -- Walked in pieces the change of writer passes, so it would have to pass at once.
  obtain ⟨walk, walked⟩ := same.mpr ⟨_, _, front, back, rfl, rfl⟩
  rw [List.singleton_append, whole] at walked
  cases walked

namespace SlotClient

/-- A client anchored to the owner's record, pinned to it by its first offer. -/
def pinnedToGenesis : SlotClient :=
  slotClient.run (new (slot 1) .singleWriter ⟨0, ownedGenesis.sigHash⟩)
    [.offer [ownedGenesis] jointRoster]

/-- A record at the sixth place signed on top of the first. -/
def skipping : SlotRecord := record 7 1 5 3 ownedGenesis.recordHash .singleWriter

/--
What a pinned client accepts on top of its pin, at the next sequence and far above it,
and what one without a pin.
-/
theorem pinned_offers :
    pinnedToGenesis.pin = some ⟨0, ownedGenesis.recordHash⟩ ∧
      (pinnedToGenesis.offer [onTopOfGenesis 7] jointRoster).1 =
        .accepted ⟨1, (onTopOfGenesis 7).recordHash⟩ ∧
      (pinnedToGenesis.offer [skipping] jointRoster).1 = .accepted ⟨5, skipping.recordHash⟩ ∧
      ((new (slot 1) .singleWriter ⟨1, (onTopOfGenesis 7).sigHash⟩).offer
        [ownedGenesis, onTopOfGenesis 7] jointRoster).1 =
          .accepted ⟨1, (onTopOfGenesis 7).recordHash⟩ := by
  decide +kernel

/-- The next record on top of the pin continues from it. -/
theorem next_record_continues :
    Continues ⟨0, ownedGenesis.recordHash⟩ ⟨1, (onTopOfGenesis 7).recordHash⟩
      [onTopOfGenesis 7] := by
  -- The record links to the pinned one.
  obtain ⟨pinned, accepted, _⟩ := pinned_offers
  refine (accepted_continues_iff pinned accepted).mpr ⟨?_, by decide⟩
  intro first isFirst _
  rw [List.head?_cons, Option.some.injEq] at isFirst
  rw [← isFirst]
  rfl

/-- A client accepts a record five places above its pin, with nothing in between. -/
theorem skipped_records_are_accepted :
    ¬∀ (c : SlotClient) (pin new : Pin) (records : List SlotRecord) (roster : Roster),
      c.pin = some pin → (c.offer records roster).1 = .accepted new →
        Continues pin new records := by
  -- A client with a pin, and a record that names the pin's hash.
  intro always
  obtain ⟨pinned, _, accepted, _⟩ := pinned_offers
  obtain ⟨first, isFirst, next, _⟩ := always _ _ _ _ _ pinned accepted
  rw [List.head?_cons, Option.some.injEq] at isFirst
  -- The record is the sixth of the slot, and the pin is its first.
  rw [← isFirst] at next
  exact absurd next (by decide)

/-- A client anchored to the second record accepts the history that leads to it. -/
theorem fresh_client_accepts_a_history :
    ∃ r, [ownedGenesis, onTopOfGenesis 7][(1 : UInt64).toNat]? = some r ∧ r.seq = 1 ∧
      r.sigHash = (onTopOfGenesis 7).sigHash := by
  obtain ⟨_, _, _, accepted⟩ := pinned_offers
  exact (fresh_client_accepts_only_its_own_history _ _ _ _ rfl accepted).2.2.2

end SlotClient

end

end NasTools
