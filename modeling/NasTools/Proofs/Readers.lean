import NasTools.Proofs.Ranges

/-! What a peer serves against what a reader accepts: the one rule enforced on one side only. -/

namespace NasTools

section

variable [Crypto]

/-- A record stays signed under a roster that has grown. -/
theorem signed_of_extends {before after : Roster} {r : SlotRecord} (grown : after.Extends before)
    (signed : ∃ vk, before.get r.writerId = some vk ∧ r.verify vk = .ok ()) :
    ∃ vk, after.get r.writerId = some vk ∧ r.verify vk = .ok () := by
  obtain ⟨vk, known, verified⟩ := signed
  exact ⟨vk, grown _ vk known, verified⟩

namespace Peer

variable {p : Peer}

/-- A change of a sole writer between two neighbours is covered by a handoff the peer holds. -/
def Covered (p : Peer) (slot : SlotId) (a b : SlotRecord) : Prop :=
  a.regime = .singleWriter → a.writerId ≠ b.writerId →
    ∃ h ∈ p.handoffsOf slot, h.authorises slot b.seq a.writerId b.writerId = true

/-- What the peer's checks establish of a slot's records, besides their order. -/
structure Vouched (p : Peer) (slot : SlotId) : Prop where
  named : ∀ r ∈ p.recordsOf slot, r.slotId = slot
  signed : ∀ r ∈ p.recordsOf slot, ∃ vk, p.roster.get r.writerId = some vk ∧ r.verify vk = .ok ()
  covered : (p.recordsOf slot).IsChain (p.Covered slot)

/-- A slot's records keep what was established of them while the peer grows around them. -/
theorem Vouched.of_grows {p' : Peer} {slot : SlotId} (vouched : p.Vouched slot) (grown : Grows p p')
    (same : p'.recordsOf slot = p.recordsOf slot) : p'.Vouched slot where
  -- The records are the same, and a roster and handoffs that grow still vouch for them.
  named := by rw [same]; exact vouched.named
  signed := by
    intro r member
    rw [same] at member
    exact signed_of_extends grown.roster (vouched.signed r member)
  covered := by
    rw [same]
    refine vouched.covered.imp ?_
    intro a b covered regime other
    obtain ⟨h, held, authorises⟩ := covered regime other
    exact ⟨h, grown.handoffs slot h held, authorises⟩

/-- A handoff the peer found is one it holds. -/
theorem handoff_of_authorised {slot : SlotId} {seq : UInt64} {outgoing incoming : WriterId}
    (found : p.authorised slot seq outgoing incoming) :
    ∃ h ∈ p.handoffsOf slot, h.authorises slot seq outgoing incoming = true := by
  -- The handoffs of the slot are searched.
  unfold authorised at found
  rw [handoffsOf, Std.ExtTreeMap.getD_eq_getD_getElem?]
  cases held : p.handoffs[slot]? with
  | none => simp [held] at found
  | some hs =>
    rw [held] at found
    exact List.any_eq_true.mp found

/-- The last record of a slot is the one its head carries. -/
theorem headOf_last (slot : SlotId) :
    (p.headOf slot).map Prod.snd = (p.recordsOf slot).getLast? := by
  rw [headOf_eq, recordsOf, OrdMap.listed, List.getLast?_map]

/-- Ownership, as the peer checks it against the head. -/
theorem covered_of_checkNext {rec prior : SlotRecord} (next : p.checkNext rec = .ok ())
    (last : (p.recordsOf rec.slotId).getLast? = some prior) : p.Covered rec.slotId prior rec := by
  -- A new owner passes only with a handoff.
  rw [← headOf_last] at last
  obtain ⟨⟨head, r⟩, found, rfl⟩ := Option.map_eq_some_iff.mp last
  simp only [checkNext, found, except_bind_eq_ok, ensure_eq_ok] at next
  obtain ⟨_, _, _, _, owned⟩ := next
  intro regime other
  rcases owned with stays | found
  · exact absurd ⟨regime, other⟩ stays
  · exact handoff_of_authorised found

/-- A peer whose histories are in order, with every record vouched for. -/
def Vetted (p : Peer) : Prop := p.Sound ∧ ∀ slot, p.Vouched slot

/-- A new peer is vetted. -/
theorem vetted_new (mode : Mode) (addressing : Addressing) :
    (Peer.new mode addressing .honest).Vetted := by
  -- It has no records.
  refine ⟨sound_new mode addressing, ?_⟩
  intro slot
  have none : (Peer.new mode addressing .honest).recordsOf slot = [] := by
    simp [recordsOf, Peer.new]
  constructor <;> simp [none]

/-- Every operation keeps every record vouched for. -/
theorem step_vetted (noZero : NoZeroDigest) (op : PeerOp) (vetted : p.Vetted) :
    (peer.step p op).2.Vetted := by
  -- The operation leaves the histories as they are, or files one record.
  obtain ⟨sound, vouched⟩ := vetted
  have grown := (step_cases sound.1 op).1
  refine ⟨step_sound noZero op sound, ?_⟩
  intro slot
  obtain ⟨_, same | ⟨rec, published, appended, _, others⟩⟩ :=
    step_records noZero sound.1 sound.2 op
  · exact (vouched slot).of_grows grown (by rw [recordsOf, recordsOf, same])
  by_cases other : slot = rec.slotId
  · subst other
    obtain ⟨disk, subject, _, admitted, next, _, stepped⟩ := published
    simp only [admitSlot, except_bind_eq_ok, except_mapError_eq_ok, okOr_eq_ok] at admitted
    obtain ⟨_, _, vk, known, verified⟩ := admitted
    -- Filing a record leaves the roster and the handoffs as they were.
    rw [stepped] at appended ⊢
    obtain ⟨named, signed, covered⟩ := vouched rec.slotId
    constructor
    · rw [appended]
      intro r member
      rcases List.mem_append.mp member with older | new
      · exact named r older
      · rw [List.mem_singleton.mp new]
    · rw [appended]
      intro r member
      rcases List.mem_append.mp member with older | new
      · exact signed r older
      · rw [List.mem_singleton.mp new]
        exact ⟨vk, known, verified⟩
    · rw [appended]
      refine List.IsChain.append covered (by simp) ?_
      intro prior last r first
      simp only [List.head?_cons, Option.mem_def, Option.some.injEq] at first
      rw [← first]
      have covers : p.Covered rec.slotId prior rec := covered_of_checkNext next last
      exact covers
  · exact (vouched slot).of_grows grown (others slot other)

/-- Every run from an empty honest peer ends with every record vouched for. -/
theorem run_vetted (noZero : NoZeroDigest) (mode : Mode) (addressing : Addressing)
    (ops : List PeerOp) : (peer.run (Peer.new mode addressing .honest) ops).Vetted :=
  Machine.run_invariant (vetted_new mode addressing) Machine.permits_always
    fun _ op _ kept => step_vetted noZero op kept

/--
What a slot serves from its start is nothing, or a chain that a reader with its roster accepts.
-/
def Readable (p : Peer) : Prop :=
  ∀ slot, ∃ records, p.slotHistory slot 0 = some records ∧
    (records = [] ∨
      ∃ walk, verifyChainWithHandoffs records slot p.roster none (p.handoffsOf slot) = .ok walk)

/-- No two neighbours of a slot's history run under different regimes. -/
def OneRegime (p : Peer) : Prop :=
  ∀ slot, (p.recordsOf slot).IsChain fun a b => a.regime = b.regime

omit [Crypto] in
/-- In a chain of equal regimes, everyone has the first one's. -/
theorem regime_of_first {first : SlotRecord} {rest : List SlotRecord}
    (chain : (first :: rest).IsChain fun a b => a.regime = b.regime) :
    ∀ r ∈ first :: rest, r.regime = first.regime := by
  -- Equal neighbours are equal to the first.
  have trans : IsTrans SlotRecord fun a b => a.regime = b.regime := ⟨fun _ _ _ => Eq.trans⟩
  have pairwise := List.isChain_iff_pairwise.mp chain
  intro r member
  rcases List.mem_cons.mp member with rfl | later
  · rfl
  · exact ((List.pairwise_cons.mp pairwise).1 r later).symm

omit [Crypto] in
/-- Consecutive numbers are consecutive sequences: the numbering never reaches the last one. -/
theorem satAdd_of_consecutive {a b : UInt64} (next : b.toNat = a.toNat + 1) : b = satAdd a 1 := by
  -- There is a next number, so adding one does not stop at the end.
  have bound := b.toNat_lt
  unfold satAdd
  rw [if_pos (by simp; omega)]
  apply UInt64.toNat_inj.mp
  rw [UInt64.toNat_add]
  simp
  omega

/-- The records of an honest peer that share a regime follow one another as a reader demands. -/
theorem follows_of_vouched {slot : SlotId} {regime : Regime} (sound : p.Sound)
    (vouched : p.Vouched slot) (shared : ∀ r ∈ p.recordsOf slot, r.regime = regime) :
    (p.recordsOf slot).IsChain
      (WalkContext.Follows ⟨slot, regime, p.roster, p.handoffsOf slot⟩) := by
  -- Each pair of neighbours is numbered, linked and covered.
  have well := sound.2 slot
  have linked : (p.recordsOf slot).IsChain fun a b => b.prev = a.recordHash := well.linked
  rw [List.isChain_iff_getElem] at linked ⊢
  have covered := List.isChain_iff_getElem.mp vouched.covered
  intro i bound
  have here := well.numbered i _ (List.getElem?_eq_getElem (Nat.lt_of_succ_lt bound))
  have next := well.numbered (i + 1) _ (List.getElem?_eq_getElem bound)
  refine ⟨?_, linked i bound, ?_⟩
  · apply satAdd_of_consecutive
    exact next.trans (congrArg (· + 1) here.symm)
  · intro single other
    refine covered i bound ?_ other
    rw [shared _ (List.getElem_mem _)]
    exact single

/-- Given what the peer vouches for, the regime is all a reader can still object to. -/
theorem readable_iff_oneRegime (vetted : p.Vetted) : p.Readable ↔ p.OneRegime := by
  -- The checks of a reader, held against what the peer has checked.
  obtain ⟨sound, vouched⟩ := vetted
  unfold Readable OneRegime
  refine forall_congr' fun slot => ?_
  simp only [slotHistory_eq sound, Option.some.injEq, exists_eq_left']
  have follows := fun regime => @follows_of_vouched _ p slot regime sound (vouched slot)
  have numbered : ∀ i (r : SlotRecord), (p.recordsOf slot)[i]? = some r → r.seq.toNat = i :=
    (sound.2 slot).numbered
  obtain ⟨named, signed, _⟩ := vouched slot
  cases listed : p.recordsOf slot with
  | nil => simp
  | cons first rest =>
    rw [listed] at named signed numbered follows
    constructor
    · intro accepted
      obtain ⟨walk, walked⟩ := accepted.resolve_left (by simp)
      obtain ⟨admitted, _⟩ := verifyChainWithHandoffs_ok_iff.mp walked
      -- The reader holds every record to the regime of the first.
      apply List.Pairwise.isChain
      apply List.pairwise_of_forall_mem_list
      intro a inA b inB
      rw [(admitted a inA).2.1, (admitted b inB).2.1]
    · intro chain
      have shared := regime_of_first chain
      obtain ⟨vk, _, verified⟩ := signed first (by simp)
      have start : first.seq = 0 := UInt64.toNat_inj.mp (by simpa using numbered 0 first rfl)
      refine .inr ⟨_, verifyChainWithHandoffs_ok_iff.mpr ⟨?_, ?_, follows _ shared, rfl⟩⟩
      · intro r member
        exact ⟨named r member, shared r member, signed r member⟩
      · exact (genesis_of_verify verified).mp start

/-- A publish that every check of the peer lets through, under another regime than the head's. -/
structure SwitchesRegime (p : Peer) (disk : Disk) (subject : String) (rec : SlotRecord) : Prop where
  admitted : p.admitSlot subject rec = .ok ()
  next : p.checkNext rec = .ok ()
  written : persistSlot disk rec = .ok ()
  differs : ∃ head prior, p.headOf rec.slotId = some (head, prior) ∧ rec.regime ≠ prior.regime

/-- An operation is a publish that switches the regime of a slot. -/
def Switches (p : Peer) (op : PeerOp) : Prop :=
  ∃ disk subject rec, op = .publishSlot disk subject rec ∧ p.SwitchesRegime disk subject rec

/-- A record that passes every check of an honest peer is filed. -/
theorem publishSlot_of_checks {disk : Disk} {subject : String} {rec : SlotRecord}
    (honest : p.hostility = .honest) (admitted : p.admitSlot subject rec = .ok ())
    (next : p.checkNext rec = .ok ()) (written : persistSlot disk rec = .ok ()) :
    p.publishSlot disk subject rec = (.ok (), p.fileSlot rec) := by
  simp [publishSlot, admitted, honest, Hostility.honest, next, written]

/-- One operation keeps every slot under one regime exactly when it does not switch one. -/
theorem step_oneRegime_iff (noZero : NoZeroDigest) (sound : p.Sound) (one : p.OneRegime)
    (op : PeerOp) : (peer.step p op).2.OneRegime ↔ ¬p.Switches op := by
  -- The operation leaves the histories as they are, or files one record.
  constructor
  · rintro still ⟨disk, subject, rec, rfl, switches⟩
    have filed := publishSlot_of_checks sound.1 switches.admitted switches.next switches.written
    have appended := (publishSlot_appends noZero sound (congrArg Prod.fst filed)).1
    obtain ⟨head, prior, top, differs⟩ := switches.differs
    have last : (p.recordsOf rec.slotId).getLast? = some prior := by rw [← headOf_last, top]; rfl
    -- The old head and the new record are neighbours now.
    have neighbours := still rec.slotId
    change ((p.publishSlot disk subject rec).2.recordsOf rec.slotId).IsChain _ at neighbours
    rw [appended, List.isChain_append] at neighbours
    exact differs (neighbours.2.2 prior last rec rfl).symm
  · intro keeps slot
    obtain ⟨_, same | ⟨rec, published, appended, _, others⟩⟩ :=
      step_records noZero sound.1 sound.2 op
    · rw [recordsOf, same]
      exact one slot
    by_cases other : slot = rec.slotId
    · rw [other, appended]
      refine List.IsChain.append (one rec.slotId) (by simp) ?_
      intro prior last r first
      simp only [List.head?_cons, Option.mem_def, Option.some.injEq] at first
      rw [← first]
      by_contra differs
      obtain ⟨disk, subject, rfl, admitted, next, written, _⟩ := published
      rw [Option.mem_def, ← headOf_last] at last
      obtain ⟨⟨head, r⟩, top, rfl⟩ := Option.map_eq_some_iff.mp last
      exact keeps ⟨disk, subject, rec, rfl, admitted, next, written, head, r, top, Ne.symm differs⟩
    · rw [others slot other]
      exact one slot

/--
An honest peer serves only what readers accept exactly in the runs that switch no slot's regime.

The reader refuses a chain whose regime changes, and the peer never compares regimes.
-/
theorem served_histories_are_readable_iff (noZero : NoZeroDigest) (mode : Mode)
    (addressing : Addressing) (ops : List PeerOp) :
    (∀ before after, ops = before ++ after →
        (peer.run (Peer.new mode addressing .honest) before).Readable) ↔
      ∀ before op after, ops = before ++ op :: after →
        ¬(peer.run (Peer.new mode addressing .honest) before).Switches op := by
  -- What a reader accepts is a history of one regime.
  have vetted := run_vetted noZero mode addressing
  constructor
  · intro readable before op after split
    have here := (readable_iff_oneRegime (vetted before)).mp (readable before (op :: after) split)
    have next := readable (before ++ [op]) after (by simp [split])
    rw [readable_iff_oneRegime (vetted _), Machine.run_append] at next
    exact (step_oneRegime_iff noZero (vetted before).1 here op).mp next
  · intro keeps before
    -- One more operation at a time, each of which keeps every slot under one regime.
    induction before using List.reverseRecOn with
    | nil =>
      intro after _
      rw [readable_iff_oneRegime (vetted [])]
      intro slot
      simp [recordsOf, Peer.new]
    | append_singleton front last ih =>
      intro after split
      have here := ih (last :: after) (by simpa using split)
      rw [readable_iff_oneRegime (vetted _)] at here ⊢
      rw [Machine.run_append]
      exact (step_oneRegime_iff noZero (vetted front).1 here last).mpr
        (keeps front last after (by simpa using split))

end Peer

end

section

open Concrete

/-- The owner lets one writer in, who publishes a merged record and then a single-writer one. -/
def regimeSwitch : List PeerOp :=
  let first := record 7 1 0 2 Digest.zero .casMerge
  [.addWriter (identity 7).verifyingKey, .setAcl (Acl.empty.grant "laptop" [.write]),
    .publishSlot (.ok ()) "laptop" first,
    .publishSlot (.ok ()) "laptop" (record 7 1 1 3 first.recordHash .singleWriter)]

/-- The peer accepts a record that changes the regime, and no reader accepts the slot after it. -/
theorem regime_switch_is_unreadable :
    ¬(peer.run (Peer.new .e2ee .content .honest) regimeSwitch).Readable := by
  -- The walk over the two records is evaluated, and it is refused.
  intro readable
  obtain ⟨records, served, judged⟩ := readable (slot 1)
  have outcome :
      let p := peer.run (Peer.new .e2ee .content .honest) regimeSwitch
      ∃ first second, p.slotHistory (slot 1) 0 = some [first, second] ∧
        verifyChainWithHandoffs [first, second] (slot 1) p.roster none (p.handoffsOf (slot 1)) =
          .error (.regimeChanged 1 .casMerge .singleWriter) := by
    refine ⟨record 7 1 0 2 Digest.zero .casMerge,
      record 7 1 1 3 (record 7 1 0 2 Digest.zero .casMerge).recordHash .singleWriter, ?_⟩
    decide +kernel
  obtain ⟨first, second, history, refused⟩ := outcome
  obtain rfl : records = [first, second] := by rw [history] at served; simpa using served.symm
  rcases judged with none | ⟨walk, accepted⟩
  · cases none
  · rw [refused] at accepted
    cases accepted

/-- Up to its first record the slot is readable: nothing published before it has another regime. -/
theorem one_record_is_readable :
    (peer.run (Peer.new .e2ee .content .honest) (regimeSwitch.take 3)).Readable := by
  -- The condition is evaluated along the run.
  refine (Peer.served_histories_are_readable_iff noZeroDigest .e2ee .content
    (regimeSwitch.take 3)).mpr ?_ (regimeSwitch.take 3) [] (by simp)
  rintro before op after split ⟨disk, subject, rec, _, switches⟩
  obtain ⟨head, prior, top, _⟩ := switches.differs
  -- Only the owner has acted before the last of the three operations, so no slot has a head.
  have quiet (p : Peer) (key : Bytes) : (peer.step p (.addWriter key)).2.slots = p.slots := by
    cases added : p.roster.add key <;> simp [peer, added]
  have allowing (p : Peer) (acl : Acl) : (peer.step p (.setAcl acl)).2.slots = p.slots := rfl
  have none : ∀ k < 3, (peer.run (Peer.new .e2ee .content .honest)
      ((regimeSwitch.take 3).take k)).slots = ∅ := by
    intro k small
    rcases k with _ | _ | _ | k
    · rfl
    · simp [regimeSwitch, quiet, Peer.new]
    · simp [regimeSwitch, quiet, allowing, Peer.new]
    · omega
  have length := congrArg List.length split
  have short : before.length < 3 := by
    simp [regimeSwitch] at length
    omega
  have front : before = (regimeSwitch.take 3).take before.length := by rw [split]; simp
  rw [front, Peer.headOf, none _ short] at top
  simp at top

end

end NasTools
