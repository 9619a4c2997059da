import NasTools.Model.Cli.Concrete
import NasTools.Model.Cli.Fleet
import NasTools.Model.Cli.Sites
import NasTools.Model.Store.Concrete

/-! What syncing does to other devices' writes, over every run of a fleet. -/

namespace NasTools

section

variable [Crypto]

namespace Peer

variable {p : Peer}

/-- What one request does to the histories of a sound peer. -/
theorem visit_records (noZero : NoZeroDigest) (sound : p.Sound) (v : Visit) :
    (p.visit v).Sound ∧ ((p.visit v).slots = p.slots ∨
      ∃ bytes rec, v.req = .publishSlot bytes ∧ SlotRecord.decode bytes = .ok rec ∧
        (p.visit v).recordsOf rec.slotId = p.recordsOf rec.slotId ++ [rec] ∧
        ∀ slot, slot ≠ rec.slotId → (p.visit v).recordsOf slot = p.recordsOf slot) := by
  -- A request that files no record keeps the peer sound.
  have unchanged (hostility : (p.visit v).hostility = p.hostility)
      (slots : (p.visit v).slots = p.slots) : (p.visit v).Sound := by
    refine ⟨hostility.trans sound.1, ?_⟩
    intro slot
    rw [slots]
    exact sound.2 slot
  rcases visit_slots sound.1 v with kept | ⟨bytes, rec, is, decoded, admitted, next, filed⟩ |
    ⟨_, h, _, _, _, filed⟩ | ⟨_, c, _, _, _, filed⟩
  · exact ⟨unchanged kept.hostility kept.slots, .inl kept.slots⟩
  · -- A record is filed, after every check of the peer.
    simp only [admitSlot, except_bind_eq_ok, except_mapError_eq_ok] at admitted
    obtain ⟨_, _, vk, _, verified⟩ := admitted
    obtain ⟨appended, chained⟩ :=
      fileSlot_spec noZero (sound.2 rec.slotId) (genesis_of_verify verified) next
    rw [filed]
    refine ⟨⟨sound.1, ?_⟩, .inr ⟨bytes, rec, is, decoded, appended, ?_⟩⟩
    · intro slot
      by_cases same : rec.slotId = slot
      · rw [← same]
        exact chained
      · rw [fileSlot_other same]
        exact sound.2 slot
    · intro slot other
      rw [recordsOf, fileSlot_other (Ne.symm other)]
      rfl
  · -- A handoff and a rung are filed elsewhere, and the histories stay.
    have hostility : (p.visit v).hostility = p.hostility := by rw [filed]; rfl
    have slots : (p.visit v).slots = p.slots := by rw [filed]; rfl
    exact ⟨unchanged hostility slots, .inl slots⟩
  · have hostility : (p.visit v).hostility = p.hostility := by rw [filed]; rfl
    have slots : (p.visit v).slots = p.slots := by rw [filed]; rfl
    exact ⟨unchanged hostility slots, .inl slots⟩

/-- Only a request to publish a record changes what a slot holds. -/
theorem visit_quietly (noZero : NoZeroDigest) (sound : p.Sound) {v : Visit}
    (other : NotRecord (.call .peer v.req)) :
    (p.visit v).Sound ∧ ∀ slot, (p.visit v).recordsOf slot = p.recordsOf slot := by
  -- Records change only when one is published, and this visit publishes none.
  obtain ⟨kept, same | ⟨bytes, rec, is, _⟩⟩ := visit_records noZero sound v
  · refine ⟨kept, ?_⟩
    intro slot
    rw [recordsOf, same]
    rfl
  · rw [is] at other
    exact other.elim

end Peer

namespace Sync

/-- What a sync reads of its own device: its root, its key and its slot. -/
theorem plays_readSlot_ok {d : Device} {o : SyncOpts} {read : SlotRead} {said : Conversation}
    (played : (readSlot d o).Plays said (.ok read)) :
    d.slotIdentity = .ok read.reader.writer ∧
      read.reader.slot = slotIdOf read.reader.writer.verifyingKey d.ns ∧
      ∀ tree, read.root = some tree → d.head = some (.ok tree) := by
  -- The steps that succeed are taken apart.
  unfold readSlot at played
  obtain ⟨⟨root, writer, slot⟩, s₁, _, rfl, opening, played⟩ := Script.plays_bind_ok.mp played
  obtain ⟨_, identity, rfl⟩ := plays_openReader_ok opening
  -- The answers of the peer decide nothing of what is read of the own device.
  obtain ⟨served, _, _, rfl, _, played⟩ := Script.plays_bind_ok.mp played
  obtain ⟨roster, _, _, rfl, _, played⟩ := Script.plays_bind_ok.mp played
  obtain ⟨_, _, _, rfl, _, played⟩ := Script.plays_bind_ok.mp played
  obtain ⟨witness, _, _, rfl, _, played⟩ := Script.plays_bind_ok.mp played
  obtain ⟨_, _, _, rfl, _, played⟩ := Script.plays_bind_ok.mp played
  obtain ⟨handoffs, _, _, rfl, _, played⟩ := Script.plays_bind_ok.mp played
  obtain ⟨⟨rungs, top⟩, _, _, rfl, _, played⟩ := Script.plays_bind_ok.mp played
  -- The root is the head of the device, where the device has one that parses.
  have rootIs (tree : Addr) (is : root = some tree) : d.head = some (.ok tree) := by
    simp only [openReader, Script.plays_bind_ok, plays_orFail_ok, Script.pure_eq, Script.plays_done,
      Except.ok.injEq, Prod.mk.injEq] at opening
    obtain ⟨found, _, _, _, ⟨_, parsed⟩, _, _, _, _, _, _, rfl, _⟩ := opening
    subst is
    cases head : d.head with
    | none => simp [head] at parsed
    | some result =>
      cases result with
      | error e => simp [head, Except.mapError, Except.map] at parsed
      | ok addr =>
        simp only [head, Except.mapError, Except.map, Except.ok.injEq, Option.some.injEq] at parsed
        rw [parsed]
  cases served with
  | none =>
    obtain ⟨_, same⟩ := Script.plays_done.mp played
    obtain rfl := Except.ok.inj same
    exact ⟨identity, rfl, rootIs⟩
  | some h =>
    obtain ⟨walked, _, _, rfl, _, ended⟩ := Script.plays_bind_ok.mp played
    obtain ⟨_, same⟩ := Script.plays_done.mp ended
    obtain rfl := Except.ok.inj same
    exact ⟨identity, rfl, rootIs⟩

/-- The next version points at the local root. -/
theorem nextRecord_tree {root : Option Addr} {served : Option (SlotRecord × RootManifest)}
    {seq : UInt64} {prev : Digest} {tree : Addr} {said : Conversation}
    (played : (nextRecord root served).Plays said (.ok (some (seq, prev, tree)))) :
      root = some tree := by
  -- In every way out that names a record its tree is the local root.
  unfold nextRecord at played
  split at played
  · -- Nothing is served, so the local root is published first.
    simp only [Script.plays_done, Except.ok.injEq] at played
    cases root with
    | none => simp at played
    | some r =>
      obtain ⟨_, same⟩ := played
      simp only [Option.map_some, Option.some.injEq, Prod.mk.injEq] at same
      rw [same.2.2]
  · simp at played
  · split at played
    · simp at played
    · split at played
      · simp at played
      · simp only [Script.plays_done, Except.ok.injEq, Option.some.injEq, Prod.mk.injEq] at played
        rw [played.2.2.2]

omit [Crypto] in
/-- A sealed root manifest opens again, at its own sequence and with the nonce returned. -/
theorem plays_sealRoot_ok {d : Device} {slot : SlotId} {seq : UInt64} {manifest : RootManifest}
    {sealed : Bytes} {nonce : FixedBytes nonceLen} {said : Conversation} (opens : d.keys.Opens)
    (played : (sealRoot d slot seq manifest).Plays said (.ok (sealed, nonce))) :
    d.keys.openRoot d.mode slot seq nonce sealed = .ok manifest := by
  -- What was sealed opens again, with a nonce or without.
  unfold sealRoot at played
  split at played
  · -- The plain mode draws no nonce; the sealed mode asks for one.
    obtain ⟨_, made⟩ := plays_orFail_ok.mp played
    exact RootKeys.openRoot_sealRoot opens made
  · obtain ⟨answer, rest, rfl, later⟩ := Script.plays_ask.mp played
    obtain ⟨drawn, _, _, rfl, _, made⟩ := Script.plays_bind_ok.mp later
    exact RootKeys.openRoot_sealRoot opens (plays_orFail_ok.mp made).2

omit [Crypto] in
/-- What is quiet publishes no record. -/
theorem Quiet.notRecord {op : Op} (quiet : Quiet op) : NotRecord op := by
  unfold NotRecord
  split
  · exact quiet.elim
  · trivial

/-- Publishing a rung publishes no record. -/
theorem maybeRung_notRecord (r : Reader) (top : Option Checkpoint) (rec_ : SlotRecord) :
    (maybeRung r top rec_).Asks NotRecord := by
  -- A rung is published as a checkpoint.
  unfold maybeRung
  split
  · refine Script.asks_bind asks_orFail fun _ => ?_
    refine Script.asks_bind asks_orFail fun _ => ?_
    refine Script.asks_bind (asks_request.mpr trivial) fun _ => ?_
    exact ⟨trivial, fun _ => asks_orFail⟩
  · trivial

/-- Accepting the served head publishes no record. -/
theorem settle_none_notRecord (d : Device) (read : SlotRead) :
    (settle d read none).Asks NotRecord := by
  -- Without a version to publish the pin is written at most.
  unfold settle
  split
  · trivial
  · split
    · exact Script.asks_bind ⟨trivial, fun _ => asks_orFail⟩ fun _ => trivial
    · trivial
  · rename_i impossible
    cases impossible

/-- Reading the slot publishes no record. -/
theorem readSlot_notRecord (d : Device) (o : SyncOpts) : (readSlot d o).Asks NotRecord := by
  -- Reading publishes nothing at all.
  refine (readSlot_readOnly d o).mono ?_
  intro op readOnly
  unfold NotRecord
  split
  · exact readOnly.elim
  · trivial

section

variable {A B S : Type} {world : S → Script.Exchange Op.Answer → S → Prop} {pre : S → Prop}
  {post : B → S → Prop} {fault : Exit → S → Prop}

omit [Crypto] in
/-- After a local step that ends in an error, the step is known to have succeeded. -/
theorem triple_orFail {result : Except String A} {f : A → Sync B}
    (later : ∀ a, result = .ok a → Script.Triple world pre (f a) post fault)
    (failed : ∀ e s, pre s → fault e s) :
      Script.Triple world pre (orFail result >>= f) post fault := by
  cases result with
  | error e => exact Script.triple_stop fun s start => failed _ s start
  | ok a => exact later a rfl

end

/-- Before anything is published: the device is kept, and so is every slot. -/
structure Unpublished (blobs : Set Bytes) (p : Peer) (d : Device) (t : Scene) : Prop where
  device : d.Kept t.device
  within : t.device.Within blobs
  sound : t.peer.Sound
  records : ∀ slot, t.peer.recordsOf slot = p.recordsOf slot

/-- One record has been published, and it names the tree that is the head of the device. -/
structure Released (blobs : Set Bytes) (slot : SlotId) (p : Peer) (d : Device)
    (t : Scene) : Prop where
  device : d.Kept t.device
  within : t.device.Within blobs
  sound : t.peer.Sound
  record : ∃ rec tree generation blob, t.peer.recordsOf slot = p.recordsOf slot ++ [rec] ∧
    rec.slotId = slot ∧ d.head = some (.ok tree) ∧ t.device.blobs.get rec.root = .ok blob ∧
    d.keys.openRoot d.mode slot rec.seq rec.rootNonce blob = .ok ⟨tree, generation⟩

section

variable {blobs : Set Bytes} {slot : SlotId} {p : Peer} {d : Device} {subject : String}
    {s t : Scene}
  {x : Script.Exchange Op.Answer} (noZero : NoZeroDigest)

include noZero

/-- Whatever is exchanged but a record, the peer stays sound and every slot stays as it is. -/
theorem heard_quietly (heard : Heard blobs subject s x t) (other : NotRecord x.1)
    (sound : s.peer.Sound) :
    t.peer.Sound ∧ ∀ slot, t.peer.recordsOf slot = s.peer.recordsOf slot := by
  -- Either the peer was not visited, or the visit was quiet.
  rcases heard.peer_cases with same | ⟨v, is, visited⟩
  · rw [same]
    exact ⟨sound, fun _ => rfl⟩
  · rw [is] at other
    rw [visited]
    exact Peer.visit_quietly noZero sound other

/-- What is unpublished stays so while no record is published. -/
theorem unpublished_kept (heard : Heard blobs subject s x t) (other : NotRecord x.1)
    (before : Unpublished blobs p d s) : Unpublished blobs p d t := by
  obtain ⟨sound, records⟩ := heard_quietly noZero heard other before.sound
  exact ⟨before.device.trans heard.device, heard.within before.within, sound,
    fun slot => (records slot).trans (before.records slot)⟩

/-- A release stays while no record is published. -/
theorem released_kept (heard : Heard blobs subject s x t) (other : NotRecord x.1)
    (before : Released blobs slot p d s) : Released blobs slot p d t := by
  -- The records are the same, and no blob is lost.
  obtain ⟨sound, records⟩ := heard_quietly noZero heard other before.sound
  obtain ⟨rec, tree, generation, blob, appended, named, head, held, opened⟩ := before.record
  refine ⟨before.device.trans heard.device, heard.within before.within, sound, ?_⟩
  exact ⟨rec, tree, generation, blob, (records slot).trans appended, named, head,
    heard.device.blobs.kept _ _ held, opened⟩

omit noZero in
/-- A blob that was kept can be read back, and nothing else has changed. -/
theorem triple_keepBlob {sealed : Bytes} (distinct : Set.InjOn d.blobs.addressing.addrOf blobs) :
    Script.Triple (Heard blobs subject) (Unpublished blobs p d) (keepBlob sealed)
      (fun root t => Unpublished blobs p d t ∧ t.device.blobs.get root = .ok sealed)
      fun _ => Unpublished blobs p d := by
  -- One question is asked, and answered.
  refine Script.triple_ask fun answer => ?_
  -- Keeping a blob is the only local step that touches the store.
  have kept {t : Scene} (reached : ∃ s, Unpublished blobs p d s ∧
      Heard blobs subject s ⟨.keepBlob sealed, answer⟩ t) :
      Unpublished blobs p d t ∧ ∀ root, answer = .ok root →
        t.device.blobs.get root = .ok sealed := by
    obtain ⟨s, before, heard⟩ := reached
    have after : Unpublished blobs p d t := by
      refine ⟨before.device.trans heard.device, heard.within before.within, ?_, ?_⟩
      · cases heard with
        | kept => exact before.sound
        | aside _ _ beside => exact beside.elim
      · cases heard with
        | kept => exact before.records
        | aside _ _ beside => exact beside.elim
    refine ⟨after, ?_⟩
    intro root is
    cases heard with
    | kept disk now _ known =>
      rw [except_mapError_eq_ok] at is
      obtain ⟨found, held, rfl | ⟨earlier, clash⟩⟩ := BlobStore.get_put is
      · exact held
      · -- Two known blobs with one address are one blob.
        rw [before.device.blobs.addressing] at clash
        rw [distinct (before.within _ _ earlier) known clash] at held
        exact held
    | aside _ _ beside => exact beside.elim
  cases answer with
  | error e => exact Script.triple_stop fun t reached => (kept reached).1
  | ok root => exact Script.triple_done fun t reached =>
    ⟨(kept reached).1, (kept reached).2 root rfl⟩

/-- The request that publishes a record files it, or is lost or refused. -/
theorem triple_publishSlot {r : Reader} {seq : UInt64} {prev : Digest} {tree root : Addr}
    {nonce : FixedBytes rootNonceLen} {generation : UInt32} {sealed bytes : Bytes}
    {rec_ : SlotRecord} {onError : String → Exit} (encoded : rec_.encode = .ok bytes)
    (signed : SlotRecord.sign r.writer r.slot seq root nonce prev .casMerge = .ok rec_)
    (head : d.head = some (.ok tree))
    (opened : d.keys.openRoot d.mode r.slot seq nonce sealed = .ok ⟨tree, generation⟩) :
    Script.Triple (Heard blobs subject)
      (fun t => Unpublished blobs p d t ∧ t.device.blobs.get root = .ok sealed)
      (request .peer (.publishSlot bytes) "PublishSlot" onError Response.asOk)
      (fun _ t => Unpublished blobs p d t ∨ Released blobs r.slot p d t)
      fun _ t => Unpublished blobs p d t ∨ Released blobs r.slot p d t := by
  -- The record names the slot, the sequence and the root it was signed for.
  have fields : rec_.slotId = r.slot ∧ rec_.seq = seq ∧ rec_.root = root ∧
      rec_.rootNonce = nonce := by
    simp only [SlotRecord.sign, except_bind_eq_ok, except_pure_eq, Except.ok.injEq] at signed
    obtain ⟨_, _, _, _, _, _, rfl⟩ := signed
    exact ⟨rfl, rfl, rfl, rfl⟩
  obtain ⟨rfl', rfl, rfl, rfl⟩ := fields
  refine Script.triple_ask fun answer => ?_
  have after (t : Scene)
    (reached : ∃ s, (Unpublished blobs p d s ∧ s.device.blobs.get rec_.root = .ok sealed) ∧
      Heard blobs subject s ⟨.call .peer (.publishSlot bytes), answer⟩ t) :
      Unpublished blobs p d t ∨ Released blobs r.slot p d t := by
    obtain ⟨s, ⟨before, kept⟩, heard⟩ := reached
    have within := heard.within before.within
    have device := before.device.trans heard.device
    have readable := heard.device.blobs.kept _ _ kept
    rcases heard.peer_cases with same | ⟨v, is, visited⟩
    · refine .inl ⟨device, within, ?_, ?_⟩
      · rw [same]
        exact before.sound
      · rw [same]
        exact before.records
    obtain ⟨sound, slots | ⟨bytes', rec', asked, decoded, appended, others⟩⟩ :=
      Peer.visit_records noZero before.sound v
    · refine .inl ⟨device, within, by rw [visited]; exact sound, ?_⟩
      intro slot
      rw [visited, Peer.recordsOf, slots]
      exact before.records slot
    · -- What was filed is what the bytes decode to, which is the record they encode.
      have call : Op.call .peer (.publishSlot bytes) = .call .peer v.req := is
      rw [asked, Op.call.injEq, Request.publishSlot.injEq] at call
      obtain rfl : bytes = bytes' := call.2
      obtain rfl := SlotRecord.decode_of_encode encoded decoded
      right
      refine ⟨device,
        within, by
        rw [visited]; exact sound, rec', tree, generation, sealed, ?_, rfl', head, readable, opened⟩
      rw [visited, ← rfl', appended, before.records]
  -- The answer may be an error although the record was filed, so both ends allow both outcomes.
  cases answer with
  | error e => exact Script.triple_stop after
  | ok reply =>
    cases reply <;> first | exact Script.triple_done after | exact Script.triple_stop after

/-- Publishing a version leaves the slot alone, or adds the record that names the local tree. -/
theorem triple_publishRecord {r : Reader} {seq : UInt64} {prev : Digest} {tree : Addr}
    (distinct : Set.InjOn d.blobs.addressing.addrOf blobs) (opens : d.keys.Opens)
    (head : d.head = some (.ok tree)) :
    Script.Triple (Heard blobs subject) (Unpublished blobs p d) (publishRecord d r seq prev tree)
      (fun _ t => Unpublished blobs p d t ∨ Released blobs r.slot p d t)
      fun _ t => Unpublished blobs p d t ∨ Released blobs r.slot p d t := by
  -- Everything up to the record itself leaves the slots alone.
  refine Script.triple_through ((sealRoot_quiet _ _ _ _).mono fun _ => Quiet.notRecord)
    (fun s x t other heard before => unpublished_kept noZero heard other before)
    (fun _ _ ended => .inl ended) ?_
  intro (sealed, nonce) _ sealing
  have opened := plays_sealRoot_ok opens sealing
  refine Script.triple_bind ((triple_keepBlob distinct).mono (fun _ start => start)
    (fun _ _ ended => ended) fun _ _ ended => .inl ended) ?_
  intro root
  -- The root manifest stays readable while it is pushed and leased.
  have held (s : Scene) (x : Script.Exchange Op.Answer) (t : Scene) (other : NotRecord x.1)
      (heard : Heard blobs subject s x t)
      (before : Unpublished blobs p d s ∧ s.device.blobs.get root = .ok sealed) :
      Unpublished blobs p d t ∧ t.device.blobs.get root = .ok sealed :=
    ⟨unpublished_kept noZero heard other before.1, heard.device.blobs.kept _ _ before.2⟩
  refine Script.triple_through ((pushBlob_quiet root sealed).mono fun _ => Quiet.notRecord) held
    (fun _ _ ended => .inl ended.1) fun _ _ _ => ?_
  refine Script.triple_through (P := NotRecord) (asks_request.mpr trivial) held
    (fun _ _ ended => .inl ended.1) fun _ _ _ => ?_
  refine triple_orFail (fun rec_ signed => ?_) fun _ _ ended => .inl ended.1
  refine triple_orFail (fun bytes encoded => ?_) fun _ _ ended => .inl ended.1
  rw [except_mapError_eq_ok] at signed encoded
  refine Script.triple_bind (triple_publishSlot noZero encoded signed head opened) fun _ => ?_
  -- What follows the record leaves it where it is.
  refine Script.triple_through (P := NotRecord) ⟨trivial, fun _ => asks_orFail⟩ ?_
    (fun _ _ ended => ended) fun _ _ _ => Script.triple_done fun _ ended => ended
  intro s x t other heard before
  exact before.imp (unpublished_kept noZero heard other) (released_kept noZero heard other)

/-- A sync leaves the slot alone, or adds one record that names the tree that is its head. -/
theorem triple_sync {c : Identity} {o : SyncOpts} (identity : d.slotIdentity = .ok c)
    (distinct : Set.InjOn d.blobs.addressing.addrOf blobs) (opens : d.keys.Opens) :
    Script.Triple (Heard blobs subject) (Unpublished blobs p d) (sync d o)
      (fun _ t => Unpublished blobs p d t ∨ Released blobs (slotIdOf c.verifyingKey d.ns) p d t)
      fun _ t => Unpublished blobs p d t ∨ Released blobs (slotIdOf c.verifyingKey d.ns) p d t := by
  -- The parts of the sync, one after the other, with what they leave of the slot.
  have quietly (s : Scene) (x : Script.Exchange Op.Answer) (t : Scene) (other : NotRecord x.1)
      (heard : Heard blobs subject s x t) (before : Unpublished blobs p d s) :
        Unpublished blobs p d t :=
    unpublished_kept noZero heard other before
  have either (s : Scene) (x : Script.Exchange Op.Answer) (t : Scene) (other : NotRecord x.1)
      (heard : Heard blobs subject s x t)
      (before : Unpublished blobs p d s ∨ Released blobs (slotIdOf c.verifyingKey d.ns) p d s) :
      Unpublished blobs p d t ∨ Released blobs (slotIdOf c.verifyingKey d.ns) p d t :=
    before.imp (unpublished_kept noZero heard other) (released_kept noZero heard other)
  -- Up to the choice of the next version nothing is published.
  refine Script.triple_through (P := NotRecord) (asks_dial.mpr trivial) quietly (fun _ _ => .inl)
    fun _ _ _ => ?_
  refine Script.triple_through ((offerBlobs_quiet d).mono fun _ => Quiet.notRecord) quietly
    (fun _ _ => .inl) fun _ _ _ => ?_
  refine Script.triple_through (readSlot_notRecord d o) quietly (fun _ _ => .inl) fun read _
    reading => ?_
  obtain ⟨writer, slotIs, root⟩ := plays_readSlot_ok reading
  rw [identity, Except.ok.injEq] at writer
  rw [← writer] at slotIs
  refine Script.triple_through ((openServed_quiet d read).mono fun _ => Quiet.notRecord) quietly
    (fun _ _ => .inl) fun served _ _ => ?_
  refine Script.triple_through ((nextRecord_quiet _ _).mono fun _ => Quiet.notRecord) quietly
    (fun _ _ => .inl) fun next _ choosing => ?_
  -- The next version is that of the local root; whatever follows it publishes no second record.
  have settled : Script.Triple (Heard blobs subject) (Unpublished blobs p d) (settle d read next)
      (fun _ t => Unpublished blobs p d t ∨ Released blobs (slotIdOf c.verifyingKey d.ns) p d t)
      fun _ t => Unpublished blobs p d t ∨ Released blobs (slotIdOf c.verifyingKey d.ns) p d t := by
    cases next with
    | none =>
      refine (Script.triple_of_asks (settle_none_notRecord d read) quietly).mono
        (fun _ start => start)
        (fun _ _ => .inl) fun _ _ => .inl
    | some version =>
      obtain ⟨seq, prev, tree⟩ := version
      have head := root tree (nextRecord_tree choosing)
      rw [← slotIs]
      refine Script.triple_bind (triple_publishRecord noZero distinct opens head) fun rec_ => ?_
      rw [slotIs]
      exact Script.triple_through (maybeRung_notRecord _ _ _) either (fun _ _ ended => ended)
        fun _ _ _ => Script.triple_done fun _ ended => ended
  refine Script.triple_bind settled fun held => ?_
  cases held with
  | none => exact Script.triple_done fun _ ended => ended
  | some record =>
    exact (Script.triple_of_asks ((observe_quiet read record).mono fun _ => Quiet.notRecord)
      either).mono
      (fun _ start => start) (fun _ _ ended => ended) fun _ _ ended => ended

end

end Sync

namespace Fleet

variable {I : Type} {c : Credentials} {blobs : Set Bytes} {s s' : Fleet I}

/-- Where a fleet stays: a sound peer, sites of one namespace with readable heads, nothing lost. -/
structure Sound (c : Credentials) (blobs : Set Bytes) (s : Fleet I) : Prop where
  peer : s.peer.Sound
  sites : ∀ i, (s.sites i).Of c
  within : ∀ i, (s.sites i).device.Within blobs
  heads : ∀ i, (s.sites i).HeadReads
  lost : s.NothingLost c

/-- A record names one bucket only. -/
theorem names_unique (distinct : Set.InjOn c.addressing.addrOf blobs)
    (sites : ∀ i, (s.sites i).Of c) (within : ∀ i, (s.sites i).device.Within blobs) {r : SlotRecord}
    {a b : BucketManifest} (first : s.Names r a) (second : s.Names r b) : a = b := by
  obtain ⟨i, readI⟩ := first
  obtain ⟨j, readJ⟩ := second
  exact Site.bucketOf_unique distinct (sites i) (sites j) (within i) (within j) readI readJ

/-- A bucket once named stays named. -/
theorem names_later (kept : ∀ i, (s.sites i).Kept (s'.sites i)) {r : SlotRecord}
    {bucket : BucketManifest} (named : s.Names r bucket) : s'.Names r bucket := by
  obtain ⟨i, read⟩ := named
  exact ⟨i, (kept i).bucketOf read⟩

section

variable (distinct : Set.InjOn c.addressing.addrOf blobs) (sound : s.Sound c blobs)
  (kept : ∀ i, (s.sites i).Kept (s'.sites i)) (within : ∀ i, (s'.sites i).device.Within blobs)

include distinct sound kept within

/-- A record published before names what it named before. -/
theorem names_earlier {r : SlotRecord} {bucket : BucketManifest}
    (published : r ∈ s.peer.recordsOf c.slot) (named : s'.Names r bucket) : s.Names r bucket := by
  obtain ⟨old, was⟩ := sound.lost.named r published
  have sites (i : I) : (s'.sites i).Of c := (kept i).of (sound.sites i)
  -- What a record names is read from blobs, and a device never loses one.
  rwa [names_unique distinct sites within named (names_later kept was)]

/-- While the slot stands still, nothing is lost. -/
theorem nothingLost_still (same : s'.peer.recordsOf c.slot = s.peer.recordsOf c.slot) :
    s'.NothingLost c where
  -- The records are the same, and the names they are given.
  named r published := by
    rw [same] at published
    obtain ⟨bucket, was⟩ := sound.lost.named r published
    exact ⟨bucket, names_later kept was⟩
  covered := by
    rw [same]
    -- Coverage is a statement about what the records name, which has not changed.
    refine sound.lost.covered.imp_of_mem ?_
    intro older newer inOlder inNewer covers old new namesOld namesNew
    exact covers old new (names_earlier distinct sound kept within inOlder namesOld)
      (names_earlier distinct sound kept within inNewer namesNew)

/-- A record whose bucket covers that of the head before it loses nothing. -/
theorem nothingLost_next {rec : SlotRecord} {bucket : BucketManifest}
    (appended : s'.peer.recordsOf c.slot = s.peer.recordsOf c.slot ++ [rec])
    (names : s'.Names rec bucket) (covers : ∀ r, (s.peer.recordsOf c.slot).getLast? = some r →
      ∀ served, s.Names r served →
      bucket.Covers served) : s'.NothingLost c where
  -- A record is one of those before, or the new one.
  named r published := by
    rw [appended, List.mem_append, List.mem_singleton] at published
    rcases published with before | rfl
    · obtain ⟨old, was⟩ := sound.lost.named r before
      exact ⟨old, names_later kept was⟩
    · exact ⟨bucket, names⟩
  covered := by
    have earlier {r : SlotRecord} {b : BucketManifest} (published : r ∈ s.peer.recordsOf c.slot)
        (named : s'.Names r b) : s.Names r b :=
          names_earlier distinct sound kept within published named
    rw [appended, List.pairwise_append]
    refine ⟨?_, by simp, ?_⟩
    · -- Among the records of before nothing has changed.
      refine sound.lost.covered.imp_of_mem ?_
      intro older newer inOlder inNewer rule old new namesOld namesNew
      exact rule old new (earlier inOlder namesOld) (earlier inNewer namesNew)
    · intro older inOlder newer last old new namesOld namesNew
      obtain rfl := List.mem_singleton.mp last
      have sites (i : I) : (s'.sites i).Of c := (kept i).of (sound.sites i)
      obtain rfl := names_unique distinct sites within namesNew names
      -- The head before it covers everything below, and the new bucket covers the head.
      obtain ⟨front, top, split⟩ : ∃ front top, s.peer.recordsOf c.slot = front ++ [top] := by
        rcases List.eq_nil_or_concat (s.peer.recordsOf c.slot) with none | ⟨front, top, is⟩
        · rw [none] at inOlder
          cases inOlder
        · exact ⟨front, top, by rw [is, List.concat_eq_append]⟩
      have topHere : top ∈ s.peer.recordsOf c.slot := by simp [split]
      obtain ⟨served, namesTop⟩ := sound.lost.named top topHere
      have above := covers top (by simp [split]) served namesTop
      have rule := sound.lost.covered
      rw [split, List.pairwise_append] at rule
      rw [split, List.mem_append, List.mem_singleton] at inOlder
      rcases inOlder with below | rfl
      · have inOld : older ∈ s.peer.recordsOf c.slot := by simp [split, below]
        exact above.trans (rule.2.2 older below top (by simp) old served
          (earlier inOld namesOld) namesTop)
      · exact covers older (by simp [split]) old (earlier topHere namesOld)

end

variable [DecidableEq I]

/-- Replacing one site by one that keeps it keeps every site. -/
theorem place_kept {i : I} {x : Site} (kept : (s.sites i).Kept x) (j : I) :
    (s.sites j).Kept ((s.place i x).sites j) := by
  by_cases same : j = i
  · subst same
    simpa [place] using kept
  · simpa [place, Function.update_of_ne same] using Site.Kept.refl _

/-- What holds of every site and of the one put in place holds of every site afterwards. -/
theorem place_all {i : I} {x : Site} {P : Site → Prop} (all : ∀ j, P (s.sites j))
    (here : P x) (j : I) :
    P ((s.place i x).sites j) := by
  by_cases same : j = i
  · subst same
    simpa [place] using here
  · simpa [place, Function.update_of_ne same] using all j

variable (noZero : NoZeroDigest) (rootOpens : c.keys.Opens) (bucketOpens : c.bucketKeys.Opens)
  (distinct : Set.InjOn c.addressing.addrOf blobs)

include distinct in
/-- A command that touches one site only, and no head, loses nothing. -/
theorem sound_place {i : I} {x : Site} (sound : s.Sound c blobs) (kept : (s.sites i).Kept x)
    (within : x.device.Within blobs) (reads : x.HeadReads) : (s.place i x).Sound c blobs := by
  have allWithin (j : I) : ((s.place i x).sites j).device.Within blobs :=
    place_all (P := fun y => y.device.Within blobs) sound.within within j
  exact ⟨sound.peer, fun j => (place_kept kept j).of (sound.sites j), allWithin,
    place_all sound.heads reads, nothingLost_still distinct sound (place_kept kept) allWithin rfl⟩

/-- A head that is left alone stays readable. -/
theorem headReads_kept {x y : Site} (reads : x.HeadReads) (kept : x.Kept y)
    (head : y.device.head = x.device.head) : y.HeadReads := by
  rcases reads with none | ⟨addr, bucket, published, loaded⟩
  · exact .inl (head.trans none)
  · exact .inr ⟨addr, bucket, head.trans published, kept.loadBucket loaded⟩

include noZero rootOpens distinct in
/-- A sync from a site whose head is its working view loses nothing, if that view is up to date. -/
theorem sound_synced {i : I} {w : Surroundings} {o : SyncOpts} {subject : String}
    {said : Conversation} {left : Scene} {x : Site} {outcome : Except Exit Unit}
    (sound : s.Sound c blobs) (kept : (s.sites i).Kept x) (within : x.device.Within blobs)
    (reads : x.HeadReads) (current : ∃ view, (s.sites i).workingView (.ok ()) = .ok view ∧
      ∀ tree, x.device.head = some (.ok tree) → x.loadBucket tree = .ok view)
    (fresh : s.UpToDate c (.sync i w o subject said left))
    (played : (NasTools.sync x.device o).Plays said outcome)
    (ran : Script.Runs (Heard blobs subject) ⟨s.peer, x.device⟩ said left) :
    Sound c blobs { s.place i { x with device := left.device } with peer := left.peer } := by
  -- What the conversation leaves is known of the slot and of the site.
  have is : x.Of c := kept.of (sound.sites i)
  -- The conversation starts with nothing published, and ends with at most one record.
  have ended : Sync.Unpublished blobs s.peer x.device left ∨
      Sync.Released blobs c.slot s.peer x.device left := by
    have start : Sync.Unpublished blobs s.peer x.device ⟨s.peer, x.device⟩ :=
      ⟨.refl _, within, sound.peer, fun _ => rfl⟩
    obtain ⟨good, bad⟩ :=
      Sync.triple_sync noZero is.identity (by rw [is.addressing]; exact distinct)
      (by rw [is.keys]; exact rootOpens) _ said outcome left start played ran
    rw [is.ns] at good bad
    cases outcome with
    | ok u => exact good u rfl
    | error e => exact bad e rfl
  have device : x.device.Kept left.device := ended.elim (·.device) (·.device)
  have fromX : x.Kept { x with device := left.device } :=
    ⟨device.ns, device.mode, device.slotIdentity, device.keys, rfl, device.blobs⟩
  -- The site keeps what it had before the replay, through the replay and the conversation.
  have later : (s.sites i).Kept { x with device := left.device } :=
    ⟨device.ns.trans kept.ns, device.mode.trans kept.mode, device.slotIdentity.trans kept.identity,
      device.keys.trans kept.keys, kept.bucketKeys, kept.blobs.trans device.blobs⟩
  have allKept (j : I) := place_kept (s := s) later j
  have allWithin (j : I) :
      ((s.place i { x with device := left.device }).sites j).device.Within blobs :=
    place_all (P := fun y => y.device.Within blobs) sound.within
      (ended.elim (·.within) (·.within)) j
  refine ⟨ended.elim (·.sound) (·.sound), fun j => (allKept j).of (sound.sites j), allWithin,
    place_all sound.heads (headReads_kept reads fromX device.head), ?_⟩
  rcases ended with quiet | released
  · -- Either nothing was published, or one record was.
    exact nothingLost_still distinct sound allKept allWithin (quiet.records c.slot)
  · obtain ⟨rec, tree, generation, blob, appended, slot, head, held, opened⟩ := released.record
    obtain ⟨view, shown, loads⟩ := current
    -- The device itself reads its view from the record it published.
    have names :
        Names { s.place i { x with device := left.device } with peer := left.peer } rec view := by
      refine ⟨i, Site.bucketOf_eq_some.mpr ⟨blob, ⟨tree, generation⟩, ?_, ?_, ?_⟩⟩
      · simpa [place] using held
      · simpa [place, slot, device.keys, device.mode] using opened
      · simpa [place] using fromX.loadBucket (loads tree head)
    exact nothingLost_next distinct sound allKept allWithin appended names (fresh view shown)

include noZero rootOpens bucketOpens distinct

/-- Every command that is up to date keeps the fleet sound. -/
theorem step_sound {a : Act I} (sound : s.Sound c blobs) (takes : s.Takes blobs a)
    (current : s.UpToDate c a) : (s.step a).Sound c blobs := by
  -- One kind of command after the other.
  cases a with
  -- A write goes to the outbox of one device, and no head moves.
  | put i w subject key file =>
    obtain ⟨kept, head, within⟩ := (s.sites i).put_kept w subject key file (sound.within i) takes
    exact sound_place distinct sound kept within (headReads_kept (sound.heads i) kept head)
  | rm i w subject key =>
    obtain ⟨device, keys⟩ := (s.sites i).rm_device w subject key
    have kept : (s.sites i).Kept ((s.sites i).rm w subject key).2 := by
      refine ⟨by rw [device], by rw [device], by rw [device], by rw [device], keys, ?_⟩
      rw [device]
      exact .refl _
    refine sound_place distinct sound kept ?_ (headReads_kept (sound.heads i) kept (by rw [device]))
    rw [device]
    exact sound.within i
  -- A sync replays the outbox into the head, and then speaks with the peer.
  | sync i w o subject said left =>
    obtain ⟨known, runs⟩ := takes
    obtain ⟨kept, within, reads, view⟩ :=
      Site.replayIntoHead_spec (sound.sites i) bucketOpens distinct
      (sound.within i) (sound.heads i) known
    have stepped : s.step (.sync i w o subject said left) =
        if Site.goesOn ((s.sites i).replayIntoHead w).1 then
          { s.place i { ((s.sites i).replayIntoHead w).2 with device := left.device } with
            peer := left.peer }
        else s.place i ((s.sites i).replayIntoHead w).2 := rfl
    rw [stepped]
    generalize (s.sites i).replayIntoHead w = replayed at *
    obtain ⟨result, x⟩ := replayed
    split
    · rename_i goes
      obtain ⟨outcome, played, ran⟩ := runs goes
      exact sound_synced noZero rootOpens distinct sound kept within reads (view goes)
        current played ran
    · -- A replay that fails ends the command before the conversation.
      exact sound_place distinct sound kept within reads

omit noZero rootOpens bucketOpens distinct [DecidableEq I] in
/-- A fleet in which nothing has happened is sound. -/
theorem sound_fresh (fresh : s.Fresh c) : s.Sound c blobs where
  -- Nothing is stored and nothing is published, so every part is about nothing.
  peer := fresh.peer
  sites := fresh.sites
  within i addr data held := by
    obtain ⟨file, filed, _⟩ := BlobStore.get_eq_ok.mp held
    simp [fresh.blobs i] at filed
  heads i := .inl (fresh.head i)
  lost := by
    refine ⟨?_, ?_⟩
    · intro r published
      rw [fresh.slot] at published
      cases published
    · rw [fresh.slot]
      exact .nil

end Fleet

/--
In every run of a namespace's devices against an honest peer, no published write is lost, as long as
every device syncs only when its own view covers the bucket of the head the peer serves.

No two of the blobs the devices store share an address, and what is sealed opens again.
-/
theorem up_to_date_syncs_lose_nothing {I : Type} [DecidableEq I] (noZero : NoZeroDigest)
    (c : Credentials) (blobs : Set Bytes) (rootOpens : c.keys.Opens)
    (bucketOpens : c.bucketKeys.Opens) (distinct : Set.InjOn c.addressing.addrOf blobs)
    (s : Fleet I) (fresh : s.Fresh c) (acts : List (Act I))
    (permitted : (fleet I).Permits (fun s a => s.Takes blobs a ∧ s.UpToDate c a) s acts) :
    ((fleet I).run s acts).NothingLost c := by
  have sound : ((fleet I).run s acts).Sound c blobs :=
    Machine.run_invariant (Fleet.sound_fresh fresh) permitted fun s a allowed sound =>
      Fleet.step_sound noZero rootOpens bucketOpens distinct sound allowed.1 allowed.2
  exact sound.lost

end

end NasTools
