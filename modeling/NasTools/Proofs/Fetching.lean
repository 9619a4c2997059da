import NasTools.Lib.Machine
import NasTools.Model.Delete.Formats
import NasTools.Model.Slots.Concrete
import NasTools.Model.Slots.Formats
import NasTools.Model.Transfer.Server
import NasTools.Proofs.Publishing

/-! What a peer has accepted and what it can be asked for: how much of a list one answer holds. -/

namespace NasTools

/-- Items of one length that fit into a list answer. -/
def pageOf (len : Nat) : Nat := min maxRecords (recordBudget / recordCost len)

/-- One more item fits exactly while the page is not full. -/
theorem fits_iff_lt_pageOf {len n : Nat} :
    (n ≠ maxRecords ∧ n * recordCost len + recordCost len ≤ recordBudget) ∧ n ≤ maxRecords ↔
      n < pageOf len := by
  -- Items of one length take their place in equal steps.
  have positive : 0 < recordCost len := Nat.succ_pos _
  unfold pageOf
  -- A page is bounded by a number of records and by a number of bytes.
  rw [lt_min_iff, ← Nat.succ_le_iff (n := recordBudget / _), Nat.le_div_iff_mul_le positive,
    Nat.succ_mul]
  constructor
  · intro room
    obtain ⟨⟨other, fits⟩, bound⟩ := room
    exact ⟨by omega, fits⟩
  · intro room
    obtain ⟨bound, fits⟩ := room
    exact ⟨⟨by omega, fits⟩, by omega⟩

section

variable {T E : Type} (encode : T → Except E Bytes) (display : E → String) {len : Nat}
    {items : List T}

/-- The bytes an item is written as, where it can be written. -/
def spelled (item : T) : Bytes := ((encode item).toOption).getD []

/-- A list answer carries some bytes. -/
def Delivered (items : List T) (bytes : Bytes) : Prop :=
  ∃ page, bounded items encode display = .records page ∧ bytes ∈ page

/-- Items that are all written, at one length and apart from each other. -/
structure Uniform (len : Nat) (items : List T) : Prop where
  each : ∀ item ∈ items, ∃ bytes, encode item = .ok bytes ∧ bytes.length = len
  apart : ∀ a ∈ items, ∀ b ∈ items, ∀ bytes, encode a = .ok bytes → encode b = .ok bytes → a = b
  nodup : items.Nodup

variable {encode display}

/-- An item is spelled as it is encoded. -/
theorem spelled_eq {item : T} {bytes : Bytes} (encoded : encode item = .ok bytes) :
    spelled encode item = bytes := by
  simp [spelled, encoded, Except.toOption]

/-- A list answer over items of one length holds as many as a page does. -/
theorem boundedFrom_uniform (each : ∀ item ∈ items, ∃ bytes, encode item = .ok bytes ∧
      bytes.length = len)
    (out : List Bytes) (room : out.length ≤ pageOf len) :
    boundedFrom encode display out (out.length * recordCost len) items =
      .records (out ++ (items.take (pageOf len - out.length)).map (spelled encode)) := by
  -- The page grows by each item, and what was used grows with it.
  induction items generalizing out with
  | nil => simp [boundedFrom]
  | cons item rest ih =>
    obtain ⟨bytes, encoded, width⟩ := each item List.mem_cons_self
    have within : out.length ≤ maxRecords := room.trans (min_le_left _ _)
    unfold boundedFrom
    by_cases full : out.length < pageOf len
    · obtain ⟨⟨other, fits⟩, _⟩ := fits_iff_lt_pageOf.mpr full
      have next :=
        ih (fun item member => each item (List.mem_cons_of_mem _ member)) (out ++ [bytes])
        (by simpa using full)
      have more : pageOf len - out.length = pageOf len - (out ++ [bytes]).length + 1 := by
        rw [List.length_append, List.length_singleton]
        omega
      rw [if_neg other, encoded]
      dsimp only
      rw [width, if_neg (by omega), more, List.take_succ_cons, List.map_cons, spelled_eq encoded]
      rw [List.length_append, List.length_singleton, Nat.succ_mul] at next
      rw [next, List.append_assoc, List.singleton_append, List.length_append, List.length_singleton]
    · -- The page is full, by count or by bytes.
      have none : pageOf len - out.length = 0 := by omega
      rw [none, List.take_zero, List.map_nil, List.append_nil]
      split
      · rfl
      · rename_i other
        rw [encoded]
        dsimp only
        rw [width, if_pos]
        by_contra fits
        exact full (fits_iff_lt_pageOf.mp ⟨⟨other, by omega⟩, within⟩)

/-- Of uniform items exactly those before the end of the page are carried. -/
theorem Uniform.served_iff (uniform : Uniform encode len items) {i : Nat} (bound : i < items.length)
    {bytes : Bytes} (encoded : encode items[i] = .ok bytes) :
    Delivered encode display items bytes ↔ i < pageOf len := by
  -- The items are of one length, so the page is cut by their number.
  have page :
      bounded items encode display = .records ((items.take (pageOf len)).map (spelled encode)) := by
    have whole : boundedFrom encode display [] (0 * recordCost len) items =
        .records ([] ++ (items.take (pageOf len - 0)).map (spelled encode)) :=
      boundedFrom_uniform uniform.each [] (Nat.zero_le _)
    simpa [bounded] using whole
  unfold Delivered
  rw [page]
  simp only [Response.records.injEq, exists_eq_left']
  constructor
  · intro member
    obtain ⟨other, taken, same⟩ := List.mem_map.mp member
    obtain ⟨j, small, is⟩ := List.mem_take_iff_getElem.mp taken
    have listed := List.mem_of_mem_take taken
    obtain ⟨found, written, _⟩ := uniform.each other listed
    rw [spelled_eq written] at same
    -- Two items with the same bytes are one item, and that is listed in one place.
    have equal :=
      uniform.apart other listed items[i] (List.getElem_mem bound) bytes (same ▸ written) encoded
    have place : j = i := uniform.nodup.getElem_inj_iff.mp (is.trans equal)
    omega
  · intro small
    rw [← spelled_eq encoded]
    exact List.mem_map_of_mem (List.mem_take_iff_getElem.mpr ⟨i, by omega, rfl⟩)

/-- All items are carried exactly when they fit into one page. -/
theorem Uniform.all_served_iff (uniform : Uniform encode len items) :
    (∀ item ∈ items, ∃ bytes, encode item = .ok bytes ∧ Delivered encode display items bytes) ↔
      items.length ≤ pageOf len := by
  -- Either every item is in front of the end of the page, or one is behind it.
  constructor
  · intro all
    by_contra long
    have bound : pageOf len < items.length := Nat.lt_of_not_le long
    -- The first item behind the page is not carried.
    obtain ⟨bytes, encoded, served⟩ := all items[pageOf len] (List.getElem_mem bound)
    exact Nat.lt_irrefl _ ((uniform.served_iff bound encoded).mp served)
  · intro short item listed
    obtain ⟨i, bound, rfl⟩ := List.getElem_of_mem listed
    obtain ⟨bytes, encoded, _⟩ := uniform.each _ listed
    exact ⟨bytes, encoded, (uniform.served_iff bound encoded).mpr (bound.trans_le short)⟩

end

/-- Some bytes are the encoding of a number of fields. -/
def Arity (n : Nat) (bytes : Bytes) : Prop :=
  ∃ fields, encodeFields fields = .ok bytes ∧ fields.length = n

/-- An encoding has one number of fields. -/
theorem Arity.unique {n m : Nat} {bytes : Bytes} (first : Arity n bytes)
    (second : Arity m bytes) : n = m := by
  obtain ⟨a, encoded, rfl⟩ := first
  obtain ⟨b, again, rfl⟩ := second
  rw [encodeFields_inj encoded again]

/-- A slot record has eight fields. -/
theorem SlotRecord.arity {r : SlotRecord} {bytes : Bytes} (encoded : r.encode = .ok bytes) :
    Arity 8 bytes :=
  ⟨_, except_mapError_eq_ok.mp encoded, rfl⟩

/-- A checkpoint has seven fields. -/
theorem Checkpoint.arity {c : Checkpoint} {bytes : Bytes} (encoded : c.encode = .ok bytes) :
    Arity 7 bytes :=
  ⟨_, except_mapError_eq_ok.mp encoded, rfl⟩

/-- A witness has seven fields. -/
theorem Witness.arity {w : Witness} {bytes : Bytes} (encoded : w.encode = .ok bytes) :
    Arity 7 bytes :=
  ⟨_, except_mapError_eq_ok.mp encoded, rfl⟩

/-- A deletion request has six fields. -/
theorem DeleteRequest.arity {r : DeleteRequest} {bytes : Bytes} (encoded : r.encode = .ok bytes) :
    Arity 6 bytes :=
  ⟨_, except_mapError_eq_ok.mp encoded, rfl⟩

/-- A handoff has five fields. -/
theorem SlotHandoff.arity {h : SlotHandoff} {bytes : Bytes} (encoded : h.encode = .ok bytes) :
    Arity 5 bytes :=
  ⟨_, except_mapError_eq_ok.mp encoded, rfl⟩

/-- An approval has three fields. -/
theorem DeleteApproval.arity {a : DeleteApproval} {bytes : Bytes} (encoded : a.encode = .ok bytes) :
    Arity 3 bytes :=
  ⟨_, except_mapError_eq_ok.mp encoded, rfl⟩

/-- The widths of what witnesses and handoffs are written as. -/
def witnessWidths : List Nat := [verifyingKeyLen, 32, 8, 32, 32, 8, signatureLen]

def handoffWidths : List Nat := [32, 8, verifyingKeyLen, 32, signatureLen]

/-- How many of each kind one answer holds. -/
def witnessPage : Nat := pageOf (framedLen witnessWidths)

def handoffPage : Nat := pageOf (framedLen handoffWidths)

def approvalPage : Nat := pageOf (framedLen approvalWidths)

example : (witnessPage, handoffPage, approvalPage) = (48, 48, 49) := by decide

/-- Every proper witness is encoded in the same length. -/
theorem Witness.encodes {w : Witness} (proper : w.Proper) :
    ∃ bytes, w.encode = .ok bytes ∧ bytes.length = framedLen witnessWidths := by
  -- The fields have fixed widths.
  obtain ⟨bytes, encoded, width⟩ := encodeFields_width
    [w.witnessPk, w.slotId.bytes, u64Le w.seq, w.recordHash.bytes, w.prev.bytes,
      u64Le w.logicalTime, w.sig] witnessWidths
    (by simp [FixedBytes.size, proper.key, proper.sig, witnessWidths]) (by decide)
  exact ⟨bytes, except_mapError_eq_ok.mpr encoded, width⟩

/-- Every proper handoff is encoded in the same length. -/
theorem SlotHandoff.encodes {h : SlotHandoff} (proper : h.Proper) :
    ∃ bytes, h.encode = .ok bytes ∧ bytes.length = framedLen handoffWidths := by
  obtain ⟨bytes, encoded, width⟩ := encodeFields_width
    [h.slotId.bytes, u64Le h.atSeq, h.fromPk, h.toWriter.bytes, h.sig] handoffWidths
    (by simp [FixedBytes.size, proper.key, proper.sig, handoffWidths]) (by decide)
  exact ⟨bytes, except_mapError_eq_ok.mpr encoded, width⟩

/-- An answer hands out a signed record. -/
def Response.carries (bytes : Bytes) : Response → Prop
  | .record (some found) => found = bytes
  | .records page => bytes ∈ page
  | _ => False

section

variable [Crypto]

/-- Some request, whoever sends it and whenever, is answered with a signed record. -/
def Fetchable (p : Peer) (bytes : Bytes) : Prop :=
  ∃ disk subject now req r, (handleAt p disk subject now req).1 = some r ∧ r.carries bytes

/-- Where a record that is handed out comes from. -/
inductive Returned (p : Peer) (bytes : Bytes) : Prop where
  | record (rec : SlotRecord) (encoded : rec.encode = .ok bytes)
  | rung (c : Checkpoint) (encoded : c.encode = .ok bytes)
  | request (r : DeleteRequest) (encoded : r.encode = .ok bytes)
  | witness (slot : SlotId)
    (served : Delivered Witness.encode WitnessError.display (p.witnessesOf slot) bytes)
  | handoff (slot : SlotId) (whole : p.witnessOnly = false)
      (served : Delivered SlotHandoff.encode HandoffError.display (p.handoffsOf slot) bytes)
  | approval (request : Digest) (whole : p.witnessOnly = false)
      (served : Delivered DeleteApproval.encode DeleteError.display
        (p.deleteApprovalsFor request) bytes)

/-- An acknowledgement hands out nothing. -/
theorem not_carries_acknowledged {A : Type} (result : Except PeerError A × Peer) (bytes : Bytes) :
    ¬(acknowledged result).1.carries bytes := by
  unfold acknowledged
  split <;> exact id

/-- Nor does an answer to something that was sent in. -/
theorem not_carries_onDecoded {T E : Type} {p : Peer} {decoded : Except E T} {display : E → String}
    {act : T → Response × Peer} {bytes : Bytes} (none : ∀ value, ¬(act value).1.carries bytes) :
    ¬(onDecoded p decoded display act).1.carries bytes := by
  unfold onDecoded
  split
  · exact none _
  · exact id

omit [Crypto] in
/-- A list answer is a page or an error. -/
theorem boundedFrom_cases {T E : Type} (encode : T → Except E Bytes) (display : E → String)
    (out : List Bytes) (used : Nat) (items : List T) :
    (∃ page, boundedFrom encode display out used items = .records page) ∨
      ∃ text, boundedFrom encode display out used items = .error text := by
  -- Induction over the items that are left.
  induction items generalizing out used with
  | nil => exact .inl ⟨out, rfl⟩
  | cons item rest ih =>
    unfold boundedFrom
    -- The page ends where it is full, or with an error where an item cannot be written.
    split
    · exact .inl ⟨out, rfl⟩
    · split
      · exact .inr ⟨_, rfl⟩
      · split
        · exact .inl ⟨out, rfl⟩
        · exact ih _ _

section

variable {T E : Type} {encode : T → Except E Bytes} {display : E → String} {items : List T}
    {bytes : Bytes}

omit [Crypto] in
/-- What a list answer carries is on its page. -/
theorem delivered_of_carries (carried : (bounded items encode display).carries bytes) :
    Delivered encode display items bytes := by
  -- An answer that carries something is a page.
  rcases boundedFrom_cases encode display [] 0 items with ⟨page, is⟩ | ⟨text, is⟩
  · rw [bounded, is] at carried
    exact ⟨page, is, carried⟩
  · rw [bounded, is] at carried
    cases carried

omit [Crypto] in
/-- What is on a page is the encoding of an item. -/
theorem Delivered.encoded (served : Delivered encode display items bytes) :
    ∃ item ∈ items, encode item = .ok bytes := by
  obtain ⟨page, is, member⟩ := served
  exact (boundedFrom_records is bytes member).resolve_left List.not_mem_nil

omit [Crypto] in
/-- What is delivered is carried by the answer. -/
theorem Delivered.carried (served : Delivered encode display items bytes) :
    (bounded items encode display).carries bytes := by
  obtain ⟨page, is, member⟩ := served
  rw [is]
  exact member

end

/-- Everything that is handed out comes from one of the six stores. -/
theorem returned_of_fetchable {p : Peer} {bytes : Bytes} (fetchable : Fetchable p bytes) :
    Returned p bytes := by
  -- One kind of request after the other.
  obtain ⟨disk, subject, now, req, r, answer, carried⟩ := fetchable
  unfold handleAt at answer
  split at answer
  · obtain rfl := Option.some.inj answer
    cases carried
  rename_i relayed
  -- A node that keeps nothing but witnesses was answered above.
  have whole (kept : req.relayed = false) : p.witnessOnly = false := by
    simpa [kept] using relayed
  cases req with
  | slotHead slot =>
    obtain rfl := Option.some.inj answer
    cases found : (p.slotHead slot).bind fun r => r.encode.toOption with
    | none =>
      rw [found] at carried
      cases carried
    | some written =>
      rw [found] at carried
      obtain rfl : written = bytes := carried
      obtain ⟨rec, _, encoded⟩ := Option.bind_eq_some_iff.mp found
      exact .record rec (except_toOption_eq_some.mp encoded)
  | deleteRequestRecord h =>
    obtain rfl := Option.some.inj answer
    cases found : p.deleteRequests[h]?.bind fun r => r.encode.toOption with
    | none =>
      rw [found] at carried
      cases carried
    | some written =>
      rw [found] at carried
      obtain rfl : written = bytes := carried
      obtain ⟨r, _, encoded⟩ := Option.bind_eq_some_iff.mp found
      exact .request r (except_toOption_eq_some.mp encoded)
  | slotHistory slot start =>
    obtain ⟨records, _, rfl⟩ := Option.map_eq_some_iff.mp answer
    obtain ⟨rec, _, encoded⟩ := (delivered_of_carries carried).encoded
    exact .record rec encoded
  | checkpoints slot start =>
    obtain rfl := Option.some.inj answer
    obtain ⟨c, _, encoded⟩ := (delivered_of_carries carried).encoded
    exact .rung c encoded
  | witnesses slot =>
    obtain rfl := Option.some.inj answer
    exact .witness slot (delivered_of_carries carried)
  | handoffs slot =>
    obtain rfl := Option.some.inj answer
    exact .handoff slot (whole rfl) (delivered_of_carries carried)
  | deleteApprovals h =>
    obtain rfl := Option.some.inj answer
    exact .approval h (whole rfl) (delivered_of_carries carried)
  -- The rest is answered with a blob, a word or a digest.
  | publishSlot | publishWitness | publishHandoff | publishCheckpoint | publishDeleteApproval
  | forgetRetention =>
    obtain rfl := Option.some.inj answer
    exact absurd carried (not_carries_onDecoded fun _ => not_carries_acknowledged _ _)
  | takeLease | releaseLease =>
    obtain rfl := Option.some.inj answer
    exact absurd carried (not_carries_acknowledged _ _)
  | publishDeleteRequest sent =>
    dsimp only at answer
    split at answer
    · obtain rfl := Option.some.inj answer
      cases carried
    · obtain rfl := Option.some.inj answer
      refine absurd carried (not_carries_onDecoded fun r => ?_)
      split <;> exact id
  | executeDelete sent =>
    obtain rfl := Option.some.inj answer
    refine absurd carried (not_carries_onDecoded fun e => ?_)
    split <;> exact id
  | getBlob | putBlob | prove =>
    dsimp only at answer
    split at answer
    · obtain rfl := Option.some.inj answer
      cases carried
    · obtain rfl := Option.some.inj answer
      cases carried
  | hasBlob | leases | sweepWarnings =>
    obtain rfl := Option.some.inj answer
    cases carried

section

variable {T E A B : Type} [Ord A] [Std.TransOrd A] [Std.LawfulEqOrd A]
    [Ord B] [Std.TransOrd B] [Std.LawfulEqOrd B]
  {m : OrdMap A (OrdMap B T)} {key : T → A × B} {good : T → Prop} {encode : T → Except E Bytes}
    {display : E → String}
  {len : Nat} {items : List T}

omit [Crypto] [Std.LawfulEqOrd A] in
/-- What is filed under one key is listed uniformly, where the good values are. -/
theorem uniform_of_indexed (indexed : m.Indexed key good)
    (encodes : ∀ v, good v → ∃ bytes, encode v = .ok bytes ∧ bytes.length = len)
    (apart : ∀ v w bytes, good v → good w → encode v = .ok bytes → encode w = .ok bytes → v = w)
    (a : A) :
    Uniform encode len (m.getD a ∅).listed where
  each item listed := encodes item (indexed.of_listed listed).1
  apart v first w second bytes :=
    apart v w bytes (indexed.of_listed first).1 (indexed.of_listed second).1
  nodup := indexed.nodup_listed a

omit [Crypto] in
/-- Where a list is served as a whole or not at all, all of it can be had exactly when it fits. -/
theorem Uniform.all_iff (uniform : Uniform encode len items) {fetch : Bytes → Prop} {whole : Prop}
    [Decidable whole] (agree : ∀ item ∈ items, ∀ bytes, encode item = .ok bytes →
      (fetch bytes ↔ whole ∧ Delivered encode display items bytes)) :
    (∀ item ∈ items, ∃ bytes, encode item = .ok bytes ∧ fetch bytes) ↔
      items.length ≤ if whole then pageOf len else 0 := by
  -- Where nothing may be asked nothing is fetched, and otherwise a page has its bound.
  by_cases open_ : whole
  · have served : (∀ item ∈ items, ∃ bytes, encode item = .ok bytes ∧
      Delivered encode display items bytes) ↔
        items.length ≤ pageOf len := uniform.all_served_iff
    rw [if_pos open_, ← served]
    refine forall₂_congr fun item listed => exists_congr fun bytes =>
      and_congr_right fun encoded => ?_
    rw [agree item listed bytes encoded]
    exact and_iff_right open_
  · rw [if_neg open_, Nat.le_zero, List.length_eq_zero_iff]
    constructor
    · intro all
      rw [List.eq_nil_iff_forall_not_mem]
      intro item listed
      obtain ⟨bytes, encoded, fetched⟩ := all item listed
      exact open_ ((agree item listed bytes encoded).mp fetched).1
    · rintro rfl item listed
      cases listed

end

omit [Crypto] in
/-- Proper witnesses are written apart. -/
theorem Witness.apart {v w : Witness} {bytes : Bytes} (first : v.Proper) (second : w.Proper)
    (encoded : v.encode = .ok bytes) (again : w.encode = .ok bytes) : v = w := by
  -- Both are read back from the same bytes.
  obtain ⟨_, made, decoded⟩ := reads_back first
  obtain ⟨_, made', decoded'⟩ := reads_back second
  obtain rfl := Except.ok.inj (made.symm.trans encoded)
  obtain rfl := Except.ok.inj (made'.symm.trans again)
  exact Except.ok.inj (decoded.symm.trans decoded')

omit [Crypto] in
/-- Proper handoffs are written apart. -/
theorem SlotHandoff.apart {g h : SlotHandoff} {bytes : Bytes} (first : g.Proper) (second : h.Proper)
    (encoded : g.encode = .ok bytes) (again : h.encode = .ok bytes) : g = h :=
  Except.ok.inj ((decode_encode encoded first.key first.sig).symm.trans
    (decode_encode again second.key second.sig))

omit [Crypto] in
/-- Proper approvals are written apart. -/
theorem DeleteApproval.apart {a b : DeleteApproval} {bytes : Bytes} (first : a.Proper)
    (second : b.Proper) (encoded : a.encode = .ok bytes) (again : b.encode = .ok bytes) : a = b :=
  Except.ok.inj ((decode_encode first encoded).symm.trans (decode_encode second again))

omit [Crypto] in
/-- No rung is written as a witness is: a witness starts with a key, a rung with a slot. -/
theorem Witness.not_rung {w : Witness} (proper : w.Proper) {c : Checkpoint} {bytes : Bytes}
    (encoded : w.encode = .ok bytes) (rung : c.encode = .ok bytes) : False := by
  -- The first field would be a key and a slot, which differ in width.
  have fields := encodeFields_inj (except_mapError_eq_ok.mp encoded) (except_mapError_eq_ok.mp rung)
  have key : w.witnessPk = c.slotId.bytes := (List.cons.inj fields).1
  have width := proper.key
  rw [key, c.slotId.size] at width
  cases width

namespace Peer

variable {p : Peer}

/-- What the peer accepted is in its place, and written at its one length. -/
structure WellFiled (p : Peer) : Prop where
  honest : p.hostility = .honest
  witnesses : p.witnesses.Indexed (fun w => (w.slotId, (w.witnessId, w.seq))) Witness.Proper
  handoffs : p.handoffs.Indexed (fun h => (h.slotId, handoffKey h)) SlotHandoff.Proper
  approvals : p.deleteApprovals.Indexed (fun a => (a.requestHash, a.approverId))
    DeleteApproval.Proper

/-- Everything the peer accepted can be asked for. -/
structure AllFetchable (p : Peer) : Prop where
  witnesses : ∀ slot key w, p.witnesses.find2 slot key = some w → ∃ bytes, w.encode = .ok bytes ∧
    Fetchable p bytes
  handoffs : ∀ slot key h, p.handoffs.find2 slot key = some h → ∃ bytes, h.encode = .ok bytes ∧
    Fetchable p bytes
  approvals : ∀ request approver a, p.deleteApprovals.find2 request approver = some a →
    ∃ bytes, a.encode = .ok bytes ∧ Fetchable p bytes

/-- How much of a list a peer hands out: a page, or nothing where it keeps witnesses only. -/
def room (p : Peer) (page : Nat) : Nat := if p.witnessOnly = false then page else 0

/-- Every list the peer keeps fits into one answer. -/
structure Short (p : Peer) : Prop where
  witnesses : ∀ slot, (p.witnesses.getD slot ∅).size ≤ witnessPage
  handoffs : ∀ slot, (p.handoffs.getD slot ∅).size ≤ p.room handoffPage
  approvals : ∀ request, (p.deleteApprovals.getD request ∅).size ≤ p.room approvalPage

/-- An honest peer serves the witnesses that are filed. -/
theorem WellFiled.witnessesOf_eq (filed : p.WellFiled) (slot : SlotId) :
    p.witnessesOf slot = (p.witnesses.getD slot ∅).listed := by
  simp [witnessesOf, filed.honest, Hostility.honest]

/-- A witness is handed out with the witnesses of its slot, or not at all. -/
theorem WellFiled.fetchable_witness (filed : p.WellFiled) {slot : SlotId} {w : Witness}
    (held : w ∈ (p.witnesses.getD slot ∅).listed) {bytes : Bytes} (encoded : w.encode = .ok bytes) :
    Fetchable p bytes ↔
      Delivered Witness.encode WitnessError.display (p.witnesses.getD slot ∅).listed bytes := by
  -- What is handed out comes from one of the six stores.
  obtain ⟨proper, place⟩ := filed.witnesses.of_listed held
  constructor
  · intro fetchable
    -- Every other kind of record has another number of fields, or starts with another one.
    cases returned_of_fetchable fetchable with
    | record rec written => cases (Witness.arity encoded).unique (SlotRecord.arity written)
    | rung c written => exact (Witness.not_rung proper encoded written).elim
    | request r written => cases (Witness.arity encoded).unique (DeleteRequest.arity written)
    | handoff other _ served =>
      obtain ⟨h, _, written⟩ := served.encoded
      cases (Witness.arity encoded).unique (SlotHandoff.arity written)
    | approval other _ served =>
      obtain ⟨a, _, written⟩ := served.encoded
      cases (Witness.arity encoded).unique (DeleteApproval.arity written)
    | witness other served =>
      rw [filed.witnessesOf_eq] at served
      obtain ⟨found, listed, written⟩ := served.encoded
      obtain ⟨also, there⟩ := filed.witnesses.of_listed listed
      obtain rfl := Witness.apart proper also encoded written
      rw [← place.symm.trans there] at served
      exact served
  · intro served
    refine ⟨.ok (), "", 0, .witnesses slot,
      bounded (p.witnessesOf slot) Witness.encode WitnessError.display, ?_, ?_⟩
    · unfold handleAt
      rw [if_neg (by simp [Request.relayed])]
    · rw [filed.witnessesOf_eq]
      exact served.carried

/-- A handoff is handed out with the handoffs of its slot, by a node that keeps them. -/
theorem WellFiled.fetchable_handoff (filed : p.WellFiled) {slot : SlotId} {h : SlotHandoff}
    (held : h ∈ (p.handoffs.getD slot ∅).listed) {bytes : Bytes} (encoded : h.encode = .ok bytes) :
    Fetchable p bytes ↔ p.witnessOnly = false ∧
      Delivered SlotHandoff.encode HandoffError.display (p.handoffs.getD slot ∅).listed bytes := by
  -- Only the answer about handoffs has encodings with as many fields.
  obtain ⟨proper, place⟩ := filed.handoffs.of_listed held
  constructor
  · intro fetchable
    cases returned_of_fetchable fetchable with
    | record rec written => cases (SlotHandoff.arity encoded).unique (SlotRecord.arity written)
    | rung c written => cases (SlotHandoff.arity encoded).unique (Checkpoint.arity written)
    | request r written => cases (SlotHandoff.arity encoded).unique (DeleteRequest.arity written)
    | witness other served =>
      obtain ⟨w, _, written⟩ := served.encoded
      cases (SlotHandoff.arity encoded).unique (Witness.arity written)
    | approval other _ served =>
      obtain ⟨a, _, written⟩ := served.encoded
      cases (SlotHandoff.arity encoded).unique (DeleteApproval.arity written)
    | handoff other whole served =>
      obtain ⟨found, listed, written⟩ := served.encoded
      obtain ⟨also, there⟩ := filed.handoffs.of_listed listed
      obtain rfl := SlotHandoff.apart proper also encoded written
      rw [← place.symm.trans there] at served
      exact ⟨whole, served⟩
  · intro readable
    obtain ⟨whole, served⟩ := readable
    refine ⟨.ok (), "", 0, .handoffs slot,
      bounded (p.handoffsOf slot) SlotHandoff.encode HandoffError.display, ?_, ?_⟩
    · unfold handleAt
      rw [if_neg (by simp [whole])]
    · exact served.carried

/-- An approval is handed out with the approvals of its request, by a node that keeps them. -/
theorem WellFiled.fetchable_approval (filed : p.WellFiled) {request : Digest} {a : DeleteApproval}
    (held : a ∈ (p.deleteApprovals.getD request ∅).listed) {bytes : Bytes}
    (encoded : a.encode = .ok bytes) :
    Fetchable p bytes ↔ p.witnessOnly = false ∧
      Delivered DeleteApproval.encode DeleteError.display (p.deleteApprovals.getD request ∅).listed
        bytes := by
  -- Only the answer about approvals has encodings with as many fields.
  obtain ⟨proper, place⟩ := filed.approvals.of_listed held
  constructor
  · intro fetchable
    cases returned_of_fetchable fetchable with
    | record rec written => cases (DeleteApproval.arity encoded).unique (SlotRecord.arity written)
    | rung c written => cases (DeleteApproval.arity encoded).unique (Checkpoint.arity written)
    | request r written => cases (DeleteApproval.arity encoded).unique (DeleteRequest.arity written)
    | witness other served =>
      obtain ⟨w, _, written⟩ := served.encoded
      cases (DeleteApproval.arity encoded).unique (Witness.arity written)
    | handoff other _ served =>
      obtain ⟨h, _, written⟩ := served.encoded
      cases (DeleteApproval.arity encoded).unique (SlotHandoff.arity written)
    | approval other whole served =>
      obtain ⟨found, listed, written⟩ := served.encoded
      obtain ⟨also, there⟩ := filed.approvals.of_listed listed
      obtain rfl := DeleteApproval.apart proper also encoded written
      rw [← place.symm.trans there] at served
      exact ⟨whole, served⟩
  · intro readable
    obtain ⟨whole, served⟩ := readable
    refine ⟨.ok (), "", 0, .deleteApprovals request,
      bounded (p.deleteApprovalsFor request) DeleteApproval.encode DeleteError.display, ?_, ?_⟩
    · unfold handleAt
      rw [if_neg (by simp [whole])]
    · exact served.carried

/-- Everything can be asked for exactly when every list fits into one answer. -/
theorem allFetchable_iff (filed : p.WellFiled) : p.AllFetchable ↔ p.Short := by
  -- Witnesses are handed out to everyone, the other records on some condition.
  have witnesses (slot : SlotId) :
      (∀ w ∈ (p.witnesses.getD slot ∅).listed, ∃ bytes, w.encode = .ok bytes ∧ Fetchable p bytes) ↔
        (p.witnesses.getD slot ∅).listed.length ≤ if True then pageOf (framedLen witnessWidths)
          else 0 :=
    (uniform_of_indexed filed.witnesses (fun _ => Witness.encodes) (fun _ _ _ => Witness.apart)
      slot).all_iff
      fun w held bytes encoded =>
        (filed.fetchable_witness held encoded).trans (iff_of_eq (true_and _)).symm
  have handoffs (slot : SlotId) := (uniform_of_indexed filed.handoffs (fun _ => SlotHandoff.encodes)
    (fun _ _ _ => SlotHandoff.apart) slot).all_iff fun h held bytes encoded =>
      filed.fetchable_handoff held encoded
  have approvals (request : Digest) :=
    (uniform_of_indexed filed.approvals (fun _ => DeleteApproval.encodes)
    (fun _ _ _ => DeleteApproval.apart) request).all_iff fun a held bytes encoded =>
      filed.fetchable_approval held encoded
  simp only [OrdMap.length_listed, OrdMap.mem_listed, if_true] at witnesses handoffs approvals
  constructor
  · intro all
    refine ⟨fun slot => (witnesses slot).mp ?_, fun slot => (handoffs slot).mp ?_,
      fun request => (approvals request).mp ?_⟩
    · intro w filed
      obtain ⟨key, found⟩ := filed
      exact all.witnesses slot key w found
    · intro h filed
      obtain ⟨key, found⟩ := filed
      exact all.handoffs slot key h found
    · intro a filed
      obtain ⟨approver, found⟩ := filed
      exact all.approvals request approver a found
  · intro short
    refine ⟨fun slot key w found => ?_, fun slot key h found => ?_,
      fun request approver a found => ?_⟩
    · exact (witnesses slot).mpr (short.witnesses slot) w ⟨key, found⟩
    · exact (handoffs slot).mpr (short.handoffs slot) h ⟨key, found⟩
    · exact (approvals request).mpr (short.approvals request) a ⟨approver, found⟩

/-- An accepted item that the answer to its list does not hold. -/
def Overflows (p : Peer) : PeerOp → Prop
  | .publishWitness disk w =>
    (p.publishWitness disk w).1 = .ok () ∧ ¬(p.witnesses.getD w.slotId ∅).contains (w.witnessId,
      w.seq) = true ∧ witnessPage ≤ (p.witnesses.getD w.slotId ∅).size
  | .publishHandoff disk h =>
    (p.publishHandoff disk h).1 = .ok () ∧
      ¬(p.handoffs.getD h.slotId ∅).contains (handoffKey h) = true ∧
      p.room handoffPage ≤ (p.handoffs.getD h.slotId ∅).size
  | .publishDeleteApproval disk a =>
    (p.publishDeleteApproval disk a).1 = .ok () ∧
      ¬(p.deleteApprovals.getD a.requestHash ∅).contains a.approverId = true ∧
      p.room approvalPage ≤ (p.deleteApprovals.getD a.requestHash ∅).size
  | _ => False

/-- What an operation does to what can be asked for: nothing, or it files one item. -/
inductive TakesIn (p : Peer) (op : PeerOp) : Prop where
  -- All that is refused, and all that is held already, changes no list.
  | nothing (witnesses : (peer.step p op).2.witnesses = p.witnesses)
    (handoffs : (peer.step p op).2.handoffs = p.handoffs)
      (approvals : (peer.step p op).2.deleteApprovals = p.deleteApprovals) (fits : ¬p.Overflows op)
  | witness (disk : Disk) (w : Witness) (is : op = .publishWitness disk w)
    (verified : w.verify = .ok ())
      (filed : p.publishWitness disk w = (.ok (), p.fileWitness w))
  | handoff (disk : Disk) (h : SlotHandoff) (is : op = .publishHandoff disk h)
    (verified : h.verify = .ok ())
      (filed : p.publishHandoff disk h = (.ok (), p.fileHandoff h))
  | approval (disk : Disk) (a : DeleteApproval) (is : op = .publishDeleteApproval disk a)
    (verified : a.verify = .ok ())
      (filed : p.publishDeleteApproval disk a = (.ok (),
        { p with deleteApprovals := p.deleteApprovals.insert2 a.requestHash a.approverId a }))

/-- Every step takes in at most one witness, handoff or approval. -/
theorem step_takesIn (op : PeerOp) : p.TakesIn op := by
  -- One case for each operation that files such a thing; the others leave all three alone.
  have only := step_onlyIn (p := p) op
  cases op with
  | publishWitness disk w =>
    rcases publishWitness_cases (p := p) disk w with ⟨_, e, refused⟩ | ⟨relays, filed⟩
    · refine .nothing ?_ (only.handoffs nofun) (only.deleteApprovals nofun) fun over_ => ?_
      · exact congrArg (fun result => result.2.witnesses) refused
      · have accepted := over_.1
        rw [refused] at accepted
        cases accepted
    · exact .witness disk w rfl relays.verified filed
  | publishHandoff disk h =>
    cases publishHandoff_outcome (p := p) disk h with
    | refused e refused =>
      refine .nothing (only.witnesses nofun) ?_ (only.deleteApprovals nofun) fun over_ => ?_
      · exact congrArg (fun result => result.2.handoffs) refused
      · have accepted := over_.1
        rw [refused] at accepted
        cases accepted
    | held is present =>
      exact .nothing (only.witnesses nofun) (congrArg (fun result => result.2.handoffs) is)
        (only.deleteApprovals nofun)
        fun over_ => over_.2.1 present
    | filed is _ accepts => exact .handoff disk h rfl accepts.verified is
  | publishDeleteApproval disk a =>
    cases publishDeleteApproval_outcome (p := p) disk a with
    | refused e refused =>
      refine .nothing (only.witnesses nofun) (only.handoffs nofun) ?_ fun over_ => ?_
      · exact congrArg (fun result => result.2.deleteApprovals) refused
      · have accepted := over_.1
        rw [refused] at accepted
        cases accepted
    | held is present =>
      exact .nothing (only.witnesses nofun) (only.handoffs nofun)
        (congrArg (fun result => result.2.deleteApprovals) is)
        fun over_ => over_.2.1 present
    | filed is _ accepts => exact .approval disk a rfl accepts.verified is
  | _ => exact .nothing (only.witnesses nofun) (only.handoffs nofun) (only.deleteApprovals nofun) id

/-- Every operation files what it files in its place. -/
theorem step_wellFiled (filed : p.WellFiled) (op : PeerOp) : (peer.step p op).2.WellFiled := by
  -- What the operation leaves is known store by store.
  have honest := (step_onlyIn (p := p) op).hostility.trans filed.honest
  cases step_takesIn (p := p) op with
  | nothing witnesses handoffs approvals _ =>
    exact ⟨honest, witnesses ▸ filed.witnesses, handoffs ▸ filed.handoffs,
      approvals ▸ filed.approvals⟩
  -- What is filed has verified, so it has the widths that a page counts on.
  | witness disk w is verified stepped =>
    subst is
    rw [show peer.step p (.publishWitness disk w) = _ from stepped]
    exact ⟨filed.honest, filed.witnesses.insert2 (Witness.proper_of_verify verified),
      filed.handoffs, filed.approvals⟩
  | handoff disk h is verified stepped =>
    subst is
    rw [show peer.step p (.publishHandoff disk h) = _ from stepped]
    exact ⟨filed.honest, filed.witnesses,
      filed.handoffs.insert2 (SlotHandoff.proper_of_verify verified), filed.approvals⟩
  | approval disk a is verified stepped =>
    subst is
    rw [show peer.step p (.publishDeleteApproval disk a) = _ from stepped]
    exact ⟨filed.honest, filed.witnesses, filed.handoffs,
      filed.approvals.insert2 (DeleteApproval.proper_of_verify verified)⟩

/-- The lists stay short exactly when the operation does not overflow one. -/
theorem step_short_iff (short : p.Short) (op : PeerOp) :
    (peer.step p op).2.Short ↔ ¬p.Overflows op := by
  -- An operation that files nothing leaves the lists as they are.
  have same : (peer.step p op).2.witnessOnly = p.witnessOnly := (step_onlyIn op).witnessOnly
  cases step_takesIn (p := p) op with
  -- The lists are as they were, and so is their room.
  | nothing witnesses handoffs approvals fits =>
    refine iff_of_true ⟨?_, ?_, ?_⟩ fits
    · rw [witnesses]
      exact short.witnesses
    · rw [handoffs, room, same]
      exact short.handoffs
    · rw [approvals, room, same]
      exact short.approvals
  | witness disk w is _ stepped =>
    subst is
    -- Under a key that is there the list stays as long as it was.
    have grown := OrdMap.size_insert2_le_iff short.witnesses (a := w.slotId) (b :=
      (w.witnessId, w.seq)) (v := w)
    rw [show peer.step p (.publishWitness disk w) = _ from stepped]
    constructor
    · intro after overflow
      obtain ⟨_, absent, full⟩ := overflow
      exact Nat.not_lt.mpr full ((grown.mp after.witnesses).resolve_left absent)
    · intro fits
      refine ⟨grown.mpr ?_, short.handoffs, short.approvals⟩
      by_contra neither
      rw [not_or, Nat.not_lt] at neither
      exact fits ⟨congrArg Prod.fst stepped, neither⟩
  | handoff disk h is _ stepped =>
    subst is
    have grown := OrdMap.size_insert2_le_iff short.handoffs (a := h.slotId) (b :=
      handoffKey h) (v := h)
    rw [show peer.step p (.publishHandoff disk h) = _ from stepped]
    constructor
    · intro after overflow
      obtain ⟨_, absent, full⟩ := overflow
      exact Nat.not_lt.mpr full ((grown.mp after.handoffs).resolve_left absent)
    · intro fits
      refine ⟨short.witnesses, grown.mpr ?_, short.approvals⟩
      by_contra neither
      rw [not_or, Nat.not_lt] at neither
      exact fits ⟨congrArg Prod.fst stepped, neither⟩
  | approval disk a is _ stepped =>
    subst is
    have grown := OrdMap.size_insert2_le_iff short.approvals (a := a.requestHash) (b :=
      a.approverId) (v := a)
    rw [show peer.step p (.publishDeleteApproval disk a) = _ from stepped]
    constructor
    · intro after overflow
      obtain ⟨_, absent, full⟩ := overflow
      exact Nat.not_lt.mpr full ((grown.mp after.approvals).resolve_left absent)
    · intro fits
      refine ⟨short.witnesses, short.handoffs, grown.mpr ?_⟩
      by_contra neither
      rw [not_or, Nat.not_lt] at neither
      exact fits ⟨congrArg Prod.fst stepped, neither⟩

/--
When everything accepted can be fetched, over every run of an honest peer.

It is so in every state exactly when no item is accepted that the answer to its list
has no room for.
-/
theorem fetchable_iff_no_overflow (mode : Mode) (addressing : Addressing) (authority : Authority)
    (quorum : QuorumPolicy) (policy : GcPolicy) (witnessOnly : Bool) (ops : List PeerOp) :
    peer.Permits (fun p op => (peer.step p op).2.AllFetchable)
        (opened mode addressing authority quorum policy witnessOnly) ops ↔
      peer.Permits (fun p op => ¬p.Overflows op) (opened mode addressing authority quorum policy
        witnessOnly) ops := by
  -- As long as every list was short, the next step decides.
  refine Machine.permits_iff (P := fun p : Peer => p.WellFiled ∧ p.Short) ?_ ?_ ?_
  · refine ⟨⟨rfl, OrdMap.indexed_empty, OrdMap.indexed_empty, OrdMap.indexed_empty⟩, ?_, ?_, ?_⟩
    all_goals
      intro key
      simp [opened, Peer.new]
  · intro p op state all
    obtain ⟨filed, _⟩ := state
    exact ⟨step_wellFiled filed op, (allFetchable_iff (step_wellFiled filed op)).mp all⟩
  · intro p op state
    obtain ⟨filed, short⟩ := state
    rw [allFetchable_iff (step_wellFiled filed op), step_short_iff short op]

end Peer

end

section

open Concrete

/-- What one observer says of a slot at some sequence. -/
def sighting (seq : UInt64) : Witness := witness 1 1 seq (digest [1]) (digest [2])

/-- Every sighting behind the first sequence verifies. -/
theorem sighting_verifies {seq : UInt64} (later : seq ≠ 0) : (sighting seq).verify = .ok () := by
  -- The example's identity signs, and the sighting is not at genesis.
  have genesis : witnessCheckGenesis seq (digest [2]) = .ok () :=
    genesisRule_eq_ok.mpr (iff_of_false later (noZeroDigest [2]))
  obtain ⟨sig, made, _, valid⟩ := (identity_signs 1).sign_verifies .witness
    (witnessBody (slot 1) seq (digest [1]) (digest [2]) 0)
  obtain rfl : sig = (sighting seq).sig := (Except.ok.inj made).symm
  have signed : NasTools.verify (sighting seq).witnessPk .witness
    (witnessBody (sighting seq).slotId (sighting seq).seq
      (sighting seq).recordHash (sighting seq).prev (sighting seq).logicalTime) (sighting seq).sig =
        .ok () := valid
  rw [Witness.verify, signed, show witnessCheckGenesis (sighting seq).seq (sighting seq).prev =
    .ok () from genesis]
  rfl

/-- A peer that hears of one sequence after the other. -/
def sightings (n : Nat) : List PeerOp :=
  (List.range n).map fun i => .publishWitness (.ok ()) (sighting (UInt64.ofNat (i + 1)))

/-- The observed peer. -/
def observed (n : Nat) : Peer :=
  peer.run (.opened .e2ee .content .empty .default .default false) (sightings n)

/-- Every sighting is accepted, and none stands in for another. -/
theorem observed_witnesses {n : Nat} (few : n ≤ maxWitnessesPerSlot) :
    ((observed n).witnesses.getD (slot 1) ∅).size = n ∧
      ∀ key w, (observed n).witnesses.find2 (slot 1) key = some w → key.2.toNat ≤ n := by
  -- Induction over the number of sightings.
  induction n with
  | zero =>
    refine ⟨by simp [observed, sightings, Peer.opened, Peer.new], ?_⟩
    intro key w found
    simp [observed, sightings, Peer.opened, Peer.new] at found
  | succ n ih =>
    obtain ⟨size, below⟩ := ih (Nat.le_of_succ_le few)
    have number : (UInt64.ofNat (n + 1)).toNat = n + 1 := by
      rw [UInt64.toNat_ofNat']
      exact Nat.mod_eq_of_lt (few.trans_lt (by decide))
    have later : UInt64.ofNat (n + 1) ≠ 0 := by
      intro zero
      rw [zero] at number
      cases number
    -- The run is one sighting longer.
    have stepped : observed (n + 1) =
        (peer.step (observed n)
          (.publishWitness (.ok ()) (sighting (UInt64.ofNat (n + 1))))).2 := by
      simp [observed, sightings, List.range_succ, Machine.run_append]
    -- The sequence is new, so it is filed beside the others.
    have fresh : ¬((observed n).witnesses.getD (slot 1) ∅).contains
        ((sighting (UInt64.ofNat (n + 1))).witnessId, UInt64.ofNat (n + 1)) = true := by
      intro held
      rw [Std.ExtTreeMap.contains_eq_isSome_getElem?, Option.isSome_iff_exists] at held
      obtain ⟨w, found⟩ := held
      have small := below _ w found
      rw [number] at small
      omega
    have filed : observed (n + 1) = (observed n).fileWitness (sighting (UInt64.ofNat (n + 1))) := by
      rw [stepped]
      rcases Peer.publishWitness_cases (p :=
        observed n) (.ok ()) (sighting (UInt64.ofNat (n + 1))) with
        ⟨refused, _⟩ | ⟨_, accepted⟩
      · obtain ⟨bytes, encoded, _⟩ :=
          Witness.encodes (Witness.proper_of_verify (sighting_verifies later))
        exact (refused ⟨sighting_verifies later,
          .inr (by rw [show (sighting _).slotId = slot 1 from rfl, size]; omega),
          ⟨bytes, encoded⟩, rfl⟩).elim
      · exact congrArg Prod.snd accepted
    rw [filed]
    constructor
    · rw [Peer.fileWitness, OrdMap.insert2, show (sighting (UInt64.ofNat (n + 1))).slotId =
        slot 1 from rfl, Std.ExtTreeMap.getD_insert_self, Std.ExtTreeMap.size_insert]
      exact (if_neg fresh).trans (congrArg (· + 1) size)
    · intro key w found
      by_cases new : key = ((sighting (UInt64.ofNat (n + 1))).witnessId, UInt64.ofNat (n + 1))
      · rw [new, number]
      · have other : (slot 1, key) ≠ ((sighting (UInt64.ofNat (n + 1))).slotId,
            ((sighting (UInt64.ofNat (n + 1))).witnessId, UInt64.ofNat (n + 1))) :=
            fun same => new (Prod.mk.inj same).2
        exact (below key w ((OrdMap.find2_insert2_ne other).symm.trans found)).trans (Nat.le_succ n)

/-- The forty-ninth witness of a slot is accepted, and no request is answered with it. -/
theorem last_sighting_is_hidden : ¬(observed 49).AllFetchable := by
  -- One witness more than a page holds: were all fetchable, the count would be short.
  intro all
  have filed : (observed 49).WellFiled := by
    refine Machine.run_invariant ?_ Machine.permits_always fun p op _ filed =>
      Peer.step_wellFiled filed op
    exact ⟨rfl, OrdMap.indexed_empty, OrdMap.indexed_empty, OrdMap.indexed_empty⟩
  -- What is filed is counted through the general theorem, and the page is full.
  have short := ((Peer.allFetchable_iff filed).mp all).witnesses (slot 1)
  rw [(observed_witnesses (by decide)).1] at short
  revert short
  decide

end

end NasTools
