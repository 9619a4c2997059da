import NasTools.Lib.OrderedSet
import NasTools.Proofs.Frame

/-! What each operation does to the blobs, the leases and the retention floor of a peer. -/

namespace NasTools

variable [Crypto]

namespace Peer

variable {p : Peer}

/-- What a holder would lease if it were given some more addresses. -/
def wouldLease (p : Peer) (holder : Digest) (addrs : List Addr) : OrdSet Addr :=
  addrs.foldl (fun set a => set.insert a) (((p.leases[holder]?).map Prod.fst).getD ∅)

/-- The bytes of the blobs held here that are in a set. -/
def bytesIn (p : Peer) (set : OrdSet Addr) : UInt64 :=
  (set.toList.filterMap fun a => p.blobSizes[a]?).foldl satAdd 0

/-- A lease the peer grants: every blob is here, and the holder stays below its ceiling. -/
structure Grants (p : Peer) (holder : Digest) (addrs : List Addr) : Prop where
  present : ∀ a ∈ addrs, p.blobs.has a = true
  withinQuota : p.bytesIn (p.wouldLease holder addrs) ≤ p.gcPolicy.maxLeasedBytes

/-- The peer with a lease granted, written to disk or not. -/
def leased (p : Peer) (holder : Digest) (addrs : List Addr) (now : Timestamp) : Peer :=
  { p with leases := p.leases.insert holder (p.wouldLease holder addrs, now) }

/-- The peer with leases dropped, written to disk or not. -/
def released (p : Peer) (holder : Digest) (addrs : List Addr) (now : Timestamp) : Peer :=
  match p.leases[holder]? with
  | none => p
  | some (set, _) =>
    { p with leases := p.leases.insert holder (addrs.foldl (fun set a => set.erase a) set, now) }

/--
A lease is refused and nothing changes, or it is granted in memory and the disk decides the answer.
-/
theorem takeLease_cases (disk : Disk) (holder : Digest) (addrs : List Addr) (now : Timestamp) :
    (¬p.Grants holder addrs ∧ ∃ e, p.takeLease disk holder addrs now = (.error e, p)) ∨
      (p.Grants holder addrs ∧ (p.takeLease disk holder addrs now).2 = p.leased holder addrs now ∧
        (p.takeLease disk holder addrs now).1.isOk = disk.isOk) := by
  -- The checks are those of the code, in its order.
  unfold takeLease
  cases missing : addrs.find? fun a => ¬p.blobs.has a with
  | some a =>
    left
    -- The first address that is not here refuses the whole request.
    have absent := List.find?_some missing
    have listed := List.mem_of_find?_eq_some missing
    refine ⟨?_, _, rfl⟩
    intro granted
    simp [granted.present a listed] at absent
  | none =>
    have present : ∀ a ∈ addrs, p.blobs.has a = true := by
      intro a listed
      simpa using List.find?_eq_none.mp missing a listed
    dsimp only
    split
    · rename_i over_
      left
      refine ⟨?_, _, rfl⟩
      intro granted
      exact absurd over_ (UInt64.not_lt.mpr granted.withinQuota)
    · rename_i within
      right
      refine ⟨⟨present, UInt64.not_lt.mp within⟩, rfl, ?_⟩
      cases disk <;> rfl

/-- Leases are dropped in memory whatever the disk does. -/
theorem releaseLease_eq (disk : Disk) (holder : Digest) (addrs : List Addr) (now : Timestamp) :
    p.releaseLease disk holder addrs now = (disk.mapError .io, p.released holder addrs now) := rfl

/-- A floor that is offered covers the one the peer keeps. -/
def Covers (p : Peer) (proposed : List Addr) : Prop := ∀ a ∈ p.retention, a ∈ proposed

/-- A floor is refused and nothing changes, or it replaces the old one whatever the disk does. -/
theorem publishRetention_spec (disk : Disk) (proposed : List Addr) :
    ((¬p.Covers proposed ∧ p.hostility.ignoreRetention = false) ∧
        ∃ e, p.publishRetention disk proposed = (.error e, p)) ∨
      ((p.Covers proposed ∨ p.hostility.ignoreRetention = true) ∧
        p.publishRetention disk proposed = (disk.mapError .io,
          { p with retention := proposed.foldl (fun floor a => floor.insert a) ∅ })) := by
  -- The offer covers the floor, or the peer asks for no cover, or it is refused.
  unfold publishRetention persistRetention
  dsimp only
  cases found : (p.retention.toList.filter fun a =>
      ¬(proposed.foldl (fun floor a => floor.insert a) (∅ : OrdSet Addr)).contains a).head? with
  | some dropped =>
    -- A retained address is missing from the offer.
    have member := List.mem_of_head? found
    rw [List.mem_filter, Std.ExtTreeSet.mem_toList] at member
    have uncovered : ¬p.Covers proposed := by
      intro covers
      have offered : dropped ∈ proposed.foldl (fun floor a => floor.insert a) (∅ : OrdSet Addr) :=
        OrdSet.mem_insertAll.mpr (.inl (covers dropped member.1))
      simp [Std.ExtTreeSet.contains_iff_mem, offered] at member
    dsimp only
    split
    · rename_i ignores
      exact .inr ⟨.inr ignores, rfl⟩
    · rename_i heeds
      exact .inl ⟨⟨uncovered, by simpa using heeds⟩, _, rfl⟩
  | none =>
    have none := List.head?_eq_none_iff.mp found
    refine .inr ⟨.inl ?_, rfl⟩
    intro a kept
    -- Nothing was dropped, so the address cannot be missing from what is offered.
    have passes := List.filter_eq_nil_iff.mp none a (Std.ExtTreeSet.mem_toList.mpr kept)
    by_contra missing
    apply passes
    simp only [Std.ExtTreeSet.contains_iff_mem, OrdSet.mem_insertAll, decide_eq_true_eq]
    simp [missing]

/-- An execution the peer takes as the proof of a shrink. -/
structure Proves (p : Peer) (proof : DeleteExecution) : Prop where
  verified : proof.verify = .ok ()
  recorded : p.deleteExecutions.contains proof.requestHash = true

/-- A shrink is refused and nothing changes, or it is made whatever the disk does. -/
theorem forgetRetention_exact (disk : Disk) (addrs : List Addr) (proof : DeleteExecution) :
    (¬p.Proves proof ∧ ∃ e, p.forgetRetention disk addrs proof = (.error e, p)) ∨
      (p.Proves proof ∧ p.forgetRetention disk addrs proof = (disk.mapError .io,
        { p with retention := addrs.foldl (fun floor a => floor.erase a) p.retention })) := by
  -- Two tests come before the floor changes: the proof verifies, and its request is recorded.
  unfold forgetRetention persistRetention
  cases checked : proof.verify with
  | error e => exact .inl ⟨fun proves => by simp [proves.verified] at checked, _, rfl⟩
  | ok u =>
    dsimp only
    split
    · rename_i unknown
      exact .inl ⟨fun proves => by simp [proves.recorded] at unknown, _, rfl⟩
    · rename_i known
      exact .inr ⟨⟨checked, by simpa using known⟩, rfl⟩

/-- A blob is still here, with the bytes it had if they were right. -/
structure KeptBlob (p p' : Peer) (a : Addr) : Prop where
  has : p.blobs.has a = true → p'.blobs.has a = true
  get : ∀ data, p.blobs.get a = .ok data → p'.blobs.get a = .ok data

/-- Every blob is kept where the store is the same. -/
theorem keptBlob_of_blobs {p' : Peer} (same : p'.blobs = p.blobs) (a : Addr) : KeptBlob p p' a :=
  ⟨fun held => by rw [same]; exact held, fun _ held => by rw [same]; exact held⟩

/-- A blob that is kept twice is kept. -/
theorem KeptBlob.trans {a b c : Peer} {addr : Addr} (first : KeptBlob a b addr)
    (second : KeptBlob b c addr) :
    KeptBlob a c addr :=
  ⟨fun held => second.has (first.has held), fun data held => second.get data (first.get data held)⟩

/-- A deletion takes the blob it names, and no retained one. -/
theorem deleteBlob_kept (honest : p.hostility = .honest) (disk : Disk) (addr : Addr) {a : Addr}
    (kept : a ∈ p.retention ∨ a ≠ addr) : KeptBlob p (p.deleteBlob disk addr).2 a := by
  -- A retained blob is not deleted, and of the others only the one at the address.
  unfold deleteBlob
  split
  · exact keptBlob_of_blobs rfl a
  · rename_i free
    have other : a ≠ addr := by
      rcases kept with retained | other
      · rintro rfl
        exact free
          (by simp [honest, Hostility.honest, retains, Std.ExtTreeSet.contains_iff_mem, retained])
      · exact other
    cases disk with
    | error e => exact keptBlob_of_blobs rfl a
    | ok u =>
      constructor
      · intro held
        simpa [BlobStore.has, BlobStore.remove, Std.ExtTreeMap.contains_erase, Ne.symm other]
          using held
      · intro data held
        obtain ⟨file, filed, right, rfl⟩ := BlobStore.get_eq_ok.mp held
        refine BlobStore.get_eq_ok.mpr ⟨file, ?_, right, rfl⟩
        simpa [BlobStore.remove, Std.ExtTreeMap.getElem?_erase, Ne.symm other] using filed

/-- Deletions one after the other take none but what they name, and no retained blob. -/
theorem deleteAll_kept (honest : p.hostility = .honest) (disk : Addr → Disk)
    {addrs : List Addr} {a : Addr} (kept : a ∈ p.retention ∨ a ∉ addrs) :
    KeptBlob p (p.deleteAll disk addrs).2 a := by
  -- Each deletion leaves the floor alone, so the peer stays quantified over.
  induction addrs generalizing p with
  | nil => exact keptBlob_of_blobs rfl a
  | cons addr rest ih =>
    have first : KeptBlob p (p.deleteBlob (disk addr) addr).2 a := by
      refine deleteBlob_kept honest (disk addr) addr (kept.imp id ?_)
      rintro unlisted rfl
      simp at unlisted
    obtain ⟨_, frame⟩ := deleteBlob_frame (p := p) (disk addr) addr
    unfold deleteAll
    split
    · rename_i q refused
      rw [refused] at first
      exact first
    · rename_i q removed
      rw [removed] at first frame
      have same : q = _ := frame
      refine first.trans (ih ?_ ?_)
      · rw [same]
        exact honest
      · rw [same]
        exact kept.imp id fun unlisted listed => unlisted (List.mem_cons_of_mem _ listed)

/-- A sweep takes only what its plan takes, and no retained blob. -/
theorem sweep_kept (honest : p.hostility = .honest) (disk : Addr → Disk) (holders : List Holder)
    (policy : GcPolicy) (now : Timestamp) (dryRun : Bool) {a : Addr}
    (kept : a ∈ p.retention ∨ a ∉ (planSweep p.inventory holders p.retention policy now).delete) :
    KeptBlob p (p.sweep disk holders policy now dryRun).2 a := by
  -- An honest peer plans with its own floor, so the plan spares what is retained.
  have floor : (if p.hostility.ignoreRetention then ∅ else p.retention) = p.retention := by
    simp [honest, Hostility.honest]
  have swept := deleteAll_kept honest disk kept
  unfold sweep
  rw [floor]
  dsimp only
  split
  · exact keptBlob_of_blobs rfl a
  · split
    · rename_i refused
      rw [refused] at swept
      exact swept
    · rename_i done
      rw [done] at swept
      exact swept

/--
A blob written or touched at a time, under the address its bytes have.

Bytes that were already there, and right, are left as they are.
-/
structure Touched (s s' : BlobStore) (addr : Addr) (now : Timestamp) (content : Bytes) : Prop where
  files : s' = { s with files := s.files.insert addr ⟨content, now⟩ }
  right : s.addressing.addrOf content = addr
  same : ∀ file, s.files[addr]? = some file → s.addressing.addrOf file.content = addr →
    content = file.content

/-- Storing fails and changes nothing, or touches the blob under the address of the bytes. -/
theorem put_touches (s : BlobStore) (disk : Disk) (now : Timestamp) (data : Bytes) :
    ((∃ e, (s.put disk now data).1 = .error e) ∧ (s.put disk now data).2 = s) ∨
      ((s.put disk now data).1 = .ok (s.addressing.addrOf data) ∧
        ∃ content, Touched s (s.put disk now data).2 (s.addressing.addrOf data) now content ∧
          (s.has (s.addressing.addrOf data) = false → content = data)) := by
  -- A blob that is there and right is only touched, and any other is written.
  cases disk with
  | error e => exact .inl ⟨⟨_, rfl⟩, rfl⟩
  | ok u =>
    right
    unfold BlobStore.put
    dsimp only
    cases filed : s.files[s.addressing.addrOf data]? with
    | none =>
      refine ⟨rfl, data, ⟨rfl, rfl, ?_⟩, fun _ => rfl⟩
      intro file found
      rw [filed] at found
      cases found
    | some file =>
      dsimp only
      split
      · rename_i verified
        have right : s.addressing.addrOf file.content = s.addressing.addrOf data := by
          simpa [Addressing.verifies] using verified
        refine ⟨rfl, file.content, ⟨rfl, right, ?_⟩, ?_⟩
        · intro found is _
          rw [filed, Option.some.injEq] at is
          rw [is]
        · intro absent
          simp [BlobStore.has, Std.ExtTreeMap.contains_eq_isSome_getElem?, filed] at absent
      · -- A file that no longer hashes to its name is written again.
        rename_i corrupt
        refine ⟨rfl, data, ⟨rfl, rfl, ?_⟩, fun _ => rfl⟩
        intro found is verified
        rw [filed, Option.some.injEq] at is
        subst is
        simp [Addressing.verifies, verified] at corrupt

/-- Proving possession fails and changes nothing, or touches the blob it is about. -/
theorem prove_touches (s : BlobStore) (disk : Disk) (now : Timestamp) (addr : Addr)
    (nonce : Digest) :
    ((∃ e, (s.prove disk now addr nonce).1 = .error e) ∧ (s.prove disk now addr nonce).2 = s) ∨
      ((∃ d, (s.prove disk now addr nonce).1 = .ok d) ∧ ∃ content, s.get addr = .ok content ∧
        Touched s (s.prove disk now addr nonce).2 addr now content) := by
  -- A proof reads the blob, and then moves its time.
  unfold BlobStore.prove
  cases got : s.get addr with
  | error e => exact .inl ⟨⟨_, rfl⟩, rfl⟩
  | ok content =>
    cases disk with
    | error e => exact .inl ⟨⟨_, rfl⟩, rfl⟩
    | ok u =>
      obtain ⟨file, filed, right, rfl⟩ := BlobStore.get_eq_ok.mp got
      refine .inr ⟨⟨_, rfl⟩, _, rfl, rfl, right, ?_⟩
      intro found is _
      rw [filed, Option.some.injEq] at is
      rw [is]

/-- Touching a blob loses none. -/
theorem kept_of_touched (p' : Peer) {addr : Addr} {now : Timestamp} {content : Bytes}
    (touched : Touched p.blobs p'.blobs addr now content) (a : Addr) : KeptBlob p p' a := by
  -- At the address itself the content is the one that was read, and elsewhere nothing changes.
  obtain ⟨files, right, same⟩ := touched
  by_cases here : addr = a
  · subst here
    constructor
    · intro _
      simp [files, BlobStore.has]
    · intro data held
      obtain ⟨file, filed, verified, rfl⟩ := BlobStore.get_eq_ok.mp held
      rw [files]
      exact BlobStore.get_eq_ok.mpr ⟨⟨content, now⟩, by simp, right, same file filed verified⟩
  · constructor
    · intro held
      simpa [files, BlobStore.has, Std.ExtTreeMap.contains_insert, here] using held
    · intro data held
      obtain ⟨file, filed, verified, rfl⟩ := BlobStore.get_eq_ok.mp held
      rw [files]
      exact BlobStore.get_eq_ok.mpr
        ⟨file, by simp [Std.ExtTreeMap.getElem?_insert, here, filed], verified, rfl⟩

/-- Storing a blob loses none. -/
theorem putBlob_kept (disk : Disk) (now : Timestamp) (data : Bytes) (a : Addr) :
    KeptBlob p (p.putBlob disk now data).2 a := by
  rcases put_touches p.blobs disk now data with ⟨_, same⟩ | ⟨_, _, touched, _⟩
  · exact keptBlob_of_blobs same a
  · exact kept_of_touched (p.putBlob disk now data).2 touched a

/-- Proving possession loses nothing. -/
theorem prove_kept (disk : Disk) (now : Timestamp) (addr : Addr) (nonce : Digest) (a : Addr) :
    KeptBlob p (p.prove disk now addr nonce).2 a := by
  rcases prove_touches p.blobs disk now addr nonce with ⟨_, same⟩ | ⟨_, _, _, touched⟩
  · exact keptBlob_of_blobs same a
  · exact kept_of_touched (p.prove disk now addr nonce).2 touched a

end Peer

end NasTools
