import NasTools.Model.Crypto.Concrete
import NasTools.Proofs.Holdings
import NasTools.Proofs.Sweeping

/-! Renewing a lease: when a holder that is heard of again keeps at least what it kept before. -/

namespace NasTools

open scoped Words

section

variable [Crypto]

namespace Peer

variable {p : Peer} {holder : Digest} {b : BlobInfo} {now : Timestamp}

/-- The floor a sweep of this peer honours. -/
def honoured (p : Peer) : OrdSet Addr := if p.hostility.ignoreRetention then ∅ else p.retention

/-- What a sweep with the peer's own holders and policy would take. -/
def wouldDelete (p : Peer) (now : Timestamp) : List Addr :=
  (planSweep p.inventory p.holders p.honoured p.gcPolicy now).delete

/-- The holders of a peer but one. -/
def othersThan (p : Peer) (holder : Digest) : List Holder := p.holders.filter fun h => h.id ≠ holder

/-- The holders are read off the leases. -/
theorem mem_holders {h : Holder} : h ∈ p.holders ↔ p.leases[h.id]? = some (h.set, h.lastSeen) := by
  -- The holders are the entries of the leases.
  simp only [holders, List.mem_map, Prod.exists, Std.ExtTreeMap.mem_toList_iff_getElem?_eq_some]
  constructor
  · intro listed
    obtain ⟨id, set, seen, held, rfl⟩ := listed
    exact held
  · intro held
    exact ⟨h.id, h.set, h.lastSeen, held, rfl⟩

/-- No two blobs of an inventory share an address. -/
theorem nodup_inventory (p : Peer) : (p.inventory.map BlobInfo.addr).Nodup := by
  -- Blobs are listed by their addresses, which are the keys of a map.
  have keys : p.inventory.map BlobInfo.addr = p.blobs.files.toList.map Prod.fst := List.map_map
  rw [keys]
  refine List.pairwise_map.mpr (Std.ExtTreeMap.ordered_keys_toList.imp ?_)
  intro x y less same
  simp [same] at less

/-- Nothing protects a blob exactly when no other holder does, nor the lease of this one. -/
theorem unprotected_iff_others (p : Peer) (holder : Digest) :
    Unprotected p.holders p.honoured p.gcPolicy now b ↔
    Unprotected (p.othersThan holder) p.honoured p.gcPolicy now b ∧
      ∀ set seen, p.leases[holder]? = some (set, seen) → b.addr ∈ set →
        p.gcPolicy.lastOf seen < now := by
  -- A blob is unprotected if no other holder protects it and this one does not either.
  constructor
  · intro unprotected
    refine ⟨⟨unprotected.floor, unprotected.old, ?_⟩, ?_⟩
    · intro h other leases
      exact unprotected.lapsed h (List.mem_filter.mp other).1 leases
    · intro set seen held leases
      exact status_eq_expired_iff.mp
        (unprotected.lapsed ⟨holder, set, seen⟩ (mem_holders.mpr held) leases)
  · intro apart
    obtain ⟨others, own⟩ := apart
    refine ⟨others.floor, others.old, ?_⟩
    intro h member leases
    by_cases same : h.id = holder
    · -- The one holder that was set apart has its lease under its own id.
      have held := mem_holders.mp member
      rw [same] at held
      exact status_eq_expired_iff.mpr (own _ _ held leases)
    · exact others.lapsed h (List.mem_filter.mpr ⟨member, by simpa using same⟩) leases

section

variable {addrs : List Addr} {c : Timestamp}

/-- What a holder has after a grant is what it would lease, heard of now. -/
theorem leases_leased (id : Digest) : (p.leased holder addrs c).leases[id]? =
    if id = holder then some (p.wouldLease holder addrs, c) else p.leases[id]? := by
  rw [leased, Std.ExtTreeMap.getElem?_insert]
  by_cases same : id = holder
  · simp [same]
  · simp [same, Ne.symm same]

/-- A grant leaves the leases of the other holders alone. -/
theorem unprotected_leased_others :
    Unprotected ((p.leased holder addrs c).othersThan holder) p.honoured p.gcPolicy now b ↔
      Unprotected (p.othersThan holder) p.honoured p.gcPolicy now b := by
  -- What is filed under every other id stays as it was.
  have same (h : Holder) : h ∈ (p.leased holder addrs c).othersThan holder ↔
      h ∈ p.othersThan holder := by
    simp only [othersThan, List.mem_filter, decide_eq_true_eq]
    refine and_congr_left fun other => ?_
    rw [mem_holders, mem_holders, leases_leased, if_neg other]
  simp only [unprotected_iff, same]

/-- After a grant nothing protects a blob exactly when no other holder does, nor the new lease. -/
theorem unprotected_leased_iff :
    Unprotected (p.leased holder addrs c).holders p.honoured p.gcPolicy now b ↔
      Unprotected (p.othersThan holder) p.honoured p.gcPolicy now b ∧
        (b.addr ∈ p.wouldLease holder addrs → p.gcPolicy.lastOf c < now) := by
  -- The others are as before, and the holder's own lease is the new one.
  have apart : Unprotected (p.leased holder addrs c).holders p.honoured p.gcPolicy now b ↔ _ :=
    unprotected_iff_others (p.leased holder addrs c) holder
  rw [apart, leases_leased, if_pos rfl]
  refine and_congr unprotected_leased_others ?_
  constructor
  · intro own
    exact own _ _ rfl
  · intro own set seen same
    obtain ⟨rfl, rfl⟩ := Prod.mk.inj (Option.some.inj same)
    exact own

/-- A renewal never leases less than before. -/
theorem wouldLease_of_held {set : OrdSet Addr} {seen : Timestamp}
    (held : p.leases[holder]? = some (set, seen)) {a : Addr} (leases : a ∈ set) :
    a ∈ p.wouldLease holder addrs := by
  rw [wouldLease, OrdSet.mem_insertAll, held]
  exact .inr leases

omit [Crypto] in
/-- A lease taken now lasts at least until now. -/
theorem le_lastOf (policy : GcPolicy) (c : Timestamp) : c ≤ policy.lastOf c := by
  have bound := c.toNat_lt
  rw [UInt64.le_iff_toNat_le, GcPolicy.lastOf, toNat_satAdd]
  omega

/-- A sweep takes a blob of the inventory exactly when nothing protects it. -/
theorem mem_wouldDelete_iff (listed : b ∈ p.inventory) :
    b.addr ∈ p.wouldDelete now ↔ Unprotected p.holders p.honoured p.gcPolicy now b := by
  rw [wouldDelete, addr_mem_delete_iff p.nodup_inventory listed]

/--
A sweep takes no more after a grant exactly when it takes no blob of the inventory
that it spared before.
-/
theorem wouldDelete_shrinks_iff :
    (∀ a ∈ (p.leased holder addrs c).wouldDelete now, a ∈ p.wouldDelete now) ↔
    ∀ b ∈ p.inventory, Unprotected (p.leased holder addrs c).holders p.honoured p.gcPolicy now b →
      Unprotected p.holders p.honoured p.gcPolicy now b := by
  -- A blob is deleted exactly if it is unprotected.
  constructor
  · intro shrinks b listed unprotected
    exact (mem_wouldDelete_iff listed).mp (shrinks b.addr ((mem_wouldDelete_iff
      (p := p.leased holder addrs c) listed).mpr unprotected))
  · intro spared a taken
    obtain ⟨b, listed, rfl, unprotected⟩ := mem_delete_iff.mp taken
    have listed : b ∈ p.inventory := listed
    exact (mem_wouldDelete_iff listed).mpr (spared b listed unprotected)

/--
Renewing a lease protects at least as much as before exactly when the lease does not
end earlier for it.

It ends earlier when the clock has gone back since the holder was last heard of. Then it
takes nothing away only if all that was leased is protected otherwise, on the last
moment of the lease as it was.
-/
theorem renewal_protects_iff {disk : Disk} {total : UInt64}
    (taken : (p.takeLease disk holder addrs c).1 = .ok total) :
    (∀ now, c ≤ now → ∀ a ∈ (p.takeLease disk holder addrs c).2.wouldDelete now,
      a ∈ p.wouldDelete now) ↔
      ∀ set seen, p.leases[holder]? = some (set, seen) →
        p.gcPolicy.lastOf seen ≤ p.gcPolicy.lastOf c ∨
          ∀ b ∈ p.inventory, b.addr ∈ set →
            ¬Unprotected (p.othersThan holder) p.honoured p.gcPolicy
              (p.gcPolicy.lastOf seen) b := by
  -- The lease is granted, and a sweep is held against it before and after.
  have granted : (p.takeLease disk holder addrs c).2 = p.leased holder addrs c := by
    rcases takeLease_cases (p := p) disk holder addrs c with ⟨_, e, refused⟩ | ⟨_, granted, _⟩
    · rw [refused] at taken
      cases taken
    · exact granted
  simp only [granted, wouldDelete_shrinks_iff, unprotected_leased_iff,
    unprotected_iff_others p holder]
  cases held : p.leases[holder]? with
  | none =>
    -- A holder not heard of before had nothing to lose.
    simp only [reduceCtorEq, false_imp_iff, implies_true, and_true, iff_true]
    intro now _ b _ unprotected
    exact unprotected.1
  | some entry =>
    obtain ⟨set, seen⟩ := entry
    -- The lease before and the lease after are two keepers, and what others leave
    -- exposed only grows.
    have renewal := Keeper.renewal_keeps_iff (Holder.keeper p.gcPolicy ⟨holder, set, seen⟩)
      (Holder.keeper p.gcPolicy ⟨holder, p.wouldLease holder addrs, c⟩)
      (fun b now => b ∈ p.inventory ∧ Unprotected (p.othersThan holder) p.honoured p.gcPolicy now b)
      (fun b t later after exposed => ⟨exposed.1, exposed.2.stays after⟩)
      (fun b leases => wouldLease_of_held held leases) (le_lastOf p.gcPolicy c)
    simp only [Holder.keeper, Set.mem_ofPred_eq] at renewal
    constructor
    · intro spared set' seen' same
      obtain ⟨rfl, rfl⟩ := Prod.mk.inj (Option.some.inj same)
      have safe := renewal.mp fun now after b exposed lapsed leases =>
        (spared now after b exposed.1 ⟨exposed.2, lapsed⟩).2 _ _ rfl leases
      exact safe.imp_right fun covered b listed leases unprotected =>
        covered b leases ⟨listed, unprotected⟩
    · intro safe now after b listed unprotected
      refine ⟨unprotected.1, ?_⟩
      intro set' seen' same leases
      obtain ⟨rfl, rfl⟩ := Prod.mk.inj (Option.some.inj same)
      refine renewal.mpr ?_ now after b ⟨listed, unprotected.1⟩ unprotected.2 leases
      refine (safe _ _ rfl).imp_right ?_
      intro covered b leases exposed
      exact covered b exposed.1 leases exposed.2

end

/--
In every run from a start, taking a lease leaves no blob to a later sweep that it spared before.
-/
def RenewalsProtect (start : Peer) : Prop :=
  ∀ (ops : List PeerOp) (disk : Disk) (holder : Digest) (addrs : List Addr) (c : Timestamp)
    (total : UInt64),
    let p := peer.run start ops
    (p.takeLease disk holder addrs c).1 = .ok total →
      ∀ now, c ≤ now → ∀ a ∈ (p.takeLease disk holder addrs c).2.wouldDelete now,
        a ∈ p.wouldDelete now

end Peer

end

section

open Concrete

/-- A holder leases a blob, with the clock at some reading. -/
def leasedAt (seen : Timestamp) : List PeerOp :=
  [.putBlob (.ok ()) 0 [1], .takeLease (.ok ()) (digest [9]) [digest [1]] seen]

/-- A lease renewed after the clock was set back ends earlier than it would have ended by itself. -/
theorem set_back_clock_weakens_the_lease :
    ¬(Peer.new .e2ee .content .honest).RenewalsProtect := by
  -- Suppose every renewal protected as much.
  intro protects
  -- The renewal at zero ends before a sweep that the lease as it was would still have outlasted.
  have swept :
    digest [1] ∈ ((peer.run (.new .e2ee .content .honest) (leasedAt 10000000)).takeLease (.ok ())
        (digest [9]) [digest [1]] 0).2.wouldDelete 15000000 ∧
      digest [1] ∉ (peer.run (.new .e2ee .content .honest) (leasedAt 10000000)).wouldDelete
        15000000 := by
    decide
  exact swept.2 (protects (leasedAt 10000000) (.ok ()) (digest [9]) [digest [1]] 0 1 (by decide)
    15000000 (by decide) _ swept.1)

/-- With a clock that went on, the blob is spared to the last moment of the lease as it was. -/
theorem later_renewal_protects :
    (peer.run (.new .e2ee .content .honest) (leasedAt 10000000)).wouldDelete 20368000 = [] ∧
      ((peer.run (.new .e2ee .content .honest) (leasedAt 10000000)).takeLease (.ok ()) (digest [9])
        [digest [1]]
        20000000).2.wouldDelete 20368000 = [] := by
  -- The theorem asks for the last time a lease was seen, which is evaluated.
  have seen : ((peer.run (.new .e2ee .content .honest) (leasedAt 10000000)).leases[digest [9]]?).map
    Prod.snd = some 10000000 := by
    decide
  have taken : ((peer.run (.new .e2ee .content .honest) (leasedAt 10000000)).takeLease (.ok ())
      (digest [9]) [digest [1]] 20000000).1 = .ok 1 := by
    decide
  have spared :
      (peer.run (.new .e2ee .content .honest) (leasedAt 10000000)).wouldDelete 20368000 = [] := by
    decide
  have protects := (Peer.renewal_protects_iff taken).mpr ?_
  · refine ⟨spared, List.eq_nil_iff_forall_not_mem.mpr ?_⟩
    intro a swept
    have before := protects 20368000 (by decide) a swept
    rw [spared] at before
    cases before
  · -- The renewed lease ends later than the one before.
    intro set last held
    rw [held, Option.map_some, Option.some.injEq] at seen
    have seen : last = 10000000 := seen
    left
    rw [seen]
    decide

end

end NasTools
