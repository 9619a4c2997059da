import NasTools.Model.Lease.LeaseGC
import NasTools.Proofs.Collector

/-!
The peer carries out the specification of its collector: what it plans and warns of is
what the specification says.
-/

namespace NasTools

open scoped Words

/-- The thresholds a policy sets; storing and proving a blob both touch its file. -/
def GcPolicy.constants (policy : GcPolicy) : LeaseGC.Constants :=
  ⟨policy.grace.toNat, policy.leaseExpiry.toNat, policy.notice.toNat, true⟩

section

variable {h : Holder} {now : Timestamp} {policy : GcPolicy}

/-- A holder is active exactly up to its expiry. -/
theorem status_eq_active_iff :
    h.status now policy = .active ↔ now.toNat - h.lastSeen.toNat ≤ policy.leaseExpiry.toNat := by
  -- The subtraction stops at zero in both, so the two orders agree.
  unfold Holder.status
  simp only [UInt64.le_iff_toNat_le, Timestamp.saturatingSince, toNat_satSub]
  split
  · rename_i active
    exact iff_of_true rfl active
  · rename_i lapsed
    refine iff_of_false ?_ lapsed
    split <;> simp

/-- A holder is on notice exactly from its expiry up to the end of the notice. -/
theorem status_eq_expiring_iff : h.status now policy = .expiring ↔
    policy.leaseExpiry.toNat < now.toNat - h.lastSeen.toNat ∧
      now.toNat - h.lastSeen.toNat ≤ policy.leaseExpiry.toNat + policy.notice.toNat := by
  -- All are 64-bit numbers.
  have bound := now.toNat_lt
  unfold Holder.status
  simp only [UInt64.le_iff_toNat_le, Timestamp.saturatingSince, toNat_satSub, toNat_satAdd]
  -- A sum that saturates is at least as large as any idle time.
  split
  · simp only [reduceCtorEq, false_iff]
    omega
  split
  · simp only [true_iff]
    omega
  · simp only [reduceCtorEq, false_iff]
    omega

end

section

variable [Crypto]

/-- A peer, and what its clock read last. -/
def clockedPeer : Machine (Timestamp × Peer) PeerOp (Except PeerError Unit) where
  step x op := ((peer.step x.2 op).1, (op.clock.getD x.1, (peer.step x.2 op).2))

/-- The clock does not go back, and a sweep is made with the peer's own holders and policy. -/
def Punctual (x : Timestamp × Peer) (op : PeerOp) : Prop :=
  (∀ now, op.clock = some now → x.1 ≤ now) ∧
    ∀ disk holders policy now dryRun, op = .sweep disk holders policy now dryRun →
      holders = x.2.holders ∧ policy = x.2.gcPolicy

/-- What the specification makes of an honest peer at a time. -/
structure Shows (policy : GcPolicy) (x : Timestamp × Peer)
    (s : LeaseGC.State Addr Digest) : Prop where
  honest : x.2.hostility = .honest
  configured : x.2.gcPolicy = policy
  stored : ∀ a : Addr, a ∈ s.stored ↔ ∃ file, x.2.blobs.files[a]? = some file
  age : ∀ (a : Addr) file, x.2.blobs.files[a]? = some file →
    file.modified ≤ x.1 ∧ s.age a = min (x.1.toNat - file.modified.toNat) policy.constants.grace
  leases : ∀ (h : Digest) (a : Addr), a ∈ s.leases h ↔
    ∃ set seen, x.2.leases[h]? = some (set, seen) ∧ a ∈ set
  idle : ∀ (h : Digest) set seen, x.2.leases[h]? = some (set, seen) →
    seen ≤ x.1 ∧ s.idle h = min (x.1.toNat - seen.toNat) policy.constants.cap
  floor : ∀ a, a ∈ s.floor ↔ a ∈ x.2.retention
  typeOK : LeaseGC.TypeOK policy.constants s
  agree : LeaseGC.ClocksAgree s

namespace Shows

variable {policy : GcPolicy} {now : Timestamp} {p p' : Peer} {s : LeaseGC.State Addr Digest}

/-- What changes none of the files, leases and floor shows the same. -/
theorem same (shows : Shows policy (now, p) s) (hostility : p'.hostility = p.hostility)
    (gcPolicy : p'.gcPolicy = p.gcPolicy) (blobs : p'.blobs = p.blobs)
    (leases : p'.leases = p.leases) (retention : p'.retention = p.retention) :
      Shows policy (now, p') s where
  -- Every clause is about one of the parts that are the same.
  honest := hostility.trans shows.honest
  configured := gcPolicy.trans shows.configured
  stored := by rw [blobs]; exact shows.stored
  age := by rw [blobs]; exact shows.age
  leases := by rw [leases]; exact shows.leases
  idle := by rw [leases]; exact shows.idle
  floor := by rw [retention]; exact shows.floor
  typeOK := shows.typeOK
  agree := shows.agree

/-- As the clock goes on, so many ticks pass. -/
theorem wait (shows : Shows policy (now, p) s) {later : Timestamp} (after : now ≤ later) :
    Shows policy (later,
      p) ((LeaseGC.State.tick policy.constants)^[later.toNat - now.toNat] s) := by
  -- Waiting adds the same time to every age, and nothing else changes.
  have waited := LeaseGC.waited_iterate shows.typeOK (later.toNat - now.toNat)
  rw [UInt64.le_iff_toNat_le] at after
  refine ⟨shows.honest, shows.configured, ?_, ?_, ?_, ?_, ?_, waited.typeOK,
    waited.agree shows.agree⟩
  · intro a
    rw [waited.stored]
    exact shows.stored a
  · intro a file filed
    obtain ⟨past, age⟩ := shows.age a file filed
    simp only [UInt64.le_iff_toNat_le] at past ⊢
    refine ⟨past.trans after, ?_⟩
    rw [waited.age, age]
    dsimp only
    omega
  · intro h a
    rw [waited.leases]
    exact shows.leases h a
  · intro h set seen held
    obtain ⟨past, idle⟩ := shows.idle h set seen held
    simp only [UInt64.le_iff_toNat_le] at past ⊢
    refine ⟨past.trans after, ?_⟩
    rw [waited.idle, idle]
    dsimp only
    omega
  · intro a
    rw [waited.floor]
    exact shows.floor a

/-- A blob is young exactly when its file is. -/
theorem young_iff (shows : Shows policy (now, p) s) {a : Addr} {file : BlobFile}
    (filed : p.blobs.files[a]? = some file) :
    s.Young policy.constants a ↔ ¬policy.grace ≤ now.saturatingSince file.modified := by
  rw [LeaseGC.State.Young, (shows.age a file filed).2, UInt64.le_iff_toNat_le,
    Timestamp.saturatingSince, toNat_satSub]
  simp only [GcPolicy.constants]
  omega

/-- The leases on a blob are those of the holders the collector goes through. -/
theorem exists_lease_iff (shows : Shows policy (now, p) s) {a : Addr} (counts : ℕ → Prop)
    {status : Holder → Prop}
    (same : ∀ h ∈ p.holders, status h ↔ counts (s.idle h.id)) :
    (∃ h, a ∈ s.leases h ∧ counts (s.idle h)) ↔ ∃ h ∈ p.holders, a ∈ h.set ∧ status h := by
  -- A holder's leases are listed with it, and its status counts its idle time.
  constructor
  · intro found
    obtain ⟨h, leased, counted⟩ := found
    obtain ⟨set, seen, held, inside⟩ := (shows.leases h a).mp leased
    have listed : ⟨h, set, seen⟩ ∈ p.holders :=
      List.mem_map.mpr ⟨(h, set, seen),
        Std.ExtTreeMap.mem_toList_iff_getElem?_eq_some.mpr held, rfl⟩
    exact ⟨⟨h, set, seen⟩, listed, inside, (same _ listed).mpr counted⟩
  · intro found
    obtain ⟨h, listed, inside, stands⟩ := found
    have counted := (same h listed).mp stands
    obtain ⟨⟨id, set, seen⟩, member, rfl⟩ := List.mem_map.mp listed
    have held := Std.ExtTreeMap.mem_toList_iff_getElem?_eq_some.mp member
    exact ⟨id, (shows.leases id a).mpr ⟨set, seen, held, inside⟩, counted⟩

/-- The idle time of a holder the collector goes through. -/
theorem idle_of_mem (shows : Shows policy (now, p) s) {h : Holder} (listed : h ∈ p.holders) :
    s.idle h.id = min (now.toNat - h.lastSeen.toNat) policy.constants.cap := by
  obtain ⟨⟨id, set, seen⟩, member, rfl⟩ := List.mem_map.mp listed
  exact (shows.idle id set seen (Std.ExtTreeMap.mem_toList_iff_getElem?_eq_some.mp member)).2

/-- A live lease is one of an active holder. -/
theorem liveLease_iff (shows : Shows policy (now, p) s) {a : Addr} :
    s.LiveLease policy.constants a ↔ ∃ h ∈ p.holders, a ∈ h.set ∧
      h.status now policy = .active := by
  -- Live is at most the lease's term, and that is what active means.
  refine shows.exists_lease_iff (fun idle => idle ≤ policy.constants.expiry) ?_
  intro h listed
  rw [status_eq_active_iff, shows.idle_of_mem listed]
  simp only [GcPolicy.constants, LeaseGC.Constants.cap, LeaseGC.Constants.lapse]
  omega

/-- A lapsed lease is one of a holder on notice. -/
theorem lapsedLease_iff (shows : Shows policy (now, p) s) {a : Addr} :
    s.LapsedLease policy.constants a ↔ ∃ h ∈ p.holders, a ∈ h.set ∧
      h.status now policy = .expiring := by
  -- Lapsed is past the term and within the notice, and that is what expiring means.
  refine shows.exists_lease_iff
    (fun idle => policy.constants.expiry < idle ∧ idle ≤ policy.constants.lapse) ?_
  intro h listed
  rw [status_eq_expiring_iff, shows.idle_of_mem listed]
  simp only [GcPolicy.constants, LeaseGC.Constants.cap, LeaseGC.Constants.lapse]
  omega

/-- The files of a peer are its inventory. -/
theorem mem_inventory_iff {b : BlobInfo} :
    b ∈ p.inventory ↔ ∃ file, p.blobs.files[b.addr]? = some file ∧
    b = ⟨b.addr, UInt64.ofNat file.content.length, file.modified⟩ := by
  -- The inventory lists every file once, with its size and its time.
  constructor
  · intro listed
    obtain ⟨⟨a, file⟩, member, rfl⟩ := List.mem_map.mp listed
    exact ⟨file, Std.ExtTreeMap.mem_toList_iff_getElem?_eq_some.mp member, rfl⟩
  · intro found
    obtain ⟨file, filed, is⟩ := found
    rw [is]
    exact List.mem_map.mpr ⟨(b.addr, file),
      Std.ExtTreeMap.mem_toList_iff_getElem?_eq_some.mpr filed, rfl⟩

/-- No holder of a blob has a status exactly when nobody leases it under that status. -/
theorem forall_status_iff {a : Addr} {status : HolderStatus} :
    (∀ h ∈ p.holders, a ∈ h.set → h.status now policy ≠ status) ↔
      ¬∃ h ∈ p.holders, a ∈ h.set ∧ h.status now policy = status := by
  simp only [not_exists, not_and, ne_eq]

/-- What the specification lets a sweep take is what the peer's plan takes. -/
theorem mem_doomed_iff (shows : Shows policy (now, p) s) {a : Addr} :
    a ∈ s.doomed policy.constants ↔
    a ∈ (planSweep p.inventory p.holders p.retention policy now).delete := by
  -- The specification's five conditions are those of the plan, one by one.
  rw [mem_delete_iff]
  simp only [unprotected_iff, forall_expired_iff, forall_status_iff]
  constructor
  · intro doomed
    obtain ⟨stored, unfloored, old, unleased, unlapsed⟩ := doomed
    obtain ⟨file, filed⟩ := (shows.stored a).mp stored
    refine ⟨⟨a, .ofNat file.content.length, file.modified⟩,
      mem_inventory_iff.mpr ⟨file, filed, rfl⟩, rfl, ?_, ?_, ?_, ?_⟩
    · exact fun retained => unfloored ((shows.floor a).mpr retained)
    · exact not_not.mp fun young => old ((shows.young_iff filed).mpr young)
    · exact fun leased => unleased (shows.liveLease_iff.mpr leased)
    · exact fun leased => unlapsed (shows.lapsedLease_iff.mpr leased)
  -- The other way the same conditions are read back.
  · intro taken
    obtain ⟨b, listed, rfl, unretained, old, unleased, unlapsed⟩ := taken
    obtain ⟨file, filed, is⟩ := mem_inventory_iff.mp listed
    rw [is] at old
    refine ⟨(shows.stored _).mpr ⟨file, filed⟩, ?_, ?_, ?_, ?_⟩
    · exact fun floored => unretained ((shows.floor _).mp floored)
    · exact fun young => (shows.young_iff filed).mp young old
    · exact fun leased => unleased (shows.liveLease_iff.mp leased)
    · exact fun leased => unlapsed (shows.lapsedLease_iff.mp leased)

/-- What the specification warns a holder of is what the peer tells it. -/
theorem mem_warned_iff (shows : Shows policy (now, p) s) {h : Digest} {a : Addr} :
    a ∈ s.warned policy.constants h ↔ a ∈ p.sweepWarnings h now := by
  -- What is warned about is at risk and leased by the holder, in both.
  rw [Peer.sweepWarnings, shows.configured, mem_warnings_iff]
  simp only [atRisk_iff, forall_status_iff]
  constructor
  · intro warned
    obtain ⟨stored, leased, unfloored, old, unleased⟩ := warned
    obtain ⟨file, filed⟩ := (shows.stored a).mp stored
    obtain ⟨set, seen, held, inside⟩ := (shows.leases h a).mp leased
    refine ⟨⟨h, set, seen⟩, ?_, rfl, ⟨a, .ofNat file.content.length, file.modified⟩,
      mem_inventory_iff.mpr ⟨file, filed, rfl⟩, rfl, inside, ?_, ?_, ?_⟩
    · exact List.mem_map.mpr ⟨(h, set, seen),
        Std.ExtTreeMap.mem_toList_iff_getElem?_eq_some.mpr held, rfl⟩
    · exact fun retained => unfloored ((shows.floor a).mpr retained)
    · exact not_not.mp fun young => old ((shows.young_iff filed).mpr young)
    · exact fun leased => unleased (shows.liveLease_iff.mpr leased)
  · intro told
    obtain ⟨holder, listed, rfl, b, inInventory, rfl, inside, unretained, old, unleased⟩ := told
    obtain ⟨⟨id, set, seen⟩, member, rfl⟩ := List.mem_map.mp listed
    have held := Std.ExtTreeMap.mem_toList_iff_getElem?_eq_some.mp member
    obtain ⟨file, filed, is⟩ := mem_inventory_iff.mp inInventory
    rw [is] at old
    refine ⟨(shows.stored _).mpr ⟨file, filed⟩, (shows.leases id _).mpr ⟨set, seen, held, inside⟩,
      ?_, ?_, ?_⟩
    · exact fun floored => unretained ((shows.floor _).mp floored)
    · exact fun young => (shows.young_iff filed).mp young old
    · exact fun leased => unleased (shows.liveLease_iff.mp leased)

/-- The steps a peer may take, as the policy sets their thresholds. -/
abbrev system (policy : GcPolicy) : Spec (LeaseGC.State Addr Digest) :=
  LeaseGC.specOfPeer policy.constants

/-- Touching a blob is an upload, which is nothing new where it happens twice at one time. -/
theorem touch (shows : Shows policy (now, p) s) (kept : Peer.OnlyIn .blobs p p') {addr : Addr}
    {content : Bytes} (touched : Peer.Touched p.blobs p'.blobs addr now content) :
    ∃ t, (system policy).Steps s t ∧ Shows policy (now, p') t := by
  -- The file is there with the new time, and all others as before.
  have files : p'.blobs.files = p.blobs.files.insert addr ⟨content, now⟩ := by rw [touched.files]
  have stored (a : Addr) : (∃ file, p'.blobs.files[a]? = some file) ↔ a = addr ∨ a ∈ s.stored := by
    rw [files, shows.stored a, Std.ExtTreeMap.getElem?_insert]
    by_cases here : addr = a
    · simp [here]
    · simp [here, Ne.symm here]
  -- What is there besides was there before, and no older for it.
  have age (t : LeaseGC.State Addr Digest) (zero : t.age addr = 0)
    (others : ∀ a, a ≠ addr → t.age a = s.age a) (a : Addr)
      (file : BlobFile) (filed : p'.blobs.files[a]? = some file) :
      file.modified ≤ now ∧
        t.age a = min (now.toNat - file.modified.toNat) policy.constants.grace := by
    rw [files, Std.ExtTreeMap.getElem?_insert] at filed
    by_cases here : addr = a
    · subst here
      simp only [Std.ReflCmp.compare_self, ↓reduceIte, Option.some.injEq] at filed
      subst filed
      simp [zero]
    · rw [if_neg (fun equal => here (Std.LawfulEqCmp.eq_of_compare equal))] at filed
      rw [others a (Ne.symm here)]
      exact shows.age a file filed
  have frame {t : LeaseGC.State Addr Digest} (leases : t.leases = s.leases) (idle : t.idle = s.idle)
      (floor : t.floor = s.floor) (insert : ∀ a, a ∈ t.stored ↔ a = addr ∨ a ∈ s.stored)
        (zero : t.age addr = 0)
      (others : ∀ a, a ≠ addr → t.age a = s.age a) (typeOK : LeaseGC.TypeOK policy.constants t)
      (agree : LeaseGC.ClocksAgree t) : Shows policy (now, p') t := by
    refine ⟨kept.hostility.trans shows.honest, kept.gcPolicy.trans shows.configured, ?_,
      age t zero others, ?_, ?_, ?_, typeOK, agree⟩
    · intro a
      rw [insert a, stored a]
    · rw [leases, kept.leases nofun]
      exact shows.leases
    · rw [idle, kept.leases nofun]
      exact shows.idle
    · rw [floor, kept.retention nofun]
      exact shows.floor
  by_cases fresh : addr ∈ s.stored ∧ s.offered addr = 0
  · refine ⟨s, .refl s, frame rfl rfl rfl ?_ ?_ (fun _ _ => rfl) shows.typeOK shows.agree⟩
    · intro a
      constructor
      · exact .inr
      · rintro (rfl | member)
        · exact fresh.1
        · exact member
    · rw [show s.age = s.offered from shows.agree]
      exact fresh.2
  · have next : LeaseGC.NextOfPeer policy.constants s (s.upload policy.constants addr) :=
      .specified (.upload s addr fresh)
    refine ⟨_, .single next, frame rfl rfl rfl ?_ ?_ ?_ (shows.typeOK.next next)
      (shows.agree.next rfl next)⟩
    · intro a
      exact Set.mem_insert_iff
    · simp [LeaseGC.State.upload, GcPolicy.constants]
    · intro a other
      simp [LeaseGC.State.upload, GcPolicy.constants, other]

/-- A peer that lost some files and nothing else shows what is left. -/
theorem thin (shows : Shows policy (now, p) s) (kept : Peer.OnlyIn .blobs p p')
    (thinned : Peer.Thinned p p') {t : LeaseGC.State Addr Digest}
    (next : LeaseGC.NextOfPeer policy.constants s t) (stored : ∀ a : Addr, a ∈ t.stored ↔
      a ∈ s.stored ∧ p'.blobs.files[a]? ≠ none) (age : t.age = s.age)
    (leases : t.leases = s.leases) (idle : t.idle = s.idle) (floor : t.floor = s.floor) :
    Shows policy (now, p') t := by
  -- Some files are gone and nothing else has changed.
  refine ⟨kept.hostility.trans shows.honest, kept.gcPolicy.trans shows.configured, ?_,
    ?_, ?_, ?_, ?_, shows.typeOK.next next, shows.agree.next rfl next⟩
  · intro a
    rw [stored a, shows.stored a]
    rcases thinned.files a with same | gone
    · rw [same]
      cases p.blobs.files[a]? <;> simp
    · rw [gone]
      simp
  · intro a file filed
    rw [age]
    rcases thinned.files a with same | gone
    · exact shows.age a file (same ▸ filed)
    · rw [gone] at filed
      cases filed
  · rw [leases, kept.leases nofun]
    exact shows.leases
  · rw [idle, kept.leases nofun]
    exact shows.idle
  · rw [floor, kept.retention nofun]
    exact shows.floor

/-- A holder whose leases were written anew at this time. -/
theorem file (shows : Shows policy (now, p) s) (kept : Peer.OnlyIn .leases p p') {holder : Digest}
    {set : OrdSet Addr} (leases : p'.leases = p.leases.insert holder (set, now))
    {t : LeaseGC.State Addr Digest} (next : LeaseGC.NextOfPeer policy.constants s t)
    (stored : t.stored = s.stored) (age : t.age = s.age) (floor : t.floor = s.floor)
    (own : ∀ a, a ∈ t.leases holder ↔ a ∈ set) (heard : t.idle holder = 0)
    (others : ∀ h, h ≠ holder → t.leases h = s.leases h ∧ t.idle h = s.idle h) :
    Shows policy (now, p') t := by
  -- One holder's leases are filed anew, and it has just been heard of.
  have lookup (h : Digest) (other : h ≠ holder) : p'.leases[h]? = p.leases[h]? := by
    rw [leases, Std.ExtTreeMap.getElem?_insert,
      if_neg (fun equal => other (Std.LawfulEqCmp.eq_of_compare equal).symm)]
  have here : p'.leases[holder]? = some (set, now) := by
    rw [leases, Std.ExtTreeMap.getElem?_insert_self]
  refine ⟨kept.hostility.trans shows.honest, kept.gcPolicy.trans shows.configured, ?_,
    ?_, ?_, ?_, ?_, shows.typeOK.next next, shows.agree.next rfl next⟩
  · rw [stored, kept.blobs nofun]
    exact shows.stored
  · rw [age, kept.blobs nofun]
    exact shows.age
  · intro h a
    by_cases same : h = holder
    · subst same
      rw [own, here]
      simp
    · rw [(others h same).1, lookup h same]
      exact shows.leases h a
  · intro h found seen held
    by_cases same : h = holder
    · subst same
      rw [here] at held
      obtain ⟨rfl, rfl⟩ := Prod.mk.inj (Option.some.inj held)
      simp [heard]
    · rw [lookup h same] at held
      rw [(others h same).2]
      exact shows.idle h found seen held
  · rw [floor, kept.retention nofun]
    exact shows.floor

/-- A floor that was written anew. -/
theorem refloor (shows : Shows policy (now, p) s) (kept : Peer.OnlyIn .retention p p')
    {floor : Set Addr} (same : ∀ a, a ∈ floor ↔ a ∈ p'.retention) :
    Shows policy (now, p') { s with floor } where
  -- Only the floor changes, and it is the peer's own.
  honest := kept.hostility.trans shows.honest
  configured := kept.gcPolicy.trans shows.configured
  stored := by rw [kept.blobs nofun]; exact shows.stored
  age := by rw [kept.blobs nofun]; exact shows.age
  leases := by rw [kept.leases nofun]; exact shows.leases
  idle := by rw [kept.leases nofun]; exact shows.idle
  floor := same
  typeOK := ⟨shows.typeOK.age, shows.typeOK.offered, shows.typeOK.idle⟩
  agree := shows.agree

/-- A lease taken is a lease taken in the specification, and one refused is nothing. -/
theorem take (shows : Shows policy (now, p) s) (disk : Disk) (holder : Digest) (addrs : List Addr) :
    ∃ t, (system policy).Steps s t ∧
      Shows policy (now, (p.takeLease disk holder addrs now).2) t := by
  -- A lease is granted for blobs that are there, so the specification lets it be taken.
  have kept := Peer.step_onlyIn (p := p) (.takeLease disk holder addrs now)
  rcases Peer.takeLease_cases (p := p) disk holder addrs now with ⟨_, e, refused⟩ |
    ⟨granted, taken, _⟩
  · rw [refused]
    exact ⟨s, .refl s, shows⟩
  have held : {a | a ∈ addrs} ⊆ s.stored := by
    intro a listed
    obtain ⟨file, filed⟩ := Option.isSome_iff_exists.mp
      ((Std.ExtTreeMap.contains_eq_isSome_getElem? (t := p.blobs.files)).symm.trans
        (granted.present a listed))
    exact (shows.stored a).mpr ⟨file, filed⟩
  refine ⟨_, .single (.specified (.takeLease s holder _ held)), ?_⟩
  -- The holder now has what it had and what it asked for.
  refine shows.file kept (congrArg Peer.leases taken) (.specified (.takeLease s holder _ held)) rfl
    rfl rfl ?_ ?_ ?_
  · intro a
    rw [Peer.wouldLease, OrdSet.mem_insertAll]
    simp only [LeaseGC.State.takeLease, Function.update_self, Set.mem_union, shows.leases holder a,
      Set.mem_ofPred_eq]
    cases p.leases[holder]? with
    | none => simp
    | some pair =>
      obtain ⟨set, seen⟩ := pair
      simp [or_comm]
  · simp [LeaseGC.State.takeLease]
  · intro h other
    simp [LeaseGC.State.takeLease, other]

/-- A release of a holder on file is a release in the specification, and any other is nothing. -/
theorem release (shows : Shows policy (now, p) s) (disk : Disk) (holder : Digest)
    (addrs : List Addr) :
    ∃ t, (system policy).Steps s t ∧
      Shows policy (now, (p.releaseLease disk holder addrs now).2) t := by
  -- A holder that is known loses the addresses, and an unknown one has nothing to lose.
  have kept := Peer.step_onlyIn (p := p) (.releaseLease disk holder addrs now)
  have stepped : (p.releaseLease disk holder addrs now).2 = p.released holder addrs now := rfl
  cases entry : p.leases[holder]? with
  | none =>
    rw [stepped, Peer.released, entry]
    exact ⟨s, .refl s, shows⟩
  | some pair =>
    obtain ⟨set, seen⟩ := pair
    have leases : (p.releaseLease disk holder addrs now).2.leases =
        p.leases.insert holder (addrs.foldl (fun set a => set.erase a) set, now) := by
      rw [stepped, Peer.released, entry]
    refine ⟨_, .single (.release s holder {a | a ∈ addrs}), ?_⟩
    refine shows.file kept leases (.release s holder _) rfl rfl rfl ?_ ?_ ?_
    · intro a
      rw [OrdSet.mem_eraseAll]
      simp [LeaseGC.State.release, shows.leases holder a, entry]
    · simp [LeaseGC.State.release]
    · intro h other
      simp [LeaseGC.State.release, other]

/-- What the owner removes is a blob outside the floor. -/
theorem remove (shows : Shows policy (now, p) s) (disk : Disk) (addr : Addr) :
    ∃ t, (system policy).Steps s t ∧ Shows policy (now, (p.deleteBlob disk addr).2) t := by
  -- A blob is removed only off the floor, and then its file is gone.
  have kept := Peer.step_onlyIn (p := p) (.deleteBlob disk addr)
  have thinned : Peer.Thinned p (p.deleteBlob disk addr).2 :=
    ⟨(Peer.deleteBlob_files disk addr addr).1, fun a => (Peer.deleteBlob_files disk addr a).2⟩
  have honest : p.hostility = .honest := shows.honest
  by_cases held : addr ∈ p.retention
  · have same : (p.deleteBlob disk addr).2 = p := by
      simp [Peer.deleteBlob, Peer.retains, honest, Hostility.honest, held]
    rw [same]
    exact ⟨s, .refl s, shows⟩
  cases disk with
  | error e =>
    have same : (p.deleteBlob (.error e) addr).2 = p := by
      simp [Peer.deleteBlob, Peer.retains, BlobStore.remove, held]
    rw [same]
    exact ⟨s, .refl s, shows⟩
  | ok u =>
    have files : (p.deleteBlob (.ok u) addr).2.blobs.files = p.blobs.files.erase addr := by
      simp [Peer.deleteBlob, Peer.retains, BlobStore.remove, held]
    have free : addr ∉ s.floor := fun floored => held ((shows.floor addr).mp floored)
    refine ⟨_, .single (.remove s addr free), shows.thin kept thinned (.remove s addr free) ?_ rfl
      rfl rfl rfl⟩
    intro a
    show _ ↔ _ ∧ (p.deleteBlob (.ok u) addr).2.blobs.files[a]? ≠ none
    rw [files, Std.ExtTreeMap.getElem?_erase]
    by_cases here : a = addr
    · subst here
      simp [LeaseGC.State.remove]
    · have other : compare addr a ≠ .eq :=
        fun equal => here (Std.LawfulEqCmp.eq_of_compare equal).symm
      simp only [LeaseGC.State.remove, Set.mem_sdiff, Set.mem_singleton_iff, here,
        not_false_eq_true, and_true, other, if_false, iff_self_and]
      intro stored gone
      obtain ⟨file, filed⟩ := (shows.stored a).mp stored
      rw [gone] at filed
      cases filed

/-- A sweep takes some of what the specification lets it take: all of it, unless the disk fails. -/
theorem sweep (shows : Shows policy (now, p) s) (disk : Addr → Disk) (dryRun : Bool) :
    ∃ t, (system policy).Steps s t ∧
      Shows policy (now, (p.sweep disk p.holders p.gcPolicy now dryRun).2) t := by
  -- The plan and what was taken are held against what the specification takes.
  have kept := Peer.step_onlyIn (p := p) (.sweep disk p.holders p.gcPolicy now dryRun)
  have thinned := Peer.sweep_thinned (p := p) disk p.holders p.gcPolicy now dryRun
  have doomed :
    {a | a ∈ s.stored ∧ (p.sweep disk p.holders p.gcPolicy now dryRun).2.blobs.files[a]? = none} ⊆
      s.doomed policy.constants := by
    intro a gone
    rw [shows.mem_doomed_iff]
    by_contra spared
    rw [← shows.configured] at spared
    -- What the plan spares is still there.
    have present :=
      (Peer.sweep_kept shows.honest disk p.holders p.gcPolicy now dryRun (.inr spared)).has
    obtain ⟨file, filed⟩ := (shows.stored a).mp gone.1
    have absent :=
      present (by simp [BlobStore.has, Std.ExtTreeMap.contains_eq_isSome_getElem?, filed])
    rw [BlobStore.has, Std.ExtTreeMap.contains_eq_isSome_getElem?, gone.2] at absent
    cases absent
  refine ⟨_, .single (.cutShort s _ doomed), shows.thin kept thinned (.cutShort s _ doomed) ?_ rfl
    rfl rfl rfl⟩
  intro a
  simp only [LeaseGC.State.sweep, Set.mem_sdiff, Set.mem_ofPred_eq, not_and, ne_eq]
  exact and_congr_right fun stored => ⟨fun left => left stored, fun left _ => left⟩

/-- Whatever is done to a peer at this time, the specification has steps for. -/
theorem act (shows : Shows policy (now, p) s) (op : PeerOp)
    (clock : ∀ at_, op.clock = some at_ → at_ = now) (own : ∀ disk holders gc at_ dryRun,
      op = .sweep disk holders gc at_ dryRun → holders = p.holders ∧ gc = p.gcPolicy) :
    ∃ t, (system policy).Steps s t ∧ Shows policy (now, (peer.step p op).2) t := by
  -- One kind of operation after the other.
  have kept := Peer.step_onlyIn (p := p) op
  cases op with
  | putBlob disk at_ data =>
    obtain rfl := clock at_ rfl
    rcases Peer.put_touches p.blobs disk at_ data with ⟨_, unchanged⟩ | ⟨_, content, touched, _⟩
    · exact ⟨s, .refl s, shows.same kept.hostility kept.gcPolicy unchanged (kept.leases nofun)
        (kept.retention nofun)⟩
    · exact shows.touch kept touched
  | prove disk at_ addr nonce =>
    obtain rfl := clock at_ rfl
    rcases Peer.prove_touches p.blobs disk at_ addr nonce with ⟨_, unchanged⟩ |
      ⟨_, content, _, touched⟩
    · exact ⟨s, .refl s, shows.same kept.hostility kept.gcPolicy unchanged (kept.leases nofun)
        (kept.retention nofun)⟩
    · exact shows.touch kept touched
  | deleteBlob disk addr => exact shows.remove disk addr
  | sweep disk holders gc at_ dryRun =>
    obtain rfl := clock at_ rfl
    obtain ⟨rfl, rfl⟩ := own disk holders gc at_ dryRun rfl
    exact shows.sweep disk dryRun
  | takeLease disk holder addrs at_ =>
    obtain rfl := clock at_ rfl
    exact shows.take disk holder addrs
  | releaseLease disk holder addrs at_ =>
    obtain rfl := clock at_ rfl
    exact shows.release disk holder addrs
  | extendRetention disk addrs =>
    refine ⟨_, LeaseGC.steps_of_peer (LeaseGC.steps_retain addrs s), shows.refloor kept ?_⟩
    intro a
    exact (or_congr_right (shows.floor a)).trans OrdSet.mem_insertAll.symm
  | publishRetention disk proposed =>
    rcases Peer.publishRetention_spec (p := p) disk proposed with ⟨_, e, refused⟩ |
      ⟨covers, accepted⟩
    · have same : (peer.step p (.publishRetention disk proposed)).2 = p := congrArg Prod.snd refused
      rw [same]
      exact ⟨s, .refl s, shows⟩
    · -- An honest peer only takes a floor that covers the one it has.
      have covers : p.Covers proposed := by
        have honest : p.hostility = .honest := shows.honest
        rcases covers with covers | ignores
        · exact covers
        · rw [honest] at ignores
          cases ignores
      refine ⟨_, LeaseGC.steps_of_peer (LeaseGC.steps_retain proposed s), shows.refloor kept ?_⟩
      intro a
      have floor : (peer.step p (.publishRetention disk proposed)).2.retention =
          proposed.foldl (fun floor a => floor.insert a) ∅ :=
            congrArg (fun result => result.2.retention) accepted
      rw [floor, OrdSet.mem_insertAll]
      simp only [Set.mem_union, Set.mem_ofPred_eq, shows.floor a, Std.ExtTreeSet.not_mem_empty,
        or_false]
      exact or_iff_left_of_imp (covers a)
  | forgetRetention disk addrs proof =>
    rcases Peer.forgetRetention_exact (p := p) disk addrs proof with ⟨_, e, refused⟩ | ⟨_, accepted⟩
    · have same : (peer.step p (.forgetRetention disk addrs proof)).2 = p :=
        congrArg Prod.snd refused
      rw [same]
      exact ⟨s, .refl s, shows⟩
    · refine ⟨_, LeaseGC.steps_of_peer (LeaseGC.steps_forget addrs s), shows.refloor kept ?_⟩
      intro a
      have floor : (peer.step p (.forgetRetention disk addrs proof)).2.retention =
          addrs.foldl (fun floor a => floor.erase a) p.retention :=
            congrArg (fun result => result.2.retention) accepted
      rw [floor, OrdSet.mem_eraseAll, Set.mem_sdiff, shows.floor a]
      rfl
  -- The others touch nothing the collector reads.
  | _ =>
    exact ⟨s, .refl s, shows.same kept.hostility kept.gcPolicy (kept.blobs nofun)
      (kept.leases nofun) (kept.retention nofun)⟩

/-- An honest peer carries the specification out, one operation after the other. -/
theorem carriedOut (policy : GcPolicy) :
    (system policy).CarriedOut clockedPeer Punctual (Shows policy) := by
  -- An operation comes with a clock or without one.
  rintro ⟨now, p⟩ op s ⟨ahead, own⟩ shows
  cases clock : op.clock with
  | none =>
    obtain ⟨t, steps, after⟩ := shows.act op (by simp [clock]) own
    exact ⟨t, steps, by simpa [clockedPeer, clock] using after⟩
  | some later =>
    -- First the time passes, and then the peer acts.
    have waited := shows.wait (ahead later clock)
    obtain ⟨t, steps, after⟩ := waited.act op (by simp [clock]) own
    exact ⟨t, (LeaseGC.steps_of_peer (LeaseGC.steps_iterate s _)).trans
      steps, by simpa [clockedPeer, clock] using after⟩

/-- A peer that has just been opened holds nothing, whatever its clock reads. -/
theorem opened (mode : Mode) (addressing : Addressing) (authority : Authority)
    (quorum : QuorumPolicy) (policy : GcPolicy) (witnessOnly : Bool) (now : Timestamp) :
    Shows policy (now, Peer.opened mode addressing authority quorum policy witnessOnly) .start where
  -- A new peer holds nothing, and neither does the specification's start.
  honest := rfl
  configured := rfl
  stored := by simp [Peer.opened, Peer.new, BlobStore.empty, LeaseGC.State.start]
  age := by simp [Peer.opened, Peer.new, BlobStore.empty]
  leases := by simp [Peer.opened, Peer.new, LeaseGC.State.start]
  idle := by simp [Peer.opened, Peer.new]
  floor := by simp [Peer.opened, Peer.new, LeaseGC.State.start]
  typeOK := ⟨fun _ => Nat.zero_le _, fun _ => Nat.zero_le _, fun _ => Nat.zero_le _⟩
  agree := rfl

end Shows

/--
Every run of an honest peer is one the specification allows, with its clock never going back.

What it shows is a state the specification reaches, whose doomed blobs are those the next sweep
plans to take, and whose warnings are those the peer gives its holders.
-/
theorem peer_collects_as_specified (mode : Mode) (addressing : Addressing) (authority : Authority)
    (quorum : QuorumPolicy) (policy : GcPolicy) (witnessOnly : Bool) (start : Timestamp)
    (ops : List PeerOp) (permitted : clockedPeer.Permits Punctual
      (start, Peer.opened mode addressing authority quorum policy witnessOnly) ops) :
    let reached :=
  clockedPeer.run (start, Peer.opened mode addressing authority quorum policy witnessOnly) ops
    ∃ s, (LeaseGC.specOfPeer policy.constants).Reachable s ∧ Shows policy reached s ∧
      (∀ a, a ∈ s.doomed policy.constants ↔
        a ∈ (planSweep reached.2.inventory reached.2.holders reached.2.retention policy
          reached.1).delete) ∧
      ∀ holder a, a ∈ s.warned policy.constants holder ↔
        a ∈ reached.2.sweepWarnings holder reached.1 := by
  -- Every operation is carried out by steps of the specification, so the run is.
  intro reached
  have opened := Shows.opened mode addressing authority quorum policy witnessOnly start
  obtain ⟨s, reachable, shows⟩ := (Shows.carriedOut policy).reachable rfl opened permitted
  exact ⟨s, reachable, shows, fun a => shows.mem_doomed_iff, fun holder a => shows.mem_warned_iff⟩

end

open Concrete in
/-- A blob that was stored and leased is stored in the specification too. -/
theorem leased_blob_is_specified : ∃ s : LeaseGC.State Addr Digest,
    (LeaseGC.specOfPeer GcPolicy.default.constants).Reachable s ∧
    digest [1] ∈ s.stored := by
  -- The clock never goes back in this run, so the theorem gives a reachable state.
  have permitted : clockedPeer.Permits Punctual
      (0, Peer.opened .e2ee .content .empty .default .default false) leasedOps := by
    refine ⟨⟨?_, nofun⟩, ⟨?_, nofun⟩, trivial⟩
    · rintro now ⟨⟩
      decide
    · rintro now ⟨⟩
      decide
  obtain ⟨s, reachable, shows, _⟩ :=
    peer_collects_as_specified .e2ee .content .empty .default .default false 0
    leasedOps permitted
  refine ⟨s, reachable, (shows.stored _).mpr (Option.isSome_iff_exists.mp ?_)⟩
  decide +kernel

end NasTools
