import NasTools.Lib.Machine
import NasTools.Model.Crypto.Concrete
import NasTools.Proofs.Holdings

/-!
The lease quota over whole runs: admitted below the ceiling, and when it is exceeded all the same.
-/

namespace NasTools

/-- A list added up with saturation is its sum, or the largest number. -/
theorem toNat_foldl_satAdd (sizes : List UInt64) (start : UInt64) :
    (sizes.foldl satAdd start).toNat = min (start.toNat + (sizes.map UInt64.toNat).sum)
      (2 ^ 64 - 1) := by
  -- Induction over the sizes: once the sum is full it stays full.
  induction sizes generalizing start with
  | nil =>
    have bound := start.toNat_lt
    simp
    omega
  | cons first rest ih =>
    rw [List.foldl_cons, ih, toNat_satAdd, List.map_cons, List.sum_cons]
    omega

section

variable [Crypto]

/-- The size a stored file is accounted with. -/
def BlobFile.size (file : BlobFile) : UInt64 := UInt64.ofNat file.content.length

namespace Peer

variable {p : Peer}

/-- What an address weighs here: the size of its blob, or nothing. -/
def weight (p : Peer) (a : Addr) : Nat :=
  ((p.blobs.files[a]?).map fun file => file.size.toNat).getD 0

/-- What a set of addresses weighs here. -/
def weightOf (p : Peer) (set : OrdSet Addr) : Nat := (set.toList.map p.weight).sum

/-- The sizes a lease is judged by are those of the files. -/
theorem getElem?_blobSizes (a : Addr) :
    p.blobSizes[a]? = (p.blobs.files[a]?).map BlobFile.size := by
  have refiled := OrdMap.getElem?_refiled p.blobs.files (fun e => e.2.size) a
  rw [List.foldl_map] at refiled
  rw [blobSizes, inventory, List.foldl_map]
  exact refiled

/-- The sizes a sweep reads are those of the files as well. -/
theorem getElem?_index (a : Addr) :
    ((p.inventory.foldl (fun m b => m.insert b.addr b) (∅ : OrdMap Addr BlobInfo))[a]?).map
      BlobInfo.size = (p.blobs.files[a]?).map BlobFile.size := by
  -- The index files every blob of the store again.
  have refiled := OrdMap.getElem?_refiled p.blobs.files
    (fun e => (⟨e.1, e.2.size, e.2.modified⟩ : BlobInfo)) a
  rw [List.foldl_map] at refiled
  rw [inventory, List.foldl_map]
  refine (congrArg (Option.map BlobInfo.size) refiled).trans ?_
  rw [Option.map_map]
  rfl

/-- Adding up the sizes that are found is adding up the weights. -/
theorem sum_filterMap (addrs : List Addr) {sizes : Addr → Option UInt64}
    (are : ∀ a, sizes a = (p.blobs.files[a]?).map BlobFile.size) :
    ((addrs.filterMap sizes).map UInt64.toNat).sum = (addrs.map p.weight).sum := by
  -- Induction over the addresses, of which an absent one weighs nothing.
  induction addrs with
  | nil => rfl
  | cons first rest ih =>
    rw [List.filterMap_cons, are, List.map_cons, List.sum_cons, ← ih, weight]
    cases p.blobs.files[first]? <;> simp

/-- The bytes in a set are what it weighs, as far as they can be counted. -/
theorem toNat_bytesIn (set : OrdSet Addr) :
    (p.bytesIn set).toNat = min (p.weightOf set) (2 ^ 64 - 1) := by
  rw [bytesIn, toNat_foldl_satAdd, sum_filterMap _ getElem?_blobSizes, weightOf]
  simp

/-- Admission and the sweep account a holder with the same bytes. -/
theorem leasedBytes_eq (h : Holder) :
    h.leasedBytes (p.inventory.foldl (fun m b => m.insert b.addr b) ∅) = p.bytesIn h.set := by
  -- Both sums look the sizes up, one in the index and one in the store.
  unfold Holder.leasedBytes bytesIn
  congr 1
  apply List.filterMap_congr
  intro a _
  rw [getElem?_index, getElem?_blobSizes]

/-- Every holder leases no more bytes than the ceiling allows. -/
def BelowCeiling (p : Peer) : Prop :=
  ∀ (holder : Digest) (set : OrdSet Addr) (seen : Timestamp), p.leases[holder]? = some (set, seen) →
    p.bytesIn set ≤ p.gcPolicy.maxLeasedBytes

/-- Every holder is below its ceiling, and a sweep reports none. -/
structure WithinQuota (p : Peer) : Prop where
  leased : p.BelowCeiling
  reported : ∀ (floor : OrdSet Addr) (now : Timestamp) (holder : Digest),
    (planSweep p.inventory p.holders floor p.gcPolicy now).overQuota[holder]? = none

omit [Crypto] in
/-- Planning the blobs leaves the report on quotas alone. -/
theorem planBlob_overQuota (holders : List Holder) (floor : OrdSet Addr) (policy : GcPolicy)
    (now : Timestamp) (plan : SweepPlan) (b : BlobInfo) :
    (planBlob holders floor policy now plan b).overQuota = plan.overQuota := by
  -- A warning changes the warnings only.
  have warned : ∀ (holding : List Holder) (plan : SweepPlan),
      (holding.foldl (fun plan h => plan.warn b.addr h) plan).overQuota = plan.overQuota := by
    intro holding
    induction holding with
    | nil => exact fun _ => rfl
    | cons first rest ih => exact fun plan => ih (plan.warn b.addr first)
  unfold planBlob
  dsimp only
  split
  · rfl
  split
  · rfl
  split
  · rfl
  · rw [warned]
    split <;> rfl

omit [Crypto] in
/-- What a sweep reports on quotas is decided before it looks at the blobs. -/
theorem planSweep_overQuota (blobs : List BlobInfo) (holders : List Holder) (floor : OrdSet Addr)
    (policy : GcPolicy) (now : Timestamp) (within : ∀ h ∈ holders,
      h.leasedBytes (blobs.foldl (fun m b => m.insert b.addr b) ∅) ≤ policy.maxLeasedBytes) :
    (planSweep blobs holders floor policy now).overQuota = ∅ := by
  -- Going through the blobs adds to the other parts of the plan alone.
  have kept : ∀ (rest : List BlobInfo) (plan : SweepPlan),
      (rest.foldl (planBlob holders floor policy now) plan).overQuota = plan.overQuota := by
    intro rest
    induction rest with
    | nil => exact fun _ => rfl
    | cons first rest ih =>
      intro plan
      rw [List.foldl_cons, ih, planBlob_overQuota]
  -- The holders above the ceiling are reported first, and there are none.
  have none : holders.filter (fun h =>
      policy.maxLeasedBytes < h.leasedBytes (blobs.foldl (fun m b => m.insert b.addr b) ∅)) =
        [] := by
    apply List.filter_eq_nil_iff.mpr
    intro h member
    simpa using within h member
  unfold planSweep
  dsimp only
  rw [kept]
  dsimp only
  rw [none]
  rfl

/-- A peer whose holders are below the ceiling reports none of them. -/
theorem withinQuota_of_leased (leased : p.BelowCeiling) : p.WithinQuota := by
  -- What a plan reports is decided by the bytes each holder has.
  refine ⟨leased, ?_⟩
  intro floor now holder
  rw [planSweep_overQuota]
  · simp
  intro h member
  -- The sweep counts the bytes that admission counted.
  rw [leasedBytes_eq]
  simp only [holders, List.mem_map] at member
  obtain ⟨⟨id, set, seen⟩, listed, rfl⟩ := member
  exact leased id set seen (Std.ExtTreeMap.mem_toList_iff_getElem?_eq_some.mp listed)

/-- Every file holds bytes that belong under its name. -/
def FilesRight (p : Peer) : Prop :=
  ∀ (a : Addr) (file : BlobFile), p.blobs.files[a]? = some file →
    p.blobs.addressing.addrOf file.content = a

/--
A blob comes back that some holder still leases, and is more than the holder has room for.

Its lease outlived the blob: it was deleted or swept while it was leased.
-/
def Overfills (p : Peer) : PeerOp → Prop
  -- A blob that is there already takes no room, and one that is not written neither.
  | .putBlob disk _ data =>
    let addr := p.blobs.addressing.addrOf data
    disk.isOk = true ∧ p.blobs.has addr = false ∧
      ∃ (holder : Digest) (set : OrdSet Addr) (seen : Timestamp), p.leases[holder]? =
        some (set, seen) ∧
        addr ∈ set ∧ p.gcPolicy.maxLeasedBytes < satAdd (p.bytesIn set) (UInt64.ofNat data.length)
  | _ => False

section

variable {p' : Peer}

/-- Lighter blobs make lighter sets. -/
theorem bytesIn_le_of_weight (lighter : ∀ a, p'.weight a ≤ p.weight a) (set : OrdSet Addr) :
    p'.bytesIn set ≤ p.bytesIn set := by
  -- Bytes are counted with saturation.
  have sums : p'.weightOf set ≤ p.weightOf set := by
    unfold weightOf
    exact List.sum_le_sum fun a _ => lighter a
  -- Counting saturates, which keeps the order.
  rw [UInt64.le_iff_toNat_le, toNat_bytesIn, toNat_bytesIn]
  omega

/-- A smaller set weighs less. -/
theorem bytesIn_le_of_subset {small large : OrdSet Addr} (subset : ∀ a ∈ small, a ∈ large) :
    p.bytesIn small ≤ p.bytesIn large := by
  -- A set lists each address once, so a sum over the list is one over the set.
  have listed {set : OrdSet Addr} : p.weightOf set = ∑ a ∈ set.toList.toFinset, p.weight a :=
    (List.sum_toFinset p.weight set.nodup_toList).symm
  have sums : p.weightOf small ≤ p.weightOf large := by
    rw [listed, listed]
    apply Finset.sum_le_sum_of_subset
    intro a member
    simp only [List.mem_toFinset, Std.ExtTreeSet.mem_toList] at member ⊢
    exact subset a member
  rw [UInt64.le_iff_toNat_le, toNat_bytesIn, toNat_bytesIn]
  omega

/-- A new blob adds its size to every set it is in. -/
theorem bytesIn_of_added {addr : Addr} {size : UInt64} (absent : p.weight addr = 0)
    (added : ∀ a, p'.weight a = if a = addr then size.toNat else p.weight a) (set : OrdSet Addr) :
    p'.bytesIn set = if addr ∈ set then satAdd (p.bytesIn set) size else p.bytesIn set := by
  -- Over a list without repeats the size is added once, if at all.
  have sums : ∀ addrs : List Addr, addrs.Nodup →
      (addrs.map p'.weight).sum = (addrs.map p.weight).sum + if addr ∈ addrs then size.toNat
        else 0 := by
    intro addrs
    induction addrs with
    | nil => simp
    | cons first rest ih =>
      intro distinct
      obtain ⟨apart, later⟩ := List.nodup_cons.mp distinct
      simp only [List.map_cons, List.sum_cons, ih later, added first, List.mem_cons]
      by_cases here : first = addr
      · subst here
        simp [apart, absent]
        omega
      · simp [here, Ne.symm here]
        omega
  have loads : p'.weightOf set = p.weightOf set + if addr ∈ set then size.toNat else 0 := by
    have listed := sums set.toList set.nodup_toList
    simp only [Std.ExtTreeSet.mem_toList] at listed
    exact listed
  apply UInt64.toNat_inj.mp
  split
  · rename_i member
    rw [toNat_satAdd, toNat_bytesIn, toNat_bytesIn, loads, if_pos member]
    omega
  · rename_i other
    rw [toNat_bytesIn, toNat_bytesIn, loads, if_neg other]
    rfl

/-- A blob that was touched weighs what its bytes weigh, and the others what they did. -/
theorem weight_of_touched (p' : Peer) {addr : Addr} {now : Timestamp} {content : Bytes}
    (touched : Touched p.blobs p'.blobs addr now content) (a : Addr) :
    p'.weight a = if a = addr then (UInt64.ofNat content.length).toNat else p.weight a := by
  -- Only the blob at the address may weigh differently.
  unfold weight
  rw [touched.files, Std.ExtTreeMap.getElem?_insert]
  by_cases here : a = addr
  · subst here
    simp [BlobFile.size]
  · simp [here, Ne.symm here]

/-- The same weights and the same leases are below the same ceiling. -/
theorem belowCeiling_congr (weights : ∀ a, p'.weight a = p.weight a) (leases : p'.leases = p.leases)
    (policy : p'.gcPolicy = p.gcPolicy) : p'.BelowCeiling ↔ p.BelowCeiling := by
  -- The ceiling compares sums of weights.
  have bytes (set : OrdSet Addr) : p'.bytesIn set = p.bytesIn set := by
    apply UInt64.toNat_inj.mp
    rw [toNat_bytesIn, toNat_bytesIn, weightOf, weightOf, funext weights]
  unfold BelowCeiling
  simp only [leases, policy, bytes]

/-- Files that are right stay so when one of them is touched. -/
theorem filesRight_of_touched {addr : Addr} {now : Timestamp} {content : Bytes}
    (touched : Touched p.blobs p'.blobs addr now content) (right : p.FilesRight) :
      p'.FilesRight := by
  -- One file has a new time.
  intro a file filed
  rw [touched.files] at filed ⊢
  rw [Std.ExtTreeMap.getElem?_insert] at filed
  -- The file that was touched has the right bytes, and the others are as they were.
  split at filed
  · rename_i same
    obtain rfl := Std.LawfulEqCmp.eq_of_compare same
    obtain rfl := Option.some.inj filed
    exact touched.right
  · exact right a file filed

end

/-- A deletion leaves files as they were, or takes them. -/
theorem deleteBlob_files (disk : Disk) (addr a : Addr) :
    (p.deleteBlob disk addr).2.blobs.addressing = p.blobs.addressing ∧
      ((p.deleteBlob disk addr).2.blobs.files[a]? = p.blobs.files[a]? ∨
        (p.deleteBlob disk addr).2.blobs.files[a]? = none) := by
  -- At most the file at the address is gone.
  unfold deleteBlob
  split
  · exact ⟨rfl, .inl rfl⟩
  cases disk with
  | error e => exact ⟨rfl, .inl rfl⟩
  | ok u =>
    refine ⟨rfl, ?_⟩
    by_cases same : addr = a
    · exact .inr (by simp [BlobStore.remove, same])
    · exact .inl (by simp [BlobStore.remove, Std.ExtTreeMap.getElem?_erase, same])

/-- Some files may be gone, and no other changed. -/
structure Thinned (p p' : Peer) : Prop where
  addressing : p'.blobs.addressing = p.blobs.addressing
  files : ∀ a : Addr, p'.blobs.files[a]? = p.blobs.files[a]? ∨ p'.blobs.files[a]? = none

/-- Two thinnings make one. -/
theorem Thinned.trans {a b c : Peer} (first : Thinned a b) (second : Thinned b c) :
    Thinned a c := by
  -- The three parts one after the other.
  refine ⟨second.addressing.trans first.addressing, ?_⟩
  intro addr
  -- A file that is gone stays gone.
  rcases second.files addr with same | gone
  · rw [same]
    exact first.files addr
  · exact .inr gone

/-- Deleting and sweeping only thin out the files. -/
theorem deleteAll_thinned (disk : Addr → Disk) (addrs : List Addr) :
    Thinned p (p.deleteAll disk addrs).2 := by
  -- Induction over the addresses, up to the first that is refused.
  induction addrs generalizing p with
  | nil => exact ⟨rfl, fun _ => .inl rfl⟩
  | cons addr rest ih =>
    have first : Thinned p (p.deleteBlob (disk addr) addr).2 :=
      ⟨(deleteBlob_files (disk addr) addr addr).1, fun a => (deleteBlob_files (disk addr) addr a).2⟩
    unfold deleteAll
    split
    · rename_i q refused
      rw [refused] at first
      exact first
    · rename_i q removed
      rw [removed] at first
      exact first.trans ih

/-- A sweep only takes blobs away. -/
theorem sweep_thinned (disk : Addr → Disk) (holders : List Holder) (policy : GcPolicy)
    (now : Timestamp) (dryRun : Bool) : Thinned p (p.sweep disk holders policy now dryRun).2 := by
  -- The plan is carried out or it is only told.
  unfold sweep
  dsimp only
  -- A dry run deletes nothing.
  split
  · exact ⟨rfl, fun _ => .inl rfl⟩
  · have swept := deleteAll_thinned (p := p) disk (planSweep p.inventory holders
      (if p.hostility.ignoreRetention then ∅ else p.retention) policy now).delete
    split
    · rename_i refused
      rw [refused] at swept
      exact swept
    · rename_i done
      rw [done] at swept
      exact swept

/-- Thinning adds no weight. -/
theorem Thinned.weight_le {p' : Peer} (thinned : Thinned p p') (a : Addr) :
    p'.weight a ≤ p.weight a := by
  unfold weight
  rcases thinned.files a with same | gone
  · rw [same]
  · simp [gone]

/-- Files that are right stay right when some are taken away. -/
theorem Thinned.filesRight {p' : Peer} (thinned : Thinned p p') (right : p.FilesRight) :
    p'.FilesRight := by
  -- A file that is still there is the one that was.
  intro a file filed
  rw [thinned.addressing]
  rcases thinned.files a with same | gone
  · exact right a file (same ▸ filed)
  · rw [gone] at filed
    cases filed

/-- Every operation leaves the files right. -/
theorem step_filesRight (right : p.FilesRight) (op : PeerOp) : (peer.step p op).2.FilesRight := by
  -- Operations that write no blobs leave the files as they are.
  by_cases writes : op.part = .blobs
  · cases op with
    -- A blob is written under the address of its own bytes.
    | putBlob disk now data =>
      rcases put_touches p.blobs disk now data with ⟨_, same⟩ | ⟨_, _, touched, _⟩
      · have kept : (peer.step p (.putBlob disk now data)).2.blobs = p.blobs := same
        intro a file filed
        rw [kept] at filed ⊢
        exact right a file filed
      · exact filesRight_of_touched (p := p) touched right
    -- A proof writes its time into the file, and no bytes.
    | prove disk now addr nonce =>
      rcases prove_touches p.blobs disk now addr nonce with ⟨_, same⟩ | ⟨_, _, _, touched⟩
      · have kept : (peer.step p (.prove disk now addr nonce)).2.blobs = p.blobs := same
        intro a file filed
        rw [kept] at filed ⊢
        exact right a file filed
      · exact filesRight_of_touched (p := p) touched right
    | deleteBlob disk addr =>
      have thinned : Thinned p (p.deleteBlob disk addr).2 :=
        ⟨(deleteBlob_files disk addr addr).1, fun a => (deleteBlob_files disk addr a).2⟩
      exact thinned.filesRight right
    | sweep disk holders policy now dryRun =>
      exact (sweep_thinned disk holders policy now dryRun).filesRight right
    | _ => cases writes
  · intro a file filed
    rw [(step_onlyIn op).blobs writes] at filed ⊢
    exact right a file filed

/-- Blobs that are gone weigh nothing, so no holder comes to lease more. -/
theorem Thinned.belowCeiling {p' : Peer} (thinned : Thinned p p') (leases : p'.leases = p.leases)
    (policy : p'.gcPolicy = p.gcPolicy) (below : p.BelowCeiling) : p'.BelowCeiling := by
  intro holder set seen held
  rw [leases] at held
  rw [policy]
  exact UInt64.le_trans (bytesIn_le_of_weight thinned.weight_le set) (below holder set seen held)

/-- Storing a blob keeps every holder below the ceiling exactly when it does not overfill one. -/
theorem putBlob_below_iff (right : p.FilesRight) (below : p.BelowCeiling) (disk : Disk)
    (now : Timestamp) (data : Bytes) :
    (p.putBlob disk now data).2.BelowCeiling ↔ ¬p.Overfills (.putBlob disk now data) := by
  -- The disk fails or it does not.
  cases disk with
  | error e =>
    -- On a disk that fails nothing is stored, and nobody is overfilled.
    refine ⟨fun _ overfills => ?_, fun _ => below⟩
    have written := overfills.1
    cases written
  | ok u =>
    rcases put_touches p.blobs (.ok u) now data with ⟨⟨e, failed⟩, _⟩ | ⟨_, content, touched, fresh⟩
    · exfalso
      unfold BlobStore.put at failed
      dsimp only at failed
      split at failed
      · split at failed <;> cases failed
      · cases failed
    have weights := weight_of_touched (p.putBlob (.ok u) now data).2 touched
    cases held : p.blobs.files[p.blobs.addressing.addrOf data]? with
    | some file =>
      -- The bytes that are here stay, and weigh what they did.
      have present : p.blobs.has (p.blobs.addressing.addrOf data) = true := by
        simp [BlobStore.has, Std.ExtTreeMap.contains_eq_isSome_getElem?, held]
      have same := touched.same file held (right _ file held)
      have unchanged : ∀ a, (p.putBlob (.ok u) now data).2.weight a = p.weight a := by
        intro a
        rw [weights a]
        split
        · rename_i here
          rw [here, weight, held, same]
          rfl
        · rfl
      rw [belowCeiling_congr unchanged rfl rfl]
      refine ⟨fun _ overfills => ?_, fun _ => below⟩
      have absent := overfills.2.1
      rw [present] at absent
      cases absent
    | none =>
      have absent : p.blobs.has (p.blobs.addressing.addrOf data) = false := by
        simp [BlobStore.has, Std.ExtTreeMap.contains_eq_isSome_getElem?, held]
      obtain rfl := fresh absent
      have bytes := bytesIn_of_added (by simp [weight, held]) weights
      constructor
      · -- Every holder that leases the address is charged for the blob.
        rintro after ⟨_, _, holder, set, seen, leased, member, over_⟩
        have under := after holder set seen leased
        rw [bytes, if_pos member] at under
        exact absurd over_ (UInt64.not_lt.mpr under)
      · intro spared holder set seen leased
        rw [bytes]
        split
        · rename_i member
          apply UInt64.not_lt.mp
          intro over_
          exact spared ⟨rfl, absent, holder, set, seen, leased, member, over_⟩
        · exact below holder set seen leased

/-- One operation keeps every holder below the ceiling exactly when it does not overfill one. -/
theorem step_below_iff (right : p.FilesRight) (below : p.BelowCeiling) (op : PeerOp) :
    (peer.step p op).2.BelowCeiling ↔ ¬p.Overfills op := by
  -- All but storing a blob keep the ceiling, and overfill nobody.
  have keeps (spared : ¬p.Overfills op) (after : (peer.step p op).2.BelowCeiling) :
      (peer.step p op).2.BelowCeiling ↔ ¬p.Overfills op := ⟨fun _ => spared, fun _ => after⟩
  -- No operation changes the policy.
  have policy := (step_onlyIn (p := p) op).gcPolicy
  by_cases blobs : op.part = .blobs
  · cases op with
    | putBlob disk now data => exact putBlob_below_iff right below disk now data
    | prove disk now addr nonce =>
      refine keeps id ?_
      rcases prove_touches p.blobs disk now addr nonce with ⟨_, same⟩ | ⟨_, content, got, touched⟩
      · have kept : (peer.step p (.prove disk now addr nonce)).2 = p := by
          show { p with blobs := (p.blobs.prove disk now addr nonce).2 } = p
          rw [same]
        rw [kept]
        exact below
      · -- The proof was made over the bytes that are here, which stay.
        obtain ⟨file, held, _, rfl⟩ := BlobStore.get_eq_ok.mp got
        have unchanged : ∀ a, (p.prove disk now addr nonce).2.weight a = p.weight a := by
          intro a
          rw [weight_of_touched (p.prove disk now addr nonce).2 touched a]
          split
          · rename_i here
            rw [here, weight, held]
            rfl
          · rfl
        exact (belowCeiling_congr unchanged rfl rfl).mpr below
    | deleteBlob disk addr =>
      have thinned : Thinned p (p.deleteBlob disk addr).2 :=
        ⟨(deleteBlob_files disk addr addr).1, fun a => (deleteBlob_files disk addr a).2⟩
      exact keeps id (thinned.belowCeiling ((step_onlyIn (.deleteBlob disk addr)).leases nofun)
        policy below)
    | sweep disk holders gc now dryRun =>
      exact keeps id ((sweep_thinned disk holders gc now dryRun).belowCeiling
        ((step_onlyIn (.sweep disk holders gc now dryRun)).leases nofun) policy below)
    | _ => cases blobs
  have files := (step_onlyIn (p := p) op).blobs blobs
  by_cases leases : op.part = .leases
  · cases op with
    | takeLease disk holder addrs now =>
      refine keeps id ?_
      rcases takeLease_cases (p := p) disk holder addrs now with ⟨_, e, same⟩ | ⟨granted, taken, _⟩
      · rw [show (peer.step p (.takeLease disk holder addrs now)).2 = p from congrArg Prod.snd same]
        exact below
      · rw [show (peer.step p (.takeLease disk holder addrs now)).2 =
          p.leased holder addrs now from taken]
        intro other set seen held
        rw [leased, Std.ExtTreeMap.getElem?_insert] at held
        split at held
        · -- The holder's own set was weighed before it was granted.
          obtain ⟨rfl, rfl⟩ := Prod.mk.inj (Option.some.inj held)
          exact granted.withinQuota
        · exact below other set seen held
    | releaseLease disk holder addrs now =>
      refine keeps id ?_
      rw [show (peer.step p (.releaseLease disk holder addrs now)).2 =
        p.released holder addrs now from rfl]
      unfold released
      cases entry : p.leases[holder]? with
      | none => exact below
      | some pair =>
        obtain ⟨before, at_⟩ := pair
        intro other set seen held
        rw [Std.ExtTreeMap.getElem?_insert] at held
        split at held
        · obtain ⟨rfl, rfl⟩ := Prod.mk.inj (Option.some.inj held)
          refine UInt64.le_trans (bytesIn_le_of_subset ?_) (below holder before at_ entry)
          -- What is left of the set was in it before.
          intro a kept
          exact (OrdSet.mem_eraseAll.mp kept).1
        · exact below other set seen held
    | _ => cases leases
  · have spared : ¬p.Overfills op := by
      cases op with
      | putBlob => exact absurd rfl blobs
      | _ => exact id
    refine keeps spared ((belowCeiling_congr ?_ ((step_onlyIn op).leases leases) policy).mpr below)
    intro a
    rw [weight, files, weight]

/-- A peer opened on an empty directory, with the collection policy its owner set. -/
def collecting (mode : Mode) (addressing : Addressing) (hostility : Hostility)
    (policy : GcPolicy) : Peer :=
  { Peer.new mode addressing hostility with gcPolicy := policy }

/--
When the quota holds, over every run of a peer.

Every state is within it exactly when no blob comes back that overfills a holder leasing it still.
-/
theorem quota_holds_iff (mode : Mode) (addressing : Addressing) (hostility : Hostility)
    (policy : GcPolicy) (ops : List PeerOp) :
    peer.Permits (fun p op => (peer.step p op).2.WithinQuota)
      (collecting mode addressing hostility policy) ops ↔
      peer.Permits (fun p op => ¬p.Overfills op) (collecting mode addressing hostility policy)
        ops := by
  -- Up to the first step that breaks it, the run keeps the files right and the holders below.
  refine Machine.permits_iff (P := fun p : Peer => p.FilesRight ∧ p.BelowCeiling) ?_ ?_ ?_
  · exact ⟨fun a file filed => by simp [collecting, Peer.new, BlobStore.empty] at filed,
      fun holder set seen held => by simp [collecting, Peer.new] at held⟩
  · rintro p op ⟨right, _⟩ within
    exact ⟨step_filesRight right op, within.leased⟩
  · rintro p op ⟨right, below⟩
    rw [← step_below_iff right below op]
    exact ⟨fun within => within.leased, withinQuota_of_leased⟩

end Peer

end

section

open Concrete

/-- A peer that lets every holder lease ten bytes. -/
def tightPeer : Peer := .collecting .e2ee .content .honest ⟨day, 90 * day, 30 * day, 10⟩

/-- Two blobs of six bytes each. -/
def firstBlob : Bytes := List.replicate 6 1
def secondBlob : Bytes := List.replicate 6 2

/-- A holder leases a blob, the blob is deleted, and the holder leases another in its place. -/
def tightOps : List PeerOp :=
  [.putBlob (.ok ()) 1 firstBlob, .takeLease (.ok ()) (digest [9]) [digest firstBlob] 1,
    .deleteBlob (.ok ()) (digest firstBlob), .putBlob (.ok ()) 2 secondBlob,
    .takeLease (.ok ()) (digest [9]) [digest secondBlob] 2]

/-- The first blob is stored again, and the holder is over its quota without taking a lease. -/
theorem returning_blob_exceeds_the_quota :
    ¬peer.Permits (fun p op => (peer.step p op).2.WithinQuota) tightPeer
      (tightOps ++ [.putBlob (.ok ()) 3 firstBlob]) := by
  -- The last step is judged by what the peer reports after it.
  intro within
  have last := (Machine.permits_append.mp within).2.1
  have reported := last.reported ∅ 3 (digest [9])
  revert reported
  decide

/-- Up to there every lease was granted within the quota. -/
example : (peer.log tightPeer tightOps).all (fun entry => entry.2.isOk) = true := by decide

end

end NasTools
