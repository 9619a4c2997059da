import NasTools.Lib.Judged
import NasTools.Lib.Keepers
import NasTools.Lib.Words
import NasTools.Model.Lease.Sweep

/-!
What a sweep plan is: every blob judged once, and every holder told exactly of what
it stands to lose.
-/

namespace NasTools

open scoped Words

/-- A blob the plan takes has nothing to protect it. -/
@[mk_iff] structure Unprotected (holders : List Holder) (floor : OrdSet Addr) (policy : GcPolicy)
    (now : Timestamp) (b : BlobInfo) : Prop where
  floor : b.addr ∉ floor
  old : policy.grace ≤ now.saturatingSince b.uploadedAt
  lapsed : ∀ h ∈ holders, b.addr ∈ h.set → h.status now policy = .expired

/--
A blob its holders are warned of: only leases that count no more as active stand
between it and the sweep.
-/
@[mk_iff] structure AtRisk (holders : List Holder) (floor : OrdSet Addr) (policy : GcPolicy)
    (now : Timestamp) (b : BlobInfo) : Prop where
  floor : b.addr ∉ floor
  old : policy.grace ≤ now.saturatingSince b.uploadedAt
  inactive : ∀ h ∈ holders, b.addr ∈ h.set → h.status now policy ≠ .active

/-- What a plan makes of a blob: the strongest reason to keep it, or nothing when it is taken. -/
def verdict (holders : List Holder) (floor : OrdSet Addr) (policy : GcPolicy) (now : Timestamp)
    (b : BlobInfo) :
    Option Keep :=
  let holding := holders.filter fun h => h.set.contains b.addr
  if floor.contains b.addr then some .retentionFloor
  else if now.saturatingSince b.uploadedAt < policy.grace then some .youngBlob
  else if holding.any fun h => h.status now policy == .active then some .leased
  else if holding.any fun h => h.status now policy == .expiring then some .leasedByExpiring
  else none

/-- Whether the holders of a blob are warned of it. -/
def warned (holders : List Holder) (floor : OrdSet Addr) (policy : GcPolicy) (now : Timestamp)
    (b : BlobInfo) :
    Bool :=
  match verdict holders floor policy now b with
  | none | some .leasedByExpiring => true
  | some _ => false

/-- The warnings of one blob that go to an id. -/
def warningOf (holders : List Holder) (floor : OrdSet Addr) (policy : GcPolicy) (now : Timestamp)
    (id : Digest) (b : BlobInfo) : List Addr :=
  if warned holders floor policy now b then
    ((holders.filter fun h => h.set.contains b.addr).filter fun h => h.id = id).map fun _ => b.addr
  else []

section

variable {holders : List Holder} {floor : OrdSet Addr} {policy : GcPolicy} {now : Timestamp}
    {b : BlobInfo}

/-- No holder of a blob has a status exactly when none is found among those who lease it. -/
theorem any_status_eq_false_iff {status : HolderStatus} :
    ((holders.filter fun h => h.set.contains b.addr).any fun h => h.status now policy == status) =
      false ↔ ∀ h ∈ holders, b.addr ∈ h.set → h.status now policy ≠ status := by
  simp only [List.any_eq_false, List.mem_filter, Std.ExtTreeSet.contains_iff_mem, beq_iff_eq,
    and_imp, ne_eq]

/-- A holder has expired exactly when it is neither active nor on notice. -/
theorem forall_expired_iff : (∀ h ∈ holders, b.addr ∈ h.set → h.status now policy = .expired) ↔
    (∀ h ∈ holders, b.addr ∈ h.set → h.status now policy ≠ .active) ∧
      ∀ h ∈ holders, b.addr ∈ h.set → h.status now policy ≠ .expiring := by
  -- There are three statuses, so being none of two is being the third.
  have one (status : HolderStatus) : status = .expired ↔ status ≠ .active ∧ status ≠ .expiring := by
    cases status <;> simp
  simp only [one, forall_and]

/-- A plan takes exactly the blobs that nothing protects. -/
theorem verdict_eq_none_iff :
    verdict holders floor policy now b = none ↔ Unprotected holders floor policy now b := by
  -- The guards are those of the plan, in its order.
  rw [unprotected_iff, forall_expired_iff, ← any_status_eq_false_iff, ← any_status_eq_false_iff,
    ← Std.ExtTreeSet.contains_iff_mem, ← UInt64.not_lt]
  unfold verdict
  dsimp only
  -- Each guard that holds keeps the blob, and each that fails is one of the conditions.
  by_cases young : now.saturatingSince b.uploadedAt < policy.grace <;>
    cases floor.contains b.addr <;>
    cases (holders.filter fun h => h.set.contains b.addr).any fun h =>
      h.status now policy == .active <;>
    cases (holders.filter fun h => h.set.contains b.addr).any fun h =>
      h.status now policy == .expiring <;>
    simp [young]

/-- The holders of a blob are warned exactly when it is at risk. -/
theorem warned_iff :
    warned holders floor policy now b = true ↔ AtRisk holders floor policy now b := by
  -- The statuses of the holders are looked at one way or the other.
  rw [atRisk_iff, ← any_status_eq_false_iff, ← Std.ExtTreeSet.contains_iff_mem, ← UInt64.not_lt]
  unfold warned verdict
  dsimp only
  -- Whether a holder is on notice decides what becomes of the blob, and not who is told of it.
  by_cases young : now.saturatingSince b.uploadedAt < policy.grace <;>
    cases floor.contains b.addr <;>
    cases (holders.filter fun h => h.set.contains b.addr).any fun h =>
      h.status now policy == .active <;>
    cases (holders.filter fun h => h.set.contains b.addr).any fun h =>
      h.status now policy == .expiring <;>
    simp [young]

/-- Telling holders of a blob writes one warning for each of them, and nothing else of the plan. -/
theorem foldl_warn (holding : List Holder) (addr : Addr) (plan : SweepPlan) :
    (holding.foldl (fun plan h => plan.warn addr h) plan).delete = plan.delete ∧
      (holding.foldl (fun plan h => plan.warn addr h) plan).keep = plan.keep ∧
      ∀ id, (holding.foldl (fun plan h => plan.warn addr h) plan).warnings.getD id [] =
        plan.warnings.getD id [] ++ (holding.filter fun h => h.id = id).map fun _ => addr := by
  -- Each holder adds to the warnings of its own id, so the plan stays quantified over.
  induction holding generalizing plan with
  | nil => simp
  | cons h rest ih =>
    obtain ⟨delete, keep, warnings⟩ := ih (plan.warn addr h)
    refine ⟨delete, keep, ?_⟩
    intro id
    rw [List.foldl_cons, warnings, SweepPlan.warn, List.filter_cons]
    by_cases same : h.id = id
    · -- The first holder is told now, and so are those of its id that come later.
      subst same
      simp
    · simp [Std.ExtTreeMap.getD_insert, same]

variable (holders floor policy now)

/-- What one more blob adds to a plan: its verdict, and the warnings it is worth. -/
theorem planBlob_adds (plan : SweepPlan) (b : BlobInfo) :
    (planBlob holders floor policy now plan b).delete =
        plan.delete ++ (if verdict holders floor policy now b = none then [b.addr] else []) ∧
      (planBlob holders floor policy now plan b).keep =
        plan.keep ++ ((verdict holders floor policy now b).map fun why => (b.addr, why)).toList ∧
      ∀ id, (planBlob holders floor policy now plan b).warnings.getD id [] =
        plan.warnings.getD id [] ++ warningOf holders floor policy now id b := by
  -- The branches of the plan, in their order.
  unfold planBlob warningOf warned verdict
  dsimp only
  -- Three reasons keep the blob without a word to anybody.
  split
  · simp
  split
  · simp
  split
  · simp
  -- No holder is active, so all of them are told, whether the blob is kept or taken.
  rw [(foldl_warn _ _ _).1, (foldl_warn _ _ _).2.1]
  simp only [(foldl_warn _ _ _).2.2]
  split <;> simp

/-- What some more blobs add to a plan, one after the other. -/
theorem foldl_planBlob (blobs : List BlobInfo) (plan : SweepPlan) :
    (blobs.foldl (planBlob holders floor policy now) plan).delete = plan.delete ++
        (blobs.filter fun b => (verdict holders floor policy now b).isNone).map BlobInfo.addr ∧
      (blobs.foldl (planBlob holders floor policy now) plan).keep = plan.keep ++
        (blobs.filterMap fun b => (verdict holders floor policy now b).map fun why =>
          (b.addr, why)) ∧
      ∀ id, (blobs.foldl (planBlob holders floor policy now) plan).warnings.getD id [] =
        plan.warnings.getD id [] ++ blobs.flatMap (warningOf holders floor policy now id) := by
  -- The plan grows along the inventory, so it stays quantified over.
  induction blobs generalizing plan with
  | nil => simp
  | cons b rest ih =>
    obtain ⟨laterDelete, laterKeep, laterWarnings⟩ := ih (planBlob holders floor policy now plan b)
    obtain ⟨delete, keep, warnings⟩ := planBlob_adds holders floor policy now plan b
    rw [List.foldl_cons]
    refine ⟨?_, ?_, ?_⟩
    · rw [laterDelete, delete, List.append_assoc, List.filter_cons]
      cases verdict holders floor policy now b <;> simp
    · rw [laterKeep, keep, List.append_assoc, List.filterMap_cons]
      cases verdict holders floor policy now b <;> rfl
    · intro id
      rw [laterWarnings, warnings, List.append_assoc, List.flatMap_cons]

/-- The three parts of a plan, each read off the inventory blob by blob. -/
theorem planSweep_parts (blobs : List BlobInfo) :
    (planSweep blobs holders floor policy now).delete =
        (blobs.filter fun b => (verdict holders floor policy now b).isNone).map BlobInfo.addr ∧
      (planSweep blobs holders floor policy now).keep =
        (blobs.filterMap fun b => (verdict holders floor policy now b).map fun why =>
          (b.addr, why)) ∧
      ∀ id, (planSweep blobs holders floor policy now).warnings.getD id [] =
        blobs.flatMap (warningOf holders floor policy now id) := by
  -- A plan starts out empty but for the holders above their ceiling, which no blob reads.
  have parts (overQuota : OrdMap Digest UInt64) :=
    foldl_planBlob holders floor policy now blobs { SweepPlan.empty with overQuota }
  simp only [SweepPlan.empty, List.nil_append, Std.ExtTreeMap.getD_empty] at parts
  exact parts _

end

section

variable {holders more : List Holder} {floor wider : OrdSet Addr} {policy : GcPolicy}
    {now later : Timestamp}
  {blobs : List BlobInfo} {a : Addr}

/--
Every blob a plan takes is one of the inventory, with nothing to protect it, and
every such blob is taken.
-/
theorem mem_delete_iff : a ∈ (planSweep blobs holders floor policy now).delete ↔
    ∃ b ∈ blobs, b.addr = a ∧ Unprotected holders floor policy now b := by
  rw [(planSweep_parts holders floor policy now blobs).1]
  simp only [List.mem_map, List.mem_filter, Option.isNone_iff_eq_none,
    verdict_eq_none_iff, and_assoc, and_comm (a := Unprotected _ _ _ _ _)]

/--
Where addresses are distinct, a blob of the inventory is taken exactly when nothing protects it.
-/
theorem addr_mem_delete_iff (distinct : (blobs.map BlobInfo.addr).Nodup) {b : BlobInfo}
    (listed : b ∈ blobs) :
    b.addr ∈ (planSweep blobs holders floor policy now).delete ↔
      Unprotected holders floor policy now b := by
  -- The plan names addresses, and every blob has its own.
  rw [mem_delete_iff]
  constructor
  · -- The blob that the plan names is this one, as no other has its address.
    intro found
    obtain ⟨b', listed', same, unprotected⟩ := found
    obtain rfl := List.inj_on_of_nodup_map distinct listed' listed same
    exact unprotected
  · intro unprotected
    exact ⟨b, listed, rfl, unprotected⟩

/-- Every blob is either taken or kept, and once only. -/
theorem delete_keep_perm : ((planSweep blobs holders floor policy now).delete ++
    (planSweep blobs holders floor policy now).keep.map Prod.fst).Perm
      (blobs.map BlobInfo.addr) := by
  obtain ⟨delete, keep, _⟩ := planSweep_parts holders floor policy now blobs
  rw [delete, keep]
  exact judged_perm _ _ _

/-- The last moment at which a holder heard of at some time still counts. -/
def GcPolicy.lastOf (policy : GcPolicy) (seen : Timestamp) : Timestamp :=
  satAdd seen (satAdd policy.leaseExpiry policy.notice)

/-- A holder has expired once its last moment is over. -/
theorem status_eq_expired_iff {h : Holder} :
    h.status now policy = .expired ↔ policy.lastOf h.lastSeen < now := by
  -- All are 64-bit numbers.
  have expiry := policy.leaseExpiry.toNat_lt
  have bound := now.toNat_lt
  unfold Holder.status GcPolicy.lastOf
  simp only [UInt64.le_iff_toNat_le, UInt64.lt_iff_toNat_lt, Timestamp.saturatingSince,
    toNat_satSub, toNat_satAdd]
  -- Past the notice a holder is also past its expiry, and a saturated sum is never passed.
  split
  · simp only [reduceCtorEq, false_iff]
    omega
  split
  · simp only [reduceCtorEq, false_iff]
    omega
  · simp only [true_iff]
    omega

/-- A holder keeps the blobs it leases, until its last moment. -/
def Holder.keeper (policy : GcPolicy) (h : Holder) : Keeper BlobInfo Timestamp :=
  ⟨{b | b.addr ∈ h.set}, policy.lastOf h.lastSeen⟩

/-- The holders of a peer as keepers of blobs. -/
def keepersOf (policy : GcPolicy) (holders : List Holder) : Set (Keeper BlobInfo Timestamp) :=
  {k | ∃ h ∈ holders, h.keeper policy = k}

/-- The leases on a blob have lapsed exactly when every holder of it has expired. -/
theorem lapsed_keepersOf {b : BlobInfo} : Keeper.Lapsed (keepersOf policy holders) b now ↔
    ∀ h ∈ holders, b.addr ∈ h.set → h.status now policy = .expired := by
  simp only [Keeper.Lapsed, keepersOf, Set.mem_ofPred_eq, forall_exists_index, and_imp,
    forall_apply_eq_imp_iff₂, Holder.keeper, status_eq_expired_iff]

/--
Every holder of the first list has one in the second, heard of at the same time, that
leases as much.
-/
def Widened (holders more : List Holder) : Prop :=
  ∀ h ∈ holders, ∃ h' ∈ more, h'.lastSeen = h.lastSeen ∧ ∀ a ∈ h.set, a ∈ h'.set

/-- A widened lease covers what it covered before. -/
theorem Widened.covered (widened : Widened holders more) :
    Keeper.Covered (keepersOf policy holders) (keepersOf policy more) := by
  -- The holder that leases as much was heard of at the same time, so it lasts as long.
  intro k member
  obtain ⟨h, listed, rfl⟩ := member
  obtain ⟨h', listed', same, wider⟩ := widened h listed
  refine ⟨h'.keeper policy, ⟨h', listed', rfl⟩, fun b held => wider b.addr held, ?_⟩
  rw [Holder.keeper, Holder.keeper, same]

/-- A blob that nothing protects stays so as time goes on. -/
theorem Unprotected.stays {b : BlobInfo} (unprotected : Unprotected holders floor policy now b)
    (after : now ≤ later) : Unprotected holders floor policy later b := by
  -- The floor is the same, and age and lapse only grow.
  refine ⟨unprotected.floor, ?_, ?_⟩
  · -- The blob only gets older.
    have old := unprotected.old
    rw [UInt64.le_iff_toNat_le, Timestamp.saturatingSince, toNat_satSub] at old ⊢
    rw [UInt64.le_iff_toNat_le] at after
    omega
  · exact lapsed_keepersOf.mp ((lapsed_keepersOf.mpr unprotected.lapsed).stays after)

/-- A blob that nothing protects had less to protect it before something was added. -/
theorem Unprotected.of_widened {b : BlobInfo} (unprotected : Unprotected more wider policy now b)
    (widened : Widened holders more) (covers : ∀ a ∈ floor, a ∈ wider) :
    Unprotected holders floor policy now b := by
  refine ⟨fun kept => unprotected.floor (covers _ kept), unprotected.old, ?_⟩
  exact lapsed_keepersOf.mp ((lapsed_keepersOf.mpr unprotected.lapsed).of_covered widened.covered)

/-- The warnings of an id name exactly the blobs at risk that a holder of that id leases. -/
theorem mem_warnings_iff {id : Digest} :
    a ∈ (planSweep blobs holders floor policy now).warnings.getD id [] ↔
    ∃ h ∈ holders, h.id = id ∧ ∃ b ∈ blobs, b.addr = a ∧ a ∈ h.set ∧
      AtRisk holders floor policy now b := by
  -- The warnings of a plan are those of its blobs, in order.
  rw [(planSweep_parts holders floor policy now blobs).2.2, List.mem_flatMap]
  constructor
  · intro found
    obtain ⟨b, listed, warns⟩ := found
    unfold warningOf at warns
    -- A blob that is not at risk is worth no warning.
    split at warns
    · rename_i risk
      obtain ⟨h, passes, rfl⟩ := List.mem_map.mp warns
      simp only [List.mem_filter, decide_eq_true_eq, Std.ExtTreeSet.contains_iff_mem] at passes
      obtain ⟨⟨member, leases⟩, named⟩ := passes
      exact ⟨h, member, named, b, listed, rfl, leases, warned_iff.mp risk⟩
    · cases warns
  · intro found
    obtain ⟨h, member, named, b, listed, rfl, leases, risk⟩ := found
    refine ⟨b, listed, ?_⟩
    rw [warningOf, if_pos (warned_iff.mpr risk)]
    refine List.mem_map.mpr ⟨h, ?_, rfl⟩
    simp only [List.mem_filter, decide_eq_true_eq, Std.ExtTreeSet.contains_iff_mem]
    exact ⟨⟨member, leases⟩, named⟩

/--
Where every holder has an id of its own, each is told of every such blob once, in the
order of the inventory.
-/
theorem warnings_eq (distinct : (holders.map Holder.id).Nodup) {h : Holder} (member : h ∈ holders) :
    (planSweep blobs holders floor policy now).warnings.getD h.id [] =
      (blobs.filter fun b => h.set.contains b.addr && warned holders floor policy now b).map
        BlobInfo.addr := by
  -- The warnings of a plan are those of its blobs, in order.
  rw [(planSweep_parts holders floor policy now blobs).2.2]
  -- A blob is worth one warning to this id at most, since one holder has it.
  have one (b : BlobInfo) : warningOf holders floor policy now h.id b =
      if (h.set.contains b.addr && warned holders floor policy now b) = true then [b.addr]
        else [] := by
    rw [warningOf, List.filter_comm, filter_key_eq_singleton distinct member]
    cases warned holders floor policy now b <;> cases held : h.set.contains b.addr <;> simp [held]
  induction blobs with
  | nil => rfl
  | cons b rest ih =>
    rw [List.flatMap_cons, ih, one, List.filter_cons]
    split <;> rfl

/--
A sweep plan is exact, for every inventory of blobs with distinct addresses.

Each blob is taken or kept, once; it is taken exactly when nothing protects it; each holder is
warned of exactly the blobs it leases that only lapsed leases protect; and what is taken grows with
time, and shrinks with every holder, lease and retained address that is added.
-/
theorem planSweep_is_exact (blobs : List BlobInfo) (holders : List Holder) (floor : OrdSet Addr)
    (policy : GcPolicy) (now : Timestamp) (distinct : (blobs.map BlobInfo.addr).Nodup) :
    let plan := planSweep blobs holders floor policy now
    ((plan.delete ++ plan.keep.map Prod.fst).Perm (blobs.map BlobInfo.addr) ∧
        (plan.delete ++ plan.keep.map Prod.fst).Nodup) ∧
      (∀ b ∈ blobs, b.addr ∈ plan.delete ↔ b.addr ∉ floor ∧
        policy.grace ≤ now.saturatingSince b.uploadedAt ∧
        ∀ h ∈ holders, b.addr ∈ h.set → h.status now policy ≠ .active ∧
          h.status now policy ≠ .expiring) ∧
      (∀ id a, a ∈ plan.warnings.getD id [] ↔ ∃ h ∈ holders, h.id = id ∧ ∃ b ∈ blobs,
        b.addr = a ∧ a ∈ h.set ∧ b.addr ∉ floor ∧ policy.grace ≤ now.saturatingSince b.uploadedAt ∧
          ∀ other ∈ holders, b.addr ∈ other.set → other.status now policy ≠ .active) ∧
      ((holders.map Holder.id).Nodup → ∀ h ∈ holders, (plan.warnings.getD h.id []).Nodup) ∧
      (∀ later, now ≤ later → ∀ a ∈ plan.delete,
        a ∈ (planSweep blobs holders floor policy later).delete) ∧
      ∀ more wider, Widened holders more → (∀ a ∈ floor, a ∈ wider) →
        ∀ a ∈ (planSweep blobs more wider policy now).delete, a ∈ plan.delete := by
  -- Each part is what one of the lemmas says of the plan.
  intro plan
  refine ⟨⟨delete_keep_perm, delete_keep_perm.nodup_iff.mpr distinct⟩, ?_, ?_, ?_, ?_, ?_⟩
  · intro b listed
    rw [addr_mem_delete_iff distinct listed, unprotected_iff, forall_expired_iff]
    simp only [← forall_and]
  · intro id a
    rw [mem_warnings_iff]
    simp only [atRisk_iff]
  · -- The warnings of one holder are a part of the inventory, whose addresses are distinct.
    intro apart h member
    rw [warnings_eq apart member]
    exact distinct.sublist (List.filter_sublist.map _)
  · intro later after a taken
    obtain ⟨b, listed, same, unprotected⟩ := mem_delete_iff.mp taken
    exact mem_delete_iff.mpr ⟨b, listed, same, unprotected.stays after⟩
  · intro more wider widened covers a taken
    obtain ⟨b, listed, same, unprotected⟩ := mem_delete_iff.mp taken
    exact mem_delete_iff.mpr ⟨b, listed, same, unprotected.of_widened widened covers⟩

end

/--
A blob whose holder was last heard of a hundred days ago stays for now, and the
holder is told of it.
-/
theorem overdue_holder_is_warned :
    let plan :=
  planSweep [⟨Digest.zero, 1, 0⟩] [⟨Digest.zero, (∅ : OrdSet Addr).insert Digest.zero, 0⟩] ∅
      .default (100 * day)
    Digest.zero ∉ plan.delete ∧ Digest.zero ∈ plan.warnings.getD Digest.zero [] := by
  -- The conditions are read off the theorem and evaluated.
  obtain ⟨_, taken, told, _⟩ := planSweep_is_exact [⟨Digest.zero, 1, 0⟩]
    [⟨Digest.zero, (∅ : OrdSet Addr).insert Digest.zero, 0⟩] ∅ .default (100 * day) (by decide)
  constructor
  · intro gone
    have lapsed := ((taken _ List.mem_cons_self).mp gone).2.2 _ List.mem_cons_self (by simp)
    exact lapsed.2 (by decide)
  · refine (told _ _).mpr ⟨_, List.mem_cons_self, rfl, _, List.mem_cons_self,
      rfl, by simp, by simp, by decide, ?_⟩
    intro other member _
    obtain rfl := List.mem_singleton.mp member
    decide

end NasTools
