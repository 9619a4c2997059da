import NasTools.Lib.OrderedMap
import NasTools.Model.Core.Format

/-! Planning a sweep: which blobs the collector takes, keeps, and warns about. -/

namespace NasTools

/-- Seconds of a day. -/
def day : UInt64 := 86400

/-- The largest `u64`. -/
def u64Max : UInt64 := UInt64.ofNat (2 ^ 64 - 1)

/-- How the collector treats blobs and leases. -/
structure GcPolicy where
  grace : UInt64
  leaseExpiry : UInt64
  notice : UInt64
  maxLeasedBytes : UInt64
deriving DecidableEq

/-- The default policy: a day of grace, ninety days of lease, thirty of notice, no ceiling. -/
def GcPolicy.default : GcPolicy := ⟨day, 90 * day, 30 * day, u64Max⟩

/-- What a sweep needs to know of a blob. -/
structure BlobInfo where
  addr : Addr
  size : UInt64
  uploadedAt : Timestamp
deriving DecidableEq

/-- Whether a lease holder still counts. -/
inductive HolderStatus where
  | active
  | expiring
  | expired
deriving DecidableEq

/-- A lease holder: its set, and when it was last heard of. -/
structure Holder where
  id : Digest
  set : OrdSet Addr
  lastSeen : Timestamp

/-- Where a holder stands. -/
def Holder.status (h : Holder) (now : Timestamp) (p : GcPolicy) : HolderStatus :=
  -- A holder last heard of in the future counts as heard of just now.
  let idle := now.saturatingSince h.lastSeen
  if idle ≤ p.leaseExpiry then .active
  else if idle ≤ satAdd p.leaseExpiry p.notice then .expiring
  else .expired

/-- Bytes a holder's leases keep alive. -/
def Holder.leasedBytes (h : Holder) (blobs : OrdMap Addr BlobInfo) : UInt64 :=
  (h.set.toList.filterMap fun a => (blobs[a]?).map BlobInfo.size).foldl satAdd 0

/-- Why a blob is kept. -/
inductive Keep where
  | retentionFloor
  | youngBlob
  | leased
  | leasedByExpiring
deriving DecidableEq

/-- What a sweep would do. -/
structure SweepPlan where
  delete : List Addr
  keep : List (Addr × Keep)
  warnings : OrdMap Digest (List Addr)
  overQuota : OrdMap Digest UInt64

/-- A plan that does nothing. -/
def SweepPlan.empty : SweepPlan := ⟨[], [], ∅, ∅⟩

/-- Tell a holder about a blob it stands to lose. -/
def SweepPlan.warn (plan : SweepPlan) (addr : Addr) (h : Holder) : SweepPlan :=
  { plan with warnings := plan.warnings.insert h.id ((plan.warnings.getD h.id []) ++ [addr]) }

/-- One blob of the plan. -/
def planBlob (holders : List Holder) (floor : OrdSet Addr) (policy : GcPolicy) (now : Timestamp)
    (plan : SweepPlan) (b : BlobInfo) : SweepPlan :=
  -- All that lease the blob, whether they still count or not.
  let holding := holders.filter fun h => h.set.contains b.addr
  -- The floor goes before everything else, and then the grace for new blobs.
  if floor.contains b.addr then { plan with keep := plan.keep ++ [(b.addr, .retentionFloor)] }
  else if now.saturatingSince b.uploadedAt < policy.grace then
    { plan with keep := plan.keep ++ [(b.addr, .youngBlob)] }
  else if holding.any fun h => h.status now policy == .active then
    { plan with keep := plan.keep ++ [(b.addr, .leased)] }
  else
    -- A holder on notice keeps the blob a while longer; one that has expired does not.
    let plan :=
      if holding.any fun h => h.status now policy == .expiring then
        { plan with keep := plan.keep ++ [(b.addr, .leasedByExpiring)] }
      else { plan with delete := plan.delete ++ [b.addr] }
    -- Whoever leases a blob without counting as active is told of it.
    holding.foldl (fun plan h => plan.warn b.addr h) plan

/-- Plan a sweep. -/
def planSweep (blobs : List BlobInfo) (holders : List Holder) (floor : OrdSet Addr)
    (policy : GcPolicy) (now : Timestamp) : SweepPlan :=
  let index : OrdMap Addr BlobInfo := blobs.foldl (fun m b => m.insert b.addr b) ∅
  -- A holder above the ceiling is reported, and loses nothing for that.
  let overQuota := (holders.filter fun h => policy.maxLeasedBytes < h.leasedBytes index).foldl
    (fun m h => m.insert h.id (h.leasedBytes index)) (∅ : OrdMap Digest UInt64)
  blobs.foldl (planBlob holders floor policy now) { SweepPlan.empty with overQuota }

end NasTools
