import NasTools.Model.Peer.Deletes

/-! Blobs and leases on a peer, and the collector that reads both. -/

namespace NasTools.Peer

variable [Crypto]

/-- The lease holder an access subject stands for. -/
def holderId (subject : String) : Digest :=
  Crypto.blake3 (asciiBytes "nas-tools/holder/v1" ++ utf8 subject)

/-- Store a blob. -/
def putBlob (p : Peer) (disk : Disk) (now : Timestamp) (data : Bytes) :
    Except PeerError Addr × Peer :=
  let (stored, blobs) := p.blobs.put disk now data
  (stored.mapError .store, { p with blobs })

/-- Flip one byte in the middle. -/
def tampered (data : Bytes) : Bytes := data.modify (data.length / 2) (· ^^^ 0xFF)

/-- Serve a blob. -/
def getBlob (p : Peer) (addr : Addr) : Except PeerError Bytes := do
  ensure (p.hostility.withhold = false) (.missing addr)
  let data ← (p.blobs.get addr).mapError .store
  return if p.hostility.tamper ∧ data ≠ [] then tampered data else data

/-- Whether the peer says it holds an address. -/
def hasBlob (p : Peer) (addr : Addr) : Bool := p.hostility.dedupLie || p.blobs.has addr

/-- Answer a proof of possession. -/
def prove (p : Peer) (disk : Disk) (now : Timestamp) (addr : Addr) (nonce : Digest) :
    Except PeerError Digest × Peer :=
  let (answer, blobs) := p.blobs.prove disk now addr nonce
  (answer.mapError .store, { p with blobs })

/-- Delete a blob, honouring retention. -/
def deleteBlob (p : Peer) (disk : Disk) (addr : Addr) : Except PeerError Unit × Peer :=
  if p.retains addr ∧ ¬p.hostility.ignoreRetention then (.error (.retentionHold addr), p)
  else
    let (removed, blobs) := p.blobs.remove disk addr
    (removed.mapError .store, { p with blobs })

/-- Every blob, with the size and time a sweep reads. -/
def inventory (p : Peer) : List BlobInfo :=
  p.blobs.files.toList.map fun (addr, file) =>
    ⟨addr, UInt64.ofNat file.content.length, file.modified⟩

/-- The sizes of the blobs held. -/
def blobSizes (p : Peer) : OrdMap Addr UInt64 :=
  p.inventory.foldl (fun m b => m.insert b.addr b.size) ∅

/-- Take leases on every address, or refuse the whole request. -/
def takeLease (p : Peer) (disk : Disk) (holder : Digest) (addrs : List Addr) (now : Timestamp) :
    Except PeerError UInt64 × Peer :=
  match addrs.find? fun a => ¬p.blobs.has a with
  | some a => (.error (.noSuchBlob a), p)
  | none =>
    let held := ((p.leases[holder]?).map Prod.fst).getD ∅
    let would := addrs.foldl (fun set a => set.insert a) held
    let sizes := p.blobSizes
    let total := (would.toList.filterMap fun a => sizes[a]?).foldl satAdd 0
    if p.gcPolicy.maxLeasedBytes < total then
      (.error (.quotaExceeded holder total p.gcPolicy.maxLeasedBytes), p)
    else
      -- In memory first, then on disk: a failed write leaves the leases taken.
      let p := { p with leases := p.leases.insert holder (would, now) }
      (match disk with
        | .ok () => .ok total
        | .error e => .error (.io e), p)

/-- Drop leases; addresses not held are ignored. -/
def releaseLease (p : Peer) (disk : Disk) (holder : Digest) (addrs : List Addr) (now : Timestamp) :
    Except PeerError Unit × Peer :=
  let p :=
    match p.leases[holder]? with
    | none => p
    | some (set, _) =>
      let kept := addrs.foldl (fun set a => set.erase a) set
      { p with leases := p.leases.insert holder (kept, now) }
  (disk.mapError .io, p)

/-- What a holder leases. -/
def leasesOf (p : Peer) (holder : Digest) : List Addr :=
  ((p.leases[holder]?).map fun entry => entry.1.toList).getD []

/-- Every holder, as the collector wants them. -/
def holders (p : Peer) : List Holder :=
  p.leases.toList.map fun (id, set, seen) => ⟨id, set, seen⟩

/-- What a returning holder stands to lose. -/
def sweepWarnings (p : Peer) (holder : Digest) (now : Timestamp) : List Addr :=
  (planSweep p.inventory p.holders p.retention p.gcPolicy now).warnings.getD holder []

/-- Delete what a plan takes, each file on its own, stopping at the first failure. -/
def deleteAll (p : Peer) (disk : Addr → Disk) : List Addr → Except PeerError Unit × Peer
  | [] => (.ok (), p)
  | addr :: rest =>
    match p.deleteBlob (disk addr) addr with
    | (.error e, p) => (.error e, p)
    | (.ok (), p) => p.deleteAll disk rest

/-- Plan a sweep, and carry it out unless it is a dry run. -/
def sweep (p : Peer) (disk : Addr → Disk) (holders : List Holder) (policy : GcPolicy)
    (now : Timestamp) (dryRun : Bool) : Except PeerError SweepPlan × Peer :=
  let floor := if p.hostility.ignoreRetention then ∅ else p.retention
  let plan := planSweep p.inventory holders floor policy now
  if dryRun then (.ok plan, p)
  else
    match p.deleteAll disk plan.delete with
    | (.error e, p) => (.error e, p)
    | (.ok (), p) => (.ok plan, p)

end NasTools.Peer
