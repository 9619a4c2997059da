import NasTools.Lib.Machine
import NasTools.Proofs.Holdings
import NasTools.Proofs.Quota
import NasTools.Proofs.Sweeping

/-!
The collector takes no protected blob: none retained, none young, and none leased by a
holder it may still hear of.
-/

namespace NasTools

section

variable [Crypto]

/-- The reading of the clock an operation on blobs or leases is made at. -/
def PeerOp.clock : PeerOp → Option Timestamp
  | .putBlob _ now _ | .prove _ now _ _ | .sweep _ _ _ now _ | .takeLease _ _ _ now | .releaseLease
    _ _ _ now => some now
  | _ => none

/-- An operation and its answer. -/
abbrev PeerEntry := PeerOp × Except PeerError Unit

namespace PeerEntry

/-- A client handed over, or was proven, the bytes of an address at some time. -/
def Uploads (addressing : Addressing) (a : Addr) (t : Timestamp) : PeerEntry → Prop
  | (.putBlob _ now data, .ok ()) => addressing.addrOf data = a ∧ now = t
  | (.prove _ now addr _, .ok ()) => addr = a ∧ now = t
  | _ => False

/-- A holder took a lease on an address. -/
def Takes (holder : Digest) (a : Addr) : PeerEntry → Prop
  | (.takeLease _ taker addrs _, .ok ()) => taker = holder ∧ a ∈ addrs
  | _ => False

/-- A holder asked to drop its lease on an address. -/
def Drops (holder : Digest) (a : Addr) : PeerEntry → Prop
  | (.releaseLease _ taker addrs _, _) => taker = holder ∧ a ∈ addrs
  | _ => False

/-- A holder took or released leases at some time. -/
def HeardOf (holder : Digest) (t : Timestamp) : PeerEntry → Prop
  | (.takeLease _ taker _ now, .ok ()) => taker = holder ∧ now = t
  | (.releaseLease _ taker _ now, _) => taker = holder ∧ now = t
  | _ => False

omit [Crypto] in
/-- Whoever takes a lease is heard of. -/
theorem heardOf_of_takes {holder : Digest} {a : Addr} {entry : PeerEntry}
    (takes : Takes holder a entry) :
    ∃ t, HeardOf holder t entry := by
  unfold Takes at takes
  split at takes
  · exact ⟨_, takes.1, rfl⟩
  · cases takes

/-- Whatever is said of a time is said of the clock. -/
theorem clock_of_uploads {addressing : Addressing} {a : Addr} {t : Timestamp} {entry : PeerEntry}
    (uploads : Uploads addressing a t entry) : entry.1.clock = some t := by
  -- Only two operations upload, and each names its time.
  unfold Uploads at uploads
  split at uploads
  · exact congrArg some uploads.2
  · exact congrArg some uploads.2
  · cases uploads

omit [Crypto] in
/-- An operation that a holder is heard by names its time. -/
theorem clock_of_heardOf {holder : Digest} {t : Timestamp} {entry : PeerEntry}
    (heard : HeardOf holder t entry) :
    entry.1.clock = some t := by
  -- Only two operations are heard from a holder.
  unfold HeardOf at heard
  split at heard
  · exact congrArg some heard.2
  · exact congrArg some heard.2
  · cases heard

end PeerEntry

/-- The readings of the clock in a log, in order. -/
def clocks (log : List PeerEntry) : List Timestamp := log.filterMap fun entry => entry.1.clock

omit [Crypto] in
/-- Everything before one more operation was made no later than it. -/
theorem le_of_clocks {log : List PeerEntry} {entry earlier : PeerEntry} {t now : Timestamp}
    (sorted : (clocks (log ++ [entry])).Pairwise (· ≤ ·)) (member : earlier ∈ log)
    (before : earlier.1.clock = some t) (clock : entry.1.clock = some now) : t ≤ now := by
  rw [clocks, List.filterMap_append, List.pairwise_append] at sorted
  refine sorted.2.2 t (List.mem_filterMap.mpr ⟨earlier, member, before⟩) now ?_
  exact List.mem_filterMap.mpr ⟨entry, List.mem_singleton_self _, clock⟩

namespace Peer

variable {p : Peer}

/--
What a collection at some time owes to a run.

It spares the retention floor, what was uploaded less than the grace ago, and what is leased by a
holder heard of no longer ago than expiry and notice together.
-/
def Protected (log : List PeerEntry) (p : Peer) (now : Timestamp) (a : Addr) : Prop :=
  a ∈ p.retention ∨
    (∃ t, ∃ entry ∈ log, entry.Uploads p.blobs.addressing a t ∧
      now.toNat < t.toNat + p.gcPolicy.grace.toNat) ∨
    ∃ holder t, Since (PeerEntry.Takes holder a) (PeerEntry.Drops holder a) log ∧
      (∃ entry ∈ log, entry.HeardOf holder t) ∧
      now.toNat ≤ t.toNat + p.gcPolicy.leaseExpiry.toNat + p.gcPolicy.notice.toNat

/-- What the peer remembers of a run. -/
structure Remembers (log : List PeerEntry) (p : Peer) : Prop where
  -- A blob that is here was written or touched no earlier than its last upload.
  uploads : ∀ a file, p.blobs.files[a]? = some file →
    ∀ t, ∀ entry ∈ log, entry.Uploads p.blobs.addressing a t → t ≤ file.modified
  -- A lease is on file, with its holder heard of no earlier than it was.
  leases : ∀ holder a, Since (PeerEntry.Takes holder a) (PeerEntry.Drops holder a) log →
    ∃ set seen, p.leases[holder]? = some (set, seen) ∧ a ∈ set ∧
      ∀ t, ∀ entry ∈ log, entry.HeardOf holder t → t ≤ seen

/--
What one operation does to the files: it thins them out, or it touches the blob that was uploaded.
-/
theorem step_files (op : PeerOp) :
    (Thinned p (peer.step p op).2 ∧
        ∀ a t, ¬PeerEntry.Uploads p.blobs.addressing a t (op, (peer.step p op).1)) ∨
      ∃ addr now content, op.clock = some now ∧
        Touched p.blobs (peer.step p op).2.blobs addr now content ∧
        ∀ a t answer, PeerEntry.Uploads p.blobs.addressing a t (op, answer) → a = addr := by
  -- An operation of the blob part thins the files out or touches one of them.
  by_cases writes : op.part = .blobs
  · cases op with
    | putBlob disk now data =>
      rcases put_touches p.blobs disk now data with ⟨⟨e, failed⟩, same⟩ | ⟨_, content, touched, _⟩
      · refine .inl ⟨⟨congrArg BlobStore.addressing same, fun a => .inl ?_⟩, ?_⟩
        · rw [show (peer.step p (.putBlob disk now data)).2.blobs = p.blobs from same]
        · intro a t uploads
          have answer : (peer.step p (.putBlob disk now data)).1 = .error (.store e) := by
            show (((p.blobs.put disk now data).1.mapError PeerError.store).map fun _ => ()) = _
            rw [failed]
            rfl
          rw [answer] at uploads
          exact uploads
      · refine .inr ⟨_, now, content, rfl, touched, ?_⟩
        intro a t answer uploads
        cases answer with
        | ok u => exact uploads.1.symm
        | error e => cases uploads
    | prove disk now addr nonce =>
      rcases prove_touches p.blobs disk now addr nonce with ⟨⟨e, failed⟩, same⟩ |
        ⟨_, content, _, touched⟩
      · refine .inl ⟨⟨congrArg BlobStore.addressing same, fun a => .inl ?_⟩, ?_⟩
        · rw [show (peer.step p (.prove disk now addr nonce)).2.blobs = p.blobs from same]
        · intro a t uploads
          have answer : (peer.step p (.prove disk now addr nonce)).1 = .error (.store e) := by
            show (((p.blobs.prove disk now addr nonce).1.mapError PeerError.store).map
              fun _ => ()) = _
            rw [failed]
            rfl
          rw [answer] at uploads
          exact uploads
      · refine .inr ⟨addr, now, content, rfl, touched, ?_⟩
        intro a t answer uploads
        cases answer with
        | ok u => exact uploads.1.symm
        | error e => cases uploads
    | deleteBlob disk addr =>
      exact .inl ⟨⟨(deleteBlob_files disk addr addr).1, fun a => (deleteBlob_files disk addr a).2⟩,
        fun a t => id⟩
    | sweep disk holders policy now dryRun =>
      exact .inl ⟨sweep_thinned disk holders policy now dryRun, fun a t => id⟩
    | _ => cases writes
  · refine .inl ⟨⟨?_, fun a => .inl ?_⟩, ?_⟩
    · rw [(step_onlyIn op).blobs writes]
    · rw [(step_onlyIn op).blobs writes]
    · intro a t uploads
      cases op <;> first | exact uploads | exact writes rfl

/-- No operation makes the peer forget when a blob was last uploaded. -/
theorem step_uploads {log : List PeerEntry} (remembers : Remembers log p) (op : PeerOp)
    (sorted : (clocks (log ++ [(op, (peer.step p op).1)])).Pairwise (· ≤ ·)) {a : Addr}
    {file : BlobFile} (filed : (peer.step p op).2.blobs.files[a]? = some file) {t : Timestamp}
    {entry : PeerEntry} (member : entry ∈ log ++ [(op, (peer.step p op).1)])
    (uploads : entry.Uploads (peer.step p op).2.blobs.addressing a t) : t ≤ file.modified := by
  -- The file was there with its time, or it has just got one that is no earlier.
  rcases step_files (p := p) op with ⟨thinned, none⟩ | ⟨addr, now, content, clock, touched, only⟩
  · rw [thinned.addressing] at uploads
    rcases thinned.files a with same | gone
    · rw [same] at filed
      rcases List.mem_append.mp member with before | last
      · exact remembers.uploads a file filed t entry before uploads
      · rw [List.mem_singleton.mp last] at uploads
        exact absurd uploads (none a t)
    · rw [gone] at filed
      cases filed
  · rw [touched.files] at filed uploads
    by_cases here : addr = a
    · -- The file carries the time of this operation, which no earlier one was made after.
      subst here
      rw [Std.ExtTreeMap.getElem?_insert_self, Option.some.injEq] at filed
      subst filed
      rcases List.mem_append.mp member with before | last
      · exact le_of_clocks sorted before (PeerEntry.clock_of_uploads uploads) clock
      · have at_ := PeerEntry.clock_of_uploads uploads
        rw [List.mem_singleton.mp last] at at_
        exact UInt64.le_of_eq (Option.some.inj (at_.symm.trans clock))
    · rw [Std.ExtTreeMap.getElem?_insert,
        if_neg (fun equal => here (Std.LawfulEqCmp.eq_of_compare equal))] at filed
      rcases List.mem_append.mp member with before | last
      · exact remembers.uploads a file filed t entry before uploads
      · rw [List.mem_singleton.mp last] at uploads
        exact absurd (only a t _ uploads).symm here

/-- A holder after one operation: as it was, or heard of at the time of that operation. -/
theorem step_holder (op : PeerOp) (holder : Digest) :
    ((peer.step p op).2.leases[holder]? = p.leases[holder]? ∧
        ∀ t, ¬PeerEntry.HeardOf holder t (op, (peer.step p op).1)) ∨
      (p.leases[holder]? = none ∧ ∀ a, ¬PeerEntry.Takes holder a (op, (peer.step p op).1)) ∨
      ∃ now set, op.clock = some now ∧ (peer.step p op).2.leases[holder]? = some (set, now) ∧
        (∀ a, PeerEntry.Takes holder a (op, (peer.step p op).1) → a ∈ set) ∧
        ∀ a old seen, p.leases[holder]? = some (old, seen) → a ∈ old →
          ¬PeerEntry.Drops holder a (op, (peer.step p op).1) → a ∈ set := by
  -- An operation is about another holder, about one that is unknown, or about this one.
  by_cases writes : op.part = .leases
  · cases op with
    | takeLease disk taker addrs now =>
      rcases takeLease_cases (p := p) disk taker addrs now with ⟨_, e, refused⟩ | ⟨_, taken, _⟩
      · left
        have stepped : peer.step p (.takeLease disk taker addrs now) = (.error e, p) := by
          show answered (p.takeLease disk taker addrs now) = _
          rw [refused]
          rfl
        rw [stepped]
        exact ⟨rfl, fun t => id⟩
      · have stepped : (peer.step p (.takeLease disk taker addrs now)).2 =
          p.leased taker addrs now := taken
        rw [stepped, leased, Std.ExtTreeMap.getElem?_insert]
        by_cases here : taker = holder
        · subst here
          right; right
          refine ⟨now, p.wouldLease taker addrs, rfl, by simp, ?_, ?_⟩
          · intro a takes
            cases answer : (peer.step p (.takeLease disk taker addrs now)).1 with
            | error e =>
              rw [answer] at takes
              cases takes
            | ok u =>
              rw [answer] at takes
              exact OrdSet.mem_insertAll.mpr (.inl takes.2)
          · intro a old seen entry held _
            refine OrdSet.mem_insertAll.mpr (.inr ?_)
            rw [entry]
            exact held
        · left
          rw [if_neg (fun equal => here (Std.LawfulEqCmp.eq_of_compare equal))]
          refine ⟨rfl, ?_⟩
          intro t heard
          cases answer : (peer.step p (.takeLease disk taker addrs now)).1 with
          | error e =>
            rw [answer] at heard
            cases heard
          | ok u =>
            rw [answer] at heard
            exact here heard.1
    | releaseLease disk taker addrs now =>
      have stepped : (peer.step p (.releaseLease disk taker addrs now)).2 =
        p.released taker addrs now := rfl
      rw [stepped, released]
      by_cases here : taker = holder
      · subst here
        right
        cases entry : p.leases[taker]? with
        | none => exact .inl ⟨rfl, fun a => id⟩
        | some pair =>
          refine .inr ⟨now, addrs.foldl (fun set a => set.erase a) pair.1,
            rfl, by simp, fun a => False.elim, ?_⟩
          intro a old seen is held kept
          obtain rfl := Option.some.inj is
          refine OrdSet.mem_eraseAll.mpr ⟨held, fun listed => kept ⟨rfl, listed⟩⟩
      · left
        refine ⟨?_, fun t heard => here heard.1⟩
        cases entry : p.leases[taker]? with
        | none => rfl
        | some pair =>
          show (p.leases.insert taker _)[holder]? = _
          rw [Std.ExtTreeMap.getElem?_insert,
            if_neg (fun equal => here (Std.LawfulEqCmp.eq_of_compare equal))]
    | _ => cases writes
  · left
    rw [(step_onlyIn op).leases writes]
    refine ⟨rfl, ?_⟩
    intro t heard
    cases op <;> first | exact heard | exact writes rfl

/--
No operation makes the peer forget a lease that was not dropped, or when its holder was heard of.
-/
theorem step_lease {log : List PeerEntry} (remembers : Remembers log p) (op : PeerOp)
    (sorted : (clocks (log ++ [(op, (peer.step p op).1)])).Pairwise (· ≤ ·))
    {holder : Digest} {a : Addr}
    (leases : Since (PeerEntry.Takes holder a) (PeerEntry.Drops holder a)
      (log ++ [(op, (peer.step p op).1)])) :
    ∃ set seen, (peer.step p op).2.leases[holder]? = some (set, seen) ∧ a ∈ set ∧
      ∀ t, ∀ entry ∈ log ++ [(op, (peer.step p op).1)], entry.HeardOf holder t → t ≤ seen := by
  -- An operation that is about the holder keeps what is not dropped and adds what is taken.
  rw [since_append] at leases
  rcases step_holder (p := p) op holder with ⟨same, unheard⟩ | ⟨unknown, untaken⟩ |
    ⟨now, set, clock, filed, takes, keeps⟩
  · -- The operation is not about this holder.
    rcases leases with taken | ⟨before, _⟩
    · obtain ⟨t, heard⟩ := PeerEntry.heardOf_of_takes taken
      exact absurd heard (unheard t)
    · obtain ⟨set, seen, held, member, last⟩ := remembers.leases holder a before
      refine ⟨set, seen, same.trans held, member, ?_⟩
      intro t entry among heard
      rcases List.mem_append.mp among with earlier | now
      · exact last t entry earlier heard
      · rw [List.mem_singleton.mp now] at heard
        exact absurd heard (unheard t)
  · rcases leases with taken | ⟨before, _⟩
    · exact absurd taken (untaken a)
    · obtain ⟨set, seen, held, _⟩ := remembers.leases holder a before
      rw [unknown] at held
      cases held
  · refine ⟨set, now, filed, ?_, ?_⟩
    · rcases leases with taken | ⟨before, kept⟩
      · exact takes a taken
      · obtain ⟨old, seen, held, member, _⟩ := remembers.leases holder a before
        exact keeps a old seen held member kept
    · intro t entry among heard
      have at_ := PeerEntry.clock_of_heardOf heard
      rcases List.mem_append.mp among with earlier | last
      · exact le_of_clocks sorted earlier at_ clock
      · rw [List.mem_singleton.mp last] at at_
        exact UInt64.le_of_eq (Option.some.inj (at_.symm.trans clock))

/-- A peer remembers every run whose clock never goes back. -/
theorem remembers_run (start : Peer) {ops : List PeerOp}
    (sorted : (ops.filterMap PeerOp.clock).Pairwise (· ≤ ·)) :
    Remembers (peer.log start ops) (peer.run start ops) := by
  -- Induction over the run from its end.
  have reading : clocks (peer.log start ops) = ops.filterMap PeerOp.clock := by
    have read : (peer.log start ops).map Prod.fst = ops := Machine.map_fst_log
    rw [← read, List.filterMap_map]
    simp [clocks]
  have kept : (clocks (peer.log start ops)).Pairwise (· ≤ ·) →
      Remembers (peer.log start ops) (peer.run start ops) :=
    Machine.log_invariant (P := fun log p => (clocks log).Pairwise (· ≤ ·) → Remembers log p)
    (fun _ => ⟨fun _ _ _ _ _ => by simp, fun _ _ leases => by simp [Since] at leases⟩)
      Machine.permits_always
    fun past p op _ held sorted => by
      -- The clock was in order before the last operation too.
      have remembers :=
        held (sorted.sublist (List.Sublist.filterMap _ (List.sublist_append_left _ _)))
      exact ⟨fun a file filed t entry member uploads => step_uploads remembers op sorted filed
        member uploads, fun holder a leases => step_lease remembers op sorted leases⟩
  exact kept (reading ▸ sorted)

omit [Crypto] in
/-- A blob uploaded less than the grace ago is not old. -/
theorem young_of_uploaded {t modified now grace : UInt64} (touched : t ≤ modified) (past : t ≤ now)
    (young : now.toNat < t.toNat + grace.toNat) :
      ¬grace ≤ Timestamp.saturatingSince now modified := by
  rw [UInt64.le_iff_toNat_le] at *
  rw [Timestamp.saturatingSince, toNat_satSub]
  omega

omit [Crypto] in
/-- A holder heard of within expiry and notice has not expired. -/
theorem status_ne_expired {t now : Timestamp} {h : Holder} {policy : GcPolicy}
    (seen : t ≤ h.lastSeen)
    (recent : now.toNat ≤ t.toNat + policy.leaseExpiry.toNat + policy.notice.toNat) :
    h.status now policy ≠ .expired := by
  -- The sums do not reach past the present time.
  have bound := now.toNat_lt
  rw [ne_eq, status_eq_expired_iff, UInt64.not_lt, UInt64.le_iff_toNat_le, GcPolicy.lastOf,
    toNat_satAdd, toNat_satAdd]
  rw [UInt64.le_iff_toNat_le] at seen
  omega

/-- A peer stays honest. -/
theorem run_honest {start : Peer} (honest : start.hostility = .honest) (ops : List PeerOp) :
    (peer.run start ops).hostility = .honest :=
  Machine.run_invariant (P := fun p : Peer => p.hostility = .honest) honest Machine.permits_always
    fun _ op _ held => (step_onlyIn op).hostility.trans held

/--
The collector never takes protected data, over every run of an honest peer whose
clock never goes back.

A release counts from the moment it is asked for.
-/
theorem collector_spares_protected {start : Peer} (honest : start.hostility = .honest)
    (ops : List PeerOp) (disk : Addr → Disk) (now : Timestamp) (dryRun : Bool)
    (sorted : (ops.filterMap PeerOp.clock ++ [now]).Pairwise (· ≤ ·)) {a : Addr}
    (guarded : Protected (peer.log start ops) (peer.run start ops) now a) :
    KeptBlob (peer.run start ops) ((peer.run start ops).sweep disk (peer.run start ops).holders
      (peer.run start ops).gcPolicy now dryRun).2 a := by
  -- The peer remembers the run up to the sweep, and the plan looks at what it remembers.
  obtain ⟨ordered, _, latest⟩ := List.pairwise_append.mp sorted
  have remembers := remembers_run start ordered
  refine sweep_kept (run_honest honest ops) disk _ _ now dryRun ?_
  rcases guarded with retained | protects
  · exact .inl retained
  right
  intro taken
  -- The blob the plan takes is a file of the inventory, and nothing the planner
  -- looked at protects it.
  obtain ⟨b, listed, rfl, unprotected⟩ := mem_delete_iff.mp taken
  obtain ⟨⟨addr, file⟩, member, rfl⟩ := List.mem_map.mp listed
  have filed := Std.ExtTreeMap.mem_toList_iff_getElem?_eq_some.mp member
  rcases protects with ⟨t, entry, logged, uploads, young⟩ |
    ⟨holder, t, leases, ⟨entry, logged, heard⟩, recent⟩
  · have past : t ≤ now := by
      refine latest t ?_ now (List.mem_singleton_self _)
      have read : (peer.log start ops).map Prod.fst = ops := Machine.map_fst_log
      rw [← read]
      exact List.mem_filterMap.mpr ⟨_, List.mem_map_of_mem logged,
        PeerEntry.clock_of_uploads uploads⟩
    exact young_of_uploaded (remembers.uploads _ file filed t entry logged uploads) past young
      unprotected.old
  · obtain ⟨set, seen, held, inside, last⟩ := remembers.leases holder _ leases
    have listed : ⟨holder, set, seen⟩ ∈ (peer.run start ops).holders :=
      List.mem_map.mpr ⟨(holder, set, seen),
        Std.ExtTreeMap.mem_toList_iff_getElem?_eq_some.mpr held, rfl⟩
    exact status_ne_expired (h := ⟨holder, set, seen⟩) (last t entry logged heard) recent
      (unprotected.lapsed _ listed inside)

end Peer

end

section

open Concrete

/-- A blob stored and leased on the first day. -/
def leasedOps : List PeerOp :=
  [.putBlob (.ok ()) 1 [1], .takeLease (.ok ()) (digest [9]) [digest [1]] 2]

/-- A hundred days later the lease has expired, the notice still runs, and the blob is spared. -/
theorem leased_blob_survives_the_notice :
    (peer.run (Peer.new .e2ee .content .honest) leasedOps).blobs.has (digest [1]) = true ∧
      Peer.KeptBlob (peer.run (Peer.new .e2ee .content .honest) leasedOps)
        ((peer.run (Peer.new .e2ee .content .honest) leasedOps).sweep (fun _ => .ok ())
          (peer.run (Peer.new .e2ee .content .honest) leasedOps).holders
          (peer.run (Peer.new .e2ee .content .honest) leasedOps).gcPolicy (100 * day) false).2
            (digest [1]) := by
  -- The answers are evaluated, and the lease is the one taken in them.
  refine ⟨by decide, Peer.collector_spares_protected rfl leasedOps _ _ _ (by decide) ?_⟩
  have answers : peer.log (Peer.new .e2ee .content .honest) leasedOps = leasedOps.map fun op =>
      (op, .ok ()) := by
    have first :
        (peer.step (Peer.new .e2ee .content .honest) (.putBlob (.ok ()) 1 [1])).1 = .ok () := by
      decide
    have second :
      (peer.step (peer.step (Peer.new .e2ee .content .honest) (.putBlob (.ok ()) 1 [1])).2
        (.takeLease (.ok ()) (digest [9]) [digest [1]] 2)).1 = .ok () := by
      decide
    simp only [leasedOps, Machine.log, first, second, List.map_cons, List.map_nil]
  refine .inr (.inr ⟨digest [9], 2, ?_, ?_, by decide⟩)
  · rw [answers]
    exact ⟨[_], _, [], rfl, ⟨rfl, by simp⟩, by simp⟩
  · rw [answers]
    exact ⟨(.takeLease (.ok ()) (digest [9]) [digest [1]] 2, .ok ()), by simp [leasedOps], rfl, rfl⟩

end

end NasTools
