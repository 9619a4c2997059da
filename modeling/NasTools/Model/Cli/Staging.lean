import NasTools.Lib.Machine
import NasTools.Model.Cli.Fleet

/-! Several processes over one outbox: enqueues and replays, one file operation at a time. -/

namespace NasTools

/-- A delta that a replay has read: the number in its name, its bytes, and what they decode to. -/
structure Staged where
  seq : UInt64
  bytes : Bytes
  delta : BucketManifest

/-- What a process asks of the outbox. -/
inductive OutboxCall where
  | enqueue (delta : BucketManifest)
  | replay

/-- Where a process stands between two file operations. -/
inductive Task where
  | idle
  -- An enqueue lists the directory for a number, and then writes its file.
  | listing (delta : BucketManifest)
  | writing (delta : BucketManifest) (bytes : Bytes) (seq : UInt64)
  -- A replay lists the directory and reads the files one by one,
  | loading
  | reading (rest : List UInt64) (read : List Staged)
  -- reads the published bucket, stores the merged one, and replaces the head,
  | basing (read : List Staged)
  | storing (read : List Staged) (base : BucketManifest)
  | heading (read : List Staged) (base : BucketManifest) (addr : Addr)
  -- and lists the directory again to remove what is there one by one.
  | clearing (read : List Staged)
  | removing (rest : List UInt64) (read : List Staged)

/-- Write a file of the outbox, over whatever is there. -/
def Outbox.write (b : Outbox) (seq : UInt64) (bytes : Bytes) : Outbox :=
  { b with files := b.files.insert seq bytes }

/-- Remove a file of the outbox. -/
def Outbox.remove (b : Outbox) (seq : UInt64) : Outbox := { b with files := b.files.erase seq }

variable [Crypto]

namespace Site

/--
The next file operation of a process: where that leaves it, what it leaves on the site, and the
delta it accepts.

A process that fails is done. The listing of a clear is in whatever order the directory has.
-/
def proceed (x : Site) (w : Surroundings) (listed : List UInt64) :
    Task → Task × Site × Option BucketManifest
  | .idle => (.idle, x, none)
  | .listing delta =>
    -- A directory that cannot be listed counts as an empty one.
    let seq := match w.read with
      | .ok () => x.outbox.nextSeq
      | .error _ => 1
    match delta.encode with
    | .error _ => (.idle, x, none)
    | .ok bytes => (.writing delta bytes seq, x, none)
  | .writing delta bytes seq =>
    match w.outbox with
    | .error _ => (.idle, x, none)
    | .ok () => (.idle, { x with outbox := x.outbox.write seq bytes }, some delta)
  | .loading =>
    match w.read with
    | .error _ => (.idle, x, none)
    | .ok () => (.reading (x.outbox.inOrder.map Prod.fst) [], x, none)
  | .reading [] read => (if read.isEmpty then .idle else .basing read, x, none)
  | .reading (seq :: rest) read =>
    match w.read, x.outbox.files[seq]? with
    | .ok (), some bytes =>
      match BucketManifest.decode bytes with
      | .error _ => (.idle, x, none)
      | .ok delta => (.reading rest (read ++ [⟨seq, bytes, delta⟩]), x, none)
    | _, _ => (.idle, x, none)
  | .basing read =>
    match x.loadPublishedHead with
    | .error _ => (.idle, x, none)
    | .ok base => (.storing read base, x, none)
  | .storing read base =>
    match x.storeBucket w (Outbox.fold base (read.map Staged.delta)) with
    | (.error _, x) => (.idle, x, none)
    | (.ok addr, x) => (.heading read base addr, x, none)
  | .heading read _ addr =>
    match x.setHead w addr with
    | (.error _, x) => (.idle, x, none)
    | (.ok _, x) => (.clearing read, x, none)
  | .clearing read =>
    match w.read with
    | .error _ => (.idle, x, none)
    | .ok () => (.removing listed read, x, none)
  | .removing [] _ => (.idle, x, none)
  | .removing (seq :: rest) read =>
    match w.outbox, x.outbox.files[seq]? with
    | .ok (), some _ => (.removing rest read, { x with outbox := x.outbox.remove seq }, none)
    | _, _ => (.idle, x, none)

/-- Whether a file operation can go that way, storing none but known blobs. -/
def Takes (blobs : Set Bytes) (x : Site) (w : Surroundings) (listed : List UInt64) : Task → Prop
  | .storing read base =>
    ∀ data ∈ (x.bucketKeys.sealBucket x.device.mode w.nonce
      (Outbox.fold base (read.map Staged.delta))).toOption, data ∈ blobs
  | .clearing _ => listed.Perm x.outbox.files.keys
  | _ => True

instance (blobs : List Bytes) (x : Site) (w : Surroundings) (listed : List UInt64) :
    (task : Task) → Decidable (x.Takes {data | data ∈ blobs} w listed task)
  | .storing read base =>
    inferInstanceAs (Decidable (∀ data ∈ (x.bucketKeys.sealBucket x.device.mode w.nonce
      (Outbox.fold base (read.map Staged.delta))).toOption, data ∈ blobs))
  | .clearing _ => inferInstanceAs (Decidable (listed.Perm x.outbox.files.keys))
  | .idle | .listing _ | .writing _ _ _ | .loading | .reading _ _ | .basing _ | .heading _ _ _
  | .removing _ _ => isTrue trivial

/--
A file operation that undoes no other process's work.

A file is written under a free number, the head replaced is the one that was merged onto, and the
file removed is one that was merged.
-/
def Careful (x : Site) : Task → Prop
  | .writing _ _ seq => x.outbox.files[seq]? = none
  | .heading _ base _ => x.loadPublishedHead = .ok base
  | .removing (seq :: _) read =>
    ∀ bytes ∈ x.outbox.files[seq]?, ∃ staged ∈ read, staged.seq = seq ∧ staged.bytes = bytes
  | _ => True

instance (x : Site) : (task : Task) → Decidable (x.Careful task)
  | .writing _ _ seq => inferInstanceAs (Decidable (x.outbox.files[seq]? = none))
  | .heading _ base _ => inferInstanceAs (Decidable (x.loadPublishedHead = .ok base))
  | .removing (seq :: _) read => inferInstanceAs (Decidable (∀ bytes ∈ x.outbox.files[seq]?,
      ∃ staged ∈ read, staged.seq = seq ∧ staged.bytes = bytes))
  | .idle | .listing _ | .loading | .reading _ _ | .basing _ | .storing _ _ | .clearing _
  | .removing [] _ => isTrue trivial

end Site

/-- Some processes at work on one site, with the deltas whose enqueue has returned. -/
structure Staging (I : Type) where
  site : Site
  tasks : I → Task
  accepted : List BucketManifest

namespace Staging

/-- One event: a call, one file operation of a process, or the end of a process half way. -/
inductive Event (I : Type) where
  | call (i : I) (request : OutboxCall)
  | go (i : I) (w : Surroundings) (listed : List UInt64)
  | halt (i : I)
  -- A put stores the chunks of its file before it enqueues.
  | keep (w : Surroundings) (chunks : List Bytes)

/-- Where a call starts. -/
def start : OutboxCall → Task
  | .enqueue delta => .listing delta
  | .replay => .loading

variable {I : Type} [DecidableEq I]

/-- Replace the task of one process. -/
def place (s : Staging I) (i : I) (task : Task) : Staging I :=
  { s with tasks := Function.update s.tasks i task }

/-- What an event leaves. -/
def step (s : Staging I) : Event I → Staging I
  | .call i request =>
    match s.tasks i with
    | .idle => s.place i (start request)
    | _ => s
  | .go i w listed =>
    let (task, site, delta) := s.site.proceed w listed (s.tasks i)
    { s.place i task with site, accepted := delta.toList ++ s.accepted }
  | .halt i => s.place i .idle
  | .keep w chunks =>
    { s with site := { s.site with device := { s.site.device with
      blobs := s.site.device.blobs.putAll w.blob w.now chunks } } }

/-- Whether an event can go that way, storing none but known blobs. -/
def Takes (blobs : Set Bytes) (s : Staging I) : Event I → Prop
  | .call _ _ | .halt _ => True
  | .go i w listed => s.site.Takes blobs w listed (s.tasks i)
  | .keep _ chunks => ∀ data ∈ chunks, data ∈ blobs

instance (blobs : List Bytes) (s : Staging I) :
    (e : Event I) → Decidable (s.Takes {data | data ∈ blobs} e)
  | .call _ _ | .halt _ => isTrue trivial
  | .go i w listed => inferInstanceAs (Decidable (s.site.Takes _ w listed (s.tasks i)))
  | .keep _ chunks => inferInstanceAs (Decidable (∀ data ∈ chunks, data ∈ blobs))

/-- Nothing has been called yet, whatever is on the site. -/
structure Started (c : Credentials) (blobs : Set Bytes) (s : Staging I) : Prop where
  site : s.site.Of c
  within : s.site.device.Within blobs
  tasks : ∀ i, s.tasks i = .idle
  accepted : s.accepted = []

end Staging

/-- A delta is in some file of the outbox. -/
def Outbox.Holds (b : Outbox) (delta : BucketManifest) : Prop :=
  ∃ (seq : UInt64) (bytes : Bytes), b.files[seq]? = some bytes ∧ delta.encode = .ok bytes

instance (b : Outbox) (delta : BucketManifest) : Decidable (b.Holds delta) :=
  decidable_of_iff (∃ file ∈ b.files.toList, delta.encode = .ok file.2) (by
    simp [Outbox.Holds, Std.ExtTreeMap.mem_toList_iff_getElem?_eq_some])

/-- A delta has been merged into the published bucket. -/
def Site.Published (x : Site) (delta : BucketManifest) : Prop :=
  ∃ head, x.loadPublishedHead = .ok head ∧ head.Absorbs delta

instance (x : Site) (delta : BucketManifest) : Decidable (x.Published delta) :=
  decidable_of_iff (∃ head ∈ x.loadPublishedHead.toOption, head.Absorbs delta) (by
    cases loaded : x.loadPublishedHead <;> simp [Site.Published, loaded, Except.toOption])

namespace Staging

variable {I : Type}

/-- Every accepted delta is in the outbox, or merged into the published bucket. -/
def NothingLost (s : Staging I) : Prop :=
  ∀ delta ∈ s.accepted, s.site.outbox.Holds delta ∨ s.site.Published delta

instance (s : Staging I) : Decidable s.NothingLost :=
  inferInstanceAs (Decidable (∀ delta ∈ s.accepted, s.site.outbox.Holds delta ∨
    s.site.Published delta))

/-- An event that undoes no other process's work. -/
def Careful (s : Staging I) : Event I → Prop
  | .go i _ _ => s.site.Careful (s.tasks i)
  | _ => True

instance (s : Staging I) : (e : Event I) → Decidable (s.Careful e)
  | .go i _ _ => inferInstanceAs (Decidable (s.site.Careful (s.tasks i)))
  | .call _ _ | .halt _ | .keep _ _ => isTrue trivial

end Staging

/-- The processes as a machine. -/
def staging (I : Type) [DecidableEq I] : Machine (Staging I) (Staging.Event I) Unit where
  step s e := ((), s.step e)

end NasTools
