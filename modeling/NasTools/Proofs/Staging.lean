import NasTools.Model.Cli.Concrete
import NasTools.Model.Cli.Sites
import NasTools.Model.Cli.Staging
import NasTools.Model.Store.Concrete

/-! What processes that share an outbox can lose of each other's writes, over every interleaving. -/

namespace NasTools

namespace Outbox

/-- What a bucket has taken into account stays so when deltas are folded onto it. -/
theorem fold_absorbs_left {base delta : BucketManifest} (absorbed : base.Absorbs delta)
    (deltas : List BucketManifest) : (fold base deltas).Absorbs delta := by
  induction deltas generalizing base with
  | nil => exact absorbed
  | cons other rest ih => exact ih (BucketManifest.absorbs_merge_left absorbed other)

/-- Folding takes every delta into account. -/
theorem fold_absorbs {deltas : List BucketManifest} {delta : BucketManifest}
    (member : delta ∈ deltas) (base : BucketManifest) : (fold base deltas).Absorbs delta := by
  -- Induction over the deltas: merging absorbs one, and it stays absorbed.
  induction deltas generalizing base with
  | nil => cases member
  | cons other rest ih =>
    rcases List.mem_cons.mp member with rfl | later
    · exact fold_absorbs_left (BucketManifest.absorbs_merge_right base delta) rest
    · exact ih later (base.merge other)

end Outbox

section

variable [Crypto]

namespace Site

variable {c : Credentials} {x y : Site} {blobs : Set Bytes}

/-- A site on the way: it keeps what no command changes, and its head takes in all that it had. -/
structure Advances (x y : Site) : Prop where
  kept : x.Kept y
  head : ∀ old, x.loadPublishedHead = .ok old →
    ∃ new, y.loadPublishedHead = .ok new ∧ ∀ delta, old.Absorbs delta → new.Absorbs delta

/-- A site whose head stays advances. -/
theorem Kept.advances (kept : x.Kept y) (same : y.device.head = x.device.head) : x.Advances y :=
  ⟨kept, fun old loaded => ⟨old, kept.loadPublishedHead same loaded, fun _ absorbed => absorbed⟩⟩

/-- What has been published stays published. -/
theorem Advances.published (advances : x.Advances y) {delta : BucketManifest}
    (published : x.Published delta) : y.Published delta := by
  obtain ⟨old, loaded, absorbed⟩ := published
  obtain ⟨new, later, more⟩ := advances.head old loaded
  exact ⟨new, later, more delta absorbed⟩

end Site

/-- Every file that was read decodes to the delta it was read as. -/
def Decoded (read : List Staged) : Prop :=
  ∀ staged ∈ read, BucketManifest.decode staged.bytes = .ok staged.delta

/-- What a process relies on about the site, where it stands. -/
def Site.Ready (x : Site) : Task → Prop
  -- A process that has read nothing relies on nothing.
  | .idle | .listing _ | .loading => True
  | .writing delta bytes _ => delta.encode = .ok bytes
  | .reading _ read | .basing read => Decoded read
  | .storing read base => Decoded read ∧ base.Valid
  -- The bucket it is about to publish can be read by then.
  | .heading read base addr =>
    Decoded read ∧ x.loadBucket addr = .ok (Outbox.fold base (read.map Staged.delta))
  | .clearing read | .removing _ read =>
    Decoded read ∧ ∀ staged ∈ read, x.Published staged.delta

/-- A delta that is not lost. -/
def Site.Safe (x : Site) (delta : BucketManifest) : Prop := x.outbox.Holds delta ∨ x.Published delta

namespace Site

variable {c : Credentials} {x y : Site} {blobs : Set Bytes}

/-- What a process relies on survives whatever the others do. -/
theorem Advances.ready (advances : x.Advances y) {task : Task} (ready : x.Ready task) :
    y.Ready task := by
  -- One place of the process after the other.
  cases task with
  -- What is held in memory is out of reach for the others.
  | idle | listing | loading | writing | reading | basing | storing => exact ready
  | heading read base addr => exact ⟨ready.1, advances.kept.loadBucket ready.2⟩
  -- What was published stays so under a head that takes in the earlier ones.
  | clearing read | removing rest read =>
    exact ⟨ready.1, fun staged member => advances.published (ready.2 staged member)⟩

/-- What one step of a process does for everybody. -/
structure Progress (blobs : Set Bytes) (x : Site)
    (next : Task × Site × Option BucketManifest) : Prop where
  advances : x.Advances next.2.1
  within : next.2.1.device.Within blobs
  ready : next.2.1.Ready next.1
  safe : ∀ delta, x.Safe delta → next.2.1.Safe delta
  accepted : ∀ delta, next.2.2 = some delta → next.2.1.Safe delta

/-- A step that changes nothing on the site. -/
theorem progress_still (within : x.device.Within blobs) {task : Task} (ready : x.Ready task) :
    x.Progress blobs (task, x, none) where
  -- The same site is left, and nothing was accepted.
  advances := (Kept.refl x).advances rfl
  within := within
  ready := ready
  safe _ safe := safe
  accepted _ impossible := nomatch impossible

/-- A step that changes the head or the blobs, and no file of the outbox. -/
theorem progress_published (advances : x.Advances y) (within : y.device.Within blobs)
    (outbox : y.outbox = x.outbox) {task : Task} (ready : y.Ready task) :
    x.Progress blobs (task, y, none) where
  -- The outbox is the same and what was published still is.
  advances := advances
  within := within
  ready := ready
  safe delta safe := by
    rcases safe with held | published
    · exact .inl (outbox ▸ held)
    · exact .inr (advances.published published)
  accepted _ impossible := nomatch impossible

/-- Writing a file under a free number loses nothing, and the delta written is held. -/
theorem progress_write (within : x.device.Within blobs) {delta : BucketManifest} {bytes : Bytes}
    {seq : UInt64} (encoded : delta.encode = .ok bytes) (free : x.outbox.files[seq]? = none) :
    x.Progress blobs (.idle, { x with outbox := x.outbox.write seq bytes }, some delta) where
  -- What is to be written is held by the process, or published already.
  advances := Kept.advances ⟨rfl, rfl, rfl, rfl, rfl, .refl _⟩ rfl
  within := within
  ready := trivial
  safe other safe := by
    rcases safe with ⟨number, stored, held, is⟩ | published
    · refine .inl ⟨number, stored, ?_, is⟩
      -- The number written was free, so it is not the one this delta is under.
      have apart : seq ≠ number := by
        intro same
        rw [same, held] at free
        cases free
      simp [Outbox.write, Std.ExtTreeMap.getElem?_insert, apart, held]
    · exact .inr published
  accepted other is := by
    obtain rfl := Option.some.inj is
    exact .inl ⟨seq, bytes, by simp [Outbox.write], encoded⟩

/-- Removing a file that was merged loses nothing. -/
theorem progress_remove (within : x.device.Within blobs) {seq : UInt64} {bytes : Bytes}
    {rest : List UInt64} {read : List Staged} (ready : x.Ready (.removing (seq :: rest) read))
    (held : x.outbox.files[seq]? = some bytes)
    (merged : ∃ staged ∈ read, staged.seq = seq ∧ staged.bytes = bytes) :
    x.Progress blobs (.removing rest read, { x with outbox := x.outbox.remove seq }, none) where
  -- Only the file of one delta is gone, and that delta is published.
  advances := Kept.advances ⟨rfl, rfl, rfl, rfl, rfl, .refl _⟩ rfl
  within := within
  ready := ready
  safe delta safe := by
    rcases safe with ⟨number, stored, found, encoded⟩ | published
    · by_cases same : seq = number
      · -- The file removed is the delta that was read from it, and that one is published.
        subst same
        obtain ⟨staged, member, _, is⟩ := merged
        rw [held, Option.some.injEq] at found
        have read := ready.1 staged member
        rw [is, found] at read
        rw [← BucketManifest.eq_of_decode_encode encoded read]
        exact .inr (ready.2 staged member)
      · exact .inl ⟨number,
          stored, by simp [Outbox.remove, Std.ExtTreeMap.getElem?_erase, same, found], encoded⟩
    · exact .inr published
  accepted _ impossible := nomatch impossible

/-- Replacing the head that was merged onto loses nothing. -/
theorem progress_head (within : x.device.Within blobs) {w : Surroundings} {read : List Staged}
    {base : BucketManifest} {addr : Addr} (ready : x.Ready (.heading read base addr))
    (current : x.loadPublishedHead = .ok base) {listed : List UInt64} :
    x.Progress blobs (x.proceed w listed (.heading read base addr)) := by
  -- The head is replaced or it is not.
  cases disk : w.head with
  -- A head that is not replaced stays as it was, and the process gives up.
  | error e =>
    simp only [proceed, setHead, disk]
    exact progress_still within trivial
  | ok u =>
    simp only [proceed, setHead, disk]
    have kept : x.Kept { x with device := { x.device with head := some (.ok addr) } } :=
      ⟨rfl, rfl, rfl, rfl, rfl, .refl _⟩
    -- The new head is the old one with everything that was read folded onto it.
    have published : Site.loadPublishedHead
        { x with device := { x.device with head := some (.ok addr) } } =
        .ok (Outbox.fold base (read.map Staged.delta)) := by
      simp [loadPublishedHead, kept.loadBucket ready.2]
    apply progress_published ⟨kept, ?_⟩ within rfl
    · refine ⟨ready.1, fun staged member => ⟨_, published, Outbox.fold_absorbs ?_ base⟩⟩
      exact List.mem_map_of_mem member
    · intro old loaded
      rw [current, Except.ok.injEq] at loaded
      subst loaded
      exact ⟨_, published, fun delta absorbed => Outbox.fold_absorbs_left absorbed _⟩

/-- Storing the merged bucket loses nothing, and the bucket stored is the one merged. -/
theorem progress_store (is : x.Of c) (opens : c.bucketKeys.Opens)
    (distinct : Set.InjOn c.addressing.addrOf blobs) (within : x.device.Within blobs)
    {w : Surroundings} {read : List Staged} {base : BucketManifest}
    (ready : x.Ready (.storing read base)) {listed : List UInt64}
    (takes : x.Takes blobs w listed (.storing read base)) :
    x.Progress blobs (x.proceed w listed (.storing read base)) := by
  -- The merged bucket is valid, and so it is stored.
  have valid : (Outbox.fold base (read.map Staged.delta)).Valid := by
    apply Outbox.valid_fold ready.2
    intro delta member
    obtain ⟨staged, inRead, rfl⟩ := List.mem_map.mp member
    exact BucketManifest.valid_of_decode (ready.1 staged inRead)
  -- The sealed bucket is one of the known blobs.
  have known (data : Bytes) (sealed : x.bucketKeys.sealBucket x.device.mode w.nonce
      (Outbox.fold base (read.map Staged.delta)) = .ok data) : data ∈ blobs := by
    apply takes
    simp [sealed, Except.toOption]
  obtain ⟨kept, within', outbox, head, readable⟩ :=
    storeBucket_spec (is.opens opens) (is.distinct distinct) within
    valid known
  simp only [proceed]
  generalize x.storeBucket w (Outbox.fold base (read.map Staged.delta)) = stored at *
  obtain ⟨result, y⟩ := stored
  cases result with
  | error e => exact progress_published (kept.advances head) within' outbox trivial
  | ok addr => exact progress_published (kept.advances head) within' outbox ⟨ready.1,
    readable addr rfl⟩

/-- Every careful file operation makes progress. -/
theorem proceed_progress (is : x.Of c) (opens : c.bucketKeys.Opens)
    (distinct : Set.InjOn c.addressing.addrOf blobs) (within : x.device.Within blobs)
    {w : Surroundings} {listed : List UInt64} {task : Task} (ready : x.Ready task)
    (takes : x.Takes blobs w listed task) (careful : x.Careful task) :
      x.Progress blobs (x.proceed w listed task) := by
  -- One place of the process after the other.
  have done : x.Progress blobs (.idle, x, none) := progress_still within trivial
  cases task with
  | idle => exact done
  | listing delta =>
    simp only [proceed]
    cases encoded : delta.encode with
    | error e => exact done
    | ok bytes => exact progress_still within encoded
  | writing delta bytes seq =>
    cases disk : w.outbox with
    | error e =>
      simp only [proceed, disk]
      exact done
    | ok u =>
      simp only [proceed, disk]
      -- The number listed is still free, for the step is careful.
      exact progress_write within ready careful
  | loading =>
    simp only [proceed]
    split
    · exact done
    · exact progress_still within fun staged member => nomatch member
  | reading rest read =>
    cases rest with
    | nil =>
      simp only [proceed]
      split
      · exact done
      · exact progress_still within ready
    | cons seq rest =>
      simp only [proceed]
      split
      · split
        · exact done
        · -- The file just read decodes to what it is read as.
          rename_i decoded
          apply progress_still within
          intro staged member
          rcases List.mem_append.mp member with earlier | last
          · exact ready staged earlier
          · rw [List.mem_singleton.mp last]
            exact decoded
      · exact done
  | basing read =>
    simp only [proceed]
    split
    · exact done
    · -- The bucket under the head was read, so it is one that can be sealed again.
      rename_i loaded
      exact progress_still within ⟨ready, valid_of_loadPublishedHead loaded⟩
  | storing read base => exact progress_store is opens distinct within ready takes
  | heading read base addr => exact progress_head within ready careful
  | clearing read =>
    simp only [proceed]
    split
    · exact done
    · exact progress_still within ready
  | removing rest read =>
    cases rest with
    | nil => exact done
    | cons seq rest =>
      simp only [proceed]
      split
      · rename_i bytes _ held
        -- The file is still the one that was read, for the step is careful.
        exact progress_remove within ready held (careful bytes held)
      · exact done

end Site

namespace Staging

variable {I : Type} [DecidableEq I] {c : Credentials} {blobs : Set Bytes} {s : Staging I}

/-- Where processes at work stay: one namespace, every process on firm ground, nothing lost. -/
structure Sound (c : Credentials) (blobs : Set Bytes) (s : Staging I) : Prop where
  site : s.site.Of c
  within : s.site.device.Within blobs
  ready : ∀ i, s.site.Ready (s.tasks i)
  safe : ∀ delta ∈ s.accepted, s.site.Safe delta

/-- Replacing the task of one process asks nothing of the others. -/
theorem ready_place {i : I} {x : Site} {task : Task} (others : ∀ j, x.Ready (s.tasks j))
    (here : x.Ready task) (j : I) : x.Ready ((s.place i task).tasks j) := by
  simp only [place, Function.update_apply]
  split
  · exact here
  · exact others j

/-- Every careful event keeps the processes sound. -/
theorem step_careful (opens : c.bucketKeys.Opens) (distinct : Set.InjOn c.addressing.addrOf blobs)
    {e : Event I} (sound : s.Sound c blobs) (takes : s.Takes blobs e) (careful : s.Careful e) :
    (s.step e).Sound c blobs := by
  -- One kind of event after the other.
  cases e with
  -- A call is taken up by a process that has nothing to do.
  | call i request =>
    simp only [step]
    split
    · refine ⟨sound.site, sound.within, ready_place sound.ready ?_, sound.safe⟩
      cases request <;> trivial
    · exact sound
  | go i w listed =>
    have progress :=
      Site.proceed_progress sound.site opens distinct sound.within (sound.ready i) takes careful
    simp only [step]
    generalize s.site.proceed w listed (s.tasks i) = next at *
    obtain ⟨task, site, delta⟩ := next
    refine ⟨progress.advances.kept.of sound.site, progress.within, ?_, ?_⟩
    · exact ready_place (fun j => progress.advances.ready (sound.ready j)) progress.ready
    · intro other member
      rcases List.mem_append.mp member with new | before
      · exact progress.accepted other (Option.mem_toList.mp new)
      · exact progress.safe other (sound.safe other before)
  -- A process that ends loses what it had in memory, and that is on the site too.
  | halt i => exact ⟨sound.site, sound.within, ready_place sound.ready trivial, sound.safe⟩
  -- Other writers of the device add blobs, and leave outbox and head alone.
  | keep w chunks =>
    obtain ⟨grows, from_⟩ := BlobStore.putAll_spec s.site.device.blobs w.blob w.now chunks
    have advances : s.site.Advances (s.step (.keep w chunks)).site :=
      Site.Kept.advances ⟨rfl, rfl, rfl, rfl, rfl, grows⟩ rfl
    refine ⟨advances.kept.of sound.site, ?_, fun i => advances.ready (sound.ready i), ?_⟩
    · intro addr found held
      rcases from_ addr found held with before | new
      · exact sound.within addr found before
      · exact takes found new
    · intro delta member
      rcases sound.safe delta member with held | published
      · exact .inl held
      · exact .inr (advances.published published)

end Staging

end

/--
Processes that share an outbox lose no accepted write while every step is careful.

Any number of enqueues and replays may interleave, and each may end half way.
-/
theorem careful_steps_lose_nothing [Crypto] {I : Type} [DecidableEq I] (c : Credentials)
    (opens : c.bucketKeys.Opens) (blobs : Set Bytes)
    (distinct : Set.InjOn c.addressing.addrOf blobs) {s : Staging I} (started : s.Started c blobs)
    {events : List (Staging.Event I)}
    (permitted : (staging I).Permits (fun s e => s.Takes blobs e ∧ s.Careful e) s events) :
    ((staging I).run s events).NothingLost := by
  -- Nothing is accepted yet, so there is nothing to lose.
  have start : s.Sound c blobs := by
    refine ⟨started.site, started.within, fun i => ?_, fun delta member => ?_⟩
    · rw [started.tasks i]
      trivial
    · rw [started.accepted] at member
      cases member
  have sound : ((staging I).run s events).Sound c blobs :=
    Machine.run_invariant start permitted fun s e allowed sound =>
      Staging.step_careful opens distinct sound allowed.1 allowed.2
  exact sound.safe

section

open Concrete

/-- Two processes over the directory of a device on which nothing has happened yet. -/
def idlePair : Staging Bool := ⟨homeSite, fun _ => .idle, []⟩

/-- The delta with which that device puts an empty file under a key. -/
def emptyPut (key : String) : BucketManifest :=
  ⟨(∅ : OrdMap Bytes KeyObject).insert (utf8 key)
    (Site.nextVersion .empty (utf8 key) (identity 7).id emptyFile.object.toOption)⟩

/-- So many file operations of one process. -/
def operations (i : Bool) (count : Nat) : List (Staging.Event Bool) :=
  List.replicate count (.go i calm [])

/-- A put that nothing comes in between. -/
def putting (i : Bool) (key : String) : List (Staging.Event Bool) :=
  .call i (.enqueue (emptyPut key)) :: operations i 2

/-- Two puts that list the directory before either has written its file. -/
def putsAtOnce : List (Staging.Event Bool) :=
  [.call false (.enqueue (emptyPut "a")), .call true (.enqueue (emptyPut "b"))] ++
    operations false 1 ++ operations true 1 ++ operations false 1 ++ operations true 1

/-- A replay of one put that has published it, and lists the directory to clear it. -/
def replaying (between : List (Staging.Event Bool)) (listed : List UInt64) :
    List (Staging.Event Bool) :=
  putting false "a" ++ .call true .replay :: operations true 6 ++ between ++ [.go true calm listed]

/-- A put that writes its file after a replay has read the others, and before it clears them. -/
def putCleared : List (Staging.Event Bool) :=
  replaying (putting false "b") [1, 2] ++ operations true 3

/-- The blobs those runs store: the bucket with the one put merged in. -/
def mergedBlobs : List Bytes := ((emptyPut "a").encode.toOption).toList

/-- Two idle devices have started. -/
theorem idlePair_started (blobs : Set Bytes) : idlePair.Started homeCredentials blobs where
  -- Nothing is stored and nothing is accepted.
  site := ⟨rfl, rfl, rfl, rfl, rfl, rfl⟩
  within addr found held := by
    obtain ⟨_, stored, _⟩ := BlobStore.get_eq_ok.mp held
    cases stored
  tasks _ := rfl
  accepted := rfl

/--
Two puts at once take the same number, and the second overwrites the first.

A put that comes between the reading and the clearing of a replay is cleared without being merged.
-/
theorem concurrent_puts_are_lost :
    ((staging Bool).Permits (fun s e => s.Takes {data | data ∈ mergedBlobs} e) idlePair putsAtOnce ∧
      ¬((staging Bool).run idlePair putsAtOnce).NothingLost) ∧
    (staging Bool).Permits (fun s e => s.Takes {data | data ∈ mergedBlobs} e) idlePair putCleared ∧
      ¬((staging Bool).run idlePair putCleared).NothingLost := by
  decide +kernel

/-- A put that writes its file once a replay has listed the directory again. -/
def putAfterwards : List (Staging.Event Bool) :=
  replaying [] [1] ++ putting false "b" ++ operations true 2

/-- That put is accepted as the one before it was, and neither of them is lost. -/
theorem late_put_is_kept :
    ((staging Bool).run idlePair putAfterwards).accepted = [emptyPut "b", emptyPut "a"] ∧
      ((staging Bool).run idlePair putAfterwards).NothingLost := by
  refine ⟨by decide +kernel, ?_⟩
  apply careful_steps_lose_nothing homeCredentials (fun _ _ _ => rfl) {data | data ∈ mergedBlobs}
    (injOn_of_nodup (by decide)) (idlePair_started _)
  decide +kernel

end

end NasTools
