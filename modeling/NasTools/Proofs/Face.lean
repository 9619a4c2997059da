import NasTools.Model.Cli.Concrete
import NasTools.Model.Cli.Face
import NasTools.Model.Cli.Sites
import NasTools.Model.Store.Concrete

/-! The local S3 face against the plain map of its successful writes, over every run of calls. -/

namespace NasTools

/-- Two texts with the same bytes are the same. -/
theorem utf8_inj {a b : String} : utf8 a = utf8 b ↔ a = b := by
  -- One way is reading back, and the other is clear.
  refine ⟨fun same => ?_, congrArg utf8⟩
  -- The bytes of a text read as that text.
  have read : a.toList = b.toList := by
    rw [← fromUtf8Lossy_text a, ← fromUtf8Lossy_text b]
    exact congrArg fromUtf8Lossy same
  rw [← String.ofList_toList (s := a), read, String.ofList_toList]

namespace Outbox

/-- Every file of an outbox decodes. -/
def Readable (b : Outbox) : Prop :=
  ∀ (seq : UInt64) (bytes : Bytes), b.files[seq]? = some bytes →
    ∃ delta, BucketManifest.decode bytes = .ok delta

/-- Folding deltas is merging their entries one after the other. -/
theorem fold_entries (base : BucketManifest) (deltas : List BucketManifest) :
    (fold base deltas).entries =
    (deltas.map BucketManifest.entries).foldl (Latest.merge KeyObject.beats) base.entries := by
  induction deltas generalizing base with
  | nil => rfl
  | cons delta rest ih => exact ih (base.merge delta)

/-- The files in order are the files. -/
theorem mem_inOrder {b : Outbox} {file : UInt64 × Bytes} :
    file ∈ b.inOrder ↔ b.files[file.1]? = some file.2 := by
  unfold inOrder
  rw [(List.perm_insertionSort _ _).mem_iff, Std.ExtTreeMap.mem_toList_iff_getElem?_eq_some]

/-- An outbox whose files all decode loads. -/
theorem load_ok {b : Outbox} (readable : b.Readable) : ∃ deltas, b.load (.ok ()) = .ok deltas := by
  -- The files are decoded one by one, and then replayed.
  obtain ⟨deltas, loaded⟩ :
    ∃ deltas, (b.inOrder.mapM fun file => (BucketManifest.decode file.2).mapError fun e =>
      b.dir ++ "/" ++ fileName file.1 ++ ": " ++ e.display) = .ok deltas := by
    -- One file that does not decode would fail the whole loading.
    apply mapM_ok
    intro file member
    obtain ⟨delta, decoded⟩ := readable file.1 file.2 (mem_inOrder.mp member)
    exact ⟨delta, by rw [decoded, except_mapError_ok]⟩
  exact ⟨deltas, by simpa [load] using loaded⟩

/-- What is loaded is what the files hold. -/
theorem mem_load {b : Outbox} {disk : Disk} {deltas : List BucketManifest}
    (loaded : b.load disk = .ok deltas) (delta : BucketManifest) : delta ∈ deltas ↔ ∃ (seq : UInt64)
    (bytes : Bytes), b.files[seq]? = some bytes ∧
      BucketManifest.decode bytes = .ok delta := by
  -- A delta is loaded from each file that there is.
  simp only [load, except_bind_eq_ok] at loaded
  obtain ⟨_, _, read⟩ := loaded
  rw [mem_mapM read]
  constructor
  · intro among
    obtain ⟨file, member, decoded⟩ := among
    exact ⟨file.1, file.2, mem_inOrder.mp member, except_mapError_eq_ok.mp decoded⟩
  · intro kept
    obtain ⟨seq, bytes, held, decoded⟩ := kept
    exact ⟨(seq, bytes), mem_inOrder.mpr held, except_mapError_eq_ok.mpr decoded⟩

/-- Clearing leaves no file that was not there. -/
theorem getElem?_clear {b : Outbox} {disk : Disk} {gone : List UInt64} {seq : UInt64}
    {bytes : Bytes} (held : (b.clear disk gone).2.files[seq]? = some bytes) :
    b.files[seq]? = some bytes := by
  unfold clear at held
  cases disk with
  | ok u => simp at held
  | error e => exact OrdMap.getElem?_of_foldl_erase held

end Outbox

section

variable [Crypto]

namespace Site

variable {x y : Site} {key : Bytes} {e : KeyObject}

/-- A version of a key that is published or staged. -/
def Candidate (x : Site) (key : Bytes) (e : KeyObject) : Prop :=
  (∃ base, x.loadPublishedHead = .ok base ∧ base.get key = some e) ∨
    ∃ (seq : UInt64) (bytes : Bytes) (delta : BucketManifest), x.outbox.files[seq]? = some bytes ∧
      BucketManifest.decode bytes = .ok delta ∧ delta.get key = some e

/-- The version of a key that beats every other one. -/
structure Newest (x : Site) (key : Bytes) (e : KeyObject) : Prop where
  candidate : x.Candidate key e
  -- The same version may be both published and staged.
  beats : ∀ y, x.Candidate key y → y = e ∨ e.beats y

/-- What is in view was published or staged, and the newest version of a key is in view. -/
structure Shows (x : Site) (sees : Prop) (view : BucketManifest) : Prop where
  from_ : ∀ key e, view.get key = some e → x.Candidate key e
  newest : sees → ∀ key e, x.Newest key e → view.get key = some e

/-- What deltas and a published bucket show once they are folded. -/
theorem shows_fold {base found : BucketManifest} {deltas : List BucketManifest} {sees : Prop}
    (loadedHead : x.loadPublishedHead = .ok base)
    (published : ∀ key e, found.get key = some e → base.get key = some e)
    (seen : sees → found = base) (members : ∀ delta, delta ∈ deltas ↔
      ∃ (seq : UInt64) (bytes : Bytes), x.outbox.files[seq]? = some bytes ∧
      BucketManifest.decode bytes = .ok delta) : x.Shows sees (Outbox.fold found deltas) := by
  -- The entries that are merged are exactly the candidates, where HEAD is seen.
  have staged (key : Bytes) (e : KeyObject) (m : OrdMap Bytes KeyObject)
      (member : m ∈ deltas.map BucketManifest.entries) (held : m[key]? = some e) :
        x.Candidate key e := by
    obtain ⟨delta, inDeltas, rfl⟩ := List.mem_map.mp member
    obtain ⟨seq, bytes, filed, decoded⟩ := (members delta).mp inDeltas
    exact .inr ⟨seq, bytes, delta, filed, decoded, held⟩
  constructor
  · intro key e held
    rw [BucketManifest.get, Outbox.fold_entries] at held
    rcases Latest.foldl_merge_from held with inBase | ⟨m, member, there⟩
    · exact .inl ⟨base, loadedHead, published key e inBase⟩
    · exact staged key e m member there
  · intro sees key e newest
    obtain rfl := seen sees
    rw [BucketManifest.get, Outbox.fold_entries]
    apply Latest.foldl_merge_newest KeyObject.beats_irrefl KeyObject.beats_trans
    · rcases newest.candidate with ⟨base, loaded, held⟩ | ⟨seq, bytes, delta, filed, decoded, held⟩
      · rw [loadedHead, Except.ok.injEq] at loaded
        rw [loaded]
        exact .inl held
      · exact .inr ⟨delta.entries,
          List.mem_map_of_mem ((members delta).mpr ⟨seq, bytes, filed, decoded⟩), held⟩
    · intro other known
      apply newest.beats
      rcases known with held | ⟨m, member, held⟩
      · exact .inl ⟨found, loadedHead, held⟩
      · exact staged key other m member held

/--
The view can be loaded where the disk can be read, and shows the newest versions where HEAD is seen.
-/
theorem viewIn_spec (reads : x.HeadReads) (readable : x.outbox.Readable) (w : FaceWorld) :
    (∃ text, x.viewIn w = .error (.other text) ∧ ¬w.Healthy) ∨
      ∃ view, x.viewIn w = .ok view ∧
        x.Shows (w.headRead = .ok () ∨ x.device.head = none) view := by
  -- The base is the published bucket, and what is staged is put on top.
  obtain ⟨base, loadedHead, _⟩ := loadPublishedHead_ok reads
  obtain ⟨deltas, loaded⟩ := Outbox.load_ok readable
  -- A HEAD that cannot be read leaves an empty base, whose entries are all published.
  obtain ⟨found, is, published, seen⟩ : ∃ found, x.findHead w.headRead = .ok found ∧
      (∀ key e, found.get key = some e → base.get key = some e) ∧
      ((w.headRead = .ok () ∨ x.device.head = none) → found = base) := by
    cases disk : w.headRead with
    | ok u => exact ⟨base, by simp [findHead, loadedHead], fun _ _ held => held, fun _ => rfl⟩
    | error err =>
      refine ⟨.empty, rfl,
        fun key e held => by simp [BucketManifest.get, BucketManifest.empty] at held, ?_⟩
      rintro (impossible | none)
      · cases impossible
      · have empty : x.loadPublishedHead = .ok .empty := by simp [loadPublishedHead, none]
        rw [empty, Except.ok.injEq] at loadedHead
        exact loadedHead
  have unhealthy (fault : w.outboxDir ≠ .ok () ∨ w.around.read ≠ .ok ()) : ¬w.Healthy := by
    intro healthy
    rcases fault with fault | fault
    · exact fault healthy.outboxDir
    · exact fault healthy.read
  simp only [viewIn, is, except_ok_bind]
  cases dir : w.outboxDir with
  | error err => exact .inl ⟨_, rfl, unhealthy (.inl (by simp [dir]))⟩
  | ok u =>
    cases read : w.around.read with
    | error err =>
      refine .inl ⟨err.text, ?_, unhealthy (.inr (by simp [read]))⟩
      simp [Outbox.load]
    | ok u =>
      exact .inr
        ⟨Outbox.fold found
        deltas, by simp [loaded], shows_fold loadedHead published seen (Outbox.mem_load loaded)⟩

/-- A site whose head and outbox stay has the same candidates. -/
theorem Kept.candidate (kept : x.Kept y) (reads : x.HeadReads)
    (head : y.device.head = x.device.head) (outbox : y.outbox = x.outbox) :
    y.Candidate key e ↔ x.Candidate key e := by
  obtain ⟨base, loaded, _⟩ := loadPublishedHead_ok reads
  -- The bucket under the head is still there, and still opens.
  have later := kept.loadPublishedHead head loaded
  simp only [Candidate, loaded, later, outbox]

/-- A site whose head and outbox stay shows what it showed. -/
theorem Kept.shows (kept : x.Kept y) (reads : x.HeadReads) (head : y.device.head = x.device.head)
    (outbox : y.outbox = x.outbox) {sees : Prop} {view : BucketManifest}
    (shows : x.Shows sees view) :
    y.Shows sees view where
  -- The candidates are the same at both sites.
  from_ key e held := (kept.candidate reads head outbox).mpr (shows.from_ key e held)
  newest := by
    intro seen key e newest
    apply shows.newest seen key e
    refine ⟨(kept.candidate reads head outbox).mp newest.candidate, ?_⟩
    intro other there
    exact newest.beats other ((kept.candidate reads head outbox).mpr there)

/-- A head that can be read stays so. -/
theorem Kept.headReads (kept : x.Kept y) (reads : x.HeadReads)
    (head : y.device.head = x.device.head) :
    y.HeadReads := by
  rcases reads with none | ⟨addr, bucket, is, loaded⟩
  · exact .inl (head.trans none)
  · exact .inr ⟨addr, bucket, head.trans is, kept.loadBucket loaded⟩

/-- A site that can be read as before, and on which no version was added and no newest one lost. -/
structure Settles (blobs : Set Bytes) (x y : Site) : Prop where
  kept : x.Kept y
  within : y.device.Within blobs
  reads : y.HeadReads
  readable : y.outbox.Readable
  down : ∀ key e, y.Candidate key e → x.Candidate key e
  up : ∀ key e, x.Newest key e → y.Candidate key e

/-- A HEAD that is seen, or not there, is found as it is. -/
theorem findHead_eq {headRead : Disk} (sees : headRead = .ok () ∨ x.device.head = none) :
    x.findHead headRead = x.loadPublishedHead := by
  -- Without a head on the device nothing has to be read.
  cases headRead with
  | ok u => rfl
  | error e =>
    rcases sees with impossible | none
    · cases impossible
    · simp [findHead, loadPublishedHead, none]

variable {blobs : Set Bytes} (reads : x.HeadReads) (readable : x.outbox.Readable)
include reads readable

/-- Where the head and the outbox stay, everything stays. -/
theorem settles_of_kept (kept : x.Kept y) (within : y.device.Within blobs)
    (head : y.device.head = x.device.head) (outbox : y.outbox = x.outbox) : x.Settles blobs y where
  -- The head and the outbox are the same, so every candidate is.
  kept := kept
  within := within
  reads := kept.headReads reads head
  readable := by
    rw [outbox]
    exact readable
  down := fun _ _ there => (kept.candidate reads head outbox).mp there
  up := fun _ _ newest => (kept.candidate reads head outbox).mpr newest.candidate

omit reads in
/-- Where what was in view is published, deltas can be dropped. -/
theorem settles_of_published (kept : x.Kept y) (within : y.device.Within blobs)
    {view : BucketManifest} (shows : x.Shows True view) (published : y.loadPublishedHead = .ok view)
    (isBucket : y.HeadReads)
    (fewer : ∀ (seq : UInt64) (bytes : Bytes), y.outbox.files[seq]? = some bytes →
      x.outbox.files[seq]? = some bytes) : x.Settles blobs y where
  -- The head is the view, and the outbox has no file that it did not have.
  kept := kept
  within := within
  reads := isBucket
  readable := fun seq bytes held => readable seq bytes (fewer seq bytes held)
  down := by
    -- What is published now was in view, and what is staged was staged before.
    rintro key e (⟨base, loaded, held⟩ | ⟨seq, bytes, delta, filed, decoded, held⟩)
    · rw [published, Except.ok.injEq] at loaded
      subst loaded
      exact shows.from_ key e held
    · exact .inr ⟨seq, bytes, delta, fewer seq bytes filed, decoded, held⟩
  up := fun key e newest => .inl ⟨view, published, shows.newest trivial key e newest⟩

/-- A replay settles a site, however it ends, as long as HEAD is seen and not written in part. -/
theorem replay_settles (opens : x.bucketKeys.Opens)
    (distinct : Set.InjOn x.device.blobs.addressing.addrOf blobs) (within : x.device.Within blobs)
    {w : FaceWorld} (sees : w.headRead = .ok () ∨ x.device.head = none) (whole : w.headFile.Whole)
    (known : ∀ data ∈ x.replayBlob w.around, data ∈ blobs) :
    x.Settles blobs (x.replay w).2 := by
  -- Each step of the replay leaves a settled site.
  have still : x.Settles blobs x := settles_of_kept reads readable (.refl x) within rfl rfl
  obtain ⟨base, loadedHead, validBase, _⟩ := loadPublishedHead_ok reads
  unfold replay
  cases dir : w.outboxDir with
  | error e => exact still
  | ok u =>
    cases loaded : x.outbox.load w.around.read with
    | error text => exact still
    | ok deltas =>
      cases deltas with
      | nil => exact still
      | cons delta rest =>
        cases blobsDir : w.blobsDir with
        | error e => exact still
        | ok u =>
          rw [findHead_eq sees, loadedHead]
          dsimp only
          have valid := Outbox.valid_fold validBase (Outbox.valid_of_load loaded)
          have stores (data : Bytes) (sealed : x.bucketKeys.sealBucket x.device.mode w.around.nonce
              (Outbox.fold base (delta :: rest)) = .ok data) : data ∈ blobs := by
            apply known
            simp [replayBlob, loaded, loadedHead, sealed, Except.toOption, guard]
          obtain ⟨kept, within', outbox, head, stored⟩ :=
            storeBucket_spec opens distinct within valid stores
          generalize x.storeBucket w.around (Outbox.fold base (delta :: rest)) = result at *
          obtain ⟨result, y⟩ := result
          -- Storing the bucket adds blobs, and leaves head and outbox alone.
          have quiet : x.Settles blobs y := settles_of_kept reads readable kept within' head outbox
          cases result with
          | error e => exact quiet
          | ok addr =>
            cases write : w.headFile with
            | failed e left =>
              -- A write that fails leaves HEAD alone.
              rw [write] at whole
              obtain rfl : left = none := whole
              exact quiet
            | done =>
              -- The view is published, and what is cleared of the outbox is not needed any more.
              have shows : x.Shows True (Outbox.fold base (delta :: rest)) :=
                shows_fold loadedHead (fun _ _ held => held) (fun _ => rfl) (Outbox.mem_load loaded)
              have loads := stored addr rfl
              have published (b : Outbox) (fewer : ∀ (seq : UInt64) (bytes : Bytes),
                  b.files[seq]? = some bytes → y.outbox.files[seq]? = some bytes) :
                  x.Settles blobs { y with
                    outbox := b, device := { y.device with head := some (.ok addr) } } := by
                refine settles_of_published readable
                  ⟨kept.ns, kept.mode, kept.identity, kept.keys, kept.bucketKeys, kept.blobs⟩
                    within' shows ?_
                  (.inr ⟨addr, _, rfl, loads⟩) ?_
                · have reading : Site.loadBucket { y with
                      outbox := b, device := { y.device with head := some (.ok addr) } } addr =
                        _ := loads
                  simp only [loadPublishedHead, reading]
                · rw [← outbox]
                  exact fewer
              have fewer (seq : UInt64) (bytes : Bytes) (held :
                  (y.outbox.clear w.around.outbox w.around.gone).2.files[seq]? = some bytes) :
                  y.outbox.files[seq]? = some bytes := Outbox.getElem?_clear held
              have cleared := published _ fewer
              simp only [writeHead]
              generalize y.outbox.clear w.around.outbox w.around.gone = after at cleared
              obtain ⟨outcome, b⟩ := after
              cases outcome <;> exact cleared

end Site

/-- Staging the next version writes one file or none, where no write leaves a part of a file. -/
theorem Face.stageNext_cases (f : Face) {w : FaceWorld} (whole : w.staged.Whole)
    (view : BucketManifest) (key : Bytes) (object : Option Manifest) :
    (∃ e, f.stageNext w view key object = (.error e, f)) ∨
      ∃ identity delta bytes,
        BucketManifest.empty.put key (Site.nextVersion view key (Identity.id identity) object) =
          .ok delta ∧ delta.encode = .ok bytes ∧ f.stageNext w view key object =
        (.ok (), { f with site := { f.site with
          outbox := f.site.outbox.write (f.site.outbox.pickSeq w.listing) bytes } }) := by
  -- Every stage of staging fails with an error and changes nothing, or it goes on to the next.
  unfold stageNext
  cases read : f.site.device.slotIdentity with
  | error text => exact .inl ⟨_, rfl⟩
  | ok identity =>
    dsimp only
    cases placed : view.put key (Site.nextVersion view key identity.id object) with
    | error e => exact .inl ⟨_, rfl⟩
    | ok _ =>
      simp only [enqueueDelta]
      cases put : BucketManifest.empty.put key (Site.nextVersion view key identity.id object) with
      | error e => exact .inl ⟨_, rfl⟩
      | ok delta =>
        cases dir : w.outboxDir with
        | error e => exact .inl ⟨_, rfl⟩
        | ok u =>
          cases encoded : delta.encode with
          | error e =>
            exact .inl ⟨.error e.display,
              by simp [Outbox.stage, encoded, Except.map, Except.mapError]⟩
          | ok bytes =>
            cases write : w.staged with
            | done =>
              refine .inr ⟨identity, delta, bytes, put, encoded, ?_⟩
              simp [Outbox.stage, encoded, Writing.remains, Writing.report, Except.map,
                Except.mapError]
            | failed e left =>
              rw [write] at whole
              obtain rfl : left = none := whole
              refine .inl ⟨.error e.text, ?_⟩
              simp [Outbox.stage, encoded, Writing.remains, Writing.report, Except.map,
                Except.mapError]

namespace Shelf

omit [Crypto] in
/-- One more write is the last one applied. -/
theorem ofLog_append (log : List (String × Option Bytes)) (name : String) (value : Option Bytes) :
    ofLog (log ++ [(name, value)]) = (ofLog log).write name value := by
  simp [ofLog]

omit [Crypto] in
/-- A write decides its own key, and no other. -/
theorem getElem?_write (m : Shelf) (name : String) (value : Option Bytes) (key : Bytes) :
    (m.write name value)[key]? = if utf8 name = key then value.map fun body => (name, body)
      else m[key]? := by
  cases value with
  | some body => simp [write, Std.ExtTreeMap.getElem?_insert]
  | none => simp [write, Std.ExtTreeMap.getElem?_erase]

omit [Crypto] in
/-- What a map holds was put there, and is filed under the bytes of its key. -/
theorem of_ofLog {log : List (String × Option Bytes)} {key : Bytes} {name : String} {body : Bytes}
    (held : (ofLog log)[key]? = some (name, body)) : (name, some body) ∈ log ∧ utf8 name = key := by
  -- The last write of a key decides, so the writes are taken off from behind.
  induction log using List.reverseRecOn with
  | nil => simp [ofLog] at held
  | append_singleton log entry ih =>
    rw [ofLog_append, getElem?_write] at held
    split at held
    · rename_i here
      obtain ⟨value, is, same⟩ := Option.map_eq_some_iff.mp held
      obtain ⟨rfl, rfl⟩ := Prod.mk.inj same
      refine ⟨?_, here⟩
      rw [← is]
      exact List.mem_append_right _ List.mem_cons_self
    · obtain ⟨member, same⟩ := ih held
      exact ⟨List.mem_append_left _ member, same⟩

omit [Crypto] in
/-- What the shelf holds was put there by the log. -/
theorem mem_of_get {log : List (String × Option Bytes)} {key : String} {body : Bytes}
    (held : (ofLog log).get key = .ok body) : (key, some body) ∈ log := by
  -- The shelf keeps the name with the body.
  simp only [get, okOr_eq_ok, Option.map_eq_some_iff] at held
  obtain ⟨⟨name, _⟩, held, rfl⟩ := held
  obtain ⟨member, same⟩ := of_ofLog held
  rw [← utf8_inj.mp same]
  exact member

omit [Crypto] in
/-- The name on the shelf is the one it is filed under. -/
theorem name_of_ofLog {log : List (String × Option Bytes)} {key : Bytes} {name : String}
    {body : Bytes} (held : (ofLog log)[key]? = some (name, body)) : utf8 name = key :=
  (of_ofLog held).2

end Shelf

section

variable {f g : Face}

/-- What no call changes of a face. -/
structure Face.Kept (f g : Face) : Prop where
  site : f.site.Kept g.site
  padding : g.padding = f.padding
  cs : g.cs = f.cs
  tenantSalt : g.tenantSalt = f.tenantSalt

/-- The sealer is the same. -/
theorem Face.Kept.sealer (kept : f.Kept g) : g.sealer = f.sealer := by
  simp only [Face.sealer, kept.site.mode, kept.cs, kept.tenantSalt]

end

variable [Cipher]

/-- An object of the face that can be read. -/
def Face.Holds (f : Face) (chunks : Set Bytes) (m : Manifest) (body : Bytes) : Prop :=
  m.Holds f.sealer f.padding chunks f.site.device.blobs body

/-- A cache of the face that holds nothing but its chunks. -/
def Face.CacheRight (f : Face) (chunks : Set Bytes) (cache : Option ChunkCache) : Prop :=
  Cached f.sealer f.padding chunks f.site.device.blobs cache

/-- What is held stays held. -/
theorem Face.Kept.holds {f g : Face} {chunks : Set Bytes} {m : Manifest} {body : Bytes}
    (kept : f.Kept g) (holds : f.Holds chunks m body) : g.Holds chunks m body := by
  rw [Face.Holds, kept.sealer, kept.padding]
  exact holds.mono kept.site.blobs

/-- A cache that is right stays so. -/
theorem Face.Kept.cacheRight {f g : Face} {chunks : Set Bytes} {cache : Option ChunkCache}
    (kept : f.Kept g) (right : f.CacheRight chunks cache) : g.CacheRight chunks cache := by
  rw [Face.CacheRight, kept.sealer, kept.padding]
  exact right.mono kept.site.blobs

namespace Served

/-- How often a key has been written. -/
def count (s : Served) (key : Bytes) : Nat := (s.log.filter fun entry => utf8 entry.1 = key).length

/--
How a key stands: it was never written, or its newest version is the last write.

The clock of that version counts the writes.
-/
def Stands (chunks : Set Bytes) (s : Served) (key : Bytes) : Prop :=
  (s.count key = 0 ∧ (Shelf.ofLog s.log)[key]? = none ∧ ∀ e, ¬s.face.site.Candidate key e) ∨
    ∃ e, s.face.site.Newest key e ∧ e.lamport.toNat = s.count key ∧
      (e.object = none → (Shelf.ofLog s.log)[key]? = none) ∧
      ∀ m, e.object = some m → ∃ name body, utf8 name = key ∧
        (Shelf.ofLog s.log)[key]? = some (name, body) ∧
        s.face.Holds chunks m body

/-- What every call keeps. -/
structure Sound (blobs chunks : Set Bytes) (s : Served) : Prop where
  opens : s.face.site.bucketKeys.Opens
  distinct : Set.InjOn s.face.site.device.blobs.addressing.addrOf blobs
  separates : s.face.sealer.Separates chunks
  within : s.face.site.device.Within blobs
  reads : s.face.site.HeadReads
  readable : s.face.site.outbox.Readable
  -- Also versions that are not the newest can be read, which a view without HEAD can come upon.
  held : ∀ key e m, s.face.site.Candidate key e → e.object = some m →
    ∃ body, s.face.Holds chunks m body
  stands : ∀ key, s.Stands chunks key
  cache : s.face.CacheRight chunks s.face.cache

variable {blobs chunks : Set Bytes} {s : Served}

/-- A face on which nothing was written or lost stays sound. -/
theorem Sound.settled (sound : s.Sound blobs chunks) {g : Face} (kept : s.face.Kept g)
    (settles : s.face.site.Settles blobs g.site) (cache : g.CacheRight chunks g.cache) :
    Sound blobs chunks ⟨g, s.log⟩ where
  -- Every part of the invariant is about what is kept or about candidates, which are the same.
  opens := by
    show g.site.bucketKeys.Opens
    rw [kept.site.bucketKeys]
    exact sound.opens
  distinct := by
    show Set.InjOn g.site.device.blobs.addressing.addrOf blobs
    rw [kept.site.blobs.addressing]
    exact sound.distinct
  separates := by
    show g.sealer.Separates chunks
    rw [kept.sealer]
    exact sound.separates
  within := settles.within
  reads := settles.reads
  readable := settles.readable
  held := by
    intro key e m there is
    obtain ⟨body, holds⟩ := sound.held key e m (settles.down key e there) is
    exact ⟨body, kept.holds holds⟩
  stands := by
    intro key
    rcases sound.stands key with ⟨never, absent, no⟩ | ⟨e, newest, clock, dead, live⟩
    · exact .inl ⟨never, absent, fun e there => no e (settles.down key e there)⟩
    · refine .inr ⟨e,
        ⟨settles.up key e newest, fun y there => newest.beats y (settles.down key y there)⟩,
        clock, dead, ?_⟩
      intro m is
      obtain ⟨name, body, named, shelved, holds⟩ := live m is
      exact ⟨name, body, named, shelved, kept.holds holds⟩
  cache := cache

omit [Crypto] [Cipher] in
/-- One more write counts for its own key. -/
theorem count_append (face : Face) (log : List (String × Option Bytes)) (name : String)
    (value : Option Bytes) (key : Bytes) : count ⟨face, log ++ [(name, value)]⟩ key =
      count ⟨face, log⟩ key + if utf8 name = key then 1 else 0 := by
  by_cases same : utf8 name = key <;> simp [count, same]

/-- A version with a clock above all the writes so far beats every version there is. -/
theorem Stands.beats {key : Bytes} (stands : s.Stands chunks key) {entry : KeyObject}
    (clock : entry.lamport.toNat = s.count key + 1) {e : KeyObject}
    (there : s.face.site.Candidate key e) :
    entry.beats e := by
  -- The newest candidate has a lower clock, and it beats all the others.
  rcases stands with ⟨_, _, no⟩ | ⟨top, newest, counted, _⟩
  · exact absurd there (no e)
  · have above : entry.beats top := KeyObject.beats_of_lt (by omega)
    rcases newest.beats e there with rfl | wins
    · exact above
    · exact KeyObject.beats_trans _ _ _ above wins

/-- The clock of the version that follows the one in view counts one more write. -/
theorem Stands.clock {key : Bytes} (stands : s.Stands chunks key) (room : s.count key + 1 < 2 ^ 64)
    {view : BucketManifest} (shows : s.face.site.Shows True view) :
    (view.nextLamport key).toNat = s.count key + 1 := by
  -- The next clock is one above that of the newest candidate, or zero where there is none.
  unfold BucketManifest.nextLamport
  rcases stands with ⟨never, _, no⟩ | ⟨top, newest, counted, _⟩
  · cases found : view.get key with
    | none => simp [never]
    | some e => exact absurd (shows.from_ key e found) (no e)
  · rw [shows.newest trivial key top newest]
    show (satAdd top.lamport 1).toNat = _
    rw [satAdd_one (by omega), counted]

/-- A write that was staged under a free number keeps a face sound. -/
theorem Sound.written (sound : s.Sound blobs chunks) {seq : UInt64} {bytes : Bytes}
    {delta : BucketManifest} {name : String} {value : Option Bytes} {entry : KeyObject}
    (free : s.face.site.outbox.files[seq]? = none)
    (decoded : BucketManifest.decode bytes = .ok delta)
    (only : ∀ key e, delta.get key = some e ↔ utf8 name = key ∧ e = entry)
    (clock : entry.lamport.toNat = s.count (utf8 name) + 1)
    (dead : entry.object = none → value = none)
    (live : ∀ m, entry.object = some m → ∃ body, value = some body ∧ s.face.Holds chunks m body) :
    Sound blobs chunks
      ⟨{ s.face with site := { s.face.site with outbox := s.face.site.outbox.write seq bytes } },
        s.log ++ [(name, value)]⟩ := by
  -- The one delta that is new is put on top of what there was.
  have filed (number : UInt64) (content : Bytes) :
      (s.face.site.outbox.write seq bytes).files[number]? = some content ↔
        s.face.site.outbox.files[number]? = some content ∨ (number = seq ∧ content = bytes) := by
    simp only [Outbox.write, Std.ExtTreeMap.getElem?_insert]
    split
    · rename_i same
      obtain rfl := Std.LawfulEqCmp.eq_of_compare same
      simp [free, eq_comm]
    · rename_i other
      have ne : number ≠ seq := by
        rintro rfl
        simp at other
      simp [ne]
  -- The versions afterwards are those before, and the one just staged.
  have candidates (key : Bytes) (e : KeyObject) : Site.Candidate { s.face.site with
      outbox := s.face.site.outbox.write seq bytes } key e ↔
      s.face.site.Candidate key e ∨ (utf8 name = key ∧ e = entry) := by
    constructor
    · intro either
      obtain ⟨base, loaded, held⟩ | ⟨number, content, other, there, read, held⟩ := either
      · exact .inl (.inl ⟨base, loaded, held⟩)
      · rcases (filed number content).mp there with before | ⟨rfl, rfl⟩
        · exact .inl (.inr ⟨number, content, other, before, read, held⟩)
        · rw [decoded, Except.ok.injEq] at read
          subst read
          exact .inr ((only key e).mp held)
    · intro either
      obtain (⟨base, loaded, held⟩ | ⟨number, content, other, there, read, held⟩) | new := either
      · exact .inl ⟨base, loaded, held⟩
      · exact .inr ⟨number, content, other, (filed number content).mpr (.inl there), read, held⟩
      · exact .inr ⟨seq, bytes, delta, (filed seq bytes).mpr (.inr ⟨rfl, rfl⟩), decoded,
          (only key e).mpr new⟩
  refine ⟨sound.opens, sound.distinct, sound.separates, sound.within, sound.reads, ?_, ?_, ?_,
    sound.cache⟩
  · intro number content there
    rcases (filed number content).mp there with before | ⟨_, rfl⟩
    · exact sound.readable number content before
    · exact ⟨delta, decoded⟩
  · intro key e m there is
    rcases (candidates key e).mp there with before | ⟨_, rfl⟩
    · exact sound.held key e m before is
    · obtain ⟨body, _, holds⟩ := live m is
      exact ⟨body, holds⟩
  · intro key
    have shelf := Shelf.getElem?_write (Shelf.ofLog s.log) name value key
    rw [← Shelf.ofLog_append] at shelf
    have counted := count_append s.face s.log name value key
    by_cases same : utf8 name = key
    · -- The version just staged is the newest one of its key.
      rw [if_pos same] at shelf counted
      subst same
      refine .inr ⟨entry, ⟨(candidates _ _).mpr (.inr ⟨rfl, rfl⟩), ?_⟩,
        clock.trans counted.symm, ?_, ?_⟩
      · intro y there
        rcases (candidates _ y).mp there with before | ⟨_, rfl⟩
        · exact .inr ((sound.stands _).beats clock before)
        · exact .inl rfl
      · intro gone
        rw [shelf, dead gone]
        rfl
      · intro m is
        obtain ⟨body, rfl, holds⟩ := live m is
        exact ⟨name, body, rfl, shelf, holds⟩
    · -- Every other key stands as it stood.
      rw [if_neg same] at shelf counted
      rcases sound.stands key with ⟨never, absent, no⟩ | ⟨e, newest, clock', gone, kept⟩
      · refine .inl ⟨counted.trans never, shelf.trans absent, ?_⟩
        intro e there
        rcases (candidates key e).mp there with before | ⟨here, _⟩
        · exact no e before
        · exact same here
      · refine .inr ⟨e, ⟨(candidates _ _).mpr (.inl newest.candidate), ?_⟩,
          clock'.trans counted.symm, fun dead => shelf.trans (gone dead), ?_⟩
        · intro y there
          rcases (candidates key y).mp there with before | ⟨here, _⟩
          · exact newest.beats y before
          · exact absurd here same
        · intro m is
          obtain ⟨named, body, spelled, shelved, holds⟩ := kept m is
          exact ⟨named, body, spelled, shelf.trans shelved, holds⟩

/-- A delta that was staged is read back, and changes its own key only. -/
theorem Sound.staged (sound : s.Sound blobs chunks) {w : FaceWorld} {view : BucketManifest}
    {name : String} {object : Option Manifest} {value : Option Bytes}
    (room : s.count (utf8 name) + 1 < 2 ^ 64) (shows : s.face.site.Shows True view)
    (whole : w.staged.Whole)
    (free : s.face.site.outbox.files[s.face.site.outbox.pickSeq w.listing]? = none)
    (dead : object = none → value = none) (live : ∀ m, object = some m → ∃ body, value = some body ∧
      s.face.Holds chunks m body) :
    Sound blobs chunks ⟨(s.face.stageNext w view (utf8 name) object).2,
      s.log ++ if (s.face.stageNext w view (utf8 name) object).1.isOk then [(name, value)]
        else []⟩ := by
  -- Staging fails and changes nothing, or it files a delta with the one new version.
  rcases s.face.stageNext_cases whole view (utf8 name) object with ⟨e, is⟩ |
    ⟨identity, delta, bytes, put, encoded, is⟩
  · rw [is]
    simpa [Except.isOk, Except.toBool] using sound
  · rw [is]
    simp only [BucketManifest.put, except_bind_eq_ok, except_pure_eq, Except.ok.injEq] at put
    obtain ⟨_, _, rfl⟩ := put
    have only (key : Bytes) (e : KeyObject) :
        BucketManifest.get ⟨(∅ : OrdMap Bytes KeyObject).insert (utf8 name)
          (Site.nextVersion view (utf8 name) identity.id object)⟩ key = some e ↔
          utf8 name = key ∧ e = Site.nextVersion view (utf8 name) identity.id object := by
      simp only [BucketManifest.get, Std.ExtTreeMap.getElem?_insert]
      by_cases same : utf8 name = key
      · simp [same, eq_comm]
      · simp [same]
    have valid : BucketManifest.Valid ⟨(∅ : OrdMap Bytes KeyObject).insert (utf8 name)
        (Site.nextVersion view (utf8 name) identity.id object)⟩ := by
      intro key e held m isObject
      obtain ⟨_, rfl⟩ := (only key e).mp held
      obtain ⟨_, _, holds⟩ := live m isObject
      exact holds.valid
    exact sound.written free (BucketManifest.decode_encode valid encoded) only
      ((sound.stands _).clock room shows) dead live

/-- What is in view of a key is what the map has of it. -/
theorem Stands.live {key : Bytes} (stands : s.Stands chunks key) {view : BucketManifest}
    (shows : s.face.site.Shows True view) :
    (view.live key = none ∧ (Shelf.ofLog s.log)[key]? = none) ∨
      ∃ m name body, view.live key = some m ∧
      utf8 name = key ∧ (Shelf.ofLog s.log)[key]? = some (name, body) ∧
        s.face.Holds chunks m body := by
  -- What is in view under the key is the newest candidate.
  unfold BucketManifest.live
  rcases stands with ⟨_, absent, no⟩ | ⟨top, newest, _, dead, live⟩
  · cases found : view.get key with
    | none => exact .inl ⟨rfl, absent⟩
    | some e => exact absurd (shows.from_ key e found) (no e)
  · rw [shows.newest trivial key top newest]
    cases object : top.object with
    | none => exact .inl ⟨object, dead object⟩
    | some m =>
      obtain ⟨name, body, spelled, shelved, holds⟩ := live m object
      exact .inr ⟨m, name, body, object, spelled, shelved, holds⟩

/-- The view can be had, unless something fails that a read needs. -/
theorem Sound.view (sound : s.Sound blobs chunks) (w : FaceWorld) :
    (∃ text, (s.face.openRepo w >>= fun _ => s.face.view w) = .error (.error text) ∧ ¬w.Healthy) ∨
      ∃ view, (s.face.openRepo w >>= fun _ => s.face.view w) = .ok view ∧
        s.face.site.Shows (s.SeesHead w) view := by
  -- Opening and loading each fail on the disk, or the view shows what there is.
  unfold Face.openRepo Face.view
  cases opened : w.opened with
  | error text => exact .inl ⟨_, rfl, fun healthy => by simp [healthy.opened] at opened⟩
  | ok u =>
    cases blobsDir : w.blobsDir with
    | error e => exact .inl ⟨_, rfl, fun healthy => by simp [healthy.blobsDir] at blobsDir⟩
    | ok u =>
      rcases Site.viewIn_spec sound.reads sound.readable w with ⟨text, failed, fault⟩ |
        ⟨view, loaded, shows⟩
      · exact .inl ⟨_, by rw [failed]; rfl, fault⟩
      · exact .inr ⟨view, by rw [loaded]; rfl, shows⟩

/-- What looking a key up can give. -/
theorem Sound.find (sound : s.Sound blobs chunks) (w : FaceWorld) (key : String) :
    (∃ text, s.face.find w key = .error (.error text) ∧ ¬w.Healthy) ∨
      (s.face.find w key = .error (.notFound key) ∧
        (s.SeesHead w → (Shelf.ofLog s.log)[utf8 key]? = none)) ∨
      ∃ m body, s.face.find w key = .ok m ∧ s.face.Holds chunks m body ∧
        (s.SeesHead w → ∃ name, (Shelf.ofLog s.log)[utf8 key]? = some (name, body)) := by
  -- The key is looked up in a view that shows everything, or the head was not seen.
  have unfolded : s.face.find w key =
    ((s.face.openRepo w >>= fun _ => s.face.view w) >>= fun view =>
      okOr (view.live (utf8 key)) (.notFound key)) := by
    unfold Face.find
    cases s.face.openRepo w <;> rfl
  rcases sound.view w with ⟨text, failed, fault⟩ | ⟨view, loaded, shows⟩
  · exact .inl ⟨text, by rw [unfolded, failed]; rfl, fault⟩
  · rw [unfolded, loaded, except_ok_bind]
    by_cases sees : s.SeesHead w
    · -- Everything is in view, so the map has the same.
      rcases (sound.stands (utf8 key)).live ⟨shows.from_, fun _ => shows.newest sees⟩ with
        ⟨gone, absent⟩ | ⟨m, name, body, found, _, shelved, holds⟩
      · exact .inr (.inl ⟨by rw [gone]; rfl, fun _ => absent⟩)
      · exact .inr (.inr ⟨m, body, by rw [found]; rfl, holds, fun _ => ⟨name, shelved⟩⟩)
    · cases found : view.live (utf8 key) with
      | none => exact .inr (.inl ⟨rfl, fun impossible => absurd impossible sees⟩)
      | some m =>
        obtain ⟨e, got, object⟩ := Option.bind_eq_some_iff.mp found
        obtain ⟨body, holds⟩ := sound.held _ e m (shows.from_ _ e got) object
        exact .inr (.inr ⟨m, body, rfl, holds, fun impossible => absurd impossible sees⟩)

/-- Asking for the size of a key answers as the map does. -/
theorem Sound.head_answers (sound : s.Sound blobs chunks) {w : FaceWorld} (sees : s.SeesHead w)
    (key : String) :
    w.Answers (s.face.head w key) ((Shelf.ofLog s.log).head key) := by
  -- A key without an object is missing from the map as well, and one with an object has its size.
  unfold Face.head Shelf.head Shelf.get
  rcases sound.find w key with ⟨text, failed, fault⟩ | ⟨missing, absent⟩ |
    ⟨m, body, found, holds, shelved⟩
  · exact .inr ⟨fault, text, by rw [failed]; rfl⟩
  · left
    rw [missing, absent sees]
    rfl
  · obtain ⟨name, there⟩ := shelved sees
    left
    rw [found, there]
    show Except.ok m.size = Except.ok (UInt64.ofNat body.length)
    rw [← holds.size, UInt64.ofNat_toNat]

/-- A listing shows the keys of the map, once the deleted ones are left out. -/
theorem Sound.list_answers (sound : s.Sound blobs chunks) {w : FaceWorld} (sees : s.SeesHead w)
    (pref : String) :
    w.Answers ((s.face.list w pref).map fun infos => infos.filter fun info => ¬info.tombstone)
      (.ok ((Shelf.ofLog s.log).list pref)) := by
  -- The listing is that of the view, and the view is the shelf of the log.
  have unfolded : s.face.list w pref =
    ((s.face.openRepo w >>= fun _ => s.face.view w) >>= fun view =>
      .ok ((view.entries.toList.filter fun entry => (utf8 pref).isPrefixOf entry.1).map fun entry =>
        ⟨String.ofList (fromUtf8Lossy entry.1), (entry.2.object.map Manifest.size).getD 0,
          entry.2.deleted⟩)) := by
    unfold Face.list
    cases s.face.openRepo w <;> rfl
  rcases sound.view w with ⟨text, failed, fault⟩ | ⟨view, loaded, shows⟩
  · exact .inr ⟨fault, text, by rw [unfolded, failed]; rfl⟩
  · left
    rw [unfolded, loaded, except_ok_bind]
    show Except.ok (List.filter _ (List.map _ _)) = Except.ok _
    rw [List.filter_map, List.filter_filter, Shelf.list]
    have all : s.face.site.Shows True view := ⟨shows.from_, fun _ => shows.newest sees⟩
    congr 1
    apply OrdMap.map_filter_toList_eq
    · intro key e held passes
      simp only [Function.comp_apply, KeyObject.deleted, Bool.and_eq_true, decide_eq_true_eq,
        Bool.not_eq_true, Option.isNone_eq_false_iff] at passes
      obtain ⟨m, object⟩ := Option.isSome_iff_exists.mp passes.1
      have live : view.live key = some m := by
        simp [BucketManifest.live, BucketManifest.get, held, object]
      -- A live key is on the shelf, under the text it was written as.
      rcases (sound.stands key).live all with ⟨gone, _⟩ |
        ⟨m', name, body, found, spelled, shelved, holds⟩
      · rw [live] at gone
        cases gone
      · rw [live, Option.some.injEq] at found
        subst found
        refine ⟨(name, body), shelved, passes.2, ?_⟩
        have text : String.ofList (fromUtf8Lossy key) = name := by
          rw [← spelled, utf8, fromUtf8Lossy_text, String.ofList_toList]
        have size : m.size = UInt64.ofNat body.length := by rw [← holds.size, UInt64.ofNat_toNat]
        simp [text, object, size, KeyObject.deleted]
    · intro key entry held passes
      rcases (sound.stands key).live all with ⟨_, absent⟩ | ⟨m, name, body, found, _, _, _⟩
      · rw [held] at absent
        cases absent
      · obtain ⟨e, got, object⟩ := Option.bind_eq_some_iff.mp found
        exact ⟨e, got, by simp [KeyObject.deleted, object, passes]⟩

/-- A view that was loaded with HEAD seen shows everything. -/
theorem Sound.shows_of_view (sound : s.Sound blobs chunks) {w : FaceWorld} {view : BucketManifest}
    (loaded : s.face.view w = .ok view) (sees : s.SeesHead w) : s.face.site.Shows True view := by
  -- The view was loaded, so it shows what there is.
  rw [Face.view, except_mapError_eq_ok] at loaded
  rcases Site.viewIn_spec sound.reads sound.readable w with ⟨text, failed, _⟩ | ⟨found, is, shows⟩
  · rw [failed] at loaded
    cases loaded
  · rw [is, Except.ok.injEq] at loaded
    subst loaded
    exact ⟨shows.from_, fun _ => shows.newest sees⟩

/-- Deleting a key keeps a face sound, where the call spares the files. -/
theorem Sound.delete (sound : s.Sound blobs chunks) {w : FaceWorld} {key : String}
    (room : s.count (utf8 key) + 1 < 2 ^ 64) (sees : s.SeesHead w) (whole : w.staged.Whole)
    (free : s.face.site.outbox.files[s.face.site.outbox.pickSeq w.listing]? = none) :
    Sound blobs chunks ⟨(s.face.delete w key).2,
      s.log ++ if (s.face.delete w key).1.isOk then [(key, none)] else []⟩ := by
  -- A deletion that is admitted stages a tombstone.
  unfold Face.delete
  cases admitted : s.face.admitDelete w key with
  | error e => simpa [Except.isOk, Except.toBool] using sound
  | ok view =>
    simp only [Face.admitDelete, except_bind_eq_ok, except_pure_eq, Except.ok.injEq] at admitted
    obtain ⟨_, _, _, _, _, _, _, loaded, _, _, rfl⟩ := admitted
    apply sound.staged room (sound.shows_of_view loaded sees) whole free (fun _ => rfl)
    intro m impossible
    cases impossible

section

variable [GearTable]

/-- Writing an object stores blobs and nothing else, and an object that is written can be read. -/
theorem Sound.writeObject (sound : s.Sound blobs chunks) (w : FaceWorld) {body : Body}
    (known : ∀ writer ∈ (ObjectWriter.withDefaults s.face.sealer s.face.padding).toOption,
      ∀ plain ∈ writer.chunker.split body.bytes, writer.Known blobs chunks plain) :
    ∃ stored, s.face.site.device.blobs.Grows stored ∧ stored.Within blobs ∧
      (s.face.writeObject w body).2 = s.face.withBlobs stored ∧
      ∀ m, (s.face.writeObject w body).1 = .ok m →
        (s.face.withBlobs stored).Holds chunks m body.bytes := by
  -- The writer with the default configuration is there and stores every chunk.
  obtain ⟨writer, made, sealer, profile⟩ :=
    ObjectWriter.withDefaults_ok s.face.sealer s.face.padding
  have short : (Reader.cursor body.bytes).rest.length < 2 ^ 64 := by
    have bound := body.short
    show body.bytes.length < 2 ^ 64
    omega
  obtain ⟨grows, within, holds⟩ :=
    ObjectWriter.write_spec w.chunkPut w.around.now .file sound.within sound.distinct
    (known writer (by simp [made, Except.toOption])) short
  simp only [Face.writeObject, made]
  generalize writer.write s.face.site.device.blobs w.chunkPut w.around.now .file
    (.cursor body.bytes) = after
    at grows within holds ⊢
  obtain ⟨result, stored⟩ := after
  refine ⟨stored, grows, within, rfl, ?_⟩
  intro m is
  rw [sealer, profile] at holds
  exact holds m (except_mapError_eq_ok.mp is)

/-- Putting a key keeps a face sound, where the call spares the files. -/
theorem Sound.put (sound : s.Sound blobs chunks) {w : FaceWorld} {key : String} {body : Body}
    (known : ∀ writer ∈ (ObjectWriter.withDefaults s.face.sealer s.face.padding).toOption,
      ∀ plain ∈ writer.chunker.split body.bytes, writer.Known blobs chunks plain)
    (room : s.count (utf8 key) + 1 < 2 ^ 64) (sees : s.SeesHead w) (whole : w.staged.Whole)
    (free : s.face.site.outbox.files[s.face.site.outbox.pickSeq w.listing]? = none) :
    Sound blobs chunks ⟨(s.face.put w key body).2,
      s.log ++ if (s.face.put w key body).1.isOk then [(key, some body.bytes)] else []⟩ := by
  -- The steps of the call, up to the one that stages the delta.
  unfold Face.put
  cases admitted : s.face.admitPut w key with
  | error e => simpa [Except.isOk, Except.toBool] using sound
  | ok view =>
    simp only [Face.admitPut, except_bind_eq_ok, except_pure_eq, Except.ok.injEq] at admitted
    obtain ⟨_, _, _, _, seen, loaded, _, _, rfl⟩ := admitted
    obtain ⟨stored, grows, within, is, holds⟩ := sound.writeObject w known
    -- The blobs are there before anything refers to them.
    have kept : s.face.Kept (s.face.withBlobs stored) :=
      ⟨⟨rfl, rfl, rfl, rfl, rfl, grows⟩, rfl, rfl, rfl⟩
    have grown : Sound blobs chunks ⟨s.face.withBlobs stored, s.log⟩ :=
      sound.settled kept (Site.settles_of_kept sound.reads sound.readable kept.site within rfl rfl)
        (kept.cacheRight sound.cache)
    dsimp only
    generalize s.face.writeObject w body = after at is holds ⊢
    obtain ⟨result, face⟩ := after
    obtain rfl : face = s.face.withBlobs stored := is
    cases result with
    | error e => simpa [Except.isOk, Except.toBool] using grown
    | ok object =>
      -- The view was loaded before the object was written, and still stands.
      have shows := kept.site.shows sound.reads rfl rfl (sound.shows_of_view loaded sees)
      have readable (m : Manifest) (same : some object = some m) :
        ∃ held, some body.bytes = some held ∧
          (s.face.withBlobs stored).Holds chunks m held := by
        rw [← Option.some.inj same]
        exact ⟨body.bytes, rfl, holds object rfl⟩
      have alive : some object = none → some body.bytes = none := by
        intro impossible
        cases impossible
      have staged := grown.staged room shows whole free alive readable
      simpa only [isOk_map] using staged

end

variable (trusted : Cipher.Trusted)
include trusted

/-- Reading a key answers as the map does, and leaves a right cache. -/
theorem Sound.get_answers (sound : s.Sound blobs chunks) (w : FaceWorld) (key : String) :
    s.face.CacheRight chunks (s.face.get w key).2.cache ∧
      (s.SeesHead w → w.Answers (s.face.get w key).1 ((Shelf.ofLog s.log).get key)) := by
  -- The key is looked up, and then the whole object is read.
  unfold Face.get Shelf.get
  rcases sound.find w key with ⟨text, failed, fault⟩ | ⟨missing, absent⟩ |
    ⟨m, body, found, holds, shelved⟩
  · -- A view that cannot be loaded is an error of the disk, whatever the map says.
    rw [failed]
    exact ⟨sound.cache, fun _ => .inr ⟨fault, text, rfl⟩⟩
  · -- A key without an object is missing from the map as well.
    rw [missing]
    refine ⟨sound.cache, fun sees => .inl ?_⟩
    rw [absent sees]
    rfl
  · rw [found]
    obtain ⟨right, read⟩ := BlobStore.readObjectRange_spec trusted sound.separates holds 0
      (UInt64.ofNat (2 ^ 64 - 1)) w.chunkGet sound.cache
    dsimp only
    generalize s.face.site.device.blobs.readObjectRange m 0 _ w.chunkGet s.face.cache = after
      at right read ⊢
    obtain ⟨result, cache⟩ := after
    refine ⟨right, fun sees => ?_⟩
    rcases read with ⟨e, i, rfl, fault⟩ | ⟨n, stats, rfl⟩
    · exact .inr ⟨fun healthy => fault (healthy.fetch i), e.display, rfl⟩
    · -- The whole of the object lies in front of the last byte there could be.
      obtain ⟨name, there⟩ := shelved sees
      have short : body.length ≤ 2 ^ 64 - 1 := by
        have bound := m.size.toNat_lt
        rw [holds.size] at bound
        omega
      have whole : (body.take (UInt64.ofNat (2 ^ 64 - 1)).toNat).drop (UInt64.toNat 0) = body :=
        List.take_of_length_le short
      left
      rw [there, whole]
      rfl

/-- Reading a part of a key answers as the map does, and leaves a right cache. -/
theorem Sound.getRange_answers (sound : s.Sound blobs chunks) (w : FaceWorld) (key : String)
    (start stop : UInt64) :
    s.face.CacheRight chunks (s.face.getRange w key start stop).2.cache ∧
      (s.SeesHead w → w.Answers
        ((s.face.getRange w key start stop).1.map fun r => (r.data, r.total, r.start, r.stop))
        ((Shelf.ofLog s.log).getRange key start stop)) := by
  -- The key is looked up as for the whole object, and then the range is read.
  unfold Face.getRange Shelf.getRange Shelf.get
  rcases sound.find w key with ⟨text, failed, fault⟩ | ⟨missing, absent⟩ |
    ⟨m, body, found, holds, shelved⟩
  · rw [failed]
    exact ⟨sound.cache, fun _ => .inr ⟨fault, text, rfl⟩⟩
  · rw [missing]
    refine ⟨sound.cache, fun sees => .inl ?_⟩
    rw [absent sees]
    rfl
  · rw [found]
    -- The range is cut to the size of the object, which is that of the body.
    have size : m.size = UInt64.ofNat body.length := by rw [← holds.size, UInt64.ofNat_toNat]
    obtain ⟨right, read⟩ :=
      BlobStore.readObjectRange_spec trusted sound.separates holds (min start m.size)
      (max (min stop m.size) (min start m.size)) w.chunkGet sound.cache
    dsimp only
    generalize s.face.site.device.blobs.readObjectRange m (min start m.size) _ w.chunkGet
      s.face.cache = after
      at right read ⊢
    obtain ⟨result, cache⟩ := after
    refine ⟨right, fun sees => ?_⟩
    rcases read with ⟨e, i, rfl, fault⟩ | ⟨n, stats, rfl⟩
    · exact .inr ⟨fun healthy => fault (healthy.fetch i), e.display, rfl⟩
    · obtain ⟨name, there⟩ := shelved sees
      left
      rw [there, size]
      rfl

/-- A sound face serves. -/
theorem Sound.serves (sound : s.Sound blobs chunks) : s.Serves where
  get w sees key := (sound.get_answers trusted w key).2 sees
  head _ sees key := sound.head_answers sees key
  list _ sees pref := sound.list_answers sees pref
  getRange w sees key start stop := (sound.getRange_answers trusted w key start stop).2 sees

omit trusted in
/-- Another right cache changes nothing. -/
theorem Sound.recached (sound : s.Sound blobs chunks) {cache : Option ChunkCache}
    (right : s.face.CacheRight chunks cache) :
      Sound blobs chunks ⟨{ s.face with cache }, s.log⟩ := by
  have kept : s.face.Kept { s.face with cache } := ⟨.refl _, rfl, rfl, rfl⟩
  exact sound.settled kept (Site.settles_of_kept sound.reads sound.readable kept.site sound.within
    rfl rfl) right

variable [GearTable]

/-- Every call that spares the files keeps a face sound. -/
theorem Sound.step (sound : s.Sound blobs chunks) {call : FaceCall} {w : FaceWorld}
    (takes : s.Takes blobs chunks call w) (spares : s.Spares call w) :
      Sound blobs chunks (s.step call w) := by
  -- One kind of call after the other.
  have counted (key : String) :
      s.count (utf8 key) = (s.log.filter fun entry => entry.1 = key).length := by
    simp only [count, utf8_inj]
  cases call with
  | put key body =>
    obtain ⟨room, known⟩ := takes
    obtain ⟨sees, whole, free⟩ := spares
    exact sound.put known (by rw [counted]; unfold Room at room; omega) sees whole free
  | delete key =>
    obtain ⟨sees, whole, free⟩ := spares
    exact sound.delete (by rw [counted]; unfold Takes Room at takes; omega) sees whole free
  -- A read changes the cache at most.
  | get key =>
    have right := (sound.get_answers trusted w key).1
    have only : (s.face.get w key).2 = { s.face with cache := (s.face.get w key).2.cache } := by
      unfold Face.get
      split <;> rfl
    show Sound blobs chunks ⟨(s.face.get w key).2, s.log⟩
    rw [only]
    exact sound.recached right
  | getRange key start stop =>
    have right := (sound.getRange_answers trusted w key start stop).1
    have only : (s.face.getRange w key start stop).2 =
        { s.face with cache := (s.face.getRange w key start stop).2.cache } := by
      unfold Face.getRange
      split <;> rfl
    show Sound blobs chunks ⟨(s.face.getRange w key start stop).2, s.log⟩
    rw [only]
    exact sound.recached right
  | head key => exact sound
  | list pref => exact sound
  -- A replay publishes what was staged, and serves the same map.
  | replay =>
    obtain ⟨sees, whole⟩ := spares
    have settles := Site.replay_settles sound.reads sound.readable sound.opens sound.distinct
      sound.within sees whole takes
    have kept : s.face.Kept { s.face with site := (s.face.site.replay w).2 } :=
      ⟨settles.kept, rfl, rfl, rfl⟩
    exact sound.settled kept settles (kept.cacheRight sound.cache)

omit [GearTable] in
omit trusted in
/-- An empty namespace is sound. -/
theorem Fresh.sound (fresh : s.Fresh blobs) (opens : s.face.site.bucketKeys.Opens)
    (distinct : Set.InjOn s.face.site.device.blobs.addressing.addrOf blobs)
    (separates : s.face.sealer.Separates chunks) : s.Sound blobs chunks := by
  -- With no head and nothing in the outbox there is no candidate.
  have none (key : Bytes) (e : KeyObject) : ¬s.face.site.Candidate key e := by
    rintro (⟨base, loaded, held⟩ | ⟨seq, bytes, delta, filed, _⟩)
    · simp only [Site.loadPublishedHead, fresh.head, Except.ok.injEq] at loaded
      subst loaded
      simp [BucketManifest.get, BucketManifest.empty] at held
    · simp [fresh.outbox] at filed
  refine ⟨opens, distinct, separates, fresh.within, .inl fresh.head, ?_, ?_, ?_, ?_⟩
  · intro seq bytes filed
    simp [fresh.outbox] at filed
  · intro key e m there
    exact absurd there (none key e)
  · intro key
    exact .inl ⟨by simp [count, fresh.log], by simp [Shelf.ofLog, fresh.log], none key⟩
  · intro cached is addr bytes plain held opened
    exact (fresh.cache cached is addr bytes plain held opened).elim

end Served

end

/-- A face is sound after every run of calls that spare the files. -/
theorem sound_of_run [Crypto] [Cipher] [GearTable] (trusted : Cipher.Trusted)
    {blobs chunks : Set Bytes} {s : Served} (fresh : s.Fresh blobs)
    (opens : s.face.site.bucketKeys.Opens)
    (distinct : Set.InjOn s.face.site.device.blobs.addressing.addrOf blobs)
    (separates : s.face.sealer.Separates chunks) {calls : List (FaceCall × FaceWorld)}
    (permitted : faceMachine.Permits
      (fun s e => s.Takes blobs chunks e.1 e.2 ∧ s.Spares e.1 e.2) s calls) :
    (faceMachine.run s calls).Sound blobs chunks := by
  -- Soundness holds at the start and through every call.
  apply Machine.run_invariant (fresh.sound opens distinct separates) permitted
  intro s e allowed sound
  exact sound.step trusted allowed.1 allowed.2

/--
The local face serves the plain map of its successful writes, over every run of calls
that spare the files.

A call spares the files where HEAD can be read, a failed write leaves the file as it was, and a
delta is staged under a number that no file has.
-/
theorem sparing_calls_refine_a_map [Crypto] [Cipher] [GearTable] (trusted : Cipher.Trusted)
    (blobs chunks : Set Bytes) (s : Served) (fresh : s.Fresh blobs)
    (opens : s.face.site.bucketKeys.Opens)
    (distinct : Set.InjOn s.face.site.device.blobs.addressing.addrOf blobs)
    (separates : s.face.sealer.Separates chunks) (calls : List (FaceCall × FaceWorld))
    (permitted : faceMachine.Permits
      (fun s e => s.Takes blobs chunks e.1 e.2 ∧ s.Spares e.1 e.2) s calls) :
    (faceMachine.run s calls).Serves :=
  (sound_of_run trusted fresh opens distinct separates permitted).serves trusted

section

open Concrete

/-- A world in which every call on the face finds everything working. -/
def calmFace : FaceWorld where
  described := .ok ()
  opened := .ok ()
  blobsDir := .ok ()
  outboxDir := .ok ()
  headRead := .ok ()
  listing := .ok ()
  staged := .done
  headFile := .done
  chunkPut _ := .ok ()
  chunkGet _ := ⟨.ok (), ⟨.ok (), .ok (), some (FixedBytes.zero _), .done⟩⟩
  around := calm

/-- A calm disk is healthy. -/
theorem calmFace_healthy : calmFace.Healthy := ⟨rfl, rfl, rfl, rfl, fun _ => rfl⟩

/-- The face of a device on which nothing has happened yet, with an empty cache. -/
def homeFace : Served :=
  ⟨⟨homeSite, .none, FixedBytes.zero _, [], some (.fresh (FixedBytes.zero _) 8)⟩, []⟩

/-- An object of one byte. -/
def oneByte (b : UInt8) : Body where
  bytes := [b]
  short := by
    rw [List.length_singleton]
    decide

/-- A key that is put, published and deleted, and another that stays. -/
def calmCalls : List (FaceCall × FaceWorld) :=
  [(.put "a" (oneByte 1), calmFace), (.replay, calmFace), (.put "b" (oneByte 2), calmFace),
    (.get "a", calmFace), (.delete "a", calmFace)]

/-- The blobs those calls store, and the chunks in them. -/
def calmBlobs : List Bytes :=
  (faceMachine.run homeFace calmCalls).face.site.device.blobs.files.toList.map fun file =>
    file.2.content
def calmChunks : List Bytes := [[1], [2]]

/-- A new face has nothing stored. -/
theorem homeFace_fresh (blobs : Set Bytes) : homeFace.Fresh blobs where
  -- There is neither a head nor a delta, and no file in the store or the cache.
  head := rfl
  outbox := rfl
  within addr found held := by
    obtain ⟨_, stored, _⟩ := BlobStore.get_eq_ok.mp held
    cases stored
  cache cached is := by
    cases is
    intro addr bytes plain held
    cases held
  log := rfl

/-- The example's sealer separates chunks. -/
theorem homeFace_separates (chunks : Set Bytes) : homeFace.face.sealer.Separates chunks := by
  -- Equal sealed bytes have equal contents.
  intro a _ b _ blob x y first second
  simp only [Face.sealer, homeFace, homeSite, device, Sealer.protect, sealChunk,
    except_bind_eq_ok, okOr_eq_ok, except_pure_eq, Except.ok.injEq, Prod.mk.injEq] at first second
  obtain ⟨_, first, rfl, _⟩ := first
  obtain ⟨_, second, rfl, _⟩ := second
  exact enclose_inj first second

/-- Those calls all succeed, and every read then answers as their map does. -/
theorem calm_calls_are_served :
    (faceMachine.run homeFace calmCalls).log = [("a", some [1]), ("b", some [2]), ("a", none)] ∧
      (faceMachine.run homeFace calmCalls).Serves := by
  -- The calls are evaluated, and nothing they hash collides.
  refine ⟨by decide +kernel, ?_⟩
  apply sparing_calls_refine_a_map trusted {data | data ∈ calmBlobs} {data | data ∈ calmChunks}
    homeFace (homeFace_fresh _) (fun _ _ _ => rfl) (injOn_of_nodup (by decide +kernel))
    (homeFace_separates _)
  decide +kernel

/-- A key that is put, and another that is put when the disk is full. -/
def crampedCalls : List (FaceCall × FaceWorld) :=
  [(.put "a" (oneByte 1), calmFace),
    (.put "b" (oneByte 2),
      { calmFace with staged := .failed ⟨"No space left on device"⟩ (some 0) })]

/-- The second put fails, and what it leaves in the outbox hides the first one. -/
theorem crampedCalls_hide :
    faceMachine.Permits
      (fun s e => s.Takes {data | data ∈ calmBlobs} {data | data ∈ calmChunks} e.1 e.2)
      homeFace crampedCalls ∧
    (Shelf.ofLog (faceMachine.run homeFace crampedCalls).log).get "a" = .ok [1] ∧
    ((faceMachine.run homeFace crampedCalls).face.get calmFace "a").1 =
      .error (.error "home/state/outbox/00000002.nasb: not a bucket manifest") := by
  decide +kernel

/-- A put that fails while it writes its delta takes every key out of view. -/
theorem failed_put_takes_keys_out_of_view :
    homeFace.Fresh {data | data ∈ calmBlobs} ∧
    faceMachine.Permits
      (fun s e => s.Takes {data | data ∈ calmBlobs} {data | data ∈ calmChunks} e.1 e.2)
      homeFace crampedCalls ∧
    ¬(faceMachine.run homeFace crampedCalls).Serves := by
  -- The two calls are evaluated.
  obtain ⟨permitted, right, answer⟩ := crampedCalls_hide
  refine ⟨homeFace_fresh _, permitted, fun serves => ?_⟩
  -- The map still has the first key, and nothing the read needs has failed.
  rcases serves.get calmFace (.inl rfl) "a" with same | ⟨sick, _⟩
  · rw [answer, right] at same
    cases same
  · exact sick calmFace_healthy

end

end NasTools
