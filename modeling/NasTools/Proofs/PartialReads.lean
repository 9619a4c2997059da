import NasTools.Lib.Names
import NasTools.Model.Gateway.S3
import NasTools.Proofs.Face

/-! Partial answers of the gateway, which are made of two reads with other calls between them. -/

namespace NasTools

/-- The header of a part is read in one way. -/
theorem contentRange_inj {a b t a' b' t' : Nat}
    (same : contentRange a b t = contentRange a' b' t') :
    a = a' ∧ b = b' ∧ t = t' := by
  -- The text is taken apart at its marks.
  have free (mark : Char) (n : Nat) (other : mark.isDigit = false) :
      mark ∉ (toString n).toList := by
    intro member
    rw [Text.isDigit_of_mem_number member] at other
    cases other
  have chars := congrArg String.toList same
  simp only [contentRange, String.toList_append, List.append_assoc, List.append_cancel_left_eq]
    at chars
  -- The dash ends the first number, and the slash the second.
  obtain ⟨first, chars⟩ :=
    Folders.around_inj (free '-' a (by decide)) (free '-' a' (by decide)) chars
  obtain ⟨second, third⟩ :=
    Folders.around_inj (free '/' b (by decide)) (free '/' b' (by decide)) chars
  exact ⟨Text.natural_injective (String.toList_injective first),
    Text.natural_injective (String.toList_injective second),
    Text.natural_injective (String.toList_injective third)⟩

/-- A range that is read is not empty, and lies inside the whole. -/
theorem parseByteRange_within {text : List Char} {total start stop : UInt64}
    (parsed : S3.parseByteRange text total = some (start, stop)) :
    start.toNat < stop.toNat ∧ stop.toNat ≤ total.toNat := by
  -- The ways to spell a range, one after the other.
  simp only [S3.parseByteRange, Option.bind_eq_bind, Option.bind_eq_some_iff, Option.guard_eq_some']
    at parsed
  obtain ⟨rest, _, _, ⟨_, some_⟩, parsed⟩ := parsed
  have positive : total.toNat ≠ 0 := fun zero => some_ (UInt64.toNat_inj.mp zero)
  split at parsed
  · -- The last bytes, of which there are some.
    simp only [Option.bind_eq_some_iff, Option.guard_eq_some', Option.pure_def, Option.some.injEq,
      Prod.mk.injEq]
      at parsed
    obtain ⟨n, _, _, nonzero, rfl, rfl⟩ := parsed
    have counted : n.toNat ≠ 0 := fun zero => nonzero (UInt64.toNat_inj.mp zero)
    have cut : min n total ≤ total := by
      rw [UInt64.le_iff_toNat_le, toNat_min]
      omega
    rw [UInt64.toNat_sub_of_le _ _ cut, toNat_min]
    omega
  · simp only [Option.bind_eq_some_iff, Option.guard_eq_some', Option.pure_def] at parsed
    obtain ⟨⟨a, b⟩, _, from_, _, _, inside, parsed⟩ := parsed
    rw [UInt64.lt_iff_toNat_lt] at inside
    split at parsed
    · obtain ⟨rfl, rfl⟩ : from_ = start ∧ total = stop := by simpa using parsed
      exact ⟨inside, Nat.le_refl _⟩
    · simp only [Option.bind_eq_some_iff, Option.guard_eq_some', Option.some.injEq, Prod.mk.injEq]
        at parsed
      obtain ⟨last, _, _, ordered, rfl, rfl⟩ := parsed
      rw [UInt64.le_iff_toNat_le] at ordered
      -- The end is one behind the last byte, or the end of the whole.
      have bound := total.toNat_lt
      rw [toNat_min, toNat_satAdd, UInt64.toNat_one]
      omega

example : S3.parseByteRange "bytes=2-4".toList 10 = some (2, 5) := by decide +kernel

/--
An answer made of two reads, the second of another version, is right about itself exactly
when its range still fits.
-/
theorem describesItself_iff (versions : Set Bytes) {old new : Bytes} {header : List Char}
    {start stop : UInt64} {r : HttpResponse} (short : old.length < 2 ^ 64)
    (parsed : S3.parseByteRange header (UInt64.ofNat old.length) = some (start, stop)) (last : Nat)
    (is : last = max (min stop.toNat new.length) (min start.toNat new.length))
    (labelled : r.extra.lookup "Content-Range" =
      some (contentRange start.toNat (last - 1) old.length))
    (body : r.body = (new.take last).drop (min start.toNat new.length)) :
    r.DescribesItself versions ↔ StillFits versions old new header := by
  -- The numbers in the header are those of the range, cut to the new version.
  obtain ⟨some_, within⟩ := parseByteRange_within parsed
  rw [UInt64.toNat_ofNat_of_lt' short] at within
  -- Where the range starts inside the new version, it ends there too.
  have inside (begins : start.toNat < new.length) : last = min stop.toNat new.length ∧
      r.body = (new.take stop.toNat).drop start.toNat := by
    have ends : last = min stop.toNat new.length := by omega
    refine ⟨ends, ?_⟩
    rw [body, ends, min_eq_left begins.le]
    congr 1
    exact List.take_eq_take_iff.mpr (by omega)
  constructor
  · rintro ⟨version, known, first, last', ordered, below, told, has⟩
    rw [labelled] at told
    obtain ⟨rfl, rfl, size⟩ := contentRange_inj (Option.some.inj told)
    have begins : start.toNat < new.length := by
      -- Behind the new version there is nothing to read, and the header names one byte at least.
      have lengths := congrArg List.length (body.symm.trans has)
      simp only [List.length_drop, List.length_take] at lengths
      omega
    obtain ⟨ends, read⟩ := inside begins
    refine ⟨start, stop, parsed, begins, version, known, size.symm, ?_⟩
    rw [← read, has, ends]
    congr 2
    omega
  · rintro ⟨start', stop', parsed', begins, version, known, size, same⟩
    obtain ⟨rfl, rfl⟩ := Prod.mk.inj (Option.some.inj (parsed.symm.trans parsed'))
    obtain ⟨ends, read⟩ := inside begins
    refine ⟨version, known, start.toNat, last - 1, by omega, by omega, by rw [labelled, size], ?_⟩
    rw [read, ← same, ends]
    congr 2
    omega

/-- A call that succeeds on a bucket is one that succeeds. -/
theorem ok_of_onBucket {A : Type} {bucket : String} {call : BucketCall Served A}
    {s s' : Served} {a : A} (called : onBucket bucket call s = (.ok a, s')) :
    call s = (.ok a, s') := by
  unfold onBucket at called
  split at called
  · cases called
  · exact called

/-- A failed call is not answered with a part. -/
theorem faceErr_status (e : FaceError) : (S3.faceErr e).status ≠ 206 := by
  cases e <;> simp [S3.faceErr, S3.respond, S3.respondWith]

section

variable [Crypto] [Cipher] [GearTable]

namespace Served

/-- A call writes nothing, or one key, behind what was written. -/
theorem log_step (s : Served) (e : FaceCall × FaceWorld) :
    ∃ more, (faceMachine.step s e).2.log = s.log ++ more ∧
      ∀ entry ∈ more, ∀ body, entry.2 = some body → body.length < 2 ^ 63 := by
  -- Only a put and a delete write to the log, and a body is shorter than its bound.
  obtain ⟨call, w⟩ := e
  have nothing : s.log = s.log ++ [] := (List.append_nil _).symm
  cases call with
  | put key body =>
    refine ⟨_, rfl, ?_⟩
    intro entry member bytes is
    obtain rfl : entry = (key, some body.bytes) :=
      List.mem_singleton.mp (List.mem_ite_nil_right.mp member).2
    obtain rfl : body.bytes = bytes := Option.some.inj is
    exact body.short
  | delete key =>
    refine ⟨_, rfl, ?_⟩
    intro entry member bytes is
    obtain rfl : entry = (key, none) := List.mem_singleton.mp (List.mem_ite_nil_right.mp member).2
    cases is
  | get key => exact ⟨[], nothing, by simp⟩
  | getRange key start stop => exact ⟨[], nothing, by simp⟩
  | head key => exact ⟨[], nothing, by simp⟩
  | list pref => exact ⟨[], nothing, by simp⟩
  | replay => exact ⟨[], nothing, by simp⟩

/-- A run writes behind what was written, and nothing that does not fit into memory. -/
theorem log_run (s : Served) (calls : List (FaceCall × FaceWorld)) :
    ∃ more, (faceMachine.run s calls).log = s.log ++ more ∧
      ∀ entry ∈ more, ∀ body, entry.2 = some body → body.length < 2 ^ 63 := by
  -- Induction over the calls, each of which adds to the log.
  induction calls generalizing s with
  | nil => exact ⟨[], (List.append_nil _).symm, by simp⟩
  | cons e rest ih =>
    obtain ⟨first, here, short⟩ := log_step s e
    obtain ⟨later, there, short'⟩ := ih (faceMachine.step s e).2
    refine ⟨first ++ later, ?_, ?_⟩
    · rw [Machine.run_cons, there, here, List.append_assoc]
    · intro entry member
      rcases List.mem_append.mp member with inFirst | inLater
      · exact short entry inFirst
      · exact short' entry inLater

end Served

/-- What a partial answer is made of: the length of one version, and bytes of another. -/
theorem partial_answer {s : Served} {lookup reading : FaceWorld}
    {between : List (FaceCall × FaceWorld)} (serves : s.Serves)
    (serves' : (faceMachine.run s between).Serves) (sees : s.SeesHead lookup)
    (sees' : (faceMachine.run s between).SeesHead reading) {bucket key : String}
    {header : List Char} {r : HttpResponse}
    (answered : (S3.writeObjectGet (interruptedBuckets lookup reading between) bucket key
      (some header) s).1 = r)
    (part : r.status = 206) :
    ∃ old new start stop last, (Shelf.ofLog s.log).get key = .ok old ∧
      (Shelf.ofLog (faceMachine.run s between).log).get key = .ok new ∧
      S3.parseByteRange header (UInt64.ofNat old.length) = some (start, stop) ∧
      last = max (min stop (UInt64.ofNat new.length)) (min start (UInt64.ofNat new.length)) ∧
      r.extra.lookup "Content-Range" =
        some (contentRange start.toNat (satSub last 1).toNat (UInt64.ofNat old.length).toNat) ∧
      r.body = (new.take last.toNat).drop (min start (UInt64.ofNat new.length)).toNat := by
  -- Of the answers only one has this status.
  simp only [S3.writeObjectGet] at answered
  split at answered
  · subst answered
    exact absurd part (faceErr_status _)
  · rename_i total s₁ looked
    obtain ⟨found, rfl⟩ := Prod.mk.inj (ok_of_onBucket looked)
    -- The length is that of the version the lookup finds.
    rcases serves.head lookup sees key with right | ⟨_, text, failed⟩
    · rw [found] at right
      obtain ⟨old, held, rfl⟩ := except_map_eq_ok.mp right.symm
      split at answered
      · rename_i start stop parsed
        split at answered
        · rename_i rb s₂ read
          -- The bytes are those of the version the ranged read finds.
          have called : onBucket bucket (fun s => ((s.face.getRange reading key start stop).1,
              s.step (.getRange key start stop) reading)) (faceMachine.run s between) =
              (.ok rb, s₂) := read
          have whole := ok_of_onBucket called
          obtain ⟨given, -⟩ := Prod.mk.inj whole
          rcases serves'.getRange reading sees' key start stop with right' | ⟨_, text, failed⟩
          · rw [given] at right'
            obtain ⟨new, held', same⟩ := except_map_eq_ok.mp right'.symm
            simp only [Prod.mk.injEq] at same
            obtain ⟨data, -, -, ends⟩ := same
            refine ⟨old, new, start, stop, rb.stop, held, held', parsed, ends.symm, ?_, ?_⟩
            · subst answered
              rfl
            · subst answered
              rw [← ends]
              exact data.symm
          · rw [given] at failed
            cases failed
        · subst answered
          exact absurd part (faceErr_status _)
      · subst answered
        simp [S3.respondWith] at part
    · rw [found] at failed
      cases failed

end

/-- Where the version that is read has the length that was looked up, the range fits. -/
theorem stillFits_of_length {versions : Set Bytes} {old new : Bytes} {header : List Char}
    {start stop : UInt64} (short : old.length < 2 ^ 64) (known : new ∈ versions)
    (same : new.length = old.length) (parsed : S3.parseByteRange header (UInt64.ofNat old.length) =
      some (start, stop)) :
    StillFits versions old new header := by
  obtain ⟨some_, within⟩ := parseByteRange_within parsed
  rw [UInt64.toNat_ofNat_of_lt' short] at within
  refine ⟨start, stop, parsed, by omega, new, known, same, ?_⟩
  rw [min_eq_left (by omega)]

/--
A partial answer describes its own bytes exactly when its range still fits what is read.

The length is looked up in one call and the bytes are read in another, and the header has the length
of the first; so other calls between the two can make it speak of bytes that no version has there.
-/
theorem partial_answer_describes_itself_iff [Crypto] [Cipher] [GearTable] (trusted : Cipher.Trusted)
    (blobs chunks : Set Bytes) (s : Served) (fresh : s.Fresh blobs)
    (opens : s.face.site.bucketKeys.Opens)
    (distinct : Set.InjOn s.face.site.device.blobs.addressing.addrOf blobs)
    (separates : s.face.sealer.Separates chunks) (before between : List (FaceCall × FaceWorld))
    (permitted : faceMachine.Permits
      (fun s e => s.Takes blobs chunks e.1 e.2 ∧ s.Spares e.1 e.2) s (before ++ between))
    (lookup reading : FaceWorld) (sees : (faceMachine.run s before).SeesHead lookup)
    (sees' : (faceMachine.run s (before ++ between)).SeesHead reading) (bucket key : String)
    (header : List Char)
    (part : (S3.writeObjectGet (interruptedBuckets lookup reading between) bucket key (some header)
      (faceMachine.run s before)).1.status = 206) :
    (S3.writeObjectGet (interruptedBuckets lookup reading between) bucket key (some header)
        (faceMachine.run s before)).1.DescribesItself
          ((faceMachine.run s (before ++ between)).versions key) ↔
      ∃ old new, (Shelf.ofLog (faceMachine.run s before).log).get key = .ok old ∧
        (Shelf.ofLog (faceMachine.run s (before ++ between)).log).get key = .ok new ∧
        StillFits ((faceMachine.run s (before ++ between)).versions key) old new header := by
  -- Both reads are answered as the map does at their time.
  obtain ⟨allowed, -⟩ := Machine.permits_append.mp permitted
  have serves := (sound_of_run trusted fresh opens distinct separates allowed).serves trusted
  have serves' := (sound_of_run trusted fresh opens distinct separates permitted).serves trusted
  obtain ⟨all, logged, bounded⟩ := Served.log_run s (before ++ between)
  rw [fresh.log, List.nil_append] at logged
  rw [Machine.run_append] at sees' serves' logged ⊢
  obtain ⟨old, new, start, stop, last, held, held', parsed, is, labelled, body⟩ :=
    partial_answer serves serves' sees sees' rfl part
  -- What is held at either time was put, so it fits into memory.
  obtain ⟨later, grown, -⟩ := Served.log_run (faceMachine.run s before) between
  have short : old.length < 2 ^ 63 := by
    apply bounded (key, some old) _ old rfl
    rw [← logged, grown]
    exact List.mem_append_left _ (Shelf.mem_of_get held)
  have short' : new.length < 2 ^ 63 := by
    apply bounded (key, some new) _ new rfl
    rw [← logged]
    exact Shelf.mem_of_get held'
  have number (body : Bytes) (short : body.length < 2 ^ 63) :
      (UInt64.ofNat body.length).toNat = body.length :=
    UInt64.toNat_ofNat_of_lt' (Nat.lt_trans short (by decide))
  rw [toNat_satSub, number old short] at labelled
  rw [toNat_min, number new short'] at body
  have ends : last.toNat = max (min stop.toNat new.length) (min start.toNat new.length) := by
    rw [is, toNat_max, toNat_min, toNat_min, number new short']
  rw [describesItself_iff _ (by omega) parsed last.toNat ends labelled body]
  constructor
  · exact fun fits => ⟨old, new, held, held', fits⟩
  · rintro ⟨old', new', there, there', fits⟩
    rw [held, Except.ok.injEq] at there
    rw [held', Except.ok.injEq] at there'
    rwa [there, there']

section

open Concrete

/--
A key that is put before a request looks up its length, and again before the request reads it.
-/
def longPut : List (FaceCall × FaceWorld) := [(.put "a" ⟨[1, 2, 3, 4], by decide⟩, calmFace)]
def shortPut : List (FaceCall × FaceWorld) := [(.put "a" (oneByte 9), calmFace)]

/-- Another key that is put, and other bytes of the same length under the first one. -/
def levelPuts : List (FaceCall × FaceWorld) :=
  [(.put "b" (oneByte 9), calmFace), (.put "a" ⟨[5, 6, 7, 8], by decide⟩, calmFace)]

/-- The blobs that are stored for both versions. -/
def levelBlobs : List Bytes :=
  (faceMachine.run homeFace (longPut ++ levelPuts)).face.site.device.blobs.files.toList.map
    fun file => file.2.content

/-- A range that is looked up in one version and read of another of its length describes itself. -/
theorem level_range_describes_itself :
    (S3.writeObjectGet (interruptedBuckets calmFace calmFace levelPuts) "home" "a"
      (some "bytes=1-2".toList) (faceMachine.run homeFace longPut)).1.DescribesItself
      ((faceMachine.run homeFace (longPut ++ levelPuts)).versions "a") := by
  -- The hypotheses of the theorem are evaluated for this run.
  apply (partial_answer_describes_itself_iff trusted {data | data ∈ levelBlobs}
    {data | data ∈ [[1, 2, 3, 4], [9], [5, 6, 7, 8]]} homeFace (homeFace_fresh _) (fun _ _ _ => rfl)
    (injOn_of_nodup (by decide +kernel)) (homeFace_separates _) longPut levelPuts
      (by decide +kernel) calmFace calmFace
    (.inl rfl) (.inl rfl) "home" "a" "bytes=1-2".toList (by decide +kernel)).mpr
  have known : ("a", some [5, 6, 7, 8]) ∈
    (faceMachine.run homeFace (longPut ++ levelPuts)).log := by decide +kernel
  have parsed : S3.parseByteRange "bytes=1-2".toList (UInt64.ofNat 4) = some (1, 3) := by decide
  exact ⟨[1, 2, 3, 4], [5, 6, 7, 8], by decide +kernel, by decide +kernel,
    stillFits_of_length (by decide) known rfl parsed⟩

/-- The answer to a range of the first version, once the second is there. -/
def mixedAnswer : HttpResponse :=
  (S3.writeObjectGet (interruptedBuckets calmFace calmFace shortPut) "home" "a"
    (some "bytes=0-3".toList) (faceMachine.run homeFace longPut)).1

/--
A range that is looked up in four bytes and read of one other is answered with a byte
that no version has there.
-/
theorem replaced_object_is_misdescribed :
    mixedAnswer.status = 206 ∧ mixedAnswer.extra.lookup "Content-Range" =
      some (contentRange 0 0 4) ∧
      mixedAnswer.body = [9] ∧
      ¬mixedAnswer.DescribesItself
        ((faceMachine.run homeFace (longPut ++ shortPut)).versions "a") := by
  -- The answer is evaluated.
  have labelled : mixedAnswer.extra.lookup "Content-Range" = some (contentRange 0 0 4) := by
    decide +kernel
  have body : mixedAnswer.body = [9] := by decide +kernel
  have logged : (faceMachine.run homeFace (longPut ++ shortPut)).log =
      [("a", some [1, 2, 3, 4]), ("a", some [9])] := by decide +kernel
  refine ⟨by decide +kernel, labelled, body, ?_⟩
  rintro ⟨version, known, first, last, _, _, told, has⟩
  rw [labelled] at told
  obtain ⟨rfl, rfl, size⟩ := contentRange_inj (Option.some.inj told)
  -- Only the first version is that long, and it starts with another byte.
  have put : ("a", some version) ∈ (faceMachine.run homeFace (longPut ++ shortPut)).log := known
  rw [logged] at put
  rcases List.mem_cons.mp put with same | put
  · obtain rfl : version = [1, 2, 3, 4] := by simpa using same
    rw [body] at has
    cases has
  · obtain rfl : version = [9] := by simpa using put
    cases size

end

end NasTools
