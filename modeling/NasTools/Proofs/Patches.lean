import NasTools.Model.Cli.Patch
import NasTools.Model.Core.HexAddr
import NasTools.Model.Delete.Formats
import NasTools.Model.Store.Concrete
import NasTools.Model.Store.Objects

/-! When the patch that git is handed is the patch that git printed. -/

namespace NasTools

open Checked (lift lift_ok_bind lift_inj pure_eq bind_eq_ok)

section

/-- Lines with no line end in them are the pieces of the text they make up. -/
theorem splitn_lines {first second third rest : List Char} (freeFirst : '\n' ∉ first)
    (freeSecond : '\n' ∉ second) (freeThird : '\n' ∉ third) :
    splitn 4 '\n' (first ++ '\n' :: (second ++ '\n' :: (third ++ '\n' :: rest))) =
      [first, second, third, rest] := by
  simp only [splitn, Text.splitOnce_append freeFirst, Text.splitOnce_append freeSecond,
    Text.splitOnce_append freeThird]

/-- Hexadecimal text of some bytes is read as these bytes. -/
theorem unhexBytes_toHex (data : Bytes) : unhexBytes (toHex data) = lift (.ok data) := by
  -- Every digit is one byte, so the text is cut between the pairs.
  have ones : ∀ c ∈ toHex data, c.utf8Size = 1 := by
    intro c member
    obtain ⟨n, below, rfl⟩ := Text.mem_toHex member
    exact (Text.hexDigit_plain below).2.2
  have pairs : unhexPairs (toHex data) = lift (.ok data) := by
    induction data with
    | nil => rfl
    | cons b rest ih =>
      have unfolded : toHex (b :: rest) = hexDigit (b.toNat / 16) :: hexDigit (b.toNat % 16) ::
        toHex rest := rfl
      rw [unfolded] at ones ⊢
      rw [unhexPairs, if_neg (by rw [ones _ (by simp)]; decide),
        if_pos ⟨ones _ (by simp), ones _ (by simp)⟩,
        Text.parseHexByte_hexDigits, ih fun c member => ones c (by simp [member])]
      rfl
  rw [unhexBytes, length_textBytes_toHex, ensure_of (by omega), pairs]
  rfl

/-- The container has a header, two lines of digits and the body. -/
theorem encodePatch_length (vk sig body : Bytes) :
    (encodePatch vk sig body).length = 14 + 2 * vk.length + 2 * sig.length + body.length := by
  have header : (asciiBytes "NASPATCH/v1\n").length = 12 := by decide
  simp only [encodePatch, List.length_append, length_textBytes_toHex, header, List.length_singleton]
  omega

/-- A patch whose body is text is taken apart into what it was made of. -/
theorem decodePatch_encodePatch (vk sig : Bytes) (text : List Char) :
    decodePatch (encodePatch vk sig (textBytes text)) = lift (.ok (vk, sig, textBytes text)) := by
  -- A text in the body makes the whole a text, which is cut at its first three line ends.
  have header : asciiBytes "NASPATCH/v1\n" = textBytes ("NASPATCH/v1".toList ++ ['\n']) := by decide
  have ended : ([0x0A] : Bytes) = textBytes ['\n'] := by decide
  have packed : encodePatch vk sig (textBytes text) =
      utf8 (String.ofList ("NASPATCH/v1".toList ++ '\n' ::
        (toHex vk ++ '\n' :: (toHex sig ++ '\n' :: text)))) := by
    generalize "NASPATCH/v1".toList = line at header
    rw [utf8_eq_textBytes, String.toList_ofList, encodePatch, header, ended]
    simp only [← textBytes_append, List.append_assoc, List.cons_append, List.nil_append]
  -- No digit is a line end.
  have plain (data : Bytes) : '\n' ∉ toHex data := by
    intro member
    obtain ⟨n, below, is⟩ := Text.mem_toHex member
    interval_cases n <;> cases is
  rw [decodePatch, packed, ofUtf8?_eq_some.mpr rfl]
  simp only [okOr_some, lift_ok_bind, String.toList_ofList]
  rw [splitn_lines (by decide) (plain vk) (plain sig)]
  simp [unhexBytes_toHex]

/-- The body of a patch that is taken apart is text. -/
theorem text_of_decodePatch {bytes vk sig body : Bytes}
    (read : decodePatch bytes = lift (.ok (vk, sig, body))) :
    ∃ text, textBytes text = body := by
  simp only [decodePatch, bind_eq_ok, pure_eq, lift_inj, Except.ok.injEq, Prod.mk.injEq] at read
  obtain ⟨_, _, _, _, _, _, _, _, _, _, _, _, text, _, _, _, is⟩ := read
  exact ⟨text, is⟩

/-- A packed patch is taken apart into what it was made of exactly when its body is UTF-8. -/
theorem decodePatch_encodePatch_iff {vk sig body : Bytes} :
    decodePatch (encodePatch vk sig body) = lift (.ok (vk, sig, body)) ↔
      ∃ text, utf8 text = body := by
  -- What is decoded is a text, and a text is decoded as it was.
  constructor
  · intro read
    obtain ⟨text, rfl⟩ := text_of_decodePatch read
    exact ⟨String.ofList text, by rw [utf8_eq_textBytes, String.toList_ofList]⟩
  · intro valid
    obtain ⟨text, rfl⟩ := valid
    rw [utf8_eq_textBytes]
    exact decodePatch_encodePatch vk sig text.toList

/-- The body of the patch that is made of what git printed. -/
def patchBody (printed : Bytes) : Bytes := textBytes (fromUtf8Lossy printed)

/-- What is signed is what git printed exactly when that is UTF-8. -/
theorem patchBody_eq_iff {printed : Bytes} :
    patchBody printed = printed ↔ ∃ text, utf8 text = printed := by
  -- The body is what the lossy reading gives, which keeps a text.
  constructor
  · intro same
    refine ⟨String.ofList (fromUtf8Lossy printed), ?_⟩
    rw [utf8_eq_textBytes, String.toList_ofList]
    exact same
  · intro valid
    obtain ⟨text, rfl⟩ := valid
    rw [patchBody, utf8_eq_textBytes, fromUtf8Lossy_textBytes]

end

section

variable [Crypto] [Cipher] [Kdf] {r : PatchRepo} {blobs : Set Bytes} {s t : BlobStore}
    {disk disk' : PatchDisk}
  {now : Timestamp} {bytes : Bytes} {addr : Addr}

omit [Crypto] in
/-- A manifest that was protected is opened. -/
theorem PatchRepo.openManifest_protect (trusted : Cipher.Trusted)
    {nonce : Option (FixedBytes nonceLen)} {plain sealed : Bytes}
    (made : r.protectManifest nonce plain = .ok sealed) : r.openManifest sealed = .ok plain := by
  -- With a key the seal opens, and without one the bytes are plain.
  unfold protectManifest at made
  unfold openManifest
  split at made
  · exact openRandom_sealRandom trusted made
  · exact congrArg _ (Except.ok.inj made).symm

variable [GearTable]

/-- What storing some bytes puts among the blobs is known. -/
structure PatchRepo.Stores (r : PatchRepo) (blobs : Set Bytes) (s : BlobStore) (disk : PatchDisk)
    (now : Timestamp) (bytes : Bytes) : Prop where
  chunks : ∀ writer, ObjectWriter.withDefaults r.sealer r.padding = .ok writer →
    ∀ plain ∈ writer.chunker.split bytes, writer.Known blobs Set.univ plain
  manifest : ∀ writer object encoded sealed, ObjectWriter.withDefaults r.sealer r.padding =
    .ok writer → (writer.write s disk.chunks now .file (.cursor bytes)).1 = .ok object →
      object.encode = .ok encoded →
    r.protectManifest disk.nonce encoded = .ok sealed → sealed ∈ blobs

/--
What storing some bytes leaves: an object that holds them, and its manifest under the address.
-/
theorem PatchRepo.storeBytes_spec (within : s.Within blobs)
    (distinct : Set.InjOn s.addressing.addrOf blobs) (known : r.Stores blobs s disk now bytes)
    (short : bytes.length < 2 ^ 64) (stored : (r.storeBytes s disk now bytes).1 = lift (.ok addr)) :
    ∃ (object : Manifest) (encoded sealed : Bytes),
      object.Holds r.sealer r.padding Set.univ (r.storeBytes s disk now bytes).2 bytes ∧
        object.encode = .ok encoded ∧ r.protectManifest disk.nonce encoded = .ok sealed ∧
        (r.storeBytes s disk now bytes).2.get addr = .ok sealed := by
  -- The steps that succeed are taken apart.
  generalize is : r.storeBytes s disk now bytes = after at stored ⊢
  obtain ⟨writer, made, sameSealer, sameProfile⟩ := ObjectWriter.withDefaults_ok r.sealer r.padding
  have chunks : ∀ plain ∈ writer.chunker.split (Reader.cursor bytes).rest,
      writer.Known blobs Set.univ plain :=
    known.chunks writer made
  obtain ⟨grows, within', holds⟩ :=
    writer.write_spec disk.chunks now .file within distinct chunks short
  have listed := known.manifest writer
  unfold storeBytes at is
  rcases opened : disk.opened with e | u
  · rw [opened] at is
    subst is
    cases stored
  simp only [opened, made] at is
  rcases written : writer.write s disk.chunks now .file (.cursor bytes) with ⟨(e | _) | object, s'⟩
  · rw [written] at is
    subst is
    cases stored
  · rw [written] at is
    subst is
    cases stored
  rw [written] at is grows within' holds listed
  dsimp only at is grows within' holds listed
  rcases encoded : object.encode with e | manifest
  · rw [encoded] at is
    subst is
    cases stored
  rw [encoded] at is
  dsimp only at is
  rcases protected_ : r.protectManifest disk.nonce manifest with e | sealed
  · rw [protected_] at is
    subst is
    cases stored
  rw [protected_] at is
  dsimp only at is
  -- The manifest is stored among known blobs, so nothing else is found under its address.
  have among := listed object manifest sealed made rfl encoded protected_
  subst is
  simp only [lift_inj, except_mapError_eq_ok] at stored
  have apart : Set.InjOn s'.addressing.addrOf blobs := by rwa [grows.addressing]
  have found := BlobStore.get_of_put_known within' apart among stored
  rw [← sameSealer, ← sameProfile]
  exact ⟨object, manifest, sealed, (holds object rfl).mono BlobStore.put_grows, encoded,
    protected_, found⟩

/-- What was stored is read back, or nothing is. -/
theorem PatchRepo.loadBytes_storeBytes (trusted : Cipher.Trusted) (within : s.Within blobs)
    (distinct : Set.InjOn s.addressing.addrOf blobs) (known : r.Stores blobs s disk now bytes)
    (short : bytes.length < 2 ^ 64) (stored : (r.storeBytes s disk now bytes).1 = lift (.ok addr))
    (grows : (r.storeBytes s disk now bytes).2.Grows t) {out : Bytes}
    (read : r.loadBytes t disk' addr = .ok out) :
    out = bytes := by
  -- What storing leaves is an object, its manifest and the address of that.
  obtain ⟨object, encoded, sealed, holds, spelled, protected_, found⟩ :=
    storeBytes_spec within distinct known short stored
  have valid : Manifest.decode encoded = .ok object := Manifest.decode_encode holds.valid spelled
  simp only [loadBytes, except_bind_eq_ok, except_mapError_eq_ok, except_pure_eq,
    Except.ok.injEq] at read
  obtain ⟨_, _, _, _, sealed', there, encoded', opened, object', decoded, ⟨n, out'⟩, body,
    rfl⟩ := read
  -- Each step of reading undoes one of storing.
  rw [grows.kept _ _ found, Except.ok.injEq] at there
  subst there
  rw [openManifest_protect trusted protected_, Except.ok.injEq] at opened
  subst opened
  rw [valid, Except.ok.injEq] at decoded
  subst decoded
  rcases (holds.mono grows).readObject_cases trusted.opens disk'.reads with ⟨_, _, failed, _⟩ |
    ⟨n', done⟩
  · rw [failed] at body
    cases body
  · rw [done] at body
    cases body
    rfl

/-- A disk on which no step of an import fails. -/
structure PatchDisk.Healthy (disk : PatchDisk) : Prop where
  opened : disk.opened = .ok ()
  fetched : disk.fetched = .ok ()
  reads : ∀ i, (disk.reads i).fetch = .ok ()
  temporary : disk.temporary = .ok ()
  named : disk.named = true

/--
A patch that is made of what git printed, in a store whose blobs, old and new, have
addresses of their own.
-/
structure PatchRepo.Made (r : PatchRepo) (blobs : Set Bytes) (disk : PatchDisk) (now : Timestamp)
    (p : PatchState) (printed err : Bytes) (addr : Addr) : Prop where
  within : p.blobs.Within blobs
  distinct : Set.InjOn p.blobs.addressing.addrOf blobs
  known : ∀ id sig, r.identity = .ok id → id.sign .patch (patchBody printed) = .ok sig →
    r.Stores blobs p.blobs disk now (encodePatch id.verifyingKey sig (patchBody printed)) ∧
      (encodePatch id.verifyingKey sig (patchBody printed)).length < 2 ^ 64
  made : (r.makeSignedPatch (.ok ⟨true, printed, err⟩) disk now p).1 = lift (.ok addr)

/-- A patch that is signed, and entered in the queue, is made where it is stored. -/
theorem PatchRepo.makeSignedPatch_eq {printed err sig : Bytes} {id : Identity} {p : PatchState}
    (is : r.identity = .ok id) (signed : id.sign .patch (patchBody printed) = .ok sig)
    (queued : disk.queue = .ok ()) :
    (r.makeSignedPatch (.ok ⟨true, printed, err⟩) disk now p).1 =
      (r.storeBytes p.blobs disk now (encodePatch id.verifyingKey sig (patchBody printed))).1 := by
  -- The steps in front of the store succeed.
  have text : git (.ok ⟨true, printed, err⟩) = .ok (fromUtf8Lossy printed) := rfl
  rw [patchBody] at signed ⊢
  simp only [makeSignedPatch, text, is, signed, queued]
  -- Whether it is stored or not, the outcome is that of the store.
  generalize r.storeBytes p.blobs disk now _ = stored
  obtain ⟨outcome, _⟩ := stored
  rcases (outcome : Option (Except String Addr)) with _ | _ | _
  all_goals rfl

/--
What a patch that is made is stored as: what git printed, read as text, under the
signature of its bytes.
-/
theorem PatchRepo.makeSignedPatch_spec {printed err : Bytes} {p : PatchState}
    (made : (r.makeSignedPatch (.ok ⟨true, printed, err⟩) disk now p).1 = lift (.ok addr)) :
    ∃ id sig, r.identity = .ok id ∧ id.sign .patch (patchBody printed) = .ok sig ∧
      (r.storeBytes p.blobs disk now (encodePatch id.verifyingKey sig (patchBody printed))).1 =
        lift (.ok addr) ∧
      (r.makeSignedPatch (.ok ⟨true, printed, err⟩) disk now p).2.blobs =
        (r.storeBytes p.blobs disk now
          (encodePatch id.verifyingKey sig (patchBody printed))).2 := by
  -- The steps that succeed are taken apart.
  have text : git (.ok ⟨true, printed, err⟩) = .ok (fromUtf8Lossy printed) := rfl
  generalize is : r.makeSignedPatch (.ok ⟨true, printed, err⟩) disk now p = after at made ⊢
  unfold makeSignedPatch at is
  rw [text] at is
  rcases known : r.identity with e | id
  · rw [known] at is
    subst is
    cases made
  rw [known] at is
  dsimp only at is
  rcases signed : id.sign .patch (textBytes (fromUtf8Lossy printed)) with e | sig
  · rw [signed] at is
    subst is
    cases made
  rw [signed] at is
  dsimp only at is
  refine ⟨id, sig, rfl, signed, ?_⟩
  rcases stored :
    r.storeBytes p.blobs disk now (encodePatch id.verifyingKey sig (patchBody printed))
    with ⟨_ | _ | a, s'⟩
  · rw [patchBody] at stored
    rw [stored] at is
    subst is
    cases made
  · rw [patchBody] at stored
    rw [stored] at is
    subst is
    cases made
  · rw [patchBody] at stored
    rw [stored] at is
    -- The queue is written last, and where that fails no address is reported.
    rcases queued : disk.queue with e | u
    · simp only [queued] at is
      subst is
      cases made
    · simp only [queued] at is
      subst is
      exact ⟨made, rfl⟩

omit [GearTable] in
/-- What git is handed of a stored patch is the body of what is read of it. -/
theorem PatchRepo.importPatch_spec {am : Except String GitOutput} {handed : Bytes}
    (imported : (r.importPatch t disk' addr am).1 = some handed) :
    ∃ bytes vk sig, r.loadBytes t disk' addr = .ok bytes ∧
      decodePatch bytes = lift (.ok (vk, sig, handed)) := by
  -- Only a patch that passes every check is handed on.
  have body : r.patchFor t disk' addr = lift (.ok handed) := by
    unfold importPatch at imported
    split at imported
    · rename_i found
      rw [found, Option.some.inj imported]
      rfl
    · cases imported
    · cases imported
  simp only [patchFor, bind_eq_ok, lift_inj] at body
  obtain ⟨bytes, read, ⟨vk, sig, body'⟩, parts, _, _, _, _, _, _, _, _, last⟩ := body
  split at last
  · simp only [pure_eq, lift_inj, Except.ok.injEq] at last
    rw [last] at parts
    exact ⟨bytes, vk, sig, read, parts⟩
  · cases last

/-- On a disk that works, what was stored is read back. -/
theorem PatchRepo.loadBytes_ok (trusted : Cipher.Trusted) (within : s.Within blobs)
    (distinct : Set.InjOn s.addressing.addrOf blobs) (known : r.Stores blobs s disk now bytes)
    (short : bytes.length < 2 ^ 64) (stored : (r.storeBytes s disk now bytes).1 = lift (.ok addr))
    (grows : (r.storeBytes s disk now bytes).2.Grows t) (healthy : disk'.Healthy) :
      r.loadBytes t disk' addr = .ok bytes := by
  -- The manifest is opened and decoded, and then its chunks are read.
  obtain ⟨object, encoded, sealed, holds, spelled, protected_, found⟩ :=
    storeBytes_spec within distinct known short stored
  have valid : Manifest.decode encoded = .ok object := Manifest.decode_encode holds.valid spelled
  obtain ⟨n, read⟩ := (holds.mono grows).readObject trusted.opens healthy.reads
  simp [loadBytes, healthy.opened, healthy.fetched, grows.kept _ _ found,
    openManifest_protect trusted protected_, valid, read]

/-- A patch that was made is handed to git on a disk that works, by the keypair that signed it. -/
theorem PatchRepo.Made.handed (trusted : Cipher.Trusted) {printed err : Bytes} {p : PatchState}
    (made : r.Made blobs disk now p printed err addr) (signs : ∀ id, r.identity = .ok id → id.Signs)
    (grows : (r.makeSignedPatch (.ok ⟨true, printed, err⟩) disk now p).2.blobs.Grows t)
    (healthy : disk'.Healthy) (am : Except String GitOutput) :
    (r.importPatch t disk' addr am).1 = some (patchBody printed) := by
  -- What was stored is loaded and decoded, and its signature verifies.
  obtain ⟨id, sig, is, signed, stored, same⟩ := makeSignedPatch_spec made.made
  obtain ⟨stores, short⟩ := made.known id sig is signed
  rw [same] at grows
  have read := loadBytes_ok trusted made.within made.distinct stores short stored grows healthy
  have parts : decodePatch _ = lift (.ok (_, _, patchBody printed)) :=
    decodePatch_encodePatch id.verifyingKey sig (fromUtf8Lossy printed)
  obtain ⟨sig', again, _, verified⟩ := (signs id is).sign_verifies .patch (patchBody printed)
  rw [signed, Except.ok.injEq] at again
  subst again
  have body : r.patchFor t disk' addr = lift (.ok (patchBody printed)) := by
    rw [patchFor, read, lift_ok_bind]
    rw [← patchBody] at parts
    rw [parts, lift_ok_bind]
    simp [verified, is, Identity.id, healthy.temporary, healthy.named]
  unfold importPatch
  rw [body]
  rfl

/--
Git is handed the patch that git printed exactly when that is UTF-8, whenever it is handed anything.

And a packed patch is taken apart into what it was made of exactly when its body is.
-/
theorem PatchRepo.patch_is_handed_on_iff (trusted : Cipher.Trusted) {printed err : Bytes}
    {p : PatchState} (made : r.Made blobs disk now p printed err addr)
    (grows : (r.makeSignedPatch (.ok ⟨true, printed, err⟩) disk now p).2.blobs.Grows t)
    {am : Except String GitOutput} {handed : Bytes}
    (imported : (r.importPatch t disk' addr am).1 = some handed) :
    (handed = printed ↔ ∃ text, utf8 text = printed) ∧
      ∀ vk sig body, decodePatch (encodePatch vk sig body) = lift (.ok (vk, sig, body)) ↔
        ∃ text, utf8 text = body := by
  -- The second half is about packing alone.
  refine ⟨?_, fun _ _ _ => decodePatch_encodePatch_iff⟩
  obtain ⟨id, sig, is, signed, stored, same⟩ := makeSignedPatch_spec made.made
  obtain ⟨bytes, vk', sig', read, parts⟩ := importPatch_spec imported
  obtain ⟨stores, short⟩ := made.known id sig is signed
  rw [same] at grows
  obtain rfl :=
    loadBytes_storeBytes trusted made.within made.distinct stores short stored grows read
  -- What was packed is taken apart into the body that was signed.
  have back := decodePatch_encodePatch id.verifyingKey sig (fromUtf8Lossy printed)
  rw [← patchBody, parts, lift_inj, Except.ok.injEq, Prod.mk.injEq, Prod.mk.injEq] at back
  rw [back.2.2, patchBody_eq_iff]

end

section

open Concrete

/-- A stand-in for the derivation of keys. -/
local instance patchKdf : Kdf where
  deriveKey context material := digest (asciiBytes context ++ material)

/-- A namespace in which nothing is sealed. -/
def openRepo : PatchRepo := ⟨.plaintext [], .none, ⟨FixedBytes.zero _⟩, .ok (identity 1)⟩

/-- A disk on which nothing fails. -/
def calmPatchDisk : PatchDisk :=
  ⟨.ok (), fun _ => .ok (), none, .ok (), .ok (), fun _ => ⟨.ok (), ⟨.ok (), .ok (), none, .done⟩⟩,
    .ok (), .ok (), true⟩

/-- Lines of words as they are printed. -/
def printed (lines : List (List String)) : List Char :=
  lines.flatMap fun words => [' '].intercalate (words.map String.toList) ++ ['\n']

/--
A patch as git prints it, up to the letter that a file was changed to end with, and from there on.
-/
def patchHead : List Char :=
  printed [["From", "5d41402abc4b2a76b9719d911017c592e8d5f0c3", "Mon", "Sep", "17",
    "00:00:00", "2001"],
    ["From:", "A", "<a@b>"], ["Date:", "Mon,", "2", "Feb", "2026", "10:00:00", "+0000"],
    ["Subject:", "[PATCH]", "menu"], [], ["---"], ["", "menu", "|", "2", "+-"],
    ["", "1", "file", "changed,", "1", "insertion(+),", "1", "deletion(-)"], [],
    ["diff", "--git", "a/menu", "b/menu"], ["index", "e49a6b3..6ec8cb1", "100644"],
    ["---", "a/menu"],
    ["+++", "b/menu"], ["@@", "-1", "+1", "@@"], ["-tea"]] ++ "+caf".toList
def patchTail : List Char := printed [[], ["--", ""], ["2.43.0"], []]

/-- What git prints of a change with one letter of Latin-1 in it. -/
def latin : Bytes := textBytes patchHead ++ ([0xE9] ++ textBytes patchTail)

/-- The same text with the replacement character in place of the letter. -/
def replaced : Bytes := textBytes patchHead ++ ([0xEF, 0xBF, 0xBD] ++ textBytes patchTail)

/-- The byte is read as the replacement character. -/
theorem patchBody_latin : patchBody latin = replaced := by
  -- The text in front of it is read as it is.
  have tail : textBytes (fromUtf8Lossy ([0xE9] ++ textBytes patchTail)) =
      [0xEF, 0xBF, 0xBD] ++ textBytes patchTail := by decide +kernel
  have head := fromUtf8Lossy_append (String.ofList patchHead) ([0xE9] ++ textBytes patchTail)
  rw [← utf8, utf8_eq_textBytes, String.toList_ofList] at head
  rw [patchBody, latin, head, textBytes_append, tail, replaced]

/-- The state before any patch is made. -/
def noPatches : PatchState := ⟨.empty (.salted []), none⟩

/-- Such a patch is made. -/
def latinPatch : Checked String Addr × PatchState :=
  openRepo.makeSignedPatch (.ok ⟨true, latin, []⟩) calmPatchDisk 0 noPatches

/-- The patch as it is made. -/
theorem latinPatch_eq :
    openRepo.makeSignedPatch (.ok ⟨true, latin, []⟩) calmPatchDisk 0 noPatches = latinPatch := rfl

/-- What is stored of it. -/
def latinPacked : Bytes :=
  encodePatch (identity 1).verifyingKey
    (signature (identity 1).verifyingKey (framed .patch replaced)) replaced

/-- Where it is stored, if it can be. -/
def latinStored : Option (Except String Addr) :=
  (openRepo.storeBytes noPatches.blobs calmPatchDisk 0 latinPacked).1

/-- The address in an outcome that has one. -/
def addrIn : Option (Except String Addr) → Addr
  | some (.ok addr) => addr
  | _ => Digest.zero

/-- An outcome with an address is that address. -/
theorem eq_addrIn {outcome : Option (Except String Addr)} (isOk : outcome.any Except.isOk = true) :
    outcome = some (.ok (addrIn outcome)) := by
  rcases outcome with _ | _ | addr
  · cases isOk
  · cases isOk
  · rfl

/-- Its address. -/
def latinAddr : Addr := addrIn latinStored

/-- The patch is made where it is stored. -/
theorem latinPatch_stores : latinPatch.1 = latinStored := by
  -- The signature is that of the text as it was read.
  have signed : (identity 1).sign .patch (patchBody latin) =
      .ok (signature (identity 1).verifyingKey (framed .patch (patchBody latin))) := rfl
  rw [latinPatch, latinStored, latinPacked, ← patchBody_latin]
  exact PatchRepo.makeSignedPatch_eq rfl signed rfl

/-- The manifest of what a namespace stores, where it is stored and not sealed. -/
def manifestOf (r : PatchRepo) (s : BlobStore) (disk : PatchDisk) (now : Timestamp)
    (bytes : Bytes) : Bytes :=
  match ObjectWriter.withDefaults r.sealer r.padding with
  | .error _ => []
  | .ok writer =>
    match (writer.write s disk.chunks now .file (.cursor bytes)).1 with
    | .ok object => object.encode.toOption.getD []
    | .error _ => []

/-- The manifest is the one that the writer wrote. -/
theorem manifestOf_eq {r : PatchRepo} {s : BlobStore} {disk : PatchDisk} {now : Timestamp}
    {bytes encoded : Bytes} {writer : ObjectWriter} {object : Manifest}
    (made : ObjectWriter.withDefaults r.sealer r.padding = .ok writer)
    (written : (writer.write s disk.chunks now .file (.cursor bytes)).1 = .ok object)
    (spelled : object.encode = .ok encoded) : manifestOf r s disk now bytes = encoded := by
  simp [manifestOf, made, written, spelled, Except.toOption]

/-- The manifest of that patch. -/
def latinManifest : Bytes := manifestOf openRepo noPatches.blobs calmPatchDisk 0 latinPacked

/-- The manifest of the packed patch. -/
theorem latinManifest_eq :
    manifestOf openRepo noPatches.blobs calmPatchDisk 0 latinPacked = latinManifest := rfl

/-- What storing the patch comes to, evaluated once: it has an address, and its manifest another. -/
theorem latinStored_apart : latinStored.any Except.isOk = true ∧
    Addressing.addrOf (.salted []) latinPacked ≠ Addressing.addrOf (.salted []) latinManifest := by
  decide +kernel

/-- The patch is made, and it is stored at its address. -/
theorem latinPatch_made : latinPatch.1 = lift (.ok latinAddr) :=
  latinPatch_stores.trans (eq_addrIn latinStored_apart.1)

/-- The length of the packed patch. -/
theorem latinPacked_length : latinPacked.length = 10860 := by
  -- The key and the signature have fixed widths.
  have key : (identity 1).verifyingKey.length = verifyingKeyLen := (identity_signs 1).keyLength
  have signed (message : Bytes) :
      (signature (identity 1).verifyingKey message).length = signatureLen := by
    rw [signature, List.length_append, FixedBytes.size, List.length_replicate]
    decide
  have text : replaced.length = 324 := by decide +kernel
  rw [latinPacked, encodePatch_length, key, signed, text]
  rfl

/-- The packed patch is one chunk, which is neither padded nor sealed. -/
theorem latinPacked_whole {writer : ObjectWriter}
    (made : ObjectWriter.withDefaults openRepo.sealer openRepo.padding = .ok writer) :
    writer.chunker.split latinPacked = [latinPacked] ∧ writer.profile = .none ∧
      writer.sealer = .plaintext [] := by
  -- No chunk is cut below the least size, and the patch is shorter.
  have least : (ObjectWriter.withDefaults openRepo.sealer openRepo.padding).toOption.all
      (fun writer => decide (16384 ≤ writer.chunker.cfg.min)) = true := by
    decide
  obtain ⟨writer', again, sameSealer, sameProfile⟩ :=
    ObjectWriter.withDefaults_ok openRepo.sealer openRepo.padding
  rw [made, Except.ok.injEq] at again
  subst again
  rw [made] at least
  have room : 16384 ≤ writer.chunker.cfg.min := by simpa [Except.toOption] using least
  have some_ : latinPacked ≠ [] := by
    intro none
    have length := latinPacked_length
    rw [none] at length
    cases length
  exact ⟨Chunker.split_short some_ (by rw [latinPacked_length]; omega), sameProfile, sameSealer⟩

attribute [irreducible] latinPatch latinPacked latinStored latinManifest latinAddr

/-- What making that patch stores. -/
def latinBlobs : Set Bytes := {latinPacked, latinManifest}

/-- What is stored for the patch is known. -/
theorem latinPatch_known (id : Identity) (sig : Bytes) (is : openRepo.identity = .ok id)
    (signed : id.sign .patch (patchBody latin) = .ok sig) :
    openRepo.Stores latinBlobs noPatches.blobs calmPatchDisk 0
      (encodePatch id.verifyingKey sig (patchBody latin)) ∧
      (encodePatch id.verifyingKey sig (patchBody latin)).length < 2 ^ 64 := by
  -- Two blobs are stored: the packed patch and its manifest.
  obtain rfl := Except.ok.inj is
  have packed : encodePatch (identity 1).verifyingKey sig (patchBody latin) = latinPacked := by
    rw [patchBody_latin] at signed ⊢
    rw [← Except.ok.inj signed]
    unfold latinPacked
    rfl
  rw [packed]
  refine ⟨⟨?_, ?_⟩, by rw [latinPacked_length]; decide⟩
  · intro writer made plain member
    obtain ⟨whole, profile, sealer⟩ := latinPacked_whole made
    rw [whole, List.mem_singleton] at member
    rw [ObjectWriter.Known, profile, sealer]
    intro padded framed
    refine ⟨trivial, ?_⟩
    intro blob protected_
    obtain rfl : plain = padded := by
      simpa [PaddingProfile.pad, PaddingProfile.sizeClasses, Except.toOption] using framed
    obtain rfl : (plain, FixedBytes.zero _) = blob := by
      simpa [Sealer.protect, Except.toOption] using protected_
    exact .inl member
  · intro writer object encoded sealed made written spelled protected_
    have manifest := manifestOf_eq made written spelled
    rw [latinManifest_eq] at manifest
    rw [← Except.ok.inj protected_, ← manifest]
    exact .inr rfl

/-- No two of these have one address. -/
theorem latinPatch_distinct : Set.InjOn noPatches.blobs.addressing.addrOf latinBlobs :=
  Set.injOn_pair.mpr fun same => absurd same latinStored_apart.2

/-- Nothing is stored before. -/
theorem latinPatch_within : noPatches.blobs.Within latinBlobs := by
  intro addr data held
  obtain ⟨file, filed, _⟩ := BlobStore.get_eq_ok.mp held
  simp [noPatches, BlobStore.empty] at filed

/-- The patch meets every condition of the round trip. -/
theorem latin_made : openRepo.Made latinBlobs calmPatchDisk 0 noPatches latin [] latinAddr :=
  ⟨latinPatch_within, latinPatch_distinct,
    latinPatch_known, by rw [latinPatch_eq]; exact latinPatch_made⟩

/-- The store that the patch is loaded from is the one it was stored in. -/
theorem latin_grows :
    (openRepo.makeSignedPatch (.ok ⟨true, latin, []⟩) calmPatchDisk 0 noPatches).2.blobs.Grows
      latinPatch.2.blobs := by
  rw [latinPatch_eq]
  exact .refl _

/-- Git is handed the mark of what cannot be read in place of the letter. -/
theorem latinPatch_handed :
    (openRepo.importPatch latinPatch.2.blobs calmPatchDisk latinAddr (.ok ⟨true, [], []⟩)).1 =
      some (patchBody latin) := by
  -- The general theorem, with a signer that signs and a disk that works.
  have signs : ∀ id, openRepo.identity = .ok id → id.Signs := by
    intro id is
    obtain rfl := Except.ok.inj is
    exact identity_signs 1
  have healthy : calmPatchDisk.Healthy := ⟨rfl, rfl, fun _ => rfl, rfl, rfl⟩
  exact latin_made.handed trusted signs latin_grows healthy _

/-- The letter is no UTF-8, and git is handed something else. -/
theorem latin_patch_is_altered :
    (openRepo.makeSignedPatch (.ok ⟨true, latin, []⟩) calmPatchDisk 0 noPatches).1 =
      lift (.ok latinAddr) ∧ ∃ handed,
        (openRepo.importPatch latinPatch.2.blobs calmPatchDisk latinAddr (.ok ⟨true, [], []⟩)).1 =
        some handed ∧ handed ≠ latin := by
  rw [latinPatch_eq]
  exact ⟨latinPatch_made, patchBody latin,
    latinPatch_handed, by rw [patchBody_latin]; simp [replaced, latin]⟩

/-- The two sides at that patch: it is handed on altered, and is no text. -/
theorem latin_patch_is_no_text : ¬∃ text, utf8 text = latin := by
  have sides :=
    (PatchRepo.patch_is_handed_on_iff trusted latin_made latin_grows latinPatch_handed).1
  rw [← sides, patchBody_latin]
  simp [replaced, latin]

end

end NasTools
