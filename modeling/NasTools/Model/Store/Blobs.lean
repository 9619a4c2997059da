import NasTools.Lib.Fallible
import NasTools.Lib.OrderedMap
import NasTools.Model.Core.Format
import NasTools.Model.Crypto.Sign

/-! The content-addressed blob store, with the modification times the collector reads. -/

namespace NasTools

/-- A failure of the file system. -/
structure IoError where
  text : String
deriving DecidableEq

/-- Whether the file system carried out what an operation asked of it. -/
abbrev Disk := Except IoError Unit

/--
How writing a file in place ends; a failure can leave the first bytes in place of what was there.
-/
inductive Writing where
  | done
  | failed (error : IoError) (left : Option Nat)

/-- What a write reports. -/
def Writing.report : Writing → Disk
  | .done => .ok ()
  | .failed error _ => .error error

/--
What a write leaves of some bytes, where it leaves anything; a failed one never leaves them all.
-/
def Writing.remains (w : Writing) (bytes : Bytes) : Option Bytes :=
  match w with
  | .done => some bytes
  | .failed _ left => left.map fun k => bytes.take (min k (bytes.length - 1))

/-- A write that is done, or leaves the file as it was. -/
def Writing.Whole : Writing → Prop
  | .done => True
  | .failed _ left => left = none

instance : (w : Writing) → Decidable w.Whole
  | .done => isTrue trivial
  | .failed _ left => inferInstanceAs (Decidable (left = none))

/-- Why the blob store refuses. -/
inductive StoreError where
  | io (source : IoError)
  -- The bytes under an address hash to another one.
  | corrupt (addr found : Addr)
  | missing (addr : Addr)
deriving DecidableEq

/-- The text a store error prints. -/
def StoreError.display : StoreError → String
  | .io e => "blob store I/O: " ++ e.text
  | .corrupt addr found =>
    "blob " ++ String.ofList (toHex addr.bytes) ++ " hashes to " ++
      String.ofList (toHex found.bytes) ++ " — corrupt or substituted"
  | .missing addr => "no blob " ++ String.ofList (toHex addr.bytes)

/-- How addresses are computed. -/
inductive Addressing where
  | content
  | salted (salt : Bytes)
deriving DecidableEq

/-- A stored file: its bytes, and when it was last written or touched. -/
structure BlobFile where
  content : Bytes
  modified : Timestamp
deriving DecidableEq

variable [Crypto]

/-- The address of some bytes. -/
def Addressing.addrOf (a : Addressing) (data : Bytes) : Addr :=
  match a with
  | .content => Crypto.blake3 data
  | .salted salt => Crypto.blake3 (u64Le (UInt64.ofNat salt.length) ++ salt ++ data)

/-- Whether some bytes belong under an address. -/
def Addressing.verifies (a : Addressing) (addr : Addr) (data : Bytes) : Bool :=
  a.addrOf data == addr

/-- Blobs on disk, by address. -/
structure BlobStore where
  addressing : Addressing
  files : OrdMap Addr BlobFile

namespace BlobStore

/-- A store with nothing in it. -/
def empty (addressing : Addressing) : BlobStore := ⟨addressing, ∅⟩

/-- Whether there is a file under an address. -/
def has (s : BlobStore) (addr : Addr) : Bool := s.files.contains addr

/--
Store some bytes, or touch what is already there.

A file that no longer hashes to its name is rewritten, so both ways end with the same bytes.
-/
def put (s : BlobStore) (disk : Disk) (now : Timestamp) (data : Bytes) :
    Except StoreError Addr × BlobStore :=
  match disk with
  | .error e => (.error (.io e), s)
  | .ok () =>
    let addr := s.addressing.addrOf data
    match s.files[addr]? with
    | some file =>
      if s.addressing.verifies addr file.content then
        (.ok addr, { s with files := s.files.insert addr { file with modified := now } })
      else (.ok addr, { s with files := s.files.insert addr ⟨data, now⟩ })
    | none => (.ok addr, { s with files := s.files.insert addr ⟨data, now⟩ })

/-- Read the bytes under an address, re-hashing them on the way. -/
def get (s : BlobStore) (addr : Addr) : Except StoreError Bytes := do
  let file ← okOr s.files[addr]? (.missing addr)
  ensure (s.addressing.verifies addr file.content)
    (.corrupt addr (s.addressing.addrOf file.content))
  return file.content

/-- Answer a proof of possession, which restarts the blob's grace. -/
def prove (s : BlobStore) (disk : Disk) (now : Timestamp) (addr : Addr) (nonce : Digest) :
    Except StoreError Digest × BlobStore :=
  match s.get addr, disk with
  | .error e, _ => (.error e, s)
  | .ok _, .error e => (.error (.io e), s)
  | .ok data, .ok () =>
    (.ok (Crypto.blake3 (nonce.bytes ++ data)),
      { s with files := s.files.insert addr ⟨data, now⟩ })

/-- Whether an answer proves possession of some bytes. -/
def checkProof (data : Bytes) (nonce answer : Digest) : Bool :=
  Crypto.blake3 (nonce.bytes ++ data) == answer

/-- Remove a blob; one that is not there is gone already. -/
def remove (s : BlobStore) (disk : Disk) (addr : Addr) : Except StoreError Unit × BlobStore :=
  match disk with
  | .error e => (.error (.io e), s)
  | .ok () => (.ok (), { s with files := s.files.erase addr })

/-- What a store gives back: the bytes filed under an address that are still the right ones. -/
theorem get_eq_ok {s : BlobStore} {addr : Addr} {data : Bytes} :
    s.get addr = .ok data ↔
      ∃ file, s.files[addr]? = some file ∧ s.addressing.addrOf file.content = addr ∧
        file.content = data := by
  simp [get, Addressing.verifies]

/-- Nothing that was readable has become unreadable, or different. -/
structure Grows (s t : BlobStore) : Prop where
  addressing : t.addressing = s.addressing
  kept : ∀ addr data, s.get addr = .ok data → t.get addr = .ok data

/-- A store holds what it holds. -/
theorem Grows.refl (s : BlobStore) : Grows s s := ⟨rfl, fun _ _ held => held⟩

/-- What is kept twice is kept. -/
theorem Grows.trans {a b c : BlobStore} (first : Grows a b) (second : Grows b c) : Grows a c :=
  ⟨second.addressing.trans first.addressing,
    fun addr data held => second.kept addr data (first.kept addr data held)⟩

section

variable {s : BlobStore} {disk : Disk} {now : Timestamp} {data : Bytes}

/-- A stored blob is filed under its address. -/
theorem addr_of_put {addr : Addr} (stored : (s.put disk now data).1 = .ok addr) :
    addr = s.addressing.addrOf data := by
  -- Every way to success returns the address of the data.
  unfold put at stored
  cases disk with
  | error e => cases stored
  | ok u =>
    dsimp only at stored
    split at stored
    · split at stored <;> exact (Except.ok.inj stored).symm
    · exact (Except.ok.inj stored).symm

/-- On a disk that works, every blob is stored. -/
theorem put_ok (s : BlobStore) (now : Timestamp) (data : Bytes) :
    ∃ t, s.put (.ok ()) now data = (.ok (s.addressing.addrOf data), t) := by
  -- With a disk that works neither way fails.
  unfold put
  dsimp only
  split
  · split <;> exact ⟨_, rfl⟩
  · exact ⟨_, rfl⟩

/-- What is readable after storing some bytes was readable before, or is those bytes. -/
theorem get_of_put {addr : Addr} {found : Bytes}
    (held : (s.put disk now data).2.get addr = .ok found) :
    s.get addr = .ok found ∨ found = data := by
  -- A disk that fails writes nothing.
  cases disk with
  | error e => exact .inl held
  | ok u =>
    -- Only the file under the address of the data is written.
    have inserted (content : Bytes) (from_ : content = data ∨
          ∃ file, s.files[s.addressing.addrOf data]? = some file ∧ file.content = content)
        (there : BlobStore.get
          { s with files := s.files.insert (s.addressing.addrOf data) ⟨content, now⟩ } addr =
            .ok found) : s.get addr = .ok found ∨ found = data := by
      obtain ⟨file, filed, verified, rfl⟩ := get_eq_ok.mp there
      rw [Std.ExtTreeMap.getElem?_insert] at filed
      split at filed
      · rename_i same
        obtain rfl := Std.LawfulEqCmp.eq_of_compare same
        obtain rfl := Option.some.inj filed
        rcases from_ with rfl | ⟨old, before, rfl⟩
        · exact .inr rfl
        · exact .inl (get_eq_ok.mpr ⟨old, before, verified, rfl⟩)
      · exact .inl (get_eq_ok.mpr ⟨file, filed, verified, rfl⟩)
    unfold put at held
    dsimp only at held
    split at held
    · rename_i file filed
      split at held
      · exact inserted file.content (.inr ⟨file, filed, rfl⟩) held
      · exact inserted data (.inl rfl) held
    · exact inserted data (.inl rfl) held

/-- Storing bytes loses none that were readable. -/
theorem put_grows : Grows s (s.put disk now data).2 := by
  -- The file under the address is touched or replaced; it is only replaced if it was missing or
  -- corrupt.
  cases disk with
  | error e => exact .refl s
  | ok u =>
    have inserted (file : BlobFile)
        (same : ∀ found, s.get (s.addressing.addrOf data) = .ok found → found = file.content) :
        Grows s { s with files := s.files.insert (s.addressing.addrOf data) file } := by
      refine ⟨rfl, ?_⟩
      intro addr found held
      obtain ⟨old, filed, verified, rfl⟩ := get_eq_ok.mp held
      rw [get_eq_ok]
      by_cases here : s.addressing.addrOf data = addr
      · subst here
        have content := same _ held
        exact ⟨file, by simp, by rw [← content]; exact verified, content.symm⟩
      · exact ⟨old, by simp [Std.ExtTreeMap.getElem?_insert, here, filed], verified, rfl⟩
    unfold put
    dsimp only
    split
    · rename_i file filed
      split
      · refine inserted _ ?_
        intro found held
        obtain ⟨old, again, _, rfl⟩ := get_eq_ok.mp held
        rw [filed, Option.some.injEq] at again
        rw [again]
      · -- A file that does not hash to its name was not readable.
        rename_i corrupt
        refine inserted _ ?_
        intro found held
        obtain ⟨old, again, verified, rfl⟩ := get_eq_ok.mp held
        rw [filed, Option.some.injEq] at again
        subst again
        simp [Addressing.verifies, verified] at corrupt
    · rename_i absent
      refine inserted _ ?_
      intro found held
      obtain ⟨old, again, _⟩ := get_eq_ok.mp held
      rw [absent] at again
      cases again

/-- Bytes that were stored can be read, unless other bytes had the same address. -/
theorem get_put {addr : Addr} (stored : (s.put disk now data).1 = .ok addr) :
    ∃ found, (s.put disk now data).2.get addr = .ok found ∧
      (found = data ∨
        (s.get addr = .ok found ∧ s.addressing.addrOf found = s.addressing.addrOf data)) := by
  -- A file that was there and hashes to the address is kept, and otherwise the data is written.
  obtain rfl := addr_of_put stored
  cases disk with
  | error e => cases stored
  | ok u =>
    unfold put
    dsimp only
    split
    · rename_i file filed
      split
      · rename_i verified
        have right : s.addressing.addrOf file.content = s.addressing.addrOf data := by
          simpa [Addressing.verifies] using verified
        have before : s.get (s.addressing.addrOf data) = .ok file.content :=
          get_eq_ok.mpr ⟨file, filed, right, rfl⟩
        refine ⟨file.content, get_eq_ok.mpr ?_, .inr ⟨before, right⟩⟩
        exact ⟨{ file with modified := now }, by simp, right, rfl⟩
      · exact ⟨data, get_eq_ok.mpr ⟨⟨data, now⟩, by simp, rfl, rfl⟩, .inl rfl⟩
    · exact ⟨data, get_eq_ok.mpr ⟨⟨data, now⟩, by simp, rfl, rfl⟩, .inl rfl⟩

end

/-- Store several blobs, one after the other, however each goes. -/
def putAll (s : BlobStore) (disk : Disk) (now : Timestamp) (blobs : List Bytes) : BlobStore :=
  blobs.foldl (fun s data => (s.put disk now data).2) s

/-- A store that takes in several blobs loses none, and holds nothing else. -/
theorem putAll_spec (s : BlobStore) (disk : Disk) (now : Timestamp) (data : List Bytes) :
    s.Grows (s.putAll disk now data) ∧ ∀ addr found, (s.putAll disk now data).get addr = .ok found →
      s.get addr = .ok found ∨ found ∈ data := by
  -- Induction over the data, with the store kept general.
  induction data generalizing s with
  | nil => exact ⟨.refl s, fun _ _ held => .inl held⟩
  | cons first rest ih =>
    obtain ⟨grows, from_⟩ := ih (s.put disk now first).2
    refine ⟨BlobStore.put_grows.trans grows, ?_⟩
    intro addr found held
    rcases from_ addr found held with before | later
    · rcases BlobStore.get_of_put before with earlier | rfl
      · exact .inl earlier
      · exact .inr (by simp)
    · exact .inr (by simp [later])

end BlobStore

end NasTools
