import NasTools.Model.Core.Checked
import NasTools.Model.Vault.Container

/-!
The vault container: what is written is read back, and which strings are the ones that are written.
-/

namespace NasTools

open Checked (lift item)

/-- The entry of a peer as its fields are read: nothing of it is interpreted yet. -/
structure PinnedEntry where
  peerPk : Bytes
  label : Bytes
  flag : UInt8
  quotaBytes : UInt64

namespace PinnedEntry

/-- The fields of an entry. -/
def fields (e : PinnedEntry) : List Bytes := [e.peerPk, e.label, [e.flag], u64Le e.quotaBytes]

/-- What an entry is read as. -/
def peer (e : PinnedEntry) : PinnedPeer :=
  ⟨e.peerPk, fromUtf8Lossy e.label, e.flag != 0, e.quotaBytes⟩

/-- An entry that could have been written: its label is text, and its flag is zero or one. -/
structure Plain (e : PinnedEntry) : Prop where
  label : ∃ text, e.label = textBytes text
  flag : e.flag = 0 ∨ e.flag = 1

/-- Entries with the same fields are the same. -/
theorem fields_injective : Function.Injective fields := by
  rintro ⟨pk, label, flag, quota⟩ ⟨pk', label', flag', quota'⟩ same
  simp only [fields, List.cons.injEq, and_true] at same
  obtain ⟨rfl, rfl, rfl, quotas⟩ := same
  rw [u64Le_inj quotas]

end PinnedEntry

/-- The entry that a peer is written as. -/
def PinnedPeer.entry (p : PinnedPeer) : PinnedEntry :=
  ⟨p.peerPk, textBytes p.label, if p.blocked then 1 else 0, p.quotaBytes⟩

/-- A peer is read as itself from the entry it is written as. -/
theorem PinnedPeer.peer_entry (p : PinnedPeer) : p.entry.peer = p := by
  obtain ⟨pk, label, blocked, quota⟩ := p
  simp only [entry, PinnedEntry.peer, fromUtf8Lossy_textBytes, PinnedPeer.mk.injEq,
    true_and, and_true]
  cases blocked <;> rfl

/-- A flag is written again as it was read where it is zero or one. -/
theorem flag_spelled {flag : UInt8} :
    (if (flag != 0) = true then 1 else 0) = flag ↔ flag = 0 ∨ flag = 1 := by
  by_cases none_ : flag = 0
  · simp [none_]
  · rw [if_pos (by simpa using none_)]
    simp [none_, eq_comm]

/-- A plain entry is written again as it was read, and no other is. -/
theorem PinnedEntry.entry_peer_iff (e : PinnedEntry) : e.peer.entry = e ↔ e.Plain := by
  -- The label is kept if it is text, and the flag if it is zero or one.
  obtain ⟨pk, label, flag, quota⟩ := e
  simp only [PinnedPeer.entry, PinnedEntry.peer, PinnedEntry.mk.injEq, true_and, and_true]
  constructor
  · rintro ⟨text, flags⟩
    exact ⟨⟨_, text.symm⟩, flag_spelled.mp flags⟩
  · rintro ⟨⟨text, is⟩, flags⟩
    refine ⟨?_, flag_spelled.mpr flags⟩
    simp only at is
    rw [is, fromUtf8Lossy_textBytes]

namespace Vault

/-- The entry of a secret at its place in the generation table. -/
def slot (s : FixedBytes keyLen × Nat) : FixedBytes generationLen where
  bytes := u32Le (UInt32.ofNat s.2) ++ s.1.bytes
  size := by rw [List.length_append, u32Le_length, FixedBytes.size, generationLen]

/-- The generation table that some secrets stand in. -/
def table (secrets : List (FixedBytes keyLen)) : Bytes :=
  (secrets.zipIdx.map slot).flatMap FixedBytes.bytes

/-- The generations that some secrets are. -/
def numbered (secrets : List (FixedBytes keyLen)) : List Generation :=
  secrets.zipIdx.map fun s => ⟨UInt32.ofNat s.2, s.1⟩

/-- A string spells a seed, some secrets and some entries, each in its field. -/
structure Spells (seed : FixedBytes keyLen) (secrets : List (FixedBytes keyLen))
    (entries : List PinnedEntry) (bytes : Bytes) : Prop where
  spelled : ∃ blobs blob, entries.mapM (fun e => encodeFields e.fields) = .ok blobs ∧
    encodeFields blobs = .ok blob ∧
    encodeFields [vaultMagic, natToLe 2 vaultVersion.toNat, seed.bytes, table secrets, blob] =
      .ok bytes

/-- A piece of the table is read exactly where it has the number of its place. -/
theorem readGeneration_eq_ok {c : Bytes} (width : c.length = generationLen) {i : Nat}
    {g : Generation} :
    readGeneration (c, i) = lift (.ok g) ↔
      ∃ secret : FixedBytes keyLen, c = u32Le (UInt32.ofNat i) ++ secret.bytes ∧
        g = ⟨UInt32.ofNat i, secret⟩ := by
  -- A piece has the width of a number and a secret.
  have four : (c.take 4).length = 4 := by
    rw [List.length_take, width]
    rfl
  have rest : (c.drop 4).length = keyLen := by
    rw [List.length_drop, width]
    rfl
  have parted : c = u32Le (u32OfLe (c.take 4)) ++ c.drop 4 := by
    rw [u32Le_u32OfLe four, List.take_append_drop]
  have held : FixedBytes.ofBytes? keyLen (c.drop 4) = some ⟨c.drop 4, rest⟩ := dif_pos rest
  simp only [readGeneration, Checked.bind_eq_ok, Checked.lift_inj, ensure_eq_ok, held,
    Checked.expect_some, Checked.pure_eq, Except.ok.injEq, exists_eq_left']
  constructor
  · rintro ⟨_, number, rfl⟩
    exact ⟨⟨c.drop 4, rest⟩, by rw [← number]; exact parted, by rw [number]⟩
  · rintro ⟨secret, rfl, rfl⟩
    -- The number is the first four bytes, and the secret is all that comes after them.
    have number : u32OfLe ((u32Le (UInt32.ofNat i) ++ secret.bytes).take 4) = UInt32.ofNat i := by
      rw [List.take_left' (u32Le_length _), u32OfLe_u32Le]
    refine ⟨(), number, ?_⟩
    rw [Generation.mk.injEq]
    exact ⟨number, FixedBytes.ext (List.drop_left' (u32Le_length _))⟩

/-- A list of pieces is read as generations exactly where each has the number of its place. -/
theorem mapM_readGeneration {chunks : List Bytes} (widths : ∀ c ∈ chunks, c.length = generationLen)
    (start : Nat) {generations : List Generation} :
    (chunks.zipIdx start).mapM readGeneration = lift (.ok generations) ↔
      ∃ secrets : List (FixedBytes keyLen),
        chunks = (secrets.zipIdx start).map (fun s => (slot s).bytes) ∧
          generations = (secrets.zipIdx start).map fun s => ⟨UInt32.ofNat s.2, s.1⟩ := by
  -- The place goes up by one with each piece, so the induction leaves the first one open.
  induction chunks generalizing start generations with
  | nil =>
    simp only [List.zipIdx_nil, List.mapM_nil, Checked.pure_eq, Checked.lift_inj, Except.ok.injEq]
    constructor
    · rintro rfl
      exact ⟨[], rfl, rfl⟩
    · rintro ⟨secrets, none_, rfl⟩
      cases secrets with
      | nil => rfl
      | cons secret rest => cases none_
  | cons c rest ih =>
    have later := @ih (fun d member => widths d (List.mem_cons_of_mem _ member)) (start + 1)
    simp only [List.zipIdx_cons, List.mapM_cons, Checked.bind_eq_ok,
      readGeneration_eq_ok (widths c List.mem_cons_self), later, Checked.pure_eq, Checked.lift_inj,
      Except.ok.injEq]
    constructor
    · rintro ⟨_, ⟨secret, rfl, rfl⟩, _, ⟨secrets, rfl, rfl⟩, rfl⟩
      exact ⟨secret :: secrets, rfl, rfl⟩
    · rintro ⟨secrets, all, rfl⟩
      cases secrets with
      | nil => cases all
      | cons secret secrets =>
        simp only [List.zipIdx_cons, List.map_cons, List.cons.injEq] at all
        obtain ⟨rfl, rfl⟩ := all
        exact ⟨_, ⟨secret, rfl, rfl⟩, _, ⟨secrets, rfl, rfl⟩, rfl⟩

/-- An entry is read exactly where its bytes are those of four fields of these widths. -/
theorem readPeer_eq_ok {peers peers' : OrdMap Bytes PinnedPeer} {entry : Bytes} :
    readPeer peers entry = lift (.ok peers') ↔
      ∃ e : PinnedEntry, encodeFields e.fields = .ok entry ∧
        peers' = peers.insert e.peerPk e.peer := by
  -- The fields are read one by one.
  rw [readPeer, Checked.of_fields_eq_ok]
  constructor
  · rintro ⟨f, split, counted, read⟩
    obtain ⟨pk, label, flag, quota, rfl⟩ : ∃ a b c d, f = [a, b, c, d] := by
      match f, counted with
      | [a, b, c, d], _ => exact ⟨a, b, c, d, rfl⟩
    simp only [Checked.item_cons_zero, Checked.item_cons_succ, Checked.lift_ok_bind,
      Checked.bind_eq_ok, Checked.lift_inj, fixedField_eq_ok, item_oneByte, Checked.pure_eq,
      Except.ok.injEq] at read
    obtain ⟨quota, rfl, flag, rfl, rfl⟩ := read
    refine ⟨⟨pk, label, flag.bytes.headD 0, u64OfLe quota.bytes⟩, ?_, rfl⟩
    -- The entry is written with the fields that were read.
    rw [PinnedEntry.fields, oneByte_spelled, u64Le_u64OfLe_fixed]
    exact encodeFields_of_decodeFields split
  · rintro ⟨e, encoded, rfl⟩
    refine ⟨_, decodeFields_of_encodeFields encoded, rfl, ?_⟩
    have quota : fixedField VaultError.badWidth 8 "quota_bytes" (u64Le e.quotaBytes) =
        .ok ⟨u64Le e.quotaBytes, u64Le_length _⟩ :=
      fixedField_of_length _ _ _
    have flag : fixedField VaultError.badWidth 1 "blocked" [e.flag] = .ok ⟨[e.flag], rfl⟩ :=
      fixedField_of_length _ _ _
    simp only [PinnedEntry.fields, Checked.item_cons_zero, Checked.item_cons_succ,
      Checked.lift_ok_bind, quota, flag, Checked.pure_eq, u64OfLe_u64Le]
    rfl

/-- The peers that some entries are read as, the last of each key. -/
def gather (peers : OrdMap Bytes PinnedPeer) (entries : List PinnedEntry) :
    OrdMap Bytes PinnedPeer :=
  entries.foldl (fun m e => m.insert e.peerPk e.peer) peers

/-- The list of peers is read exactly where each of its items is an entry. -/
theorem foldlM_readPeer {blobs : List Bytes} {peers peers' : OrdMap Bytes PinnedPeer} :
    blobs.foldlM readPeer peers = lift (.ok peers') ↔
      ∃ entries : List PinnedEntry, entries.mapM (fun e => encodeFields e.fields) = .ok blobs ∧
        peers' = gather peers entries := by
  -- What was read so far is any map, since each item is put into it.
  induction blobs generalizing peers with
  | nil =>
    simp only [List.foldlM_nil, Checked.pure_eq, Checked.lift_inj, Except.ok.injEq]
    constructor
    · rintro rfl
      exact ⟨[], rfl, rfl⟩
    · rintro ⟨entries, none_, rfl⟩
      cases entries with
      | nil => rfl
      | cons e rest =>
        simp only [List.mapM_cons, except_bind_eq_ok, except_pure_eq, Except.ok.injEq] at none_
        obtain ⟨_, _, _, _, impossible⟩ := none_
        cases impossible
  | cons blob rest ih =>
    simp only [List.foldlM_cons, Checked.bind_eq_ok, readPeer_eq_ok, ih]
    constructor
    · rintro ⟨_, ⟨e, first, rfl⟩, entries, later, rfl⟩
      exact ⟨e :: entries, by simp [List.mapM_cons, first, later], rfl⟩
    · rintro ⟨entries, all, rfl⟩
      cases entries with
      | nil => cases all
      | cons e entries =>
        simp only [List.mapM_cons, except_bind_eq_ok, except_pure_eq, Except.ok.injEq,
          List.cons.injEq] at all
        obtain ⟨_, first, _, later, rfl, rfl⟩ := all
        exact ⟨_, ⟨e, first, rfl⟩, entries, later, rfl⟩

/-- The table of some secrets is cut into its entries. -/
theorem chunksExact_table (secrets : List (FixedBytes keyLen)) :
    chunksExact generationLen (table secrets) = secrets.zipIdx.map fun s => (slot s).bytes := by
  rw [table, chunksExact_flatMap (by decide), List.map_map]
  rfl

/-- The table has one row for each secret. -/
theorem length_table (secrets : List (FixedBytes keyLen)) :
    (table secrets).length = generationLen * secrets.length := by
  rw [table, length_flatMap_bytes, List.length_map, List.length_zipIdx]

/-- The generation table is read exactly where it is that of some secrets. -/
theorem table_read {data : Bytes} (whole : data.length % generationLen = 0)
    {generations : List Generation} :
    (chunksExact generationLen data).zipIdx.mapM readGeneration = lift (.ok generations) ↔
      ∃ secrets, data = table secrets ∧ generations = numbered secrets := by
  -- The bytes are cut into rows, and each row gives its secret.
  obtain ⟨items, rfl⟩ := exists_arrays (Nat.dvd_of_mod_eq_zero whole)
  have cut := chunksExact_flatMap (by decide : 0 < generationLen) items
  have widths : ∀ c ∈ chunksExact generationLen (items.flatMap FixedBytes.bytes), c.length =
      generationLen := by
    intro c member
    rw [cut] at member
    obtain ⟨a, _, rfl⟩ := List.mem_map.mp member
    exact a.size
  rw [mapM_readGeneration widths 0, cut]
  constructor
  · rintro ⟨secrets, pieces, rfl⟩
    refine ⟨secrets, ?_, rfl⟩
    rw [table, List.flatMap_def, List.flatMap_def, pieces, List.map_map]
    rfl
  · rintro ⟨secrets, all, rfl⟩
    refine ⟨secrets, ?_, rfl⟩
    rw [← cut, all, chunksExact_table]

/-- Two bytes that are read as the version are those that are written for it. -/
theorem versionBytes (vers : FixedBytes 2)
    (known : UInt16.ofNat (natOfLe vers.bytes) = vaultVersion) :
    natToLe 2 vaultVersion.toNat = vers.bytes := by
  -- Two bytes are one number, and it is written as it was read.
  have below : natOfLe vers.bytes < 2 ^ 16 := by
    have bound := natOfLe_lt vers.bytes
    rw [vers.size] at bound
    exact bound
  have number : natOfLe vers.bytes = vaultVersion.toNat := by
    rw [← known, UInt16.toNat_ofNat_of_lt' below]
  have back := natToLe_natOfLe vers.bytes
  rw [vers.size, number] at back
  exact back

/-- A container is read exactly where its bytes spell a seed, some secrets and some entries. -/
theorem fromPlain_eq_ok {bytes : Bytes} {v : Vault} :
    fromPlain bytes = lift (.ok v) ↔
      ∃ seed secrets entries, Spells seed secrets entries bytes ∧ secrets ≠ [] ∧
        v = ⟨seed, numbered secrets, gather ∅ entries⟩ := by
  -- Read field by field, and written again the same way.
  rw [fromPlain, Checked.of_fields_eq_ok]
  constructor
  · rintro ⟨f, split, counted, read⟩
    obtain ⟨magic, vers, seed, data, blob, rfl⟩ : ∃ a b c d e, f = [a, b, c, d, e] := by
      match f, counted with
      | [a, b, c, d, e], _ => exact ⟨a, b, c, d, e, rfl⟩
    simp only [Checked.item_cons_zero, Checked.item_cons_succ, Checked.lift_ok_bind,
      Checked.bind_eq_ok, Checked.lift_inj, fixedField_eq_ok, ensure_eq_ok, Checked.decodeFields_eq,
      Checked.mapError_lift, except_mapError_eq_ok, Checked.pure_eq, Except.ok.injEq] at read
    obtain ⟨_, rfl, vers, rfl, _, known, seed, rfl, _, ⟨whole, some_⟩, generations, table_, blobs,
      parted, peers, gathered, rfl⟩ := read
    obtain ⟨secrets, rfl, rfl⟩ := (table_read whole).mp table_
    obtain ⟨entries, written, rfl⟩ := foldlM_readPeer.mp gathered
    refine ⟨seed, secrets, entries, ⟨blobs, blob, written, encodeFields_of_decodeFields parted, ?_⟩,
      ?_, rfl⟩
    · -- The version was read as the one that is written, so its bytes are those that are written.
      rw [versionBytes vers known]
      exact encodeFields_of_decodeFields split
    · rintro rfl
      exact some_ rfl
  · rintro ⟨seed, secrets, entries, ⟨blobs, blob, written, joined, spelled⟩, some_, rfl⟩
    refine ⟨_, decodeFields_of_encodeFields spelled, rfl, ?_⟩
    have version : fixedField VaultError.badWidth 2 "version" (natToLe 2 vaultVersion.toNat) =
        .ok ⟨natToLe 2 vaultVersion.toNat, natToLe_length 2 _⟩ := fixedField_of_length _ _ _
    have known : UInt16.ofNat (natOfLe (natToLe 2 vaultVersion.toNat)) = vaultVersion := by decide
    have seed_ : fixedField VaultError.badWidth keyLen "seed" seed.bytes = .ok seed :=
      fixedField_eq_ok.mpr rfl
    have whole : (table secrets).length % generationLen = 0 := by
      rw [length_table, Nat.mul_mod_right]
    have filled : table secrets ≠ [] := by
      intro empty
      have none_ := congrArg List.length empty
      rw [length_table, List.length_nil] at none_
      rcases Nat.mul_eq_zero.mp none_ with impossible | none_
      · cases impossible
      · exact some_ (List.length_eq_zero_iff.mp none_)
    simp only [Checked.item_cons_zero, Checked.item_cons_succ, Checked.lift_ok_bind, version, known,
      seed_, ensure_of, whole, filled, ne_eq, not_false_eq_true, and_self,
      (table_read whole).mpr ⟨secrets, rfl, rfl⟩, Checked.decodeFields_eq,
      decodeFields_of_encodeFields joined, Checked.mapError_lift, except_mapError_ok,
      foldlM_readPeer.mpr ⟨entries, written, rfl⟩, Checked.pure_eq]

/-- Entries that were written are decoded to their own fields. -/
theorem decode_entries {entries : List PinnedEntry} {blobs : List Bytes}
    (written : entries.mapM (fun e => encodeFields e.fields) = .ok blobs) :
    blobs.mapM NasTools.decodeFields = .ok (entries.map PinnedEntry.fields) := by
  refine (mapM_back ?_ fun fields _ out => decodeFields_of_encodeFields).1
  rw [List.mapM_map]
  exact written

/-- Secrets are known from the table they stand in. -/
theorem table_inj {secrets secrets' : List (FixedBytes keyLen)}
    (same : table secrets = table secrets') :
    secrets = secrets' := by
  -- The table is cut into its pieces again.
  have chunks := congrArg (chunksExact generationLen) same
  rw [chunksExact_table, chunksExact_table] at chunks
  have lengths := congrArg List.length chunks
  simp only [List.length_map, List.length_zipIdx] at lengths
  refine List.ext_getElem lengths fun i here there => ?_
  -- Entries at one place have one number in front, and the secret is what is behind it.
  have at_ : (secrets.zipIdx.map fun s => (slot s).bytes)[i]? =
      (secrets'.zipIdx.map fun s => (slot s).bytes)[i]? := by
    rw [chunks]
  simp only [List.getElem?_map, List.getElem?_zipIdx, List.getElem?_eq_getElem here,
    List.getElem?_eq_getElem there, Option.map_some, Option.some.injEq, slot,
    List.append_cancel_left_eq] at at_
  exact FixedBytes.ext at_

/-- A string spells one seed, one list of secrets and one list of entries. -/
theorem Spells.unique {seed seed' : FixedBytes keyLen} {secrets secrets' : List (FixedBytes keyLen)}
    {entries entries' : List PinnedEntry} {bytes : Bytes}
    (first : Spells seed secrets entries bytes) (second : Spells seed' secrets' entries' bytes) :
      seed = seed' ∧ secrets = secrets' ∧ entries = entries' := by
  -- Both spellings are taken apart.
  obtain ⟨blobs, blob, written, joined, spelled⟩ := first
  obtain ⟨blobs', blob', written', joined', spelled'⟩ := second
  -- A string has one list of fields, and so on with each field that is a list of fields in turn.
  have fields := encodeFields_inj spelled spelled'
  simp only [List.cons.injEq, and_true, true_and] at fields
  obtain ⟨seeds, tables, rfl⟩ := fields
  obtain rfl := encodeFields_inj joined joined'
  have both := Except.ok.inj ((decode_entries written).symm.trans (decode_entries written'))
  exact ⟨FixedBytes.ext seeds, table_inj tables,
    List.map_injective_iff.mpr PinnedEntry.fields_injective both⟩

/--
What a vault has at any time: generations numbered by their places, and peers under their own keys.
-/
structure Sound (v : Vault) : Prop where
  numbered : ∀ (i : Nat) (g : Generation), v.generations[i]? = some g → g.number.toNat = i
  some_ : v.generations ≠ []
  keyed : ∀ (k : Bytes) (p : PinnedPeer), v.peers[k]? = some p → p.peerPk = k

/-- The secrets of a vault, in the order of their generations. -/
def secrets (v : Vault) : List (FixedBytes keyLen) := v.generations.map Generation.secret

/-- The entries that the peers of a vault are written as. -/
def entries (v : Vault) : List PinnedEntry := v.peers.listed.map PinnedPeer.entry

/-- Generations in their places are told by their secrets. -/
theorem Sound.generations_eq {v : Vault} (sound : v.Sound) :
    v.generations = Vault.numbered v.secrets := by
  -- Generations are numbered from zero, one by one.
  refine List.ext_getElem (by simp [Vault.numbered, secrets]) fun i here there => ?_
  have number := sound.numbered i v.generations[i] (List.getElem?_eq_getElem here)
  have at_ : (Vault.numbered v.secrets)[i] = ⟨UInt32.ofNat i, v.generations[i].secret⟩ := by
    simp only [Vault.numbered, secrets, List.getElem_map, List.getElem_zipIdx, Nat.zero_add]
  have named : UInt32.ofNat i = v.generations[i].number :=
    (congrArg UInt32.ofNat number).symm.trans UInt32.ofNat_toNat
  rw [at_, named]

/-- The table of a vault is that of its secrets. -/
theorem Sound.table_eq {v : Vault} (sound : v.Sound) :
    v.generations.flatMap Generation.encode = table v.secrets := by
  rw [sound.generations_eq, table, Vault.numbered, List.flatMap_map, List.flatMap_map]
  rfl

/-- A vault is written as the string that spells its parts. -/
theorem Sound.plain_eq_ok {v : Vault} (sound : v.Sound) {bytes : Bytes} :
    v.plain = lift (.ok bytes) ↔ Spells v.seed v.secrets v.entries bytes := by
  -- The three parts are written in turn, and that is how they are spelled.
  have each :
      v.entries.mapM (fun e => encodeFields e.fields) = v.peers.listed.mapM PinnedPeer.encode := by
    rw [entries, List.mapM_map]
    rfl
  simp only [plain, Checked.bind_eq_ok, Checked.mapM_expect, Checked.lift_inj,
    except_mapError_eq_ok, sound.table_eq]
  constructor
  · rintro ⟨blobs, written, blob, joined, spelled⟩
    exact ⟨blobs, blob, each.trans written, joined, spelled⟩
  · rintro ⟨blobs, blob, written, joined, spelled⟩
    exact ⟨blobs, each.symm.trans written, blob, joined, spelled⟩

/-- Entries in ascending order of their keys are listed as they come. -/
theorem toList_gather {entries : List PinnedEntry}
    (sorted : entries.Pairwise fun a b => compare a.peerPk b.peerPk = .lt) :
    (gather ∅ entries).toList = entries.map fun e => (e.peerPk, e.peer) := by
  -- From the end: each entry goes above all that were put in before it.
  induction entries using List.reverseRecOn with
  | nil => exact OrdMap.toList_empty
  | append_singleton front e ih =>
    obtain ⟨before, _, below⟩ := List.pairwise_append.mp sorted
    have listed := ih before
    have above : ∀ k ∈ gather ∅ front, compare k e.peerPk = .lt := by
      intro k member
      obtain ⟨p, held⟩ :=
        Option.isSome_iff_exists.mp (Std.ExtTreeMap.mem_iff_isSome_getElem?.mp member)
      rw [← Std.ExtTreeMap.mem_toList_iff_getElem?_eq_some, listed] at held
      obtain ⟨d, inside, is⟩ := List.mem_map.mp held
      obtain rfl := congrArg Prod.fst is
      exact below d inside e (List.mem_singleton_self e)
    rw [gather, List.foldl_append, List.foldl_cons, List.foldl_nil, List.map_append,
      List.map_singleton]
    exact (OrdMap.toList_insert_top above).trans (congrArg (· ++ _) listed)

/-- Whatever is read stands under its own key. -/
theorem keyed_gather {entries : List PinnedEntry} {peers : OrdMap Bytes PinnedPeer}
    (keyed : ∀ (k : Bytes) (p : PinnedPeer), peers[k]? = some p → p.peerPk = k) (k : Bytes)
    (p : PinnedPeer) (held : (gather peers entries)[k]? = some p) : p.peerPk = k := by
  -- Induction over the entries, each of which is filed under its own key.
  induction entries generalizing peers with
  | nil => exact keyed k p held
  | cons e rest ih =>
    refine ih (fun k' p' there => ?_) held
    rw [Std.ExtTreeMap.getElem?_insert] at there
    split at there
    · rename_i same
      obtain rfl := Option.some.inj there
      exact Std.LawfulEqCmp.eq_of_compare same
    · exact keyed k' p' there

/-- The entries of peers under their own keys are in ascending order. -/
theorem sorted_entries {peers : OrdMap Bytes PinnedPeer}
    (keyed : ∀ (k : Bytes) (p : PinnedPeer), peers[k]? = some p → p.peerPk = k) :
    (peers.listed.map PinnedPeer.entry).Pairwise (fun a b => compare a.peerPk b.peerPk = .lt) ∧
      peers.toList = peers.listed.map fun p => (p.peerPk, p) := by
  -- A map lists its entries by their keys, and each is filed under its own.
  have own : ∀ e ∈ peers.toList, (e.2.peerPk, e.2) = e := by
    rintro ⟨k, p⟩ member
    rw [Std.ExtTreeMap.mem_toList_iff_getElem?_eq_some] at member
    rw [keyed k p member]
  constructor
  · rw [OrdMap.listed, List.map_map, List.pairwise_map]
    refine Std.ExtTreeMap.ordered_keys_toList.imp_of_mem fun {a b} first second less => ?_
    show compare a.2.peerPk b.2.peerPk = .lt
    have key : a.2.peerPk = a.1 := congrArg Prod.fst (own a first)
    have key' : b.2.peerPk = b.1 := congrArg Prod.fst (own b second)
    rw [key, key']
    exact less
  · rw [OrdMap.listed, List.map_map]
    conv_lhs => rw [← List.map_id peers.toList]
    exact List.map_congr_left fun e member => (own e member).symm

/-- Peers under their own keys are gathered from their entries. -/
theorem gather_entries {peers : OrdMap Bytes PinnedPeer}
    (keyed : ∀ (k : Bytes) (p : PinnedPeer), peers[k]? = some p → p.peerPk = k) :
    gather ∅ (peers.listed.map PinnedPeer.entry) = peers := by
  -- Gathering what was listed gives the same list, and so the same map.
  obtain ⟨sorted, listed⟩ := sorted_entries keyed
  have same : (gather ∅ (peers.listed.map PinnedPeer.entry)).toList = peers.toList := by
    rw [toList_gather sorted, listed, List.map_map]
    refine List.map_congr_left fun p _ => ?_
    rw [Function.comp_apply, PinnedPeer.peer_entry]
    rfl
  refine Std.ExtTreeMap.ext_getElem? fun k => Option.ext fun p => ?_
  rw [← Std.ExtTreeMap.mem_toList_iff_getElem?_eq_some,
    ← Std.ExtTreeMap.mem_toList_iff_getElem?_eq_some, same]

/--
What is gathered from some entries is written as they are where they are plain and in
ascending order.
-/
theorem entries_gather_iff {entries : List PinnedEntry} :
    (gather ∅ entries).listed.map PinnedPeer.entry = entries ↔
      (∀ e ∈ entries, e.Plain) ∧ entries.Pairwise fun a b => compare a.peerPk b.peerPk = .lt := by
  -- Gathering keeps the last entry of every key.
  have keyed := @keyed_gather entries ∅ (by simp)
  constructor
  · intro same
    refine ⟨?_, same ▸ (sorted_entries keyed).1⟩
    intro e member
    rw [← same] at member
    obtain ⟨p, _, rfl⟩ := List.mem_map.mp member
    -- What a peer is written as is read as that peer, and so written again as it was.
    exact (PinnedEntry.entry_peer_iff p.entry).mp (by rw [PinnedPeer.peer_entry])
  · rintro ⟨plain, sorted⟩
    rw [OrdMap.listed, toList_gather sorted, List.map_map, List.map_map]
    conv_rhs => rw [← List.map_id entries]
    exact List.map_congr_left fun e member => (PinnedEntry.entry_peer_iff e).mpr (plain e member)

/-- What is written of a vault is read back. -/
theorem Sound.fromPlain_plain {v : Vault} (sound : v.Sound) {bytes : Bytes}
    (written : v.plain = lift (.ok bytes)) :
    fromPlain bytes = lift (.ok v) := by
  have some_ : v.secrets ≠ [] := fun none_ => sound.some_ (List.map_eq_nil_iff.mp none_)
  refine fromPlain_eq_ok.mpr ⟨_, _, _, sound.plain_eq_ok.mp written, some_, ?_⟩
  rw [← sound.generations_eq, entries, gather_entries sound.keyed]

/--
What is read is sound: its numbers are those of their places, and there are never
more of them than numbers.
-/
theorem sound_of_fromPlain {bytes : Bytes} {v : Vault}
    (read : fromPlain bytes = lift (.ok v)) : v.Sound := by
  -- The table is a field, so its rows can be counted.
  obtain ⟨seed, secrets, entries, spells, some_, rfl⟩ := fromPlain_eq_ok.mp read
  obtain ⟨blobs, blob, _, _, spelled⟩ := spells
  have few : secrets.length < 2 ^ 32 := by
    have fits := fits_of_encodeFields spelled (table secrets) (by simp)
    rw [length_table, show generationLen = 36 from rfl, show maxField = 2 ^ 32 - 1 from rfl] at fits
    omega
  refine ⟨?_, ?_, keyed_gather (by simp)⟩
  · intro i g held
    simp only [numbered, List.getElem?_map, List.getElem?_zipIdx, Option.map_map,
      Option.map_eq_some_iff] at held
    obtain ⟨secret, inside, rfl⟩ := held
    have below : i < 2 ^ 32 := (List.getElem?_eq_some_iff.mp inside).1.trans few
    simpa using UInt32.toNat_ofNat_of_lt' below
  · intro none_
    have lengths := congrArg List.length none_
    simp only [numbered, List.length_map, List.length_zipIdx, List.length_nil] at lengths
    exact some_ (List.length_eq_zero_iff.mp lengths)

/--
A string is spelled as it would be written: labels are text, flags are zero or one,
keys are in ascending order.
-/
def Spelled (bytes : Bytes) : Prop :=
  ∃ fields blobs entries, NasTools.decodeFields bytes = .ok fields ∧
    NasTools.decodeFields (fields.getD 4 []) = .ok blobs ∧
    blobs.mapM NasTools.decodeFields = .ok entries ∧
    (∀ e ∈ entries, (∃ text, e.getD 1 [] = textBytes text) ∧
      (e.getD 2 [] = [0] ∨ e.getD 2 [] = [1])) ∧
    entries.Pairwise fun a b => compare (a.getD 0 []) (b.getD 0 []) = .lt

/-- Of a string that is a container, the entries alone decide how it is spelled. -/
theorem Spells.spelled_iff {seed : FixedBytes keyLen} {secrets : List (FixedBytes keyLen)}
    {entries : List PinnedEntry} {bytes : Bytes} (spells : Spells seed secrets entries bytes) :
    Spelled bytes ↔ (∀ e ∈ entries, e.Plain) ∧ entries.Pairwise fun a b =>
      compare a.peerPk b.peerPk = .lt := by
  -- The fields that spell it are the only ones.
  obtain ⟨blobs, blob, written, joined, spelled⟩ := spells
  have back := decode_entries written
  have outer := decodeFields_of_encodeFields spelled
  have inner := decodeFields_of_encodeFields joined
  have plain (e : PinnedEntry) : e.Plain ↔ (∃ text, e.fields.getD 1 [] = textBytes text) ∧
      (e.fields.getD 2 [] = [0] ∨ e.fields.getD 2 [] = [1]) := by
    constructor
    · rintro ⟨label, flag⟩
      refine ⟨label, ?_⟩
      simpa [PinnedEntry.fields] using flag
    · rintro ⟨label, flag⟩
      exact ⟨label, by simpa [PinnedEntry.fields] using flag⟩
  constructor
  · rintro ⟨fields, blobs', parts, first, second, third, all, sorted⟩
    -- Each reading is of the same string, so it gives what was written there.
    obtain rfl := Except.ok.inj (outer.symm.trans first)
    obtain rfl := Except.ok.inj (inner.symm.trans second)
    obtain rfl := Except.ok.inj (back.symm.trans third)
    exact ⟨fun e member => (plain e).mpr (all _ (List.mem_map_of_mem member)),
      List.pairwise_map.mp sorted⟩
  · rintro ⟨all, sorted⟩
    refine ⟨_, blobs, _, outer, inner, back, ?_, List.pairwise_map.mpr sorted⟩
    intro e member
    obtain ⟨e, inside, rfl⟩ := List.mem_map.mp member
    exact (plain e).mp (all e inside)

/-- What is read is written again as it was exactly where it was spelled as it would be written. -/
theorem plain_fromPlain_iff {bytes : Bytes} {v : Vault} (read : fromPlain bytes = lift (.ok v)) :
    v.plain = lift (.ok bytes) ↔ Spelled bytes := by
  -- Only the order of the entries and their spelling can be lost.
  have sound := sound_of_fromPlain read
  obtain ⟨seed, secrets, entries, spells, some_, rfl⟩ := fromPlain_eq_ok.mp read
  rw [sound.plain_eq_ok, spells.spelled_iff, ← entries_gather_iff]
  constructor
  · intro again
    exact (spells.unique again).2.2.symm
  · intro same
    have secrets_ : Vault.secrets ⟨seed, numbered secrets, gather ∅ entries⟩ = secrets := by
      rw [Vault.secrets, numbered, List.map_map]
      exact List.zipIdx_map_fst 0 secrets
    rw [secrets_, Vault.entries, same]
    exact spells

/-- A container can hold the generations and the peers of a vault. -/
structure Fits (v : Vault) : Prop where
  generations : generationLen * v.generations.length ≤ maxField
  peers : (v.peers.listed.map fun p => p.peerPk.length + (textBytes p.label).length + 29).sum ≤
    maxField

/-- An entry as it stands in the list of peers. -/
def framedEntry (e : PinnedEntry) : Bytes := e.fields.flatMap framedField

/-- The bytes that an entry takes in the list of peers, with its prefix. -/
def entryLen (e : PinnedEntry) : Nat := e.peerPk.length + e.label.length + 29

/-- The length of an entry, framed as a field. -/
theorem length_framedEntry (e : PinnedEntry) :
    (framedField (framedEntry e)).length = entryLen e := by
  simp only [framedEntry, entryLen, PinnedEntry.fields, List.flatMap_cons, List.flatMap_nil,
    List.length_append, framedField_length, lenPrefix, List.length_cons, List.length_nil,
    u64Le_length]
  omega

/-- Entries are encoded where the fields of each of them fit. -/
theorem mapM_entries {entries : List PinnedEntry} {blobs : List Bytes} :
    entries.mapM (fun e => encodeFields e.fields) = .ok blobs ↔
      (∀ e ∈ entries, FieldsFit e.fields) ∧ blobs = entries.map framedEntry := by
  -- Induction over the entries, each of which is written if its fields fit.
  induction entries generalizing blobs with
  | nil => simp [eq_comm]
  | cons e rest ih =>
    simp only [List.mapM_cons, except_bind_eq_ok, except_pure_eq, Except.ok.injEq, ih,
      encodeFields_eq_ok, List.mem_cons, forall_eq_or_imp, List.map_cons]
    constructor
    · rintro ⟨_, ⟨first, rfl⟩, _, ⟨later, rfl⟩, rfl⟩
      exact ⟨⟨first, later⟩, rfl⟩
    · rintro ⟨⟨first, later⟩, rfl⟩
      exact ⟨_, ⟨first, rfl⟩, _, ⟨later, rfl⟩, rfl⟩

/--
A string spells some secrets and entries where the table and the list of entries each
fit into a field.
-/
theorem exists_spells {seed : FixedBytes keyLen} {secrets : List (FixedBytes keyLen)}
    {entries : List PinnedEntry} :
    (∃ bytes, Spells seed secrets entries bytes) ↔
      generationLen * secrets.length ≤ maxField ∧ (entries.map entryLen).sum ≤ maxField := by
  -- What is written has to fit at each level.
  have joined :
      ((entries.map framedEntry).flatMap framedField).length = (entries.map entryLen).sum := by
    rw [List.length_flatMap, List.map_map]
    exact congrArg List.sum (List.map_congr_left fun e _ => length_framedEntry e)
  constructor
  · rintro ⟨bytes, blobs, blob, written, list, spelled⟩
    obtain ⟨_, rfl⟩ := mapM_entries.mp written
    obtain ⟨_, rfl⟩ := encodeFields_eq_ok.mp list
    have fits := fits_of_encodeFields spelled
    exact ⟨length_table secrets ▸ fits _ (by simp), joined ▸ fits _ (by simp)⟩
  · rintro ⟨tableFits, listFits⟩
    -- The list is longer than any entry in it, and an entry is longer than any of its fields.
    have entryFits : ∀ e ∈ entries, entryLen e ≤ maxField := fun e member =>
      (List.single_le_sum (by simp) _ (List.mem_map_of_mem member)).trans listFits
    have fieldsFit : ∀ e ∈ entries, FieldsFit e.fields := by
      intro e member field inside
      have bound := entryFits e member
      rw [entryLen] at bound
      simp only [PinnedEntry.fields, List.mem_cons, List.not_mem_nil, or_false] at inside
      rcases inside with rfl | rfl | rfl | rfl
      · omega
      · omega
      · simp [maxField]
      · simp [maxField]
    have blobsFit : FieldsFit (entries.map framedEntry) := by
      intro blob inside
      obtain ⟨e, member, rfl⟩ := List.mem_map.mp inside
      have framed := length_framedEntry e
      rw [framedField_length] at framed
      have bound := entryFits e member
      omega
    refine ⟨_, _, _, mapM_entries.mpr ⟨fieldsFit, rfl⟩, encodeFields_ok blobsFit,
      encodeFields_ok ?_⟩
    intro field inside
    simp only [List.mem_cons, List.not_mem_nil, or_false] at inside
    rcases inside with rfl | rfl | rfl | rfl | rfl
    · decide
    · decide
    · rw [seed.size]
      decide
    · rwa [length_table]
    · rwa [joined]

/-- A vault is written where a container can hold it, and nowhere else. -/
theorem Sound.writes_iff {v : Vault} (sound : v.Sound) :
    (∃ bytes, v.plain = lift (.ok bytes)) ↔ v.Fits := by
  -- Whether the container is written depends on its lengths.
  have lengths : v.secrets.length = v.generations.length := List.length_map _
  have sizes : v.entries.map entryLen =
      v.peers.listed.map fun p => p.peerPk.length + (textBytes p.label).length + 29 := by
    rw [entries, List.map_map]
    rfl
  simp only [sound.plain_eq_ok, exists_spells, lengths, sizes]
  exact ⟨fun fits => ⟨fits.1, fits.2⟩, fun fits => ⟨fits.generations, fits.peers⟩⟩

/-- What is done to a vault: a rotation, a peer pinned, or one blocked. -/
inductive Step : Vault → Vault → Prop
  | rotate (v : Vault) (secret : Except String (FixedBytes keyLen)) (w : Vault) (number : UInt32)
      (rotated : v.rotateConvergence secret = lift (.ok (w, number))) : Step v w
  | pin (v : Vault) (peer : PinnedPeer) : Step v (v.pinPeer peer)
  | block (v : Vault) (peerPk : Bytes) : Step v (v.blockPeer peerPk).1

/-- A vault that comes of another one by any number of steps. -/
def Becomes : Vault → Vault → Prop := Relation.ReflTransGen Step

/-- A vault that comes of a fresh one. -/
def Reached (v : Vault) : Prop :=
  ∃ seed secret start, create (.ok seed) (.ok secret) = .ok start ∧ Becomes start v

/-- What a rotation leaves: the generations there were, and one after them. -/
theorem rotateConvergence_eq_ok {v w : Vault} {secret : Except String (FixedBytes keyLen)}
    {number : UInt32} :
    v.rotateConvergence secret = lift (.ok (w, number)) ↔
      ∃ s last, secret = .ok s ∧ v.generations.getLast? = some last ∧
        last.number.toNat + 1 < 2 ^ 32 ∧
        number = last.number + 1 ∧
          w = { v with generations := v.generations ++ [⟨number, s⟩] } := by
  -- The secret is drawn, and the number is the next one if there is one.
  simp only [rotateConvergence, currentGeneration, Checked.bind_eq_ok, Checked.lift_inj,
    except_mapError_eq_ok, Checked.expect_eq_ok, Checked.pure_eq, Except.ok.injEq, Prod.mk.injEq,
    Option.ite_none_right_eq_some, Option.some.injEq]
  constructor
  · rintro ⟨s, rfl, last, held, _, ⟨below, rfl⟩, rfl, rfl⟩
    exact ⟨s, last, rfl, held, below, rfl, rfl⟩
  · rintro ⟨s, last, rfl, held, below, rfl, rfl⟩
    exact ⟨s, rfl, last, held, _, ⟨below, rfl⟩, rfl, rfl⟩

/-- The last generation has the number of the last place. -/
theorem Sound.last_number {v : Vault} (sound : v.Sound) {last : Generation}
    (held : v.generations.getLast? = some last) :
    last.number.toNat + 1 = v.generations.length := by
  rw [List.getLast?_eq_getElem?] at held
  have number := sound.numbered _ last held
  have some_ : 0 < v.generations.length := List.length_pos_iff.mpr sound.some_
  omega

/-- Peers stay under their own keys when one is put in under its own. -/
theorem keyed_insert {peers : OrdMap Bytes PinnedPeer} {peer : PinnedPeer}
    (keyed : ∀ (k : Bytes) (p : PinnedPeer), peers[k]? = some p → p.peerPk = k) (k : Bytes)
    (p : PinnedPeer) (held : (peers.insert peer.peerPk peer)[k]? = some p) : p.peerPk = k := by
  -- The new peer is filed under its own key.
  rw [Std.ExtTreeMap.getElem?_insert] at held
  split at held
  · rename_i same
    obtain rfl := Option.some.inj held
    exact Std.LawfulEqCmp.eq_of_compare same
  · exact keyed k p held

/-- A step keeps the vault sound, and the generations there were. -/
theorem Sound.step {v w : Vault} (sound : v.Sound) (step : Step v w) :
    w.Sound ∧ v.generations <+: w.generations := by
  -- One kind of step after the other.
  cases step with
  | rotate secret _ number rotated =>
    obtain ⟨s, last, rfl, held, below, rfl, rfl⟩ := rotateConvergence_eq_ok.mp rotated
    have place := sound.last_number held
    refine ⟨⟨?_, by simp, sound.keyed⟩, List.prefix_append _ _⟩
    intro i g there
    rcases Nat.lt_or_ge i v.generations.length with earlier | later
    · rw [List.getElem?_append_left earlier] at there
      exact sound.numbered i g there
    · -- The new generation stands in the place after the last one, and has the number after it.
      rw [List.getElem?_append_right later] at there
      obtain ⟨first, rfl⟩ := List.getElem?_eq_some_iff.mp there
      simp only [List.length_singleton] at first
      have next : (last.number + 1).toNat = last.number.toNat + 1 := by
        rw [UInt32.toNat_add, show (1 : UInt32).toNat = 1 from rfl, Nat.mod_eq_of_lt below]
      simp only [List.getElem_singleton, next]
      omega
  | pin peer => exact ⟨⟨sound.numbered, sound.some_, keyed_insert sound.keyed⟩, List.prefix_refl _⟩
  | block peerPk =>
    cases held : v.peers[peerPk]? with
    | none =>
      have same : (v.blockPeer peerPk).1 = v := by simp only [blockPeer, held]
      rw [same]
      exact ⟨sound, List.prefix_refl _⟩
    | some p =>
      -- A peer that is blocked keeps its key.
      have changed : (v.blockPeer peerPk).1 = v.pinPeer { p with blocked := true } := by
        have own : p.peerPk = peerPk := sound.keyed peerPk p held
        simp only [blockPeer, held, pinPeer, own]
      rw [changed]
      exact ⟨⟨sound.numbered, sound.some_, keyed_insert sound.keyed⟩, List.prefix_refl _⟩

/-- However many steps are taken, the vault stays sound and keeps the generations there were. -/
theorem Sound.becomes {v w : Vault} (sound : v.Sound) (run : Becomes v w) :
    w.Sound ∧ v.generations <+: w.generations := by
  -- Induction over the run: every step keeps the vault sound and its generations.
  induction run with
  | refl => exact ⟨sound, List.prefix_refl _⟩
  | tail _ step ih =>
    obtain ⟨sound', earlier⟩ := ih
    obtain ⟨sound'', more⟩ := sound'.step step
    exact ⟨sound'', earlier.trans more⟩

/-- A fresh vault is sound. -/
theorem sound_create {seed secret : Except String (FixedBytes keyLen)} {v : Vault}
    (made : create seed secret = .ok v) :
    v.Sound := by
  -- There is one generation, and its number is zero.
  simp only [create, except_bind_eq_ok, except_mapError_eq_ok, except_pure_eq,
    Except.ok.injEq] at made
  obtain ⟨s, _, c, _, rfl⟩ := made
  refine ⟨?_, by simp, by simp⟩
  intro i g held
  obtain ⟨first, rfl⟩ := List.getElem?_eq_some_iff.mp held
  simp only [List.length_singleton, Nat.lt_one_iff] at first
  subst first
  rfl

/-- Every vault that is reached is sound. -/
theorem Reached.sound {v : Vault} (reached : Reached v) : v.Sound := by
  obtain ⟨_, _, start, made, run⟩ := reached
  exact ((sound_create made).becomes run).1

/--
A vault that comes of a fresh one is numbered without gaps, keeps what it had, and is read back
where a container can hold it; a string that is accepted is what is written of its vault exactly
where it is spelled as it would be written.
-/
theorem container_is_canonical_iff (bytes : Bytes) :
    (∀ v : Vault, Reached v →
      (∀ (i : Nat) (g : Generation), v.generations[i]? = some g → g.number.toNat = i) ∧
      (∀ w, Becomes v w → v.generations <+: w.generations) ∧
      ((∃ b, v.plain = lift (.ok b) ∧ fromPlain b = lift (.ok v)) ↔ v.Fits)) ∧
    ∀ v, fromPlain bytes = lift (.ok v) → (v.plain = lift (.ok bytes) ↔ Spelled bytes) := by
  -- A vault that is reached is sound, and a sound one is read back if it is written.
  refine ⟨fun v reached => ?_, fun v read => plain_fromPlain_iff read⟩
  have sound := reached.sound
  refine ⟨sound.numbered, fun w run => (sound.becomes run).2, ?_⟩
  rw [← sound.writes_iff]
  constructor
  · rintro ⟨b, written, _⟩
    exact ⟨b, written⟩
  · rintro ⟨b, written⟩
    exact ⟨b, written, sound.fromPlain_plain written⟩

/-- A fresh vault. -/
def fresh : Vault := ⟨FixedBytes.zero keyLen, [⟨0, FixedBytes.zero keyLen⟩], ∅⟩

/--
Two peers that are pinned, the one without a quota under a name that takes more bytes than letters.
-/
def laptop : PinnedPeer := ⟨[1], "laptop".toList, false, 1000⟩
def attic : PinnedPeer := ⟨[2], "grenier, côté cour".toList, false, 0⟩

/-- A vault with a second generation. -/
def rotated : Vault :=
  { fresh with generations := fresh.generations ++ [⟨1, FixedBytes.zero keyLen⟩] }

/-- The same vault with both peers pinned, and one of them blocked. -/
def used : Vault := (((rotated.pinPeer attic).pinPeer laptop).blockPeer attic.peerPk).1

/-- Such a vault is read back from what is written of it, which is spelled as it is written. -/
theorem used_vault_is_read_back :
    ∃ b, used.plain = lift (.ok b) ∧ fromPlain b = lift (.ok used) ∧ Spelled b := by
  -- The vault is reached in four steps, and its table and list are short.
  have rotates : fresh.rotateConvergence (.ok (FixedBytes.zero keyLen)) = lift (.ok (rotated, 1)) :=
    rotateConvergence_eq_ok.mpr ⟨_, ⟨0, FixedBytes.zero keyLen⟩, rfl, rfl, by decide, rfl, rfl⟩
  have run : Becomes fresh used :=
    (((Relation.ReflTransGen.single (.rotate _ _ _ _ rotates)).tail (.pin _ attic)).tail
      (.pin _ laptop)).tail
      (.block _ attic.peerPk)
  have reached : Reached used := ⟨FixedBytes.zero keyLen, FixedBytes.zero keyLen, fresh, rfl, run⟩
  have fits : used.Fits := ⟨by decide +kernel, by decide +kernel⟩
  obtain ⟨b, written, read⟩ := ((container_is_canonical_iff []).1 used reached).2.2.mpr fits
  exact ⟨b, written, read, ((container_is_canonical_iff b).2 used read).mp written⟩

/-- An entry whose flag is two. -/
def flaggedTwice : PinnedEntry := ⟨[1], [], 2, 0⟩

/-- A container with that one entry. -/
def flaggedContainer : Bytes :=
  expectFields [vaultMagic, natToLe 2 vaultVersion.toNat, (FixedBytes.zero keyLen).bytes,
    table [FixedBytes.zero keyLen], expectFields [expectFields flaggedTwice.fields]]

/--
A flag of two is read as one, and so the container is not what is written of the
vault that it opens to.
-/
theorem flag_of_two_is_not_written :
    ∃ v, fromPlain flaggedContainer = lift (.ok v) ∧ v.plain ≠ lift (.ok flaggedContainer) := by
  -- The container spells an entry whose flag is neither zero nor one.
  have spells : Spells (FixedBytes.zero keyLen) [FixedBytes.zero keyLen] [flaggedTwice]
      flaggedContainer :=
    ⟨[expectFields flaggedTwice.fields],
      expectFields [expectFields flaggedTwice.fields], by decide, by decide, by decide⟩
  have read := fromPlain_eq_ok.mpr ⟨_, _, _, spells, by simp, rfl⟩
  refine ⟨_, read, fun written => ?_⟩
  have plain :=
    (spells.spelled_iff.mp ((plain_fromPlain_iff read).mp written)).1 flaggedTwice (by simp)
  exact absurd plain.flag (by decide)

end Vault

end NasTools
