import NasTools.Model.Peer.State
import NasTools.Model.Store.BlobTree

/-! When the listing of a blob directory is the list of its blobs. -/

namespace NasTools.BlobDir

variable {d : BlobDir}

/-- The size and the time of what stands at the path of an address. -/
def metadata (d : BlobDir) (addr : Addr) : Except IoError (UInt64 × Timestamp) := do
  match ← d.find addr with
  | none => throw noSuchFile
  | some entry => okOr entry.metadata noSuchFile

section

variable {t : BlobTree} {addr : Addr}

/-- What a listing finds at the path of an address is what that path leads to. -/
theorem find_listing : t.listing.find addr =
    match t.dir (t.path addr).dir with
    | none => .ok none
    | some (.folder opens names) => do
      opens
      return names[(t.path addr).name]?.map fun _ => t.entryAt (t.path addr)
    | some _ => .error notADirectory := by
  -- The listing keeps every directory, and a link is read as the directory it leads to.
  unfold find BlobTree.listing BlobTree.path BlobTree.real
  simp only [Std.ExtTreeMap.getElem?_map]
  have shard : t.dir (.shard addr.shard.1) = t.shards[addr.shard.1]? := rfl
  rw [shard]
  match filed : t.shards[addr.shard.1]? with
  | none => simp [shard, filed]
  | some .other => simp [shard, filed]
  | some (.folder opens names) =>
    simp only [Option.map_some, shard, filed, BlobTree.entriesIn, Std.ExtTreeMap.getElem?_map]
  | some (.link target) =>
    simp only [Option.map_some]
    match t.dir target with
    | none => rfl
    | some .other => rfl
    | some (.link _) => rfl
    | some (.folder opens names) => simp only [BlobTree.entriesIn, Std.ExtTreeMap.getElem?_map]

/-- Where nothing is found, or nothing can be looked at, a name leads nowhere. -/
theorem entryAt_of_look {p : Place} (absent : ∀ found, t.look p ≠ .ok (some found)) :
    t.entryAt p = .dangling := by
  -- Where nothing is found the chain ends or fails at once.
  have nowhere : t.resolve p = .ok none ∨ ∃ e, t.resolve p = .error e := by
    unfold BlobTree.resolve Links.resolve
    match seen : t.look p with
    | .error e =>
      rw [chainLimit, Links.follow_error seen]
      exact .inr ⟨e, rfl⟩
    | .ok (some found) => exact absurd seen (absent found)
    | .ok none =>
      rw [chainLimit, Links.follow_end ⟨_, seen, nofun⟩, except_ok_bind, seen]
      exact .inl rfl
  unfold BlobTree.entryAt
  rcases nowhere with led | ⟨e, led⟩ <;> rw [led]

/-- A listing has a file where there is one. -/
theorem find_listing_file {f : BlobFile} {reads touches : Disk} :
    t.listing.find addr = .ok (some (.file f reads touches)) ↔
      ∃ k, t.resolve (t.path addr) = .ok (some (.file k)) ∧
        t.files[k]? = some ⟨f, reads, touches⟩ := by
  -- Only the last case finds a file; in each of the others the address leads nowhere.
  have entry : t.entryAt (t.path addr) = .file f reads touches ↔
      ∃ k, t.resolve (t.path addr) = .ok (some (.file k)) ∧
        t.files[k]? = some ⟨f, reads, touches⟩ := by
    unfold BlobTree.entryAt
    split
    · rename_i k led
      rw [led]
      split
      · rename_i node held
        obtain ⟨_, _, _⟩ := node
        simp [held]
      · rename_i held
        simp [held]
    all_goals simp_all
  have dangling : t.entryAt (t.path addr) = .dangling →
    ¬∃ k, t.resolve (t.path addr) = .ok (some (.file k)) ∧
      t.files[k]? = some ⟨f, reads, touches⟩ := by
    rw [← entry]
    intro nowhere
    simp [nowhere]
  rw [find_listing]
  rcases filed : t.dir (t.path addr).dir with _ | ⟨⟨e⟩ | _, names⟩ | _ | _
  case some.folder.ok =>
    cases named : names[(t.path addr).name]? with
    | none =>
      refine iff_of_false (by simp [named]) (dangling (entryAt_of_look ?_))
      simp [BlobTree.look_eq filed, named]
    | some x => simp [named, entry]
  -- Without a directory which can be read there is nothing to list and nothing to find.
  all_goals
    exact iff_of_false (by simp) (dangling (entryAt_of_look (by simp [BlobTree.look, filed])))

end

/-- Every listed blob, with the size and time a sweep reads. -/
def inventory (d : BlobDir) : Except PeerError (List BlobInfo) := do
  let listed ← d.addrs.mapError .store
  listed.mapM fun addr => do
    let (size, uploadedAt) ← (d.metadata addr).mapError .io
    return ⟨addr, size, uploadedAt⟩

/-- A directory that a listing goes into has something under a name. -/
def Lists (d : BlobDir) (shard name : Bytes) (entry : BlobEntry) : Prop :=
  ∃ opens entries, d.shards[shard]? = some (.folder false opens entries) ∧
    entries[name]? = some entry

/-- The path of an address is that of a file, which is reached through a link to a directory. -/
def Hidden (d : BlobDir) (addr : Addr) : Prop :=
  ∃ entries f reads touches, d.shards[addr.shard.1]? = some (.folder true (.ok ()) entries) ∧
    entries[addr.shard.2]? = some (.file f reads touches)

/-- A directory in which what spells an address is a file in its place. -/
structure Orderly (d : BlobDir) : Prop where
  opens : ∀ (shard : Bytes) opens entries, d.shards[shard]? = some (.folder false opens entries) →
    opens = .ok ()
  -- In its place is a file in a directory whose name has two digits.
  inPlace : ∀ shard name entry (addr : Addr), d.Lists shard name entry → shard ++ name = addr.hex →
    (shard.length = 2 ∧ ∃ f reads touches, entry = .file f reads touches) ∨ d.Hidden addr
  -- What no listing goes into has to be spelled once by something else.
  hidden : ∀ addr : Addr, d.Hidden addr →
    ∃! names : Bytes × Bytes, (∃ entry, d.Lists names.1 names.2 entry) ∧
      names.1 ++ names.2 = addr.hex

/-- Every pair of names that a listing of some shards comes upon. -/
def namesIn (shards : List (Bytes × Shard)) : List (Bytes × Bytes) :=
  shards.flatMap fun shard =>
    match shard.2 with
    | .folder false _ entries => entries.toList.map fun entry => (shard.1, entry.1)
    | _ => []

/-- What two names spell. -/
def spelledBy (names : Bytes × Bytes) : Option Addr := spelled names.1 names.2

/-- The two names spell an address if their bytes are its digits. -/
theorem spelledBy_eq_some {names : Bytes × Bytes} {addr : Addr} :
    spelledBy names = some addr ↔ names.1 ++ names.2 = addr.hex := by
  rw [← Addr.fromHex_lossy, spelledBy, spelled]
  cases Addr.fromHex (fromUtf8Lossy names.1 ++ fromUtf8Lossy names.2) <;> simp [Except.toOption]

example : spelledBy ([], []) = none := by decide +kernel

/--
The names under which an address is filed are its only spelling in a directory with two digits.
-/
theorem eq_shard {names : Bytes × Bytes} {addr : Addr} (spells : names.1 ++ names.2 = addr.hex)
    (two : names.1.length = 2) : names = addr.shard := by
  obtain ⟨whole, length⟩ := Addr.shard_append addr
  obtain ⟨first, second⟩ := List.append_inj (spells.trans whole.symm) (two.trans length.symm)
  exact Prod.ext first second

/-- Names are listed if there is an entry under them in an open shard. -/
theorem mem_namesIn {names : Bytes × Bytes} :
    names ∈ namesIn d.shards.toList ↔ ∃ entry, d.Lists names.1 names.2 entry := by
  -- Only a shard that is a plain directory is listed.
  simp only [namesIn, List.mem_flatMap, Lists]
  constructor
  · rintro ⟨⟨shard, _ | _ | _⟩, among, listed⟩
    case folder linked opens entries =>
      cases linked
      · obtain ⟨⟨name, entry⟩, inside, rfl⟩ := List.mem_map.mp listed
        exact ⟨entry, opens, entries, Std.ExtTreeMap.mem_toList_iff_getElem?_eq_some.mp among,
          Std.ExtTreeMap.mem_toList_iff_getElem?_eq_some.mp inside⟩
      · cases listed
    all_goals cases listed
  · intro listed
    obtain ⟨entry, opens, entries, filed, there⟩ := listed
    refine ⟨(names.1, .folder false opens entries),
      Std.ExtTreeMap.mem_toList_iff_getElem?_eq_some.mpr filed, ?_⟩
    exact List.mem_map.mpr ⟨(names.2, entry),
      Std.ExtTreeMap.mem_toList_iff_getElem?_eq_some.mpr there, rfl⟩

/-- A listing comes upon no pair of names twice. -/
theorem nodup_namesIn (d : BlobDir) : (namesIn d.shards.toList).Nodup := by
  -- The names of a directory are keys, and so are the directories.
  have keys {V : Type} (m : OrdMap Bytes V) : m.toList.Pairwise fun a b => a.1 ≠ b.1 :=
    Std.ExtTreeMap.ordered_keys_toList.imp fun {a b} less same => by simp [same] at less
  rw [namesIn, List.nodup_flatMap]
  constructor
  · intro shard _
    split
    · rename_i entries _
      refine List.Pairwise.map _ ?_ (keys entries)
      intro a b apart same
      exact apart (congrArg Prod.snd same)
    · exact List.nodup_nil
  · refine (keys d.shards).imp ?_
    intro a b apart names inA inB
    -- The first name is that of the directory.
    have first (shard : Bytes × Shard) (inside : names ∈ namesIn [shard]) : names.1 = shard.1 := by
      obtain ⟨shard, _ | _ | _⟩ := shard
      case folder linked opens entries =>
        cases linked
        · simp only [namesIn, List.flatMap_cons, List.flatMap_nil, List.append_nil, List.mem_map]
            at inside
          obtain ⟨entry, _, rfl⟩ := inside
          rfl
        · simp [namesIn] at inside
      all_goals simp [namesIn] at inside
    exact apart ((first a (by simpa [namesIn] using inA)).symm.trans
      (first b (by simpa [namesIn] using inB)))

/--
A listing goes through when every directory on the way can be gone into, and lists
what their names spell.
-/
theorem foldlM_listShard {shards : List (Bytes × Shard)} {out listed : List Addr} :
    shards.foldlM listShard out = .ok listed ↔
      (∀ shard ∈ shards, ∀ opens entries, shard.2 = .folder false opens entries → opens = .ok ()) ∧
        listed = out ++ (namesIn shards).filterMap spelledBy := by
  -- Induction over the shards: only an open directory adds names, and only a closed one fails.
  induction shards generalizing out with
  | nil => simp [namesIn, eq_comm, pure, Except.pure]
  | cons first rest ih =>
    have skipped (passes : listShard out first = .ok out) (none : namesIn [first] = [])
        (no : ∀ opens entries, first.2 ≠ .folder false opens entries) :
        (first :: rest).foldlM listShard out = .ok listed ↔
          (∀ shard ∈ first :: rest, ∀ opens entries, shard.2 = .folder false opens entries →
            opens = .ok ()) ∧
            listed = out ++ (namesIn (first :: rest)).filterMap spelledBy := by
      have names : namesIn (first :: rest) = namesIn rest := by
        have split : namesIn (first :: rest) = namesIn [first] ++ namesIn rest := by simp [namesIn]
        rw [split, none, List.nil_append]
      rw [List.foldlM_cons, passes, names]
      refine ih.trans (and_congr_left fun _ => ?_)
      constructor
      · intro rest_ shard among
        rcases List.mem_cons.mp among with rfl | later
        · intro opens entries is
          exact absurd is (no opens entries)
        · exact rest_ shard later
      · intro all shard among
        exact all shard (List.mem_cons_of_mem _ among)
    -- What is no plain directory is passed over, and one that does not open ends the listing.
    obtain ⟨name, shard⟩ := first
    match shard with
    | .folder true _ _ => exact skipped rfl rfl (by simp)
    | .dangling => exact skipped rfl rfl (by simp)
    | .other => exact skipped rfl rfl (by simp)
    | .folder false (.error why) entries =>
      refine iff_of_false
        (by simp [List.foldlM_cons, listShard, Except.mapError, bind, Except.bind]) ?_
      intro both
      cases both.1 _ List.mem_cons_self _ _ rfl
    | .folder false (.ok _) entries =>
      have names : (namesIn ((name, .folder false (.ok ()) entries) :: rest)).filterMap spelledBy =
          (entries.toList.filterMap fun entry => spelled name entry.1) ++ (namesIn rest).filterMap
            spelledBy := by
        simp [namesIn, List.filterMap_map, Function.comp_def, spelledBy]
      have passes : listShard out (name, .folder false (.ok ()) entries) =
        .ok (out ++ entries.toList.filterMap fun entry => spelled name entry.1) := rfl
      rw [List.foldlM_cons, passes]
      refine ih.trans (and_congr ?_ (by rw [names, List.append_assoc]))
      simp

/-- What a listing returns, in some order. -/
theorem addrs_eq_ok {listed : List Addr} (done : d.addrs = .ok listed) :
    listed.Perm ((namesIn d.shards.toList).filterMap spelledBy) := by
  -- Sorting only rearranges what was listed.
  unfold addrs at done
  cases found : d.shards.toList.foldlM listShard [] with
  | error why =>
    rw [found] at done
    cases done
  | ok out =>
    rw [found] at done
    obtain rfl := Except.ok.inj done
    obtain ⟨_, rfl⟩ := foldlM_listShard.mp found
    exact List.mergeSort_perm _ _

/-- Addresses are listed exactly if every plain directory opens. -/
theorem addrs_isOk : (∃ listed, d.addrs = .ok listed) ↔
    ∀ (shard : Bytes) opens entries, d.shards[shard]? = some (.folder false opens entries) →
      opens = .ok () := by
  -- Sorting never fails, so only the listing can.
  have lists : (∃ listed, d.addrs = .ok listed) ↔
      ∃ out, d.shards.toList.foldlM listShard [] = .ok out := by
    unfold addrs
    cases d.shards.toList.foldlM listShard [] <;> simp [bind, Except.bind, pure, Except.pure]
  rw [lists]
  constructor
  · intro found shard opens entries filed
    obtain ⟨out, found⟩ := found
    exact (foldlM_listShard.mp found).1 _ (Std.ExtTreeMap.mem_toList_iff_getElem?_eq_some.mpr
      filed) _ _ rfl
  · intro all
    refine ⟨_, foldlM_listShard.mpr ⟨?_, rfl⟩⟩
    rintro ⟨name, _⟩ among opens entries rfl
    exact all name opens entries (Std.ExtTreeMap.mem_toList_iff_getElem?_eq_some.mp among)

/-- An address is listed when two names spell it. -/
theorem mem_addrs {listed : List Addr} (done : d.addrs = .ok listed) {addr : Addr} :
    addr ∈ listed ↔ ∃ names : Bytes × Bytes, (∃ entry, d.Lists names.1 names.2 entry) ∧
      names.1 ++ names.2 = addr.hex := by
  rw [(addrs_eq_ok done).mem_iff, List.mem_filterMap]
  simp only [mem_namesIn, spelledBy_eq_some]

/-- No address is listed twice exactly when no two pairs of names spell it. -/
theorem nodup_addrs {listed : List Addr} (done : d.addrs = .ok listed) :
    listed.Nodup ↔ ∀ (one other : Bytes × Bytes)
    (addr : Addr), (∃ entry, d.Lists one.1 one.2 entry) →
      (∃ entry, d.Lists other.1 other.2 entry) → one.1 ++ one.2 = addr.hex →
        other.1 ++ other.2 = addr.hex → one = other := by
  -- Every pair of names is listed once, so an address comes twice only from two pairs that spell
  -- it.
  rw [(addrs_eq_ok done).nodup_iff, List.Nodup, List.pairwise_filterMap]
  simp only [← mem_namesIn, ← spelledBy_eq_some]
  constructor
  · intro apart one other addr first second spells also
    by_contra differ
    have symm : Std.Symm fun a b : Bytes × Bytes =>
        ∀ x : Addr, spelledBy a = some x → ∀ y : Addr, spelledBy b = some y → x ≠ y :=
      ⟨fun a b ab x isX y isY same => ab y isY x isX same.symm⟩
    exact List.Pairwise.forall apart first second differ addr spells addr also rfl
  · intro unique
    refine (nodup_namesIn d).imp_of_mem ?_
    intro one other first second differ addr spells again also same
    subst same
    exact differ (unique one other addr first second spells also)

/--
The path of an address is that of a file when a directory that can be gone into has
it, under a link or not.
-/
theorem isFile_iff {addr : Addr} :
    d.isFile addr = true ↔ d.Hidden addr ∨
      ∃ entries f reads touches, d.shards[addr.shard.1]? = some (.folder false (.ok ()) entries) ∧
        entries[addr.shard.2]? = some (.file f reads touches) := by
  -- The search looks into one shard, which may be a link.
  constructor
  · intro there
    unfold isFile at there
    split at there
    · rename_i f reads touches found
      obtain ⟨linked, entries, filed⟩ := Stands.of_find found
      have inside : entries[addr.shard.2]? = some (.file f reads touches) := by
        simpa [find, filed] using found
      cases linked
      · exact .inr ⟨entries, f, reads, touches, filed, inside⟩
      · exact .inl ⟨entries, f, reads, touches, filed, inside⟩
    · cases there
  · rintro (⟨entries, f, reads, touches, filed, inside⟩ | ⟨entries, f, reads, touches, filed,
      inside⟩) <;>
      simp [isFile, find, filed, inside]

/-- What a listing comes upon in its place is at the path of the address. -/
theorem Lists.isFile_iff {shard name : Bytes} {entry : BlobEntry} (lists : d.Lists shard name entry)
    {addr : Addr} (spells : shard ++ name = addr.hex) (two : shard.length = 2)
    (opens : ∀ (shard : Bytes) opens entries, d.shards[shard]? =
      some (.folder false opens entries) → opens = .ok ()) :
    d.isFile addr = true ↔ ∃ f reads touches, entry = .file f reads touches := by
  -- With two digits in front the names are those of the address itself.
  have same : (shard, name) = addr.shard := eq_shard spells two
  obtain ⟨opens', entries, filed, inside⟩ := lists
  obtain rfl := opens _ _ _ filed
  simp only [isFile, find, ← same, filed, inside]
  cases entry <;> simp

/-- What can be said of a listed file: its size and time can be read, and it can be removed. -/
theorem metadata_of_isFile {addr : Addr} (there : d.isFile addr = true) :
    (∃ seen, d.metadata addr = .ok seen) ∧ (d.remove (.ok ()) addr).1 = .ok () := by
  -- A file has a size and a time, and nothing keeps it from being removed.
  unfold isFile at there
  split at there
  · rename_i f reads touches found
    obtain ⟨linked, entries, filed⟩ := Stands.of_find found
    simp [metadata, remove, found, filed, BlobEntry.metadata]
  · cases there

/-- Stock is taken of every listed address, where something can be said of each. -/
theorem inventory_ok {listed : List Addr} (done : d.addrs = .ok listed)
    (each : ∀ addr ∈ listed, ∃ seen, d.metadata addr = .ok seen) :
    ∃ infos, d.inventory = .ok infos ∧ infos.map BlobInfo.addr = listed := by
  -- Induction over the addresses, each of which has its metadata.
  simp only [inventory, done, except_mapError_ok, except_ok_bind]
  clear done
  induction listed with
  | nil => exact ⟨[], rfl, rfl⟩
  | cons first rest ih =>
    obtain ⟨seen, here⟩ := each first List.mem_cons_self
    obtain ⟨infos, later, named⟩ := ih fun addr among => each addr (List.mem_cons_of_mem _ among)
    refine ⟨⟨first, seen.1, seen.2⟩ :: infos, ?_, by rw [List.map_cons, named]⟩
    simp only [List.mapM_cons, here, except_mapError_ok, except_ok_bind, later]
    rfl

/--
A listing has the blobs of a directory, each once, exactly when the directory is orderly.

Then every blob it has can be taken stock of and removed.
-/
theorem lists_blobs_iff (d : BlobDir) :
    (∃ listed, d.addrs = .ok listed ∧ listed.Nodup ∧
      (∀ addr, addr ∈ listed ↔ d.isFile addr = true) ∧
      (∃ infos, d.inventory = .ok infos ∧ infos.map BlobInfo.addr = listed) ∧
      ∀ addr ∈ listed, (d.remove (.ok ()) addr).1 = .ok ()) ↔ d.Orderly := by
  -- A name that is no address, or a directory that cannot be read, ends the listing.
  constructor
  · intro listing
    obtain ⟨listed, done, nodup, exact_, _⟩ := listing
    have opens := addrs_isOk.mp ⟨listed, done⟩
    have once := (nodup_addrs done).mp nodup
    refine ⟨opens, ?_, ?_⟩
    · intro shard name entry addr lists spells
      have there := (exact_ addr).mp ((mem_addrs done).mpr ⟨(shard, name), ⟨entry, lists⟩, spells⟩)
      rcases isFile_iff.mp there with hidden | ⟨entries, f, reads, touches, filed, inside⟩
      · exact .inr hidden
      · -- The path of the address spells it as well, so these are the names of the path.
        have same := once (shard, name) addr.shard addr ⟨entry, lists⟩ ⟨_, .ok (), entries, filed,
          inside⟩ spells
          (Addr.shard_append addr).1
        have two : shard.length = 2 := by
          rw [← (Addr.shard_append addr).2, ← same]
        exact .inl ⟨two, (lists.isFile_iff spells two opens).mp there⟩
    · intro addr hidden
      obtain ⟨names, lists, spells⟩ :=
        (mem_addrs done).mp ((exact_ addr).mpr (isFile_iff.mpr (.inl hidden)))
      refine ⟨names, ⟨lists, spells⟩, ?_⟩
      rintro other ⟨also, same⟩
      exact once other names addr also lists same spells
  · intro orderly
    obtain ⟨listed, done⟩ := addrs_isOk.mpr orderly.opens
    have members (addr : Addr) : addr ∈ listed ↔ d.isFile addr = true := by
      rw [mem_addrs done]
      constructor
      · intro spelled
        obtain ⟨names, ⟨entry, lists⟩, spells⟩ := spelled
        rcases orderly.inPlace _ _ _ _ lists spells with ⟨two, file⟩ | hidden
        · exact (lists.isFile_iff spells two orderly.opens).mpr file
        · exact isFile_iff.mpr (.inl hidden)
      · intro there
        rcases isFile_iff.mp there with hidden | ⟨entries, f, reads, touches, filed, inside⟩
        · exact (orderly.hidden addr hidden).exists
        · exact ⟨addr.shard, ⟨_, .ok (), entries, filed, inside⟩, (Addr.shard_append addr).1⟩
    refine ⟨listed, done, (nodup_addrs done).mpr ?_, members, ?_, ?_⟩
    · intro one other addr first second spells also
      obtain ⟨entry, lists⟩ := first
      obtain ⟨entry', lists'⟩ := second
      -- In its place there is one pair of names, and behind a link one is asked for.
      rcases orderly.inPlace _ _ _ _ lists spells with ⟨two, file⟩ | hidden
      · rcases orderly.inPlace _ _ _ _ lists' also with ⟨two', _⟩ | hidden
        · rw [eq_shard spells two, eq_shard also two']
        · exact (orderly.hidden addr hidden).unique ⟨⟨_, lists⟩, spells⟩ ⟨⟨_, lists'⟩, also⟩
      · exact (orderly.hidden addr hidden).unique ⟨⟨_, lists⟩, spells⟩ ⟨⟨_, lists'⟩, also⟩
    · exact inventory_ok done fun addr among => (metadata_of_isFile ((members addr).mp among)).1
    · intro addr among
      exact (metadata_of_isFile ((members addr).mp among)).2

/--
A directory with a three-digit name, and a file in it named by the other sixty-one
digits of an address.
-/
def strayNames : BlobDir :=
  ⟨.content, (∅ : OrdMap Bytes Shard).insert ((Addr.hex Digest.zero).take 3)
    (.folder false (.ok ()) ((∅ : OrdMap Bytes BlobEntry).insert ((Addr.hex Digest.zero).drop 3)
      (.file ⟨[], 0⟩ (.ok ()) (.ok ()))))⟩

/-- The listing has an address that no file stands at, and taking stock fails. -/
theorem stray_names_break_the_inventory :
    strayNames.addrs = .ok [Digest.zero] ∧ strayNames.isFile Digest.zero = false ∧
      strayNames.inventory = .error (.io noSuchFile) := by
  decide +kernel

end NasTools.BlobDir
