import NasTools.Lib.Bytes
import NasTools.Lib.Nested

/-!
State kept in files, one file an entry: what is written beside it, and what a
directory is read back as.
-/

namespace NasTools

/-- A path below the root of a store, name by name. -/
abbrev Path := List String

instance pathTransOrd : Std.TransOrd Path := inferInstance

/-- The files of a store, by path. -/
abbrev Files := OrdMap Path Bytes

namespace Files

/-- Move a file, over whatever is there. -/
def rename (files : Files) (source target : Path) : Files :=
  match files[source]? with
  | some bytes => (files.erase source).insert target bytes
  | none => files

/-- Write a file beside its place, and move it there. -/
def replace (files : Files) (dir : Path) (name : String) (bytes : Bytes) : Files :=
  let tmp := dir ++ [name ++ ".tmp"]
  rename (files.insert tmp bytes) tmp (dir ++ [name])

/-- What is left after a file was replaced: the file, nothing beside it, and every other file. -/
theorem getElem?_replace (files : Files) (dir : Path) (name : String) (bytes : Bytes)
    (path : Path) :
    (files.replace dir name bytes)[path]? =
      if path = dir ++ [name] then some bytes
      else if path = dir ++ [name ++ ".tmp"] then none
      else files[path]? := by
  -- The new bytes are written beside the file and then moved over it, so the temporary name ends
  -- up empty.
  have written : (files.insert (dir ++ [name ++ ".tmp"]) bytes)[dir ++ [name ++ ".tmp"]]? =
    some bytes := by simp
  unfold replace rename
  dsimp only
  rw [written]
  dsimp only
  rw [Std.ExtTreeMap.getElem?_insert, Std.ExtTreeMap.getElem?_erase, Std.ExtTreeMap.getElem?_insert]
  by_cases here : path = dir ++ [name]
  · simp [here]
  · by_cases beside : path = dir ++ [name ++ ".tmp"]
    · simp [beside, Ne.symm]
    · simp [here, beside, Ne.symm here, Ne.symm beside]

end Files

/-- A kind of state that is kept in files: where each entry lies, and what a file is read as. -/
structure Drawer (K V : Type) where
  dir : K → Path
  name : K → String
  read : Path → Bytes → Option (K × V)

namespace Drawer

variable {K V : Type} {s : Drawer K V} {find : K → Option V} {files : Files}

/-- Where an entry lies. -/
def path (s : Drawer K V) (k : K) : Path := s.dir k ++ [s.name k]

/-- No two entries share a file, and none lies where a file is written before it is moved. -/
structure Lawful (s : Drawer K V) : Prop where
  injective : ∀ k k', s.path k = s.path k' → k = k'
  settled : ∀ k, '.' ∉ (s.name k).toList

/-- The files of a drawer hold exactly the entries of some state. -/
structure Mirrors (s : Drawer K V) (find : K → Option V) (files : Files) : Prop where
  filed : ∀ k v, find k = some v → ∃ bytes, files[s.path k]? = some bytes ∧
    s.read (s.path k) bytes = some (k, v)
  read : ∀ (path : Path) bytes k v, files[path]? = some bytes → s.read path bytes = some (k, v) →
    path = s.path k ∧ find k = some v

/-- No entry lies where a file is written before it is moved. -/
theorem Lawful.path_ne_beside (lawful : s.Lawful) (k : K) (dir : Path) (name : String) :
    s.path k ≠ dir ++ [name ++ ".tmp"] := by
  -- A temporary name holds a dot, which no name of an entry does.
  intro same
  have last : s.name k = name ++ ".tmp" := by
    have ends := congrArg List.getLast? same
    simpa [path] using ends
  have dotted : '.' ∈ (s.name k).toList := by
    rw [last]
    simp
  exact lawful.settled k dotted

/-- A drawer without files holds nothing. -/
theorem mirrors_empty (nothing : ∀ k, find k = none) : s.Mirrors find ∅ := by
  -- With nothing held there is nothing to file, and an empty directory has nothing to read.
  constructor
  · intro k v held
    rw [nothing] at held
    cases held
  · intro path bytes k v filed
    simp at filed

/-- Replacing the file of one entry changes that entry, and no other. -/
theorem Mirrors.replace (mirrors : s.Mirrors find files) (lawful : s.Lawful) {k : K} {v : V}
    {bytes : Bytes} (reads : s.read (s.path k) bytes = some (k, v)) {find' : K → Option V}
    (here : find' k = some v) (others : ∀ k', k' ≠ k → find' k' = find k') :
    s.Mirrors find' (files.replace (s.dir k) (s.name k) bytes) := by
  -- The entry under the key is the one just written; every other file and entry is as it was.
  constructor
  · intro k' v' held
    rw [Files.getElem?_replace]
    by_cases same : k' = k
    · subst same
      obtain rfl := Option.some.inj (here.symm.trans held)
      exact ⟨bytes, if_pos rfl, reads⟩
    · rw [others k' same] at held
      obtain ⟨old, filed, read⟩ := mirrors.filed k' v' held
      refine ⟨old, ?_, read⟩
      have apart : s.path k' ≠ s.dir k ++ [s.name k] :=
        fun equal => same (lawful.injective k' k equal)
      rw [if_neg apart, if_neg (lawful.path_ne_beside k' _ _)]
      exact filed
  · intro path found k' v' filed read
    rw [Files.getElem?_replace] at filed
    split at filed
    · -- The file that was replaced is read as the new entry.
      rename_i is
      obtain rfl := Option.some.inj filed
      rw [is, show s.dir k ++ [s.name k] = s.path k from rfl, reads] at read
      obtain ⟨rfl, rfl⟩ := Prod.mk.inj (Option.some.inj read)
      exact ⟨is, here⟩
    · split at filed
      · cases filed
      · rename_i elsewhere _
        obtain ⟨rfl, held⟩ := mirrors.read path found k' v' filed read
        have other : k' ≠ k := by
          rintro rfl
          exact elsewhere rfl
        exact ⟨rfl, (others k' other).trans held⟩

/-- Replacing a file that the drawer does not read changes nothing on it. -/
theorem Mirrors.elsewhere (mirrors : s.Mirrors find files) (lawful : s.Lawful) {dir : Path}
    {name : String} (unread : ∀ bytes, s.read (dir ++ [name]) bytes = none) (bytes : Bytes) :
    s.Mirrors find (files.replace dir name bytes) := by
  -- A file that is read as no entry lies at no entry's path, so replacing it moves no entry.
  constructor
  · intro k v held
    obtain ⟨old, filed, read⟩ := mirrors.filed k v held
    refine ⟨old, ?_, read⟩
    rw [Files.getElem?_replace, if_neg ?_, if_neg (lawful.path_ne_beside k _ _)]
    · exact filed
    · intro same
      rw [same, unread] at read
      cases read
  · intro path found k v filed read
    rw [Files.getElem?_replace] at filed
    split at filed
    · rename_i is
      rw [is, unread] at read
      cases read
    · split at filed
      · cases filed
      · exact mirrors.read path found k v filed read

/-- Replacing the files of several entries changes those entries, and no other. -/
theorem Mirrors.replaceAll [DecidableEq K] (mirrors : s.Mirrors find files) (lawful : s.Lawful)
    (bytesOf : V → Bytes) {entries : List (K × V)}
    (reads : ∀ k v, (k, v) ∈ entries → s.read (s.path k) (bytesOf v) = some (k, v))
    {find' : K → Option V} (values : ∀ k v, (k, v) ∈ entries → find' k = some v)
    (others : ∀ k, (∀ v, (k, v) ∉ entries) → find' k = find k) :
    s.Mirrors find'
      (entries.foldl (fun files e => files.replace (s.dir e.1) (s.name e.1) (bytesOf e.2))
      files) := by
  -- What the drawer holds changes with each file, so it stays quantified over.
  induction entries generalizing find files with
  | nil =>
    have same : find' = find := funext fun k => others k fun v => List.not_mem_nil
    rw [same]
    exact mirrors
  | cons first rest ih =>
    obtain ⟨k, v⟩ := first
    have next : s.Mirrors (Function.update find k (some v))
        (files.replace (s.dir k) (s.name k) (bytesOf v)) :=
      mirrors.replace lawful (reads k v List.mem_cons_self) (Function.update_self k _ find)
        fun k' other => Function.update_of_ne other _ find
    refine ih next (fun k v member => reads k v (List.mem_cons_of_mem _ member))
      (fun k v member => values k v (List.mem_cons_of_mem _ member)) ?_
    intro k' unlisted
    by_cases same : k' = k
    · subst same
      rw [Function.update_self, values k' v List.mem_cons_self]
    · rw [Function.update_of_ne same, others k']
      intro v' member
      rcases List.mem_cons.mp member with is | later
      · exact same (Prod.mk.inj is).1
      · exact unlisted v' later

/-- Replacing files that the drawer does not read changes nothing on it. -/
theorem Mirrors.elsewhereAll {K' V' : Type} {other : Drawer K' V'} (mirrors : s.Mirrors find files)
    (lawful : s.Lawful) (unread : ∀ k bytes, s.read (other.path k) bytes = none)
    (bytesOf : V' → Bytes) (entries : List (K' × V')) :
    s.Mirrors find (entries.foldl (fun files e => files.replace (other.dir e.1) (other.name e.1)
      (bytesOf e.2)) files) := by
  induction entries generalizing files with
  | nil => exact mirrors
  | cons first rest ih => exact ih (mirrors.elsewhere lawful (unread first.1) (bytesOf first.2))

/-- Listing the files in any order reads back exactly the entries. -/
theorem Mirrors.mem_listing (mirrors : s.Mirrors find files) {listing : List (Path × Bytes)}
    (all : listing.Perm files.toList) (k : K) (v : V) :
    (k, v) ∈ listing.filterMap (fun file => s.read file.1 file.2) ↔ find k = some v := by
  -- Either direction follows the file: from the listing to the entry read from it, and back.
  rw [List.mem_filterMap]
  constructor
  · rintro ⟨⟨path, bytes⟩, listed, read⟩
    have filed := Std.ExtTreeMap.mem_toList_iff_getElem?_eq_some.mp (all.mem_iff.mp listed)
    exact (mirrors.read path bytes k v filed read).2
  · intro held
    obtain ⟨bytes, filed, read⟩ := mirrors.filed k v held
    exact ⟨(s.path k, bytes),
      all.mem_iff.mpr (Std.ExtTreeMap.mem_toList_iff_getElem?_eq_some.mpr filed), read⟩

end Drawer

end NasTools
