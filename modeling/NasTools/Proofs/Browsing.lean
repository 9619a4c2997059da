import NasTools.Lib.Folders
import NasTools.Lib.OrderedSet
import NasTools.Proofs.Face
import NasTools.Proofs.Hrefs

/-!
Browsing a bucket through the WebDAV face: which files are found by following its
collections from the root.
-/

namespace NasTools

namespace Dav

/-- The headers of a PROPFIND of depth 1. -/
def depthOne : Headers := (∅ : Headers).insert "depth".toList "1".toList

section

variable {S : Type} (b : Buckets S) (s : S) (bucket : List Char)

/-- What is found by following collections from the root of a bucket. -/
inductive Found : DavEntry → Prop where
  | root {entries : List DavEntry} {s' : S} {entry : DavEntry}
      (told : propfind b depthOne (.listObjects bucket []) s = (.ok entries, s'))
        (member : entry ∈ entries) :
      Found entry
  | follow {href : List Char} {r : HttpRequest} {entries : List DavEntry} {s' : S}
    {entry : DavEntry}
      (found : Found (.collection href)) (request : asked "PROPFIND".toList href depthOne = some r)
      (told : propfind b r.headers (S3.route r.path r.query) s = (.ok entries, s'))
        (member : entry ∈ entries) :
      Found entry

/-- The live keys of a bucket with their bytes, as its listings and its reads have them. -/
structure Keeps (live : List Char → Option Bytes) : Prop where
  list : ∀ pref, ∃ items, b.list (String.ofList bucket) pref s = (.ok items, s) ∧
    ∀ key size, ⟨key, size, false⟩ ∈ items ↔ pref.toList <+: key.toList ∧
      ∃ body, live key.toList = some body ∧ size = UInt64.ofNat body.length
  get : ∀ key body, live key = some body →
    (b.get (String.ofList bucket) (String.ofList key) s).1 = .ok body

/-- There is no other bucket. -/
def Alone : Prop :=
  ∀ other, other ≠ bucket → ∀ pref, ∃ e s', b.list (String.ofList other) pref s = (.error e, s')

variable (live : List Char → Option Bytes)

/-- A GET of an href is read as one of a live key, and answered with its bytes. -/
def Reads (href key : List Char) : Prop :=
  ∃ r body, asked "GET".toList href ∅ = some r ∧ S3.route r.path r.query = .object bucket key ∧
    live key = some body ∧
    (dispatch b r s).1 = S3.respondWith 200 "OK" "application/octet-stream" [] body

/--
Every live key is found as a file that reads it, and every file that is found reads a live key.
-/
structure ShowsAll : Prop where
  all : ∀ key body, live key = some body →
    ∃ href, Found b s bucket (.file href (UInt64.ofNat body.length)) ∧
      Reads b s bucket live href key
  only : ∀ href size, Found b s bucket (.file href size) → ∃ key, Reads b s bucket live href key

end

/-- A key with no live key in front of it that is the path of folders. -/
def Visible (live : List Char → Option Bytes) (key : List Char) : Prop :=
  ∀ folders, (∀ d ∈ folders, Folders.Name '/' d) → folders ≠ [] →
    (live (Folders.path '/' folders)).isSome →
    Folders.path '/' folders <+: key → key = Folders.path '/' folders

/-- No live key is the path of folders in front of another one. -/
def Unhidden (live : List Char → Option Bytes) : Prop := ∀ key, (live key).isSome → Visible live key

section

variable {rest d pref hrefBase href : List Char} {size : UInt64} {items : List ObjectInfo}
  {live : List Char → Option Bytes}

/-- A rest lies in a folder where a name is in front of it. -/
theorem folder_eq_some :
    folder rest = some d ↔ Folders.Name '/' d ∧ ∃ more, rest = d ++ '/' :: more := by
  -- The first separator ends a folder's name, which is not empty.
  unfold folder
  constructor
  · intro is
    split at is
    · rename_i dir more parts
      split at is
      · cases is
      · rename_i some_
        obtain rfl := Option.some.inj is
        obtain ⟨rfl, free⟩ := Text.splitOnce_eq_some.mp parts
        exact ⟨⟨some_, free⟩, more, rfl⟩
    · cases is
  · rintro ⟨⟨some_, free⟩, more, rfl⟩
    simp only [Text.splitOnce_append free, if_neg some_]

/-- A rest that lies in no folder is a leaf. -/
theorem folder_eq_none : folder rest = none ↔ Folders.Leaf '/' rest := by
  -- Having no folder is the other case of having one.
  constructor
  · intro none_ d more name is
    rw [folder_eq_some.mpr ⟨name, more, is⟩] at none_
    cases none_
  · intro leaf
    cases is : folder rest with
    | none => rfl
    | some d =>
      obtain ⟨name, more, same⟩ := folder_eq_some.mp is
      exact absurd same (leaf d more name)

/-- The rests behind a prefix are what the live keys have behind it. -/
theorem mem_rests (told : ∀ key size, ⟨key, size, false⟩ ∈ items ↔ pref <+: key.toList ∧
    ∃ body, live key.toList = some body ∧ size = UInt64.ofNat body.length) :
    (rest, size) ∈ items.filterMap (restOf pref) ↔
      rest ≠ [] ∧ ∃ body, live (pref ++ rest) = some body ∧ size = UInt64.ofNat body.length := by
  -- What is listed under the prefix is the live keys that start with it.
  have restOf_eq (o : ObjectInfo) : restOf pref o = some (rest, size) ↔
      o.tombstone = false ∧ o.key.toList = pref ++ rest ∧ rest ≠ [] ∧ o.size = size := by
    simp only [restOf, Option.bind_eq_bind, Option.bind_eq_some_iff, Option.guard_eq_some',
      List.dropPrefix?_eq_some_iff, beq_iff_eq, Option.pure_def, Option.some.injEq, Prod.mk.injEq]
    constructor
    · rintro ⟨_, here, _, ⟨_, is, rfl⟩, _, some_, rfl, rfl⟩
      exact ⟨here, is, some_, rfl⟩
    · rintro ⟨here, is, some_, rfl⟩
      exact ⟨(), here, rest, ⟨pref, is, rfl⟩, (), some_, rfl, rfl⟩
  simp only [List.mem_filterMap, restOf_eq]
  constructor
  · rintro ⟨⟨key, size', _⟩, member, rfl, is, some_, rfl⟩
    obtain ⟨_, body, held, sized⟩ := (told key size').mp member
    exact ⟨some_, body, by rw [← is, held], sized⟩
  · rintro ⟨some_, body, held, sized⟩
    refine ⟨⟨String.ofList (pref ++ rest), size, false⟩, (told _ _).mpr ⟨?_, body, ?_, sized⟩, rfl,
      ?_, some_, rfl⟩
    · simp
    · simpa using held
    · simp

/-- A file is told right behind a prefix for every live key that lies there in no further folder. -/
theorem file_mem_childrenOf (told : ∀ key size, ⟨key, size, false⟩ ∈ items ↔ pref <+: key.toList ∧
    ∃ body, live key.toList = some body ∧ size = UInt64.ofNat body.length) :
    .file href size ∈ childrenOf pref hrefBase items ↔ ∃ rest, Folders.Leaf '/' rest ∧ rest ≠ [] ∧
      (∃ body, live (pref ++ rest) = some body ∧ size = UInt64.ofNat body.length) ∧
      href = hrefBase ++ hrefEncode rest := by
  -- A file is told for each rest with no folder in it.
  simp only [childrenOf, List.mem_append, List.mem_map, reduceCtorEq, and_false,
    exists_false, false_or, List.mem_filter, Option.isNone_iff_eq_none, DavEntry.file.injEq,
    Prod.exists]
  constructor
  · rintro ⟨rest, _, ⟨member, leaf⟩, rfl, rfl⟩
    obtain ⟨some_, held⟩ := (mem_rests told).mp member
    exact ⟨rest, folder_eq_none.mp leaf, some_, held, rfl⟩
  · rintro ⟨rest, leaf, some_, held, rfl⟩
    exact ⟨rest, size, ⟨(mem_rests told).mpr ⟨some_, held⟩, folder_eq_none.mpr leaf⟩, rfl, rfl⟩

/-- A collection is told right behind a prefix for every folder that a live key lies in there. -/
theorem collection_mem_childrenOf (told : ∀ key size, ⟨key, size, false⟩ ∈ items ↔
      pref <+: key.toList ∧
    ∃ body, live key.toList = some body ∧ size = UInt64.ofNat body.length) :
    .collection href ∈ childrenOf pref hrefBase items ↔ ∃ d, Folders.Name '/' d ∧
      (∃ more, (live (pref ++ (d ++ '/' :: more))).isSome) ∧
        href = hrefBase ++ hrefEncode (d ++ ['/']) := by
  -- A collection is told for each folder that some rest starts with.
  have known (rest : List Char) (size : UInt64) : (rest, size) ∈ items.filterMap (restOf pref) ↔
      rest ≠ [] ∧ ∃ body, live (pref ++ rest) = some body ∧ size = UInt64.ofNat body.length :=
        mem_rests told
  unfold childrenOf
  generalize items.filterMap (restOf pref) = rests at known ⊢
  simp only [List.mem_append, List.mem_map, reduceCtorEq, and_false, exists_false, or_false,
    Std.ExtTreeSet.mem_toList, OrdSet.mem_insertAll, Std.ExtTreeSet.not_mem_empty,
    List.mem_filterMap,
    DavEntry.collection.injEq, hrefEncode_append, hrefEncode_slash, Prod.exists,
    Option.isSome_iff_exists]
  constructor
  · rintro ⟨d, ⟨rest, size, member, lies⟩, rfl⟩
    obtain ⟨_, body, held, _⟩ := (known rest size).mp member
    obtain ⟨name, more, rfl⟩ := folder_eq_some.mp lies
    exact ⟨d, name, ⟨more, body, held⟩, List.append_assoc _ _ _⟩
  · rintro ⟨d, name, ⟨more, body, held⟩, rfl⟩
    refine ⟨d,
      ⟨d ++ '/' :: more, UInt64.ofNat body.length, (known _ _).mpr ⟨by simp, body, held, rfl⟩, ?_⟩,
      List.append_assoc _ _ _⟩
    exact folder_eq_some.mpr ⟨name, more, rfl⟩

end

section

variable {S : Type} {b : Buckets S} {s : S} {bucket : List Char} {live : List Char → Option Bytes}
  {ds : List (List Char)} {entries out : List DavEntry}

/-- An answer tells one list. -/
theorem told_inj {A E T : Type} {a a' : A} {t t' : T}
    (same : ((.ok a, t) : Except E A × T) = (.ok a', t')) : a = a' :=
  Except.ok.inj (Prod.mk.inj same).1

/--
What a PROPFIND tells of one folder: the folder, those right inside it, and the files
right inside it.
-/
structure Level (bucket : List Char) (live : List Char → Option Bytes) (ds : List (List Char))
    (entries : List DavEntry) : Prop where
  collections : ∀ href, .collection href ∈ entries ↔ href = hrefOf bucket (Folders.path '/' ds) ∨
    ∃ d, Folders.Name '/' d ∧ (∃ more, (live (Folders.path '/' ds ++ (d ++ '/' :: more))).isSome) ∧
      href = hrefOf bucket (Folders.path '/' (ds ++ [d]))
  files : ∀ href size, .file href size ∈ entries ↔ ∃ rest, Folders.Leaf '/' rest ∧ rest ≠ [] ∧
    (∃ body, live (Folders.path '/' ds ++ rest) = some body ∧ size = UInt64.ofNat body.length) ∧
      href = hrefOf bucket (Folders.path '/' ds ++ rest)

/-- A PROPFIND of depth 1 goes into folders. -/
theorem depthOne_deep :
    decide ((depthOne["depth".toList]?).getD "1".toList ≠ "0".toList) = true := by decide

variable (keeps : Keeps b s bucket live)
include keeps

/-- What is told behind a folder is one level of it. -/
theorem appendChildren_level : ∃ entries,
    appendChildren b bucket (Folders.path '/' ds) (hrefOf bucket (Folders.path '/' ds))
      [.collection (hrefOf bucket (Folders.path '/' ds))] s = (.ok entries, s) ∧
        Level bucket live ds entries := by
  -- What is told is the collection itself and then what is listed under its path.
  obtain ⟨items, listed, told⟩ := keeps.list (String.ofList (Folders.path '/' ds))
  rw [String.toList_ofList] at told
  refine ⟨_, by rw [appendChildren, listed], ?_, ?_⟩
  · intro href
    rw [List.mem_append, List.mem_singleton, DavEntry.collection.injEq,
      collection_mem_childrenOf told]
    simp only [Folders.path_concat, hrefOf_append]
  · intro href size
    rw [List.mem_append, List.mem_singleton, file_mem_childrenOf told]
    simp only [reduceCtorEq, false_or, hrefOf_append]

/-- The root of a bucket is told as the folder that everything lies in. -/
theorem propfind_root : ∃ entries,
    propfind b depthOne (.listObjects bucket []) s = (.ok entries, s) ∧
      Level bucket live [] entries := by
  -- The root of the bucket is told with its children.
  obtain ⟨entries, appended, level⟩ := @appendChildren_level S b s bucket live [] keeps
  refine ⟨entries, ?_, level⟩
  obtain ⟨items, listed, _⟩ := keeps.list ""
  have href : hrefOf bucket (Folders.path '/' []) = '/' :: bucket ++ ['/'] := by
    simp [hrefOf, hrefEncode, Percent.spell, textBytes]
  rw [href] at appended
  simp only [propfind, ne_eq, not_true_eq_false, if_false, listed]
  rw [if_pos (of_decide_eq_true depthOne_deep)]
  exact appended

omit keeps in
/-- The slash at the end of a path of folders is dropped and put back. -/
theorem rdropWhile_path (names : ∀ d ∈ ds, Folders.Name '/' d) (some_ : ds ≠ []) :
    (Folders.path '/' ds).rdropWhile (· == '/') ++ ['/'] = Folders.path '/' ds := by
  -- The path ends with a name and one slash.
  obtain ⟨front, d, rfl⟩ := (List.eq_nil_or_concat' ds).resolve_left some_
  have name := names d (List.mem_append_right _ List.mem_cons_self)
  obtain ⟨start, c, rfl⟩ := (List.eq_nil_or_concat' d).resolve_left name.1
  -- The last character of a name is no slash, so one slash is dropped.
  have other : ¬(c == '/') = true := by
    rw [beq_iff_eq]
    rintro rfl
    exact name.2 (List.mem_append_right _ List.mem_cons_self)
  have parts : Folders.path '/' (front ++ [start ++ [c]]) = Folders.path '/' front ++ start ++
      [c] ++ ['/'] := by
    rw [Folders.path_concat]
    simp only [List.append_assoc]
  rw [parts, List.rdropWhile_concat_pos _ _ _ (by decide),
    List.rdropWhile_concat_neg (fun x => x == '/') _ _ other]

/--
A folder is told as the file of its path where that is a live key, and as one level
of it where it is not.

Nothing is told of a folder in which no live key lies.
-/
theorem propfind_folder (names : ∀ d ∈ ds, Folders.Name '/' d) (some_ : ds ≠ []) :
    (∃ body, live (Folders.path '/' ds) = some body ∧
      propfind b depthOne (.object bucket (Folders.path '/' ds)) s =
        (.ok [.file (hrefOf bucket (Folders.path '/' ds)) (UInt64.ofNat body.length)], s)) ∨
    (live (Folders.path '/' ds) = none ∧ ∃ entries,
      propfind b depthOne (.object bucket (Folders.path '/' ds)) s = (.ok entries, s) ∧
        Level bucket live ds entries) ∨
    ((∀ key, (live key).isSome → ¬Folders.path '/' ds <+: key) ∧
      ∃ e, propfind b depthOne (.object bucket (Folders.path '/' ds)) s = (.error e, s)) := by
  -- What is told depends on what the listing has below the path.
  obtain ⟨items, listed, told⟩ := keeps.list (String.ofList (Folders.path '/' ds))
  rw [String.toList_ofList] at told
  have last : (Folders.path '/' ds).getLast? = some '/' := Folders.getLast?_path some_
  have href :
    '/' :: bucket ++ '/' :: hrefEncode ((Folders.path '/' ds).rdropWhile (· == '/')) ++ ['/'] =
      hrefOf bucket (Folders.path '/' ds) := by
    conv_rhs => rw [← rdropWhile_path names some_]
    simp [hrefOf, hrefEncode_append]
  simp only [propfind, objectOrCollection, listed, if_pos last, href]
  rw [depthOne_deep]
  cases found : items.find? fun o => o.key.toList == Folders.path '/' ds && !o.tombstone with
  | some o =>
    -- The key is there, and it is live.
    left
    have matching := List.find?_some found
    simp only [Bool.and_eq_true, beq_iff_eq, Bool.not_eq_true'] at matching
    obtain ⟨key, size, tombstone⟩ := o
    obtain ⟨is, rfl⟩ := matching
    obtain ⟨_, body, held, rfl⟩ := (told key size).mp (List.mem_of_find?_eq_some found)
    exact ⟨body, by rw [← is, held], by rw [hrefOf, ← is]⟩
  | none =>
    right
    have absent : live (Folders.path '/' ds) = none := by
      cases held : live (Folders.path '/' ds) with
      | none => rfl
      | some body =>
        have member := (told (String.ofList (Folders.path '/' ds)) (UInt64.ofNat body.length)).mpr
          (by simp [held])
        have not_ := List.find?_eq_none.mp found _ member
        simp at not_
    dsimp only
    split
    · rename_i children
      left
      obtain ⟨entries, appended, level⟩ := @appendChildren_level S b s bucket live ds keeps
      exact ⟨absent, entries, by rw [if_pos rfl]; exact appended, level⟩
    · rename_i none_
      right
      refine ⟨?_, _, rfl⟩
      -- A live key that lies there would be among the items.
      intro key held under
      obtain ⟨body, held⟩ := Option.isSome_iff_exists.mp held
      apply none_
      rw [List.any_eq_true]
      refine ⟨⟨String.ofList key, UInt64.ofNat body.length, false⟩,
        (told _ _).mpr (by simp [under, held]), ?_⟩
      simpa using under

/-- What is told of a path of folders, of the root too. -/
theorem propfind_path (named : bucket ≠ [] ∧ '/' ∉ bucket) (names : ∀ d ∈ ds, Folders.Name '/' d) :
    (∃ body, ds ≠ [] ∧ live (Folders.path '/' ds) = some body ∧
      propfind b depthOne (S3.route ('/' :: bucket ++ '/' :: Folders.path '/' ds) []) s =
        (.ok [.file (hrefOf bucket (Folders.path '/' ds)) (UInt64.ofNat body.length)], s)) ∨
    ((ds ≠ [] → live (Folders.path '/' ds) = none) ∧ ∃ entries,
      propfind b depthOne (S3.route ('/' :: bucket ++ '/' :: Folders.path '/' ds) []) s =
        (.ok entries, s) ∧ Level bucket live ds entries) ∨
    ((∀ key, (live key).isSome → ¬Folders.path '/' ds <+: key) ∧ ∃ e,
      propfind b depthOne (S3.route ('/' :: bucket ++ '/' :: Folders.path '/' ds) []) s =
        (.error e, s)) := by
  -- The path names the root, or a folder that may itself be a key.
  rw [route_path named]
  by_cases root : ds = []
  · subst root
    obtain ⟨entries, told, level⟩ := propfind_root keeps
    exact .inr (.inl ⟨fun impossible => absurd rfl impossible, entries, by simpa using told, level⟩)
  · rw [if_neg (Folders.path_ne_nil root)]
    rcases propfind_folder keeps names root with ⟨body, held, told⟩ |
      ⟨absent, entries, told, level⟩ | ⟨none_, e, told⟩
    · exact .inl ⟨body, root, held, told⟩
    · exact .inr (.inl ⟨fun _ => absent, entries, told, level⟩)
    · exact .inr (.inr ⟨none_, e, told⟩)

end

/-- Folders with no live key on the way to them. -/
def Open (live : List Char → Option Bytes) (ds : List (List Char)) : Prop :=
  ∀ es, es <+: ds → es ≠ [] → es ≠ ds → live (Folders.path '/' es) = none

section

variable {S : Type} {b : Buckets S} {s : S} {bucket : List Char} {live : List Char → Option Bytes}
  {ds : List (List Char)} {d key rest : List Char} {entries : List DavEntry}

/-- The root is always open. -/
theorem open_nil : Open live [] := by
  intro es front some_ _
  exact absurd (List.prefix_nil.mp front) some_

/-- The way to a folder goes on into it where it is no live key itself. -/
theorem open_concat :
    Open live (ds ++ [d]) ↔ Open live ds ∧ (ds ≠ [] → live (Folders.path '/' ds) = none) := by
  -- Only the last of the folders is new among those that may not be keys.
  constructor
  · intro open_
    refine ⟨fun es front some_ other => open_ es (front.trans (List.prefix_append _ _)) some_ ?_,
      fun some_ => ?_⟩
    · rintro rfl
      have long := front.length_le
      simp at long
    · exact open_ ds (List.prefix_append _ _) some_ (by simp)
  · rintro ⟨open_, closed⟩ es front some_ other
    rcases List.prefix_concat_iff.mp front with rfl | front
    · exact absurd rfl other
    · by_cases same : es = ds
      · subst same
        exact closed some_
      · exact open_ es front some_ same

/--
What lies right inside a folder can be seen exactly where the way to the folder goes on into it.
-/
theorem visible_leaf_iff (names : ∀ d ∈ ds, Folders.Name '/' d) (leaf : Folders.Leaf '/' rest)
    (some_ : rest ≠ []) :
    Visible live (Folders.path '/' ds ++ rest) ↔ Open live ds ∧
      (ds ≠ [] → live (Folders.path '/' ds) = none) := by
  -- What is in front of the key is its folders, and no path of more than them.
  constructor
  · intro visible
    -- A live folder on the way would have to be the key itself, which goes on behind it.
    have absent (es : List (List Char)) (front : es <+: ds) (filled : es ≠ []) :
        live (Folders.path '/' es) = none := by
      cases held : live (Folders.path '/' es) with
      | none => rfl
      | some body =>
        have names' : ∀ d ∈ es, Folders.Name '/' d := fun d member => names d (front.subset member)
        have is :=
          visible es names' filled (by simp [held])
          ((Folders.path_prefix_iff names' names leaf).mpr front)
        obtain ⟨more, rfl⟩ := front
        rw [Folders.path_append, List.append_assoc, List.append_right_eq_self,
          List.append_eq_nil_iff] at is
        exact absurd is.2 some_
    exact ⟨fun es front filled _ => absent es front filled,
      fun filled => absent ds (List.prefix_rfl) filled⟩
  · rintro ⟨open_, closed⟩ es names' filled held front
    have front := (Folders.path_prefix_iff names' names leaf).mp front
    by_cases same : es = ds
    · subst same
      rw [closed filled] at held
      cases held
    · rw [open_ es front filled same] at held
      cases held

/-- A path of folders can be seen exactly where the way to it is open. -/
theorem visible_path_iff (names : ∀ d ∈ ds, Folders.Name '/' d) :
    Visible live (Folders.path '/' ds) ↔ Open live ds := by
  -- A path in front of another goes through a front of its folders.
  have whole : Folders.path '/' ds = Folders.path '/' ds ++ [] := (List.append_nil _).symm
  constructor
  · intro visible es front filled other
    cases held : live (Folders.path '/' es) with
    | none => rfl
    | some body =>
      have names' : ∀ d ∈ es, Folders.Name '/' d := fun d member => names d (front.subset member)
      have before : Folders.path '/' es <+: Folders.path '/' ds := by
        rw [whole]
        exact (Folders.path_prefix_iff names' names Folders.leaf_nil).mpr front
      have is := visible es names' filled (by simp [held]) before
      exact absurd (Folders.path_inj names names' is).symm other
  · intro open_ es names' filled held front
    rw [whole] at front
    have front := (Folders.path_prefix_iff names' names Folders.leaf_nil).mp front
    by_cases same : es = ds
    · rw [same]
    · rw [open_ es front filled same] at held
      cases held

/-- What can be found in a bucket: folders that can be reached, and files that can be seen. -/
def Placed (bucket : List Char) (live : List Char → Option Bytes) : DavEntry → Prop
  | .collection href => ∃ ds, (∀ d ∈ ds, Folders.Name '/' d) ∧
    href = hrefOf bucket (Folders.path '/' ds) ∧ Open live ds
  | .file href size => ∃ key body, live key = some body ∧ size = UInt64.ofNat body.length ∧
    href = hrefOf bucket key ∧
      Visible live key

/-- Whatever one level of a folder tells can be found, where the way goes on into the folder. -/
theorem Level.placed (level : Level bucket live ds entries) (names : ∀ d ∈ ds, Folders.Name '/' d)
    (open_ : Open live ds) (closed : ds ≠ [] → live (Folders.path '/' ds) = none) :
    ∀ entry ∈ entries, Placed bucket live entry := by
  -- An entry is a collection or a file of the level.
  intro entry member
  cases entry with
  | collection href =>
    rcases (level.collections href).mp member with rfl | ⟨d, name, _, rfl⟩
    · exact ⟨ds, names, rfl, open_⟩
    · refine ⟨ds ++ [d], ?_, rfl, open_concat.mpr ⟨open_, closed⟩⟩
      intro x inside
      rcases List.mem_append.mp inside with inside | inside
      · exact names x inside
      · rwa [List.mem_singleton.mp inside]
  | file href size =>
    obtain ⟨rest, leaf, some_, ⟨body, held, sized⟩, rfl⟩ := (level.files href size).mp member
    exact ⟨_, body, held, sized, rfl, (visible_leaf_iff names leaf some_).mpr ⟨open_, closed⟩⟩

section

variable (keeps : Keeps b s bucket live) (named : bucket ≠ [] ∧ '/' ∉ bucket)
    (stands : Stands bucket)
include keeps named stands

omit keeps named in
/-- Following a collection of folders is asking for its path. -/
theorem follow_told {href : List Char} {r : HttpRequest}
    (is : href = hrefOf bucket (Folders.path '/' ds))
    (request : asked "PROPFIND".toList href depthOne = some r) :
    propfind b r.headers (S3.route r.path r.query) s =
      propfind b depthOne (S3.route ('/' :: bucket ++ '/' :: Folders.path '/' ds) []) s := by
  rw [is, asked_hrefOf stands (by decide) (by decide)] at request
  obtain rfl := Option.some.inj request
  rfl

omit keeps named in
/-- What is told of a path of folders that is found is found as well. -/
theorem Found.into (found : Found b s bucket (.collection (hrefOf bucket (Folders.path '/' ds))))
    {s' : S} (told : propfind b depthOne (S3.route ('/' :: bucket ++ '/' :: Folders.path '/' ds) [])
      s = (.ok entries, s'))
    {entry : DavEntry} (member : entry ∈ entries) : Found b s bucket entry := by
  have request : asked "PROPFIND".toList (hrefOf bucket (Folders.path '/' ds)) depthOne =
      some ⟨"PROPFIND".toList, '/' :: bucket ++ '/' :: Folders.path '/' ds, [], depthOne, []⟩ :=
    asked_hrefOf stands (by decide) (by decide) _
  exact .follow found request told member

/-- Nothing is found but what can be. -/
theorem Found.placed {entry : DavEntry} (found : Found b s bucket entry) :
    Placed bucket live entry := by
  -- Induction over how the entry was found: every place that is asked tells its own level.
  induction found with
  | root told member =>
    obtain ⟨entries, told', level⟩ := propfind_root keeps
    obtain rfl := told_inj (told.symm.trans told')
    exact level.placed (by simp) open_nil (fun impossible => absurd rfl impossible) _ member
  | follow _ request told member ih =>
    obtain ⟨ds, names, is, open_⟩ := ih
    rw [follow_told stands is request] at told
    rcases propfind_path keeps named names with ⟨body, _, held, told'⟩ |
      ⟨closed, entries, told', level⟩ | ⟨_, e, told'⟩
    · -- A folder that is a live key is told as a file.
      obtain rfl := told_inj (told.symm.trans told')
      obtain rfl := List.mem_singleton.mp member
      exact ⟨_, body, held, rfl, rfl, (visible_path_iff names).mpr open_⟩
    · obtain rfl := told_inj (told.symm.trans told')
      exact level.placed names open_ closed _ member
    · cases (Prod.mk.inj (told.symm.trans told')).1

/-- A folder in which a live key lies is found, where the way to it is open. -/
theorem found_folder (names : ∀ d ∈ ds, Folders.Name '/' d) (open_ : Open live ds)
    (held : (live key).isSome) (under : Folders.path '/' ds <+: key) :
    Found b s bucket (.collection (hrefOf bucket (Folders.path '/' ds))) := by
  -- Induction over the folders from the outside in.
  induction ds using List.reverseRecOn with
  | nil =>
    obtain ⟨entries, told, level⟩ := propfind_root keeps
    exact .root told ((level.collections _).mpr (.inl rfl))
  | append_singleton ds d ih =>
    obtain ⟨before, closed⟩ := open_concat.mp open_
    have names' : ∀ d ∈ ds, Folders.Name '/' d :=
      fun x inside => names x (List.mem_append_left _ inside)
    obtain ⟨more, rfl⟩ := under
    rw [Folders.path_concat, List.append_assoc] at held
    have parent :=
      ih names' before ⟨d ++ ['/'] ++ more, by rw [Folders.path_concat, ← List.append_assoc]⟩
    -- The folder around it is not a live key, so it is told with what lies in it.
    rcases propfind_path keeps named names' with ⟨body, some_, is, _⟩ |
      ⟨_, entries, told, level⟩ | ⟨none_, _⟩
    · rw [closed some_] at is
      cases is
    · refine parent.into stands told ((level.collections _).mpr (.inr ⟨d, ?_, ⟨more, ?_⟩, rfl⟩))
      · exact names d (List.mem_append_right _ List.mem_cons_self)
      · simpa using held
    · exact absurd (List.prefix_append _ _) (none_ _ held)

/-- The files that are found are those of the live keys that can be seen. -/
theorem found_file_iff (filled : live [] = none) {href : List Char} {size : UInt64} :
    Found b s bucket (.file href size) ↔ ∃ key body, live key = some body ∧
      size = UInt64.ofNat body.length ∧
      href = hrefOf bucket key ∧ Visible live key := by
  -- A file is told where its folders lead, and they lead there if none of them is a key.
  refine ⟨fun found => found.placed keeps named stands, ?_⟩
  rintro ⟨key, body, held, rfl, rfl, visible⟩
  obtain ⟨ds, rest, names, leaf, rfl⟩ := @Folders.exists_path _ '/' key
  have some_ : (live (Folders.path '/' ds ++ rest)).isSome := by rw [held, Option.isSome_some]
  by_cases last : rest = []
  · -- The key is the path of folders, which are told as a file.
    subst last
    rw [List.append_nil] at held visible some_ ⊢
    have folder := found_folder keeps named stands names ((visible_path_iff names).mp visible) some_
      (List.prefix_rfl)
    rcases propfind_path keeps named names with ⟨body', _, held', told⟩ | ⟨closed, _⟩ | ⟨none_, _⟩
    · obtain rfl := Option.some.inj (held'.symm.trans held)
      exact folder.into stands told List.mem_cons_self
    · have root : ds ≠ [] := by
        rintro rfl
        rw [Folders.path_nil, filled] at held
        cases held
      rw [closed root] at held
      cases held
    · exact absurd (List.prefix_rfl) (none_ _ some_)
  · -- The key lies right inside its folders, which are told with what lies in them.
    obtain ⟨open_, closed⟩ := (visible_leaf_iff names leaf last).mp visible
    have folder := found_folder keeps named stands names open_ some_ (List.prefix_append _ _)
    rcases propfind_path keeps named names with ⟨_, root, is, _⟩ |
      ⟨_, entries, told, level⟩ | ⟨none_, _⟩
    · rw [closed root] at is
      cases is
    · exact folder.into stands told ((level.files _ _).mpr ⟨rest, leaf, last,
        ⟨body, held, rfl⟩, rfl⟩)
    · exact absurd (List.prefix_append _ _) (none_ _ some_)

/-- A GET of the href of a key reads that key. -/
theorem reads_hrefOf_iff {other : List Char} (some_ : other ≠ []) :
    Reads b s bucket live (hrefOf bucket other) key ↔ key = other ∧ (live key).isSome := by
  -- The href is asked for as the key it spells, and the key is read if it is live.
  have request : asked "GET".toList (hrefOf bucket other) ∅ =
      some ⟨"GET".toList, '/' :: bucket ++ '/' :: other, [], ∅, []⟩ :=
        asked_hrefOf stands (by decide) (by decide) other
  have route : S3.route ('/' :: bucket ++ '/' :: other) [] = .object bucket other := by
    rw [route_path named, if_neg some_]
  constructor
  · rintro ⟨r, body, is, routed, held, _⟩
    obtain rfl := Option.some.inj (request.symm.trans is)
    rw [route, Route.object.injEq] at routed
    exact ⟨routed.2.symm, by rw [held, Option.isSome_some]⟩
  · rintro ⟨rfl, held⟩
    obtain ⟨body, held⟩ := Option.isSome_iff_exists.mp held
    refine ⟨_, body, request, route, held, ?_⟩
    have get := keeps.get key body held
    have upper : ("GET".toList).map Char.toUpper = "GET".toList := by decide
    have noRange : (∅ : Headers)["range".toList]? = none := Std.ExtTreeMap.getElem?_empty
    unfold dispatch
    dsimp only
    rw [upper, if_neg (by decide), if_neg (by decide), if_pos rfl, route]
    dsimp only
    rw [noRange]
    unfold S3.writeObjectGet S3.answer
    dsimp only
    generalize b.get (String.ofList bucket) (String.ofList key) s = answer at get ⊢
    obtain ⟨result, s'⟩ := answer
    obtain rfl : result = .ok body := get
    rfl

/--
Where the name of the bucket stands for itself, everything is shown exactly when no
live key hides another.
-/
theorem showsAll_iff_unhidden (filled : live [] = none) :
    ShowsAll b s bucket live ↔ Unhidden live := by
  -- A key is found exactly if it is visible, and what is found reads as its key.
  have nonempty {key : List Char} {body : Bytes} (held : live key = some body) : key ≠ [] := by
    rintro rfl
    rw [filled] at held
    cases held
  constructor
  · intro shows key some_
    obtain ⟨body, held⟩ := Option.isSome_iff_exists.mp some_
    obtain ⟨href, found, reads⟩ := shows.all key body held
    obtain ⟨other, body', held', _, rfl, visible⟩ :=
      (found_file_iff keeps named stands filled).mp found
    obtain ⟨rfl, _⟩ := (reads_hrefOf_iff keeps named stands (nonempty held')).mp reads
    exact visible
  · intro unhidden
    constructor
    · intro key body held
      have some_ : (live key).isSome := by rw [held, Option.isSome_some]
      refine ⟨hrefOf bucket key, ?_, ?_⟩
      · exact (found_file_iff keeps named stands filled).mpr ⟨key, body, held, rfl, rfl,
          unhidden key some_⟩
      · exact (reads_hrefOf_iff keeps named stands (nonempty held)).mpr ⟨rfl, some_⟩
    · intro href size found
      obtain ⟨key, body, held, _, rfl, _⟩ := (found_file_iff keeps named stands filled).mp found
      exact ⟨key, (reads_hrefOf_iff keeps named stands (nonempty held)).mpr
        ⟨rfl, by rw [held, Option.isSome_some]⟩⟩

end

end

section

variable {S : Type} {b : Buckets S} {s : S} {bucket : List Char} {live : List Char → Option Bytes}

/-- An href of the bucket for a text that is no longer than some live key. -/
def Short (bucket : List Char) (live : List Char → Option Bytes) : DavEntry → Prop
  | .collection _ => True
  | .file href _ => ∃ text key, href = hrefOf bucket text ∧ (live key).isSome ∧
    narrow text ≤ narrow key

/-- A collection alone tells of no file. -/
theorem short_collection (href : List Char) :
    ∀ entry ∈ [DavEntry.collection href], Short bucket live entry := by
  intro entry member
  obtain rfl := List.mem_singleton.mp member
  trivial

variable (keeps : Keeps b s bucket live)
include keeps

/-- What lies right behind a prefix is short where its hrefs are no longer than the prefix. -/
theorem appendChildren_short {pref base : List Char} {out entries : List DavEntry} {s' : S}
    (narrower : narrow base ≤ narrow pref) (before : ∀ entry ∈ out, Short bucket live entry)
    (told : appendChildren b bucket pref (hrefOf bucket base) out s = (.ok entries, s')) :
    ∀ entry ∈ entries, Short bucket live entry := by
  -- What is told is no narrower than the listed key it is for.
  obtain ⟨items, listed, known⟩ := keeps.list (String.ofList pref)
  rw [String.toList_ofList] at known
  rw [appendChildren, listed] at told
  obtain rfl := told_inj told
  intro entry member
  rcases List.mem_append.mp member with member | member
  · exact before entry member
  · cases entry with
    | collection href => trivial
    | file href size =>
      obtain ⟨rest, _, _, ⟨body, held, _⟩, rfl⟩ := (file_mem_childrenOf known).mp member
      refine ⟨base ++ rest, pref ++ rest,
        (hrefOf_append _ _).symm, by rw [held, Option.isSome_some], ?_⟩
      rw [narrow_append, narrow_append]
      omega

omit keeps in
/--
Slashes are dropped from a key and one is put back, and the prefix of its children ends with one.
-/
theorem narrow_rdropWhile_le (key : List Char) : narrow (key.rdropWhile (· == '/') ++ ['/']) ≤
    narrow (if key.getLast? = some '/' then key else key ++ ['/']) := by
  -- The separators that are dropped do not count, and one is put back.
  split
  · rename_i last
    obtain ⟨start, c, rfl⟩ : ∃ start c, key = start ++ [c] := by
      refine (List.eq_nil_or_concat' key).resolve_left ?_
      rintro rfl
      cases last
    rw [List.getLast?_concat, Option.some.injEq] at last
    subst last
    obtain ⟨more, is⟩ := List.rdropWhile_prefix (· == '/') start
    have parts := congrArg narrow is
    rw [narrow_append] at parts
    rw [List.rdropWhile_concat_pos _ _ _ (by decide), narrow_append, narrow_append]
    omega
  · obtain ⟨more, is⟩ := List.rdropWhile_prefix (· == '/') key
    have parts := congrArg narrow is
    rw [narrow_append] at parts
    rw [narrow_append, narrow_append]
    omega

/-- Whatever is told of a key is short. -/
theorem objectOrCollection_short {key : List Char} {deep : Bool} {entries : List DavEntry} {s' : S}
    (told : objectOrCollection b bucket key deep s = (.ok entries, s')) : ∀ entry ∈ entries,
      Short bucket live entry := by
  -- The key is told as a file or with the children of its folder.
  obtain ⟨items, listed, known⟩ := keeps.list (String.ofList key)
  have base : '/' :: bucket ++ '/' :: hrefEncode (key.rdropWhile (· == '/')) ++ ['/'] =
      hrefOf bucket (key.rdropWhile (· == '/') ++ ['/']) := by
    simp [hrefOf, hrefEncode_append]
  have narrower := narrow_rdropWhile_le key
  rw [objectOrCollection, listed] at told
  dsimp only at told
  rw [base] at told
  generalize (if key.getLast? = some '/' then key else key ++ ['/']) = childPrefix at told narrower
  split at told
  · -- The href of the key itself.
    rename_i o found
    obtain rfl := told_inj told
    have here := List.find?_some found
    simp only [Bool.and_eq_true, beq_iff_eq, Bool.not_eq_true'] at here
    obtain ⟨name, size, tombstone⟩ := o
    obtain ⟨_, rfl⟩ := here
    obtain ⟨_, body, held, _⟩ := (known name size).mp (List.mem_of_find?_eq_some found)
    intro entry member
    obtain rfl := List.mem_singleton.mp member
    exact ⟨name.toList, name.toList, rfl, by rw [held, Option.isSome_some], Nat.le_refl _⟩
  · split at told
    · split at told
      · exact appendChildren_short keeps narrower (short_collection _) told
      · obtain rfl := told_inj told
        exact short_collection _
    · cases (Prod.mk.inj told).1

/-- Whatever is told is short where there is no other bucket. -/
theorem propfind_short (alone : Alone b s bucket) {headers : Headers} {route : Route}
    {entries : List DavEntry} {s' : S} (told : propfind b headers route s = (.ok entries, s')) :
    ∀ entry ∈ entries, Short bucket live entry := by
  -- Only the one bucket can be listed, so what is told is about its keys.
  have only {other : List Char} {pref : String}
    (listed : ∃ items s', b.list (String.ofList other) pref s = (.ok items, s')) :
      other = bucket := by
    by_contra different
    obtain ⟨items, s', listed⟩ := listed
    obtain ⟨e, s'', failed⟩ := alone other different pref
    cases (Prod.mk.inj (listed.symm.trans failed)).1
  have object {other key : List Char} {deep : Bool}
    (told : objectOrCollection b other key deep s = (.ok entries, s')) :
      ∀ entry ∈ entries, Short bucket live entry := by
    have same : other = bucket := by
      apply only
      unfold objectOrCollection at told
      split at told
      · cases (Prod.mk.inj told).1
      · rename_i items s'' listed
        exact ⟨items, s'', listed⟩
    subst same
    exact objectOrCollection_short keeps told
  unfold propfind at told
  dsimp only at told
  split at told
  · -- Every bucket is told as a collection.
    split at told
    · split at told
      · cases (Prod.mk.inj told).1
      · obtain rfl := told_inj told
        intro entry member
        rcases List.mem_cons.mp member with rfl | member
        · trivial
        · obtain ⟨name, _, rfl⟩ := List.mem_map.mp member
          trivial
    · obtain rfl := told_inj told
      exact short_collection _
  · rename_i other pref
    split at told
    · exact object told
    · split at told
      · cases (Prod.mk.inj told).1
      · rename_i items s'' listed
        obtain rfl := only ⟨items, s'', listed⟩
        obtain ⟨items', listed', _⟩ := keeps.list ""
        obtain ⟨-, rfl⟩ := Prod.mk.inj (listed.symm.trans listed')
        have href : '/' :: other ++ ['/'] = hrefOf other [] := by
          simp [hrefOf, hrefEncode, Percent.spell, textBytes]
        rw [href] at told
        split at told
        · exact appendChildren_short keeps (Nat.le_refl _) (short_collection _) told
        · obtain rfl := told_inj told
          exact short_collection _
  · exact object told

/-- Whatever is found is short where there is no other bucket. -/
theorem Found.short (alone : Alone b s bucket) {entry : DavEntry} (found : Found b s bucket entry) :
    Short bucket live entry := by
  cases found with
  | root told member => exact propfind_short keeps alone told _ member
  | follow _ _ told member => exact propfind_short keeps alone told _ member

/--
A bucket whose name does not stand for itself shows no key that is as long as any
other, where it is alone.
-/
theorem not_showsAll_of_not_stands (alone : Alone b s bucket) (fails : ¬Stands bucket)
    {key : List Char} (held : (live key).isSome) : ¬ShowsAll b s bucket live := by
  -- Suppose everything was shown.
  intro shows
  -- There is a longest live key, since all of them are listed.
  obtain ⟨items, _, known⟩ := keeps.list ""
  have listed (key : List Char) (held : (live key).isSome) :
      key ∈ (items.map fun o => o.key.toList).toFinset.filter fun key => (live key).isSome := by
    obtain ⟨body, is⟩ := Option.isSome_iff_exists.mp held
    have member := (known (String.ofList key) (UInt64.ofNat body.length)).mpr (by simp [is])
    rw [Finset.mem_filter, List.mem_toFinset]
    exact ⟨List.mem_map.mpr ⟨_, member, String.toList_ofList⟩, held⟩
  obtain ⟨longest, among, most⟩ := Finset.exists_max_image _ narrow ⟨key, listed key held⟩
  have held' := (Finset.mem_filter.mp among).2
  obtain ⟨body, held'⟩ := Option.isSome_iff_exists.mp held'
  obtain ⟨href, found, r, _, request, routed, _⟩ := shows.all longest body held'
  -- It is read from the href of something longer, which no live key is as long as.
  obtain ⟨text, other, rfl, some_, le⟩ := found.short keeps alone
  have less := narrow_lt_of_not_stands fails request routed
  have bound := most other (listed other some_)
  omega

end

/--
Everything live in a bucket is shown exactly when no live key is the path of folders
in front of another one.

The name of the bucket has to stand for itself in a target, too, unless nothing is live; other
buckets are left out of account only where it does not.
-/
theorem tree_shows_every_key_iff {S : Type} (b : Buckets S) (s : S) (bucket : List Char)
    (live : List Char → Option Bytes) (keeps : Keeps b s bucket live)
    (named : bucket ≠ [] ∧ '/' ∉ bucket) (filled : live [] = none)
    (clear : Stands bucket ∨ Alone b s bucket) :
    ShowsAll b s bucket live ↔ (Stands bucket ∧ Unhidden live) ∨ ∀ key, live key = none := by
  -- With a bucket that stands, keys are shown unless one hides another; otherwise hrefs are cut
  -- short.
  by_cases stands : Stands bucket
  · rw [showsAll_iff_unhidden keeps named stands filled]
    constructor
    · exact fun unhidden => .inl ⟨stands, unhidden⟩
    · rintro (⟨_, unhidden⟩ | none_)
      · exact unhidden
      · intro key held
        rw [none_ key] at held
        cases held
  · have alone := clear.resolve_left stands
    constructor
    · intro shows
      right
      intro key
      by_contra held
      exact not_showsAll_of_not_stands keeps alone stands (Option.isSome_iff_ne_none.mpr held) shows
    · rintro (⟨impossible, _⟩ | none_)
      · exact absurd impossible stands
      · refine ⟨fun key body held => ?_, fun href size found => ?_⟩
        · rw [none_ key] at held
          cases held
        · -- A file would be no longer than some live key, and there is none.
          obtain ⟨_, key, _, held, _⟩ := found.short keeps alone
          rw [none_ key] at held
          cases held

end Dav

open Dav

section

variable [Crypto] [Cipher] [GearTable]

omit [Crypto] [Cipher] [GearTable] in
/-- One text starts with another if its bytes do. -/
theorem utf8_prefix_iff {a b : String} : utf8 a <+: utf8 b ↔ a.toList <+: b.toList := by
  rw [utf8_eq_textBytes, utf8_eq_textBytes, textBytes_prefix_iff]

/-- The bytes of every live key of a namespace, as its successful writes leave them. -/
def Served.live (s : Served) (key : List Char) : Option Bytes :=
  ((Shelf.ofLog s.log).get (String.ofList key)).toOption

/--
The local gateway keeps the map of its successful writes, where nothing fails that a read needs.
-/
theorem localBuckets_keeps {s : Served} (serves : s.Serves) {w : FaceWorld} (healthy : w.Healthy)
    (sees : s.SeesHead w) :
    Keeps (localBuckets w) s s.face.site.name.toList s.live := by
  -- On a healthy disk the shelf of the log answers every list and every read.
  have there : s.exists_ (String.ofList s.face.site.name.toList) = .ok () := by
    rw [String.ofList_toList, Served.exists_, ensure_of rfl]
  constructor
  · intro pref
    obtain ⟨items, listed, alive⟩ : ∃ items, s.face.list w pref = .ok items ∧
        items.filter (fun info => ¬info.tombstone) = (Shelf.ofLog s.log).list pref := by
      rcases serves.list w sees pref with right | ⟨sick, _⟩
      · exact except_map_eq_ok.mp right
      · exact absurd healthy sick
    refine ⟨items, ?_, ?_⟩
    · show onBucket _ _ s = _
      rw [onBucket, there, listed]
    · intro key size
      have among : ⟨key, size, false⟩ ∈ items ↔
          ⟨key, size, false⟩ ∈ (Shelf.ofLog s.log).list pref := by
        rw [← alive, List.mem_filter]
        simp
      rw [among, Shelf.list, List.mem_map, ← utf8_prefix_iff]
      constructor
      · rintro ⟨⟨_, name, body⟩, member, is⟩
        obtain ⟨member, front⟩ := List.mem_filter.mp member
        have held := Std.ExtTreeMap.mem_toList_iff_getElem?_eq_some.mp member
        obtain rfl := Shelf.name_of_ofLog held
        obtain ⟨rfl, rfl, -⟩ := ObjectInfo.mk.inj is
        refine ⟨List.isPrefixOf_iff_prefix.mp front, body, ?_, rfl⟩
        rw [Served.live, String.ofList_toList, Shelf.get, held]
        rfl
      · rintro ⟨front, body, held, rfl⟩
        rw [Served.live, String.ofList_toList, except_toOption_eq_some, Shelf.get, okOr_eq_ok,
          Option.map_eq_some_iff] at held
        obtain ⟨⟨name, _⟩, held, rfl⟩ := held
        obtain rfl := utf8_inj.mp (Shelf.name_of_ofLog held)
        refine ⟨_, List.mem_filter.mpr ⟨Std.ExtTreeMap.mem_toList_iff_getElem?_eq_some.mpr held,
          ?_⟩, rfl⟩
        exact List.isPrefixOf_iff_prefix.mpr front
  · intro key body held
    rw [Served.live, except_toOption_eq_some] at held
    have answered : (s.face.get w (String.ofList key)).1 = .ok body := by
      rcases serves.get w sees (String.ofList key) with right | ⟨sick, _⟩
      · rw [right, held]
      · exact absurd healthy sick
    show (onBucket _ _ s).1 = _
    rw [onBucket, there, answered]

/-- The local gateway has the bucket of its namespace only. -/
theorem localBuckets_alone (s : Served) (w : FaceWorld) :
    Alone (localBuckets w) s s.face.site.name.toList := by
  -- No other bucket is there.
  intro other different pref
  have missing : s.exists_ (String.ofList other) = .error (.notFound (String.ofList other)) := by
    rw [Served.exists_, ensure_of_not]
    intro same
    apply different
    rw [← same, String.toList_ofList]
  refine ⟨.notFound (String.ofList other), s, ?_⟩
  show onBucket _ _ s = _
  rw [onBucket, missing]

end

section

open Concrete

/--
Keys in folders, below a folder without a name, with letters that a target has to escape,
and one that is deleted.
-/
def filedPuts : List (FaceCall × FaceWorld) :=
  [(.put "docs/old/plan" (oneByte 1), calmFace), (.put "docs" (oneByte 2), calmFace),
    (.put "a//x" (oneByte 3), calmFace), (.put "é%/d e?" (oneByte 4), calmFace),
    (.put "docs/b" (oneByte 5), calmFace), (.delete "docs/b", calmFace)]

/-- The namespace with those keys. -/
def filedHome : Served := faceMachine.run homeFace filedPuts

/-- The blobs that are stored for them. -/
def filedBlobs : List Bytes :=
  filedHome.face.site.device.blobs.files.toList.map fun file => file.2.content

/-- What is put and deleted there, in order. -/
def filedLog : List (String × Option Bytes) :=
  [("docs/old/plan", some [1]), ("docs", some [2]), ("a//x", some [3]), ("é%/d e?", some [4]),
    ("docs/b", some [5]), ("docs/b", none)]

/-- The calls all succeed, and store nothing but blobs that are told apart. -/
theorem filedPuts_permitted :
    faceMachine.Permits
      (fun s e => s.Takes {data | data ∈ filedBlobs} {data | data ∈ [[1], [2], [3], [4], [5]]}
        e.1 e.2 ∧ s.Spares e.1 e.2) homeFace filedPuts ∧
    (filedBlobs.dedup.map (Addressing.addrOf .content)).Nodup ∧ filedHome.log = filedLog ∧
      filedHome.face.site.name = "home" := by
  decide +kernel

/-- Such a namespace is shown as a whole. -/
theorem filed_keys_are_shown :
    ShowsAll (localBuckets calmFace) filedHome "home".toList filedHome.live := by
  -- The hypotheses of the theorem are those of the run, which is evaluated.
  obtain ⟨permitted, apart, logged, name⟩ := filedPuts_permitted
  have serves : filedHome.Serves :=
    (sound_of_run trusted (homeFace_fresh _) (fun _ _ _ => rfl) (injOn_of_nodup apart)
    (homeFace_separates _) permitted).serves trusted
  have keeps := localBuckets_keeps serves calmFace_healthy (.inl rfl)
  have stands : Stands "home".toList := ⟨by decide, by decide, by decide, by decide⟩
  -- No key that was put is a path of folders, as none ends with a separator.
  have noPath : ∀ put ∈ filedLog, put.1.toList.getLast? ≠ some '/' := by decide
  have unnamed : filedHome.live [] = none := by
    by_contra some_
    obtain ⟨body, held⟩ := Option.ne_none_iff_exists'.mp some_
    rw [Served.live, except_toOption_eq_some, logged] at held
    have put := Shelf.mem_of_get held
    revert put
    simp [filedLog]
  rw [name] at keeps
  apply (tree_shows_every_key_iff _ _ _ _ keeps (by decide) unnamed (.inl stands)).mpr
  refine .inl ⟨stands, ?_⟩
  intro key _ folders _ some_ alive _
  obtain ⟨body, held⟩ := Option.isSome_iff_exists.mp alive
  rw [Served.live, except_toOption_eq_some, logged] at held
  have ends := noPath _ (Shelf.mem_of_get held)
  rw [String.toList_ofList, Folders.getLast?_path some_] at ends
  exact absurd rfl ends

/-- A key that is the path of a folder, and another one in that folder. -/
def markerPuts : List (FaceCall × FaceWorld) :=
  [(.put "a/" (oneByte 1), calmFace), (.put "a/x" (oneByte 2), calmFace)]

/-- The namespace with those keys. -/
def markedHome : Served := faceMachine.run homeFace markerPuts

/-- What a PROPFIND of depth 1 tells of an href there. -/
def toldAtHome (href : List Char) : Option (Except FaceError (List DavEntry)) :=
  (asked "PROPFIND".toList href depthOne).map fun r =>
    (propfind (localBuckets calmFace) r.headers (S3.route r.path r.query) markedHome).1

/-- All that is found there: the root, the folder as a collection, and the folder as a file. -/
def foundAtHome : List DavEntry :=
  [.collection "/home/".toList, .collection "/home/a/".toList, .file "/home/a/".toList 1]

/-- A key that is the path of a folder hides what lies in the folder. -/
theorem marker_hides_its_folder :
    (markedHome.live "a/".toList).isSome ∧ (markedHome.live "a/x".toList).isSome ∧
      (∀ entry, Found (localBuckets calmFace) markedHome "home".toList entry →
        entry ∈ foundAtHome) ∧
      ¬ShowsAll (localBuckets calmFace) markedHome "home".toList markedHome.live := by
  -- The two answers there are, evaluated, and closed under following.
  have root :
    (propfind (localBuckets calmFace) depthOne (.listObjects "home".toList []) markedHome).1 =
      .ok [.collection "/home/".toList, .collection "/home/a/".toList] := by decide +kernel
  have again : toldAtHome "/home/".toList =
      some (.ok [.collection "/home/".toList, .collection "/home/a/".toList]) := by
    decide +kernel
  have folder : toldAtHome "/home/a/".toList = some (.ok [.file "/home/a/".toList 1]) := by
    decide +kernel
  have closed (entry : DavEntry)
    (found : Found (localBuckets calmFace) markedHome "home".toList entry) :
      entry ∈ foundAtHome := by
    induction found with
    | root told member =>
      rw [told] at root
      obtain rfl := Except.ok.inj root
      exact List.mem_of_mem_dropLast member
    | follow _ request told member ih =>
      rename_i href r entries s' entry _
      have here : toldAtHome href = some (.ok entries) := by
        rw [toldAtHome, request, Option.map_some, told]
      -- There are two collections to follow.
      simp only [foundAtHome, List.mem_cons, DavEntry.collection.injEq, reduceCtorEq,
        List.not_mem_nil, or_false] at ih
      rcases ih with rfl | rfl
      · rw [again] at here
        obtain rfl := Except.ok.inj (Option.some.inj here)
        exact List.mem_of_mem_dropLast member
      · rw [folder] at here
        obtain rfl := Except.ok.inj (Option.some.inj here)
        exact List.mem_of_mem_drop (i := 2) member
  have live : (markedHome.live "a/x".toList).isSome := by decide +kernel
  refine ⟨by decide +kernel, live, closed, fun shows => ?_⟩
  obtain ⟨body, held⟩ := Option.isSome_iff_exists.mp live
  obtain ⟨href, found, r, _, request, routed, _⟩ := shows.all _ body held
  have among := closed _ found
  simp only [foundAtHome, List.mem_cons, DavEntry.file.injEq, reduceCtorEq, List.not_mem_nil,
    or_false, false_or] at among
  obtain ⟨rfl, _⟩ := among
  -- The one file reads the folder's own key.
  have other : ((asked "GET".toList "/home/a/".toList ∅).map fun r => S3.route r.path r.query) =
      some (.object "home".toList "a/".toList) := by decide +kernel
  rw [request, Option.map_some, routed] at other
  revert other
  decide

end

end NasTools
