import NasTools.Lib.OrderedMap

/-!
Ordered finite maps and sets after insertions and removals: what changed, and whether anything did.
-/

namespace NasTools

/-- Filing something under a key changes the map unless exactly that was filed there. -/
theorem OrdMap.insert_ne_iff {K V : Type} [Ord K] [Std.TransOrd K] [Std.LawfulEqOrd K]
    {m : OrdMap K V} {k : K} {v : V} : m.insert k v ≠ m ↔ m[k]? ≠ some v := by
  -- An insertion changes nothing exactly if the value is already there.
  refine not_congr ⟨fun same => ?_, fun held => ?_⟩
  · rw [← same]
    simp
  · apply Std.ExtTreeMap.ext_getElem?
    intro key
    rw [Std.ExtTreeMap.getElem?_insert]
    by_cases same : k = key
    · subst same
      simp [held]
    · simp [same]

namespace OrdMap

variable {K V W : Type} [Ord K] [Std.TransOrd K] [Std.LawfulEqOrd K]

/-- Entries with distinct keys, filed one after the other, are each found again. -/
theorem getElem?_fileAll {entries : List (K × W)} (distinct : entries.Pairwise fun a b => a.1 ≠ b.1)
    {start : OrdMap K W} (k : K) :
    (entries.foldl (fun m e => m.insert e.1 e.2) start)[k]? =
      ((entries.find? fun e => compare e.1 k == .eq).map Prod.snd).or start[k]? := by
  -- Induction over the entries: the first is overwritten by no later one, for the keys are
  -- distinct.
  induction entries generalizing start with
  | nil => simp
  | cons first rest ih =>
    obtain ⟨apart, later⟩ := List.pairwise_cons.mp distinct
    rw [List.foldl_cons, ih later, Std.ExtTreeMap.getElem?_insert]
    by_cases same : first.1 = k
    · -- No later entry has the key of the first.
      have none : rest.find? (fun e => compare e.1 k == .eq) = none := by
        apply List.find?_eq_none.mpr
        intro e member found
        have equal : e.1 = k := by simpa using found
        exact apart e member (same.trans equal.symm)
      simp [same, none]
    · simp [same]

/-- Entries in the order of their keys, filed one after the other, are listed as they were. -/
theorem toList_fileAll {entries : List (K × W)}
    (sorted : entries.Pairwise fun a b => compare a.1 b.1 = .lt) :
    (entries.foldl (fun m e => m.insert e.1 e.2) (∅ : OrdMap K W)).toList = entries := by
  -- The listing is sorted and has the same entries.
  have distinct : entries.Pairwise fun a b => a.1 ≠ b.1 := by
    refine sorted.imp ?_
    intro a b less same
    simp [same] at less
  apply toList_eq_of_sorted sorted
  intro k v
  rw [getElem?_fileAll distinct, Std.ExtTreeMap.getElem?_empty, Option.or_none]
  -- An entry is the only one with its key, so it is the one that is found.
  induction entries with
  | nil => simp
  | cons first rest ih =>
    obtain ⟨apart, later⟩ := List.pairwise_cons.mp distinct
    rw [List.mem_cons, List.find?_cons, ih (List.pairwise_cons.mp sorted).2 later]
    obtain ⟨key, value⟩ := first
    by_cases same : key = k
    · subst same
      have absent : rest.find? (fun e => compare e.1 key == .eq) = none := by
        apply List.find?_eq_none.mpr
        intro e member found
        have equal : e.1 = key := by simpa using found
        exact apart e member equal.symm
      simp [absent, eq_comm]
    · have apart : (compare key k == .eq) = false := by simpa using same
      simp [apart, Ne.symm same]

/-- The entries of a map, filed one after the other, are the map. -/
theorem fileAll_toList (m : OrdMap K V) : m.toList.foldl (fun m e => m.insert e.1 e.2) ∅ = m :=
  Std.ExtTreeMap.toList_inj.mp (toList_fileAll Std.ExtTreeMap.ordered_keys_toList)

/-- The entries of a map, filed again under their keys with what a function makes of them. -/
theorem getElem?_refiled (m : OrdMap K V) (f : K × V → W) (k : K) :
    ((m.toList.map fun e => (e.1, f e)).foldl (fun m e => m.insert e.1 e.2) (∅ : OrdMap K W))[k]? =
      (m[k]?).map fun v => f (k, v) := by
  -- The keys are distinct, so the entry under a key is the one that was filed.
  have distinct : (m.toList.map fun e => (e.1, f e)).Pairwise fun a b => a.1 ≠ b.1 := by
    apply List.pairwise_map.mpr
    refine Std.ExtTreeMap.ordered_keys_toList.imp ?_
    intro a b less same
    have equal : a.1 = b.1 := same
    simp [equal] at less
  rw [getElem?_fileAll distinct]
  cases held : m[k]? with
  | none =>
    -- No entry has this key.
    have none :
        (m.toList.map fun e => (e.1, f e)).find? (fun e => compare e.1 k == .eq) = none := by
      apply List.find?_eq_none.mpr
      intro e member found
      obtain ⟨⟨key, v⟩, listed, rfl⟩ := List.mem_map.mp member
      have same : key = k := by simpa using found
      subst same
      rw [Std.ExtTreeMap.mem_toList_iff_getElem?_eq_some, held] at listed
      cases listed
    simp [none]
  | some v =>
    have listed : (k, v) ∈ m.toList := Std.ExtTreeMap.mem_toList_iff_getElem?_eq_some.mpr held
    cases found : (m.toList.map fun e => (e.1, f e)).find? (fun e => compare e.1 k == .eq) with
    | none =>
      have missed := List.find?_eq_none.mp found _ (List.mem_map.mpr ⟨(k, v), listed, rfl⟩)
      simp at missed
    | some e =>
      have key := List.find?_some found
      obtain ⟨⟨key', v'⟩, listed', rfl⟩ := List.mem_map.mp (List.mem_of_find?_eq_some found)
      have same : key' = k := by simpa using key
      subst same
      rw [Std.ExtTreeMap.mem_toList_iff_getElem?_eq_some, held] at listed'
      obtain rfl := Option.some.inj listed'
      simp

end OrdMap

namespace OrdSet

variable {K : Type} [Ord K] [Std.TransOrd K] [Std.LawfulEqOrd K] {items : List K}
    {set : OrdSet K} {a : K}

omit [Std.LawfulEqOrd K] in
/-- A set lists no element twice. -/
theorem nodup_toList (set : OrdSet K) : set.toList.Nodup := by
  refine Std.ExtTreeSet.ordered_toList.imp ?_
  intro a b less same
  simp [same] at less

/-- A list of insertions adds exactly the listed elements. -/
theorem mem_insertAll : a ∈ items.foldl (fun set a => set.insert a) set ↔ a ∈ items ∨ a ∈ set := by
  -- The set grows along the list, so it stays quantified over.
  induction items generalizing set with
  | nil => simp
  | cons first rest ih =>
    have same : compare first a = .eq ↔ a = first := Std.LawfulEqCmp.compare_eq_iff_eq.trans eq_comm
    rw [List.foldl_cons, ih, Std.ExtTreeSet.mem_insert, List.mem_cons, same, or_left_comm, or_assoc]

/-- A list of removals takes exactly the listed elements. -/
theorem mem_eraseAll : a ∈ items.foldl (fun set a => set.erase a) set ↔ a ∈ set ∧ a ∉ items := by
  -- Induction over the items, each of them erased in turn.
  induction items generalizing set with
  | nil => simp
  | cons first rest ih =>
    have other : compare first a ≠ .eq ↔ a ≠ first :=
      not_congr (Std.LawfulEqCmp.compare_eq_iff_eq.trans eq_comm)
    rw [List.foldl_cons, ih, Std.ExtTreeSet.mem_erase, List.mem_cons, not_or, other, and_assoc,
      and_left_comm]

/-- Elements in their order, inserted one after the other, are listed as they were. -/
theorem toList_insertAll (sorted : items.Pairwise fun a b => compare a b = .lt) :
    (items.foldl (fun set a => set.insert a) (∅ : OrdSet K)).toList = items := by
  -- Both lists are sorted and hold the same elements, so they are the same list.
  have nodup {l : List K} (s : l.Pairwise fun a b => compare a b = .lt) : l.Nodup :=
    s.imp fun {a b} less same => by simp [same] at less
  have listing :=
    Std.ExtTreeSet.ordered_toList (t := items.foldl (fun set a => set.insert a) (∅ : OrdSet K))
  refine List.Perm.eq_of_pairwise ?_ listing sorted ?_
  · intro a b _ _ less more
    exact (Std.OrientedCmp.not_lt_of_lt less more).elim
  · apply (List.perm_ext_iff_of_nodup (nodup listing) (nodup sorted)).mpr
    intro a
    rw [Std.ExtTreeSet.mem_toList, mem_insertAll]
    simp

/-- The elements of a set, inserted one after the other, are the set. -/
theorem insertAll_toList (set : OrdSet K) :
    set.toList.foldl (fun set a => set.insert a) ∅ = set := by
  apply Std.ExtTreeSet.ext_mem
  intro a
  rw [mem_insertAll, Std.ExtTreeSet.mem_toList]
  simp

/-- Insertions change a set exactly when one of them is new. -/
theorem insertAll_eq_self :
    items.foldl (fun set a => set.insert a) set = set ↔ ∀ a ∈ items, a ∈ set := by
  -- Sets with the same elements are the same set.
  constructor
  · intro same a member
    rw [← same]
    exact mem_insertAll.mpr (.inl member)
  · intro all
    apply Std.ExtTreeSet.ext_mem
    intro a
    rw [mem_insertAll]
    exact ⟨fun held => held.elim (all a) id, .inr⟩

/-- Removals change a set exactly when one of them was there. -/
theorem eraseAll_eq_self :
    items.foldl (fun set a => set.erase a) set = set ↔ ∀ a ∈ items, a ∉ set := by
  -- Sets with the same elements are the same set.
  constructor
  · intro same a member held
    rw [← same] at held
    exact (mem_eraseAll.mp held).2 member
  · intro none
    apply Std.ExtTreeSet.ext_mem
    intro a
    rw [mem_eraseAll]
    exact ⟨fun held => held.1, fun held => ⟨held, fun member => none a member held⟩⟩

end OrdSet

end NasTools
