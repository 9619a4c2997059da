import Mathlib

/-! Ordered finite maps: their listing is determined by their lookups, and a top key lists last. -/

namespace NasTools

/-- A finite map listed in the order of its keys. -/
abbrev OrdMap (K V : Type) [Ord K] := Std.ExtTreeMap K V compare

/-- A finite set listed in order. -/
abbrev OrdSet (K : Type) [Ord K] := Std.ExtTreeSet K compare

/-- Pairs are ordered by their first parts, then by their second. -/
instance lexicographic {A B : Type} [Ord A] [Ord B] : Ord (A × B) := lexOrd

/-- 64-bit keys compare as the numbers they denote. -/
theorem u64_compare_lt {a b : UInt64} (less : a.toNat < b.toNat) : compare a b = .lt := by
  show compareOfLessAndEq a b = .lt
  simp [compareOfLessAndEq, UInt64.lt_iff_toNat_lt, less]

namespace OrdMap

variable {K V : Type} [Ord K]

/-- The values in the order of their keys. -/
def listed [Std.TransOrd K] (m : OrdMap K V) : List V := m.toList.map Prod.snd

/-- The values whose keys pass a test, in the order of their keys. -/
def listedWhere [Std.TransOrd K] (m : OrdMap K V) (keep : K → Bool) : List V :=
  (m.toList.filter fun entry => keep entry.1).map Prod.snd

/-- The greatest key. -/
def lastKey? [Std.TransOrd K] (m : OrdMap K V) : Option K := m.keys.getLast?

/-- The value under the greatest key. -/
def last? [Std.TransOrd K] (m : OrdMap K V) : Option V := m.listed.getLast?

variable [Std.TransOrd K] [Std.LawfulEqOrd K]

/-- A sorted list with the lookups of a map is the listing of that map. -/
theorem toList_eq_of_sorted {m : OrdMap K V} {entries : List (K × V)}
    (sorted : entries.Pairwise fun a b => compare a.1 b.1 = .lt)
    (lookups : ∀ k v, (k, v) ∈ entries ↔ m[k]? = some v) : m.toList = entries := by
  -- Both lists are sorted without repeats, so having the same members makes them equal.
  have nodup {l : List (K × V)} (s : l.Pairwise fun a b => compare a.1 b.1 = .lt) : l.Nodup :=
    s.imp fun {a b} less same => by simp [same] at less
  have listing := Std.ExtTreeMap.ordered_keys_toList (t := m)
  refine List.Perm.eq_of_pairwise ?_ listing sorted ?_
  · intro a b _ _ less more
    exact (Std.OrientedCmp.not_lt_of_lt less more).elim
  apply (List.perm_ext_iff_of_nodup (nodup listing) (nodup sorted)).mpr
  rintro ⟨k, v⟩
  rw [Std.ExtTreeMap.mem_toList_iff_getElem?_eq_some, lookups]

/-- Exactly the values found under some key are listed. -/
theorem mem_listed {m : OrdMap K V} {value : V} : value ∈ m.listed ↔ ∃ key :
    K, m[key]? = some value := by
  -- A value is listed with the key it is found under.
  simp only [listed, List.mem_map, Prod.exists, Std.ExtTreeMap.mem_toList_iff_getElem?_eq_some]
  constructor
  · intro among
    obtain ⟨key, _, found, rfl⟩ := among
    exact ⟨key, found⟩
  · intro among
    obtain ⟨key, found⟩ := among
    exact ⟨key, value, found, rfl⟩

/-- Inserting above every key puts the new entry at the end of the listing. -/
theorem toList_insert_top {m : OrdMap K V} {key : K} {value : V}
    (above : ∀ k ∈ m, compare k key = .lt) :
    (m.insert key value).toList = m.toList ++ [(key, value)] := by
  -- A sorted list with these entries is the listing.
  apply toList_eq_of_sorted
  · refine List.pairwise_append.mpr ⟨Std.ExtTreeMap.ordered_keys_toList, by simp, ?_⟩
    rintro ⟨k, v⟩ listed _ last
    obtain rfl := List.mem_singleton.mp last
    rw [Std.ExtTreeMap.mem_toList_iff_getElem?_eq_some] at listed
    exact above k (Std.ExtTreeMap.mem_iff_isSome_getElem?.mpr (by simp [listed]))
  · intro k v
    rw [List.mem_append, List.mem_singleton, Std.ExtTreeMap.mem_toList_iff_getElem?_eq_some,
      Std.ExtTreeMap.getElem?_insert]
    by_cases same : key = k
    · subst same
      -- The top key was not there before, so only the new value is found under it.
      have absent : m[key]? = none := by
        apply Std.ExtTreeMap.getElem?_eq_none
        intro present
        simpa using above key present
      simp [absent, eq_comm]
    · simp [same, Ne.symm same]

/-- Inserting under a free key lists the new value once more, wherever it falls. -/
theorem listed_insert_perm {m : OrdMap K V} {key : K} (value : V) (free : m[key]? = none) :
    (listed (m.insert key value)).Perm (value :: m.listed) := by
  -- A new key adds one entry; where it is listed depends on the order of keys.
  have distinct {m : OrdMap K V} : m.toList.Nodup :=
    Std.ExtTreeMap.ordered_keys_toList.imp fun {a b} less same => by simp [same] at less
  have absent : (key, value) ∉ m.toList := by
    rw [Std.ExtTreeMap.mem_toList_iff_getElem?_eq_some, free]
    simp
  have entries : (m.insert key value).toList.Perm ((key, value) :: m.toList) := by
    rw [List.perm_ext_iff_of_nodup distinct (List.nodup_cons.mpr ⟨absent, distinct⟩)]
    rintro ⟨k, v⟩
    rw [List.mem_cons, Std.ExtTreeMap.mem_toList_iff_getElem?_eq_some,
      Std.ExtTreeMap.mem_toList_iff_getElem?_eq_some, Std.ExtTreeMap.getElem?_insert]
    by_cases same : key = k
    · subst same
      simp [free, eq_comm]
    · simp [same, Ne.symm same]
  exact entries.map Prod.snd

/-- An empty map has no entries. -/
@[simp] theorem toList_empty : (∅ : OrdMap K V).toList = [] :=
  toList_eq_of_sorted (by simp) (by simp)

/-- An empty map lists no values. -/
@[simp] theorem listed_empty : (∅ : OrdMap K V).listed = [] := by simp [listed]

/-- Nothing in a map lies above the key that was read last. -/
def ReadUpTo (m : OrdMap K V) (last : Option K) : Prop :=
  ∀ k ∈ m, ∃ p, last = some p ∧ (compare k p).isLE

omit [Std.LawfulEqOrd K] in
/-- Nothing has been read into an empty map. -/
theorem readUpTo_empty : (∅ : OrdMap K V).ReadUpTo none := by
  intro k member
  simp at member

omit [Std.LawfulEqOrd K] in
/-- A key above the one read last is above all there is. -/
theorem ReadUpTo.below {m : OrdMap K V} {last : Option K} {key : K} (read : m.ReadUpTo last)
    (ascending : last.all (fun p => compare p key == .lt) = true) :
      ∀ k ∈ m, compare k key = .lt := by
  intro k member
  obtain ⟨p, rfl, upTo⟩ := read k member
  exact Std.TransCmp.lt_of_isLE_of_lt upTo (by simpa using ascending)

/-- With a key on top, nothing lies above that key. -/
theorem readUpTo_insert {m : OrdMap K V} {key : K} {value : V}
    (below : ∀ k ∈ m, compare k key = .lt) :
    ReadUpTo (m.insert key value) (some key) := by
  -- The new key is above all those before it, so it is the last one read.
  intro k member
  refine ⟨key, rfl, ?_⟩
  rcases Std.ExtTreeMap.mem_insert.mp member with same | held
  · rw [← Std.LawfulEqCmp.eq_of_compare same]
    exact Std.ReflCmp.isLE_rfl
  · exact Ordering.isLE_of_eq_lt (below k held)

/-- A key above all there is has not been entered. -/
theorem not_contains_of_below {m : OrdMap K V} {key : K} (below : ∀ k ∈ m, compare k key = .lt) :
    ¬m.contains key = true := by
  intro present
  simpa using below key (by simpa using present)

omit [Std.LawfulEqOrd K] in
/-- The greatest key stands in the last entry. -/
theorem lastKey?_eq (m : OrdMap K V) : m.lastKey? = m.toList.getLast?.map Prod.fst := by
  rw [lastKey?, ← Std.ExtTreeMap.map_fst_toList_eq_keys, List.getLast?_map]

omit [Std.LawfulEqOrd K] in
/-- The value under the greatest key stands in the last entry. -/
theorem last?_eq (m : OrdMap K V) : m.last? = m.toList.getLast?.map Prod.snd := by
  rw [last?, listed, List.getLast?_map]

/-- No key lies above the greatest one. -/
theorem le_lastKey? {m : OrdMap K V} {k top : K} (last : m.lastKey? = some top) (present : k ∈ m) :
    compare k top ≠ .gt := by
  -- In a sorted listing every other key stands before the last one.
  obtain ⟨before, split⟩ := List.getLast?_eq_some_iff.mp last
  have sorted := Std.ExtTreeMap.ordered_keys (t := m)
  rw [split, List.pairwise_append] at sorted
  rw [← Std.ExtTreeMap.mem_keys, split, List.mem_append, List.mem_singleton] at present
  rcases present with earlier | rfl
  · simp [sorted.2.2 k earlier top (by simp)]
  · simp

/-- Two maps that agree on what passes a test list the same of it. -/
theorem map_filter_toList_eq {W U : Type} {m : OrdMap K V} {n : OrdMap K W} {p : K × V → Bool}
    {q : K × W → Bool} {f : K × V → U} {g : K × W → U} (forth : ∀ k v, m[k]? = some v → p (k, v) →
      ∃ w, n[k]? = some w ∧ q (k, w) ∧ f (k, v) = g (k, w))
    (back : ∀ k w, n[k]? = some w → q (k, w) → ∃ v, m[k]? = some v ∧ p (k, v)) :
    (m.toList.filter p).map f = (n.toList.filter q).map g := by
  -- Both lists of keys are sorted without repeats, so having the same members makes them equal.
  have keys : (m.toList.filter p).map Prod.fst = (n.toList.filter q).map Prod.fst := by
    have sorted {X : Type} (x : OrdMap K X) (r : K × X → Bool) :
        ((x.toList.filter r).map Prod.fst).Pairwise fun a b => compare a b = .lt :=
      List.pairwise_map.mpr (Std.ExtTreeMap.ordered_keys_toList.filter _)
    have nodup {l : List K} (s : l.Pairwise fun a b => compare a b = .lt) : l.Nodup :=
      s.imp fun {a b} less same => by simp [same] at less
    refine List.Perm.eq_of_pairwise ?_ (sorted m p) (sorted n q) ?_
    · intro a b _ _ less more
      exact (Std.OrientedCmp.not_lt_of_lt less more).elim
    apply (List.perm_ext_iff_of_nodup (nodup (sorted m p)) (nodup (sorted n q))).mpr
    intro k
    simp only [List.mem_map, List.mem_filter, Prod.exists,
      Std.ExtTreeMap.mem_toList_iff_getElem?_eq_some]
    constructor
    · intro among
      obtain ⟨k, v, ⟨held, passes⟩, rfl⟩ := among
      obtain ⟨w, there, passes', _⟩ := forth k v held passes
      exact ⟨k, w, ⟨there, passes'⟩, rfl⟩
    · intro among
      obtain ⟨k, w, ⟨held, passes⟩, rfl⟩ := among
      obtain ⟨v, there, passes'⟩ := back k w held passes
      exact ⟨k, v, ⟨there, passes'⟩, rfl⟩
  have lengths : (m.toList.filter p).length = (n.toList.filter q).length := by
    simpa using congrArg List.length keys
  apply List.ext_getElem (by simpa using lengths)
  intro i here there
  simp only [List.length_map] at here there
  rw [List.getElem_map, List.getElem_map]
  have sameKey : (m.toList.filter p)[i].1 = (n.toList.filter q)[i].1 := by
    have at_ : ((m.toList.filter p).map Prod.fst)[i]? = ((n.toList.filter q).map Prod.fst)[i]? := by
      rw [keys]
    simpa [here, there] using at_
  have inM := List.mem_filter.mp (List.getElem_mem here)
  have inN := List.mem_filter.mp (List.getElem_mem there)
  generalize (m.toList.filter p)[i] = a at inM sameKey ⊢
  generalize (n.toList.filter q)[i] = b at inN sameKey ⊢
  obtain ⟨k, v⟩ := a
  obtain ⟨k', w⟩ := b
  obtain rfl : k = k' := sameKey
  -- Under one key there is one value in each map.
  obtain ⟨w', held, _, same⟩ :=
    forth k v (Std.ExtTreeMap.mem_toList_iff_getElem?_eq_some.mp inM.1) inM.2
  rw [Std.ExtTreeMap.mem_toList_iff_getElem?_eq_some.mp inN.1, Option.some.injEq] at held
  rw [same, held]

omit [Std.LawfulEqOrd K] in
/-- What is left after some keys are removed was there. -/
theorem getElem?_of_foldl_erase {gone : List K} {m : OrdMap K V} {key : K} {value : V}
    (held : (gone.foldl (fun m k => m.erase k) m)[key]? = some value) : m[key]? = some value := by
  -- Induction over the keys erased: erasing adds nothing.
  induction gone generalizing m with
  | nil => exact held
  | cons first rest ih =>
    have after := ih held
    rw [Std.ExtTreeMap.getElem?_erase] at after
    split at after
    · cases after
    · exact after

end OrdMap

end NasTools
