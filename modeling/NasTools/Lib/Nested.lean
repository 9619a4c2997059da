import NasTools.Lib.OrderedMap

/-! Ordered maps of ordered maps, as one map with two keys. -/

namespace NasTools.OrdMap

section

variable {A B V : Type} [Ord A] [Std.TransOrd A] [Ord B] [Std.TransOrd B]
    {m : OrdMap A (OrdMap B V)}

/-- The value under two keys. -/
def find2 (m : OrdMap A (OrdMap B V)) (a : A) (b : B) : Option V := (m.getD a ∅)[b]?

/-- File a value under two keys. -/
def insert2 (m : OrdMap A (OrdMap B V)) (a : A) (b : B) (v : V) : OrdMap A (OrdMap B V) :=
  m.insert a ((m.getD a ∅).insert b v)

/-- No inner map is empty. -/
def Tight (m : OrdMap A (OrdMap B V)) : Prop := ∀ (a : A) inner, m[a]? = some inner → ∃ b :
    B, inner[b]?.isSome

/-- Nothing is found in an empty map of maps. -/
@[simp] theorem find2_empty (a : A) (b : B) : (∅ : OrdMap A (OrdMap B V)).find2 a b = none := by
  simp [find2]

/-- What is found under two keys is found in the inner map of the first. -/
theorem find2_eq_some {a : A} {b : B} {v : V} :
    m.find2 a b = some v ↔ ∃ inner, m[a]? = some inner ∧ inner[b]? = some v := by
  rw [find2, Std.ExtTreeMap.getD_eq_getD_getElem?]
  cases m[a]? with
  | none => simp
  | some inner => simp

/-- An empty map has no empty inner map. -/
theorem tight_empty : (∅ : OrdMap A (OrdMap B V)).Tight := by
  intro a inner held
  simp at held

/-- Inserting leaves no inner map empty. -/
theorem Tight.insert2 (tight : m.Tight) (a : A) (b : B) (v : V) : (m.insert2 a b v).Tight := by
  -- The inner map that was changed holds the new entry; the others are as they were.
  intro a' inner held
  rw [OrdMap.insert2, Std.ExtTreeMap.getElem?_insert] at held
  split at held
  · obtain rfl := Option.some.inj held
    exact ⟨b, by simp⟩
  · exact tight a' inner held

variable [Std.LawfulEqOrd A] [Std.LawfulEqOrd B]

/--
What is found after a value was filed: the value under its own keys, and otherwise what was there.
-/
theorem find2_insert2 [DecidableEq A] [DecidableEq B] {a a' : A} {b b' : B} {v : V} :
    (m.insert2 a b v).find2 a' b' = if a = a' ∧ b = b' then some v else m.find2 a' b' := by
  -- Under the same first key the inner map decides, and under another one nothing changes.
  unfold find2 insert2
  rw [Std.ExtTreeMap.getD_insert]
  by_cases here : a = a'
  · subst here
    simp only [Std.ReflCmp.compare_self, if_true, true_and, Std.ExtTreeMap.getElem?_insert]
    by_cases same : b = b'
    · rw [if_pos same, if_pos (by rw [same]; exact Std.ReflCmp.compare_self)]
    · rw [if_neg same, if_neg (fun equal => same (Std.LawfulEqCmp.eq_of_compare equal))]
  · rw [if_neg (fun equal => here (Std.LawfulEqCmp.eq_of_compare equal)),
      if_neg (fun both => here both.1)]

/-- The inserted value is found. -/
theorem find2_insert2_self {a : A} {b : B} {v : V} : (m.insert2 a b v).find2 a b = some v := by
  classical
  rw [find2_insert2, if_pos ⟨rfl, rfl⟩]

/-- Under other keys nothing changes. -/
theorem find2_insert2_ne {a : A} {b : B} {v : V} {k : A × B} (other : k ≠ (a, b)) :
    (m.insert2 a b v).find2 k.1 k.2 = m.find2 k.1 k.2 := by
  classical
  rw [find2_insert2, if_neg]
  rintro ⟨rfl, rfl⟩
  exact other rfl

/-- Maps without empty inner maps are equal when they hold the same values. -/
theorem Tight.ext {m' : OrdMap A (OrdMap B V)} (tight : m.Tight) (tight' : m'.Tight)
    (same : ∀ a b, m.find2 a b = m'.find2 a b) : m = m' := by
  -- Where one map has an inner map, it has a value in it, so the other has one there too.
  have found {n n' : OrdMap A (OrdMap B V)} (tight : n.Tight)
    (same : ∀ a b, n.find2 a b = n'.find2 a b) {a : A}
      {inner : OrdMap B V} (held : n[a]? = some inner) : n'[a]? = some inner := by
    obtain ⟨b, some_⟩ := tight a inner held
    obtain ⟨v, filed⟩ := Option.isSome_iff_exists.mp some_
    obtain ⟨inner', held', _⟩ :=
      find2_eq_some.mp ((same a b).symm.trans (find2_eq_some.mpr ⟨inner, held, filed⟩))
    rw [held', Option.some.injEq]
    apply Std.ExtTreeMap.ext_getElem?
    intro b
    have agree := same a b
    rw [find2, find2, Std.ExtTreeMap.getD_eq_getD_getElem?, Std.ExtTreeMap.getD_eq_getD_getElem?,
      held, held'] at agree
    exact agree.symm
  apply Std.ExtTreeMap.ext_getElem?
  intro a
  cases held : m[a]? with
  | some inner => exact (found tight same held).symm
  | none =>
    cases held' : m'[a]? with
    | none => rfl
    | some inner =>
      rw [found tight' (fun a b => (same a b).symm) held'] at held
      cases held

end

section

variable {A B V : Type} [Ord A] [Std.TransOrd A] [Std.LawfulEqOrd A]
    [Ord B] [Std.TransOrd B] [Std.LawfulEqOrd B]
  {m : OrdMap A (OrdMap B V)} {key : V → A × B} {good : V → Prop}

/-- Every value is a good one, filed under its own keys. -/
def Indexed (m : OrdMap A (OrdMap B V)) (key : V → A × B) (good : V → Prop) : Prop :=
  ∀ a b v, m.find2 a b = some v → good v ∧ key v = (a, b)

omit [Std.LawfulEqOrd A] [Std.LawfulEqOrd B] in
/-- An empty map has no entry to misfile. -/
theorem indexed_empty : (∅ : OrdMap A (OrdMap B V)).Indexed key good := by
  intro a b v found
  simp at found

/-- A good value filed under its own key keeps the map indexed. -/
theorem Indexed.insert2 (indexed : m.Indexed key good) {v : V} (new : good v) :
    (m.insert2 (key v).1 (key v).2 v).Indexed key good := by
  -- What is found is the new value under its own key, or an old one.
  classical
  intro a b w found
  rw [find2_insert2] at found
  split at found
  · rename_i here
    obtain rfl := Option.some.inj found
    exact ⟨new, Prod.ext here.1 here.2⟩
  · exact indexed a b w found

omit [Std.LawfulEqOrd A] in
/-- What is listed under a key is filed there. -/
theorem Indexed.of_listed (indexed : m.Indexed key good) {a : A} {v : V}
    (member : v ∈ (m.getD a ∅).listed) :
    good v ∧ (key v).1 = a := by
  obtain ⟨b, found⟩ := mem_listed.mp member
  obtain ⟨is, place⟩ := indexed a b v found
  exact ⟨is, by rw [place]⟩

omit [Std.LawfulEqOrd A] in
/-- No value is listed twice. -/
theorem Indexed.nodup_listed (indexed : m.Indexed key good) (a : A) :
    (m.getD a ∅).listed.Nodup := by
  -- The keys ascend, and the value decides the key.
  rw [listed, List.Nodup, List.pairwise_map]
  refine List.Pairwise.imp_of_mem ?_ (Std.ExtTreeMap.ordered_keys_toList (t := m.getD a ∅))
  -- Two entries with one value would have its one key.
  rintro ⟨b, v⟩ ⟨b', v'⟩ first second less same
  obtain rfl : v = v' := same
  rw [Std.ExtTreeMap.mem_toList_iff_getElem?_eq_some] at first second
  have one : (a, b) = (a, b') := (indexed a b v first).2.symm.trans (indexed a b' v second).2
  obtain rfl : b = b' := (Prod.mk.inj one).2
  simp at less

omit [Std.LawfulEqOrd B] in
/--
Filing a value keeps every inner map below a bound where its key was taken, or there was room.
-/
theorem size_insert2_le_iff {bound : Nat} (below : ∀ a, (m.getD a ∅).size ≤ bound) {a : A}
    {b : B} {v : V} :
    (∀ a', ((m.insert2 a b v).getD a' ∅).size ≤ bound) ↔
      ((m.getD a ∅).contains b = true ∨ (m.getD a ∅).size < bound) := by
  -- Only the inner map of the first key can grow, and it grows by one if the second key is new.
  have here : ((m.insert2 a b v).getD a ∅).size =
      if (m.getD a ∅).contains b = true then (m.getD a ∅).size else (m.getD a ∅).size + 1 := by
    rw [OrdMap.insert2, Std.ExtTreeMap.getD_insert_self, Std.ExtTreeMap.size_insert]
  constructor
  · intro bounded
    have last := bounded a
    rw [here] at last
    split at last
    · exact .inl ‹_›
    · exact .inr last
  · intro room a'
    by_cases same : a = a'
    · subst same
      rw [here]
      split
      · exact below a
      · rename_i absent
        exact room.resolve_left absent
    · rw [OrdMap.insert2, Std.ExtTreeMap.getD_insert,
        if_neg fun equal => same (Std.LawfulEqCmp.eq_of_compare equal)]
      exact below a'

omit [Std.LawfulEqOrd B] in
/-- As many values are listed as there are keys. -/
theorem length_listed {n : OrdMap B V} : n.listed.length = n.size := by
  rw [listed, List.length_map, Std.ExtTreeMap.length_toList]

end

section

variable {M K V : Type} [DecidableEq K] (ins : M → K → V → M) (get : M → K → Option V)
    (find : K → Option V)

/-- Values of a function, filed in any order over a part of them, give a part of them. -/
theorem get_foldl_ins (law : ∀ m k v k', get (ins m k v) k' = if k = k' then some v else get m k')
    {entries : List (K × V)} (values : ∀ k v, (k, v) ∈ entries → find k = some v) {m : M}
    (part : ∀ k v, get m k = some v → find k = some v) {k : K} {v : V} :
    get (entries.foldl (fun m entry => ins m entry.1 entry.2) m) k = some v ↔
      find k = some v ∧ ((k, v) ∈ entries ∨ get m k = some v) := by
  -- Induction over the entries: each is inserted under a key that it is the only value of.
  induction entries generalizing m with
  | nil => exact ⟨fun held => ⟨part k v held, .inr held⟩, fun held => by simpa using held.2⟩
  | cons first rest ih =>
    obtain ⟨k', v'⟩ := first
    have new : find k' = some v' := values k' v' List.mem_cons_self
    have later : ∀ k v, (k, v) ∈ rest → find k = some v := fun k v member =>
      values k v (List.mem_cons_of_mem _ member)
    have larger : ∀ k v, get (ins m k' v') k = some v → find k = some v := by
      intro k v held
      rw [law] at held
      split at held
      · rename_i here
        rw [← here, new, ← held]
      · exact part k v held
    rw [List.foldl_cons, ih later larger, law]
    refine and_congr_right fun held => ?_
    rw [List.mem_cons]
    by_cases here : k' = k
    · -- Both are values of the function under one key.
      subst here
      obtain rfl := Option.some.inj (new.symm.trans held)
      simp
    · simp [here, Ne.symm here]

end

section

variable {A B V : Type} [Ord A] [Std.TransOrd A] [Std.LawfulEqOrd A] [DecidableEq A]
    [Ord B] [Std.TransOrd B]
  [Std.LawfulEqOrd B] [DecidableEq B] {m : OrdMap A (OrdMap B V)}

/-- The values of a map with two keys, filed in any order, make the map again. -/
theorem foldl_insert2_eq {entries : List ((A × B) × V)} (tight : m.Tight)
    (graph : ∀ a b v, ((a, b), v) ∈ entries ↔ m.find2 a b = some v) :
    entries.foldl (fun m entry => m.insert2 entry.1.1 entry.1.2 entry.2)
    (∅ : OrdMap A (OrdMap B V)) = m := by
  -- Both maps are tight, so it is enough that the same is found in them under every two keys.
  have made : ∀ (entries : List ((A × B) × V)) (n : OrdMap A (OrdMap B V)), n.Tight →
      (entries.foldl (fun m entry => m.insert2 entry.1.1 entry.1.2 entry.2) n).Tight := by
    intro entries
    induction entries with
    | nil => exact fun n tight => tight
    | cons first rest ih => exact fun n tight => ih _ (tight.insert2 _ _ _)
  refine (made entries ∅ tight_empty).ext tight fun a b => Option.ext fun v => ?_
  have law : ∀ (m : OrdMap A (OrdMap B V)) (k : A × B) (v : V) (k' : A × B),
      (m.insert2 k.1 k.2 v).find2 k'.1 k'.2 = if k = k' then some v else m.find2 k'.1 k'.2 := by
    intro m k v k'
    rw [find2_insert2]
    simp [Prod.ext_iff]
  have found := get_foldl_ins (fun (m : OrdMap A (OrdMap B V)) (k : A × B) v => m.insert2 k.1 k.2 v)
    (fun m k => m.find2 k.1 k.2) (fun k => m.find2 k.1 k.2) law (m :=
      ∅) (fun k v => (graph k.1 k.2 v).mp) (by simp)
    (k := (a, b)) (v := v)
  rw [found, graph]
  simp

omit [DecidableEq A] in
/-- Under another key nothing changes. -/
theorem getElem?_insert_ne {m : OrdMap A V} {a k : A} {v : V} (other : k ≠ a) :
    (m.insert a v)[k]? = m[k]? := by
  rw [Std.ExtTreeMap.getElem?_insert, if_neg]
  exact fun equal => other (Std.LawfulEqCmp.eq_of_compare equal).symm

/-- The entries of a map, filed in any order, make the map again. -/
theorem foldl_insert_eq {m : OrdMap A V} {entries : List (A × V)}
    (graph : ∀ k v, (k, v) ∈ entries ↔ m[k]? = some v) :
    entries.foldl (fun m entry => m.insert entry.1 entry.2) (∅ : OrdMap A V) = m := by
  -- The two maps agree under every key, by the law for inserting entries in turn.
  apply Std.ExtTreeMap.ext_getElem?
  intro k
  refine Option.ext fun v => ?_
  have law : ∀ (m : OrdMap A V) (k : A) (v : V) (k' : A),
      (m.insert k v)[k']? = if k = k' then some v else m[k']? := by
    intro m k v k'
    rw [Std.ExtTreeMap.getElem?_insert]
    simp
  have found := get_foldl_ins (fun (m : OrdMap A V) (k : A) v => m.insert k v) (fun m k => m[k]?)
    (fun k => m[k]?) law
    (m := ∅) (fun k v => (graph k v).mp) (by simp) (k := k) (v := v)
  rw [found, graph]
  simp

end

end NasTools.OrdMap
