import NasTools.Lib.OrderedMap

/-! Maps whose entries supersede one another: the later entry wins, and nothing known is lost. -/

namespace NasTools.Latest

variable {K V : Type} [Ord K] [Std.TransOrd K] [Std.LawfulEqOrd K] (beats : V → V → Bool)

/-- Every entry of the older map is in the newer one, or is beaten there. -/
def Covers (newer older : OrdMap K V) : Prop :=
  ∀ (key : K) (old : V), older[key]? = some old →
    ∃ new, newer[key]? = some new ∧ (new = old ∨ beats new old)

/-- Covering is checked entry by entry. -/
theorem covers_iff [DecidableEq V] {newer older : OrdMap K V} : Covers beats newer older ↔
    older.toList.all fun entry => (newer[entry.1]?).any fun new =>
      new = entry.2 || beats new entry.2 := by
  simp only [Covers, List.all_eq_true, Option.any_eq_true, Prod.forall,
    Std.ExtTreeMap.mem_toList_iff_getElem?_eq_some, Bool.or_eq_true, decide_eq_true_eq]

instance [DecidableEq V] (newer older : OrdMap K V) : Decidable (Covers beats newer older) :=
  decidable_of_iff _ (covers_iff beats).symm

/-- Offer one entry to a map, which takes it unless it has an entry the new one does not beat. -/
def offer (entries : OrdMap K V) (key : K) (value : V) : OrdMap K V :=
  match entries[key]? with
  | some held => if beats value held then entries.insert key value else entries
  | none => entries.insert key value

/-- Offer every entry of the second map to the first. -/
def merge (a b : OrdMap K V) : OrdMap K V :=
  b.toList.foldl (fun entries entry => offer beats entries entry.1 entry.2) a

variable {beats}

omit [Std.LawfulEqOrd K] in
/-- A map covers itself. -/
theorem Covers.refl (entries : OrdMap K V) : Covers beats entries entries :=
  fun _ old found => ⟨old, found, .inl rfl⟩

omit [Std.LawfulEqOrd K] in
/-- Covering is transitive when beating is. -/
theorem Covers.trans (chain : ∀ a b c, beats a b → beats b c → beats a c) {a b c : OrdMap K V}
    (upper : Covers beats a b) (lower : Covers beats b c) : Covers beats a c := by
  -- The entry of the last map is looked up in the middle one and then in the first.
  intro key old found
  obtain ⟨middle, foundB, second⟩ := lower key old found
  obtain ⟨new, foundA, first⟩ := upper key middle foundB
  refine ⟨new, foundA, ?_⟩
  -- An entry that stayed the same on either side adds nothing to the comparison.
  rcases first with rfl | first
  · exact second
  · rcases second with rfl | second
    · exact .inr first
    · exact .inr (chain _ _ _ first second)

/-- An offer is taken or refused, and nothing known is lost either way. -/
theorem offer_covers (entries : OrdMap K V) (key : K) (value : V) :
    Covers beats (offer beats entries key value) entries := by
  -- Under the key itself the old value stays unless it is beaten.
  intro other old found
  unfold offer
  by_cases same : key = other
  · subst same
    simp only [found]
    split
    · rename_i wins
      exact ⟨value, by simp, .inr wins⟩
    · exact ⟨old, found, .inl rfl⟩
  · -- Entries under other keys are not touched.
    have kept : (entries.insert key value)[other]? = some old := by
      simp [Std.ExtTreeMap.getElem?_insert, same, found]
    split
    · split
      · exact ⟨old, kept, .inl rfl⟩
      · exact ⟨old, found, .inl rfl⟩
    · exact ⟨old, kept, .inl rfl⟩

/-- What is merged into a map covers it. -/
theorem merge_covers (chain : ∀ a b c, beats a b → beats b c → beats a c) (a b : OrdMap K V) :
    Covers beats (merge beats a b) a := by
  -- A merge is a row of offers.
  unfold merge
  -- Each offer covers what was there before it.
  generalize b.toList = offers
  induction offers generalizing a with
  | nil => exact .refl a
  | cons entry rest ih =>
    exact (ih (offer beats a entry.1 entry.2)).trans chain (offer_covers a _ _)

/-- An entry after an offer was there before it, or is the one offered. -/
theorem offer_from {entries : OrdMap K V} {key other : K} {value found : V}
    (held : (offer beats entries key value)[other]? = some found) :
    entries[other]? = some found ∨ (other = key ∧ found = value) := by
  -- What is found is old, or it is the value that was just inserted.
  have inserted (there : (entries.insert key value)[other]? = some found) :
      entries[other]? = some found ∨ (other = key ∧ found = value) := by
    rw [Std.ExtTreeMap.getElem?_insert] at there
    split at there
    · rename_i same
      exact .inr ⟨(Std.LawfulEqCmp.eq_of_compare same).symm, (Option.some.inj there).symm⟩
    · exact .inl there
  unfold offer at held
  split at held
  · split at held
    · exact inserted held
    · exact .inl held
  · exact inserted held

/-- Every entry of a merged map comes from one of the two. -/
theorem merge_from {a b : OrdMap K V} {key : K} {found : V}
    (held : (merge beats a b)[key]? = some found) :
    a[key]? = some found ∨ b[key]? = some found := by
  -- Only entries of the second map are ever offered.
  have offered : ∀ (offers : List (K × V)) (start : OrdMap K V),
      (offers.foldl (fun entries entry => offer beats entries entry.1 entry.2) start)[key]? =
      some found → start[key]? = some found ∨ (key, found) ∈ offers := by
    intro offers
    induction offers with
    | nil => exact fun start there => .inl there
    | cons entry rest ih =>
      intro start there
      rcases ih _ there with before | later
      · rcases offer_from before with earlier | ⟨rfl, rfl⟩
        · exact .inl earlier
        · exact .inr (by simp)
      · exact .inr (by simp [later])
  rcases offered b.toList a held with here | there
  · exact .inl here
  · exact .inr (Std.ExtTreeMap.mem_toList_iff_getElem?_eq_some.mp there)

/-- The winner of two versions of a key, the first one standing unless it is beaten. -/
def winner (beats : V → V → Bool) : Option V → Option V → Option V
  | none, y => y
  | some x, none => some x
  | some x, some y => some (if beats y x then y else x)

/-- Where nothing is offered, what is held wins. -/
@[simp] theorem winner_none (held : Option V) : winner beats held none = held := by
  cases held <;> rfl

omit [Std.LawfulEqOrd K] in
/-- What an offer leaves under the key it is for. -/
theorem getElem?_offer_self (entries : OrdMap K V) (key : K) (value : V) :
    (offer beats entries key value)[key]? = winner beats entries[key]? (some value) := by
  -- The offered value is kept if there is none to beat or if it beats the one held.
  unfold offer
  cases found : entries[key]? with
  | none => simp [winner]
  | some held =>
    dsimp only [winner]
    split
    · simp
    · exact found

variable (beats) in
/-- An offer leaves the other keys alone. -/
theorem getElem?_offer_other (entries : OrdMap K V) {key other : K} (value : V)
    (apart : key ≠ other) :
    (offer beats entries key value)[other]? = entries[other]? := by
  -- Whether the value is inserted or not, another key is not touched.
  have kept : (entries.insert key value)[other]? = entries[other]? := by
    simp [Std.ExtTreeMap.getElem?_insert, apart]
  unfold offer
  split
  · split
    · exact kept
    · rfl
  · exact kept

variable (beats) in
/-- Offers in the order of their keys decide each key once. -/
theorem getElem?_offers {offers : List (K × V)}
    (sorted : offers.Pairwise fun x y => compare x.1 y.1 = .lt) (start : OrdMap K V) (key : K) :
    ((∀ entry ∈ offers, entry.1 ≠ key) ∧
      (offers.foldl (fun entries entry => offer beats entries entry.1 entry.2) start)[key]? =
        start[key]?) ∨
    ∃ value, (key, value) ∈ offers ∧
      (offers.foldl (fun entries entry => offer beats entries entry.1 entry.2) start)[key]? =
        winner beats start[key]? (some value) := by
  -- Induction over the offers: one is under the key, or it changes nothing there.
  induction offers generalizing start with
  | nil => exact .inl ⟨by simp, rfl⟩
  | cons entry rest ih =>
    obtain ⟨above, sortedRest⟩ := List.pairwise_cons.mp sorted
    by_cases same : entry.1 = key
    · subst same
      -- The key just offered does not come again.
      rcases ih sortedRest (offer beats start entry.1 entry.2) with ⟨_, kept⟩ | ⟨value, again, _⟩
      · refine .inr ⟨entry.2, by simp, ?_⟩
        rw [List.foldl_cons, kept, getElem?_offer_self]
      · have less := above _ again
        simp at less
    · have kept := getElem?_offer_other beats start entry.2 same
      rcases ih sortedRest (offer beats start entry.1 entry.2) with ⟨absent, result⟩ |
        ⟨value, member, result⟩
      · refine .inl ⟨?_, by rw [List.foldl_cons, result, kept]⟩
        intro other member
        rcases List.mem_cons.mp member with rfl | later
        · exact same
        · exact absent other later
      · exact .inr ⟨value, by simp [member], by rw [List.foldl_cons, result, kept]⟩

/-- Merging decides key by key. -/
theorem getElem?_merge (a b : OrdMap K V) (key : K) :
    (merge beats a b)[key]? = winner beats a[key]? b[key]? := by
  -- Every key of the second map is offered once, and a key that it lacks is not offered at all.
  unfold merge
  rcases getElem?_offers beats Std.ExtTreeMap.ordered_keys_toList a key with ⟨absent, result⟩ |
    ⟨value, member, result⟩
  · have missing : b[key]? = none := by
      cases found : b[key]? with
      | none => rfl
      | some value =>
        exact absurd rfl
          (absent (key, value) (Std.ExtTreeMap.mem_toList_iff_getElem?_eq_some.mpr found))
    rw [result, missing, winner_none]
  · rw [result, Std.ExtTreeMap.mem_toList_iff_getElem?_eq_some.mp member]

/-- Every entry of maps merged one after the other comes from one of them. -/
theorem foldl_merge_from {maps : List (OrdMap K V)} {base : OrdMap K V} {key : K} {found : V}
    (held : (maps.foldl (merge beats) base)[key]? = some found) :
    base[key]? = some found ∨ ∃ m ∈ maps, m[key]? = some found := by
  -- Induction over the maps, with the one merged so far kept general.
  induction maps generalizing base with
  | nil => exact .inl held
  | cons m rest ih =>
    rcases ih held with merged | ⟨other, member, there⟩
    · rcases merge_from merged with before | here
      · exact .inl before
      · exact .inr ⟨m, by simp, here⟩
    · exact .inr ⟨other, by simp [member], there⟩

/-- An entry that beats every other one of its key is what is left when the maps are merged. -/
theorem foldl_merge_newest (irrefl : ∀ x, beats x x = false)
    (chain : ∀ a b c, beats a b → beats b c → beats a c) {maps : List (OrdMap K V)}
    {base : OrdMap K V} {key : K} {e : V}
    (among : base[key]? = some e ∨ ∃ m ∈ maps, m[key]? = some e)
    (newest : ∀ y, (base[key]? = some y ∨ ∃ m ∈ maps, m[key]? = some y) → y = e ∨ beats e y) :
    (maps.foldl (merge beats) base)[key]? = some e := by
  -- Each merge keeps the newest entry, or takes it in.
  induction maps generalizing base with
  | nil =>
    rcases among with held | ⟨m, impossible, _⟩
    · exact held
    · cases impossible
  | cons m rest ih =>
    have unbeaten (y : V) (known : y = e ∨ beats e y) : beats y e = false := by
      rcases known with rfl | wins
      · exact irrefl y
      · cases again : beats y e with
        | false => rfl
        | true =>
          have looped := chain e y e wins again
          rw [irrefl e] at looped
          cases looped
    apply ih
    · rw [getElem?_merge]
      rcases among with held | ⟨other, member, there⟩
      · left
        rw [held]
        cases offered : m[key]? with
        | none => exact winner_none _
        | some y =>
          have loses := unbeaten y (newest y (.inr ⟨m, by simp, offered⟩))
          simp [winner, loses]
      · rcases List.mem_cons.mp member with rfl | later
        · left
          rw [there]
          cases held : base[key]? with
          | none => rfl
          | some x =>
            rcases newest x (.inl held) with rfl | wins
            · simp [winner]
            · simp [winner, wins]
        · exact .inr ⟨other, later, there⟩
    · intro y known
      apply newest
      rcases known with merged | ⟨other, member, there⟩
      · rcases merge_from merged with before | here
        · exact .inl before
        · exact .inr ⟨m, by simp, here⟩
      · exact .inr ⟨other, by simp [member], there⟩

variable (beats) in
/-- A map has taken another into account when merging that one into it changes nothing. -/
def Absorbs (a b : OrdMap K V) : Prop := merge beats a b = a

section

variable (irrefl : ∀ x, beats x x = false) (chain : ∀ a b c, beats a b → beats b c → beats a c)
include irrefl

/--
A map has taken another into account when no entry of that one is missing from it or beats it there.
-/
theorem absorbs_iff {a b : OrdMap K V} : Absorbs beats a b ↔
    ∀ (key : K) y, b[key]? = some y → ∃ x, a[key]? = some x ∧ beats y x = false := by
  -- Under each key the offer is refused exactly if it does not beat what is there.
  constructor
  · intro same key y offered
    have kept : winner beats a[key]? (some y) = a[key]? := by
      rw [← offered, ← getElem?_merge]
      exact congrArg (·[key]?) same
    cases held : a[key]? with
    | none =>
      rw [held] at kept
      cases kept
    | some x =>
      refine ⟨x, rfl, ?_⟩
      cases wins : beats y x with
      | false => rfl
      | true =>
        -- Had the offer won, it would be the very entry it beats.
        simp only [held, winner, wins, if_true, Option.some.injEq] at kept
        rw [kept, irrefl] at wins
        exact wins.symm
  · intro unbeaten
    apply Std.ExtTreeMap.ext_getElem?
    intro key
    rw [getElem?_merge]
    cases offered : b[key]? with
    | none => exact winner_none _
    | some y =>
      obtain ⟨x, held, loses⟩ := unbeaten key y offered
      simp [held, winner, loses]

/-- What was merged into a map is taken into account. -/
theorem absorbs_merge_right (a b : OrdMap K V) : Absorbs beats (merge beats a b) b := by
  -- Under each key the winner of the merge is not beaten by what was merged in.
  rw [absorbs_iff irrefl]
  intro key y offered
  rw [getElem?_merge, offered]
  cases held : a[key]? with
  | none => exact ⟨y, rfl, irrefl y⟩
  | some x =>
    by_cases wins : beats y x
    · exact ⟨y, by simp [winner, wins], irrefl y⟩
    · exact ⟨x, by simp [winner, wins], by simpa using wins⟩

include chain

/-- What a map has taken into account stays so when more is merged into it. -/
theorem absorbs_merge_left {a b : OrdMap K V} (absorbed : Absorbs beats a b) (added : OrdMap K V) :
    Absorbs beats (merge beats a added) b := by
  -- A value added later only wins where it beats the held one, so the absorbed value does not
  -- beat it either.
  rw [absorbs_iff irrefl] at *
  intro key y offered
  obtain ⟨x, held, loses⟩ := absorbed key y offered
  rw [getElem?_merge, held]
  cases other : added[key]? with
  | none => exact ⟨x, rfl, loses⟩
  | some z =>
    by_cases wins : beats z x
    · refine ⟨z, by simp [winner, wins], ?_⟩
      cases again : beats y z with
      | false => rfl
      | true =>
        rw [chain y z x again wins] at loses
        exact loses
    · exact ⟨x, by simp [winner, wins], loses⟩

end

end NasTools.Latest
