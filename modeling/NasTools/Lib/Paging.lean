import Mathlib

/-! Lists that are asked for page by page, each page from the place after the last item on. -/

namespace NasTools.Paging

variable {S A : Type}

/-- How pages are read: the place of an item, the last place there is, and when there is enough. -/
structure Reading (A : Type) where
  place : A → Nat
  top : Nat
  enough : List A → Nat → Bool
  -- There is no place behind the last one.
  within : ∀ a, place a ≤ top

/-- The place at which a page ends. -/
def lastPlace (place : A → Nat) (page : List A) (next : Nat) : Nat :=
  (page.getLast?.map place).getD next

/--
Ask for pages until one is empty, until there is enough, or until one ends in front of its start.

Nothing at all is the outcome of a step past the last place.
-/
def gather (r : Reading A) (ask : S → Nat → List A × S) :
    (fuel : Nat) → S → List A → Nat → Option (List A) × S
  | 0, s, out, _ => (some out, s)
  | fuel + 1, s, out, next =>
    if (ask s next).1.isEmpty then (some out, (ask s next).2)
    else
      let out := out ++ (ask s next).1
      let last := lastPlace r.place out next
      if r.enough out last ∨ last < next then (some out, (ask s next).2)
      else if last = r.top then (none, (ask s next).2)
      else gather r ask fuel (ask s next).2 out (last + 1)

variable {r : Reading A} {ask : S → Nat → List A × S} {cap fuel : Nat} {s : S} {out : List A}
    {next : Nat}

/-- The last place of pages put together is that of the last page. -/
theorem lastPlace_append {place : A → Nat} {page : List A} (some_ : page ≠ []) (next : Nat) :
    lastPlace place (out ++ page) next = lastPlace place page 0 := by
  obtain ⟨front, last, rfl⟩ := List.eq_nil_or_concat' page |>.resolve_left some_
  simp [lastPlace, ← List.append_assoc]

/-- Everything that one round can do, with what it comes to. -/
inductive Round (r : Reading A) (ask : S → Nat → List A × S) (fuel : Nat) (s : S) (out : List A)
    (next : Nat) :
    Option (List A) × S → Prop where
  | empty (none_ : (ask s next).1 = []) : Round r ask fuel s out next (some out, (ask s next).2)
  | ended (some_ : (ask s next).1 ≠ [])
      (ends : r.enough (out ++ (ask s next).1) (lastPlace r.place (ask s next).1 0) = true ∨
        lastPlace r.place (ask s next).1 0 < next) :
      Round r ask fuel s out next (some (out ++ (ask s next).1), (ask s next).2)
  -- The step past the last place.
  | past (some_ : (ask s next).1 ≠ [])
      (more : r.enough (out ++ (ask s next).1) (lastPlace r.place (ask s next).1 0) = false)
      (goesOn : next ≤ lastPlace r.place (ask s next).1 0)
        (top : lastPlace r.place (ask s next).1 0 = r.top) :
      Round r ask fuel s out next (none, (ask s next).2)
  | onward (some_ : (ask s next).1 ≠ [])
      (more : r.enough (out ++ (ask s next).1) (lastPlace r.place (ask s next).1 0) = false)
      (goesOn : next ≤ lastPlace r.place (ask s next).1 0)
        (below : lastPlace r.place (ask s next).1 0 < r.top) :
      Round r ask fuel s out next
        (gather r ask fuel (ask s next).2 (out ++ (ask s next).1)
          (lastPlace r.place (ask s next).1 0 + 1))

/-- Asking for one more page ends in one of the four ways of a round. -/
theorem gather_round (r : Reading A) (ask : S → Nat → List A × S) (fuel : Nat) (s : S)
    (out : List A) (next : Nat) :
    Round r ask fuel s out next (gather r ask (fuel + 1) s out next) := by
  -- The cases follow the loop: an empty page, an end that was reached, the top passed, or a round
  -- more.
  by_cases empty : (ask s next).1 = []
  · rw [gather, if_pos (by simpa using empty)]
    exact .empty empty
  have within : lastPlace r.place (ask s next).1 0 ≤ r.top := by
    obtain ⟨front, last, is⟩ := List.eq_nil_or_concat' (ask s next).1 |>.resolve_left empty
    simp [lastPlace, is, r.within]
  rw [gather, if_neg (by simpa using empty)]
  simp only [lastPlace_append empty]
  split
  · rename_i ends
    exact .ended empty ends
  · rename_i ends
    simp only [not_or, Bool.not_eq_true, not_lt] at ends
    split
    · rename_i top
      exact .past empty ends.1 ends.2 top
    · rename_i other
      exact .onward empty ends.1 ends.2 (lt_of_le_of_ne within other)

section

variable (bounded : ∀ out last, cap ≤ out.length → r.enough out last = true)

include bounded

/-- As long as there is not enough, there is room for more. -/
theorem room_of_more {last : Nat} (more : r.enough out last = false) : out.length < cap := by
  by_contra full
  rw [bounded out last (Nat.le_of_not_lt full)] at more
  cases more

/-- Fuel that covers the room is never used up: with more of it, nothing else comes out. -/
theorem gather_fuel {fuel' : Nat} (short : out.length < cap) (covers : cap ≤ out.length + fuel)
    (covers' : cap ≤ out.length + fuel') :
    gather r ask fuel s out next = gather r ask fuel' s out next := by
  -- Induction over the rounds: what is left of the room bounds those that are needed.
  induction fuel generalizing fuel' s out next with
  | zero => exact absurd covers (by omega)
  | succ fuel ih =>
    obtain ⟨fuel', rfl⟩ : ∃ n, fuel' = n + 1 := ⟨fuel' - 1, by omega⟩
    rw [gather, gather]
    split
    · rfl
    rename_i filled
    simp only [List.isEmpty_iff] at filled
    dsimp only
    split
    · rfl
    rename_i ends
    simp only [not_or, Bool.not_eq_true] at ends
    split
    · rfl
    -- Every page takes up some of the room.
    have longer : 0 < (ask s next).1.length := List.length_pos_of_ne_nil filled
    refine ih (room_of_more bounded ends.1) ?_ ?_ <;> rw [List.length_append] <;> omega

/-- No more rounds are needed than there is room. -/
theorem gather_rounds {count : S → Nat} (counts : ∀ s next, count (ask s next).2 = count s + 1)
    (short : out.length < cap) :
    count (gather r ask fuel s out next).2 + out.length ≤ count s + cap := by
  -- Each round asks once and, if it goes on, has taken at least one item.
  induction fuel generalizing s out next with
  | zero =>
    simp only [gather]
    omega
  | succ fuel ih =>
    have step := counts s next
    have round := gather_round r ask fuel s out next
    generalize gather r ask (fuel + 1) s out next = outcome at round
    cases round with
    | empty | ended | past => dsimp only; omega
    | onward filled more =>
      have longer : 0 < (ask s next).1.length := List.length_pos_of_ne_nil filled
      have later :=
        @ih (ask s next).2 _ (lastPlace r.place (ask s next).1 0 + 1) (room_of_more bounded more)
      rw [List.length_append] at later
      omega

end

/-- Whoever has enough at the last place never steps past it. -/
theorem gather_ne_none (enough : ∀ out, r.enough out r.top = true) :
    (gather r ask fuel s out next).1 ≠ none := by
  -- The only failing round needs a reading that is not enough at the top.
  induction fuel generalizing s out next with
  | zero => exact nofun
  | succ fuel ih =>
    have round := gather_round r ask fuel s out next
    generalize gather r ask (fuel + 1) s out next = outcome at round
    cases round with
    | empty | ended => exact nofun
    | past _ more _ top =>
      rw [top, enough] at more
      cases more
    | onward => exact ih

/--
Pages that lead past the last place: each goes on behind the one before, there is room for all,
and one ends at that place.
-/
structure Tops (r : Reading A) (room start : Nat) (sent : Nat → List A) (k : Nat) : Prop where
  filled : ∀ i ≤ k, sent i ≠ []
  room : ∑ i ∈ Finset.range (k + 1), (sent i).length < room
  start : start ≤ lastPlace r.place (sent 0) 0
  rising : ∀ i < k, lastPlace r.place (sent i) 0 < lastPlace r.place (sent (i + 1)) 0
  top : lastPlace r.place (sent k) 0 = r.top

/-- Pages that come one after the other, whatever is asked. -/
def stream (sent : Nat → List A) (i _next : Nat) : List A × Nat := (sent i, i + 1)

/-- What is kept is less than there was room for, and one page that came. -/
theorem gather_stream_kept {sent : Nat → List A} {i : Nat} {result : List A}
    (bounded : ∀ out last, cap ≤ out.length → r.enough out last = true) (short : out.length < cap)
    (covers : cap ≤ out.length + fuel)
    (kept : (gather r (stream sent) fuel i out next).1 = some result) :
    ∃ j < (gather r (stream sent) fuel i out next).2, result.length < cap + (sent j).length := by
  -- The last page asked for is what the result may have beyond the cap; the earlier ones left
  -- room below it.
  induction fuel generalizing i out next with
  | zero => exact absurd covers (by omega)
  | succ fuel ih =>
    have round := gather_round r (stream sent) fuel i out next
    generalize gather r (stream sent) (fuel + 1) i out next = outcome at round kept ⊢
    cases round with
    | empty =>
      obtain rfl := Option.some.inj kept
      exact ⟨i, Nat.lt_succ_self i, by omega⟩
    | ended =>
      obtain rfl := Option.some.inj kept
      exact ⟨i, Nat.lt_succ_self i, by rw [List.length_append]; exact Nat.add_lt_add_right short _⟩
    | past => cases kept
    | onward filled more =>
      have longer : 0 < (stream sent i next).1.length := List.length_pos_of_ne_nil filled
      refine ih (room_of_more bounded more) ?_ kept
      rw [List.length_append]
      omega

/-- The last place of a page is below the top. -/
theorem lastPlace_le (r : Reading A) (page : List A) : lastPlace r.place page 0 ≤ r.top := by
  unfold lastPlace
  cases page.getLast? with
  | none => exact Nat.zero_le _
  | some a => exact r.within a

/-- The first of several pages goes on, and the others lead past the last place from behind it. -/
theorem tops_succ_iff {sent : Nat → List A} {room start k : Nat} :
    Tops r room start sent (k + 1) ↔
      sent 0 ≠ [] ∧ (sent 0).length < room ∧ start ≤ lastPlace r.place (sent 0) 0 ∧
        lastPlace r.place (sent 0) 0 < r.top ∧
        Tops r (room - (sent 0).length) (lastPlace r.place (sent 0) 0 + 1)
          (fun i => sent (i + 1)) k := by
  -- The first page is split off, and the others are the same condition with less room.
  have sum : ∑ i ∈ Finset.range (k + 1 + 1), (sent i).length =
      ∑ i ∈ Finset.range (k + 1), (sent (i + 1)).length + (sent 0).length :=
        Finset.sum_range_succ' _ _
  constructor
  · intro tops
    have room := tops.room
    have step := tops.rising 0 (Nat.succ_pos k)
    refine ⟨tops.filled 0
      (Nat.zero_le _), by omega, tops.start, step.trans_le (lastPlace_le r _), ?_⟩
    exact ⟨fun i bound => tops.filled (i + 1)
      (by omega), by omega, step, fun i bound => tops.rising (i + 1) (by omega), tops.top⟩
  · intro ⟨filled, room, start, _, later⟩
    have rest := later.room
    refine ⟨?_, by omega, start, ?_, later.top⟩
    · intro i bound
      cases i with
      | zero => exact filled
      | succ i => exact later.filled i (by omega)
    · intro i bound
      cases i with
      | zero => exact later.start
      | succ i => exact later.rising i (by omega)

/--
A reader that stops at a number of items steps past the last place exactly where the
pages lead it there.
-/
theorem gather_stream_none_iff {sent : Nat → List A} {i : Nat}
    (counted : ∀ out last, r.enough out last = decide (cap ≤ out.length)) (short : out.length < cap)
    (covers : cap ≤ out.length + fuel) :
    (gather r (stream sent) fuel i out next).1 = none ↔
      ∃ k, Tops r (cap - out.length) next (fun j => sent (i + j)) k := by
  -- Induction over the rounds: this page leads past the last place, or a later one does.
  induction fuel generalizing i out next with
  | zero => exact absurd covers (by omega)
  | succ fuel ih =>
    have round := gather_round r (stream sent) fuel i out next
    generalize gather r (stream sent) (fuel + 1) i out next = outcome at round
    have first : (stream sent i next).1 = sent i := rfl
    cases round with
    | empty none_ =>
      refine ⟨nofun, ?_⟩
      intro ⟨k, tops⟩
      exact absurd none_ (tops.filled 0 (Nat.zero_le _))
    | ended some_ ends =>
      refine ⟨nofun, ?_⟩
      intro ⟨k, tops⟩
      rcases ends with full | back
      · -- The first page takes up the room of all of them.
        rw [counted, decide_eq_true_eq, List.length_append, first] at full
        have sum : (sent (i + 0)).length ≤ ∑ j ∈ Finset.range (k + 1), (sent (i + j)).length :=
          Finset.single_le_sum (f := fun j => (sent (i + j)).length) (fun _ _ => Nat.zero_le _)
            (Finset.mem_range.mpr (Nat.succ_pos k))
        have room := tops.room
        rw [Nat.add_zero] at sum
        omega
      · exact absurd tops.start (Nat.not_le_of_lt back)
    | past some_ more goesOn top =>
      refine ⟨fun _ => ⟨0, ?_⟩, fun _ => rfl⟩
      rw [counted, decide_eq_false_iff_not, List.length_append, first] at more
      refine ⟨?_, ?_, goesOn, nofun, top⟩
      · intro j bound
        obtain rfl : j = 0 := by omega
        exact some_
      · rw [Finset.sum_range_one]
        exact (by omega : (sent i).length < cap - out.length)
    | onward some_ more goesOn below =>
      rw [counted, decide_eq_false_iff_not] at more
      have covers' : cap ≤ (out ++ (stream sent i next).1).length + fuel := by
        have longer : 0 < (stream sent i next).1.length := List.length_pos_of_ne_nil some_
        rw [List.length_append]
        omega
      refine (ih (by omega) covers').trans ?_
      rw [List.length_append, first] at more
      -- One page alone does not lead past the last place, so there is one behind it.
      have shift : (fun j => sent (i + 1 + j)) = fun j => sent (i + (j + 1)) := by
        funext j
        rw [Nat.add_assoc, Nat.add_comm 1 j]
      rw [List.length_append, first, ← Nat.sub_sub]
      show (∃ k, Tops r _ _ (fun j => sent (i + 1 + j)) k) ↔ _
      rw [shift]
      constructor
      · intro ⟨k, tops⟩
        exact ⟨k + 1,
          tops_succ_iff.mpr ⟨some_, by show (sent i).length < _; omega, goesOn, below, tops⟩⟩
      · intro ⟨k, tops⟩
        cases k with
        | zero => exact absurd tops.top (Nat.ne_of_lt below)
        | succ k => exact ⟨k, (tops_succ_iff.mp tops).2.2.2.2⟩

section

variable {place : A → Nat} {listed : List A} {page : Nat}

/-- What is listed from a place on, a page at a time. -/
def shelf (place : A → Nat) (listed : List A) (page : Nat) (s : S) (next : Nat) : List A × S :=
  ((listed.filter fun a => next ≤ place a).take page, s)

/-- No two items of one place stand on both sides of the end of a page. -/
def Apart (place : A → Nat) (page : Nat) (items : List A) : Prop :=
  ∀ k a b, items[(k + 1) * page - 1]? = some a → items[(k + 1) * page]? = some b → place a < place b

/-- Items that fit one page need no places apart. -/
theorem apart_of_length_le {items : List A} (short : items.length ≤ page) :
    Apart place page items := by
  intro k a b _ behind
  have bound := (List.getElem?_eq_some_iff.mp behind).1
  have least : page ≤ (k + 1) * page := Nat.le_mul_of_pos_left page (Nat.succ_pos k)
  omega

/-- The end of the first page, and the ends of the others. -/
theorem apart_iff (positive : 0 < page) {items : List A} :
    Apart place page items ↔
      (∀ a b, items[page - 1]? = some a → items[page]? = some b → place a < place b) ∧
        Apart place page (items.drop page) := by
  -- The first page boundary is split off, and the others are those of what lies behind it.
  have behind (k : Nat) : (items.drop page)[(k + 1) * page - 1]? = items[(k + 1 + 1) * page - 1]? ∧
      (items.drop page)[(k + 1) * page]? = items[(k + 1 + 1) * page]? := by
    have least : 0 < (k + 1) * page := Nat.mul_pos (Nat.succ_pos k) positive
    rw [List.getElem?_drop, List.getElem?_drop, Nat.succ_mul (k + 1)]
    exact ⟨congrArg (items[·]?) (by omega), congrArg (items[·]?) (by omega)⟩
  constructor
  · intro apart
    refine ⟨fun a b => by simpa using apart 0 a b, ?_⟩
    intro k a b
    rw [(behind k).1, (behind k).2]
    exact apart (k + 1) a b
  · intro ⟨first, later⟩ k a b
    cases k with
    | zero => simpa using first a b
    | succ k =>
      rw [← (behind k).1, ← (behind k).2]
      exact later k a b

/-- A page of ascending items ends at its greatest place, and an item stands there. -/
theorem lastPlace_greatest {front : List A} (sorted : front.Pairwise fun a b => place a ≤ place b)
    (some_ : front ≠ []) :
    (∀ a ∈ front, place a ≤ lastPlace place front 0) ∧
      ∃ a ∈ front, place a = lastPlace place front 0 := by
  -- The page is sorted, so its last item has the greatest place.
  obtain ⟨before, last, rfl⟩ := List.eq_nil_or_concat' front |>.resolve_left some_
  have is : lastPlace place (before ++ [last]) 0 = place last := by simp [lastPlace]
  rw [is]
  refine ⟨?_, last, by simp, rfl⟩
  intro a member
  rcases List.mem_append.mp member with inside | here
  · exact (List.pairwise_append.mp sorted).2.2 a inside last (List.mem_singleton_self last)
  · rw [List.mem_singleton.mp here]

/--
What the place behind a page leaves of the list: what stands behind the page, without
the place it ends at.
-/
theorem filter_behind (sorted : listed.Pairwise fun a b => place a ≤ place b) {front back : List A}
    (cut : (listed.filter fun a => next ≤ place a) = front ++ back) (some_ : front ≠ []) :
    (listed.filter fun a => lastPlace place front 0 + 1 ≤ place a) =
      back.filter fun a => lastPlace place front 0 + 1 ≤ place a := by
  -- The list is sorted, so what follows the page is what lies behind its last place.
  have inside : (front ++ back).Pairwise fun a b => place a ≤ place b := cut ▸ sorted.filter _
  obtain ⟨greatest, last, member, is⟩ := lastPlace_greatest (List.pairwise_append.mp inside).1 some_
  -- The page ends behind its start, so nothing is left out by asking in two steps.
  have start : next ≤ place last := by
    have kept : last ∈ listed.filter fun a => next ≤ place a := cut ▸ List.mem_append_left _ member
    simpa using (List.mem_filter.mp kept).2
  have twice : (listed.filter fun a => lastPlace place front 0 + 1 ≤ place a) =
      (listed.filter fun a => next ≤ place a).filter fun a => lastPlace place front 0 + 1 ≤
        place a := by
    rw [List.filter_filter]
    refine List.filter_congr fun a _ => ?_
    rw [← Bool.decide_and, decide_eq_decide]
    omega
  have none_ : (front.filter fun a => lastPlace place front 0 + 1 ≤ place a) = [] := by
    rw [List.filter_eq_nil_iff]
    intro a listed
    have below := greatest a listed
    simpa using by omega
  rw [twice, cut, List.filter_append, none_, List.nil_append]

variable (sorted : listed.Pairwise fun a b => r.place a ≤ r.place b)

include sorted

/-- Only what is listed comes out, in the order of the list. -/
theorem gather_shelf_sublist {result : List A}
    (kept : (gather r (shelf r.place listed page) fuel s out next).1 = some result) :
    result.Sublist (out ++ listed.filter fun a => next ≤ r.place a) := by
  -- Each round adds a front of what is listed from the next place on, and the rest is listed
  -- behind it.
  induction fuel generalizing s out next with
  | zero =>
    obtain rfl := Option.some.inj kept
    exact List.sublist_append_left _ _
  | succ fuel ih =>
    have round := gather_round r (shelf r.place listed page) fuel s out next
    generalize gather r (shelf r.place listed page) (fuel + 1) s out next = outcome at round kept
    have cut := (List.take_append_drop page (listed.filter fun a => next ≤ r.place a)).symm
    cases round with
    | empty =>
      obtain rfl := Option.some.inj kept
      exact List.sublist_append_left _ _
    | ended =>
      obtain rfl := Option.some.inj kept
      exact (List.Sublist.refl out).append (List.take_sublist _ _)
    | past => cases kept
    | onward some_ =>
      have later := ih kept
      rw [shelf, filter_behind sorted cut some_, List.append_assoc] at later
      refine later.trans ((List.Sublist.refl out).append ?_)
      exact ((List.Sublist.refl _).append List.filter_sublist).trans (by rw [List.take_append_drop])

variable (positive : 0 < page)

omit sorted in
/-- A full page with something behind it ends at the place of its last item. -/
theorem lastPlace_take (place : A → Nat) (positive : 0 < page) {items : List A}
    (long : page < items.length) :
    ∃ a b, items[page - 1]? = some a ∧ items[page]? = some b ∧
      lastPlace place (items.take page) 0 = place a := by
  -- A full page ends at its last item, and one more item follows it.
  have before : page - 1 < items.length := by omega
  refine ⟨items[page - 1], items[page], List.getElem?_eq_getElem before,
    List.getElem?_eq_getElem long, ?_⟩
  have last : (items.take page).getLast? = some items[page - 1] := by
    rw [List.getLast?_eq_getElem?, List.length_take, Nat.min_eq_left long.le, List.getElem?_take,
      if_pos (by omega)]
    exact List.getElem?_eq_getElem before
  rw [lastPlace, last]
  rfl

include positive

omit sorted in
/-- Where a page ends between two places, what stands behind it is left whole. -/
theorem filter_behind_of_apart {place : A → Nat}
    (sorted : listed.Pairwise fun a b => place a ≤ place b) {items : List A}
    (rest : (listed.filter fun a => next ≤ place a) = items) (some_ : items.take page ≠ [])
    (apart : ∀ a b, items[page - 1]? = some a → items[page]? = some b → place a < place b) :
    (listed.filter fun a => lastPlace place (items.take page) 0 + 1 ≤ place a) =
      items.drop page := by
  -- What follows a full page starts at a greater place, and everything behind it is at least as
  -- far.
  rw [filter_behind sorted (rest.trans (List.take_append_drop page items).symm) some_,
    List.filter_eq_self]
  intro c member
  have long : page < items.length := by
    by_contra short_
    rw [List.drop_eq_nil_of_le (by omega)] at member
    exact absurd member List.not_mem_nil
  obtain ⟨a, b, before, after, is⟩ := lastPlace_take place positive long
  have step := apart a b before after
  obtain ⟨_, found⟩ := List.getElem?_eq_some_iff.mp after
  have ascending :=
    (rest ▸ sorted.filter _ : items.Pairwise fun a b => place a ≤ place b).drop (i := page)
  rw [List.drop_eq_getElem_cons long, found] at member ascending
  have least : place b ≤ place c := by
    rcases List.mem_cons.mp member with rfl | later
    · exact le_rfl
    · exact (List.pairwise_cons.mp ascending).1 c later
  simpa using by omega

/--
A reader that stops at a number of items, which are not more than that, reads all of them
exactly when no two of one place stand on both sides of the end of a page, and it need not
go on from the last place.
-/
theorem gather_shelf_iff (counted : ∀ out last, r.enough out last = decide (cap ≤ out.length))
    (short : out.length < cap) (covers : cap ≤ out.length + fuel)
    (fits : out.length + (listed.filter fun a => next ≤ r.place a).length ≤ cap) :
    (gather r (shelf r.place listed page) fuel s out next).1 =
      some (out ++ listed.filter fun a => next ≤ r.place a) ↔
      Apart r.place page (listed.filter fun a => next ≤ r.place a) ∧
        ∀ a, (listed.filter fun a => next ≤ r.place a).getLast? = some a → r.place a = r.top →
          cap ≤ out.length + (listed.filter fun a => next ≤ r.place a).length := by
  -- Induction over the rounds, with what is left of the list.
  induction fuel generalizing s out next with
  | zero => exact absurd covers (by omega)
  | succ fuel ih =>
    have round := gather_round r (shelf r.place listed page) fuel s out next
    generalize gather r (shelf r.place listed page) (fuel + 1) s out next = outcome at round
    have cut := (List.take_append_drop page (listed.filter fun a => next ≤ r.place a)).symm
    have inside : (listed.filter fun a => next ≤ r.place a).Pairwise fun a b =>
      r.place a ≤ r.place b := sorted.filter _
    have first : (shelf r.place listed page s next).1 =
      (listed.filter fun a => next ≤ r.place a).take page := rfl
    generalize rest : (listed.filter fun a => next ≤ r.place a) = items at *
    cases round with
    | empty none_ =>
      have nothing : items = [] := by
        rcases List.take_eq_nil_iff.mp (first.symm.trans none_) with zero | nothing
        · exact absurd zero (Nat.ne_of_gt positive)
        · exact nothing
      subst nothing
      simp [Apart]
    | ended some_ ends =>
      rw [first] at some_ ends ⊢
      have enough : cap ≤ (out ++ items.take page).length := by
        rcases ends with full | back
        · simpa [counted] using full
        · -- A page starts where it was asked for, so it does not end in front of that.
          obtain ⟨_, last, member, is⟩ :=
            lastPlace_greatest (cut ▸ inside |> List.pairwise_append.mp).1 some_
          have kept : last ∈ listed.filter fun a => next ≤ r.place a :=
            rest ▸ List.mem_of_mem_take member
          have start : next ≤ r.place last := by simpa using (List.mem_filter.mp kept).2
          omega
      rw [List.length_append, List.length_take] at enough
      have short_ : items.length ≤ page := by omega
      rw [List.take_of_length_le short_]
      exact ⟨fun _ => ⟨apart_of_length_le short_, fun _ _ _ => by omega⟩, fun _ => rfl⟩
    | past some_ more goesOn top =>
      rw [first] at some_ more top
      refine ⟨nofun, ?_⟩
      intro ⟨apart, last⟩
      rw [counted, decide_eq_false_iff_not, List.length_append] at more
      by_cases long : page < items.length
      · -- Behind the page stands something that is no further than the last place.
        obtain ⟨a, b, before, behind, is⟩ := lastPlace_take r.place positive long
        have step := ((apart_iff positive).mp apart).1 a b before behind
        have bound := r.within b
        omega
      · rw [List.take_of_length_le (by omega)] at some_ more top
        obtain ⟨front, a, rfl⟩ := List.eq_nil_or_concat' items |>.resolve_left some_
        exact absurd (last a (by simp) (by simpa [lastPlace] using top)) more
    | onward some_ more goesOn below =>
      rw [first] at some_ more goesOn below ⊢
      rw [counted, decide_eq_false_iff_not] at more
      have longer : 0 < (items.take page).length := List.length_pos_of_ne_nil some_
      have parts : items.length = (items.take page).length + (items.drop page).length := by
        rw [← List.length_append, List.take_append_drop]
      have lengths : (out ++ items.take page).length = out.length + (items.take page).length :=
        List.length_append
      by_cases cutApart : ∀ a b, items[page - 1]? = some a → items[page]? = some b →
        r.place a < r.place b
      · -- Nothing is left out between this page and the next one.
        have behind := filter_behind_of_apart positive sorted rest some_ cutApart
        have later := @ih (shelf r.place listed page s next).2 (out ++ items.take page)
          (lastPlace r.place (items.take page) 0 + 1) (by omega) (by omega) (by rw [behind]; omega)
        rw [behind, List.append_assoc, ← cut] at later
        have split : Apart r.place page items ↔ _ := apart_iff positive
        rw [later, split, and_iff_right cutApart]
        -- The list ends where what is behind the page ends; the page itself ends in
        -- front of the last place.
        refine and_congr_right fun _ => ?_
        rw [lengths, Nat.add_assoc, ← parts]
        rcases List.eq_nil_or_concat' (items.drop page) with none_ | ⟨front, top, is⟩
        · rw [none_, List.append_nil] at cut
          refine ⟨fun _ a is isTop => ?_, fun _ a is => by simp [none_] at is⟩
          rw [cut] at is
          rw [lastPlace, is] at below
          exact absurd isTop (Nat.ne_of_lt below)
        · have whole : items = (items.take page ++ front) ++ [top] := by
            rw [List.append_assoc, ← is, ← cut]
          have same : items.getLast? = (items.drop page).getLast? :=
            calc items.getLast? = some top := (congrArg _ whole).trans List.getLast?_concat
              _ = (items.drop page).getLast? :=
                (congrArg List.getLast? is ▸ List.getLast?_concat).symm
          rw [same]
      · -- What is left out is missing in the end.
        have behind := filter_behind sorted (rest.trans cut) some_
        push Not at cutApart
        obtain ⟨a, b, before, after, notApart⟩ := cutApart
        obtain ⟨long, found⟩ := List.getElem?_eq_some_iff.mp after
        obtain ⟨a', b', before', _, is⟩ := lastPlace_take r.place positive long
        obtain rfl : a = a' := Option.some.inj (before.symm.trans before')
        have missing : ((items.drop page).filter fun a => lastPlace r.place (items.take page) 0 +
          1 ≤ r.place a).length <
            (items.drop page).length := by
          refine List.length_filter_lt_length_iff_exists.mpr ⟨b, ?_, by simpa using by omega⟩
          rw [List.drop_eq_getElem_cons long, found]
          exact List.mem_cons_self
        constructor
        · intro all
          have within := (gather_shelf_sublist sorted all).length_le
          rw [behind, List.length_append, List.length_append, List.length_append] at within
          omega
        · intro ⟨apart, _⟩
          exact absurd (((apart_iff positive).mp apart).1 a b before after)
            (Nat.not_lt_of_le notApart)

omit sorted in
/--
A reader that also stops at a place, which nothing listed is behind, reads items that
all have places of their own up to that place, or until it has enough; then it has less
than enough and one page.
-/
theorem gather_shelf_front {head : Nat} (strict : listed.Pairwise fun a b => r.place a < r.place b)
    (below : ∀ a ∈ listed, r.place a ≤ head) (reached : head ≤ r.top)
    (either : ∀ out last, r.enough out last = decide (head ≤ last ∨ cap ≤ out.length))
    (short : out.length < cap) (covers : cap ≤ out.length + fuel) :
    ∃ n, (gather r (shelf r.place listed page) fuel s out next).1 =
        some (out ++ (listed.filter fun a => next ≤ r.place a).take n) ∧
      ((listed.filter fun a => next ≤ r.place a).length ≤ n ∨ cap ≤ out.length + n) ∧
      out.length + ((listed.filter fun a => next ≤ r.place a).take n).length < cap + page := by
  -- Induction over the rounds: each takes one page of what is left, and what is left behind it is
  -- the rest of the list.
  induction fuel generalizing s out next with
  | zero => exact absurd covers (by omega)
  | succ fuel ih =>
    have round := gather_round r (shelf r.place listed page) fuel s out next
    generalize gather r (shelf r.place listed page) (fuel + 1) s out next = outcome at round
    have first : (shelf r.place listed page s next).1 =
      (listed.filter fun a => next ≤ r.place a).take page := rfl
    have inside : (listed.filter fun a => next ≤ r.place a).Pairwise fun a b =>
      r.place a < r.place b := strict.filter _
    have known : ∀ a ∈ listed.filter fun a => next ≤ r.place a, next ≤ r.place a ∧
        r.place a ≤ head := by
      intro a member
      obtain ⟨listed_, kept⟩ := List.mem_filter.mp member
      exact ⟨by simpa using kept, below a listed_⟩
    generalize rest : (listed.filter fun a => next ≤ r.place a) = items at *
    have apart : ∀ a b, items[page - 1]? = some a → items[page]? = some b →
        r.place a < r.place b := by
      intro a b before after
      obtain ⟨boundA, rfl⟩ := List.getElem?_eq_some_iff.mp before
      obtain ⟨boundB, rfl⟩ := List.getElem?_eq_some_iff.mp after
      exact List.pairwise_iff_getElem.mp inside _ _ boundA boundB (by omega)
    cases round with
    | empty none_ =>
      rcases List.take_eq_nil_iff.mp (first.symm.trans none_) with zero | nothing
      · exact absurd zero (Nat.ne_of_gt positive)
      · exact ⟨0, by simp, .inl (by simp [nothing]), by simp; omega⟩
    | ended some_ ends =>
      rw [first] at some_ ends ⊢
      refine ⟨page, rfl, ?_, by rw [List.length_take]; omega⟩
      rcases ends with enough | back
      · rw [either, decide_eq_true_eq, List.length_append, List.length_take] at enough
        rcases enough with arrived | full
        · -- Nothing is listed behind the place that was reached.
          by_contra more
          obtain ⟨a, b, before, after, is⟩ :=
            lastPlace_take r.place positive (Nat.lt_of_not_le fun short_ => more (.inl short_))
          have step := apart a b before after
          have bound := (known b (List.mem_of_getElem? after)).2
          omega
        · exact .inr (by omega)
      · have sorted := (inside.imp fun step => Nat.le_of_lt step).take (i := page)
        obtain ⟨_, last, member, is⟩ := lastPlace_greatest sorted some_
        have start := (known last (List.mem_of_mem_take member)).1
        omega
    | past some_ more goesOn top =>
      rw [either, decide_eq_false_iff_not] at more
      exact absurd (.inl (by omega)) more
    | onward some_ more goesOn below_ =>
      rw [first] at some_ more ⊢
      rw [either, decide_eq_false_iff_not, not_or] at more
      have longer : 0 < (items.take page).length := List.length_pos_of_ne_nil some_
      have behind := filter_behind_of_apart positive (strict.imp fun step => Nat.le_of_lt step)
        rest some_ apart
      have lengths : (out ++ items.take page).length = out.length + (items.take page).length :=
        List.length_append
      obtain ⟨n, is, ends, kept⟩ :=
        @ih (shelf r.place listed page s next).2 (out ++ items.take page)
        (lastPlace r.place (items.take page) 0 + 1) (by omega) (by omega)
      rw [behind] at is ends kept
      refine ⟨page + n, ?_, ?_, ?_⟩
      · rw [is, List.append_assoc, List.take_add]
      · rw [List.length_drop, lengths, List.length_take] at ends
        omega
      · rw [List.length_take, List.length_drop, lengths, List.length_take] at kept
        rw [List.length_take]
        omega

end

end NasTools.Paging
