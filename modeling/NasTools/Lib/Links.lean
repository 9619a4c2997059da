import NasTools.Lib.Fallible

/-!
Names that stand for things or for other names: where a chain of links ends, and what it depends on.

What stands at a place is looked up in an environment, so that this serves any kind of directory.
-/

namespace NasTools.Links

variable {P Q X E : Type}

/-- What a name stands for. -/
inductive Named (P X : Type) where
  | link (next : P)
  | thing (x : X)

/-- The same with every link read in another way. -/
def Named.map (f : P → Q) : Named P X → Named Q X
  | .link next => .link (f next)
  | .thing x => .thing x

/-- What is found at a place when it is looked at. -/
abbrev Look (P X E : Type) := P → Except E (Option (Named P X))

/-- Whether a place can be looked at and holds no link, so that a chain ends there. -/
def Ends (look : Look P X E) (p : P) : Prop :=
  ∃ found, look p = .ok found ∧ ∀ next, found ≠ some (.link next)

/-- The place a chain of links ends at; one with too many of them is given up. -/
def follow (look : Look P X E) (tooMany : E) : Nat → P → Except E P
  | 0, _ => .error tooMany
  | n + 1, p =>
    match look p with
    | .error e => .error e
    | .ok (some (.link next)) => follow look tooMany n next
    | .ok _ => .ok p

/-- What a chain of links ends at. -/
def resolve (look : Look P X E) (tooMany : E) (n : Nat) (p : P) : Except E (Option X) := do
  match ← look (← follow look tooMany n p) with
  | some (.thing x) => return some x
  | _ => return none

/-- The places that are looked at on the way. -/
def trail (look : Look P X E) : Nat → P → List P
  | 0, _ => []
  | n + 1, p =>
    match look p with
    | .ok (some (.link next)) => p :: trail look n next
    | _ => [p]

variable {look other : Look P X E} {tooMany : E} {n : Nat} {p q next : P}

/-- At a link a chain goes on. -/
theorem follow_link (linked : look p = .ok (some (.link next))) :
    follow look tooMany (n + 1) p = follow look tooMany n next := by
  rw [follow, linked]

/-- At anything else it ends. -/
theorem follow_end (ends : Ends look p) : follow look tooMany (n + 1) p = .ok p := by
  -- A path that ends is looked at once, and whatever stands there is no link.
  obtain ⟨found, seen, nolink⟩ := ends
  rw [follow, seen]
  match found with
  | none => rfl
  | some (.thing _) => rfl
  | some (.link next) => exact absurd rfl (nolink next)

/-- A place that cannot be looked at is where it fails. -/
theorem follow_error {e : E} (shut : look p = .error e) :
    follow look tooMany (n + 1) p = .error e := by
  rw [follow, shut]

/-- A place holds a link, or ends a chain, or cannot be looked at. -/
theorem link_or_ends (look : Look P X E) (p : P) :
    (∃ next, look p = .ok (some (.link next))) ∨ Ends look p ∨ ∃ e, look p = .error e := by
  -- A look fails, or it finds a link, or the path ends there.
  match seen : look p with
  | .error e => exact .inr (.inr ⟨e, rfl⟩)
  | .ok none => exact .inr (.inl ⟨none, seen, nofun⟩)
  | .ok (some (.thing x)) => exact .inr (.inl ⟨some (.thing x), seen, nofun⟩)
  | .ok (some (.link next)) => exact .inl ⟨next, rfl⟩

/-- A link is passed on to the rest of the trail. -/
theorem trail_link (linked : look p = .ok (some (.link next))) :
    trail look (n + 1) p = p :: trail look n next := by
  rw [trail, linked]

/-- Anything else is the last place of it. -/
theorem trail_last (last : ∀ next, look p ≠ .ok (some (.link next))) :
    trail look (n + 1) p = [p] := by
  -- Without a link the trail has only its first path.
  rw [trail]
  split
  · rename_i next linked
    exact absurd linked (last next)
  · rfl

/-- A path that ends is no link. -/
theorem Ends.last (ends : Ends look p) (next : P) : look p ≠ .ok (some (.link next)) := by
  obtain ⟨found, seen, nolink⟩ := ends
  rw [seen]
  exact fun linked => nolink next (Except.ok.inj linked)

/-- A chain depends on the places it passes alone. -/
theorem follow_congr (same : ∀ q ∈ trail look n p, other q = look q) :
    follow other tooMany n p = follow look tooMany n p := by
  -- Induction over the steps that are left: only the paths on the trail are looked at.
  induction n generalizing p with
  | zero => rfl
  | succ n ih =>
    rcases link_or_ends look p with ⟨next, linked⟩ | ends | ⟨e, shut⟩
    · -- The link itself is passed, and then the rest of the chain.
      rw [trail_link linked] at same
      rw [follow_link linked, follow_link ((same p List.mem_cons_self).trans linked)]
      exact ih fun q later => same q (List.mem_cons_of_mem _ later)
    · rw [trail_last ends.last] at same
      obtain ⟨found, seen, nolink⟩ := ends
      rw [follow_end ⟨found, seen, nolink⟩,
        follow_end ⟨found, (same p List.mem_cons_self).trans seen, nolink⟩]
    · rw [trail_last (by simp [shut])] at same
      rw [follow_error shut, follow_error ((same p List.mem_cons_self).trans shut)]

/-- So do the places themselves. -/
theorem trail_congr (same : ∀ q ∈ trail look n p, other q = look q) :
    trail other n p = trail look n p := by
  -- Induction over the steps that are left, as for following.
  induction n generalizing p with
  | zero => rfl
  | succ n ih =>
    by_cases last : ∀ next, look p ≠ .ok (some (.link next))
    · rw [trail_last last] at same ⊢
      rw [trail_last]
      rw [same p List.mem_cons_self]
      exact last
    · push Not at last
      obtain ⟨next, linked⟩ := last
      rw [trail_link linked] at same ⊢
      rw [trail_link ((same p List.mem_cons_self).trans linked)]
      rw [ih fun q later => same q (List.mem_cons_of_mem _ later)]

/-- A chain that ends somewhere has passed that place, and it does end there. -/
theorem follow_eq_ok (ended : follow look tooMany n p = .ok q) :
    q ∈ trail look n p ∧ Ends look q := by
  -- Following stops with success only at an end, and it has passed every path before.
  induction n generalizing p with
  | zero => cases ended
  | succ n ih =>
    rcases link_or_ends look p with ⟨next, linked⟩ | ends | ⟨e, shut⟩
    · rw [follow_link linked] at ended
      obtain ⟨passed, ends⟩ := ih ended
      rw [trail_link linked]
      exact ⟨List.mem_cons_of_mem _ passed, ends⟩
    · rw [follow_end ends] at ended
      obtain rfl := Except.ok.inj ended
      rw [trail_last ends.last]
      exact ⟨List.mem_singleton_self _, ends⟩
    · rw [follow_error shut] at ended
      cases ended

/-- What a chain ends at depends on the places it passes alone. -/
theorem resolve_congr (same : ∀ q ∈ trail look n p, other q = look q) :
    resolve other tooMany n p = resolve look tooMany n p := by
  -- The place it ends at is one of them.
  unfold resolve
  rw [follow_congr same]
  cases ended : follow look tooMany n p with
  | error e => rfl
  | ok q =>
    simp only [except_ok_bind]
    rw [same q (follow_eq_ok ended).1]

/-- From a place that is passed on, the chain goes on as it does from that place. -/
theorem follow_of_mem (passed : q ∈ trail look n p) :
    ∃ m ≤ n, follow look tooMany n p = follow look tooMany m q := by
  -- From a path on the trail the rest is followed with the steps that are left.
  induction n generalizing p with
  | zero => cases passed
  | succ n ih =>
    by_cases last : ∀ next, look p ≠ .ok (some (.link next))
    · rw [trail_last last] at passed
      obtain rfl := List.mem_singleton.mp passed
      exact ⟨n + 1, le_rfl, rfl⟩
    · push Not at last
      obtain ⟨next, linked⟩ := last
      rw [trail_link linked] at passed
      rcases List.mem_cons.mp passed with rfl | later
      · exact ⟨n + 1, le_rfl, rfl⟩
      · obtain ⟨m, fewer, same⟩ := ih later
        exact ⟨m, fewer.trans (Nat.le_succ n), by rw [follow_link linked, same]⟩

/-- A chain that ends does so when more links are allowed. -/
theorem follow_mono {m : Nat} (fewer : n ≤ m) (ended : follow look tooMany n p = .ok q) :
    follow look tooMany m p = .ok q := by
  -- Steps that are not needed change nothing.
  induction n generalizing p m with
  | zero => cases ended
  | succ n ih =>
    obtain ⟨m, rfl⟩ := Nat.exists_eq_add_of_lt (Nat.lt_of_succ_le fewer)
    rcases link_or_ends look p with ⟨next, linked⟩ | ends | ⟨e, shut⟩
    · rw [follow_link linked] at ended ⊢
      exact ih (Nat.le_add_right n m) ended
    · rw [follow_end ends] at ended ⊢
      exact ended
    · rw [follow_error shut] at ended
      cases ended

/--
A chain that passes a place ends there once it holds no link any more.

The places that changed otherwise end chains, so none of them comes before it.
-/
theorem follow_cut (passed : q ∈ trail look n p) (ends : Ends other q)
    (same : ∀ r, r ≠ q → ¬Ends look r → other r = look r) : follow other tooMany n p = .ok q := by
  -- Up to the path that now ends, all the links are still in place.
  induction n generalizing p with
  | zero => cases passed
  | succ n ih =>
    by_cases here : p = q
    · subst here
      exact follow_end ends
    · -- The chain has to go on, so there is a link, which is still there.
      by_cases last : ∀ next, look p ≠ .ok (some (.link next))
      · rw [trail_last last] at passed
        exact absurd (List.mem_singleton.mp passed).symm here
      · push Not at last
        obtain ⟨next, linked⟩ := last
        rw [trail_link linked] at passed
        have later := (List.mem_cons.mp passed).resolve_left (Ne.symm here)
        have kept := same p here fun ends => ends.last next linked
        rw [follow_link (kept.trans linked)]
        exact ih later

end NasTools.Links
