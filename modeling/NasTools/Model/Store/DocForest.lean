import NasTools.Lib.Forest
import NasTools.Model.Store.Doc

/-! The text of a document as a listing of the forest of its insertions. -/

namespace NasTools

open Checked (lift panics)
open Relation (ReflTransGen TransGen)

namespace DocLog

variable {d : DocLog} {id : OpId}

/-- What a document shows of an atom, if it shows it at all. -/
def glyph (d : DocLog) (id : OpId) : Option (OpId × Char) :=
  if id ≠ OpId.root ∧ d.deleted id = false then (charFromU32 (d.charOf id)).map fun ch =>
    (id, ch) else none

/-- What a document shows of some atoms. -/
def shown (d : DocLog) (ids : List OpId) : List (OpId × Char) := ids.filterMap d.glyph

/-- Nothing shows nothing. -/
@[simp] theorem shown_nil : d.shown [] = [] := rfl

/-- The first character is shown first, if it is there. -/
@[simp] theorem shown_cons (ids : List OpId) :
    d.shown (id :: ids) = (d.glyph id).toList ++ d.shown ids := by
  rw [shown, shown, List.filterMap_cons]
  cases d.glyph id <;> rfl

/-- What is shown is put together part by part. -/
@[simp] theorem shown_append (ids ids' : List OpId) :
    d.shown (ids ++ ids') = d.shown ids ++ d.shown ids' :=
  List.filterMap_append

/-- A visit that succeeds adds what is shown of the atom. -/
theorem visit_eq_ok {out out' : List (OpId × Char)} (visited : d.visit id out = lift (.ok out')) :
    out' = out ++ (d.glyph id).toList := by
  -- A visit adds one atom or none.
  unfold visit at visited
  unfold glyph
  split at visited
  · rename_i visible
    rw [if_pos visible]
    split at visited
    · cases visited
    · rename_i ch read
      cases visited
      rw [read]
      rfl
  · rename_i hidden
    rw [if_neg hidden]
    cases visited
    exact (List.append_nil _).symm

/-- The walk over a document, with a note of every operation it is called on. -/
def walkNoting (d : DocLog) : (depth : Nat) → OpId → List OpId × List (OpId × Char) →
    Checked DocError (List OpId × List (OpId × Char))
  | 0, _, _ => panics
  | depth + 1, id, (noted, out) => do
    let out ← d.visit id out
    (d.kids id).foldlM (fun acc kid => walkNoting d depth kid acc) (noted ++ [id], out)

/-- Apart from the notes, walks over some atoms are walks over them. -/
theorem walks_of_walkNoting {depth : Nat} (each : ∀ id noted out,
    d.walk depth id out = (do return (← d.walkNoting depth id (noted, out)).2))
      (forest noted : List OpId) (out : List (OpId × Char)) :
      forest.foldlM (fun out kid => d.walk depth kid out) out =
      (do return (← forest.foldlM (fun acc kid => d.walkNoting depth kid acc) (noted, out)).2) := by
  -- The notes are passed on and never read.
  induction forest generalizing noted out with
  | nil => rfl
  | cons kid kids ih =>
    rw [List.foldlM_cons, List.foldlM_cons, each kid noted out]
    simp only [bind_assoc, pure_bind]
    exact bind_congr fun acc => ih acc.1 acc.2

/-- Apart from the notes, that is the walk. -/
theorem walk_of_walkNoting (depth : Nat) (id : OpId) (noted : List OpId)
    (out : List (OpId × Char)) :
    d.walk depth id out = (do return (← d.walkNoting depth id (noted, out)).2) := by
  -- Induction over the depth: both walks visit the same children.
  induction depth generalizing id noted out with
  | zero => rfl
  | succ depth ih =>
    rw [walk, walkNoting]
    simp only [bind_assoc]
    exact bind_congr fun out => walks_of_walkNoting ih _ _ _

/--
Walks over some atoms that succeed note a listing of their trees, and add what is shown of it.
-/
theorem listing_of_walks {depth : Nat} {forest noted noted' : List OpId}
    {out out' : List (OpId × Char)}
    (walked : forest.foldlM (fun acc kid => d.walkNoting depth kid acc) (noted, out) =
      lift (.ok (noted', out'))) :
    ∃ ids, Listing d.kids forest ids ∧ noted' = noted ++ ids ∧ out' = out ++ d.shown ids := by
  -- Induction over the depth, and for each depth over the trees.
  induction depth generalizing forest noted noted' out out' with
  | zero =>
    cases forest with
    | nil =>
      cases walked
      exact ⟨[], .nil, by simp, by simp⟩
    | cons id forest => cases walked
  | succ depth ih =>
    induction forest generalizing noted out with
    | nil =>
      cases walked
      exact ⟨[], .nil, by simp, by simp⟩
    | cons id forest ihForest =>
      rw [List.foldlM_cons, Checked.bind_eq_ok] at walked
      obtain ⟨⟨mid, midOut⟩, first, later⟩ := walked
      rw [walkNoting, Checked.bind_eq_ok] at first
      obtain ⟨own, visited, below⟩ := first
      -- The atom is noted first, then what is below it, then the other trees.
      obtain ⟨under, listedUnder, rfl, rfl⟩ := ih below
      obtain ⟨rest, listedRest, rfl, rfl⟩ := ihForest later
      rw [visit_eq_ok visited]
      exact ⟨id :: under ++ rest, .cons listedUnder listedRest, by simp, by simp⟩

/-- A walk that succeeds notes a listing of its tree, and adds what is shown of it. -/
theorem listing_of_walk {depth : Nat} {noted noted' : List OpId} {out out' : List (OpId × Char)}
    (walked : d.walkNoting depth id (noted, out) = lift (.ok (noted', out'))) :
    ∃ ids, Listing d.kids [id] ids ∧ noted' = noted ++ ids ∧ out' = out ++ d.shown ids := by
  -- One walk is one round of the loop over the children.
  have walks : [id].foldlM (fun acc kid => d.walkNoting depth kid acc) (noted, out) =
      lift (.ok (noted', out')) := by
    rw [List.foldlM_cons, walked]
    rfl
  exact listing_of_walks walks

/-- What walks over some atoms add is what is shown of the listing of their trees. -/
theorem shown_of_walks {depth : Nat} {forest ids : List OpId} (listing : Listing d.kids forest ids)
    {out out' : List (OpId × Char)}
    (walked : forest.foldlM (fun out kid => d.walk depth kid out) out = lift (.ok out')) :
    out' = out ++ d.shown ids := by
  -- The walk lists the forest and shows each character as it passes it.
  rw [walks_of_walkNoting (walk_of_walkNoting depth) forest [] out, Checked.bind_eq_ok] at walked
  obtain ⟨⟨noted, found⟩, noting, is⟩ := walked
  obtain rfl := Except.ok.inj (Option.some.inj is)
  obtain ⟨ids', listing', _, rfl⟩ := listing_of_walks noting
  rw [listing'.unique listing]

/-- A readable document is listed from its start, and shows what is shown of that listing. -/
theorem listing_of_readable (readable : d.Readable) :
    ∃ ids, Listing d.kids [OpId.root] ids ∧ d.atoms = lift (.ok (d.shown ids)) := by
  -- The walk succeeds, and its notes are the listing.
  obtain ⟨atoms, found⟩ := atoms_ok readable
  have noting := found
  rw [DocLog.atoms, walk_of_walkNoting _ _ [] [], Checked.bind_eq_ok] at noting
  obtain ⟨⟨noted, out⟩, walked, is⟩ := noting
  obtain rfl := Except.ok.inj (Option.some.inj is)
  obtain ⟨ids, listing, _, rfl⟩ := listing_of_walk walked
  exact ⟨ids, listing, found⟩

/-- What a readable document shows, by any listing of it. -/
theorem atoms_of_listing (readable : d.Readable) {ids : List OpId}
    (listing : Listing d.kids [OpId.root] ids) :
    d.atoms = lift (.ok (d.shown ids)) := by
  obtain ⟨ids', listing', found⟩ := listing_of_readable readable
  rw [found, listing'.unique listing]

/-- An atom below the start of a readable document has a path up to it. -/
theorem path_of_below (rooted : d.Rooted) {x : OpId}
    (below : ReflTransGen (fun p c => c ∈ d.kids p) OpId.root x) :
    ∃ up, Ancestry d.above OpId.root (x :: up) := by
  -- By induction from the start down, where the start itself comes up again nowhere.
  induction below with
  | refl => exact ⟨[], .root⟩
  | @tail p c up isKid ih =>
    obtain ⟨above_, path⟩ := ih
    refine ⟨p :: above_, path.child ?_⟩
    rw [above, if_neg, mem_kids.mp isKid]
    rintro rfl
    exact rooted (.tail' (up.lift (fun x => x) fun _ _ member => mem_kids.mp member)
      (mem_kids.mp isKid))

/-- Every atom is a kid of one atom only. -/
theorem parent_of_mem_kids (p c : OpId) (member : c ∈ d.kids p) : d.parent c = some p :=
  mem_kids.mp member

/-- The children are the insertions behind it. -/
theorem mem_kids_iff_insert {kid : OpId} :
    kid ∈ d.kids id ↔ ∃ ch, d.ops[kid]? = some (.insert id ch) := by
  -- Only an insertion has a parent.
  rw [mem_kids, parent]
  split
  · rename_i after ch held
    simp [held]
  · rename_i none_
    refine iff_of_false (fun impossible => by cases impossible) ?_
    rintro ⟨ch, held⟩
    exact none_ id ch held

/-- The kid an operation gives to an atom. -/
def kidOf (id : OpId) (op : OpId × OpKind) : Option OpId :=
  match op.2 with
  | .insert after _ => if after = id then some op.1 else none
  | .delete _ => none

/-- Every operation is listed under its own name. -/
theorem fst_of_kidOf {id x : OpId} {op : OpId × OpKind} (is : kidOf id op = some x) : op.1 = x := by
  -- A child is named by its own operation.
  unfold kidOf at is
  split at is
  · split at is
    · exact Option.some.inj is
    · cases is
  · cases is

/-- The kids of an atom stand in falling order, and none of them twice. -/
theorem kids_sorted (id : OpId) : (d.kids id).Pairwise fun a b => compare b a = .lt := by
  -- The sorting is by falling names, and no name comes twice.
  have falling : Std.Total fun a b : OpId => (compare b a).isLE = true := by
    refine ⟨fun a b => ?_⟩
    cases order : compare b a with
    | lt => exact .inl rfl
    | eq => exact .inl rfl
    | gt =>
      rw [Std.OrientedCmp.lt_of_gt order]
      exact .inr rfl
  have chained : IsTrans OpId fun a b => (compare b a).isLE = true :=
    ⟨fun a b c first second => Std.TransCmp.isLE_trans second first⟩
  have sorted := fun ids => List.pairwise_insertionSort
    (fun a b : OpId => (compare b a).isLE = true) ids
  have distinct : (d.kids id).Nodup := by
    refine (List.perm_insertionSort _ _).nodup_iff.mpr ?_
    have own {op : OpId × OpKind} {x : OpId} (is : kidOf id op = some x) : op.1 = x :=
      fst_of_kidOf is
    refine List.pairwise_filterMap.mpr ((Std.ExtTreeMap.ordered_keys_toList (t := d.ops)).imp ?_)
    intro op op' less x isX y isY same
    rw [own isX, own isY, same] at less
    simp at less
  refine ((sorted _).and distinct).imp ?_
  intro a b both
  have apart : compare b a ≠ .eq := fun same => both.2 (Std.LawfulEqCmp.eq_of_compare same).symm
  cases order : compare b a with
  | lt => rfl
  | eq => exact (apart order).elim
  | gt => simp [order] at both

/-- No child is listed twice. -/
theorem kids_nodup (id : OpId) : (d.kids id).Nodup := by
  refine (kids_sorted id).imp ?_
  intro a b less same
  subst same
  simp at less

end DocLog

end NasTools
