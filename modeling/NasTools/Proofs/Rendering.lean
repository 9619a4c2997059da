import NasTools.Model.Store.DocForest
import NasTools.Model.Store.DocForm

/-!
The rendering of a document that was read: it ends exactly where the start is not below itself.
-/

namespace NasTools

open Checked (lift panics)
open Relation (ReflTransGen TransGen)

namespace DocLog

variable {d : DocLog}

/-- What can be listed below the start does not have the start in it. -/
theorem rooted_of_listing {below : List OpId} (listing : Listing d.kids (d.kids OpId.root) below) :
    d.Rooted := by
  intro again
  obtain ⟨kid, isKid, up⟩ := TransGen.head'_iff.mp again
  refine listing.not_mem_below (listing.mem_iff.mpr ⟨kid, mem_kids.mpr isKid, ?_⟩)
  exact up.lift (fun x => x) fun p c inserted => mem_kids.mpr inserted

/-- A walk from the start that succeeds is over a document whose start is not below itself. -/
theorem rooted_of_walk {depth : Nat} {out result : List (OpId × Char)}
    (walked : d.walk depth OpId.root out = lift (.ok result)) : d.Rooted := by
  -- A walk that ends has noted what it passed, so everything under the root is reached.
  rw [walk_of_walkNoting depth OpId.root [] out, Checked.bind_eq_ok] at walked
  obtain ⟨⟨noted, found⟩, walked, _⟩ := walked
  obtain ⟨ids, listing, _, _⟩ := listing_of_walk walked
  cases listing with
  | cons under later => exact rooted_of_listing under

/-- A walk over spelled insertions reports no error: it succeeds or does not end. -/
theorem walk_ne_error (spelled : d.Spelled) {depth : Nat} {id : OpId}
    (start : id = OpId.root ∨ (d.parent id).isSome) (out : List (OpId × Char)) (e : DocError) :
    d.walk depth id out ≠ lift (.error e) := by
  -- The only error is over a number that is no character, and every number is one.
  induction depth generalizing id out with
  | zero =>
    intro impossible
    cases impossible
  | succ depth ih =>
    have visited : ∃ out', d.visit id out = lift (.ok out') := by
      unfold visit
      split
      · rename_i visible
        obtain ⟨p, inserted⟩ := Option.isSome_iff_exists.mp (start.resolve_left visible.1)
        obtain ⟨ch, read⟩ := Option.isSome_iff_exists.mp (spelled _ _ _ (charOf_of_parent inserted))
        rw [read]
        exact ⟨_, rfl⟩
      · exact ⟨out, rfl⟩
    have kids : ∀ (kids : List OpId) (out : List (OpId × Char)),
      (∀ kid ∈ kids, d.parent kid = some id) →
        kids.foldlM (fun out kid => d.walk depth kid out) out ≠ lift (.error e) := by
      intro kids
      induction kids with
      | nil =>
        intro out _ impossible
        cases impossible
      | cons kid kids ihKids =>
        intro out inserted
        rw [List.foldlM_cons]
        have here : d.walk depth kid out ≠ lift (.error e) :=
          ih (.inr (by rw [inserted kid (by simp)]; rfl)) out
        rcases walked : d.walk depth kid out with _ | (e' | mid)
        · intro impossible
          cases impossible
        · rw [walked] at here
          intro found
          cases found
          exact here rfl
        · exact ihKids mid fun k member => inserted k (by simp [member])
    obtain ⟨out', here⟩ := visited
    rw [walk, here, Checked.lift_ok_bind]
    exact kids _ out' fun kid member => mem_kids.mp member

/-- Where the start is below itself, a walk from it goes deeper than any depth. -/
theorem walk_of_not_rooted (spelled : d.Spelled) (looped : ¬d.Rooted) (depth : Nat)
    (out : List (OpId × Char)) :
    d.walk depth OpId.root out = panics := by
  rcases walked : d.walk depth OpId.root out with _ | (e | result)
  · rfl
  · exact (walk_ne_error spelled (.inl rfl) out e walked).elim
  · exact (looped (rooted_of_walk walked)).elim

/--
The rendering of a document that was read ends exactly where the start is not below itself.

It then calls on every operation at most once, and elsewhere it recurses without an end.
-/
theorem rendering_ends_iff {bytes : Bytes} (decoded : decode bytes = lift (.ok d)) :
    ((∃ depth noted atoms, d.walkNoting depth OpId.root ([], []) = lift (.ok (noted, atoms)) ∧
      noted.Nodup ∧ d.text = lift (.ok (atoms.map Prod.snd))) ↔
      ¬TransGen (fun p c => d.parent c = some p) OpId.root OpId.root) ∧
    (TransGen (fun p c => d.parent c = some p) OpId.root OpId.root →
      ∀ depth out, d.walk depth OpId.root out = panics) := by
  -- A walk that ends lists the tree of the start, and a tree does not hold its own root below it.
  have spelled := spelled_of_decode decoded
  refine ⟨⟨?_, ?_⟩, fun looped => walk_of_not_rooted spelled (not_not.mpr looped)⟩
  · intro ends
    obtain ⟨depth, noted, atoms, walked, _⟩ := ends
    have result : d.walk depth OpId.root [] = lift (.ok atoms) := by
      rw [walk_of_walkNoting depth OpId.root [] [], walked]
      rfl
    exact rooted_of_walk result
  · intro rooted
    obtain ⟨atoms, shown⟩ :=
      walk_of_rooted spelled rooted .root (show d.ops.size + 1 ≤ d.ops.size + 1 + 0 by simp) []
    have noting := shown
    rw [walk_of_walkNoting _ _ [] [], Checked.bind_eq_ok] at noting
    obtain ⟨⟨noted, found⟩, walked, is⟩ := noting
    obtain rfl := Except.ok.inj (Option.some.inj is)
    obtain ⟨ids, listing, rfl, _⟩ := listing_of_walk walked
    refine ⟨_, _, _, walked, listing.nodup parent_of_mem_kids kids_nodup, ?_⟩
    rw [text, DocLog.atoms, shown]
    rfl

/-- The stored form of a document with one character after the start, under a given name. -/
def oneCharacter (id : OpId) : Bytes :=
  framedField docMagic ++ framedField [docVersion] ++ framedField (u64Le 0) ++
    framedField id.writer.bytes ++
    framedField (u64Le id.counter) ++ framedField [1] ++ framedField OpId.root.writer.bytes ++
    framedField (u64Le OpId.root.counter) ++ framedField (natToLe 4 97)

/-- The document with that character. -/
def withCharacter (id : OpId) : DocLog :=
  ⟨(∅ : OrdMap OpId OpKind).insert id (.insert OpId.root 97), ∅⟩

/-- Under any other name than the start's, that document is rendered. -/
theorem rendering_ends_other : ∃ depth noted atoms,
    (withCharacter ⟨FixedBytes.zero 32, 1⟩).walkNoting depth OpId.root ([], []) =
      lift (.ok (noted, atoms)) ∧
      noted.Nodup ∧ (withCharacter ⟨FixedBytes.zero 32, 1⟩).text =
        lift (.ok (atoms.map Prod.snd)) := by
  -- Nothing is inserted under the name of the start, so nothing leads back to it.
  have decoded : decode (oneCharacter ⟨FixedBytes.zero 32, 1⟩) =
      lift (.ok (withCharacter ⟨FixedBytes.zero 32, 1⟩)) := by
    show (_ : Option (Except DocError DocLog)) = _
    decide +kernel
  refine (rendering_ends_iff decoded).1.mpr ?_
  intro looped
  obtain ⟨p, _, inserted⟩ := TransGen.tail'_iff.mp looped
  have top : (withCharacter ⟨FixedBytes.zero 32, 1⟩).parent OpId.root = none := by decide
  cases top.symm.trans inserted

/-- Under the start's own name it is accepted, and its rendering has no end. -/
theorem own_start_endless : ¬∀ bytes d, decode bytes = lift (.ok d) →
    ∃ depth noted atoms, d.walkNoting depth OpId.root ([], []) = lift (.ok (noted, atoms)) := by
  -- The one operation inserts the start below itself.
  have decoded : decode (oneCharacter OpId.root) = lift (.ok (withCharacter OpId.root)) := by
    show (_ : Option (Except DocError DocLog)) = _
    decide +kernel
  intro always
  obtain ⟨depth, noted, atoms, walked⟩ := always _ _ decoded
  have result : (withCharacter OpId.root).walk depth OpId.root [] = lift (.ok atoms) := by
    rw [walk_of_walkNoting depth OpId.root [] [], walked]
    rfl
  have inserted : (withCharacter OpId.root).parent OpId.root = some OpId.root := by decide
  exact rooted_of_walk result (.single inserted)

end DocLog

end NasTools
