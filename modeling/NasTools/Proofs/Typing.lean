import NasTools.Model.Store.DocEdits
import NasTools.Model.Store.DocForest

/-! Edits of a document: where typed text lands, and that a deleted range goes away. -/

namespace NasTools

open Checked (lift panics)
open Relation (ReflTransGen TransGen)

namespace DocLog

variable {d d' : DocLog} {writer : DocWriter} {kind : OpKind}

/-- Nobody inserts below the start, whose name no sound document gives out. -/
theorem Sound.readable (sound : d.Sound) : d.Readable where
  -- The start has the counter zero, and every operation has one above zero.
  spelled := sound.spelled
  rootless := by
    refine not_mem_ops.mp fun member => ?_
    have positive := sound.positive _ member
    simp [OpId.root] at positive

/-- Under a name that is not taken there is no operation. -/
theorem getElem?_ahead (sound : d.Sound) {steps : Nat} (room : d.Room writer steps)
    (some_ : 0 < steps) :
    d.ops[d.ahead writer steps]? = none := by
  exact not_mem_ops.mp (Counted.ahead_not_mem sound.clocked room some_)

/-- Lists in falling order with the same members are the same. -/
theorem eq_of_falling {l l' : List OpId} (first : l.Pairwise fun a b => compare b a = .lt)
    (second : l'.Pairwise fun a b => compare b a = .lt) (same : ∀ x, x ∈ l ↔ x ∈ l') : l = l' := by
  -- Neither has an entry twice, so they are rearrangements of each other, and order
  -- leaves one of these.
  have nodup {l : List OpId} (sorted : l.Pairwise fun a b => compare b a = .lt) : l.Nodup := by
    refine sorted.imp ?_
    intro a b less is
    rw [is] at less
    simp at less
  refine List.Perm.eq_of_pairwise ?_ first second
    ((List.perm_ext_iff_of_nodup (nodup first) (nodup second)).mpr same)
  intro a b _ _ less more
  exact (Std.OrientedCmp.not_lt_of_lt less more).elim

/-- An operation that inserts nothing below an atom leaves its kids as they are. -/
theorem kids_recorded (sound : d.Sound) (room : d.Room writer 1) {x : OpId}
    (apart : ∀ ch, kind ≠ .insert x ch) :
    (d.recorded writer kind).kids x = d.kids x := by
  -- Both are in falling order, so it is enough that they have the same members.
  refine eq_of_falling (kids_sorted x) (kids_sorted x) fun c => ?_
  have free := getElem?_ahead sound room Nat.one_pos
  rw [mem_kids_iff_insert, mem_kids_iff_insert, getElem?_recorded]
  by_cases here : d.ahead writer 1 = c
  · subst here
    simp [free, apart]
  · rw [if_neg here]

/-- The kids of an atom whose names are greater than the next one of a writer. -/
def overtakers (d : DocLog) (writer : DocWriter) (after : OpId) : List OpId :=
  (d.kids after).filter fun kid => compare (d.ahead writer 1) kid == .lt

/-- A new atom stands behind those of its siblings that have greater names. -/
theorem kids_recorded_insert (sound : d.Sound) (room : d.Room writer 1) (after : OpId)
    (ch : UInt32) :
    ∃ back, d.kids after = d.overtakers writer after ++ back ∧
      (d.recorded writer (.insert after ch)).kids after = d.overtakers writer after ++
        d.ahead writer 1 :: back := by
  -- The new atom is one of the kids, and all others were kids before.
  have free := getElem?_ahead sound room Nat.one_pos
  have absent : d.ahead writer 1 ∉ d.kids after := by
    rw [mem_kids_iff_insert, free]
    exact fun ⟨_, impossible⟩ => nomatch impossible
  have sorted := d.kids_sorted after
  let back := (d.kids after).filter fun kid => compare kid (d.ahead writer 1) == .lt
  -- Whatever is among the kids is greater or less than the new name.
  have either {x : OpId} (member : x ∈ d.kids after) :
      compare (d.ahead writer 1) x = .lt ∨ compare x (d.ahead writer 1) = .lt := by
    cases order : compare (d.ahead writer 1) x with
    | lt => exact .inl rfl
    | eq =>
      rw [Std.LawfulEqCmp.eq_of_compare order] at absent
      exact (absent member).elim
    | gt => exact .inr (Std.OrientedCmp.lt_of_gt order)
  have front_above : ∀ x ∈ d.overtakers writer after, compare (d.ahead writer 1) x = .lt := by
    intro x member
    simpa [overtakers] using (List.mem_filter.mp member).2
  have back_below : ∀ x ∈ back, compare x (d.ahead writer 1) = .lt := by
    intro x member
    simpa using (List.mem_filter.mp member).2
  have frontSorted : (d.overtakers writer after).Pairwise fun a b => compare b a = .lt :=
    sorted.filter _
  have backSorted : back.Pairwise fun a b => compare b a = .lt := sorted.filter _
  refine ⟨back, ?_, ?_⟩
  · refine eq_of_falling sorted ?_ ?_
    · refine List.pairwise_append.mpr ⟨frontSorted, backSorted, fun a inFront b inBack => ?_⟩
      exact Std.TransCmp.lt_trans (back_below b inBack) (front_above a inFront)
    · intro x
      simp only [overtakers, back, List.mem_append, List.mem_filter, beq_iff_eq, ← and_or_left]
      exact ⟨fun member => ⟨member, either member⟩, And.left⟩
  · refine eq_of_falling (kids_sorted after) ?_ ?_
    · refine List.pairwise_append.mpr ⟨frontSorted,
        List.pairwise_cons.mpr ⟨back_below, backSorted⟩, ?_⟩
      intro a inFront b inRest
      rcases List.mem_cons.mp inRest with rfl | inBack
      · exact front_above a inFront
      · exact Std.TransCmp.lt_trans (back_below b inBack) (front_above a inFront)
    · intro x
      have old : x ∈ d.overtakers writer after ++ back ↔ x ∈ d.kids after := by
        simp only [overtakers, back, List.mem_append, List.mem_filter, beq_iff_eq, ← and_or_left]
        exact ⟨And.left, fun member => ⟨member, either member⟩⟩
      have new : x ∈ (d.recorded writer (.insert after ch)).kids after ↔ x = d.ahead writer 1 ∨
          x ∈ d.kids after := by
        rw [mem_kids_iff_insert, mem_kids_iff_insert, getElem?_recorded]
        by_cases here : d.ahead writer 1 = x
        · simp [here]
        · simp [here, Ne.symm here]
      rw [new, ← old]
      simp only [List.mem_append, List.mem_cons]
      exact or_left_comm

/--
No operation refers to one of the names that a writer is about to give out, as far as
its counter has room.
-/
def Unreferred (d : DocLog) (writer : DocWriter) (count : Nat) : Prop :=
  ∀ steps, 0 < steps → steps ≤ count → d.Room writer steps → ∀ (op : OpId)
    (kind : OpKind), d.ops[op]? = some kind →
    kind.ref ≠ d.ahead writer steps

/-- The next name is not the start's. -/
theorem ahead_ne_root {steps : Nat} (room : d.Room writer steps) (some_ : 0 < steps) :
    d.ahead writer steps ≠ OpId.root := by
  -- The root is counted zero, and what lies ahead is counted higher.
  intro is
  have counter := toNat_ahead room
  rw [is] at counter
  simp only [OpId.root, UInt64.toNat_zero] at counter
  omega

/-- What is listed below the start is the start, or an atom that was inserted. -/
theorem mem_of_listing {ids : List OpId} (listing : Listing d.kids [OpId.root] ids) {x : OpId}
    (member : x ∈ ids) :
    x = OpId.root ∨ x ∈ d.ops := by
  -- What is listed is under the root, and so it is the root or a kid.
  obtain ⟨c, isRoot, up⟩ := listing.mem_iff.mp member
  obtain rfl := List.mem_singleton.mp isRoot
  rcases ReflTransGen.cases_tail up with same | ⟨p, _, isKid⟩
  · exact .inl same
  · obtain ⟨ch, held⟩ := mem_kids_iff_insert.mp isKid
    exact .inr (mem_ops.mpr ⟨_, held⟩)

/-- The next name is listed nowhere. -/
theorem ahead_not_listed (sound : d.Sound) {steps : Nat} (room : d.Room writer steps)
    (some_ : 0 < steps) {ids : List OpId} (listing : Listing d.kids [OpId.root] ids) :
    d.ahead writer steps ∉ ids := by
  intro member
  rcases mem_of_listing listing member with isRoot | taken
  · exact ahead_ne_root room some_ isRoot
  · exact Counted.ahead_not_mem sound.clocked room some_ taken

/-- Nothing stands below a name that no operation refers to. -/
theorem kids_ahead (room : d.Room writer 1) (unreferred : d.Unreferred writer 1) :
    d.kids (d.ahead writer 1) = [] := by
  refine List.eq_nil_iff_forall_not_mem.mpr fun kid member => ?_
  obtain ⟨ch, held⟩ := mem_kids_iff_insert.mp member
  exact unreferred 1 Nat.one_pos (Nat.le_refl 1) room kid _ held rfl

/-- What is deleted after one operation more. -/
theorem deleted_recorded (sound : d.Sound) (room : d.Room writer 1) (x : OpId) :
    (d.recorded writer kind).deleted x = (d.deleted x || decide (kind = .delete x)) := by
  -- The new operation deletes an atom, or one of the others does.
  have free := getElem?_ahead sound room Nat.one_pos
  rw [Bool.eq_iff_iff, Bool.or_eq_true, deleted_iff, deleted_iff, decide_eq_true_eq]
  constructor
  · intro ⟨op, held⟩
    rw [getElem?_recorded] at held
    split at held
    · exact .inr (Option.some.inj held)
    · exact .inl ⟨op, held⟩
  · intro either
    rcases either with ⟨op, held⟩ | rfl
    · refine ⟨op, ?_⟩
      rw [getElem?_recorded, if_neg, held]
      rintro rfl
      rw [free] at held
      cases held
    · exact ⟨d.ahead writer 1, by rw [getElem?_recorded, if_pos rfl]⟩

/-- What is shown of an atom after an insertion is what was shown of it, but for the new one. -/
theorem glyph_recorded_insert (sound : d.Sound) (room : d.Room writer 1) {after : OpId}
    {ch : UInt32} {x : OpId} (other : x ≠ d.ahead writer 1) :
    (d.recorded writer (.insert after ch)).glyph x = d.glyph x := by
  rw [glyph, glyph, deleted_recorded sound room, charOf, charOf, getElem?_recorded,
    if_neg (Ne.symm other)]
  simp

/-- The new atom shows its character. -/
theorem glyph_recorded_new (sound : d.Sound) (room : d.Room writer 1)
    (unreferred : d.Unreferred writer 1) (after : OpId) (ch : Char) :
    (d.recorded writer (.insert after ch.val)).glyph (d.ahead writer 1) =
      some (d.ahead writer 1, ch) := by
  -- No operation refers to the new name, so none has deleted it.
  have kept : d.deleted (d.ahead writer 1) = false := by
    rw [Bool.eq_false_iff]
    intro deleted
    obtain ⟨op, held⟩ := deleted_iff.mp deleted
    exact unreferred 1 Nat.one_pos (Nat.le_refl 1) room op _ held rfl
  rw [glyph, deleted_recorded sound room, charOf, getElem?_recorded, if_pos rfl]
  simp [ahead_ne_root room Nat.one_pos, kept, charFromU32_val]

/-- One typed character stands behind the trees of those siblings that have greater names. -/
theorem listing_recorded (sound : d.Sound) (room : d.Room writer 1)
    (unreferred : d.Unreferred writer 1) {after : OpId} {before rest : List OpId}
    (listing : Listing d.kids [OpId.root] (before ++ after :: rest)) (ch : UInt32) :
    ∃ greater behind, rest = greater ++ behind ∧
      Listing d.kids (d.overtakers writer after) greater ∧
      Listing (d.recorded writer (.insert after ch)).kids [OpId.root]
        (before ++ after :: greater ++ d.ahead writer 1 :: behind) := by
  -- The new atom is a leaf below the anchor, behind the kids with greater names.
  have fresh := ahead_not_listed sound room Nat.one_pos listing
  have apart : after ≠ d.ahead writer 1 := by
    rintro rfl
    exact fresh (by simp)
  have other {x : OpId} (unequal : x ≠ after) (c : UInt32) :
      OpKind.insert after ch ≠ .insert x c := by
    intro is
    cases is
    exact unequal rfl
  obtain ⟨back, whole, grown⟩ := kids_recorded_insert sound room after ch
  refine listing.insert_leaf (listing.nodup parent_of_mem_kids kids_nodup) whole grown ?_ ?_ fresh
  · rw [kids_recorded sound room (other apart.symm)]
    exact kids_ahead room unreferred
  · exact fun x unequal _ => kids_recorded sound room (other unequal)

/-- Room for many operations is room for fewer. -/
theorem Room.mono {many few : Nat} (room : d.Room writer many) (fewer : few ≤ many) :
    d.Room writer few :=
  Nat.lt_of_le_of_lt (Nat.add_le_add_left fewer _) room

/-- An operation that refers to nothing ahead leaves the names ahead unreferred. -/
theorem Unreferred.recorded {count : Nat} (unreferred : d.Unreferred writer (count + 1))
    (one : d.Room writer 1) (behind : ∀ steps, 0 < steps → steps ≤ count + 1 →
      kind.ref ≠ d.ahead writer steps) :
    (d.recorded writer kind).Unreferred writer count := by
  -- The names that are ahead now were one step further ahead before.
  intro steps some_ within room op kind' held
  rw [ahead_recorded]
  have further : d.Room writer (steps + 1) := room_of_recorded one room
  rw [getElem?_recorded] at held
  split at held
  · obtain rfl := Option.some.inj held
    exact behind (steps + 1) (Nat.succ_pos _) (by omega)
  · exact unreferred (steps + 1) (Nat.succ_pos _) (by omega) further op kind' held

/-- Where every operation refers to something that is there, none refers to a name ahead. -/
theorem Closed.unreferred (closed : Closed d.ops) (sound : d.Sound) (writer : DocWriter)
    (count : Nat) :
    d.Unreferred writer count := by
  intro steps some_ _ room op kind held is
  rcases closed op kind held with start | taken
  · exact ahead_ne_root room some_ (is.symm.trans start)
  · exact Counted.ahead_not_mem sound.clocked room some_ (is ▸ taken)

/-- One typed character leaves a document in which the rest can be typed behind it. -/
theorem insertCh_listing {count : Nat} (sound : d.Sound) (room : d.Room writer (count + 1))
    (unreferred : d.Unreferred writer (count + 1)) {after : OpId} {before rest : List OpId}
    (listing : Listing d.kids [OpId.root] (before ++ after :: rest)) (ch : Char) :
    let d' := d.recorded writer (.insert after ch.val)
    let new := d.ahead writer 1
    (d.insertCh writer after ch : Checked DocError _) = lift (.ok (new, d')) ∧ d'.Sound ∧
      d'.Room writer count ∧
      d'.Unreferred writer count ∧ d'.kids new = [] ∧ d'.glyph new = some (new, ch) ∧
      (∀ x ∈ before ++ after :: rest, d'.glyph x = d.glyph x) ∧
      ∃ greater behind, rest = greater ++ behind ∧
        Listing d.kids (d.overtakers writer after) greater ∧
        Listing d'.kids [OpId.root] (before ++ after :: greater ++ new :: behind) := by
  -- The new name is ahead of the writer's own and referred to by nothing.
  have one : d.Room writer 1 := room.mono (by omega)
  have unreferredOne : d.Unreferred writer 1 := fun steps some_ within =>
    unreferred steps some_ (by omega)
  have fresh {steps : Nat} (some_ : 0 < steps) (within : steps ≤ count + 1) :=
    ahead_not_listed sound (room.mono within) some_ listing
  refine ⟨record_eq_ok.mpr ⟨one, rfl, rfl⟩, sound.recorded one fun _ _ => isSome_of_insert,
    room_recorded room, ?_, ?_, glyph_recorded_new sound one unreferredOne after ch, ?_,
    listing_recorded sound one unreferredOne listing ch.val⟩
  · -- The atom before the character is listed, and no name ahead is.
    refine unreferred.recorded one fun steps some_ within is => fresh some_ within ?_
    rw [← is]
    simp [OpKind.ref]
  · rw [kids_recorded sound one]
    · exact kids_ahead one unreferredOne
    · intro c is
      cases is
      exact fresh Nat.one_pos (by omega) (by simp)
  · intro x member
    exact glyph_recorded_insert sound one fun is => fresh Nat.one_pos (by omega) (is ▸ member)

/-- Text typed after an atom that has none below it stands right behind it. -/
def StandsBehind (writer : DocWriter) (text : List Char) : Prop :=
  ∀ (d : DocLog) (after : OpId) (before rest : List OpId), d.Sound → d.Room writer text.length →
    d.Unreferred writer text.length → Listing d.kids [OpId.root] (before ++ after :: rest) →
      d.kids after = [] →
    ∃ d' news, d.insertChars writer after text = lift (.ok d') ∧ d'.Sound ∧
      Listing d'.kids [OpId.root] (before ++ after :: news ++ rest) ∧
        (d'.shown news).map Prod.snd = text ∧
      ∀ x ∈ before ++ after :: rest, d'.glyph x = d.glyph x

/--
Characters typed after an atom stand behind the trees of those below it that have greater names.
-/
theorem insertChars_cons {ch : Char} {text : List Char} (behind_ : StandsBehind writer text)
    (sound : d.Sound) (room : d.Room writer (text.length + 1))
    (unreferred : d.Unreferred writer (text.length + 1)) {after : OpId} {before rest : List OpId}
    (listing : Listing d.kids [OpId.root] (before ++ after :: rest)) :
    ∃ d' greater behind news, d.insertChars writer after (ch :: text) = lift (.ok d') ∧ d'.Sound ∧
      rest = greater ++ behind ∧ Listing d.kids (d.overtakers writer after) greater ∧
      Listing d'.kids [OpId.root] (before ++ after :: greater ++ news ++ behind) ∧
      (d'.shown news).map Prod.snd = ch :: text ∧
        ∀ x ∈ before ++ after :: rest, d'.glyph x = d.glyph x := by
  -- The first character finds its place among the kids, and the rest stands right behind it.
  obtain ⟨here, sound', room', unreferred', leaf', shownNew, old, greater, behind, rfl,
    listedGreater, grown⟩ :=
    insertCh_listing sound room unreferred listing ch
  obtain ⟨d', news, done, soundEnd, listed, shownNews, same⟩ :=
    behind_ _ _ _ _ sound' room' unreferred' grown leaf'
  refine ⟨d', greater, behind, d.ahead writer 1 :: news, ?_, soundEnd, rfl,
    listedGreater, by simpa using listed, ?_, ?_⟩
  · rw [insertChars, here, Checked.lift_ok_bind]
    exact done
  · rw [shown_cons, same _ (by simp), shownNew]
    simp [shownNews]
  · intro x member
    rw [same x (by simp at member ⊢; tauto), old x member]

/-- Typed text stands behind the atom it was typed after, whatever its length. -/
theorem standsBehind (writer : DocWriter) (text : List Char) : StandsBehind writer text := by
  -- Induction over the text.
  induction text with
  | nil => exact fun d after before rest sound _ _ listing _ =>
    ⟨d, [], rfl, sound, by simpa using listing, rfl, fun _ _ => rfl⟩
  | cons ch text ih =>
    intro d after before rest sound room unreferred listing leaf
    obtain ⟨d', greater, behind, news, done, soundEnd, rfl, listedGreater, grown,
      shownNews, same⟩ :=
      insertChars_cons ih sound room unreferred listing
    -- Nothing stands below the atom, so nothing overtakes what is typed.
    rw [overtakers, leaf] at listedGreater
    cases listedGreater
    exact ⟨d', news, done, soundEnd, by simpa using grown, shownNews, same⟩

/-- Typing succeeds only where the counter has room for all of it. -/
theorem room_of_insertChars {text : List Char} {after : OpId}
    (done : d.insertChars writer after text = lift (.ok d')) : d.Room writer text.length := by
  -- Every character takes one place.
  induction text generalizing d after with
  | nil => exact (d.last writer).toNat_lt
  | cons ch text ih =>
    rw [insertChars, Checked.bind_eq_ok] at done
    obtain ⟨⟨id, mid⟩, here, later⟩ := done
    obtain ⟨one, _, rfl⟩ := record_eq_ok.mp here
    exact room_of_recorded one (ih later)

/-- Deletions leave the listing as it is, and what is deleted is shown no more. -/
theorem deleteIds_listing {targets ids : List OpId} (sound : d.Sound)
    (room : d.Room writer targets.length) (listing : Listing d.kids [OpId.root] ids) :
    ∃ d', d.deleteIds writer targets = lift (.ok d') ∧ d'.Sound ∧ Listing d'.kids [OpId.root] ids ∧
      ∀ x ∈ ids, d'.glyph x = if x ∈ targets then none else d.glyph x := by
  -- A deletion inserts nothing, so no kids change; it hides one atom.
  induction targets generalizing d with
  | nil => exact ⟨d, rfl, sound, listing, fun x _ => by simp⟩
  | cons target targets ih =>
    rw [List.length_cons] at room
    have one : d.Room writer 1 := room.mono (by omega)
    have sound' : (d.recorded writer (.delete target)).Sound := by
      refine sound.recorded one ?_
      intro a n is
      cases is
    have listing' : Listing (d.recorded writer (.delete target)).kids [OpId.root] ids := by
      refine listing.congr fun x _ => kids_recorded sound one ?_
      intro ch is
      cases is
    obtain ⟨d', done, soundEnd, listed, same⟩ := ih sound' (room_recorded room) listing'
    have here : (d.deleteId writer target : Checked DocError _) =
        lift (.ok (d.ahead writer 1, d.recorded writer (.delete target))) :=
          record_eq_ok.mpr ⟨one, rfl, rfl⟩
    refine ⟨d', ?_, soundEnd, listed, ?_⟩
    · rw [deleteIds, here, Checked.lift_ok_bind]
      exact done
    · intro x member
      have old : x ≠ d.ahead writer 1 :=
        fun is => ahead_not_listed sound one Nat.one_pos listing (is ▸ member)
      rw [same x member, glyph, glyph, deleted_recorded sound one, charOf, charOf,
        getElem?_recorded, if_neg (Ne.symm old)]
      by_cases here : x = target
      · simp [here]
      · simp [here, Ne.symm here]

/-- Deleting succeeds only where the counter has room for every deletion. -/
theorem room_of_deleteIds {targets : List OpId}
    (done : d.deleteIds writer targets = lift (.ok d')) :
    d.Room writer targets.length := by
  -- Every deletion takes one place.
  induction targets generalizing d with
  | nil => exact (d.last writer).toNat_lt
  | cons target targets ih =>
    rw [deleteIds, Checked.bind_eq_ok] at done
    obtain ⟨⟨id, mid⟩, here, later⟩ := done
    obtain ⟨one, _, rfl⟩ := record_eq_ok.mp here
    exact room_of_recorded one (ih later)

/-- The atom that text at a position is typed after. -/
def anchor (atoms : List (OpId × Char)) (at_ : Nat) : OpId :=
  if at_ = 0 then OpId.root else ((atoms[at_ - 1]?).map Prod.fst).getD OpId.root

/--
What is shown of the trees of those atoms below one that have greater names than the
next one of a writer.
-/
def overtaking (d : DocLog) (writer : DocWriter) (after : OpId) : Checked DocError (List Char) := do
  return (← (d.overtakers writer after).foldlM (fun out kid => d.walk (d.ops.size + 1) kid out)
    []).map Prod.snd

/-- An atom is shown under its own name. -/
theorem fst_of_glyph {x : OpId} {atom : OpId × Char} (shows : d.glyph x = some atom) :
    atom.1 = x := by
  -- An atom is shown under its own name.
  unfold glyph at shows
  split at shows
  · obtain ⟨ch, _, rfl⟩ := Option.map_eq_some_iff.mp shows
    rfl
  · cases shows

/-- A listing falls apart at the anchor of a position as the shown atoms do. -/
theorem listing_at {ids : List OpId} (listing : Listing d.kids [OpId.root] ids) {at_ : Nat}
    (inside : at_ ≤ (d.shown ids).length) :
    ∃ before rest, ids = before ++ anchor (d.shown ids) at_ :: rest ∧
      d.shown before ++ (d.glyph (anchor (d.shown ids) at_)).toList = (d.shown ids).take at_ ∧
      d.shown rest = (d.shown ids).drop at_ := by
  -- The listing is cut where the anchor stands.
  have top : d.glyph OpId.root = none := if_neg fun impossible => impossible.1 rfl
  cases at_ with
  | zero =>
    cases listing with
    | cons under later =>
      cases later
      exact ⟨[], _, rfl, by simp [anchor, top], by simp [top]⟩
  | succ k =>
    -- The atom in front of the position is the last one that is taken.
    have found := List.getElem?_eq_getElem (show k < (d.shown ids).length from inside)
    have split : d.shown ids = (d.shown ids).take k ++ (d.shown ids)[k] ::
        (d.shown ids).drop (k + 1) := by
      rw [← List.drop_eq_getElem_cons, List.take_append_drop]
    obtain ⟨first, second, whole, isTake, isRest⟩ := List.filterMap_eq_append_iff.mp split
    obtain ⟨hidden, a, rest, rfl, nothing, shows, isDrop⟩ := List.filterMap_eq_cons_iff.mp isRest
    have is : anchor (d.shown ids) (k + 1) = a := by
      rw [anchor, if_neg (Nat.succ_ne_zero k), Nat.add_sub_cancel, found, Option.map_some,
        Option.getD_some, fst_of_glyph shows]
    rw [is, shows]
    refine ⟨first ++ hidden, rest, by simp [whole], ?_, isDrop⟩
    have silent : d.shown hidden = [] := List.filterMap_eq_nil_iff.mpr nothing
    rw [shown_append, silent, List.append_nil, show d.shown first = _ from isTake,
      List.take_add_one, found]

/-- What overtakes text after a listed atom is what is shown of the trees in front of it. -/
theorem overtaking_eq (sound : d.Sound) {ids greater : List OpId}
    (listing : Listing d.kids [OpId.root] ids) {after : OpId} (member : after ∈ ids)
    (listed : Listing d.kids (d.overtakers writer after) greater) :
    d.overtaking writer after = lift (.ok ((d.shown greater).map Prod.snd)) := by
  -- The trees in front of the new atom are walked one after the other.
  have rooted := sound.readable.rooted
  obtain ⟨c, isRoot, below⟩ := listing.mem_iff.mp member
  obtain rfl := List.mem_singleton.mp isRoot
  obtain ⟨up, path⟩ := path_of_below rooted below
  -- Each of these trees is walked to its end.
  have walks : ∀ (forest : List OpId) (out : List (OpId × Char)),
    (∀ kid ∈ forest, kid ∈ d.kids after) →
      ∃ result, forest.foldlM (fun out kid => d.walk (d.ops.size + 1) kid out) out =
        lift (.ok result) := by
    intro forest
    induction forest with
    | nil => exact fun out _ => ⟨out, rfl⟩
    | cons kid forest ih =>
      intro out isKid
      obtain ⟨kidUp, kidPath⟩ := path_of_below rooted (below.tail (isKid kid (by simp)))
      obtain ⟨mid, walked⟩ := walk_of_rooted sound.spelled rooted kidPath (Nat.le_add_right _ _) out
      rw [List.foldlM_cons, walked, Checked.lift_ok_bind]
      exact ih mid fun k isMember => isKid k (by simp [isMember])
  obtain ⟨out, walked⟩ := walks (d.overtakers writer after) [] fun kid isKid =>
    (List.mem_filter.mp isKid).1
  rw [overtaking, walked, shown_of_walks listed walked]
  rfl

/-- What is shown of atoms that are shown alike is the same. -/
theorem shown_congr {ids : List OpId} (same : ∀ x ∈ ids, d'.glyph x = d.glyph x) :
    d'.shown ids = d.shown ids :=
  List.filterMap_congr same

/-- What is shown of some atoms once those of a list are gone. -/
theorem shown_of_gone {ids targets : List OpId}
    (same : ∀ x ∈ ids, d'.glyph x = if x ∈ targets then none else d.glyph x) :
    d'.shown ids = (d.shown ids).filter fun atom => decide (atom.1 ∉ targets) := by
  -- What is shown of an atom has its name, so the atoms can be dropped before or after.
  rw [shown, List.filterMap_congr same, shown, List.filter_filterMap]
  refine List.filterMap_congr fun x _ => ?_
  cases glyphIs : d.glyph x with
  | none => simp
  | some atom =>
    obtain rfl := fst_of_glyph glyphIs
    by_cases gone : atom.1 ∈ targets
    · rw [if_pos gone, Option.filter_some, if_neg (by simpa using gone)]
    · rw [if_neg gone, Option.filter_some, if_pos (by simpa using gone)]

/-- Typed text is shown at its position, behind what overtakes it. -/
theorem text_of_insertText (sound : d.Sound) {atoms : List (OpId × Char)}
    (shown_ : d.atoms = lift (.ok atoms)) {at_ : Nat} (inside : at_ ≤ atoms.length) {ch : Char}
    {text : List Char} (room : d.Room writer (text.length + 1))
    (unreferred : d.Unreferred writer (text.length + 1)) :
    ∃ d' front back, d.insertText writer at_ (ch :: text) = lift (.ok d') ∧
      d.overtaking writer (anchor atoms at_) = lift (.ok front) ∧
        (atoms.drop at_).map Prod.snd = front ++ back ∧
      d'.text = lift (.ok ((atoms.take at_).map Prod.snd ++ front ++ (ch :: text) ++ back)) := by
  -- The anchor cuts the listing where the position cuts the text.
  obtain ⟨ids, listing, found⟩ := listing_of_readable sound.readable
  obtain rfl : d.shown ids = atoms := Except.ok.inj (Option.some.inj (found.symm.trans shown_))
  obtain ⟨before, rest, whole, isTake, isDrop⟩ := listing_at listing inside
  have start : d.insertText writer at_ (ch :: text) =
      d.insertChars writer (anchor (d.shown ids) at_) (ch :: text) := by
    rw [insertText, found, Checked.lift_ok_bind, if_neg (Nat.not_lt.mpr inside)]
    rfl
  rw [start]
  generalize anchor (d.shown ids) at_ = after at *
  have listing' := listing
  rw [whole] at listing'
  obtain ⟨d', greater, behind, news, done, sound', rfl, listedGreater, grown, shownNews, same⟩ :=
    insertChars_cons (standsBehind writer text) sound room unreferred listing'
  have keeps {part : List OpId} (within : ∀ x ∈ part, x ∈ ids) : d'.shown part = d.shown part :=
    shown_congr fun x member => same x (whole ▸ within x member)
  refine ⟨d', (d.shown greater).map Prod.snd, (d.shown behind).map Prod.snd, done, ?_, ?_, ?_⟩
  · exact overtaking_eq sound listing (by rw [whole]; simp) listedGreater
  · rw [← isDrop, shown_append, List.map_append]
  · have front : d'.shown (before ++ [after]) = (d.shown ids).take at_ := by
      rw [keeps fun x member => by rw [whole]; simp at member ⊢; tauto]
      rw [← isTake, shown_append, shown_cons, shown_nil, List.append_nil]
    have grown' :
        Listing d'.kids [OpId.root] ((before ++ [after]) ++ greater ++ news ++ behind) := by
      simpa using grown
    have greaterSame : d'.shown greater = d.shown greater := keeps fun x member => by
      rw [whole]; simp [member]
    have behindSame : d'.shown behind = d.shown behind := keeps fun x member => by
      rw [whole]; simp [member]
    rw [DocLog.text, atoms_of_listing sound'.readable grown', Checked.lift_ok_bind, Checked.pure_eq]
    simp only [shown_append, List.map_append] at front ⊢
    rw [← List.map_append, front, shownNews, greaterSame, behindSame]

/--
Among atoms with names of their own, dropping those of a range by their names cuts the range out.
-/
theorem filter_not_range {atoms : List (OpId × Char)} (apart : atoms.Pairwise fun a b => a.1 ≠ b.1)
    (at_ count : Nat) :
    atoms.filter (fun atom => decide (atom.1 ∉ ((atoms.drop at_).take count).map Prod.fst)) =
      atoms.take at_ ++ atoms.drop (at_ + count) := by
  -- No name of the range is in front of it or behind it.
  have parts :
      atoms = atoms.take at_ ++ ((atoms.drop at_).take count ++ atoms.drop (at_ + count)) := by
    rw [← List.drop_drop, List.take_append_drop, List.take_append_drop]
  generalize (atoms.drop at_).take count = range at parts
  generalize atoms.take at_ = before at parts
  generalize atoms.drop (at_ + count) = behind at parts
  subst parts
  obtain ⟨_, later, beforeApart⟩ := List.pairwise_append.mp apart
  obtain ⟨_, _, rangeApart⟩ := List.pairwise_append.mp later
  rw [List.filter_append, List.filter_append]
  have kept : before.filter (fun atom => decide (atom.1 ∉ range.map Prod.fst)) = before := by
    refine List.filter_eq_self.mpr fun atom member => decide_eq_true fun named => ?_
    obtain ⟨other, inRange, same⟩ := List.mem_map.mp named
    exact beforeApart atom member other (by simp [inRange]) same.symm
  have gone : range.filter (fun atom => decide (atom.1 ∉ range.map Prod.fst)) = [] := by
    refine List.filter_eq_nil_iff.mpr fun atom member => ?_
    simpa using ⟨atom.2, member⟩
  have keptBehind : behind.filter (fun atom => decide (atom.1 ∉ range.map Prod.fst)) = behind := by
    refine List.filter_eq_self.mpr fun atom member => decide_eq_true fun named => ?_
    obtain ⟨other, inRange, same⟩ := List.mem_map.mp named
    exact rangeApart other inRange atom member same
  rw [kept, gone, keptBehind, List.nil_append]

/-- A deleted range is gone from the text, and nothing else is. -/
theorem text_of_deleteRange (sound : d.Sound) {atoms : List (OpId × Char)}
    (shown_ : d.atoms = lift (.ok atoms)) {at_ count : Nat} (inside : at_ + count ≤ atoms.length)
    (room : d.Room writer count) :
    ∃ d', d.deleteRange writer at_ count = lift (.ok d') ∧
      d'.text =
        lift (.ok ((atoms.take at_).map Prod.snd ++ (atoms.drop (at_ + count)).map Prod.snd)) := by
  -- The listing stays, and the atoms of the range are shown no more.
  obtain ⟨ids, listing, found⟩ := listing_of_readable sound.readable
  obtain rfl : d.shown ids = atoms := Except.ok.inj (Option.some.inj (found.symm.trans shown_))
  have enough : d.Room writer ((((d.shown ids).drop at_).take count).map Prod.fst).length := by
    refine room.mono ?_
    rw [List.length_map]
    exact List.length_take_le _ _
  obtain ⟨d', done, sound', listed, same⟩ := deleteIds_listing sound enough listing
  refine ⟨d', ?_, ?_⟩
  · rw [deleteRange, found, Checked.lift_ok_bind, if_neg (by omega)]
    exact done
  · have apart : (d.shown ids).Pairwise fun a b => a.1 ≠ b.1 := by
      refine List.pairwise_filterMap.mpr ((listing.nodup parent_of_mem_kids kids_nodup).imp ?_)
      intro x y unequal a isA b isB same
      rw [fst_of_glyph isA, fst_of_glyph isB] at same
      exact unequal same
    rw [DocLog.text, atoms_of_listing sound'.readable listed, Checked.lift_ok_bind, Checked.pure_eq,
      shown_of_gone same, filter_not_range apart, List.map_append]

/--
Where edits of a document that was built do what was typed.

Text is shown at its position exactly where its writer's counter has room for it and it makes no
difference whether it stands in front of what overtakes it or behind that. No operation may refer to
a name ahead. A range is deleted, and nothing else, exactly where the counter has room for the
deletions. No operation refers to a name ahead where all of them were made on what was there.
-/
theorem edits_land_iff (built : d.Built) : (d.Typed → ∀ writer count, d.Unreferred writer count) ∧
    ∃ atoms, d.atoms = lift (.ok atoms) ∧
    (∀ writer at_ (text : List Char), at_ ≤ atoms.length → d.Unreferred writer text.length →
      ((∃ d', d.insertText writer at_ text = lift (.ok d') ∧
          d'.text =
            lift (.ok ((atoms.take at_).map Prod.snd ++ text ++ (atoms.drop at_).map Prod.snd))) ↔
        d.Room writer text.length ∧ ∀ front, d.overtaking writer (anchor atoms at_) =
          lift (.ok front) → front ++ text = text ++ front)) ∧
    ∀ writer at_ count, at_ + count ≤ atoms.length →
      ((∃ d', d.deleteRange writer at_ count = lift (.ok d') ∧
          d'.text =
            lift (.ok ((atoms.take at_).map Prod.snd ++ (atoms.drop (at_ + count)).map Prod.snd))) ↔
        d.Room writer count) := by
  -- What is shown before and after is held against what was typed.
  have sound := built.sound
  obtain ⟨atoms, found⟩ := atoms_ok sound.readable
  refine ⟨fun typed => typed.closed.unreferred sound, atoms, found, ?_, ?_⟩
  · intro writer at_ text inside unreferred
    have start : d.insertText writer at_ text = d.insertChars writer (anchor atoms at_) text := by
      rw [insertText, found, Checked.lift_ok_bind, if_neg (Nat.not_lt.mpr inside)]
      rfl
    cases text with
    | nil =>
      refine iff_of_true ⟨d, start, ?_⟩ ⟨(d.last writer).toNat_lt, fun front _ => by simp⟩
      rw [DocLog.text, found, List.append_nil, ← List.map_append, List.take_append_drop]
      rfl
    | cons ch text =>
      constructor
      · rintro ⟨d', done, lands⟩
        have room := room_of_insertChars (start.symm.trans done)
        refine ⟨room, fun front overtakes => ?_⟩
        obtain ⟨after, front', back, done', overtakes', split, shows⟩ :=
          text_of_insertText sound found inside room unreferred
        obtain rfl := Except.ok.inj (Option.some.inj (done.symm.trans done'))
        obtain rfl := Except.ok.inj (Option.some.inj (overtakes.symm.trans overtakes'))
        -- Both texts begin with what was in front of the position, and end with the rest behind it.
        have same := Except.ok.inj (Option.some.inj (shows.symm.trans lands))
        rw [split] at same
        have swapped : (atoms.take at_).map Prod.snd ++ (front ++ ch :: text) ++ back =
            (atoms.take at_).map Prod.snd ++ (ch :: text ++ front) ++ back := by simpa using same
        exact List.append_cancel_left (List.append_cancel_right swapped)
      · rintro ⟨room, commutes⟩
        obtain ⟨d', front, back, done, overtakes, split, shows⟩ :=
          text_of_insertText sound found inside room unreferred
        refine ⟨d', done, ?_⟩
        rw [shows, split, List.append_assoc _ front, commutes front overtakes]
        simp
  · intro writer at_ count inside
    constructor
    · rintro ⟨d', done, _⟩
      rw [deleteRange, found, Checked.lift_ok_bind] at done
      split at done
      · cases done
      · have room := room_of_deleteIds done
        rwa [List.length_map, List.length_take, List.length_drop,
          Nat.min_eq_left (by omega)] at room
    · exact text_of_deleteRange sound found inside

/-- A writer whose name repeats one byte. -/
def writerOf (b : UInt8) : DocWriter := ⟨List.replicate 32 b, List.length_replicate⟩

/-- What is left when a writer types one character into an empty document. -/
def oneTyped (writer : DocWriter) (ch : Char) : DocLog :=
  DocLog.empty.recorded writer (.insert OpId.root ch.val)

/-- A document of one character is typed. -/
theorem typed_oneTyped (b : UInt8) (ch : Char) : (oneTyped (writerOf b) ch).Typed := by
  -- The first name has room in an empty document.
  have room : DocLog.empty.Room (writerOf b) 1 := by
    simp [Room, last, DocLog.empty]
  have done : (DocLog.empty.insertCh (writerOf b) OpId.root ch : Checked DocError _) =
      lift (.ok (DocLog.empty.ahead (writerOf b) 1, oneTyped (writerOf b) ch)) :=
        record_eq_ok.mpr ⟨room, rfl, rfl⟩
  exact .insertCh .empty (.inl rfl) done

/-- A writer types in front of a character of its own. -/
theorem edits_land_own :
    ∃ d', (oneTyped (writerOf 2) 'b').insertText (writerOf 2) 0 ['a'] = lift (.ok d') ∧
    d'.text = lift (.ok ['a', 'b']) := by
  -- No atom has a greater name than the next one of the same writer, so nothing overtakes the text.
  have typed := typed_oneTyped 2 'b'
  obtain ⟨unreferred, atoms, found, inserts, _⟩ := edits_land_iff typed.built
  have shown_ : (oneTyped (writerOf 2) 'b').atoms = lift (.ok [(⟨writerOf 2, 1⟩, 'b')]) := by
    show (_ : Option (Except DocError (List (OpId × Char)))) = _
    decide
  obtain rfl := Except.ok.inj (Option.some.inj (found.symm.trans shown_))
  refine (inserts (writerOf 2) 0 ['a'] (Nat.zero_le _) (unreferred typed _ _)).mpr ⟨?_, ?_⟩
  · show (_ : Nat) < _
    decide
  · intro front overtakes
    have nothing :
      (oneTyped (writerOf 2) 'b').overtaking (writerOf 2) (anchor [(⟨writerOf 2, 1⟩, 'b')] 0) =
        lift (.ok []) := by
      show (_ : Option (Except DocError (List Char))) = _
      decide
    obtain rfl := Except.ok.inj (Option.some.inj (overtakes.symm.trans nothing))
    rfl

/-- What a writer types in front of a character of a greater writer is shown behind it. -/
theorem lesser_writer_overtaken : ¬∀ d : DocLog, d.Typed → ∀ atoms, d.atoms = lift (.ok atoms) →
    ∀ writer at_ (text : List Char), at_ ≤ atoms.length →
      ∃ d', d.insertText writer at_ text = lift (.ok d') ∧
      d'.text =
        lift (.ok ((atoms.take at_).map Prod.snd ++ text ++ (atoms.drop at_).map Prod.snd)) := by
  -- The text is shown the other way round.
  intro always
  have shown_ : (oneTyped (writerOf 2) 'b').atoms = lift (.ok [(⟨writerOf 2, 1⟩, 'b')]) := by
    show (_ : Option (Except DocError (List (OpId × Char)))) = _
    decide
  obtain ⟨d', done, lands⟩ :=
    always _ (typed_oneTyped 2 'b') _ shown_ (writerOf 1) 0 ['a'] (Nat.zero_le _)
  have swapped : (do (← (oneTyped (writerOf 2) 'b').insertText (writerOf 1) 0 ['a']).text) =
      lift (.ok ['b', 'a']) := by
    show (_ : Option (Except DocError (List Char))) = _
    decide
  rw [done, Checked.lift_ok_bind, lands] at swapped
  exact absurd (Except.ok.inj (Option.some.inj swapped)) (by decide)

end DocLog

end NasTools
