import NasTools.Lib.Utf8
import NasTools.Model.Cli.Mirror

/-! What the patterns of the rules match, beside what patterns of paths usually mean. -/

namespace NasTools

/-- A part of a pattern for one segment. -/
inductive GlobPart where
  | plain (item : Globs.Item Char)
  -- One character of some ranges, or of none of them.
  | oneOf (negated : Bool) (ranges : List (Char × Char))

/-- Whether a character is one of a class. -/
def inClass (negated : Bool) (ranges : List (Char × Char)) (c : Char) : Bool :=
  (ranges.any fun (low, high) => low ≤ c && c ≤ high) != negated

/--
The ranges of a class, and what comes after its closing bracket; one right at the start is a member.
-/
def classRanges : (start : Bool) → List Char → Option (List (Char × Char) × List Char)
  | _, [] => none
  | false, ']' :: rest => some ([], rest)
  | _, c :: '-' :: ']' :: rest => some ([(c, c), ('-', '-')], rest)
  | _, c :: '-' :: d :: rest => (classRanges false rest).map fun (ranges, more) =>
    ((c, d) :: ranges, more)
  | _, c :: rest => (classRanges false rest).map fun (ranges, more) => ((c, c) :: ranges, more)

/-- A class, from behind its opening bracket. -/
def readClass (text : List Char) : Option (Bool × List (Char × Char) × List Char) :=
  match text with
  | '!' :: rest | '^' :: rest => (classRanges true rest).map fun read => (true, read)
  | rest => (classRanges true rest).map fun read => (false, read)

/--
The parts of a pattern, some characters of which were read with the part before; a bracket that
is not closed is a letter.
-/
def partsAfter : (skip : Nat) → List Char → List GlobPart
  | _, [] => []
  | skip + 1, _ :: rest => partsAfter skip rest
  | 0, c :: rest =>
    if c = '*' then .plain .many :: partsAfter 0 rest
    else if c = '?' then .plain .one :: partsAfter 0 rest
    else
      match if c = '[' then readClass rest else none with
      | some (negated, ranges, more) =>
        .oneOf negated ranges :: partsAfter (rest.length - more.length) rest
      | none => .plain (.letter c) :: partsAfter 0 rest

/-- The parts of a pattern for one segment. -/
def segParts (pat : List Char) : List GlobPart := partsAfter 0 pat

/-- A segment is as a pattern says. -/
inductive SegGlob : List GlobPart → List Char → Prop where
  | nil : SegGlob [] []
  | letter {c : Char} {p : List GlobPart} {t : List Char} (rest : SegGlob p t) :
    SegGlob (.plain (.letter c) :: p) (c :: t)
  | one {c : Char} {p : List GlobPart} {t : List Char} (rest : SegGlob p t) :
    SegGlob (.plain .one :: p) (c :: t)
  | many {p : List GlobPart} {t : List Char} (skipped : List Char) (rest : SegGlob p t) :
    SegGlob (.plain .many :: p) (skipped ++ t)
  | oneOf {negated : Bool} {ranges : List (Char × Char)} {c : Char} {p : List GlobPart}
    {t : List Char}
    (is : inClass negated ranges c = true) (rest : SegGlob p t) :
      SegGlob (.oneOf negated ranges :: p) (c :: t)

/-- The segments of a path. -/
def pathParts (path : List Char) : List (List Char) := (path.splitOn '/').filter (· ≠ [])

/--
A path is as a pattern says: two stars stand for any number of segments, and other
segments for one each.
-/
def Glob (pat path : List Char) : Prop :=
  Globs.Paths (fun p => p = "**".toList) (fun p seg => SegGlob (segParts p) seg) (pathParts pat)
    (pathParts path)

def GlobPart.isClass : GlobPart → Bool
  | .plain _ => false
  | .oneOf _ _ => true

/-- Whether a pattern for a segment has a class in it. -/
def hasClass (pat : List Char) : Bool := (segParts pat).any GlobPart.isClass

/-- A pattern means what it says, and one that the matcher does not implement is refused. -/
structure Means (pat : List Char) : Prop where
  matches_ : ∀ path, globMatch (textBytes pat) (textBytes path) = true ↔ Glob pat path
  refused : (∃ seg ∈ pathParts pat, hasClass seg = true) → validateGlob pat ≠ .ok ()

/-- A character of a pattern without classes. -/
def charItem (c : Char) : Globs.Item Char :=
  if c = '*' then .many else if c = '?' then .one else .letter c

/-- A byte of a pattern. -/
def byteItem (b : UInt8) : Globs.Item UInt8 :=
  if b = 0x2a then .many else if b = 0x3f then .one else .letter b

/-- Without classes, every character is a part of its own. -/
theorem segParts_of_noClass {pat : List Char} (none_ : hasClass pat = false) :
    segParts pat = (pat.map charItem).map .plain := by
  -- Induction over the pattern: a bracket that opens no class is a letter.
  unfold hasClass segParts at *
  induction pat with
  | nil => rfl
  | cons c rest ih =>
    rw [partsAfter] at none_ ⊢
    rw [List.map_cons, List.map_cons, charItem]
    by_cases star : c = '*'
    · rw [if_pos star] at none_ ⊢
      rw [if_pos star, ih (by simpa [GlobPart.isClass] using none_)]
    · rw [if_neg star] at none_ ⊢
      by_cases mark : c = '?'
      · rw [if_pos mark] at none_ ⊢
        rw [if_neg star, if_pos mark, ih (by simpa [GlobPart.isClass] using none_)]
      · rw [if_neg mark] at none_ ⊢
        rw [if_neg star, if_neg mark]
        rcases is : if c = '[' then readClass rest else none with _ | ⟨negated, ranges, more⟩
        · rw [is] at none_
          dsimp only at none_ ⊢
          rw [ih (by simpa [GlobPart.isClass] using none_)]
        · rw [is] at none_
          simp [GlobPart.isClass] at none_

/-- A pattern without classes matches what the plain items match. -/
theorem segGlob_plain_iff {p : List (Globs.Item Char)} {t : List Char} :
    SegGlob (p.map .plain) t ↔ Globs.Matches p t := by
  -- Each direction goes by induction over the match, whose rules correspond one by one.
  constructor
  · intro glob
    generalize whole : p.map GlobPart.plain = parts at glob
    induction glob generalizing p with
    | nil =>
      obtain rfl := List.map_eq_nil_iff.mp whole
      exact .nil
    | letter _ ih =>
      obtain ⟨item, p, rfl, is, rest⟩ := List.map_eq_cons_iff.mp whole
      cases is
      exact .letter (ih rest)
    | one _ ih =>
      obtain ⟨item, p, rfl, is, rest⟩ := List.map_eq_cons_iff.mp whole
      cases is
      exact .one (ih rest)
    | many skipped _ ih =>
      obtain ⟨item, p, rfl, is, rest⟩ := List.map_eq_cons_iff.mp whole
      cases is
      exact .many skipped (ih rest)
    | oneOf _ _ _ =>
      obtain ⟨item, p, rfl, is, rest⟩ := List.map_eq_cons_iff.mp whole
      cases is
  · intro found
    induction found with
    | nil => exact .nil
    | letter _ ih => exact .letter ih
    | one _ ih => exact .one ih
    | many skipped _ ih => exact .many skipped ih

/-- Some suffix passes exactly if the list can be parted before one that does. -/
theorem anySuffix_iff {A : Type} {test : List A → Bool} {l : List A} :
    anySuffix test l = true ↔ ∃ skipped t, l = skipped ++ t ∧ test t = true := by
  -- Induction over the list: the whole of it passes, or a suffix of its tail does.
  induction l with
  | nil =>
    rw [anySuffix]
    constructor
    · intro passes
      exact ⟨[], [], rfl, passes⟩
    · intro found
      obtain ⟨skipped, t, parted, passes⟩ := found
      rwa [(List.append_eq_nil_iff.mp parted.symm).2] at passes
  | cons a rest ih =>
    rw [anySuffix, Bool.or_eq_true, ih]
    constructor
    · intro either
      rcases either with passes | ⟨skipped, t, rfl, passes⟩
      · exact ⟨[], a :: rest, rfl, passes⟩
      · exact ⟨a :: skipped, t, rfl, passes⟩
    · intro found
      obtain ⟨_ | ⟨b, skipped⟩, t, parted, passes⟩ := found
      · rw [List.nil_append] at parted
        exact .inl (parted ▸ passes)
      · obtain ⟨rfl, rfl⟩ := List.cons.inj parted
        exact .inr ⟨skipped, t, rfl, passes⟩

/-- A star tries every suffix, and every other byte stands for one of the segment. -/
theorem globSeg_cons (a : UInt8) (pat seg : Bytes) :
    globSeg (a :: pat) seg = if a = 0x2a then anySuffix (globSeg pat) seg else
      match seg with
      | [] => false
      | b :: seg => (a == 0x3f || a == b) && globSeg pat seg :=
  globSeg.eq_def (a :: pat) seg

/-- A double star tries every suffix of the path, and another part matches one segment. -/
theorem globRec_cons (p : Bytes) (pat path : List Bytes) :
    globRec (p :: pat) path = if p = [0x2a, 0x2a] then anySuffix (globRec pat) path else
      match path with
      | [] => false
      | seg :: path => segMatch p seg && globRec pat path :=
  globRec.eq_def (p :: pat) path

/-- The matcher takes a segment as the bytes of the pattern say. -/
theorem globSeg_iff {pat seg : Bytes} :
    globSeg pat seg = true ↔ Globs.Matches (pat.map byteItem) seg := by
  -- Induction over the pattern: a star, a question mark or a letter comes first.
  induction pat generalizing seg with
  | nil =>
    rw [globSeg, List.isEmpty_iff, List.map_nil]
    constructor
    · rintro rfl
      exact .nil
    · intro found
      cases found
      rfl
  | cons a pat ih =>
    rw [globSeg_cons, List.map_cons, byteItem]
    by_cases star : a = 0x2a
    · rw [if_pos star, if_pos star, anySuffix_iff]
      constructor
      · intro found
        obtain ⟨skipped, t, rfl, passes⟩ := found
        exact .many skipped (ih.mp passes)
      · intro found
        cases found with
        | many skipped rest => exact ⟨skipped, _, rfl, ih.mpr rest⟩
    · rw [if_neg star, if_neg star]
      by_cases mark : a = 0x3f
      · rw [if_pos mark]
        cases seg with
        | nil =>
          refine iff_of_false (by simp) fun found => ?_
          cases found
        | cons b seg =>
          dsimp only
          rw [mark, beq_self_eq_true, Bool.true_or, Bool.true_and, ih]
          constructor
          · exact .one
          · intro found
            cases found with
            | one rest => exact rest
      -- A letter stands for itself.
      · rw [if_neg mark]
        cases seg with
        | nil =>
          refine iff_of_false (by simp) fun found => ?_
          cases found
        | cons b seg =>
          dsimp only
          rw [beq_false_of_ne mark, Bool.false_or, Bool.and_eq_true, beq_iff_eq, ih]
          constructor
          · intro both
            obtain ⟨rfl, rest⟩ := both
            exact .letter rest
          · intro found
            cases found with
            | letter rest => exact ⟨rfl, rest⟩

/-- A pattern without wildcards is compared as a whole, which comes to the same. -/
theorem segMatch_eq (pat seg : Bytes) : segMatch pat seg = globSeg pat seg := by
  -- The fast path is taken without wildcards, and there only letters are compared.
  unfold segMatch
  split
  · rename_i none
    induction pat generalizing seg with
    | nil => cases seg <;> rfl
    | cons a pat ih =>
      simp only [List.contains_cons, Bool.and_eq_true, Bool.not_eq_true',
        Bool.or_eq_false_iff] at none
      have star : a ≠ 0x2a := fun same => by simp [same] at none
      have mark : a ≠ 0x3f := fun same => by simp [same] at none
      rw [globSeg_cons, if_neg star]
      cases seg with
      | nil => rfl
      | cons b seg =>
        have rest := ih seg (by rw [none.1.2, none.2.2]; rfl)
        simp only [beq_false_of_ne mark, Bool.false_or, ← rest]
        rfl
  · rfl

/--
`globRec` matches the paths that the parts match, where `**` stands for any number of segments.
-/
theorem globRec_iff {pat path : List Bytes} :
    globRec pat path = true ↔ Globs.Paths (fun p => p = [0x2a, 0x2a]) (fun p seg => segMatch p seg =
      true) pat path := by
  -- Induction over the parts: a double star tries every suffix, and another part one segment.
  induction pat generalizing path with
  | nil =>
    rw [globRec, List.isEmpty_iff]
    constructor
    · rintro rfl
      exact .nil
    · intro found
      cases found
      rfl
  | cons p pat ih =>
    rw [globRec_cons]
    by_cases deep : p = [0x2a, 0x2a]
    · rw [if_pos deep, anySuffix_iff]
      constructor
      · intro found
        obtain ⟨skipped, t, rfl, passes⟩ := found
        refine .deep ?_ skipped (ih.mp passes)
        exact deep
      · intro found
        cases found with
        | deep _ skipped rest => exact ⟨skipped, _, rfl, ih.mpr rest⟩
        | part not _ _ => exact absurd deep not
    · rw [if_neg deep]
      cases path with
      | nil =>
        refine iff_of_false (by simp) fun found => ?_
        generalize whole : ([] : List Bytes) = path at found
        cases found with
        | deep is skipped rest => exact deep is
        | part _ _ _ => cases whole
      | cons seg path =>
        rw [Bool.and_eq_true, ih]
        constructor
        · intro both
          exact .part deep both.1 both.2
        · intro found
          generalize whole : seg :: path = parts at found
          cases found with
          | deep is _ _ => exact absurd is deep
          | part _ here rest =>
            obtain ⟨rfl, rfl⟩ := List.cons.inj whole
            exact ⟨here, rest⟩

/-- A small byte is in a text where its character is. -/
theorem mem_textBytes_of_small {text : List Char} {c : Char} {b : UInt8} (small : b.toNat < 0x80)
    (value : c.toNat = b.toNat) :
    b ∈ textBytes text → c ∈ text := by
  -- A byte below 0x80 is the whole of the character that it came from.
  intro member
  obtain ⟨d, inside, here⟩ := List.mem_flatMap.mp member
  obtain ⟨_, same⟩ := Utf8.encodeChar_of_mem here small
  obtain rfl : c = d := Char.toNat_inj.mp (value.trans same)
  exact inside

/-- Parts joined by slashes have the bytes of the parts, joined by the slash's byte. -/
theorem textBytes_intercalate (parts : List (List Char)) :
    textBytes (['/'].intercalate parts) = [0x2f].intercalate (parts.map textBytes) := by
  -- Induction over the parts, for the bytes of two texts are put one behind the other.
  induction parts with
  | nil => rfl
  | cons first rest ih =>
    cases rest with
    | nil => simp
    | cons second rest =>
      rw [List.intercalate_cons_cons, textBytes_append, textBytes_append, ih]
      simp only [List.map_cons, List.intercalate_cons_cons]
      rfl

/-- A path has the same segments in bytes. -/
theorem segments_textBytes (path : List Char) :
    segments (textBytes path) = (pathParts path).map textBytes := by
  -- No part has the slash's byte, so the bytes are cut where the text is.
  have apart : ∀ part ∈ (path.splitOn '/').map textBytes, (0x2f : UInt8) ∉ part := by
    intro part member inside
    obtain ⟨text, member', rfl⟩ := List.mem_map.mp member
    exact (Text.of_mem_splitOn member').1 (mem_textBytes_of_small (by decide) rfl inside)
  have parts : (textBytes path).splitOn 0x2f = (path.splitOn '/').map textBytes := by
    have whole : ['/'].intercalate (path.splitOn '/') = path := List.intercalate_splitOn '/'
    conv => lhs; rw [← whole]
    rw [textBytes_intercalate]
    exact List.splitOn_intercalate _ apart (by simp)
  rw [segments, parts, pathParts, List.filter_map]
  congr 1
  apply List.filter_congr
  intro part _
  have empty : textBytes part = [] ↔ part = [] := textBytes_injective.eq_iff' rfl
  simp [empty]

/-- The parts of a pattern in bytes are those of its characters, each spelled. -/
theorem byteItems (pat : List Char) :
    (textBytes pat).map byteItem = Globs.spell String.utf8EncodeChar (pat.map charItem) := by
  -- Induction over the pattern: only the two wildcards have their bytes.
  induction pat with
  | nil => rfl
  | cons c pat ih =>
    rw [textBytes, List.flatMap_cons, List.map_append, ← textBytes, ih, List.map_cons]
    by_cases star : c = '*'
    · subst star
      rfl
    · by_cases mark : c = '?'
      · subst mark
        rfl
      · have letters :
            (String.utf8EncodeChar c).map byteItem = (String.utf8EncodeChar c).map .letter := by
          apply List.map_congr_left
          intro b member
          -- A byte below 0x80 is the character itself, and this one is neither.
          have other : ∀ d : Char, d ≠ c → d.toNat < 0x80 → b.toNat ≠ d.toNat := by
            intro d apart small same
            obtain ⟨_, value⟩ := Utf8.encodeChar_of_mem member (by omega)
            exact apart (Char.toNat_inj.mp (same.symm.trans value))
          have notStar : b ≠ 0x2a :=
            fun same => other '*' (Ne.symm star) (by decide) (by rw [same]; rfl)
          have notMark : b ≠ 0x3f :=
            fun same => other '?' (Ne.symm mark) (by decide) (by rw [same]; rfl)
          rw [byteItem, if_neg notStar, if_neg notMark]
        rw [letters, charItem, if_neg star, if_neg mark, Globs.spell]

/-- How the matcher takes a segment: a character counts as many times as it has bytes. -/
theorem segMatch_iff (pat seg : List Char) : segMatch (textBytes pat) (textBytes seg) = true ↔
    (Globs.gather (pat.map charItem)).Fits Utf8.size seg := by
  rw [segMatch_eq, globSeg_iff, byteItems]
  exact Globs.matches_spell_iff Utf8.readable

/-- A path is matched exactly if the parts of the pattern fit its segments. -/
theorem globMatch_iff (pat path : List Char) : globMatch (textBytes pat) (textBytes path) = true ↔
    Globs.Paths (fun p => p = "**".toList)
      (fun p seg => (Globs.gather (p.map charItem)).Fits Utf8.size seg)
      (pathParts pat) (pathParts path) := by
  have deep : ∀ p : List Char, textBytes p = [0x2a, 0x2a] ↔ p = "**".toList :=
    fun p => textBytes_injective.eq_iff' rfl
  rw [globMatch, globRec_iff, segments_textBytes, segments_textBytes, Globs.Paths.map_iff]
  simp only [deep, segMatch_iff]

/-- Without classes, a pattern means what it says where every character counts once. -/
theorem glob_iff {pat : List Char} (none_ : ∀ p ∈ pathParts pat, hasClass p = false)
    (path : List Char) :
    Glob pat path ↔ Globs.Paths (fun p => p = "**".toList)
      (fun p seg => (Globs.gather (p.map charItem)).Fits (fun _ => 1) seg) (pathParts pat)
        (pathParts path) := by
  apply Globs.Paths.congr
  intro p member _ seg _
  rw [segParts_of_noClass (none_ p member), segGlob_plain_iff, Globs.matches_iff]

/-- Parts that are not empty and have no slash are read back. -/
theorem pathParts_intercalate {parts : List (List Char)}
    (whole : ∀ part ∈ parts, part ≠ [] ∧ '/' ∉ part) :
    pathParts (['/'].intercalate parts) = parts := by
  -- Cutting undoes joining, and no part is dropped as empty.
  rw [pathParts]
  rcases parts with _ | ⟨first, rest⟩
  · rfl
  · rw [List.splitOn_intercalate _ (fun part member => (whole part member).2)
      (List.cons_ne_nil _ _)]
    apply List.filter_eq_self.mpr
    intro part member
    simpa using (whole part member).1

/-- The wildcards of a pattern for a segment, gathered. -/
def wildcards (seg : List Char) : List Globs.Run := (Globs.gather (seg.map charItem)).runs

/-- A pattern's letters are its characters that are no wildcards. -/
theorem letters_subset {seg : List Char} :
    ∀ c ∈ (Globs.gather (seg.map charItem)).letters, c ∈ seg := by
  -- Induction over the segment: only a letter is added to the letters.
  have first :
      ∀ (f : Globs.Run → Globs.Run) (p : Globs.Runs Char), (p.mapFirst f).letters = p.letters := by
    intro f p
    cases p <;> rfl
  induction seg with
  | nil => simp [Globs.gather, Globs.Runs.letters]
  | cons c seg ih =>
    intro d member
    rw [List.map_cons, charItem] at member
    split at member
    · rw [Globs.gather, first] at member
      exact List.mem_cons_of_mem _ (ih d member)
    · split at member
      · rw [Globs.gather, first] at member
        exact List.mem_cons_of_mem _ (ih d member)
      · rw [Globs.gather, Globs.Runs.letters] at member
        rcases List.mem_cons.mp member with rfl | later
        · exact List.mem_cons_self
        · exact List.mem_cons_of_mem _ (ih d later)

/-- A pattern that is not empty leaves something to match. -/
theorem gather_ne_last_none {seg : List Char} (some_ : seg ≠ []) :
    Globs.gather (seg.map charItem) ≠ .last .none := by
  -- Its first character is a star, a question mark or a letter, and each of them leaves a trace.
  cases seg with
  | nil => exact absurd rfl some_
  | cons c seg =>
    rw [List.map_cons, charItem]
    split
    · rw [Globs.gather]
      cases Globs.gather (seg.map charItem) <;> simp [Globs.Runs.mapFirst, Globs.Run.addMany,
        Globs.Run.none]
    · split
      · rw [Globs.gather]
        cases Globs.gather (seg.map charItem) <;> simp [Globs.Runs.mapFirst, Globs.Run.addOne,
          Globs.Run.none]
      · simp [Globs.gather]

/-- The part of a pattern that some of its letters and two others fill is a part of a path. -/
theorem part_of_letters {pat q u : List Char} (part : q ∈ pathParts pat) (some_ : u ≠ [])
    (letters : ∀ x ∈ u, x ∈ (Globs.gather (q.map charItem)).letters ∨ x = 'a' ∨ x = 'é') :
    u ≠ [] ∧ '/' ∉ u := by
  -- Neither the letters of a part nor the two that are added are slashes.
  refine ⟨some_, fun slash => ?_⟩
  rcases letters _ slash with letter | is | is
  · -- A letter of the part is a character of it, and the parts are cut at the slashes.
    exact (Text.of_mem_splitOn (List.mem_of_mem_filter part)).1 (letters_subset _ letter)
  · exact absurd is (by decide)
  · exact absurd is (by decide)

/--
Texts that fit the parts of a pattern, but for one that may be another, fit them all
when this one does.
-/
theorem fits_except_iff {parts : List (List Char)} {p t : List Char} {f : List Char → List Char}
    {weight : Char → Nat} (member : p ∈ parts)
    (fits : ∀ q, (Globs.gather (q.map charItem)).Fits weight (f q)) :
    (∀ q ∈ parts, (Globs.gather (q.map charItem)).Fits weight (if q = p then t else f q)) ↔
      (Globs.gather (p.map charItem)).Fits weight t := by
  -- The other parts fit in any case, so only the one that is replaced decides.
  constructor
  · intro all
    simpa using all p member
  · intro one q _
    split
    · rename_i is
      rw [is]
      exact one
    · exact fits q

/--
Where a wildcard of a pattern counts characters, there is a path on which the two
ways of counting differ.
-/
theorem exists_path_apart {pat p : List Char} (none_ : ∀ p ∈ pathParts pat, hasClass p = false)
    (member : p ∈ pathParts pat) (counts : ∃ r ∈ wildcards p, ¬r.Loose) :
    ∃ path, ¬(globMatch (textBytes pat) (textBytes path) = true ↔ Glob pat path) := by
  -- Some segment of the pattern has such a wildcard, and it is not the deep one.
  have notDeep : p ≠ "**".toList := by
    rintro rfl
    obtain ⟨r, inside, counts⟩ := counts
    exact counts ((by decide : ∀ r ∈ wildcards "**".toList, r.Loose) r inside)
  -- A segment on which the two disagree, and segments on which they agree for the
  -- rest of the pattern.
  have small : Utf8.size 'a' = 1 := by decide
  have large : Utf8.size 'é' = 2 := by decide
  obtain ⟨t, made, some_, apart⟩ := Globs.Runs.exists_apart small large counts
  have common : ∀ q :
    List Char, ∃ u, (∀ x ∈ u, x ∈ (Globs.gather (q.map charItem)).letters ∨ x = 'a') ∧
      (Globs.gather (q.map charItem) ≠ .last .none → u ≠ []) ∧
        (Globs.gather (q.map charItem)).Fits Utf8.size u ∧
      (Globs.gather (q.map charItem)).Fits (fun _ => 1) u := fun q => Globs.Runs.exists_common small
  choose f inside filled fits fits' using common
  let patterns := (pathParts pat).filter fun q => ¬q = "**".toList
  have member' : p ∈ patterns := List.mem_filter.mpr ⟨member, by simpa using notDeep⟩
  have whole : ∀ part ∈ patterns.map fun q => if q = p then t else f q, part ≠ [] ∧ '/' ∉ part := by
    intro part there
    obtain ⟨q, from_, rfl⟩ := List.mem_map.mp there
    have part := List.mem_of_mem_filter from_
    have some' : q ≠ [] := by simpa using (List.mem_filter.mp part).2
    split
    · rename_i is
      subst is
      exact part_of_letters part some_ made
    · exact part_of_letters part (filled q (gather_ne_last_none some')) fun x there =>
        (inside q x there).imp_right .inl
  refine ⟨['/'].intercalate (patterns.map fun q => if q = p then t else f q), ?_⟩
  -- The path is made segment by segment, and all but the one are matched either way.
  rw [globMatch_iff, glob_iff none_, pathParts_intercalate whole,
    Globs.Paths.forall₂_iff (by simp [patterns]),
    Globs.Paths.forall₂_iff (by simp [patterns]), List.forall₂_map_right_iff, List.forall₂_same,
    List.forall₂_map_right_iff, List.forall₂_same]
  rw [fits_except_iff member' fits, fits_except_iff member' fits']
  exact apart

/--
A pattern without classes is matched as it says exactly when no wildcard of it counts characters.
-/
theorem matches_iff_loose {pat : List Char} (none_ : ∀ p ∈ pathParts pat, hasClass p = false) :
    (∀ path, globMatch (textBytes pat) (textBytes path) = true ↔ Glob pat path) ↔
      ∀ p ∈ pathParts pat, ∀ r ∈ wildcards p, r.Loose := by
  -- Loose wildcards count bytes as characters, and a wildcard that is not loose parts the two.
  have positive : ∀ c : Char, 1 ≤ Utf8.size c := by
    intro c
    exact List.length_pos_iff.mpr (Utf8.readable.written c)
  constructor
  · intro same p member
    by_contra counts
    push Not at counts
    obtain ⟨path, apart⟩ := exists_path_apart none_ member counts
    exact apart (same path)
  · intro loose path
    rw [globMatch_iff, glob_iff none_]
    apply Globs.Paths.congr
    intro p member _ seg _
    exact Globs.Runs.fits_iff_of_loose positive (loose p member)

/-- One line keeps every pattern so far one that is accepted. -/
theorem parseRulesLine_accepts {sofar next : MirrorRules × Bool} {i : Nat} {raw : List Char}
    (before : ∀ g ∈ sofar.1.excludePaths, validateGlob g = .ok ())
    (read : parseRulesLine sofar i raw = .ok next) :
    ∀ g ∈ next.1.excludePaths, validateGlob g = .ok () := by
  -- Only a line of excludes adds globs, and each of them has been checked.
  unfold parseRulesLine at read
  dsimp only at read
  split at read
  · cases read
    exact before
  · split at read
    · cases read
    · split at read
      · split at read
        · cases read
        · simp only [except_bind_eq_ok, except_pure_eq, Except.ok.injEq] at read
          obtain ⟨globs, each, rfl⟩ := read
          intro g member
          obtain ⟨raw, _, checked⟩ := (mem_mapM each g).mp member
          simp only [except_bind_eq_ok, Except.ok.injEq] at checked
          obtain ⟨_, valid, rfl⟩ := checked
          exact valid
      · -- The other lines set a flag, or are refused.
        split at read
        · simp only [except_bind_eq_ok, except_pure_eq, Except.ok.injEq] at read
          obtain ⟨flag, _, rfl⟩ := read
          exact before
        · split at read
          · simp only [except_bind_eq_ok, except_pure_eq, Except.ok.injEq] at read
            obtain ⟨flag, _, rfl⟩ := read
            exact before
          · cases read

/-- The patterns of accepted rules are accepted. -/
theorem validateGlob_of_parseRules {text : List Char} {rules : MirrorRules}
    (accepted : parseRules text = .ok rules) :
    ∀ g ∈ rules.excludePaths, validateGlob g = .ok () := by
  -- Folded over the lines: what the rules hold has been checked.
  rw [parseRules, except_bind_eq_ok] at accepted
  obtain ⟨⟨rules', sawExcludes⟩, folded, same⟩ := accepted
  have all : ∀ g ∈ (rules', sawExcludes).1.excludePaths, validateGlob g = .ok () :=
    foldlM_keeps (P := fun sofar : MirrorRules × Bool => ∀ g ∈ sofar.1.excludePaths,
      validateGlob g = .ok ())
      (fun g member => by cases member) (fun _ _ _ before read => parseRulesLine_accepts before
        read) folded
  dsimp only at same
  split at same
  · cases same
    exact all
  · cases same

/--
The patterns of accepted rules mean what they say exactly when no segment of them has a
class, nor wildcards that count characters: no question mark among those that stand together,
or just one beside a star.
-/
theorem rules_mean_iff {text : List Char} {rules : MirrorRules}
    (accepted : parseRules text = .ok rules) :
    (∀ g ∈ rules.excludePaths, Means g) ↔ ∀ g ∈ rules.excludePaths, ∀ seg ∈ pathParts g,
      hasClass seg = false ∧ ∀ r ∈ wildcards seg, r.ones = 0 ∨ r.ones = 1 ∧ r.more = true := by
  -- The claim is one for each glob, and a class is refused by what it means.
  apply forall₂_congr
  intro g member
  constructor
  · intro means
    -- A class is accepted by the parser although the meaning refuses it.
    have none_ : ∀ seg ∈ pathParts g, hasClass seg = false := by
      intro seg inside
      by_contra some_
      exact means.refused ⟨seg, inside, by simpa using some_⟩
        (validateGlob_of_parseRules accepted g member)
    intro seg inside
    exact ⟨none_ seg inside, (matches_iff_loose none_).mp means.matches_ seg inside⟩
  · intro plain
    refine ⟨(matches_iff_loose fun seg inside => (plain seg inside).1).mpr fun seg inside =>
      (plain seg inside).2, ?_⟩
    intro some_
    obtain ⟨seg, inside, is⟩ := some_
    rw [(plain seg inside).1] at is
    cases is

/-- Rules with stars inside a segment, a question mark beside a star and letters outside ASCII. -/
def starryRules : List Char := "exclude_paths=**/é*.log,tmp?*/**".toList

/-- Rules with stars that stand for any number of characters mean what they say. -/
theorem starry_rules_mean_what_they_say :
    ∃ rules, parseRules starryRules = .ok rules ∧
      rules.excludePaths = ["**/é*.log".toList, "tmp?*/**".toList] ∧
      ∀ g ∈ rules.excludePaths, Means g := by
  have accepted : parseRules starryRules = .ok ⟨["**/é*.log".toList, "tmp?*/**".toList], true,
    true⟩ := by decide
  exact ⟨_, accepted, rfl, (rules_mean_iff accepted).mpr (by decide)⟩

/-- Rules with a class, and with a question mark of its own. -/
def classyRules : List Char := "exclude_paths=[ab],?".toList

/-- A class is accepted and stands for its own text, and a question mark for a byte. -/
theorem classes_are_accepted_and_never_match :
    ∃ rules, parseRules classyRules = .ok rules ∧ rules.excludePaths = ["[ab]".toList, "?".toList] ∧
      (Glob "[ab]".toList "a".toList ∧ globMatch (textBytes "[ab]".toList) (textBytes "a".toList) =
        false) ∧
      (Glob "?".toList "é".toList ∧ globMatch (textBytes "?".toList) (textBytes "é".toList) =
        false) ∧
      ¬∀ g ∈ rules.excludePaths, Means g := by
  -- Each glob matches by its meaning, and the code's answer is evaluated.
  have byClass : Glob "[ab]".toList "a".toList :=
    .part (by decide) (.oneOf (by decide) .nil) .nil
  have byMark : Glob "?".toList "é".toList := .part (by decide) (.one .nil) .nil
  refine ⟨⟨["[ab]".toList, "?".toList], true, true⟩, by decide, rfl, ⟨byClass, by decide⟩,
    ⟨byMark, by decide⟩, ?_⟩
  intro means
  have matched := (means "[ab]".toList List.mem_cons_self).matches_ "a".toList |>.mpr byClass
  exact absurd matched (by decide)

end NasTools
