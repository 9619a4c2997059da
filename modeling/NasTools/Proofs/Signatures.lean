import NasTools.Model.Crypto.Concrete
import NasTools.Model.Gateway.S3
import NasTools.Model.Gateway.SigV4

/-! What a SigV4 signature binds of a request, and what of its query it leaves to the router. -/

namespace NasTools

namespace SigV4

/-- What is or-ed together is zero exactly when all of it is. -/
theorem foldl_or_eq_zero {items : List UInt8} {start : UInt8} :
    items.foldl (· ||| ·) start = 0 ↔ start = 0 ∧ ∀ b ∈ items, b = 0 := by
  -- The start is general, since each step or-s a byte into it.
  induction items generalizing start with
  | nil => simp
  | cons b rest ih => simp [ih, and_assoc]

/-- The comparison finds exactly the same bytes the same. -/
theorem ctEq_iff {a b : Bytes} : ctEq a b = true ↔ a = b := by
  -- The lengths are compared, and then the bytes.
  simp only [ctEq, Bool.and_eq_true, beq_iff_eq, foldl_or_eq_zero, true_and]
  constructor
  · intro nothing
    obtain ⟨lengths, zeros⟩ := nothing
    -- Byte by byte, an exclusive or of zero is an equality.
    induction a generalizing b with
    | nil => exact (List.length_eq_zero_iff.mp lengths.symm).symm
    | cons x a ih =>
      cases b with
      | nil => simp at lengths
      | cons y b =>
        simp only [List.zipWith_cons_cons, List.mem_cons, forall_eq_or_imp, UInt8.xor_eq_zero_iff]
          at zeros
        obtain ⟨rfl, later⟩ := zeros
        rw [ih (by simpa using lengths) later]
  · rintro rfl
    refine ⟨rfl, ?_⟩
    induction a with
    | nil => simp
    | cons x a ih => simp

/--
The bytes that stand for themselves are small, and none of them is a percent sign or a separator.
-/
theorem keptInUri_table (encodeSlash : Bool) (b : UInt8) (kept : keptInUri encodeSlash b = true) :
    (b < 0x80 ∧ b ≠ 0x25) ∧
      Char.ofNat b.toNat ≠ '\n' ∧ Char.ofNat b.toNat ≠ '&' ∧ Char.ofNat b.toNat ≠ '=' := by
  revert b
  -- There are 256 bytes, and they are looked at one by one.
  apply Quoting.forall_byte
  cases encodeSlash <;> decide +kernel

/-- The bytes that stand for themselves are one byte each, and no percent sign. -/
theorem keptInUri_plain (encodeSlash : Bool) : Percent.Plain (keptInUri encodeSlash) :=
  fun b kept => (keptInUri_table encodeSlash b kept).1

/--
The characters that part a canonical text, a query and a parameter stand in no canonical component.
-/
theorem separators_not_mem_uriEncode (text : List Char) (encodeSlash : Bool) :
    '\n' ∉ uriEncode text encodeSlash ∧ '&' ∉ uriEncode text encodeSlash ∧
      '=' ∉ uriEncode text encodeSlash := by
  -- A spelling is made of what is kept and of escapes.
  have kept (encodeSlash : Bool) (b : UInt8) (is : keptInUri encodeSlash b = true) :=
    (keptInUri_table encodeSlash b is).2
  -- A character of a spelling is a kept byte or part of an escape, and these are neither.
  refine ⟨?_, ?_, ?_⟩
  · exact Percent.not_mem_spell (fun b is => (kept encodeSlash b is).1) (by decide) text
  · exact Percent.not_mem_spell (fun b is => (kept encodeSlash b is).2.1) (by decide) text
  · exact Percent.not_mem_spell (fun b is => (kept encodeSlash b is).2.2) (by decide) text

/-- Texts with the same encoding are the same. -/
theorem uriEncode_injective {encodeSlash : Bool} {a b : List Char}
    (same : uriEncode a encodeSlash = uriEncode b encodeSlash) :
    a = b := Percent.spell_injective (keptInUri_plain encodeSlash) same

/-- The name and the value of a parameter as the verifier reads them. -/
def decodedParameter (part : List Char) : List Char × List Char :=
  match Text.splitOnce '=' part with
  | some (name, value) => (decodeComponent name, decodeComponent value)
  | none => (decodeComponent part, [])

/-- The parameters of a query as the verifier reads them. -/
def decodedParameters (query : List Char) : List (List Char × List Char) :=
  ((query.splitOn '&').filter (· ≠ [])).map decodedParameter

/-- A parameter in its canonical form. -/
def encodeParameter (parameter : List Char × List Char) : List Char × List Char :=
  (uriEncode parameter.1 true, uriEncode parameter.2 true)

/-- A parameter is decoded and encoded again. -/
theorem canonicalParameter_eq (part : List Char) :
    canonicalParameter part = encodeParameter (decodedParameter part) := by
  -- The part has an equality sign or it has none.
  unfold canonicalParameter decodedParameter
  cases Text.splitOnce '=' part with
  -- A part without an equality sign is a name whose value is empty.
  | none => rfl
  | some parts => rfl

/-- A parameter as it stands in a query. -/
def renderParameter (parameter : List Char × List Char) : List Char :=
  parameter.1 ++ '=' :: parameter.2

/-- Parameters one behind the other. -/
def renderParameters (parameters : List (List Char × List Char)) : List Char :=
  ['&'].intercalate (parameters.map renderParameter)

/-- Parameters in order of their names, and then of their values. -/
def sortParameters (parameters : List (List Char × List Char)) : List (List Char × List Char) :=
  parameters.mergeSort fun a b => (compare a b).isLE

/--
The canonical query is the sorted list of the encoded parameters, with none for the empty query.
-/
theorem canonicalQuery_eq (query : List Char) :
    canonicalQuery query =
      renderParameters (sortParameters ((decodedParameters query).map encodeParameter)) := by
  -- Parameter by parameter, between the same sorting and the same writing.
  unfold canonicalQuery
  split
  · -- The early return for the empty query gives what the long way would give.
    rename_i empty
    subst empty
    have none_ : decodedParameters [] = [] := by simp [decodedParameters, List.splitOn_nil]
    rw [none_]
    simp [renderParameters, sortParameters]
  · have parts : ((query.splitOn '&').filter (· ≠ [])).map canonicalParameter =
        (decodedParameters query).map encodeParameter := by
      rw [decodedParameters, List.map_map]
      exact List.map_congr_left fun part _ => canonicalParameter_eq part
    dsimp only
    rw [parts]
    rfl

/-- Encoding a parameter loses nothing. -/
theorem encodeParameter_injective : Function.Injective encodeParameter := by
  intro a b same
  exact Prod.ext (uriEncode_injective (congrArg Prod.fst same))
    (uriEncode_injective (congrArg Prod.snd same))

/-- Sorted lists with the same parameters are the same list. -/
theorem sortParameters_eq_iff {a b : List (List Char × List Char)} :
    sortParameters a = sortParameters b ↔ a.Perm b := by
  -- One way the sorting keeps what there is, and the other way it has no choice.
  constructor
  · -- A sorted list is a permutation of what was sorted, so the two lists share one.
    intro same
    have left : (sortParameters a).Perm a := List.mergeSort_perm a _
    rw [same] at left
    exact left.symm.trans (List.mergeSort_perm b _)
  · intro perm
    -- The order is total and antisymmetric, so a permutation has one sorted form.
    have sorted (c : List (List Char × List Char)) :
        (sortParameters c).Pairwise fun x y => (compare x y).isLE = true := by
      apply List.pairwise_mergeSort
      · intro x y z first second
        exact Std.TransCmp.isLE_trans first second
      · intro x y
        have total : (compare x y).isLE = true ∨ (compare y x).isLE = true := by
          cases order : compare x y with
          | lt => simp
          | eq => simp
          | gt => simp [Std.OrientedCmp.gt_iff_lt.mp order]
        simpa using total
    refine List.Perm.eq_of_pairwise ?_ (sorted a) (sorted b)
      ((List.mergeSort_perm a _).trans (perm.trans (List.mergeSort_perm b _).symm))
    intro x y _ _ le ge
    exact Std.LawfulEqCmp.eq_of_compare (Std.OrientedCmp.isLE_antisymm le ge)

/-- Pieces that are not empty are read off the text they are joined in. -/
theorem pieces_intercalate {pieces : List (List Char)} (free : ∀ p ∈ pieces, '&' ∉ p)
    (filled : ∀ p ∈ pieces, p ≠ []) :
    ((['&'].intercalate pieces).splitOn '&').filter (· ≠ []) = pieces := by
  -- Cutting undoes joining, and no piece is empty.
  by_cases none_ : pieces = []
  · -- Splitting the empty text gives one empty piece, and the filter takes it out.
    subst none_
    simp [List.splitOn_nil]
  · rw [List.splitOn_intercalate '&' free none_, List.filter_eq_self]
    intro p member
    simpa using filled p member

/-- A parameter that can be told from the text around it. -/
structure Separable (parameter : List Char × List Char) : Prop where
  name : '&' ∉ parameter.1 ∧ '=' ∉ parameter.1
  value : '&' ∉ parameter.2

/-- An encoded parameter has none of the separators in it. -/
theorem separable_encodeParameter (parameter : List Char × List Char) :
    Separable (encodeParameter parameter) := by
  obtain ⟨_, name, equals⟩ := separators_not_mem_uriEncode parameter.1 true
  obtain ⟨_, value, _⟩ := separators_not_mem_uriEncode parameter.2 true
  exact ⟨⟨name, equals⟩, value⟩

/-- The pieces of a rendered query are its parameters. -/
theorem pieces_renderParameters {parameters : List (List Char × List Char)}
    (separable : ∀ p ∈ parameters, Separable p) :
    ((renderParameters parameters).splitOn '&').filter (· ≠ []) =
      parameters.map renderParameter := by
  -- The two conditions on the pieces are shown.
  refine pieces_intercalate ?_ ?_
  · -- Neither half of a parameter has an ampersand in it, and the equality sign is none.
    intro piece member
    obtain ⟨p, inside, rfl⟩ := List.mem_map.mp member
    simp [renderParameter, (separable p inside).name.1, (separable p inside).value]
  · -- The equality sign is always written, so no piece is empty.
    intro piece member
    obtain ⟨p, inside, rfl⟩ := List.mem_map.mp member
    simp [renderParameter]

/-- Separable parameters are read off the text they are rendered as. -/
theorem renderParameters_injective {a b : List (List Char × List Char)}
    (separableA : ∀ p ∈ a, Separable p) (separableB : ∀ p ∈ b, Separable p)
    (same : renderParameters a = renderParameters b) : a = b := by
  -- The text is cut at its separators.
  have pieces : a.map renderParameter = b.map renderParameter := by
    rw [← pieces_renderParameters separableA, same, pieces_renderParameters separableB]
  -- No name has an equality sign in it, so each piece is one name and one value.
  clear same
  induction a generalizing b with
  | nil => exact (List.map_eq_nil_iff.mp pieces.symm).symm
  | cons x a ih =>
    cases b with
    | nil => cases pieces
    | cons y b =>
      obtain ⟨first, later⟩ := List.cons.inj pieces
      obtain ⟨name, value⟩ := Text.append_separator_inj (separableA x (by simp)).name.2
        (separableB y (by simp)).name.2 first
      rw [Prod.ext name value, ih (fun p member => separableA p (by simp [member]))
        (fun p member => separableB p (by simp [member])) later]

/--
Two queries have one canonical form exactly when the verifier reads the same
parameters in them, in some order.
-/
theorem canonicalQuery_eq_iff {q q' : List Char} :
    canonicalQuery q = canonicalQuery q' ↔ (decodedParameters q).Perm (decodedParameters q') := by
  -- Sorting makes the order no matter, and everything else is kept.
  have separable (query : List Char) :
      ∀ p ∈ sortParameters ((decodedParameters query).map encodeParameter), Separable p := by
    intro p member
    obtain ⟨parameter, _, rfl⟩ := List.mem_map.mp ((List.mergeSort_perm _ _).mem_iff.mp member)
    exact separable_encodeParameter parameter
  rw [canonicalQuery_eq, canonicalQuery_eq]
  constructor
  · -- From one canonical text: the parameters are read off it, and encoding them loses nothing.
    intro same
    have sorted := renderParameters_injective (separable q) (separable q') same
    exact (List.map_perm_map_iff encodeParameter_injective).mp (sortParameters_eq_iff.mp sorted)
  · intro perm
    rw [sortParameters_eq_iff.mpr (perm.map encodeParameter)]

/-- A text that every byte of is escaped. -/
def escapeAll (text : List Char) : List Char := Percent.spell (fun _ => false) text

/-- Without a plus sign the verifier decodes what the router decodes. -/
theorem decodeComponent_of_not_mem {text : List Char} (noPlus : '+' ∉ text) :
    decodeComponent text = Percent.decode text := by
  -- Only a plus sign is read otherwise.
  have same : text.map (fun c => if c = '+' then ' ' else c) = text := by
    conv_rhs => rw [← List.map_id text]
    refine List.map_congr_left fun c member => if_neg ?_
    rintro rfl
    exact noPlus member
  rw [decodeComponent, same]

/--
What is escaped altogether has none of these characters, and is read back by the
verifier and the router.
-/
theorem decode_escapeAll (text : List Char) :
    decodeComponent (escapeAll text) = text ∧ Percent.decode (escapeAll text) = text := by
  -- Everything is escaped, so nothing is read otherwise.
  have plain : Percent.Plain fun _ => false := by
    intro b impossible
    cases impossible
  have noPlus : '+' ∉ escapeAll text := Percent.not_mem_spell (by simp) (by decide) text
  have read : Percent.decode (escapeAll text) = text := Percent.decode_spell plain text
  exact ⟨(decodeComponent_of_not_mem noPlus).trans read, read⟩

/-- No separator of a query or of a request line is part of an escaped text. -/
theorem not_mem_escapeAll {c : Char} (other : c ∉ Percent.escapeAlphabet) (text : List Char) :
    c ∉ escapeAll text :=
  Percent.not_mem_spell (by simp) other text

/-- A query that spells some parameters, after pieces that stand as they are. -/
def respell (front : List (List Char × List Char))
    (parameters : List (List Char × List Char)) : List Char :=
  renderParameters (front ++ parameters.map fun p => (escapeAll p.1, escapeAll p.2))

/-- The verifier reads back what was spelled. -/
theorem decodedParameters_renderParameters {parameters : List (List Char × List Char)}
    (separable : ∀ p ∈ parameters, Separable p) :
    decodedParameters (renderParameters parameters) =
      parameters.map fun p => (decodeComponent p.1, decodeComponent p.2) := by
  rw [decodedParameters, pieces_renderParameters separable, List.map_map]
  refine List.map_congr_left fun p member => ?_
  rw [Function.comp_apply, decodedParameter, renderParameter,
    Text.splitOnce_append (separable p member).name.2]

/-- The escaped form of a parameter is separable, and is read back. -/
theorem separable_escapeAll (p : List Char × List Char) :
    Separable (escapeAll p.1, escapeAll p.2) :=
  ⟨⟨not_mem_escapeAll (by decide) _, not_mem_escapeAll (by decide) _⟩,
    not_mem_escapeAll (by decide) _⟩

/-- Parameters as they are respelled, the one in plain letters among them. -/
theorem separable_respelled (v : List Char) (parameters : List (List Char × List Char)) :
    ∀ p ∈ ("prefix".toList, escapeAll v) :: parameters.map fun p => (escapeAll p.1, escapeAll p.2),
      Separable p := by
  -- The name is in plain letters, and the rest is escaped.
  have letters : '&' ∉ "prefix".toList ∧ '=' ∉ "prefix".toList := by decide
  intro p member
  rcases List.mem_cons.mp member with rfl | later
  · exact ⟨letters, not_mem_escapeAll (by decide) v⟩
  · obtain ⟨q, _, rfl⟩ := List.mem_map.mp later
    exact separable_escapeAll q

/-- Words the router looks for are read and written as they are. -/
theorem plain_words :
    decodeComponent "prefix".toList = "prefix".toList ∧ ['/'] = uriEncode ['/'] false := by
  decide +kernel

/--
A query that says "prefix" of a text in plain letters, or not at all, and spells all
else with escapes.
-/
theorem respell_decoded (v : List Char) (parameters : List (List Char × List Char)) :
    decodedParameters (respell [] parameters) = parameters ∧
      decodedParameters (respell [("prefix".toList, escapeAll v)] parameters) =
        ("prefix".toList, v) :: parameters := by
  -- The respelled query is decoded parameter by parameter.
  have separable := separable_respelled v parameters
  have escaped := fun p member => separable p (List.mem_cons_of_mem _ member)
  -- Escaping and reading back is the identity on each parameter.
  have back : (parameters.map fun p => (escapeAll p.1, escapeAll p.2)).map
      (fun p => (decodeComponent p.1, decodeComponent p.2)) = parameters := by
    rw [List.map_map]
    conv_rhs => rw [← List.map_id parameters]
    refine List.map_congr_left fun p _ => ?_
    simp only [Function.comp_apply, (decode_escapeAll _).1, id]
  have plainRead := plain_words.1
  constructor
  · rw [respell, List.nil_append, decodedParameters_renderParameters escaped, back]
  · rw [respell, List.singleton_append, decodedParameters_renderParameters, List.map_cons,
      back, plainRead, (decode_escapeAll v).1]
    exact separable

/-- The router finds nothing in an empty part. -/
theorem queryParam_eq (query name : List Char) :
    S3.queryParam query name = ((query.splitOn '&').filter (· ≠ [])).findSome?
      (S3.paramValue name) := by
  -- Leaving out empty parts leaves out nothing that is looked for.
  have skip (parts : List (List Char)) :
      parts.findSome? (S3.paramValue name) =
        (parts.filter (· ≠ [])).findSome? (S3.paramValue name) := by
    induction parts with
    | nil => rfl
    | cons part rest ih =>
      cases part with
      -- An empty part has no equality sign, and so no value of any name.
      | nil => simpa [List.findSome?_cons, S3.paramValue, Text.splitOnce] using ih
      | cons c part => simp [List.findSome?_cons, ih]
  exact skip (query.splitOn '&')

/-- The router finds the first parameter of a name in what was rendered. -/
theorem queryParam_renderParameters {parameters : List (List Char × List Char)} (name : List Char)
    (separable : ∀ p ∈ parameters, Separable p) :
    S3.queryParam (renderParameters parameters) name =
      (parameters.find? (·.1 = name)).map Prod.snd := by
  -- The rendered query is cut into its pieces again.
  rw [queryParam_eq, pieces_renderParameters separable]
  induction parameters with
  | nil => rfl
  | cons p rest ih =>
    -- The name of a piece ends at its first equality sign, since it has none in itself.
    have here : S3.paramValue name (renderParameter p) = if p.1 = name then some p.2 else none := by
      rw [S3.paramValue, renderParameter, Text.splitOnce_append (separable p (by simp)).name.2]
      rfl
    rw [List.map_cons, List.findSome?_cons, here, List.find?_cons]
    by_cases is : p.1 = name
    · simp [is]
    · simp [is, ih fun q member => separable q (by simp [member])]

/-- What the router makes of a respelled query: no prefix, or the one in plain letters. -/
theorem routedPrefix_respell (v : List Char) (parameters : List (List Char × List Char)) :
    S3.routedPrefix (respell [] parameters) = [] ∧
      S3.routedPrefix (respell [("prefix".toList, escapeAll v)] parameters) = v := by
  -- The router looks for the first parameter of that name.
  have separable := separable_respelled v parameters
  have escaped := fun p member => separable p (List.mem_cons_of_mem _ member)
  constructor
  · rw [S3.routedPrefix, respell, List.nil_append, queryParam_renderParameters _ escaped,
      List.find?_eq_none.mpr]
    · rfl
    · -- An escaped name starts with a percent sign, if with anything.
      intro p member
      obtain ⟨q, _, rfl⟩ := List.mem_map.mp member
      simp only [decide_eq_true_eq]
      intro is
      have head := Percent.head_spell_none q.1
      rw [show Percent.spell (fun _ => false) q.1 = "prefix".toList from is] at head
      exact absurd (head 'p' rfl) (by decide)
  · rw [S3.routedPrefix, respell, List.singleton_append, queryParam_renderParameters,
      List.find?_cons_of_pos (by simp)]
    · -- The router compares names as they stand, and the first one here is in plain letters.
      exact (decode_escapeAll v).2
    · exact separable

/-- The verifier reads a prefix in a query: a parameter of that name with something in it. -/
def NamesPrefix (query : List Char) : Prop :=
  ∃ v, ("prefix".toList, v) ∈ decodedParameters query ∧ v ≠ []

/-- What has the same parameters names a prefix as well. -/
theorem NamesPrefix.perm {q q' : List Char}
    (perm : (decodedParameters q).Perm (decodedParameters q')) (named : NamesPrefix q) :
    NamesPrefix q' := by
  obtain ⟨v, member, some_⟩ := named
  exact ⟨v, perm.mem_iff.mp member, some_⟩

/-- Where the verifier reads no prefix, the router finds none. -/
theorem routedPrefix_of_not_namesPrefix {query : List Char} (none_ : ¬NamesPrefix query) :
    S3.routedPrefix query = [] := by
  -- The router looks for a parameter by its name.
  unfold S3.routedPrefix
  rw [queryParam_eq]
  cases found : ((query.splitOn '&').filter (· ≠ [])).findSome? (S3.paramValue "prefix".toList) with
  | none => rfl
  | some raw =>
    -- The router compares the raw name, which in plain letters is also the decoded one.
    obtain ⟨part, inside, value⟩ := List.exists_of_findSome?_eq_some found
    obtain ⟨⟨name, v⟩, parted, is⟩ := Option.bind_eq_some_iff.mp value
    dsimp only at is
    split at is
    · rename_i named
      obtain rfl := Option.some.inj is
      subst named
      -- The verifier reads this parameter under the same name, so there is nothing in it.
      have plainRead := plain_words.1
      have read : decodedParameter part = ("prefix".toList, decodeComponent v) := by
        rw [decodedParameter, parted]
        exact Prod.ext plainRead rfl
      have empty : decodeComponent v = [] := by
        by_contra some_
        exact none_ ⟨_, read ▸ List.mem_map_of_mem inside, some_⟩
      rw [decodeComponent, Percent.decode_eq_nil, List.map_eq_nil_iff] at empty
      rw [empty]
      rfl
    · cases is

/-- Paths with one canonical form name the same bucket and key. -/
theorem route_of_canonicalPath {path path' : List Char}
    (same : canonicalPath path = canonicalPath path') :
    path.dropWhile (· == '/') = path'.dropWhile (· == '/') := by
  -- Paths with one canonical form have the same decoded parts.
  have empty {p : List Char} : uriEncode p false = [] ↔ p = [] := by
    constructor
    · intro is
      exact uriEncode_injective (is.trans (rfl : ([] : List Char) = uriEncode [] false))
    · rintro rfl
      rfl
  have slash {p : List Char} (is : uriEncode p false = ['/']) : p = ['/'] :=
    uriEncode_injective (is.trans plain_words.2)
  unfold canonicalPath at same
  dsimp only at same
  -- The empty path is the only one that is not its own canonical form, and it stands for a slash.
  split at same <;> split at same
  · -- Both paths are empty.
    rename_i left right
    rw [empty.mp left, empty.mp right]
  · -- One path is empty and the other is a slash, and the router drops leading slashes.
    rename_i left _
    rw [empty.mp left, slash same.symm]
    rfl
  · -- The same with the paths exchanged.
    rename_i _ right
    rw [slash same, empty.mp right]
    rfl
  · -- Neither path is empty, and the encoding tells paths apart.
    rw [uriEncode_injective same]

/-- A canonical text is read back: its method, its path, its query and its payload. -/
theorem canonicalWithSigned_inj {r r' : HttpRequest} {signed : List (List Char)}
    {payload payload' : List Char} (oneLine : '\n' ∉ r.method) (oneLine' : '\n' ∉ r'.method)
    (width : payload.length = payload'.length)
    (same : canonicalWithSigned r signed payload = canonicalWithSigned r' signed payload') :
    r.method.map Char.toUpper = r'.method.map Char.toUpper ∧
      canonicalPath r.path = canonicalPath r'.path ∧
      canonicalQuery r.query = canonicalQuery r'.query ∧ payload = payload' := by
  -- No part in front of a line end has one in itself, whatever the request holds.
  have upper {method : List Char} (free : '\n' ∉ method) : '\n' ∉ method.map Char.toUpper := by
    intro member
    obtain ⟨c, inside, is⟩ := List.mem_map.mp member
    exact free (Text.toUpper_eq_lineEnd.mp is ▸ inside)
  have path (p : List Char) : '\n' ∉ canonicalPath p := by
    unfold canonicalPath
    dsimp only
    split
    · decide
    · exact (separators_not_mem_uriEncode p false).1
  have query (q : List Char) : '\n' ∉ canonicalQuery q := by
    rw [canonicalQuery_eq]
    refine Text.not_mem_intercalate (by decide) fun piece member => ?_
    obtain ⟨p, inside, rfl⟩ := List.mem_map.mp member
    obtain ⟨parameter, _, rfl⟩ := List.mem_map.mp ((List.mergeSort_perm _ _).mem_iff.mp inside)
    have name := (separators_not_mem_uriEncode parameter.1 true).1
    have value := (separators_not_mem_uriEncode parameter.2 true).1
    simp [renderParameter, encodeParameter, name, value]
  unfold canonicalWithSigned at same
  dsimp only at same
  -- The payload is the last line, and the first three end where their line ends stand.
  have last := Text.last_line_inj width same
  simp only [List.append_assoc, List.cons_append] at same
  obtain ⟨method, same⟩ := Text.append_separator_inj (upper oneLine) (upper oneLine') same
  obtain ⟨paths, same⟩ := Text.append_separator_inj (path r.path) (path r'.path) same
  obtain ⟨queries, _⟩ := Text.append_separator_inj (query r.query) (query r'.query) same
  exact ⟨method, paths, queries, last⟩

/--
The payload of a request whose body is signed: sixty-four digits, which spell the hash of the body.
-/
theorem payloadHash_signed [Sha2] {r : HttpRequest} {payload : List Char}
    (found : payloadHash r = .ok payload) (signed : declaredPayload r ≠ some unsigned) :
    payload.length = 64 ∧ hexDecode payload = some (Sha2.sha256 r.body).bytes := by
  -- The payload is declared or spelled by the gateway, and in both cases it is the body's hash.
  unfold payloadHash at found
  split at found
  · rename_i text declared
    rw [if_neg (fun is => signed (declared.trans (congrArg some is)))] at found
    split at found
    · -- The declared digits are compared as bytes, so their case is free and is lowered afterwards.
      simp only [except_bind_eq_ok, okOr_eq_ok, ensure_eq_ok, ctEq_iff, except_pure_eq,
        Except.ok.injEq] at found
      obtain ⟨want, read, _, same, rfl⟩ := found
      subst same
      have lower : hexDecode (text.map Char.toLower) = some (Sha2.sha256 r.body).bytes :=
        (Text.parseHexBytes_toLower text).trans read
      have width := Text.length_of_parseHexBytes lower
      rw [FixedBytes.size] at width
      exact ⟨width, lower⟩
    · cases found
  · -- Without a declaration the hash of the body is spelled by the gateway itself.
    obtain rfl := Except.ok.inj found
    exact ⟨by rw [Text.toHex_length, FixedBytes.size], Text.parseHexBytes_toHex _⟩

section

variable [Sha2]

/-- The text that a request is signed by. -/
def signedText (r : HttpRequest) (parts : AuthParts) (payload date : List Char) : List Char :=
  stringToSign date (scope parts.shortDate parts.region)
    (canonicalWithSigned r parts.signed payload)

/-- What a request that is accepted was accepted with. -/
structure Verified (creds : Creds) (r : HttpRequest) (parts : AuthParts)
    (payload date : List Char) : Prop where
  authorised : ∃ auth, authorization r = some auth ∧ parseAuthorization auth = .ok parts
  key : parts.accessKey = creds.accessKeyId
  hashed : payloadHash r = .ok payload
  dated : amzDate r.headers = some date
  short : parts.shortDate.isPrefixOf date = true
  signature : hexDecode parts.signature =
    some (signingSig creds parts.shortDate parts.region (signedText r parts payload date)).bytes

/-- A request is accepted exactly when there is something it is accepted with. -/
theorem verify_eq_ok {creds : Creds} {r : HttpRequest} :
    verify creds r = .ok () ↔ ∃ parts payload date, Verified creds r parts payload date := by
  -- The tests come in turn, and each is one of the parts.
  simp only [verify, except_bind_eq_ok, okOr_eq_ok, ensure_eq_ok, ctEq_iff]
  constructor
  · intro read
    obtain ⟨auth, authorised, parts, parsed, _, key, payload, hashed, date, dated, _, short, got,
      read, rfl⟩ := read
    exact ⟨parts, payload, date, ⟨auth, authorised, parsed⟩, key, hashed, dated, short, read⟩
  · intro parts
    obtain ⟨parts, payload, date, ⟨auth, authorised, parsed⟩, key, hashed, dated, short,
      read⟩ := parts
    exact ⟨auth, authorised, parts, parsed, (), key, payload, hashed, date, dated, (), short,
      _, read, rfl⟩

/-- Neither hash brings two different inputs together where two requests are checked. -/
structure NoCollision (creds : Creds) (r r' : HttpRequest) : Prop where
  body : Sha2.sha256 r.body = Sha2.sha256 r'.body → r.body = r'.body
  canonical : ∀ parts payload date payload' date', Verified creds r parts payload date →
    Verified creds r' parts payload' date' →
    Sha2.sha256 (textBytes (canonicalWithSigned r parts.signed payload)) =
      Sha2.sha256 (textBytes (canonicalWithSigned r' parts.signed payload')) →
    textBytes (canonicalWithSigned r parts.signed payload) =
      textBytes (canonicalWithSigned r' parts.signed payload')
  signed : ∀ parts payload date payload' date', Verified creds r parts payload date →
    Verified creds r' parts payload' date' →
    Sha2.hmacSha256 (signingKey creds parts.shortDate parts.region).bytes
      (textBytes (signedText r parts payload date)) =
      Sha2.hmacSha256 (signingKey creds parts.shortDate parts.region).bytes
        (textBytes (signedText r' parts payload' date')) →
    textBytes (signedText r parts payload date) = textBytes (signedText r' parts payload' date')

/--
Two requests that one authorisation was accepted for have one canonical text, and so one
method, path, query and body.
-/
theorem bound_of_verified {creds : Creds} {r r' : HttpRequest} (oneLine : r.OnOneLine)
    (oneLine' : r'.OnOneLine) (accepted : verify creds r = .ok ())
    (accepted' : verify creds r' = .ok ()) (same : authorization r' = authorization r)
    (declared : declaredPayload r ≠ some unsigned) (declared' : declaredPayload r' ≠ some unsigned)
    (apart : NoCollision creds r r') :
    r.method.map Char.toUpper = r'.method.map Char.toUpper ∧
      canonicalPath r.path = canonicalPath r'.path ∧
      canonicalQuery r.query = canonicalQuery r'.query ∧ r.body = r'.body := by
  -- Both requests were verified with the parts of one header.
  obtain ⟨parts, payload, date, v⟩ := verify_eq_ok.mp accepted
  obtain ⟨parts', payload', date', v'⟩ := verify_eq_ok.mp accepted'
  obtain ⟨auth, authorised, parsed⟩ := v.authorised
  obtain ⟨auth', authorised', parsed'⟩ := v'.authorised
  -- One header is parsed into one set of parts, so both keys and both scopes are the same.
  obtain rfl : auth = auth' := Option.some.inj (authorised.symm.trans (same.symm.trans authorised'))
  obtain rfl : parts = parts' := Except.ok.inj (parsed.symm.trans parsed')
  obtain ⟨width, spelled⟩ := payloadHash_signed v.hashed declared
  obtain ⟨width', spelled'⟩ := payloadHash_signed v'.hashed declared'
  -- One signature is of one text, that ends with one hash, and the hash is of one canonical text.
  have signatures := FixedBytes.ext (Option.some.inj (v.signature.symm.trans v'.signature))
  have texts := textBytes_injective (apart.signed _ _ _ _ _ v v' signatures)
  -- The texts end with 64 digits each, and digits are read back as the hash they spell.
  have digests : Sha2.sha256 (textBytes (canonicalWithSigned r parts.signed payload)) =
      Sha2.sha256 (textBytes (canonicalWithSigned r' parts.signed payload')) := by
    have hex := Text.last_line_inj (by simp [FixedBytes.size]) texts
    have both := congrArg Text.parseHexBytes hex
    rw [Text.parseHexBytes_toHex, Text.parseHexBytes_toHex] at both
    exact FixedBytes.ext (Option.some.inj both)
  have canonical := textBytes_injective (apart.canonical _ _ _ _ _ v v' digests)
  obtain ⟨method, path, query, rfl⟩ :=
    canonicalWithSigned_inj oneLine.method.2 oneLine'.method.2 (width.trans width'.symm)
    canonical
  -- Both payloads are the same digits, and each spells the hash of its own body.
  have bodies := FixedBytes.ext (Option.some.inj (spelled.symm.trans spelled'))
  exact ⟨method, path, query, apart.body bodies⟩

end

end SigV4

namespace S3

/-- A route with the prefix that a query asks for. -/
def withPref (pref : List Char) : Route → Route
  | .listObjects bucket _ => .listObjects bucket pref
  | other => other

/-- The query decides the prefix of a listing, and the path all else. -/
theorem route_eq (path query : List Char) :
    route path query = withPref (routedPrefix query) (route path []) := by
  -- Only a listing looks at the query.
  unfold route
  dsimp only
  split
  · rfl
  · split <;> rfl

/-- A path that names a bucket, and no key in it. -/
def NamesBucket (path : List Char) : Prop := ∃ bucket, route path [] = .listObjects bucket []

/-- Without a query no prefix is asked for. -/
theorem pref_of_route {path bucket pref : List Char}
    (is : route path [] = .listObjects bucket pref) : pref = [] := by
  -- The empty query has no prefix.
  have none_ : routedPrefix [] = [] := by decide
  rw [route_eq, none_] at is
  cases named : route path [] with
  | listObjects bucket' pref' =>
    rw [named] at is
    exact (Route.listObjects.inj is).2.symm
  | listBuckets =>
    rw [named] at is
    cases is
  | object bucket' key =>
    rw [named] at is
    cases is

/-- Two requests do the same, unless both list a bucket and their prefixes differ. -/
theorem operation_congr {r r' : HttpRequest}
    (method : r.method.map Char.toUpper = r'.method.map Char.toUpper)
    (path : route r.path [] = route r'.path []) (body : r.body = r'.body)
    (prefs : r.method.map Char.toUpper = "GET".toList → NamesBucket r.path →
      routedPrefix r.query = routedPrefix r'.query) :
    operation r = operation r' := by
  -- Method, path and body are the same, so only the query is left.
  unfold operation
  rw [route_eq r.path, route_eq r'.path, ← path, ← method, ← body]
  cases named : route r.path [] with
  | listBuckets => rfl
  | object bucket key => rfl
  -- Only a listing reads the query at all, and only under GET does it read the prefix.
  | listObjects bucket pref =>
    obtain rfl := pref_of_route named
    dsimp only [withPref]
    split
    · rfl
    · split
      · rename_i _ get
        rw [prefs get ⟨bucket, named⟩]
      · rfl

end S3

namespace SigV4

/-- A request that lists a bucket by a prefix, as the verifier reads its query. -/
structure ListsByPrefix (r : HttpRequest) : Prop where
  get : r.method.map Char.toUpper = "GET".toList
  bucket : S3.NamesBucket r.path
  named : NamesPrefix r.query

/--
A query that names a prefix is spelled in another way as well, that the router reads differently.
-/
theorem exists_respelled {q : List Char} (named : NamesPrefix q) :
    ∃ q', canonicalQuery q' = canonicalQuery q ∧ S3.routedPrefix q' ≠ S3.routedPrefix q ∧ ' ' ∉ q' ∧
      '\n' ∉ q' := by
  -- The prefix has a first character, or it is empty.
  obtain ⟨v, member, some_⟩ := named
  -- A character that no escape has comes into a respelled query with its front alone.
  have clean {c : Char} (front : List (List Char × List Char)) (rest : List (List Char × List Char))
      (free : ∀ p ∈ front, c ∉ renderParameter p) (amp : c ≠ '&') (eq : c ≠ '=')
        (other : c ∉ Percent.escapeAlphabet) :
      c ∉ respell front rest := by
    refine Text.not_mem_intercalate amp fun piece inside => ?_
    obtain ⟨p, here, rfl⟩ := List.mem_map.mp inside
    rcases List.mem_append.mp here with first | later
    · exact free p first
    · obtain ⟨p', _, rfl⟩ := List.mem_map.mp later
      simp [renderParameter, not_mem_escapeAll other, eq]
  by_cases routed : S3.routedPrefix q = []
  · -- The router finds no prefix, so one is put first, in plain letters.
    obtain ⟨left, right, parts⟩ := List.append_of_mem member
    refine ⟨respell [("prefix".toList, escapeAll v)] (left ++ right), ?_, ?_, ?_, ?_⟩
    · rw [canonicalQuery_eq_iff, (respell_decoded v _).2, parts]
      exact List.perm_middle.symm
    · rw [(routedPrefix_respell v _).2, routed]
      exact some_
    · refine clean _ _ ?_ (by decide) (by decide) (by decide)
      simp [renderParameter, not_mem_escapeAll (show ' ' ∉ Percent.escapeAlphabet by decide)]
    · refine clean _ _ ?_ (by decide) (by decide) (by decide)
      simp [renderParameter, not_mem_escapeAll (show '\n' ∉ Percent.escapeAlphabet by decide)]
  · -- The router finds a prefix, so its name is escaped, and the router no longer does.
    refine ⟨respell [] (decodedParameters q), ?_, ?_, ?_, ?_⟩
    · rw [canonicalQuery_eq_iff, (respell_decoded v _).1]
    · rw [(routedPrefix_respell v _).1]
      exact Ne.symm routed
    · exact clean _ _ (by simp) (by decide) (by decide) (by decide)
    · exact clean _ _ (by simp) (by decide) (by decide) (by decide)

/-- A request on one line stays one with another query that has no space and no line end in it. -/
theorem onOneLine_respelled {r : HttpRequest} (oneLine : r.OnOneLine) {q : List Char}
    (space : ' ' ∉ q) (whole : '\n' ∉ q) :
    HttpRequest.OnOneLine { r with query := q } := by
  -- The line is a method, a target and a version.
  obtain ⟨method, target, noSpace, noEnd, split⟩ := oneLine
  -- The target keeps what stands in front of its question mark.
  obtain ⟨front, free, decoded, sub⟩ : ∃ front, '?' ∉ front ∧ Percent.decode front = r.path ∧
    ∀ c ∈ front, c ∈ target := by
    unfold splitTarget at split
    -- Without a question mark the whole target is the path.
    cases parted : Text.splitOnce '?' target with
    | none =>
      rw [parted] at split
      exact ⟨target, Text.splitOnce_eq_none.mp parted, congrArg Prod.fst split,
        fun _ member => member⟩
    | some parts =>
      obtain ⟨front, rest⟩ := parts
      rw [parted] at split
      obtain ⟨rfl, free⟩ := Text.splitOnce_eq_some.mp parted
      exact ⟨front, free, congrArg Prod.fst split, fun _ member => List.mem_append_left _ member⟩
  refine ⟨method, front ++ '?' :: q, ?_, ?_, ?_⟩
  · have kept : ' ' ∉ front := fun member => noSpace (sub _ member)
    simp [kept, space]
  · have kept : '\n' ∉ front := fun member => noEnd (sub _ member)
    simp [kept, whole]
  · rw [splitTarget, Text.splitOnce_append free]
    exact Prod.ext decoded rfl

section

variable [Sha2]

/-- Another spelling of the query is accepted with the same authorisation. -/
theorem verify_respelled (creds : Creds) (r : HttpRequest) {q : List Char}
    (same : canonicalQuery q = canonicalQuery r.query) :
    verify creds { r with query := q } = verify creds r ∧
      NoCollision creds r { r with query := q } := by
  -- The query enters the check through its canonical form alone.
  have text (signed : List (List Char)) (payload : List Char) :
      canonicalWithSigned { r with query := q } signed payload =
        canonicalWithSigned r signed payload := by
    unfold canonicalWithSigned
    rw [same]
  refine ⟨?_, ?_⟩
  · unfold verify
    simp only [text]
    rfl
  · -- Both requests have the same headers and body, so each text is hashed once.
    have alike {parts : AuthParts} {payload date payload' date' : List Char}
      (v : Verified creds r parts payload date)
        (v' : Verified creds { r with query := q } parts payload' date') : payload = payload' ∧
          date = date' :=
      ⟨Except.ok.inj (v.hashed.symm.trans v'.hashed), Option.some.inj (v.dated.symm.trans v'.dated)⟩
    refine ⟨fun _ => rfl, ?_, ?_⟩
    · intro parts payload date payload' date' v v' _
      obtain ⟨rfl, rfl⟩ := alike v v'
      rw [text]
    · intro parts payload date payload' date' v v' _
      obtain ⟨rfl, rfl⟩ := alike v v'
      rw [signedText, signedText, text]

/--
A signature binds what is served exactly where the request does not list a bucket by a prefix.
-/
theorem signature_binds_iff {creds : Creds} {r : HttpRequest} (oneLine : r.OnOneLine)
    (accepted : verify creds r = .ok ()) (declared : declaredPayload r ≠ some unsigned) :
    (∀ r' : HttpRequest, r'.OnOneLine → verify creds r' = .ok () →
      declaredPayload r' ≠ some unsigned →
      authorization r' = authorization r → NoCollision creds r r' →
        S3.operation r' = S3.operation r ∧ r'.body = r.body) ↔ ¬ListsByPrefix r := by
  -- Either there is a prefix to respell, or nothing is read of the query.
  constructor
  · -- A listing by a prefix is refuted by its own respelling.
    intro binds lists
    obtain ⟨q, same, differs, space, whole⟩ := exists_respelled lists.named
    obtain ⟨verified, apart⟩ := verify_respelled creds r same
    obtain ⟨does, _⟩ := binds { r with query := q } (onOneLine_respelled oneLine space whole)
      (verified.trans accepted) declared rfl apart
    -- Both list the same bucket, and each by its own prefix.
    obtain ⟨bucket, named⟩ := lists.bucket
    have listing (query : List Char) :
        S3.operation { r with query } = .listObjects bucket (S3.routedPrefix query) := by
      have notHead : "GET".toList ≠ "HEAD".toList := by decide
      unfold S3.operation
      rw [S3.route_eq, named, lists.get]
      simp only [S3.withPref, if_neg notHead, if_true]
    have both := (listing q).symm.trans (does.trans (listing r.query))
    exact differs (S3.Operation.listObjects.inj both).2
  · intro bound r' oneLine' accepted' declared' same apart
    obtain ⟨method, path, query, body⟩ :=
      bound_of_verified oneLine oneLine' accepted accepted' same declared declared' apart
    have routes : S3.route r.path [] = S3.route r'.path [] := by
      unfold S3.route
      rw [route_of_canonicalPath path]
    refine ⟨(S3.operation_congr method routes body ?_).symm, body.symm⟩
    intro get bucket
    -- Neither query names a prefix, so the router finds none in either.
    have none_ : ¬NamesPrefix r.query := fun named => bound ⟨get, bucket, named⟩
    have perm := canonicalQuery_eq_iff.mp query
    have none' : ¬NamesPrefix r'.query := fun named => none_ (named.perm perm.symm)
    rw [routedPrefix_of_not_namesPrefix none_, routedPrefix_of_not_namesPrefix none']

end

section

open Concrete

/-- A stand-in for SHA-256 and its keyed form. -/
local instance sha2ByDigest : Sha2 where
  sha256 := digest
  hmacSha256 key data := digest (key ++ data)

/-- The key pair of a gateway. -/
def gatewayCreds : Creds := ⟨"AKID".toList, "key".toList⟩

/-- The headers of a listing, but for its authorisation. -/
def listingHeaders : Headers :=
  (((∅ : Headers).insert "host".toList "localhost".toList).insert "x-amz-date".toList
    "20130524T000000Z".toList).insert
    "x-amz-content-sha256".toList (toHex (digest []).bytes)

/-- A request for a listing of one bucket. -/
def listing (query : List Char) (headers : Headers) : HttpRequest :=
  ⟨"GET".toList, "/photos".toList, query, headers, []⟩

/-- The signature of a listing. -/
def listingSignature (query : List Char) : Digest :=
  let canon :=
    canonicalWithSigned (listing query listingHeaders) ["host".toList, "x-amz-date".toList]
    (toHex (digest []).bytes)
  signingSig gatewayCreds "20130524".toList "us-east-1".toList
    (stringToSign "20130524T000000Z".toList (scope "20130524".toList "us-east-1".toList) canon)

/-- A listing with the signature of another one, that may have another query. -/
def signedListing (signed query : List Char) : HttpRequest :=
  listing query (listingHeaders.insert "authorization".toList
    ("AWS4-HMAC-SHA256 Credential=AKID/20130524/us-east-1/s3/aws4_request, ".toList ++
      "SignedHeaders=host;x-amz-date, Signature=".toList ++
      toHex (listingSignature signed).bytes))

/-- A listing of one bucket comes on one line. -/
theorem signedListing_onOneLine (signed : List Char) {query : List Char} (space : ' ' ∉ query)
    (whole : '\n' ∉ query) :
    (signedListing signed query).OnOneLine := by
  -- The target has neither a blank nor a line end, and its path is read as it stands.
  have get : ' ' ∉ "GET".toList ∧ '\n' ∉ "GET".toList := by decide
  have mark : '?' ∉ "/photos".toList := by decide
  have read : Percent.decode "/photos".toList = "/photos".toList := by decide +kernel
  refine ⟨get, "/photos".toList ++ '?' :: query, ?_, ?_, ?_⟩
  · simp [space]
  · simp [whole]
  · rw [splitTarget, Text.splitOnce_append mark]
    dsimp only
    rw [read]
    rfl

/-- The listing of a whole bucket is bound by its signature. -/
theorem signature_binds_whole_listing : ∃ r :
    HttpRequest, r.OnOneLine ∧ verify gatewayCreds r = .ok () ∧
    declaredPayload r ≠ some unsigned ∧ S3.operation r = .listObjects "photos".toList [] ∧
    ∀ r' : HttpRequest, r'.OnOneLine → verify gatewayCreds r' = .ok () →
      declaredPayload r' ≠ some unsigned →
      authorization r' = authorization r → NoCollision gatewayCreds r r' →
        S3.operation r' = S3.operation r ∧ r'.body = r.body := by
  -- The condition is read off the query.
  have line : (signedListing "list-type=2".toList "list-type=2".toList).OnOneLine :=
    signedListing_onOneLine _ (by decide) (by decide)
  have accepted :
      verify gatewayCreds (signedListing "list-type=2".toList "list-type=2".toList) = .ok () := by
    decide +kernel
  have declared : declaredPayload (signedListing "list-type=2".toList "list-type=2".toList) ≠
      some unsigned := by
    decide +kernel
  refine ⟨signedListing "list-type=2".toList "list-type=2".toList, line, accepted,
    declared, by decide +kernel, ?_⟩
  refine (signature_binds_iff line accepted declared).mpr ?_
  -- The one parameter of this query has another name.
  intro lists
  obtain ⟨v, member, _⟩ := lists.named
  have read : decodedParameters "list-type=2".toList = [("list-type".toList, "2".toList)] := by
    decide +kernel
  rw [show (signedListing "list-type=2".toList "list-type=2".toList).query =
    "list-type=2".toList from rfl, read, List.mem_singleton, Prod.mk.injEq] at member
  exact absurd member.1 (by decide)

/--
One authorisation lists two prefixes: the one that was signed, and another, where a plus
sign stands for a space.
-/
theorem signature_does_not_bind_the_prefix : ∃ r r' : HttpRequest, r.OnOneLine ∧ r'.OnOneLine ∧
    verify gatewayCreds r = .ok () ∧ verify gatewayCreds r' = .ok () ∧
      declaredPayload r ≠ some unsigned ∧
    declaredPayload r' ≠ some unsigned ∧ authorization r' = authorization r ∧
      NoCollision gatewayCreds r r' ∧
    S3.operation r = .listObjects "photos".toList "a b".toList ∧
    S3.operation r' = .listObjects "photos".toList "a+b".toList := by
  -- Both queries have one canonical form, and the router reads them apart.
  have accepted :
      verify gatewayCreds (signedListing "prefix=a%20b".toList "prefix=a%20b".toList) = .ok () := by
    decide +kernel
  have declared : declaredPayload (signedListing "prefix=a%20b".toList "prefix=a%20b".toList) ≠
      some unsigned := by
    decide +kernel
  have same : canonicalQuery "prefix=a+b".toList = canonicalQuery "prefix=a%20b".toList := by
    decide +kernel
  obtain ⟨verified, apart⟩ :=
    verify_respelled gatewayCreds (signedListing "prefix=a%20b".toList "prefix=a%20b".toList) same
  refine ⟨signedListing "prefix=a%20b".toList "prefix=a%20b".toList,
    signedListing "prefix=a%20b".toList "prefix=a+b".toList,
    signedListing_onOneLine _ (by decide) (by decide),
    signedListing_onOneLine _ (by decide) (by decide), accepted,
    verified.trans accepted, declared, declared, rfl, apart, ?_, ?_⟩
  · decide +kernel
  · decide +kernel

end

end SigV4

end NasTools
