import NasTools.Model.Gateway.Dav
import NasTools.Proofs.Signatures

/-! Hrefs of the WebDAV face, as the requests that follow them are read. -/

namespace NasTools.Dav

/--
A request as it is read from one line with a method and a target; a line end in a
target ends the line.
-/
def asked (method target : List Char) (headers : Headers) : Option HttpRequest :=
  if '\n' ∈ target then none
  else
    match parseRequestLine (utf8 (String.ofList (method ++ ' ' :: target ++ " HTTP/1.1".toList)))
      with
    | .ok (method, target) => some ⟨method, (splitTarget target).1, (splitTarget target).2,
      headers, []⟩
    | .error _ => none

/-- A name that stands for itself in a target. -/
def Stands (bucket : List Char) : Prop :=
  ' ' ∉ bucket ∧ '\n' ∉ bucket ∧ '?' ∉ bucket ∧ Percent.decode bucket = bucket

/-- Where a text of a bucket is told to be. -/
def hrefOf (bucket key : List Char) : List Char := '/' :: bucket ++ '/' :: hrefEncode key

section

variable {bucket key href method : List Char} {headers : Headers} {r : HttpRequest}

/-- What is kept in an href ends neither a target nor its line, and starts no query. -/
theorem marks_not_mem_hrefEncode (text : List Char) :
    ' ' ∉ hrefEncode text ∧ '\n' ∉ hrefEncode text ∧ '?' ∉ hrefEncode text := by
  -- No byte that is kept is one of the three, and an escape has none of them either.
  have kept : ∀ b : UInt8, SigV4.keptInUri false b = true →
      Char.ofNat b.toNat ≠ ' ' ∧ Char.ofNat b.toNat ≠ '\n' ∧ Char.ofNat b.toNat ≠ '?' := by
    apply Quoting.forall_byte
    decide +kernel
  refine ⟨?_, ?_, ?_⟩
  · exact Percent.not_mem_spell (fun b is => (kept b is).1) (by decide) text
  · exact Percent.not_mem_spell (fun b is => (kept b is).2.1) (by decide) text
  · exact Percent.not_mem_spell (fun b is => (kept b is).2.2) (by decide) text

/-- A slash is not escaped. -/
@[simp] theorem hrefEncode_slash : hrefEncode ['/'] = ['/'] := by decide

/-- Texts are encoded one by one. -/
theorem hrefEncode_append (a b : List Char) : hrefEncode (a ++ b) = hrefEncode a ++ hrefEncode b :=
  Percent.spell_append _ a b

/-- What comes behind the key is encoded behind its link. -/
theorem hrefOf_append (a b : List Char) :
    hrefOf bucket (a ++ b) = hrefOf bucket a ++ hrefEncode b := by
  simp only [hrefOf, hrefEncode_append, List.cons_append, List.append_assoc]

/-- A line that ends as the first line of a request does is the text it was made of. -/
theorem lineText_request (front : List Char) :
    lineText (utf8 (String.ofList (front ++ " HTTP/1.1".toList))) =
      .ok (front ++ " HTTP/1.1".toList) := by
  -- The line ends with the version of the protocol.
  have bytes : utf8 (String.ofList (front ++ " HTTP/1.1".toList)) =
      textBytes front ++ (textBytes " HTTP/1.".toList ++ [0x31]) := by
    rw [utf8_eq_textBytes, String.toList_ofList, textBytes_append]
    congr 1
  have uncut : trimCr (utf8 (String.ofList (front ++ " HTTP/1.1".toList))) =
      utf8 (String.ofList (front ++ " HTTP/1.1".toList)) := by
    -- The last byte is a digit.
    rw [trimCr, bytes, ← List.append_assoc, List.getLast?_concat, if_neg (by decide)]
  rw [lineText, uncut, ofUtf8?_eq_some.mpr rfl, Option.map_some, okOr_some, String.toList_ofList]

/-- A request is read from what stands in front of the first space behind its method. -/
theorem asked_eq_some (plain : ' ' ∉ method) (some_ : method ≠ []) {target rest : List Char}
    (parts : href ++ " HTTP/1.1".toList = target ++ ' ' :: rest) (first : ' ' ∉ target) :
    asked method href headers = some r ↔ '\n' ∉ href ∧ target ≠ [] ∧
      r = ⟨method, (splitTarget target).1, (splitTarget target).2, headers, []⟩ := by
  -- The request line is cut at its first two spaces, so only the target can be missing.
  have words : (method ++ ' ' :: href ++ " HTTP/1.1".toList).splitOn ' ' = method :: target ::
      rest.splitOn ' ' := by
    rw [List.append_assoc, List.cons_append, List.splitOn_append_cons_self_of_not_mem plain, parts,
      List.splitOn_append_cons_self_of_not_mem first]
  -- The line is read if it has a target.
  have line :
    parseRequestLine (utf8 (String.ofList (method ++ ' ' :: href ++ " HTTP/1.1".toList))) =
      if target ≠ [] then .ok (method, target) else .error .badLine := by
    rw [parseRequestLine, lineText_request, except_ok_bind, words]
    by_cases filled : target = []
    · simp [filled]
    · simp [filled, some_]
  unfold asked
  rw [line]
  by_cases broken : '\n' ∈ href
  · simp [broken]
  · by_cases filled : target = []
    · simp [filled]
    · simp [broken, filled, eq_comm]

/-- The target of an href is the whole of it where the name of its bucket has no space. -/
theorem hrefOf_parts (free : ' ' ∉ bucket) (key : List Char) : ' ' ∉ hrefOf bucket key := by
  simp [hrefOf, free, (marks_not_mem_hrefEncode key).1]

/-- A slash has one byte. -/
theorem textBytes_slash (text : List Char) : textBytes ('/' :: text) = 0x2f :: textBytes text := by
  have one : String.utf8EncodeChar '/' = [0x2f] := by decide
  rw [textBytes, List.flatMap_cons, one, ← textBytes, List.singleton_append]

/-- The name of the bucket is read on its own, and the key behind it as it was. -/
theorem decodeBytes_hrefOf (bucket key : List Char) :
    Percent.decodeBytes (textBytes (hrefOf bucket key)) =
    0x2f :: (Percent.decodeBytes (textBytes bucket) ++ 0x2f :: textBytes key) := by
  have spelled : Percent.decodeBytes (textBytes (hrefEncode key)) = textBytes key :=
    Percent.decodeBytes_spellBytes (SigV4.keptInUri_plain false) _
  rw [hrefOf, List.cons_append, textBytes_slash, Percent.decodeBytes_cons (by decide),
    textBytes_append, textBytes_slash, Percent.decodeBytes_append_slash, spelled]

/-- A name that stands for itself is read as it is, with the key behind it. -/
theorem asked_hrefOf (stands : Stands bucket) (plain : ' ' ∉ method) (some_ : method ≠ [])
    (key : List Char) :
    asked method (hrefOf bucket key) headers = some ⟨method, '/' :: bucket ++ '/' :: key, [],
      headers, []⟩ := by
  -- The link has none of the three marks, and decoding it gives the path.
  obtain ⟨noSpace, noEnd, noQuery, same⟩ := stands
  obtain ⟨keySpace, keyEnd, keyQuery⟩ := marks_not_mem_hrefEncode key
  have query : '?' ∉ hrefOf bucket key := by simp [hrefOf, noQuery, keyQuery]
  have decoded : Percent.decode (hrefOf bucket key) = '/' :: bucket ++ '/' :: key := by
    have bytes : textBytes ('/' :: bucket ++ '/' :: key) =
        0x2f :: (textBytes bucket ++ 0x2f :: textBytes key) := by
      rw [List.cons_append, textBytes_slash, textBytes_append, textBytes_slash]
    rw [Percent.decode, decodeBytes_hrefOf, Percent.decode_eq_self.mp same, ← bytes,
      fromUtf8Lossy_textBytes]
  rw [asked_eq_some plain some_ rfl (hrefOf_parts noSpace key)]
  refine ⟨by simp [hrefOf, noEnd, keyEnd], List.cons_ne_nil _ _, ?_⟩
  rw [splitTarget, Text.splitOnce_eq_none.mpr query, decoded]

/-- A path with a bucket in it names the root of the bucket, or the key behind it. -/
theorem route_path (named : bucket ≠ [] ∧ '/' ∉ bucket) (key : List Char) :
    S3.route ('/' :: bucket ++ '/' :: key) [] =
    if key = [] then .listObjects bucket [] else .object bucket key := by
  -- The path is cut at the first slash behind the bucket.
  obtain ⟨c, more, rfl⟩ := List.exists_cons_of_ne_nil named.1
  have other : (c == '/') = false := by
    rw [beq_eq_false_iff_ne]
    rintro rfl
    exact named.2 List.mem_cons_self
  have trimmed :
      ('/' :: (c :: more) ++ '/' :: key).dropWhile (· == '/') = (c :: more) ++ '/' :: key := by
    simp [other]
  have noPrefix : S3.routedPrefix [] = [] := by decide
  unfold S3.route
  rw [trimmed]
  dsimp only
  rw [List.cons_append, if_neg (List.cons_ne_nil _ _), ← List.cons_append,
    Text.splitOnce_append named.2, noPrefix]
  cases key with
  | nil => rfl
  | cons k rest => rfl

end

/-- How many characters of a text take one byte. -/
def narrow (text : List Char) : Nat := Percent.smallBytes (textBytes text)

/-- Small bytes are counted one by one. -/
theorem narrow_append (x y : List Char) : narrow (x ++ y) = narrow x + narrow y := by
  rw [narrow, textBytes_append, Percent.smallBytes_append, ← narrow, ← narrow]

/-- A character of one small byte counts for one. -/
theorem narrow_cons {c : Char} (one : narrow [c] = 1) (x : List Char) :
    narrow (c :: x) = narrow x + 1 := by
  rw [← List.singleton_append, narrow_append, one, Nat.add_comm]

/-- Reading escapes makes no character of one byte. -/
theorem narrow_decode_le (text : List Char) :
    narrow (Percent.decode text) ≤ Percent.smallBytes (Percent.decodeBytes (textBytes text)) :=
  Percent.smallBytes_lossy 0 _

/-- Decoding does not add small bytes. -/
theorem narrow_decode_le_self (text : List Char) : narrow (Percent.decode text) ≤ narrow text := by
  -- Either nothing is decoded, or every escape gives one byte for three.
  have read := narrow_decode_le text
  rcases Percent.decodeBytes_eq_or_lt (textBytes text) with same | less
  · rwa [same] at read
  · exact read.trans less.le

/-- A slash at the front is read as itself. -/
theorem decode_slash (text : List Char) :
    Percent.decode ('/' :: text) = '/' :: Percent.decode text := by
  have one : String.utf8EncodeChar '/' = [0x2f] := by decide
  rw [Percent.decode, textBytes_slash,
    Percent.decodeBytes_cons (by decide), ← List.singleton_append, ← one, fromUtf8Lossy_char,
    Percent.decode]

/-- A path that names a key has the bucket and the key behind the slashes at its front. -/
theorem trimmed_of_route {path query bucket key : List Char}
    (routed : S3.route path query = .object bucket key) :
    path.dropWhile (· == '/') = bucket ++ '/' :: key := by
  -- An object is routed only past the slash behind its bucket.
  unfold S3.route at routed
  dsimp only at routed
  split at routed
  · cases routed
  · split at routed
    · cases routed
    · cases routed
    · rename_i parts
      rw [Route.object.injEq] at routed
      obtain ⟨rfl, rfl⟩ := routed
      exact (Text.splitOnce_eq_some.mp parts).1

section

variable {bucket key other : List Char}

/-- A bucket and a key are no longer than the path they are read from, without its first slash. -/
theorem narrow_route {text query : List Char}
    (routed : S3.route (Percent.decode ('/' :: text)) query = .object bucket key) :
    narrow bucket + 1 + narrow key ≤ narrow (Percent.decode text) := by
  -- The bucket, the slash and the key are what is left of the path, so they have no more bytes.
  have trimmed := trimmed_of_route routed
  rw [decode_slash, List.dropWhile_cons_of_pos (by decide)] at trimmed
  obtain ⟨slashes, is⟩ := List.dropWhile_suffix (· == '/') (l := Percent.decode text)
  have whole := congrArg narrow is
  rw [trimmed, narrow_append, narrow_append, narrow_cons (by decide)] at whole
  omega

/-- A target that ends inside the name of the bucket is too short to name a key of it. -/
theorem not_route_of_cut {x y front query : List Char} {c : Char} (is : bucket = x ++ c :: y)
    (one : narrow [c] = 1) (before : front <+: x) :
    S3.route (Percent.decode ('/' :: front)) query ≠ .object bucket key := by
  -- What stands before the cut is shorter than the bucket, and decoding does not lengthen it.
  intro routed
  have long := narrow_route routed
  have read := narrow_decode_le_self front
  obtain ⟨more, rfl⟩ := before
  rw [is, narrow_append, narrow_append, narrow_cons one] at long
  omega

/--
A name that does not stand for itself is read with a shorter key behind it than was
written there, if at all.
-/
theorem narrow_lt_of_not_stands (fails : ¬Stands bucket) {r : HttpRequest}
    (request : asked "GET".toList (hrefOf bucket other) ∅ = some r)
    (routed : S3.route r.path r.query = .object bucket key) : narrow key < narrow other := by
  -- A name that does not stand has a space, a question mark or an escape.
  have plain : ' ' ∉ "GET".toList := by decide
  have some_ : "GET".toList ≠ [] := by decide
  by_cases space : ' ' ∈ bucket
  · -- The target ends at the first space, and its path there or at a question mark before it.
    exfalso
    obtain ⟨x, y, rfl, first⟩ := List.eq_append_cons_of_mem space
    have parts : hrefOf (x ++ ' ' :: y) other ++ " HTTP/1.1".toList =
        ('/' :: x) ++ ' ' :: (y ++ '/' :: hrefEncode other ++ " HTTP/1.1".toList) := by
      simp [hrefOf]
    obtain ⟨_, _, rfl⟩ := (asked_eq_some plain some_ parts (by simp [first])).mp request
    unfold splitTarget at routed
    split at routed
    · rename_i path query split
      obtain ⟨is, _⟩ := Text.splitOnce_eq_some.mp split
      cases path with
      | nil => cases is
      | cons c front =>
        obtain ⟨rfl, later⟩ := List.cons.inj is
        have before : front <+: x := ⟨'?' :: query, later.symm⟩
        exact not_route_of_cut rfl (by decide) before routed
    · exact not_route_of_cut rfl (by decide) List.prefix_rfl routed
  · obtain ⟨noEnd, _, rfl⟩ := (asked_eq_some plain some_ rfl (hrefOf_parts space other)).mp request
    by_cases query : '?' ∈ bucket
    · -- The path ends at the first question mark.
      exfalso
      obtain ⟨x, y, rfl, first⟩ := List.eq_append_cons_of_mem query
      have parts : hrefOf (x ++ '?' :: y) other = ('/' :: x) ++ '?' ::
          (y ++ '/' :: hrefEncode other) := by
        simp [hrefOf]
      rw [splitTarget, parts, Text.splitOnce_append (by simp [first])] at routed
      exact not_route_of_cut rfl (by decide) List.prefix_rfl routed
    · -- The whole of the target is the path, and an escape in the name makes it shorter.
      have whole : '?' ∉ hrefOf bucket other := by
        simp [hrefOf, query, (marks_not_mem_hrefEncode other).2.2]
      rw [splitTarget, Text.splitOnce_eq_none.mpr whole] at routed
      have long : narrow bucket + 1 + narrow key ≤
          narrow (Percent.decode (bucket ++ '/' :: hrefEncode other)) :=
        narrow_route routed
      have escaped : Percent.decodeBytes (textBytes bucket) ≠ textBytes bucket := by
        intro same
        apply fails
        exact ⟨space, fun inside => noEnd (by simp [hrefOf, inside]), query,
          Percent.decode_eq_self.mpr same⟩
      have shorter := (Percent.decodeBytes_eq_or_lt _).resolve_left escaped
      have read := narrow_decode_le (bucket ++ '/' :: hrefEncode other)
      have spelled : Percent.decodeBytes (textBytes (hrefEncode other)) = textBytes other :=
        Percent.decodeBytes_spellBytes (SigV4.keptInUri_plain false) _
      rw [textBytes_append, textBytes_slash, Percent.decodeBytes_append_slash, spelled,
        Percent.smallBytes_append, Percent.smallBytes_cons, if_pos (by decide), ← narrow] at read
      rw [← narrow] at shorter
      omega

end

end NasTools.Dav
