import NasTools.Proofs.Signatures

/-!
What the signer writes is what the verifier reads: a request is accepted with its own authorisation.
-/

namespace NasTools

namespace SigV4

/-- What is cut off a text of one-byte characters is counted in characters. -/
theorem takeBytes_ascii {text : List Char} (plain : ∀ c ∈ text, c.toNat < 0x80) (n : Nat) :
    takeBytes n text = some (text.take n) := by
  -- The induction is on the text, since each character takes its own bytes off the count.
  induction text generalizing n with
  | nil => simp [takeBytes]
  | cons c rest ih =>
    have one : c.utf8Size = 1 := by
      rw [Char.utf8Size_eq_one_iff, UInt32.le_iff_toNat_le]
      exact Nat.le_of_lt_succ (plain c (by simp))
    rw [takeBytes, one]
    cases n with
    | zero => rfl
    | succ n =>
      rw [if_neg (by omega), if_pos (by omega), Nat.add_sub_cancel,
        ih (fun d member => plain d (by simp [member]))]
      rfl

/-- A canonical component is read back. -/
theorem decodeComponent_uriEncode (text : List Char) :
    decodeComponent (uriEncode text true) = text := by
  -- No byte is kept as a plus sign, so decoding the parameter is decoding the text.
  have kept : ∀ b : UInt8, keptInUri true b = true → Char.ofNat b.toNat ≠ '+' := by
    apply Quoting.forall_byte
    decide +kernel
  have noPlus : '+' ∉ uriEncode text true := Percent.not_mem_spell kept (by decide) text
  rw [decodeComponent_of_not_mem noPlus]
  exact Percent.decode_spell (keptInUri_plain true) text

example : uriEncode "a b/c".toList true = "a%20b%2Fc".toList := by decide +kernel

/-- The verifier reads the same parameters in a canonical query as in the query it was made of. -/
theorem decodedParameters_canonicalQuery (query : List Char) :
    (decodedParameters (canonicalQuery query)).Perm (decodedParameters query) := by
  -- The canonical query is the sorted parameters, rendered.
  have sorted := List.mergeSort_perm ((decodedParameters query).map encodeParameter) fun a b =>
    (compare a b).isLE
  have separable : ∀ p ∈ sortParameters ((decodedParameters query).map encodeParameter),
      Separable p := by
    intro p member
    obtain ⟨parameter, _, rfl⟩ := List.mem_map.mp (sorted.mem_iff.mp member)
    exact separable_encodeParameter parameter
  -- Reading undoes the encoding of each parameter, and what is left of the rest is the sorting.
  have back : ((decodedParameters query).map encodeParameter).map
      (fun p => (decodeComponent p.1, decodeComponent p.2)) = decodedParameters query := by
    rw [List.map_map]
    conv_rhs => rw [← List.map_id (decodedParameters query)]
    refine List.map_congr_left fun p _ => ?_
    simp only [Function.comp_apply, encodeParameter, decodeComponent_uriEncode, id]
  rw [canonicalQuery_eq, decodedParameters_renderParameters separable]
  exact (sorted.map _).trans (List.Perm.of_eq back)

/-- Queries of the same pieces have one canonical form. -/
theorem canonicalQuery_of_perm {q q' : List Char} (perm : (q.splitOn '&').Perm (q'.splitOn '&')) :
    canonicalQuery q = canonicalQuery q' :=
  canonicalQuery_eq_iff.mpr ((perm.filter _).map decodedParameter)

/-- Names of headers that can be told apart in a list of them. -/
structure ListsNames (names : List (List Char)) : Prop where
  some_ : names ≠ []
  solid : ∀ name ∈ names, Text.Solid name
  apart : ∀ name ∈ names, ';' ∉ name ∧ ',' ∉ name

/-- The parts of an authorisation that are told apart in its text. -/
structure Tells (parts : AuthParts) : Prop where
  key : ',' ∉ parts.accessKey ∧ '/' ∉ parts.accessKey
  date : ',' ∉ parts.shortDate ∧ '/' ∉ parts.shortDate
  region : ',' ∉ parts.region ∧ '/' ∉ parts.region
  names : ListsNames parts.signed
  signature : ',' ∉ parts.signature ∧ Text.Solid parts.signature ∧ parts.signature ≠ []

/-- A list of names is one word. -/
theorem ListsNames.solid_intercalate {names : List (List Char)} (lists : ListsNames names) :
    Text.Solid ([';'].intercalate names) ∧ ',' ∉ [';'].intercalate names := by
  -- Names are words, and their separator is no blank.
  refine ⟨?_, Text.not_mem_intercalate (by decide) fun name member => (lists.apart name member).2⟩
  intro c member
  by_contra white
  -- What stands in the list is a semicolon or stands in a name, and neither is white space.
  refine absurd member (Text.not_mem_intercalate ?_ fun name here inside =>
    white (lists.solid name here c inside))
  rintro rfl
  exact white (by decide)

/-- What the part with the credential starts with. -/
def credentialName : List Char := "Credential=".toList

/-- What the part with the names of the headers starts with. -/
def headersName : List Char := "SignedHeaders=".toList

/-- What the part with the signature starts with. -/
def signatureName : List Char := "Signature=".toList

/-- The credential as it stands in an authorisation. -/
def credentialPart (parts : AuthParts) : List Char :=
  credentialName ++ (parts.accessKey ++ '/' :: scope parts.shortDate parts.region)

/-- The names of the headers that were signed, as they stand in an authorisation. -/
def namesPart (parts : AuthParts) : List Char := headersName ++ [';'].intercalate parts.signed

/-- The signature as it stands in an authorisation. -/
def signaturePart (parts : AuthParts) : List Char := signatureName ++ parts.signature

/-- The three names that parts of an authorisation have, letter by letter. -/
theorem partNames : credentialName = ['C', 'r', 'e', 'd', 'e', 'n', 't', 'i', 'a', 'l', '='] ∧
    headersName = ['S', 'i', 'g', 'n', 'e', 'd', 'H', 'e', 'a', 'd', 'e', 'r', 's', '='] ∧
    signatureName = ['S', 'i', 'g', 'n', 'a', 't', 'u', 'r', 'e', '='] := by decide

/-- The names of the parts are words. -/
theorem solid_partNames : Text.Solid headersName ∧ Text.Solid signatureName := by
  have each : (headersName ++ signatureName).all (fun c => !Text.isWhite c) = true := by decide
  simp only [List.all_append, Bool.and_eq_true, List.all_eq_true, Bool.not_eq_true'] at each
  exact each

/-- Each part starts with its own name. -/
theorem dropPrefix?_name (parts : AuthParts) :
    (credentialPart parts).dropPrefix? "Credential=".toList =
        some (parts.accessKey ++ '/' :: scope parts.shortDate parts.region) ∧
      (namesPart parts).dropPrefix? "SignedHeaders=".toList =
        some ([';'].intercalate parts.signed) ∧
      (signaturePart parts).dropPrefix? "Signature=".toList = some parts.signature := by
  refine ⟨?_, ?_, ?_⟩
  · exact List.dropPrefix?_append_of_beq _ (beq_self_eq_true credentialName)
  · exact List.dropPrefix?_append_of_beq _ (beq_self_eq_true headersName)
  · exact List.dropPrefix?_append_of_beq _ (beq_self_eq_true signatureName)

/-- No part starts with the name of another one that is looked for before it. -/
theorem dropPrefix?_other_name (parts : AuthParts) :
    (namesPart parts).dropPrefix? "Credential=".toList = none ∧
    (signaturePart parts).dropPrefix? "Credential=".toList = none ∧
    (signaturePart parts).dropPrefix? "SignedHeaders=".toList = none := by
  -- The names of the parts start with different letters.
  obtain ⟨credential, names, signature⟩ := partNames
  have other : (namesPart parts).dropPrefix? credentialName = none := by
    rw [namesPart, credential, names]
    rfl
  have other' : (signaturePart parts).dropPrefix? credentialName = none := by
    rw [signaturePart, credential, signature]
    rfl
  have other'' : (signaturePart parts).dropPrefix? headersName = none := by
    rw [signaturePart, names, signature]
    rfl
  exact ⟨other, other', other''⟩

/-- The text of an authorisation. -/
def AuthParts.render (parts : AuthParts) : List Char :=
  renderAuthorization parts.accessKey (scope parts.shortDate parts.region)
    ([';'].intercalate parts.signed) parts.signature

/-- An authorisation is its three parts between commas, after the name of the algorithm. -/
theorem render_eq (parts : AuthParts) :
    parts.render = algorithm ++ ' ' :: [','].intercalate [credentialPart parts,
      ' ' :: namesPart parts, ' ' :: signaturePart parts] := by
  -- The header is written in one piece, and its commas are the separators.
  have spaced : " Credential=".toList = ' ' :: credentialName ∧
    ", SignedHeaders=".toList = ',' :: ' ' :: headersName ∧
      ", Signature=".toList = ',' :: ' ' :: signatureName := by decide
  obtain ⟨credential, names, signature⟩ := spaced
  rw [AuthParts.render, renderAuthorization, credential, names, signature, credentialPart,
    namesPart, signaturePart]
  simp only [List.intercalate_cons_cons, List.intercalate_singleton, List.append_assoc,
    List.cons_append, List.nil_append]

/-- The first letter and the last one of a credential. -/
theorem credentialPart_ends (parts : AuthParts) :
    (credentialPart parts).head? = some 'C' ∧ (credentialPart parts).getLast? = some 't' := by
  -- It starts with its name and ends with the fixed end of the scope.
  have tail : "/s3/aws4_request".toList = "/s3/aws4_reques".toList ++ ['t'] := by decide
  constructor
  · rw [credentialPart, partNames.1]
    rfl
  · rw [credentialPart, scope,
      tail, ← List.append_assoc, ← List.cons_append, ← List.append_assoc, ← List.append_assoc,
      List.getLast?_concat]

/-- A part of a name and a value is trimmed to itself. -/
theorem trim_credentialPart (parts : AuthParts) :
    Text.trim (credentialPart parts) = credentialPart parts := by
  -- Its ends are letters, so nothing is trimmed.
  obtain ⟨front, back⟩ := credentialPart_ends parts
  have letters : Text.isWhite 'C' = false ∧ Text.isWhite 't' = false := by decide
  refine Text.trim_eq_self ?_ ?_
  · intro c first
    obtain rfl := Option.some.inj (front.symm.trans first)
    exact letters.1
  · intro c last
    obtain rfl := Option.some.inj (back.symm.trans last)
    exact letters.2

/-- The credential is read off its part. -/
theorem addPart_credential {parts : AuthParts} (tells : Tells parts) (said : Said) :
    addPart said (credentialPart parts) =
      .ok { said with credential := some (parts.accessKey, parts.shortDate, parts.region) } := by
  -- The part is cut at its equality sign, and its value at the slashes.
  have fixed : '/' ∉ "s3".toList ∧ '/' ∉ "aws4_request".toList ∧
      "/s3/aws4_request".toList = '/' :: "s3".toList ++ '/' :: "aws4_request".toList := by decide
  -- None of the five fields has a slash in it, and four slashes part them.
  have cut : (parts.accessKey ++ '/' :: scope parts.shortDate parts.region).splitOn '/' =
      [parts.accessKey, parts.shortDate, parts.region, "s3".toList, "aws4_request".toList] := by
    have fields : [parts.accessKey, parts.shortDate, parts.region, "s3".toList,
        "aws4_request".toList].Forall ('/' ∉ ·) :=
      ⟨tells.key.2, tells.date.2, tells.region.2, fixed.1, fixed.2.1⟩
    rw [← List.splitOn_intercalate '/' (List.forall_iff_forall_mem.mp fields)
      (List.cons_ne_nil _ _), scope, fixed.2.2]
    simp only [List.intercalate_cons_cons, List.intercalate_singleton, List.append_assoc,
      List.cons_append, List.nil_append]
  unfold addPart
  rw [trim_credentialPart]
  dsimp only
  rw [(dropPrefix?_name parts).1]
  dsimp only
  rw [cut]
  dsimp only
  rw [ensure, if_pos ⟨rfl, rfl⟩]
  rfl

/-- The names of the headers are read off their part. -/
theorem addPart_names {parts : AuthParts} (tells : Tells parts) (said : Said) :
    addPart said (' ' :: namesPart parts) = .ok { said with signed := some parts.signed } := by
  -- The blank in front is trimmed, and the name of the part is taken off.
  have word : Text.Solid (namesPart parts) := by
    intro c member
    rcases List.mem_append.mp member with letter | name
    · exact solid_partNames.1 c letter
    · exact tells.names.solid_intercalate.1 c name
  unfold addPart
  rw [Text.trim_cons_white (by decide), Text.trim_solid word]
  dsimp only
  rw [(dropPrefix?_other_name parts).1, (dropPrefix?_name parts).2.1]
  dsimp only
  rw [List.splitOn_intercalate ';' (fun name member => (tells.names.apart name member).1)
    tells.names.some_]

/-- The signature is read off its part. -/
theorem addPart_signature {parts : AuthParts} (tells : Tells parts) (said : Said) :
    addPart said (' ' :: signaturePart parts) =
      .ok { said with signature := some parts.signature } := by
  -- The blank in front is trimmed, and the name of the part is taken off.
  have word : Text.Solid (signaturePart parts) := by
    intro c member
    rcases List.mem_append.mp member with letter | digit
    · exact solid_partNames.2 c letter
    · exact tells.signature.2.1 c digit
  obtain ⟨_, notCredential, notNames⟩ := dropPrefix?_other_name parts
  unfold addPart
  rw [Text.trim_cons_white (by decide), Text.trim_solid word]
  dsimp only
  rw [notCredential, notNames, (dropPrefix?_name parts).2.2]

/-- What is written of an authorisation is read back. -/
theorem parseAuthorization_render {parts : AuthParts} (tells : Tells parts) :
    parseAuthorization parts.render = .ok parts := by
  -- The text is cut into the three parts it was made of.
  have pieces : [credentialPart parts, ' ' :: namesPart parts, ' ' :: signaturePart parts].Forall
      (',' ∉ ·) := by
    have fixed : ',' ∉ credentialName ∧ ',' ∉ "/s3/aws4_request".toList ∧ ',' ∉ headersName ∧
      ',' ∉ signatureName := by decide
    obtain ⟨credential, service, names, signature⟩ := fixed
    simp only [List.Forall, credentialPart, namesPart, signaturePart, scope, List.mem_append,
      List.mem_cons, not_or]
    refine ⟨?_, ?_, ?_⟩
    · exact ⟨credential, tells.key.1, by decide, ⟨tells.date.1, by decide, tells.region.1⟩, service⟩
    · exact ⟨by decide, names, tells.names.solid_intercalate.2⟩
    · exact ⟨by decide, signature, tells.signature.1⟩
  -- The text starts with the credential and ends with the signature, so trimming
  -- leaves it as it is.
  have kept :
    Text.trim ([','].intercalate [credentialPart parts, ' ' :: namesPart parts,
    ' ' :: signaturePart parts]) =
      [','].intercalate [credentialPart parts, ' ' :: namesPart parts,
        ' ' :: signaturePart parts] := by
    have whole : [','].intercalate [credentialPart parts, ' ' :: namesPart parts,
      ' ' :: signaturePart parts] =
        credentialPart parts ++ (',' :: ' ' :: namesPart parts ++ ',' :: ' ' :: signatureName) ++
          parts.signature := by
      simp only [signaturePart, List.intercalate_cons_cons, List.intercalate_singleton,
        List.append_assoc, List.cons_append, List.nil_append]
    rw [whole]
    refine Text.trim_eq_self ?_ ?_
    · intro c first
      rw [List.append_assoc, List.head?_append, (credentialPart_ends parts).1] at first
      obtain rfl := Option.some.inj first
      decide
    · intro c last
      rw [List.getLast?_append_of_ne_nil _ tells.signature.2.2] at last
      exact tells.signature.2.1 c (List.mem_of_getLast? last)
  unfold parseAuthorization
  rw [render_eq, List.dropPrefix?_append_of_beq _ BEq.rfl]
  simp only [okOr_some, except_ok_bind,
    Text.trim_cons_white (show Text.isWhite ' ' = true by decide), kept]
  rw [List.splitOn_intercalate ',' (List.forall_iff_forall_mem.mp pieces) (List.cons_ne_nil _ _)]
  simp only [List.foldlM_cons, addPart_credential tells, addPart_names tells,
    addPart_signature tells]
  rfl

/-- A request with another query and an authorisation. -/
def authorised (r : HttpRequest) (query auth : List Char) : HttpRequest :=
  { r with query, headers := r.headers.insert "authorization".toList auth }

/-- An authorisation changes no other header. -/
theorem header_authorised {r : HttpRequest} {query auth name : List Char}
    (other : name.map Char.toLower ≠ "authorization".toList) :
    header (authorised r query auth).headers name = header r.headers name := by
  have apart : compare "authorization".toList (name.map Char.toLower) ≠ .eq := fun same =>
    other (Std.LawfulEqCmp.eq_of_compare same).symm
  rw [header, header, authorised, Std.ExtTreeMap.getElem?_insert, if_neg apart]

/-- A request is authorised by what it was given. -/
theorem authorization_authorised {r : HttpRequest} {query auth : List Char} :
    authorization (authorised r query auth) = some auth := by
  have lower : "authorization".toList.map Char.toLower = "authorization".toList := by decide
  have held : (authorised r query auth).headers["authorization".toList]? = some auth :=
    Std.ExtTreeMap.getElem?_insert_self
  rw [authorization, header, lower, held]

/-- The names of the headers that are signed. -/
def signedNames (r : HttpRequest) : List (List Char) :=
  r.headers.keys.filter fun k => decide (k ∈ usualNames)

/-- The usual names are in small letters, and none of them is that of the authorisation. -/
theorem usualNames_plain {name : List Char} (usual : name ∈ usualNames) :
    name.map Char.toLower = name ∧ name ≠ "authorization".toList ∧ Text.Solid name ∧ ';' ∉ name ∧
      ',' ∉ name := by
  -- The names are a fixed list, for which each property is evaluated.
  have each : (usualNames.all fun k => decide (k.map Char.toLower = k ∧ k ≠ "authorization".toList ∧
    ';' ∉ k ∧ ',' ∉ k) &&
      k.all fun c => !Text.isWhite c) = true := by decide
  obtain ⟨plain, solid⟩ := Bool.and_eq_true_iff.mp (List.all_eq_true.mp each name usual)
  obtain ⟨lower, other, semicolon, comma⟩ := of_decide_eq_true plain
  refine ⟨lower, other, ?_, semicolon, comma⟩
  intro c member
  simpa using List.all_eq_true.mp solid c member

/-- A request that has a date signs at least one header. -/
theorem listsNames_signedNames {r : HttpRequest} {date : List Char}
    (dated : header r.headers "x-amz-date".toList = some date) :
    ListsNames (signedNames r) := by
  -- The names that are signed are usual ones, and the date is among them.
  have usual {name : List Char} (member : name ∈ signedNames r) : name ∈ usualNames :=
    of_decide_eq_true (List.mem_filter.mp member).2
  refine ⟨?_, fun name member => (usualNames_plain (usual member)).2.2.1,
    fun name member => (usualNames_plain (usual member)).2.2.2⟩
  have named : "x-amz-date".toList ∈ usualNames := by decide
  rw [header, (usualNames_plain named).1] at dated
  have held : "x-amz-date".toList ∈ r.headers.keys := by
    rw [Std.ExtTreeMap.mem_keys, Std.ExtTreeMap.mem_iff_isSome_getElem?, dated]
    rfl
  exact List.ne_nil_of_mem (List.mem_filter.mpr ⟨held, decide_eq_true named⟩)

/-- A hash of a body, in digits of either case, takes one byte for each of its digits. -/
theorem length_textBytes_of_toHex {text : List Char} {data : Bytes}
    (is : text.map Char.toLower = toHex data) :
    (textBytes text).length = 2 * data.length := by
  -- Digits have one byte each, in either case.
  have one : ∀ c ∈ text, (String.utf8EncodeChar c).length = 1 := by
    intro c member
    obtain ⟨n, below, digit⟩ := Text.mem_toHex (is ▸ List.mem_map_of_mem member)
    rw [String.length_utf8EncodeChar, ← Text.utf8Size_toLower, digit,
      (Text.hexDigit_plain below).2.2]
  have width : text.length = 2 * data.length := by
    rw [← Text.toHex_length, ← is, List.length_map]
  rw [textBytes, List.length_flatMap, List.map_congr_left one, List.map_const', List.sum_replicate,
    smul_eq_mul, mul_one, width]

section

variable [Sha2]

/-- The signer and the verifier make one text of a request, over the names that were signed. -/
theorem canonical_eq {r : HttpRequest} {payload : List Char}
    (hashed : payloadHash r = .ok payload) :
    canonical r = (canonicalWithSigned r (signedNames r) payload, [';'].intercalate (signedNames r),
      payload) := by
  -- The signer looks the headers up as they are, and the verifier in small letters,
  -- which these names have.
  have lines :
    (signedNames r).flatMap (fun k => k ++ ':' :: (r.headers[k]?.map Text.trim).getD [] ++ ['\n']) =
      (signedNames r).flatMap fun k =>
        k.map Char.toLower ++ ':' :: Text.trim ((header r.headers k).getD []) ++ ['\n'] := by
    refine List.flatMap_congr fun k member => ?_
    have lower := (usualNames_plain (of_decide_eq_true (List.mem_filter.mp member).2)).1
    rw [header, lower]
    cases r.headers[k]? with
    | none => rfl
    | some value => rfl
  unfold canonical
  rw [hashed]
  dsimp only
  rw [← signedNames, lines]
  rfl

/--
What the signer is given: a key and a region without separators, a date, and a hash of
the body if it names one.
-/
structure Signable (creds : Creds) (region : List Char) (r : HttpRequest)
    (date : List Char) : Prop where
  key : ',' ∉ creds.accessKeyId ∧ '/' ∉ creds.accessKeyId
  region : ',' ∉ region ∧ '/' ∉ region
  dated : header r.headers "x-amz-date".toList = some date
  long : 8 ≤ date.length
  plain : ∀ c ∈ date, c.toNat < 0x80 ∧ c ≠ ',' ∧ c ≠ '/'
  declared : ∀ text, declaredPayload r = some text →
    text = unsigned ∨ text.map Char.toLower = toHex (Sha2.sha256 r.body).bytes

/-- A body whose hash is not declared, or declared as it is, is signed. -/
theorem exists_payloadHash {r : HttpRequest} (declared : ∀ text, declaredPayload r = some text →
    text = unsigned ∨ text.map Char.toLower = toHex (Sha2.sha256 r.body).bytes) : ∃ payload,
      payloadHash r = .ok payload := by
  -- A payload that is declared is unsigned or the body's hash.
  unfold payloadHash
  cases named : declaredPayload r with
  | none => exact ⟨_, rfl⟩
  | some text =>
    dsimp only
    rcases declared text named with rfl | is
    · exact ⟨unsigned, if_pos rfl⟩
    · by_cases free : text = unsigned
      · exact ⟨unsigned, if_pos free⟩
      · have read : hexDecode text = some (Sha2.sha256 r.body).bytes := by
          rw [hexDecode, ← Text.parseHexBytes_toLower, is, Text.parseHexBytes_toHex]
        have same : ctEq (Sha2.sha256 r.body).bytes (Sha2.sha256 r.body).bytes = true :=
          ctEq_iff.mpr rfl
        rw [if_neg free, if_pos (by rw [length_textBytes_of_toHex is, FixedBytes.size]), read]
        exact ⟨text.map Char.toLower, by simp [same]⟩

/-- The hash of the body does not depend on the authorisation. -/
theorem payloadHash_authorised {r : HttpRequest} {query auth : List Char} :
    payloadHash (authorised r query auth) = payloadHash r := by
  have other : "x-amz-content-sha256".toList.map Char.toLower ≠ "authorization".toList := by decide
  unfold payloadHash
  rw [declaredPayload, header_authorised other]
  rfl

omit [Sha2] in
/-- The text that is signed depends on the order of a query no more than on the authorisation. -/
theorem canonicalWithSigned_authorised {r : HttpRequest} {query auth payload : List Char}
    (same : canonicalQuery query = canonicalQuery r.query) :
    canonicalWithSigned (authorised r query auth) (signedNames r) payload =
      canonicalWithSigned r (signedNames r) payload := by
  -- The header that is added is not among the signed ones.
  have lines : (signedNames r).flatMap (fun k => k.map Char.toLower ++ ':' ::
        Text.trim ((header (authorised r query auth).headers k).getD []) ++ ['\n']) =
      (signedNames r).flatMap fun k =>
        k.map Char.toLower ++ ':' :: Text.trim ((header r.headers k).getD []) ++ ['\n'] := by
    refine List.flatMap_congr fun k member => ?_
    obtain ⟨lower, other, _⟩ := usualNames_plain (of_decide_eq_true (List.mem_filter.mp member).2)
    rw [header_authorised (lower.symm ▸ other)]
  unfold canonicalWithSigned
  dsimp only
  rw [lines, authorised, same]

/-- The signature that the signer writes. -/
def signatureOf (creds : Creds) (region date : List Char) (r : HttpRequest)
    (payload : List Char) : Digest :=
  signingSig creds (date.take 8) region
    (stringToSign date (scope (date.take 8) region) (canonicalWithSigned r (signedNames r) payload))

/-- What the signer writes, in parts. -/
def signedParts (creds : Creds) (region date : List Char) (r : HttpRequest)
    (payload : List Char) : AuthParts :=
  ⟨creds.accessKeyId, date.take 8, region, signedNames r,
    toHex (signatureOf creds region date r payload).bytes⟩

/-- The parts that the signer writes can be told apart. -/
theorem Signable.tells {creds : Creds} {region date : List Char} {r : HttpRequest}
    (signable : Signable creds region r date) (payload : List Char) :
    Tells (signedParts creds region date r payload) := by
  -- Neither digits nor a date have a separator in them.
  have inDay {c : Char} (member : c ∈ date.take 8) : c ≠ ',' ∧ c ≠ '/' :=
    (signable.plain c (List.mem_of_mem_take member)).2
  have noComma (data : Bytes) : ',' ∉ toHex data := by
    intro member
    obtain ⟨n, below, is⟩ := Text.mem_toHex member
    have none_ : ∀ n < 16, ',' ≠ hexDigit n := by decide
    exact none_ n below is
  have some_ (signature : Digest) : toHex signature.bytes ≠ [] := by
    intro empty
    have width := congrArg List.length empty
    rw [Text.toHex_length, FixedBytes.size] at width
    cases width
  exact ⟨signable.key, ⟨fun member => (inDay member).1 rfl, fun member => (inDay member).2 rfl⟩,
    signable.region, listsNames_signedNames signable.dated, noComma _, Text.solid_toHex _, some_ _⟩

/-- The signer writes these parts. -/
theorem Signable.sign_eq {creds : Creds} {region date payload : List Char} {r : HttpRequest}
    (signable : Signable creds region r date) (hashed : payloadHash r = .ok payload) :
    sign creds region r = some (signedParts creds region date r payload).render := by
  -- The request has a date, and the day is the front of it.
  have dated : amzDate r.headers = some date := by rw [amzDate, signable.dated, Option.some_or]
  have day : takeBytes 8 date = some (date.take 8) :=
    takeBytes_ascii (fun c member => (signable.plain c member).1) 8
  simp only [sign, canonical_eq hashed, dated, Option.getD_some, day, Option.bind_eq_bind,
    Option.bind_some]
  rfl

/--
A request is accepted with the parts that were signed, also with the pieces of its
query in another order.
-/
theorem Signable.verified {creds : Creds} {region date payload query : List Char} {r : HttpRequest}
    (signable : Signable creds region r date) (hashed : payloadHash r = .ok payload)
    (same : canonicalQuery query = canonicalQuery r.query) :
    Verified creds (authorised r query (signedParts creds region date r payload).render)
      (signedParts creds region date r payload) payload date where
  -- The authorisation is read back, and what it signs is made again.
  authorised := ⟨_, authorization_authorised, parseAuthorization_render (signable.tells payload)⟩
  key := rfl
  hashed := payloadHash_authorised.trans hashed
  dated := by
    have other : "x-amz-date".toList.map Char.toLower ≠ "authorization".toList := by decide
    rw [amzDate, header_authorised other, signable.dated, Option.some_or]
  short := by
    rw [List.isPrefixOf_iff_prefix]
    exact List.take_prefix 8 date
  signature := by
    -- What is signed is the same text again, since no name that was signed is that
    -- of the authorisation.
    rw [hexDecode, signedParts, Text.parseHexBytes_toHex, signedText,
      canonicalWithSigned_authorised same]
    rfl

/--
A request is accepted with what its signer wrote, in whatever order its query comes; the order of a
query does not show in its canonical form, and the canonical form is its own.
-/
theorem signing_and_verifying_agree :
    (∀ (creds : Creds) (region date : List Char) (r : HttpRequest), Signable creds region r date →
      ∃ auth, sign creds region r = some auth ∧
        ∀ query, (query.splitOn '&').Perm (r.query.splitOn '&') →
        verify creds (authorised r query auth) = .ok ()) ∧
      (∀ q q' : List Char, (q.splitOn '&').Perm (q'.splitOn '&') →
        canonicalQuery q = canonicalQuery q') ∧
      ∀ q, canonicalQuery (canonicalQuery q) = canonicalQuery q := by
  -- The signature is made, and what verifying reads off the header is what signing wrote.
  refine ⟨?_, fun q q' perm => canonicalQuery_of_perm perm,
    fun q => canonicalQuery_eq_iff.mpr (decodedParameters_canonicalQuery q)⟩
  intro creds region date r signable
  obtain ⟨payload, hashed⟩ := exists_payloadHash signable.declared
  refine ⟨_, signable.sign_eq hashed, fun query perm => ?_⟩
  exact verify_eq_ok.mpr ⟨_, _, _, signable.verified hashed (canonicalQuery_of_perm perm)⟩

end

section

open Concrete

/-- A listing is accepted with what its signer wrote, with its two parameters exchanged. -/
theorem signed_listing_is_accepted :
    ∃ auth, @sign sha2ByDigest gatewayCreds "us-east-1".toList
      (listing "list-type=2&prefix=a".toList listingHeaders) = some auth ∧
      @verify sha2ByDigest gatewayCreds
        (authorised (listing "list-type=2&prefix=a".toList listingHeaders)
        "prefix=a&list-type=2".toList auth) = .ok () := by
  -- The request is signable, which is evaluated.
  have signable : @Signable sha2ByDigest gatewayCreds "us-east-1".toList
      (listing "list-type=2&prefix=a".toList listingHeaders) "20130524T000000Z".toList := by
    have digits : ("20130524T000000Z".toList.all fun c => decide (c.toNat < 0x80 ∧ c ≠ ',' ∧
        c ≠ '/')) = true := by
      decide
    refine @Signable.mk sha2ByDigest _ _ _ _ (by decide) (by decide) (by decide) (by decide) ?_ ?_
    · intro c member
      exact of_decide_eq_true (List.all_eq_true.mp digits c member)
    · -- The hash that is declared is the hash of the body, which is empty.
      intro text declared
      have held : declaredPayload (listing "list-type=2&prefix=a".toList listingHeaders) =
          some (toHex (digest []).bytes) := by
        decide
      obtain rfl := Option.some.inj (held.symm.trans declared)
      exact .inr (by decide)
  obtain ⟨auth, signs, accepts⟩ := (@signing_and_verifying_agree sha2ByDigest).1 _ _ _ _ signable
  exact ⟨auth, signs, accepts _ (by decide)⟩

end

end SigV4

end NasTools
