import NasTools.Lib.OrderedMap
import NasTools.Lib.Percent
import NasTools.Model.Delete.Formats

/-!
Requests as the gateway reads them off a connection: one line, headers, and a body of
a declared length.
-/

namespace NasTools

/-- The largest body that is read. -/
def maxBody : Nat := 64 * 1024 * 1024

/-- How much is read before the headers have to end. -/
def maxHeader : Nat := 64 * 1024

/-- Why a request is not read. -/
inductive HttpError where
  | io (text : String)
  | truncated
  | tooLarge (which : String) (got : Nat)
  | badLine
deriving DecidableEq

/-- The text a request error prints. -/
def HttpError.display : HttpError → String
  | .io e => e
  | .truncated => "truncated HTTP request"
  | .tooLarge which got => which ++ " is " ++ toString got ++ " B, over the cap"
  | .badLine => "malformed HTTP request line"

/-- Header names in lower case, each with its value. -/
abbrev Headers := OrdMap (List Char) (List Char)

/-- A request as it was read. -/
structure HttpRequest where
  method : List Char
  path : List Char
  query : List Char
  headers : Headers
  body : Bytes

/-- A line without the carriage return at its end. -/
def trimCr (line : Bytes) : Bytes := if line.getLast? = some 0x0d then line.dropLast else line

/-- The characters of some bytes that are text. -/
def lineText (line : Bytes) : Except HttpError (List Char) :=
  okOr ((ofUtf8? (trimCr line)).map String.toList) .badLine

/-- The method and the target of a request. -/
def parseRequestLine (line : Bytes) : Except HttpError (List Char × List Char) := do
  let text ← lineText line
  match text.splitOn ' ' with
  | method :: target :: _ => do
    ensure (method ≠ [] ∧ target ≠ []) .badLine
    return (method, target)
  | _ => .error .badLine

/-- The path of a target, decoded, and its query as it stands. -/
def splitTarget (target : List Char) : List Char × List Char :=
  match Text.splitOnce '?' target with
  | some (path, query) => (Percent.decode path, query)
  | none => (Percent.decode target, [])

/-- Where the headers end. -/
def findDoubleCrlf (buf : Bytes) : Option Nat :=
  ((List.range buf.length).find? fun i => (buf.drop i).take 4 == [0x0d, 0x0a, 0x0d,
    0x0a]).map (· + 4)

/-- Add the header of a line; a later line of one name replaces an earlier one. -/
def addHeader (headers : Headers) (line : Bytes) : Except HttpError Headers :=
  if trimCr line = [] then .ok headers
  else do
    let text ← lineText line
    let (name, value) ← okOr (Text.splitOnce ':' text) .badLine
    return headers.insert ((Text.trim name).map Char.toLower) (Text.trim value)

/-- Read until the headers have ended, of what the connection still gives. -/
def readHead (buf : Bytes) :
    List (Except String Bytes) → Except HttpError (Nat × Bytes × List (Except String Bytes))
  | [] => if maxHeader < buf.length then .error (.tooLarge "headers" buf.length)
    else .error .truncated
  | next :: later => do
    -- The bound is asked before each read, so one read may pass it.
    ensure (buf.length ≤ maxHeader) (.tooLarge "headers" buf.length)
    let chunk ← next.mapError .io
    -- Nothing more to read is how a connection ends.
    ensure (chunk ≠ []) .truncated
    match findDoubleCrlf (buf ++ chunk) with
    | some i => return (i, buf ++ chunk, later)
    | none => readHead (buf ++ chunk) later

/-- Read until the body is as long as was declared. -/
def readBody (want : Nat) (body : Bytes) : List (Except String Bytes) → Except HttpError Bytes
  -- What is read beyond the declared length is cut off.
  | [] => if body.length < want then .error .truncated else .ok (body.take want)
  | next :: later =>
    if body.length < want then do
      let chunk ← next.mapError .io
      ensure (chunk ≠ []) .truncated
      readBody want (body ++ chunk) later
    else .ok (body.take want)

/-- The length of the body that the headers declare. -/
def declaredLength (headers : Headers) : Except HttpError Nat := do
  let want ← match headers["content-length".toList]? with
    | some value => okOr ((Text.parseU64 value).map UInt64.toNat) .badLine
    | none => .ok 0
  ensure (want ≤ maxBody) (.tooLarge "body" want)
  return want

/-- Read a request from what a connection gives, read by read. -/
def readRequest (reads : List (Except String Bytes)) : Except HttpError HttpRequest := do
  let (headerEnd, buf, later) ← readHead [] reads
  match (buf.take headerEnd).splitOn 0x0a with
  | [] => .error .badLine
  -- The lines behind the first are headers, up to the empty one.
  | requestLine :: lines => do
    let (method, target) ← parseRequestLine requestLine
    let headers ← lines.foldlM addHeader ∅
    let want ← declaredLength headers
    let body ← readBody want (buf.drop headerEnd) later
    return ⟨method, (splitTarget target).1, (splitTarget target).2, headers, body⟩

/-- A request that was sent on one line: no part of the line has a space or a line end in it. -/
structure HttpRequest.OnOneLine (r : HttpRequest) : Prop where
  method : ' ' ∉ r.method ∧ '\n' ∉ r.method
  target : ∃ target, ' ' ∉ target ∧ '\n' ∉ target ∧ splitTarget target = (r.path, r.query)

/-- A line that has no line end in it is a text without one. -/
theorem lineEnd_of_lineText {line : Bytes} {text : List Char} (read : lineText line = .ok text)
    (whole : 0x0a ∉ line) :
    '\n' ∉ text := by
  -- The text is read from the bytes of the line.
  intro member
  simp only [lineText, okOr_eq_ok, Option.map_eq_some_iff, ofUtf8?_eq_some] at read
  obtain ⟨s, spelled, rfl⟩ := read
  -- A line end is one byte in a text, and that byte would stand in the line.
  have here : 0x0a ∈ trimCr line := by
    rw [← spelled, utf8_eq_textBytes]
    exact List.mem_flatMap.mpr ⟨'\n', member, by decide⟩
  unfold trimCr at here
  split at here
  · exact whole (List.dropLast_subset _ here)
  · exact whole here

/-- A request that was read came on one line. -/
theorem readRequest_onOneLine {reads : List (Except String Bytes)} {r : HttpRequest}
    (read : readRequest reads = .ok r) :
    r.OnOneLine := by
  -- The request line is cut out of the head and then at its spaces.
  simp only [readRequest, except_bind_eq_ok] at read
  obtain ⟨⟨headerEnd, buf, later⟩, _, read⟩ := read
  dsimp only at read
  split at read
  · cases read
  · rename_i requestLine lines parts
    simp only [except_bind_eq_ok, except_pure_eq, Except.ok.injEq] at read
    obtain ⟨⟨method, target⟩, parsed, _, _, _, _, _, _, rfl⟩ := read
    -- The head is parted at its line ends, so the request line has none.
    have whole : 0x0a ∉ requestLine := (Text.of_mem_splitOn (parts ▸ List.mem_cons_self)).1
    simp only [parseRequestLine, except_bind_eq_ok] at parsed
    obtain ⟨text, spelled, parsed⟩ := parsed
    have oneLine := lineEnd_of_lineText spelled whole
    split at parsed
    · rename_i first second rest words
      simp only [except_bind_eq_ok, except_pure_eq, Except.ok.injEq, Prod.mk.injEq] at parsed
      obtain ⟨_, _, rfl, rfl⟩ := parsed
      -- Both words are parts of the line, which was parted at its spaces.
      have word {part : List Char} (member : part ∈ text.splitOn ' ') : ' ' ∉ part ∧ '\n' ∉ part :=
        ⟨(Text.of_mem_splitOn member).1,
          fun inside => oneLine ((Text.of_mem_splitOn member).2 _ inside)⟩
      have one := word (words ▸ List.mem_cons_self)
      have two := word (words ▸ List.mem_cons_of_mem _ List.mem_cons_self)
      exact ⟨one, second, two.1, two.2, rfl⟩
    · cases parsed

end NasTools
