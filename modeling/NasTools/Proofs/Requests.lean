import NasTools.Model.Gateway.Http

/-! What a request is read as does not depend on how the connection cuts its bytes. -/

namespace NasTools

/--
How a connection gives a stream: in pieces that are not empty, and fit the buffer of one read.
-/
structure CutsInto (stream : Bytes) (reads : List Bytes) : Prop where
  whole : reads.flatten = stream
  sized : ∀ read ∈ reads, 1 ≤ read.length ∧ read.length ≤ 1024

/-- The end of the headers is right behind the first empty line. -/
theorem findDoubleCrlf_eq_some {buf : Bytes} {headerEnd : Nat} :
    findDoubleCrlf buf = some headerEnd ↔
    ∃ i, headerEnd = i + 4 ∧ (buf.drop i).take 4 = [0x0d, 0x0a, 0x0d, 0x0a] ∧
      ∀ j < i, (buf.drop j).take 4 ≠ [0x0d, 0x0a, 0x0d, 0x0a] := by
  -- The search gives the first place, and four bytes have to be there.
  simp only [findDoubleCrlf, Option.map_eq_some_iff, List.find?_range_eq_some, beq_iff_eq,
    List.mem_range]
  constructor
  · intro found
    obtain ⟨i, ⟨here, _, before⟩, rfl⟩ := found
    exact ⟨i, rfl, here, fun j below is => by simpa [is] using before j below⟩
  · intro found
    obtain ⟨i, rfl, here, before⟩ := found
    refine ⟨i, ⟨here, ?_, fun j below => by simpa using before j below⟩, rfl⟩
    have width := congrArg List.length here
    simp only [List.length_take, List.length_drop, List.length_cons, List.length_nil] at width
    omega

/-- The headers end inside what was read. -/
theorem findDoubleCrlf_le {buf : Bytes} {headerEnd : Nat}
    (found : findDoubleCrlf buf = some headerEnd) :
    headerEnd ≤ buf.length := by
  obtain ⟨i, rfl, here, _⟩ := findDoubleCrlf_eq_some.mp found
  have width := congrArg List.length here
  simp only [List.length_take, List.length_drop, List.length_cons, List.length_nil] at width
  omega

/--
The headers have ended as soon as all of them are read, and where they end does not
depend on what follows.
-/
theorem findDoubleCrlf_append {buf more : Bytes} {headerEnd : Nat} :
    findDoubleCrlf buf = some headerEnd ↔ findDoubleCrlf (buf ++ more) = some headerEnd ∧
      headerEnd ≤ buf.length := by
  -- Four bytes inside the buffer are the same with more behind it.
  have inside : ∀ j, j + 4 ≤ buf.length → ((buf ++ more).drop j).take 4 = (buf.drop j).take 4 := by
    intro j fits
    rw [List.drop_append_of_le_length (by omega),
      List.take_append_of_le_length (by rw [List.length_drop]; omega)]
  constructor
  · intro found
    have fits := findDoubleCrlf_le found
    obtain ⟨i, rfl, here, before⟩ := findDoubleCrlf_eq_some.mp found
    refine ⟨findDoubleCrlf_eq_some.mpr ⟨i, rfl, by rw [inside i fits, here], fun j below => ?_⟩,
      fits⟩
    rw [inside j (by omega)]
    exact before j below
  · intro found
    obtain ⟨found, fits⟩ := found
    obtain ⟨i, rfl, here, before⟩ := findDoubleCrlf_eq_some.mp found
    refine findDoubleCrlf_eq_some.mpr ⟨i, rfl, by rw [← inside i fits, here], fun j below => ?_⟩
    rw [← inside j (by omega)]
    exact before j below

example : findDoubleCrlf (asciiBytes "a\r\n\r\nb") = some 5 := by decide +kernel

/-- A body of a declared length, of what follows the headers. -/
def takeBody (want : Nat) (rest : Bytes) : Except HttpError Bytes :=
  if rest.length < want then .error .truncated else .ok (rest.take want)

/-- A request as its whole stream says, with the end of its headers. -/
def readWhole (stream : Bytes) (headerEnd : Nat) : Except HttpError HttpRequest :=
  match (stream.take headerEnd).splitOn 0x0a with
  | [] => .error .badLine
  | requestLine :: lines => do
    let (method, target) ← parseRequestLine requestLine
    let headers ← lines.foldlM addHeader ∅
    let want ← declaredLength headers
    let body ← takeBody want (stream.drop headerEnd)
    return ⟨method, (splitTarget target).1, (splitTarget target).2, headers, body⟩

/--
Reading for the headers stops at the read that completes them, with nothing lost of the stream.
-/
theorem readHead_eq {buf : Bytes} {reads : List Bytes} {headerEnd : Nat}
    (filled : ∀ read ∈ reads, read ≠ [])
    (ends : findDoubleCrlf (buf ++ reads.flatten) = some headerEnd) (small : headerEnd ≤ maxHeader)
    (open_ : buf.length < headerEnd) :
    ∃ (buf' : Bytes) (later : List Bytes), readHead buf (reads.map .ok) =
      .ok (headerEnd, buf', later.map .ok) ∧ headerEnd ≤ buf'.length ∧
      buf' ++ later.flatten = buf ++ reads.flatten ∧ ∀ read ∈ later, read ≠ [] := by
  -- Induction over the reads that are left.
  induction reads generalizing buf with
  | nil =>
    -- With no read left the buffer is the stream, which holds the end of the headers.
    have inside := findDoubleCrlf_le ends
    simp only [List.flatten_nil, List.append_nil] at inside
    omega
  | cons read later ih =>
    have whole : buf ++ (read :: later).flatten = buf ++ read ++ later.flatten := by simp
    rw [whole] at ends ⊢
    have first : read ≠ [] := filled read List.mem_cons_self
    have others : ∀ next ∈ later, next ≠ [] := fun next member =>
      filled next (List.mem_cons_of_mem _ member)
    rw [List.map_cons, readHead, ensure_of (by omega), except_ok_bind]
    simp only [except_mapError_ok, except_ok_bind, ensure_of first]
    by_cases done : headerEnd ≤ (buf ++ read).length
    · rw [findDoubleCrlf_append.mpr ⟨ends, done⟩]
      exact ⟨buf ++ read, later, rfl, done, rfl, others⟩
    · -- The buffer does not hold the headers yet, so nothing in it looks like their end.
      have none_ : findDoubleCrlf (buf ++ read) = none := by
        cases found : findDoubleCrlf (buf ++ read) with
        | none => rfl
        | some early =>
          have both : findDoubleCrlf (buf ++ read ++ later.flatten) = some early ∧
              early ≤ (buf ++ read).length :=
            findDoubleCrlf_append.mp found
          obtain ⟨same, fits⟩ := both
          obtain rfl : early = headerEnd := Option.some.inj (same.symm.trans ends)
          exact absurd fits done
      rw [none_]
      exact ih others ends (by omega)

/-- A body is read to its declared length however it comes, and what is behind it is left. -/
theorem readBody_eq {want : Nat} {body : Bytes} {reads : List Bytes}
    (filled : ∀ read ∈ reads, read ≠ []) :
    readBody want body (reads.map .ok) = takeBody want (body ++ reads.flatten) := by
  -- Induction over the reads: each adds what it brings until there is enough.
  induction reads generalizing body with
  | nil => simp [readBody, takeBody]
  | cons read later ih =>
    have whole : body ++ (read :: later).flatten = body ++ read ++ later.flatten := by simp
    rw [List.map_cons, readBody, whole]
    split
    · -- More is needed, and the next read is not the end of the connection.
      rw [except_mapError_ok, except_ok_bind, ensure_of (filled read List.mem_cons_self),
        except_ok_bind]
      exact ih fun next member => filled next (List.mem_cons_of_mem _ member)
    · rename_i enough
      rw [takeBody, if_neg (by simp only [List.length_append]; omega), List.append_assoc,
        List.take_append_of_le_length (by omega)]

/-- A declared length is within the bound on bodies. -/
theorem declaredLength_le {headers : Headers} {want : Nat}
    (declared : declaredLength headers = .ok want) : want ≤ maxBody := by
  -- Both ways to declare a length check it against the bound.
  unfold declaredLength at declared
  split at declared
  · simp only [except_bind_eq_ok, ensure_eq_ok, except_pure_eq, Except.ok.injEq] at declared
    obtain ⟨_, _, _, bound, rfl⟩ := declared
    exact bound
  · simp only [except_bind_eq_ok, ensure_eq_ok, except_pure_eq, Except.ok.injEq] at declared
    obtain ⟨_, _, _, bound, rfl⟩ := declared
    exact bound

/-- A request is what its whole stream says, where its headers end in time. -/
theorem readRequest_eq {stream : Bytes} {reads : List Bytes} {headerEnd : Nat}
    (cuts : CutsInto stream reads) (ends : findDoubleCrlf stream = some headerEnd)
    (small : headerEnd ≤ maxHeader) :
    readRequest (reads.map .ok) = readWhole stream headerEnd := by
  -- The head ends at the same place of the stream however it was cut.
  have filled : ∀ read ∈ reads, read ≠ [] := by
    intro read member empty
    have size := (cuts.sized read member).1
    rw [empty, List.length_nil] at size
    omega
  have open_ : ([] : Bytes).length < headerEnd := by
    obtain ⟨i, rfl, _⟩ := findDoubleCrlf_eq_some.mp ends
    simp
  obtain ⟨buf, later, read, fits, whole, others⟩ :=
    readHead_eq filled (by rw [List.nil_append, cuts.whole]; exact ends) small open_
  rw [List.nil_append, cuts.whole] at whole
  have head : buf.take headerEnd = stream.take headerEnd := by
    rw [← whole, List.take_append_of_le_length fits]
  have rest : buf.drop headerEnd ++ later.flatten = stream.drop headerEnd := by
    rw [← whole, List.drop_append_of_le_length fits]
  rw [readRequest, read, except_ok_bind]
  simp only [head, readBody_eq others, rest]
  rfl

/--
A request is read alike however its stream is cut into reads, where the headers end
within their bound.

Its body is as long as it was declared, within the bound on bodies, and is what follows the headers.
-/
theorem request_is_read_alike {stream : Bytes} {headerEnd : Nat}
    (ends : findDoubleCrlf stream = some headerEnd) (small : headerEnd ≤ maxHeader)
    {reads reads' : List Bytes} (cuts : CutsInto stream reads) (cuts' : CutsInto stream reads') :
    readRequest (reads.map .ok) = readRequest (reads'.map .ok) ∧
      ∀ r, readRequest (reads.map .ok) = .ok r → ∃ want, declaredLength r.headers = .ok want ∧
        r.body = (stream.drop headerEnd).take want ∧ r.body.length = want ∧ want ≤ maxBody := by
  -- Both readings are that of the whole stream, whose body is taken by its length.
  refine ⟨by rw [readRequest_eq cuts ends small, readRequest_eq cuts' ends small], ?_⟩
  intro r read
  rw [readRequest_eq cuts ends small, readWhole] at read
  split at read
  · cases read
  · simp only [except_bind_eq_ok, except_pure_eq, Except.ok.injEq] at read
    obtain ⟨⟨method, target⟩, _, headers, _, want, declared, body, taken, rfl⟩ := read
    unfold takeBody at taken
    split at taken
    · cases taken
    · rename_i enough
      obtain rfl := Except.ok.inj taken
      have length : ((stream.drop headerEnd).take want).length = want := by
        rw [List.length_take]
        omega
      exact ⟨want, declared, rfl, length, declaredLength_le declared⟩

/-- A request with a body of two bytes, and a byte that belongs to nothing. -/
def smallPut : Bytes := asciiBytes "PUT /b/k HTTP/1.1\r\nContent-Length: 2\r\n\r\nokx"

/-- It is read alike in one piece and with its empty line cut in the middle. -/
theorem small_put_is_read_alike :
    readRequest ([smallPut].map .ok) = readRequest ([smallPut.take 38, smallPut.drop 38].map .ok) ∧
      ∀ r, readRequest ([smallPut].map .ok) = .ok r → ∃ want, declaredLength r.headers = .ok want ∧
        r.body = (smallPut.drop 40).take want ∧ r.body.length = want ∧ want ≤ maxBody := by
  have ends : findDoubleCrlf smallPut = some 40 := by decide
  exact request_is_read_alike ends (by decide) ⟨by simp, by decide⟩ ⟨by decide, by decide⟩

end NasTools
