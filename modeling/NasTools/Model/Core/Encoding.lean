import NasTools.Lib.Bytes

/-! The canonical length-prefixed encoding every signed object is built from. -/

namespace NasTools

/-- Width of the length prefix. -/
def lenPrefix : Nat := 4

/-- Largest field a four-byte prefix can announce. -/
def maxField : Nat := 2 ^ 32 - 1

/-- Why a byte string is not a sequence of fields. -/
inductive DecodeError where
  -- The input ended in the middle of a length prefix.
  | truncated
  -- A prefix promised more bytes than the input holds.
  | lengthOverrun (want held : Nat)
  -- A field exceeds what the prefix can express.
  | fieldTooLarge (size : Nat)
deriving DecidableEq, Repr

/-- The text `{e:?}` prints for a decoding error. -/
def DecodeError.debug : DecodeError → String
  | .truncated => "Truncated"
  | .lengthOverrun want found =>
    "LengthOverrun \x7b want: " ++ toString want ++ ", have: " ++ toString found ++ " \x7d"
  | .fieldTooLarge size => "FieldTooLarge(" ++ toString size ++ ")"

/-- Append one length-prefixed field. -/
def pushField (out field : Bytes) : Except DecodeError Bytes :=
  if field.length > maxField then .error (.fieldTooLarge field.length)
  else .ok (out ++ natToLe lenPrefix field.length ++ field)

/-- Encode a sequence of fields. -/
def encodeFields (fields : List Bytes) : Except DecodeError Bytes :=
  fields.foldlM pushField []

/-- Decode one field, returning it and the unconsumed remainder. -/
def decodeField (input : Bytes) : Except DecodeError (Bytes × Bytes) :=
  if input.length < lenPrefix then .error .truncated
  else
    let rest := input.drop lenPrefix
    let want := natOfLe (input.take lenPrefix)
    if rest.length < want then .error (.lengthOverrun want rest.length)
    else .ok (rest.take want, rest.drop want)

/-- Decode fields until the input is used up, for at most `fuel` fields. -/
def decodeFieldsUpTo : Nat → Bytes → Except DecodeError (List Bytes)
  | _, [] => .ok []
  | 0, _ :: _ => .error .truncated
  | fuel + 1, input =>
    match decodeField input with
    | .error e => .error e
    | .ok (field, rest) =>
      match decodeFieldsUpTo fuel rest with
      | .error e => .error e
      | .ok more => .ok (field :: more)

/--
Decode a complete field sequence.

Every field uses up at least its own prefix, so one round per input byte is always enough.
-/
def decodeFields (input : Bytes) : Except DecodeError (List Bytes) :=
  decodeFieldsUpTo input.length input

/--
Encode fields of fixed widths, which always fit their prefixes.

The source unwraps the result, and the empty string stands for the panic that never happens.
-/
def expectFields (fields : List Bytes) : Bytes :=
  match encodeFields fields with
  | .ok bytes => bytes
  | .error _ => []

/--
Read a decoded field as an array of an expected width, under the error its record type reports.
-/
def fixedField {E : Type} (badWidth : String → Nat → Nat → E) (width : Nat) (field : String)
    (data : Bytes) : Except E (FixedBytes width) :=
  match FixedBytes.ofBytes? width data with
  | some a => .ok a
  | none => .error (badWidth field width data.length)

/-- One field as it stands in an encoding: its length, then its bytes. -/
def framedField (field : Bytes) : Bytes := natToLe lenPrefix field.length ++ field

/-- Every field is short enough for its prefix. -/
def FieldsFit (fields : List Bytes) : Prop := ∀ field ∈ fields, field.length ≤ maxField

/-- A field that fits is appended to what was written before it. -/
theorem pushField_ok {out field : Bytes} (fits : field.length ≤ maxField) :
    pushField out field = .ok (out ++ framedField field) := by
  simp [pushField, framedField, Nat.not_lt.mpr fits]

/-- Encoding starts from any output and appends the framed fields to it. -/
private theorem foldlM_pushField {fields : List Bytes} (fits : FieldsFit fields) (out : Bytes) :
    fields.foldlM pushField out = .ok (out ++ fields.flatMap framedField) := by
  -- What was written so far only grows on the right, so it stays quantified over.
  induction fields generalizing out with
  | nil => simp [pure, Except.pure]
  | cons field rest ih =>
    rw [List.foldlM_cons, pushField_ok (fits field (by simp))]
    have := ih (fun f member => fits f (by simp [member])) (out ++ framedField field)
    simpa [Bind.bind, Except.bind, List.append_assoc] using this

/-- Fields that fit always encode, to their framed forms in order. -/
theorem encodeFields_ok {fields : List Bytes} (fits : FieldsFit fields) :
    encodeFields fields = .ok (fields.flatMap framedField) := by
  simpa [encodeFields] using foldlM_pushField fits []

/-- Fields that fit are written by the unwrapping form as well. -/
theorem expectFields_ok {fields : List Bytes} (fits : FieldsFit fields) :
    expectFields fields = fields.flatMap framedField := by
  simp [expectFields, encodeFields_ok fits]

/-- An array reads back from its own bytes. -/
@[simp] theorem fixedField_bytes {E : Type} (badWidth : String → Nat → Nat → E) {width : Nat}
    (field : String) (a : FixedBytes width) : fixedField badWidth width field a.bytes = .ok a := by
  simp [fixedField]

/-- Bytes of the right width are read as they are. -/
theorem fixedField_of_length {E : Type} (badWidth : String → Nat → Nat → E) {width : Nat}
    (field : String) {data : Bytes} (size : data.length = width) :
    fixedField badWidth width field data = .ok ⟨data, size⟩ :=
  fixedField_bytes badWidth field ⟨data, size⟩

/-- A field that was read as an array holds exactly its bytes. -/
theorem bytes_of_fixedField {E : Type} {badWidth : String → Nat → Nat → E} {width : Nat}
    {field : String} {data : Bytes} {a : FixedBytes width}
    (read : fixedField badWidth width field data = .ok a) : a.bytes = data := by
  -- A field is read only at its width, and then as it stands.
  unfold fixedField at read
  cases found : FixedBytes.ofBytes? width data with
  | none => simp [found] at read
  | some b =>
    simp only [found, Except.ok.injEq] at read
    subst read
    exact FixedBytes.bytes_of_ofBytes? found

/-- A field is read as an array exactly when it is the array's bytes. -/
theorem fixedField_eq_ok {E : Type} {badWidth : String → Nat → Nat → E} {width : Nat}
    {field : String} {data : Bytes} {a : FixedBytes width} :
    fixedField badWidth width field data = .ok a ↔ data = a.bytes := by
  -- Any field of the right width is read as it stands.
  constructor
  · intro read
    exact (bytes_of_fixedField read).symm
  · rintro rfl
    exact fixedField_bytes badWidth field a

/-- Encoding fails unless every field fits. -/
theorem fits_of_encodeFields {fields : List Bytes} {out : Bytes}
    (encoded : encodeFields fields = .ok out) : FieldsFit fields := by
  -- Induction over the fields, from any bytes written so far: a field that is too long stops the
  -- writer.
  have general : ∀ start, fields.foldlM pushField start = .ok out → FieldsFit fields := by
    clear encoded
    induction fields with
    | nil => intro _ _ f member; cases member
    | cons field rest ih =>
      intro start folded
      rw [List.foldlM_cons] at folded
      by_cases small : field.length ≤ maxField
      · rw [pushField_ok small] at folded
        intro f member
        rcases List.mem_cons.mp member with rfl | later
        · exact small
        · exact ih _ folded f later
      · simp [pushField, Nat.lt_of_not_le small, Bind.bind, Except.bind] at folded
  exact general [] encoded

/-- Fields are encoded where each of them fits, and to their framed forms. -/
theorem encodeFields_eq_ok {fields : List Bytes} {out : Bytes} :
    encodeFields fields = .ok out ↔ FieldsFit fields ∧ out = fields.flatMap framedField := by
  -- The writer fails only on a field that is too long.
  constructor
  · intro encoded
    have fits := fits_of_encodeFields encoded
    exact ⟨fits, Except.ok.inj (encoded.symm.trans (encodeFields_ok fits))⟩
  · rintro ⟨fits, rfl⟩
    exact encodeFields_ok fits

/-- Decoding reads back the field an encoding starts with, and what follows it. -/
theorem decodeField_framed {field : Bytes} (fits : field.length ≤ maxField) (rest : Bytes) :
    decodeField (framedField field ++ rest) = .ok (field, rest) := by
  -- The prefix is exactly four bytes wide, and holds the length of the field after it.
  have size : (natToLe lenPrefix field.length).length = lenPrefix := natToLe_length _ _
  have want : natOfLe (natToLe lenPrefix field.length) = field.length :=
    natOfLe_natToLe _ _ (by simp only [maxField, lenPrefix] at *; omega)
  unfold decodeField framedField
  rw [List.append_assoc, List.take_left' size, List.drop_left' size, want]
  simp only [List.length_append, size]
  rw [if_neg (by omega), if_neg (by omega), List.take_left' rfl, List.drop_left' rfl]

/-- Each field takes up at least the four bytes of its prefix. -/
theorem framedField_length (field : Bytes) :
    (framedField field).length = lenPrefix + field.length := by
  simp [framedField]

/-- With enough rounds, decoding returns exactly the fields that were written. -/
private theorem decodeFieldsUpTo_framed {fields : List Bytes} (fits : FieldsFit fields) :
    ∀ fuel, (fields.flatMap framedField).length ≤ fuel →
      decodeFieldsUpTo fuel (fields.flatMap framedField) = .ok fields := by
  -- Induction over the fields, with rounds enough for their bytes.
  induction fields with
  | nil => intro fuel _; cases fuel <;> rfl
  | cons field rest ih =>
    intro fuel enough
    simp only [List.flatMap_cons, List.length_append, framedField_length, lenPrefix] at enough
    -- The encoding is not empty, so a round is spent on its first field.
    obtain ⟨fuel, rfl⟩ : ∃ n, fuel = n + 1 := ⟨fuel - 1, by omega⟩
    obtain ⟨b, tail, shape⟩ : ∃ b tail, (field :: rest).flatMap framedField = b :: tail := by
      cases empty : (field :: rest).flatMap framedField with
      | nil =>
        have := congrArg List.length empty
        simp [framedField_length, lenPrefix] at this
      | cons b tail => exact ⟨b, tail, rfl⟩
    have first := decodeField_framed (fits field (by simp)) (rest.flatMap framedField)
    rw [← List.flatMap_cons, shape] at first
    rw [shape, decodeFieldsUpTo, first]
    · simp only [ih (fun f member => fits f (by simp [member])) fuel (by omega)]
    · intro empty
      cases empty

/-- Fields that fit decode from their own encoding. -/
theorem decodeFields_framed {fields : List Bytes} (fits : FieldsFit fields) :
    decodeFields (fields.flatMap framedField) = .ok fields :=
  decodeFieldsUpTo_framed fits _ (Nat.le_refl _)

/-- A decoded field and its remainder spell the input they came from. -/
theorem framed_of_decodeField {input field rest : Bytes}
    (decoded : decodeField input = .ok (field, rest)) :
    input = framedField field ++ rest ∧ field.length ≤ maxField := by
  -- Two checks, and behind them the field is cut off.
  unfold decodeField at decoded
  split at decoded
  · cases decoded
  · rename_i enough
    dsimp only at decoded
    split at decoded
    · cases decoded
    · rename_i holds
      simp only [Except.ok.injEq, Prod.mk.injEq] at decoded
      obtain ⟨rfl, rfl⟩ := decoded
      -- The announced length is the length of what was taken, and its bytes are the prefix itself.
      have width : (input.take lenPrefix).length = lenPrefix := by simp; omega
      have taken : ((input.drop lenPrefix).take (natOfLe (input.take lenPrefix))).length =
          natOfLe (input.take lenPrefix) := by simp at holds ⊢; omega
      have prefixBytes := natToLe_natOfLe (input.take lenPrefix)
      have bound := natOfLe_lt (input.take lenPrefix)
      rw [width] at prefixBytes bound
      refine ⟨?_, ?_⟩
      · rw [framedField, taken, prefixBytes, List.append_assoc, List.take_append_drop,
          List.take_append_drop]
      · rw [taken]
        simp only [lenPrefix, maxField] at *
        omega

/-- Whatever decodes is the framed form of the fields it decodes to. -/
private theorem framed_of_decodeFieldsUpTo (fuel : Nat) :
    ∀ {input : Bytes} {fields : List Bytes}, decodeFieldsUpTo fuel input = .ok fields →
      input = fields.flatMap framedField ∧ FieldsFit fields := by
  -- Induction over the fields that may still be read: each is taken off the front with its frame.
  induction fuel with
  | zero =>
    intro input fields decoded
    cases input with
    | nil =>
      cases decoded
      exact ⟨rfl, fun _ member => nomatch member⟩
    | cons => simp [decodeFieldsUpTo] at decoded
  | succ fuel ih =>
    intro input fields decoded
    cases input with
    | nil =>
      cases decoded
      exact ⟨rfl, fun _ member => nomatch member⟩
    | cons b tail =>
      rw [decodeFieldsUpTo] at decoded
      · cases first : decodeField (b :: tail) with
        | error e => simp [first] at decoded
        | ok pair =>
          obtain ⟨field, rest⟩ := pair
          cases later : decodeFieldsUpTo fuel rest with
          | error e => simp [first, later] at decoded
          | ok more =>
            simp only [first, later, Except.ok.injEq] at decoded
            subst decoded
            obtain ⟨whole, small⟩ := framed_of_decodeField first
            obtain ⟨restIs, fits⟩ := ih later
            refine ⟨by rw [whole, restIs, List.flatMap_cons], ?_⟩
            intro f member
            rcases List.mem_cons.mp member with rfl | member
            · exact small
            · exact fits f member
      · intro empty
        cases empty

/-- Decoding succeeds only on the encoding of the fields it returns. -/
theorem framed_of_decodeFields {input : Bytes} {fields : List Bytes}
    (decoded : decodeFields input = .ok fields) :
    input = fields.flatMap framedField ∧ FieldsFit fields :=
  framed_of_decodeFieldsUpTo _ decoded

/-- Different field sequences never share an encoding. -/
theorem framed_inj {a b : List Bytes} (fitsA : FieldsFit a) (fitsB : FieldsFit b)
    (same : a.flatMap framedField = b.flatMap framedField) : a = b := by
  have decodedA := decodeFields_framed fitsA
  rw [same, decodeFields_framed fitsB] at decodedA
  simpa using decodedA.symm

/-- Bytes of an encoding whose fields have some widths. -/
def framedLen (widths : List Nat) : Nat := (widths.map fun width => lenPrefix + width).sum

/-- The frames add the same to each field. -/
theorem length_flatMap_framedField (fields : List Bytes) :
    (fields.flatMap framedField).length = framedLen (fields.map List.length) := by
  -- Induction over the fields.
  induction fields with
  | nil => rfl
  | cons field rest ih =>
    rw [List.flatMap_cons, List.length_append, ih, framedField_length]
    rfl

/-- Fields of some widths are written at the length these add up to. -/
theorem encodeFields_width (fields : List Bytes) (widths : List Nat)
    (is : fields.map List.length = widths) (fits : ∀ width ∈ widths, width ≤ maxField) :
    ∃ bytes, encodeFields fields = .ok bytes ∧ bytes.length = framedLen widths := by
  have within : FieldsFit fields := fun field member => fits _ (is ▸ List.mem_map_of_mem member)
  exact ⟨_, encodeFields_ok within, by rw [length_flatMap_framedField, is]⟩

end NasTools
