import NasTools.Lib.Canonical
import NasTools.Model.Core.Encoding

/-! Decoding with every cut and index explicit: on no input does one of them panic. -/

namespace NasTools

namespace Checked

/-- Decode one field, cutting where the source cuts. -/
def decodeField (input : Bytes) : Checked DecodeError (Bytes × Bytes) := do
  lift (ensure (lenPrefix ≤ input.length) .truncated)
  let (announced, rest) ← splitAt input lenPrefix
  -- A number is read from exactly four bytes, and from no other count of them.
  let four ← expect (FixedBytes.ofBytes? lenPrefix announced)
  let want := natOfLe four.bytes
  lift (ensure (want ≤ rest.length) (.lengthOverrun want rest.length))
  splitAt rest want

/-- Decode fields until the input is used up; rounds that run out never came to an end. -/
def decodeFieldsUpTo : Nat → Bytes → Checked DecodeError (List Bytes)
  | _, [] => pure []
  | 0, _ :: _ => panics
  | fuel + 1, input => do
    let (field, rest) ← decodeField input
    let more ← decodeFieldsUpTo fuel rest
    return field :: more

/-- Decode a complete field sequence. -/
def decodeFields (input : Bytes) : Checked DecodeError (List Bytes) :=
  decodeFieldsUpTo input.length input

/-- No cut of a field lies outside the input. -/
theorem decodeField_eq (input : Bytes) : decodeField input = lift (NasTools.decodeField input) := by
  -- The checks in front of the index are those that make it safe.
  unfold decodeField NasTools.decodeField
  by_cases short : input.length < lenPrefix
  · rw [ensure_of_not (by omega), if_pos short]
    rfl
  -- Past the first check the prefix is exactly four bytes wide.
  have enough : lenPrefix ≤ input.length := by omega
  have four : FixedBytes.ofBytes? lenPrefix (input.take lenPrefix) =
      some ⟨input.take lenPrefix, by simp; omega⟩ := by
    simp [FixedBytes.ofBytes?, enough]
  rw [ensure_of enough, if_neg short, splitAt_of_le enough]
  simp only [lift_ok_bind, four, expect_some]
  by_cases overrun : (input.drop lenPrefix).length < natOfLe (input.take lenPrefix)
  · rw [ensure_of_not (by omega), if_pos overrun]
    rfl
  · rw [ensure_of (by omega), if_neg overrun, lift_ok_bind, splitAt_of_le (by omega)]

/-- With a round for each byte, every input comes to an end. -/
private theorem decodeFieldsUpTo_eq (fuel : Nat) :
    ∀ input : Bytes, input.length ≤ fuel →
      decodeFieldsUpTo fuel input = lift (NasTools.decodeFieldsUpTo fuel input) := by
  -- Induction over the rounds.
  induction fuel with
  | zero =>
    intro input enough
    obtain rfl : input = [] := List.length_eq_zero_iff.mp (by omega)
    rfl
  | succ fuel ih =>
    intro input enough
    cases input with
    | nil => rfl
    | cons b tail =>
      rw [decodeFieldsUpTo, NasTools.decodeFieldsUpTo, decodeField_eq]
      · cases first : NasTools.decodeField (b :: tail) with
        | error e => rfl
        | ok pair =>
          obtain ⟨field, rest⟩ := pair
          -- A field takes its own prefix off the input, so fewer bytes are left than rounds.
          obtain ⟨whole, _⟩ := framed_of_decodeField first
          have shorter := congrArg List.length whole
          simp only [List.length_append, framedField_length, lenPrefix, List.length_cons]
            at shorter enough
          simp only [lift_ok_bind, ih rest (by omega)]
          cases NasTools.decodeFieldsUpTo fuel rest <;> rfl
      · intro impossible
        cases impossible
      · intro impossible
        cases impossible

/-- Decoding a field sequence never panics and always ends. -/
theorem decodeFields_eq (input : Bytes) : decodeFields input = lift (NasTools.decodeFields input) :=
  decodeFieldsUpTo_eq _ input (Nat.le_refl _)

section

variable {E A : Type} {wrap : DecodeError → E} {count : Nat} {refused : List Bytes → E}
  {read : List Bytes → Checked E A}

/-- A record of so many fields is read without a panic, when it is on every list of so many. -/
theorem total_of_fields (each : ∀ f : List Bytes, f.length = count → (read f).Total)
    (bytes : Bytes) :
    Total (do
      let f ← (decodeFields bytes).mapError wrap
      lift (ensure (f.length = count) (refused f))
      read f) := by
  -- Each step is total, so the row of them is.
  rw [decodeFields_eq, mapError_lift]
  refine total_bind (total_lift _) fun f _ => ?_
  refine total_bind (total_lift _) fun _ counted => ?_
  -- Past the count, the indices are into a list of that length.
  rw [lift_inj, ensure_eq_ok] at counted
  exact each f counted

/-- What a record of so many fields is read from. -/
theorem of_fields_eq_ok {bytes : Bytes} {a : A} :
    (do
      let f ← (decodeFields bytes).mapError wrap
      lift (ensure (f.length = count) (refused f))
      read f) = lift (.ok a) ↔
      ∃ f, NasTools.decodeFields bytes = .ok f ∧ f.length = count ∧ read f = lift (.ok a) := by
  -- Each stage of the reader succeeds, and the count is the one asked for.
  simp only [decodeFields_eq, mapError_lift, bind_eq_ok, lift_inj, except_mapError_eq_ok,
    ensure_eq_ok]
  constructor
  · rintro ⟨f, split, _, counted, decoded⟩
    exact ⟨f, split, counted, decoded⟩
  · rintro ⟨f, split, counted, decoded⟩
    exact ⟨f, split, (), counted, decoded⟩

end

end Checked

/-- The fields that were read spell the input again. -/
theorem encodeFields_of_decodeFields {input : Bytes} {fields : List Bytes}
    (decoded : decodeFields input = .ok fields) : encodeFields fields = .ok input := by
  obtain ⟨rfl, fits⟩ := framed_of_decodeFields decoded
  exact encodeFields_ok fits

/-- What encodes is read back as the fields it was made of. -/
theorem decodeFields_of_encodeFields {output : Bytes} {fields : List Bytes}
    (encoded : encodeFields fields = .ok output) : decodeFields output = .ok fields := by
  have fits := fits_of_encodeFields encoded
  rw [encodeFields_ok fits, Except.ok.injEq] at encoded
  subst encoded
  exact decodeFields_framed fits

/-- Different fields never share an encoding. -/
theorem encodeFields_inj {a b : List Bytes} {bytes : Bytes} (first : encodeFields a = .ok bytes)
    (second : encodeFields b = .ok bytes) : a = b :=
  Except.ok.inj ((decodeFields_of_encodeFields first).symm.trans
    (decodeFields_of_encodeFields second))

/--
The lists of fields that encode and the strings that decode are in bijection.

The reader comes to an end without a panic on every string, and two lists of fields
never share a string.
-/
theorem fields_and_strings_correspond :
    (∀ fields bytes, encodeFields fields = .ok bytes →
      Checked.decodeFields bytes = Checked.lift (.ok fields)) ∧
    (∀ bytes, (Checked.decodeFields bytes).Total) ∧
    (∀ bytes fields, Checked.decodeFields bytes = Checked.lift (.ok fields) →
      encodeFields fields = .ok bytes) ∧
    ∀ a b bytes, encodeFields a = .ok bytes → encodeFields b = .ok bytes → a = b := by
  -- The checked reader never panics and agrees with the plain one.
  refine ⟨?_, ?_, ?_, fun a b bytes => encodeFields_inj⟩
  · intro fields bytes encoded
    rw [Checked.decodeFields_eq, decodeFields_of_encodeFields encoded]
  · intro bytes
    exact ⟨_, Checked.decodeFields_eq bytes⟩
  · intro bytes fields decoded
    rw [Checked.decodeFields_eq, Checked.lift_inj] at decoded
    exact encodeFields_of_decodeFields decoded

/-- The one byte of a field that is one byte wide. -/
theorem item_oneByte {E : Type} (a : FixedBytes 1) :
    (Checked.item a.bytes 0 : Checked E UInt8) = Checked.lift (.ok (a.bytes.headD 0)) := by
  obtain ⟨bytes, size⟩ := a
  obtain ⟨b, rfl⟩ := List.length_eq_one_iff.mp size
  rfl

/-- A field that is one byte wide is spelled by that byte. -/
theorem oneByte_spelled (a : FixedBytes 1) : [a.bytes.headD 0] = a.bytes := by
  obtain ⟨bytes, size⟩ := a
  obtain ⟨b, rfl⟩ := List.length_eq_one_iff.mp size
  rfl

/-- A field read as a 64-bit integer is spelled by that integer. -/
theorem u64Le_u64OfLe_fixed (a : FixedBytes 8) : u64Le (u64OfLe a.bytes) = a.bytes :=
  u64Le_u64OfLe a.size

/-- A field read as a 32-bit integer is spelled by that integer. -/
theorem natToLe_natOfLe_fixed (a : FixedBytes 4) :
    natToLe 4 (UInt32.ofNat (natOfLe a.bytes)).toNat = a.bytes := by
  have spelled := natToLe_natOfLe a.bytes
  have bound := natOfLe_lt a.bytes
  rw [a.size] at spelled bound
  rwa [UInt32.toNat_ofNat', Nat.mod_eq_of_lt (show _ < 2 ^ 32 from bound)]

end NasTools
