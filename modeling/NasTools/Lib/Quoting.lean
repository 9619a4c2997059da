import NasTools.Lib.Text

/-!
Quoting of byte strings in the manner of C: a line of plain characters that tells the bytes apart.
-/

namespace NasTools.Quoting

/-- Whether a byte is written in an escaped form. -/
def needsEscape (b : UInt8) : Bool := b < 0x20 || b == 0x22 || b == 0x5c || 0x7f ≤ b

/-- The letter of a byte's short escape, where it has one. -/
def escapeLetter (b : UInt8) : Option Char :=
  match b.toNat with
  | 0x07 => some 'a'
  | 0x08 => some 'b'
  | 0x09 => some 't'
  | 0x0a => some 'n'
  | 0x0b => some 'v'
  | 0x0c => some 'f'
  | 0x0d => some 'r'
  | 0x22 => some '"'
  | 0x5c => some '\\'
  | _ => none

/-- Three octal digits. -/
def octal (n : Nat) : List Char := [hexDigit (n / 64), hexDigit (n / 8 % 8), hexDigit (n % 8)]

/-- A byte as it stands between quotes. -/
def quotedByte (b : UInt8) : List Char :=
  if needsEscape b then
    match escapeLetter b with
    | some letter => ['\\', letter]
    | none => '\\' :: octal b.toNat
  else [Char.ofNat b.toNat]

/-- Bytes as they stand between quotes. -/
def quotedBytes (data : Bytes) : List Char := data.flatMap quotedByte

/-- Bytes as a line of text: as they are where nothing needs an escape, between quotes elsewhere. -/
def quote (data : Bytes) : List Char :=
  if data.any needsEscape then '"' :: quotedBytes data ++ ['"'] else quotedBytes data

/-- How many characters the first byte takes. -/
def quotedWidth (text : List Char) : Nat :=
  if text.head? ≠ some '\\' then 1 else if (text.getD 1 ' ').isDigit then 4 else 2

/-- The number that three octal digits write. -/
def octalValue (digits : List Char) : Nat :=
  digits.foldl (fun n digit => 8 * n + (digit.toNat - '0'.toNat)) 0

/-- The byte that one quoted byte stands for. -/
def unquotedByte (text : List Char) : Option UInt8 :=
  match text with
  | [plain] => some (UInt8.ofNat plain.toNat)
  | [_, letter] => [0x07, 0x08, 0x09, 0x0a, 0x0b, 0x0c, 0x0d, 0x22, 0x5c].find? fun b =>
    escapeLetter b == some letter
  | _ => some (UInt8.ofNat (octalValue text.tail))

/-- A statement about all bytes is checked one by one. -/
theorem forall_byte {P : UInt8 → Prop} (each : ∀ n < 256, P (UInt8.ofNat n)) (b : UInt8) : P b := by
  have this := each b.toNat b.toNat_lt
  rwa [UInt8.ofNat_toNat] at this

/--
What is to be known of each byte: how it is read back, where it ends, and which
characters it is written in.
-/
theorem byte_table (b : UInt8) :
    unquotedByte (quotedByte b) = some b ∧
      (0 < (quotedByte b).length ∧
        ((quotedByte b).head? ≠ some '\\' ∧ (quotedByte b).length = 1 ∨
          (quotedByte b).head? = some '\\' ∧ 2 ≤ (quotedByte b).length ∧
            quotedWidth (quotedByte b) = (quotedByte b).length)) ∧
      (needsEscape b = false → (quotedByte b).head? ≠ some '"') ∧
      (quotedByte b).all (fun c => ' ' ≤ c && c ≤ '~') = true := by
  revert b
  -- Checked for all 256 bytes.
  apply forall_byte
  decide +kernel

/-- No byte is written as nothing. -/
theorem quotedByte_ne_nil (b : UInt8) : quotedByte b ≠ [] :=
  List.ne_nil_of_length_pos (byte_table b).2.1.1

/-- Two bytes are never written alike. -/
theorem quotedByte_injective {a b : UInt8} (same : quotedByte a = quotedByte b) : a = b := by
  have read (c : UInt8) := (byte_table c).1
  have both := congrArg unquotedByte same
  rw [read a, read b] at both
  exact Option.some.inj both

/-- Where a quoted byte ends shows in its first two characters. -/
theorem quotedWidth_append (b : UInt8) (rest : List Char) :
    quotedWidth (quotedByte b ++ rest) = (quotedByte b).length := by
  -- One character tells a plain byte; for an escape the second one tells a letter from a digit.
  obtain ⟨positive, ⟨plain, one⟩ | ⟨escaped, two, width⟩⟩ := (byte_table b).2.1
  · rw [one, quotedWidth, List.head?_append_of_ne_nil _ (List.ne_nil_of_length_pos positive),
      if_pos plain]
  · rw [← width, quotedWidth, quotedWidth,
      List.head?_append_of_ne_nil _ (List.ne_nil_of_length_pos positive),
      List.getD_append _ _ _ _ (by omega)]

/-- Different bytes are quoted differently. -/
theorem quotedBytes_injective {a b : Bytes} (same : quotedBytes a = quotedBytes b) : a = b := by
  -- Induction over the bytes, the first of which is read off.
  have filled := quotedByte_ne_nil
  -- The first byte of each ends at the same place, so it is the same byte.
  induction a generalizing b with
  | nil =>
    cases b with
    | nil => rfl
    | cons y b => simp [quotedBytes, filled y] at same
  | cons x a ih =>
    cases b with
    | nil => simp [quotedBytes, filled x] at same
    | cons y b =>
      simp only [quotedBytes, List.flatMap_cons] at same
      have width := congrArg quotedWidth same
      rw [quotedWidth_append, quotedWidth_append] at width
      obtain ⟨first, rest⟩ := List.append_inj same width
      rw [quotedByte_injective first, ih rest]

/-- No unescaped byte is a quotation mark, so a quoted text starts like no other. -/
theorem quotedBytes_head {data : Bytes} (plain : data.any needsEscape = false) :
    (quotedBytes data).head? ≠ some '"' := by
  -- The first byte is written as itself, and a quotation mark is not.
  have mark (b : UInt8) (stands : needsEscape b = false) :=
    And.intro ((byte_table b).2.2.1 stands) (quotedByte_ne_nil b)
  cases data with
  | nil => simp [quotedBytes]
  | cons b rest =>
    simp only [List.any_cons, Bool.or_eq_false_iff] at plain
    obtain ⟨different, filled⟩ := mark b plain.1
    rw [quotedBytes, List.flatMap_cons, List.head?_append_of_ne_nil _ filled]
    exact different

/-- Different bytes are different lines. -/
theorem quote_injective {a b : Bytes} (same : quote a = quote b) : a = b := by
  -- A quoted text starts with a mark and a plain one does not, so two equal results were written
  -- alike.
  unfold quote at same
  split at same <;> split at same
  · exact quotedBytes_injective (List.append_cancel_right (List.cons_injective same))
  · rename_i _ plain
    exact (quotedBytes_head (by simpa using plain) (by rw [← same]; rfl)).elim
  · rename_i plain _
    exact (quotedBytes_head (by simpa using plain) (by rw [same]; rfl)).elim
  · exact quotedBytes_injective same

/-- Every character of the line is a visible one or a blank. -/
theorem visible_of_mem_quote {data : Bytes} {c : Char} (member : c ∈ quote data) :
    0x20 ≤ c.toNat ∧ c.toNat ≤ 0x7e := by
  -- Either the path is printed as it stands, or with quotes.
  have visible (b : UInt8) := (byte_table b).2.2.2
  have inside : ∀ c ∈ quotedBytes data, 0x20 ≤ c.toNat ∧ c.toNat ≤ 0x7e := by
    intro c within
    obtain ⟨b, _, here⟩ := List.mem_flatMap.mp within
    have shown := List.all_eq_true.mp (visible b) c here
    simp only [Bool.and_eq_true, decide_eq_true_eq] at shown
    exact ⟨shown.1, shown.2⟩
  unfold quote at member
  split at member
  · simp only [List.cons_append, List.mem_cons, List.mem_append, List.not_mem_nil, or_false]
      at member
    rcases member with rfl | within | rfl
    · decide
    · exact inside c within
    · decide
  · exact inside c member

-- A path outside the basic alphabet is printed in octal, between quotes.
example : quote [0x61, 0x2f, 0xc3, 0xa9] = "\"a/\\303\\251\"".toList := by decide

end NasTools.Quoting
