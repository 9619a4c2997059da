import NasTools.Lib.Lossy
import NasTools.Lib.Quoting
import NasTools.Lib.Text
import NasTools.Lib.Utf8

/-! Percent escapes: a text spelled with plain characters, byte by byte, and read back. -/

namespace NasTools.Percent

/--
The byte that two hexadecimal digits after a percent sign spell, where both are
characters of one byte.
-/
def pairByte (high low : UInt8) : Option UInt8 :=
  if high < 0x80 ∧ low < 0x80 then Text.parseHexByte [Char.ofNat high.toNat, Char.ofNat low.toNat]
    else none

/-- Bytes with their escapes read; a percent sign that starts none stands for itself. -/
def decodeBytes : Bytes → Bytes
  | [] => []
  | b :: rest =>
    if b = 0x25 then
      match rest with
      | high :: low :: more =>
        match pairByte high low with
        | some byte => byte :: decodeBytes more
        -- Reading goes on right behind the percent sign, so an escape may start in what follows.
        | none => b :: decodeBytes (high :: low :: more)
      -- At the end of the input there is no room for two digits.
      | [last] => [b, last]
      | [] => [b]
    else b :: decodeBytes rest

/-- A text with its escapes read; bytes that spell no character become replacement characters. -/
def decode (text : List Char) : List Char := fromUtf8Lossy (decodeBytes (textBytes text))

/-- The escape of a byte, in upper-case digits. -/
def escapeByte (b : UInt8) : List Char := '%' :: (toHex [b]).map Char.toUpper

/-- A byte as it is spelled where some bytes are kept. -/
def spellByte (keep : UInt8 → Bool) (b : UInt8) : List Char :=
  if keep b then [Char.ofNat b.toNat] else escapeByte b

/-- A text spelled with the bytes that are kept and the escapes of all others. -/
def spell (keep : UInt8 → Bool) (text : List Char) : List Char :=
  (textBytes text).flatMap (spellByte keep)

/-- Bytes that can stand for themselves: one byte each, and no percent sign. -/
def Plain (keep : UInt8 → Bool) : Prop := ∀ b, keep b = true → b < 0x80 ∧ b ≠ 0x25

/-- The characters escapes are made of. -/
def escapeAlphabet : List Char := "%0123456789ABCDEF".toList

/-- A byte that is no percent sign is read as it is. -/
theorem decodeBytes_cons {b : UInt8} (plain : b ≠ 0x25) (rest : Bytes) :
    decodeBytes (b :: rest) = b :: decodeBytes rest := by
  conv_lhs => unfold decodeBytes
  rw [if_neg plain]

/--
What is to be known of each byte: its escape, the character of its number, and that a
slash is no digit beside it.
-/
theorem byte_table (b : UInt8) :
    textBytes (escapeByte b) = [0x25, (textBytes (escapeByte b)).getD 1 0,
      (textBytes (escapeByte b)).getD 2 0] ∧
      pairByte ((textBytes (escapeByte b)).getD 1 0) ((textBytes (escapeByte b)).getD 2 0) =
        some b ∧
      (escapeByte b).all escapeAlphabet.contains = true ∧
        (b < 0x80 → textBytes [Char.ofNat b.toNat] = [b]) ∧
      pairByte b 0x2f = none ∧ pairByte 0x2f b = none := by
  revert b
  -- Checked for all 256 bytes.
  apply Quoting.forall_byte
  decide +kernel

/-- An escape is a percent sign and two digits, which spell the byte. -/
theorem textBytes_escapeByte (b : UInt8) :
    ∃ high low, textBytes (escapeByte b) = [0x25, high, low] ∧ pairByte high low = some b := by
  obtain ⟨spelled, read, _⟩ := byte_table b
  exact ⟨_, _, spelled, read⟩

/-- An escape in front of any bytes is read as its byte. -/
theorem decodeBytes_escapeByte (b : UInt8) (rest : Bytes) :
    decodeBytes (textBytes (escapeByte b) ++ rest) = b :: decodeBytes rest := by
  -- An escape is a percent sign and two digits.
  obtain ⟨high, low, spelled, read⟩ := textBytes_escapeByte b
  rw [spelled, List.cons_append, List.cons_append, List.cons_append, List.nil_append]
  -- Both digits are there, so the first branch of the reader is taken.
  conv_lhs => unfold decodeBytes
  simp only [if_true, read]

section

variable {keep : UInt8 → Bool} (plain : Plain keep)
include plain

/-- A byte that is spelled is read back, in front of any bytes. -/
theorem decodeBytes_spellByte (b : UInt8) (rest : Bytes) :
    decodeBytes (textBytes (spellByte keep b) ++ rest) = b :: decodeBytes rest := by
  -- A byte is kept or escaped.
  unfold spellByte
  split
  · rename_i kept
    obtain ⟨small, other⟩ := plain b kept
    -- Below 0x80 a character and its one byte are the same number.
    obtain ⟨_, _, _, one, _⟩ := byte_table b
    rw [one small, List.singleton_append, decodeBytes_cons other]
  · -- A byte that is not kept is spelled by its escape.
    exact decodeBytes_escapeByte b rest

/-- Bytes that are spelled one after the other are read back. -/
theorem decodeBytes_spellBytes (data : Bytes) :
    decodeBytes (textBytes (data.flatMap (spellByte keep))) = data := by
  induction data with
  | nil => rfl
  | cons b rest ih => rw [List.flatMap_cons, textBytes_append, decodeBytes_spellByte plain, ih]

/-- A text is read back from its spelling. -/
theorem decode_spell (text : List Char) : decode (spell keep text) = text := by
  rw [decode, spell, decodeBytes_spellBytes plain, fromUtf8Lossy_textBytes]

/-- Different texts are spelled differently. -/
theorem spell_injective {a b : List Char} (same : spell keep a = spell keep b) : a = b := by
  rw [← decode_spell plain a, same, decode_spell plain]

end

/-- A character that is neither kept nor part of an escape stands in no spelling. -/
theorem not_mem_spell {keep : UInt8 → Bool} {c : Char}
    (kept : ∀ b, keep b = true → Char.ofNat b.toNat ≠ c) (other : c ∉ escapeAlphabet)
    (text : List Char) : c ∉ spell keep text := by
  -- Every escape is made of the percent sign and upper-case digits.
  have letters (b : UInt8) := (byte_table b).2.2.1
  intro member
  obtain ⟨b, _, here⟩ := List.mem_flatMap.mp member
  unfold spellByte at here
  split at here
  · rename_i stands
    exact kept b stands (List.mem_singleton.mp here).symm
  · exact other (List.contains_iff_mem.mp (List.all_eq_true.mp (letters b) c here))

/-- With nothing kept, a spelling is empty or starts with a percent sign. -/
theorem head_spell_none (text : List Char) :
    ∀ c ∈ (spell (fun _ => false) text).head?, c = '%' := by
  -- With every byte escaped, a spelling starts with the sign of an escape.
  unfold spell
  cases textBytes text with
  | nil =>
    intro c member
    cases member
  | cons b rest =>
    intro c member
    rw [List.flatMap_cons, spellByte, if_neg Bool.false_ne_true, escapeByte, List.cons_append,
      List.head?_cons] at member
    exact (Option.some.inj member).symm

/-- Nothing but the empty text is read as the empty text. -/
theorem decode_eq_nil {text : List Char} : decode text = [] ↔ text = [] := by
  -- Only the empty text has no bytes.
  constructor
  · intro empty
    cases text with
    | nil => rfl
    | cons c rest =>
      exfalso
      -- A character has a first byte, a first byte is never read away, and what is left
      -- of it reads as something.
      obtain ⟨first, more, bytes⟩ : ∃ first more, textBytes (c :: rest) = first :: more := by
        apply List.exists_cons_of_ne_nil
        intro none_
        have length := congrArg List.length none_
        rw [textBytes, List.flatMap_cons, List.length_append, String.length_utf8EncodeChar,
          List.length_nil] at length
        have positive := c.utf8Size_pos
        omega
      obtain ⟨first', more', read⟩ : ∃ first' more', decodeBytes (first :: more) =
        first' :: more' := by
        unfold decodeBytes
        split
        · split
          · split
            · exact ⟨_, _, rfl⟩
            · exact ⟨_, _, rfl⟩
          · exact ⟨_, _, rfl⟩
          · exact ⟨_, _, rfl⟩
        · exact ⟨_, _, rfl⟩
      rw [decode, bytes, read, fromUtf8Lossy, lossyAfter] at empty
      split at empty
      · cases empty
      · cases empty
  · rintro rfl
    rfl

/-- How many bytes are characters of their own. -/
def smallBytes (data : Bytes) : Nat := data.countP (· < 0x80)

/-- A byte counts if it is below 0x80. -/
theorem smallBytes_cons (b : UInt8) (rest : Bytes) :
    smallBytes (b :: rest) = smallBytes rest + if b < 0x80 then 1 else 0 := by
  simp [smallBytes, List.countP_cons]

/-- Small bytes are counted part by part. -/
theorem smallBytes_append (a b : Bytes) : smallBytes (a ++ b) = smallBytes a + smallBytes b :=
  List.countP_append

/-- Digits that spell a byte are characters of their own. -/
theorem small_of_pairByte {high low b : UInt8} (read : pairByte high low = some b) :
    high < 0x80 ∧ low < 0x80 := by
  unfold pairByte at read
  split at read
  · assumption
  · cases read

/-- Reading escapes changes nothing, or takes characters away. -/
theorem decodeBytes_eq_or_lt (data : Bytes) :
    decodeBytes data = data ∨ smallBytes (decodeBytes data) < smallBytes data := by
  -- Along the reader's own cases.
  fun_induction decodeBytes data with
  | case1 => exact .inl rfl
  | case2 high low more byte read ih =>
    -- Three characters become one at most.
    obtain ⟨first, second⟩ := small_of_pairByte read
    right
    have later : smallBytes (decodeBytes more) ≤ smallBytes more := by
      rcases ih with same | less
      · rw [same]
      · exact less.le
    simp only [smallBytes_cons, if_pos first, if_pos second]
    split <;> simp <;> omega
  | case3 high low more read ih =>
    rcases ih with same | less
    · exact .inl (by rw [same])
    · right
      simp only [smallBytes_cons] at less ⊢
      omega
  | case4 => exact .inl rfl
  | case5 => exact .inl rfl
  | case6 b rest other ih =>
    rcases ih with same | less
    · exact .inl (by rw [same])
    · right
      simp only [smallBytes_cons] at less ⊢
      omega

/-- An escape does not reach beyond a slash. -/
theorem decodeBytes_append_slash (a b : Bytes) :
    decodeBytes (a ++ 0x2f :: b) = decodeBytes a ++ 0x2f :: decodeBytes b := by
  -- Along the reader's own cases: no escape reaches over a slash.
  have none_ (x : UInt8) := (byte_table x).2.2.2.2
  have slash : decodeBytes (0x2f :: b) = 0x2f :: decodeBytes b := decodeBytes_cons (by decide) b
  -- A slash is no digit, so a percent sign in front of it stands for itself.
  have percent : decodeBytes (0x25 :: 0x2f :: b) = 0x25 :: 0x2f :: decodeBytes b := by
    cases b with
    | nil => rfl
    | cons x more =>
      conv_lhs => unfold decodeBytes
      simp only [if_true, (none_ x).2, slash]
  fun_induction decodeBytes a with
  | case1 => exact slash
  | case2 high low more byte read ih =>
    simp only [List.cons_append] at ih ⊢
    conv_lhs => unfold decodeBytes
    simp only [if_true, read, ih]
  | case3 high low more read ih =>
    simp only [List.cons_append] at ih ⊢
    conv_lhs => unfold decodeBytes
    simp only [if_true, read, ih]
  | case4 last =>
    simp only [List.cons_append, List.nil_append]
    conv_lhs => unfold decodeBytes
    simp only [if_true, (none_ last).1]
    by_cases again : last = 0x25
    · rw [again, percent]
    · rw [decodeBytes_cons again, slash]
  | case5 => exact percent
  | case6 first rest other ih => rw [List.cons_append, decodeBytes_cons other, ih, List.cons_append]

/-- Bytes that spell no character are read as none that is small. -/
theorem smallBytes_lossy (skip : Nat) (bytes : Bytes) :
    smallBytes (textBytes (lossyAfter skip bytes)) ≤ smallBytes bytes := by
  -- Induction over the bytes, some of which are skipped.
  induction bytes generalizing skip with
  | nil => cases skip <;> exact Nat.le_refl _
  | cons first rest ih =>
    cases skip with
    | succ skip =>
      rw [lossyAfter, smallBytes_cons]
      exact Nat.le_add_right_of_le (ih skip)
    | zero =>
      rw [lossyAfter]
      split
      · rename_i c decoded
        -- The first byte is that of the character, and no other byte of it is small.
        obtain ⟨more, whole⟩ := ByteArray.exists_of_utf8DecodeChar?_eq_some decoded
        have spelled : first :: rest = String.utf8EncodeChar c ++ more.data.toList := by
          have lists := congrArg (fun b => b.data.toList) whole
          simpa using lists
        obtain ⟨b, bs, is, leads, follow, _⟩ := Utf8.encodeChar_shape c
        rw [is, List.cons_append] at spelled
        obtain ⟨rfl, _⟩ := List.cons.inj spelled
        have none_ : smallBytes bs = 0 := by
          rw [smallBytes, List.countP_eq_zero]
          intro x member small
          rw [decide_eq_true_eq, UInt8.lt_iff_toNat_lt] at small
          exact follow x member (.inl small)
        have later := ih (c.utf8Size - 1)
        rw [textBytes, List.flatMap_cons, ← textBytes, is, List.cons_append, smallBytes_cons,
          smallBytes_append, none_, smallBytes_cons]
        omega
      · -- A replacement character has three bytes, none of them small.
        have later := ih (illFormedLength first rest - 1)
        have none_ : smallBytes (String.utf8EncodeChar replacementChar) = 0 := by decide
        rw [textBytes, List.flatMap_cons, ← textBytes, smallBytes_append, none_, smallBytes_cons]
        omega

/-- A text has no escape exactly when it is read as itself. -/
theorem decode_eq_self {text : List Char} :
    decode text = text ↔ decodeBytes (textBytes text) = textBytes text := by
  -- Decoding either leaves the bytes as they are or makes fewer of them small.
  constructor
  · intro same
    rcases decodeBytes_eq_or_lt (textBytes text) with plain | less
    · exact plain
    · -- An escape would take small characters away for good.
      have read := smallBytes_lossy 0 (decodeBytes (textBytes text))
      rw [show lossyAfter 0 (decodeBytes (textBytes text)) = text from same] at read
      omega
  · intro plain
    rw [decode, plain, fromUtf8Lossy_textBytes]

/-- Texts are spelled one after the other. -/
theorem spell_append (keep : UInt8 → Bool) (a b : List Char) :
    spell keep (a ++ b) = spell keep a ++ spell keep b := by
  rw [spell, textBytes_append, List.flatMap_append, ← spell, ← spell]

-- A percent sign with one digit after it, or with a letter that is none, stands for itself.
example : decode "a%41%2b%4%zz%4".toList = "aA+%4%zz%4".toList := by decide +kernel

end NasTools.Percent
