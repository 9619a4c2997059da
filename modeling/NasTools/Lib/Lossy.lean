import Mathlib

/-! Bytes read as text where some of them are not text: ill-formed parts become U+FFFD. -/

namespace NasTools

/-- What stands for bytes that spell no character. -/
def replacementChar : Char := Char.ofNat 0xFFFD

/--
How many bytes a character has, as its first byte announces; zero for a byte that starts none.
-/
def utf8CharWidth (first : UInt8) : Nat :=
  if first < 0x80 then 1
  else if 0xC2 ≤ first ∧ first ≤ 0xDF then 2
  else if 0xE0 ≤ first ∧ first ≤ 0xEF then 3
  else if 0xF0 ≤ first ∧ first ≤ 0xF4 then 4
  else 0

/-- Whether a second byte can follow the first of three or four. -/
def secondByteFits (first second : UInt8) : Bool :=
  if first = 0xE0 then 0xA0 ≤ second && second ≤ 0xBF
  else if first = 0xED then 0x80 ≤ second && second ≤ 0x9F
  else if first = 0xF0 then 0x90 ≤ second && second ≤ 0xBF
  else if first = 0xF4 then 0x80 ≤ second && second ≤ 0x8F
  else 0x80 ≤ second && second ≤ 0xBF

/--
How many bytes one replacement character stands for, where no character can be read.

These are the bytes that could still have begun one: the first, and what fits after it.
-/
def illFormedLength (first : UInt8) (rest : List UInt8) : Nat :=
  if 3 ≤ utf8CharWidth first ∧ secondByteFits first (rest.headD 0) then
    let third := (rest.drop 1).headD 0
    if utf8CharWidth first = 4 ∧ 0x80 ≤ third ∧ third ≤ 0xBF then 3 else 2
  else 1

/-- The text of some bytes, after so many bytes that were read already. -/
def lossyAfter : (skip : Nat) → List UInt8 → List Char
  | _, [] => []
  | skip + 1, _ :: rest => lossyAfter skip rest
  | 0, first :: rest =>
    match ByteArray.utf8DecodeChar? (first :: rest).toByteArray 0 with
    | some c => c :: lossyAfter (c.utf8Size - 1) rest
    | none => replacementChar :: lossyAfter (illFormedLength first rest - 1) rest

/-- The text of some bytes, as `String::from_utf8_lossy` reads it. -/
def fromUtf8Lossy (bytes : List UInt8) : List Char := lossyAfter 0 bytes

/-- Bytes that were read already are passed over. -/
theorem lossyAfter_append (read rest : List UInt8) :
    lossyAfter read.length (read ++ rest) = fromUtf8Lossy rest := by
  induction read with
  | nil => rfl
  | cons first read ih => exact ih

/-- A character in front of any bytes reads as itself. -/
theorem fromUtf8Lossy_char (c : Char) (rest : List UInt8) :
    fromUtf8Lossy (String.utf8EncodeChar c ++ rest) = c :: fromUtf8Lossy rest := by
  -- The first character is decoded, and its other bytes are skipped.
  have length : (String.utf8EncodeChar c).length = c.utf8Size := String.length_utf8EncodeChar c
  have positive := c.utf8Size_pos
  have decoded :
      ByteArray.utf8DecodeChar? (String.utf8EncodeChar c ++ rest).toByteArray 0 = some c := by
    rw [List.toByteArray_append]
    exact ByteArray.utf8DecodeChar?_utf8EncodeChar_append
  cases encoded : String.utf8EncodeChar c with
  | nil =>
    rw [encoded, List.length_nil] at length
    omega
  | cons first more =>
    rw [encoded] at decoded length
    -- The rest of the character's bytes is what is passed over.
    have left : c.utf8Size - 1 = more.length := by
      rw [← length]
      rfl
    show lossyAfter 0 (first :: (more ++ rest)) = _
    rw [List.cons_append] at decoded
    rw [lossyAfter, decoded]
    dsimp only
    rw [left, lossyAfter_append]

/-- Characters in front of any bytes read as themselves. -/
theorem fromUtf8Lossy_chars (chars : List Char) (rest : List UInt8) :
    fromUtf8Lossy (chars.flatMap String.utf8EncodeChar ++ rest) = chars ++ fromUtf8Lossy rest := by
  -- Each character is decoded whole, whatever bytes follow it.
  induction chars with
  | nil => rfl
  | cons c more ih =>
    rw [List.flatMap_cons, List.append_assoc, fromUtf8Lossy_char, ih]
    rfl

/-- Text in front of any bytes reads as itself. -/
theorem fromUtf8Lossy_append (text : String) (rest : List UInt8) :
    fromUtf8Lossy (text.toUTF8.data.toList ++ rest) = text.toList ++ fromUtf8Lossy rest := by
  -- The bytes of a text are the encodings of its characters, one after another.
  have bytes : text.toUTF8.data.toList = text.toList.flatMap String.utf8EncodeChar := by
    have same : text.toUTF8 = text.toList.utf8Encode := String.utf8Encode_toList.symm
    rw [same, List.utf8Encode]
    simp
  rw [bytes, fromUtf8Lossy_chars]

/-- Text reads as itself. -/
theorem fromUtf8Lossy_text (text : String) :
    fromUtf8Lossy text.toUTF8.data.toList = text.toList := by
  have whole := fromUtf8Lossy_append text []
  simpa [fromUtf8Lossy, lossyAfter] using whole

/-- Bytes that are read without a replacement are the bytes of what is read. -/
theorem utf8_fromUtf8Lossy {bytes : List UInt8} (whole : replacementChar ∉ fromUtf8Lossy bytes) :
    (fromUtf8Lossy bytes).flatMap String.utf8EncodeChar = bytes := by
  -- One character after the other is taken off the front.
  match bytes with
  | [] => rfl
  | first :: rest =>
    cases decoded : ByteArray.utf8DecodeChar? (first :: rest).toByteArray 0 with
    | none =>
      refine absurd ?_ whole
      show replacementChar ∈ lossyAfter 0 (first :: rest)
      rw [lossyAfter, decoded]
      exact List.mem_cons_self
    | some c =>
      obtain ⟨more, split⟩ := ByteArray.exists_of_utf8DecodeChar?_eq_some decoded
      have spelled : first :: rest = String.utf8EncodeChar c ++ more.data.toList := by
        have lists := congrArg (fun b => b.data.toList) split
        simpa using lists
      have positive := c.utf8Size_pos
      have shorter : more.size ≤ rest.length := by
        have lengths := congrArg List.length spelled
        simp only [List.length_cons, List.length_append, String.length_utf8EncodeChar,
          Array.length_toList] at lengths
        have size : more.size = more.data.size := rfl
        omega
      rw [spelled, fromUtf8Lossy_char] at whole ⊢
      rw [List.flatMap_cons, utf8_fromUtf8Lossy fun member => whole (List.mem_cons_of_mem _ member)]
termination_by bytes.length

-- Three bytes that could have begun a character of four are replaced together.
example : fromUtf8Lossy [0x61, 0xF0, 0x90, 0x80, 0x62, 0xFF] =
    ['a', replacementChar, 'b', replacementChar] := by decide

/-- The bytes of a text. -/
def textBytes (text : List Char) : List UInt8 := text.flatMap String.utf8EncodeChar

/-- The bytes of two texts in a row are those of the one and then the other. -/
@[simp] theorem textBytes_append (a b : List Char) :
    textBytes (a ++ b) = textBytes a ++ textBytes b := List.flatMap_append

/-- A text is read back from its bytes. -/
theorem fromUtf8Lossy_textBytes (text : List Char) : fromUtf8Lossy (textBytes text) = text := by
  have whole := fromUtf8Lossy_chars text []
  simpa [textBytes, fromUtf8Lossy, lossyAfter] using whole

/-- Different texts have different bytes. -/
theorem textBytes_injective : Function.Injective textBytes := by
  intro a b same
  rw [← fromUtf8Lossy_textBytes a, same, fromUtf8Lossy_textBytes b]

/-- A text is in front of another one where its bytes are in front of the other's. -/
theorem textBytes_prefix_iff {a b : List Char} : textBytes a <+: textBytes b ↔ a <+: b := by
  -- Both ways the bytes are those of the text and of what is behind it.
  constructor
  · rintro ⟨more, is⟩
    -- What is behind the bytes of the text is read on its own.
    refine ⟨fromUtf8Lossy more, ?_⟩
    rw [← fromUtf8Lossy_textBytes b, ← is, textBytes, fromUtf8Lossy_chars]
  · rintro ⟨more, rfl⟩
    rw [textBytes_append]
    exact List.prefix_append _ _

end NasTools
