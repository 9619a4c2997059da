import NasTools.Lib.Folders
import NasTools.Lib.Text

/-! Names of files made of hexadecimal texts and numbers, with dashes between them. -/

namespace NasTools.Text

/-- A text in which neither a dash nor a dot stands. -/
def Plain (text : String) : Prop := '-' ∉ text.toList ∧ '.' ∉ text.toList

/-- No hexadecimal digit is a dash or a dot. -/
theorem hexDigit_ne_mark {n : Nat} (below : n < 16) : hexDigit n ≠ '-' ∧ hexDigit n ≠ '.' := by
  revert below
  revert n
  decide

/-- Hexadecimal texts are plain. -/
theorem plain_hex (data : Bytes) : Plain (String.ofList (toHex data)) := by
  constructor <;> intro member <;> rw [String.toList_ofList] at member <;>
    obtain ⟨n, below, is⟩ := mem_toHex member
  · exact (hexDigit_ne_mark below).1 is.symm
  · exact (hexDigit_ne_mark below).2 is.symm

/-- A number is written in digits. -/
theorem isDigit_of_mem_number {n : Nat} {c : Char} (member : c ∈ (toString n).toList) :
    c.isDigit = true := by
  have listed : c ∈ Nat.toDigits 10 n := by simpa [toString, Nat.repr] using member
  exact Nat.isDigit_of_mem_toDigits (by omega) (by omega) listed

/-- Numbers are plain. -/
theorem plain_number (n : Nat) : Plain (toString n) :=
  ⟨fun member => absurd (isDigit_of_mem_number member) (by decide),
    fun member => absurd (isDigit_of_mem_number member) (by decide)⟩

/-- Different bytes have different hexadecimal texts. -/
theorem hex_injective {a b : Bytes}
    (same : String.ofList (toHex a) = String.ofList (toHex b)) : a = b := by
  have digits : toHex a = toHex b := by simpa using congrArg String.toList same
  have read := congrArg parseHexBytes digits
  rw [parseHexBytes_toHex, parseHexBytes_toHex] at read
  exact Option.some.inj read

/-- Different natural numbers are written differently. -/
theorem natural_injective {a b : Nat} (same : toString a = toString b) : a = b := by
  have digits : Nat.toDigits 10 a = Nat.toDigits 10 b := by
    simpa [toString, Nat.repr] using congrArg String.toList same
  rw [← Nat.ofDigitChars_ten_toDigits (n := a), digits, Nat.ofDigitChars_ten_toDigits]

/-- Different numbers are written differently. -/
theorem number_injective {a b : UInt64} (same : toString a.toNat = toString b.toNat) : a = b :=
  UInt64.toNat_inj.mp (natural_injective same)

/-- A dash after a plain text splits a name in one way. -/
theorem dash_split {a a' b b' : String} (plain : Plain a) (plain' : Plain a')
    (same : a ++ "-" ++ b = a' ++ "-" ++ b') : a = a' ∧ b = b' := by
  have chars : a.toList ++ '-' :: b.toList = a'.toList ++ '-' :: b'.toList := by
    simpa [String.toList_append] using congrArg String.toList same
  obtain ⟨first, second⟩ := Folders.around_inj plain.1 plain'.1 chars
  exact ⟨String.toList_injective first, String.toList_injective second⟩

/-- No dot comes in by joining texts without one. -/
theorem no_dot_dash {a b : String} (first : '.' ∉ a.toList) (second : '.' ∉ b.toList) :
    '.' ∉ (a ++ "-" ++ b).toList := by
  simp [String.toList_append, first, second]

/-- A text is as many bytes as its characters take. -/
theorem utf8ByteSize_ofList (chars : List Char) :
    (String.ofList chars).utf8ByteSize = (chars.map Char.utf8Size).sum := by
  -- Induction over the characters.
  induction chars with
  | nil => rfl
  | cons c rest ih =>
    rw [String.ofList_cons, String.utf8ByteSize_append, String.utf8ByteSize_singleton, ih,
      List.map_cons, List.sum_cons]

/-- A hexadecimal text is two bytes for each byte. -/
theorem utf8ByteSize_hex (data : Bytes) :
    (String.ofList (toHex data)).utf8ByteSize = 2 * data.length := by
  -- Every digit is one byte, and each byte of the data is written as two.
  have single : (toHex data).map Char.utf8Size = (toHex data).map fun _ => 1 := by
    apply List.map_congr_left
    intro c member
    obtain ⟨n, below, rfl⟩ := mem_toHex member
    exact (hexDigit_plain below).2.2
  rw [utf8ByteSize_ofList, single]
  simp

end NasTools.Text
