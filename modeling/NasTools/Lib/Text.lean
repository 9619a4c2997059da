import NasTools.Lib.Bytes

/-! Reading numbers, words and hexadecimal digits back from text. -/

namespace NasTools.Text

/-- The characters that separate words. -/
def isWhite (c : Char) : Bool :=
  c.toNat = 0x20 ∨ (0x09 ≤ c.toNat ∧ c.toNat ≤ 0x0d) ∨ c.toNat = 0x85 ∨ c.toNat = 0xa0 ∨
    c.toNat = 0x1680 ∨ (0x2000 ≤ c.toNat ∧ c.toNat ≤ 0x200a) ∨ c.toNat = 0x2028 ∨ c.toNat = 0x2029 ∨
    c.toNat = 0x202f ∨ c.toNat = 0x205f ∨ c.toNat = 0x3000

/-- The first word of a text, and what follows it. -/
def nextWord (text : List Char) : Option (List Char × List Char) :=
  let start := text.dropWhile isWhite
  if start = [] then none
  else some (start.takeWhile (!isWhite ·), start.dropWhile (!isWhite ·))

/-- A text parted at the first separator. -/
def splitOnce (sep : Char) : List Char → Option (List Char × List Char)
  | [] => none
  | c :: rest => if c = sep then some ([], rest) else (splitOnce sep rest).map fun parts =>
    (c :: parts.1, parts.2)

/-- A text parted at the first place where another text stands in it. -/
def splitAround (sep : List Char) : List Char → Option (List Char × List Char)
  | [] => none
  | c :: rest =>
    match (c :: rest).dropPrefix? sep with
    | some after => some ([], after)
    | none => (splitAround sep rest).map fun parts => (c :: parts.1, parts.2)

/--
A text with another one replaced wherever it stands, from left to right, after so
many characters of it.
-/
def replaceAfter (old new : List Char) : (skip : Nat) → List Char → List Char
  | _, [] => []
  | skip + 1, _ :: rest => replaceAfter old new skip rest
  | 0, c :: rest =>
    if old.isPrefixOf (c :: rest) then new ++ replaceAfter old new (old.length - 1) rest
    else c :: replaceAfter old new 0 rest

/-- The lines of a text, and whether each one was ended. -/
def cutLines : List Char → List (List Char × Bool)
  | [] => []
  | c :: rest =>
    if c = '\n' then ([], true) :: cutLines rest
    else
      match cutLines rest with
      | [] => [([c], false)]
      | (line, ended) :: more => (c :: line, ended) :: more

/-- The lines of a text; a carriage return in front of a line's end belongs to that end. -/
def lines (text : List Char) : List (List Char) :=
  (cutLines text).map fun (line, ended) =>
    if ended && line.getLast? == some '\r' then line.dropLast else line

/-- A text without the white space around it. -/
def trim (text : List Char) : List Char := (text.dropWhile isWhite).rdropWhile isWhite

/-- The words of a text. -/
def words (text : List Char) : List (List Char) := (text.splitOnP isWhite).filter (· ≠ [])

/-- The value of a digit character. -/
def decimalDigit (c : Char) : Option Nat := if c.isDigit then some (c.toNat - '0'.toNat) else none

/-- The value of a hexadecimal digit of either case. -/
def hexadecimalDigit (c : Char) : Option Nat :=
  if c.isDigit then some (c.toNat - '0'.toNat)
  else if 'a' ≤ c ∧ c ≤ 'f' then some (c.toNat - 'a'.toNat + 10)
  else if 'A' ≤ c ∧ c ≤ 'F' then some (c.toNat - 'A'.toNat + 10)
  else none

/-- A text without the plus sign it may start with. -/
def dropPlus : List Char → List Char
  | '+' :: rest => rest
  | text => text

/-- A number below a bound: a plus or none, and then one digit at least. -/
def parseUnsigned (digit : Char → Option Nat) (radix bound : Nat) (text : List Char) :
    Option Nat := do
  guard (dropPlus text ≠ [])
  let n ← (dropPlus text).foldlM (fun sofar c => (digit c).map (radix * sofar + ·)) 0
  guard (n < bound)
  return n

/-- A 64-bit number. -/
def parseU64 (text : List Char) : Option UInt64 :=
  (parseUnsigned decimalDigit 10 (2 ^ 64) text).map UInt64.ofNat

/-- A byte, in hexadecimal. -/
def parseHexByte (text : List Char) : Option UInt8 :=
  (parseUnsigned hexadecimalDigit 16 (2 ^ 8) text).map UInt8.ofNat

/-- Bytes, two characters each. -/
def parseHexBytes : List Char → Option Bytes
  | [] => some []
  | [_] => none
  | high :: low :: rest => do
    let byte ← parseHexByte [high, low]
    let bytes ← parseHexBytes rest
    return byte :: bytes

/-- Text that has no white space in it. -/
def Solid (word : List Char) : Prop := ∀ c ∈ word, isWhite c = false

/-- A word ends where its text ends, or where white space starts. -/
theorem nextWord_append {word rest : List Char} (solid : Solid word) (some_ : word ≠ [])
    (after : ∀ c, rest.head? = some c → isWhite c = true) :
    nextWord (word ++ rest) = some (word, rest) := by
  -- The word is what is solid in front.
  obtain ⟨c, tail, rfl⟩ := List.exists_cons_of_ne_nil some_
  have first : isWhite c = false := solid c (by simp)
  -- The text starts with the word, so nothing is dropped in front of it.
  have start : (c :: tail ++ rest).dropWhile isWhite = c :: tail ++ rest := by
    simp [first]
  have inside : ∀ d ∈ c :: tail, (!isWhite d) = true := by
    intro d member
    simp [solid d member]
  have stop : rest.takeWhile (!isWhite ·) = [] ∧ rest.dropWhile (!isWhite ·) = rest := by
    cases rest with
    | nil => exact ⟨rfl, rfl⟩
    | cons d others => simp [after d rfl]
  unfold nextWord
  rw [start]
  simp only [List.cons_append, reduceCtorEq, if_false]
  rw [← List.cons_append, List.takeWhile_append_of_pos inside, List.dropWhile_append_of_pos inside,
    stop.1, stop.2, List.append_nil]

/-- The words of a text that starts with a word. -/
theorem words_append {word rest : List Char} {c : Char} (solid : Solid word) (some_ : word ≠ [])
    (white : isWhite c = true) : words (word ++ c :: rest) = word :: words rest := by
  rw [words, List.splitOnP_append_cons _ _ white, List.splitOnP_eq_singleton solid,
    List.singleton_append, List.filter_cons_of_pos (by simpa using some_), words]

/-- One word is all the words of itself. -/
theorem words_single {word : List Char} (solid : Solid word) (some_ : word ≠ []) :
    words word = [word] := by
  rw [words, List.splitOnP_eq_singleton solid, List.filter_cons_of_pos (by simpa using some_),
    List.filter_nil]

/-- White space in front of a text is no part of it once trimmed. -/
theorem trim_cons_white {c : Char} (white : isWhite c = true) (text : List Char) :
    trim (c :: text) = trim text := by
  rw [trim, trim, List.dropWhile_cons_of_pos white]

/-- A text that neither starts nor ends with white space is left as it is. -/
theorem trim_eq_self {text : List Char} (front : ∀ c, text.head? = some c → isWhite c = false)
    (back : ∀ c, text.getLast? = some c → isWhite c = false) : trim text = text := by
  -- Neither end has white space to drop.
  have start : text.dropWhile isWhite = text := by
    cases text with
    | nil => rfl
    | cons c rest => exact List.dropWhile_cons_of_neg (by simp [front c rfl])
  rw [trim, start, List.rdropWhile_eq_self_iff]
  intro some_
  simp [back _ (List.getLast?_eq_some_getLast some_)]

/-- Without white space there is nothing to trim. -/
theorem trim_solid {word : List Char} (solid : Solid word) : trim word = word := by
  -- Both ends are letters of the word.
  refine trim_eq_self ?_ ?_
  · intro c first
    exact solid c (List.mem_of_mem_head? first)
  · intro c last
    exact solid c (List.mem_of_getLast? last)

/-- A text is parted at a separator that has none in front of it. -/
theorem splitOnce_append {sep : Char} {front rest : List Char} (first : sep ∉ front) :
    splitOnce sep (front ++ sep :: rest) = some (front, rest) := by
  -- Induction over the front, none of which is the separator.
  induction front with
  | nil => simp [splitOnce]
  | cons c front ih =>
    simp only [List.mem_cons, not_or] at first
    rw [List.cons_append, splitOnce, if_neg (Ne.symm first.1), ih first.2]
    rfl

/-- Where a text is parted at a separator, and what stands on both sides of it. -/
theorem splitOnce_eq_some {sep : Char} {text front rest : List Char} :
    splitOnce sep text = some (front, rest) ↔ text = front ++ sep :: rest ∧ sep ∉ front := by
  -- From left to right the text is split at the first separator; from right to left nothing in
  -- front is one.
  constructor
  · intro parted
    induction text generalizing front with
    | nil => cases parted
    | cons c text ih =>
      rw [splitOnce] at parted
      split at parted
      · rename_i here
        obtain ⟨rfl, rfl⟩ : [] = front ∧ text = rest := by simpa using parted
        exact ⟨by rw [here]; rfl, List.not_mem_nil⟩
      · rename_i other
        obtain ⟨⟨front', rest'⟩, later, is⟩ := Option.map_eq_some_iff.mp parted
        obtain ⟨rfl, rfl⟩ := Prod.mk.inj is
        obtain ⟨rfl, free⟩ := ih later
        exact ⟨rfl, by simp [Ne.symm other, free]⟩
  · rintro ⟨rfl, free⟩
    exact splitOnce_append free

/-- A text that is not parted does not have the separator. -/
theorem splitOnce_eq_none {sep : Char} {text : List Char} :
    splitOnce sep text = none ↔ sep ∉ text := by
  -- Induction over the text: the separator is not here and not later.
  induction text with
  | nil => simp [splitOnce]
  | cons c text ih =>
    rw [splitOnce]
    split
    · rename_i here
      simp [here]
    · rename_i other
      simp [ih, Ne.symm other]

/-- Where the first separators stand, two texts are parted alike. -/
theorem append_separator_inj {sep : Char} {a b x y : List Char} (freeA : sep ∉ a) (freeB : sep ∉ b)
    (same : a ++ sep :: x = b ++ sep :: y) : a = b ∧ x = y := by
  have parted : splitOnce sep (a ++ sep :: x) = some (a, x) := splitOnce_append freeA
  rw [same, splitOnce_append freeB, Option.some.injEq, Prod.mk.injEq] at parted
  exact ⟨parted.1.symm, parted.2.symm⟩

/-- Two texts that are the same have the same last lines, where these are of one length. -/
theorem last_line_inj {a b x y : List Char} (width : x.length = y.length)
    (same : a ++ '\n' :: x = b ++ '\n' :: y) :
    x = y := by
  have lengths : ('\n' :: x).length = ('\n' :: y).length := congrArg (· + 1) width
  exact (List.cons.inj (List.append_inj_right' same lengths)).2

/-- A character that is in none of the pieces and no separator is not in what they are joined to. -/
theorem not_mem_intercalate {sep c : Char} {pieces : List (List Char)} (other : c ≠ sep)
    (free : ∀ piece ∈ pieces, c ∉ piece) : c ∉ [sep].intercalate pieces := by
  -- A character between the pieces is the separator, and the others are in a piece.
  induction pieces with
  | nil => simp
  | cons first rest ih =>
    have here := free first (by simp)
    have later := ih fun piece member => free piece (by simp [member])
    cases rest with
    | nil => simpa using here
    | cons second rest =>
      rw [List.intercalate_cons_cons]
      simp [here, other, later]

/-- No part of a list has what the list was parted at, and each has only what the list has. -/
theorem of_mem_splitOn {A : Type} [BEq A] [LawfulBEq A] {sep : A} {items part : List A}
    (member : part ∈ items.splitOn sep) : sep ∉ part ∧ ∀ a ∈ part, a ∈ items := by
  -- Induction over the items: a separator opens a new part, and any other item joins the first
  -- one.
  induction items generalizing part with
  | nil =>
    obtain rfl : part = [] := by simpa [List.splitOn_nil] using member
    simp
  | cons a rest ih =>
    rw [List.splitOn_cons_eq_if_modifyHead] at member
    split at member
    · rcases List.mem_cons.mp member with rfl | later
      · simp
      · obtain ⟨free, inside⟩ := ih later
        exact ⟨free, fun b here => List.mem_cons_of_mem _ (inside b here)⟩
    · -- What is no separator goes to the front of the first part of the rest.
      rename_i other
      obtain ⟨first, more, parts⟩ := List.exists_cons_of_ne_nil (List.splitOn_ne_nil sep rest)
      rw [parts, List.modifyHead_cons] at member
      have later : part ∈ more → sep ∉ part ∧ ∀ b ∈ part, b ∈ a :: rest := by
        intro here
        obtain ⟨free, inside⟩ := ih (parts ▸ List.mem_cons_of_mem _ here)
        exact ⟨free, fun b is => List.mem_cons_of_mem _ (inside b is)⟩
      rcases List.mem_cons.mp member with rfl | here
      · obtain ⟨free, inside⟩ := ih (parts ▸ List.mem_cons_self)
        simp only [beq_iff_eq] at other
        refine ⟨by simp [Ne.symm other, free], ?_⟩
        intro b is
        rcases List.mem_cons.mp is with rfl | is
        · exact List.mem_cons_self
        · exact List.mem_cons_of_mem _ (inside b is)
      · exact later here

/-- Whether a text can stand on a line of its own and be read back from it. -/
def OneLine (line : List Char) : Prop := '\n' ∉ line ∧ line.getLast? ≠ some '\r'

/-- A text is cut behind its first line end. -/
theorem cutLines_append {line rest : List Char} (whole : '\n' ∉ line) :
    cutLines (line ++ '\n' :: rest) = (line, true) :: cutLines rest := by
  -- Induction over the line, none of which ends it.
  induction line with
  | nil => rfl
  | cons c line ih =>
    simp only [List.mem_cons, not_or] at whole
    rw [List.cons_append, cutLines, if_neg (Ne.symm whole.1), ih whole.2]

/-- Lines that are written one after the other are read back. -/
theorem lines_flatMap {texts : List (List Char)} (each : ∀ line ∈ texts, OneLine line) :
    lines (texts.flatMap (· ++ ['\n'])) = texts := by
  -- Each line ends where its line end was put, and has no carriage return to lose.
  induction texts with
  | nil => rfl
  | cons line texts ih =>
    obtain ⟨whole, plain⟩ := each line (by simp)
    have here : cutLines ((line :: texts).flatMap (· ++ ['\n'])) =
        (line, true) :: cutLines (texts.flatMap (· ++ ['\n'])) := by
      rw [List.flatMap_cons, List.append_assoc, List.singleton_append, cutLines_append whole]
    have rest := ih fun other member => each other (by simp [member])
    rw [lines] at rest
    rw [lines, here, List.map_cons, rest]
    simp [plain]

/-- White space in front of a word does not count. -/
theorem nextWord_cons_white {c : Char} {text : List Char} (white : isWhite c = true) :
    nextWord (c :: text) = nextWord text := by
  unfold nextWord
  rw [List.dropWhile_cons_of_pos white]

/-- No visible character of the basic alphabet is white space. -/
theorem isWhite_of_visible {c : Char} (low : 0x21 ≤ c.toNat) (high : c.toNat ≤ 0x7e) :
    isWhite c = false := by
  simp only [isWhite, decide_eq_false_iff_not]
  omega

/-- A number in digits has no white space in it. -/
theorem solid_toDigits (n : Nat) : Solid (Nat.toDigits 10 n) := by
  -- A digit is a visible character.
  intro c member
  have digit : c.isDigit = true := Nat.isDigit_of_mem_toDigits (by omega) (by omega) member
  simp only [Char.isDigit, Bool.and_eq_true, decide_eq_true_eq, ge_iff_le, UInt32.le_iff_toNat_le]
    at digit
  have low : 0x30 ≤ c.toNat := digit.1
  have high : c.toNat ≤ 0x39 := digit.2
  exact isWhite_of_visible (by omega) (by omega)

/-- A text without plus signs is left alone. -/
theorem dropPlus_of_not_mem {text : List Char} (none_ : '+' ∉ text) : dropPlus text = text := by
  unfold dropPlus
  split
  · simp at none_
  · rfl

/-- Digits are read as the number they stand for. -/
theorem foldlM_decimalDigit {digits : List Char} (all : ∀ c ∈ digits, c.isDigit = true)
    (sofar : Nat) :
    digits.foldlM (fun sofar c => (decimalDigit c).map (10 * sofar + ·)) sofar =
      some (Nat.ofDigitChars 10 digits sofar) := by
  -- Induction over the digits, with the number read so far kept general.
  induction digits generalizing sofar with
  | nil => rfl
  | cons c rest ih =>
    have here : c.isDigit = true := all c (by simp)
    rw [Nat.ofDigitChars_cons, List.foldlM_cons, ← ih fun d member => all d (by simp [member])]
    simp [decimalDigit, here]

/-- A number written in digits reads back. -/
theorem parseUnsigned_toDigits {n bound : Nat} (below : n < bound) :
    parseUnsigned decimalDigit 10 bound (Nat.toDigits 10 n) = some n := by
  -- The digits are read back one by one, and the number is below the bound.
  have digits : ∀ c ∈ Nat.toDigits 10 n, c.isDigit = true := fun c member =>
    Nat.isDigit_of_mem_toDigits (by omega) (by omega) member
  -- A digit is no plus sign, so nothing is taken off the front.
  have unsigned : dropPlus (Nat.toDigits 10 n) = Nat.toDigits 10 n := by
    apply dropPlus_of_not_mem
    intro plus
    simpa using digits '+' plus
  simp only [parseUnsigned]
  rw [unsigned, foldlM_decimalDigit digits 0, Nat.ofDigitChars_ten_toDigits]
  simp [Nat.toDigits_ne_nil, below, guard]

/-- A 64-bit number written in digits reads back. -/
theorem parseU64_toDigits {n : Nat} (below : n < 2 ^ 64) :
    parseU64 (Nat.toDigits 10 n) = some (UInt64.ofNat n) := by
  rw [parseU64, parseUnsigned_toDigits below]
  rfl

/-- Cutting digits off the end of a number divides it. -/
theorem take_toDigits {n : Nat} {cut : Nat} (short : cut < (Nat.toDigits 10 n).length) :
    (Nat.toDigits 10 n).take ((Nat.toDigits 10 n).length - cut) =
      Nat.toDigits 10 (n / 10 ^ cut) := by
  -- One digit at a time, the last one first.
  induction cut generalizing n with
  | zero => simp
  | succ cut ih =>
    have large : 10 ≤ n := by
      apply Nat.le_of_not_lt
      intro small
      rw [Nat.toDigits_of_lt_base small] at short
      simp at short
    rw [Nat.toDigits_of_base_le (by omega) large] at short ⊢
    simp only [List.length_append, List.length_singleton] at short ⊢
    have shorter : (Nat.toDigits 10 (n / 10)).length + 1 - (cut + 1) =
        (Nat.toDigits 10 (n / 10)).length - cut := by omega
    rw [shorter, List.take_append_of_le_length (by omega), ih (by omega), Nat.div_div_eq_div_mul,
      Nat.pow_succ, Nat.mul_comm]

/-- Each digit that is written reads back. -/
theorem hexadecimalDigit_hexDigit {n : Nat} (below : n < 16) :
    hexadecimalDigit (hexDigit n) = some n := by
  revert below
  revert n
  decide

/-- No hexadecimal digit is white space or a plus sign, and each takes one byte. -/
theorem hexDigit_plain {n : Nat} (below : n < 16) :
    isWhite (hexDigit n) = false ∧ hexDigit n ≠ '+' ∧ (hexDigit n).utf8Size = 1 := by
  revert below
  revert n
  decide

/-- Two hexadecimal digits read back as their byte. -/
theorem parseHexByte_hexDigits (b : UInt8) :
    parseHexByte [hexDigit (b.toNat / 16), hexDigit (b.toNat % 16)] = some b := by
  -- The two digits are read back and put together again.
  have bound := b.toNat_lt
  have high : b.toNat / 16 < 16 := by omega
  have low : b.toNat % 16 < 16 := by omega
  have unsigned : dropPlus [hexDigit (b.toNat / 16), hexDigit (b.toNat % 16)] =
      [hexDigit (b.toNat / 16), hexDigit (b.toNat % 16)] := by
    apply dropPlus_of_not_mem
    simp [(hexDigit_plain high).2.1.symm, (hexDigit_plain low).2.1.symm]
  have whole : 16 * (b.toNat / 16) + b.toNat % 16 = b.toNat := by omega
  simp only [parseHexByte, parseUnsigned]
  rw [unsigned]
  simp [hexadecimalDigit_hexDigit high, hexadecimalDigit_hexDigit low, whole, bound, guard]

/-- Bytes in hexadecimal read back. -/
theorem parseHexBytes_toHex (data : Bytes) : parseHexBytes (toHex data) = some data := by
  -- Induction over the bytes, each of which takes two digits.
  induction data with
  | nil => rfl
  | cons b rest ih =>
    have unfolded : toHex (b :: rest) = hexDigit (b.toNat / 16) :: hexDigit (b.toNat % 16) ::
      toHex rest := rfl
    rw [unfolded, parseHexBytes, parseHexByte_hexDigits, ih]
    rfl

/-- Two digits for each byte. -/
@[simp] theorem toHex_length (data : Bytes) : (toHex data).length = 2 * data.length := by
  -- Induction over the bytes, each of which takes two digits.
  induction data with
  | nil => rfl
  | cons b rest ih =>
    have unfolded : (toHex (b :: rest)).length = (toHex rest).length + 2 := rfl
    rw [unfolded, ih, List.length_cons]
    omega

/-- Every character of a hexadecimal text is one of the sixteen digits. -/
theorem mem_toHex {data : Bytes} {c : Char} (member : c ∈ toHex data) :
    ∃ n, n < 16 ∧ c = hexDigit n := by
  -- Every character is the upper or the lower half of a byte.
  simp only [toHex, List.mem_flatMap, List.mem_cons, List.not_mem_nil, or_false] at member
  obtain ⟨b, _, is⟩ := member
  have bound := b.toNat_lt
  rcases is with rfl | rfl
  · exact ⟨b.toNat / 16, by omega, rfl⟩
  · exact ⟨b.toNat % 16, by omega, rfl⟩

/-- Hexadecimal digits are no white space. -/
theorem solid_toHex (data : Bytes) : Solid (toHex data) := by
  intro c member
  obtain ⟨n, below, rfl⟩ := mem_toHex member
  exact (hexDigit_plain below).1

/-- The case of a digit does not count. -/
theorem hexadecimalDigit_toLower (c : Char) : hexadecimalDigit c.toLower = hexadecimalDigit c := by
  -- Only a capital changes.
  by_cases upper : 'A' ≤ c ∧ c ≤ 'Z'
  · -- There are twenty-six capitals, which are looked at one by one.
    have low : 65 ≤ c.toNat := upper.1
    have high : c.toNat ≤ 90 := upper.2
    have each : ∀ n ≤ 90, hexadecimalDigit (Char.ofNat n).toLower =
      hexadecimalDigit (Char.ofNat n) := by decide
    simpa [Char.ofNat_toNat] using each c.toNat high
  · have same : c.toLower = c := by
      unfold Char.toLower
      rw [dif_neg]
      intro capital
      exact upper ⟨capital.1, capital.2⟩
    rw [same]

/-- A letter takes one byte in either case. -/
theorem utf8Size_toLower (c : Char) : c.toLower.utf8Size = c.utf8Size := by
  -- Only a capital changes, and it stays one byte.
  by_cases upper : c.isUpper = true
  · have high : c.toNat ≤ 90 := by
      simp only [Char.isUpper, decide_eq_true_eq] at upper
      exact upper.2
    have each : ∀ n ≤ 90, (Char.ofNat n).toLower.utf8Size = (Char.ofNat n).utf8Size := by decide
    simpa only [Char.ofNat_toNat] using each c.toNat high
  · rw [Char.toLower_eq_of_not_isUpper upper]

/-- Lower case neither makes nor removes a plus sign. -/
theorem toLower_eq_plus {c : Char} : c.toLower = '+' ↔ c = '+' := by
  -- No capital becomes the sign, which is looked up among the first ninety characters.
  constructor
  · intro is
    unfold Char.toLower at is
    split at is
    · rename_i capital
      have low : 65 ≤ c.toNat := capital.1
      have high : c.toNat ≤ 90 := capital.2
      have each : ∀ n ≤ 90, 65 ≤ n → (Char.ofNat n).toLower ≠ '+' := by decide
      refine absurd ?_ (each c.toNat high low)
      rw [Char.ofNat_toNat, Char.toLower, dif_pos capital]
      exact is
    · exact is
  · rintro rfl
    rfl

/-- No letter is made into a line end, and a line end is made into nothing else. -/
theorem toUpper_eq_lineEnd {c : Char} : c.toUpper = '\n' ↔ c = '\n' := by
  -- No small letter becomes a line end, which is looked up among the first characters.
  constructor
  · intro is
    unfold Char.toUpper at is
    split at is
    · rename_i small
      have low : 97 ≤ c.toNat := small.1
      have high : c.toNat ≤ 122 := small.2
      have each : ∀ n ≤ 122, 97 ≤ n → (Char.ofNat n).toUpper ≠ '\n' := by decide
      refine absurd ?_ (each c.toNat high low)
      rw [Char.ofNat_toNat, Char.toUpper, dif_pos small]
      exact is
    · exact is
  · rintro rfl
    rfl

/-- The case of the digits of a byte does not count. -/
theorem parseHexByte_toLower (text : List Char) :
    parseHexByte (text.map Char.toLower) = parseHexByte text := by
  -- A sign in front stays one, and each digit has the same value in either case.
  have unsigned : dropPlus (text.map Char.toLower) = (dropPlus text).map Char.toLower := by
    cases text with
    | nil => rfl
    | cons c rest =>
      by_cases plus : c = '+'
      · subst plus
        rfl
      · have other : c.toLower ≠ '+' := fun is => plus (toLower_eq_plus.mp is)
        unfold dropPlus
        split
        · rename_i is
          exact absurd (List.cons.inj is).1 other
        · split
          · rename_i is
            exact absurd (List.cons.inj is).1 plus
          · rfl
  simp only [parseHexByte, parseUnsigned]
  rw [unsigned, List.foldlM_map]
  simp only [hexadecimalDigit_toLower, ne_eq, List.map_eq_nil_iff]

/-- The case of the digits of some bytes does not count. -/
theorem parseHexBytes_toLower (text : List Char) :
    parseHexBytes (text.map Char.toLower) = parseHexBytes text := by
  -- Induction over the pairs of digits.
  induction text using parseHexBytes.induct with
  | case1 => rfl
  | case2 c => rfl
  | case3 high low rest ih =>
    have here := parseHexByte_toLower [high, low]
    simp only [List.map_cons, List.map_nil] at here ⊢
    rw [parseHexBytes, parseHexBytes, here, ih]

/-- Two characters are read for each byte. -/
theorem length_of_parseHexBytes {text : List Char} {data : Bytes}
    (read : parseHexBytes text = some data) :
    text.length = 2 * data.length := by
  -- Induction over the pairs of digits, each of which gives one byte.
  induction text using parseHexBytes.induct generalizing data with
  | case1 =>
    obtain rfl : [] = data := by simpa [parseHexBytes] using read
    rfl
  | case2 c => simp [parseHexBytes] at read
  | case3 high low rest ih =>
    simp only [parseHexBytes, Option.bind_eq_bind, Option.bind_eq_some_iff, Option.pure_def,
      Option.some.injEq] at read
    obtain ⟨byte, _, bytes, later, rfl⟩ := read
    have size := ih later
    simp only [List.length_cons]
    omega

end NasTools.Text
