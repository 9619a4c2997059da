import NasTools.Lib.Percent

/-! Base64: three bytes as four characters out of 64, and a reader of them that lets much pass. -/

namespace NasTools.Base64

/-- The characters by their values. -/
def alphabet : List Char :=
  "ABCDEFGHIJKLMNOPQRSTUVWXYZabcdefghijklmnopqrstuvwxyz0123456789+/".toList

/-- The character of six bits. -/
def symbol (bits : Nat) : Char := alphabet.getD bits '='

/-- Three bytes as one number. -/
def group (b0 b1 b2 : UInt8) : Nat := b0.toNat <<< 16 ||| b1.toNat <<< 8 ||| b2.toNat

/-- Bytes in characters, with equality signs where there are no bytes for the last ones. -/
def encode : Bytes → List Char
  | [] => []
  | [b0] =>
    let n := group b0 0 0
    [symbol (n >>> 18 &&& 63), symbol (n >>> 12 &&& 63), '=', '=']
  | [b0, b1] =>
    let n := group b0 b1 0
    [symbol (n >>> 18 &&& 63), symbol (n >>> 12 &&& 63), symbol (n >>> 6 &&& 63), '=']
  | b0 :: b1 :: b2 :: rest =>
    let n := group b0 b1 b2
    symbol (n >>> 18 &&& 63) :: symbol (n >>> 12 &&& 63) :: symbol (n >>> 6 &&& 63) ::
      symbol (n &&& 63) :: encode rest

/-- The value of a character, by its byte. -/
def valueOf (c : UInt8) : Option UInt8 :=
  if 0x41 ≤ c ∧ c ≤ 0x5a then some (c - 0x41)
  else if 0x61 ≤ c ∧ c ≤ 0x7a then some (c - 0x61 + 26)
  else if 0x30 ≤ c ∧ c ≤ 0x39 then some (c - 0x30 + 52)
  else if c = 0x2b then some 62
  else if c = 0x2f then some 63
  else none

/--
The value of one of the last two characters of four; an equality sign has none, and counts as zero.
-/
def padded (c : UInt8) : Option UInt8 := if c = 0x3d then some 0 else valueOf c

/-- Read four characters at a time; an equality sign takes away the byte that ends with it. -/
def decodeGroups : Bytes → Option Bytes
  | [] => some []
  | c0 :: c1 :: c2 :: c3 :: rest => do
    let v0 ← valueOf c0
    let v1 ← valueOf c1
    let v2 ← padded c2
    let v3 ← padded c3
    let more ← decodeGroups rest
    -- Equality signs are taken anywhere, and bits that no byte takes up are thrown away.
    return (v0 <<< 2 ||| v1 >>> 4) :: ((if c2 = 0x3d then [] else [v1 <<< 4 ||| v2 >>> 2]) ++
      (if c3 = 0x3d then [] else [v2 <<< 6 ||| v3]) ++ more)
  | _ => none

/-- Read a text, with any blanks around it. -/
def decode (text : List Char) : Option Bytes :=
  let raw := textBytes (Text.trim text)
  if raw.length % 4 = 0 then decodeGroups raw else none

/--
What is to be known of each character: its one byte, the value that is read of it,
and that it is no blank.
-/
theorem symbol_table {bits : Nat} (small : bits < 64) :
    textBytes [symbol bits] = [UInt8.ofNat (symbol bits).toNat] ∧
      UInt8.ofNat (symbol bits).toNat ≠ 0x3d ∧
      valueOf (UInt8.ofNat (symbol bits).toNat) = some (UInt8.ofNat bits) ∧
        Text.isWhite (symbol bits) = false := by
  revert small
  revert bits
  decide +kernel

/-- The byte a character is. -/
def byteOf (bits : Nat) : UInt8 := UInt8.ofNat (symbol bits).toNat

/-- The decoder reads each symbol as the six bits it stands for. -/
theorem valueOf_byteOf {bits : Nat} (small : bits < 64) :
    valueOf (byteOf bits) = some (UInt8.ofNat bits) :=
  (symbol_table small).2.2.1

/-- No symbol is the padding sign. -/
theorem byteOf_ne {bits : Nat} (small : bits < 64) : byteOf bits ≠ 0x3d := (symbol_table small).2.1

/-- In a padded group each symbol still stands for its six bits. -/
theorem padded_byteOf {bits : Nat} (small : bits < 64) :
    padded (byteOf bits) = some (UInt8.ofNat bits) := by
  rw [padded, if_neg (byteOf_ne small), valueOf_byteOf small]

section

variable (b0 b1 b2 : UInt8)

/-- The number of three bytes, in arithmetic. -/
theorem group_eq : group b0 b1 b2 = 65536 * b0.toNat + 256 * b1.toNat + b2.toNat := by
  -- The shifted bytes overlap in no bit, so joining them is adding them.
  have small1 := b1.toNat_lt
  have small2 := b2.toNat_lt
  have low : b1.toNat <<< 8 ||| b2.toNat = b1.toNat <<< 8 + b2.toNat :=
    (Nat.shiftLeft_add_eq_or_of_lt (by omega) _).symm
  have high : b0.toNat <<< 16 ||| (b1.toNat <<< 8 + b2.toNat) = b0.toNat <<< 16 +
      (b1.toNat <<< 8 + b2.toNat) :=
    (Nat.shiftLeft_add_eq_or_of_lt (by simp only [Nat.shiftLeft_eq]; omega) _).symm
  rw [group, Nat.or_assoc, low, high]
  simp only [Nat.shiftLeft_eq]
  omega

/-- The four values of three bytes. -/
theorem values_group :
    group b0 b1 b2 >>> 18 &&& 63 = b0.toNat / 4 ∧
      group b0 b1 b2 >>> 12 &&& 63 = b0.toNat % 4 * 16 + b1.toNat / 16 ∧
      group b0 b1 b2 >>> 6 &&& 63 = b1.toNat % 16 * 4 + b2.toNat / 64 ∧
        group b0 b1 b2 &&& 63 = b2.toNat % 64 := by
  -- A mask of six ones is a remainder by 64, and a shift is a division.
  have small0 := b0.toNat_lt
  have small1 := b1.toNat_lt
  have small2 := b2.toNat_lt
  have mask (n : Nat) : n &&& 63 = n % 64 := Nat.and_two_pow_sub_one_eq_mod n 6
  simp only [mask, Nat.shiftRight_eq_div_pow, group_eq]
  omega

end

/-- A byte put together of low bits, and of what is left of others in front of them. -/
theorem toNat_shiftLeft_or {a b : UInt8} {k : Nat} (within : k < 8) (low : b.toNat < 2 ^ k) :
    (a <<< UInt8.ofNat k ||| b).toNat = a.toNat % 2 ^ (8 - k) * 2 ^ k + b.toNat := by
  -- The bits shifted out at the top are a remainder, and below the shift there is room for the
  -- other byte.
  have width : 2 ^ (8 - k) * 2 ^ k = 2 ^ 8 := by rw [← Nat.pow_add, Nat.sub_add_cancel within.le]
  have amount : (UInt8.ofNat k).toNat % 8 = k := by
    rw [UInt8.toNat_ofNat_of_lt' (by simp only [UInt8.size]; omega), Nat.mod_eq_of_lt within]
  rw [UInt8.toNat_or, UInt8.toNat_shiftLeft, amount, Nat.shiftLeft_eq, ← width,
    Nat.mul_mod_mul_right, ← Nat.shiftLeft_eq, ← Nat.shiftLeft_add_eq_or_of_lt low]

/-- The four values of three bytes give the bytes back. -/
theorem bytes_of_values (b0 b1 b2 : UInt8) :
    let v0 := UInt8.ofNat (b0.toNat / 4)
    let v1 := UInt8.ofNat (b0.toNat % 4 * 16 + b1.toNat / 16)
    let v2 := UInt8.ofNat (b1.toNat % 16 * 4 + b2.toNat / 64)
    let v3 := UInt8.ofNat (b2.toNat % 64)
    (v0 <<< 2 ||| v1 >>> 4) = b0 ∧ (v1 <<< 4 ||| v2 >>> 2) = b1 ∧ (v2 <<< 6 ||| v3) = b2 := by
  -- Each output byte is the low end of one value and the high end of the next, so it is put
  -- together from two sums.
  intro v0 v1 v2 v3
  have small0 := b0.toNat_lt
  have small1 := b1.toNat_lt
  have small2 := b2.toNat_lt
  have is0 : v0.toNat = b0.toNat / 4 := UInt8.toNat_ofNat_of_lt' (by simp only [UInt8.size]; omega)
  have is1 : v1.toNat = b0.toNat % 4 * 16 + b1.toNat / 16 :=
    UInt8.toNat_ofNat_of_lt' (by simp only [UInt8.size]; omega)
  have is2 : v2.toNat = b1.toNat % 16 * 4 + b2.toNat / 64 :=
    UInt8.toNat_ofNat_of_lt' (by simp only [UInt8.size]; omega)
  have is3 : v3.toNat = b2.toNat % 64 := UInt8.toNat_ofNat_of_lt' (by simp only [UInt8.size]; omega)
  have top1 : (v1 >>> 4).toNat = v1.toNat / 16 := by
    rw [UInt8.toNat_shiftRight]
    exact Nat.shiftRight_eq_div_pow _ 4
  have top2 : (v2 >>> 2).toNat = v2.toNat / 4 := by
    rw [UInt8.toNat_shiftRight]
    exact Nat.shiftRight_eq_div_pow _ 2
  -- The three bytes are joined in the same way, at shifts of two, four and six bits.
  refine ⟨?_, ?_, ?_⟩
  · apply UInt8.toNat_inj.mp
    have joined : (v0 <<< 2 ||| v1 >>> 4).toNat = v0.toNat % 64 * 4 + (v1 >>> 4).toNat :=
      toNat_shiftLeft_or (k := 2) (by omega) (by omega)
    omega
  · apply UInt8.toNat_inj.mp
    have joined : (v1 <<< 4 ||| v2 >>> 2).toNat = v1.toNat % 16 * 16 + (v2 >>> 2).toNat :=
      toNat_shiftLeft_or (k := 4) (by omega) (by omega)
    omega
  · apply UInt8.toNat_inj.mp
    have joined : (v2 <<< 6 ||| v3).toNat = v2.toNat % 4 * 64 + v3.toNat :=
      toNat_shiftLeft_or (k := 6) (by omega) (by omega)
    omega

/-- A character in front of others is one byte in front of theirs. -/
theorem textBytes_symbol {bits : Nat} (small : bits < 64) (rest : List Char) :
    textBytes (symbol bits :: rest) = byteOf bits :: textBytes rest := by
  have one : textBytes [symbol bits] = [byteOf bits] := (symbol_table small).1
  rw [← List.singleton_append, textBytes_append, one, List.singleton_append]

section

variable {q0 q1 q2 q3 : Nat} (small0 : q0 < 64) (small1 : q1 < 64)
include small0 small1

/-- Four characters are read as three bytes. -/
theorem decodeGroups_four (small2 : q2 < 64) (small3 : q3 < 64) (raw : Bytes) :
    decodeGroups (byteOf q0 :: byteOf q1 :: byteOf q2 :: byteOf q3 :: raw) =
      (decodeGroups raw).map fun more =>
      (UInt8.ofNat q0 <<< 2 ||| UInt8.ofNat q1 >>> 4) ::
        (UInt8.ofNat q1 <<< 4 ||| UInt8.ofNat q2 >>> 2) ::
        (UInt8.ofNat q2 <<< 6 ||| UInt8.ofNat q3) :: more := by
  rw [decodeGroups, valueOf_byteOf small0, valueOf_byteOf small1, padded_byteOf small2,
    padded_byteOf small3]
  simp only [byteOf_ne small2, byteOf_ne small3, if_false]
  cases decodeGroups raw <;> rfl

/-- Three characters and a sign are read as two bytes. -/
theorem decodeGroups_three (small2 : q2 < 64) :
    decodeGroups [byteOf q0, byteOf q1, byteOf q2, 0x3d] =
      some [UInt8.ofNat q0 <<< 2 ||| UInt8.ofNat q1 >>> 4,
        UInt8.ofNat q1 <<< 4 ||| UInt8.ofNat q2 >>> 2] := by
  rw [decodeGroups, valueOf_byteOf small0, valueOf_byteOf small1, padded_byteOf small2]
  simp only [byteOf_ne small2, if_false]
  rfl

/-- Two characters and two signs are read as one byte. -/
theorem decodeGroups_two :
    decodeGroups [byteOf q0, byteOf q1, 0x3d, 0x3d] =
      some [UInt8.ofNat q0 <<< 2 ||| UInt8.ofNat q1 >>> 4] := by
  rw [decodeGroups, valueOf_byteOf small0, valueOf_byteOf small1]
  rfl

end

/-- What is written of some bytes is read back, group by group. -/
theorem decodeGroups_encode (data : Bytes) :
    decodeGroups (textBytes (encode data)) = some data := by
  -- Induction over the groups: a short last group is decoded on its own, and a whole one is
  -- followed by the rest.
  have pads : textBytes ['=', '='] = [0x3d, 0x3d] ∧ textBytes ['='] = [0x3d] := by decide
  fun_induction encode data with
  | case1 => rfl
  | case2 b0 n =>
    have small0 := b0.toNat_lt
    obtain ⟨is0, is1, _⟩ := values_group b0 0 0
    obtain ⟨whole, _⟩ := bytes_of_values b0 0 0
    simp only [UInt8.toNat_zero, Nat.zero_div, Nat.add_zero] at is0 is1 whole
    rw [is0, is1, textBytes_symbol (by omega), textBytes_symbol (by omega), pads.1,
      decodeGroups_two (by omega) (by omega), whole]
  | case3 b0 b1 n =>
    have small0 := b0.toNat_lt
    have small1 := b1.toNat_lt
    obtain ⟨is0, is1, is2, _⟩ := values_group b0 b1 0
    obtain ⟨whole0, whole1, _⟩ := bytes_of_values b0 b1 0
    simp only [UInt8.toNat_zero, Nat.zero_div, Nat.add_zero] at is2 whole1
    rw [is0, is1, is2, textBytes_symbol (by omega), textBytes_symbol (by omega),
      textBytes_symbol (by omega), pads.2,
      decodeGroups_three (by omega) (by omega) (by omega), whole0, whole1]
  | case4 b0 b1 b2 rest n ih =>
    have small0 := b0.toNat_lt
    have small1 := b1.toNat_lt
    have small2 := b2.toNat_lt
    obtain ⟨is0, is1, is2, is3⟩ := values_group b0 b1 b2
    obtain ⟨whole0, whole1, whole2⟩ := bytes_of_values b0 b1 b2
    rw [is0, is1, is2, is3, textBytes_symbol (by omega), textBytes_symbol (by omega),
      textBytes_symbol (by omega),
      textBytes_symbol (by omega), decodeGroups_four (by omega) (by omega) (by omega) (by omega),
      ih, whole0, whole1, whole2]
    rfl

/-- No blank is written. -/
theorem solid_encode (data : Bytes) : Text.Solid (encode data) := by
  -- Every character is a symbol of the alphabet or the padding sign, and neither is white.
  have solid (n : Nat) : Text.isWhite (symbol (n &&& 63)) = false :=
    (symbol_table (Nat.and_lt_two_pow n (show 63 < 2 ^ 6 by omega))).2.2.2
  have sign : Text.isWhite '=' = false := by decide
  intro c member
  fun_induction encode data with
  | case1 => cases member
  | case2 b0 n =>
    simp only [List.mem_cons, List.not_mem_nil, or_false] at member
    rcases member with rfl | rfl | rfl | rfl <;> first | exact solid _ | exact sign
  | case3 b0 b1 n =>
    simp only [List.mem_cons, List.not_mem_nil, or_false] at member
    rcases member with rfl | rfl | rfl | rfl <;> first | exact solid _ | exact sign
  | case4 b0 b1 b2 rest n ih =>
    simp only [List.mem_cons] at member
    rcases member with rfl | rfl | rfl | rfl | later
    · exact solid _
    · exact solid _
    · exact solid _
    · exact solid _
    · exact ih later

/-- Every four characters are written together. -/
theorem length_encode (data : Bytes) : (textBytes (encode data)).length % 4 = 0 := by
  -- Every group of the text has four characters, also the padded one at its end.
  have pads : textBytes ['=', '='] = [0x3d, 0x3d] ∧ textBytes ['='] = [0x3d] := by decide
  have one (n : Nat) (rest : List Char) :
      (textBytes (symbol (n &&& 63) :: rest)).length = (textBytes rest).length + 1 := by
    rw [textBytes_symbol (Nat.and_lt_two_pow n (show 63 < 2 ^ 6 by omega)), List.length_cons]
  fun_induction encode data with
  | case1 => rfl
  | case2 b0 n =>
    rw [one, one, pads.1]
    rfl
  | case3 b0 b1 n =>
    rw [one, one, one, pads.2]
    rfl
  | case4 b0 b1 b2 rest n ih =>
    rw [one, one, one, one]
    omega

/-- What was written is read back. -/
theorem decode_encode (data : Bytes) : decode (encode data) = some data := by
  rw [decode, Text.trim_solid (solid_encode data)]
  rw [if_pos (length_encode data), decodeGroups_encode]

-- Bits that no byte takes up are not looked at, nor where the equality signs stand.
example : decode "Zh==".toList = decode "Zg==".toList := by decide +kernel

end NasTools.Base64
