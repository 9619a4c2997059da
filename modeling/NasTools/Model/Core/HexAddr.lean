import NasTools.Lib.Percent
import NasTools.Model.Core.Format

/-! Addresses in hexadecimal: how they are read, and the two names an address is filed under. -/

namespace NasTools

/-- Why a text is no address. -/
inductive AddrError where
  | badLength (got : Nat)
  | notHex
deriving DecidableEq

/--
The value of a hexadecimal digit; there are no upper-case ones, so an address has one spelling.
-/
def hexVal (c : UInt8) : Option UInt8 :=
  if 0x30 ≤ c ∧ c ≤ 0x39 then some (c - 0x30)
  else if 0x61 ≤ c ∧ c ≤ 0x66 then some (c - 0x61 + 10)
  else none

/-- The bytes that pairs of digits spell. -/
def hexPairs : Bytes → Option Bytes
  | hi :: lo :: rest => do
    let hi ← hexVal hi
    let lo ← hexVal lo
    let more ← hexPairs rest
    return ((hi <<< 4) ||| lo) :: more
  | [_] => none
  | [] => some []

namespace Addr

/-- An address from sixty-four digits; what counts are the bytes of the text. -/
def fromHex (s : List Char) : Except AddrError Addr :=
  let b := textBytes s
  if b.length ≠ addrLen * 2 then .error (.badLength b.length)
  else
    match (hexPairs b).bind (FixedBytes.ofBytes? 32) with
    | some a => .ok a
    | none => .error .notHex

/-- The digits of an address, as bytes. -/
def hex (a : Addr) : Bytes := textBytes (toHex a.bytes)

/-- The two names an address is filed under: the first two digits, and the rest. -/
def shard (a : Addr) : Bytes × Bytes := a.hex.splitAt 2

end Addr

/-- Two digits make a byte. -/
theorem toNat_nibbles {hi lo : Nat} (high : hi < 16) (low : lo < 16) :
    ((UInt8.ofNat hi <<< 4) ||| UInt8.ofNat lo).toNat = 16 * hi + lo := by
  -- There are sixteen by sixteen pairs of halves, which are looked at one by one.
  revert low
  revert lo
  revert high
  revert hi
  decide

/-- A digit is one byte, whose value is the number. -/
theorem hexVal_hexDigit {n : Nat} (below : n < 16) :
    ∃ c, String.utf8EncodeChar (hexDigit n) = [c] ∧ hexVal c = some (UInt8.ofNat n) := by
  refine ⟨UInt8.ofNat (hexDigit n).toNat, ?_, ?_⟩
  · interval_cases n <;> decide
  · interval_cases n <;> decide

/-- Every byte with a value is the digit of that value. -/
theorem hexDigit_of_hexVal {c v : UInt8} (value : hexVal c = some v) :
    v.toNat < 16 ∧ String.utf8EncodeChar (hexDigit v.toNat) = [c] := by
  -- Checked for all 256 bytes.
  have each : ∀ c : UInt8, (hexVal c).all (fun v => decide (v.toNat < 16) &&
      String.utf8EncodeChar (hexDigit v.toNat) == [c]) = true := by
    apply Quoting.forall_byte
    decide +kernel
  have here := each c
  rw [value] at here
  simpa using here

/-- Every digit is one byte, and every byte is two digits. -/
theorem length_textBytes_toHex (data : Bytes) :
    (textBytes (toHex data)).length = 2 * data.length := by
  -- Every digit is one byte.
  have ones : ∀ c ∈ toHex data, (String.utf8EncodeChar c).length = 1 := by
    intro c member
    obtain ⟨n, below, rfl⟩ := Text.mem_toHex member
    rw [String.length_utf8EncodeChar, (Text.hexDigit_plain below).2.2]
  rw [textBytes, List.length_flatMap, List.map_congr_left ones]
  simp

/-- Digits spell some bytes exactly when they are the digits of these. -/
theorem hexPairs_eq_some {digits data : Bytes} :
    hexPairs digits = some data ↔ digits = textBytes (toHex data) := by
  -- Each pair of digits is read as one byte, and that byte is written as the same pair.
  constructor
  · intro read
    induction digits using hexPairs.induct generalizing data with
    | case1 hi lo rest ih =>
      simp only [hexPairs, Option.bind_eq_bind, Option.bind_eq_some_iff, Option.pure_def,
        Option.some.injEq] at read
      obtain ⟨h, high, l, low, more, later, rfl⟩ := read
      obtain ⟨smallH, spelledH⟩ := hexDigit_of_hexVal high
      obtain ⟨smallL, spelledL⟩ := hexDigit_of_hexVal low
      have value := toNat_nibbles smallH smallL
      rw [UInt8.ofNat_toNat, UInt8.ofNat_toNat] at value
      have first : ((h <<< 4) ||| l).toNat / 16 = h.toNat := by omega
      have second : ((h <<< 4) ||| l).toNat % 16 = l.toNat := by omega
      have spelled :
          textBytes (toHex (((h <<< 4) ||| l) :: more)) = hi :: lo :: textBytes (toHex more) := by
        simp only [toHex, List.flatMap_cons, textBytes, first, second, List.cons_append,
          List.nil_append, spelledH, spelledL]
      rw [spelled, ← ih later]
    | case2 c => cases read
    | case3 =>
      obtain rfl := Option.some.inj read
      rfl
  · rintro rfl
    induction data with
    | nil => rfl
    | cons b rest ih =>
      have bound := b.toNat_lt
      obtain ⟨hi, spelledH, high⟩ := hexVal_hexDigit (n := b.toNat / 16) (by omega)
      obtain ⟨lo, spelledL, low⟩ := hexVal_hexDigit (n := b.toNat % 16) (by omega)
      have spelled : textBytes (toHex (b :: rest)) = hi :: lo :: textBytes (toHex rest) := by
        simp only [toHex, List.flatMap_cons, textBytes, List.cons_append, List.nil_append,
          spelledH, spelledL]
      have whole : (UInt8.ofNat (b.toNat / 16) <<< 4) ||| UInt8.ofNat (b.toNat % 16) = b := by
        apply UInt8.toNat.inj
        rw [toNat_nibbles (by omega) (by omega)]
        omega
      simp [spelled, hexPairs, high, low, ih, whole]

namespace Addr

/-- An address has two digits for each byte. -/
theorem hex_length (a : Addr) : a.hex.length = addrLen * 2 := by
  rw [hex, length_textBytes_toHex, a.size, addrLen]

/-- A text is read as an address exactly when it is the digits of that address. -/
theorem fromHex_eq_ok {s : List Char} {a : Addr} : fromHex s = .ok a ↔ s = toHex a.bytes := by
  -- The text has to be as long as an address, and its pairs have to read as one.
  have spelled : fromHex s = .ok a ↔ textBytes s = a.hex := by
    unfold fromHex
    dsimp only
    split
    · rename_i wrong
      refine iff_of_false (by simp) ?_
      intro same
      rw [same] at wrong
      exact wrong a.hex_length
    · cases read : (hexPairs (textBytes s)).bind (FixedBytes.ofBytes? 32) with
      | none =>
        refine iff_of_false (by simp) ?_
        intro same
        rw [same, hex, hexPairs_eq_some.mpr rfl] at read
        simp at read
      | some b =>
        obtain ⟨data, pairs, is⟩ := Option.bind_eq_some_iff.mp read
        rw [hexPairs_eq_some, ← FixedBytes.bytes_of_ofBytes? is] at pairs
        simp only [Except.ok.injEq, pairs, hex]
        constructor
        · rintro rfl
          rfl
        · intro same
          have back := hexPairs_eq_some.mpr same
          rw [hexPairs_eq_some.mpr rfl] at back
          exact FixedBytes.ext (Option.some.inj back)
  rw [spelled, hex]
  exact textBytes_injective.eq_iff

/-- No two addresses have the same digits. -/
theorem hex_injective : Function.Injective hex := by
  intro a b same
  have read := fromHex_eq_ok.mpr (textBytes_injective same)
  rw [fromHex_eq_ok.mpr rfl] at read
  exact Except.ok.inj read

/-- Two names spell an address in text exactly when their bytes are its digits. -/
theorem fromHex_lossy {shard name : Bytes} {a : Addr} :
    fromHex (fromUtf8Lossy shard ++ fromUtf8Lossy name) = .ok a ↔ shard ++ name = a.hex := by
  -- The lossy reading changes no digit, and only digits are accepted.
  have digits : ∀ c ∈ toHex a.bytes, c ≠ replacementChar ∧ ∃ b, String.utf8EncodeChar c = [b] := by
    intro c member
    obtain ⟨n, below, rfl⟩ := Text.mem_toHex member
    obtain ⟨b, spelled, _⟩ := hexVal_hexDigit below
    refine ⟨?_, b, spelled⟩
    interval_cases n <;> decide
  rw [fromHex_eq_ok]
  constructor
  · intro same
    -- No digit is a replacement, so both names are read as they are.
    have whole (part : Bytes) (inside : ∀ c ∈ fromUtf8Lossy part, c ∈ toHex a.bytes) :
        textBytes (fromUtf8Lossy part) = part := by
      apply utf8_fromUtf8Lossy
      intro replaced
      exact (digits _ (inside _ replaced)).1 rfl
    have first := whole shard (by intro c member; rw [← same]; exact List.mem_append_left _ member)
    have second := whole name (by intro c member; rw [← same]; exact List.mem_append_right _ member)
    rw [hex, ← same, textBytes_append, first, second]
  · intro same
    -- A digit is one byte, so the digits are cut where the bytes are.
    have bytes (part : List Char) (inside : ∀ c ∈ part, c ∈ toHex a.bytes) :
        textBytes part = part.map fun c => (String.utf8EncodeChar c).headD 0 := by
      rw [textBytes, List.map_eq_flatMap]
      apply List.flatMap_congr
      intro c member
      obtain ⟨b, spelled⟩ := (digits c (inside c member)).2
      simp [spelled]
    rw [hex, bytes _ fun _ member => member] at same
    obtain ⟨front, back, cut, rfl, rfl⟩ := List.map_eq_append_iff.mp same.symm
    rw [← bytes front (by simp +contextual [cut]), ← bytes back (by simp +contextual [cut]),
      fromUtf8Lossy_textBytes, fromUtf8Lossy_textBytes, cut]

/-- The two names an address is filed under spell it together, and the first has two digits. -/
theorem shard_append (a : Addr) : a.shard.1 ++ a.shard.2 = a.hex ∧ a.shard.1.length = 2 := by
  refine ⟨by simp [shard], ?_⟩
  simp [shard, a.hex_length, addrLen]

/-- No two addresses are filed under the same names. -/
theorem shard_injective : Function.Injective shard := by
  intro a b same
  apply hex_injective
  rw [← (shard_append a).1, ← (shard_append b).1, same]

end Addr

end NasTools
