import Mathlib

/-! Byte strings of a known width, ordered lexicographically, and little-endian integers. -/

namespace NasTools

/-- A byte string of any length. -/
abbrev Bytes := List UInt8

/-- An array of exactly `width` bytes. -/
structure FixedBytes (width : Nat) where
  bytes : Bytes
  -- The width is part of the type, so a value of another width cannot be built.
  size : bytes.length = width
deriving DecidableEq

namespace FixedBytes

variable {width : Nat}

/-- Two arrays with the same bytes are the same array. -/
theorem ext {a b : FixedBytes width} (same : a.bytes = b.bytes) : a = b := by
  cases a
  cases b
  simp_all

/-- Arrays compare byte by byte, the first difference deciding. -/
instance : Ord (FixedBytes width) := ⟨fun a b => compare a.bytes b.bytes⟩

instance : Std.TransOrd (FixedBytes width) where
  eq_swap := by
    intro a b
    exact @Std.OrientedCmp.eq_swap Bytes compare _ a.bytes b.bytes
  isLE_trans := by
    intro a b c first second
    exact @Std.TransCmp.isLE_trans Bytes compare _ a.bytes b.bytes c.bytes first second

instance : Std.LawfulEqOrd (FixedBytes width) where
  compare_self := by
    intro a
    exact @Std.ReflCmp.compare_self Bytes compare _ a.bytes
  eq_of_compare := by
    intro a b same
    exact ext (@Std.LawfulEqCmp.eq_of_compare Bytes compare _ a.bytes b.bytes same)

/-- The array whose bytes are all zero. -/
def zero (width : Nat) : FixedBytes width := ⟨List.replicate width 0, List.length_replicate⟩

/-- Reading a byte string as an array, when its length is the expected one. -/
def ofBytes? (width : Nat) (data : Bytes) : Option (FixedBytes width) :=
  if size : data.length = width then some ⟨data, size⟩ else none

/-- The bytes of an array read back as that array. -/
@[simp] theorem ofBytes?_bytes (a : FixedBytes width) : ofBytes? width a.bytes = some a := by
  simp [ofBytes?, a.size]

/-- An array that was read out of a byte string has exactly those bytes. -/
theorem bytes_of_ofBytes? {data : Bytes} {a : FixedBytes width}
    (read : ofBytes? width data = some a) : a.bytes = data := by
  -- Reading only succeeds at the right width, and then it keeps the bytes.
  unfold ofBytes? at read
  split at read
  · cases read
    rfl
  · cases read

/-- Every byte is zero exactly when the array is the zero array. -/
theorem all_zero_iff (a : FixedBytes width) :
    a.bytes.all (· == 0) = true ↔ a = zero width := by
  -- The width is fixed, so only the members matter.
  constructor
  · intro zeros
    apply ext
    -- A list whose members are all zero is a run of zeros of its own length.
    simpa [zero, a.size] using List.eq_replicate_of_mem (a := (0 : UInt8)) (l := a.bytes)
      (by simpa using zeros)
  · rintro rfl
    simp [zero]

end FixedBytes

/-- The lower-case hexadecimal digit of a number below sixteen. -/
def hexDigit (n : Nat) : Char := "0123456789abcdef".toList.getD n '0'

/-- Two lower-case hexadecimal digits for each byte. -/
def toHex (data : Bytes) : List Char :=
  data.flatMap fun b => [hexDigit (b.toNat / 16), hexDigit (b.toNat % 16)]

/-- The `width` low bytes of a number, least significant first. -/
def natToLe : Nat → Nat → Bytes
  | 0, _ => []
  | width + 1, n => UInt8.ofNat (n % 256) :: natToLe width (n / 256)

/-- The number whose little-endian bytes these are. -/
def natOfLe : Bytes → Nat
  | [] => 0
  | b :: rest => b.toNat + 256 * natOfLe rest

/-- A number is written in exactly the width asked for. -/
@[simp] theorem natToLe_length (width n : Nat) : (natToLe width n).length = width := by
  -- The number shrinks at every byte, so it stays quantified over.
  induction width generalizing n with
  | zero => rfl
  | succ width ih => simp [natToLe, ih]

/-- A number below the range of its width reads back unchanged. -/
theorem natOfLe_natToLe (width n : Nat) (bound : n < 256 ^ width) :
    natOfLe (natToLe width n) = n := by
  -- Each byte takes the remainder by 256 and leaves the quotient, which fits one byte less.
  induction width generalizing n with
  | zero =>
    simp only [Nat.pow_zero] at bound
    simp only [natToLe, natOfLe]
    omega
  | succ width ih =>
    have tail : n / 256 < 256 ^ width := by
      rw [Nat.pow_succ] at bound
      omega
    simp only [natToLe, natOfLe, ih (n / 256) tail, UInt8.toNat_ofNat']
    omega

/-- The number read from some bytes is below the range of their width. -/
theorem natOfLe_lt (data : Bytes) : natOfLe data < 256 ^ data.length := by
  -- One byte more leaves room for 256 times as many numbers.
  induction data with
  | nil => simp [natOfLe]
  | cons b rest ih =>
    have low := b.toNat_lt_size
    simp only [UInt8.size] at low
    simp only [natOfLe, List.length_cons, Nat.pow_succ]
    omega

/-- Bytes are recovered from the number they denote and their width. -/
theorem natToLe_natOfLe (data : Bytes) : natToLe data.length (natOfLe data) = data := by
  -- The first byte is the remainder of the number that is read, and the others are its quotient.
  induction data with
  | nil => rfl
  | cons b rest ih =>
    have low := b.toNat_lt_size
    simp only [UInt8.size] at low
    have head : (b.toNat + 256 * natOfLe rest) % 256 = b.toNat := by omega
    have tail : (b.toNat + 256 * natOfLe rest) / 256 = natOfLe rest := by omega
    simp only [natOfLe, List.length_cons, natToLe, head, tail, ih, UInt8.ofNat_toNat]

/-- The eight bytes of a 64-bit integer, as `to_le_bytes` gives them. -/
def u64Le (n : UInt64) : Bytes := natToLe 8 n.toNat

/-- The 64-bit integer with these bytes, as `from_le_bytes` reads them. -/
def u64OfLe (data : Bytes) : UInt64 := UInt64.ofNat (natOfLe data)

/-- A 64-bit number is written in eight bytes. -/
@[simp] theorem u64Le_length (n : UInt64) : (u64Le n).length = 8 := natToLe_length 8 _

/-- A 64-bit integer reads back from its own bytes. -/
@[simp] theorem u64OfLe_u64Le (n : UInt64) : u64OfLe (u64Le n) = n := by
  have bound : n.toNat < 256 ^ 8 := by simpa using n.toNat_lt
  simp [u64OfLe, u64Le, natOfLe_natToLe 8 n.toNat bound]

/-- Eight bytes are recovered from the integer they spell. -/
theorem u64Le_u64OfLe {data : Bytes} (width : data.length = 8) : u64Le (u64OfLe data) = data := by
  have bound : natOfLe data < 2 ^ 64 := by simpa [width] using natOfLe_lt data
  rw [u64Le, u64OfLe, UInt64.toNat_ofNat_of_lt' (by simpa using bound)]
  simpa [width] using natToLe_natOfLe data

/-- Two 64-bit integers with the same bytes are equal. -/
theorem u64Le_inj {a b : UInt64} (same : u64Le a = u64Le b) : a = b := by
  simpa using congrArg u64OfLe same

end NasTools
