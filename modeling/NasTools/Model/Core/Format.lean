import NasTools.Lib.Bytes

/-! Addresses, namespace modes and timestamps. -/

namespace NasTools

/-- A 32-byte hash. -/
abbrev Digest := FixedBytes 32

-- Digests are the keys of most maps, so that they can be is said under a name of its own.
instance Digest.transOrd : Std.TransOrd Digest := inferInstance
instance Digest.lawfulEqOrd : Std.LawfulEqOrd Digest := inferInstance

/-- The all-zero digest, which stands for "no predecessor". -/
def Digest.zero : Digest := FixedBytes.zero 32

/-- Bytes of an address. -/
def addrLen : Nat := 32

/-- A content address. -/
abbrev Addr := FixedBytes 32

/-- Namespace confidentiality mode. -/
inductive Mode where
  | e2ee
  | passphrase
  | transitOnly
deriving DecidableEq, Repr

/-- Whether the peer can enforce a read ACL. -/
def Mode.peerCanEnforceReadAcl : Mode → Bool
  | .transitOnly => true
  | _ => false

/-- How the keys of chunks come about. -/
inductive KeyScheme where
  | convergent
  | indexedRandom
  | plaintext
deriving DecidableEq

/-- How chunks are padded. -/
inductive PaddingProfile where
  | none
  | classes
  | fixed
deriving DecidableEq

/-- The manifest layout this build understands. -/
def manifestVersion : UInt16 := 1

/-- Subtraction that stops at zero, as `saturating_sub` on `u64`. -/
def satSub (a b : UInt64) : UInt64 := if a < b then 0 else a - b

/-- Read as a number, it is the truncated subtraction. -/
theorem toNat_satSub (a b : UInt64) : (satSub a b).toNat = a.toNat - b.toNat := by
  -- Below zero the difference is zero.
  unfold satSub
  split
  · rename_i less
    rw [UInt64.lt_iff_toNat_lt] at less
    simp only [UInt64.toNat_zero]
    omega
  · rename_i notLess
    rw [UInt64.lt_iff_toNat_lt] at notLess
    rw [UInt64.toNat_sub_of_le _ _ (UInt64.le_iff_toNat_le.mpr (by omega))]

/-- The smaller of two words is the smaller number. -/
theorem toNat_min (a b : UInt64) : (min a b).toNat = min a.toNat b.toNat := by
  show (if a ≤ b then a else b).toNat = _
  simp only [apply_ite UInt64.toNat, UInt64.le_iff_toNat_le, Nat.min_def]

/-- The larger of two words is the larger number. -/
theorem toNat_max (a b : UInt64) : (max a b).toNat = max a.toNat b.toNat := by
  show (if a ≤ b then b else a).toNat = _
  simp only [apply_ite UInt64.toNat, UInt64.le_iff_toNat_le, Nat.max_def]

/-- Addition that stops at the largest `u64`, as `saturating_add`. -/
def satAdd (a b : UInt64) : UInt64 :=
  if a.toNat + b.toNat < 2 ^ 64 then a + b else UInt64.ofNat (2 ^ 64 - 1)

/-- A saturating sum is the sum, or the largest number. -/
theorem toNat_satAdd (a b : UInt64) :
    (satAdd a b).toNat = min (a.toNat + b.toNat) (2 ^ 64 - 1) := by
  -- The sum fits, or it is cut off at the largest word.
  unfold satAdd
  split
  · rename_i room
    rw [UInt64.toNat_add, Nat.mod_eq_of_lt room]
    omega
  · rename_i full
    simp
    omega

/-- The next number, when there is one. -/
theorem satAdd_one {a : UInt64} (room : a.toNat + 1 < 2 ^ 64) :
    (satAdd a 1).toNat = a.toNat + 1 := by
  rw [toNat_satAdd, UInt64.toNat_one]
  omega

/-- Saturating addition never goes down. -/
theorem le_satAdd_one (a : UInt64) : a.toNat ≤ (satAdd a 1).toNat := by
  have bound := a.toNat_lt
  rw [toNat_satAdd]
  omega

/-- Seconds since the Unix epoch, on the reader's own clock. -/
abbrev Timestamp := UInt64

/-- Time elapsed since an earlier instant, zero when the clock jumped backwards. -/
def Timestamp.saturatingSince (now earlier : Timestamp) : UInt64 := satSub now earlier

end NasTools
