import NasTools.Model.Crypto.Sign

/-! A computable stand-in for the two primitives, on which the model can be run. -/

namespace NasTools.Concrete

/-- A polynomial checksum of a message, below `2 ^ 255`. -/
def checksum (message : Bytes) : Nat :=
  message.foldl (fun acc b => (acc * 257 + b.toNat + 1) % (2 ^ 255 - 19)) 0

/-- The checksum as a digest, moved away from zero. -/
def digest (message : Bytes) : Digest :=
  ⟨natToLe 32 (checksum message + 1), natToLe_length _ _⟩

/-- The one signature that verifies: the checksum of key and message, padded to the right width. -/
def signature (verifyingKey message : Bytes) : Bytes :=
  (digest (verifyingKey ++ message)).bytes ++ List.replicate (signatureLen - 32) 0

scoped instance : Crypto where
  blake3 := digest
  mldsaVerify verifyingKey message sig := sig == signature verifyingKey message

/-- The keypair grown from a seed. -/
def identity (seed : UInt8) : Identity :=
  let key := List.replicate verifyingKeyLen seed
  ⟨key, fun message => .ok (signature key message)⟩

/-- Every concrete keypair signs. -/
theorem identity_signs (seed : UInt8) : (identity seed).Signs where
  -- The signature has the right length, and verifying makes the same one again.
  keyLength := by simp [identity]
  signs message := by
    refine ⟨signature (identity seed).verifyingKey message, rfl, ?_, ?_⟩
    · rw [signature, List.length_append, FixedBytes.size, List.length_replicate]
      decide
    · exact beq_self_eq_true _

/-- A checksum stays in the range its last reduction leaves it in. -/
theorem checksum_lt (message : Bytes) : checksum message < 2 ^ 255 - 19 := by
  -- The empty message gives zero, and any other ends with a reduction.
  rcases List.eq_nil_or_concat message with rfl | ⟨front, last, rfl⟩
  · decide
  · rw [checksum, List.concat_eq_append, List.foldl_append]
    exact Nat.mod_lt _ (by decide)

/-- The concrete digest is never the all-zero one. -/
theorem noZeroDigest : NoZeroDigest := by
  -- The checksum is counted from one.
  intro message zero
  -- Read as a number, the digest is at least one.
  have bound := checksum_lt message
  have number := natOfLe_natToLe 32 (checksum message + 1) (by omega)
  have bytes : natToLe 32 (checksum message + 1) = List.replicate 32 0 :=
    congrArg FixedBytes.bytes zero
  rw [bytes] at number
  have nothing : natOfLe (List.replicate 32 0) = 0 := by decide
  omega

end NasTools.Concrete
