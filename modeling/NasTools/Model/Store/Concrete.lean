import NasTools.Model.Crypto.Concrete
import NasTools.Model.Store.Blobs
import NasTools.Model.Store.Chunker
import NasTools.Model.Store.Cipher

/-!
A computable stand-in for the cipher and the gear table, on which objects can be written and read.
-/

namespace NasTools.Concrete

/-- The tag of a sealed form, which binds the key, the nonce and the associated data. -/
def tag (key nonce aad : Bytes) : Digest := digest (key ++ nonce ++ aad)

/-- A sealed form: the tag, the length of the plaintext, and the plaintext itself. -/
def enclose (tag : Digest) (plain : Bytes) : Option Bytes :=
  if plain.length < 2 ^ 64 then some (tag.bytes ++ u64Le (UInt64.ofNat plain.length) ++ plain)
    else none

/-- The plaintext of a sealed form that has the right tag and the length it names. -/
def disclose (tag : Digest) (sealed : Bytes) : Option Bytes :=
  let plain := sealed.drop 40
  if sealed.take 40 = tag.bytes ++ u64Le (UInt64.ofNat plain.length) then some plain else none

scoped instance : Cipher where
  keyedHash key message := digest (key.bytes ++ message)
  sealWithNonce key nonce plain aad := enclose (tag key.bytes nonce.bytes aad) plain
  openWithNonce key nonce sealed aad := disclose (tag key.bytes nonce.bytes aad) sealed
  encryptAad key nonce plain aad :=
    (enclose (tag key.bytes nonce.bytes aad) plain).map fun sealed => nonce.bytes ++ sealed
  decryptAad key sealed aad :=
    disclose (tag key.bytes (sealed.take nonceLen) aad) (sealed.drop nonceLen)

scoped instance : GearTable where
  gear b := b.toUInt64 + 1

/-- The tag and the length take up the first forty bytes. -/
theorem header_length (tag : Digest) (n : UInt64) : (tag.bytes ++ u64Le n).length = 40 := by
  rw [List.length_append, FixedBytes.size, u64Le_length]

/-- What was sealed opens under its tag. -/
theorem disclose_enclose {tag : Digest} {plain sealed : Bytes}
    (made : enclose tag plain = some sealed) :
    disclose tag sealed = some plain := by
  -- The header has a fixed width and names the tag.
  unfold enclose at made
  split at made
  · obtain rfl := Option.some.inj made
    have width := header_length tag (UInt64.ofNat plain.length)
    rw [disclose, List.drop_left' width, List.take_left' width, if_pos rfl]
  · cases made

/-- One sealed form has one plaintext, whatever its tag. -/
theorem enclose_inj {tag other : Digest} {a b sealed : Bytes} (first : enclose tag a = some sealed)
    (second : enclose other b = some sealed) : a = b := by
  -- The headers have the same width, so equal results have equal contents.
  unfold enclose at first second
  split at first
  · split at second
    · have same := (Option.some.inj first).trans (Option.some.inj second).symm
      exact (List.append_inj same (by rw [header_length, header_length])).2
    · cases second
  · cases first

/-- What was cut short names another length than it has. -/
theorem disclose_take {tag other : Digest} {plain sealed : Bytes}
    (made : enclose tag plain = some sealed) {k : Nat} (short : k < sealed.length) :
    disclose other (sealed.take k) = none := by
  -- The header names the length, so nothing may be missing.
  unfold enclose at made
  split at made
  · rename_i bounded
    obtain rfl := Option.some.inj made
    have width := header_length tag (UInt64.ofNat plain.length)
    rw [List.length_append, width] at short
    refine if_neg fun same => ?_
    -- A header that is whole names the length of the whole plaintext, of which less is left.
    have long : 40 ≤ k := by
      have lengths := congrArg List.length same
      rw [header_length, List.length_take, List.length_take] at lengths
      omega
    have left :
        (((tag.bytes ++ u64Le (UInt64.ofNat plain.length) ++ plain).take k).drop 40).length =
        k - 40 := by
      rw [List.length_drop, List.length_take, List.length_append, width]
      omega
    rw [left, List.take_take, Nat.min_eq_left long, List.take_left' width] at same
    have named := (List.append_inj same (by rw [tag.size, other.size])).2
    have numbers := congrArg UInt64.toNat (u64Le_inj named)
    rw [UInt64.toNat_ofNat_of_lt' (by simpa using bounded),
      UInt64.toNat_ofNat_of_lt' (by simp only [UInt64.size]; omega)] at numbers
    omega
  · cases made

/-- The stand-in is a cipher that can be trusted. -/
theorem trusted : Cipher.Trusted where
  -- Both halves are facts about the envelope.
  opens _ _ _ _ _ made := disclose_enclose made
  decrypts key nonce plain aad sealed made := by
    obtain ⟨body, enclosed, rfl⟩ := Option.map_eq_some_iff.mp made
    refine ⟨by simp [FixedBytes.size], ?_⟩
    simp only [Cipher.decryptAad, List.take_left' nonce.size, List.drop_left' nonce.size]
    exact disclose_enclose enclosed
  refuses key nonce plain aad sealed made k short := by
    obtain ⟨body, enclosed, rfl⟩ := Option.map_eq_some_iff.mp made
    -- The nonce comes off the front, and what is left of the body is cut short.
    rw [List.length_append, nonce.size] at short
    have rest : ((nonce.bytes ++ body).take k).drop nonceLen = body.take (k - nonceLen) := by
      rw [List.drop_take, List.drop_left' nonce.size]
    simp only [Cipher.decryptAad, rest]
    have least : 40 ≤ body.length := by
      unfold enclose at enclosed
      split at enclosed
      · rw [← Option.some.inj enclosed, List.length_append, header_length]
        omega
      · cases enclosed
    exact disclose_take enclosed (by omega)

/-- Blobs with addresses of their own. -/
theorem injOn_of_nodup {blobs : List Bytes}
    (nodup : (blobs.dedup.map (Addressing.addrOf .content)).Nodup) :
    Set.InjOn (Addressing.addrOf .content) {data | data ∈ blobs} := by
  intro a inA b inB same
  exact List.inj_on_of_nodup_map nodup (List.mem_dedup.mpr inA) (List.mem_dedup.mpr inB) same

end NasTools.Concrete
