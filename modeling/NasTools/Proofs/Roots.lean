import NasTools.Lib.HashTree
import NasTools.Model.Crypto.Concrete
import NasTools.Model.Lease.Formats

/-! The root of a lease checkpoint determines the set of addresses it was made over. -/

namespace NasTools

/-- Leaving out repeats next to each other leaves out no element. -/
theorem mem_destutter {A : Type} [DecidableEq A] {items : List A} {x : A} :
    x ∈ items.destutter (· ≠ ·) ↔ x ∈ items := by
  -- The element looked at last is kept, and only its own repeats are left out.
  have kept : ∀ (rest : List A) (a : A), x ∈ rest.destutter' (· ≠ ·) a ↔ x = a ∨ x ∈ rest := by
    intro rest
    induction rest with
    | nil => simp
    | cons b rest ih =>
      intro a
      by_cases apart : a ≠ b
      · rw [List.destutter'_cons_pos _ apart, List.mem_cons, ih, List.mem_cons]
      · rw [List.destutter'_cons_neg _ apart, ih, List.mem_cons, not_not.mp apart]
        tauto
  cases items with
  | nil => rfl
  | cons a rest => rw [List.destutter_cons', kept, List.mem_cons]

/-- The one form of a list has the same addresses in it. -/
theorem mem_canonicalise {addrs : List Addr} {x : Addr} : x ∈ canonicalise addrs ↔ x ∈ addrs := by
  rw [canonicalise, mem_destutter, List.mem_mergeSort]

/-- Ascending lists with the same addresses are the same. -/
theorem Ascending.eq_of_mem_iff {a b : List Addr} (first : Ascending a) (second : Ascending b)
    (same : ∀ x, x ∈ a ↔ x ∈ b) : a = b := by
  -- The order has no ties.
  have : IsTrans Addr fun a b => compare a b = .lt := ⟨fun _ _ _ => Std.TransCmp.lt_trans⟩
  have firstPairs := List.isChain_iff_pairwise.mp first
  have secondPairs := List.isChain_iff_pairwise.mp second
  have nodup {l : List Addr} (pairs : l.Pairwise fun a b => compare a b = .lt) : l.Nodup :=
    pairs.imp fun less equal => by simp [equal] at less
  -- Without repeats they are permutations of each other, and one order is left.
  have perm := (List.perm_ext_iff_of_nodup (nodup firstPairs) (nodup secondPairs)).mpr same
  apply perm.eq_of_pairwise _ firstPairs secondPairs
  intro x y _ _ less greater
  exact absurd (Std.OrientedCmp.gt_iff_lt.mpr less) (by rw [greater]; simp)

/-- Two lists have one canonical form exactly when they have the same addresses. -/
theorem canonicalise_eq_iff {a b : List Addr} :
    canonicalise a = canonicalise b ↔ ∀ x, x ∈ a ↔ x ∈ b := by
  -- Both lists ascend, so they are equal as soon as they have the same members.
  constructor
  · intro same x
    rw [← mem_canonicalise, same, mem_canonicalise]
  · intro same
    apply (ascending_canonicalise a).eq_of_mem_iff (ascending_canonicalise b)
    intro x
    rw [mem_canonicalise, mem_canonicalise, same]

/-- The canonical form of a list is no longer than the list. -/
theorem length_canonicalise_le (addrs : List Addr) :
    (canonicalise addrs).length ≤ addrs.length := by
  have shorter :=
    (List.destutter_sublist (· ≠ ·) (addrs.mergeSort fun a b => (compare a b).isLE)).length_le
  rwa [List.length_mergeSort] at shorter

section

variable [Crypto]

/-- One level pairs its nodes up. -/
theorem merkleLevel_eq : merkleLevel = pairUp merkleNode := by
  funext level
  induction level using pairUp.induct with
  | case1 l r rest ih => rw [merkleLevel, pairUp, ih]
  | case2 level few => rw [merkleLevel, pairUp] <;> exact few

/-- The top is built up level by level. -/
theorem merkleTop_eq (rounds : Nat) (level : List Digest) :
    merkleTop rounds level = buildUp merkleNode rounds level := by
  induction rounds generalizing level with
  | zero => rfl
  | succ rounds ih => rw [merkleTop, buildUp, ih, merkleLevel_eq]

/-- Leaves and nodes are told apart by the byte they start with. -/
def merkleHashing : Hashing Addr Bytes Digest where
  hash := Crypto.blake3
  leaf a := 0x00 :: a.bytes
  node l r := 0x01 :: (l.bytes ++ r.bytes)
  leaf_injective _ _ same := FixedBytes.ext (List.cons.inj same).2
  node_injective l r l' r' same := by
    -- Digests have one width, so the bytes behind the tag divide in one way.
    obtain ⟨left, right⟩ := List.append_inj (List.cons.inj same).2 (l.size.trans l'.size.symm)
    exact ⟨FixedBytes.ext left, FixedBytes.ext right⟩
  apart _ _ _ same := absurd (List.cons.inj same).1 (by decide)

/-- The tree over a set of addresses; an empty set has none. -/
def merkleTree (addrs : List Addr) : Option (HashTree Addr) :=
  HashTree.ofLeaves (canonicalise addrs)

/-- What the root over a set of addresses is the hash of. -/
def merkleTopInput (addrs : List Addr) : Bytes :=
  let tree := ((merkleTree addrs).map (HashTree.digest merkleHashing)).getD Digest.zero
  asciiBytes "nas-tools/lease-merkle/v1" ++ u64Le (UInt64.ofNat (canonicalise addrs).length) ++
    tree.bytes

/-- Everything that is hashed for the root over a set of addresses. -/
def merkleInputs (addrs : List Addr) : List Bytes :=
  merkleTopInput addrs :: ((merkleTree addrs).map (HashTree.inputs merkleHashing)).getD []

/-- The root is the hash of the number of addresses and of the digest of their tree. -/
theorem merkleRoot_eq (addrs : List Addr) :
    merkleRoot addrs = Crypto.blake3 (merkleTopInput addrs) := by
  -- The digest of the tree is what is left when the hashes are put together level by level.
  have top : (merkleTree addrs).map (HashTree.digest merkleHashing) =
      (buildUp merkleNode (canonicalise addrs).length
        ((canonicalise addrs).map merkleLeaf)).head? :=
    HashTree.digest_ofLeaves merkleHashing (canonicalise addrs)
  rw [merkleRoot, merkleTopInput, top, merkleTop_eq, List.headD_eq_head?_getD]

omit [Crypto] in
/-- Only an empty set has no tree. -/
theorem merkleTree_eq_none {addrs : List Addr} :
    merkleTree addrs = none ↔ canonicalise addrs = [] := by
  -- A list that is not empty is built up to one tree.
  constructor
  · intro none
    by_contra some_
    obtain ⟨top, built⟩ : ∃ top, buildUp HashTree.fork (canonicalise addrs).length
      ((canonicalise addrs).map .leaf) = [top] :=
      buildUp_eq_singleton (by simpa using some_) (Nat.le_of_eq (List.length_map _))
    rw [merkleTree, HashTree.ofLeaves, built] at none
    cases none
  · intro empty
    rw [merkleTree, empty]
    rfl

omit [Crypto] in
/-- The number of addresses on 64 bits is zero for no set but the empty one. -/
theorem count_eq_zero {addrs : List Addr} (short : addrs.length < 2 ^ 64)
    (zero : UInt64.ofNat (canonicalise addrs).length = 0) : canonicalise addrs = [] := by
  have bound := length_canonicalise_le addrs
  have number := congrArg UInt64.toNat zero
  rw [UInt64.toNat_ofNat', Nat.mod_eq_of_lt (by omega)] at number
  exact List.length_eq_zero_iff.mp number

/--
Lists of addresses have one root exactly when they have the same addresses in them.

The hash is assumed injective on what is hashed for the two roots; no list in memory has more
addresses than a 64-bit number counts.
-/
theorem merkleRoot_eq_iff {a b : List Addr}
    (injective : Set.InjOn Crypto.blake3 {m | m ∈ merkleInputs a ∨ m ∈ merkleInputs b})
    (shortA : a.length < 2 ^ 64) (shortB : b.length < 2 ^ 64) :
    merkleRoot a = merkleRoot b ↔ ∀ x, x ∈ a ↔ x ∈ b := by
  -- What is hashed for a root is read off again.
  rw [← canonicalise_eq_iff]
  constructor
  · intro same
    rw [merkleRoot_eq, merkleRoot_eq] at same
    have top : merkleTopInput a = merkleTopInput b :=
      injective (.inl List.mem_cons_self) (.inr List.mem_cons_self) same
    -- The text, the number and the digest have fixed widths, so each of them agrees.
    rw [merkleTopInput, merkleTopInput] at top
    obtain ⟨front, tree⟩ := List.append_inj' top (by rw [FixedBytes.size, FixedBytes.size])
    have count := u64Le_inj (List.append_cancel_left front)
    have digests := FixedBytes.ext tree
    cases treeA : merkleTree a with
    | none =>
      -- Without a tree the number is zero, and then the other set is empty too.
      have emptyA := merkleTree_eq_none.mp treeA
      rw [emptyA] at count ⊢
      exact (count_eq_zero shortB count.symm).symm
    | some t =>
      cases treeB : merkleTree b with
      | none =>
        have emptyB := merkleTree_eq_none.mp treeB
        rw [emptyB] at count ⊢
        exact count_eq_zero shortA count
      | some u =>
        simp only [treeA, treeB, Option.map_some, Option.getD_some] at digests
        have within : Set.InjOn Crypto.blake3 {m | m ∈ t.inputs merkleHashing ∨
            m ∈ u.inputs merkleHashing} := by
          apply injective.mono
          intro m either
          show m ∈ merkleInputs a ∨ m ∈ merkleInputs b
          simp only [merkleInputs, treeA, treeB, Option.map_some, Option.getD_some, List.mem_cons]
          exact either.imp .inr .inr
        -- One tree, and so one list of leaves.
        obtain rfl : t = u := HashTree.eq_of_digest within digests
        exact (HashTree.leaves_of_ofLeaves treeA).symm.trans (HashTree.leaves_of_ofLeaves treeB)
  · intro same
    rw [merkleRoot, merkleRoot, same]

end

section

open Concrete

/-- Repeating an address does not change the root. -/
theorem merkleRoot_repeated : merkleRoot [digest [1], digest [1]] = merkleRoot [digest [1]] ↔
    ∀ x, x ∈ [digest [1], digest [1]] ↔ x ∈ [digest [1]] := by
  -- A list is put into its canonical form first.
  have one : canonicalise [digest [1]] = [digest [1]] := by simp [canonicalise]
  have two : canonicalise [digest [1], digest [1]] = [digest [1]] :=
    (canonicalise_eq_iff.mpr (by simp)).trans one
  have inputs {addrs : List Addr} (is : canonicalise addrs = [digest [1]]) : merkleInputs addrs =
      [asciiBytes "nas-tools/lease-merkle/v1" ++ u64Le 1 ++
        (digest (0x00 :: (digest [1]).bytes)).bytes, 0x00 :: (digest [1]).bytes] := by
    rw [merkleInputs, merkleTopInput, merkleTree, is]
    rfl
  -- Two inputs are hashed, and their checksums differ.
  have apart : digest (asciiBytes "nas-tools/lease-merkle/v1" ++ u64Le 1 ++
      (digest (0x00 :: (digest [1]).bytes)).bytes) ≠
        digest (0x00 :: (digest [1]).bytes) := by decide +kernel
  refine merkleRoot_eq_iff ?_ (by decide) (by decide)
  rw [inputs one, inputs two]
  have either {x y m : Bytes} (member : m ∈ [x, y] ∨ m ∈ [x, y]) : m = x ∨ m = y := by
    simpa using member
  intro m member m' member' same
  rcases either member with rfl | rfl
  · rcases either member' with rfl | rfl
    · rfl
    · exact absurd same apart
  · rcases either member' with rfl | rfl
    · exact absurd same.symm apart
    · rfl

end

end NasTools
