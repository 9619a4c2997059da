import NasTools.Lib.OrderedSet

/-! Quorums: good ballots, distinct voters, and a number of votes that recent volume raises. -/

namespace NasTools

/-- Inserting a list of elements into the empty set counts the distinct ones. -/
theorem OrdSet.size_insertAll {K : Type} [Ord K] [Std.TransOrd K] [Std.LawfulEqOrd K]
    [DecidableEq K] (items : List K) :
    (items.foldl (fun set a => set.insert a) (∅ : OrdSet K)).size = items.toFinset.card := by
  -- The set has exactly the elements of the list.
  have members : (items.foldl (fun set a => set.insert a) (∅ : OrdSet K)).toList.toFinset =
      items.toFinset := by
    ext a
    rw [List.mem_toFinset, List.mem_toFinset, Std.ExtTreeSet.mem_toList, OrdSet.mem_insertAll]
    simp
  -- A set lists no element twice.
  rw [← members, List.toFinset_card_of_nodup (OrdSet.nodup_toList _), Std.ExtTreeSet.length_toList]

namespace Quorums

variable {B V : Type} [DecidableEq V] {Good : B → Prop} {voter : B → V} {ballots others : List B}

/-- Those who cast a ballot, each once. -/
def voters (voter : B → V) (ballots : List B) : Finset V := (ballots.map voter).toFinset

/-- A vote is carried: every ballot is good, and enough voters cast one. -/
structure Carried (Good : B → Prop) (voter : B → V) (needed : Nat) (ballots : List B) : Prop where
  good : ∀ b ∈ ballots, Good b
  enough : needed ≤ (voters voter ballots).card

/-- The voters are the same whatever the order of the ballots, and however often one is cast. -/
theorem voters_congr (same : ∀ b, b ∈ ballots ↔ b ∈ others) :
    voters voter ballots = voters voter others := by
  ext v
  simp only [voters, List.mem_toFinset, List.mem_map, same]

/-- So nothing changes about the vote being carried either. -/
theorem carried_congr {needed : Nat} (same : ∀ b, b ∈ ballots ↔ b ∈ others) :
    Carried Good voter needed ballots ↔ Carried Good voter needed others := by
  -- The same ballots have the same voters.
  have one : voters voter ballots = voters voter others := voters_congr same
  constructor
  · intro carried
    refine ⟨fun b cast => carried.good b ((same b).mpr cast), ?_⟩
    rw [← one]
    exact carried.enough
  · intro carried
    refine ⟨fun b cast => carried.good b ((same b).mp cast), ?_⟩
    rw [one]
    exact carried.enough

/-- Fewer votes are needed more easily. -/
theorem Carried.fewer {needed less : Nat} (carried : Carried Good voter needed ballots)
    (fewer : less ≤ needed) :
    Carried Good voter less ballots :=
  ⟨carried.good, Nat.le_trans fewer carried.enough⟩

/-- The number of votes needed, raised once there was too much volume. -/
def raised (base high limit volume : Nat) : Nat := if limit ≤ volume then max base high else base

section

variable {base high limit volume : Nat}

/-- Votes are enough for a raised number when they are enough for both, or it is not raised. -/
theorem raised_le_iff {votes : Nat} :
    raised base high limit volume ≤ votes ↔ base ≤ votes ∧ (volume < limit ∨ high ≤ votes) := by
  unfold raised
  split <;> omega

/-- A raised quorum is at least the base. -/
theorem base_le_raised : base ≤ raised base high limit volume :=
  (raised_le_iff.mp (Nat.le_refl _)).1

/-- More volume never lowers the number. -/
theorem raised_mono {more : Nat} (grows : volume ≤ more) :
    raised base high limit volume ≤ raised base high limit more := by
  unfold raised
  -- The one case to rule out is raised before and not after, which the volumes contradict.
  split <;> split <;> omega

end

end Quorums

end NasTools
