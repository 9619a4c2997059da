import NasTools.Lib.MergeTree
import NasTools.Model.Crypto.Concrete
import NasTools.Model.Lease.Sweep
import NasTools.Model.Store.Bucket

/-!
Buckets that are merged: when order and grouping make no difference, and when a local change stands.
-/

namespace NasTools

namespace KeyObject

/-- Of two entries with the same clock and the same writer neither wins. -/
def SameStamp (a b : KeyObject) : Prop := a.lamport = b.lamport ∧ a.writerId = b.writerId

/-- The later clock wins, and on equal clocks the lesser writer. -/
theorem beats_iff {a b : KeyObject} : a.beats b ↔
    b.lamport.toNat < a.lamport.toNat ∨ a.lamport = b.lamport ∧
      compare b.writerId a.writerId = .lt := by
  simp [beats, UInt64.lt_iff_toNat_lt]

/-- Neither of two entries wins exactly where they have the same stamp. -/
theorem tied_iff {a b : KeyObject} : a.beats b = false ∧ b.beats a = false ↔ a.SameStamp b := by
  -- If neither wins, both the clocks and the writers are equal.
  rw [← Bool.not_eq_true, ← Bool.not_eq_true, beats_iff, beats_iff, SameStamp]
  constructor
  · rintro ⟨first, second⟩
    have clock : a.lamport = b.lamport := UInt64.toNat_inj.mp (by omega)
    refine ⟨clock, ?_⟩
    cases order : compare a.writerId b.writerId with
    | lt => exact absurd (.inr ⟨clock.symm, order⟩) second
    | eq => exact Std.LawfulEqCmp.eq_of_compare order
    | gt => exact absurd (.inr ⟨clock, Std.OrientedCmp.gt_iff_lt.mp order⟩) first
  · rintro ⟨clock, writer⟩
    simp [clock, writer]

/-- An entry that wins does not lose. -/
theorem beats_asymm (a b : KeyObject) (wins : a.beats b) : b.beats a = false := by
  -- Winning both ways would be winning against oneself.
  cases again : b.beats a with
  | false => rfl
  | true =>
    have looped := beats_trans a b a wins again
    rw [beats_irrefl] at looped
    cases looped

/-- What wins against an entry wins against a third one, or that one wins against the entry. -/
theorem beats_weak (a b c : KeyObject) (wins : a.beats c) : a.beats b ∨ b.beats c := by
  -- The clock in the middle is below, equal or above.
  rw [beats_iff] at wins ⊢
  rw [beats_iff]
  rcases Nat.lt_trichotomy b.lamport.toNat a.lamport.toNat with less | same | more
  · exact .inl (.inl less)
  · rcases wins with later | ⟨clock, writer⟩
    · exact .inr (.inl (by omega))
    · have clock' : a.lamport = b.lamport := UInt64.toNat_inj.mp same.symm
      cases order : compare b.writerId a.writerId with
      | lt => exact .inl (.inr ⟨clock', rfl⟩)
      | eq =>
        rw [Std.LawfulEqCmp.eq_of_compare order]
        exact .inr (.inr ⟨clock'.symm.trans clock, writer⟩)
      | gt =>
        have above := Std.TransCmp.lt_trans writer (Std.OrientedCmp.gt_iff_lt.mp order)
        exact .inr (.inr ⟨clock'.symm.trans clock, above⟩)
  · rcases wins with later | ⟨clock, _⟩
    · exact .inr (.inl (by omega))
    · exact .inr (.inl (by rw [← clock]; exact more))

end KeyObject

namespace BucketManifest

/-- A version of a key that no other one among some buckets beats. -/
def Newest (buckets : List BucketManifest) (key : Bytes) (e : KeyObject) : Prop :=
  (∃ b ∈ buckets, b.get key = some e) ∧ ∀ b ∈ buckets, ∀ other, b.get key = some other →
    other.beats e = false

/-- Every order and grouping in which some buckets are merged comes to the same bucket. -/
def Converge (buckets : List BucketManifest) : Prop :=
  ∀ t u : MergeTree BucketManifest, (∀ b, b ∈ t.leaves ↔ b ∈ buckets) →
    (∀ b, b ∈ u.leaves ↔ b ∈ buckets) →
    t.eval merge = u.eval merge

/--
No two buckets hold different versions of a key that have one stamp and that no other version beats.
-/
def Unambiguous (buckets : List BucketManifest) : Prop :=
  ∀ key x y, Newest buckets key x → Newest buckets key y → x.SameStamp y → x = y

/-- A change of a key stands when an older bucket is merged with it, on either side. -/
def Stands (changed : BucketManifest) (key : Bytes) (e : KeyObject)
    (older : BucketManifest) : Prop :=
  (merge changed older).get key = some e ∧ (merge older changed).get key = some e

/-- Buckets converge exactly if their entries do. -/
theorem converge_iff_entries {buckets : List BucketManifest} :
    Converge buckets ↔ Latest.Converges KeyObject.beats (buckets.map entries) := by
  -- A tree of buckets is a tree of their entries.
  have covers {tree : MergeTree BucketManifest} (all : ∀ b, b ∈ tree.leaves ↔ b ∈ buckets)
    (m : OrdMap Bytes KeyObject) :
      m ∈ (tree.map entries).leaves ↔ m ∈ buckets.map entries := by
    rw [MergeTree.leaves_map, List.mem_map, List.mem_map]
    exact exists_congr fun b => and_congr_left' (all b)
  have covers' {tree : MergeTree (OrdMap Bytes KeyObject)}
    (all : ∀ m, m ∈ tree.leaves ↔ m ∈ buckets.map entries)
      (b : BucketManifest) : b ∈ (tree.map mk).leaves ↔ b ∈ buckets := by
    rw [MergeTree.leaves_map, List.mem_map]
    constructor
    · rintro ⟨m, member, rfl⟩
      obtain ⟨b, listed, rfl⟩ := List.mem_map.mp ((all m).mp member)
      exact listed
    · intro listed
      exact ⟨b.entries, (all b.entries).mpr (List.mem_map_of_mem listed), rfl⟩
  constructor
  · intro same t u coversT coversU
    have equal := same (t.map mk) (u.map mk) (covers' coversT) (covers' coversU)
    rw [MergeTree.eval_map (fun _ _ => rfl), MergeTree.eval_map (fun _ _ => rfl)] at equal
    exact congrArg entries equal
  · intro same t u coversT coversU
    have equal := same (t.map entries) (u.map entries) (covers coversT) (covers coversU)
    rw [MergeTree.eval_map (fun _ _ => rfl), MergeTree.eval_map (fun _ _ => rfl)] at equal
    exact congrArg mk equal

/-- The newest entry of the buckets is that of their maps. -/
theorem newest_entries {buckets : List BucketManifest} {key : Bytes} {e : KeyObject} :
    Latest.Newest KeyObject.beats (buckets.map entries) key e ↔ Newest buckets key e := by
  simp [Latest.Newest, Newest, get]

/-- Order and grouping make no difference exactly where no newest version is ambiguous. -/
theorem converge_iff {buckets : List BucketManifest} : Converge buckets ↔ Unambiguous buckets := by
  -- The general fact about newest versions, read under each key.
  rw [converge_iff_entries, Latest.converges_iff KeyObject.beats_irrefl KeyObject.beats_trans
    KeyObject.beats_weak]
  simp only [newest_entries]
  constructor
  · intro one key x y first second _
    exact one key x y first second
  · intro one key x y first second
    -- Neither beats the other, so the two have one stamp.
    obtain ⟨⟨b, inB, heldB⟩, bestX⟩ := first
    obtain ⟨⟨c, inC, heldC⟩, bestY⟩ := second
    exact one key x y ⟨⟨b, inB, heldB⟩, bestX⟩ ⟨⟨c, inC, heldC⟩, bestY⟩
      (KeyObject.tied_iff.mp ⟨bestY b inB x heldB, bestX c inC y heldC⟩)

/--
Two buckets merge to the same both ways exactly where entries of one key and one stamp are the same.
-/
theorem merge_comm_iff {a b : BucketManifest} : merge a b = merge b a ↔
    ∀ key x y, a.get key = some x → b.get key = some y → x.SameStamp y → x = y := by
  -- Buckets are their entries, and neither of two tied ones beats the other.
  have entries_ : merge a b = merge b a ↔
      Latest.merge KeyObject.beats a.entries b.entries =
        Latest.merge KeyObject.beats b.entries a.entries :=
    ⟨congrArg entries, congrArg mk⟩
  rw [entries_, Latest.merge_comm_iff KeyObject.beats_asymm]
  simp only [← KeyObject.tied_iff, and_imp]
  rfl

/--
A change stamped with the next clock beats whatever the bucket had seen, but for the
last clock there is.
-/
theorem stands_iff {bucket changed older : BucketManifest} {key : Bytes} {writer : Digest}
    {object : Option Manifest} (seen : bucket.Absorbs older)
    (made : bucket.put key ⟨bucket.nextLamport key, writer, object⟩ = .ok changed) :
    changed.Stands key ⟨bucket.nextLamport key, writer, object⟩ older ↔
      ∀ y, older.get key = some y → y.lamport = u64Max →
        compare y.writerId writer = .lt ∨ y = ⟨bucket.nextLamport key, writer, object⟩ := by
  -- The version that was put is the winner or it is not.
  generalize is : (⟨bucket.nextLamport key, writer, object⟩ : KeyObject) = e at made ⊢
  have held : changed.get key = some e := by
    simp only [put, except_bind_eq_ok, except_pure_eq, Except.ok.injEq] at made
    obtain ⟨_, _, rfl⟩ := made
    simp [get]
  have merged (a b : BucketManifest) :
      (merge a b).get key = Latest.winner KeyObject.beats (a.get key) (b.get key) :=
    Latest.getElem?_merge a.entries b.entries key
  rw [Stands, merged, merged, held]
  cases old : older.get key with
  | none => exact ⟨(fun _ _ impossible => nomatch impossible), fun _ => ⟨rfl, rfl⟩⟩
  | some y =>
    -- The change stands exactly where it wins, or is what was there.
    have wins : (Latest.winner KeyObject.beats (some e) (some y) = some e ∧
        Latest.winner KeyObject.beats (some y) (some e) = some e) ↔ e.beats y ∨ y = e := by
      simp only [Latest.winner, Option.some.injEq]
      cases first : e.beats y with
      | true => simp [KeyObject.beats_asymm e y first]
      | false =>
        simp only [Bool.false_eq_true, if_false, false_or]
        exact ⟨fun both => both.2, fun same => ⟨by rw [same]; simp, same⟩⟩
    obtain ⟨x, had, loses⟩ := (Latest.absorbs_iff KeyObject.beats_irrefl).mp seen key y old
    -- The clock of the change is past that of every version seen, unless there is none past it.
    have clock : e.lamport.toNat = min (x.lamport.toNat + 1) (2 ^ 64 - 1) := by
      rw [← is]
      simp only [nextLamport, get, had, Option.map_some, Option.getD_some]
      rw [toNat_satAdd, UInt64.toNat_one]
    have below : y.lamport.toNat ≤ x.lamport.toNat := by
      rw [← Bool.not_eq_true, KeyObject.beats_iff] at loses
      omega
    have bound := x.lamport.toNat_lt
    have last : y.lamport = u64Max ↔ y.lamport.toNat = 2 ^ 64 - 1 := UInt64.toNat_inj.symm
    rw [wins, KeyObject.beats_iff, ← UInt64.toNat_inj]
    have author : e.writerId = writer := by rw [← is]
    rw [author]
    constructor
    · intro either y' same full
      obtain rfl := Option.some.inj same
      rw [last] at full
      rcases either with (later | ⟨_, less⟩) | same
      · omega
      · exact .inl less
      · exact .inr same
    · intro condition
      by_cases full : y.lamport = u64Max
      · rcases condition y rfl full with less | same
        · rw [last] at full
          exact .inl (.inr ⟨by omega, less⟩)
        · exact .inr same
      · rw [last] at full
        have bound' := y.lamport.toNat_lt
        exact .inl (.inl (by omega))

/--
Merging buckets is idempotent and associative, and converges exactly where no newest
version is ambiguous.
-/
theorem merge_converges_iff (a b c : BucketManifest) (buckets : List BucketManifest) :
    merge a a = a ∧ merge (merge a b) c = merge a (merge b c) ∧
    (merge a b = merge b a ↔ ∀ key x y, a.get key = some x → b.get key = some y →
      x.SameStamp y → x = y) ∧
    (Converge buckets ↔ Unambiguous buckets) ∧
    ∀ (bucket changed older : BucketManifest) (key : Bytes) (writer : Digest)
    (object : Option Manifest),
      bucket.Absorbs older → bucket.put key ⟨bucket.nextLamport key, writer, object⟩ = .ok changed →
      (changed.Stands key ⟨bucket.nextLamport key, writer, object⟩ older ↔
        ∀ y, older.get key = some y → y.lamport = u64Max →
          compare y.writerId writer = .lt ∨ y = ⟨bucket.nextLamport key, writer, object⟩) := by
  refine ⟨?_, ?_, merge_comm_iff, converge_iff, fun _ _ _ _ _ _ => stands_iff⟩
  · exact congrArg mk (Latest.merge_self KeyObject.beats_irrefl a.entries)
  · exact congrArg mk (Latest.merge_assoc KeyObject.beats_trans KeyObject.beats_weak a.entries
      b.entries c.entries)

end BucketManifest

section

open Concrete

/-- A bucket with one key. -/
def oneKey (e : KeyObject) : BucketManifest := ⟨(∅ : OrdMap Bytes KeyObject).insert [1] e⟩

/-- The manifest of an empty file. -/
def emptyManifest : Manifest := ⟨manifestVersion, .convergent, .none, .file, [], 0, [], []⟩

/--
Two buckets that are accepted and hold different versions under one stamp merge
differently each way.

And past the last clock a change gives way to what it was made over.
-/
theorem same_stamp_merges_differently :
    ((oneKey ⟨1, digest [1], none⟩).encode.bind BucketManifest.decode =
      .ok (oneKey ⟨1, digest [1], none⟩) ∧
      (oneKey ⟨1, digest [1], some emptyManifest⟩).encode.bind BucketManifest.decode =
        .ok (oneKey ⟨1, digest [1], some emptyManifest⟩) ∧
      (oneKey ⟨1, digest [1], none⟩).merge (oneKey ⟨1, digest [1], some emptyManifest⟩) ≠
        (oneKey ⟨1, digest [1], some emptyManifest⟩).merge (oneKey ⟨1, digest [1], none⟩)) ∧
    ((oneKey ⟨u64Max, digest [2], none⟩).put [1] ⟨(oneKey ⟨u64Max, digest [2], none⟩).nextLamport
      [1], digest [1],
        some emptyManifest⟩ = .ok (oneKey ⟨u64Max, digest [1], some emptyManifest⟩) ∧
      ¬(oneKey ⟨u64Max, digest [1], some emptyManifest⟩).Stands [1] ⟨u64Max, digest [1],
        some emptyManifest⟩
        (oneKey ⟨u64Max, digest [2], none⟩)) := by
  refine ⟨⟨by decide, by decide, by decide⟩, by decide, ?_⟩
  unfold BucketManifest.Stands
  decide

end

end NasTools
