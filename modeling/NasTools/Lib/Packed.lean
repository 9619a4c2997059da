import NasTools.Lib.Bytes
import Mathlib

/-!
Arrays of one width, written one behind the other, and words that are told apart from
what follows them.
-/

namespace NasTools

/-- The whole pieces of some bytes, without what is left over. -/
def chunksExact (n : Nat) (data : Bytes) : List Bytes :=
  (List.range (data.length / n)).map fun i => (data.drop (n * i)).take n

variable {n : Nat}

/-- A first piece is cut off, and the rest is cut as it would be alone. -/
theorem chunksExact_append (positive : 0 < n) {first : Bytes} (size : first.length = n)
    (rest : Bytes) :
    chunksExact n (first ++ rest) = first :: chunksExact n rest := by
  -- The first piece is cut off, and the later ones move down by its length.
  have count : (first ++ rest).length / n = rest.length / n + 1 := by
    rw [List.length_append, size, Nat.add_comm, Nat.add_div_right _ positive]
  unfold chunksExact
  rw [count, List.range_succ_eq_map, List.map_cons, List.map_map]
  congr 1
  · rw [Nat.mul_zero, List.drop_zero, List.take_left' size]
  · apply List.map_congr_left
    intro i _
    -- The first piece lies in front of every later one.
    have later : n * (i + 1) = first.length + n * i := by rw [size, Nat.mul_succ, Nat.add_comm]
    show ((first ++ rest).drop (n * (i + 1))).take n = _
    rw [later, List.drop_append, List.drop_of_length_le (by omega), List.nil_append,
      Nat.add_sub_cancel_left]

/-- Pieces of one width, put together, are cut where they were joined. -/
theorem chunksExact_flatMap (positive : 0 < n) (items : List (FixedBytes n)) :
    chunksExact n (items.flatMap FixedBytes.bytes) = items.map FixedBytes.bytes := by
  induction items with
  | nil => simp [chunksExact]
  | cons a rest ih => rw [List.flatMap_cons, chunksExact_append positive a.size, ih, List.map_cons]

/-- Where nothing is left over, the pieces are arrays, and put together they are the bytes again. -/
theorem exists_arrays {data : Bytes} (whole : n ∣ data.length) :
    ∃ items : List (FixedBytes n), data = items.flatMap FixedBytes.bytes := by
  -- Induction over how many arrays there are: the first is taken off the front.
  obtain ⟨count, size⟩ := whole
  induction count generalizing data with
  | zero =>
    obtain rfl : data = [] := List.length_eq_zero_iff.mp (by simpa using size)
    exact ⟨[], rfl⟩
  | succ count ih =>
    rw [Nat.mul_succ] at size
    have shorter : (data.drop n).length = n * count := by
      rw [List.length_drop]
      omega
    obtain ⟨items, rest⟩ := ih shorter
    have first : (data.take n).length = n := by
      rw [List.length_take]
      omega
    exact ⟨⟨data.take n, first⟩ :: items, by rw [List.flatMap_cons, ← rest, List.take_append_drop]⟩

/-- Packed arrays take their width each. -/
theorem length_flatMap_bytes (items : List (FixedBytes n)) :
    (items.flatMap FixedBytes.bytes).length = n * items.length := by
  -- Every item adds its own width.
  induction items with
  | nil => rfl
  | cons a rest ih =>
    rw [List.flatMap_cons, List.length_append, ih, a.size, List.length_cons, Nat.mul_succ,
      Nat.add_comm]

variable {A α : Type}

/-- In front of anything else, a word and what follows it are known from the whole string. -/
def SplitsOff (words : Set A) (spell : A → List α) : Prop :=
  ∀ a ∈ words, ∀ b ∈ words, ∀ rest rest', spell a ++ rest = spell b ++ rest' → a = b ∧ rest = rest'

namespace SplitsOff

variable {words : Set A} {spell : A → List α}

/-- Words of one length split off. -/
theorem of_width (width : Nat) (size : ∀ a ∈ words, (spell a).length = width)
    (injective : Set.InjOn spell words) :
    SplitsOff words spell := by
  intro a inA b inB rest rest' same
  obtain ⟨here, after⟩ := List.append_inj same ((size a inA).trans (size b inB).symm)
  exact ⟨injective inA inB here, after⟩

/-- So many words, one behind the other, split off together. -/
theorem flatMap (splits : SplitsOff words spell) (count : Nat) :
    SplitsOff {items : List A | items.length = count ∧ ∀ a ∈ items, a ∈ words} fun items =>
      items.flatMap spell := by
  -- The first words split off, and what is behind them is one word shorter on both sides.
  induction count with
  | zero =>
    rintro items ⟨none_, _⟩ items' ⟨none', _⟩ rest rest' same
    obtain rfl := List.length_eq_zero_iff.mp none_
    obtain rfl := List.length_eq_zero_iff.mp none'
    exact ⟨rfl, same⟩
  | succ count ih =>
    rintro items ⟨size, known⟩ items' ⟨size', known'⟩ rest rest' same
    obtain ⟨a, tail, rfl⟩ := List.exists_cons_of_length_eq_add_one size
    obtain ⟨b, tail', rfl⟩ := List.exists_cons_of_length_eq_add_one size'
    simp only [List.flatMap_cons, List.append_assoc] at same
    obtain ⟨rfl, behind⟩ := splits a (known a (by simp)) b (known' b (by simp)) _ _ same
    have shorter : tail.length = count ∧ ∀ a ∈ tail, a ∈ words :=
      ⟨Nat.succ.inj size, fun a member => known a (List.mem_cons_of_mem _ member)⟩
    have shorter' : tail'.length = count ∧ ∀ a ∈ tail', a ∈ words :=
      ⟨Nat.succ.inj size', fun a member => known' a (List.mem_cons_of_mem _ member)⟩
    obtain ⟨rfl, after⟩ := ih tail shorter tail' shorter' rest rest' behind
    exact ⟨rfl, after⟩

end SplitsOff

end NasTools
