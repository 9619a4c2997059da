import NasTools.Lib.Globs
import NasTools.Lib.Lossy

/-!
Characters in UTF-8: where they begin shows in the bytes, and their order is that of the bytes.
-/

namespace NasTools

namespace Utf8

/-- How many bytes a character takes. -/
def size (c : Char) : Nat := (String.utf8EncodeChar c).length

/-- The first byte of a character, as opposed to the ones after it. -/
def Leads (b : UInt8) : Prop := b.toNat < 0x80 ∨ 0xc0 ≤ b.toNat

/-- A character is a first byte and bytes that are none; a small first byte is all of it. -/
theorem encodeChar_shape (c : Char) :
    ∃ b bs, String.utf8EncodeChar c = b :: bs ∧ Leads b ∧ (∀ x ∈ bs, ¬Leads x) ∧
      (b.toNat < 0x80 → bs = [] ∧ b.toNat = c.toNat) := by
  -- The encoding has one to four bytes, by the size of the character.
  have bound : c.val.toNat < 0x110000 := by
    have valid := c.valid
    simp only [UInt32.isValidChar, Nat.isValidChar] at valid
    omega
  have value : ∀ n, n < 256 → (UInt8.ofNat n).toNat = n :=
    fun n small => UInt8.toNat_ofNat_of_lt' small
  have lead : ∀ n, n < 256 → (Leads (UInt8.ofNat n) ↔ n < 0x80 ∨ 0xc0 ≤ n) := by
    intro n small
    rw [Leads, value n small]
  unfold String.utf8EncodeChar
  dsimp only
  split_ifs
  all_goals
    refine ⟨_, _, rfl, (lead _ (by omega)).mpr (by omega), ?_, ?_⟩
    · -- The bytes that follow carry six bits each.
      have follows : ∀ n, 0x80 ≤ n → n < 0xc0 → ¬Leads (UInt8.ofNat n) := by
        intro n low high leads
        have seen := (lead n (by omega)).mp leads
        omega
      first
        | exact List.forall_mem_nil _
        | exact List.forall_mem_singleton.mpr (follows _ (by omega) (by omega))
        | exact List.forall_mem_cons.mpr ⟨follows _ (by omega) (by omega),
            List.forall_mem_singleton.mpr (follows _ (by omega) (by omega))⟩
        | exact List.forall_mem_cons.mpr ⟨follows _ (by omega) (by omega),
            List.forall_mem_cons.mpr ⟨follows _ (by omega) (by omega),
              List.forall_mem_singleton.mpr (follows _ (by omega) (by omega))⟩⟩
    · rw [value _ (by omega)]
      intro small
      first
        | exact ⟨rfl, rfl⟩
        | exact absurd small (by omega)

/-- Characters that are written first in a byte string are the same. -/
theorem encodeChar_append_inj {c d : Char} {s t : List UInt8}
    (same : String.utf8EncodeChar c ++ s = String.utf8EncodeChar d ++ t) : c = d ∧ s = t := by
  have first := congrArg fromUtf8Lossy same
  rw [fromUtf8Lossy_char, fromUtf8Lossy_char] at first
  obtain ⟨rfl, _⟩ := List.cons.inj first
  exact ⟨rfl, List.append_cancel_left same⟩

/-- A character is found in a text only where it was written. -/
theorem readable : Globs.Readable String.utf8EncodeChar where
  -- An encoded text splits at the start of a character only between characters.
  written c := by
    obtain ⟨b, bs, is, _⟩ := encodeChar_shape c
    simp [is]
  found text c block t parted := by
    obtain ⟨b, bs, is, leads, _, _⟩ := encodeChar_shape c
    induction text generalizing block with
    | nil => simp [is] at parted
    | cons d text ih =>
      obtain ⟨b', bs', is', _, follow, _⟩ := encodeChar_shape d
      rw [List.flatMap_cons] at parted
      by_cases inside : (String.utf8EncodeChar d).length ≤ block.length
      · -- The whole first character is in front.
        rw [List.append_assoc] at parted
        obtain ⟨more, rfl⟩ : ∃ more, block = String.utf8EncodeChar d ++ more :=
          List.prefix_of_prefix_length_le ⟨_, parted⟩ (List.prefix_append _ _) inside |>.imp
            fun _ same => same.symm
        rw [List.append_assoc] at parted
        obtain ⟨u, v, rfl, front, back⟩ := ih more (by
          rw [List.append_assoc]
          exact List.append_cancel_left parted)
        exact ⟨d :: u, v, rfl, by rw [List.flatMap_cons, front], back⟩
      · rcases block with _ | ⟨x, block⟩
        · rw [List.nil_append] at parted
          obtain ⟨rfl, rest⟩ := encodeChar_append_inj parted
          exact ⟨[], text, rfl, rfl, rest⟩
        · -- A first byte would be one of those that follow.
          rw [is', is] at parted
          rw [is'] at inside
          have there : bs'[block.length]? = some b := by
            have position := congrArg (·[block.length + 1]?) parted
            have short : block.length < bs'.length := by
              simp only [List.length_cons] at inside
              omega
            simpa [List.getElem?_append_left, short] using position
          exact absurd leads (follow b (List.mem_of_getElem? there))

/-- A small byte of a text is a character of its own. -/
theorem encodeChar_of_mem {c : Char} {b : UInt8} (member : b ∈ String.utf8EncodeChar c)
    (small : b.toNat < 0x80) :
    String.utf8EncodeChar c = [b] ∧ b.toNat = c.toNat := by
  -- A small byte leads, and one that leads small is alone.
  obtain ⟨b', bs, is, _, follow, alone⟩ := encodeChar_shape c
  rw [is] at member
  rcases List.mem_cons.mp member with rfl | later
  · obtain ⟨rfl, value⟩ := alone small
    exact ⟨is, value⟩
  · exact absurd (.inl small) (follow b later)

/-- Byte strings compare at their first bytes, and behind them where these are the same. -/
theorem compare_cons_lt {a b : Nat} {s t : List UInt8} (small : b < 256) (upTo : a ≤ b)
    (rest : a = b → compare s t = .lt) :
    compare (UInt8.ofNat a :: s) (UInt8.ofNat b :: t) = .lt := by
  -- The first bytes decide, or they are equal and the rest does.
  rw [List.compare_cons_cons]
  rcases Nat.lt_or_eq_of_le upTo with less | same
  · have first : compare (UInt8.ofNat a) (UInt8.ofNat b) = .lt := by
      rw [Std.compare_eq_lt, UInt8.lt_iff_toNat_lt,
        UInt8.toNat_ofNat_of_lt' (Nat.lt_of_le_of_lt upTo small), UInt8.toNat_ofNat_of_lt' small]
      exact less
    rw [first]
    rfl
  · rw [same, Std.ReflOrd.compare_self]
    exact rest same

/-- A character below another one is written below it, whatever follows. -/
theorem compare_encodeChar_lt {c d : Char} (less : c < d) (s t : List UInt8) :
    compare (String.utf8EncodeChar c ++ s) (String.utf8EncodeChar d ++ t) = .lt := by
  -- The forms are compared by their lengths, and then digit by digit.
  have values : c.val.toNat < d.val.toNat := less
  have bound : d.val.toNat < 0x110000 := by
    have valid := d.valid
    simp only [UInt32.isValidChar, Nat.isValidChar] at valid
    omega
  -- A shorter form has a smaller first byte; of two forms of one length the first
  -- digit that differs decides.
  unfold String.utf8EncodeChar
  dsimp only
  split_ifs
  all_goals first
    | omega
    | exact compare_cons_lt (by omega) (by omega) fun _ => (by omega)
    | exact compare_cons_lt (by omega) (by omega) fun _ =>
      compare_cons_lt (by omega) (by omega) fun _ => (by omega)
    | exact compare_cons_lt (by omega) (by omega) fun _ =>
      compare_cons_lt (by omega) (by omega) fun _ =>
        compare_cons_lt (by omega) (by omega) fun _ => (by omega)
    | exact compare_cons_lt (by omega) (by omega) fun _ =>
      compare_cons_lt (by omega) (by omega) fun _ =>
        compare_cons_lt (by omega) (by omega) fun _ =>
          compare_cons_lt (by omega) (by omega) fun _ => (by omega)

/-- What two byte strings begin with together does not count. -/
theorem compare_append_left (front s t : List UInt8) :
    compare (front ++ s) (front ++ t) = compare s t := by
  -- Induction over the common front.
  induction front with
  | nil => rfl
  | cons b front ih =>
    rw [List.cons_append, List.cons_append, List.compare_cons_cons, Std.ReflOrd.compare_self, ih]
    rfl

/-- The same of texts. -/
theorem compare_encode_lt {a b : List Char} (less : a < b) :
    compare (a.flatMap String.utf8EncodeChar) (b.flatMap String.utf8EncodeChar) = .lt := by
  -- Induction over the texts.
  induction a generalizing b with
  | nil =>
    cases b with
    | nil => exact absurd less (List.lt_irrefl [])
    | cons d b =>
      cases encoded : (d :: b).flatMap String.utf8EncodeChar with
      | nil => simp at encoded
      | cons => rfl
  | cons c a ih =>
    cases b with
    | nil => exact absurd less (List.not_lt_nil _)
    | cons d b =>
      rw [List.flatMap_cons, List.flatMap_cons]
      -- The first characters decide, unless they are the same.
      rcases List.cons_lt_cons_iff.mp less with first | ⟨rfl, later⟩
      · exact compare_encodeChar_lt first _ _
      · rw [compare_append_left]
        exact ih later

/-- Texts compare as their bytes do. -/
theorem compare_text (a b : String) :
    compare (a.toList.flatMap String.utf8EncodeChar) (b.toList.flatMap String.utf8EncodeChar) =
      compare a b := by
  -- Comparing encodings decides in the same way as comparing texts, less, equal or more.
  rcases Std.lt_trichotomy a b with less | rfl | more
  · exact (compare_encode_lt (String.lt_iff_toList_lt.mp less)).trans (if_pos less).symm
  · rw [Std.ReflOrd.compare_self, Std.ReflOrd.compare_self]
  · have swapped : compare b a = .lt := if_pos more
    rw [Std.OrientedCmp.gt_of_lt (compare_encode_lt (String.lt_iff_toList_lt.mp more)),
      Std.OrientedCmp.gt_of_lt swapped]

end Utf8

end NasTools
