import NasTools.Lib.Bytes
import NasTools.Lib.Fallible
import NasTools.Model.Core.Format

/-! Chunk padding: a length, the plaintext, and zeros up to the smallest class that fits. -/

namespace NasTools

/-- Bytes of length prefix ahead of the plaintext. -/
def padHeader : Nat := 4

/-- The size classes, smallest first. -/
def padLadder : List Nat := [32 * 1024, 64 * 1024, 128 * 1024, 256 * 1024]

/-- The single class of the fixed profile. -/
def fixedClass : Nat := 64 * 1024

/-- The largest plaintext the fixed profile frames. -/
def fixedChunk : Nat := fixedClass - padHeader

/-- Why a chunk cannot be padded, or a padded chunk is refused. -/
inductive PadError where
  | tooLarge (len largestClass : Nat)
  | truncated (have_ : Nat)
  | lengthOverrun (want have_ : Nat)
  | notAClass (len : Nat)
  | dirtyFill (offset : Nat)
  | nonMinimalClass (got minimal : Nat)
deriving DecidableEq

/-- The text a padding error prints. -/
def PadError.display : PadError → String
  | .tooLarge len largestClass =>
    "chunk of " ++ toString len ++ " B exceeds the largest class (" ++
      toString largestClass ++ " B)"
  | .truncated have_ => "padded chunk is " ++ toString have_ ++ " B, shorter than its header"
  | .lengthOverrun want have_ =>
    "declared length " ++ toString want ++ " B exceeds the " ++ toString have_ ++ " B available"
  | .notAClass len => "padded chunk of " ++ toString len ++ " B is not a size class"
  | .dirtyFill offset => "non-zero padding at offset " ++ toString offset
  | .nonMinimalClass got minimal =>
    "padded to the " ++ toString got ++ " B class when " ++ toString minimal ++ " B would fit"

namespace PaddingProfile

/-- The size classes a profile admits, in ascending order. -/
def sizeClasses : PaddingProfile → List Nat
  | .none => []
  | .classes => padLadder
  | .fixed => [fixedClass]

/-- The class a payload must be padded into: the smallest that holds it and its header. -/
def minimalClass (profile : PaddingProfile) (len : Nat) : Option Nat :=
  profile.sizeClasses.find? fun c => len + padHeader ≤ c

/-- The largest plaintext a profile can frame; one that does not pad has no limit. -/
def maxPlaintext (profile : PaddingProfile) : Option Nat :=
  profile.sizeClasses.getLast?.map (· - padHeader)

/-- Whether plaintexts of some length can be framed. -/
def Frames (profile : PaddingProfile) (len : Nat) : Prop :=
  ∀ limit, profile.maxPlaintext = some limit → len ≤ limit

instance (profile : PaddingProfile) (len : Nat) : Decidable (profile.Frames len) :=
  decidable_of_iff (∀ limit ∈ profile.maxPlaintext, len ≤ limit) Iff.rfl

/-- Frame and pad a chunk. -/
def pad (profile : PaddingProfile) (plaintext : Bytes) : Except PadError Bytes :=
  if profile.sizeClasses = [] then .ok plaintext
  else
    match profile.minimalClass plaintext.length with
    | Option.none => .error (.tooLarge plaintext.length (profile.sizeClasses.getLastD 0))
    | some c =>
      -- The length is a 32-bit number, and the class was chosen so that the rest is not negative.
      .ok (natToLe padHeader plaintext.length ++ plaintext ++
        List.replicate (c - (plaintext.length + padHeader)) 0)

/-- Recover the plaintext from a padded chunk, checking the whole frame. -/
def unpad (profile : PaddingProfile) (padded : Bytes) : Except PadError Bytes :=
  if profile.sizeClasses = [] then .ok padded
  else do
    ensure (padded.length ∈ profile.sizeClasses) (.notAClass padded.length)
    ensure (padHeader ≤ padded.length) (.truncated padded.length)
    let want := natOfLe (padded.take padHeader)
    let stop := want + padHeader
    ensure (stop ≤ padded.length) (.lengthOverrun want (padded.length - padHeader))
    match (padded.drop stop).findIdx? (· ≠ 0) with
    | some i => .error (.dirtyFill (stop + i))
    | Option.none =>
      -- The class must be the smallest one that fits, not merely one that does.
      match profile.minimalClass want with
      | some c => do
        ensure (c = padded.length) (.nonMinimalClass padded.length c)
        return (padded.drop padHeader).take want
      | Option.none => .error (.lengthOverrun want (padded.length - padHeader))

variable {profile : PaddingProfile} {plaintext padded : Bytes}

/-- Every class is far below the range of the length prefix. -/
theorem class_lt {c : Nat} (member : c ∈ profile.sizeClasses) : c < 256 ^ padHeader := by
  -- The ladder is a table, so its entries are checked one by one.
  cases profile with
  | none => cases member
  | classes =>
    have all : ∀ c ∈ padLadder, c < 256 ^ padHeader := by decide
    exact all c member
  | fixed =>
    have all : ∀ c ∈ [fixedClass], c < 256 ^ padHeader := by decide
    exact all c member

/-- The minimal class is a class of the profile, and holds the payload with its header. -/
theorem minimalClass_spec {len c : Nat} (found : profile.minimalClass len = some c) :
    c ∈ profile.sizeClasses ∧ len + padHeader ≤ c :=
  ⟨List.mem_of_find?_eq_some found, by simpa using List.find?_some found⟩

/-- A padded chunk is exactly as long as its class. -/
theorem pad_length {c : Nat} (found : profile.minimalClass plaintext.length = some c) :
    (natToLe padHeader plaintext.length ++ plaintext ++
      List.replicate (c - (plaintext.length + padHeader)) (0 : UInt8)).length = c := by
  -- The header, the payload and the fill add up to the class.
  have fits := (minimalClass_spec found).2
  simp only [List.length_append, natToLe_length, List.length_replicate]
  omega

/-- A padded chunk is the plaintext, or as long as some class. -/
theorem pad_eq_ok (made : profile.pad plaintext = .ok padded) :
    padded = plaintext ∨ padded.length ∈ profile.sizeClasses := by
  -- Padding leaves the text as it is or fills it to a size class.
  unfold pad at made
  split at made
  · exact .inl (Except.ok.inj made).symm
  · cases found : profile.minimalClass plaintext.length with
    | none =>
      rw [found] at made
      cases made
    | some c =>
      rw [found] at made
      obtain rfl := Except.ok.inj made
      rw [pad_length found]
      exact .inr (minimalClass_spec found).1

/-- What was padded is recovered. -/
theorem unpad_pad (made : profile.pad plaintext = .ok padded) :
    profile.unpad padded = .ok plaintext := by
  -- Without size classes nothing is padded, and with them the header tells the length.
  unfold pad at made
  unfold unpad
  by_cases unpadded : profile.sizeClasses = []
  · rw [if_pos unpadded] at made ⊢
    rw [Except.ok.inj made]
  · rw [if_neg unpadded] at made ⊢
    cases found : profile.minimalClass plaintext.length with
    | none =>
      rw [found] at made
      cases made
    | some c =>
      rw [found] at made
      obtain rfl := Except.ok.inj made
      obtain ⟨member, fits⟩ := minimalClass_spec found
      have whole := pad_length found
      have small : plaintext.length < 256 ^ padHeader := by
        have bound := class_lt member
        omega
      have header : padHeader ≤ c := by omega
      -- The header reads back as the length of the payload.
      have length : natOfLe ((natToLe padHeader plaintext.length ++ plaintext ++
          List.replicate (c - (plaintext.length + padHeader)) 0).take padHeader) =
            plaintext.length := by
        rw [List.append_assoc, List.take_left' (natToLe_length _ _), natOfLe_natToLe _ _ small]
      -- Behind the payload there is nothing but the fill.
      have fill : (natToLe padHeader plaintext.length ++ plaintext ++
          List.replicate (c - (plaintext.length + padHeader)) 0).drop
            (plaintext.length + padHeader) =
          List.replicate (c - (plaintext.length + padHeader)) (0 : UInt8) := by
        rw [List.drop_left']
        simp only [List.length_append, natToLe_length]
        omega
      have clean : (List.replicate (c - (plaintext.length + padHeader)) (0 : UInt8)).findIdx?
          (· ≠ 0) = Option.none := by
        rw [List.findIdx?_eq_none_iff]
        intro byte zero
        simp [List.eq_of_mem_replicate zero]
      have payload : ((natToLe padHeader plaintext.length ++ plaintext ++
          List.replicate (c - (plaintext.length + padHeader)) 0).drop padHeader).take
            plaintext.length =
          plaintext := by
        rw [List.append_assoc, List.drop_left' (natToLe_length _ _), List.take_left' rfl]
      simp only [whole, length, fill, clean, found, payload, ensure_of member, ensure_of header,
        ensure_of fits, ensure_of, except_ok_bind, except_pure_eq]

/-- Two chunks that pad to the same bytes are the same. -/
theorem pad_injective {other : Bytes} (first : profile.pad plaintext = .ok padded)
    (second : profile.pad other = .ok padded) : plaintext = other := by
  -- Both are recovered from the padded bytes.
  have same : Except.ok plaintext = Except.ok other :=
    (unpad_pad first).symm.trans (unpad_pad second)
  exact Except.ok.inj same

/-- A chunk no longer than the profile's limit can be padded. -/
theorem pad_ok (fits : profile.Frames plaintext.length) :
    ∃ padded, profile.pad plaintext = .ok padded := by
  -- What fits into the largest class has a class.
  unfold pad
  by_cases unpadded : profile.sizeClasses = []
  · exact ⟨plaintext, if_pos unpadded⟩
  · rw [if_neg unpadded]
    cases found : profile.minimalClass plaintext.length with
    | some c => exact ⟨_, rfl⟩
    | none =>
      -- The last class is the largest, and it has room for the header.
      have top : ∃ c ∈ profile.sizeClasses, padHeader ≤ c ∧
          profile.maxPlaintext = some (c - padHeader) := by
        cases profile with
        | none => exact absurd rfl unpadded
        | classes => exact ⟨256 * 1024, by decide, by decide, rfl⟩
        | fixed => exact ⟨fixedClass, by decide, by decide, rfl⟩
      obtain ⟨c, member, room, limit⟩ := top
      have short := fits _ limit
      have refused := List.find?_eq_none.mp found c member
      simp only [decide_eq_true_eq] at refused
      omega

/-- What can be padded is no longer than the profile's limit. -/
theorem frames_of_pad (made : profile.pad plaintext = .ok padded) :
    profile.Frames plaintext.length := by
  -- A class was found, and it is no larger than the last one.
  intro limit is
  unfold pad at made
  by_cases unpadded : profile.sizeClasses = []
  · simp [maxPlaintext, unpadded] at is
  · rw [if_neg unpadded] at made
    cases found : profile.minimalClass plaintext.length with
    | none =>
      rw [found] at made
      cases made
    | some c =>
      obtain ⟨member, fits⟩ := minimalClass_spec found
      -- No class of the ladder is above its last one, which the limit is taken from.
      have top : c ≤ limit + padHeader := by
        cases profile with
        | none => cases member
        | classes =>
          have all : ∀ c ∈ padLadder, c ≤ 256 * 1024 := by decide
          obtain rfl := Option.some.inj is
          exact all c member
        | fixed =>
          obtain rfl := Option.some.inj is
          exact Nat.le_of_eq (List.mem_singleton.mp member)
      omega

/-- What is recovered from a padded chunk pads to that chunk again. -/
theorem pad_of_unpad (read : profile.unpad padded = .ok plaintext) :
    profile.pad plaintext = .ok padded := by
  -- The length that is read back fits the class it was read from, and every byte is accounted
  -- for.
  unfold unpad at read
  unfold pad
  by_cases unpadded : profile.sizeClasses = []
  · rw [if_pos unpadded] at read ⊢
    rw [Except.ok.inj read]
  · rw [if_neg unpadded] at read ⊢
    simp only [except_bind_eq_ok, ensure_eq_ok] at read
    obtain ⟨_, _, _, header, _, inside, rest⟩ := read
    generalize wanted : natOfLe (padded.take padHeader) = want at rest inside
    cases clean : (padded.drop (want + padHeader)).findIdx? (· ≠ 0) with
    | some i =>
      simp only [clean] at rest
      cases rest
    | none =>
      cases found : profile.minimalClass want with
      | none =>
        simp only [clean, found] at rest
        cases rest
      | some c =>
        simp only [clean, found, except_bind_eq_ok, ensure_eq_ok, except_pure_eq,
          Except.ok.injEq] at rest
        obtain ⟨_, rfl, rfl⟩ := rest
        have payload : ((padded.drop padHeader).take want).length = want := by
          rw [List.length_take, List.length_drop]
          omega
        -- The announced length is the length of the payload, and its bytes are the header itself.
        have prefixed : natToLe padHeader want = padded.take padHeader := by
          have width : (padded.take padHeader).length = padHeader := List.length_take_of_le header
          have spelled := natToLe_natOfLe (padded.take padHeader)
          rw [width, wanted] at spelled
          exact spelled
        -- Behind the payload every byte is zero, so it is the fill.
        have fill : padded.drop (want + padHeader) =
            List.replicate (padded.length - (want + padHeader)) 0 := by
          rw [List.findIdx?_eq_none_iff] at clean
          rw [List.eq_replicate_iff]
          exact ⟨List.length_drop, fun byte member => by simpa using clean byte member⟩
        rw [payload, found]
        dsimp only
        rw [prefixed, ← fill, List.append_assoc, Nat.add_comm want, ← List.drop_drop,
          List.take_append_drop, List.take_append_drop]

/-- The lengths a padded chunk can have; a profile that does not pad leaves every length. -/
def Admits (profile : PaddingProfile) (len : Nat) : Prop :=
  profile.sizeClasses = [] ∨ len ∈ profile.sizeClasses

/-- A padded chunk has one of the lengths of its profile. -/
theorem admits_of_pad (made : profile.pad plaintext = .ok padded) :
    profile.Admits padded.length := by
  -- Either the profile has no classes or the length is one of them.
  by_cases unpadded : profile.sizeClasses = []
  · exact .inl unpadded
  · unfold pad at made
    rw [if_neg unpadded] at made
    cases found : profile.minimalClass plaintext.length with
    | none =>
      rw [found] at made
      cases made
    | some c =>
      rw [found] at made
      obtain rfl := Except.ok.inj made
      rw [pad_length found]
      exact .inr (minimalClass_spec found).1

end PaddingProfile

end NasTools
