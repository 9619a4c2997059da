import NasTools.Model.Store.Concrete

/-!
Cutting with any accepted configuration, which configurations can be fitted to a
profile, and padding.
-/

namespace NasTools

section

variable [GearTable]

/--
Cutting a byte string comes to an end, and the chunks put together are that byte string.

No chunk is empty or too long, and only the last one can be too short.
-/
theorem Chunker.split_within {cfg : ChunkerConfig} (valid : cfg.validate = .ok ()) (data : Bytes) :
    ∃ ch, Chunker.new cfg = .ok ch ∧ Yields (Split.next ch) data (ch.split data) ∧
      (ch.split data).flatten = data ∧
      (∀ chunk ∈ ch.split data, chunk ≠ [] ∧ chunk.length ≤ cfg.max) ∧
      ∀ chunk ∈ (ch.split data).dropLast, cfg.min ≤ chunk.length := by
  -- The chunker that is made cuts as the general lemmas say.
  obtain ⟨ch, made⟩ := Chunker.new_ok valid
  -- The chunker keeps the configuration, so its bounds are those of the configuration.
  obtain rfl := Chunker.cfg_of_new made
  exact ⟨ch, made, ch.yields_split data, ch.flatten_split data, fun _ => Chunker.mem_split,
    fun _ => Chunker.le_of_mem_dropLast_split⟩

end

section

open Concrete

/-- With the default configuration three bytes are cut within its bounds. -/
theorem Chunker.split_within_default : ∃ ch, Chunker.new .default = .ok ch ∧
    Yields (Split.next ch) [1, 2, 3] (ch.split [1, 2, 3]) ∧
      (ch.split [1, 2, 3]).flatten = [1, 2, 3] ∧
    (∀ chunk ∈ ch.split [1, 2, 3], chunk ≠ [] ∧ chunk.length ≤ ChunkerConfig.default.max) ∧
    ∀ chunk ∈ (ch.split [1, 2, 3]).dropLast, ChunkerConfig.default.min ≤ chunk.length := by
  have valid : ChunkerConfig.default.validate = .ok () := by decide
  exact Chunker.split_within valid [1, 2, 3]

end

namespace ChunkerConfig

/--
A configuration that goes with a profile: it is accepted, and its longest chunk can be framed.
-/
def Usable (cfg : ChunkerConfig) (profile : PaddingProfile) : Prop :=
  cfg.validate = .ok () ∧ profile.Frames cfg.max

instance (cfg : ChunkerConfig) (profile : PaddingProfile) : Decidable (cfg.Usable profile) :=
  inferInstanceAs (Decidable (_ ∧ _))

/-- The largest plaintext the top class of the ladder frames. -/
def topPlaintext : Nat := 256 * 1024 - padHeader

variable {cfg : ChunkerConfig}

/-- What an accepted configuration looks like. -/
theorem validate_eq_ok :
    cfg.validate = .ok () ↔ (cfg.min ≤ cfg.avg ∧ cfg.avg ≤ cfg.max ∧ 0 < cfg.min) ∧
    (cfg.min ≠ cfg.max → isPowerOfTwo cfg.avg = true ∧
      trailingZeros cfg.avg + normalization < 64) := by
  unfold validate
  by_cases fixed : cfg.min = cfg.max
  · simp [fixed, ensure_eq_ok, and_assoc, Nat.pos_iff_ne_zero]
  · simp [fixed, ensure_eq_ok, except_bind_eq_ok, and_assoc, Nat.pos_iff_ne_zero]

/-- A configuration of one size is accepted, whatever the size. -/
theorem validate_fixed {size : Nat} (some_ : 0 < size) : (fixed size).validate = .ok () :=
  validate_eq_ok.mpr ⟨⟨Nat.le_refl _, Nat.le_refl _, some_⟩, fun apart => absurd rfl apart⟩

example : (fixed 4096).validate = .ok () := by decide +kernel

end ChunkerConfig

open ChunkerConfig (topPlaintext validate_eq_ok validate_fixed forProfile)

variable {base : ChunkerConfig}

/-- The largest plaintext is no power of two: it falls short of one by the header. -/
theorem topPlaintext_odd : isPowerOfTwo topPlaintext = false := by decide

/-- Lengths up to the largest plaintext are those the ladder frames. -/
theorem frames_classes {len : Nat} : PaddingProfile.Frames .classes len ↔ len ≤ topPlaintext :=
  ⟨fun frames => frames _ rfl,
    fun short limit is => by obtain rfl := Option.some.inj is; exact short⟩

/-- The configuration fitted to the ladder. -/
theorem forProfile_classes : forProfile .classes base =
    ⟨min base.min (min base.max topPlaintext), min base.avg (min base.max topPlaintext),
      min base.max topPlaintext⟩ := rfl

/-- Fitted to the ladder, the longest chunk can be framed. -/
theorem frames_forProfile (profile : PaddingProfile) (base : ChunkerConfig) :
    profile.Frames (forProfile profile base).max := by
  -- The longest chunk is clamped to what the profile frames.
  cases profile with
  | none => exact fun _ impossible => nomatch impossible
  | classes => exact frames_classes.mpr (Nat.min_le_right _ _)
  | fixed =>
    intro limit is
    obtain rfl := Option.some.inj is
    exact Nat.le_refl _

/-- Fitted to the ladder, a configuration is accepted unless its average alone is clamped. -/
theorem validate_forProfile_classes (valid : base.validate = .ok ()) :
    (forProfile .classes base).validate = .ok () ↔ base.avg ≤ topPlaintext ∨
      topPlaintext ≤ base.min := by
  -- The minimum and the maximum stay in order, so it depends on the average.
  obtain ⟨⟨low, high, some_⟩, masks⟩ := validate_eq_ok.mp valid
  have room : 0 < topPlaintext := by decide
  rw [validate_eq_ok, forProfile_classes]
  dsimp only
  constructor
  · intro accepted
    obtain ⟨_, masks'⟩ := accepted
    by_contra clamped
    -- The average becomes the largest plaintext, from which no mask can be built.
    have avg : min base.avg (min base.max topPlaintext) = topPlaintext := by omega
    have power := (masks' (by omega)).1
    rw [avg, topPlaintext_odd] at power
    cases power
  · intro fits
    refine ⟨by omega, ?_⟩
    intro apart
    -- The sizes differ still, so it is the average of the base that the masks are built from.
    have avg : min base.avg (min base.max topPlaintext) = base.avg := by omega
    rw [avg]
    exact masks (by omega)

/--
Fitted to a profile, a configuration goes with it unless it is the ladder that clamps
its average alone.
-/
theorem forProfile_usable_iff (valid : base.validate = .ok ()) (profile : PaddingProfile) :
    (forProfile profile base).Usable profile ↔
      (profile = .classes → base.avg ≤ 256 * 1024 - padHeader ∨
        256 * 1024 - padHeader ≤ base.min) := by
  -- Only the ladder clamps the sizes of the base one by one.
  have frames := frames_forProfile profile base
  cases profile with
  | none => exact iff_of_true ⟨valid, frames⟩ fun impossible => nomatch impossible
  | classes =>
    have accepted := validate_forProfile_classes valid
    exact ⟨fun usable _ => accepted.mp usable.1, fun fits => ⟨accepted.mpr (fits rfl), frames⟩⟩
  | fixed =>
    have accepted : (forProfile .fixed base).validate = .ok () :=
      validate_fixed (show 0 < fixedChunk by decide)
    exact iff_of_true ⟨accepted, frames⟩ fun impossible => nomatch impossible

/-- The usual configuration goes with the ladder. -/
theorem forProfile_usable_default : (forProfile .classes .default).Usable .classes := by
  have valid : ChunkerConfig.default.validate = .ok () := by decide
  exact (forProfile_usable_iff valid .classes).mpr fun _ => .inl (by decide)

/--
An accepted configuration for larger chunks that is not accepted any more once it is
fitted to the ladder.
-/
theorem forProfile_unusable_large :
    ¬∀ (profile : PaddingProfile) (base : ChunkerConfig), base.validate = .ok () →
    (forProfile profile base).Usable profile := by
  intro always
  have usable := always .classes ⟨64 * 1024, 512 * 1024, 2 * 1024 * 1024⟩ (by decide)
  exact absurd usable (by decide)

/--
Padding is refused exactly beyond the profile's limit, and is undone by unpadding.

A padded chunk has one of the profile's lengths, and no two padded chunks hold one plaintext.
-/
theorem PaddingProfile.pad_bijective (profile : PaddingProfile) :
    (∀ plaintext, (∃ e, profile.pad plaintext = .error e) ↔ ¬profile.Frames plaintext.length) ∧
    (∀ plaintext padded, profile.pad plaintext = .ok padded →
      profile.unpad padded = .ok plaintext ∧ profile.Admits padded.length) ∧
    (∀ padded plaintext, profile.unpad padded = .ok plaintext →
      profile.pad plaintext = .ok padded) ∧
    ∀ padded other plaintext, profile.unpad padded = .ok plaintext →
      profile.unpad other = .ok plaintext →
      padded = other := by
  -- Of the parts, what is made was shown before, and the limits are left.
  refine ⟨?_, fun _ _ made => ⟨unpad_pad made, admits_of_pad made⟩, fun _ _ => pad_of_unpad, ?_⟩
  · intro plaintext
    cases made : profile.pad plaintext with
    | error e =>
      refine iff_of_true ⟨e, rfl⟩ fun frames => ?_
      -- What the limit allows is padded.
      obtain ⟨padded, is⟩ := pad_ok frames
      cases made.symm.trans is
    | ok padded =>
      exact iff_of_false (fun ⟨_, impossible⟩ => nomatch impossible)
        (not_not.mpr (frames_of_pad made))
  · intro padded other plaintext first second
    -- Both are the padded form of their plaintext.
    exact Except.ok.inj ((pad_of_unpad first).symm.trans (pad_of_unpad second))

end NasTools
