import NasTools.Lib.Fallible
import NasTools.Model.Core.Checked

/-!
The Argon2id parameters a wrap record stores, and the floor and ceiling a device puts on them.
-/

namespace NasTools

/-- The passphrase hash, which comes from another package; nothing is assumed of it. -/
class Argon2 where
  deriveKeyArgon2 : (passphrase salt : Bytes) → (memoryKib iterations : UInt32) →
    Option (FixedBytes 32)

/-- One mebibyte, in the kibibytes Argon2 counts in. -/
def mib : UInt32 := 1024

/-- Why parameters are refused. -/
inductive ParamError where
  | tooWeak (field : String) (got min : UInt32)
  -- A stored record does not get to choose how much memory its recovery takes.
  | tooStrong (field : String) (got max : UInt32)
  | wrongParallelism (got : UInt32)
  | decode (source : DecodeError)
  | badWidth (got : Nat)
deriving DecidableEq

/-- The text a parameter error prints. -/
def ParamError.display : ParamError → String
  | .tooStrong field got max =>
    "stored " ++ field ++ " is " ++ toString got ++ ", above the " ++ toString max ++
      " this device will attempt; a peer-supplied record does not get to choose how much memory recovery uses"
  | .tooWeak field got min =>
    "argon2 " ++ field ++ " is " ++ toString got ++ ", below the required minimum " ++ toString min
  | .wrongParallelism got => "argon2 parallelism is " ++ toString got ++
    ", SPECS §2.2.2 fixes it at 1"
  | .decode e => "argon2 params encoding: " ++ e.debug
  | .badWidth got => "argon2 params field is " ++ toString got ++ " B, want 4"

/-- Argon2id parameters, as a wrap record stores them. -/
structure Argon2Params where
  memoryKib : UInt32
  iterations : UInt32
  parallelism : UInt32
deriving DecidableEq

/-- The floor a caller demands of stored parameters, and the most its device will attempt. -/
structure WrapPolicy where
  minMemoryKib : UInt32
  minIterations : UInt32
  maxMemoryKib : UInt32
  maxIterations : UInt32

/-- The policy of production. -/
def WrapPolicy.spec : WrapPolicy := ⟨256 * mib, 3, 4096 * mib, 64⟩

/-- The policy of tests. -/
def WrapPolicy.fast : WrapPolicy := ⟨8 * mib, 1, 4096 * mib, 64⟩

/-- The four bytes of a 32-bit integer. -/
def u32Le (n : UInt32) : Bytes := natToLe 4 n.toNat

/-- The 32-bit integer with these bytes. -/
def u32OfLe (data : Bytes) : UInt32 := UInt32.ofNat (natOfLe data)

/-- A 32-bit number is written in four bytes. -/
@[simp] theorem u32Le_length (n : UInt32) : (u32Le n).length = 4 := natToLe_length 4 _

/-- A 32-bit integer reads back from its own bytes. -/
@[simp] theorem u32OfLe_u32Le (n : UInt32) : u32OfLe (u32Le n) = n := by
  have bound : n.toNat < 256 ^ 4 := by simpa using n.toNat_lt
  rw [u32OfLe, u32Le, natOfLe_natToLe 4 _ bound, UInt32.ofNat_toNat]

/-- Four bytes are those of the integer read from them. -/
theorem u32Le_u32OfLe {data : Bytes} (width : data.length = 4) : u32Le (u32OfLe data) = data := by
  have bound : natOfLe data < 2 ^ 32 := by simpa [width] using natOfLe_lt data
  rw [u32Le, u32OfLe, UInt32.toNat_ofNat_of_lt' bound, ← width, natToLe_natOfLe]

namespace Argon2Params

/-- The parameters of production. -/
def spec : Argon2Params := ⟨256 * mib, 3, 1⟩

/-- The parameters of tests. -/
def weakForTests : Argon2Params := ⟨8 * mib, 1, 1⟩

/-- Refuse what is below the floor, or above the ceiling. -/
def check (params : Argon2Params) (policy : WrapPolicy) : Except ParamError Unit := do
  -- The order is that of the source: lanes, the two floors, the two ceilings.
  ensure (params.parallelism = 1) (.wrongParallelism params.parallelism)
  ensure (policy.minMemoryKib ≤ params.memoryKib)
    (.tooWeak "memory_kib" params.memoryKib policy.minMemoryKib)
  ensure (policy.minIterations ≤ params.iterations)
    (.tooWeak "iterations" params.iterations policy.minIterations)
  ensure (params.memoryKib ≤ policy.maxMemoryKib)
    (.tooStrong "memory_kib" params.memoryKib policy.maxMemoryKib)
  ensure (params.iterations ≤ policy.maxIterations)
    (.tooStrong "iterations" params.iterations policy.maxIterations)

/-- The parameters as they are stored. -/
def encode (params : Argon2Params) : Bytes :=
  expectFields [u32Le params.memoryKib, u32Le params.iterations, u32Le params.parallelism]

/-- A stored parameter, which is four bytes wide. -/
def number (data : Bytes) : Except ParamError UInt32 := do
  ensure (data.length = 4) (.badWidth data.length)
  return u32OfLe data

/-- Read parameters back. -/
def decode (bytes : Bytes) : Except ParamError Argon2Params :=
  match decodeFields bytes with
  | .error e => .error (.decode e)
  | .ok [memoryKib, iterations, parallelism] => do
    return ⟨← number memoryKib, ← number iterations, ← number parallelism⟩
  -- Any other count of fields is reported by the count.
  | .ok fields => .error (.badWidth fields.length)

/-- The key a passphrase derives under these parameters; the lanes are always one. -/
def derive [Argon2] (params : Argon2Params) (passphrase salt : Bytes) :
    Except ParamError (FixedBytes 32) :=
  -- The primitive refuses only a cost it cannot run, which is reported as a memory floor of 8.
  okOr (Argon2.deriveKeyArgon2 passphrase salt params.memoryKib params.iterations)
    (.tooWeak "memory_kib" params.memoryKib 8)

/-- The fields of the stored form, each of them four bytes. -/
theorem fields_fit (params : Argon2Params) :
    FieldsFit [u32Le params.memoryKib, u32Le params.iterations, u32Le params.parallelism] := by
  simp [FieldsFit, maxField]

/-- The parameters fit their fields. -/
theorem encodeFields_eq (params : Argon2Params) :
    encodeFields [u32Le params.memoryKib, u32Le params.iterations, u32Le params.parallelism] =
      .ok params.encode := by
  rw [encode, expectFields_ok params.fields_fit, encodeFields_ok params.fields_fit]

/-- A number is read from the four bytes that it is written as. -/
theorem number_eq_ok {data : Bytes} {n : UInt32} : number data = .ok n ↔ data = u32Le n := by
  -- Four bytes are checked for, and they are all a number is.
  simp only [number, except_bind_eq_ok, ensure_eq_ok, except_pure_eq, Except.ok.injEq]
  constructor
  · rintro ⟨_, width, rfl⟩
    exact (u32Le_u32OfLe width).symm
  · rintro rfl
    exact ⟨(), u32Le_length n, u32OfLe_u32Le n⟩

/-- Exactly the stored form of some parameters is read as them. -/
theorem decode_eq_ok {bytes : Bytes} {params : Argon2Params} :
    decode bytes = .ok params ↔ bytes = params.encode := by
  -- What is accepted has the three fields of the stored form, and that form is accepted.
  constructor
  · intro decoded
    unfold decode at decoded
    split at decoded
    · cases decoded
    · rename_i memoryKib iterations parallelism split
      simp only [except_bind_eq_ok, number_eq_ok, except_pure_eq, Except.ok.injEq] at decoded
      obtain ⟨m, rfl, t, rfl, p, rfl, rfl⟩ := decoded
      -- The fields that were read spell the input, and they are the fields the
      -- parameters are written with.
      have written := encodeFields_of_decodeFields split
      exact Except.ok.inj (written.symm.trans (encodeFields_eq ⟨m, t, p⟩))
    · cases decoded
  · rintro rfl
    have numbers (n : UInt32) : number (u32Le n) = .ok n := number_eq_ok.mpr rfl
    rw [decode, decodeFields_of_encodeFields params.encodeFields_eq]
    simp only [numbers, except_ok_bind, except_pure_eq]

/-- Different parameters are stored differently. -/
theorem encode_inj {a b : Argon2Params} (same : a.encode = b.encode) : a = b :=
  Except.ok.inj ((decode_eq_ok.mpr rfl).symm.trans (decode_eq_ok.mpr same))

/-- The stored form is always as long. -/
theorem encode_length (params : Argon2Params) : params.encode.length = 24 := by
  rw [encode, expectFields_ok params.fields_fit, length_flatMap_framedField]
  simp [framedLen, lenPrefix]

end Argon2Params

end NasTools
