import NasTools.Lib.Pieces
import NasTools.Model.Store.Padding

/-!
Content-defined chunking: where a byte string is cut, and cutting a reader in a bounded window.
-/

namespace NasTools

/-- Bits by which the two masks differ from the average. -/
def normalization : Nat := 2

/-- The gear table: 256 words that BLAKE3 derives from a fixed context string. -/
class GearTable where
  gear : UInt8 → UInt64

/-- The least, the usual and the greatest length of a chunk. -/
structure ChunkerConfig where
  min : Nat
  avg : Nat
  max : Nat
deriving DecidableEq

/-- Why a configuration is refused. -/
inductive ConfigError where
  | unordered (min avg max : Nat)
  | avgNotPowerOfTwo (avg : Nat)
  | avgOutOfRange (avg : Nat)
deriving DecidableEq

/-- The text a configuration error prints. -/
def ConfigError.display : ConfigError → String
  | .unordered min avg max =>
    "chunk sizes must satisfy min<=avg<=max, got " ++ toString min ++ "/" ++ toString avg ++ "/" ++
      toString max
  | .avgNotPowerOfTwo avg => "average chunk size " ++ toString avg ++ " is not a power of two"
  | .avgOutOfRange avg => "average chunk size " ++ toString avg ++ " out of range"

/-- Whether exactly one bit of a number is set. -/
def isPowerOfTwo (n : Nat) : Bool := n != 0 && n &&& (n - 1) == 0

/-- How many zero bits a 64-bit number ends in. -/
def trailingZeros (n : Nat) : Nat := ((List.range 64).find? fun i => n.testBit i).getD 64

namespace ChunkerConfig

/-- 16 KiB, 64 KiB and 256 KiB. -/
def default : ChunkerConfig := ⟨16 * 1024, 64 * 1024, 256 * 1024⟩

/-- Chunks of one size only. -/
def fixed (size : Nat) : ChunkerConfig := ⟨size, size, size⟩

/-- A configuration whose longest chunk a profile can frame. -/
def forProfile (profile : PaddingProfile) (base : ChunkerConfig) : ChunkerConfig :=
  match profile with
  | .none => base
  | .fixed => fixed fixedChunk
  | .classes =>
    let cap := (PaddingProfile.maxPlaintext .classes).getD 0
    let max := Nat.min base.max cap
    ⟨Nat.min base.min max, Nat.min base.avg max, max⟩

/-- Refuse sizes out of order, and an average the masks cannot be built from. -/
def validate (cfg : ChunkerConfig) : Except ConfigError Unit := do
  ensure ((cfg.min ≤ cfg.avg ∧ cfg.avg ≤ cfg.max) ∧ cfg.min ≠ 0)
    (.unordered cfg.min cfg.avg cfg.max)
  -- Cutting at one size never looks at a mask.
  if cfg.min ≠ cfg.max then
    ensure (isPowerOfTwo cfg.avg) (.avgNotPowerOfTwo cfg.avg)
    ensure (trailingZeros cfg.avg + normalization < 64) (.avgOutOfRange cfg.avg)

end ChunkerConfig

/-- A word whose low bits are set. -/
def mask (bits : Nat) : UInt64 :=
  if 64 ≤ bits then UInt64.ofNat (2 ^ 64 - 1) else UInt64.ofNat (2 ^ bits - 1)

/-- A chunker, whose configuration has been checked. -/
structure Chunker where
  cfg : ChunkerConfig
  -- The harder mask applies before the average, and the easier one after it.
  maskS : UInt64
  maskL : UInt64
  fixed : Bool
  valid : cfg.validate = .ok ()

/-- The chunker of a configuration. -/
def Chunker.new (cfg : ChunkerConfig) : Except ConfigError Chunker :=
  match valid : cfg.validate with
  | .error e => .error e
  | .ok () =>
    let bits := Nat.min (trailingZeros cfg.avg) 63
    .ok ⟨cfg, mask (bits + normalization), mask (bits - Nat.min normalization bits),
      cfg.min == cfg.max, valid⟩

/-- A chunker keeps the configuration it is made of. -/
theorem Chunker.cfg_of_new {cfg : ChunkerConfig} {ch : Chunker} (made : Chunker.new cfg = .ok ch) :
    ch.cfg = cfg := by
  unfold Chunker.new at made
  split at made
  · cases made
  · rw [← Except.ok.inj made]

/-- A checked configuration has a chunker. -/
theorem Chunker.new_ok {cfg : ChunkerConfig} (valid : cfg.validate = .ok ()) :
    ∃ ch, Chunker.new cfg = .ok ch := by
  -- Only an invalid configuration is refused.
  unfold Chunker.new
  split
  · rename_i refused
    rw [valid] at refused
    cases refused
  · exact ⟨_, rfl⟩

variable [GearTable]

/-- Roll the fingerprint over some bytes; a cut point ends the scan, as the error it throws. -/
def scan (mask : UInt64) : (i : Nat) → (fp : UInt64) → Bytes → Except Nat UInt64
  | _, fp, [] => .ok fp
  | i, fp, b :: rest =>
    let fp := (fp <<< 1) + GearTable.gear b
    if fp &&& mask = 0 then .error (i + 1) else scan mask (i + 1) fp rest

namespace Chunker

/--
Two scans, the second with the easier mask; where neither cuts, everything scanned is one chunk.
-/
def cutPoint (ch : Chunker) (buf : Bytes) (n : Nat) : Except Nat UInt64 := do
  let normal := Nat.min n ch.cfg.avg
  let fp ← scan ch.maskS ch.cfg.min 0 ((buf.take normal).drop ch.cfg.min)
  let i := Nat.max ch.cfg.min normal
  scan ch.maskL i fp ((buf.take n).drop i)

/-- The length of the next chunk at the start of a buffer. -/
def cut (ch : Chunker) (buf : Bytes) : Nat :=
  let n := Nat.min buf.length ch.cfg.max
  if ch.fixed then n
  else if n ≤ ch.cfg.min then n
  else
    match ch.cutPoint buf n with
    | .error i => i
    | .ok _ => n

/-- The chunks of a byte string in memory. -/
def split (ch : Chunker) (data : Bytes) : List Bytes := pieces ch.cut data

/-- The next chunk of a slice and the slice behind it, until the slice is used up. -/
def Split.next (ch : Chunker) (rest : Bytes) : Option (Bytes × Bytes) :=
  if rest = [] then none
  else
    let n := ch.cut rest
    some (rest.take n, rest.drop n)

end Chunker

/--
A source of bytes, and how much each of its next reads delivers at most; later reads are full.
-/
structure Reader where
  rest : Bytes
  limits : List Nat

/-- Read into a buffer of some length; only the end of the input delivers nothing. -/
def Reader.read (r : Reader) (len : Nat) : Bytes × Reader :=
  let n := match r.limits with
    | [] => len
    | limit :: _ => Nat.min len (Nat.max limit 1)
  (r.rest.take n, ⟨r.rest.drop n, r.limits.tail⟩)

/-- A byte string in memory, every read of which is full. -/
def Reader.cursor (data : Bytes) : Reader := ⟨data, []⟩

/-- Bytes asked for at a time. -/
def readSize : Nat := 64 * 1024

/--
A reader cut in a window: what was read, how much of it is used up, and whether the end was seen.
-/
structure Chunker.Stream where
  reader : Reader
  buf : Bytes
  start : Nat
  eof : Bool

namespace Chunker.Stream

/-- Read until the window is wide enough or the input ends, at most `fuel` times. -/
def fill (want : Nat) : (fuel : Nat) → Stream → Stream
  | 0, s => s
  | fuel + 1, s =>
    if s.eof = false ∧ s.buf.length < want then
      let (data, reader) := s.reader.read readSize
      if data = [] then { s with reader, eof := true }
      else fill want fuel { s with reader, buf := s.buf ++ data }
    else s

/-- Drop what is used up, and top the window up. -/
def refill (ch : Chunker) (s : Stream) : Stream :=
  fill (ch.cfg.max * 2) (s.reader.rest.length + 1) { s with buf := s.buf.drop s.start, start := 0 }

/-- The next chunk of the reader. -/
def next (ch : Chunker) (s : Stream) : Option Bytes × Stream :=
  let s := if s.eof = false ∧ s.buf.length - s.start < ch.cfg.max then s.refill ch else s
  let avail := s.buf.drop s.start
  if avail = [] then (none, s)
  else (some (avail.take (ch.cut avail)), { s with start := s.start + ch.cut avail })

/-- The chunks up to the end, at most `fuel` of them. -/
def collect (ch : Chunker) : (fuel : Nat) → Stream → List Bytes
  | 0, _ => []
  | fuel + 1, s =>
    match s.next ch with
    | (none, _) => []
    | (some chunk, s) => chunk :: collect ch fuel s

end Chunker.Stream

/-- The most bytes that can be allocated at once. -/
def isizeMax : Nat := 2 ^ 63 - 1

/-- Chunk a reader in a bounded window; a window that is too large to allocate is a panic. -/
def Chunker.stream (ch : Chunker) (reader : Reader) : Option (List Bytes) :=
  if ch.cfg.max * 2 ≤ isizeMax
    then some (Stream.collect ch (reader.rest.length + 1) ⟨reader, [], 0, false⟩) else none

/-- A scan cuts behind a byte it has read. -/
theorem scan_error {mask fp : UInt64} {i k : Nat} {data : Bytes}
    (found : scan mask i fp data = .error k) :
    i < k ∧ k ≤ i + data.length := by
  -- Induction over the data: the cut is behind the byte that was just read.
  induction data generalizing i fp with
  | nil => cases found
  | cons b rest ih =>
    simp only [scan] at found
    split at found
    · -- The byte just read is the last of its chunk.
      obtain rfl := Except.error.inj found
      simp only [List.length_cons]
      omega
    · have later := ih found
      simp only [List.length_cons]
      omega

omit [GearTable] in
/-- The sizes of a checked configuration are in order, and the least is not zero. -/
theorem ChunkerConfig.ordered_of_validate {cfg : ChunkerConfig} (valid : cfg.validate = .ok ()) :
    cfg.min ≤ cfg.avg ∧ cfg.avg ≤ cfg.max ∧ 0 < cfg.min := by
  simp only [validate, except_bind_eq_ok, ensure_eq_ok] at valid
  obtain ⟨_, ⟨⟨low, high⟩, some_⟩, _⟩ := valid
  exact ⟨low, high, Nat.pos_of_ne_zero some_⟩

namespace Chunker

variable {ch : Chunker} {buf : Bytes}

/-- A cut point found by the scans is above the least size and within what was scanned. -/
theorem cutPoint_error {n k : Nat} (found : ch.cutPoint buf n = .error k) (long : ch.cfg.min ≤ n)
    (inside : n ≤ buf.length) : ch.cfg.min < k ∧ k ≤ n := by
  -- The cut is found by the first scan or by the second.
  have ordered := ChunkerConfig.ordered_of_validate ch.valid
  have least : ch.cfg.min ≤ Nat.min n ch.cfg.avg := Nat.le_min.mpr ⟨long, ordered.1⟩
  have least_ : Nat.max ch.cfg.min (Nat.min n ch.cfg.avg) = Nat.min n ch.cfg.avg :=
    Nat.max_eq_right least
  have most : Nat.min n ch.cfg.avg ≤ n := Nat.min_le_left _ _
  unfold cutPoint at found
  dsimp only at found
  cases first : scan ch.maskS ch.cfg.min 0 ((buf.take (Nat.min n ch.cfg.avg)).drop ch.cfg.min) with
  | error i =>
    -- The first scan reads from the least size up to the average.
    rw [first] at found
    obtain rfl : i = k := Except.error.inj found
    have bound := scan_error first
    simp only [List.length_drop, List.length_take] at bound
    omega
  | ok fp =>
    -- The second goes on from there.
    rw [first, except_ok_bind, least_] at found
    have bound := scan_error found
    simp only [List.length_drop, List.length_take] at bound
    omega

/-- A chunk is never longer than the buffer or the greatest size. -/
theorem cut_le (ch : Chunker) (buf : Bytes) : ch.cut buf ≤ Nat.min buf.length ch.cfg.max := by
  -- A cut lies within the data that was looked at.
  have inside : Nat.min buf.length ch.cfg.max ≤ buf.length := Nat.min_le_left _ _
  unfold cut
  dsimp only
  split
  · exact Nat.le_refl _
  · split
    · exact Nat.le_refl _
    · rename_i long
      split
      · rename_i found
        exact (cutPoint_error found (by omega) inside).2
      · exact Nat.le_refl _

/-- A chunk reaches the least size, or takes everything there is. -/
theorem le_cut (ch : Chunker) (buf : Bytes) : Nat.min buf.length ch.cfg.min ≤ ch.cut buf := by
  -- Below the least size no cut is looked for.
  have ordered := ChunkerConfig.ordered_of_validate ch.valid
  have least : Nat.min buf.length ch.cfg.min ≤ Nat.min buf.length ch.cfg.max :=
    Nat.le_min.mpr ⟨Nat.min_le_left _ _,
      Nat.le_trans (Nat.min_le_right _ _) (Nat.le_trans ordered.1 ordered.2.1)⟩
  have inside : Nat.min buf.length ch.cfg.max ≤ buf.length := Nat.min_le_left _ _
  unfold cut
  dsimp only
  split
  · exact least
  · split
    · exact least
    · rename_i long
      split
      · rename_i found
        have above := (cutPoint_error found (by omega) inside).1
        exact Nat.le_trans (Nat.min_le_right _ _) (Nat.le_of_lt above)
      · exact least

/-- Every buffer that is not empty has a chunk at its start. -/
theorem cut_advances (ch : Chunker) : Advances ch.cut := by
  -- A cut takes at least the least size, or all there is.
  intro buf some_
  have ordered := ChunkerConfig.ordered_of_validate ch.valid
  have long : 0 < Nat.min buf.length ch.cfg.min :=
    Nat.lt_min.mpr ⟨List.length_pos_iff.mpr some_, ordered.2.2⟩
  exact Nat.lt_of_lt_of_le long (ch.le_cut buf)

/-- Where a chunk ends depends on no more bytes than the longest chunk has. -/
theorem cut_looksAt (ch : Chunker) : LooksAt ch.cfg.max ch.cut := by
  -- A cut is at most the greatest size away, so it sees no more than that.
  intro window rest wide
  have whole : Nat.min (window ++ rest).length ch.cfg.max = ch.cfg.max :=
    Nat.min_eq_right (by rw [List.length_append]; omega)
  have part : Nat.min window.length ch.cfg.max = ch.cfg.max := Nat.min_eq_right wide
  -- Both scans read the same bytes, whatever comes behind the window.
  have same : ch.cutPoint (window ++ rest) ch.cfg.max = ch.cutPoint window ch.cfg.max := by
    have normal : Nat.min ch.cfg.max ch.cfg.avg ≤ window.length :=
      Nat.le_trans (Nat.min_le_left _ _) wide
    unfold cutPoint
    dsimp only
    rw [List.take_append_of_le_length normal, List.take_append_of_le_length wide]
  simp only [cut, whole, part, same]

/-- The chunks of a byte string put together are that byte string. -/
theorem flatten_split (ch : Chunker) (data : Bytes) : (ch.split data).flatten = data :=
  flatten_pieces ch.cut_advances data

/-- Nothing is cut off what is no longer than the least chunk. -/
theorem split_short {data : Bytes} (some_ : data ≠ []) (short : data.length ≤ ch.cfg.min) :
    ch.split data = [data] := by
  -- The whole of the data is below the least size, so it is one chunk.
  have least : data.length ≤ ch.cut data := by
    have bound := ch.le_cut data
    rwa [show Nat.min data.length ch.cfg.min = data.length from Nat.min_eq_left short] at bound
  rw [split, pieces_of_ne_nil ch.cut_advances some_, List.take_of_length_le least,
    List.drop_of_length_le least]
  rfl

/-- Every chunk has something in it, and is no longer than the greatest size. -/
theorem mem_split {data chunk : Bytes} (member : chunk ∈ ch.split data) :
    chunk ≠ [] ∧ chunk.length ≤ ch.cfg.max := by
  refine ⟨ne_nil_of_mem_pieces ch.cut_advances member, ?_⟩
  obtain ⟨left, _, rfl⟩ := mem_pieces ch.cut_advances member
  have bound : ch.cut left ≤ ch.cfg.max := Nat.le_trans (ch.cut_le left) (Nat.min_le_right _ _)
  exact Nat.le_trans (List.length_take_le _ _) bound

/-- Every chunk but the last reaches the least size. -/
theorem le_of_mem_dropLast_split {data chunk : Bytes} (member : chunk ∈ (ch.split data).dropLast) :
    ch.cfg.min ≤ chunk.length := by
  -- Every chunk but the last was cut with something behind it.
  obtain ⟨left, behind, rfl⟩ := mem_dropLast_pieces ch.cut_advances member
  -- Something is left behind the chunk, so it did not take everything there was.
  have shorter : ch.cut left < left.length := by
    have long := List.length_pos_iff.mpr behind
    rw [List.length_drop] at long
    omega
  have least : min left.length ch.cfg.min ≤ ch.cut left := ch.le_cut left
  rw [List.length_take]
  omega

/-- Taking chunks off a slice comes to an end, and gives the chunks of the slice. -/
theorem yields_split (ch : Chunker) (data : Bytes) : Yields (Split.next ch) data (ch.split data) :=
  yields_pieces ch.cut_advances rfl (fun _ some_ => if_neg some_) data

end Chunker

omit [GearTable] in
/-- A read delivers the front of what is left, and nothing only where nothing is left. -/
theorem Reader.read_spec (r : Reader) {len : Nat} (room : 0 < len) :
    (r.read len).1 ++ (r.read len).2.rest = r.rest ∧ ((r.read len).1 = [] → r.rest = []) := by
  -- A read delivers a front of the rest, which is empty only at the end.
  have delivered (n : Nat) (some_ : 0 < n) : r.rest.take n = [] → r.rest = [] := by
    intro nothing
    rcases List.take_eq_nil_iff.mp nothing with zero | empty
    · omega
    · exact empty
  unfold read
  cases limits : r.limits with
  | nil => exact ⟨List.take_append_drop _ _, delivered len room⟩
  | cons limit later =>
    have least : 0 < Nat.min len (Nat.max limit 1) :=
      Nat.lt_min.mpr ⟨room, Nat.lt_of_lt_of_le Nat.one_pos (Nat.le_max_right _ _)⟩
    exact ⟨List.take_append_drop _ _, delivered _ least⟩

namespace Chunker.Stream

variable {ch : Chunker} {s : Stream}

/-- What the stream has not cut yet. -/
def left (s : Stream) : Bytes := s.buf.drop s.start ++ s.reader.rest

/-- The end is seen only where the reader is at its end. -/
def Sound (s : Stream) : Prop := s.eof = true → s.reader.rest = []

omit [GearTable] in
/-- Filling loses nothing, and stops at the end of the input or when the window is wide enough. -/
theorem fill_spec (sound : s.Sound) (want : Nat) {fuel : Nat}
    (enough : s.reader.rest.length < fuel) :
    (fill want fuel s).Sound ∧ (fill want fuel s).start = s.start ∧
      (fill want fuel s).buf ++ (fill want fuel s).reader.rest = s.buf ++ s.reader.rest ∧
      ((fill want fuel s).eof = true ∨ want ≤ (fill want fuel s).buf.length) := by
  -- Every read that delivers something shortens what the reader has left.
  induction fuel generalizing s with
  | zero => exact absurd enough (Nat.not_lt_zero _)
  | succ fuel ih =>
    unfold fill
    split
    · obtain ⟨whole, atEnd⟩ := s.reader.read_spec (show 0 < readSize by decide)
      generalize s.reader.read readSize = result at whole atEnd ⊢
      obtain ⟨data, reader⟩ := result
      dsimp only at whole atEnd ⊢
      split
      · rename_i nothing
        have ended := atEnd nothing
        have empty : reader.rest = [] := by
          rw [ended, nothing, List.nil_append] at whole
          exact whole
        exact ⟨fun _ => empty, rfl, by rw [empty, ended], .inl rfl⟩
      · rename_i something
        have shorter : reader.rest.length < fuel := by
          have long := List.length_pos_iff.mpr something
          rw [← whole, List.length_append] at enough
          omega
        obtain ⟨sound', start, kept, wide⟩ := ih (s := { s with reader, buf := s.buf ++ data })
          (by
            intro eof
            have ended := sound eof
            rw [ended] at whole
            exact (List.append_eq_nil_iff.mp whole).2)
          shorter
        refine ⟨sound', start, ?_, wide⟩
        rw [kept, List.append_assoc, whole]
    · rename_i stop
      refine ⟨sound, rfl, rfl, ?_⟩
      cases eof : s.eof with
      | true => exact .inl rfl
      | false =>
        have wide : ¬s.buf.length < want := fun narrow => stop ⟨eof, narrow⟩
        exact .inr (Nat.le_of_not_lt wide)

/-- The next chunk is the one at the start of what is left, and the rest stays. -/
theorem next_spec (sound : s.Sound) : (s.next ch).2.Sound ∧
    ((s.left = [] ∧ (s.next ch).1 = none) ∨
      (s.left ≠ [] ∧ (s.next ch).1 = some (s.left.take (ch.cut s.left)) ∧
        (s.next ch).2.left = s.left.drop (ch.cut s.left))) := by
  -- Where the window is topped up nothing is lost, so what is left stays the same.
  have topped : ∃ t, (if s.eof = false ∧ s.buf.length - s.start < ch.cfg.max then s.refill ch
    else s) = t ∧
      t.Sound ∧ t.left = s.left ∧
        (t.reader.rest = [] ∨ ch.cfg.max ≤ (t.buf.drop t.start).length) := by
    refine ⟨_, rfl, ?_⟩
    split
    · obtain ⟨sound', start, kept, wide⟩ :=
        fill_spec (s := { s with buf := s.buf.drop s.start, start := 0 })
        sound (ch.cfg.max * 2) (Nat.lt_succ_self _)
      dsimp only at start
      unfold refill
      refine ⟨sound', by rw [left, start]; exact kept, ?_⟩
      rcases wide with eof | wide
      · exact .inl (sound' eof)
      · have double : ch.cfg.max ≤ ch.cfg.max * 2 := by omega
        rw [start, List.drop_zero]
        exact .inr (Nat.le_trans double wide)
    · rename_i full
      refine ⟨sound, rfl, ?_⟩
      cases eof : s.eof with
      | true => exact .inl (sound eof)
      | false =>
        have wide : ¬s.buf.length - s.start < ch.cfg.max := fun narrow => full ⟨eof, narrow⟩
        exact .inr (by rw [List.length_drop]; omega)
  obtain ⟨t, is, soundT, same, wide⟩ := topped
  have ordered := ChunkerConfig.ordered_of_validate ch.valid
  simp only [next, is]
  rw [← same]
  by_cases nothing : t.buf.drop t.start = []
  · rw [if_pos nothing]
    -- An empty window at this point means that the reader has ended.
    have ended : t.reader.rest = [] := by
      rcases wide with ended | wide
      · exact ended
      · rw [nothing, List.length_nil] at wide
        omega
    exact ⟨soundT, .inl ⟨by rw [left, nothing, ended, List.nil_append], rfl⟩⟩
  · rw [if_neg nothing]
    -- The cut is the same in the window as in everything that is left.
    have cutHere : ch.cut t.left = ch.cut (t.buf.drop t.start) := by
      rcases wide with ended | wide
      · rw [left, ended, List.append_nil]
      · exact ch.cut_looksAt _ _ wide
    have inside : ch.cut (t.buf.drop t.start) ≤ (t.buf.drop t.start).length :=
      Nat.le_trans (ch.cut_le _) (Nat.min_le_left _ _)
    refine ⟨soundT, .inr ⟨?_, ?_, ?_⟩⟩
    · intro empty
      exact nothing (List.append_eq_nil_iff.mp empty).1
    · rw [cutHere, left, List.take_append_of_le_length inside]
    · rw [cutHere]
      show t.buf.drop (t.start + _) ++ t.reader.rest = (t.buf.drop t.start ++ t.reader.rest).drop _
      rw [List.drop_append_of_le_length inside, List.drop_drop]

/-- Collecting gives the chunks of everything that is left. -/
theorem collect_eq (sound : s.Sound) {fuel : Nat} (enough : s.left.length < fuel) :
    collect ch fuel s = ch.split s.left := by
  -- Induction over the chunks: each is cut from what is left as splitting would cut it.
  induction fuel generalizing s with
  | zero => exact absurd enough (Nat.not_lt_zero _)
  | succ fuel ih =>
    have spec : (s.next ch).2.Sound ∧ _ := next_spec sound
    obtain ⟨sound', result⟩ := spec
    unfold collect
    generalize s.next ch = after at sound' result ⊢
    obtain ⟨chunk, t⟩ := after
    rcases result with ⟨nothing, rfl⟩ | ⟨something, rfl, rest⟩
    · rw [nothing]
      rfl
    · have shorter := ch.cut_advances.length_drop_lt something
      dsimp only at rest ⊢
      rw [ih sound' (by rw [rest]; omega), rest]
      exact (pieces_of_ne_nil ch.cut_advances something).symm

end Chunker.Stream

/-- Cutting a reader gives the chunks of its bytes, however much each read delivers. -/
theorem Chunker.stream_eq_split {ch : Chunker} (fits : ch.cfg.max * 2 ≤ isizeMax)
    (reader : Reader) :
    ch.stream reader = some (ch.split reader.rest) := by
  -- The buffer starts out empty, so the rest of the reader is all there is to split.
  have collected :
      Stream.collect ch (reader.rest.length + 1) ⟨reader, [], 0, false⟩ = ch.split reader.rest :=
    Stream.collect_eq (s := ⟨reader, [], 0, false⟩) (fun impossible => nomatch impossible)
      (Nat.lt_succ_self _)
  rw [stream, if_pos fits, collected]

/-- A window too large to allocate is a panic, whatever there is to read. -/
theorem Chunker.stream_eq_none {ch : Chunker} (huge : ¬ch.cfg.max * 2 ≤ isizeMax)
    (reader : Reader) :
    ch.stream reader = none := if_neg huge

end NasTools
