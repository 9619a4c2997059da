import NasTools.Model.Cli.Pins
import NasTools.Proofs.Substitution

/-! What the pin files still remember after a sync that ends inside a write. -/

namespace NasTools

section

variable (seq : UInt64) (hash : Digest)

/-- The digits of a sequence, up to where they are cut. -/
theorem solid_digits_take (kept : Nat) : Text.Solid ((Nat.toDigits 10 seq.toNat).take kept) :=
  fun c member => Text.solid_toDigits seq.toNat c (List.mem_of_mem_take member)

/-- The digits of a hash, up to where they are cut. -/
theorem solid_hash_take (kept : Nat) : Text.Solid ((toHex hash.bytes).take kept) :=
  fun c member => Text.solid_toHex hash.bytes c (List.mem_of_mem_take member)

/-- A hash has 64 digits. -/
theorem hash_length : (toHex hash.bytes).length = 64 := by
  rw [Text.toHex_length, hash.size]

/-- Every digit takes one byte, so a text of digits is as long in bytes as in characters. -/
theorem utf8Size_hash_take (kept : Nat) :
    (((toHex hash.bytes).take kept).map Char.utf8Size).sum = min kept 64 := by
  -- A digit is one of sixteen characters, and each takes one byte.
  have ones : ∀ size ∈ ((toHex hash.bytes).take kept).map Char.utf8Size, size = 1 := by
    intro size member
    obtain ⟨c, digit, rfl⟩ := List.mem_map.mp member
    obtain ⟨n, below, rfl⟩ := Text.mem_toHex (List.mem_of_mem_take digit)
    exact (Text.hexDigit_plain below).2.2
  rw [List.eq_replicate_of_mem ones, List.sum_replicate_nat, List.length_map, List.length_take,
    hash_length, Nat.mul_one]

/-- A hash is read only when all of its digits are there. -/
theorem parseHash_take (kept : Nat) :
    parseHash ((toHex hash.bytes).take kept) = if 64 ≤ kept then some hash else none := by
  -- A hash is read only whole.
  unfold parseHash
  rw [utf8Size_hash_take]
  by_cases whole : 64 ≤ kept
  · -- With all 64 digits kept, nothing was cut off the hash.
    have all : (toHex hash.bytes).take kept = toHex hash.bytes := by
      apply List.take_of_length_le
      rw [hash_length]
      exact whole
    have full : min kept 64 = 64 := by omega
    rw [if_pos whole, all, Text.parseHexBytes_toHex, full]
    simp [guard]
  · have short : min kept 64 ≠ 64 := by omega
    rw [if_neg whole]
    simp [guard, short]

/-- A text cut before the end of its digits is a word of digits, if anything. -/
theorem pinText_take_digits {kept : Nat} (inside : kept ≤ (Nat.toDigits 10 seq.toNat).length) :
    (pinText seq hash).take kept = (Nat.toDigits 10 seq.toNat).take kept :=
  List.take_append_of_le_length inside

/-- A text cut behind its digits still has all of them. -/
theorem pinText_take_behind (more : Nat) :
    (pinText seq hash).take ((Nat.toDigits 10 seq.toNat).length + 1 + more) =
      Nat.toDigits 10 seq.toNat ++ ' ' :: (toHex hash.bytes ++ ['\n']).take more := by
  have split : (Nat.toDigits 10 seq.toNat).length + 1 + more - (Nat.toDigits 10 seq.toNat).length =
      more + 1 := by omega
  rw [pinText, List.take_append, List.take_of_length_le (by omega), split, List.take_succ_cons]

/-- A text of nothing but digits is one word. -/
theorem nextWord_digits {kept : Nat} (some_ : 0 < kept) :
    Text.nextWord ((Nat.toDigits 10 seq.toNat).take kept) =
      some ((Nat.toDigits 10 seq.toNat).take kept, []) := by
  -- Digits have no white space among them, so they are one word.
  have there : (Nat.toDigits 10 seq.toNat).take kept ≠ [] := by
    have long : 0 < (Nat.toDigits 10 seq.toNat).length := Nat.length_toDigits_pos
    rw [← List.length_pos_iff, List.length_take]
    omega
  have read : Text.nextWord ((Nat.toDigits 10 seq.toNat).take kept ++ []) = _ :=
    Text.nextWord_append (solid_digits_take seq kept) there fun c impossible => nomatch impossible
  rwa [List.append_nil] at read

/-- The first word of a text cut behind its digits is all of them. -/
theorem nextWord_behind (rest : List Char) :
    Text.nextWord (Nat.toDigits 10 seq.toNat ++ ' ' :: rest) =
      some (Nat.toDigits 10 seq.toNat, ' ' :: rest) := by
  apply Text.nextWord_append (Text.solid_toDigits seq.toNat) Nat.toDigits_ne_nil
  intro c first
  obtain rfl := Option.some.inj first
  decide

/-- The second word is as much of the hash as there is. -/
theorem nextWord_hash (more : Nat) :
    Text.nextWord (' ' :: (toHex hash.bytes ++ ['\n']).take more) =
      if more = 0 then none
      else some ((toHex hash.bytes).take more, ['\n'].take (more - 64)) := by
  -- The hash is one word, and only the line's end can follow it.
  rw [Text.nextWord_cons_white (by decide)]
  by_cases empty : more = 0
  · -- Behind the blank there is nothing.
    subst empty
    rfl
  · rw [if_neg empty, List.take_append, hash_length]
    apply Text.nextWord_append (solid_hash_take hash more)
    · rw [← List.length_pos_iff, List.length_take, hash_length]
      omega
    · -- What follows the hash, if anything, is the end of the line.
      intro c first
      have line : c ∈ ['\n'].take (more - 64) := List.mem_of_mem_head? first
      have newline := List.mem_of_mem_take line
      rw [List.mem_singleton.mp newline]
      decide

/-- The digits of a sequence read back. -/
theorem parseU64_digits : Text.parseU64 (Nat.toDigits 10 seq.toNat) = some seq := by
  rw [Text.parseU64_toDigits seq.toNat_lt, UInt64.ofNat_toNat]

/-- A record pin cut inside its digits reads as a smaller sequence. -/
theorem readPin_inside {kept : Nat} (some_ : 0 < kept)
    (inside : kept < (Nat.toDigits 10 seq.toNat).length) :
    readPin ((pinText seq hash).take kept) =
      some ⟨UInt64.ofNat (seq.toNat / 10 ^ ((Nat.toDigits 10 seq.toNat).length - kept)), none⟩ := by
  -- A part of the digits is a number of its own.
  have bound := seq.toNat_lt
  have smaller : seq.toNat / 10 ^ ((Nat.toDigits 10 seq.toNat).length - kept) < 2 ^ 64 :=
    Nat.lt_of_le_of_lt (Nat.div_le_self _ _) bound
  -- Cutting digits off the end divides by a power of ten.
  have digits : (Nat.toDigits 10 seq.toNat).take kept =
      Nat.toDigits 10 (seq.toNat / 10 ^ ((Nat.toDigits 10 seq.toNat).length - kept)) := by
    rw [← Text.take_toDigits (by omega)]
    congr 1
    omega
  have empty : Text.nextWord [] = none := rfl
  rw [pinText_take_digits seq hash (by omega)]
  simp only [readPin, nextWord_digits seq some_, Option.bind_eq_bind, Option.bind_some, empty,
    Option.bind_none]
  rw [digits, Text.parseU64_toDigits smaller]
  rfl

/-- A record pin cut behind its digits keeps its sequence. -/
theorem readPin_behind {kept : Nat} (behind : (Nat.toDigits 10 seq.toNat).length ≤ kept) :
    ∃ found, readPin ((pinText seq hash).take kept) = some ⟨seq, found⟩ := by
  -- The cut falls right behind the digits or further on.
  by_cases exact_ : kept = (Nat.toDigits 10 seq.toNat).length
  · -- Cut right behind its digits, the text is the sequence alone.
    have long : 0 < (Nat.toDigits 10 seq.toNat).length := Nat.length_toDigits_pos
    have all : (Nat.toDigits 10 seq.toNat).take kept = Nat.toDigits 10 seq.toNat :=
      List.take_of_length_le (by omega)
    have word := nextWord_digits seq (show 0 < kept by omega)
    rw [all] at word
    rw [pinText_take_digits seq hash (by omega)]
    simp only [readPin, all, word, Option.bind_eq_bind, Option.bind_some, parseU64_digits]
    exact ⟨_, rfl⟩
  · -- Cut further on, the first word ends at the blank, whatever is left of the hash.
    obtain ⟨more, rfl⟩ : ∃ more, kept = (Nat.toDigits 10 seq.toNat).length + 1 + more :=
      ⟨kept - (Nat.toDigits 10 seq.toNat).length - 1, by omega⟩
    rw [pinText_take_behind]
    simp only [readPin, nextWord_behind, Option.bind_eq_bind, Option.bind_some, parseU64_digits]
    exact ⟨_, rfl⟩

/-- A checkpoint pin is read exactly when it is cut behind its hash. -/
theorem readCpPin_take (kept : Nat) :
    readCpPin ((pinText seq hash).take kept) =
      if (Nat.toDigits 10 seq.toNat).length + 65 ≤ kept then some (seq, hash) else none := by
  -- Both words are needed, so only a whole hash behind the digits is read.
  by_cases inside : kept ≤ (Nat.toDigits 10 seq.toNat).length
  · -- There is no second word.
    rw [if_neg (by omega), pinText_take_digits seq hash inside]
    have empty : Text.nextWord [] = none := rfl
    by_cases none_ : kept = 0
    · subst none_
      rfl
    · simp only [readCpPin, nextWord_digits seq (show 0 < kept by omega), Option.bind_eq_bind,
        Option.bind_some, empty, Option.bind_none, Option.bind_fun_none]
  · -- There is a blank, so what follows it has to be a whole hash.
    obtain ⟨more, rfl⟩ : ∃ more, kept = (Nat.toDigits 10 seq.toNat).length + 1 + more :=
      ⟨kept - (Nat.toDigits 10 seq.toNat).length - 1, by omega⟩
    rw [pinText_take_behind]
    simp only [readCpPin, nextWord_behind, Option.bind_eq_bind, Option.bind_some, parseU64_digits,
      nextWord_hash]
    by_cases empty : more = 0
    · rw [if_pos empty, if_neg (by omega)]
      rfl
    · rw [if_neg empty, Option.bind_some, parseHash_take]
      by_cases whole : 64 ≤ more
      · rw [if_pos whole, if_pos (by omega)]
        rfl
      · rw [if_neg whole, if_neg (by omega)]
        rfl

/-- A whole record pin reads back. -/
theorem readPin_pinText : readPin (pinText seq hash) = some ⟨seq, some hash⟩ := by
  -- The sequence is read up to the blank and the hash up to the end of the line.
  have line : toHex hash.bytes ++ ['\n'] = (toHex hash.bytes ++ ['\n']).take 65 := by
    rw [List.take_of_length_le]
    rw [List.length_append, hash_length]
    simp
  have second := nextWord_hash hash 65
  rw [← line] at second
  simp only [pinText, readPin, nextWord_behind, Option.bind_eq_bind, Option.bind_some,
    parseU64_digits, second]
  rw [if_neg (by omega), Option.bind_some, parseHash_take, if_pos (by omega)]
  rfl

/-- A whole checkpoint pin reads back. -/
theorem readCpPin_pinText : readCpPin (pinText seq hash) = some (seq, hash) := by
  -- The text kept whole is the text.
  have whole :
      (pinText seq hash).take ((Nat.toDigits 10 seq.toNat).length + 66) = pinText seq hash := by
    apply List.take_of_length_le
    simp only [pinText, List.length_append, List.length_cons, hash_length, List.length_nil]
    omega
  rw [← whole, readCpPin_take, if_pos (by omega)]

end

namespace PinState

variable {s : PinState} {m m' : Memory}

/-- The files remember what the memory remembers, exchange by exchange. -/
theorem memory_hear (s : PinState) (x : Script.Exchange Op.Answer) :
    (s.hear x).files.memory = s.files.memory.remember x := by
  -- One kind of question after the other.
  obtain ⟨op, answer⟩ := x
  cases op with
  -- A write that was answered with an error left the file as it was.
  | writePin seq hash =>
    cases answer with
    | error e => rfl
    | ok u => simp [hear, PinFiles.memory, Memory.remember, readPin_pinText]
  | writeCpPin seq hash =>
    cases answer with
    | error e => rfl
    | ok u => simp [hear, PinFiles.memory, Memory.remember, readCpPin_pinText]
  | _ => rfl

/-- The files remember what the memory remembers, over a whole conversation. -/
theorem memory_heard (s : PinState) (said : Conversation) :
    (s.heard said).files.memory = s.files.memory.after said := by
  -- Induction over what was said, one exchange at a time.
  induction said generalizing s with
  | nil => rfl
  | cons x rest ih =>
    rw [Memory.after_cons, ← memory_hear]
    exact ih (s.hear x)

end PinState

/-- A memory that moved forward still bounds what it bounded. -/
theorem Memory.Bounds.forward {m m' : Memory} {pins cpPins : List UInt64}
    (bounds : m.Bounds pins cpPins) (forward : Memory.Forward m m') : m'.Bounds pins cpPins := by
  -- The two pins one after the other.
  constructor
  · intro seq member
    -- The pin that bounded it has only gone up.
    obtain ⟨p, held, below⟩ := bounds.pin seq member
    obtain ⟨p', held', up⟩ := forward.pin p held
    exact ⟨p', held', UInt64.le_trans below up⟩
  · intro seq member
    obtain ⟨c, held, below⟩ := bounds.cpPin seq member
    obtain ⟨c', held', up⟩ := forward.cpPin c held
    exact ⟨c', held', UInt64.le_trans below up⟩

namespace PinState

variable {s : PinState} {m m' : Memory}

/-- What is written is bounded once it is written. -/
theorem bounds_hear {x : Script.Exchange Op.Answer}
    (bounds : (m.remember x).Bounds s.begun s.cpBegun) :
    (m.remember x).Bounds (s.hear x).begun (s.hear x).cpBegun := by
  -- One kind of question after the other.
  obtain ⟨op, answer⟩ := x
  cases op with
  | writePin seq hash =>
    cases answer with
    | error e => exact bounds
    -- The sequence just written is in the file, and bounds itself.
    | ok u =>
      refine ⟨fun old member => ?_, bounds.cpPin⟩
      rcases List.mem_cons.mp member with rfl | earlier
      · exact ⟨⟨old, some hash⟩, rfl, UInt64.le_refl _⟩
      · exact bounds.pin old earlier
  | writeCpPin seq hash =>
    cases answer with
    | error e => exact bounds
    | ok u =>
      refine ⟨bounds.pin, fun old member => ?_⟩
      rcases List.mem_cons.mp member with rfl | earlier
      · exact ⟨(old, hash), rfl, UInt64.le_refl _⟩
      · exact bounds.cpPin old earlier
  | _ => exact bounds

/-- Everything written to the end was begun. -/
def Begun (s : PinState) : Prop := s.pins ⊆ s.begun ∧ s.cpPins ⊆ s.cpBegun

/-- Hearing keeps what has begun to be written in view. -/
theorem begun_hear (x : Script.Exchange Op.Answer) (begun : s.Begun) : (s.hear x).Begun := by
  -- Only a pin that was written adds a number, and it had begun.
  obtain ⟨op, answer⟩ := x
  cases op with
  | writePin seq hash =>
    cases answer with
    | error e => exact begun
    | ok u => exact ⟨List.cons_subset_cons seq begun.1, begun.2⟩
  | writeCpPin seq hash =>
    cases answer with
    | error e => exact begun
    | ok u => exact ⟨begun.1, List.cons_subset_cons seq begun.2⟩
  | _ => exact begun

/-- Hearing a conversation keeps what has begun to be written in view. -/
theorem begun_heard (said : Conversation) (begun : s.Begun) : (s.heard said).Begun := by
  induction said generalizing s with
  | nil => exact begun
  | cons x rest ih => exact ih (begun_hear x begun)

/-- A write that ends early is not written to the end. -/
theorem tear_pins (torn : Torn) : (s.tear torn).pins = s.pins := by
  cases torn <;> rfl

/-- A torn write adds a number that has begun. -/
theorem begun_tear (torn : Torn) (begun : s.Begun) : (s.tear torn).Begun := by
  cases torn with
  | pin seq hash kept => exact ⟨List.subset_cons_of_subset seq begun.1, begun.2⟩
  | cp seq hash kept => exact ⟨begun.1, List.subset_cons_of_subset seq begun.2⟩

section

variable [Crypto] {seen : Set Checkpoint}

/-- While a conversation moves the memory onward, everything it writes stays bounded. -/
theorem bounds_heard {said : Conversation} (bounds : m.Bounds s.begun s.cpBegun)
    (advances : m.Advances seen said) :
      (m.after said).Bounds (s.heard said).begun (s.heard said).cpBegun := by
  -- Induction over the conversation.
  induction said generalizing m s with
  | nil => exact bounds
  | cons x rest ih =>
    -- The memory moves first, and what it was told is then written.
    have moved := bounds.forward advances.1.forward
    exact ih (bounds_hear moved) advances.2

/-- Where a device stays: its pins at the floor, its checkpoint pin a rung it has seen. -/
structure Sound (seen : Set Checkpoint) (s : PinState) : Prop where
  begun : s.Begun
  bounds : s.files.memory.Bounds s.begun s.cpBegun
  named : s.files.memory.Named seen

/-- A write of the record pin that does not end too early leaves the device sound. -/
theorem sound_tear_pin (sound : s.Sound seen) {seq : UInt64} {hash : Digest} {kept : Nat}
    (above : ∀ p, s.files.memory.pin = some p → p.seq ≤ seq)
    (sparing : (Torn.pin seq hash kept).Sparing) : (s.tear (.pin seq hash kept)).Sound seen := by
  -- What the file has in the end is a part of the line that was being written.
  refine ⟨begun_tear _ sound.begun, ⟨fun old member => ?_, sound.bounds.cpPin⟩, sound.named⟩
  -- The sequence is there in full, and it is above everything before it.
  obtain ⟨found, read⟩ := readPin_behind seq hash sparing
  refine ⟨⟨seq, found⟩, read, ?_⟩
  rcases List.mem_cons.mp member with rfl | earlier
  · exact UInt64.le_refl _
  · obtain ⟨p, held, below⟩ := sound.bounds.pin old earlier
    exact UInt64.le_trans below (above p held)

/-- A write of the checkpoint pin that does not end too early leaves the device sound. -/
theorem sound_tear_cp (sound : s.Sound seen) {seq : UInt64} {hash : Digest} {kept : Nat}
    (above : ∀ c, s.files.memory.cpPin = some c → c.1 ≤ seq)
    (known : ∃ c ∈ seen, (seq, hash) = (c.seq, c.checkpointHash))
    (sparing : (Torn.cp seq hash kept).Sparing) : (s.tear (.cp seq hash kept)).Sound seen := by
  -- The digits and the hash are there in full, so the pin reads back.
  have read : (s.tear (.cp seq hash kept)).files.memory.cpPin = some (seq, hash) := by
    have behind : (Nat.toDigits 10 seq.toNat).length + 65 ≤ kept := sparing
    have whole : readCpPin ((pinText seq hash).take kept) = _ := readCpPin_take seq hash kept
    rw [if_pos behind] at whole
    exact whole
  refine ⟨begun_tear _ sound.begun, ⟨sound.bounds.pin, fun old member => ?_⟩, fun pin held => ?_⟩
  · refine ⟨(seq, hash), read, ?_⟩
    rcases List.mem_cons.mp member with rfl | earlier
    · exact UInt64.le_refl _
    · obtain ⟨c, held, below⟩ := sound.bounds.cpPin old earlier
      exact UInt64.le_trans below (above c held)
  · rw [read] at held
    obtain rfl := Option.some.inj held
    exact known

omit [Crypto] in
/-- A sync that ends inside no write leaves what was said in it. -/
theorem step_of_whole {e : Session} (whole : e.torn = none) : s.step e = s.heard e.said := by
  simp only [step, whole, Option.toList_none, List.foldl_nil]

omit [Crypto] in
/-- A sync that ends inside a write leaves what was said in it, and what is left of the write. -/
theorem step_of_torn {e : Session} {torn : Torn} (cut : e.torn = some torn) :
    s.step e = (s.heard e.said).tear torn := by
  simp only [step, cut, Option.toList_some, List.foldl_cons, List.foldl_nil]

/-- Every sync that does not end too early in a write leaves the device sound. -/
theorem step_sparing (injective : Set.InjOn Crypto.blake3 (Checkpoint.hashInput '' seen))
    {e : Session} (sound : s.Sound seen) (takes : s.Takes seen e) (sparing : e.Sparing) :
    (s.step e).Sound seen := by
  -- A sync is a conversation, and perhaps a write that it ended inside.
  obtain ⟨device, opts, said, torn⟩ := e
  obtain ⟨reads, rest, outcome, played, shown⟩ := takes
  have pins : device.pin = s.files.memory.pin := congrArg Memory.pin reads
  have cpPins : device.cpPin = s.files.memory.cpPin := congrArg Memory.cpPin reads
  have advances : s.files.memory.Advances seen (said ++ (torn.map Torn.whole).toList ++ rest) :=
    (Sync.moves_sync injective _ _ _ ⟨cpPins.symm, pins.symm, sound.named⟩ played shown).1
  -- First what was said, and then the write it ended inside.
  obtain ⟨before, _⟩ := Memory.advances_append.mp advances
  obtain ⟨spoken, ending⟩ := Memory.advances_append.mp before
  have reached : (s.heard said).Sound seen := by
    have onward := Memory.onward_of_advances spoken (List.prefix_refl said)
    refine ⟨begun_heard said sound.begun, ?_, ?_⟩
    · rw [memory_heard]
      exact bounds_heard sound.bounds spoken
    · rw [memory_heard]
      exact onward.named sound.named
  rw [← memory_heard] at ending
  cases torn with
  | none =>
    rw [step_of_whole rfl]
    exact reached
  | some torn =>
    rw [step_of_torn rfl]
    have onward := ending.1
    have spared := sparing torn rfl
    cases torn with
    | pin seq hash kept =>
      refine sound_tear_pin reached (fun p held => ?_) spared
      obtain ⟨p', held', up⟩ := onward.forward.pin p held
      obtain rfl := Option.some.inj held'
      exact up
    | cp seq hash kept =>
      refine sound_tear_cp reached (fun c held => ?_)
        (onward.named reached.named (seq, hash) rfl) spared
      obtain ⟨c', held', up⟩ := onward.forward.cpPin c held
      obtain rfl := Option.some.inj held'
      exact up

/-- A write that ends too early leaves a pin below what was being written, or none. -/
theorem bounds_tear_iff (sound : s.Sound seen) (torn : Torn)
    (onward : Memory.Onward seen s.files.memory (s.files.memory.remember torn.whole)) :
    (s.tear torn).files.memory.Bounds (s.tear torn).begun (s.tear torn).cpBegun ↔ torn.Sparing := by
  -- One of the two files was being written, or none was.
  cases torn with
  | pin seq hash kept =>
    constructor
    · intro bounds
      obtain ⟨p, read, up⟩ := bounds.pin seq (by simp [tear])
      have readable : readPin ((pinText seq hash).take kept) = some p := read
      apply Nat.le_of_not_lt
      intro inside
      by_cases empty : kept = 0
      · subst empty
        cases readable
      · rw [readPin_inside seq hash (by omega) inside, Option.some.injEq] at readable
        subst readable
        -- At least one digit is missing, so the number that is left is smaller.
        have large : 10 ≤ seq.toNat := by
          have digits := Nat.length_toDigits_le_iff (n := seq.toNat) (b := 10) (k :=
            1) (by omega) (by omega)
          omega
        have bound := seq.toNat_lt
        have missing : 1 < 10 ^ ((Nat.toDigits 10 seq.toNat).length - kept) :=
          Nat.one_lt_pow (by omega) (by omega)
        have smaller : seq.toNat / 10 ^ ((Nat.toDigits 10 seq.toNat).length - kept) < seq.toNat :=
          Nat.div_lt_self (by omega) missing
        rw [UInt64.le_iff_toNat_le, UInt64.toNat_ofNat_of_lt' (by rw [UInt64.size]; omega)] at up
        omega
    · intro sparing
      refine (sound_tear_pin sound (fun p held => ?_) sparing).bounds
      obtain ⟨p', held', up⟩ := onward.forward.pin p held
      obtain rfl := Option.some.inj held'
      exact up
  | cp seq hash kept =>
    constructor
    · intro bounds
      obtain ⟨c, read, _⟩ := bounds.cpPin seq (by simp [tear])
      have readable : readCpPin ((pinText seq hash).take kept) = some c := read
      rw [readCpPin_take] at readable
      split at readable
      · assumption
      · cases readable
    · intro sparing
      refine (sound_tear_cp sound (fun c held => ?_) (onward.named sound.named (seq, hash) rfl)
        sparing).bounds
      obtain ⟨c', held', up⟩ := onward.forward.cpPin c held
      obtain rfl := Option.some.inj held'
      exact up

/-- A device that completes a sync without a pin, although one was written, has lost its floor. -/
theorem not_floorKept {d : Device} {o : SyncOpts} {said : Conversation} {outcome : Except Exit Unit}
    (reads : d.memory = s.files.memory) (played : (sync d o).Plays said outcome)
    (ended : outcome.isOk = true) {seq : UInt64} (written : seq ∈ s.pins)
    (forgotten : d.pin = none) :
    ¬s.FloorKept := by
  -- A run that ends well without a pin keeps no floor.
  intro kept
  rcases kept d o said outcome reads played with ⟨stage, text, rfl⟩ | ⟨bounds, _⟩
  · cases ended
  · obtain ⟨p, held, _⟩ := bounds.pin seq written
    have none_ : d.memory.pin = none := forgotten
    rw [none_] at held
    cases held

end

end PinState

/--
A device whose syncs never end too early in a write never forgets what it wrote.

Whatever the peers answer and wherever the syncs are cut off, the next sync refuses or starts from
pins at or above everything written before.
-/
theorem sparing_crashes_keep_the_floor [Crypto] (seen : Set Checkpoint)
    (injective : Set.InjOn Crypto.blake3 (Checkpoint.hashInput '' seen)) {sessions : List Session}
    (permitted : pinMachine.Permits (fun s e => s.Takes seen e ∧ e.Sparing) .fresh sessions) :
    (pinMachine.run .fresh sessions).FloorKept := by
  -- The invariant holds at the start and is kept by every step that spares.
  have start : PinState.fresh.Sound seen := by
    refine ⟨⟨List.nil_subset _, List.nil_subset _⟩, ⟨?_, ?_⟩, ?_⟩
    · intro seq impossible
      cases impossible
    · intro seq impossible
      cases impossible
    · intro pin impossible
      cases impossible
  have sound : (pinMachine.run .fresh sessions).Sound seen :=
    Machine.run_invariant start permitted fun s e allowed sound =>
      PinState.step_sparing injective sound allowed.1 allowed.2
  intro d o said outcome reads played
  right
  rw [reads]
  refine ⟨⟨?_, ?_⟩, sound.bounds⟩
  · intro seq written
    exact sound.bounds.pin seq (sound.begun.1 written)
  · intro seq written
    exact sound.bounds.cpPin seq (sound.begun.2 written)

section

open Concrete

/-- A run of two sessions is one step behind the other. -/
theorem run_pair (s : PinState) (a b : Session) : pinMachine.run s [a, b] = (s.step a).step b := by
  simp only [Machine.run_cons, Machine.run_nil, pinMachine]

/-- Two sessions are permitted one behind the other. -/
theorem permits_pair {allowed : PinState → Session → Prop} {s : PinState} {a b : Session} :
    pinMachine.Permits allowed s [a, b] ↔ allowed s a ∧ allowed (s.step a) b := by
  simp only [Machine.Permits, pinMachine, and_true]

/-- What an honest peer answers to a device that has seen nothing. -/
def firstReplies : List Response :=
  [.addrs [], .ok, .record (some (sent pinnedVersion)), .records [], .records [],
    .records [sent pinnedVersion], .blob (sealedRoot (digest [1]))]

/-- What a peer answers that pretends to have no head at all. -/
def headlessReplies : List Response := [.addrs [], .ok, .record none, .records [], .records []]

/-- The first sync of a device, which pins the served head and comes to its end. -/
def firstSync : Session where
  device := device none
  opts := ⟨false, false⟩
  said := (sync (device none) ⟨false, false⟩).transcript scripted firstReplies
  torn := none

/-- The device after that sync. -/
def returningDevice : Device := device (some ⟨1, some pinnedVersion.recordHash⟩)

/-- What is said when the peer has moved on by one record; the last thing said is the new pin. -/
def laterSaid : Conversation :=
  (sync returningDevice ⟨false, false⟩).transcript scripted laterReplies

/-- The next sync of that device, which ends inside the write of its pin. -/
def cutSync (kept : Nat) : Session where
  device := returningDevice
  opts := ⟨false, false⟩
  said := laterSaid.take 8
  torn := some (.pin 2 laterVersion.recordHash kept)

/-- The record pin an exchange writes to the end. -/
def writtenPin : Script.Exchange Op.Answer → Option (UInt64 × Digest)
  | ⟨.writePin seq hash, .ok ()⟩ => some (seq, hash)
  | _ => none

/-- A written pin is an exchange that wrote it. -/
theorem eq_of_writtenPin {x : Script.Exchange Op.Answer} {seq : UInt64} {hash : Digest}
    (writes : writtenPin x = some (seq, hash)) : x = ⟨.writePin seq hash, .ok ()⟩ := by
  -- No other exchange writes a pin.
  unfold writtenPin at writes
  split at writes
  · obtain ⟨rfl, rfl⟩ := Prod.mk.inj (Option.some.inj writes)
    rfl
  · cases writes

/-- An exchange that writes no pin. -/
def writesNoPin : Script.Exchange Op.Answer → Bool
  | ⟨.writePin _ _, _⟩ | ⟨.writeCpPin _ _, _⟩ => false
  | _ => true

/-- A conversation that writes no pin changes nothing. -/
theorem heard_of_writesNoPin {said : Conversation} (silent : said.all writesNoPin) (s : PinState) :
    s.heard said = s := by
  -- Induction over the conversation: of the operations only two write a pin.
  induction said generalizing s with
  | nil => rfl
  | cons x rest ih =>
    simp only [List.all_cons, Bool.and_eq_true] at silent
    have here : s.hear x = s := by
      obtain ⟨op, answer⟩ := x
      cases op <;> first | rfl | exact absurd silent.1 (by simp [writesNoPin])
    show (s.hear x).heard rest = s
    rw [here]
    exact ih silent.2 s

/--
What is said in the first sync, evaluated: it shows no rung, and leaves a pin at the first record.
-/
theorem firstSync_evaluated : firstSync.said.all showsNoRung = true ∧
    (PinState.fresh.heard firstSync.said).pins = [1] ∧
    (PinState.fresh.heard firstSync.said).files.cp = none ∧
    (Memory.after ⟨none, none⟩ firstSync.said).pin = returningDevice.pin ∧
    (Memory.after ⟨none, none⟩ firstSync.said).cpPin = none := by
  decide +kernel

/-- What is said in the second sync, evaluated: it shows no rung, and ends with the new pin. -/
theorem laterSaid_evaluated : laterSaid.all showsNoRung = true ∧
    (laterSaid.take 8).all writesNoPin = true ∧
    laterSaid[8]?.bind writtenPin = some (2, laterVersion.recordHash) := by
  decide +kernel

/-- What is said before the new pin, the new pin, and what may follow it. -/
theorem laterSaid_split : laterSaid =
    laterSaid.take 8 ++ [⟨.writePin 2 laterVersion.recordHash, .ok ()⟩] ++ laterSaid.drop 9 := by
  obtain ⟨x, there, writes⟩ := Option.bind_eq_some_iff.mp laterSaid_evaluated.2.2
  rw [← eq_of_writtenPin writes]
  obtain ⟨inside, rfl⟩ := List.getElem?_eq_some_iff.mp there
  rw [← List.take_succ_eq_append_getElem inside, List.take_append_drop]

/-- The first session takes place. -/
theorem firstSync_takes : PinState.fresh.Takes ∅ firstSync := by
  -- It is the script's own run, and no checkpoint is shown in it.
  refine ⟨rfl, [], ((sync (device none) ⟨false, false⟩).exec scripted firstReplies).1, ?_, ?_⟩
  · simp only [firstSync, Option.map_none, Option.toList_none, List.append_nil]
    exact Script.exec_plays scripted (sync (device none) ⟨false, false⟩) firstReplies
  · intro c shown
    have torn : firstSync.torn = none := rfl
    rw [torn, Option.map_none, Option.toList_none, List.append_nil, List.append_nil] at shown
    exact not_shown firstSync_evaluated.1 c shown

/-- What the first sync leaves in the files is what the second one starts from. -/
theorem firstSync_remembers :
    (PinState.fresh.step firstSync).files.memory = returningDevice.memory := by
  obtain ⟨_, _, _, pin, cpPin⟩ := firstSync_evaluated
  have start : PinState.fresh.files.memory = ⟨none, none⟩ := rfl
  rw [PinState.step_of_whole rfl, PinState.memory_heard, start]
  exact Memory.ext pin cpPin

/-- The session that is cut takes place. -/
theorem cutSync_takes (kept : Nat) : (PinState.fresh.step firstSync).Takes ∅ (cutSync kept) := by
  -- It is the script's own run up to the write of the pin, and no checkpoint is shown.
  refine ⟨firstSync_remembers.symm, laterSaid.drop 9,
    ((sync returningDevice ⟨false, false⟩).exec scripted laterReplies).1, ?_, ?_⟩
  · show (sync returningDevice ⟨false, false⟩).Plays
      (laterSaid.take 8 ++ [⟨.writePin 2 laterVersion.recordHash, .ok ()⟩] ++ laterSaid.drop 9) _
    rw [← laterSaid_split]
    exact Script.exec_plays scripted (sync returningDevice ⟨false, false⟩) laterReplies
  · show ∀ c, Shown
      (laterSaid.take 8 ++ [⟨.writePin 2 laterVersion.recordHash, .ok ()⟩] ++ laterSaid.drop 9) c →
        c ∈ _
    rw [← laterSaid_split]
    intro c shown
    exact not_shown laterSaid_evaluated.1 c shown

/-- The second sync leaves what the first one left, but for the write it ends inside. -/
theorem cutSync_leaves (kept : Nat) : (PinState.fresh.step firstSync).step (cutSync kept) =
    (PinState.fresh.heard firstSync.said).tear (.pin 2 laterVersion.recordHash kept) := by
  have said : (cutSync kept).said = laterSaid.take 8 := rfl
  rw [PinState.step_of_torn rfl, PinState.step_of_whole rfl, said,
    heard_of_writesNoPin laterSaid_evaluated.2.1]

/--
A crash right after the pin file is truncated makes the device forget that it has seen anything.

The next sync is served no head at all, and ends without an error.
-/
theorem crash_forgets_the_floor :
    pinMachine.Permits (fun s e => s.Takes ∅ e) .fresh [firstSync, cutSync 0] ∧
      (pinMachine.run .fresh [firstSync, cutSync 0]).pins = [1] ∧
      ¬(pinMachine.run .fresh [firstSync, cutSync 0]).FloorKept := by
  -- The torn pin is not read, so the next session starts without a floor.
  obtain ⟨_, pins, cp, _⟩ := firstSync_evaluated
  rw [permits_pair, run_pair]
  refine ⟨⟨firstSync_takes, cutSync_takes 0⟩, ?_, ?_⟩
  · rw [cutSync_leaves, PinState.tear_pins, pins]
  · have forgotten :
        (device none).memory = ((PinState.fresh.step firstSync).step (cutSync 0)).files.memory := by
      rw [cutSync_leaves]
      simp only [PinState.tear, PinFiles.memory, cp]
      rfl
    have ended :
        ((sync (device none) ⟨false, false⟩).exec scripted headlessReplies).1.isOk = true := by
      decide +kernel
    have written : 1 ∈ ((PinState.fresh.step firstSync).step (cutSync 0)).pins := by
      rw [cutSync_leaves, PinState.tear_pins, pins]
      simp
    have played := Script.exec_plays scripted (sync (device none) ⟨false, false⟩) headlessReplies
    exact PinState.not_floorKept forgotten played ended written rfl

/-- A crash behind the last digit leaves a pin that still bounds what was seen. -/
theorem crash_behind_the_digits_is_harmless :
    (pinMachine.run .fresh [firstSync, cutSync 1]).FloorKept := by
  -- The cut falls behind the digits, so the theorem applies.
  apply sparing_crashes_keep_the_floor ∅ (by simp)
  rw [permits_pair]
  refine ⟨⟨firstSync_takes, ?_⟩, cutSync_takes 1, ?_⟩
  · intro torn impossible
    cases impossible
  · intro torn is
    obtain rfl := Option.some.inj is
    show (Nat.toDigits 10 2).length ≤ 1
    decide

end

end NasTools
