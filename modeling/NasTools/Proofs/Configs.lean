import NasTools.Lib.Marks
import NasTools.Model.Cli.Config

/-!
What the configuration of a namespace says is read back, where the words it is made of allow it.
-/

namespace NasTools

/-- What a description has to say of a new namespace. -/
def NewNamespace.recorded (n : NewNamespace) : Description where
  mode := n.mode
  keyScheme := n.effectiveScheme
  padding := n.padding
  objectLock := n.lock.map Prod.fst
  retentionSecs := n.lock.map Prod.snd
  -- An empty name is no name.
  device := n.device.filter (· ≠ [])

/-- What has to be read of a new namespace when it is opened. -/
def NewNamespace.opened (n : NewNamespace) : OpenedConfig :=
  ⟨n.mode, n.effectiveScheme, n.padding, n.tenantSalt.bytes⟩

/-- The lines of a configuration, without their ends. -/
def NewNamespace.fieldLines (n : NewNamespace) : List (List Char × List Char) :=
  [("version".toList, ['1']), ("mode".toList, modeStr n.mode),
    ("key_scheme".toList, keySchemeStr n.effectiveScheme),
    ("padding_profile".toList, paddingStr n.padding),
    ("tenant_salt".toList, toHex n.tenantSalt.bytes)] ++
  (match n.lock with
    | some (l, secs) =>
      [("object_lock".toList, l.asStr), ("retention_secs".toList, Nat.toDigits 10 secs.toNat)]
    | none => []) ++
  match n.device with
  | some d => if d = [] then [] else [("device".toList, d)]
  | none => []

/-- A field on a line of its own. -/
def fieldLine (f : List Char × List Char) : List Char := f.1 ++ ' ' :: f.2

/-- The file is its fields, one on each line. -/
theorem config_eq (n : NewNamespace) :
    n.config = (n.fieldLines.map fieldLine).flatMap (· ++ ['\n']) := by
  -- Each line is the name of a field and its value.
  have line (name value : List Char) : configLine name value = fieldLine (name, value) ++
      ['\n'] := by
    simp only [configLine, fieldLine, List.append_assoc, List.cons_append]
  unfold NewNamespace.config NewNamespace.fieldLines NewNamespace.lockLines NewNamespace.deviceLine
  simp only [line, List.map_append, List.flatMap_append, List.map_cons, List.map_nil,
    List.flatMap_cons, List.flatMap_nil, List.append_nil, List.append_assoc]
  -- The lines that are always there are the same; the lock and the device may be missing.
  cases n.lock with
  | none =>
    cases n.device with
    | none => rfl
    | some d => by_cases empty : d = [] <;> simp [empty]
  | some l =>
    cases n.device with
    | none => simp
    | some d => by_cases empty : d = [] <;> simp [empty]

/-- A word that can stand on a line with others: something, without white space. -/
def Word (text : List Char) : Prop := Text.Solid text ∧ text ≠ []

/-- Two words on a line are read as they are. -/
theorem words_fieldLine {f : List Char × List Char} (name : Word f.1) (value : Word f.2) :
    Text.words (fieldLine f) = [f.1, f.2] := by
  rw [fieldLine, Text.words_append name.1 name.2 (by decide), Text.words_single value.1 value.2]

/-- Words stand on one line. -/
theorem oneLine_fieldLine {f : List Char × List Char} (name : Word f.1) (value : Word f.2) :
    Text.OneLine (fieldLine f) := by
  -- Neither word holds a line end.
  have white : Text.isWhite '\n' = true ∧ Text.isWhite '\r' = true := by decide
  refine ⟨?_, ?_⟩
  · intro member
    rcases List.mem_append.mp member with inside | inside
    · exact absurd (name.1 _ inside) (by simp [white.1])
    · rcases List.mem_cons.mp inside with impossible | inside
      · exact absurd impossible (by decide)
      · exact absurd (value.1 _ inside) (by simp [white.1])
  · intro last
    rw [fieldLine, List.getLast?_append_of_ne_nil _ (List.cons_ne_nil _ _),
      List.getLast?_cons_of_ne_nil value.2] at last
    exact absurd (value.1 _ (List.mem_of_getLast? last)) (by simp [white.2])

/-- Lines of words are read field by field. -/
theorem foldlM_fieldLines {A : Type} {step : A → List Char → Except String A}
    {field : A → List Char → List Char → Except String A}
    (reads : ∀ a line name v rest, Text.words line = name :: v :: rest →
      step a line = field a name v)
    {fields : List (List Char × List Char)} (each : ∀ f ∈ fields, Word f.1 ∧ Word f.2) (start : A) :
    (Text.lines ((fields.map fieldLine).flatMap (· ++ ['\n']))).foldlM step start =
      fields.foldlM (fun a f => field a f.1 f.2) start := by
  -- The lines are those of the fields, and each is read as its field.
  rw [Text.lines_flatMap]
  · -- Each line is read as the field that was written on it.
    induction fields generalizing start with
    | nil => rfl
    | cons f rest ih =>
      obtain ⟨name, value⟩ := each f List.mem_cons_self
      have here : step start (fieldLine f) = field start f.1 f.2 :=
        reads _ _ _ _ _ (words_fieldLine name value)
      rw [List.map_cons, List.foldlM_cons, List.foldlM_cons, here]
      exact bind_congr fun next =>
        ih (fun other member => each other (List.mem_cons_of_mem _ member)) next
  · intro line member
    obtain ⟨f, inside, rfl⟩ := List.mem_map.mp member
    exact oneLine_fieldLine (each f inside).1 (each f inside).2

/-- A mode is read as it is written. -/
@[simp] theorem parseMode_modeStr (m : Mode) : parseMode (modeStr m) = some m := by
  cases m <;> decide

/-- A padding profile is read as it is written. -/
@[simp] theorem parsePadding_paddingStr (p : PaddingProfile) :
    parsePadding (paddingStr p) = some p := by
  cases p <;> decide

/-- An object lock is read as it is written. -/
@[simp] theorem parseObjectLock_asStr (l : ObjectLock) : parseObjectLock l.asStr = some l := by
  cases l <;> decide

/-- What is known of a key scheme that was described: without the third one. -/
def describedScheme : KeyScheme → KeyScheme
  | .indexedRandom => .indexedRandom
  | .convergent | .plaintext => .convergent

/-- A description reads the scheme it knows, and passes over the others. -/
theorem describeField_keyScheme {d : Description} (k : KeyScheme)
    (unread : d.keyScheme = .convergent) :
    describeField d "key_scheme".toList (keySchemeStr k) =
      .ok { d with keyScheme := describedScheme k } := by
  -- Only the scheme with an index is read; the others leave the default.
  rw [describeField, if_neg (by decide), if_neg (by decide)]
  cases k with
  | indexedRandom => rw [if_pos ⟨rfl, rfl⟩, describedScheme]
  | convergent | plaintext =>
    rw [if_neg (by decide), if_neg (by decide), if_neg (by decide), if_neg (by decide),
      describedScheme, ← unread]

/-- When a namespace is opened all three schemes are known. -/
theorem openField_keyScheme {c : OpenedConfig} (k : KeyScheme)
    (unread : c.keyScheme = .convergent) :
    openField c "key_scheme".toList (keySchemeStr k) = .ok { c with keyScheme := k } := by
  -- Convergent is the default, which no word is read as.
  rw [openField, if_neg (by decide), if_neg (by decide)]
  cases k with
  | indexedRandom => rw [if_pos ⟨rfl, rfl⟩]
  | plaintext => rw [if_neg (by decide), if_pos ⟨rfl, rfl⟩]
  | convergent => rw [if_neg (by decide), if_neg (by decide), if_neg (by decide), ← unread]

/-- The fields of a configuration, read into a description. -/
theorem describeFields (n : NewNamespace) :
    n.fieldLines.foldlM (fun d f => describeField d f.1 f.2) ⟨.e2ee, .convergent, .none, none,
      none, none⟩ = .ok { n.recorded with keyScheme := describedScheme n.effectiveScheme } := by
  -- Every field sets its own part of the description.
  have version (d : Description) (v : List Char) : describeField d "version".toList v = .ok d := by
    simp [describeField]
  have mode (d : Description) (m : Mode) :
      describeField d "mode".toList (modeStr m) = .ok { d with mode := m } := by
    simp [describeField]
  have padding (d : Description) (p : PaddingProfile) :
      describeField d "padding_profile".toList (paddingStr p) = .ok { d with padding := p } := by
    simp [describeField]
  have salt (d : Description) (v : List Char) : describeField d "tenant_salt".toList v = .ok d := by
    simp [describeField]
  have lock (d : Description) (l : ObjectLock) :
      describeField d "object_lock".toList l.asStr = .ok { d with objectLock := some l } := by
    simp [describeField]
  have secs (d : Description) (s : UInt64) :
    describeField d "retention_secs".toList (Nat.toDigits 10 s.toNat) =
      .ok { d with retentionSecs := some s } := by
    simp [describeField, Text.parseU64_toDigits s.toNat_lt]
  have device (d : Description) (v : List Char) :
      describeField d "device".toList v = .ok { d with device := some v } := by
    simp [describeField]
  rw [NewNamespace.fieldLines, List.foldlM_append, List.foldlM_append]
  simp only [List.foldlM_cons, List.foldlM_nil, version, mode, padding, salt, except_ok_bind,
    except_pure_eq]
  rw [describeField_keyScheme _ rfl]
  simp only [except_ok_bind]
  -- The lock and the device are read where they were written.
  cases isLock : n.lock with
  | none =>
    cases isDevice : n.device with
    | none => simp [NewNamespace.recorded, isLock, isDevice]
    | some d =>
      by_cases empty : d = [] <;>
        simp only [empty, if_true, if_false, List.foldlM_cons, List.foldlM_nil, device,
          except_ok_bind, except_pure_eq] <;>
        simp [NewNamespace.recorded, Option.filter, isLock, isDevice, empty]
  | some l =>
    obtain ⟨l, s⟩ := l
    simp only [List.foldlM_cons, List.foldlM_nil, lock, secs, except_ok_bind, except_pure_eq]
    cases isDevice : n.device with
    | none => simp [NewNamespace.recorded, isLock, isDevice]
    | some d =>
      by_cases empty : d = [] <;>
        simp only [empty, if_true, if_false, List.foldlM_cons, List.foldlM_nil, device,
          except_ok_bind, except_pure_eq] <;>
        simp [NewNamespace.recorded, Option.filter, isLock, isDevice, empty]

/-- The fields of a configuration, read when its namespace is opened. -/
theorem openFields (n : NewNamespace) :
    n.fieldLines.foldlM (fun c f => openField c f.1 f.2) ⟨.e2ee, .convergent, .none, []⟩ =
      .ok n.opened := by
  -- Every field sets its own part, and two are passed over.
  have version (c : OpenedConfig) (v : List Char) : openField c "version".toList v = .ok c := by
    simp [openField]
  have mode (c : OpenedConfig) (m : Mode) :
      openField c "mode".toList (modeStr m) = .ok { c with mode := m } := by
    simp [openField]
  have padding (c : OpenedConfig) (p : PaddingProfile) :
      openField c "padding_profile".toList (paddingStr p) = .ok { c with padding := p } := by
    simp [openField]
  have salt (c : OpenedConfig) (data : Bytes) :
      openField c "tenant_salt".toList (toHex data) = .ok { c with tenantSalt := data } := by
    simp [openField, Text.parseHexBytes_toHex]
  have lock (c : OpenedConfig) (v : List Char) : openField c "object_lock".toList v = .ok c := by
    simp [openField]
  have secs (c : OpenedConfig) (v : List Char) : openField c "retention_secs".toList v = .ok c := by
    simp [openField]
  have device (c : OpenedConfig) (v : List Char) : openField c "device".toList v = .ok c := by
    simp [openField]
  rw [NewNamespace.fieldLines, List.foldlM_append, List.foldlM_append]
  simp only [List.foldlM_cons, List.foldlM_nil, version, mode, except_ok_bind, except_pure_eq]
  rw [openField_keyScheme _ rfl]
  simp only [padding, salt, except_ok_bind]
  -- Neither the lock nor the device is read.
  have passed (c : OpenedConfig) (fields : List (List Char × List Char))
      (each : ∀ f ∈ fields, f.1 = "object_lock".toList ∨ f.1 = "retention_secs".toList ∨
        f.1 = "device".toList) :
      fields.foldlM (fun c f => openField c f.1 f.2) c = .ok c := by
    induction fields with
    | nil => rfl
    | cons f rest ih =>
      have here : openField c f.1 f.2 = .ok c := by
        rcases each f List.mem_cons_self with is | is | is <;> simp only [is, lock, secs, device]
      rw [List.foldlM_cons, here]
      exact ih fun other member => each other (List.mem_cons_of_mem _ member)
  rw [passed, except_ok_bind, passed]
  · rfl
  · intro f member
    split at member
    · split at member
      · exact absurd member List.not_mem_nil
      · exact .inr (.inr (congrArg Prod.fst (List.mem_singleton.mp member)))
    · exact absurd member List.not_mem_nil
  · intro f member
    split at member
    · simp only [List.mem_cons, List.not_mem_nil, or_false] at member
      rcases member with rfl | rfl
      · exact .inl rfl
      · exact .inr (.inl rfl)
    · exact absurd member List.not_mem_nil

/-- Every field is two words, if the name of the device is one. -/
theorem word_of_mem_fieldLines {n : NewNamespace} (device : ∀ d, n.device = some d → Text.Solid d) :
    ∀ f ∈ n.fieldLines, Word f.1 ∧ Word f.2 := by
  -- Names and values are looked at field by field.
  have word {text : List Char} (letters : text.all (fun c => !Text.isWhite c) = true ∧ text ≠ []) :
      Word text := by
    refine ⟨?_, letters.2⟩
    intro c member
    simpa using List.all_eq_true.mp letters.1 c member
  have name : ∀ text ∈ ["version".toList, "mode".toList, "key_scheme".toList,
    "padding_profile".toList, "tenant_salt".toList,
      "object_lock".toList, "retention_secs".toList, "device".toList], Word text := by
    simp only [List.forall_mem_cons, List.not_mem_nil, false_imp_iff, implies_true, and_true]
    refine ⟨?_, ?_, ?_, ?_, ?_, ?_, ?_, ?_⟩ <;> exact word (by decide)
  have digits (s : Nat) : Word (Nat.toDigits 10 s) := ⟨Text.solid_toDigits s, Nat.toDigits_ne_nil⟩
  have hex : Word (toHex n.tenantSalt.bytes) := by
    refine ⟨Text.solid_toHex _, ?_⟩
    intro empty
    have long := Text.toHex_length n.tenantSalt.bytes
    rw [empty, n.tenantSalt.size] at long
    exact absurd long (by decide)
  have mode : ∀ m : Mode, Word (modeStr m) := by
    intro m
    cases m <;> exact word (by decide)
  have scheme : ∀ k : KeyScheme, Word (keySchemeStr k) := by
    intro k
    cases k <;> exact word (by decide)
  have padding : ∀ p : PaddingProfile, Word (paddingStr p) := by
    intro p
    cases p <;> exact word (by decide)
  have lock : ∀ l : ObjectLock, Word l.asStr := by
    intro l
    cases l <;> exact word (by decide)
  intro f member
  rcases List.mem_append.mp member with first | named
  · rcases List.mem_append.mp first with always | locked
    · simp only [List.mem_cons, List.not_mem_nil, or_false] at always
      rcases always with rfl | rfl | rfl | rfl | rfl
      · exact ⟨name _ (by simp), word (by decide)⟩
      · exact ⟨name _ (by simp), mode _⟩
      · exact ⟨name _ (by simp), scheme _⟩
      · exact ⟨name _ (by simp), padding _⟩
      · exact ⟨name _ (by simp), hex⟩
    · split at locked
      · simp only [List.mem_cons, List.not_mem_nil, or_false] at locked
        rcases locked with rfl | rfl
        · exact ⟨name _ (by simp), lock _⟩
        · exact ⟨name _ (by simp), digits _⟩
      · exact absurd locked List.not_mem_nil
  · -- A device without a name has no line.
    split at named
    · rename_i d isDevice
      by_cases empty : d = []
      · rw [if_pos empty] at named
        exact absurd named List.not_mem_nil
      · rw [if_neg empty] at named
        obtain rfl := List.mem_singleton.mp named
        exact ⟨name _ (by simp), device d isDevice, empty⟩
    · exact absurd named List.not_mem_nil

/-- A description knows two of the three schemes, and devices whose names are words. -/
theorem describe_limits {cfg : List Char} {d : Description} (read : describe cfg = .ok d) :
    d.keyScheme ≠ .plaintext ∧ ∀ name, d.device = some name → Text.Solid name := by
  -- Induction over the lines: no field is read as the plain scheme, and a device is one word.
  refine foldlM_keeps (P := fun d : Description => d.keyScheme ≠ .plaintext ∧ ∀ name,
    d.device = some name → Text.Solid name)
    ⟨by decide, by simp⟩ ?_ read
  intro d line d' known step
  unfold describeLine at step
  split at step
  · rename_i name v rest words
    have solid : Text.Solid v := by
      have inside : v ∈ Text.words line := by simp [words]
      exact (Text.forall_words (P := fun _ => True) (fun _ _ _ _ _ => ⟨trivial, trivial⟩) trivial
        v inside).2.2
    unfold describeField at step
    split_ifs at step
    · obtain ⟨m, _, is⟩ := except_bind_eq_ok.mp step
      cases is
      exact known
    · obtain ⟨p, _, is⟩ := except_bind_eq_ok.mp step
      cases is
      exact known
    · cases step
      exact ⟨nofun, known.2⟩
    · obtain ⟨l, _, is⟩ := except_bind_eq_ok.mp step
      cases is
      exact known
    · obtain ⟨s, _, is⟩ := except_bind_eq_ok.mp step
      cases is
      exact known
    · cases step
      refine ⟨known.1, ?_⟩
      rintro _ ⟨⟩
      exact solid
    · cases step
      exact known
  · cases step
    exact known

/--
A configuration is read back exactly when its chunks have keys and its device has a
word for its name.
-/
theorem config_round_trips_iff (n : NewNamespace) :
    (describe n.config = .ok n.recorded ∧ openConfig n.config = .ok n.opened) ↔
      n.effectiveScheme ≠ .plaintext ∧ ∀ d, n.device = some d → Text.Solid d := by
  -- The file is its fields, and reading it is reading them.
  constructor
  · intro ⟨described, _⟩
    obtain ⟨scheme, device⟩ := describe_limits described
    refine ⟨scheme, ?_⟩
    intro d named
    by_cases empty : d = []
    · simp [empty, Text.Solid]
    · exact device d (by simp [NewNamespace.recorded, named, empty])
  · intro ⟨scheme, device⟩
    have each := word_of_mem_fieldLines device
    have known : describedScheme n.effectiveScheme = n.effectiveScheme := by
      cases is : n.effectiveScheme with
      | plaintext => exact absurd is scheme
      | convergent | indexedRandom => rfl
    constructor
    · have reads (d : Description) (line name v : List Char) (rest : List (List Char))
          (words : Text.words line = name :: v :: rest) : describeLine d line =
            describeField d name v := by
        rw [describeLine, words]
      rw [describe, config_eq, foldlM_fieldLines reads each, describeFields, known]
      rfl
    · have reads (c : OpenedConfig) (line name v : List Char) (rest : List (List Char))
          (words : Text.words line = name :: v :: rest) : openLine c line = openField c name v := by
        rw [openLine, words]
      rw [openConfig, config_eq, foldlM_fieldLines reads each, openFields, except_ok_bind]
      -- The salt that was drawn is there.
      have salted : ¬(n.opened.mode = .transitOnly ∧ n.opened.tenantSalt = []) := by
        intro ⟨_, empty⟩
        have size := n.tenantSalt.size
        rw [show n.tenantSalt.bytes = [] from empty] at size
        exact absurd size (by decide)
      rw [ensure_of salted]
      rfl

/-- A namespace that is created with a name for its device. -/
def namedDevice (mode : Mode) (device : List Char) : NewNamespace :=
  ⟨mode, .convergent, .none, none, some device, ⟨List.replicate 32 7, rfl⟩⟩

/--
Chunks without keys are described as if they had some, and the text of a device's
name sets the mode.
-/
theorem configs_are_not_read_back :
    ((describe (namedDevice .transitOnly "laptop".toList).config).toOption.map
      Description.keyScheme = some .convergent ∧
        (namedDevice .transitOnly "laptop".toList).recorded.keyScheme = .plaintext) ∧
      (openConfig (namedDevice .e2ee "laptop\nmode transit-only".toList).config).toOption.map
        OpenedConfig.mode = some .transitOnly := by
  decide

end NasTools
