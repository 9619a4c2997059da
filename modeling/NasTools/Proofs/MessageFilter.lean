import NasTools.Lib.Marks
import NasTools.Proofs.Globs

/-!
Which words the filter of messages lets through, and which of these name a path that is left out.
-/

namespace NasTools

/-- What stands in a message for a text that was left out of it. -/
def filterMark : List Char := "[filtered]".toList

/-- The text that is looked for on behalf of a pattern. -/
def filterText (g : List Char) : List Char := (g.rdropWhile (· == '*')).rdropWhile (· == '/')

/-- The texts that are looked for, one after the other. -/
def filterTexts (rules : MirrorRules) : List (List Char) :=
  (rules.excludePaths.map filterText).filter (· ≠ [])

/-- The mark, letter by letter. -/
theorem filterMark_eq : filterMark = ['[', 'f', 'i', 'l', 't', 'e', 'r', 'e', 'd', ']'] := rfl

/-- The mark has no white space. -/
theorem filterMark_solid : Text.Solid filterMark := by
  intro c member
  simp only [filterMark_eq, List.mem_cons, List.not_mem_nil, or_false] at member
  rcases member with rfl | rfl | rfl | rfl | rfl | rfl | rfl | rfl | rfl |
    rfl <;> simp [Text.isWhite]

/-- No text that is looked for is empty. -/
theorem filterTexts_ne_nil {rules : MirrorRules} : ∀ old ∈ filterTexts rules, old ≠ [] := by
  intro old member
  simpa using (List.mem_filter.mp member).2

/-- The filter replaces the texts of its patterns by the mark. -/
theorem filterMsg_eq (msg : List Char) (rules : MirrorRules) :
    filterMsg msg rules = Text.replaceEach filterMark (filterTexts rules) msg := by
  -- Induction over the globs: a text that is empty is not looked for.
  unfold filterMsg filterTexts Text.replaceEach
  induction rules.excludePaths generalizing msg with
  | nil => rfl
  | cons g rest ih =>
    rw [List.foldl_cons, List.map_cons]
    by_cases empty : filterText g = []
    · -- Nothing is looked for.
      rw [List.filter_cons_of_neg (by simpa using empty), ← ih]
      simp only [filterText] at empty
      simp only [empty, if_true]
    · rw [List.filter_cons_of_pos (by simpa using empty), List.foldl_cons, ← ih]
      simp only [filterText] at empty
      simp only [empty, if_false]
      rfl

/-- No message comes out of the filter with a word that the rules leave out. -/
def NamesNothing (rules : MirrorRules) : Prop :=
  ∀ msg, ∀ w ∈ Text.words (filterMsg msg rules), excluded w rules = false

/-- The texts that come out of the filter are those whose marks can be taken back. -/
theorem takenBack_filterMsg {rules : MirrorRules} {image text : List Char} :
    Text.TakenBack filterMark (filterTexts rules) image text ↔ filterMsg text rules = image := by
  rw [Text.takenBack_iff filterTexts_ne_nil, filterMsg_eq]

example : filterMsg "fixes/one and more".toList .defaultPub = "[filtered]/one and more".toList := by
  decide +kernel

/-- A word of a filtered message comes out of the filter by itself. -/
theorem takenBack_of_word {rules : MirrorRules} {msg : List Char} :
    ∀ w ∈ Text.words (filterMsg msg rules),
      (∃ text, Text.TakenBack filterMark (filterTexts rules) w text) ∧ w ≠ [] ∧ Text.Solid w := by
  -- White space is no part of the mark, so taking back commutes with cutting at it.
  apply Text.forall_words
  · intro front c back white all
    obtain ⟨text, taken⟩ := all
    have other : c ∉ filterMark := by
      intro member
      rw [filterMark_solid c member] at white
      cases white
    obtain ⟨front', back', _, first, second⟩ := taken.cut other
    exact ⟨⟨front', first⟩, ⟨back', second⟩⟩
  · exact ⟨msg, takenBack_filterMsg.mpr rfl⟩

/--
The filter names nothing exactly when the marks of no word that is left out can be taken back.
-/
theorem namesNothing_iff {rules : MirrorRules} : NamesNothing rules ↔
    ∀ w, w ≠ [] → Text.Solid w → excluded w rules = true →
      ¬∃ text, Text.TakenBack filterMark (filterTexts rules) w text := by
  -- A word that can be taken back is itself what a message of one word becomes.
  constructor
  · intro nothing w some_ solid out found
    obtain ⟨text, taken⟩ := found
    have member : w ∈ Text.words (filterMsg text rules) := by
      rw [takenBack_filterMsg.mp taken, Text.words_single solid some_]
      exact List.mem_singleton_self w
    rw [nothing text w member] at out
    cases out
  · intro none_ msg w member
    obtain ⟨taken, some_, solid⟩ := takenBack_of_word w member
    by_contra out
    exact none_ w some_ solid (by simpa using out) taken

/-- A pattern for all that is in a folder, whose name the filter can tell from its marks. -/
structure IsFolder (name g : List Char) : Prop where
  is : g = name ++ "/**".toList
  some_ : name ≠ []
  plain : ∀ c ∈ name, c ∉ ['/', '*', '?', '[', ']']
  foreign : ∃ c ∈ name, c ∉ filterMark

/-- A part of a path is found in it. -/
theorem infix_of_mem_pathParts {path part : List Char} (member : part ∈ pathParts path) :
    part <:+: path := by
  -- Induction over the parts, which are joined by slashes.
  have inside : part ∈ path.splitOn '/' := List.mem_of_mem_filter member
  have whole : ['/'].intercalate (path.splitOn '/') = path := List.intercalate_splitOn '/'
  rw [← whole]
  generalize path.splitOn '/' = parts at inside
  induction parts with
  | nil => exact absurd inside List.not_mem_nil
  | cons first rest ih =>
    cases rest with
    | nil =>
      obtain rfl : part = first := List.mem_singleton.mp inside
      rw [List.intercalate_singleton]
    | cons second rest =>
      rw [List.intercalate_cons_cons]
      rcases List.mem_cons.mp inside with rfl | later
      · exact List.infix_append_of_infix_left (List.prefix_append part _).isInfix
      · exact List.infix_append_of_infix_right (ih later)

namespace IsFolder

variable {name g : List Char}

/-- No character of a folder's name is a slash or a wildcard. -/
theorem ne_of_mem (folder : IsFolder name g) {c : Char} (member : c ∈ name) :
    c ≠ '/' ∧ c ≠ '*' ∧ c ≠ '?' ∧ c ≠ '[' ∧ c ≠ ']' := by
  simpa using folder.plain c member

/-- The text that is looked for is the folder's name. -/
theorem filterText_eq (folder : IsFolder name g) : filterText g = name := by
  -- The stars and the slash at the end are dropped, and the name ends in none of them.
  have spelled : g = name ++ ['/'] ++ ['*'] ++ ['*'] := by
    rw [folder.is]
    simp
  have whole : name.rdropWhile (· == '/') = name := by
    refine List.rdropWhile_eq_self_iff.mpr fun some_ => ?_
    simpa using (folder.ne_of_mem (List.getLast_mem some_)).1
  unfold filterText
  rw [spelled, List.rdropWhile_concat_pos _ _ _ rfl, List.rdropWhile_concat_pos _ _ _ rfl,
    List.rdropWhile_concat_neg _ _ _ (by decide), List.rdropWhile_concat_pos _ _ _ rfl, whole]

/-- A word that the pattern leaves out holds the folder's name. -/
theorem infix_of_globMatch (folder : IsFolder name g) {w : List Char}
    (matched : globMatch (textBytes g) (textBytes w) = true) : name <:+: w := by
  -- Pattern and word are compared segment by segment.
  have parts : pathParts g = [name, "**".toList] := by
    have joined : g = ['/'].intercalate [name, "**".toList] := by
      rw [folder.is, List.intercalate_cons_cons, List.intercalate_singleton]
      simp
    rw [joined]
    apply pathParts_intercalate
    intro part member
    rcases List.mem_cons.mp member with rfl | member
    · exact ⟨folder.some_, fun inside => (folder.ne_of_mem inside).1 rfl⟩
    · obtain rfl := List.mem_singleton.mp member
      exact ⟨by simp, by simp⟩
  have noStar : (0x2a : UInt8) ∉ textBytes name := fun inside =>
    (folder.ne_of_mem (mem_textBytes_of_small (c := '*') (by decide) rfl inside)).2.1 rfl
  have noMark : (0x3f : UInt8) ∉ textBytes name := fun inside =>
    (folder.ne_of_mem (mem_textBytes_of_small (c := '?') (by decide) rfl inside)).2.2.1 rfl
  have notDeep : textBytes name ≠ [0x2a, 0x2a] := by
    intro is
    rw [is] at noStar
    exact noStar List.mem_cons_self
  rw [globMatch, segments_textBytes, segments_textBytes, parts, List.map_cons, globRec_cons,
    if_neg notDeep] at matched
  -- The first segment of the word is compared with the name as a whole.
  cases is : (pathParts w).map textBytes with
  | nil => simp [is] at matched
  | cons seg path =>
    rw [is, Bool.and_eq_true, segMatch, if_pos (by simp [noStar, noMark])] at matched
    obtain ⟨part, more, here, rfl, _⟩ := List.map_eq_cons_iff.mp is
    obtain rfl : name = part := textBytes_injective (by simpa using matched.1)
    exact infix_of_mem_pathParts (here ▸ List.mem_cons_self)

end IsFolder

/--
The filter lets no excluded name through exactly when every such name holds a text that is looked
for, and holds no mark that could have stood for one.
-/
theorem filtered_words_are_not_excluded_iff (rules : MirrorRules) :
    (∀ msg, ∀ w ∈ Text.words (filterMsg msg rules), excluded w rules = false) ↔
      ∀ w, w ≠ [] → Text.Solid w → excluded w rules = true →
        (∃ old ∈ filterTexts rules, old <:+: w) ∧
        (filterMark <:+: w → ¬∃ text, Text.TakenBack filterMark (filterTexts rules) w text) := by
  -- The condition for a word without the mark is that it holds a text that is looked for.
  refine namesNothing_iff.trans (forall_congr' fun w => imp_congr_right fun _ =>
    imp_congr_right fun _ =>
    imp_congr_right fun _ => ?_)
  constructor
  · intro none_
    refine ⟨?_, fun _ => none_⟩
    by_contra free
    push Not at free
    exact none_ ⟨w, Text.takenBack_self free⟩
  · intro held found
    by_cases marked : filterMark <:+: w
    · exact held.2 marked found
    · obtain ⟨text, taken⟩ := found
      obtain ⟨old, member, inside⟩ := held.1
      exact ((Text.takenBack_of_markFree marked).mp taken).2 old member inside


/-- Rules that leave out folders keep their names out of messages. -/
theorem folders_are_not_named {rules : MirrorRules}
    (folders : ∀ g ∈ rules.excludePaths, ∃ name, IsFolder name g) :
    NamesNothing rules := by
  -- A word that is excluded holds the folder's name, which is looked for and would have been
  -- taken out.
  refine namesNothing_iff.mpr fun w _ _ out found => ?_
  obtain ⟨text, taken⟩ := found
  obtain ⟨g, member, matched⟩ := List.any_eq_true.mp out
  obtain ⟨name, folder⟩ := folders g member
  have ends : filterMark = ['[', 'f', 'i', 'l', 't', 'e', 'r', 'e', 'd'] ++ [']'] := filterMark_eq
  have apart : Text.Apart filterMark name :=
    Text.apart_of_letters filterMark_eq ends
      (fun inside => folder.plain _ inside (by simp))
        (fun inside => folder.plain _ inside (by simp)) folder.foreign
  have looked : name ∈ filterTexts rules := by
    refine List.mem_filter.mpr
      ⟨List.mem_map.mpr ⟨g, member, folder.filterText_eq⟩, by simpa using folder.some_⟩
  exact taken.not_held apart looked (folder.infix_of_globMatch matched)

/-- The rules of the program's own choice. -/
example : NamesNothing .defaultPub := by
  -- Both rules are names of folders.
  apply folders_are_not_named
  intro g member
  rcases List.mem_cons.mp member with rfl | member
  · exact ⟨"fixes".toList, rfl, by simp, by simp, ⟨'x', by simp, by simp [filterMark_eq]⟩⟩
  · obtain rfl := List.mem_singleton.mp member
    exact ⟨"internal".toList, rfl, by simp, by simp, ⟨'n', by simp, by simp [filterMark_eq]⟩⟩

/-- Rules that leave out the logs. -/
def logRules : List Char := "exclude_paths=*.log".toList

/-- The text that is looked for has the star in it, so the name of a log stays. -/
theorem log_is_named : ∃ rules, parseRules logRules = .ok rules ∧ rules.filterMessages = true ∧
    filterMsg "see a.log".toList rules = "see a.log".toList ∧
    Text.words "see a.log".toList = ["see".toList, "a.log".toList] ∧
      excluded "a.log".toList rules = true ∧
    ¬∀ w ∈ Text.words (filterMsg "see a.log".toList rules), excluded w rules = false := by
  -- The pattern keeps its star, so the filter looks for a text that is not in the message.
  have kept : filterMsg "see a.log".toList ⟨["*.log".toList], true, true⟩ =
    "see a.log".toList := by decide
  have parted : Text.words "see a.log".toList = ["see".toList, "a.log".toList] := by decide
  have out : excluded "a.log".toList ⟨["*.log".toList], true, true⟩ = true := by decide
  refine ⟨_, by decide, rfl, kept, parted, out, ?_⟩
  rw [kept, parted]
  intro named
  have never := named "a.log".toList (by simp)
  rw [out] at never
  cases never

end NasTools
