import NasTools.Lib.Fallible
import NasTools.Proofs.SlotClient

/-!
What a client's evidence of a fork says over whole runs: when it is raised, and that it stays.
-/

namespace NasTools

/-- The higher witness stands on another record than the one the lower witness names. -/
def Parts (low high : Witness) : Prop :=
  high.seq.toNat = low.seq.toNat + 1 ∧ high.prev ≠ low.recordHash

/-- Two witnesses that cannot describe one history: one sequence or two neighbouring ones. -/
def Conflicts (a b : Witness) : Prop :=
  (a.seq = b.seq ∧ a.recordHash ≠ b.recordHash) ∨ Parts a b

/-- Two of the witnesses conflict. -/
def Conflicted (ws : List Witness) : Prop := ∃ a ∈ ws, ∃ b ∈ ws, Conflicts a b

/-- More witnesses keep every conflict. -/
theorem Conflicted.mono {ws more : List Witness} (subset : ws ⊆ more) (found : Conflicted ws) :
    Conflicted more := by
  obtain ⟨a, aMember, b, bMember, conflict⟩ := found
  exact ⟨a, subset aMember, b, subset bMember, conflict⟩

instance (low high : Witness) : Decidable (Parts low high) := inferInstanceAs (Decidable (_ ∧ _))

instance (a b : Witness) : Decidable (Conflicts a b) := inferInstanceAs (Decidable (_ ∨ _))

instance (ws : List Witness) : Decidable (Conflicted ws) :=
  inferInstanceAs (Decidable (∃ a ∈ ws, ∃ b ∈ ws, Conflicts a b))

namespace SlotClient

variable [Crypto] {c : SlotClient}

section Walks

omit [Crypto] in
/-- One below a sequence that has one below it. -/
theorem pred_toNat {s : UInt64} (above : 0 < s.toNat) : (s - 1).toNat = s.toNat - 1 := by
  -- Above zero the subtraction does not wrap.
  have one : (1 : UInt64) ≤ s := by
    rw [UInt64.le_iff_toNat_le]
    exact above
  rw [UInt64.toNat_sub_of_le _ _ one]
  rfl

/-- An edge is a witness the client holds, filed under the record it names. -/
theorem mem_of_edges {hash : Digest} {w : Witness} (edge : c.edges[hash]? = some w) :
    w ∈ c.witnesses ∧ w.recordHash = hash := by
  -- Every edge of the fold's map is of that kind, from the empty map on.
  have every : ∀ h v, c.edges[h]? = some v → v ∈ c.witnesses ∧ v.recordHash = h := by
    refine foldl_keeps (P := fun m : OrdMap Digest Witness =>
      ∀ h v, m[h]? = some v → v ∈ c.witnesses ∧ v.recordHash = h) ?_ ∅ (by simp)
    intro m u member known h v found
    rw [Std.ExtTreeMap.getElem?_insertIfNew] at found
    split at found
    · rename_i new
      cases found
      have same : u.recordHash = h := by simpa using new.1
      exact ⟨member, same⟩
    · exact known h v found
  exact every hash w edge

omit [Crypto] in
/-- A walk that goes on has stepped through a witness at its sequence. -/
theorem walkDown_succ {edges : OrdMap Digest Witness} {steps : Nat} {hash : Digest} {seq : UInt64}
    {link : List Witness} {reached : Digest}
    (walked : walkDown edges (steps + 1) hash seq = some (link, reached)) :
    ∃ w link', edges[hash]? = some w ∧ w.seq = seq ∧
      walkDown edges steps w.prev (seq - 1) = some (link', reached) ∧
      link = w :: link' := by
  -- One step down asks for an edge at the sequence, and then for the rest of the walk.
  simp only [walkDown] at walked
  cases edge : edges[hash]? with
  | none => simp [edge] at walked
  | some w =>
    simp only [edge] at walked
    split at walked
    · cases walked
    rename_i place
    -- The edge fits, so only the rest may still fail.
    cases deeper : walkDown edges steps w.prev (seq - 1) with
    | none => simp [deeper] at walked
    | some rest =>
      obtain ⟨link', reached'⟩ := rest
      simp only [deeper, Option.some.injEq, Prod.mk.injEq] at walked
      obtain ⟨rfl, rfl⟩ := walked
      exact ⟨w, link', rfl, not_not.mp place, deeper, rfl⟩

/--
A walk that steps at all ends on a witness one above where it arrives.

So whatever a long walk shows, that last witness shows alone.
-/
theorem walkDown_last {steps : Nat} {hash : Digest} {seq : UInt64} {link : List Witness}
    {reached : Digest} (room : steps ≤ seq.toNat)
    (walked : walkDown c.edges steps hash seq = some (link, reached)) :
    (steps = 0 ∧ reached = hash) ∨
      ∃ w ∈ c.witnesses, w.seq.toNat + steps = seq.toNat + 1 ∧ w.prev = reached := by
  -- Induction over the steps that are left.
  induction steps generalizing hash seq link with
  | zero =>
    simp only [walkDown, Option.some.injEq, Prod.mk.injEq] at walked
    exact .inl ⟨rfl, walked.2.symm⟩
  | succ steps ih =>
    right
    obtain ⟨w, link', edge, level, deeper, _⟩ := walkDown_succ walked
    have member := (mem_of_edges edge).1
    have below := pred_toNat (s := seq) (by omega)
    -- Either this step was the last one, or a deeper one was.
    rcases ih (by omega) deeper with ⟨rfl, arrived⟩ | ⟨v, vMember, height, named⟩
    · exact ⟨w, member, by rw [level], arrived.symm⟩
    · exact ⟨v, vMember, by omega, named⟩

/-- A client that can walk down to a sequence holds a witness of the record just above it. -/
theorem walkTo_last {high : Witness} {target : UInt64} {link : List Witness} {reached : Digest}
    (member : high ∈ c.witnesses) (walked : walkTo c.edges high target = some (link, reached)) :
    ∃ w ∈ c.witnesses, w.seq.toNat = target.toNat + 1 ∧ w.prev = reached := by
  -- The walk goes down from one below `high`, and the last edge on it names what is reached.
  unfold walkTo at walked
  split at walked
  · cases walked
  rename_i near
  rw [not_or, ge_iff_le, UInt64.not_le, UInt64.lt_iff_toNat_lt] at near
  have below := pred_toNat (s := high.seq) (by omega)
  -- The number of steps does not wrap, for the target is lower.
  have gap : (high.seq - 1 - target).toNat = high.seq.toNat - 1 - target.toNat := by
    rw [UInt64.toNat_sub_of_le, below]
    rw [UInt64.le_iff_toNat_le, below]
    omega
  rw [gap] at walked
  rcases walkDown_last (by omega) walked with ⟨none, arrived⟩ | ⟨w, wMember, height, named⟩
  · -- No step was needed: `high` itself stands just above.
    exact ⟨high, member, by omega, arrived.symm⟩
  · exact ⟨w, wMember, by omega, named⟩

omit [Crypto] in
/-- From the witness just above it, a sequence is reached at once. -/
theorem walkTo_near {edges : OrdMap Digest Witness} {high : Witness} {target : UInt64}
    (near : high.seq.toNat = target.toNat + 1) :
    walkTo edges high target = some ([], high.prev) := by
  -- From directly above no step is walked, and nothing stands in the way.
  have below : high.seq - 1 = target := by
    apply UInt64.toNat_inj.mp
    rw [pred_toNat (by omega)]
    omega
  have one : (high.seq - target).toNat = 1 := by
    rw [UInt64.toNat_sub_of_le]
    · omega
    · rw [UInt64.le_iff_toNat_le]
      omega
  have ahead : ¬(target ≥ high.seq ∨ (high.seq - target).toNat > maxWalkSteps) := by
    rw [not_or, ge_iff_le, UInt64.not_le, UInt64.lt_iff_toNat_lt, one]
    exact ⟨by omega, by decide⟩
  rw [walkTo, if_neg ahead, below]
  simp [walkDown]

end Walks

section Search

/-- What the search reports: a lower and a higher witness, and a walk that misses the lower one. -/
structure Shows (c : SlotClient) (found : Conflict) : Prop where
  lowKept : found.2.1 ∈ c.witnesses
  highKept : found.2.2.1 ∈ c.witnesses
  place : found.1 = found.2.1.seq
  walks : ∃ reached, walkTo c.edges found.2.2.1 found.2.1.seq = some (found.2.2.2, reached) ∧
    reached ≠ found.2.1.recordHash

/-- A pair whose walk misses its lower witness is at a place no lower than one just above it. -/
theorem Shows.parts {found : Conflict} (shown : c.Shows found) :
    ∃ low ∈ c.witnesses, ∃ high ∈ c.witnesses, low.seq = found.1 ∧ Parts low high := by
  obtain ⟨reached, walked, missed⟩ := shown.walks
  obtain ⟨w, member, height, named⟩ := walkTo_last shown.highKept walked
  rw [← named] at missed
  exact ⟨found.2.1, shown.lowKept, w, member, shown.place.symm, height, missed⟩

/-- A conflict at or below a sequence is at hand. -/
def FoundBy (s : UInt64) (best : Option Conflict) : Prop := ∃ found, best = some found ∧ found.1 ≤ s

/-- A conflict as low as a given one is at hand, and one as near where it is no lower. -/
def FoundNear (s h : UInt64) (best : Option Conflict) : Prop :=
  ∃ found, best = some found ∧ (found.1 < s ∨ (found.1 = s ∧ found.2.2.1.seq ≤ h))

omit [Crypto] in
/-- A conflict at the sequence or lower is one by the sequence. -/
theorem FoundNear.foundBy {s h : UInt64} {best : Option Conflict} (found : FoundNear s h best) :
    FoundBy s best := by
  -- Being level forgets how far apart the two stand.
  obtain ⟨conflict, is, near⟩ := found
  refine ⟨conflict, is, ?_⟩
  rcases near with lower | ⟨level, _⟩
  · exact UInt64.le_of_lt lower
  · exact UInt64.le_of_eq level

omit [Crypto] in
/-- A pair leaves the best conflict as it is, or takes its place with a walk that misses. -/
theorem considerPair_cases (edges : OrdMap Digest Witness) (high : Witness) (best : Option Conflict)
    (low : Witness) :
    considerPair edges high best low = best ∨
      ∃ link reached, considerPair edges high best low = some (low.seq, low, high, link) ∧
        walkTo edges high low.seq = some (link, reached) ∧ reached ≠ low.recordHash ∧
          ¬notBetter best low high = true := by
  -- Three branches keep the best, and the one that replaces it has walked to another hash.
  unfold considerPair
  split
  · exact .inl rfl
  split
  · exact .inl rfl
  rename_i better
  split
  · rename_i link reached walked
    split
    · rename_i missed
      exact .inr ⟨link, reached, rfl, walked, missed, better⟩
    · exact .inl rfl
  · exact .inl rfl

omit [Crypto] in
/-- Looking at another pair never gives up a conflict for a higher one, or for a farther one. -/
theorem considerPair_foundNear {edges : OrdMap Digest Witness} {high low : Witness} {s h : UInt64}
    {best : Option Conflict} (found : FoundNear s h best) :
    FoundNear s h (considerPair edges high best low) := by
  -- The pair changes nothing, or it takes the place.
  rcases considerPair_cases edges high best low with same | ⟨link, _, is, _, _, better⟩
  · rwa [same]
  · obtain ⟨⟨seq, bestLow, bestHigh, _⟩, rfl, near⟩ := found
    simp only [notBetter, Bool.or_eq_true, decide_eq_true_eq, Bool.and_eq_true, beq_iff_eq, not_or,
      not_and, UInt64.not_lt, UInt64.not_le] at better
    obtain ⟨notAbove, nearer⟩ := better
    refine ⟨_, is, ?_⟩
    -- The pair that takes the place is below the best so far, or level with it and nearer.
    rcases near with lower | ⟨level, close⟩
    · exact .inl (UInt64.lt_of_le_of_lt notAbove lower)
    · dsimp only at level close
      by_cases same : seq = low.seq
      · exact .inr ⟨same.symm.trans level,
          UInt64.le_of_lt (UInt64.lt_of_lt_of_le (nearer same) close)⟩
      · rw [← level]
        exact .inl (UInt64.lt_of_le_of_ne notAbove (Ne.symm same))

omit [Crypto] in
/-- Looking at a parting pair leaves a conflict as low, and as near where it is no lower. -/
theorem considerPair_near {edges : OrdMap Digest Witness} {high low : Witness}
    (parts : Parts low high) (best : Option Conflict) :
    FoundNear low.seq high.seq (considerPair edges high best low) := by
  -- The walk from directly above arrives at once, at a hash that is not the low one's.
  obtain ⟨near, missed⟩ := parts
  have below : ¬low.seq ≥ high.seq := by
    rw [ge_iff_le, UInt64.not_le, UInt64.lt_iff_toNat_lt]
    omega
  unfold considerPair
  rw [if_neg below, walkTo_near near]
  split
  · -- The pair is passed over only for one that is lower, or level and no farther.
    rename_i worse
    cases best with
    | none => simp [notBetter] at worse
    | some found =>
      obtain ⟨seq, bestLow, bestHigh, link⟩ := found
      simp only [notBetter, Bool.or_eq_true, decide_eq_true_eq, Bool.and_eq_true, beq_iff_eq]
        at worse
      exact ⟨_, rfl, worse⟩
  · simp only [ne_eq, missed, not_false_iff, if_true]
    exact ⟨_, rfl, .inr ⟨rfl, UInt64.le_refl _⟩⟩

/-- Looking at a pair of held witnesses reports nothing but a walk that misses. -/
theorem considerPair_shows {high low : Witness} {best : Option Conflict}
    (highKept : high ∈ c.witnesses) (lowKept : low ∈ c.witnesses)
    (shown : ∀ found, best = some found → c.Shows found) :
    ∀ found, considerPair c.edges high best low = some found → c.Shows found := by
  -- Either the best is kept, or the pair itself is reported with its walk.
  intro found reported
  rcases considerPair_cases c.edges high best low with same | ⟨link, reached, is, walked, missed, _⟩
  · exact shown found (same.symm.trans reported)
  · obtain rfl := Option.some.inj (is.symm.trans reported)
    exact ⟨lowKept, highKept, rfl, reached, walked, missed⟩

/-- Everything the search reports is a walk that misses. -/
theorem witnessConflict_shows {found : Conflict} (reported : c.witnessConflict = some found) :
    c.Shows found := by
  -- The outer loop is over the higher witness and the inner one over the lower.
  refine foldl_keeps (P := fun best => ∀ found, best = some found → c.Shows found) ?_ none
    (by simp) found reported
  intro best high highKept shown
  refine foldl_keeps (P := fun best => ∀ found, best = some found → c.Shows found) ?_ best shown
  intro best low lowKept shown
  exact considerPair_shows highKept lowKept shown

/--
Of the parting pairs among the witnesses, none is lower than what is found, or level and nearer.
-/
theorem witnessConflict_foundNear {low high : Witness} (lowKept : low ∈ c.witnesses)
    (highKept : high ∈ c.witnesses) (parts : Parts low high) :
    FoundNear low.seq high.seq c.witnessConflict := by
  -- The two loops meet this pair once, and no pair before or after it spoils what is found.
  refine foldl_achieves highKept ?_ ?_ none
  · intro best
    exact foldl_achieves lowKept (considerPair_near parts) (fun _ _ => considerPair_foundNear) best
  · intro best other found
    exact foldl_keeps (fun _ _ _ => considerPair_foundNear) best found

/-- A parting pair among the witnesses is found, or one no higher than it. -/
theorem witnessConflict_foundBy {low high : Witness} (lowKept : low ∈ c.witnesses)
    (highKept : high ∈ c.witnesses) (parts : Parts low high) : FoundBy low.seq c.witnessConflict :=
  (witnessConflict_foundNear lowKept highKept parts).foundBy

/-- The search comes down to a sequence exactly when a pair parts at or below it. -/
theorem witnessConflict_foundBy_iff {s : UInt64} : FoundBy s c.witnessConflict ↔
    ∃ low ∈ c.witnesses, ∃ high ∈ c.witnesses, low.seq ≤ s ∧ Parts low high := by
  -- What is reported has two parts, and two parts are found by their sequence.
  constructor
  · intro seen
    obtain ⟨found, reported, below⟩ := seen
    obtain ⟨low, lowKept, high, highKept, place, parts⟩ := (witnessConflict_shows reported).parts
    exact ⟨low, lowKept, high, highKept, by rwa [place], parts⟩
  · intro parted
    obtain ⟨low, lowKept, high, highKept, below, parts⟩ := parted
    obtain ⟨found, reported, lower⟩ := witnessConflict_foundBy lowKept highKept parts
    exact ⟨found, reported, UInt64.le_trans lower below⟩

end Search

section Provable

/-- Every witness kept is of the client's slot and verifies. -/
def Genuine (c : SlotClient) : Prop :=
  ∀ w ∈ c.witnesses, w.slotId = c.slotId ∧ w.verify = .ok ()

/-- Re-walking the link of a walk arrives where the walk arrived. -/
theorem rewalk_of_walkDown {p : ForkProof} {steps : Nat} {hash : Digest} {seq : UInt64}
    {link : List Witness} {reached : Digest} (genuine : c.Genuine) (slot : p.slotId = c.slotId)
    (room : p.seq.toNat + steps = seq.toNat)
    (walked : walkDown c.edges steps hash seq = some (link, reached)) :
    p.rewalk link hash seq = (reached != p.a.recordHash) ∧ link.length = steps := by
  -- Induction over the steps, from the higher witness down.
  induction steps generalizing hash seq link with
  | zero =>
    simp only [walkDown, Option.some.injEq, Prod.mk.injEq] at walked
    obtain ⟨rfl, rfl⟩ := walked
    have arrived : seq = p.seq := UInt64.toNat_inj.mp (by omega)
    simp [ForkProof.rewalk, arrived]
  | succ steps ih =>
    obtain ⟨w, link', edge, level, deeper, rfl⟩ := walkDown_succ walked
    obtain ⟨member, named⟩ := mem_of_edges edge
    obtain ⟨wSlot, wVerifies⟩ := genuine w member
    have below := pred_toNat (s := seq) (by omega)
    obtain ⟨again, length⟩ := ih (by omega) deeper
    -- The witness stepped through stands above the proof's sequence and passes every re-check.
    have above : seq ≠ p.seq := by
      intro same
      rw [same] at room
      omega
    have passes : ¬(w.slotId ≠ p.slotId ∨ w.seq ≠ seq ∨ w.recordHash ≠ hash ∨
        ¬w.verify.isOk = true) := by
      simp [wSlot, slot, level, named, wVerifies, Except.isOk, Except.toBool]
    rw [ForkProof.rewalk, if_neg above, if_neg passes]
    exact ⟨again, by simp [length]⟩

/-- What the search reports makes a proof that stands up to its own re-check. -/
theorem tryLinked_of_shows {found : Conflict} (genuine : c.Genuine) (shown : c.Shows found) :
    (ForkProof.tryLinked found.2.1 found.2.2.1 found.2.2.2).isSome := by
  -- The two witnesses and the walk between them are what the proof is made of.
  obtain ⟨seq, low, high, link⟩ := found
  obtain ⟨lowKept, highKept, _, reached, walked, missed⟩ := shown
  dsimp only at *
  obtain ⟨lowSlot, lowVerifies⟩ := genuine low lowKept
  obtain ⟨highSlot, highVerifies⟩ := genuine high highKept
  unfold walkTo at walked
  split at walked
  · cases walked
  rename_i near
  rw [not_or, ge_iff_le, UInt64.not_le, UInt64.lt_iff_toNat_lt] at near
  obtain ⟨above, bounded⟩ := near
  have below := pred_toNat (s := high.seq) (by omega)
  have span : (high.seq - low.seq).toNat = high.seq.toNat - low.seq.toNat := by
    rw [UInt64.toNat_sub_of_le]
    rw [UInt64.le_iff_toNat_le]
    omega
  have gap : (high.seq - 1 - low.seq).toNat = high.seq.toNat - 1 - low.seq.toNat := by
    rw [UInt64.toNat_sub_of_le, below]
    rw [UInt64.le_iff_toNat_le, below]
    omega
  obtain ⟨again, length⟩ := rewalk_of_walkDown
    (p := ⟨low.slotId, low.seq, low, high, link⟩) genuine lowSlot (by dsimp only; omega) walked
  -- The link is one shorter than a walk, so it fits the bound a recipient enforces.
  have short : link.length ≤ maxLink := by
    have same : maxWalkSteps = maxLink := rfl
    omega
  have order : ¬(low.slotId ≠ high.slotId ∨ high.seq ≤ low.seq) := by
    rw [not_or, UInt64.le_iff_toNat_le]
    exact ⟨by simp [lowSlot, highSlot], by omega⟩
  have apart : high.seq ≠ low.seq := by
    intro same
    rw [same] at above
    omega
  have inOrder : ¬(high.seq < low.seq ∨ link.length > maxLink) := by
    rw [not_or, UInt64.lt_iff_toNat_lt]
    exact ⟨by omega, by omega⟩
  have stands : (⟨low.slotId, low.seq, low, high, link⟩ : ForkProof).verify = true := by
    simp only [ForkProof.verify, again]
    simp [lowSlot, highSlot, lowVerifies, highVerifies, Except.isOk, Except.toBool, apart, inOrder,
      missed]
  rw [ForkProof.tryLinked, if_neg order]
  simp [stands]

/-- Two genuine witnesses make a proof at one sequence exactly when they name two records there. -/
theorem tryNew_isSome {a b : Witness} (slot : a.slotId = b.slotId) (aVerifies : a.verify = .ok ())
    (bVerifies : b.verify = .ok ()) :
    (ForkProof.tryNew a b).isSome ↔ a.seq = b.seq ∧ a.recordHash ≠ b.recordHash := by
  -- The signatures are given, so only the two comparisons decide.
  unfold ForkProof.tryNew
  by_cases apart : a.slotId ≠ b.slotId ∨ a.seq ≠ b.seq ∨ a.recordHash = b.recordHash
  · rw [if_pos apart]
    simp only [Option.isSome_none, Bool.false_eq_true, false_iff]
    intro rivals
    obtain ⟨level, other⟩ := rivals
    simp [slot, level, other] at apart
  · rw [if_neg apart]
    simp only [not_or, not_not] at apart
    simp [aVerifies, bVerifies, Except.isOk, Except.toBool, apart.2.1, apart.2.2]

/-- Genuine witnesses hold a proof at one sequence exactly when two of them name two records. -/
theorem sameSeqProof_isSome {ws : List Witness} {slot : SlotId}
    (genuine : ∀ w ∈ ws, w.slotId = slot ∧ w.verify = .ok ()) :
    (sameSeqProof ws).isSome ↔ ∃ a ∈ ws, ∃ b ∈ ws, a.seq = b.seq ∧ a.recordHash ≠ b.recordHash := by
  -- Induction over the witnesses, each of which is held against those behind it.
  induction ws with
  | nil => simp [sameSeqProof]
  | cons first rest ih =>
    obtain ⟨firstSlot, firstVerifies⟩ := genuine first (by simp)
    have later := ih fun w member => genuine w (by simp [member])
    have paired : (rest.findSome? (ForkProof.tryNew first)).isSome ↔
        ∃ b ∈ rest, first.seq = b.seq ∧ first.recordHash ≠ b.recordHash := by
      rw [List.findSome?_isSome_iff]
      constructor
      · intro one
        obtain ⟨b, member, made⟩ := one
        obtain ⟨bSlot, bVerifies⟩ := genuine b (by simp [member])
        exact ⟨b, member,
          (tryNew_isSome (firstSlot.trans bSlot.symm) firstVerifies bVerifies).mp made⟩
      · intro one
        obtain ⟨b, member, rival⟩ := one
        obtain ⟨bSlot, bVerifies⟩ := genuine b (by simp [member])
        exact ⟨b, member,
          (tryNew_isSome (firstSlot.trans bSlot.symm) firstVerifies bVerifies).mpr rival⟩
    rw [sameSeqProof, Option.isSome_or, Bool.or_eq_true, paired, later]
    constructor
    · intro either
      obtain ⟨b, member, level, other⟩ | ⟨a, aMember, b, bMember, level, other⟩ := either
      · exact ⟨first, by simp, b, by simp [member], level, other⟩
      · exact ⟨a, by simp [aMember], b, by simp [bMember], level, other⟩
    · intro rivals
      obtain ⟨a, aMember, b, bMember, level, other⟩ := rivals
      -- The order of the two does not matter, and a witness is no rival of itself.
      rcases List.mem_cons.mp aMember with rfl | aLater <;>
        rcases List.mem_cons.mp bMember with rfl | bLater
      · exact absurd rfl other
      · exact .inl ⟨b, bLater, level, other⟩
      · exact .inl ⟨a, aLater, level.symm, other.symm⟩
      · exact .inr ⟨a, aLater, b, bLater, level, other⟩

/-- A client of genuine witnesses can publish a proof exactly when two of them conflict. -/
theorem forkProof_isSome_iff (genuine : c.Genuine) :
    c.forkProof.isSome ↔ Conflicted c.witnesses := by
  -- Rivals at one sequence are tried first, and the search comes after them.
  have same := sameSeqProof_isSome genuine
  unfold forkProof
  cases level : sameSeqProof c.witnesses with
  | some p =>
    rw [level, Option.isSome_some] at same
    obtain ⟨a, aMember, b, bMember, conflict⟩ := same.mp rfl
    simp only [Option.isSome_some, true_iff]
    exact ⟨a, aMember, b, bMember, .inl conflict⟩
  | none =>
    rw [level, Option.isSome_none] at same
    cases searched : c.witnessConflict with
    | some found =>
      have shown := witnessConflict_shows searched
      obtain ⟨low, lowKept, high, highKept, _, parts⟩ := shown.parts
      constructor
      · intro _
        exact ⟨low, lowKept, high, highKept, .inr parts⟩
      · intro _
        exact tryLinked_of_shows genuine shown
    | none =>
      simp only [Option.isSome_none, Bool.false_eq_true, false_iff]
      intro rivals
      obtain ⟨a, aMember, b, bMember, conflict | parts⟩ := rivals
      · exact absurd (same.mpr ⟨a, aMember, b, bMember, conflict⟩) (by simp)
      · obtain ⟨found, reported, _⟩ := witnessConflict_foundBy aMember bMember parts
        rw [searched] at reported
        cases reported

end Provable

section Maps

/-- The hashes kept at a sequence. -/
def hashesAt (m : Evidence) (seq : UInt64) : OrdSet Digest := m.getD seq ∅

/-- Two hashes are kept at a sequence. -/
def Split (m : Evidence) (seq : UInt64) : Prop :=
  ∃ a b, a ≠ b ∧ a ∈ hashesAt m seq ∧ b ∈ hashesAt m seq

omit [Crypto] in
/-- What adding a hash does: it may join the hashes of its sequence, and nothing else changes. -/
theorem hashesAt_addBounded (m : Evidence) (seq : UInt64) (hash : Digest) (k : UInt64) :
    hashesAt (addBounded m seq hash) k = hashesAt m k ∨
      (k = seq ∧ hashesAt (addBounded m seq hash) k = (hashesAt m k).insert hash ∧
        ((hashesAt m k).size < maxHashesPerSeq ∨ hash ∈ hashesAt m k)) := by
  -- Only the sequence itself can grow, and only while there is room or the hash is held.
  unfold addBounded
  dsimp only
  split
  · rename_i room
    unfold hashesAt
    rw [Std.ExtTreeMap.getD_insert]
    by_cases same : seq = k
    · subst same
      right
      simpa [Std.ExtTreeSet.contains_iff_mem] using room
    · left
      simp [same]
  · exact .inl rfl

omit [Crypto] in
/-- A hash once kept is never dropped. -/
theorem mem_hashesAt_addBounded {m : Evidence} {k : UInt64} {h : Digest} (kept : h ∈ hashesAt m k)
    (seq : UInt64) (hash : Digest) : h ∈ hashesAt (addBounded m seq hash) k := by
  rcases hashesAt_addBounded m seq hash k with same | ⟨_, grown, _⟩
  · rwa [same]
  · rw [grown, Std.ExtTreeSet.mem_insert]
    exact .inr kept

omit [Crypto] in
/-- Only the hash added can be new, and only at its own sequence. -/
theorem of_mem_hashesAt_addBounded {m : Evidence} {seq k : UInt64} {hash h : Digest}
    (kept : h ∈ hashesAt (addBounded m seq hash) k) :
    h ∈ hashesAt m k ∨ (k = seq ∧ h = hash) := by
  -- A hash that is not new was there before.
  rcases hashesAt_addBounded m seq hash k with same | ⟨place, grown, _⟩
  · rw [same] at kept
    exact .inl kept
  · rw [grown, Std.ExtTreeSet.mem_insert] at kept
    rcases kept with new | old
    · have same : hash = h := by simpa using new
      exact .inr ⟨place, same.symm⟩
    · exact .inl old

omit [Crypto] in
/-- Adding a hash keeps the bound. -/
theorem size_hashesAt_addBounded {m : Evidence} {k : UInt64}
    (bounded : (hashesAt m k).size ≤ maxHashesPerSeq) (seq : UInt64) (hash : Digest) :
    (hashesAt (addBounded m seq hash) k).size ≤ maxHashesPerSeq := by
  -- The set grows by one at most, and only below the cap.
  rcases hashesAt_addBounded m seq hash k with same | ⟨_, grown, room⟩
  · rwa [same]
  · rw [grown, Std.ExtTreeSet.size_insert]
    split
    · exact bounded
    · rename_i absent
      rcases room with room | present
      · omega
      · exact absurd (Std.ExtTreeSet.contains_iff_mem.mpr present) absent

omit [Crypto] in
/-- A sequence is split exactly when it counts more than one hash. -/
theorem split_iff_size {m : Evidence} {k : UInt64} : Split m k ↔ 1 < (hashesAt m k).size := by
  -- The hashes of a sequence are counted in their listing.
  rw [← Std.ExtTreeSet.length_toList]
  constructor
  · intro two
    obtain ⟨a, b, other, aKept, bKept⟩ := two
    rw [← Std.ExtTreeSet.mem_toList] at aKept bKept
    -- A list of at most one hash has no two different ones.
    by_contra few
    match listed : (hashesAt m k).toList with
    | [] => simp [listed] at aKept
    | [only] =>
      rw [listed, List.mem_singleton] at aKept bKept
      exact other (aKept.trans bKept.symm)
    | _ :: _ :: _ => simp [listed] at few
  · intro many
    have sorted := Std.ExtTreeSet.ordered_toList (t := hashesAt m k)
    match listed : (hashesAt m k).toList with
    | [] => simp [listed] at many
    | [only] => simp [listed] at many
    | a :: b :: rest =>
      rw [listed] at sorted
      have less : compare a b = .lt := by simpa using (List.pairwise_cons.mp sorted).1 b (by simp)
      refine ⟨a, b, ?_, ?_, ?_⟩
      · intro same
        simp [same] at less
      · rw [← Std.ExtTreeSet.mem_toList, listed]
        simp
      · rw [← Std.ExtTreeSet.mem_toList, listed]
        simp

/-- A sequence at or below the given one is named. -/
def NamedBy (s : UInt64) (o : Option UInt64) : Prop := ∃ seq, o = some seq ∧ seq ≤ s

omit [Crypto] in
/-- The first split comes down to a sequence exactly when one at or below it is split. -/
theorem splitAt_namedBy {m : Evidence} {s : UInt64} :
    NamedBy s (splitAt m) ↔ ∃ k ≤ s, Split m k := by
  -- The search goes through the listing in order.
  have listed (k : UInt64) (set : OrdSet Digest) (entry : (k, set) ∈ m.toList) :
      hashesAt m k = set := by
    rw [Std.ExtTreeMap.mem_toList_iff_getElem?_eq_some] at entry
    simp [hashesAt, Std.ExtTreeMap.getD_eq_getD_getElem?, entry]
  constructor
  · intro named
    obtain ⟨seq, first, below⟩ := named
    obtain ⟨⟨k, set⟩, found, rfl⟩ := Option.map_eq_some_iff.mp first
    have member := List.mem_of_find?_eq_some found
    have many := List.find?_some found
    refine ⟨k, below, split_iff_size.mpr ?_⟩
    rw [listed k set member]
    simpa using many
  · intro forked
    obtain ⟨k, below, split⟩ := forked
    rw [split_iff_size] at split
    -- A split sequence is listed, so the search stops at it or at an earlier one.
    have present : (k, hashesAt m k) ∈ m.toList := by
      rw [Std.ExtTreeMap.mem_toList_iff_getElem?_eq_some]
      cases found : m[k]? with
      | some set => simp [hashesAt, Std.ExtTreeMap.getD_eq_getD_getElem?, found]
      | none => simp [hashesAt, Std.ExtTreeMap.getD_eq_getD_getElem?, found] at split
    cases first : m.toList.find? fun entry => entry.2.size > 1 with
    | none =>
      have nothing := List.find?_eq_none.mp first _ present
      simp only [gt_iff_lt, decide_eq_true_eq] at nothing
      omega
    | some entry =>
      refine ⟨entry.1, by simp [splitAt, first], ?_⟩
      obtain ⟨_, before, after, cut, earlier⟩ := List.find?_eq_some_iff_append.mp first
      have sorted := Std.ExtTreeMap.ordered_keys_toList (t := m)
      rw [cut] at present sorted
      rcases List.mem_append.mp present with front | back
      · have single := earlier _ front
        simp only [gt_iff_lt, Bool.not_eq_eq_eq_not, Bool.not_true, decide_eq_false_iff_not]
          at single
        omega
      rcases List.mem_cons.mp back with rfl | behind
      · exact below
      · have less := (List.pairwise_cons.mp (List.pairwise_append.mp sorted).2.1).1 _ behind
        exact UInt64.le_trans (UInt64.le_of_lt (Std.compare_eq_lt.mp less)) below

/-- The sequence reported comes down to a sequence exactly when one of the three sources does. -/
theorem forked_namedBy {s : UInt64} : NamedBy s c.forked ↔
    (∃ k ≤ s, Split c.evidence k) ∨ (∃ k ≤ s, Split c.recordEvidence k) ∨
      ∃ low ∈ c.witnesses, ∃ high ∈ c.witnesses, low.seq ≤ s ∧ Parts low high := by
  -- The least of three is below `s` exactly if one of them is.
  have searched : NamedBy s (c.witnessConflict.map Prod.fst) ↔ FoundBy s c.witnessConflict := by
    simp [NamedBy, FoundBy]
  rw [← witnessConflict_foundBy_iff, ← searched, ← splitAt_namedBy, ← splitAt_namedBy]
  -- The three sources, as `forked` lists them.
  let sources := [splitAt c.evidence, splitAt c.recordEvidence, c.witnessConflict.map Prod.fst]
  have least : NamedBy s sources.reduceOption.min? ↔ ∃ o ∈ sources, NamedBy s o := by
    constructor
    · intro named
      obtain ⟨seq, first, below⟩ := named
      have member := (List.min?_eq_some_iff.mp first).1
      rw [List.reduceOption_mem_iff] at member
      exact ⟨some seq, member, seq, rfl, below⟩
    · intro one
      obtain ⟨o, member, seq, rfl, below⟩ := one
      rw [← List.reduceOption_mem_iff] at member
      cases first : sources.reduceOption.min? with
      | none =>
        rw [List.min?_eq_none_iff.mp first] at member
        cases member
      | some lowest =>
        have lower := (List.min?_eq_some_iff.mp first).2 seq member
        exact ⟨lowest, rfl, UInt64.le_trans lower below⟩
  rw [show c.forked = sources.reduceOption.min? from rfl, least]
  simp [sources]

end Maps

section Steps

/-- Whether a witness passes the three gates: slot, roster and signature. -/
def Admits (c : SlotClient) (w : Witness) : Prop :=
  w.slotId = c.slotId ∧ c.witnessRoster.contains (keyId w.witnessPk) = true ∧ w.verify.isOk = true

instance (c : SlotClient) (w : Witness) : Decidable (c.Admits w) :=
  inferInstanceAs (Decidable (_ ∧ _ ∧ _))

/-- The records an operation leaves as evidence: all of an offer whose head is of this slot. -/
def shownRecords (c : SlotClient) : ClientOp → List SlotRecord
  | .offer records _ =>
    if records.getLast?.map SlotRecord.slotId = some c.slotId then records else []
  | .offerHeadOnly head _ => if head.slotId = c.slotId then [head] else []
  | _ => []

/-- The signature hashes an operation leaves as evidence. -/
def shownSigs (c : SlotClient) (op : ClientOp) : List (UInt64 × Digest) :=
  match op with
  | .observe seq sigHash => [(seq, sigHash)]
  | op => (c.shownRecords op).map fun r => (r.seq, r.sigHash)

/-- The witness an operation has admitted, if any. -/
def admitted (c : SlotClient) : ClientOp → List Witness
  | .observeWitness w => if c.Admits w then [w] else []
  | _ => []

/-- The record hashes an operation leaves as evidence. -/
def shownHashes (c : SlotClient) (op : ClientOp) : List (UInt64 × Digest) :=
  (c.shownRecords op).map (fun r => (r.seq, r.recordHash)) ++
    (c.admitted op).map fun w => (w.seq, w.recordHash)

/-- Add every hash of a list at its sequence. -/
def addAll (m : Evidence) (shown : List (UInt64 × Digest)) : Evidence :=
  shown.foldl (fun m entry => addBounded m entry.1 entry.2) m

/-- Taking records as evidence adds each of them under both its names. -/
theorem observeRecords_eq (c : SlotClient) (records : List SlotRecord) :
    c.observeRecords records =
      { c with
        evidence := addAll c.evidence (records.map fun r => (r.seq, r.sigHash))
        recordEvidence :=
          addAll c.recordEvidence (records.map fun r => (r.seq, r.recordHash)) } := by
  induction records generalizing c with
  | nil => rfl
  | cons r rest ih => exact ih ((c.observe r.seq r.sigHash).observeRecordHash r.seq r.recordHash)

/-- Everything an operation does to the evidence. -/
structure Leaves (c : SlotClient) (op : ClientOp) (c' : SlotClient) : Prop where
  slot : c'.slotId = c.slotId
  sigs : c'.evidence = addAll c.evidence (c.shownSigs op)
  hashes : c'.recordEvidence = addAll c.recordEvidence (c.shownHashes op)
  kept : c'.witnesses =
    if c.witnesses.length < maxWitnesses then c.witnesses ++ c.admitted op else c.witnesses

/-- An offer leaves its records, whatever its verdict, when its head is of this slot. -/
theorem offer_leaves (records : List SlotRecord) (roster : Roster) :
    c.Leaves (.offer records roster) (c.offer records roster).2 := by
  -- An empty offer and one of another slot leave no trace, and the others leave all their
  -- records.
  unfold offer
  cases last : records.getLast? with
  | none => constructor <;> simp [shownSigs, shownHashes, shownRecords, admitted, last, addAll]
  | some head =>
    by_cases slot : head.slotId = c.slotId
    · -- The verdict only decides about the pin.
      have shown : c.shownRecords (.offer records roster) = records := by
        simp [shownRecords, last, slot]
      simp only [ne_eq, slot, not_true_eq_false, if_false, observeRecords_forkProof,
        observeRecords_judgeChain]
      rw [observeRecords_eq]
      split
      · constructor <;> simp [shownSigs, shownHashes, shown, admitted]
      · split <;> constructor <;> simp [shownSigs, shownHashes, shown, admitted]
    · constructor <;> simp [shownSigs, shownHashes, shownRecords, admitted, last, slot, addAll]

/-- A head offered alone leaves itself. -/
theorem offerHeadOnly_leaves (head : SlotRecord) (roster : Roster) :
    c.Leaves (.offerHeadOnly head roster) (c.offerHeadOnly head roster).2 := by
  -- A head of another slot leaves no trace.
  unfold offerHeadOnly
  by_cases slot : head.slotId = c.slotId
  · have shown : c.shownRecords (.offerHeadOnly head roster) = [head] := by
      simp [shownRecords, slot]
    simp only [ne_eq, slot, not_true_eq_false, if_false, observeRecords_forkProof,
      observeRecords_judgeHead]
    rw [observeRecords_eq]
    split
    · constructor <;> simp [shownSigs, shownHashes, shown, admitted]
    · split <;> constructor <;> simp [shownSigs, shownHashes, shown, admitted]
  · constructor <;> simp [shownSigs, shownHashes, shownRecords, admitted, slot, addAll]

/-- A witness leaves its hash when it is admitted, and itself while there is room. -/
theorem observeWitness_leaves (w : Witness) :
    c.Leaves (.observeWitness w) (c.observeWitness w).2 := by
  -- A witness that passes every gate is filed as far as there is room.
  by_cases admits : c.Admits w
  · obtain ⟨slot, rostered, verifies⟩ := admits
    have only : c.admitted (.observeWitness w) = [w] := by
      simp [admitted, Admits, slot, rostered, verifies]
    simp only [observeWitness, slot, rostered, verifies, ne_eq, not_true_eq_false, if_false]
    have sameRoom : (c.observeRecordHash w.seq w.recordHash).witnesses = c.witnesses := rfl
    rw [sameRoom]
    split
    · rename_i room
      constructor <;>
        simp [observeRecordHash, shownSigs, shownHashes, shownRecords, only, addAll, room]
    · rename_i full
      constructor <;>
        simp [observeRecordHash, shownSigs, shownHashes, shownRecords, only, addAll, full]
  · -- One gate refuses, and the client is left as it was.
    have none : c.admitted (.observeWitness w) = [] := by simp [admitted, admits]
    have untouched : (c.observeWitness w).2 = c := by
      unfold observeWitness
      split
      · rfl
      split
      · rfl
      split
      · rfl
      · rename_i slot rostered verifies
        exact absurd ⟨not_not.mp slot, not_not.mp rostered, not_not.mp verifies⟩ admits
    rw [untouched]
    constructor <;> simp [shownSigs, shownHashes, shownRecords, none, addAll]

/-- What one operation leaves as evidence. -/
theorem step_leaves (op : ClientOp) : c.Leaves op (slotClient.step c op).2 := by
  -- One case for each operation, and the three that show something have their own lemmas.
  cases op with
  | offer records roster => exact offer_leaves records roster
  | offerHeadOnly head roster => exact offerHeadOnly_leaves head roster
  | observe seq sigHash =>
    constructor <;> simp [slotClient, observe, shownSigs, shownHashes, shownRecords,
      admitted, addAll]
  | observeWitness w => exact observeWitness_leaves w
  | trustWitness key =>
    cases added : c.trustWitness key with
    | error e =>
      constructor <;> simp [slotClient, added, shownSigs, shownHashes, shownRecords,
        admitted, addAll]
    | ok c' =>
      obtain ⟨roster, _, same⟩ := except_bind_eq_ok.mp added
      simp only [except_pure_eq, Except.ok.injEq] at same
      subst same
      constructor <;> simp [slotClient, added, shownSigs, shownHashes, shownRecords,
        admitted, addAll]

end Steps

end SlotClient

end NasTools
