import NasTools.Lib.Machine
import NasTools.Model.Store.Doc
import NasTools.Model.Store.DocEdits
import NasTools.Model.Store.DocForm

/-!
Replicas of a document and its encoding: they converge while no compaction takes away
what another replica holds.
-/

namespace NasTools

open Checked (lift)

/-- The names of the operations in a log. -/
def DocLog.names (d : DocLog) : Finset OpId := d.ops.keys.toFinset

/-- The names of a log are those of its operations. -/
@[simp] theorem DocLog.mem_names {d : DocLog} {id : OpId} : id ∈ d.names ↔ id ∈ d.ops := by
  simp [names]

/--
The replicas of a document.

Beside its log, each replica is followed by the names of all operations that ever reached it, its
own and those in logs it merged; no replica keeps or reads these.
-/
structure DocFleet (P : Type) where
  logs : P → DocLog
  seen : P → Finset OpId

/-- What happens to one replica. -/
inductive DocEvent (P : Type) where
  | insertText (r : P) (at_ : Nat) (text : List Char)
  | deleteRange (r : P) (at_ count : Nat)
  | compact (r : P)
  -- The log is written, and read back.
  | reload (r : P)
  | merge (r other : P)

/-- The log that an operation leaves; one that fails leaves the old one. -/
def DocLog.after (d : DocLog) (outcome : Checked DocError DocLog) : DocLog :=
  match outcome with
  | some (.ok d') => d'
  | _ => d

section Replicas

variable {P : Type} [DecidableEq P] {writer : P → DocWriter}

/-- One replica has another log, after more operations have reached it. -/
def DocFleet.put (s : DocFleet P) (r : P) (d : DocLog) (reached : Finset OpId) : DocFleet P :=
  ⟨Function.update s.logs r d, Function.update s.seen r (s.seen r ∪ reached)⟩

/-- One replica has another log, with whatever is in that. -/
def DocFleet.edit (s : DocFleet P) (r : P) (outcome : Checked DocError DocLog) : DocFleet P :=
  let d := (s.logs r).after outcome
  s.put r d d.names

/-- Replicas, each with a writer of its own. -/
def replicas (writer : P → DocWriter) : Machine (DocFleet P) (DocEvent P) Unit where
  step s
    | .insertText r at_ text => ((), s.edit r ((s.logs r).insertText (writer r) at_ text))
    | .deleteRange r at_ count => ((), s.edit r ((s.logs r).deleteRange (writer r) at_ count))
    | .compact r => ((), s.edit r (s.logs r).compact)
    | .reload r => ((), s.edit r (do DocLog.decode (← (s.logs r).encode)))
    | .merge r other => ((), s.put r ((s.logs r).merge (s.logs other)) (s.seen other))

/-- Replicas that nobody has written to. -/
def DocFleet.start : DocFleet P := ⟨fun _ => .empty, fun _ => ∅⟩

/-- A compaction drops or rewrites only operations that no other replica holds. -/
def Gentle (s : DocFleet P) : DocEvent P → Prop
  | .compact r => ∀ c, (s.logs r).compact = lift (.ok c) →
    ∀ id ∈ (s.logs r).ops, c.ops[id]? ≠ (s.logs r).ops[id]? →
      ∀ q, q ≠ r → id ∉ (s.logs q).ops
  | _ => True

/--
What holds of the replicas at any time.

They agree on every operation that two of them hold, and one that has seen an operation
holds it while any does.
-/
structure Settled (writer : P → DocWriter) (s : DocFleet P) : Prop where
  held : ∀ r, ∀ id ∈ (s.logs r).ops, id ∈ s.seen r
  agree : ∀ r q (id : OpId) (kind kind' : OpKind), (s.logs r).ops[id]? = some kind →
    (s.logs q).ops[id]? = some kind' →
    kind = kind'
  kept : ∀ r q id, id ∈ s.seen r → id ∈ (s.logs q).ops → id ∈ (s.logs r).ops
  issued : ∀ q, ∀ id ∈ s.seen q, ∃ r, id.writer = writer r ∧
    id.counter.toNat ≤ ((s.logs r).last (writer r)).toNat ∧
    0 < id.counter.toNat
  targets : ∀ r (op x : OpId), (s.logs r).ops[op]? = some (.delete x) → x ∈ s.seen r
  spelled : ∀ r, (s.logs r).Spelled

omit [DecidableEq P] in
/-- At the start nothing is held and nothing is seen. -/
theorem settled_start : Settled writer (.start : DocFleet P) where
  -- No log has an operation.
  held r id member := by simp [DocFleet.start, DocLog.empty] at member
  agree r q id kind kind' held := by simp [DocFleet.start, DocLog.empty] at held
  kept r q id seen := by simp [DocFleet.start] at seen
  issued q id seen := by simp [DocFleet.start] at seen
  targets r op x held := by simp [DocFleet.start, DocLog.empty] at held
  spelled r id after ch held := by simp [DocFleet.start, DocLog.empty] at held

namespace Settled

variable {s : DocFleet P}

omit [DecidableEq P] in
/-- A writer's counter is ahead of what was seen of it anywhere. -/
theorem counter_le (settled : Settled writer s) (injective : Function.Injective writer)
    {q r : P} {id : OpId} (seen : id ∈ s.seen q) (is : id.writer = writer r) :
    id.counter.toNat ≤ ((s.logs r).last (writer r)).toNat := by
  obtain ⟨r', is', upTo, _⟩ := settled.issued q id seen
  obtain rfl := injective (is.symm.trans is')
  exact upTo

omit [DecidableEq P] in
/-- Every replica's own names lie below its counter. -/
theorem clocked (settled : Settled writer s) (injective : Function.Injective writer) (r : P) :
    (s.logs r).Clocked (writer r) := by
  intro id member is
  exact settled.counter_le injective (settled.held r id member) is

omit [DecidableEq P] in
/-- A name that a writer gives out now was seen nowhere. -/
theorem fresh (settled : Settled writer s) (injective : Function.Injective writer)
    {r q : P} {id : OpId} (is : id.writer = writer r)
    (above : ((s.logs r).last (writer r)).toNat < id.counter.toNat) : id ∉ s.seen q := by
  intro seen
  have upTo := settled.counter_le injective seen is
  omega

/-- Replicas stay settled when one of them gets a log that goes with those of the others. -/
theorem put (settled : Settled writer s) {r : P} {d : DocLog} {reached : Finset OpId}
    (held : ∀ id ∈ d.ops, id ∈ s.seen r ∪ reached)
    (agree : ∀ q, q ≠ r → ∀ (id : OpId) (kind kind' : OpKind), d.ops[id]? = some kind →
      (s.logs q).ops[id]? = some kind' →
      kind = kind')
    (kept : ∀ q, q ≠ r → ∀ id ∈ s.seen r ∪ reached, id ∈ (s.logs q).ops → id ∈ d.ops)
    (known : ∀ q, q ≠ r → ∀ id ∈ s.seen q, id ∈ d.ops → id ∈ (s.logs q).ops)
    (grows : ((s.logs r).last (writer r)).toNat ≤ (d.last (writer r)).toNat)
    (issued : ∀ id ∈ reached, (∃ q, id ∈ s.seen q) ∨
      (id.writer = writer r ∧ id.counter.toNat ≤ (d.last (writer r)).toNat ∧ 0 < id.counter.toNat))
    (targets : ∀ (op x : OpId), d.ops[op]? = some (.delete x) → x ∈ s.seen r ∪ reached)
    (spelled : d.Spelled) :
    Settled writer (s.put r d reached) := by
  -- Only one replica changes, and its log goes with the others.
  have logsHere : (s.put r d reached).logs r = d := Function.update_self ..
  have seenHere : (s.put r d reached).seen r = s.seen r ∪ reached := Function.update_self ..
  have logsElse : ∀ {q}, q ≠ r → (s.put r d reached).logs q = s.logs q :=
    fun apart => Function.update_of_ne apart ..
  have seenElse : ∀ {q}, q ≠ r → (s.put r d reached).seen q = s.seen q :=
    fun apart => Function.update_of_ne apart ..
  -- What was issued stays issued, for the writer whose counter grew and for the others.
  have stays : ∀ id, (∃ q, id ∈ s.seen q) → ∃ p, id.writer = writer p ∧
      id.counter.toNat ≤ (((s.put r d reached).logs p).last (writer p)).toNat ∧
        0 < id.counter.toNat := by
    rintro id ⟨q, seen⟩
    obtain ⟨p, is, upTo, positive⟩ := settled.issued q id seen
    refine ⟨p, is, ?_, positive⟩
    by_cases here : p = r
    · subst here
      rw [logsHere]
      exact Nat.le_trans upTo grows
    · rw [logsElse here]
      exact upTo
  refine ⟨?_, ?_, ?_, ?_, ?_, ?_⟩
  · intro q id member
    by_cases here : q = r
    · subst here
      rw [seenHere]
      exact held id (by rwa [logsHere] at member)
    · rw [seenElse here]
      exact settled.held q id (by rwa [logsElse here] at member)
  · intro p q id kind kind' first second
    by_cases hereP : p = r <;> by_cases hereQ : q = r
    · subst hereP hereQ
      exact Option.some.inj (first.symm.trans second)
    · subst hereP
      rw [logsHere] at first
      rw [logsElse hereQ] at second
      exact agree q hereQ id kind kind' first second
    · subst hereQ
      rw [logsElse hereP] at first
      rw [logsHere] at second
      exact (agree p hereP id kind' kind second first).symm
    · rw [logsElse hereP] at first
      rw [logsElse hereQ] at second
      exact settled.agree p q id kind kind' first second
  · intro p q id seen member
    by_cases hereP : p = r <;> by_cases hereQ : q = r
    · subst hereP hereQ
      exact member
    · subst hereP
      rw [seenHere] at seen
      rw [logsElse hereQ] at member
      rw [logsHere]
      exact kept q hereQ id seen member
    · subst hereQ
      rw [seenElse hereP] at seen
      rw [logsHere] at member
      rw [logsElse hereP]
      exact known p hereP id seen member
    · rw [seenElse hereP] at seen
      rw [logsElse hereQ] at member
      rw [logsElse hereP]
      exact settled.kept p q id seen member
  · intro q id seen
    by_cases here : q = r
    · subst here
      rw [seenHere, Finset.mem_union] at seen
      rcases seen with before | now
      · exact stays id ⟨q, before⟩
      · rcases issued id now with before | ⟨is, upTo, positive⟩
        · exact stays id before
        · exact ⟨q, is, by rwa [logsHere], positive⟩
    · rw [seenElse here] at seen
      exact stays id ⟨q, seen⟩
  · intro q op x found
    by_cases here : q = r
    · subst here
      rw [seenHere]
      exact targets op x (by rwa [logsHere] at found)
    · rw [seenElse here]
      exact settled.targets q op x (by rwa [logsElse here] at found)
  · intro q
    by_cases here : q = r
    · subst here
      rwa [logsHere]
    · rw [logsElse here]
      exact settled.spelled q

/-- A replica that wrote in its document leaves all replicas settled. -/
theorem edited (settled : Settled writer s) (injective : Function.Injective writer) {r : P}
    {d : DocLog} (edit : DocLog.Edited (writer r) (s.logs r) d) :
    Settled writer (s.put r d d.names) := by
  -- What is new was seen nowhere before.
  have new : ∀ (id : OpId) (kind : OpKind), d.ops[id]? = some kind →
    (s.logs r).ops[id]? = some kind ∨
      ∀ q, id ∉ s.seen q := by
    intro id kind held
    rcases edit.added id kind held with before | ⟨is, above, _⟩
    · exact .inl before
    · exact .inr fun q => settled.fresh injective is above
  have old : ∀ {q id}, id ∈ d.ops → id ∈ s.seen q → id ∈ (s.logs r).ops := by
    intro q id member seen
    obtain ⟨kind, held⟩ := DocLog.mem_ops.mp member
    rcases new id kind held with before | unseen
    · exact DocLog.mem_ops.mpr ⟨kind, before⟩
    · exact (unseen q seen).elim
  apply settled.put
  · intro id member
    simp [member]
  · intro q apart id kind kind' held other
    have seen := settled.held q id (DocLog.mem_ops.mpr ⟨kind', other⟩)
    rcases new id kind held with before | unseen
    · exact settled.agree r q id kind kind' before other
    · exact (unseen q seen).elim
  · intro q apart id seen other
    rcases Finset.mem_union.mp seen with before | now
    · exact edit.mem (settled.kept r q id before other)
    · exact DocLog.mem_names.mp now
  · intro q apart id seen member
    exact settled.kept q r id seen (old member seen)
  · exact edit.grows
  · intro id named
    obtain ⟨kind, held⟩ := DocLog.mem_ops.mp (DocLog.mem_names.mp named)
    rcases edit.added id kind held with before | ⟨is, above, upTo, _⟩
    · exact .inl ⟨r, settled.held r id (DocLog.mem_ops.mpr ⟨kind, before⟩)⟩
    · exact .inr ⟨is, upTo, by omega⟩
  · intro op x found
    rcases edit.added op _ found with before | ⟨_, _, _, allowed⟩
    · exact Finset.mem_union_left _ (settled.targets r op x before)
    · exact Finset.mem_union_right _ (DocLog.mem_names.mpr allowed)
  · intro id after ch found
    rcases edit.added id _ found with before | ⟨_, _, _, allowed⟩
    · exact settled.spelled r id after ch before
    · exact allowed

/-- A replica that merged another one's log leaves all replicas settled. -/
theorem merged (settled : Settled writer s) (r other : P) :
    Settled writer (s.put r ((s.logs r).merge (s.logs other)) (s.seen other)) := by
  -- What the merged log holds comes from one of the two, and both sides had seen it.
  have from_ : ∀ (id : OpId) (kind : OpKind), ((s.logs r).merge (s.logs other)).ops[id]? =
    some kind → (s.logs r).ops[id]? = some kind ∨ (s.logs other).ops[id]? = some kind := by
    intro id kind held
    rw [DocLog.getElem?_merge, Option.or_eq_some_iff] at held
    exact held.imp_right And.right
  have into : ∀ {id}, id ∈ (s.logs r).ops ∨ id ∈ (s.logs other).ops →
      id ∈ ((s.logs r).merge (s.logs other)).ops :=
    DocLog.mem_merge.mpr
  apply settled.put
  · intro id member
    obtain ⟨kind, held⟩ := DocLog.mem_ops.mp member
    rcases from_ id kind held with mine | theirs
    · exact Finset.mem_union_left _ (settled.held r id (DocLog.mem_ops.mpr ⟨kind, mine⟩))
    · exact Finset.mem_union_right _ (settled.held other id (DocLog.mem_ops.mpr ⟨kind, theirs⟩))
  · intro q _ id kind kind' held found
    rcases from_ id kind held with mine | theirs
    · exact settled.agree r q id kind kind' mine found
    · exact settled.agree other q id kind kind' theirs found
  · intro q _ id seen found
    rcases Finset.mem_union.mp seen with mine | theirs
    · exact into (.inl (settled.kept r q id mine found))
    · exact into (.inr (settled.kept other q id theirs found))
  · intro q _ id seen member
    obtain ⟨kind, held⟩ := DocLog.mem_ops.mp member
    rcases from_ id kind held with mine | theirs
    · exact settled.kept q r id seen (DocLog.mem_ops.mpr ⟨kind, mine⟩)
    · exact settled.kept q other id seen (DocLog.mem_ops.mpr ⟨kind, theirs⟩)
  · exact UInt64.le_iff_toNat_le.mp (DocLog.le_last_merge _ _ _)
  · exact fun id seen => .inl ⟨other, seen⟩
  · intro op x found
    rcases from_ op _ found with mine | theirs
    · exact Finset.mem_union_left _ (settled.targets r op x mine)
    · exact Finset.mem_union_right _ (settled.targets other op x theirs)
  · intro id after ch found
    rcases from_ id _ found with mine | theirs
    · exact settled.spelled r id after ch mine
    · exact settled.spelled other id after ch theirs

/-- A gentle compaction leaves all replicas settled. -/
theorem compacted (settled : Settled writer s) {r : P} {c : DocLog}
    (done : (s.logs r).compact = lift (.ok c)) (gentle : Gentle s (.compact r)) :
    Settled writer (s.put r c c.names) := by
  -- What is compacted is seen by the replica that compacts alone.
  obtain ⟨clock, visible⟩ := DocLog.of_compact done
  have present : ∀ {id}, id ∈ c.ops → id ∈ (s.logs r).ops := by
    intro id member
    obtain ⟨kind, held⟩ := DocLog.mem_ops.mp member
    obtain ⟨_, _, ⟨⟨after, ch, found, _⟩, _⟩, _⟩ := visible id kind held
    exact DocLog.mem_ops.mpr ⟨_, found⟩
  -- Whatever another replica holds was neither dropped nor rewritten.
  have same : ∀ q, q ≠ r → ∀ id, id ∈ (s.logs r).ops → id ∈ (s.logs q).ops →
      c.ops[id]? = (s.logs r).ops[id]? := by
    intro q apart id mine theirs
    by_contra changed
    exact gentle c done id mine changed q apart theirs
  have seen : ∀ {id}, id ∈ c.ops → id ∈ s.seen r := fun member => settled.held r _ (present member)
  have reached : ∀ {id}, id ∈ s.seen r ∪ c.names → id ∈ s.seen r := by
    intro id member
    rcases Finset.mem_union.mp member with before | named
    · exact before
    · exact seen (DocLog.mem_names.mp named)
  apply settled.put
  · exact fun id member => Finset.mem_union_left _ (seen member)
  · intro q apart id kind kind' held found
    have theirs : id ∈ (s.logs q).ops := DocLog.mem_ops.mpr ⟨kind', found⟩
    have unchanged := same q apart id (present (DocLog.mem_ops.mpr ⟨kind, held⟩)) theirs
    exact settled.agree r q id kind kind' (unchanged.symm.trans held) found
  · intro q apart id member found
    have mine := settled.kept r q id (reached member) found
    obtain ⟨kind, held⟩ := DocLog.mem_ops.mp mine
    exact DocLog.mem_ops.mpr ⟨kind, (same q apart id mine found).trans held⟩
  · exact fun q _ id seenThere member => settled.kept q r id seenThere (present member)
  · simp [DocLog.last, clock]
  · exact fun id named => .inl ⟨r, seen (DocLog.mem_names.mp named)⟩
  · intro op x found
    obtain ⟨_, _, _, is⟩ := visible op _ found
    cases is
  · intro id after ch found
    obtain ⟨_, char, _, is⟩ := visible id _ found
    cases is
    rw [DocLog.charFromU32_val]
    rfl

omit [DecidableEq P] in
/-- Writing a log and reading it back leaves it as it is. -/
theorem reloaded (settled : Settled writer s) {r : P} {d : DocLog}
    (done : (do DocLog.decode (← (s.logs r).encode) : Checked DocError DocLog) = lift (.ok d)) :
      d = s.logs r := by
  rw [Checked.bind_eq_ok] at done
  obtain ⟨bytes, encoded, decoded⟩ := done
  rw [DocLog.decode_of_encode (settled.spelled r) encoded] at decoded
  exact (Except.ok.inj (Option.some.inj decoded)).symm

end Settled

/--
What one event does to settled replicas: a log is edited by its writer, compacted gently, or merged.
-/
theorem step_cases {s : DocFleet P} {e : DocEvent P} (settled : Settled writer s)
    (injective : Function.Injective writer) :
    (∃ r d, ((replicas writer).step s e).2 = s.put r d d.names ∧
      DocLog.Edited (writer r) (s.logs r) d) ∨
    (∃ r c, e = .compact r ∧ ((replicas writer).step s e).2 = s.put r c c.names ∧
      (s.logs r).compact = lift (.ok c)) ∨
    ∃ r other, ((replicas writer).step s e).2 = s.put r ((s.logs r).merge (s.logs other))
      (s.seen other) := by
  -- Edits and reloads change one log, and an operation that fails changes none.
  have edits : ∀ (r : P) (outcome : Checked DocError DocLog),
      (∀ d, outcome = lift (.ok d) → DocLog.Edited (writer r) (s.logs r) d) →
      DocLog.Edited (writer r) (s.logs r) ((s.logs r).after outcome) := by
    intro r outcome each
    unfold DocLog.after
    split
    · exact each _ rfl
    · exact .refl _
  cases e with
  | insertText r at_ text =>
    exact .inl ⟨r, _, rfl, edits r _ fun d done => DocLog.edited_of_insertText
      (settled.clocked injective r) done⟩
  | deleteRange r at_ count =>
    exact .inl ⟨r, _, rfl, edits r _ fun d done => DocLog.edited_of_deleteRange
      (settled.clocked injective r) done⟩
  | reload r =>
    refine .inl ⟨r, _, rfl, edits r _ fun d done => ?_⟩
    rw [settled.reloaded done]
    exact .refl _
  | merge r other => exact .inr (.inr ⟨r, other, rfl⟩)
  | compact r =>
    cases done : (s.logs r).compact with
    | none =>
      refine .inl ⟨r, s.logs r, ?_, .refl _⟩
      simp [replicas, DocFleet.edit, done, DocLog.after]
    | some outcome =>
      cases outcome with
      | error e =>
        refine .inl ⟨r, s.logs r, ?_, .refl _⟩
        simp [replicas, DocFleet.edit, done, DocLog.after]
      | ok c =>
        refine .inr (.inl ⟨r, c, rfl, ?_, done⟩)
        simp [replicas, DocFleet.edit, done, DocLog.after]

/-- Every gentle event leaves settled replicas settled. -/
theorem settled_step {s : DocFleet P} {e : DocEvent P} (injective : Function.Injective writer)
    (gentle : Gentle s e) (settled : Settled writer s) :
      Settled writer ((replicas writer).step s e).2 := by
  -- A step edits a log, compacts it or merges another into it.
  rcases step_cases (e := e) settled injective with ⟨r, d, after, edited⟩ |
    ⟨r, c, rfl, after, done⟩ | ⟨r, other, after⟩
  · rw [after]
    exact settled.edited injective edited
  · rw [after]
    exact settled.compacted done gentle
  · rw [after]
    exact settled.merged r other

/-- The same of every run. -/
theorem settled_run {s : DocFleet P} {events : List (DocEvent P)}
    (injective : Function.Injective writer) (settled : Settled writer s)
    (gentle : (replicas writer).Permits Gentle s events) :
    Settled writer ((replicas writer).run s events) :=
  Machine.run_invariant settled gentle fun _ _ gentle settled =>
    settled_step injective gentle settled

/--
An operation deleted an atom, and whoever has seen that either has the atom no more
or has the deletion.

It was seen somewhere, so no writer gives out its name again.
-/
structure Buried (s : DocFleet P) (op x : OpId) : Prop where
  somewhere : ∃ q, op ∈ s.seen q
  known : ∀ r, op ∈ s.seen r → x ∈ s.seen r
  deleted : ∀ r, op ∈ s.seen r → x ∈ (s.logs r).ops → (s.logs r).ops[op]? = some (.delete x)

namespace Buried

variable {s : DocFleet P} {op x : OpId}

omit [DecidableEq P] in
/-- A deletion that some log holds buries its target. -/
theorem of_held (settled : Settled writer s) {q : P}
    (held : (s.logs q).ops[op]? = some (.delete x)) : Buried s op x := by
  -- Wherever the deletion is seen it is held, if its replica still holds it at all.
  have present : op ∈ (s.logs q).ops := DocLog.mem_ops.mpr ⟨_, held⟩
  have everywhere : ∀ r, op ∈ s.seen r → (s.logs r).ops[op]? = some (.delete x) := by
    intro r seen
    obtain ⟨kind, found⟩ := DocLog.mem_ops.mp (settled.kept r q op seen present)
    rw [found, settled.agree r q op kind _ found held]
  exact ⟨⟨q, settled.held q op present⟩, fun r seen => settled.targets r op x (everywhere r seen),
    fun r seen _ => everywhere r seen⟩

/-- The atom stays buried when one replica gets a log in which it is. -/
theorem put (buried : Buried s op x) {r : P} {d : DocLog} {reached : Finset OpId}
    (known : op ∈ s.seen r ∪ reached → x ∈ s.seen r ∪ reached)
    (deleted : op ∈ s.seen r ∪ reached → x ∈ d.ops → d.ops[op]? = some (.delete x)) :
      Buried (s.put r d reached) op x := by
  -- Only the one replica has changed, and for it the conditions are assumed.
  obtain ⟨q, seen⟩ := buried.somewhere
  refine ⟨⟨q, ?_⟩, ?_, ?_⟩
  · by_cases here : q = r
    · subst here
      simp [DocFleet.put, seen]
    · simpa [DocFleet.put, Function.update_of_ne here] using seen
  · intro p
    by_cases here : p = r
    · subst here
      simpa only [DocFleet.put, Function.update_self] using known
    · simpa only [DocFleet.put, Function.update_of_ne here] using buried.known p
  · intro p
    by_cases here : p = r
    · subst here
      simpa only [DocFleet.put, Function.update_self] using deleted
    · simpa only [DocFleet.put, Function.update_of_ne here] using buried.deleted p

/-- Every event leaves it buried. -/
theorem step {e : DocEvent P} (injective : Function.Injective writer) (settled : Settled writer s)
    (buried : Buried s op x) : Buried ((replicas writer).step s e).2 op x := by
  -- The atom is deleted at some replica, and the event concerns that one or another.
  obtain ⟨q, seen⟩ := buried.somewhere
  rcases step_cases (e := e) settled injective with ⟨r, d, after, edited⟩ |
    ⟨r, c, rfl, after, done⟩ | ⟨r, other, after⟩
  · rw [after]
    -- Names that were seen are in the new log only if they were in the old one.
    have old : ∀ {id q}, id ∈ s.seen q → id ∈ d.ops → id ∈ (s.logs r).ops := by
      intro id q seen member
      obtain ⟨kind, held⟩ := DocLog.mem_ops.mp member
      rcases edited.added id kind held with before | ⟨is, above, _⟩
      · exact DocLog.mem_ops.mpr ⟨kind, before⟩
      · exact (settled.fresh injective is above seen).elim
    have before : op ∈ s.seen r ∪ d.names → op ∈ s.seen r := by
      intro reached
      rcases Finset.mem_union.mp reached with seen | named
      · exact seen
      · exact settled.held r op (old seen (DocLog.mem_names.mp named))
    apply buried.put
    · exact fun reached => Finset.mem_union_left _ (buried.known r (before reached))
    · intro reached member
      have seenHere := before reached
      exact edited.kept op _ (buried.deleted r seenHere (old (buried.known r seenHere) member))
  · rw [after]
    obtain ⟨_, visible⟩ := DocLog.of_compact done
    have present : ∀ {id}, id ∈ c.ops → id ∈ (s.logs r).ops ∧ (s.logs r).deleted id = false := by
      intro id member
      obtain ⟨kind, held⟩ := DocLog.mem_ops.mp member
      obtain ⟨_, _, ⟨⟨_, _, found, _⟩, shown⟩, _⟩ := visible id kind held
      exact ⟨DocLog.mem_ops.mpr ⟨_, found⟩, shown⟩
    have before : op ∈ s.seen r ∪ c.names → op ∈ s.seen r := by
      intro reached
      rcases Finset.mem_union.mp reached with seen | named
      · exact seen
      · exact settled.held r op (present (DocLog.mem_names.mp named)).1
    apply buried.put
    · exact fun reached => Finset.mem_union_left _ (buried.known r (before reached))
    · intro reached member
      -- What is still shown was not deleted.
      obtain ⟨mine, shown⟩ := present member
      have deleted := DocLog.deleted_iff.mpr ⟨op, buried.deleted r (before reached) mine⟩
      rw [shown] at deleted
      cases deleted
  · rw [after]
    apply buried.put
    · intro reached
      rcases Finset.mem_union.mp reached with mine | theirs
      · exact Finset.mem_union_left _ (buried.known r mine)
      · exact Finset.mem_union_right _ (buried.known other theirs)
    · intro reached member
      have either : x ∈ (s.logs r).ops ∨ x ∈ (s.logs other).ops := DocLog.mem_merge.mp member
      rw [DocLog.getElem?_merge]
      rcases Finset.mem_union.mp reached with mine | theirs
      · -- Whoever has seen the atom holds it while the other one does.
        have here := either.elim id (settled.kept r other x (buried.known r mine))
        rw [buried.deleted r mine here]
        rfl
      · have there := either.elim (settled.kept other r x (buried.known other theirs)) id
        have found := buried.deleted other theirs there
        cases mine : (s.logs r).ops[op]? with
        | none => exact found
        | some kind => exact congrArg some (settled.agree r other op kind _ mine found)

omit [DecidableEq P] in
/-- A buried atom is shown by no replica that has seen its deletion. -/
theorem not_shown (buried : Buried s op x) {r : P} (seen : op ∈ s.seen r)
    {atoms : List (OpId × Char)} (shown : (s.logs r).atoms = lift (.ok atoms)) (ch : Char) :
    (x, ch) ∉ atoms := by
  -- A character that is shown would not be deleted.
  intro member
  obtain ⟨⟨after, n, held, _⟩, kept⟩ := DocLog.visible_of_atoms shown _ member
  have deleted := DocLog.deleted_iff.mpr ⟨op, buried.deleted r seen (DocLog.mem_ops.mpr ⟨_, held⟩)⟩
  rw [deleted] at kept
  cases kept

end Buried

/-- What is shown depends on the operations alone. -/
theorem DocLog.atoms_congr {d d' : DocLog} (same : d.ops = d'.ops) : d.atoms = d'.atoms := by
  -- The walk looks at nothing but the operations.
  have walks : ∀ depth id out, d.walk depth id out = d'.walk depth id out := by
    intro depth
    induction depth with
    | zero => exact fun _ _ => rfl
    | succ depth ih =>
      intro id out
      have chars : d.charOf id = d'.charOf id := by
        simp only [DocLog.charOf, same]
      have deleted : d.deleted id = d'.deleted id := by
        simp only [DocLog.deleted, same]
      have visits : d.visit id out = d'.visit id out := by
        rw [DocLog.visit, DocLog.visit, chars, deleted]
      have kids : d.kids id = d'.kids id := by
        simp only [DocLog.kids, same]
      simp only [DocLog.walk, visits, kids, ih]
  rw [DocLog.atoms, walks, same]
  rfl

namespace Settled

variable {s : DocFleet P}

omit [DecidableEq P] in
/-- Replicas that have seen the same operations hold the same ones. -/
theorem ops_eq (settled : Settled writer s) {r q : P} (same : s.seen r = s.seen q) :
    (s.logs r).ops = (s.logs q).ops := by
  -- Both logs hold what has been seen, and they agree on it.
  have into : ∀ {r q}, s.seen r = s.seen q → ∀ (id : OpId)
    (kind : OpKind), (s.logs r).ops[id]? = some kind →
      (s.logs q).ops[id]? = some kind := by
    intro r q same id kind held
    have mine : id ∈ (s.logs r).ops := DocLog.mem_ops.mpr ⟨kind, held⟩
    have seen : id ∈ s.seen q := same ▸ settled.held r id mine
    obtain ⟨kind', found⟩ := DocLog.mem_ops.mp (settled.kept q r id seen mine)
    rw [found, settled.agree q r id kind' kind found held]
  apply Std.ExtTreeMap.ext_getElem?
  intro id
  apply Option.ext
  exact fun kind => ⟨into same id kind, into same.symm id kind⟩

omit [DecidableEq P] in
/-- Every replica shows a text. -/
theorem text_ok (settled : Settled writer s) (r : P) :
    ∃ text, (s.logs r).text = lift (.ok text) := by
  -- No operation is named like the root, since issued names are positive.
  have rootless : (s.logs r).ops[OpId.root]? = none := by
    refine DocLog.not_mem_ops.mp fun member => ?_
    obtain ⟨_, _, _, positive⟩ := settled.issued r _ (settled.held r _ member)
    simp [OpId.root] at positive
  obtain ⟨atoms, shown⟩ := DocLog.atoms_ok ⟨settled.spelled r, rootless⟩
  exact ⟨atoms.map Prod.snd, by rw [DocLog.text, shown]; rfl⟩

end Settled

/--
Replicas converge while compactions drop and rewrite only what no other replica holds.

Those that have seen the same operations show the same text, merging again changes nothing, and a
replica that has seen the deletion of an atom never shows it again.
-/
theorem gentle_replicas_converge (injective : Function.Injective writer)
    {events : List (DocEvent P)} (gentle : (replicas writer).Permits Gentle .start events) :
    let s := (replicas writer).run .start events
    (∀ r q, s.seen r = s.seen q → ∃ text, (s.logs r).text = lift (.ok text) ∧
      (s.logs q).text = lift (.ok text)) ∧
    (∀ r q, ((s.logs r).merge (s.logs q)).merge (s.logs q) = (s.logs r).merge (s.logs q)) ∧
    (∀ r q, s.seen r = s.seen q → ((s.logs r).merge (s.logs q)).ops = (s.logs r).ops) ∧
    ∀ past later q (op x : OpId), events = past ++ later →
      (((replicas writer).run .start past).logs q).ops[op]? = some (.delete x) →
      ∀ r, op ∈ s.seen r → ∀ atoms, (s.logs r).atoms = lift (.ok atoms) →
        ∀ ch, (x, ch) ∉ atoms := by
  -- In every run the replicas are settled, and settled logs that are the same show the same.
  have settled : Settled writer ((replicas writer).run .start events) :=
    settled_run injective settled_start gentle
  refine ⟨?_, fun r q => DocLog.merge_merge _ _, ?_, ?_⟩
  · intro r q same
    obtain ⟨text, shown⟩ := settled.text_ok r
    refine ⟨text, shown, ?_⟩
    rw [← shown, DocLog.text, DocLog.text, DocLog.atoms_congr (settled.ops_eq same)]
  · intro r q same
    apply Std.ExtTreeMap.ext_getElem?
    intro id
    rw [DocLog.getElem?_merge, settled.ops_eq same, Option.or_self]
  · rintro past later q op x rfl held r seen atoms shown ch
    obtain ⟨gentlePast, gentleLater⟩ := Machine.permits_append.mp gentle
    have settledPast : Settled writer ((replicas writer).run .start past) :=
      settled_run injective settled_start gentlePast
    -- From the deletion on, settled replicas keep the atom buried.
    have both : Settled writer ((replicas writer).run ((replicas writer).run .start past) later) ∧
        Buried ((replicas writer).run ((replicas writer).run .start past) later) op x :=
      Machine.run_invariant (P := fun s => Settled writer s ∧ Buried s op x) ⟨settledPast,
        .of_held settledPast held⟩
        gentleLater fun _ _ gentle holds =>
          ⟨settled_step injective gentle holds.1, holds.2.step injective holds.1⟩
    rw [Machine.run_append] at seen shown
    exact both.2.not_shown seen shown ch

end Replicas

/-- Two writers. -/
def twoWriters (second : Bool) : DocWriter :=
  ⟨List.replicate 32 (if second then 0xb2 else 0xa1), by simp⟩

/-- The two writers differ. -/
theorem twoWriters_injective : Function.Injective twoWriters := by
  intro a b same
  revert same
  revert a b
  decide

/-- One replica writes, deletes and compacts by itself, and then the other one takes part. -/
def gentleEvents : List (DocEvent Bool) :=
  [.insertText false 0 "ab".toList, .deleteRange false 0 1, .compact false, .merge true false,
    .insertText true 1 "c".toList, .merge false true]

/-- Two replicas that edit, merge and compact gently show the same text. -/
theorem gentle_two_replicas_converge :
    ∃ text, (((replicas twoWriters).run .start gentleEvents).logs false).text = lift (.ok text) ∧
      (((replicas twoWriters).run .start gentleEvents).logs true).text = lift (.ok text) := by
  -- The condition is evaluated along the run.
  have gentle : (replicas twoWriters).Permits Gentle .start gentleEvents := by
    refine ⟨trivial, trivial, ?_, trivial, trivial, trivial, trivial⟩
    intro c _ id _ _ q apart held
    -- The other replica has nothing yet.
    obtain rfl : q = true := by simpa using apart
    simp [replicas, DocFleet.edit, DocFleet.put, DocFleet.start, DocLog.empty] at held
  have seen : ((replicas twoWriters).run .start gentleEvents).seen false =
      ((replicas twoWriters).run .start gentleEvents).seen true := by decide
  exact (gentle_replicas_converge twoWriters_injective gentle).1 false true seen

/-- One replica compacts away what the other one still holds. -/
def roughEvents : List (DocEvent Bool) :=
  [.insertText false 0 "x".toList, .merge true false, .insertText true 1 "y".toList,
    .deleteRange true 0 1,
    .merge false true, .compact true, .insertText false 0 "z".toList, .merge false true,
    .merge true false]

/-- Two replicas that compact too early show different texts. -/
theorem compacted_replicas_diverge :
    Function.Injective twoWriters ∧
      ((replicas twoWriters).run .start roughEvents).seen false =
        ((replicas twoWriters).run .start roughEvents).seen true ∧
      (((replicas twoWriters).run .start roughEvents).logs false).text = lift (.ok "zy".toList) ∧
      (((replicas twoWriters).run .start roughEvents).logs true).text = lift (.ok "yz".toList) := by
  -- Both texts are evaluated.
  refine ⟨twoWriters_injective, by decide, ?_, ?_⟩
  · show (_ : Option (Except DocError (List Char))) = _
    decide
  · show (_ : Option (Except DocError (List Char))) = _
    decide

section

open Checked (panics)

namespace DocLog

/--
Documents that were built read back, a reader panics exactly over a count that overflows, and a
string that is accepted is written again exactly where its counters are in order.

The table of its fields has to fit into memory to be written at all.
-/
theorem encoding_canonical_iff (bytes : Bytes) (d : DocLog) :
    (d.Built → d.encode = lift (.ok bytes) → decodeChecked bytes = lift (.ok d)) ∧
    ((decodeChecked bytes).Total ↔ ¬CountOverflows bytes) ∧
    ∀ f, decodeFields bytes = .ok f → decodeChecked bytes = lift (.ok d) →
      (d.encode = lift (.ok bytes) ↔
        (clockWriters (clockTable f)).Pairwise (fun a b => compare a b = .lt) ∧
          f.length * fieldWidth ≤ isizeMax) := by
  -- The reader with indices is the other one, for which the three parts are known.
  refine ⟨?_, ?_, ?_⟩
  · intro built encoded
    rw [decodeChecked_eq]
    exact decode_of_encode built.sound.spelled encoded
  · rw [decodeChecked_eq]
    exact total_decode_iff
  · intro f split decoded
    rw [decodeChecked_eq] at decoded
    exact encode_iff_of_decode split decoded

/-- A document that announces more counters than there can be. -/
def countless : Bytes :=
  framedField docMagic ++ framedField [docVersion] ++ framedField (u64Le (UInt64.ofNat (2 ^ 63)))

/-- A document whose two counters are in the wrong order. -/
def unordered : Bytes :=
  framedField docMagic ++ framedField [docVersion] ++ framedField (u64Le 2) ++
    framedField (List.replicate 32 2) ++ framedField (u64Le 1) ++
      framedField (List.replicate 32 1) ++ framedField (u64Le 1)

/-- What is read of it. -/
def twoCounters : DocLog :=
  ⟨∅, ((∅ : OrdMap DocWriter UInt64).insert ⟨List.replicate 32 2, rfl⟩ 1).insert
    ⟨List.replicate 32 1, rfl⟩ 1⟩

/--
The first of them makes a reader panic, and the second is accepted although nothing writes it.
-/
theorem countless_unordered_not_canonical :
    ¬((∀ bytes, (decodeChecked bytes).Total) ∧
      ∀ bytes d, decodeChecked bytes = lift (.ok d) → d.encode = lift (.ok bytes)) ∧
    decodeChecked countless = panics ∧
    decodeChecked unordered = lift (.ok twoCounters) ∧
      twoCounters.encode ≠ lift (.ok unordered) := by
  -- Each of the two byte strings is read as the code reads it.
  have panicked : decodeChecked countless = panics := by
    show (_ : Option (Except DocError DocLog)) = _
    decide
  have accepted : decodeChecked unordered = lift (.ok twoCounters) := by
    show (_ : Option (Except DocError DocLog)) = _
    decide +kernel
  have rewritten : twoCounters.encode ≠ lift (.ok unordered) := by
    show (_ : Option (Except DocError Bytes)) ≠ _
    decide
  refine ⟨?_, panicked, accepted, rewritten⟩
  intro ⟨_, spelled⟩
  exact rewritten (spelled unordered twoCounters accepted)

end DocLog

end

end NasTools
