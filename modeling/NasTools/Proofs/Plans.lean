import NasTools.Lib.Words
import NasTools.Model.Slots.Checkpoint

/-! How a client plans its walk to the head: no step overflows, and no better plan exists. -/

namespace NasTools

open scoped Words

/-- A rung that leaves a walkable tail, with every difference taken as the source takes it. -/
def usableRungChecked (start headSeq budget r : UInt64) : Option Bool :=
  if start ≤ r then
    -- The difference is not taken at all for a rung above the head.
    if r ≤ headSeq then do
      let gap ← Words.sub? headSeq r
      return gap < budget
    else some false
  else some false

/-- Pick the walk that reaches the head, with plain sums and differences that may panic. -/
def planWalkChecked (start headSeq : UInt64) (rungSeqs : List UInt64) (budget : UInt64) :
    Option WalkPlan := do
  let span := satSub headSeq start
  if 0 < budget ∧ span < budget then
    let records ← Words.add? span 1
    return .full start records
  else
    let usable ← filterChecked (usableRungChecked start headSeq budget) rungSeqs
    match usable.max? with
    | some topSeq =>
      let skipped ← Words.sub? topSeq start
      let gap ← Words.sub? headSeq topSeq
      let records ← Words.add? gap 1
      return .skip topSeq skipped records
    | none => return .unreachable span rungSeqs.max?

section

variable {start headSeq budget : UInt64} {rungSeqs : List UInt64}

/-- The whole span is within what the client is willing to walk. -/
def WholeFits (start headSeq budget : UInt64) : Prop :=
  0 < budget.toNat ∧ headSeq.toNat - start.toNat < budget.toNat

/-- A rung from which the rest of the span is within what the client is willing to walk. -/
def Worthwhile (start headSeq budget : UInt64) (rungSeqs : List UInt64) (r : UInt64) : Prop :=
  r ∈ rungSeqs ∧ start.toNat ≤ r.toNat ∧ r.toNat ≤ headSeq.toNat ∧
    headSeq.toNat - r.toNat < budget.toNat

/-- The whole span fits into the budget, as the code compares it. -/
theorem wholeFits_iff :
    WholeFits start headSeq budget ↔ 0 < budget ∧ satSub headSeq start < budget := by
  -- A saturating difference of words is the cut off difference of their numbers.
  rw [UInt64.lt_iff_toNat_lt, UInt64.lt_iff_toNat_lt, toNat_satSub]
  rfl

/-- A rung is usable within the span and within the budget of the head. -/
theorem usableRung_iff {r : UInt64} : usableRung start headSeq budget r ↔
    start.toNat ≤ r.toNat ∧ r.toNat ≤ headSeq.toNat ∧ headSeq.toNat - r.toNat < budget.toNat := by
  simp only [usableRung, Bool.and_eq_true, decide_eq_true_eq, UInt64.le_iff_toNat_le, and_assoc]
  -- The difference is only taken below the head, where it does not wrap.
  refine and_congr_right fun _ => and_congr_right fun below => ?_
  rw [UInt64.lt_iff_toNat_lt, UInt64.toNat_sub_of_le _ _ (UInt64.le_iff_toNat_le.mpr below)]

/-- A rung is worthwhile if it is laid and usable. -/
theorem worthwhile_iff {r : UInt64} : Worthwhile start headSeq budget rungSeqs r ↔
    r ∈ rungSeqs ∧ usableRung start headSeq budget r := by
  rw [usableRung_iff]
  rfl

/-- Testing a rung never panics. -/
theorem usableRungChecked_eq (r : UInt64) :
    usableRungChecked start headSeq budget r = some (usableRung start headSeq budget r) := by
  unfold usableRungChecked usableRung
  -- On every side of the two comparisons both answer alike.
  by_cases above : start ≤ r <;> by_cases below : r ≤ headSeq <;> simp [above, below, Words.sub?]

/-- A walk of the whole span carries one record more than the span is long. -/
theorem records_of_span (fits : WholeFits start headSeq budget) :
    Words.add? (satSub headSeq start) 1 = some (satSub headSeq start + 1) := by
  -- The span is below the budget, and the budget is a word itself.
  have bound := budget.toNat_lt
  have short := fits.2
  unfold Words.add?
  rw [toNat_satSub, UInt64.toNat_one, if_pos (by omega)]

/-- A worthwhile rung leaves a tail whose records can be counted. -/
theorem records_of_rung {top : UInt64} (usable : usableRung start headSeq budget top) :
    Words.sub? top start = some (top - start) ∧ Words.sub? headSeq top = some (headSeq - top) ∧
      Words.add? (headSeq - top) 1 = some (headSeq - top + 1) := by
  -- The rung lies between the start and the head, and not too far below the head.
  obtain ⟨above, below, close⟩ := usableRung_iff.mp usable
  -- The tail is below the budget, so one more record is still counted by a word.
  have bound := budget.toNat_lt
  refine ⟨?_, ?_, ?_⟩
  · rw [Words.sub?, if_pos (UInt64.le_iff_toNat_le.mpr above)]
  · rw [Words.sub?, if_pos (UInt64.le_iff_toNat_le.mpr below)]
  · rw [Words.add?, UInt64.toNat_sub_of_le _ _ (UInt64.le_iff_toNat_le.mpr below), UInt64.toNat_one,
      if_pos (by omega)]

/-- A rung that was picked passed the test. -/
theorem usableRung_of_max {top : UInt64}
    (picked : (rungSeqs.filter (usableRung start headSeq budget)).max? = some top) :
    usableRung start headSeq budget top :=
  (List.mem_filter.mp (List.max?_mem picked)).2

/-- No sum or difference of the plan wraps: the plain arithmetic is that of the numbers. -/
theorem planWalkChecked_eq (start headSeq : UInt64) (rungSeqs : List UInt64) (budget : UInt64) :
    planWalkChecked start headSeq rungSeqs budget =
      some (planWalk start headSeq rungSeqs budget) := by
  -- The two are compared branch by branch.
  unfold planWalkChecked planWalk
  by_cases fits : 0 < budget ∧ satSub headSeq start < budget
  · -- The span is affordable, so there is room for one more.
    simp only [if_pos fits, records_of_span (wholeFits_iff.mpr fits)]
    rfl
  · simp only [if_neg fits, filterChecked_eq usableRungChecked_eq]
    cases picked : (rungSeqs.filter (usableRung start headSeq budget)).max? with
    | none => simp [picked]
    | some top =>
      -- The rung that was picked lies between the start and the head.
      obtain ⟨skipped, gap, records⟩ := records_of_rung (usableRung_of_max picked)
      simp [picked, skipped, gap, records]

/-- The whole span is walked exactly when it is affordable. -/
theorem planWalk_full_iff {s records : UInt64} :
    planWalk start headSeq rungSeqs budget = .full s records ↔
      WholeFits start headSeq budget ∧ s = start ∧
        records.toNat = headSeq.toNat - start.toNat + 1 := by
  -- The whole span is tried first, and nothing else gives a full plan.
  unfold planWalk
  by_cases fits : 0 < budget ∧ satSub headSeq start < budget
  · -- The plan is the whole span, whose records are counted exactly.
    have whole := wholeFits_iff.mpr fits
    have counted := Words.add?_eq_some_iff.mp (records_of_span whole)
    rw [UInt64.toNat_one, toNat_satSub] at counted
    rw [if_pos fits, WalkPlan.full.injEq, ← UInt64.toNat_inj (a := satSub headSeq start + 1),
      counted]
    simp only [whole, true_and]
    exact and_congr eq_comm eq_comm
  · -- Whatever else is planned is not the whole span.
    have long : ¬WholeFits start headSeq budget := fun whole => fits (wholeFits_iff.mp whole)
    rw [if_neg fits]
    cases (rungSeqs.filter (usableRung start headSeq budget)).max? <;> simp [long]

example : planWalk 3 7 [] 8 = .full 3 5 := by decide +kernel

/-- What a skip leaves out and what it walks make up the span. -/
theorem skip_covers {top : UInt64} (usable : usableRung start headSeq budget top) :
    (top - start).toNat = top.toNat - start.toNat ∧
      (headSeq - top + 1).toNat = headSeq.toNat - top.toNat + 1 := by
  -- None of the three operations wraps, so each gives what it gives on numbers.
  obtain ⟨skipped, gap, records⟩ := records_of_rung usable
  obtain ⟨above, below, _⟩ := usableRung_iff.mp usable
  have left := Words.sub?_eq_some_iff.mp skipped
  have taken := Words.sub?_eq_some_iff.mp gap
  have walked := Words.add?_eq_some_iff.mp records
  rw [UInt64.toNat_one] at walked
  omega

/--
The ladder is climbed exactly when the span is too long, and up to the highest rung that is any use.
-/
theorem planWalk_skip_iff {top skipped records : UInt64} :
    planWalk start headSeq rungSeqs budget = .skip top skipped records ↔
      ¬WholeFits start headSeq budget ∧
        IsGreatest {r | Worthwhile start headSeq budget rungSeqs r} top ∧
        skipped.toNat = top.toNat - start.toNat ∧
        skipped.toNat + records.toNat = headSeq.toNat - start.toNat + 1 ∧
        1 ≤ records.toNat ∧ records.toNat ≤ budget.toNat := by
  -- The rung picked by the maximum is the greatest one of any use.
  have greatest (m : UInt64) : (rungSeqs.filter (usableRung start headSeq budget)).max? = some m ↔
      IsGreatest {r | Worthwhile start headSeq budget rungSeqs r} m := by
    rw [max?_filter_eq_some_iff]
    simp only [worthwhile_iff]
  unfold planWalk
  by_cases fits : 0 < budget ∧ satSub headSeq start < budget
  · simp [if_pos fits, wholeFits_iff.mpr fits]
  · have long : ¬WholeFits start headSeq budget := fun whole => fits (wholeFits_iff.mp whole)
    rw [if_neg fits, ← greatest]
    cases picked : (rungSeqs.filter (usableRung start headSeq budget)).max? with
    | none => simp
    | some best =>
      -- The two counts are those of the rung that was picked, and they add up to the span.
      have usable := usableRung_of_max picked
      obtain ⟨above, below, close⟩ := usableRung_iff.mp usable
      obtain ⟨left, walked⟩ := skip_covers usable
      simp only [WalkPlan.skip.injEq, Option.some.injEq, long, not_false_eq_true, true_and,
        ← UInt64.toNat_inj (b := skipped), ← UInt64.toNat_inj (b := records), left, walked]
      constructor
      · intro same
        obtain ⟨rfl, here, there⟩ := same
        exact ⟨rfl, by omega, by omega, by omega, by omega⟩
      · intro same
        obtain ⟨rfl, here, there, _⟩ := same
        exact ⟨rfl, by omega, by omega⟩

/-- Nothing reaches exactly when the span is too long and no rung is any use. -/
theorem planWalk_unreachable_iff {span : UInt64} {best : Option UInt64} :
    planWalk start headSeq rungSeqs budget = .unreachable span best ↔
      ¬WholeFits start headSeq budget ∧ (∀ r, ¬Worthwhile start headSeq budget rungSeqs r) ∧
        span.toNat = headSeq.toNat - start.toNat ∧
        ∀ r, best = some r ↔ IsGreatest {s | s ∈ rungSeqs} r := by
  -- Without a rung that is of use there is no short cut.
  have nothing : (rungSeqs.filter (usableRung start headSeq budget)).max? = none ↔
      ∀ r, ¬Worthwhile start headSeq budget rungSeqs r := by
    rw [max?_filter_eq_none_iff]
    simp only [worthwhile_iff, not_and]
  -- The highest rung of all is the one the maximum of the list gives.
  have highest : rungSeqs.max? = best ↔ ∀ r, best = some r ↔ IsGreatest {s | s ∈ rungSeqs} r := by
    simp only [← max?_eq_some_iff_isGreatest]
    constructor
    · intro same r
      rw [same]
    · intro same
      exact Option.ext fun r => (same r).symm
  unfold planWalk
  by_cases fits : 0 < budget ∧ satSub headSeq start < budget
  · simp [if_pos fits, wholeFits_iff.mpr fits]
  · have long : ¬WholeFits start headSeq budget := fun whole => fits (wholeFits_iff.mp whole)
    rw [if_neg fits, ← nothing, ← highest]
    cases picked : (rungSeqs.filter (usableRung start headSeq budget)).max? with
    | some top => simp
    | none =>
      simp only [WalkPlan.unreachable.injEq, long, not_false_eq_true, true_and,
        ← UInt64.toNat_inj (b := span), toNat_satSub]
      exact and_congr_left' eq_comm

/--
Planning a walk never overflows, and the plan is the best there is.

The whole span is walked whenever it is affordable; else the client climbs to the highest rung that
leaves an affordable tail, and the records it skips and those it walks make up the span; and only
without such a rung is the head out of reach, with the highest rung of all to say why.
-/
theorem planned_walk_is_the_best (start headSeq budget : UInt64) (rungSeqs : List UInt64) :
    ∃ plan, planWalkChecked start headSeq rungSeqs budget = some plan ∧
      (∀ s records, plan = .full s records ↔
        WholeFits start headSeq budget ∧ s = start ∧
          records.toNat = headSeq.toNat - start.toNat + 1) ∧
      (∀ top skipped records, plan = .skip top skipped records ↔
        ¬WholeFits start headSeq budget ∧
          IsGreatest {r | Worthwhile start headSeq budget rungSeqs r} top ∧
          skipped.toNat = top.toNat - start.toNat ∧
          skipped.toNat + records.toNat = headSeq.toNat - start.toNat + 1 ∧
          1 ≤ records.toNat ∧ records.toNat ≤ budget.toNat) ∧
      (∀ span best, plan = .unreachable span best ↔
        ¬WholeFits start headSeq budget ∧ (∀ r, ¬Worthwhile start headSeq budget rungSeqs r) ∧
          span.toNat = headSeq.toNat - start.toNat ∧
          ∀ r, best = some r ↔ IsGreatest {s | s ∈ rungSeqs} r) := by
  -- The plan without checks is made, and each of its three forms is characterised.
  refine ⟨planWalk start headSeq rungSeqs budget, planWalkChecked_eq .., ?_, ?_, ?_⟩
  · intro s records
    exact planWalk_full_iff
  · intro top skipped records
    exact planWalk_skip_iff
  · intro span best
    exact planWalk_unreachable_iff

end

end NasTools
