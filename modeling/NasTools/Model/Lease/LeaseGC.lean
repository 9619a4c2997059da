import NasTools.Lib.Spec

/-!
The collector as it is specified on its own: ages that saturate, and every order of
uploads, leases and sweeps.
-/

namespace NasTools.LeaseGC

/--
The thresholds of the collector, and whether an upload of bytes already held moves
the time of their file.
-/
structure Constants where
  grace : ℕ
  expiry : ℕ
  notice : ℕ
  touchOnDedup : Bool

namespace Constants

variable (c : Constants)

/-- The idle time up to which a lease protects. -/
def lapse : ℕ := c.expiry + c.notice

/-- Where an idle time saturates: past every threshold. -/
def cap : ℕ := c.lapse + 1

end Constants

/-- One more tick, up to a cap. -/
def bump (n cap : ℕ) : ℕ := if n < cap then n + 1 else cap

/-- What protects a blob from the collector. -/
inductive Reason where
  | live
  | young
  | notice
  | floor
  | offered

/--
What the peer holds of blobs and of those who lease them, and what has become of blobs so far.
-/
structure State (B H : Type) where
  stored : Set B
  -- Since the file was written, and since a client last handed over the bytes.
  age : B → ℕ
  offered : B → ℕ
  leases : H → Set B
  idle : H → ℕ
  floor : Set B
  swept : Set B
  lapsed : Set H
  -- The blobs swept while a protection was in force.
  violated : Reason → Set B

variable {B H : Type}

namespace State

variable (c : Constants) (s : State B H)

/-- A holder whose leases count in full. -/
def Active (h : H) : Prop := s.idle h ≤ c.expiry

/-- A holder past its expiry whose leases still protect. -/
def Expiring (h : H) : Prop := c.expiry < s.idle h ∧ s.idle h ≤ c.lapse

def Floored (b : B) : Prop := b ∈ s.floor

def Young (b : B) : Prop := s.age b < c.grace

def LiveLease (b : B) : Prop := ∃ h, b ∈ s.leases h ∧ s.Active c h

def LapsedLease (b : B) : Prop := ∃ h, b ∈ s.leases h ∧ s.Expiring c h

/-- Leased by somebody whose notice is not over. -/
def ProtectedByNotice (b : B) : Prop := ∃ h, b ∈ s.leases h ∧ s.idle h ≤ c.lapse

/-- Every guard of the collector lets the blob go. -/
def MaySweep (b : B) : Prop := ¬s.Floored b ∧ ¬s.Young c b ∧ ¬s.LiveLease c b ∧ ¬s.LapsedLease c b

/-- What a sweep takes now. -/
def doomed : Set B := {b | b ∈ s.stored ∧ s.MaySweep c b}

/-- What a holder is told it stands to lose. -/
def warned (h : H) : Set B :=
  {b | b ∈ s.stored ∧ b ∈ s.leases h ∧ ¬s.Floored b ∧ ¬s.Young c b ∧ ¬s.LiveLease c b}

/-- A protection in force, each as it is promised and not as the sweep checks it. -/
def Guarded : Reason → B → Prop
  | .live => s.LiveLease c
  | .young => s.Young c
  | .notice => s.ProtectedByNotice c
  | .floor => s.Floored
  | .offered => fun b => s.offered b < c.grace

/-- Nothing has happened yet. -/
def start : State B H := ⟨∅, fun _ => 0, fun _ => 0, fun _ => ∅, fun _ => 0, ∅, ∅, ∅, fun _ => ∅⟩

/-- Time passes, for all clocks alike. -/
def tick : State B H :=
  { s with
    age := fun b => bump (s.age b) c.grace
    offered := fun b => bump (s.offered b) c.grace
    idle := fun h => bump (s.idle h) c.cap
    lapsed := s.lapsed ∪ {h | c.expiry < bump (s.idle h) c.cap} }

open Classical in
/-- A client hands over a blob, or proves it; no lease is taken by that. -/
noncomputable def upload (b : B) : State B H :=
  { s with
    stored := insert b s.stored
    offered := Function.update s.offered b 0
    age := if b ∈ s.stored ∧ c.touchOnDedup = false then s.age else Function.update s.age b 0 }

open Classical in
/-- A holder leases some more blobs, or none, and is heard of. -/
noncomputable def takeLease (h : H) (blobs : Set B) : State B H :=
  { s with
    leases := Function.update s.leases h (s.leases h ∪ blobs), idle := Function.update s.idle h 0 }

open Classical in
/-- A holder drops some of its leases, and is heard of. -/
noncomputable def release (h : H) (blobs : Set B) : State B H :=
  { s with
    leases := Function.update s.leases h (s.leases h \ blobs), idle := Function.update s.idle h 0 }

/-- A blob enters the retention floor. -/
def retain (b : B) : State B H := { s with floor := insert b s.floor }

/-- A blob leaves the retention floor. -/
def forget (b : B) : State B H := { s with floor := s.floor \ {b} }

/-- The owner removes a blob. -/
def remove (b : B) : State B H := { s with stored := s.stored \ {b} }

/-- A sweep takes some blobs; it is written down which of them something protected. -/
def sweep (taken : Set B) : State B H :=
  { s with
    stored := s.stored \ taken
    swept := s.swept ∪ taken
    violated := fun why => s.violated why ∪ {b | b ∈ taken ∧ s.Guarded c why b} }

end State

/--
What happens next in the specification: leases are only ever taken, and a sweep takes all it may.
-/
inductive Next (c : Constants) : State B H → State B H → Prop where
  | tick (s : State B H) : Next c s (s.tick c)
  | upload (s : State B H) (b : B) (fresh : ¬(b ∈ s.stored ∧ s.offered b = 0)) :
    Next c s (s.upload c b)
  | takeLease (s : State B H) (h : H) (blobs : Set B) (held : blobs ⊆ s.stored) :
    Next c s (s.takeLease h blobs)
  | retain (s : State B H) (b : B) (free : b ∉ s.floor) : Next c s (s.retain b)
  | forget (s : State B H) (b : B) (floored : b ∈ s.floor) : Next c s (s.forget b)
  | sweep (s : State B H) (some : (s.doomed c).Nonempty) : Next c s (s.sweep c (s.doomed c))

/--
What a peer does besides.

Its holders release leases, its owner removes blobs outside the floor, and a failing
disk cuts a sweep short.
-/
inductive NextOfPeer (c : Constants) : State B H → State B H → Prop where
  | specified {s t : State B H} (next : Next c s t) : NextOfPeer c s t
  | release (s : State B H) (h : H) (blobs : Set B) : NextOfPeer c s (s.release h blobs)
  | remove (s : State B H) (b : B) (free : b ∉ s.floor) : NextOfPeer c s (s.remove b)
  | cutShort (s : State B H) (taken : Set B) (doomed : taken ⊆ s.doomed c) :
    NextOfPeer c s (s.sweep c taken)

/-- The specification of the collector. -/
def spec (c : Constants) : Spec (State B H) := ⟨fun s => s = .start, Next c⟩

/-- The specification, with all that a peer does. -/
def specOfPeer (c : Constants) : Spec (State B H) := ⟨fun s => s = .start, NextOfPeer c⟩

variable {c : Constants} {s t : State B H}

/-- A tick within the cap is one more, cut off at the cap. -/
theorem bump_eq_min {n cap : ℕ} (within : n ≤ cap) : bump n cap = min (n + 1) cap := by
  unfold bump
  split <;> omega

/-- What the specification can get into, a peer can too. -/
theorem reachable_of_peer (reachable : (spec c).Reachable s) : (specOfPeer c).Reachable s := by
  have starts : ∀ s : State B H, (spec c).init s → (specOfPeer c).init s := fun _ init => init
  have laxer : ∀ s t : State B H, (spec c).next s t → (specOfPeer c).next s t :=
    fun _ _ next => .specified next
  exact reachable.mono starts laxer

/-- The clocks stay within their thresholds. -/
structure TypeOK (c : Constants) (s : State B H) : Prop where
  age : ∀ b, s.age b ≤ c.grace
  offered : ∀ b, s.offered b ≤ c.grace
  idle : ∀ h, s.idle h ≤ c.cap

/-- A clock stops at its bound. -/
theorem bump_le {n cap : ℕ} : bump n cap ≤ cap := by
  unfold bump
  split <;> omega

open Classical in
/-- Setting one clock back to zero keeps it within its threshold. -/
theorem update_zero_le {K : Type} {clock : K → ℕ} {cap : ℕ} (within : ∀ k, clock k ≤ cap)
    (k k' : K) :
    Function.update clock k 0 k' ≤ cap := by
  rw [Function.update_apply]
  split
  · exact Nat.zero_le _
  · exact within k'

/-- Every step keeps the clocks within their bounds. -/
theorem TypeOK.next (ok : TypeOK c s) (next : NextOfPeer c s t) : TypeOK c t := by
  -- One case for each action: a tick stops at the bound, and the others set clocks back or leave
  -- them.
  obtain ⟨age, offered, idle⟩ := ok
  cases next with
  | specified next =>
    cases next with
    | tick => exact ⟨fun _ => bump_le, fun _ => bump_le, fun _ => bump_le⟩
    | upload b fresh =>
      refine ⟨?_, update_zero_le offered b, idle⟩
      intro b'
      simp only [State.upload]
      split
      · exact age b'
      · exact update_zero_le age b b'
    | takeLease h blobs held => exact ⟨age, offered, update_zero_le idle h⟩
    | retain | forget | sweep => exact ⟨age, offered, idle⟩
  | release h blobs => exact ⟨age, offered, update_zero_le idle h⟩
  | remove | cutShort => exact ⟨age, offered, idle⟩

/-- Where an upload always moves the time of the file, the two clocks of a blob agree. -/
def ClocksAgree (s : State B H) : Prop := s.age = s.offered

/-- If uploads touch what is there, the two clocks of a blob agree at every step. -/
theorem ClocksAgree.next (touched : c.touchOnDedup = true) (agree : ClocksAgree s)
    (next : NextOfPeer c s t) :
    ClocksAgree t := by
  -- Ticks move both clocks, and an upload sets both back.
  unfold ClocksAgree at *
  cases next with
  | specified next =>
    cases next with
    | tick => simp only [State.tick, agree]
    | upload b fresh => simp [State.upload, touched, agree]
    | takeLease | retain | forget | sweep => exact agree
  | release | remove | cutShort => exact agree

/-- A blob that a sweep may take is under none of the protections a sweep knows of. -/
theorem not_guarded_of_maySweep {b : B} (may : s.MaySweep c b) {why : Reason}
    (known : why ≠ .offered) :
    ¬s.Guarded c why b := by
  -- One case for each reason to guard a blob.
  obtain ⟨unfloored, old, unleased, unlapsed⟩ := may
  cases why with
  | live => exact unleased
  | young => exact old
  | floor => exact unfloored
  | offered => exact absurd rfl known
  | notice =>
    -- A holder whose notice is not over is active, or it is expiring.
    intro guarded
    obtain ⟨h, leases, recent⟩ := guarded
    by_cases active : s.idle h ≤ c.expiry
    · exact unleased ⟨h, leases, active⟩
    · exact unlapsed ⟨h, leases, Nat.lt_of_not_le active, recent⟩

/-- What a sweep takes violates none of the protections it knows of. -/
theorem violated_sweep {taken : Set B} (doomed : taken ⊆ s.doomed c) {why : Reason}
    (known : why ≠ .offered) :
    (s.sweep c taken).violated why = s.violated why := by
  apply Set.union_eq_self_of_subset_right
  intro b both
  exact absurd both.2 (not_guarded_of_maySweep (doomed both.1).2 known)

/-- No step of a peer violates a protection that the sweep knows of. -/
theorem violated_next (next : NextOfPeer c s t) {why : Reason} (known : why ≠ .offered) :
    t.violated why = s.violated why := by
  -- Only sweeps add violations, and theirs is the one that was set apart.
  cases next with
  | specified next =>
    cases next with
    | sweep some => exact violated_sweep subset_rfl known
    | tick | upload | takeLease | retain | forget => rfl
  | cutShort taken doomed => exact violated_sweep doomed known
  | release | remove => rfl

/-- No step violates the grace of an upload, where an upload always moves the time of the file. -/
theorem offered_next (agree : ClocksAgree s) (next : NextOfPeer c s t) :
    t.violated .offered = s.violated .offered := by
  -- One case for each step, of which only a sweep can violate.
  have swept {taken : Set B} (doomed : taken ⊆ s.doomed c) :
      (s.sweep c taken).violated .offered = s.violated .offered := by
    apply Set.union_eq_self_of_subset_right
    intro b both
    -- The grace is counted from the file, which is as old as the upload.
    have young : s.Young c b := by
      rw [State.Young, show s.age = s.offered from agree]
      exact both.2
    exact absurd young (doomed both.1).2.2.1
  cases next with
  | specified next =>
    cases next with
    | sweep some => exact swept subset_rfl
    | tick | upload | takeLease | retain | forget => rfl
  | cutShort taken doomed => exact swept doomed
  | release | remove => rfl

/-- No protection that the sweep knows of is ever violated. -/
theorem never_violated (reachable : (specOfPeer (B := B) (H := H) c).Reachable s) {why : Reason}
    (known : why ≠ .offered) : s.violated why = ∅ := by
  -- Nothing is violated at the start, and no step adds a violation of this kind.
  refine reachable.invariant (P := fun s => s.violated why = ∅) ?_ ?_
  · rintro s rfl
    rfl
  · intro s t before next
    rw [violated_next next known]
    exact before

/-- The grace of an upload is never violated, where an upload always moves the time of the file. -/
theorem never_violated_offered (reachable : (specOfPeer (B := B) (H := H) c).Reachable s)
    (touched : c.touchOnDedup = true) : s.violated .offered = ∅ := by
  -- The two clocks of a blob agree all along, so what guards one guards the other.
  have both : ClocksAgree s ∧ s.violated .offered = ∅ := by
    refine reachable.invariant (P := fun s => ClocksAgree s ∧ s.violated .offered = ∅) ?_ ?_
    · rintro s rfl
      exact ⟨rfl, rfl⟩
    · intro s t before next
      refine ⟨before.1.next touched next, ?_⟩
      rw [offered_next before.1 next]
      exact before.2
  exact both.2

/-- In every reachable state the clocks are within their bounds. -/
theorem typeOK_of_reachable (reachable : (specOfPeer (B := B) (H := H) c).Reachable s) :
    TypeOK c s := by
  refine reachable.invariant ?_ fun s t ok next => ok.next next
  rintro s rfl
  exact ⟨fun _ => Nat.zero_le _, fun _ => Nat.zero_le _, fun _ => Nat.zero_le _⟩

/-- What the collector owes to those who trust it with blobs. -/
structure Safe (c : Constants) (s : State B H) : Prop where
  typeOK : TypeOK c s
  liveLeaseNeverSwept : s.violated .live = ∅
  graceProtectsTheYoung : s.violated .young = ∅
  noticeProtectsTheAbsent : s.violated .notice = ∅
  floorNeedsForget : s.violated .floor = ∅
  everyUploadGetsGrace : c.touchOnDedup = true → s.violated .offered = ∅
  -- A holder that lapsed and was heard of again protects all it leases.
  renewalRestoresProtection : ∀ h ∈ s.lapsed, s.Active c h → ∀ b ∈ s.leases h, b ∉ s.doomed c
  -- Nothing is taken that not all of its holders were told of.
  warnedBeforeSwept : ∀ b ∈ s.doomed c, ∀ h, b ∈ s.leases h → b ∈ s.warned c h

/--
Whatever a peer and its clients do, and in whatever order, the collector keeps what it promises.

No blob is swept while it is leased, young, under notice or retained, and a renewal protects
as much as a first lease.
-/
theorem collector_is_safe (reachable : (specOfPeer (B := B) (H := H) c).Reachable s) :
    Safe c s := by
  -- Each guard of the sweep is one part of being doomed.
  refine ⟨typeOK_of_reachable reachable, never_violated reachable nofun,
    never_violated reachable nofun, never_violated reachable nofun, never_violated reachable nofun,
    never_violated_offered reachable, ?_, ?_⟩
  · -- An active holder keeps whatever it leases, whether or not it has been away.
    intro h _ active b leases doomed
    exact doomed.2.2.2.1 ⟨h, leases, active⟩
  · intro b doomed h leases
    exact ⟨doomed.1, leases, doomed.2.1, doomed.2.2.1, doomed.2.2.2.1⟩

/-- What has become of a state after some ticks. -/
structure Waited (c : Constants) (n : ℕ) (s t : State B H) : Prop where
  stored : t.stored = s.stored
  leases : t.leases = s.leases
  floor : t.floor = s.floor
  violated : t.violated = s.violated
  age : ∀ b, t.age b = min (s.age b + n) c.grace
  offered : ∀ b, t.offered b = min (s.offered b + n) c.grace
  idle : ∀ h, t.idle h = min (s.idle h + n) c.cap
  lapsed : 0 < n → ∀ h, c.expiry < t.idle h → h ∈ t.lapsed

/-- Ticks add up, until the clocks saturate. -/
theorem waited_iterate (ok : TypeOK c s) (n : ℕ) : Waited c n s ((State.tick c)^[n] s) := by
  -- Induction over the ticks: every clock moves by one and stops at its bound.
  induction n with
  | zero =>
    refine ⟨rfl, rfl, rfl, rfl, ?_, ?_, ?_, fun never => absurd never (Nat.lt_irrefl 0)⟩
    · exact fun b => (min_eq_left (ok.age b)).symm
    · exact fun b => (min_eq_left (ok.offered b)).symm
    · exact fun h => (min_eq_left (ok.idle h)).symm
  | succ n ih =>
    rw [Function.iterate_succ_apply']
    refine ⟨ih.stored, ih.leases, ih.floor, ih.violated, ?_, ?_, ?_, fun _ h past => .inr past⟩
    · intro b
      show bump (((State.tick c)^[n] s).age b) c.grace = _
      rw [ih.age, bump_eq_min (min_le_right _ _)]
      omega
    · intro b
      show bump (((State.tick c)^[n] s).offered b) c.grace = _
      rw [ih.offered, bump_eq_min (min_le_right _ _)]
      omega
    · intro h
      show bump (((State.tick c)^[n] s).idle h) c.cap = _
      rw [ih.idle, bump_eq_min (min_le_right _ _)]
      omega

/-- After a wait the clocks are within their bounds. -/
theorem Waited.typeOK {n : ℕ} (waited : Waited c n s t) : TypeOK c t := by
  -- Every clock is cut off at its bound.
  refine ⟨?_, ?_, ?_⟩
  · intro b
    rw [waited.age]
    exact min_le_right _ _
  · intro b
    rw [waited.offered]
    exact min_le_right _ _
  · intro h
    rw [waited.idle]
    exact min_le_right _ _

/-- Clocks that agree before a wait agree after it. -/
theorem Waited.agree {n : ℕ} (waited : Waited c n s t) (agree : ClocksAgree s) : ClocksAgree t := by
  funext b
  rw [waited.age, waited.offered, show s.age = s.offered from agree]

/-- Blobs retained one after the other are all in the floor. -/
theorem foldl_retain (blobs : List B) (s : State B H) :
    blobs.foldl State.retain s = { s with floor := {b | b ∈ blobs} ∪ s.floor } := by
  -- Induction over the blobs, with the state kept general.
  induction blobs generalizing s with
  | nil => simp
  | cons b rest ih =>
    rw [List.foldl_cons, ih]
    simp only [State.retain, List.mem_cons, Set.union_insert]
    congr 1
    ext b'
    simp [or_assoc]

/-- Blobs forgotten one after the other are none of them in the floor. -/
theorem foldl_forget (blobs : List B) (s : State B H) :
    blobs.foldl State.forget s = { s with floor := s.floor \ {b | b ∈ blobs} } := by
  -- Induction over the blobs, with the state kept general.
  induction blobs generalizing s with
  | nil => simp
  | cons b rest ih =>
    rw [List.foldl_cons, ih]
    simp only [State.forget, List.mem_cons, Set.sdiff_sdiff]
    rfl

/-- Retaining some blobs takes a step for each that is new to the floor. -/
theorem steps_retain (blobs : List B) (s : State B H) :
    (spec c).Steps s { s with floor := {b | b ∈ blobs} ∪ s.floor } := by
  -- A blob that is on the floor already takes no step.
  rw [← foldl_retain]
  refine Spec.Steps.foldl ?_ blobs s
  intro s b
  by_cases floored : b ∈ s.floor
  · exact .of_next_or_eq (.inr (by rw [State.retain, Set.insert_eq_of_mem floored]))
  · exact .single (.retain s b floored)

/-- Forgetting some blobs takes a step for each that is in the floor. -/
theorem steps_forget (blobs : List B) (s : State B H) :
    (spec c).Steps s { s with floor := s.floor \ {b | b ∈ blobs} } := by
  -- A blob that is not on the floor takes no step.
  rw [← foldl_forget]
  refine Spec.Steps.foldl ?_ blobs s
  intro s b
  by_cases floored : b ∈ s.floor
  · exact .single (.forget s b floored)
  · exact .of_next_or_eq (.inr (by rw [State.forget, Set.sdiff_singleton_eq_self floored]))

/-- Steps of the specification are steps of a peer. -/
theorem steps_of_peer (steps : (spec c).Steps s t) : (specOfPeer c).Steps s t := by
  have laxer : ∀ s t : State B H, (spec c).next s t → (specOfPeer c).next s t :=
    fun _ _ next => .specified next
  exact steps.mono laxer

/-- Some ticks are steps of the specification. -/
theorem steps_iterate (s : State B H) (n : ℕ) : (spec c).Steps s ((State.tick c)^[n] s) :=
  Spec.Steps.iterate (P := fun _ => True) (fun _ _ => trivial) (fun s _ => Next.tick s) trivial n

/-- A blob has just been handed over, and its file is as old as it gets. -/
theorem waited_upload (c : Constants) (b : B) :
    Waited c c.grace ((State.start : State B H).upload c b)
      ((State.tick c)^[c.grace] (State.start.upload c b)) := by
  have first : (spec (B := B) (H := H) c).Reachable .start := Spec.reachable_of_init rfl
  have uploaded := first.next (.upload .start b (by simp [State.start]))
  exact waited_iterate (typeOK_of_reachable (reachable_of_peer uploaded)) _

/-- After an upload and the whole grace, the blob is reachable, stored and no longer young. -/
theorem grace_over (c : Constants) (b : B) :
    ∃ s : State B H, (spec c).Reachable s ∧ b ∈ s.stored ∧ s.age b = c.grace ∧
      s.offered b = c.grace ∧
      s.leases = (fun _ => ∅) ∧ s.floor = ∅ := by
  -- The blob is uploaded, and then time passes for as long as its grace.
  have first : (spec (B := B) (H := H) c).Reachable .start := Spec.reachable_of_init rfl
  have uploaded := first.next (.upload .start b (by simp [State.start]))
  have waited := waited_upload (H := H) c b
  refine ⟨_, uploaded.steps (steps_iterate _ c.grace), ?_, ?_, ?_, waited.leases, waited.floor⟩
  · rw [waited.stored]
    exact Set.mem_insert b _
  · rw [waited.age]
    simp [State.upload, State.start]
  · rw [waited.offered]
    simp [State.upload, State.start]

/-- In a state where nobody leases anything, no lease protects a blob. -/
theorem unleased {b : B} (none : s.leases = fun _ => ∅) :
    ¬s.LiveLease c b ∧ ¬s.LapsedLease c b := by
  constructor <;> simp [State.LiveLease, State.LapsedLease, none]

/-- An old blob that nobody leases or retains is swept. -/
theorem doomed_of_old {b : B} (stored : b ∈ s.stored) (age : s.age b = c.grace)
    (leases : s.leases = fun _ => ∅) (floor : s.floor = ∅) : b ∈ s.doomed c := by
  refine ⟨stored, ?_, ?_, unleased leases⟩
  · simp [State.Floored, floor]
  · simp [State.Young, age]

/-- A blob that was swept after its grace, with nobody to lease it, was swept safely. -/
theorem sweep_after_grace_is_safe : ∃ s :
    State Unit Unit, () ∈ s.swept ∧ Safe ⟨1, 1, 1, true⟩ s := by
  -- Nothing holds the blob any more, so the sweep takes it.
  obtain ⟨s, reachable, stored, age, _, leases, floor⟩ := grace_over (H := Unit) ⟨1, 1, 1, true⟩ ()
  have doomed := doomed_of_old stored age leases floor
  have swept := reachable.next (.sweep s ⟨(), doomed⟩)
  refine ⟨s.sweep ⟨1, 1, 1, true⟩ (s.doomed ⟨1, 1, 1, true⟩), Set.mem_union_right _ doomed, ?_⟩
  exact collector_is_safe (reachable_of_peer swept)

/--
Every upload gets its grace exactly where an upload of bytes already held moves the
time of the file.

Otherwise the second upload of an old blob is swept at once; and with no grace, or no blobs,
there is nothing to give.
-/
theorem every_upload_gets_grace_iff (c : Constants) :
    (∀ s : State B H, (spec c).Reachable s → s.violated .offered = ∅) ↔
      c.touchOnDedup = true ∨ c.grace = 0 ∨ IsEmpty B := by
  -- A run that violates it, and the three ways in which there is none.
  constructor
  · intro always
    by_contra neither
    obtain ⟨untouched, positive, inhabited⟩ : c.touchOnDedup = false ∧ c.grace ≠ 0 ∧
      Nonempty B := by
      simpa using neither
    obtain ⟨b⟩ := inhabited
    -- The blob is uploaded, gets old, is uploaded again without its file being
    -- touched, and is swept.
    obtain ⟨s, reachable, stored, age, offered, leases, floor⟩ := grace_over (H := H) c b
    have again := reachable.next (.upload s b fun fresh => positive (offered.symm.trans fresh.2))
    have old : (s.upload c b).age b = c.grace := by simp [State.upload, stored, untouched, age]
    have doomed : b ∈ (s.upload c b).doomed c := doomed_of_old (Set.mem_insert b _) old leases floor
    have swept := again.next (.sweep _ ⟨b, doomed⟩)
    have recorded : b ∈ ((s.upload c b).sweep c ((s.upload c b).doomed c)).violated .offered := by
      refine .inr ⟨doomed, ?_⟩
      simp only [State.Guarded, State.upload, Function.update_self]
      omega
    rw [always _ swept] at recorded
    exact recorded
  · intro either s reachable
    rcases either with touched | none | empty
    · exact never_violated_offered (reachable_of_peer reachable) touched
    · -- No upload is younger than nothing.
      refine reachable.invariant (P := fun s => s.violated .offered = ∅) ?_ ?_
      · rintro s rfl
        rfl
      · intro s t before next
        cases next with
        | sweep some => simpa [State.sweep, State.Guarded, none] using before
        | tick | upload | takeLease | retain | forget => exact before
    · exact Set.eq_empty_of_isEmpty _

/--
Each guard of the collector is needed: in some state it alone keeps a blob, and
without any the blob is swept.

A holder that has lapsed can also be heard of again, so that there are renewals to speak of.
-/
theorem every_guard_is_needed (c : Constants) (graced : 1 ≤ c.grace) (noticed : 1 ≤ c.notice)
    (b : B) (h : H) : (∃ s : State B H, (spec c).Reachable s ∧ b ∈ s.swept) ∧
    (∃ s : State B H, (spec c).Reachable s ∧ b ∈ s.stored ∧
      s.Young c b ∧ ¬s.Floored b ∧ ¬s.LiveLease c b ∧ ¬s.LapsedLease c b) ∧
    (∃ s : State B H, (spec c).Reachable s ∧ b ∈ s.stored ∧
      s.Floored b ∧ ¬s.Young c b ∧ ¬s.LiveLease c b ∧ ¬s.LapsedLease c b) ∧
    (∃ s : State B H, (spec c).Reachable s ∧ b ∈ s.stored ∧
      s.LiveLease c b ∧ ¬s.Floored b ∧ ¬s.Young c b ∧ ¬s.LapsedLease c b) ∧
    (∃ s : State B H, (spec c).Reachable s ∧ b ∈ s.stored ∧
      s.LapsedLease c b ∧ ¬s.Floored b ∧ ¬s.Young c b ∧ ¬s.LiveLease c b) ∧
    ∃ s : State B H, (spec c).Reachable s ∧ h ∈ s.lapsed ∧ s.Active c h := by
  -- Each part has its own run, which starts with a blob past its grace.
  obtain ⟨s, reachable, stored, age, _, leases, floor⟩ := grace_over (H := H) c b
  have old : ¬s.Young c b := by simp [State.Young, age]
  have free : ¬s.Floored b := by simp [State.Floored, floor]
  -- The lease that is taken now is the only one.
  have leased := reachable.next (.takeLease s h {b} (Set.singleton_subset_iff.mpr stored))
  have waited := waited_iterate (typeOK_of_reachable (reachable_of_peer leased)) (c.expiry + 1)
  have absent := leased.steps (steps_iterate _ (c.expiry + 1))
  have idle : ((State.tick c)^[c.expiry + 1] (s.takeLease h {b})).idle h = c.expiry + 1 := by
    rw [waited.idle]
    simp only [State.takeLease, Function.update_self, Constants.cap, Constants.lapse]
    omega
  have only : ∀ h', b ∈ (s.takeLease h {b}).leases h' → h' = h := by
    intro h' member
    by_contra other
    simp [State.takeLease, other, leases] at member
  have member : b ∈ (s.takeLease h {b}).leases h := by simp [State.takeLease]
  refine ⟨?_, ?_, ?_, ?_, ?_, ?_⟩
  · -- Nothing keeps an old blob that is neither leased nor retained.
    have doomed := doomed_of_old stored age leases floor
    exact ⟨_, reachable.next (.sweep s ⟨b, doomed⟩), .inr doomed⟩
  · have first : (spec (B := B) (H := H) c).Reachable .start := Spec.reachable_of_init rfl
    have none := unleased (c := c) (s := (State.start : State B H).upload c b) (b := b) rfl
    refine ⟨_, first.next (.upload .start b (by simp [State.start])), Set.mem_insert b _,
      ?_, ?_, none⟩
    · simp only [State.Young, State.upload, State.start]
      simpa using Nat.pos_of_ne_zero (Nat.one_le_iff_ne_zero.mp graced)
    · simp [State.Floored, State.upload, State.start]
  · have retained : b ∉ s.floor := free
    exact ⟨_, reachable.next (.retain s b retained), stored, Set.mem_insert b _, old,
      unleased leases⟩
  · refine ⟨_, leased, stored, ⟨h, member, ?_⟩, free, old, ?_⟩
    · simp [State.Active, State.takeLease]
    · rintro ⟨h', inside, past, _⟩
      obtain rfl := only h' inside
      simp [State.takeLease] at past
  · refine ⟨_, absent, ?_, ⟨h, ?_, ?_, ?_⟩, ?_, ?_, ?_⟩
    · rw [waited.stored]
      exact stored
    · rw [waited.leases]
      exact member
    · rw [idle]
      exact Nat.lt_succ_self _
    · rw [idle]
      exact Nat.add_le_add_left noticed _
    · rw [State.Floored, waited.floor]
      exact free
    · rw [State.Young, waited.age]
      simp only [State.takeLease, age]
      omega
    · rintro ⟨h', inside, active⟩
      rw [waited.leases] at inside
      obtain rfl := only h' inside
      rw [State.Active, idle] at active
      omega
  · -- The holder comes back with nothing new to lease.
    refine ⟨_, absent.next (.takeLease _ h ∅ (Set.empty_subset _)), ?_, ?_⟩
    · refine waited.lapsed (Nat.succ_pos _) h ?_
      rw [idle]
      exact Nat.lt_succ_self _
    · simp [State.Active, State.takeLease]

/-- With a grace, an expiry and a notice of one tick each, as the specification is checked. -/
theorem guards_are_needed_for_one_tick :
    (∃ s : State Unit Unit, (spec ⟨1, 1, 1, true⟩).Reachable s ∧ () ∈ s.swept) ∧
      ∃ s : State Unit Unit, (spec ⟨1, 1, 1, true⟩).Reachable s ∧ () ∈ s.lapsed ∧
        s.Active ⟨1, 1, 1, true⟩ () := by
  obtain ⟨swept, _, _, _, _, renewed⟩ := every_guard_is_needed ⟨1, 1, 1, true⟩ le_rfl le_rfl () ()
  exact ⟨swept, renewed⟩

end NasTools.LeaseGC
