import NasTools.Lib.Fallible
import NasTools.Model.Cli.GitPush

/-!
Published git refs under pushes that interleave: when they stay complete and only move forward.
-/

namespace NasTools

/-- The history git objects have: what is reached from what, and which commit comes before which. -/
structure GitGraph where
  reaches : GitOid → GitOid → Prop
  ancestor : GitOid → GitOid → Prop

namespace GitGraph

variable (graph : GitGraph)

/-- A ref moves forward: what it was comes before what it becomes. -/
def Forward (old : Option GitOid) (new : GitOid) : Prop :=
  ∀ before, old = some before → before = new ∨ graph.ancestor before new

/-- Everything reached from every published ref is in the saved map. -/
def Complete (g : GitShare) : Prop :=
  ∀ (name : String) (oid : GitOid), g.refs[name]? = some oid → ∀ o, graph.reaches oid o → o ∈ g.map

/-- What a step does to the namespace: the map grows, and refs move forward. -/
structure Advances (before after : GitShare) : Prop where
  map : ∀ o ∈ before.map, o ∈ after.map
  refs : ∀ (name : String) (old : GitOid), before.refs[name]? = some old →
    ∃ new, after.refs[name]? = some new ∧ graph.Forward (some old) new

/-- Git answers what it is asked as the history has it. -/
def Honest (g : GitShare) (w : PushWorld) : PushTask → Prop
  | .testing _ _ new old => ∀ before, old = some before → w.ancestor = .ok true →
    graph.ancestor before new
  | .loading _ new _ => ∀ listed, w.listed = .ok listed →
      (∀ o, graph.reaches new o → o ∈ listed) ∧
        ∀ map, g.loadMap w = .ok map → ∀ contents, w.contents = .ok contents →
          contents.length = (OidMap.lacking map listed).length
  | _ => True

/--
Nothing came between: the map that is replaced is the one that was loaded, and the
ref is as it was read.
-/
def Undisturbed (g : GitShare) : PushTask → Prop
  | .storing _ _ _ base _ [] => g.map = base
  | .writing dst _ old => g.refs[dst]? = old
  | _ => True

/-- What may happen: git is honest, and no push is forced. -/
def Allowed {P : Type} (s : Pushing P) (e : P × PushEvent) : Prop :=
  match e.2 with
  | .push spec _ => ∀ parsed, parsePushSpec spec = .ok parsed → parsed.force = false
  | .go w => graph.Honest s.share w (s.tasks e.1)
  | .kill => True

/--
What may happen where besides nothing comes between a reading and the writing that goes with it.
-/
def Careful {P : Type} (s : Pushing P) (e : P × PushEvent) : Prop :=
  graph.Allowed s e ∧ ∀ w, e.2 = .go w → Undisturbed s.share (s.tasks e.1)

/--
At every moment of a run the refs are complete, and what happens next only moves them forward.
-/
def Guards {P : Type} [DecidableEq P] (s : Pushing P) (events : List (P × PushEvent)) : Prop :=
  ∀ first later, events = first ++ later → graph.Complete ((pushing P).run s first).share ∧
    ∀ e more, later = e :: more →
      graph.Advances ((pushing P).run s first).share ((pushing P).run s (first ++ [e])).share

/-- What a push has made sure of by the place where it stands. -/
def Sure (g : GitShare) : PushTask → Prop
  | .idle => True
  | .reading force _ _ => force = false
  | .testing force _ _ _ => force = false
  | .loading _ new old => graph.Forward old new
  | .storing _ new old base map rest => graph.Forward old new ∧ (∀ o ∈ base, o ∈ map) ∧
      ∀ o, graph.reaches new o → o ∈ map ∨ o ∈ rest.map Prod.fst
  | .writing _ new old => graph.Forward old new ∧ ∀ o, graph.reaches new o → o ∈ g.map

variable {graph}

/-- A share that does not change advances. -/
theorem Advances.refl (g : GitShare) : graph.Advances g g :=
  ⟨fun _ held => held, fun _ old held => ⟨old, held, fun _ is => .inl (Option.some.inj is).symm⟩⟩

/-- What a push has made sure of stays so while the map grows. -/
theorem Sure.mono {g g' : GitShare} (grows : ∀ o ∈ g.map, o ∈ g'.map) {task : PushTask}
    (sure : graph.Sure g task) :
    graph.Sure g' task := by
  cases task with
  | writing dst new old => exact ⟨sure.1, fun o reached => grows o (sure.2 o reached)⟩
  | _ => exact sure

/-- An object that is persisted is in the map, which keeps what it had. -/
theorem mem_of_persistObject {map map' : OidMap} {oid : GitOid} {kind : GitKind} {content : Bytes}
    {stored : Except String Addr} (made : persistObject map oid kind content stored = .ok map') :
    oid ∈ map' ∧ ∀ o ∈ map, o ∈ map' := by
  -- An object that is listed is not stored again, and a new one is put in beside the old.
  unfold persistObject at made
  split at made
  · rename_i held
    obtain rfl := Except.ok.inj made
    exact ⟨by simpa using held, fun o member => member⟩
  · simp only [except_bind_eq_ok, except_pure_eq, Except.ok.injEq] at made
    obtain ⟨addr, _, rfl⟩ := made
    exact ⟨by simp, fun o member => by simp [member]⟩

/--
After an operation the refs are complete and moved forward, and the push made sure of
what comes next.
-/
structure WellDone (g : GitShare) (next : PushTask × GitShare) : Prop where
  complete : graph.Complete next.2
  sure : graph.Sure next.2 next.1
  advances : graph.Advances g next.2

/-- An operation that leaves the namespace alone only has to make sure of what comes next. -/
theorem Complete.still {g : GitShare} (complete : graph.Complete g) {task : PushTask}
    (sure : graph.Sure g task) :
    graph.WellDone g (task, g) :=
  ⟨complete, sure, .refl g⟩

section

variable {g : GitShare} {dst : String} {new : GitOid} {old : Option GitOid} {w : PushWorld}

/-- A push that is not forced goes on only when it was told that the ref moves forward. -/
theorem testing_wellDone (complete : graph.Complete g)
    (honest : graph.Honest g w (.testing false dst new old)) :
    graph.WellDone g (g.proceed w (.testing false dst new old)) := by
  -- The push is told whether the old value comes before the new one.
  simp only [GitShare.proceed, Bool.false_eq_true, if_false]
  split
  · rename_i forward
    refine complete.still ?_
    intro before is
    subst is
    simp only [isFastForward] at forward
    -- Either the ref stays where it is, or git said that it comes before.
    split at forward
    · exact .inl ‹_›
    · exact .inr (honest before rfl forward)
  · exact complete.still trivial

/-- Loading asks for every object that the map lacks, so each is in the map or on the way. -/
theorem loading_wellDone (complete : graph.Complete g) (forward : graph.Forward old new)
    (honest : graph.Honest g w (.loading dst new old)) :
    graph.WellDone g (g.proceed w (.loading dst new old)) := by
  -- The map is loaded here, and what the new head needs beyond it is asked of the repository.
  simp only [GitShare.proceed]
  split
  · rename_i map listed loaded lists
    obtain ⟨all, answered⟩ := honest listed lists
    have lacks {o : GitOid} (reached : graph.reaches new o) (absent : o ∉ map) :
        o ∈ OidMap.lacking map listed :=
      List.mem_filter.mpr ⟨all o reached, by simpa [← Bool.not_eq_true] using absent⟩
    split
    · rename_i none
      refine complete.still ⟨forward, fun o held => held, ?_⟩
      intro o reached
      by_cases held : o ∈ map
      · exact .inl held
      · have wanted := lacks reached held
        rw [none] at wanted
        cases wanted
    · split
      · rename_i contents read
        refine complete.still ⟨forward, fun o held => held, ?_⟩
        intro o reached
        by_cases held : o ∈ map
        · exact .inl held
        · -- Every object that was asked for has an answer, so none is left out.
          rw [List.map_fst_zip (Nat.le_of_eq (answered map loaded contents read).symm)]
          exact .inr (lacks reached held)
      · exact complete.still trivial
  · exact complete.still trivial

/-- Storing puts the objects on the way into the map, and saves it when all of them are. -/
theorem storing_wellDone (complete : graph.Complete g) {base map : OidMap}
    {rest : List (GitOid × CatFile)} (sure : graph.Sure g (.storing dst new old base map rest))
    (undisturbed : Undisturbed g (.storing dst new old base map rest)) :
    graph.WellDone g (g.proceed w (.storing dst new old base map rest)) := by
  -- Objects are filed one by one, and with the last of them the map is saved.
  obtain ⟨forward, kept, reached⟩ := sure
  cases rest with
  | nil =>
    simp only [GitShare.proceed]
    split
    · -- The map that is replaced is the one that was loaded, and is part of the new one.
      have grows : ∀ o ∈ g.map, o ∈ map := fun o held => kept o (undisturbed ▸ held)
      refine ⟨?_, ⟨forward, ?_⟩, ⟨grows, (Advances.refl g).refs⟩⟩
      · intro name oid published o reached
        exact grows o (complete name oid published o reached)
      · intro o needed
        simpa using reached o needed
    · exact complete.still trivial
  | cons first rest =>
    obtain ⟨oid, answer⟩ := first
    cases answer with
    | missing => exact complete.still trivial
    | object kind content =>
      simp only [GitShare.proceed]
      split
      · rename_i map' made
        obtain ⟨here, grows⟩ := mem_of_persistObject made
        refine complete.still ⟨forward, fun o held => grows o (kept o held), ?_⟩
        intro o needed
        rcases reached o needed with held | later
        · exact .inl (grows o held)
        · rcases List.mem_cons.mp later with rfl | later
          · exact .inl here
          · exact .inr later
      · exact complete.still trivial

/-- Writing the ref publishes what the map has all of, in the place of what was tested against. -/
theorem writing_wellDone (complete : graph.Complete g) (sure : graph.Sure g (.writing dst new old))
    (undisturbed : Undisturbed g (.writing dst new old)) :
    graph.WellDone g (g.proceed w (.writing dst new old)) := by
  -- The ref is there with what was tested, or it is not.
  obtain ⟨forward, reached⟩ := sure
  simp only [GitShare.proceed]
  split
  · split
    · refine ⟨?_, trivial, fun o held => held, ?_⟩
      · intro name oid published
        rw [Std.ExtTreeMap.getElem?_insert] at published
        split at published
        · obtain rfl := Option.some.inj published
          exact reached
        · exact complete name oid published
      · intro name before held
        rw [Std.ExtTreeMap.getElem?_insert]
        split
        · rename_i same
          obtain rfl := Std.LawfulEqCmp.eq_of_compare same
          -- The ref still has the value that was tested against.
          refine ⟨new, rfl, ?_⟩
          rw [← held, show g.refs[dst]? = old from undisturbed]
          exact forward
        · exact (Advances.refl g).refs name before held
    · exact complete.still trivial
  · exact complete.still trivial

/--
One undisturbed operation: refs stay complete and move forward, and the push makes
sure of what comes next.
-/
theorem proceed_wellDone (complete : graph.Complete g) {task : PushTask} (sure : graph.Sure g task)
    (honest : graph.Honest g w task) (undisturbed : Undisturbed g task) :
    graph.WellDone g (g.proceed w task) := by
  -- One place of the push after the other.
  cases task with
  | idle => exact complete.still trivial
  -- Reading the ref leaves the namespace alone.
  | reading force dst new => exact complete.still sure
  | testing force dst new old =>
    obtain rfl : force = false := sure
    exact testing_wellDone complete honest
  | loading dst new old => exact loading_wellDone complete sure honest
  | storing dst new old base map rest => exact storing_wellDone complete sure undisturbed
  | writing dst new old => exact writing_wellDone complete sure undisturbed

end

section

variable {P : Type} [DecidableEq P]

/-- The refs are complete, and every push has made sure of what its place stands for. -/
def Sound (graph : GitGraph) (s : Pushing P) : Prop :=
  graph.Complete s.share ∧ ∀ p, graph.Sure s.share (s.tasks p)

/-- An unforced push starts with nothing to make sure of. -/
theorem sure_startPush (g : GitShare) {spec : String}
    (unforced : ∀ parsed, parsePushSpec spec = .ok parsed → parsed.force = false)
    (source : Except String GitOid) :
    graph.Sure g (startPush spec source) := by
  -- A push that does not parse or has no source does nothing.
  unfold startPush
  cases parsed : parsePushSpec spec with
  | error e => trivial
  | ok push =>
    dsimp only
    split
    · trivial
    · cases source with
      | error e => trivial
      | ok new => exact unforced push parsed

/-- Every careful step keeps the namespace sound, and moves it forward. -/
theorem step_sound {s : Pushing P} {e : P × PushEvent} (careful : graph.Careful s e)
    (sound : graph.Sound s) :
    graph.Sound ((pushing P).step s e).2 ∧
      graph.Advances s.share ((pushing P).step s e).2.share := by
  -- The event moves one process.
  obtain ⟨complete, sure⟩ := sound
  -- Setting where one process stands says nothing about the others.
  have updated {g : GitShare} {p : P} {task : PushTask} (here : graph.Sure g task)
    (others : ∀ q, graph.Sure g (s.tasks q))
      (q : P) : graph.Sure g (Function.update s.tasks p task q) := by
    by_cases same : q = p
    · subst same
      rw [Function.update_self]
      exact here
    · rw [Function.update_of_ne same]
      exact others q
  obtain ⟨p, event⟩ := e
  obtain ⟨allowed, undisturbed⟩ := careful
  cases event with
  | push spec source =>
    simp only [pushing]
    split
    · exact ⟨⟨complete, updated (sure_startPush _ allowed source) sure⟩, .refl _⟩
    · exact ⟨⟨complete, sure⟩, .refl _⟩
  | go w =>
    obtain ⟨complete', here, advances⟩ :=
      proceed_wellDone complete (sure p) allowed (undisturbed w rfl)
    exact ⟨⟨complete', updated here fun q => (sure q).mono advances.map⟩, advances⟩
  | kill => exact ⟨⟨complete, updated trivial sure⟩, .refl _⟩

/--
Pushes between which nothing comes keep the published refs complete, and only move them forward.
-/
theorem undisturbed_pushes_guard {s : Pushing P} (start : graph.Complete s.share)
    (idle : ∀ p, s.tasks p = .idle) {events : List (P × PushEvent)}
    (permitted : (pushing P).Permits graph.Careful s events) : graph.Guards s events := by
  -- The invariant holds after the first steps, and the step lemma says the rest of the next.
  intro first later parts
  rw [parts, Machine.permits_append] at permitted
  have sound : graph.Sound ((pushing P).run s first) := by
    refine Machine.run_invariant ⟨start, ?_⟩ permitted.1 fun _ _ careful kept =>
      (step_sound careful kept).1
    intro p
    rw [idle p]
    trivial
  refine ⟨sound.1, ?_⟩
  -- The next step is permitted where the first ones end.
  rintro e more rfl
  rw [Machine.run_append]
  exact (step_sound permitted.2.1 sound).2

end

end GitGraph

section

/-- The object named by one number. -/
def gitOid (n : UInt8) : GitOid := ⟨List.replicate gitOidLen n, List.length_replicate⟩

/-- A commit, and others that come after it and know nothing of each other. -/
def forkedGraph : GitGraph := ⟨fun a b => b = a ∨ b = gitOid 0, fun a _ => a = gitOid 0⟩

/-- Whether git is honest about that history is checked answer by answer. -/
instance (g : GitShare) (w : PushWorld) :
    (task : PushTask) → Decidable (forkedGraph.Honest g w task)
  | .testing _ _ _ old =>
    inferInstanceAs (Decidable (∀ before, old = some before → w.ancestor = .ok true →
      before = gitOid 0))
  | .loading _ new _ =>
    decidable_of_iff (∀ listed ∈ w.listed.toOption, (new ∈ listed ∧ gitOid 0 ∈ listed) ∧
        ∀ map ∈ (g.loadMap w).toOption, ∀ contents ∈ w.contents.toOption,
          contents.length = (OidMap.lacking map listed).length) (by
      have reached (listed : List GitOid) : (new ∈ listed ∧ gitOid 0 ∈ listed) ↔
          ∀ o, forkedGraph.reaches new o → o ∈ listed := by
        simp [forkedGraph]
      simp only [except_mem_toOption, reached]
      rfl)
  | .idle | .reading .. | .storing .. | .writing .. => isTrue trivial

instance (s : Pushing Bool) (e : Bool × PushEvent) : Decidable (forkedGraph.Allowed s e) :=
  match e with
  | (_, .push spec _) =>
    decidable_of_iff (∀ parsed ∈ (parsePushSpec spec).toOption, parsed.force = false) (by
      simp only [except_mem_toOption]
      rfl)
  | (p, .go w) => inferInstanceAs (Decidable (forkedGraph.Honest s.share w (s.tasks p)))
  | (_, .kill) => isTrue trivial

/-- A namespace in which that commit is published. -/
def basePublished : Pushing Bool where
  share := ⟨(∅ : OrdMap String GitOid).insert "refs/heads/main" (gitOid 0),
    (∅ : OidMap).insert (gitOid 0) ⟨Digest.zero, .commit, 0⟩⟩
  tasks _ := .idle

/-- Surroundings in which everything works, for a push of one commit that comes after the first. -/
def pushWorld (n : UInt8) : PushWorld :=
  ⟨.ok (), .ok (), .ok true, .ok [gitOid n, gitOid 0], .ok [.object .commit []], .ok Digest.zero⟩

instance (g : GitShare) : (task : PushTask) → Decidable (GitGraph.Undisturbed g task)
  | .storing _ _ _ base _ [] =>
    decidable_of_iff (g.map.toList = base.toList) Std.ExtTreeMap.toList_inj
  | .writing dst _ old => inferInstanceAs (Decidable (g.refs[dst]? = old))
  | .storing _ _ _ _ _ (_ :: _) | .idle | .reading .. | .testing .. | .loading .. => isTrue trivial

instance (s : Pushing Bool) (e : Bool × PushEvent) : Decidable (forkedGraph.Careful s e) :=
  match e with
  | (p, .go w) =>
    decidable_of_iff (forkedGraph.Allowed s (p, .go w) ∧ GitGraph.Undisturbed s.share (s.tasks p))
      ⟨fun ⟨allowed, still⟩ => ⟨allowed, fun _ _ => still⟩,
        fun ⟨allowed, still⟩ => ⟨allowed, still w rfl⟩⟩
  | (p, .push spec source) =>
    decidable_of_iff (forkedGraph.Allowed s (p, .push spec source))
      ⟨fun allowed => ⟨allowed, fun _ impossible => nomatch impossible⟩, fun careful => careful.1⟩
  | (_, .kill) => isTrue ⟨trivial, fun _ impossible => nomatch impossible⟩

/-- The published base is complete: the map lists both of its objects. -/
theorem complete_basePublished : forkedGraph.Complete basePublished.share := by
  -- Only one reference is published, and it reaches the two objects of the map.
  intro name oid published o reached
  simp only [basePublished, Std.ExtTreeMap.getElem?_insert] at published
  split at published
  · obtain rfl := Option.some.inj published
    rcases reached with rfl | rfl <;> simp [basePublished]
  · simp at published

/-- One push from start to end, and then another one. -/
theorem pushes_in_turn_guard : forkedGraph.Guards basePublished
    ((false, .push "main:refs/heads/side" (.ok (gitOid 1))) :: List.replicate 6 (false,
      .go (pushWorld 1)) ++
      (true, .push "main:refs/heads/main" (.ok (gitOid 2))) :: List.replicate 6 (true,
        .go (pushWorld 2))) :=
  GitGraph.undisturbed_pushes_guard complete_basePublished (fun _ => rfl) (by decide)

/-- One process pushes from start to end between the loading and the saving of the other. -/
def crossedPushes : List (Bool × PushEvent) :=
  let push (p : Bool) (n : UInt8) : Bool × PushEvent :=
    (p, .push "main:refs/heads/main" (.ok (gitOid n)))
  let go (p : Bool) (n : UInt8) : Bool × PushEvent := (p, .go (pushWorld n))
  [push true 2, go true 2, go true 2, go true 2, go true 2,
    push false 1, go false 1, go false 1, go false 1, go false 1, go false 1, go false 1,
    go true 2, go true 2]

/--
Two honest fast-forwards of one ref: the map forgets what the first published, and
the ref leaves it.
-/
theorem crossed_pushes_lose_objects :
    (pushing Bool).Permits forkedGraph.Allowed basePublished crossedPushes ∧
      forkedGraph.Complete basePublished.share ∧
        ¬forkedGraph.Guards basePublished crossedPushes := by
  -- The first two parts are evaluated.
  refine ⟨by decide, complete_basePublished, ?_⟩
  intro guards
  -- The second process has saved its map, and the ref still leads to the first one's commit.
  have complete :=
    (guards (crossedPushes.take 13) (crossedPushes.drop 13) (List.take_append_drop _ _).symm).1
  have held := complete "refs/heads/main" (gitOid 1) (by decide) (gitOid 1) (.inl rfl)
  revert held
  decide

end

end NasTools
