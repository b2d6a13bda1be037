import JarRemap.Files.Session
import JarRemap.Proofs.Runs

/-!
# Following work on files

Work on files ends in an outcome and a session. `Works invariant allowed act` says that `act`, begun where the
invariant holds, takes only allowed steps, each judged by the tree it is taken in, and ends where the invariant
holds again, whether or not it succeeds. Each function has one such law, made from the laws of its parts.
-/
namespace JarRemap

open List

variable {α β : Type} {step : FileStep}

namespace Session

def advance (session : Session) (step : FileStep) : Session :=
  ⟨step.apply session.tree, step :: session.steps⟩

@[simp] theorem advance_tree (session : Session) (step : FileStep) :
    (session.advance step).tree = step.apply session.tree := rfl

@[simp] theorem advance_steps (session : Session) (step : FileStep) :
    (session.advance step).steps = step :: session.steps := rfl

/-- One step that is allowed in the tree it is taken in. -/
def Moves (allowed : FileTree → FileStep → Prop) (before after : Session) : Prop :=
  ∃ step, allowed before.tree step ∧ after = before.advance step

def Trail (allowed : FileTree → FileStep → Prop) : Session → Session → Prop :=
  Relation.ReflTransGen (Moves allowed)

namespace Trail

variable {allowed wider : FileTree → FileStep → Prop} {before middle after : Session}

theorem refl (session : Session) : Trail allowed session session := Relation.ReflTransGen.refl

theorem trans (start : Trail allowed before middle) (finish : Trail allowed middle after) :
    Trail allowed before after := Relation.ReflTransGen.trans start finish

theorem single (permitted : allowed before.tree step) : Trail allowed before (before.advance step) :=
  Relation.ReflTransGen.single ⟨step, permitted, rfl⟩

theorem mono (widens : ∀ tree step, allowed tree step → wider tree step)
    (trail : Trail allowed before after) : Trail wider before after := by
  have widened : Moves allowed ≤ Moves wider := fun _ _ ⟨step, permitted, moved⟩ => ⟨step, widens _ _ permitted, moved⟩
  exact Relation.ReflTransGen.mono widened _ _ trail

theorem eq_of_none (trail : Trail (fun _ _ => False) before after) : after = before := by
  induction trail with
  | refl => rfl
  | tail _ moved => exact moved.choose_spec.1.elim

theorem keeps (trail : Trail allowed before after) (Holds : Session → Prop) (start : Holds before)
    (each : ∀ session step, Holds session → allowed session.tree step → Holds (session.advance step)) :
    Holds after := by
  induction trail with
  | refl => exact start
  | tail _ moved ih =>
    obtain ⟨step, permitted, rfl⟩ := moved
    exact each _ step ih permitted

/-- A way of comparing trees that every allowed step respects compares the first tree with the last. -/
theorem relates (trail : Trail allowed before after) (Related : FileTree → FileTree → Prop)
    (same : ∀ tree, Related tree tree)
    (chain : ∀ {first second third}, Related first second → Related second third → Related first third)
    (each : ∀ tree step, allowed tree step → Related tree (step.apply tree)) : Related before.tree after.tree :=
  trail.keeps (fun session => Related before.tree session.tree) (same _)
    fun session step reached permitted => chain reached (each session.tree step permitted)

end Trail

end Session

open Session

namespace FileM

variable {before after : Session} {act first : FileM α} {outcome : Outcome α} {next : α → FileM β}
  {handle : Failure → FileM α} {tree : FileTree}

/-- The work, begun in `before`, comes to the outcome and leaves `after`. -/
def Ends (act : FileM α) (before : Session) (outcome : Outcome α) (after : Session) : Prop :=
  act before = (outcome, after)

theorem exists_ends (act : FileM α) (before : Session) : ∃ outcome after, act.Ends before outcome after := ⟨_, _, rfl⟩

theorem Ends.unique {first second : Outcome α} {afterFirst afterSecond : Session}
    (left : act.Ends before first afterFirst) (right : act.Ends before second afterSecond) :
    first = second ∧ afterFirst = afterSecond := by
  have same : (first, afterFirst) = (second, afterSecond) := Eq.trans (Eq.symm left) right
  simpa using same

theorem runOn_eq {last : FileTree} {steps : List FileStep} : act.runOn tree = (outcome, last, steps) ↔
      ∃ after, act.Ends ⟨tree, []⟩ outcome after ∧ after.tree = last ∧ after.steps.reverse = steps := by
  change ((act ⟨tree, []⟩).1, (act ⟨tree, []⟩).2.tree, (act ⟨tree, []⟩).2.steps.reverse) = _ ↔
    ∃ after, act ⟨tree, []⟩ = (outcome, after) ∧ _
  obtain ⟨reached, session⟩ := act ⟨tree, []⟩
  simp only [Prod.mk.injEq]
  constructor
  · rintro ⟨rfl, rfl, rfl⟩
    exact ⟨session, rfl, rfl, rfl⟩
  · rintro ⟨after, same, rfl, rfl⟩
    cases same
    exact ⟨rfl, rfl, rfl⟩

theorem runOn_of_ends (ended : act.Ends ⟨tree, []⟩ outcome after) :
    act.runOn tree = (outcome, after.tree, after.steps.reverse) :=
  runOn_eq.mpr ⟨after, ended, rfl, rfl⟩

section ends

variable {result : Except FileFault α} {value : α} {context : Context}

theorem ends_bind {outcome : Outcome β} : (first >>= next).Ends before outcome after ↔
      (∃ failure, first.Ends before (.error failure) after ∧ outcome = .error failure) ∨
      ∃ value middle, first.Ends before (.ok value) middle ∧ (next value).Ends middle outcome after := by
  change ExceptT.bindCont (m := StateM Session) next (first before).1 (first before).2 = _ ↔
    (∃ failure, first before = (.error failure, after) ∧ _) ∨ ∃ value middle, first before = (.ok value, middle) ∧ _
  obtain ⟨reached, middle⟩ := first before
  cases reached with
  | error failure =>
    change ((.error failure, middle) : Outcome β × Session) = _ ↔ _
    constructor
    · intro stopped
      cases stopped
      exact .inl ⟨failure, rfl, rfl⟩
    · rintro (⟨_, same, rfl⟩ | ⟨_, _, same, _⟩)
      · cases same
        rfl
      · cases same
  | ok value =>
    change next value middle = _ ↔ _
    constructor
    · intro continued
      exact .inr ⟨value, middle, rfl, continued⟩
    · rintro (⟨_, same, _⟩ | ⟨_, _, same, continued⟩)
      · cases same
      · cases same
        exact continued

@[simp] theorem ends_bind_ok {result : β} : (first >>= next).Ends before (.ok result) after ↔
      ∃ value middle, first.Ends before (.ok value) middle ∧ (next value).Ends middle (.ok result) after := by
  simp [ends_bind]

@[simp] theorem ends_pure :
    (pure value : FileM α).Ends before outcome after ↔ outcome = .ok value ∧ after = before := by
  change ((.ok value, before) : Outcome α × Session) = (outcome, after) ↔ _
  simp only [Prod.mk.injEq, eq_comm]

@[simp] theorem ends_map {change : α → β} {outcome : Outcome β} : (change <$> act).Ends before outcome after ↔
      ∃ reached, act.Ends before reached after ∧ outcome = change <$> reached := by
  rw [← bind_pure_comp, ends_bind]
  constructor
  · rintro (⟨failure, stopped, rfl⟩ | ⟨value, middle, given, finished⟩)
    · exact ⟨_, stopped, rfl⟩
    · obtain ⟨rfl, rfl⟩ := ends_pure.mp finished
      exact ⟨_, given, rfl⟩
  · rintro ⟨reached | value, ended, rfl⟩
    · exact .inl ⟨_, ended, rfl⟩
    · exact .inr ⟨value, after, ended, ends_pure.mpr ⟨rfl, rfl⟩⟩

@[simp] theorem ends_throw {failure : Failure} :
    (throw failure : FileM α).Ends before outcome after ↔ outcome = .error failure ∧ after = before := by
  change ((.error failure, before) : Outcome α × Session) = (outcome, after) ↔ _
  simp only [Prod.mk.injEq, eq_comm]

@[simp] theorem ends_fail {cause : Cause} :
    (fail cause : FileM α).Ends before outcome after ↔ outcome = .error (.of cause) ∧ after = before :=
  ends_throw

theorem tryCatch_apply {reached : Outcome α} (handle : Failure → FileM α) (ended : act.Ends before reached after) :
    tryCatch act handle before = match reached with
      | .ok value => (.ok value, after)
      | .error failure => handle failure after := by
  rw [Ends] at ended
  change ExceptT.tryCatch act handle before = _
  simp only [ExceptT.tryCatch, ExceptT.mk, bind, StateT.bind, ended]
  cases reached <;> rfl

theorem ends_tryCatch : (tryCatch act handle).Ends before outcome after ↔
      (∃ value, act.Ends before (.ok value) after ∧ outcome = .ok value) ∨
      ∃ failure middle, act.Ends before (.error failure) middle ∧ (handle failure).Ends middle outcome after := by
  obtain ⟨reached, middle, ended⟩ := act.exists_ends before
  rw [Ends, tryCatch_apply handle ended]
  cases reached with
  | error failure =>
    constructor
    · intro handled
      exact .inr ⟨failure, middle, ended, handled⟩
    · rintro (⟨_, given, _⟩ | ⟨_, _, stopped, handled⟩)
      · cases (ended.unique given).1
      · obtain ⟨⟨⟩, rfl⟩ := ended.unique stopped
        exact handled
  | ok value =>
    constructor
    · intro given
      cases given
      exact .inl ⟨value, ended, rfl⟩
    · rintro (⟨_, given, rfl⟩ | ⟨_, _, stopped, _⟩)
      · obtain ⟨⟨⟩, rfl⟩ := ended.unique given
        rfl
      · cases (ended.unique stopped).1

@[simp] theorem ends_within : (within context act).Ends before outcome after ↔
      ∃ reached, act.Ends before reached after ∧ outcome = reached.within context := by
  rw [within, ends_tryCatch]
  constructor
  · rintro (⟨value, given, rfl⟩ | ⟨failure, middle, stopped, thrown⟩)
    · exact ⟨_, given, rfl⟩
    · obtain ⟨rfl, rfl⟩ := ends_throw.mp thrown
      exact ⟨_, stopped, rfl⟩
  · rintro ⟨failure | value, ended, rfl⟩
    · exact .inr ⟨failure, after, ended, ends_throw.mpr ⟨rfl, rfl⟩⟩
    · exact .inl ⟨value, ended, rfl⟩

@[simp] theorem ends_within_ok :
    (within context act).Ends before (.ok value) after ↔ act.Ends before (.ok value) after := by
  rw [ends_within]
  constructor
  · rintro ⟨reached, ended, same⟩
    rwa [Outcome.within_eq_ok.mp same.symm] at ended
  · intro ended
    exact ⟨_, ended, rfl⟩

@[simp] theorem ends_ofOutcome {result : Outcome α} :
    (ofOutcome result).Ends before outcome after ↔ outcome = result ∧ after = before := by
  cases result with
  | error failure => exact ends_throw
  | ok value => exact ends_pure

@[simp] theorem ends_lift {result : Outcome α} :
    (liftM result : FileM α).Ends before outcome after ↔ outcome = result ∧ after = before :=
  ends_ofOutcome

theorem ends_lift_bind_ok {first : Outcome α} {result : β} :
    ((liftM first : FileM α) >>= next).Ends before (.ok result) after ↔
      ∃ value, first = .ok value ∧ (next value).Ends before (.ok result) after := by
  simp only [ends_bind_ok, ends_lift]
  constructor
  · rintro ⟨value, middle, ⟨given, rfl⟩, rest⟩
    exact ⟨value, given.symm, rest⟩
  · rintro ⟨value, given, rest⟩
    exact ⟨value, before, ⟨given.symm, rfl⟩, rest⟩

@[simp] theorem ends_ofFault : (ofFault result).Ends before outcome after ↔
      outcome = result.mapError (fun fault => .of (.file fault)) ∧ after = before := by
  cases result with
  | error fault => exact ends_fail
  | ok value => exact ends_pure

@[simp] theorem ends_ofFault_ok :
    (ofFault result).Ends before (.ok value) after ↔ result = .ok value ∧ after = before := by
  rw [ends_ofFault]
  cases result <;> simp [Except.mapError, eq_comm]

theorem ends_ofFault_bind {outcome : Outcome β} : (ofFault result >>= next).Ends before outcome after ↔
      (∃ fault, result = .error fault ∧ outcome = .error (.of (.file fault)) ∧ after = before) ∨
      ∃ value, result = .ok value ∧ (next value).Ends before outcome after := by
  rw [ends_bind]
  cases result with
  | error fault => simp [Except.mapError, and_comm]
  | ok value => simp [Except.mapError]

@[simp] theorem ends_tree {outcome : Outcome FileTree} :
    FileM.tree.Ends before outcome after ↔ outcome = .ok before.tree ∧ after = before := by
  change ((.ok before.tree, before) : Outcome FileTree × Session) = (outcome, after) ↔ _
  simp only [Prod.mk.injEq, eq_comm]

@[simp] theorem ends_perform {outcome : Outcome Unit} :
    (perform step).Ends before outcome after ↔ outcome = .ok () ∧ after = before.advance step := by
  change ((.ok (), before.advance step) : Outcome Unit × Session) = (outcome, after) ↔ _
  simp only [Prod.mk.injEq, eq_comm]

theorem ends_tree_bind {next : FileTree → FileM β} {outcome : Outcome β} :
    (FileM.tree >>= next).Ends before outcome after ↔ (next before.tree).Ends before outcome after := by
  rw [ends_bind]
  constructor
  · rintro (⟨failure, looked, _⟩ | ⟨tree, middle, looked, continued⟩)
    · cases (ends_tree.mp looked).1
    · obtain ⟨⟨⟩, rfl⟩ := ends_tree.mp looked
      exact continued
  · intro continued
    exact .inr ⟨_, _, ends_tree.mpr ⟨rfl, rfl⟩, continued⟩

end ends

/-- Begun where the invariant holds, the work takes only allowed steps and keeps the invariant. -/
def Works (invariant : Session → Prop) (allowed : FileTree → FileStep → Prop) (act : FileM α) : Prop :=
  ∀ ⦃before outcome after⦄, invariant before → act.Ends before outcome after →
    Trail allowed before after ∧ invariant after

/-- The work takes only allowed steps, wherever it begins. -/
abbrev Takes (allowed : FileTree → FileStep → Prop) (act : FileM α) : Prop :=
  Works (fun _ => True) allowed act

abbrev Reads (act : FileM α) : Prop := Takes (fun _ _ => False) act

theorem Reads.eq (reads : Reads act) (ended : act.Ends before outcome after) : after = before :=
  (reads trivial ended).1.eq_of_none

theorem Reads.ends_bind (reads : Reads first) {outcome : Outcome β}
    (ended : (first >>= next).Ends before outcome after) :
    (∃ failure, first.Ends before (.error failure) before ∧ outcome = .error failure ∧ after = before) ∨
      ∃ value, first.Ends before (.ok value) before ∧ (next value).Ends before outcome after := by
  rcases FileM.ends_bind.mp ended with ⟨failure, stopped, failed⟩ | ⟨value, middle, read, rest⟩
  · have same : after = before := reads.eq stopped
    rw [same] at stopped
    exact .inl ⟨failure, stopped, failed, same⟩
  · have same : middle = before := reads.eq read
    rw [same] at read rest
    exact .inr ⟨value, read, rest⟩

theorem Reads.ends_bind_ok (reads : Reads first) {result : β}
    (ended : (first >>= next).Ends before (.ok result) after) :
    ∃ value, first.Ends before (.ok value) before ∧ (next value).Ends before (.ok result) after := by
  rcases reads.ends_bind ended with ⟨_, _, failed, _⟩ | given
  · cases failed
  · exact given

theorem Takes.trail (takes : Takes allowed act)
    (ended : act.Ends before outcome after) : Trail allowed before after :=
  (takes trivial ended).1

section works

variable {invariant : Session → Prop} {allowed wider : FileTree → FileStep → Prop} {values : List β}

theorem works_of_reads (reads : Reads act) : Works invariant allowed act := by
  intro before outcome after holds ended
  rw [reads.eq ended]
  exact ⟨.refl _, holds⟩

theorem Works.mono (works : Works invariant allowed act)
    (widens : ∀ tree step, allowed tree step → wider tree step) : Works invariant wider act :=
  fun _ _ _ holds ended => ⟨(works holds ended).1.mono widens, (works holds ended).2⟩

theorem works_pure (value : α) : Works invariant allowed (pure value : FileM α) := by
  intro before outcome after holds ended
  obtain ⟨_, rfl⟩ := ends_pure.mp ended
  exact ⟨.refl _, holds⟩

theorem works_throw (failure : Failure) : Works invariant allowed (throw failure : FileM α) := by
  intro before outcome after holds ended
  obtain ⟨_, rfl⟩ := ends_throw.mp ended
  exact ⟨.refl _, holds⟩

theorem works_fail (cause : Cause) : Works invariant allowed (fail cause : FileM α) := works_throw _

theorem works_ofOutcome (result : Outcome α) : Works invariant allowed (ofOutcome result) := by
  intro before outcome after holds ended
  obtain ⟨_, rfl⟩ := ends_ofOutcome.mp ended
  exact ⟨.refl _, holds⟩

theorem works_lift (result : Outcome α) : Works invariant allowed (liftM result : FileM α) :=
  works_ofOutcome result

theorem works_ofFault (result : Except FileFault α) : Works invariant allowed (ofFault result) := by
  intro before outcome after holds ended
  obtain ⟨_, rfl⟩ := ends_ofFault.mp ended
  exact ⟨.refl _, holds⟩

theorem works_tree : Works invariant allowed FileM.tree := by
  intro before outcome after holds ended
  obtain ⟨_, rfl⟩ := ends_tree.mp ended
  exact ⟨.refl _, holds⟩

theorem Works.bind (start : Works invariant allowed first)
    (step : ∀ value, Works invariant allowed (next value)) : Works invariant allowed (first >>= next) := by
  intro before outcome after holds ended
  rcases ends_bind.mp ended with ⟨failure, stopped, _⟩ | ⟨value, middle, given, continued⟩
  · exact start holds stopped
  · obtain ⟨trail, kept⟩ := start holds given
    obtain ⟨later, settled⟩ := step value kept continued
    exact ⟨trail.trans later, settled⟩

theorem Works.tryCatch (works : Works invariant allowed act)
    (handles : ∀ failure, Works invariant allowed (handle failure)) :
    Works invariant allowed (tryCatch act handle) := by
  intro before outcome after holds ended
  rcases ends_tryCatch.mp ended with ⟨value, given, _⟩ | ⟨failure, middle, stopped, handled⟩
  · exact works holds given
  · obtain ⟨trail, kept⟩ := works holds stopped
    obtain ⟨later, settled⟩ := handles failure kept handled
    exact ⟨trail.trans later, settled⟩

theorem Works.within (context : Context) (works : Works invariant allowed act) :
    Works invariant allowed (within context act) :=
  works.tryCatch fun _ => works_throw _

theorem works_forM {act : β → FileM Unit} (works : ∀ value ∈ values, Works invariant allowed (act value)) :
    Works invariant allowed (values.forM act) := by
  induction values with
  | nil => exact works_pure _
  | cons value values ih =>
    obtain ⟨here, others⟩ := forall_mem_cons.mp works
    exact here.bind fun _ => ih others

theorem works_foldlM {act : α → β → FileM α}
    (works : ∀ value ∈ values, ∀ state, Works invariant allowed (act state value)) (state : α) :
    Works invariant allowed (values.foldlM act state) := by
  induction values generalizing state with
  | nil => exact works_pure _
  | cons value values ih =>
    obtain ⟨here, others⟩ := forall_mem_cons.mp works
    exact (here state).bind fun next => ih others next

/-- What each successful step hands on to the next one holds in the end, of all values that were gone through. -/
theorem ends_foldlM_induction {act : α → β → FileM α} (Holds : List β → α → Session → Prop)
    (step : ∀ {done value state before next after}, value ∈ values → Holds done state before →
      (act state value).Ends before (.ok next) after → Holds (done ++ [value]) next after)
    {state last : α} (start : Holds [] state before)
    (ended : (values.foldlM act state).Ends before (.ok last) after) : Holds values last after := by
  suffices loop : ∀ done, Holds done state before → Holds (done ++ values) last after from loop [] start
  clear start
  induction values generalizing state before with
  | nil =>
    obtain ⟨⟨⟩, rfl⟩ := ends_pure.mp ended
    simp
  | cons value values ih =>
    intro done holds
    obtain ⟨next, middle, first, rest⟩ := ends_bind_ok.mp ended
    have onward := step mem_cons_self holds first
    have all := ih (fun listed => step (mem_cons_of_mem _ listed)) rest _ onward
    rwa [append_assoc] at all

end works

end FileM

end JarRemap
