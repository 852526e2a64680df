import Mathlib

/-!
# Runs of a system that takes one step after the other

A step either fails, or is not possible in the state, or leads to a new state. A
run is a list of steps. A property that every step under some condition keeps holds
at the end of every run in which each step meets the condition in the state it is
taken in. One system simulates another if each of its steps is matched by some steps of
the other.
-/

namespace Xv6.Runs

variable {State Action Failure : Type} (step : State → Action → Except Failure (Option State))
  {state last : State} {action : Action} {rest steps before : List Action}
  {condition : State → Action → Prop}

/-- The state after a list of steps. There is none when a step fails or is not
possible. -/
def run (state : State) : List Action → Option State
  | [] => some state
  | action :: rest =>
    match step state action with
    | .ok (some after) => run after rest
    | _ => none

/-- Each step of a run meets a condition on the state before it. -/
def Meets (condition : State → Action → Prop) : State → List Action → Prop
  | _, [] => True
  | state, action :: rest => condition state action ∧
      ∀ after, step state action = .ok (some after) → Meets condition after rest

variable {step}

/-- The first step of a run, and the rest. -/
theorem run_cons :
    run step state (action :: rest) = some last ↔
      ∃ after, step state action = .ok (some after) ∧ run step after rest = some last := by
  rw [run]
  split
  · rename_i after taken
    simp [taken]
  · rename_i stuck
    simp only [reduceCtorEq, false_iff, not_exists, not_and]
    intro after taken
    exact absurd taken (stuck after)

/-- What every step keeps holds at the end of a run. -/
theorem invariant (holds : State → Prop)
    (kept : ∀ {state after action}, holds state → condition state action →
      step state action = .ok (some after) → holds after) :
    ∀ {state : State}, holds state → Meets step condition state steps →
      run step state steps = some last → holds last := by
  induction steps with
  | nil =>
    rintro state start - ⟨⟩
    exact start
  | cons action rest ih =>
    intro state start meets ran
    obtain ⟨after, taken, ran⟩ := Iff.mp run_cons ran
    exact ih (kept start meets.1 taken) (meets.2 after taken) ran

/-- What every step keeps, whatever the step, holds at the end of a run. -/
theorem always (holds : State → Prop)
    (kept : ∀ {state after action}, holds state → step state action = .ok (some after) →
      holds after) :
    ∀ {state : State}, holds state → run step state steps = some last → holds last := by
  induction steps with
  | nil =>
    rintro state start ⟨⟩
    exact start
  | cons action rest ih =>
    intro state start ran
    obtain ⟨after, taken, ran⟩ := Iff.mp run_cons ran
    exact ih (kept start taken) ran

/-- The steps of a run meet a condition when each does in the state it is taken in. -/
theorem meets_iff :
    ∀ {state : State}, Meets step condition state steps ↔
      ∀ before action rest reached, steps = before ++ action :: rest →
        run step state before = some reached → condition reached action := by
  induction steps with
  | nil =>
    intro state
    refine ⟨fun _ before action rest reached split => ?_, fun _ => trivial⟩
    simp at split
  | cons first others ih =>
    intro state
    constructor
    · rintro ⟨meets, later⟩ before action rest reached split ran
      cases before with
      | nil =>
        cases split
        cases ran
        exact meets
      | cons earlier before =>
        cases split
        obtain ⟨after, taken, ran⟩ := Iff.mp run_cons ran
        exact ih.mp (later after taken) before action rest reached rfl ran
    · intro each
      refine ⟨each [] first others state rfl rfl, fun after taken => ?_⟩
      refine ih.mpr fun before action rest reached split ran => ?_
      exact each (first :: before) action rest reached (by rw [split]; rfl)
        (Iff.mpr run_cons ⟨after, taken, ran⟩)

/-- One condition gives another along a run, where an invariant that the other keeps is
at hand. -/
theorem Meets.imp (holds : State → Prop) {other : State → Action → Prop}
    (imp : ∀ {state action}, holds state → condition state action → other state action)
    (kept : ∀ {state after action}, holds state → other state action →
      step state action = .ok (some after) → holds after) :
    ∀ {state : State}, holds state → Meets step condition state steps →
      Meets step other state steps := by
  induction steps with
  | nil => exact fun _ _ => trivial
  | cons action rest ih =>
    intro state start meets
    have first := imp start meets.1
    refine ⟨first, fun after taken => ?_⟩
    exact ih (kept start first taken) (meets.2 after taken)

variable (step) in
/-- Whether the steps of a run meet a condition that can be decided. -/
def check (condition : State → Action → Bool) : State → List Action → Bool
  | _, [] => true
  | state, action :: rest => condition state action &&
      match step state action with
      | .ok (some after) => check condition after rest
      | _ => true

theorem Meets.of_check {decider : State → Action → Bool}
    (decides : ∀ state action, decider state action = true → condition state action) :
    ∀ {state : State}, check step decider state steps = true → Meets step condition state steps := by
  induction steps with
  | nil => exact fun _ => trivial
  | cons action rest ih =>
    intro state checked
    rw [check, Bool.and_eq_true_iff] at checked
    refine ⟨decides state action checked.1, fun after taken => ?_⟩
    have later := checked.2
    rw [taken] at later
    exact ih later

/-- A run in two parts. -/
theorem run_append :
    ∀ {state : State}, run step state (before ++ rest) = some last ↔
      ∃ middle, run step state before = some middle ∧ run step middle rest = some last := by
  induction before with
  | nil =>
    intro state
    simp [run]
  | cons action before ih =>
    intro state
    rw [List.cons_append, run_cons]
    constructor
    · rintro ⟨after, taken, ran⟩
      obtain ⟨middle, first, second⟩ := ih.mp ran
      exact ⟨middle, Iff.mpr run_cons ⟨after, taken, first⟩, second⟩
    · rintro ⟨middle, first, second⟩
      obtain ⟨after, taken, first⟩ := Iff.mp run_cons first
      exact ⟨after, taken, ih.mpr ⟨middle, first, second⟩⟩

variable (step) in
/-- Some steps lead from one state to another. -/
def Reaches (state last : State) : Prop := ∃ steps, run step state steps = some last

theorem Reaches.refl (state : State) : Reaches step state state := ⟨[], rfl⟩

theorem Reaches.single (taken : step state action = .ok (some last)) : Reaches step state last :=
  ⟨[action], Iff.mpr run_cons ⟨last, taken, rfl⟩⟩

theorem Reaches.trans {middle : State} (first : Reaches step state middle)
    (second : Reaches step middle last) : Reaches step state last := by
  obtain ⟨before, ran⟩ := first
  obtain ⟨rest, ranOn⟩ := second
  exact ⟨before ++ rest, Iff.mpr run_append ⟨middle, ran, ranOn⟩⟩

/-- If each step from a state with an image is matched by some steps from the image, so is
each run. -/
theorem Reaches.simulate {Image Move Panic : Type}
    {move : Image → Move → Except Panic (Option Image)} (related : State → Image → Prop)
    (matched : ∀ {state after action image}, related state image →
      step state action = .ok (some after) → ∃ next, Reaches move image next ∧ related after next)
    {image : Image} (start : related state image) (ran : run step state steps = some last) :
    ∃ next, Reaches move image next ∧ related last next := by
  refine always (fun state => ∃ next, Reaches move image next ∧ related state next) ?_
    ⟨image, .refl image, start⟩ ran
  rintro state after action ⟨middle, reached, holds⟩ taken
  obtain ⟨next, further, holds⟩ := matched holds taken
  exact ⟨next, reached.trans further, holds⟩

/-- The steps of a part of a run meet what those of the whole run meet. -/
theorem Meets.of_append {middle : State} (meets : Meets step condition state (before ++ rest))
    (ran : run step state before = some middle) :
    Meets step condition state before ∧ Meets step condition middle rest := by
  rw [meets_iff] at meets
  constructor
  · rw [meets_iff]
    intro first action others reached split ranFirst
    exact meets first action (others ++ rest) reached (by simp [split]) ranFirst
  · rw [meets_iff]
    intro first action others reached split ranFirst
    exact meets (before ++ first) action others reached (by simp [split])
      (Iff.mpr run_append ⟨middle, ran, ranFirst⟩)

/-- The first states of a run are those before its first step and the first states of
the rest. -/
theorem visits_cons {good : State → Prop} {after : State}
    (taken : step state action = .ok (some after)) :
    (∀ k reached, run step state ((action :: rest).take k) = some reached → good reached) ↔
      good state ∧ ∀ k reached, run step after (rest.take k) = some reached → good reached := by
  constructor
  · intro visits
    refine ⟨visits 0 state rfl, ?_⟩
    intro k reached ran
    exact visits (k + 1) reached (Iff.mpr run_cons ⟨after, taken, ran⟩)
  · rintro ⟨first, visits⟩ k reached ran
    cases k with
    | zero =>
      cases ran
      exact first
    | succ k =>
      obtain ⟨middle, again, ran⟩ := Iff.mp run_cons ran
      rw [taken] at again
      cases again
      exact visits k reached ran

/-- When a step that does not meet the condition always leaves a bad state behind, the
states of a run are good exactly when its steps meet the condition. -/
theorem visits_iff_meets (holds good : State → Prop) (sound : ∀ {state}, holds state → good state)
    (kept : ∀ {state after action}, holds state → condition state action →
      step state action = .ok (some after) → holds after)
    (sharp : ∀ {state after action}, holds state → ¬ condition state action →
      step state action = .ok (some after) → ¬ good after) :
    ∀ {state : State}, holds state → run step state steps = some last →
      ((∀ k reached, run step state (steps.take k) = some reached → good reached) ↔
        Meets step condition state steps) := by
  induction steps with
  | nil =>
    intro state start _
    refine ⟨fun _ => trivial, ?_⟩
    rintro - k reached ran
    rw [List.take_nil] at ran
    cases ran
    exact sound start
  | cons action rest ih =>
    intro state start ran
    obtain ⟨after, taken, ran⟩ := Iff.mp run_cons ran
    rw [visits_cons taken]
    by_cases meets : condition state action
    · have rest := ih (kept start meets taken) ran
      rw [rest]
      constructor
      · rintro ⟨_, meetsRest⟩
        refine ⟨meets, ?_⟩
        intro other again
        rw [taken] at again
        cases again
        exact meetsRest
      · intro all
        exact ⟨sound start, all.2 after taken⟩
    · constructor
      · rintro ⟨_, visits⟩
        exact absurd (visits 0 after rfl) (sharp start meets taken)
      · intro all
        exact absurd all.1 meets

/-- A system whose steps do not fail. -/
def unfailing (step : State → Action → Option State) (state : State) (action : Action) :
    Except Empty (Option State) :=
  .ok (step state action)

@[simp] theorem unfailing_ok {step : State → Action → Option State} {after : Option State} :
    unfailing step state action = .ok after ↔ step state action = after := by
  simp [unfailing]

/-! Literals of the small types that name the processes of a concrete run. -/

instance one_ne_zero : NeZero 1 := ⟨Nat.one_ne_zero⟩

instance two_ne_zero : NeZero 2 := ⟨Nat.succ_ne_zero 1⟩

end Xv6.Runs
