import Mathlib

/-!
# Computations that may fail

A chain of fallible steps that succeeds is a chain of steps that each succeed, and one that
fails has a step that fails. A computation may also leave a trace: it gives a value or fails,
and either way there is the list of events that happened until then. The events of a sequence
are those of its first part and, if that part gives a value, those of the second.
-/

/-- A composite that succeeds had a first part that succeeded. -/
theorem Except.of_bind_ok {ε α β : Type} {first : Except ε α} {rest : α → Except ε β} {result : β}
    (ran : first >>= rest = .ok result) :
    ∃ value, first = .ok value ∧ rest value = .ok result := by
  cases first with
  | error message => cases ran
  | ok value => exact ⟨value, rfl, ran⟩

/-- A composite that fails has a first part that fails or a second part that does. -/
theorem Except.of_bind_error {ε α β : Type} {first : Except ε α} {rest : α → Except ε β}
    {message : ε} (failed : first >>= rest = .error message) :
    first = .error message ∨ ∃ value, first = .ok value ∧ rest value = .error message := by
  cases first with
  | error other =>
    cases failed
    exact Or.inl rfl
  | ok value => exact Or.inr ⟨value, rfl, failed⟩

/-- The events of a computation and its result. -/
structure Traced (Event Failure Value : Type) where
  events : List Event
  result : Except Failure Value

namespace Traced

variable {Event Failure Value Other : Type}

/-- A computation without events. -/
def lift (result : Except Failure Value) : Traced Event Failure Value := ⟨[], result⟩

/-- Give a value without an event. -/
def done (value : Value) : Traced Event Failure Value := lift (.ok value)

/-- Fail without an event. -/
def fail (failure : Failure) : Traced Event Failure Value := lift (.error failure)

/-- Let events happen and go on. -/
def after (events : List Event) (rest : Traced Event Failure Value) :
    Traced Event Failure Value :=
  ⟨events ++ rest.events, rest.result⟩

/-- One computation after the other. -/
def andThen (first : Traced Event Failure Value) (rest : Value → Traced Event Failure Other) :
    Traced Event Failure Other :=
  match first.result with
  | .ok value => ⟨first.events ++ (rest value).events, (rest value).result⟩
  | .error failure => ⟨first.events, .error failure⟩

@[simp] theorem events_done (value : Value) :
    (done value : Traced Event Failure Value).events = [] := rfl

@[simp] theorem result_done (value : Value) :
    (done value : Traced Event Failure Value).result = .ok value := rfl

@[simp] theorem result_fail (failure : Failure) :
    (fail failure : Traced Event Failure Value).result = .error failure := rfl

@[simp] theorem result_after (events : List Event) (rest : Traced Event Failure Value) :
    (after events rest).result = rest.result := rfl

@[simp] theorem events_fail (failure : Failure) :
    (fail failure : Traced Event Failure Value).events = [] := rfl

@[simp] theorem events_after (events : List Event) (rest : Traced Event Failure Value) :
    (after events rest).events = events ++ rest.events := rfl

theorem after_done (events : List Event) (value : Value) :
    (after events (done value) : Traced Event Failure Value) = ⟨events, .ok value⟩ := by
  rw [after, events_done, List.append_nil, result_done]

/-- A value computed at the end adds no event. -/
@[simp] theorem events_andThen_done (first : Traced Event Failure Value) (value : Value → Other) :
    (first.andThen fun found => done (value found)).events = first.events := by
  unfold andThen
  split <;> simp

variable {first : Traced Event Failure Value} {rest : Value → Traced Event Failure Other}

theorem result_andThen :
    (first.andThen rest).result = first.result >>= fun value => (rest value).result := by
  unfold andThen
  split
  · rename_i value is
    rw [is]
    rfl
  · rename_i failure is
    rw [is]
    rfl

theorem lift_andThen {result : Except Failure Value} {value : Value} (is : result = .ok value) :
    (lift result).andThen rest = rest value := by
  rw [is]
  rfl

theorem andThen_of_ok {value : Value} (is : first.result = .ok value) :
    first.andThen rest = after first.events (rest value) := by
  rw [andThen, is]
  rfl

theorem events_subset_andThen : first.events ⊆ (first.andThen rest).events := by
  unfold andThen
  split
  · exact List.subset_append_left ..
  · exact List.Subset.refl _

/-- What holds of the events of both parts holds of those of the sequence. -/
theorem forall_andThen {property : Event → Prop}
    (before : ∀ event ∈ first.events, property event)
    (later : ∀ value, ∀ event ∈ (rest value).events, property event) :
    ∀ event ∈ (first.andThen rest).events, property event := by
  intro event happened
  unfold andThen at happened
  split at happened
  · rcases List.mem_append.mp happened with early | late
    · exact before event early
    · exact later _ event late
  · exact before event happened

/-- A computation that gives a value and whose events all have a property. -/
def Only (property : Event → Prop) (computation : Traced Event Failure Value) : Prop :=
  (∃ value, computation.result = .ok value) ∧ ∀ event ∈ computation.events, property event

variable {property : Event → Prop}

theorem only_done (value : Value) : (done value : Traced Event Failure Value).Only property :=
  ⟨⟨value, rfl⟩, by simp⟩

theorem only_after {events : List Event} (good : ∀ event ∈ events, property event) :
    (after events first).Only property ↔ first.Only property := by
  refine and_congr_right fun _ => ?_
  rw [events_after, List.forall_mem_append]
  exact and_iff_right good

/-- The first part of a sequence. -/
theorem Only.of_andThen (only : (first.andThen rest).Only property) : first.Only property := by
  obtain ⟨⟨value, ended⟩, good⟩ := only
  rw [result_andThen] at ended
  obtain ⟨early, isEarly, -⟩ := Except.of_bind_ok ended
  exact ⟨⟨early, isEarly⟩, fun event happened => good event (events_subset_andThen happened)⟩

end Traced
