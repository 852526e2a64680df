import Xv6.Ptable.Model

/-!
# The family of processes

What `fork`, `exit` and `wait` mean, in terms of processes and not of slots: a process
has the guardian that forked it, its orphans go to the first process when it exits, and
it leaves the family when it is waited for. A process is told from others by its pid,
which is never given twice. The family is read off the recorded events alone.
-/

namespace Xv6.Ptable

open List

variable {Cpu : Type} {init pid : Nat} {events : List (Event Cpu)} {event : Event Cpu}

/-- How an event changes who is whose guardian. -/
def guard (init : Nat) (family : Nat → Option Nat) : Event Cpu → Nat → Option Nat
  | .fork parent child => Function.update family child (some parent)
  | .exit pid => fun child => if family child = some pid then some init else family child
  | .wait _ child _ _ => Function.update family child none
  | .childless _ _ => family

/-- The guardian of each process that was forked and not waited for. -/
def family (init : Nat) (events : List (Event Cpu)) : Nat → Option Nat :=
  events.foldl (guard init) fun _ => none

@[simp] theorem family_nil (init : Nat) : family init ([] : List (Event Cpu)) = fun _ => none :=
  rfl

@[simp] theorem family_snoc (init : Nat) (events : List (Event Cpu)) (event : Event Cpu) :
    family init (events ++ [event]) = guard init (family init events) event := by
  rw [family, foldl_append]
  rfl

/-- Some `wait` has returned the process. -/
def Reaped (events : List (Event Cpu)) (child : Nat) : Prop :=
  ∃ parent slot current, .wait parent child slot current ∈ events

/-- The process has called `exit`. -/
def Exited (events : List (Event Cpu)) (pid : Nat) : Prop := .exit pid ∈ events

/-- An event that may come next. A `wait` returns a child of its caller that has exited
and that no `wait` returned before, while no CPU runs in its slot; it fails only without
children or when the caller was killed. -/
def Lawful (init : Nat) (before : List (Event Cpu)) : Event Cpu → Prop
  | .wait parent child slot current => family init before child = some parent ∧
      Exited before child ∧ ¬ Reaped before child ∧ ∀ c, current c ≠ some slot
  | .childless pid killed => killed = true ∨ ∀ child, family init before child ≠ some pid
  | _ => True

/-- Every event was lawful when it came. -/
def History (init : Nat) (events : List (Event Cpu)) : Prop :=
  ∀ before event after, events = before ++ event :: after → Lawful init before event

theorem History.nil (init : Nat) : History init ([] : List (Event Cpu)) := by
  intro before event after split
  simp at split

theorem History.snoc (history : History init events) (lawful : Lawful init events event) :
    History init (events ++ [event]) := by
  intro before next after split
  rcases eq_nil_or_concat after with none | ⟨rest, last, some⟩
  · subst none
    obtain ⟨same, ⟨⟩⟩ := append_inj' split rfl
    exact same ▸ lawful
  · subst some
    refine history before next rest ?_
    have longer : events ++ [event] = before ++ next :: rest ++ [last] := by
      rw [split]
      simp
    exact (append_inj' longer rfl).1

theorem reaped_snoc :
    Reaped (events ++ [event]) pid ↔
      Reaped events pid ∨ ∃ parent slot current, event = .wait parent pid slot current := by
  constructor
  · rintro ⟨parent, slot, current, member⟩
    rcases mem_append.mp member with before | last
    · exact .inl ⟨parent, slot, current, before⟩
    · exact .inr ⟨parent, slot, current, (mem_singleton.mp last).symm⟩
  · rintro (⟨parent, slot, current, member⟩ | ⟨parent, slot, current, last⟩)
    · exact ⟨parent, slot, current, mem_append_left _ member⟩
    · exact ⟨parent, slot, current, by simp [last]⟩

theorem exited_snoc :
    Exited (events ++ [event]) pid ↔ Exited events pid ∨ event = .exit pid := by
  constructor
  · intro member
    rcases mem_append.mp member with before | last
    · exact .inl before
    · exact .inr (mem_singleton.mp last).symm
  · rintro (before | rfl)
    · exact mem_append_left _ before
    · exact mem_append_right _ (mem_singleton.mpr rfl)

/-- In a lawful history no two `wait`s return the same process. -/
theorem History.reaped_once {before after : List (Event Cpu)} {parent child slot : Nat}
    {current : Cpu → Option Nat} (history : History init events)
    (split : events = before ++ .wait parent child slot current :: after) :
    ¬ Reaped before child ∧ ¬ Reaped after child := by
  refine ⟨(history _ _ _ split).2.2.1, ?_⟩
  rintro ⟨other, place, running, member⟩
  obtain ⟨between, rest, part⟩ := append_of_mem member
  have again := history (before ++ .wait parent child slot current :: between)
    (.wait other child place running) rest (by rw [split, part]; simp)
  exact again.2.2.1 ⟨parent, slot, current, by simp⟩

end Xv6.Ptable
