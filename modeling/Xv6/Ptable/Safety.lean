import Xv6.Ptable.Steps

/-!
# What holds of the process table

The invariant of the table, said in the terms of the source and of the recorded events,
for every table that any number of CPUs can reach from `userinit`.
-/

namespace Xv6.Ptable

variable {Cpu : Type} [DecidableEq Cpu]

omit [DecidableEq Cpu] in
/-- A slot that holds a process that was forked and not waited for. -/
theorem formed_of_state {t : Table Cpu} {p : Nat}
    (used : (t.proc p).state ≠ .unused ∧ (t.proc p).state ≠ .embryo) :
    (t.census.kin p).Formed := by
  cases is : (t.proc p).state <;> simp [Kin.Formed, Table.census, Slot.kin, is, State.life] <;>
    simp [is] at used

/-- Whenever `ptable.lock` is free: a process is running exactly when one CPU has it as
current; every process that has left `fork`, the first apart, has a parent that is neither
unused nor a zombie; a `wait` has returned only a child of its caller that had exited, once,
and freed its pages while no CPU ran in its slot; and no page was freed twice. -/
theorem process_table_safe (steps : List (Action Cpu)) (t : Table Cpu)
    (ran : run userinit steps = some t) :
    (∀ p, (t.proc p).state = .running ↔ ∃! c, t.current c = some p) ∧
    (∀ p, p ≠ t.initproc → (t.proc p).state ≠ .unused → (t.proc p).state ≠ .embryo →
      ∃ q, (t.proc p).parent = some q ∧ (t.proc q).state ≠ .unused ∧
        (t.proc q).state ≠ .zombie) ∧
    (∀ before parent child slot current after,
      t.events = before ++ .wait parent child slot current :: after →
      family (t.proc t.initproc).pid before child = some parent ∧ Exited before child ∧
        ¬ Reaped before child ∧ ¬ Reaped after child ∧ ∀ c, current c ≠ some slot) ∧
    t.freed.Nodup := by
  have sound := run_sound ran
  refine ⟨?_, ?_, ?_, sound.census.ledger.freed_once⟩
  · intro p
    constructor
    · intro running
      obtain ⟨c, on⟩ := sound.running p running
      exact ⟨c, on, fun d other => sound.unique d c p other on⟩
    · rintro ⟨c, on, _⟩
      exact sound.current c p on
  · intro p notInit used formed
    obtain ⟨q, parent⟩ := sound.census.has_parent p (formed_of_state ⟨used, formed⟩) notInit
    have alive : (t.proc q).state.life = .alive := sound.census.parent_alive p q parent
    refine ⟨q, parent, ?_, ?_⟩ <;> intro is <;> simp [is, State.life] at alive
  · intro before parent child slot current after split
    obtain ⟨guardian, exited, once, off⟩ := sound.census.history before _ after split
    exact ⟨guardian, exited, once, (sound.census.history.reaped_once split).2, off⟩

/-- The first process forks on the first of two CPUs and waits; the child runs there and
exits, and the first process finds it when it runs again. -/
def generation : List (Action Bool) :=
  [.scheduler true, .fork true, .resume true true, .resume true true, .resume true true,
    .wait true, .exit true, .scheduler true]

theorem process_table_safe_generation :
    ∃ t, run userinit generation = some t ∧ t.freed = [2, 3] ∧
      t.events.length = 3 ∧
      (∀ p, (t.proc p).state = .running ↔ ∃! c, t.current c = some p) ∧
      (∀ p, p ≠ t.initproc → (t.proc p).state ≠ .unused → (t.proc p).state ≠ .embryo →
        ∃ q, (t.proc p).parent = some q ∧ (t.proc q).state ≠ .unused ∧
          (t.proc q).state ≠ .zombie) ∧
      (∀ before parent child slot current after,
        t.events = before ++ .wait parent child slot current :: after →
        family (t.proc t.initproc).pid before child = some parent ∧ Exited before child ∧
          ¬ Reaped before child ∧ ¬ Reaped after child ∧ ∀ c, current c ≠ some slot) ∧
      t.freed.Nodup :=
  ⟨_, rfl, rfl, rfl, process_table_safe generation _ rfl⟩

/-- Whenever `ptable.lock` is free: a process that sleeps in `wait` has a child, and none
of its children is a zombie. And a `wait` has failed only for a process that was killed or
was nobody's guardian. -/
theorem no_wait_beside_zombie (steps : List (Action Cpu)) (t : Table Cpu)
    (ran : run userinit steps = some t) :
    (∀ p, t.InWait p →
      (∃ q, (t.proc q).parent = some p ∧ (t.proc q).state ≠ .unused) ∧
        ∀ q, (t.proc q).parent = some p → (t.proc q).state ≠ .zombie) ∧
    (∀ before pid killed after, t.events = before ++ .childless pid killed :: after →
      killed = true ∨ ∀ child, family (t.proc t.initproc).pid before child ≠ some pid) := by
  have sound := run_sound ran
  refine ⟨?_, ?_⟩
  · intro p inWait
    refine ⟨?_, fun q => sound.living p q inWait⟩
    obtain ⟨q, child⟩ := sound.child p inWait
    refine ⟨q, child, fun unused => ?_⟩
    have orphan : (t.proc q).parent = none :=
      sound.census.unused_parent q (by simp [Table.census, Slot.kin, unused, State.life])
    rw [orphan] at child
    cases child
  · intro before pid killed after split
    exact sound.census.history before _ after split

/-- The first process has a child, waits for it and sleeps. -/
def vigil : List (Action Bool) :=
  [.scheduler true, .fork true, .resume true true, .resume true true, .resume true true,
    .wait true]

theorem no_wait_beside_zombie_vigil :
    ∃ t, run userinit vigil = some t ∧ t.InWait 0 ∧
      (∃ q, (t.proc q).parent = some 0 ∧ (t.proc q).state ≠ .unused) ∧
      ∀ q, (t.proc q).parent = some 0 → (t.proc q).state ≠ .zombie :=
  ⟨_, rfl, ⟨rfl, rfl⟩, (no_wait_beside_zombie vigil _ rfl).1 0 ⟨rfl, rfl⟩⟩

end Xv6.Ptable
