import Xv6.Ptable.Census

/-!
# Process ids in a counter of 32 bits

The part of `proc.c` that gives pids to slots and takes them back, with `nextpid` as the
`int` that it is. Scheduling leaves pids alone, so a slot has its state up to scheduling,
and any process that is alive may take the next step. A call of `fork` has two: `allocproc`
takes a slot under the lock, and what comes after makes the child runnable or gives the
slot up.

The table is never searched for a pid before it is given away. As long as the counter has
not wrapped around that does no harm. The pid after the largest is the smallest number.
-/

namespace Xv6.Pids

open Function

open Ptable (Life)

/-- The slot of a process, and the slot that its call of `fork` is filling. -/
structure Proc where
  life : Life
  pid : Int
  parent : Option Nat
  making : Option Nat

/-- The table with its counter. It is recorded how many pids were given out, and what calls
of `fork` that succeeded have returned. -/
@[ext] structure Table where
  proc : Nat → Proc
  initproc : Nat
  nextpid : Int
  taken : Nat
  returned : List Int

/-- A number as an `int` of 32 bits. -/
def wrap (n : Int) : Int := (n + 2 ^ 31) % 2 ^ 32 - 2 ^ 31

/-- The steps of the processes. -/
inductive Action where
  /-- `fork` up to the place where `allocproc` releases the lock. -/
  | fork (p : Nat)
  /-- The rest of `fork`, and whether there is memory for the child. -/
  | finish (p : Nat) (succeeds : Bool)
  | exit (p : Nat)
  | wait (p : Nat)

namespace Table

def setProc (t : Table) (p : Nat) (s : Proc) : Table :=
  { t with proc := Function.update t.proc p s }

/-- Take a slot for the process `p`. -/
def allocproc (t : Table) (p : Nat) : Table :=
  match (List.range nproc).find? fun q => (t.proc q).life = .unused with
  | none => t
  | some q =>
    { (t.setProc q { t.proc q with life := .embryo, pid := t.nextpid }).setProc p
        { t.proc p with making := some q } with
      nextpid := wrap (t.nextpid + 1), taken := t.taken + 1 }

/-- The rest of `fork` for the slot `q`. -/
def finish (t : Table) (p q : Nat) (succeeds : Bool) : Table :=
  let slot := t.proc q
  let t := t.setProc p { t.proc p with making := none }
  if succeeds then
    { t.setProc q { slot with life := .alive, parent := some p } with
      returned := t.returned ++ [slot.pid] }
  else t.setProc q { slot with life := .unused }

/-- The children go to the first process, and the caller becomes a zombie. -/
def exit (t : Table) (p : Nat) : Table where
  proc := fun r =>
    { t.proc r with
      parent := if (t.proc r).parent = some p then some t.initproc else (t.proc r).parent
      life := if r = p then .zombie else (t.proc r).life }
  initproc := t.initproc
  nextpid := t.nextpid
  taken := t.taken
  returned := t.returned

/-- One scan of `wait`. -/
def wait (t : Table) (p : Nat) : Table :=
  match (List.range nproc).find? fun q =>
      (t.proc q).parent = some p ∧ (t.proc q).life = .zombie with
  | none => t
  | some q => t.setProc q { t.proc q with life := .unused, pid := 0, parent := none }

/-- The table after `userinit`. -/
def userinit : Table where
  proc := fun p => if p = 0 then ⟨.alive, 1, none, none⟩ else ⟨.unused, 0, none, none⟩
  initproc := 0
  nextpid := 2
  taken := 1
  returned := []

/-- The process may make a system call. -/
def Able (t : Table) (p : Nat) : Prop := (t.proc p).life = .alive ∧ (t.proc p).making = none

instance (t : Table) (p : Nat) : Decidable (t.Able p) :=
  inferInstanceAs (Decidable (_ ∧ _))

end Table

open Table

def step (t : Table) : Action → Except String (Option Table)
  | .fork p => .ok (if t.Able p then some (t.allocproc p) else none)
  | .finish p succeeds => .ok ((t.proc p).making.map fun q => t.finish p q succeeds)
  | .exit p =>
    if t.Able p then if p = t.initproc then .error "init exiting" else .ok (some (t.exit p))
    else .ok none
  | .wait p => .ok (if t.Able p then some (t.wait p) else none)

/-- Pids in use are positive and distinct, and so is what `fork` returned to parents. -/
structure Table.Good (t : Table) : Prop where
  positive : ∀ p, (t.proc p).life ≠ .unused → 0 < (t.proc p).pid
  distinct : ∀ p q, (t.proc p).life ≠ .unused → (t.proc q).life ≠ .unused →
    (t.proc p).pid = (t.proc q).pid → p = q
  returned : ∀ pid ∈ t.returned, 0 < pid

/-- What holds as long as the counter has not wrapped around. -/
structure Table.Numbered (t : Table) : Prop extends Good t where
  given : ∀ p, (t.proc p).life ≠ .unused → (t.proc p).pid ≤ t.taken
  next : t.nextpid = wrap (t.taken + 1)
  making : ∀ p q, (t.proc p).making = some q →
    (t.proc p).life = .alive ∧ (t.proc q).life = .embryo
  maker : ∀ p r q, (t.proc p).making = some q → (t.proc r).making = some q → p = r

variable {t after : Table} {p q : Nat} {action : Action}

/-- A number that fits is its own value. -/
theorem wrap_small {n : Nat} (small : n < 2 ^ 31) : wrap n = n := by
  simp only [wrap]
  omega

/-- The counter goes on from where it is. -/
theorem wrap_succ (n : Int) : wrap (wrap n + 1) = wrap (n + 1) := by
  simp only [wrap]
  omega

/-- What `allocproc` does, if there is a slot. -/
theorem allocproc_cases (t : Table) (p : Nat) : t.allocproc p = t ∨
    ∃ q, (t.proc q).life = .unused ∧ t.allocproc p =
      { (t.setProc q { t.proc q with life := .embryo, pid := t.nextpid }).setProc p
          { t.proc p with making := some q } with
        nextpid := wrap (t.nextpid + 1), taken := t.taken + 1 } := by
  unfold allocproc
  split
  · exact .inl rfl
  · rename_i q found
    exact .inr ⟨q, by simpa using List.find?_some found, rfl⟩

/-- What `wait` does, if there is a zombie. -/
theorem wait_cases (t : Table) (p : Nat) : t.wait p = t ∨
    ∃ q, (t.proc q).life = .zombie ∧ t.wait p =
      t.setProc q { t.proc q with life := .unused, pid := 0, parent := none } := by
  unfold Table.wait
  split
  · exact .inl rfl
  · rename_i q found
    have isZombie := List.find?_some found
    simp only [Bool.decide_and, Bool.and_eq_true, decide_eq_true_eq] at isZombie
    exact .inr ⟨q, isZombie.2, rfl⟩

theorem Table.Numbered.allocproc (numbered : t.Numbered) (able : t.Able p)
    (few : (t.allocproc p).taken < 2 ^ 31) : (t.allocproc p).Numbered := by
  rcases allocproc_cases t p with same | ⟨q, unused, is⟩
  · rw [same]
    exact numbered
  · rw [is] at few ⊢
    obtain ⟨⟨positive, distinct, returned⟩, given, next, making, maker⟩ := numbered
    obtain ⟨alive, idle⟩ := able
    have fresh : t.nextpid = t.taken + 1 := by
      rw [next]
      exact_mod_cast wrap_small few
    refine ⟨⟨?_, ?_, returned⟩, ?_, ?_, ?_, ?_⟩
    all_goals simp only [setProc, update_apply]
    · grind
    · grind
    · grind
    · rw [next, wrap_succ]
      push_cast
      rfl
    · grind
    · grind

theorem Table.Numbered.finish {succeeds : Bool} (numbered : t.Numbered)
    (makes : (t.proc p).making = some q) : (t.finish p q succeeds).Numbered := by
  obtain ⟨⟨positive, distinct, returned⟩, given, next, making, maker⟩ := numbered
  have embryo := making p q makes
  cases succeeds with
  | true =>
    refine ⟨⟨?_, ?_, ?_⟩, ?_, next, ?_, ?_⟩
    all_goals simp only [Table.finish, setProc, update_apply, if_true]
    all_goals grind
  | false =>
    refine ⟨⟨?_, ?_, returned⟩, ?_, next, ?_, ?_⟩
    all_goals simp only [Table.finish, setProc, update_apply, Bool.false_eq_true, if_false]
    all_goals grind

theorem Table.Numbered.exit (numbered : t.Numbered) (able : t.Able p) : (t.exit p).Numbered := by
  obtain ⟨⟨positive, distinct, returned⟩, given, next, making, maker⟩ := numbered
  obtain ⟨alive, idle⟩ := able
  refine ⟨⟨?_, ?_, returned⟩, ?_, next, ?_, ?_⟩
  all_goals simp only [Table.exit]
  all_goals grind

theorem Table.Numbered.wait (numbered : t.Numbered) (p : Nat) : (t.wait p).Numbered := by
  rcases wait_cases t p with same | ⟨q, zombie, is⟩
  · rw [same]
    exact numbered
  · rw [is]
    obtain ⟨⟨positive, distinct, returned⟩, given, next, making, maker⟩ := numbered
    refine ⟨⟨?_, ?_, returned⟩, ?_, next, ?_, ?_⟩
    all_goals simp only [setProc, update_apply]
    all_goals grind

/-- What a step can be. -/
inductive Steps (t : Table) : Table → Prop
  | fork {p : Nat} (able : t.Able p) : Steps t (t.allocproc p)
  | finish {p q : Nat} (succeeds : Bool) (makes : (t.proc p).making = some q) :
    Steps t (t.finish p q succeeds)
  | exit {p : Nat} (able : t.Able p) (notInit : p ≠ t.initproc) : Steps t (t.exit p)
  | wait {p : Nat} (able : t.Able p) : Steps t (t.wait p)

theorem step_cases (taken : step t action = .ok (some after)) : Steps t after := by
  cases action with
  | fork p =>
    simp only [step, Except.ok.injEq, Option.ite_none_right_eq_some, Option.some.injEq] at taken
    obtain ⟨able, rfl⟩ := taken
    exact .fork able
  | finish p succeeds =>
    simp only [step, Except.ok.injEq, Option.map_eq_some_iff] at taken
    obtain ⟨q, makes, rfl⟩ := taken
    exact .finish succeeds makes
  | exit p =>
    simp only [step] at taken
    split at taken
    · rename_i able
      split at taken
      · cases taken
      · rename_i notInit
        cases taken
        exact .exit able notInit
    · cases taken
  | wait p =>
    simp only [step, Except.ok.injEq, Option.ite_none_right_eq_some, Option.some.injEq] at taken
    obtain ⟨able, rfl⟩ := taken
    exact .wait able

theorem Steps.reaches (steps : Steps t after) : Runs.Reaches step t after := by
  cases steps with
  | @fork p able => exact .single (show step t (.fork p) = _ by rw [step, if_pos able])
  | @finish p q succeeds makes =>
    exact .single (show step t (.finish p succeeds) = _ by rw [step, makes]; rfl)
  | @exit p able notInit =>
    exact .single (show step t (.exit p) = _ by rw [step, if_pos able, if_neg notInit])
  | @wait p able => exact .single (show step t (.wait p) = _ by rw [step, if_pos able])

/-- A step gives out one pid at most. -/
theorem Steps.taken (steps : Steps t after) : after.taken = t.taken ∨
    after.taken = t.taken + 1 ∧ ∃ q, (after.proc q).life ≠ .unused ∧
      (after.proc q).pid = t.nextpid := by
  cases steps with
  | @fork p able =>
    rcases allocproc_cases t p with same | ⟨q, unused, is⟩
    · rw [same]
      exact .inl rfl
    · have apart : q ≠ p := by
        rintro rfl
        cases unused.symm.trans able.1
      rw [is]
      refine .inr ⟨rfl, q, ?_, ?_⟩
      all_goals simp [setProc, apart]
  | finish succeeds makes => cases succeeds <;> exact .inl rfl
  | exit able => exact .inl rfl
  | @wait p able =>
    rcases wait_cases t p with same | ⟨q, zombie, is⟩
    · rw [same]
      exact .inl rfl
    · rw [is]
      exact .inl rfl

/-- What a step keeps as long as the counter does not wrap around. -/
theorem Steps.numbered (steps : Steps t after) (numbered : t.Numbered)
    (few : after.taken < 2 ^ 31) : after.Numbered := by
  cases steps with
  | fork able => exact numbered.allocproc able few
  | finish succeeds makes => exact numbered.finish makes
  | exit able => exact numbered.exit able
  | wait able => exact numbered.wait _

theorem Steps.grows (steps : Steps t after) : t.taken ≤ after.taken := by
  rcases steps.taken with same | ⟨more, -⟩
  · exact same.ge
  · omega

/-- After the largest pid comes a negative one. -/
theorem Steps.last (steps : Steps t after) (numbered : t.Numbered) (few : t.taken < 2 ^ 31)
    (good : after.Good) : after.taken < 2 ^ 31 := by
  rcases steps.taken with same | ⟨more, q, used, pid⟩
  · rwa [same]
  · by_contra many
    have positive := good.positive q used
    simp only [pid, numbered.next, wrap] at positive
    omega

theorem userinit_numbered : userinit.Numbered := by
  have next : userinit.nextpid = wrap (userinit.taken + 1) := by
    simp only [userinit, wrap]
    omega
  refine ⟨⟨?_, ?_, ?_⟩, ?_, next, ?_, ?_⟩
  all_goals simp only [userinit]
  all_goals grind

theorem run_numbered {steps : List Action} (ran : Runs.run step userinit steps = some t)
    (few : t.taken < 2 ^ 31) : t.Numbered :=
  Runs.always (fun t => t.taken < 2 ^ 31 → t.Numbered)
    (fun before taken few => (step_cases taken).numbered
      (before (lt_of_le_of_lt (step_cases taken).grows few)) few)
    (fun _ => userinit_numbered) ran few

/-- In every state along a run the pids are distinct and positive, and `fork` has returned
positive ones, exactly if fewer than `2 ^ 31` pids are given out in the run. -/
theorem pids_distinct {steps : List Action} (ran : Runs.run step userinit steps = some t) :
    (∀ before rest reached, steps = before ++ rest →
      Runs.run step userinit before = some reached → reached.Good) ↔ t.taken < 2 ^ 31 := by
  constructor
  · intro good
    have meets : Runs.Meets step (fun t action => ∀ after, step t action = .ok (some after) →
        after.Good) userinit steps := by
      refine Runs.meets_iff.mpr fun before action rest reached split early after taken => ?_
      refine good (before ++ [action]) rest after (by simp [split]) ?_
      exact Runs.run_append.mpr ⟨reached, early, Runs.run_cons.mpr ⟨after, taken, rfl⟩⟩
    refine (Runs.invariant (fun t => t.taken < 2 ^ 31 ∧ t.Numbered) ?_
      ⟨by decide, userinit_numbered⟩ meets ran).1
    rintro t after action ⟨few, numbered⟩ good taken
    have still := (step_cases taken).last numbered few (good after taken)
    exact ⟨still, (step_cases taken).numbered numbered still⟩
  · intro few before rest reached split early
    rw [split] at ran
    obtain ⟨middle, early', late⟩ := Runs.run_append.mp ran
    cases early.symm.trans early'
    have grown : reached.taken ≤ t.taken := Runs.always (fun t => reached.taken ≤ t.taken)
      (fun before taken => before.trans (step_cases taken).grows) le_rfl late
    exact (run_numbered early (lt_of_le_of_lt grown few)).toGood

theorem pids_distinct_fork : ∃ t, Runs.run step userinit [.fork 0, .finish 0 true] = some t ∧
    t.Good := by
  obtain ⟨t, ran, taken⟩ : ∃ t, Runs.run step userinit [.fork 0, .finish 0 true] = some t ∧
      t.taken = 2 := ⟨_, rfl, rfl⟩
  have good := (pids_distinct ran).mpr (by omega)
  exact ⟨t, ran, good _ [] t (List.append_nil _).symm ran⟩

/-- A child that is made, exits and is waited for. -/
def round : List Action := [.fork 0, .finish 0 true, .exit 1, .wait 0]

/-- A round leaves nothing behind but the counter. -/
theorem round_leaves (slots : t.proc = userinit.proc) (init : t.initproc = 0) :
    ∃ after, Runs.run step t round = some after ∧ after.proc = userinit.proc ∧
      after.initproc = 0 ∧ after.taken = t.taken + 1 := by
  obtain ⟨proc, initproc, nextpid, taken, returned⟩ := t
  subst slots init
  refine ⟨_, rfl, ?_, rfl, rfl⟩
  funext r
  rcases r with _ | _ | r
  · rfl
  · rfl
  · rfl

theorem rounds_leave (n : Nat) : ∀ {t : Table}, t.proc = userinit.proc → t.initproc = 0 →
    ∃ after, Runs.run step t (List.replicate n round).flatten = some after ∧
      after.proc = userinit.proc ∧ after.initproc = 0 ∧ after.taken = t.taken + n := by
  induction n with
  | zero => exact fun slots init => ⟨_, rfl, slots, init, rfl⟩
  | succ n ih =>
    intro t slots init
    obtain ⟨middle, first, slots, init, taken⟩ := round_leaves slots init
    obtain ⟨after, rest, slots, init, more⟩ := ih slots init
    refine ⟨after, ?_, slots, init, by omega⟩
    rw [List.replicate_succ, List.flatten_cons]
    exact Runs.run_append.mpr ⟨middle, first, rest⟩

/-- After enough rounds a child gets a negative pid, and `fork` returns it. -/
theorem pids_wrap : ∃ t, Runs.run step userinit
      ((List.replicate (2 ^ 31 - 2) round).flatten ++ [.fork 0, .finish 0 true]) = some t ∧
    (t.proc 1).life = .alive ∧ (t.proc 1).pid = -(2 ^ 31) ∧ -(2 ^ 31) ∈ t.returned := by
  obtain ⟨full, ran, slots, init, taken⟩ := rounds_leave (2 ^ 31 - 2) rfl rfl
  have next := (run_numbered ran (by rw [taken]; simp only [userinit]; omega)).next
  rw [taken] at next
  have wraps : full.nextpid = -(2 ^ 31) := by
    simp only [next, wrap, userinit]
    omega
  obtain ⟨proc, initproc, nextpid, count, returned⟩ := full
  subst slots wraps
  exact ⟨_, Runs.run_append.mpr ⟨_, ran, rfl⟩, rfl, rfl, List.mem_append_right _ (.head _)⟩

end Xv6.Pids
