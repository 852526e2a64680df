import Xv6.Proc.Boot

/-!
# Killing processes

`kill` looks through the whole process table, unused slots included, and `allocproc`
does not clear the mark that `kill` leaves. So a kill of the pid of an unused slot, 0 for
a slot that was never used or was reaped and the old pid for one a failed `fork` gave
up, succeeds without a process, and the next process made in that slot is born killed.

Calls run to their end here. A pid is a C `int`; the model's pids count on, and only
`kill` compares them, in 32 bits.
-/

namespace Xv6

open Function Except List

/-- The calls that make, mark and remove processes. -/
inductive LifeCall where
  | fork
  | exit
  | wait
  | kill (pid : UInt32)
  /-- A trap that user code causes: `trap` marks the process and lets it exit. -/
  | fault

/-- A process, its call, and the calls of `kalloc` that fail meanwhile. -/
structure LifeStep where
  proc : Nat
  call : LifeCall
  refuse : Nat → Bool

namespace Kernel

variable {k after first : Kernel} {layout : Layout} {p : Nat} {done : Bool} {s : LifeStep}

/-- The pid of a slot, as `kill` compares it. -/
def named (k : Kernel) (pid : UInt32) (p : Nat) : Bool := UInt32.ofNat (k.proc p).pid == pid

/-- Mark the first process of the table that has the pid. -/
def kill (k : Kernel) (pid : UInt32) : Bool × Kernel :=
  match (List.range nproc).find? (k.named pid) with
  | none => (false, k)
  | some p => (true, k.setProc p { k.proc p with killed := true })

/-- One call. -/
def live (layout : Layout) (k : Kernel) (p : Nat) : LifeCall → Except String (Option Kernel)
  | .fork => do
    let (_, k) ← k.fork layout p
    .ok (some k)
  | .exit => do
    let k ← k.exit layout p
    .ok (some k)
  | .wait => do
    let result ← k.wait layout p
    .ok (result.map Prod.snd)
  | .kill pid => .ok (some (k.kill pid).2)
  | .fault => do
    let k ← (k.setProc p { k.proc p with killed := true }).exit layout p
    .ok (some k)

/-- One step of a run. -/
def lifeStep (layout : Layout) (k : Kernel) (s : LifeStep) : Except String (Option Kernel) :=
  if s.proc < nproc ∧ (k.proc s.proc).state = .runnable then
    (k.enter s.refuse).live layout s.proc s.call
  else .ok none

/-- Run a list of steps. -/
def lives (layout : Layout) : Kernel → List LifeStep → Option Kernel :=
  Runs.run (lifeStep layout)

/-! ## What is to hold -/

/-- `kill` hits a process in use that has the pid, and no other slot, or there is none
and nothing changes. -/
def KillsOnly (k : Kernel) (pid : UInt32) : Prop :=
  ((k.kill pid).1 = true ∧ ∃ p < nproc, (k.proc p).state ≠ .unused ∧ k.named pid p = true ∧
    ∀ q, q ≠ p → (k.kill pid).2.proc q = k.proc q) ∨
  ((k.kill pid).1 = false ∧ (k.kill pid).2 = k ∧
    ∀ p < nproc, (k.proc p).state ≠ .unused → k.named pid p = false)

/-- The step neither kills the pid nor is a fault of the process in the slot. -/
def Spares (pid : UInt32) (p : Nat) (s : LifeStep) : Prop :=
  s.call ≠ .kill pid ∧ ¬ (s.call = .fault ∧ s.proc = p)

/-- In the run, a process that a `fork` has made is not marked until a kill of its pid or
a fault of its own. -/
def ChildrenClean (layout : Layout) (first : Kernel) (steps : List LifeStep) : Prop :=
  ∀ before s between rest k child last np, steps = before ++ s :: (between ++ rest) →
    lives layout first before = some k → s.call = .fork →
    lifeStep layout k s = .ok (some child) → (k.proc np).state = .unused →
    (child.proc np).state = .runnable → lives layout child between = some last →
    (∀ t ∈ between, Spares (UInt32.ofNat (child.proc np).pid) np t) →
    (last.proc np).state ≠ .unused → (last.proc np).pid = (child.proc np).pid →
    (last.proc np).killed = false

/-- A kill is not aimed at a pid that the table has first in an unused slot. -/
def Aimed (k : Kernel) (s : LifeStep) : Prop :=
  ∀ pid, s.call = .kill pid → ∀ p, (List.range nproc).find? (k.named pid) = some p →
    (k.proc p).state ≠ .unused

/-- No unused slot carries the mark of a kill. -/
def Unmarked (k : Kernel) : Prop := ∀ p, (k.proc p).state = .unused → (k.proc p).killed = false

/-- A kill does what it should exactly when it is aimed. -/
theorem killsOnly_iff (unmarked : k.Unmarked) (pid : UInt32) :
    k.KillsOnly pid ↔ ∀ p, (range nproc).find? (k.named pid) = some p →
      (k.proc p).state ≠ .unused := by
  cases found : (range nproc).find? (k.named pid) with
  | none =>
    have nobody : ∀ p < nproc, k.named pid p = false := by
      intro p inside
      simpa using find?_eq_none.mp found p (mem_range.mpr inside)
    simp only [reduceCtorEq, false_implies, implies_true, iff_true]
    refine .inr ⟨by rw [kill, found], by rw [kill, found], fun p inside _ => nobody p inside⟩
  | some p =>
    have hit : k.named pid p = true := find?_some found
    have inside : p < nproc := mem_range.mp (List.mem_of_find?_eq_some found)
    have killed : k.kill pid = (true, k.setProc p { k.proc p with killed := true }) := by
      rw [kill, found]
    simp only [Option.some.injEq, forall_eq']
    constructor
    · rintro (⟨_, q, _, used, _, others⟩ | ⟨missed, _⟩)
      · by_cases same : p = q
        · rw [same]
          exact used
        · -- the slot that was hit is another one, and it was not marked before
          intro unused
          have marked := congrArg Proc.killed (others p same)
          rw [killed, unmarked p unused] at marked
          simp [setProc] at marked
      · rw [killed] at missed
        cases missed
    · intro used
      refine .inl ⟨by rw [killed], p, inside, used, hit, fun q other => ?_⟩
      rw [killed]
      simp [setProc, update_of_ne other]

/-! ## What a step does -/

/-- The part of a slot that the calls here work on. -/
structure Standing where
  state : ProcState
  pid : Nat
  parent : Option Nat
  killed : Bool

/-- The part of the kernel's state that the calls here work on. -/
structure Roll where
  slot : Nat → Standing
  nextpid : Nat
  initproc : Option Nat

def standing (s : Proc) : Standing := ⟨s.state, s.pid, s.parent, s.killed⟩

def roll (k : Kernel) : Roll where
  slot := fun q => standing (k.proc q)
  nextpid := k.nextpid
  initproc := k.initproc

theorem roll_update {q : Nat} {value : Proc} (slots : after.proc = update k.proc q value) :
    after.roll = ⟨update k.roll.slot q (standing value), after.nextpid, after.initproc⟩ := by
  simp only [roll, slots, Roll.mk.injEq, and_self, and_true]
  funext r
  by_cases here : r = q <;> simp [here]

theorem dupFiles_roll {ofile : Nat → Option Nat} (fds : List Nat) :
    ∀ {k : Kernel}, k.dupFiles ofile fds = .ok after → after.roll = k.roll := by
  induction fds with
  | nil =>
    rintro k ⟨⟩
    rfl
  | cons fd rest ih =>
    intro k ran
    rw [dupFiles] at ran
    split at ran
    · exact ih ran
    · obtain ⟨middle, duplicating, ran⟩ := of_bind_ok ran
      rw [ih ran]
      unfold filedup at duplicating
      split at duplicating <;> cases duplicating
      rfl

theorem fileclose_roll {f : Nat} (ran : k.fileclose layout f = .ok after) :
    after.roll = k.roll := by
  unfold fileclose at ran
  dsimp only at ran
  split at ran
  · cases ran
  · split at ran
    · cases ran
      rfl
    · split at ran
      · obtain ⟨vm, closing, ran⟩ := of_bind_ok ran
        cases ran
        rfl
      · cases ran
        rfl

/-- The loop of `exit` over the open files. -/
theorem closeFiles_roll (fds : List Nat) :
    ∀ {k : Kernel}, k.closeFiles layout p fds = .ok after → after.roll = k.roll := by
  induction fds with
  | nil =>
    rintro k ⟨⟩
    rfl
  | cons fd rest ih =>
    intro k ran
    rw [closeFiles] at ran
    split at ran
    · exact ih ran
    · obtain ⟨closed, closing, ran⟩ := of_bind_ok ran
      rw [ih ran, ← fileclose_roll closing, roll_update rfl]
      exact congrArg (fun slot => { closed.roll with slot }) (update_eq_self p closed.roll.slot)

/-- The children go to the first process, and the caller becomes a zombie. -/
def Roll.exit (roll : Roll) (p : Nat) : Roll :=
  { roll with
    slot := fun q => { roll.slot q with
      parent := if (roll.slot q).parent = some p then roll.initproc else (roll.slot q).parent
      state := if q = p then .zombie else (roll.slot q).state } }

theorem exit_roll (ran : k.exit layout p = .ok after) :
    k.initproc ≠ some p ∧ after.roll = k.roll.exit p := by
  unfold exit at ran
  split at ran
  · cases ran
  · rename_i notInit
    obtain ⟨closed, closing, ran⟩ := of_bind_ok ran
    cases ran
    refine ⟨notInit, ?_⟩
    rw [← closeFiles_roll _ closing]
    refine congrArg (fun slot => { closed.roll with slot }) (funext fun q => ?_)
    by_cases here : q = p
    · subst here
      by_cases own : (closed.proc q).parent = some q <;> simp [standing, setProc, roll, own]
    · by_cases orphan : (closed.proc q).parent = some p <;>
        simp [standing, setProc, roll, here, orphan]

/-- An unused slot is given a pid. -/
def Roll.take (roll : Roll) (np : Nat) (state : ProcState) (parent : Option Nat) : Roll :=
  { roll with
    slot := update roll.slot np ⟨state, roll.nextpid, parent, (roll.slot np).killed⟩
    nextpid := roll.nextpid + 1 }

/-- The slot that `allocproc` takes. -/
def Roll.Vacant (roll : Roll) (np : Nat) : Prop :=
  (range nproc).find? (fun q => (roll.slot q).state = .unused) = some np

theorem Roll.Vacant.unused {roll : Roll} {np : Nat} (vacant : roll.Vacant np) :
    np < nproc ∧ (roll.slot np).state = .unused :=
  ⟨mem_range.mp (List.mem_of_find?_eq_some vacant), by simpa using find?_some vacant⟩

/-- Taking an unused slot, with a stack or without. -/
theorem allocproc_roll {answer : Option Nat} (ran : k.allocproc = (answer, after)) :
    (answer = none ∧ after.roll = k.roll) ∨
      ∃ np, k.roll.Vacant np ∧ (answer = none ∧
          after.roll = k.roll.take np .unused (k.proc np).parent ∨
        answer = some np ∧ after.roll = k.roll.take np .embryo (k.proc np).parent) := by
  unfold allocproc at ran
  split at ran
  · cases ran
    exact .inl ⟨rfl, rfl⟩
  · rename_i np found
    refine .inr ⟨np, found, ?_⟩
    dsimp only at ran
    split at ran <;> cases ran
    · refine .inl ⟨rfl, (roll_update (k := k) (update_idem _ _ _)).trans rfl⟩
    · refine .inr ⟨rfl, (roll_update (k := k) (update_idem _ _ _)).trans rfl⟩

/-- A slot that was taken is filled in. -/
theorem roll_filled {before : Roll} {np : Nat} {state : ProcState} {parent : Option Nat}
    (value : Proc) (taken : k.roll = before.take np state parent)
    (same : value.pid = (k.proc np).pid ∧ value.killed = (k.proc np).killed) :
    (k.setProc np value).roll = before.take np value.state value.parent := by
  have slots : k.roll.slot = _ := congrArg Roll.slot taken
  have slot : standing (k.proc np) = _ := (congrFun slots np).trans (update_self _ _ _)
  have counted : k.nextpid = before.nextpid + 1 := congrArg Roll.nextpid taken
  have init : k.initproc = before.initproc := congrArg Roll.initproc taken
  simp only [standing, Standing.mk.injEq] at slot
  rw [roll_update rfl, slots]
  simp only [Roll.take, update_idem, standing, same, slot, setProc, counted, init]

/-- The child is made, or its slot is given up. -/
def Roll.fork (roll : Roll) (p np : Nat) (done : Bool) : Roll :=
  roll.take np (if done then .runnable else .unused)
    (if done then some p else (roll.slot np).parent)

theorem fork_roll (ran : k.fork layout p = .ok (done, after)) :
    after.roll = k.roll ∨ ∃ np, k.roll.Vacant np ∧ after.roll = k.roll.fork p np done := by
  unfold fork at ran
  rcases taken : k.allocproc with ⟨answer, middle⟩
  rw [taken] at ran
  rcases allocproc_roll taken with ⟨rfl, same⟩ | ⟨np, vacant, ⟨rfl, is⟩ | ⟨rfl, is⟩⟩
  · cases ran
    exact .inl same
  · cases ran
    exact .inr ⟨np, vacant, is⟩
  · refine .inr ⟨np, vacant, ?_⟩
    dsimp only at ran
    obtain ⟨⟨copied, vm⟩, copying, ran⟩ := of_bind_ok ran
    cases copied with
    | none =>
      dsimp only at ran
      obtain ⟨freed, freeing, ran⟩ := of_bind_ok ran
      cases ran
      have parent : (middle.proc np).parent = (k.proc np).parent := by
        have slot := (congrFun (congrArg Roll.slot is) np).trans (update_self _ _ _)
        exact congrArg Standing.parent slot
      rw [show k.roll.fork p np false = k.roll.take np .unused (middle.proc np).parent by
        rw [parent]
        rfl]
      exact roll_filled _ is ⟨rfl, rfl⟩
    | some pgdir =>
      dsimp only at ran
      obtain ⟨held, duplicating, ran⟩ := of_bind_ok ran
      cases ran
      have same := dupFiles_roll _ duplicating
      exact roll_filled _ (same.trans is) ⟨rfl, rfl⟩

/-- The slot that `wait` of a process frees. -/
def Roll.Dead (roll : Roll) (p q : Nat) : Prop :=
  (range nproc).find? (fun q => (roll.slot q).parent = some p ∧
    (roll.slot q).state = .zombie) = some q

/-- A slot after `wait` has freed it. -/
def Roll.reap (roll : Roll) (q : Nat) : Roll :=
  { roll with slot := update roll.slot q ⟨.unused, 0, none, false⟩ }

theorem wait_roll (ran : k.wait layout p = .ok (some (done, after))) :
    after.roll = k.roll ∨ ∃ q, k.roll.Dead p q ∧ after.roll = k.roll.reap q := by
  unfold wait at ran
  split at ran
  · rename_i q found
    obtain ⟨vm, freeing, ran⟩ := of_bind_ok ran
    obtain ⟨vm, clearing, ran⟩ := of_bind_ok ran
    cases ran
    exact .inr ⟨q, found, by rw [roll_update rfl]; rfl⟩
  · split at ran <;> cases ran
    exact .inl rfl

/-- A slot with the mark of a kill. -/
def Roll.mark (roll : Roll) (q : Nat) : Roll :=
  { roll with slot := update roll.slot q { roll.slot q with killed := true } }

/-- What a step can do. -/
inductive Effect (k : Kernel) (s : LifeStep) : Roll → Prop
  | nothing : Effect k s k.roll
  | forked {np : Nat} (done : Bool) (vacant : k.roll.Vacant np) :
    Effect k s (k.roll.fork s.proc np done)
  | exited (notInit : k.initproc ≠ some s.proc) : Effect k s (k.roll.exit s.proc)
  | faulted (call : s.call = .fault) (notInit : k.initproc ≠ some s.proc) :
    Effect k s ((k.roll.mark s.proc).exit s.proc)
  | reaped {q : Nat} (dead : k.roll.Dead s.proc q) : Effect k s (k.roll.reap q)
  | killed {pid : UInt32} {q : Nat} (call : s.call = .kill pid)
    (found : (range nproc).find? (k.named pid) = some q) : Effect k s (k.roll.mark q)

theorem lifeStep_effect (taken : lifeStep layout k s = .ok (some after)) :
    (k.proc s.proc).state = .runnable ∧ Effect k s after.roll := by
  unfold lifeStep at taken
  split at taken
  · rename_i able
    refine ⟨able.2, ?_⟩
    cases call : s.call with
    | fork =>
      rw [call] at taken
      obtain ⟨⟨done, last⟩, forking, ran⟩ := of_bind_ok taken
      cases ran
      rcases fork_roll forking with same | ⟨np, vacant, is⟩
      · rw [same]
        exact .nothing
      · rw [is]
        exact .forked done vacant
    | exit =>
      rw [call] at taken
      obtain ⟨last, exiting, ran⟩ := of_bind_ok taken
      cases ran
      obtain ⟨notInit, is⟩ := exit_roll exiting
      rw [is]
      exact .exited notInit
    | wait =>
      rw [call] at taken
      obtain ⟨result, waiting, ran⟩ := of_bind_ok taken
      cases result with
      | none => cases ran
      | some result =>
        cases ran
        rcases wait_roll waiting with same | ⟨q, dead, is⟩
        · rw [same]
          exact .nothing
        · rw [is]
          exact .reaped dead
    | kill pid =>
      rw [call] at taken
      cases taken
      unfold kill
      split
      · exact .nothing
      · rename_i q found
        rw [roll_update rfl]
        exact .killed call found
    | fault =>
      rw [call] at taken
      obtain ⟨last, exiting, ran⟩ := of_bind_ok taken
      cases ran
      obtain ⟨notInit, is⟩ := exit_roll exiting
      rw [is, roll_update rfl]
      exact .faulted call notInit
  · cases taken

/-! ## Runs -/

/-- Aimed kills leave no mark on an unused slot. -/
theorem lifeStep_unmarked (unmarked : k.Unmarked) (aimed : k.Aimed s)
    (taken : lifeStep layout k s = .ok (some after)) : after.Unmarked := by
  obtain ⟨runnable, effect⟩ := lifeStep_effect taken
  suffices kept : ∀ q, (after.roll.slot q).state = .unused → (after.roll.slot q).killed = false from
    kept
  have before : ∀ q, (k.roll.slot q).state = .unused → (k.roll.slot q).killed = false := unmarked
  have runs : (k.roll.slot s.proc).state = .runnable := runnable
  generalize after.roll = last at effect
  cases effect with
  | nothing => exact before
  | forked done vacant =>
    have unused := vacant.unused
    simp only [Roll.fork, Roll.take, update_apply]
    grind
  | exited notInit =>
    simp only [Roll.exit]
    grind
  | faulted call notInit =>
    simp only [Roll.exit, Roll.mark, update_apply]
    grind
  | reaped dead =>
    simp only [Roll.reap, update_apply]
    grind
  | @killed pid q call found =>
    have used : (k.roll.slot q).state ≠ .unused := aimed pid call q found
    simp only [Roll.mark, update_apply]
    grind

/-- The process with a pid, as long as it is in its slot, is not marked, and its pid is
given to no other. -/
def CleanChild (np pid : Nat) (k : Kernel) : Prop :=
  pid < k.nextpid ∧
    ((k.proc np).state ≠ .unused → (k.proc np).pid = pid → (k.proc np).killed = false)

theorem lifeStep_clean {np pid : Nat} (clean : CleanChild np pid k)
    (spares : Spares (UInt32.ofNat pid) np s) (taken : lifeStep layout k s = .ok (some after)) :
    CleanChild np pid after := by
  obtain ⟨runnable, effect⟩ := lifeStep_effect taken
  suffices kept : pid < after.roll.nextpid ∧ ((after.roll.slot np).state ≠ .unused →
    (after.roll.slot np).pid = pid → (after.roll.slot np).killed = false) from kept
  have before : pid < k.roll.nextpid ∧ ((k.roll.slot np).state ≠ .unused →
    (k.roll.slot np).pid = pid → (k.roll.slot np).killed = false) := clean
  have runs : (k.roll.slot s.proc).state = .runnable := runnable
  generalize after.roll = last at effect
  cases effect with
  | nothing => exact before
  | forked done vacant =>
    simp only [Roll.fork, Roll.take, update_apply]
    grind
  | exited notInit =>
    simp only [Roll.exit]
    grind
  | faulted call notInit =>
    have other : np ≠ s.proc := fun same => spares.2 ⟨call, same.symm⟩
    simp only [Roll.exit, Roll.mark, update_apply]
    grind
  | reaped dead =>
    simp only [Roll.reap, update_apply]
    grind
  | @killed other q call found =>
    have hit : UInt32.ofNat (k.proc q).pid = other := by simpa [named] using find?_some found
    have missed : np = q → (k.roll.slot q).pid ≠ pid := by
      rintro - rfl
      exact spares.1 (call.trans (congrArg LifeCall.kill hit.symm))
    simp only [Roll.mark, update_apply]
    grind

/-- `fork` marks nothing. -/
theorem fork_killed (ran : k.fork layout p = .ok (done, after)) (q : Nat) :
    (after.proc q).killed = (k.proc q).killed := by
  have kept : (after.roll.slot q).killed = (k.roll.slot q).killed := by
    rcases fork_roll ran with same | ⟨np, _, is⟩
    · rw [same]
    · simp only [is, Roll.fork, Roll.take, update_apply]
      grind
  exact kept

/-- A child that was just made is not marked. -/
theorem fork_clean {np : Nat} (unmarked : k.Unmarked) (call : s.call = .fork)
    (taken : lifeStep layout k s = .ok (some after)) (unused : (k.proc np).state = .unused)
    (made : (after.proc np).state ≠ .unused) : CleanChild np (after.proc np).pid after := by
  unfold lifeStep at taken
  split at taken
  · rw [call] at taken
    obtain ⟨⟨done, last⟩, forking, ran⟩ := of_bind_ok taken
    cases ran
    have before : ((k.enter s.refuse).roll.slot np).state = .unused := unused
    have used : (after.roll.slot np).state ≠ .unused := made
    have next : (after.roll.slot np).pid < after.roll.nextpid := by
      rcases fork_roll forking with same | ⟨q, _, is⟩
      · exact absurd (same ▸ before) used
      · simp only [is, Roll.fork, Roll.take, update_apply] at used ⊢
        grind
    exact ⟨next, fun _ _ => by rw [fork_killed forking]; exact unmarked np unused⟩
  · cases taken

/-- The roll before `userinit`, and after it. -/
def Roll.idle : Roll := ⟨fun _ => ⟨.unused, 0, none, false⟩, 1, none⟩

def Roll.boot : Roll where
  slot := fun q => if q = 0 then ⟨.runnable, 1, none, false⟩ else ⟨.unused, 0, none, false⟩
  nextpid := 2
  initproc := some 0

/-- In an idle table the first slot is taken. -/
theorem Roll.Vacant.zero {np : Nat} (vacant : Roll.idle.Vacant np) : np = 0 := by
  have found : Roll.idle.Vacant 0 := by
    rw [Vacant, show range nproc = 0 :: (range (nproc - 1)).map Nat.succ by decide]
    exact find?_cons_of_pos (by simp [Roll.idle])
  exact Option.some.inj (vacant.symm.trans found)

theorem userinit_roll {initcode : List UInt8} (idle : k.roll = .idle)
    (ran : k.userinit layout initcode = .ok after) : after.roll = .boot := by
  unfold userinit at ran
  split at ran
  · cases ran
  · rename_i p middle taken
    obtain ⟨⟨pgdir, vm⟩, _, ran⟩ := of_bind_ok ran
    cases pgdir with
    | none => cases ran
    | some pgdir =>
      dsimp only at ran
      obtain ⟨last, _, ran⟩ := of_bind_ok ran
      cases ran
      rcases allocproc_roll taken with ⟨wrong, -⟩ | ⟨np, vacant, ⟨wrong, -⟩ | ⟨is, alloc⟩⟩
      · cases wrong
      · cases wrong
      · cases is
        rw [idle] at vacant alloc
        obtain rfl := vacant.zero
        have parent : (k.proc 0).parent = none :=
          congrArg (fun roll => (Roll.slot roll 0).parent) idle
        rw [parent] at alloc
        have named : roll { middle with vm := last, initproc := some 0 } =
            Roll.take { Roll.idle with initproc := some 0 } 0 .embryo none :=
          congrArg (fun roll => { roll with initproc := some 0 }) alloc
        have orphan : (middle.proc 0).parent = none :=
          congrArg (fun roll => (Roll.slot roll 0).parent) alloc
        rw [roll_filled _ named (by exact ⟨rfl, rfl⟩), orphan]
        refine congrArg (fun slot => Roll.mk slot 2 (some 0)) (funext fun q => ?_)
        rw [update_apply]
        rfl

theorem main_roll {ncpu : Nat} {page : Nat → Page} {initcode : List UInt8} {refuse : Nat → Bool}
    (booted : main layout ncpu page initcode refuse = .ok first) : first.roll = .boot := by
  unfold main at booted
  obtain ⟨low, _, booted⟩ := of_bind_ok booted
  obtain ⟨⟨kpgdir, middle⟩, _, booted⟩ := of_bind_ok booted
  cases kpgdir with
  | none => cases booted
  | some kpgdir =>
    dsimp only at booted
    obtain ⟨idle, starting, booted⟩ := of_bind_ok booted
    rw [startothers_same _ starting] at booted
    obtain ⟨high, _, booted⟩ := of_bind_ok booted
    exact userinit_roll rfl booted

theorem main_unmarked {ncpu : Nat} {page : Nat → Page} {initcode : List UInt8}
    {refuse : Nat → Bool} (booted : main layout ncpu page initcode refuse = .ok first) :
    first.Unmarked := by
  have boot : ∀ q, (first.proc q).killed = (Roll.boot.slot q).killed := fun q =>
    congrArg (fun roll => (Roll.slot roll q).killed) (main_roll booted)
  intro q _
  rw [boot]
  cases q <;> rfl

/-- In every run after the boot: the kills hit only processes in use that have the pid,
and children are not marked before a kill or a fault of theirs, exactly when no kill is
of a pid that the table has first in an unused slot. -/
theorem kill_hits_target {layout : Layout} {ncpu : Nat} {page : Nat → Page}
    {initcode : List UInt8} {refuse : Nat → Bool} {first last : Kernel} {steps : List LifeStep}
    (booted : main layout ncpu page initcode refuse = .ok first)
    (ran : lives layout first steps = some last) :
    ((∀ before s rest k, steps = before ++ s :: rest → lives layout first before = some k →
        ∀ pid, s.call = .kill pid → k.KillsOnly pid) ∧ ChildrenClean layout first steps) ↔
      Runs.Meets (lifeStep layout) Aimed first steps := by
  have start := main_unmarked booted
  constructor
  · rintro ⟨kills, _⟩
    refine Runs.Meets.imp Unmarked ?_ (fun unmarked aimed taken =>
      lifeStep_unmarked unmarked aimed taken) start (Runs.meets_iff.mpr kills)
    intro k s unmarked hits pid call
    exact (killsOnly_iff unmarked pid).mp (hits pid call)
  · intro meets
    have unmarkedAt : ∀ before rest k, steps = before ++ rest →
        lives layout first before = some k → k.Unmarked := by
      intro before rest k split reached
      subst split
      exact Runs.invariant Unmarked (fun unmarked aimed taken =>
        lifeStep_unmarked unmarked aimed taken) start (meets.of_append reached).1 reached
    constructor
    · intro before s rest k split reached pid call
      exact (killsOnly_iff (unmarkedAt before _ k split reached) pid).mpr
        (Runs.meets_iff.mp meets before s rest k split reached pid call)
    · intro before s between rest k child final np split reached call taken unused made ranOn
        spares used same
      have fresh : CleanChild np (child.proc np).pid child :=
        fork_clean (unmarkedAt before _ k split reached) call taken unused (by rw [made]; decide)
      have clean : CleanChild np (child.proc np).pid final := by
        have spared : Runs.Meets (lifeStep layout)
            (fun _ t => Spares (UInt32.ofNat (child.proc np).pid) np t) child between :=
          Runs.meets_iff.mpr fun earlier t later _ part _ => spares t (by rw [part]; simp)
        refine Runs.invariant (CleanChild np (child.proc np).pid) ?_ fresh spared ranOn
        exact fun clean spared taken => lifeStep_clean clean spared taken
      exact clean.2 used same

/-- The slot a kill finds after the boot. -/
theorem find_named (boot : first.roll = .boot) :
    (range nproc).find? (first.named 1) = some 0 ∧
      (range nproc).find? (first.named 0) = some 1 := by
  have slots : range nproc = 0 :: 1 :: (range (nproc - 2)).map (· + 2) := by decide
  have pid : ∀ q, (first.proc q).pid = (Roll.boot.slot q).pid := fun q =>
    congrArg (fun roll => (Roll.slot roll q).pid) boot
  rw [slots]
  constructor
  · exact find?_cons_of_pos (by simp [named, pid, Roll.boot])
  · rw [find?_cons_of_neg (by simp [named, pid, Roll.boot])]
    exact find?_cons_of_pos (by simp [named, pid, Roll.boot])

/-- A kill marks the slot that it finds. -/
theorem kill_step {pid : UInt32} {q : Nat} {refuse : Nat → Bool}
    (able : p < nproc ∧ (k.proc p).state = .runnable)
    (found : (range nproc).find? (k.named pid) = some q) :
    lifeStep layout k ⟨p, .kill pid, refuse⟩ =
      .ok (some ((k.enter refuse).setProc q { k.proc q with killed := true })) := by
  have hit : (k.enter refuse).kill pid =
      (true, (k.enter refuse).setProc q { k.proc q with killed := true }) := by
    rw [kill, show (k.enter refuse).named pid = k.named pid from rfl, found]
    rfl
  rw [lifeStep, if_pos able]
  simp only [live, hit]

/-- The first process kills itself. -/
theorem kill_hits_target_init : ∃ first last,
    main sampleLayout 2 (fun _ => Bytes.zero) [] (fun _ => false) = .ok first ∧
    lives sampleLayout first [⟨0, .kill 1, fun _ => false⟩] = some last ∧
    (last.proc 0).killed = true ∧ first.KillsOnly 1 ∧
    ChildrenClean sampleLayout first [⟨0, .kill 1, fun _ => false⟩] := by
  obtain ⟨first, booted, -, state, -⟩ := main_ok sampleLayout 2 (fun _ => Bytes.zero) []
    (by decide) (by decide)
  have found := (find_named (main_roll booted)).1
  have ran : lives sampleLayout first [⟨0, .kill 1, fun _ => false⟩] = some _ :=
    Runs.run_cons.mpr ⟨_, kill_step ⟨by decide, state⟩ found, rfl⟩
  have meets : Runs.Meets (lifeStep sampleLayout) Aimed first [⟨0, .kill 1, fun _ => false⟩] := by
    refine ⟨?_, fun _ _ => trivial⟩
    rintro pid ⟨⟩ p hits
    rw [found] at hits
    cases hits
    rw [state]
    decide
  obtain ⟨kills, clean⟩ := (kill_hits_target booted ran).mpr meets
  refine ⟨first, _, booted, ran, by simp [setProc], ?_, clean⟩
  exact kills [] _ [] first rfl rfl 1 rfl

/-- The first process calls `kill(0)`. The call succeeds, marks the next slot, which is
unused, and a process made there is born killed. -/
theorem unused_slot_killed : ∃ first k,
    main sampleLayout 2 (fun _ => Bytes.zero) [] (fun _ => false) = .ok first ∧
    lives sampleLayout first [⟨0, .kill 0, fun _ => false⟩] = some k ∧
    ¬ first.KillsOnly 0 ∧ (first.proc 1).state = .unused ∧
    ∀ done after, k.fork sampleLayout 0 = .ok (done, after) →
      (after.proc 1).killed = true := by
  obtain ⟨first, booted, -, state, -⟩ := main_ok sampleLayout 2 (fun _ => Bytes.zero) []
    (by decide) (by decide)
  have boot := main_roll booted
  have found := (find_named boot).2
  have unused : (first.proc 1).state = .unused :=
    congrArg (fun roll => (Roll.slot roll 1).state) boot
  refine ⟨first, _, booted, Runs.run_cons.mpr ⟨_, kill_step ⟨by decide, state⟩ found, rfl⟩, ?_,
    unused, ?_⟩
  · rw [killsOnly_iff (main_unmarked booted), found]
    intro aimed
    exact aimed 1 rfl unused
  · intro done after forking
    rw [fork_killed forking]
    simp [setProc]

end Kernel

end Xv6
