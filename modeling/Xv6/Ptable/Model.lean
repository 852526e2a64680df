import Xv6.Lib.Runs
import Xv6.Proc.Model

/-!
# The process table, shared by several CPUs

The functions of `proc.c` that work on `ptable`, run by any number of CPUs. A step is
what happens between an `acquire` and the matching `release` of `ptable.lock`, or a write
to a slot that its owner makes without the lock. The lock is handed over at `swtch`: a
process that gives up its CPU enters the scheduler with the lock held, the scheduler goes
on through the table behind the slot of that process, and the process it switches to
releases the lock or, in `wait`, goes on with it. One step covers all of that.

A CPU without a current process is in the loop of `scheduler`. Pages are known by the
number of the allocation they come from. Page tables, trap frames, open files, working
directories and names are left out. What `fork`, `exit` and `wait` have done is recorded.
-/

namespace Xv6.Ptable

/-- `enum procstate`. -/
inductive State where
  | unused
  | embryo
  | sleeping
  | runnable
  | running
  | zombie
deriving DecidableEq, Repr

/-- An address to sleep on. `wait` sleeps on the slot of the caller. -/
inductive Chan where
  | proc (slot : Nat)
  | other (address : Nat)
deriving DecidableEq, Repr

/-- Where the saved context of a process that does not run continues. -/
inductive Context where
  /-- A process that has not run yet. -/
  | forkret
  | yield
  /-- In `sleep`, called with a lock other than `ptable.lock`. -/
  | sleep
  /-- In `sleep`, called by `wait` with `ptable.lock`. -/
  | wait
  | exit
deriving DecidableEq, Repr

/-- How far a process is in `fork`. -/
inductive Stage where
  /-- `allocproc` has taken a slot. -/
  | found
  /-- `allocproc` has returned; the slot has a stack. -/
  | stacked
  /-- The child has a page directory and a parent. -/
  | copied
deriving DecidableEq, Repr

/-- The fields of `struct proc`, and the child a process is making in `fork`. -/
structure Slot where
  state : State
  pid : Nat
  parent : Option Nat
  chan : Option Chan
  killed : Bool
  kstack : Option Nat
  pgdir : Option Nat
  context : Context
  making : Option (Nat × Stage)

/-- What has happened to the family of processes, by pid. -/
inductive Event (Cpu : Type) where
  /-- `fork` has made the child runnable. -/
  | fork (parent child : Nat)
  | exit (pid : Nat)
  /-- `wait` of the parent has freed a slot and returns the pid of the child in it. The
  processes that were current at that moment are kept. -/
  | wait (parent child slot : Nat) (current : Cpu → Option Nat)
  /-- `wait` returns -1; whether the caller was killed. -/
  | childless (pid : Nat) (killed : Bool)

/-- `ptable`, with the current process of each CPU. -/
structure Table (Cpu : Type) where
  proc : Nat → Slot
  current : Cpu → Option Nat
  initproc : Nat
  nextpid : Nat
  /-- Allocations so far, and the pages freed, in order. -/
  pages : Nat
  freed : List Nat
  events : List (Event Cpu)

namespace Table

variable {Cpu : Type}

/-- Replace one slot. -/
def setProc (t : Table Cpu) (p : Nat) (value : Slot) : Table Cpu :=
  { t with proc := Function.update t.proc p value }

/-- Record an event. -/
def note (t : Table Cpu) (event : Event Cpu) : Table Cpu :=
  { t with events := t.events ++ [event] }

/-- Wake all processes that sleep on an address. -/
def wakeup1 (t : Table Cpu) (chan : Chan) : Table Cpu :=
  { t with
    proc := fun q =>
      if (t.proc q).state = .sleeping ∧ (t.proc q).chan = some chan then
        { t.proc q with state := .runnable }
      else t.proc q }

/-! ## `wait` -/

/-- A zombie child is freed. Its directory pointer stays as it is. -/
def reap (t : Table Cpu) (p q : Nat) : Table Cpu :=
  let child := t.proc q
  let t := { t with freed := t.freed ++ child.kstack.toList ++ child.pgdir.toList }
  (t.note (.wait (t.proc p).pid child.pid q t.current)).setProc q
    { child with kstack := none, state := .unused, pid := 0, parent := none, killed := false }

/-- One round of the loop of `wait`. The process goes to sleep, or has an answer and
releases the lock. -/
def waitRound (t : Table Cpu) (p : Nat) : Bool × Table Cpu :=
  match (List.range nproc).find? fun q =>
      (t.proc q).parent = some p ∧ (t.proc q).state = .zombie with
  | some q => (false, t.reap p q)
  | none =>
    if (List.range nproc).all (fun q => (t.proc q).parent ≠ some p) ∨ (t.proc p).killed then
      (false, t.note (.childless (t.proc p).pid (t.proc p).killed))
    else
      (true, t.setProc p
        { t.proc p with chan := some (.proc p), state := .sleeping, context := .wait })

/-! ## `scheduler`, `sched`, `yield`, `sleep` -/

/-- `proc->chan = 0`, behind the `sched` of `sleep`. -/
def tidy (t : Table Cpu) (p : Nat) : Table Cpu := t.setProc p { t.proc p with chan := none }

section
variable [DecidableEq Cpu]

/-- Set the current process of a CPU. -/
def setCurrent (t : Table Cpu) (c : Cpu) (p : Option Nat) : Table Cpu :=
  { t with current := Function.update t.current c p }

/-- The scheduler takes a process. -/
def dispatch (t : Table Cpu) (c : Cpu) (p : Nat) : Table Cpu :=
  (t.setCurrent c (some p)).setProc p { t.proc p with state := .running }

/-- The loop of the scheduler over the slots that are left, with the lock held, to the
release of the lock, by the scheduler or by a process it switched to. A process in `wait`
may go to sleep again; then the loop goes on. -/
def scan (c : Cpu) : List Nat → Table Cpu → Except String (Table Cpu)
  | [], t => .ok t
  | p :: rest, t =>
    if (t.proc p).state = .runnable then
      match (t.proc p).context with
      | .forkret => .ok (t.dispatch c p)
      | .yield => .ok (t.dispatch c p)
      | .sleep => .ok ((t.dispatch c p).tidy p)
      | .wait =>
        match ((t.dispatch c p).tidy p).waitRound p with
        | (false, t) => .ok t
        | (true, t) => scan c rest (t.setCurrent c none)
      | .exit => .error "zombie exit"
    else scan c rest t

/-- The slots behind one in the table. -/
def later (p : Nat) : List Nat := List.range' (p + 1) (nproc - (p + 1))

/-- The process of a CPU switches to the scheduler, which has no process then and goes on
behind it. -/
def sched (t : Table Cpu) (c : Cpu) (p : Nat) : Except String (Table Cpu) :=
  if (t.proc p).state = .running then .error "sched running"
  else scan c (later p) (t.setCurrent c none)

/-- A CPU without a process looks through the table. -/
def scheduler (t : Table Cpu) (c : Cpu) : Except String (Option (Table Cpu)) :=
  match t.current c with
  | some _ => .ok none
  | none => some <$> scan c (List.range nproc) t

/-- Give up the CPU for one scheduling round. -/
def yield (t : Table Cpu) (c : Cpu) : Except String (Option (Table Cpu)) :=
  match t.current c with
  | none => .ok none
  | some p => some <$>
    (t.setProc p { t.proc p with state := .runnable, context := .yield }).sched c p

/-- Sleep on an address, with a lock other than `ptable.lock`. -/
def sleep (t : Table Cpu) (c : Cpu) (chan : Chan) : Except String (Option (Table Cpu)) :=
  match t.current c with
  | none => .ok none
  | some p => some <$>
    (t.setProc p { t.proc p with chan := some chan, state := .sleeping, context := .sleep }).sched
      c p

/-- Wait for a child. -/
def wait (t : Table Cpu) (c : Cpu) : Except String (Option (Table Cpu)) :=
  match t.current c with
  | none => .ok none
  | some p =>
    if (t.proc p).making ≠ none then .ok none
    else
      match t.waitRound p with
      | (false, t) => .ok (some t)
      | (true, t) => some <$> t.sched c p

/-- The children of a process go to `initproc`, which is woken when one of them is a
zombie. The loop of `exit` wakes it once for each; that has the same effect. -/
def adopt (t : Table Cpu) (p : Nat) : Table Cpu :=
  let orphan := fun q => (t.proc q).parent = some p
  let adopted := { t with
    proc := fun q => if orphan q then { t.proc q with parent := some t.initproc } else t.proc q }
  if (List.range nproc).any (fun q => orphan q ∧ (t.proc q).state = .zombie) then
    adopted.wakeup1 (.proc t.initproc)
  else adopted

/-- The table when `exit` calls `sched`: the parent is woken, the children are passed on
and the process is a zombie. -/
def bury (t : Table Cpu) (p : Nat) : Table Cpu :=
  let woken := match (t.proc p).parent with
    | some q => t.wakeup1 (.proc q)
    | none => t
  let t := (woken.adopt p).note (.exit (t.proc p).pid)
  t.setProc p { t.proc p with state := .zombie, context := .exit }

/-- Exit, from the `acquire` on. -/
def exit (t : Table Cpu) (c : Cpu) : Except String (Option (Table Cpu)) :=
  match t.current c with
  | none => .ok none
  | some p =>
    if (t.proc p).making ≠ none then .ok none
    else if p = t.initproc then .error "init exiting"
    else some <$> (t.bury p).sched c p

/-! ## `fork` and `kill` -/

/-- The part of `allocproc` that looks for an unused slot. -/
def fork (t : Table Cpu) (c : Cpu) : Option (Table Cpu) :=
  match t.current c with
  | none => none
  | some p =>
    if (t.proc p).making ≠ none then none
    else
      match (List.range nproc).find? fun q => (t.proc q).state = .unused with
      | none => some t
      | some q =>
        let taken := { t.setProc q { t.proc q with state := .embryo, pid := t.nextpid } with
          nextpid := t.nextpid + 1 }
        some (taken.setProc p { taken.proc p with making := some (q, .found) })

/-- The next part of `fork`: the stack, the page directory, the state of the child. The
first two fail when `kalloc` does. -/
def resume (t : Table Cpu) (c : Cpu) (succeeds : Bool) : Option (Table Cpu) :=
  match t.current c with
  | none => none
  | some p =>
    let done := fun (t : Table Cpu) => t.setProc p { t.proc p with making := none }
    match (t.proc p).making with
    | none => none
    | some (q, .found) =>
      if succeeds then
        let t := { t.setProc q { t.proc q with kstack := some t.pages, context := .forkret } with
          pages := t.pages + 1 }
        some (t.setProc p { t.proc p with making := some (q, .stacked) })
      else some (done (t.setProc q { t.proc q with kstack := none, state := .unused }))
    | some (q, .stacked) =>
      if succeeds then
        let t := { t.setProc q { t.proc q with pgdir := some t.pages, parent := some p } with
          pages := t.pages + 1 }
        some (t.setProc p { t.proc p with making := some (q, .copied) })
      else
        let t := { t with freed := t.freed ++ (t.proc q).kstack.toList }
        some (done (t.setProc q
          { t.proc q with pgdir := none, kstack := none, state := .unused }))
    | some (q, .copied) =>
      let t := t.note (.fork (t.proc p).pid (t.proc q).pid)
      some (done (t.setProc q { t.proc q with state := .runnable }))

end

/-- Mark the first process that has a pid, and wake it. A pid has 32 bits. -/
def kill (t : Table Cpu) (pid : UInt32) : Table Cpu :=
  match (List.range nproc).find? fun p => UInt32.ofNat (t.proc p).pid = pid with
  | none => t
  | some p => t.setProc p { t.proc p with
      killed := true
      state := if (t.proc p).state = .sleeping then .runnable else (t.proc p).state }

end Table

/-- What can happen next. -/
inductive Action (Cpu : Type) where
  | scheduler (c : Cpu)
  | yield (c : Cpu)
  | sleep (c : Cpu) (chan : Chan)
  | wakeup (chan : Chan)
  | kill (pid : UInt32)
  | fork (c : Cpu)
  | resume (c : Cpu) (succeeds : Bool)
  | exit (c : Cpu)
  | wait (c : Cpu)

variable {Cpu : Type} [DecidableEq Cpu]

/-- One step. -/
def step (t : Table Cpu) : Action Cpu → Except String (Option (Table Cpu))
  | .scheduler c => t.scheduler c
  | .yield c => t.yield c
  | .sleep c chan => t.sleep c chan
  | .wakeup chan => .ok (some (t.wakeup1 chan))
  | .kill pid => .ok (some (t.kill pid))
  | .fork c => .ok (t.fork c)
  | .resume c succeeds => .ok (t.resume c succeeds)
  | .exit c => t.exit c
  | .wait c => t.wait c

/-- The table after `userinit`: the first process has not run yet. -/
def userinit : Table Cpu where
  proc := fun p =>
    if p = 0 then
      { state := .runnable, pid := 1, parent := none, chan := none, killed := false,
        kstack := some 0, pgdir := some 1, context := .forkret, making := none }
    else
      { state := .unused, pid := 0, parent := none, chan := none, killed := false,
        kstack := none, pgdir := none, context := .forkret, making := none }
  current := fun _ => none
  initproc := 0
  nextpid := 2
  pages := 2
  freed := []
  events := []

/-- The table after a list of steps. -/
def run (t : Table Cpu) (steps : List (Action Cpu)) : Option (Table Cpu) :=
  Runs.run step t steps

end Xv6.Ptable
