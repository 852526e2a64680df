import Xv6.Lib.Runs

/-!
# One pipe and the processes that use it

The functions of `pipe.c` that work on a pipe that exists. Any number of processes are
in them at a time; a step of the model is what one of them does between two points at
which another may come in, so a kill can fall between the test of `proc->killed` and
the call of `sleep`. All steps of a call but the first and those after a sleep are
taken with `p->lock` held.

`sleep` gives up `p->lock` and goes to sleep in one step: it takes `ptable.lock` before
it releases `p->lock`, and `wakeup` and `kill` take `ptable.lock`. A process is in a
call only while its descriptor table refers to the file of that end, and `fileclose`
calls `pipeclose` when the last reference goes; so `pipeclose` of an end comes when no
process is in a call on it, and no call on it begins later.

The user memory a call reads is given by the bytes at its address, and the bytes it
delivers are recorded in the order they are copied out. Which process runs on which
CPU is left out: a process that is not asleep may take its next step at any time.
-/

namespace Xv6

/-- Bytes a pipe holds, `PIPESIZE`. -/
def pipesize : Nat := 512

/-- The fields of `struct pipe` other than its lock. -/
structure Pipe where
  data : Nat → UInt8
  nread : UInt32
  nwrite : UInt32
  readopen : Bool
  writeopen : Bool

namespace Pipe

/-- The test `p->nwrite == p->nread + PIPESIZE`. -/
def full (p : Pipe) : Bool := p.nwrite == p.nread + UInt32.ofNat pipesize

/-- The test `p->nread == p->nwrite`. -/
def empty (p : Pipe) : Bool := p.nread == p.nwrite

/-- The assignment `p->data[p->nwrite++ % PIPESIZE] = byte`. -/
def store (p : Pipe) (byte : UInt8) : Pipe :=
  { p with
    data := Function.update p.data (p.nwrite % UInt32.ofNat pipesize).toNat byte
    nwrite := p.nwrite + 1 }

/-- The byte `p->data[p->nread++ % PIPESIZE]`. -/
def next (p : Pipe) : UInt8 := p.data (p.nread % UInt32.ofNat pipesize).toNat

/-- The pipe after that byte was read. -/
def fetch (p : Pipe) : Pipe := { p with nread := p.nread + 1 }

/-- The two addresses processes sleep on. -/
inductive Chan where
  | nread
  | nwrite
deriving DecidableEq, Repr

/-- Where a process is in the functions of `pipe.c`. -/
inductive Task where
  /-- In no call; the value its last call returned. -/
  | returned (result : Int)
  /-- `pipewrite`, at the head of its `for` loop. -/
  | writing (addr : Nat → UInt8) (n : Int) (i : Nat)
  /-- `pipewrite` has found the pipe full. -/
  | blocked (addr : Nat → UInt8) (n : Int) (i : Nat)
  /-- `pipewrite` is going to wake readers and sleep. -/
  | stalling (addr : Nat → UInt8) (n : Int) (i : Nat)
  /-- `pipewrite` is in `sleep(&p->nwrite, &p->lock)`. -/
  | stalled (addr : Nat → UInt8) (n : Int) (i : Nat)
  /-- `piperead`, at the head of its `while` loop. -/
  | reading (n : Int)
  /-- `piperead` has found the pipe empty and its write end open. -/
  | starved (n : Int)
  /-- `piperead` is going to sleep. -/
  | drowsy (n : Int)
  /-- `piperead` is in `sleep(&p->nread, &p->lock)`. -/
  | parched (n : Int)
  /-- `piperead`, at the head of its `for` loop. -/
  | copying (n : Int) (i : Nat)

/-- A pipe, its lock and the processes. -/
structure State (Pid : Type) where
  pipe : Pipe
  /-- The process that holds `p->lock`. -/
  lock : Option Pid
  task : Pid → Task
  /-- The address a `SLEEPING` process sleeps on. -/
  sleeping : Pid → Option Chan
  killed : Pid → Bool
  /-- The processes in a call on the write end, and on the read end. -/
  writers : Finset Pid
  readers : Finset Pid
  /-- `pipeclose` has given the page back. The fields stay here as it left them; no call
  is in progress and none can begin. -/
  freed : Bool
  /-- The bytes `pipewrite` has stored, in the order of the stores. -/
  stored : List UInt8
  /-- The bytes `piperead` has copied out, in the order of the copies. -/
  delivered : List UInt8

namespace State

variable {Pid : Type} [DecidableEq Pid]

/-- A process moves on to a point of its call. -/
def become (s : State Pid) (p : Pid) (task : Task) : State Pid :=
  { s with task := Function.update s.task p task }

/-- `acquire(&p->lock)`. -/
def acquire (s : State Pid) (p : Pid) : State Pid := { s with lock := some p }

/-- `release(&p->lock)`. -/
def release (s : State Pid) : State Pid := { s with lock := none }

/-- Every process asleep on an address becomes runnable. -/
def wakeup (s : State Pid) (chan : Chan) : State Pid :=
  { s with sleeping := fun p => if s.sleeping p = some chan then none else s.sleeping p }

/-- Release `p->lock` and sleep. -/
def sleep (s : State Pid) (p : Pid) (chan : Chan) : State Pid :=
  { s with lock := none, sleeping := Function.update s.sleeping p (some chan) }

/-- A call on the write end returns. -/
def returnWrite (s : State Pid) (p : Pid) (result : Int) : State Pid :=
  { s.release.become p (.returned result) with writers := s.writers.erase p }

/-- A call on the read end returns. -/
def returnRead (s : State Pid) (p : Pid) (result : Int) : State Pid :=
  { s.release.become p (.returned result) with readers := s.readers.erase p }

/-- The call of `pipewrite`, to its first `acquire`. -/
def pipewrite (s : State Pid) (p : Pid) (addr : Nat → UInt8) (n : Int) : Option (State Pid) :=
  match s.task p with
  | .returned _ =>
    if s.lock = none ∧ s.pipe.writeopen = true then
      some { (s.acquire p).become p (.writing addr n 0) with writers := insert p s.writers }
    else none
  | _ => none

/-- The call of `piperead`, to its first `acquire`. -/
def piperead (s : State Pid) (p : Pid) (n : Int) : Option (State Pid) :=
  match s.task p with
  | .returned _ =>
    if s.lock = none ∧ s.pipe.readopen = true then
      some { (s.acquire p).become p (.reading n) with readers := insert p s.readers }
    else none
  | _ => none

/-- The next step of a process that is in `pipewrite` or `piperead`. -/
def advance (s : State Pid) (p : Pid) : Option (State Pid) :=
  match s.task p with
  | .returned _ => none
  | .writing addr n i =>
    if (i : Int) < n then
      if s.pipe.full then some (s.become p (.blocked addr n i))
      else
        some { s.become p (.writing addr n (i + 1)) with
          pipe := s.pipe.store (addr i), stored := s.stored ++ [addr i] }
    else some ((s.wakeup .nread).returnWrite p n)
  | .blocked addr n i =>
    if s.pipe.readopen = false ∨ s.killed p = true then some (s.returnWrite p (-1))
    else some (s.become p (.stalling addr n i))
  | .stalling addr n i =>
    some (((s.wakeup .nread).sleep p .nwrite).become p (.stalled addr n i))
  | .stalled addr n i =>
    if s.sleeping p = none ∧ s.lock = none then
      some ((s.acquire p).become p (.writing addr n i))
    else none
  | .reading n =>
    if s.pipe.empty = true ∧ s.pipe.writeopen = true then some (s.become p (.starved n))
    else some (s.become p (.copying n 0))
  | .starved n =>
    if s.killed p then some (s.returnRead p (-1)) else some (s.become p (.drowsy n))
  | .drowsy n => some ((s.sleep p .nread).become p (.parched n))
  | .parched n =>
    if s.sleeping p = none ∧ s.lock = none then some ((s.acquire p).become p (.reading n))
    else none
  | .copying n i =>
    if (i : Int) < n ∧ s.pipe.empty = false then
      some { s.become p (.copying n (i + 1)) with
        pipe := s.pipe.fetch, delivered := s.delivered ++ [s.pipe.next] }
    else some ((s.wakeup .nwrite).returnRead p i)

/-- The page is freed when both ends are closed. -/
def retire (s : State Pid) : State Pid :=
  { s with freed := s.pipe.readopen == false && s.pipe.writeopen == false }

/-- Close an end nobody is in a call on. The second close frees the page. -/
def pipeclose (s : State Pid) : Bool → Option (State Pid)
  | true =>
    if s.lock = none ∧ s.writers = ∅ ∧ s.pipe.writeopen = true then
      some ({ s with pipe := { s.pipe with writeopen := false } }.wakeup .nread).retire
    else none
  | false =>
    if s.lock = none ∧ s.readers = ∅ ∧ s.pipe.readopen = true then
      some ({ s with pipe := { s.pipe with readopen := false } }.wakeup .nwrite).retire
    else none

/-- `kill` marks a process and wakes it. -/
def kill (s : State Pid) (p : Pid) : State Pid :=
  { s with
    killed := Function.update s.killed p true
    sleeping := Function.update s.sleeping p none }

end State

/-- What can happen next. -/
inductive Action (Pid : Type) where
  | pipewrite (p : Pid) (addr : Nat → UInt8) (n : Int)
  | piperead (p : Pid) (n : Int)
  | advance (p : Pid)
  | pipeclose (writable : Bool)
  | kill (p : Pid)

variable {Pid : Type} [DecidableEq Pid]

/-- One step. -/
def step (s : State Pid) : Action Pid → Option (State Pid)
  | .pipewrite p addr n => s.pipewrite p addr n
  | .piperead p n => s.piperead p n
  | .advance p => s.advance p
  | .pipeclose writable => s.pipeclose writable
  | .kill p => some (s.kill p)

/-- The state after a list of steps, if each was possible. -/
def run (s : State Pid) (steps : List (Action Pid)) : Option (State Pid) :=
  Runs.run (Runs.unfailing step) s steps

/-- The pipe `pipealloc` makes of a page, before any call. -/
def pipealloc (data : Nat → UInt8) : State Pid where
  pipe := { data, nread := 0, nwrite := 0, readopen := true, writeopen := true }
  lock := none
  task := fun _ => .returned 0
  sleeping := fun _ => none
  killed := fun _ => false
  writers := ∅
  readers := ∅
  freed := false
  stored := []
  delivered := []

end Pipe

end Xv6
