import Xv6.Lib.Runs

/-!
# `sleep` and `wakeup`, step by step

The functions `sleep`, `sched`, `scheduler`, `yield`, `wakeup`, `wakeup1` and `kill` of
`proc.c` with every acquisition and release of a lock, every assignment to a slot that
another CPU can see and every slot of the loop of `wakeup1` as a step of its own. A
spinlock is held by a CPU; `ptable.lock` is handed over at `swtch` to the scheduler of
the CPU and from it to the process it switches to.

Processes follow the discipline of sleeping: every channel has a lock, a process tests
or changes the condition of a channel, sleeps on it and wakes it only with that lock
held, and it goes to sleep only when the test has failed. The lock of a channel may be
`ptable.lock` itself, as in `wait`; then `sleep` neither takes nor releases a lock and
`wakeup1` is called directly.

It is recorded, for each process and channel, whether a wakeup of the channel has taken
effect since the process last tested the condition of the channel.
-/

namespace Xv6.Sleep

open Function

/-- Spinlocks. -/
inductive Lock where
  | ptable
  | other (id : Nat)
deriving DecidableEq, Repr

/-- States of a process that has started and not exited. -/
inductive State where
  | sleeping
  | runnable
  | running
deriving DecidableEq, Repr

/-- Where a process is. -/
inductive Pc (n : Nat) (Chan : Type) where
  /-- It holds no lock and is in none of these functions. -/
  | user
  /-- It holds a lock and is in none of these functions. -/
  | holding (lk : Lock)
  /-- `sleep`, before it acquires `ptable.lock`. -/
  | sleepy (chan : Chan)
  /-- `sleep`, before it releases the lock of the channel. -/
  | swapping (chan : Chan)
  /-- `sleep`, before `proc->chan = chan`. -/
  | bedding (chan : Chan)
  /-- `sleep`, before `proc->state = SLEEPING`. -/
  | tucked (chan : Chan)
  /-- `sleep`, before the `swtch` of `sched`. -/
  | dozing (chan : Chan)
  /-- In the `swtch` of `sched`, called by `sleep`. -/
  | asleep (chan : Chan)
  /-- `sleep`, before `proc->chan = 0`. -/
  | rousing (chan : Chan)
  /-- `sleep`, before it releases `ptable.lock`. -/
  | roused (chan : Chan)
  /-- `sleep`, before it acquires the lock of the channel again. -/
  | reacquiring (chan : Chan)
  /-- `wakeup`, before it acquires `ptable.lock`. -/
  | calling (chan : Chan)
  /-- In the loop of `wakeup1`, with the slots that are left. -/
  | waking (chan : Chan) (rest : List (Fin n))
  /-- `wakeup`, before it releases `ptable.lock`. -/
  | woke (chan : Chan)
  /-- `yield`, with `ptable.lock` held, and where it was called: nowhere in particular, or
  before `sleep` acquires the lock of a channel again. -/
  | yielding (back : Option Chan)
  /-- In the `swtch` of `sched`, called by `yield`, or not yet started. -/
  | yielded (back : Option Chan)
  /-- `yield`, before it releases `ptable.lock`. -/
  | resuming (back : Option Chan)

/-- The processes `0, …, n - 1`, the CPUs and the locks. -/
structure System (n : Nat) (Cpu Chan : Type) where
  holder : Lock → Option Cpu
  current : Cpu → Option (Fin n)
  /-- The slots the loop of the scheduler of a CPU has still to look at, while it is in
  that loop. -/
  scanning : Cpu → Option (List (Fin n))
  pc : Fin n → Pc n Chan
  state : Fin n → State
  chan : Fin n → Option Chan
  killed : Fin n → Bool
  condition : Chan → Bool
  /-- A wakeup of the channel took effect after the process last tested its condition. -/
  heard : Fin n → Chan → Bool

/-- What a process does where it has a choice. -/
inductive Choice (Chan : Type) where
  | acquire (lk : Lock)
  | release
  | test (chan : Chan)
  | assign (chan : Chan) (value : Bool)
  | wakeup (chan : Chan)
  | yield
  | next

/-- What can happen next. -/
inductive Action (n : Nat) (Cpu Chan : Type) where
  | process (c : Cpu) (choice : Choice Chan)
  | scheduler (c : Cpu)
  | kill (p : Fin n)

variable {n : Nat} {Cpu Chan : Type}

namespace System

variable [DecidableEq Cpu]

/-- A process goes on to another point. -/
def goto (s : System n Cpu Chan) (p : Fin n) (pc : Pc n Chan) : System n Cpu Chan :=
  { s with pc := update s.pc p pc }

/-- A CPU takes a lock. -/
def acquire (s : System n Cpu Chan) (c : Cpu) (lk : Lock) : System n Cpu Chan :=
  { s with holder := update s.holder lk (some c) }

/-- A lock is released. -/
def release (s : System n Cpu Chan) (lk : Lock) : System n Cpu Chan :=
  { s with holder := update s.holder lk none }

/-- `swtch` to the scheduler of the CPU, which goes on behind the slot of the process. -/
def sched (s : System n Cpu Chan) (c : Cpu) (p : Fin n) (pc : Pc n Chan) : System n Cpu Chan :=
  { s.goto p pc with
    current := update s.current c none
    scanning := update s.scanning c (some ((List.finRange n).filter (p < ·))) }

/-- Where `yield` returns to. -/
def back : Option Chan → Pc n Chan
  | none => .user
  | some chan => .reacquiring chan

/-- `yield`, as an interrupt calls it. -/
def yield (s : System n Cpu Chan) (c : Cpu) (p : Fin n) (back : Option Chan) :
    Option (System n Cpu Chan) :=
  if s.holder .ptable = none then some ((s.acquire c .ptable).goto p (.yielding back)) else none

variable [DecidableEq Chan] (lockOf : Chan → Lock)

/-- A process that holds a lock tests a condition, changes one, wakes a channel or
releases the lock. -/
def withLock (s : System n Cpu Chan) (p : Fin n) (lk : Lock) :
    Choice Chan → Option (System n Cpu Chan)
  | .release => some ((s.release lk).goto p .user)
  | .test chan =>
    if lockOf chan = lk then
      let s := { s with
        heard := update s.heard p (update (s.heard p) chan false) }
      if s.condition chan then some s
      else some (s.goto p (if lk = .ptable then .bedding chan else .sleepy chan))
    else none
  | .assign chan value =>
    if lockOf chan = lk then
      some { s with condition := update s.condition chan value }
    else none
  | .wakeup chan =>
    if lockOf chan = lk then
      some (s.goto p
        (if lk = .ptable then .waking chan (List.finRange n) else .calling chan))
    else none
  | _ => none

/-- One slot of the loop of `wakeup1`. -/
def rouse (s : System n Cpu Chan) (chan : Chan) (q : Fin n) : System n Cpu Chan :=
  if s.state q = .sleeping ∧ s.chan q = some chan then
    { s with state := update s.state q .runnable }
  else s

/-- The next step of the process that runs on a CPU. -/
def process (s : System n Cpu Chan) (c : Cpu) (p : Fin n) (choice : Choice Chan) :
    Option (System n Cpu Chan) :=
  match s.pc p with
  | .user =>
    match choice with
    | .acquire lk =>
      if s.holder lk = none then some ((s.acquire c lk).goto p (.holding lk)) else none
    | .yield => s.yield c p none
    | _ => none
  | .holding lk => s.withLock lockOf p lk choice
  | .sleepy chan =>
    if s.holder .ptable = none then some ((s.acquire c .ptable).goto p (.swapping chan))
    else none
  | .swapping chan => some ((s.release (lockOf chan)).goto p (.bedding chan))
  | .bedding chan =>
    some ({ s with chan := update s.chan p (some chan) }.goto p (.tucked chan))
  | .tucked chan =>
    some ({ s with state := update s.state p .sleeping }.goto p (.dozing chan))
  | .dozing chan => some (s.sched c p (.asleep chan))
  | .asleep _ => none
  | .rousing chan =>
    let s := { s with chan := update s.chan p none }
    some (s.goto p (if lockOf chan = .ptable then .holding .ptable else .roused chan))
  | .roused chan => some ((s.release .ptable).goto p (.reacquiring chan))
  | .reacquiring chan =>
    match choice with
    | .yield => s.yield c p (some chan)
    | _ =>
      if s.holder (lockOf chan) = none then
        some ((s.acquire c (lockOf chan)).goto p (.holding (lockOf chan)))
      else none
  | .calling chan =>
    if s.holder .ptable = none then
      some ((s.acquire c .ptable).goto p (.waking chan (List.finRange n)))
    else none
  | .waking chan (q :: rest) => some ((s.rouse chan q).goto p (.waking chan rest))
  | .waking chan [] =>
    -- the loop is over: the wakeup has taken effect for every process
    let s := { s with heard := fun q => update (s.heard q) chan true }
    some (s.goto p (if lockOf chan = .ptable then .holding .ptable else .woke chan))
  | .woke chan => some ((s.release .ptable).goto p (.holding (lockOf chan)))
  | .yielding place =>
    some ({ s with state := update s.state p .runnable }.sched c p (.yielded place))
  | .yielded _ => none
  | .resuming place => some ((s.release .ptable).goto p (back place))

/-- Where a process goes on when the scheduler switches to it. -/
def resumed : Pc n Chan → Pc n Chan
  | .asleep chan => .rousing chan
  | .yielded place => .resuming place
  | pc => pc

omit [DecidableEq Chan] in
/-- The scheduler switches to a process, which goes on with `ptable.lock` held. -/
def dispatch (s : System n Cpu Chan) (c : Cpu) (q : Fin n) : System n Cpu Chan :=
  { s.goto q (resumed (s.pc q)) with
    current := update s.current c (some q)
    scanning := update s.scanning c none
    state := update s.state q .running }

omit [DecidableEq Chan] in
/-- The next step of the scheduler of a CPU that runs no process. -/
def scheduler (s : System n Cpu Chan) (c : Cpu) : Option (System n Cpu Chan) :=
  match s.current c, s.scanning c with
  | some _, _ => none
  | none, none =>
    if s.holder .ptable = none then
      some { s.acquire c .ptable with
        scanning := update s.scanning c (some (List.finRange n)) }
    else none
  | none, some [] =>
    some { s.release .ptable with scanning := update s.scanning c none }
  | none, some (q :: rest) =>
    if s.state q = .runnable then some (s.dispatch c q)
    else some { s with scanning := update s.scanning c (some rest) }

omit [DecidableEq Cpu] [DecidableEq Chan] in
/-- `kill` runs with `ptable.lock` held from its first step to its last. -/
def kill (s : System n Cpu Chan) (p : Fin n) : Option (System n Cpu Chan) :=
  if s.holder .ptable = none then
    some { s with
      killed := update s.killed p true
      state := update s.state p
        (if s.state p = .sleeping then .runnable else s.state p) }
  else none

/-- One step. -/
def step (s : System n Cpu Chan) : Action n Cpu Chan → Option (System n Cpu Chan)
  | .process c choice =>
    match s.current c with
    | none => none
    | some p => s.process lockOf c p choice
  | .scheduler c => s.scheduler c
  | .kill p => s.kill p

/-- The state after a list of steps. -/
def run (s : System n Cpu Chan) (steps : List (Action n Cpu Chan)) : Option (System n Cpu Chan) :=
  Runs.run (Runs.unfailing (step lockOf)) s steps

end System

/-- All processes are runnable and no CPU runs one. -/
def start (condition : Chan → Bool) : System n Cpu Chan where
  holder := fun _ => none
  current := fun _ => none
  scanning := fun _ => none
  pc := fun _ => .yielded none
  state := fun _ => .runnable
  chan := fun _ => none
  killed := fun _ => false
  condition := condition
  heard := fun _ _ => false

end Xv6.Sleep
