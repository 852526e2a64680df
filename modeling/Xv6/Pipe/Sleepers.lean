import Xv6.Pipe.Fifo

/-!
# Processes asleep on a pipe

When `p->lock` is free, a process asleep on `&p->nread` should find the pipe empty with
a writer to come, and one asleep on `&p->nwrite` should find it full with a reader to
come. `pipewrite` stores bytes before it wakes anybody, and leaves without a wakeup when
it finds the pipe full and its process killed; a reader may be asleep then. That is the
only step which strands a sleeper.
-/

namespace Xv6.Pipe

open Function

namespace Task

/-- The process holds `p->lock`. -/
def locked : Task → Bool
  | .writing .. | .blocked .. | .stalling .. => true
  | .reading .. | .starved .. | .drowsy .. | .copying .. => true
  | .returned _ | .stalled .. | .parched _ => false

/-- The process is in `pipewrite`. -/
def onWrite : Task → Bool
  | .writing .. | .blocked .. | .stalling .. | .stalled .. => true
  | _ => false

/-- The process is in `piperead`. -/
def onRead : Task → Bool
  | .reading .. | .starved .. | .drowsy .. | .parched .. | .copying .. => true
  | _ => false

/-- The process is in `sleep`. -/
def dormant : Task → Bool
  | .stalled .. | .parched _ => true
  | _ => false

/-- Whether the process holds the lock, and which end it is in a call on. -/
def side (task : Task) : Bool × Bool × Bool := (task.locked, task.onWrite, task.onRead)

/-- What a process that holds the lock knows of the pipe from its last test. -/
def Knows (p : Pipe) : Task → Prop
  | .blocked .. => p.full = true
  | .stalling .. => p.full = true ∧ p.readopen = true
  | .starved _ | .drowsy _ => p.empty = true ∧ p.writeopen = true
  | _ => True

end Task

/-- Which ends are open. -/
def ends (p : Pipe) : Bool × Bool := (p.writeopen, p.readopen)

namespace State

variable {Pid : Type}
  {s after : State Pid} {task : Task} {p : Pid} {addr : Nat → UInt8} {n : Int} {i : Nat}

/-- No process sleeps on the pipe for something that has already happened. -/
def Unstranded (s : State Pid) : Prop :=
  ∀ p, (s.sleeping p = some .nread → s.pipe.empty = true ∧ s.pipe.writeopen = true) ∧
    (s.sleeping p = some .nwrite → s.pipe.full = true ∧ s.pipe.readopen = true)

/-- The lock, the ends in use and the places of the sleepers agree with where the
processes are, and every sleeper that is not where it should be is about to be woken by
the holder of the lock. -/
structure Orderly (s : State Pid) : Prop where
  holder : ∀ p, s.lock = some p ↔ (s.task p).locked = true
  writer : ∀ p, p ∈ s.writers ↔ (s.task p).onWrite = true
  reader : ∀ p, p ∈ s.readers ↔ (s.task p).onRead = true
  writeopen : ∀ p, (s.task p).onWrite = true → s.pipe.writeopen = true
  readopen : ∀ p, (s.task p).onRead = true → s.pipe.readopen = true
  knows : ∀ p, (s.task p).Knows s.pipe
  parched : ∀ p, s.sleeping p = some .nread → ∃ n, s.task p = .parched n
  stalled : ∀ p, s.sleeping p = some .nwrite → ∃ addr n i, s.task p = .stalled addr n i
  thirsty : ∀ p, s.sleeping p = some .nread → (s.pipe.empty = true ∧ s.pipe.writeopen = true) ∨
    ∃ w, s.lock = some w ∧ (s.task w).onWrite = true
  choked : ∀ p, s.sleeping p = some .nwrite → (s.pipe.full = true ∧ s.pipe.readopen = true) ∨
    ∃ r n i, s.lock = some r ∧ s.task r = .copying n i

theorem Orderly.unstranded (orderly : s.Orderly) (free : s.lock = none) :
    s.Unstranded := by
  intro p
  refine ⟨fun asleep => ?_, fun asleep => ?_⟩
  · rcases orderly.thirsty p asleep with fine | ⟨w, held, _⟩
    · exact fine
    · rw [free] at held
      cases held
  · rcases orderly.choked p asleep with fine | ⟨r, n, i, held, _⟩
    · exact fine
    · rw [free] at held
      cases held

theorem orderly_pipealloc (data : Nat → UInt8) : (pipealloc data : State Pid).Orderly := by
  constructor <;> simp [pipealloc, Task.locked, Task.onWrite, Task.onRead, Task.Knows]

/-- Outside the lock a process knows nothing of the pipe. -/
theorem Knows.of_unlocked (unlocked : task.locked = false) (pipe : Pipe) :
    task.Knows pipe := by
  cases task <;> trivial

theorem Orderly.awake (orderly : s.Orderly) (up : (s.task p).dormant = false) :
    s.sleeping p = none := by
  cases asleep : s.sleeping p with
  | none => rfl
  | some chan =>
    cases chan with
    | nread =>
      obtain ⟨n, there⟩ := orderly.parched p asleep
      rw [there] at up
      cases up
    | nwrite =>
      obtain ⟨addr, n, i, there⟩ := orderly.stalled p asleep
      rw [there] at up
      cases up

theorem dormant_of_locked (locked : task.locked = true) :
    task.dormant = false := by
  cases task <;> trivial

theorem onRead_of_onWrite (writes : task.onWrite = true) :
    task.onRead = false := by
  cases task <;> trivial

theorem sleeping_wakeup {q : Pid} {chan other : Chan}
    (asleep : (s.wakeup chan).sleeping q = some other) :
    s.sleeping q = some other ∧ other ≠ chan := by
  dsimp only [wakeup] at asleep
  split at asleep
  · cases asleep
  · rename_i differs
    refine ⟨asleep, ?_⟩
    rintro rfl
    exact differs asleep

/-- While the holder of the lock is not copying bytes out, no writer sleeps in vain. -/
theorem Orderly.choked_of_holder (orderly : s.Orderly) (held : (s.task p).locked = true)
    (other : ∀ n i, s.task p ≠ .copying n i) (q : Pid) (asleep : s.sleeping q = some .nwrite) :
    s.pipe.full = true ∧ s.pipe.readopen = true := by
  rcases orderly.choked q asleep with fine | ⟨r, n, i, holds, copying⟩
  · exact fine
  · rw [(orderly.holder p).mpr held] at holds
    cases holds
    exact absurd copying (other n i)

/-- While a reader holds the lock, no reader sleeps in vain. -/
theorem Orderly.thirsty_of_reader (orderly : s.Orderly) (held : (s.task p).locked = true)
    (reads : (s.task p).onRead = true) (q : Pid) (asleep : s.sleeping q = some .nread) :
    s.pipe.empty = true ∧ s.pipe.writeopen = true := by
  rcases orderly.thirsty q asleep with fine | ⟨w, holds, writes⟩
  · exact fine
  · rw [(orderly.holder p).mpr held] at holds
    cases holds
    rw [onRead_of_onWrite writes] at reads
    cases reads

/-- With the lock free and the processes where they were, an end may close that no
process uses, and sleepers may wake. -/
theorem Orderly.closes (orderly : s.Orderly) (free : s.lock = none) (lock : after.lock = none)
    (task : after.task = s.task) (writers : after.writers = s.writers)
    (readers : after.readers = s.readers)
    (writeopen : ∀ p, (s.task p).onWrite = true → after.pipe.writeopen = true)
    (readopen : ∀ p, (s.task p).onRead = true → after.pipe.readopen = true)
    (fewer : ∀ q chan, after.sleeping q = some chan → s.sleeping q = some chan)
    (fine : after.Unstranded) : after.Orderly := by
  have unlocked : ∀ p, (s.task p).locked = false := by
    intro p
    cases held : (s.task p).locked with
    | false => rfl
    | true =>
      rw [← orderly.holder, free] at held
      cases held
  constructor
  case holder =>
    intro p
    rw [lock, task, unlocked]
    simp
  case writer =>
    rw [writers, task]
    exact orderly.writer
  case reader =>
    rw [readers, task]
    exact orderly.reader
  case writeopen =>
    rw [task]
    exact writeopen
  case readopen =>
    rw [task]
    exact readopen
  case knows =>
    intro p
    rw [task]
    exact Knows.of_unlocked (unlocked p) _
  case parched =>
    intro p asleep
    rw [task]
    exact orderly.parched p (fewer p _ asleep)
  case stalled =>
    intro p asleep
    rw [task]
    exact orderly.stalled p (fewer p _ asleep)
  case thirsty => exact fun p asleep => .inl ((fine p).1 asleep)
  case choked => exact fun p asleep => .inl ((fine p).2 asleep)

variable [DecidableEq Pid]

/-- One process that holds the lock, or found it free, goes on to a point `task` of its
call, holds the lock there or not, and may wake others. -/
structure Moves (s after : State Pid) (p : Pid) (task : Task) : Prop where
  goes : after.task = Function.update s.task p task
  mine : s.lock = none ∨ s.lock = some p
  lock : after.lock = if task.locked then some p else none
  writers : ∀ q, q ∈ after.writers ↔ if q = p then task.onWrite = true else q ∈ s.writers
  readers : ∀ q, q ∈ after.readers ↔ if q = p then task.onRead = true else q ∈ s.readers
  writeopen : after.pipe.writeopen = s.pipe.writeopen
  readopen : after.pipe.readopen = s.pipe.readopen
  others : ∀ q chan, q ≠ p → after.sleeping q = some chan → s.sleeping q = some chan
  self : ∀ chan, after.sleeping p = some chan →
    (chan = .nread ∧ ∃ n, task = .parched n) ∨
      (chan = .nwrite ∧ ∃ addr n i, task = .stalled addr n i)

theorem Orderly.moves (orderly : s.Orderly) (moves : Moves s after p task)
    (writeopen : task.onWrite = true → s.pipe.writeopen = true)
    (readopen : task.onRead = true → s.pipe.readopen = true) (knows : task.Knows after.pipe)
    (thirsty : ∀ q, after.sleeping q = some .nread →
      (after.pipe.empty = true ∧ after.pipe.writeopen = true) ∨
        (task.locked = true ∧ task.onWrite = true))
    (choked : ∀ q, after.sleeping q = some .nwrite →
      (after.pipe.full = true ∧ after.pipe.readopen = true) ∨ ∃ n i, task = .copying n i) :
    after.Orderly := by
  have own : after.task p = task := by rw [moves.goes, update_self]
  have other : ∀ q, q ≠ p → after.task q = s.task q := fun q ne => by
    rw [moves.goes, update_of_ne ne]
  have unlocked : ∀ q, q ≠ p → (s.task q).locked = false := by
    intro q ne
    cases held : (s.task q).locked with
    | false => rfl
    | true =>
      rw [← orderly.holder] at held
      rcases moves.mine with free | mine
      · rw [free] at held
        cases held
      · rw [mine] at held
        cases held
        exact absurd rfl ne
  constructor
  case holder =>
    intro q
    by_cases same : q = p
    · subst same
      rw [own, moves.lock]
      cases task.locked <;> simp
    · rw [other q same, unlocked q same, moves.lock]
      split
      · simp [Ne.symm same]
      · simp
  case writer =>
    intro q
    by_cases same : q = p
    · subst same
      rw [own, moves.writers, if_pos rfl]
    · rw [other q same, moves.writers, if_neg same, orderly.writer]
  case reader =>
    intro q
    by_cases same : q = p
    · subst same
      rw [own, moves.readers, if_pos rfl]
    · rw [other q same, moves.readers, if_neg same, orderly.reader]
  case writeopen =>
    intro q
    rw [moves.writeopen]
    by_cases same : q = p
    · subst same
      rw [own]
      exact writeopen
    · rw [other q same]
      exact orderly.writeopen q
  case readopen =>
    intro q
    rw [moves.readopen]
    by_cases same : q = p
    · subst same
      rw [own]
      exact readopen
    · rw [other q same]
      exact orderly.readopen q
  case knows =>
    intro q
    by_cases same : q = p
    · subst same
      rw [own]
      exact knows
    · rw [other q same]
      exact Knows.of_unlocked (unlocked q same) _
  case parched =>
    intro q asleep
    by_cases same : q = p
    · subst same
      rcases moves.self _ asleep with ⟨_, there⟩ | ⟨wrong, _⟩
      · rw [own]
        exact there
      · cases wrong
    · rw [other q same]
      exact orderly.parched q (moves.others q _ same asleep)
  case stalled =>
    intro q asleep
    by_cases same : q = p
    · subst same
      rcases moves.self _ asleep with ⟨wrong, _⟩ | ⟨_, there⟩
      · cases wrong
      · rw [own]
        exact there
    · rw [other q same]
      exact orderly.stalled q (moves.others q _ same asleep)
  case thirsty =>
    intro q asleep
    rcases thirsty q asleep with fine | ⟨held, writes⟩
    · exact .inl fine
    · exact .inr ⟨p, by rw [moves.lock, if_pos held], by rw [own]; exact writes⟩
  case choked =>
    intro q asleep
    rcases choked q asleep with fine | ⟨n, i, copying⟩
    · exact .inl fine
    · subst copying
      exact .inr ⟨p, n, i, moves.lock, own⟩

theorem Orderly.same_writers (orderly : s.Orderly) (same : task.onWrite = (s.task p).onWrite)
    (q : Pid) :
    q ∈ s.writers ↔ if q = p then task.onWrite = true else q ∈ s.writers := by
  split
  · rename_i self
    subst self
    rw [same]
    exact orderly.writer q
  · rfl

theorem Orderly.same_readers (orderly : s.Orderly) (same : task.onRead = (s.task p).onRead)
    (q : Pid) :
    q ∈ s.readers ↔ if q = p then task.onRead = true else q ∈ s.readers := by
  split
  · rename_i self
    subst self
    rw [same]
    exact orderly.reader q
  · rfl

/-- A process goes on in its call with the lock held, and may change what is in the pipe. -/
theorem Orderly.within {old : Task} {pipe : Pipe} {stored delivered : List UInt8}
    (orderly : s.Orderly) (was : s.task p = old) (held : old.locked = true)
    (same : task.side = old.side) (ends : pipe.ends = s.pipe.ends) (knows : task.Knows pipe)
    (thirsty : ∀ q, s.sleeping q = some .nread →
      (pipe.empty = true ∧ pipe.writeopen = true) ∨ task.onWrite = true)
    (choked : ∀ q, s.sleeping q = some .nwrite →
      (pipe.full = true ∧ pipe.readopen = true) ∨ ∃ n i, task = .copying n i) :
    Orderly { s.become p task with pipe, stored, delivered } := by
  subst was
  obtain ⟨locked, onWrite, onRead⟩ : task.locked = (s.task p).locked ∧
      task.onWrite = (s.task p).onWrite ∧ task.onRead = (s.task p).onRead := by
    simpa [Task.side] using same
  obtain ⟨writeopen, readopen⟩ : pipe.writeopen = s.pipe.writeopen ∧
      pipe.readopen = s.pipe.readopen := by
    simpa [Pipe.ends] using ends
  rw [held] at locked
  have mine : s.lock = some p := (orderly.holder p).mpr held
  have moves : Moves s { s.become p task with pipe, stored, delivered } p task := by
    refine ⟨rfl, .inr mine, ?_, orderly.same_writers onWrite, orderly.same_readers onRead,
      writeopen, readopen, fun q chan _ asleep => asleep, fun chan asleep => ?_⟩
    · rw [if_pos locked]
      exact mine
    · have up : s.sleeping p = some chan := asleep
      rw [orderly.awake (dormant_of_locked held)] at up
      cases up
  refine orderly.moves moves ?_ ?_ knows (fun q asleep => ?_) choked
  · rw [onWrite]
    exact orderly.writeopen p
  · rw [onRead]
    exact orderly.readopen p
  · exact (thirsty q asleep).imp_right fun writes => ⟨locked, writes⟩

/-- A process takes the free lock; no sleeper is stranded then. -/
theorem Orderly.enters {writers readers : Finset Pid} (orderly : s.Orderly)
    (free : s.lock = none) (up : s.sleeping p = none) (locked : task.locked = true)
    (isWriter : ∀ q, q ∈ writers ↔ if q = p then task.onWrite = true else q ∈ s.writers)
    (isReader : ∀ q, q ∈ readers ↔ if q = p then task.onRead = true else q ∈ s.readers)
    (writeopen : task.onWrite = true → s.pipe.writeopen = true)
    (readopen : task.onRead = true → s.pipe.readopen = true) (knows : task.Knows s.pipe) :
    Orderly { (s.acquire p).become p task with writers, readers } := by
  have fine := orderly.unstranded free
  have moves : Moves s { (s.acquire p).become p task with writers, readers } p task := by
    refine ⟨rfl, .inl free, (if_pos locked).symm, isWriter, isReader, rfl, rfl,
      fun q chan _ asleep => asleep, fun chan asleep => ?_⟩
    have down : s.sleeping p = some chan := asleep
    rw [up] at down
    cases down
  exact orderly.moves moves writeopen readopen knows (fun q asleep => .inl ((fine q).1 asleep))
    fun q asleep => .inl ((fine q).2 asleep)

/-- A call returns, and may have woken others. -/
theorem Orderly.returns (result : Int) (orderly : s.Orderly) (held : (s.task p).locked = true)
    (goes : after.task = update s.task p (.returned result)) (lock : after.lock = none)
    (writers : after.writers = s.writers.erase p) (readers : after.readers = s.readers.erase p)
    (pipe : after.pipe = s.pipe)
    (fewer : ∀ q chan, after.sleeping q = some chan → s.sleeping q = some chan)
    (fine : after.Unstranded) : after.Orderly := by
  have up := orderly.awake (dormant_of_locked held)
  have moves : Moves s after p (.returned result) := by
    refine ⟨goes, .inr ((orderly.holder p).mpr held), lock, ?_, ?_, by rw [pipe], by rw [pipe],
      fun q chan _ => fewer q chan, ?_⟩
    · intro q
      simp [writers, Task.onWrite]
    · intro q
      simp [readers, Task.onRead]
    · intro chan asleep
      rw [fewer p chan asleep] at up
      cases up
  exact orderly.moves moves (by simp [Task.onWrite]) (by simp [Task.onRead]) trivial
    (fun q asleep => .inl ((fine q).1 asleep)) fun q asleep => .inl ((fine q).2 asleep)

theorem Orderly.erase_readers (orderly : s.Orderly) (writes : (s.task p).onWrite = true) :
    s.readers = s.readers.erase p := by
  refine (Finset.erase_eq_of_notMem ?_).symm
  rw [orderly.reader, onRead_of_onWrite writes]
  simp

theorem Orderly.erase_writers (orderly : s.Orderly) (reads : (s.task p).onRead = true) :
    s.writers = s.writers.erase p := by
  refine (Finset.erase_eq_of_notMem ?_).symm
  rw [orderly.writer]
  intro writes
  rw [onRead_of_onWrite writes] at reads
  cases reads

/-- The step does not make a killed writer give up on a full pipe that a reader sleeps
on. -/
def Heeds (s : State Pid) : Action Pid → Prop
  | .advance p => ∀ addr n i, s.task p = .blocked addr n i → s.pipe.readopen = true →
      s.killed p = true → ∀ q, s.sleeping q ≠ some .nread
  | _ => True

section

variable (orderly : s.Orderly)

include orderly

theorem advance_writing (was : s.task p = .writing addr n i)
    (taken : s.advance p = some after) : after.Orderly := by
  have choked := orderly.choked_of_holder (by rw [was]; rfl) (by simp [was])
  rw [advance, was] at taken
  dsimp only at taken
  split at taken
  · split at taken
    · rename_i full
      cases taken
      exact orderly.within was rfl rfl rfl full (fun _ _ => .inr rfl)
        fun q asleep => .inl (choked q asleep)
    · rename_i space
      cases taken
      exact orderly.within was rfl rfl rfl trivial (fun _ _ => .inr rfl)
        fun q asleep => absurd (choked q asleep).1 space
  · cases taken
    refine orderly.returns n (by rw [was]; rfl) rfl rfl rfl
      (orderly.erase_readers (by rw [was]; rfl)) rfl
      (fun q chan asleep => (sleeping_wakeup asleep).1)
      fun q => ⟨fun asleep => ?_, fun asleep => ?_⟩
    · exact absurd rfl (sleeping_wakeup asleep).2
    · exact choked q (sleeping_wakeup asleep).1

theorem advance_blocked (heeds : s.Heeds (.advance p))
    (was : s.task p = .blocked addr n i) (taken : s.advance p = some after) : after.Orderly := by
  have full : s.pipe.full = true := by
    have knows := orderly.knows p
    rwa [was] at knows
  have choked := orderly.choked_of_holder (by rw [was]; rfl) (by simp [was])
  rw [advance, was] at taken
  dsimp only at taken
  split at taken
  · rename_i gives
    cases taken
    refine orderly.returns (-1) (by rw [was]; rfl) rfl rfl rfl
      (orderly.erase_readers (by rw [was]; rfl)) rfl (fun q chan asleep => asleep)
      fun q => ⟨fun asleep => ?_, choked q⟩
    -- a reader asleep means the read end is open, so the writer was killed
    obtain ⟨m, there⟩ := orderly.parched q asleep
    have readopen : s.pipe.readopen = true := orderly.readopen q (by rw [there]; rfl)
    rcases gives with closed | killed
    · rw [readopen] at closed
      cases closed
    · exact absurd asleep (heeds addr n i was readopen killed q)
  · rename_i stays
    cases taken
    have readopen : s.pipe.readopen = true := by
      cases reads : s.pipe.readopen with
      | true => rfl
      | false => exact absurd (.inl reads) stays
    exact orderly.within was rfl rfl rfl ⟨full, readopen⟩ (fun _ _ => .inr rfl)
      fun q asleep => .inl (choked q asleep)

theorem advance_stalling (was : s.task p = .stalling addr n i)
    (taken : s.advance p = some after) : after.Orderly := by
  have opened : s.pipe.writeopen = true := orderly.writeopen p (by rw [was]; rfl)
  have mine : s.lock = some p := (orderly.holder p).mpr (by rw [was]; rfl)
  have knows := orderly.knows p
  rw [was] at knows
  rw [advance, was] at taken
  cases taken
  have moves : Moves s (((s.wakeup .nread).sleep p .nwrite).become p (.stalled addr n i)) p
      (.stalled addr n i) := by
    refine ⟨rfl, .inr mine, rfl, orderly.same_writers (by rw [was]; rfl),
      orderly.same_readers (by rw [was]; rfl), rfl, rfl, ?_, ?_⟩
    · intro q chan other asleep
      dsimp only [become, sleep] at asleep
      rw [update_of_ne other] at asleep
      exact (sleeping_wakeup asleep).1
    · intro chan asleep
      dsimp only [become, sleep] at asleep
      rw [update_self] at asleep
      cases asleep
      exact .inr ⟨rfl, addr, n, i, rfl⟩
  refine orderly.moves moves (fun _ => opened) (by simp [Task.onRead]) trivial ?_
    (fun q _ => .inl knows)
  intro q asleep
  dsimp only [become, sleep] at asleep
  by_cases self : q = p
  · subst self
    rw [update_self] at asleep
    cases asleep
  · rw [update_of_ne self] at asleep
    exact absurd rfl (sleeping_wakeup asleep).2

theorem advance_stalled (was : s.task p = .stalled addr n i)
    (taken : s.advance p = some after) : after.Orderly := by
  have opened : s.pipe.writeopen = true := orderly.writeopen p (by rw [was]; rfl)
  rw [advance, was] at taken
  dsimp only at taken
  split at taken
  · rename_i woken
    cases taken
    exact orderly.enters woken.2 woken.1 rfl (orderly.same_writers (by rw [was]; rfl))
      (orderly.same_readers (by rw [was]; rfl)) (fun _ => opened) (by simp [Task.onRead]) trivial
  · cases taken

theorem advance_reading (was : s.task p = .reading n)
    (taken : s.advance p = some after) : after.Orderly := by
  have thirsty := orderly.thirsty_of_reader (by rw [was]; rfl) (by rw [was]; rfl)
  have choked := orderly.choked_of_holder (by rw [was]; rfl) (by simp [was])
  rw [advance, was] at taken
  dsimp only at taken
  split at taken
  · rename_i nothing
    cases taken
    exact orderly.within was rfl rfl rfl nothing (fun q asleep => .inl (thirsty q asleep))
      fun q asleep => .inl (choked q asleep)
  · cases taken
    exact orderly.within was rfl rfl rfl trivial (fun q asleep => .inl (thirsty q asleep))
      fun q asleep => .inl (choked q asleep)

theorem advance_starved (was : s.task p = .starved n)
    (taken : s.advance p = some after) : after.Orderly := by
  have thirsty := orderly.thirsty_of_reader (by rw [was]; rfl) (by rw [was]; rfl)
  have choked := orderly.choked_of_holder (by rw [was]; rfl) (by simp [was])
  have knows := orderly.knows p
  rw [was] at knows
  rw [advance, was] at taken
  dsimp only at taken
  split at taken
  · cases taken
    exact orderly.returns (-1) (by rw [was]; rfl) rfl rfl (orderly.erase_writers (by rw [was]; rfl))
      rfl rfl (fun q chan asleep => asleep) fun q => ⟨thirsty q, choked q⟩
  · cases taken
    exact orderly.within was rfl rfl rfl knows (fun q asleep => .inl (thirsty q asleep))
      fun q asleep => .inl (choked q asleep)

theorem advance_drowsy (was : s.task p = .drowsy n)
    (taken : s.advance p = some after) : after.Orderly := by
  have opened : s.pipe.readopen = true := orderly.readopen p (by rw [was]; rfl)
  have mine : s.lock = some p := (orderly.holder p).mpr (by rw [was]; rfl)
  have choked := orderly.choked_of_holder (by rw [was]; rfl) (by simp [was])
  have knows := orderly.knows p
  rw [was] at knows
  rw [advance, was] at taken
  cases taken
  have moves : Moves s ((s.sleep p .nread).become p (.parched n)) p (.parched n) := by
    refine ⟨rfl, .inr mine, rfl, orderly.same_writers (by rw [was]; rfl),
      orderly.same_readers (by rw [was]; rfl), rfl, rfl, ?_, ?_⟩
    · intro q chan other asleep
      dsimp only [become, sleep] at asleep
      rwa [update_of_ne other] at asleep
    · intro chan asleep
      dsimp only [become, sleep] at asleep
      rw [update_self] at asleep
      cases asleep
      exact .inl ⟨rfl, n, rfl⟩
  refine orderly.moves moves (by simp [Task.onWrite]) (fun _ => opened) trivial
    (fun q _ => .inl knows) ?_
  intro q asleep
  dsimp only [become, sleep] at asleep
  by_cases self : q = p
  · subst self
    rw [update_self] at asleep
    cases asleep
  · rw [update_of_ne self] at asleep
    exact .inl (choked q asleep)

theorem advance_parched (was : s.task p = .parched n)
    (taken : s.advance p = some after) : after.Orderly := by
  have opened : s.pipe.readopen = true := orderly.readopen p (by rw [was]; rfl)
  rw [advance, was] at taken
  dsimp only at taken
  split at taken
  · rename_i woken
    cases taken
    exact orderly.enters woken.2 woken.1 rfl (orderly.same_writers (by rw [was]; rfl))
      (orderly.same_readers (by rw [was]; rfl)) (by simp [Task.onWrite]) (fun _ => opened) trivial
  · cases taken

theorem advance_copying (was : s.task p = .copying n i)
    (taken : s.advance p = some after) : after.Orderly := by
  have thirsty := orderly.thirsty_of_reader (by rw [was]; rfl) (by rw [was]; rfl)
  rw [advance, was] at taken
  dsimp only at taken
  split at taken
  · rename_i some
    cases taken
    refine orderly.within was rfl rfl rfl trivial (fun q asleep => ?_)
      fun _ _ => .inr ⟨n, i + 1, rfl⟩
    have empty := (thirsty q asleep).1
    rw [some.2] at empty
    cases empty
  · cases taken
    refine orderly.returns i (by rw [was]; rfl) rfl rfl (orderly.erase_writers (by rw [was]; rfl))
      rfl rfl (fun q chan asleep => (sleeping_wakeup asleep).1)
      fun q => ⟨fun asleep => ?_, fun asleep => ?_⟩
    · exact thirsty q (sleeping_wakeup asleep).1
    · exact absurd rfl (sleeping_wakeup asleep).2

theorem pipewrite_orderly (taken : s.pipewrite p addr n = some after) :
    after.Orderly := by
  obtain ⟨⟨result, was⟩, ⟨free, isOpen⟩, rfl⟩ := pipewrite_cases taken
  exact orderly.enters free (orderly.awake (by rw [was]; rfl)) rfl
    (by intro q; by_cases self : q = p <;> simp [self, Task.onWrite])
    (orderly.same_readers (by rw [was]; rfl)) (fun _ => isOpen) (by simp [Task.onRead]) trivial

theorem piperead_orderly (taken : s.piperead p n = some after) :
    after.Orderly := by
  obtain ⟨⟨result, was⟩, ⟨free, isOpen⟩, rfl⟩ := piperead_cases taken
  exact orderly.enters free (orderly.awake (by rw [was]; rfl)) rfl
    (orderly.same_writers (by rw [was]; rfl))
    (by intro q; by_cases self : q = p <;> simp [self, Task.onRead]) (by simp [Task.onWrite])
    (fun _ => isOpen) trivial

theorem advance_orderly (heeds : s.Heeds (.advance p))
    (taken : s.advance p = some after) : after.Orderly := by
  cases was : s.task p with
  | returned result =>
    rw [advance, was] at taken
    cases taken
  | writing addr n i => exact advance_writing orderly was taken
  | blocked addr n i => exact advance_blocked orderly heeds was taken
  | stalling addr n i => exact advance_stalling orderly was taken
  | stalled addr n i => exact advance_stalled orderly was taken
  | reading n => exact advance_reading orderly was taken
  | starved n => exact advance_starved orderly was taken
  | drowsy n => exact advance_drowsy orderly was taken
  | parched n => exact advance_parched orderly was taken
  | copying n i => exact advance_copying orderly was taken

theorem pipeclose_orderly {writable : Bool}
    (taken : s.pipeclose writable = some after) : after.Orderly := by
  cases writable with
  | true =>
    rw [pipeclose] at taken
    split at taken
    · rename_i unused
      obtain ⟨free, empty, _⟩ := unused
      cases taken
      have fine := orderly.unstranded free
      have nobody : ∀ p, (s.task p).onWrite ≠ true := by
        intro p writes
        rw [← orderly.writer, empty] at writes
        simp at writes
      refine orderly.closes free free rfl rfl rfl (fun p writes => absurd writes (nobody p))
        orderly.readopen (fun q chan asleep => (sleeping_wakeup asleep).1) ?_
      intro p
      refine ⟨fun asleep => absurd rfl (sleeping_wakeup asleep).2, fun asleep => ?_⟩
      exact (fine p).2 (sleeping_wakeup asleep).1
    · cases taken
  | false =>
    rw [pipeclose] at taken
    split at taken
    · rename_i unused
      obtain ⟨free, empty, _⟩ := unused
      cases taken
      have fine := orderly.unstranded free
      have nobody : ∀ p, (s.task p).onRead ≠ true := by
        intro p reads
        rw [← orderly.reader, empty] at reads
        simp at reads
      refine orderly.closes free free rfl rfl rfl orderly.writeopen
        (fun p reads => absurd reads (nobody p))
        (fun q chan asleep => (sleeping_wakeup asleep).1) ?_
      intro p
      refine ⟨fun asleep => ?_, fun asleep => absurd rfl (sleeping_wakeup asleep).2⟩
      exact (fine p).1 (sleeping_wakeup asleep).1
    · cases taken

theorem kill_orderly : (s.kill p).Orderly := by
  have fewer : ∀ q chan, (s.kill p).sleeping q = some chan → s.sleeping q = some chan := by
    intro q chan asleep
    dsimp only [kill] at asleep
    by_cases self : q = p
    · subst self
      rw [update_self] at asleep
      cases asleep
    · rwa [update_of_ne self] at asleep
  exact {
    holder := orderly.holder
    writer := orderly.writer
    reader := orderly.reader
    writeopen := orderly.writeopen
    readopen := orderly.readopen
    knows := orderly.knows
    parched := fun q asleep => orderly.parched q (fewer q _ asleep)
    stalled := fun q asleep => orderly.stalled q (fewer q _ asleep)
    thirsty := fun q asleep => orderly.thirsty q (fewer q _ asleep)
    choked := fun q asleep => orderly.choked q (fewer q _ asleep) }

end

end State

variable {Pid : Type} [DecidableEq Pid] {s after : State Pid} {action : Action Pid}

theorem step_orderly (orderly : s.Orderly) (heeds : s.Heeds action)
    (taken : step s action = some after) : after.Orderly := by
  cases action with
  | pipewrite p addr n => exact State.pipewrite_orderly orderly taken
  | piperead p n => exact State.piperead_orderly orderly taken
  | advance p => exact State.advance_orderly orderly heeds taken
  | pipeclose writable => exact State.pipeclose_orderly orderly taken
  | kill p =>
    cases taken
    exact State.kill_orderly orderly

theorem not_empty_of_full {p : Pipe} (full : p.full = true) : p.empty = false := by
  rw [Pipe.full, beq_iff_eq] at full
  rw [empty, full, beq_eq_false_iff_ne]
  intro same
  have apart : UInt32.ofNat pipesize = 0 := by
    simpa using same.symm
  exact absurd apart (by decide)

/-- A writer that gives up while a reader sleeps strands the reader. -/
theorem step_strands (orderly : s.Orderly) (careless : ¬ s.Heeds action)
    (taken : step s action = some after) :
    after.lock = none ∧ ¬ after.Unstranded := by
  cases action with
  | advance p =>
    simp only [State.Heeds, ne_eq, not_forall, not_not] at careless
    obtain ⟨addr, n, i, was, _, killed, q, asleep⟩ := careless
    have full := orderly.knows p
    rw [was] at full
    rw [step, State.advance, was] at taken
    dsimp only at taken
    rw [if_pos (.inr killed)] at taken
    cases taken
    refine ⟨rfl, ?_⟩
    intro fine
    have empty := ((fine q).1 asleep).1
    have notEmpty := not_empty_of_full full
    exact absurd (empty.symm.trans notEmpty) (by decide)
  | pipewrite p addr n => exact absurd trivial careless
  | piperead p n => exact absurd trivial careless
  | pipeclose writable => exact absurd trivial careless
  | kill p => exact absurd trivial careless

/-- In the states of a run in which `p->lock` is free no process sleeps on the pipe in
vain, exactly when no killed writer gives up on a full pipe while a reader sleeps. -/
theorem no_sleeper_stranded (data : Nat → UInt8) (steps : List (Action Pid)) (last : State Pid)
    (ran : run (pipealloc data) steps = some last) :
    (∀ k s, run (pipealloc data) (steps.take k) = some s → s.lock = none → s.Unstranded) ↔
      Runs.Meets (Runs.unfailing step) State.Heeds (pipealloc data) steps := by
  refine Runs.visits_iff_meets State.Orderly (fun s => s.lock = none → s.Unstranded) ?_ ?_ ?_
    (State.orderly_pipealloc data) ran
  · intro s orderly free
    exact orderly.unstranded free
  · intro s after action orderly heeds taken
    exact step_orderly orderly heeds (Runs.unfailing_ok.mp taken)
  · intro s after action orderly careless taken fine
    obtain ⟨free, stranded⟩ := step_strands orderly careless (Runs.unfailing_ok.mp taken)
    exact stranded (fine free)

/-- The process that takes the step. -/
def Action.mover : Action Pid → Option Pid
  | .pipewrite p _ _ | .piperead p _ | .advance p => some p
  | .pipeclose _ | .kill _ => none

/-- Only its own steps move a process, and only `kill` marks one. -/
theorem step_leaves (taken : step s action = some after) :
    (∀ p, action.mover ≠ some p → after.task p = s.task p) ∧
      ((∀ p, action ≠ .kill p) → after.killed = s.killed) := by
  have moved : ∀ {p q : Pid} {task : Task}, some p ≠ some q → update s.task p task q = s.task q :=
    fun other => update_of_ne (fun same => other (congrArg some same.symm)) ..
  cases action with
  | kill p =>
    cases taken
    exact ⟨fun _ _ => rfl, fun spares => absurd rfl (spares p)⟩
  | pipewrite p addr n =>
    obtain ⟨-, -, rfl⟩ := State.pipewrite_cases taken
    exact ⟨fun _ other => moved other, fun _ => rfl⟩
  | piperead p n =>
    obtain ⟨-, -, rfl⟩ := State.piperead_cases taken
    exact ⟨fun _ other => moved other, fun _ => rfl⟩
  | advance p =>
    rw [step, State.advance] at taken
    repeat' split at taken
    all_goals
      cases taken <;> exact ⟨fun _ other => moved other, fun _ => rfl⟩
  | pipeclose writable =>
    cases writable <;> rw [step, State.pipeclose] at taken <;> split at taken <;> cases taken <;>
      exact ⟨fun _ _ => rfl, fun _ => rfl⟩

/-- Where nobody is killed, no writer gives up on a pipe that can still be read. -/
theorem meets_of_spared {steps : List (Action Pid)} (spares : ∀ p, .kill p ∉ steps) :
    ∀ {s : State Pid}, (∀ p, s.killed p = false) →
      Runs.Meets (Runs.unfailing step) State.Heeds s steps := by
  induction steps with
  | nil => exact fun _ => trivial
  | cons action rest ih =>
    intro s alive
    refine ⟨?_, fun after taken => ?_⟩
    · cases action with
      | advance p =>
        intro addr n i _ _ killed
        rw [alive] at killed
        cases killed
      | _ => trivial
    · have same : after.killed = s.killed :=
        (step_leaves (Runs.unfailing_ok.mp taken)).2 fun p kills => spares p (by simp [kills])
      refine ih (fun p kills => spares p (List.mem_cons_of_mem _ kills)) ?_
      rw [same]
      exact alive

/-- A reader waits for a byte, a writer stores one and both return. -/
def delivery : List (Action Nat) :=
  [.piperead 1 1, .advance 1, .advance 1, .advance 1, .pipewrite 0 (fun _ => 7) 1, .advance 0,
    .advance 0, .advance 1, .advance 1, .advance 1, .advance 1]

theorem no_sleeper_stranded_delivery :
    ∃ last, run (pipealloc fun _ => 0) delivery = some last ∧ last.delivered = [7] ∧
      ∀ k s, run (pipealloc fun _ => 0) (delivery.take k) = some s → s.lock = none →
        s.Unstranded := by
  refine ⟨_, rfl, rfl, (no_sleeper_stranded (fun _ => 0) delivery _ rfl).mpr ?_⟩
  exact meets_of_spared (by simp [delivery]) (fun _ => rfl)

/-- A reader sleeps on the empty pipe. A killed process then writes more than the pipe
holds: it fills the pipe and gives up. -/
def desertion : List (Action Nat) :=
  [.piperead 1 1, .advance 1, .advance 1, .advance 1, .kill 0, .pipewrite 0 (fun _ => 0) 513] ++
    List.replicate 514 (.advance 0)

theorem desertion_end :
    (run (pipealloc fun _ => 0) desertion).map (fun s => (s.lock, s.sleeping 1, s.pipe.empty)) =
      some (none, some .nread, false) := by
  decide +kernel

theorem reader_stranded :
    ∃ s, run (pipealloc fun _ => 0) desertion = some s ∧ s.lock = none ∧ ¬ s.Unstranded := by
  obtain ⟨s, ran, seen⟩ := Option.map_eq_some_iff.mp desertion_end
  simp only [Prod.mk.injEq] at seen
  obtain ⟨free, asleep, notEmpty⟩ := seen
  refine ⟨s, ran, free, ?_⟩
  intro fine
  have empty := ((fine 1).1 asleep).1
  rw [notEmpty] at empty
  cases empty

end Xv6.Pipe
