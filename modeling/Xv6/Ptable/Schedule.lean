import Xv6.Ptable.Census

/-!
# Running, sleeping and waking

What holds of the states of processes and the current processes of the CPUs whenever
`ptable.lock` is free, and at each point of a scheduling round at which a CPU has no
process or has just switched to one. The operations that only schedule leave the census
alone; the scheduler's loop keeps the whole invariant and does not panic.
-/

namespace Xv6.Ptable

open State

open Function (update_of_ne update_self)

namespace Table

variable {Cpu : Type} {t after : Table Cpu} {p : Nat} {c : Cpu}

/-- A process is running exactly when one CPU has it as its current process. -/
structure OnCpu (t : Table Cpu) : Prop where
  current : ∀ c p, t.current c = some p → (t.proc p).state = .running
  unique : ∀ c d p, t.current c = some p → t.current d = some p → c = d
  running : ∀ p, (t.proc p).state = .running → ∃ c, t.current c = some p

/-- Processes that do not run have a context they can continue from. -/
structure Placed (t : Table Cpu) : Prop where
  runnable : ∀ p, (t.proc p).state = .runnable → (t.proc p).context ≠ .exit
  sleeping : ∀ p, (t.proc p).state = .sleeping →
    (t.proc p).context = .sleep ∨ (t.proc p).context = .wait
  embryo : ∀ p q stage, (t.proc p).making = some (q, stage) → stage ≠ .found →
    (t.proc q).context = .forkret
  waiting : ∀ p, (t.proc p).state = .runnable ∨ (t.proc p).state = .sleeping →
    (t.proc p).context = .wait → (t.proc p).making = none

/-- The process sleeps in `wait`. -/
def InWait (t : Table Cpu) (p : Nat) : Prop :=
  (t.proc p).state = .sleeping ∧ (t.proc p).context = .wait

/-- A process that sleeps in `wait` sleeps on its own slot, has a child, and none of its
children is a zombie. -/
structure Waits (t : Table Cpu) : Prop where
  chan : ∀ p, t.InWait p → (t.proc p).chan = some (.proc p)
  child : ∀ p, t.InWait p → ∃ q, (t.proc q).parent = some p
  living : ∀ p q, t.InWait p → (t.proc q).parent = some p → (t.proc q).state ≠ .zombie

/-- The states of the processes agree with the CPUs and with where they are in the
kernel. -/
structure Scheduled (t : Table Cpu) : Prop extends OnCpu t, Placed t, Waits t

/-- The table is in order. -/
structure Sound (t : Table Cpu) : Prop extends Scheduled t where
  census : t.census.Sound

/-- The table that is reached is in order, and what happened to its census are parts of
`fork`, `exit` and `wait`. -/
structure Leads (t after : Table Cpu) : Prop where
  sound : after.Sound
  changes : Relation.ReflTransGen Census.Change t.census after.census

theorem Leads.trans {middle : Table Cpu} (first : t.Leads middle) (second : middle.Leads after) :
    t.Leads after :=
  ⟨second.sound, first.changes.trans second.changes⟩

/-- Nothing but scheduling has changed. -/
theorem Sound.of_census (sound : t.Sound) (same : after.census = t.census)
    (scheduled : after.Scheduled) : t.Leads after :=
  ⟨⟨scheduled, same ▸ sound.census⟩, same ▸ .refl⟩

/-- One part of a call has happened. -/
theorem Sound.of_change (sound : t.Sound) (change : t.census.Change after.census)
    (scheduled : after.Scheduled) : t.Leads after :=
  ⟨⟨scheduled, change.sound sound.census⟩, .single change⟩

/-- A change of slots that leaves their kin alone leaves the census alone. -/
theorem census_of_kin (kin : ∀ p, (after.proc p).kin = (t.proc p).kin)
    (initproc : after.initproc = t.initproc) (nextpid : after.nextpid = t.nextpid)
    (pages : after.pages = t.pages) (freed : after.freed = t.freed)
    (events : after.events = t.events) : after.census = t.census := by
  simp only [census, kin, initproc, nextpid, pages, freed, events]

theorem census_setProc (t : Table Cpu) (p : Nat) (value : Slot)
    (kin : value.kin = (t.proc p).kin) : (t.setProc p value).census = t.census := by
  refine census_of_kin (fun q => ?_) rfl rfl rfl rfl rfl
  by_cases here : q = p
  · subst here
    simp [setProc, kin]
  · simp [setProc, here]

theorem census_wakeup1 (t : Table Cpu) (chan : Chan) : (t.wakeup1 chan).census = t.census := by
  refine census_of_kin (fun q => ?_) rfl rfl rfl rfl rfl
  simp only [wakeup1]
  split
  · rename_i asleep
    simp [Slot.kin, asleep.1, life]
  · rfl

/-- The same processes run on the same CPUs. -/
theorem OnCpu.same (onCpu : t.OnCpu) (current : after.current = t.current)
    (running : ∀ p, (after.proc p).state = .running ↔ (t.proc p).state = .running) :
    after.OnCpu := by
  constructor
  case current =>
    intro c p runs
    rw [current] at runs
    exact (running p).mpr (onCpu.current c p runs)
  case unique =>
    rw [current]
    exact onCpu.unique
  case running =>
    intro p runs
    rw [current]
    exact onCpu.running p ((running p).mp runs)

/-- Nobody has begun to sleep in `wait`, parents are the same and nobody has become a
zombie. -/
theorem Waits.same (waits : t.Waits)
    (asleep : ∀ p, after.InWait p → t.InWait p ∧ (after.proc p).chan = (t.proc p).chan)
    (parent : ∀ q, (after.proc q).parent = (t.proc q).parent)
    (zombie : ∀ q, (after.proc q).state = .zombie → (t.proc q).state = .zombie) :
    after.Waits := by
  constructor
  case chan =>
    intro p inWait
    obtain ⟨before, chan⟩ := asleep p inWait
    rw [chan]
    exact waits.chan p before
  case child =>
    intro p inWait
    obtain ⟨q, child⟩ := waits.child p (asleep p inWait).1
    exact ⟨q, by rw [parent, child]⟩
  case living =>
    intro p q inWait child dead
    rw [parent] at child
    exact waits.living p q (asleep p inWait).1 child (zombie q dead)

theorem Scheduled.wakeup1 (scheduled : t.Scheduled) (chan : Chan) : (t.wakeup1 chan).Scheduled := by
  obtain ⟨onCpu, placed, waits⟩ := scheduled
  refine ⟨onCpu.same rfl ?_, ?_, waits.same ?_ ?_ ?_⟩
  · intro p
    simp only [Table.wakeup1]
    grind
  · obtain ⟨h1, h2, h3, h4⟩ := placed
    constructor <;> simp only [Table.wakeup1] <;> grind
  all_goals
    intro p
    simp only [Table.wakeup1, InWait]
    grind

theorem Sound.wakeup1 (sound : t.Sound) (chan : Chan) : t.Leads (t.wakeup1 chan) :=
  sound.of_census (census_wakeup1 t chan) (sound.toScheduled.wakeup1 chan)

theorem Sound.kill (sound : t.Sound) (pid : UInt32) : t.Leads (t.kill pid) := by
  rw [Table.kill]
  split
  · exact ⟨sound, .refl⟩
  · rename_i p _
    refine sound.of_census (census_setProc t p _ ?_) ?_
    · simp only [Slot.kin]
      split
      · rename_i asleep
        simp [asleep, life]
      · rfl
    · obtain ⟨onCpu, placed, waits⟩ := sound.toScheduled
      refine ⟨onCpu.same rfl ?_, ?_, waits.same ?_ ?_ ?_⟩
      · intro q
        simp only [setProc]
        grind
      · obtain ⟨h1, h2, h3, h4⟩ := placed
        constructor <;> simp only [setProc] <;> grind
      all_goals
        intro q
        simp only [setProc, InWait]
        grind

section

variable (sound : t.Sound) (running : (t.proc p).state = .running)

include sound running

theorem Sound.tidy : t.Leads (t.tidy p) := by
  refine sound.of_census (census_setProc t p _ rfl) ?_
  obtain ⟨onCpu, placed, waits⟩ := sound.toScheduled
  refine ⟨onCpu.same rfl ?_, ?_, waits.same ?_ ?_ ?_⟩
  · intro q
    simp only [Table.tidy, setProc]
    grind
  · obtain ⟨h1, h2, h3, h4⟩ := placed
    constructor <;> simp only [Table.tidy, setProc] <;> grind
  all_goals
    intro q
    simp only [Table.tidy, setProc, InWait]
    grind

/-- A zombie child of a running process is freed. -/
theorem Sound.reap {q : Nat} (idle : (t.proc p).making = none)
    (found : (List.range nproc).find? (fun q => (t.proc q).parent = some p ∧
      (t.proc q).state = .zombie) = some q) : t.Leads (t.reap p q) := by
  have hit := List.find?_some found
  simp only [decide_eq_true_eq] at hit
  obtain ⟨child, zombie⟩ := hit
  have off : ∀ c, t.current c ≠ some q := by
    intro c runs
    have also := sound.current c q runs
    rw [zombie] at also
    cases also
  have census : (t.reap p q).census = t.census.reap p q t.current := by
    simp only [Table.reap, Table.census, Census.reap, setProc, note]
    congr 1
    funext r
    by_cases here : r = q
    · subst here
      simp [Slot.kin, life]
    · simp [here]
  refine sound.of_change (census ▸ .reap (by simp [Table.census, Slot.kin, running, life]) idle
    (by simpa [Table.census, Slot.kin] using found) off) ?_
  obtain ⟨onCpu, placed, waits⟩ := sound.toScheduled
  refine ⟨onCpu.same rfl ?_, ?_, ?_⟩
  · intro r
    simp only [Table.reap, setProc, note]
    grind
  · obtain ⟨h1, h2, h3, h4⟩ := placed
    constructor <;> simp only [Table.reap, setProc, note] <;> grind
  · -- a process asleep in `wait` is not the one that runs, so it loses no child
    have same : ∀ r, (t.reap p q).InWait r → t.InWait r ∧ r ≠ p ∧
        ((t.reap p q).proc r).chan = (t.proc r).chan := by
      intro r
      simp only [InWait, Table.reap, setProc, note]
      grind
    constructor
    case chan =>
      intro r inWait
      obtain ⟨before, _, chan⟩ := same r inWait
      rw [chan]
      exact waits.chan r before
    case child =>
      intro r inWait
      obtain ⟨before, other, _⟩ := same r inWait
      obtain ⟨u, parent⟩ := waits.child r before
      refine ⟨u, ?_⟩
      simp only [Table.reap, setProc, note]
      grind
    case living =>
      intro r u inWait
      obtain ⟨before, other, _⟩ := same r inWait
      have living := waits.living r u before
      simp only [Table.reap, setProc, note]
      grind

/-- A `wait` that fails is recorded. -/
theorem Sound.childless
    (alone : (∀ q < nproc, (t.proc q).parent ≠ some p) ∨ (t.proc p).killed = true) :
    t.Leads (t.note (.childless (t.proc p).pid (t.proc p).killed)) := by
  obtain ⟨onCpu, placed, waits⟩ := sound.toScheduled
  refine sound.of_change (.childless (by simp [Table.census, Slot.kin, running, life]) alone.symm)
    ⟨onCpu.same rfl fun _ => Iff.rfl, ⟨placed.1, placed.2, placed.3, placed.4⟩, ?_⟩
  exact waits.same (fun _ inWait => ⟨inWait, rfl⟩) (fun _ => rfl) (fun _ dead => dead)

end

variable [DecidableEq Cpu]

/-- The scheduler of an idle CPU takes a runnable process. -/
theorem Sound.dispatch (sound : t.Sound) (idle : t.current c = none)
    (runnable : (t.proc p).state = .runnable) : t.Leads (t.dispatch c p) := by
  have off : ∀ d, t.current d ≠ some p := by
    intro d runs
    have running := sound.current d p runs
    rw [runnable] at running
    cases running
  refine sound.of_census ?_ ?_
  · refine census_setProc _ p _ ?_
    simp [Slot.kin, setCurrent, runnable, life]
  · obtain ⟨onCpu, placed, waits⟩ := sound.toScheduled
    refine ⟨?_, ?_, waits.same ?_ ?_ ?_⟩
    · obtain ⟨h1, h2, h3⟩ := onCpu
      constructor
      case running =>
        intro q runs
        by_cases here : q = p
        · exact ⟨c, by simp [Table.dispatch, setProc, setCurrent, here]⟩
        · simp only [Table.dispatch, setProc, setCurrent, update_of_ne here] at runs
          obtain ⟨d, on⟩ := h3 q runs
          have other : d ≠ c := by
            rintro rfl
            rw [idle] at on
            cases on
          exact ⟨d, by simp [Table.dispatch, setProc, setCurrent, other, on]⟩
      all_goals
        simp only [Table.dispatch, setProc, setCurrent]
        grind
    · obtain ⟨h1, h2, h3, h4⟩ := placed
      constructor <;> simp only [Table.dispatch, setProc, setCurrent] <;> grind
    all_goals
      intro q
      simp only [Table.dispatch, setProc, setCurrent, InWait]
      grind

/-- A process gives up its CPU, to be run again or to be woken. -/
theorem Sound.leave {value : Slot} (sound : t.Sound) (runs : t.current c = some p)
    (kin : value.kin = (t.proc p).kin) (stops : (value.state = .runnable ∧ value.context = .yield) ∨
      (value.state = .sleeping ∧ value.context = .sleep) ∨
      (value.state = .sleeping ∧ value.context = .wait ∧ value.chan = some (.proc p) ∧
        value.making = none ∧ (∃ q, (t.proc q).parent = some p) ∧
        ∀ q, (t.proc q).parent = some p → (t.proc q).state ≠ .zombie)) :
    t.Leads ((t.setProc p value).setCurrent c none) := by
  have parent : value.parent = (t.proc p).parent := congrArg Kin.parent kin
  have making : value.making = (t.proc p).making := congrArg Kin.making kin
  have running := sound.current c p runs
  refine sound.of_census (census_setProc t p value kin) ?_
  have notEmbryo : ∀ r stage, (t.proc r).making ≠ some (p, stage) := by
    intro r stage made
    have embryo := (sound.census.making r p stage made).2.1
    simp [Table.census, Slot.kin, running, life] at embryo
  obtain ⟨onCpu, placed, waits⟩ := sound.toScheduled
  refine ⟨?_, ?_, ?_⟩
  · obtain ⟨h1, h2, h3⟩ := onCpu
    constructor
    case running =>
      intro q runsOn
      have other : q ≠ p := by
        rintro rfl
        simp only [setProc, setCurrent, update_self] at runsOn
        rcases stops with stops | stops | stops <;> rw [stops.1] at runsOn <;> cases runsOn
      simp only [setProc, setCurrent, update_of_ne other] at runsOn
      obtain ⟨d, on⟩ := h3 q runsOn
      have elsewhere : d ≠ c := by
        rintro rfl
        rw [runs] at on
        cases on
        exact other rfl
      exact ⟨d, by simp [setProc, setCurrent, elsewhere, on]⟩
    all_goals
      simp only [setProc, setCurrent]
      grind
  · obtain ⟨h1, h2, h3, h4⟩ := placed
    constructor <;> simp only [setProc, setCurrent] <;> grind
  · have same : ∀ r, r ≠ p → ((t.setProc p value).setCurrent c none).InWait r → t.InWait r := by
      intro r other
      simp only [InWait, setProc, setCurrent, update_of_ne other]
      exact id
    have parents : ∀ r, (((t.setProc p value).setCurrent c none).proc r).parent =
        (t.proc r).parent := by
      intro r
      simp only [setProc, setCurrent]
      grind
    have dead : ∀ r, (((t.setProc p value).setCurrent c none).proc r).state = .zombie →
        (t.proc r).state = .zombie := by
      intro r
      simp only [setProc, setCurrent]
      grind
    have self : ((t.setProc p value).setCurrent c none).InWait p →
        value.chan = some (.proc p) ∧ (∃ q, (t.proc q).parent = some p) ∧
          ∀ q, (t.proc q).parent = some p → (t.proc q).state ≠ .zombie := by
      intro inWait
      simp only [InWait, setProc, setCurrent, update_self] at inWait
      grind
    constructor
    case chan =>
      intro r inWait
      by_cases here : r = p
      · subst here
        simpa [setProc, setCurrent] using (self inWait).1
      · simpa [setProc, setCurrent, here] using waits.chan r (same r here inWait)
    case child =>
      intro r inWait
      have child : ∃ q, (t.proc q).parent = some r := by
        by_cases here : r = p
        · subst here
          exact (self inWait).2.1
        · exact waits.child r (same r here inWait)
      obtain ⟨q, child⟩ := child
      exact ⟨q, (parents q).trans child⟩
    case living =>
      intro r q inWait child zombie
      rw [parents] at child
      by_cases here : r = p
      · subst here
        exact (self inWait).2.2 q child (dead q zombie)
      · exact waits.living r q (same r here inWait) child (dead q zombie)

/-- A round of `wait` ends with an answer, or the process sleeps with a child that is
alive. -/
theorem Sound.waitRound {sleeps : Bool} (sound : t.Sound) (runs : t.current c = some p)
    (idle : (t.proc p).making = none) (ran : t.waitRound p = (sleeps, after)) :
    (sleeps = false → t.Leads after) ∧
      (sleeps = true → t.Leads (after.setCurrent c none) ∧ (after.proc p).state = .sleeping) := by
  have running := sound.current c p runs
  unfold Table.waitRound at ran
  split at ran
  · rename_i q found
    cases ran
    exact ⟨fun _ => sound.reap running idle found, fun wrong => absurd wrong (by decide)⟩
  · rename_i unfound
    split at ran
    · rename_i alone
      cases ran
      refine ⟨fun _ => sound.childless running ?_, fun wrong => absurd wrong (by decide)⟩
      simpa using alone
    · rename_i stays
      cases ran
      refine ⟨fun wrong => absurd wrong (by decide), fun _ => ⟨?_, by simp [setProc]⟩⟩
      have child : ∃ q, (t.proc q).parent = some p := by
        by_contra nobody
        refine stays (.inl ?_)
        simp only [not_exists] at nobody
        simp [nobody]
      have living : ∀ q, (t.proc q).parent = some p → (t.proc q).state ≠ .zombie := by
        intro q parent zombie
        have inside : q < nproc := sound.census.inside q (by
          simp [Table.census, Slot.kin, zombie, life])
        have missed := List.find?_eq_none.mp unfound q (List.mem_range.mpr inside)
        simp [parent, zombie] at missed
      refine sound.leave runs ?_ (.inr (.inr ⟨rfl, rfl, rfl, by exact idle, child, living⟩))
      simp [Slot.kin, running, life]

/-- The loop of the scheduler does not panic, and leaves the table in order. -/
theorem Sound.scan (slots : List Nat) :
    ∀ {t : Table Cpu}, t.Sound → t.current c = none →
      ∃ after, Table.scan c slots t = .ok after ∧ t.Leads after := by
  induction slots with
  | nil => exact fun sound _ => ⟨_, rfl, sound, .refl⟩
  | cons p rest ih =>
    intro t sound idle
    rw [Table.scan]
    split
    · rename_i runnable
      have dispatched := sound.dispatch idle runnable
      have runs : (t.dispatch c p).current c = some p := by
        simp [Table.dispatch, setProc, setCurrent]
      have tidied := dispatched.trans (dispatched.sound.tidy (dispatched.sound.current c p runs))
      cases context : (t.proc p).context with
      | forkret => exact ⟨_, rfl, dispatched⟩
      | yield => exact ⟨_, rfl, dispatched⟩
      | sleep => exact ⟨_, rfl, tidied⟩
      | wait =>
        have unoccupied : (((t.dispatch c p).tidy p).proc p).making = none := by
          simpa [Table.tidy, Table.dispatch, setProc] using
            sound.waiting p (.inl runnable) context
        rcases round : ((t.dispatch c p).tidy p).waitRound p with ⟨sleeps, after⟩
        obtain ⟨answered, slept⟩ := tidied.sound.waitRound runs unoccupied round
        cases sleeps with
        | false => exact ⟨after, rfl, tidied.trans (answered rfl)⟩
        | true =>
          have stopped := tidied.trans (slept rfl).1
          obtain ⟨last, ran, further⟩ := ih stopped.sound (by simp [setCurrent])
          exact ⟨last, ran, stopped.trans further⟩
      | exit => exact absurd context (sound.runnable p runnable)
    · exact ih sound idle

/-- A process that has given up its CPU. -/
theorem Leads.sched (gaveUp : t.Leads (after.setCurrent c none))
    (stopped : (after.proc p).state ≠ .running) :
    ∃ last, after.sched c p = .ok last ∧ t.Leads last := by
  rw [Table.sched, if_neg stopped]
  obtain ⟨last, ran, further⟩ := gaveUp.sound.scan (c := c) (later p) (by simp [setCurrent])
  exact ⟨last, ran, gaveUp.trans further⟩

end Table

end Xv6.Ptable
