import Xv6.Proc.Kill
import Xv6.Ptable.Pids
import Xv6.Ptable.Safety

/-!
# One table of pids

The table of pids is what `fork`, `exit` and `wait` do to slots, pids and parents, and
nothing else. The process table, which knows CPUs and where a process is in the kernel, and
the kernel, which knows pages and files, do the same: what happens in a step of theirs is
what some steps of the table of pids do.
-/

namespace Xv6

open Function

open Pids (wrap)

namespace Ptable

variable {Cpu : Type} {s : Census Cpu} {p q : Nat}

/-- What a `fork` that succeeded has returned to the parent. -/
def Event.returned : Event Cpu → Option Int
  | .fork _ child => some (wrap child)
  | _ => none

/-- The table of pids has the parent of a slot only when the slot has left `fork`. -/
def Census.pids (s : Census Cpu) : Pids.Table where
  proc := fun r =>
    { life := (s.kin r).life
      pid := wrap (s.kin r).pid
      parent := if (s.kin r).life = .embryo then none else (s.kin r).parent
      making := (s.kin r).making.map Prod.fst }
  initproc := s.initproc
  nextpid := wrap s.nextpid
  taken := s.nextpid - 1
  returned := s.events.filterMap Event.returned

namespace Census

section

variable (sound : s.Sound)

include sound

theorem Sound.take_pids (alive : (s.kin p).life = .alive)
    (found : (List.range nproc).find? (fun r => (s.kin r).life = .unused) = some q) :
    (s.take p q).pids = s.pids.allocproc p := by
  have unused : (s.kin q).life = .unused := by simpa using List.find?_some found
  have orphan := sound.unused_parent q unused
  have counted := sound.pid_lt s.initproc (by rw [sound.init_alive]; decide)
  have hit : (List.range nproc).find? (fun r => (s.pids.proc r).life = .unused) = some q := found
  rw [Pids.Table.allocproc, hit]
  refine Pids.Table.ext (funext fun r => ?_) rfl ?_ ?_ rfl
  · simp only [pids, Census.take, change, Pids.Table.setProc, update_apply]
    grind
  · simp only [pids, Census.take, Nat.cast_succ, Pids.wrap_succ]
  · simp only [Census.take, pids]
    omega

theorem Sound.stack_pids (made : (s.kin p).making = some (q, .found)) :
    (s.stack p q).pids = s.pids := by
  refine Pids.Table.ext (funext fun r => ?_) rfl rfl rfl rfl
  have different := sound.making_ne made
  simp only [pids, Census.stack, change]
  grind

theorem Sound.house_pids (made : (s.kin p).making = some (q, .stacked)) :
    (s.house p q).pids = s.pids := by
  have embryo := (sound.making p q .stacked made).2.1
  have different := sound.making_ne made
  refine Pids.Table.ext (funext fun r => ?_) rfl rfl rfl rfl
  simp only [pids, Census.house, change]
  grind

theorem Sound.drop_pids (made : (s.kin p).making = some (q, .found)) :
    (s.drop p q).pids = s.pids.finish p q false := by
  obtain ⟨alive, embryo, parent⟩ := sound.making p q .found made
  have different := sound.making_ne made
  refine Pids.Table.ext (funext fun r => ?_) rfl rfl rfl rfl
  simp only [pids, Census.drop, change, Pids.Table.finish, Pids.Table.setProc]
  grind

theorem Sound.giveUp_pids (made : (s.kin p).making = some (q, .stacked)) :
    (s.giveUp p q).pids = s.pids.finish p q false := by
  obtain ⟨alive, embryo, parent⟩ := sound.making p q .stacked made
  have different := sound.making_ne made
  refine Pids.Table.ext (funext fun r => ?_) rfl rfl rfl rfl
  simp only [pids, Census.giveUp, change, Pids.Table.finish, Pids.Table.setProc]
  grind

theorem Sound.publish_pids (made : (s.kin p).making = some (q, .copied)) :
    (s.publish p q).pids = s.pids.finish p q true := by
  obtain ⟨alive, embryo, parent⟩ := sound.making p q .copied made
  have different := sound.making_ne made
  refine Pids.Table.ext (funext fun r => ?_) rfl rfl rfl (List.filterMap_append ..)
  simp only [pids, Census.publish, change, Pids.Table.finish, Pids.Table.setProc]
  grind

end

theorem exit_pids (alive : (s.kin p).life = .alive) :
    (s.exit p).pids = s.pids.exit p := by
  refine Pids.Table.ext (funext fun r => ?_) rfl rfl rfl ?_
  · simp only [pids, Census.exit, Pids.Table.exit]
    grind
  · simp [pids, Census.exit, Event.returned, Pids.Table.exit]

theorem reap_pids {current : Cpu → Option Nat} (found : (List.range nproc).find? (fun r =>
      (s.kin r).parent = some p ∧ (s.kin r).life = .zombie) = some q) :
    (s.reap p q current).pids = s.pids.wait p := by
  have hit : (List.range nproc).find? (fun r => (s.pids.proc r).parent = some p ∧
      (s.pids.proc r).life = .zombie) = some q := by
    rw [← found]
    congr 1
    funext r
    simp only [pids]
    grind
  rw [Pids.Table.wait, hit]
  refine Pids.Table.ext (funext fun r => ?_) rfl rfl rfl ?_
  · by_cases here : r = q <;> simp [pids, Census.reap, Pids.Table.setProc, here, wrap]
  · simp [pids, Census.reap, Event.returned, Pids.Table.setProc]

/-- Every part of a call is a step of the table of pids, or nothing. -/
theorem Change.reaches {after : Census Cpu} (change : s.Change after) (sound : s.Sound) :
    Runs.Reaches Pids.step s.pids after.pids := by
  have making : ∀ {p q stage}, (s.kin p).making = some (q, stage) →
      (s.pids.proc p).making = some q := fun made => by simp [pids, made]
  have able : ∀ {p}, (s.kin p).life = .alive → (s.kin p).making = none → s.pids.Able p :=
    fun alive idle => ⟨alive, by simp [pids, idle]⟩
  cases change with
  | take alive idle found =>
    rw [sound.take_pids alive found]
    exact (Pids.Steps.fork (able alive idle)).reaches
  | stack made =>
    rw [sound.stack_pids made]
    exact .refl _
  | house made =>
    rw [sound.house_pids made]
    exact .refl _
  | drop made =>
    rw [sound.drop_pids made]
    exact (Pids.Steps.finish false (making made)).reaches
  | giveUp made =>
    rw [sound.giveUp_pids made]
    exact (Pids.Steps.finish false (making made)).reaches
  | publish made =>
    rw [sound.publish_pids made]
    exact (Pids.Steps.finish true (making made)).reaches
  | exit alive idle notInit =>
    rw [exit_pids alive]
    exact (Pids.Steps.exit (able alive idle) notInit).reaches
  | reap alive idle found off =>
    rw [reap_pids found]
    exact (Pids.Steps.wait (able alive idle)).reaches
  | childless alive alone =>
    have same : ∀ p killed, (s.childless p killed).pids = s.pids := fun p killed =>
      Pids.Table.ext rfl rfl rfl rfl (by simp [pids, Census.childless, Event.returned])
    rw [same]
    exact .refl _

theorem Sound.reaches {after : Census Cpu} (sound : s.Sound)
    (changes : Relation.ReflTransGen Change s after) :
    after.Sound ∧ Runs.Reaches Pids.step s.pids after.pids := by
  induction changes with
  | refl => exact ⟨sound, .refl _⟩
  | tail _ change ih => exact ⟨change.sound ih.1, ih.2.trans (change.reaches ih.1)⟩

end Census

variable [DecidableEq Cpu] {t : Table Cpu}

/-- On any number of CPUs, what happens to slots, pids and parents is what happens in a run
of the table of pids. -/
theorem run_pids (steps : List (Action Cpu)) (ran : run userinit steps = some t) :
    Runs.Reaches Pids.step .userinit t.census.pids := by
  have start : (userinit : Table Cpu).census.pids = .userinit := by
    refine Pids.Table.ext (funext fun r => ?_) rfl (show wrap 2 = 2 by decide) rfl rfl
    simp only [Census.pids, userinit_kin, Pids.Table.userinit]
    split <;> rfl
  obtain ⟨pids, reached, -, rfl⟩ := Runs.Reaches.simulate
    (fun (t : Table Cpu) pids => t.Sound ∧ pids = t.census.pids)
    (fun related taken => ⟨_, related.2 ▸ (related.1.census.reaches
      (step_leads related.1 taken).changes).2, (step_leads related.1 taken).sound, rfl⟩)
    ⟨userinit_sound, start.symm⟩ ran
  exact reached

theorem run_pids_generation : ∃ t, run userinit generation = some t ∧
    Runs.Reaches Pids.step .userinit t.census.pids :=
  ⟨_, rfl, run_pids generation rfl⟩

end Ptable

namespace Kernel

/-- The state of a slot up to scheduling. -/
def life : ProcState → Ptable.Life
  | .unused => .unused
  | .embryo => .embryo
  | .runnable => .alive
  | .zombie => .zombie

/-- The table of pids of the kernel, with what `fork` has returned so far. Between calls no
slot is being made. -/
def Roll.pids (roll : Roll) (returned : List Int) : Pids.Table where
  proc := fun q => ⟨life (roll.slot q).state, wrap (roll.slot q).pid, (roll.slot q).parent, none⟩
  initproc := roll.initproc.getD 0
  nextpid := wrap roll.nextpid
  taken := roll.nextpid - 1
  returned := returned

variable {k after : Kernel} {roll last : Roll} {s : LifeStep} {p q : Nat}

@[simp] theorem life_unused {state : ProcState} : life state = .unused ↔ state = .unused := by
  cases state <;> simp [life]

@[simp] theorem life_zombie {state : ProcState} : life state = .zombie ↔ state = .zombie := by
  cases state <;> simp [life]

/-- A call of `fork` that has found a slot. -/
theorem Roll.Vacant.reaches (vacant : roll.Vacant q) (runnable : (roll.slot p).state = .runnable)
    (counted : 0 < roll.nextpid) (returned : List Int) (done : Bool) :
    Runs.Reaches Pids.step (roll.pids returned) ((roll.fork p q done).pids
      (returned ++ if done then [wrap roll.nextpid] else [])) := by
  have unused := vacant.unused.2
  have different : q ≠ p := by
    rintro rfl
    simp [runnable] at unused
  have hit : (List.range nproc).find? (fun r => ((roll.pids returned).proc r).life = .unused) =
      some q := by
    simp only [pids, life_unused]
    exact vacant
  have able : (roll.pids returned).Able p := ⟨by simp [pids, runnable, life], rfl⟩
  have making : (((roll.pids returned).allocproc p).proc p).making = some q := by
    simp [Pids.Table.allocproc, hit, Pids.Table.setProc]
  convert (Pids.Steps.fork able).reaches.trans (Pids.Steps.finish done making).reaches using 1
  rw [Pids.Table.allocproc, hit]
  cases done
  all_goals
    simp only [Roll.fork, pids, take, Pids.Table.finish, Pids.Table.setProc]
    refine Pids.Table.ext (funext fun r => ?_) rfl ?_ ?_ ?_
    · simp only [update_apply]
      grind [life]
    · simp [Pids.wrap_succ]
    · simp
      omega
    · simp [different]

theorem Roll.exit_pids {i : Nat} (init : roll.initproc = some i) (returned : List Int) :
    (roll.exit p).pids returned = (roll.pids returned).exit p := by
  refine Pids.Table.ext (funext fun r => ?_) rfl rfl rfl rfl
  simp only [pids, Roll.exit, Pids.Table.exit, init, Option.getD_some]
  grind [life]

theorem Roll.mark_pids (roll : Roll) (q : Nat) (returned : List Int) :
    (roll.mark q).pids returned = roll.pids returned := by
  refine Pids.Table.ext (funext fun r => ?_) rfl rfl rfl rfl
  by_cases here : r = q <;> simp [pids, mark, here]

theorem Roll.Dead.wait_pids (dead : roll.Dead p q) (returned : List Int) :
    (roll.reap q).pids returned = (roll.pids returned).wait p := by
  have hit : (List.range nproc).find? (fun r => ((roll.pids returned).proc r).parent = some p ∧
      ((roll.pids returned).proc r).life = .zombie) = some q := by
    simp only [pids, life_zombie]
    exact dead
  rw [Pids.Table.wait, hit]
  refine Pids.Table.ext (funext fun r => ?_) rfl rfl rfl rfl
  by_cases here : r = q <;> simp [pids, reap, Pids.Table.setProc, here, wrap, life]

/-- There is a first process, and pids have been given out. -/
def Roll.Started (roll : Roll) : Prop := (∃ i, roll.initproc = some i) ∧ 0 < roll.nextpid

theorem Effect.started (effect : Effect k s last) (started : k.roll.Started) : last.Started := by
  cases effect with
  | forked done vacant => exact ⟨started.1, Nat.succ_pos _⟩
  | _ => exact started

/-- What a call does is what some steps of the table of pids do. -/
theorem Effect.reaches (effect : Effect k s last)
    (runnable : (k.roll.slot s.proc).state = .runnable) (started : k.roll.Started)
    (returned : List Int) :
    ∃ more, Runs.Reaches Pids.step (k.roll.pids returned) (last.pids more) := by
  obtain ⟨⟨i, init⟩, counted⟩ := started
  have able : (k.roll.pids returned).Able s.proc := ⟨by simp [Roll.pids, runnable, life], rfl⟩
  have exits : k.initproc ≠ some s.proc →
      Runs.Reaches Pids.step (k.roll.pids returned) ((k.roll.pids returned).exit s.proc) := by
    intro notInit
    refine (Pids.Steps.exit able fun same => notInit ?_).reaches
    rw [same]
    change k.roll.initproc = some (k.roll.initproc.getD 0)
    rw [init]
    rfl
  cases effect with
  | nothing => exact ⟨returned, .refl _⟩
  | forked done vacant => exact ⟨_, vacant.reaches runnable counted returned done⟩
  | exited notInit => exact ⟨returned, Roll.exit_pids init returned ▸ exits notInit⟩
  | faulted call notInit =>
    refine ⟨returned, ?_⟩
    have marked : (k.roll.mark s.proc).initproc = some i := init
    rw [Roll.exit_pids marked, Roll.mark_pids]
    exact exits notInit
  | reaped dead => exact ⟨returned, dead.wait_pids returned ▸ (Pids.Steps.wait able).reaches⟩
  | @killed pid q call found => exact ⟨returned, Roll.mark_pids _ q returned ▸ .refl _⟩

end Kernel

end Xv6
