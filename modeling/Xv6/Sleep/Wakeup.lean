import Xv6.Sleep.Model

/-!
# No wakeup is lost

A lock is held by the CPU of the process that is at a point where it holds it, so two
processes are never at points where both hold one lock. From the test of the condition
to the `swtch` of `sched` a sleeper holds the lock of the channel or `ptable.lock`,
`wakeup1` runs with both, and so a wakeup takes effect either before the test or after
the process is in the table as sleeping on the channel.
-/

namespace Xv6.Sleep

open Function (update update_apply update_eq_self)

variable {n : Nat} {Cpu Chan : Type} (lockOf : Chan → Lock)

namespace Pc

/-- The locks a process holds where it is. -/
@[grind] def Holds (lk : Lock) : Pc n Chan → Prop
  | .holding held => lk = held
  | .sleepy chan | .calling chan => lk = lockOf chan
  | .swapping chan | .waking chan _ | .woke chan => lk = .ptable ∨ lk = lockOf chan
  | .bedding _ | .tucked _ | .dozing _ | .rousing _ | .roused _ => lk = .ptable
  | .yielding _ | .resuming _ => lk = .ptable
  | .user | .asleep _ | .reacquiring _ | .yielded _ => False

/-- Where a process is only on the way with a lock other than `ptable.lock`. -/
@[grind] def Apart : Pc n Chan → Prop
  | .sleepy chan | .swapping chan | .roused chan | .calling chan | .woke chan =>
    lockOf chan ≠ .ptable
  | _ => True

/-- Between the test that failed and the `swtch` of `sched`. -/
@[grind] def Retires (chan : Chan) : Pc n Chan → Prop
  | .sleepy on | .swapping on | .bedding on | .tucked on | .dozing on => on = chan
  | _ => False

/-- Before the `swtch` of `sched`, called by `sleep`. -/
@[grind] def Dozes : Pc n Chan → Prop
  | .dozing _ => True
  | _ => False

variable {lockOf} {pc : Pc n Chan}

/-- A process about to switch away holds `ptable.lock`. -/
theorem Dozes.holds (dozes : pc.Dozes) : pc.Holds lockOf .ptable := by
  cases pc with
  | dozing chan => rfl
  | _ => exact dozes.elim

/-- A process on its way to sleep on a channel holds `ptable.lock` or the lock of the
channel. -/
theorem Retires.holds {chan : Chan} (retires : pc.Retires chan) :
    pc.Holds lockOf .ptable ∨ pc.Holds lockOf (lockOf chan) := by
  cases pc with
  | sleepy on | swapping on =>
    cases retires
    simp [Holds]
  | bedding | tucked | dozing => exact .inl rfl
  | _ => exact retires.elim

end Pc

namespace System

variable {lk : Lock} {rest : List (Fin n)} {choice : Choice Chan}

/-- Locks are held by the CPUs of the processes that hold them and by schedulers. -/
structure Locked (s : System n Cpu Chan) : Prop where
  owner : ∀ p lk, (s.pc p).Holds lockOf lk →
    ∃ c, s.current c = some p ∧ s.holder lk = some c
  once : ∀ c d p, s.current c = some p → s.current d = some p → c = d
  scanner : ∀ c rest, s.scanning c = some rest →
    s.current c = none ∧ s.holder .ptable = some c
  apart : ∀ p, (s.pc p).Apart lockOf

/-- What a process and the table know of a channel. -/
structure Attentive (s : System n Cpu Chan) : Prop where
  running : ∀ c p, s.current c = some p →
    s.state p = .running ∨ (s.pc p).Dozes
  dozing : ∀ p, (s.pc p).Dozes → s.state p = .sleeping
  retiring : ∀ p chan, (s.pc p).Retires chan → s.heard p chan = false
  sleeping : ∀ p chan, s.state p = .sleeping → s.chan p = some chan → s.heard p chan = false
  laid : ∀ p chan, s.pc p = .tucked chan → s.chan p = some chan
  passed : ∀ w chan rest, s.pc w = .waking chan rest →
    ∀ p, s.state p = .sleeping → s.chan p = some chan → p ∈ rest

variable {lockOf} {s after : System n Cpu Chan} {c : Cpu} {p q : Fin n}

/-- Two processes never hold one lock. -/
theorem Locked.exclusive (locked : s.Locked lockOf) (first : (s.pc p).Holds lockOf lk)
    (second : (s.pc q).Holds lockOf lk) : p = q := by
  obtain ⟨c, onFirst, holderFirst⟩ := locked.owner p lk first
  obtain ⟨d, onSecond, holderSecond⟩ := locked.owner q lk second
  grind

/-- No process holds `ptable.lock` while a scheduler is in its loop. -/
theorem Locked.unscanned (locked : s.Locked lockOf) (scanning : s.scanning c = some rest) :
    ¬ (s.pc p).Holds lockOf .ptable := by
  intro holds
  obtain ⟨d, running, holder⟩ := locked.owner p _ holds
  have scanner := locked.scanner c rest scanning
  grind

/-- No process holds a free lock. -/
theorem Locked.free (locked : s.Locked lockOf) (free : s.holder lk = none) :
    ¬ (s.pc p).Holds lockOf lk := by
  intro holds
  obtain ⟨d, -, holder⟩ := locked.owner p _ holds
  simp [free] at holder

/-- What a step of a process on a CPU does to the locks, unless it is a `swtch`. -/
structure Goes (lockOf : Chan → Lock) (s after : System n Cpu Chan) (c : Cpu) (p : Fin n) :
    Prop where
  current : after.current = s.current
  scanning : after.scanning = s.scanning
  others : ∀ q, q ≠ p → after.pc q = s.pc q
  same : ∀ lk, ((after.pc p).Holds lockOf lk ↔ (s.pc p).Holds lockOf lk) →
    after.holder lk = s.holder lk
  taken : ∀ lk, (after.pc p).Holds lockOf lk → ¬ (s.pc p).Holds lockOf lk →
    s.holder lk = none ∧ after.holder lk = some c
  apart : (s.pc p).Apart lockOf → (after.pc p).Apart lockOf

/-- A step that takes only free locks and gives up only locks of its own keeps the locks
in order. -/
theorem Locked.goes (locked : s.Locked lockOf) (on : s.current c = some p)
    (goes : Goes lockOf s after c p) : after.Locked lockOf := by
  have mine : ∀ lk, (s.pc p).Holds lockOf lk → s.holder lk = some c := by
    intro lk holds
    obtain ⟨d, running, holder⟩ := locked.owner p lk holds
    rw [holder, locked.once d c p running on]
  constructor
  · intro q lk holds
    by_cases self : q = p
    · subst self
      refine ⟨c, by rw [goes.current, on], ?_⟩
      by_cases before : (s.pc q).Holds lockOf lk
      · rw [goes.same lk (iff_of_true holds before), mine lk before]
      · exact (goes.taken lk holds before).2
    · rw [goes.others q self] at holds
      obtain ⟨d, running, holder⟩ := locked.owner q lk holds
      have apart : ¬ (s.pc p).Holds lockOf lk := fun own => self (locked.exclusive holds own)
      have untaken : ¬ (after.pc p).Holds lockOf lk := by
        intro own
        have free := (goes.taken lk own apart).1
        simp [free] at holder
      exact ⟨d, by rw [goes.current, running], by
        rw [goes.same lk (iff_of_false untaken apart), holder]⟩
  · rw [goes.current]
    exact locked.once
  · intro d rest scanning
    rw [goes.scanning] at scanning
    have scanner := locked.scanner d rest scanning
    have apart : ¬ (s.pc p).Holds lockOf .ptable := locked.unscanned scanning
    have untaken : ¬ (after.pc p).Holds lockOf .ptable := by
      intro own
      have free := (goes.taken _ own apart).1
      simp [free] at scanner
    rw [goes.current, goes.same _ (iff_of_false untaken apart)]
    exact scanner
  · intro q
    by_cases self : q = p
    · exact self ▸ goes.apart (locked.apart p)
    · rw [goes.others q self]
      exact locked.apart q

/-- A step of a process that neither changes the state of a process nor tells any of a
wakeup, and what the process knows after it. -/
structure Minds (s after : System n Cpu Chan) (p : Fin n) : Prop where
  current : after.current = s.current
  state : after.state = s.state
  others : ∀ q, q ≠ p → after.pc q = s.pc q ∧ after.chan q = s.chan q ∧ after.heard q = s.heard q
  awake : ¬ (s.pc p).Dozes
  stays : ¬ (after.pc p).Dozes
  retiring : ∀ chan, (after.pc p).Retires chan → after.heard p chan = false
  laid : ∀ chan, after.pc p = .tucked chan → after.chan p = some chan
  passed : ∀ chan rest, after.pc p = .waking chan rest → ∀ q, q ∈ rest

/-- Such a step concerns no sleeping process, since the process that takes it runs. -/
theorem Attentive.minds (attentive : s.Attentive) (on : s.current c = some p)
    (minds : Minds s after p) : after.Attentive := by
  have running : s.state p = .running := by
    rcases attentive.running c p on with running | dozing
    · exact running
    · exact absurd dozing minds.awake
  constructor
  · intro d q current
    rw [minds.current] at current
    rw [minds.state]
    rcases attentive.running d q current with awake | dozing
    · exact .inl awake
    · have other : q ≠ p := fun same => minds.awake (same ▸ dozing)
      exact .inr (by rwa [(minds.others q other).1])
  · intro q dozing
    have other : q ≠ p := fun same => minds.stays (same ▸ dozing)
    rw [minds.state]
    exact attentive.dozing q ((minds.others q other).1 ▸ dozing)
  · intro q chan retires
    by_cases self : q = p
    · exact self ▸ minds.retiring chan (self ▸ retires)
    · obtain ⟨pc, -, heard⟩ := minds.others q self
      rw [heard]
      exact attentive.retiring q chan (pc ▸ retires)
  · intro q chan asleep on
    rw [minds.state] at asleep
    have other : q ≠ p := by
      rintro rfl
      simp [running] at asleep
    obtain ⟨-, same, heard⟩ := minds.others q other
    rw [heard]
    exact attentive.sleeping q chan asleep (same ▸ on)
  · intro q chan tucked
    by_cases self : q = p
    · exact self ▸ minds.laid chan (self ▸ tucked)
    · obtain ⟨pc, same, -⟩ := minds.others q self
      rw [same]
      exact attentive.laid q chan (pc ▸ tucked)
  · intro w chan rest waking q asleep on
    by_cases self : w = p
    · exact minds.passed chan rest (self ▸ waking) q
    · rw [minds.state] at asleep
      have other : q ≠ p := by
        rintro rfl
        simp [running] at asleep
      rw [(minds.others w self).1] at waking
      exact attentive.passed w chan rest waking q asleep ((minds.others q other).2.1 ▸ on)

/-- `yield` takes `ptable.lock`. -/
theorem yield_spec {place : Option Chan}
    (before : ∀ lk, ¬ (s.pc p).Holds lockOf lk) (took : s.yield c p place = some after) :
    Goes lockOf s after c p ∧ Minds s after p := by
  have awake : ¬ (s.pc p).Dozes := fun dozes => before .ptable dozes.holds
  unfold yield at took
  split at took
  · cases took
    refine ⟨⟨rfl, rfl, ?_, ?_, ?_, ?_⟩, rfl, rfl, ?_, awake, ?_, ?_, ?_, ?_⟩
    all_goals simp only [goto, acquire, update_apply]
    all_goals grind
  · cases took

variable (lockOf) in
/-- What holds in every state that is reached. -/
structure Sound (s : System n Cpu Chan) : Prop where
  locked : s.Locked lockOf
  attentive : s.Attentive

/-- A step that does both. -/
theorem Sound.goes (sound : s.Sound lockOf) (on : s.current c = some p)
    (spec : Goes lockOf s after c p ∧ Minds s after p) : after.Sound lockOf :=
  ⟨sound.locked.goes on spec.1, sound.attentive.minds on spec.2⟩

/-- A process that runs and is not about to switch away is in state `RUNNING`. -/
theorem Sound.runs (sound : s.Sound lockOf) (on : s.current c = some p)
    (awake : ¬ (s.pc p).Dozes) : s.state p = .running := by
  rcases sound.attentive.running c p on with running | dozing
  · exact running
  · exact absurd dozing awake

variable {chan : Chan}

/-- `proc->state = SLEEPING`: the process has its channel, it has heard of no wakeup since
its test, and no process is in `wakeup1`. -/
theorem Sound.tuck (sound : s.Sound lockOf) (on : s.current c = some p)
    (pc : s.pc p = .tucked chan) :
    ({ s with state := update s.state p .sleeping }.goto p (.dozing chan)).Sound
      lockOf := by
  have unheard := sound.attentive.retiring p chan (by rw [pc]; rfl)
  have laid := sound.attentive.laid p chan pc
  have alone : ∀ w on rest, s.pc w ≠ .waking on rest := by
    intro w channel rest waking
    have mine : (s.pc p).Holds lockOf .ptable := by rw [pc]; rfl
    have same : p = w := sound.locked.exclusive mine (by rw [waking]; exact .inl rfl)
    subst same
    simp [pc] at waking
  constructor
  · refine sound.locked.goes on ⟨rfl, rfl, ?_, ?_, ?_, ?_⟩
    all_goals simp only [goto, update_apply, pc]
    all_goals grind
  · obtain ⟨running, dozing, retiring, sleeping, laidOut, passed⟩ := sound.attentive
    constructor
    all_goals simp only [goto, update_apply]
    all_goals grind

variable [DecidableEq Chan]

/-- A slot of the loop of `wakeup1`: a process it makes runnable is not on a CPU, since one
that is about to switch away holds `ptable.lock` itself. -/
theorem Sound.rouse (sound : s.Sound lockOf) (on : s.current c = some p)
    (pc : s.pc p = .waking chan (q :: rest)) :
    ((s.rouse chan q).goto p (.waking chan rest)).Sound lockOf := by
  have alone : ∀ r, (s.pc r).Holds lockOf .ptable → r = p := by
    intro r holds
    exact sound.locked.exclusive holds (by rw [pc]; exact .inl rfl)
  have running := sound.runs on (by simp [pc, Pc.Dozes])
  have switching : ∀ r, (s.pc r).Dozes → r = p := fun r dozes => alone r dozes.holds
  constructor
  · refine sound.locked.goes on ⟨?_, ?_, ?_, ?_, ?_, ?_⟩
    all_goals unfold System.rouse
    all_goals split
    all_goals simp only [goto, update_apply, pc]
    all_goals grind
  · obtain ⟨runs, dozing, retiring, sleeping, laid, passed⟩ := sound.attentive
    unfold System.rouse
    split
    all_goals constructor
    all_goals simp only [goto, update_apply]
    all_goals grind

/-- The end of `wakeup1`: nobody sleeps on the channel any more, and nobody is on the way to
sleep on it, since a process on that way holds a lock that the caller of `wakeup1` has. -/
theorem Sound.woken (sound : s.Sound lockOf) (on : s.current c = some p)
    (pc : s.pc p = .waking chan []) :
    ({ s with heard := fun q => update (s.heard q) chan true }.goto p
      (if lockOf chan = Lock.ptable then .holding .ptable else .woke chan)).Sound lockOf := by
  have alone : ∀ r, ¬ (s.pc r).Retires chan := by
    intro r retires
    have both : (s.pc r).Holds lockOf .ptable ∨ (s.pc r).Holds lockOf (lockOf chan) :=
      retires.holds
    have same : r = p := by
      rcases both with holds | holds
      · exact sound.locked.exclusive holds (by rw [pc]; exact .inl rfl)
      · exact sound.locked.exclusive holds (by rw [pc]; exact .inr rfl)
    subst same
    simp [pc, Pc.Retires] at retires
  constructor
  · refine sound.locked.goes on ⟨rfl, rfl, ?_, ?_, ?_, ?_⟩
    all_goals simp only [goto, update_apply, pc]
    all_goals grind
  · obtain ⟨runs, dozing, retiring, sleeping, laid, passed⟩ := sound.attentive
    have nobody : ∀ r, s.state r = .sleeping → s.chan r ≠ some chan := by
      intro r asleep onChan
      simpa using passed p chan [] pc r asleep onChan
    constructor
    all_goals simp only [goto, update_apply]
    all_goals grind

/-- What a process does with a lock held, one of them its release. -/
theorem withLock_spec (holding : s.pc p = .holding lk)
    (took : s.withLock lockOf p lk choice = some after) :
    Goes lockOf s after c p ∧ Minds s after p := by
  have awake : ¬ (s.pc p).Dozes := by simp [holding, Pc.Dozes]
  unfold withLock at took
  dsimp only at took
  split at took
  case h_5 => cases took
  all_goals repeat' split at took
  all_goals cases took
  all_goals refine ⟨⟨rfl, rfl, ?_, ?_, ?_, ?_⟩, rfl, rfl, ?_, awake, ?_, ?_, ?_, ?_⟩
  all_goals simp only [goto, release, update_apply, holding]
  all_goals grind

variable [DecidableEq Cpu]

omit [DecidableEq Chan] in
/-- A process switches to the scheduler of its CPU, asleep or runnable. The scheduler has
`ptable.lock` from it. -/
theorem Sound.sched (sound : s.Sound lockOf) (on : s.current c = some p) {state : State}
    {pc : Pc n Chan} (mine : (s.pc p).Holds lockOf .ptable)
    (idle : ∀ lk, ¬ pc.Holds lockOf lk) (easy : pc.Apart lockOf)
    (asleep : state = .sleeping → s.state p = .sleeping) :
    ({ s with state := update s.state p state }.sched c p pc).Sound lockOf := by
  obtain ⟨owner, once, scanner, apart⟩ := sound.locked
  obtain ⟨runs, dozing, retiring, sleeping, laid, passed⟩ := sound.attentive
  have held : s.holder .ptable = some c := by
    obtain ⟨d, running, holder⟩ := owner p .ptable mine
    rw [holder, once d c p running on]
  have settled : ∀ chan, ¬ pc.Retires chan := by
    intro chan retires
    exact retires.holds.elim (idle _) (idle _)
  have unlaid : ∀ chan, pc ≠ .tucked chan := by
    rintro chan rfl
    exact idle .ptable rfl
  have unwaking : ∀ chan rest, pc ≠ .waking chan rest := by
    rintro chan rest rfl
    exact idle .ptable (.inl rfl)
  have awake : ¬ pc.Dozes := fun dozes => idle .ptable dozes.holds
  constructor
  · constructor
    · intro q lk holds
      have other : q ≠ p := by
        rintro rfl
        exact idle lk (by simpa [System.sched, goto] using holds)
      have before : (s.pc q).Holds lockOf lk := by
        simpa [System.sched, goto, update_apply, other] using holds
      obtain ⟨d, running, holder⟩ := owner q lk before
      refine ⟨d, ?_, holder⟩
      have elsewhere : d ≠ c := by
        rintro rfl
        exact other (Option.some.inj (running.symm.trans on))
      simpa [System.sched, update_apply, elsewhere] using running
    · simp only [System.sched, update_apply]
      grind
    · simp only [System.sched, goto, update_apply]
      grind
    · simp only [System.sched, goto, update_apply]
      grind
  · constructor
    all_goals simp only [System.sched, goto, update_apply]
    all_goals grind

/-- The step of the process that runs on a CPU. -/
theorem Sound.process (sound : s.Sound lockOf) (on : s.current c = some p)
    (took : s.process lockOf c p choice = some after) :
    after.Sound lockOf := by
  have apart := sound.locked.apart p
  unfold System.process at took
  cases pc : s.pc p with
  | user =>
    simp only [pc] at took
    split at took
    · split at took
      · cases took
        refine sound.goes on ⟨⟨rfl, rfl, ?_, ?_, ?_, ?_⟩, rfl, rfl, ?_, ?_, ?_, ?_, ?_, ?_⟩
        all_goals simp only [goto, acquire, update_apply, pc]
        all_goals grind
      · cases took
    · exact sound.goes on (yield_spec (by simp [pc, Pc.Holds]) took)
    · cases took
  | holding lk =>
    simp only [pc] at took
    exact sound.goes on (withLock_spec pc took)
  | sleepy chan | calling chan =>
    simp only [pc] at took
    split at took
    · cases took
      refine sound.goes on ⟨⟨rfl, rfl, ?_, ?_, ?_, ?_⟩, rfl, rfl, ?_, ?_, ?_, ?_, ?_, ?_⟩
      all_goals simp only [goto, acquire, update_apply, pc]
      all_goals grind [sound.attentive.retiring p]
    · cases took
  | resuming place =>
    simp only [pc, Option.some.injEq] at took
    subst took
    cases place
    all_goals refine sound.goes on ⟨⟨rfl, rfl, ?_, ?_, ?_, ?_⟩, rfl, rfl, ?_, ?_, ?_, ?_, ?_, ?_⟩
    all_goals simp only [goto, release, back, update_apply, pc]
    all_goals grind
  | swapping chan | roused chan | woke chan =>
    simp only [pc, Option.some.injEq] at took
    subst took
    refine sound.goes on ⟨⟨rfl, rfl, ?_, ?_, ?_, ?_⟩, rfl, rfl, ?_, ?_, ?_, ?_, ?_, ?_⟩
    all_goals simp only [goto, release, update_apply, pc]
    all_goals grind [sound.attentive.retiring p]
  | bedding chan | rousing chan =>
    simp only [pc, Option.some.injEq] at took
    subst took
    refine sound.goes on ⟨⟨rfl, rfl, ?_, ?_, ?_, ?_⟩, rfl, rfl, ?_, ?_, ?_, ?_, ?_, ?_⟩
    all_goals simp only [goto, update_apply, pc]
    all_goals grind [sound.attentive.retiring p]
  | tucked chan =>
    simp only [pc, Option.some.injEq] at took
    exact took ▸ sound.tuck on pc
  | dozing chan =>
    simp only [pc, Option.some.injEq] at took
    have asleep : s.state p = .sleeping := sound.attentive.dozing p (by rw [pc]; trivial)
    have switched : after =
        { s with state := update s.state p .sleeping }.sched c p (.asleep chan) := by
      rw [← took, ← asleep, update_eq_self]
    rw [switched]
    exact sound.sched on (by rw [pc]; rfl) (fun lk => id) trivial (fun _ => asleep)
  | asleep chan | yielded place =>
    simp only [pc, reduceCtorEq] at took
  | reacquiring chan =>
    simp only [pc] at took
    split at took
    · exact sound.goes on (yield_spec (by simp [pc, Pc.Holds]) took)
    · split at took
      · cases took
        refine sound.goes on ⟨⟨rfl, rfl, ?_, ?_, ?_, ?_⟩, rfl, rfl, ?_, ?_, ?_, ?_, ?_, ?_⟩
        all_goals simp only [goto, acquire, update_apply, pc]
        all_goals grind
      · cases took
  | waking chan rest =>
    cases rest with
    | nil =>
      simp only [pc, Option.some.injEq] at took
      exact took ▸ sound.woken on pc
    | cons q rest =>
      simp only [pc, Option.some.injEq] at took
      exact took ▸ sound.rouse on pc
  | yielding place =>
    simp only [pc, Option.some.injEq] at took
    subst took
    exact sound.sched on (by rw [pc]; rfl) (fun lk => id) trivial (by simp)

omit [DecidableEq Chan] [DecidableEq Cpu] in
/-- A process that holds no lock goes on with `ptable.lock` at most, and with nothing that
concerns a channel. -/
theorem resumed_spec {pc : Pc n Chan} (bare : ∀ lk, ¬ pc.Holds lockOf lk) :
    (∀ lk, (resumed pc).Holds lockOf lk → lk = .ptable) ∧ (resumed pc).Apart lockOf ∧
      ¬ (resumed pc).Dozes ∧ (∀ chan, ¬ (resumed pc).Retires chan) ∧
      (∀ chan, resumed pc ≠ .tucked chan) ∧ ∀ chan rest, resumed pc ≠ .waking chan rest := by
  cases pc with
  | asleep | yielded | user | reacquiring =>
    simp [resumed, Pc.Holds, Pc.Apart, Pc.Dozes, Pc.Retires]
  | holding lk => exact absurd rfl (bare lk)
  | sleepy chan | calling chan => exact absurd rfl (bare (lockOf chan))
  | swapping | waking | woke => exact absurd (.inl rfl) (bare .ptable)
  | _ => exact absurd rfl (bare .ptable)

omit [DecidableEq Chan] in
/-- The scheduler switches to a runnable process. No CPU runs that process, and it goes on
with the lock of the scheduler. -/
theorem Sound.dispatch (sound : s.Sound lockOf) (scanning : s.scanning c = some rest)
    (runnable : s.state q = .runnable) :
    (s.dispatch c q).Sound lockOf := by
  obtain ⟨owner, once, scanner, apart⟩ := sound.locked
  obtain ⟨runs, dozing, retiring, sleeping, laid, passed⟩ := sound.attentive
  obtain ⟨vacant, held⟩ := scanner c rest scanning
  have off : ∀ d, s.current d ≠ some q := by
    intro d current
    rcases runs d q current with running | dozes
    · simp [runnable] at running
    · have asleep := dozing q dozes
      simp [runnable] at asleep
  have bare : ∀ lk, ¬ (s.pc q).Holds lockOf lk := by
    intro lk holds
    obtain ⟨d, current, -⟩ := owner q lk holds
    exact off d current
  obtain ⟨only, easy, awake, settled, unlaid, unwaking⟩ := resumed_spec bare
  constructor
  · constructor
    · intro p lk holds
      by_cases self : p = q
      · subst self
        have ptable : lk = .ptable := only lk (by simpa [System.dispatch, goto] using holds)
        exact ⟨c, by simp [System.dispatch], by rw [ptable]; exact held⟩
      · have before : (s.pc p).Holds lockOf lk := by
          simpa [System.dispatch, goto, update_apply, self] using holds
        obtain ⟨d, current, holder⟩ := owner p lk before
        have elsewhere : d ≠ c := by
          rintro rfl
          simp [vacant] at current
        exact ⟨d, by simpa [System.dispatch, update_apply, elsewhere] using current,
          holder⟩
    all_goals simp only [System.dispatch, goto, update_apply]
    all_goals grind
  · constructor
    all_goals simp only [System.dispatch, goto, update_apply]
    all_goals grind

omit [DecidableEq Chan] in
/-- The step of the scheduler of a CPU. -/
theorem Sound.scheduler (sound : s.Sound lockOf) (took : s.scheduler c = some after) :
    after.Sound lockOf := by
  obtain ⟨owner, once, scanner, apart⟩ := sound.locked
  obtain ⟨runs, dozing, retiring, sleeping, laid, passed⟩ := sound.attentive
  unfold System.scheduler at took
  split at took
  · cases took
  · rename_i vacant unscanned
    split at took
    · rename_i free
      cases took
      refine ⟨⟨?_, once, ?_, apart⟩, runs, dozing, retiring, sleeping, laid, passed⟩
      · intro p lk holds
        obtain ⟨d, current, holder⟩ := owner p lk holds
        have other : lk ≠ .ptable := by
          rintro rfl
          simp [free] at holder
        exact ⟨d, current, by simpa [acquire, update_apply, other] using holder⟩
      · simp only [acquire, update_apply]
        grind
    · cases took
  · rename_i vacant scanned
    cases took
    refine ⟨⟨?_, once, ?_, apart⟩, runs, dozing, retiring, sleeping, laid, passed⟩
    · intro p lk holds
      have other : lk ≠ .ptable := by
        rintro rfl
        exact sound.locked.unscanned scanned holds
      obtain ⟨d, current, holder⟩ := owner p lk holds
      exact ⟨d, current, by simpa [release, update_apply, other] using holder⟩
    · simp only [release, update_apply]
      grind
  · rename_i q rest vacant scanned
    split at took
    · rename_i runnable
      cases took
      exact sound.dispatch scanned runnable
    · cases took
      refine ⟨⟨owner, once, ?_, apart⟩, runs, dozing, retiring, sleeping, laid, passed⟩
      simp only [update_apply]
      grind

omit [DecidableEq Chan] [DecidableEq Cpu] in
/-- `kill` finds no process about to switch away. -/
theorem Sound.kill (sound : s.Sound lockOf) (took : s.kill p = some after) :
    after.Sound lockOf := by
  unfold System.kill at took
  split at took
  · rename_i free
    cases took
    have awake : ∀ q, ¬ (s.pc q).Dozes := fun q dozes => sound.locked.free free dozes.holds
    refine ⟨⟨sound.locked.owner, sound.locked.once, sound.locked.scanner, sound.locked.apart⟩, ?_⟩
    obtain ⟨runs, dozing, retiring, sleeping, laid, passed⟩ := sound.attentive
    constructor
    all_goals simp only [update_apply]
    all_goals grind
  · cases took

/-- One step. -/
theorem Sound.step (sound : s.Sound lockOf) {action : Action n Cpu Chan}
    (took : s.step lockOf action = some after) : after.Sound lockOf := by
  cases action with
  | process c choice =>
    simp only [System.step] at took
    split at took
    · cases took
    · rename_i p current
      exact sound.process current took
  | scheduler c => exact sound.scheduler took
  | kill p => exact sound.kill took

omit [DecidableEq Chan] [DecidableEq Cpu] in
/-- Nothing has happened at the start. -/
theorem start_sound (condition : Chan → Bool) :
    (start condition : System n Cpu Chan).Sound lockOf := by
  constructor <;> constructor <;> simp [start, Pc.Holds, Pc.Apart, Pc.Dozes, Pc.Retires]

/-- Every state that is reached. -/
theorem run_sound {condition : Chan → Bool} {steps : List (Action n Cpu Chan)}
    (ran : (start condition).run lockOf steps = some s) : s.Sound lockOf := by
  refine Runs.always (fun s : System n Cpu Chan => s.Sound lockOf) ?_ (start_sound condition) ran
  intro state after action sound took
  exact sound.step (Runs.unfailing_ok.mp took)

/-- In no reachable state does a process sleep on a channel although a wakeup of the
channel has taken effect since it last tested the condition of the channel. -/
theorem no_lost_wakeup {condition : Chan → Bool} {steps : List (Action n Cpu Chan)}
    (ran : (start condition).run lockOf steps = some s) (p : Fin n) (chan : Chan) :
    ¬ (s.state p = .sleeping ∧ s.chan p = some chan ∧ s.heard p chan = true) := by
  rintro ⟨asleep, on, heard⟩
  have unheard := (run_sound ran).attentive.sleeping p chan asleep on
  simp [heard] at unheard

end System

/-- One of two processes on one CPU finds the condition false and goes to sleep. -/
def slumber : List (Action 2 Unit Unit) :=
  [.scheduler (), .scheduler (), .process () .next, .process () (.acquire (.other 0)),
    .process () (.test ()), .process () .next, .process () .next, .process () .next,
    .process () .next, .process () .next]

/-- Then the other makes it true and wakes the channel. -/
def call : List (Action 2 Unit Unit) :=
  [.scheduler (), .process () .next, .process () (.acquire (.other 0)),
    .process () (.assign () true), .process () (.wakeup ()), .process () .next,
    .process () .next, .process () .next, .process () .next]

/-- The process sleeps before the wakeup, it has been told of the wakeup after it, and it
does not sleep then. -/
theorem no_lost_wakeup_call :
    ∃ before after : System 2 Unit Unit,
      (start fun _ => false).run (fun _ => .other 0) slumber = some before ∧
      before.state 0 = .sleeping ∧ before.chan 0 = some () ∧
      (start fun _ => false).run (fun _ => .other 0) (slumber ++ call) = some after ∧
      after.heard 0 () = true ∧ after.chan 0 = some () ∧
      ¬ (after.state 0 = .sleeping ∧ after.chan 0 = some () ∧ after.heard 0 () = true) :=
  ⟨_, _, rfl, rfl, rfl, rfl, rfl, rfl,
    @System.no_lost_wakeup 2 Unit Unit (fun _ => .other 0) _ _ _ (fun _ => false)
      (slumber ++ call) rfl 0 ()⟩

end Xv6.Sleep
