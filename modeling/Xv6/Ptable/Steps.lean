import Xv6.Ptable.Schedule

/-!
# Every step keeps the table in order

One lemma for each function of `proc.c`, and from them the run lemma. `exit` wakes the
parent before the process becomes a zombie, and the first process when it inherits a
zombie, all under the lock: that keeps a process that sleeps in `wait` from having a
zombie child.
-/

namespace Xv6.Ptable

open Function (update_of_ne update_self)

namespace Table

variable {Cpu : Type}
  {t after : Table Cpu} {p q r : Nat} {making : Option (Nat × Stage)} {other : Slot}
  {c : Cpu}

/-- The step does not panic, and leaves the table in order if it was possible. -/
def Keeps (t : Table Cpu) (result : Except String (Option (Table Cpu))) : Prop :=
  ∃ after, result = .ok after ∧ ∀ last, after = some last → t.Leads last

theorem Keeps.impossible : t.Keeps (.ok none) := ⟨none, rfl, by simp⟩

/-- The table after a part of `fork`: the slot of the new process and what the process
that makes it remembers. -/
def Forks (t after : Table Cpu) (p q : Nat) (other : Slot) (making : Option (Nat × Stage)) :
    Prop :=
  after.proc = Function.update (Function.update t.proc q other) p { t.proc p with making } ∧
    after.current = t.current

theorem Sound.forks (sound : t.Sound) (running : (t.proc p).state = .running)
    (idle : (t.proc q).state = .unused ∨ ∃ stage, (t.proc p).making = some (q, stage))
    (forks : Forks t after p q other making)
    (state : other.state = .unused ∨ other.state = .embryo ∨
      (other.state = .runnable ∧ other.context = .forkret))
    (parent : other.parent = (t.proc q).parent ∨
      ((t.proc q).parent = none ∧ other.parent = some p))
    (childless : other.making = (t.proc q).making)
    (embryo : making = none ∨ ∃ stage, making = some (q, stage) ∧
      (stage ≠ .found → other.context = .forkret))
    (change : t.census.Change after.census) : t.Leads after := by
  obtain ⟨procs, current⟩ := forks
  have before : (t.proc q).state = .unused ∨ (t.proc q).state = .embryo := by
    rcases idle with unused | ⟨stage, made⟩
    · exact .inl unused
    · right
      have life := (sound.census.making p q stage made).2.1
      cases is : (t.proc q).state <;> simp [Table.census, Slot.kin, is, State.life] at life ⊢
  have different : q ≠ p := by
    rintro rfl
    rw [running] at before
    simp at before
  have self : after.proc p = { t.proc p with making } := by rw [procs, update_self]
  have new : after.proc q = other := by
    rw [procs, update_of_ne different, update_self]
  have others : ∀ r, r ≠ p → r ≠ q → after.proc r = t.proc r := by
    intro r notSelf notNew
    rw [procs, update_of_ne notSelf, update_of_ne notNew]
  have unmade : ∀ r stage, r ≠ p → (t.proc r).making ≠ some (q, stage) := by
    intro r stage notSelf made
    have life := (sound.census.making r q stage made).2.1
    rcases idle with unused | ⟨_, mine⟩
    · simp [Table.census, Slot.kin, unused, State.life] at life
    · exact notSelf (sound.census.making_unique r p q stage _ made mine)
  have notEmbryo : ∀ r stage, (t.proc r).making ≠ some (p, stage) := by
    intro r stage made
    have life := (sound.census.making r p stage made).2.1
    simp [Table.census, Slot.kin, running, State.life] at life
  have asleep : ∀ r, after.InWait r → t.InWait r ∧ r ≠ p ∧ r ≠ q ∧ after.proc r = t.proc r := by
    intro r
    simp only [InWait]
    grind
  refine sound.of_change change ⟨sound.toOnCpu.same current ?_, ?_, ?_⟩
  · intro r
    by_cases mine : r = p
    · subst mine
      rw [self]
    · by_cases theirs : r = q
      · subst theirs
        rw [new]
        grind
      · rw [others r mine theirs]
  · obtain ⟨h1, h2, h3, h4⟩ := sound.toPlaced
    constructor
    case embryo =>
      intro r u stage made late
      by_cases mine : r = p
      · subst mine
        grind
      · by_cases theirs : r = q
        · subst theirs
          rw [new, childless] at made
          have life := (sound.census.making r u stage made).1
          rcases before with is | is <;> simp [Table.census, Slot.kin, is, State.life] at life
        · rw [others r mine theirs] at made
          have same : u ≠ p := fun here => notEmbryo r stage (here ▸ made)
          have alsoSame : u ≠ q := fun here => unmade r stage mine (here ▸ made)
          rw [others u same alsoSame]
          exact h3 r u stage made late
    all_goals grind
  · constructor
    case chan =>
      intro r inWait
      obtain ⟨was, _, _, same⟩ := asleep r inWait
      rw [same]
      exact sound.chan r was
    case child =>
      intro r inWait
      obtain ⟨was, notSelf, notNew, _⟩ := asleep r inWait
      obtain ⟨u, child⟩ := sound.child r was
      refine ⟨u, ?_⟩
      grind
    case living =>
      intro r u inWait child
      obtain ⟨was, notSelf, notNew, _⟩ := asleep r inWait
      have living := sound.living r u was
      grind

/-- What a part of `fork` does to the census. -/
theorem Forks.census (forks : Forks t after p q other making) :
    after.census = { t.census.change p q { (t.proc p).kin with making } other.kin with
      initproc := after.initproc, nextpid := after.nextpid, pages := after.pages,
      freed := after.freed, events := after.events } := by
  simp only [Table.census, Census.change, forks.1]
  congr 1
  funext r
  by_cases self : r = p
  · subst self
    simp [Slot.kin]
  · by_cases theirs : r = q
    · subst theirs
      simp [self]
    · simp [self, theirs]

/-- `allocproc` looks for a slot. -/
theorem Sound.fork (sound : t.Sound) (ran : t.fork c = some after) : t.Leads after := by
  unfold Table.fork at ran
  split at ran
  · cases ran
  · rename_i p runs
    have running := sound.current c p runs
    split at ran
    · cases ran
    · rename_i idle
      split at ran
      · cases ran
        exact ⟨sound, .refl⟩
      · rename_i q found
        have unused : (t.proc q).state = .unused := by simpa using List.find?_some found
        have different : q ≠ p := by
          rintro rfl
          rw [running] at unused
          cases unused
        have forks : Forks t after p q { t.proc q with state := .embryo, pid := t.nextpid }
            (some (q, .found)) := by
          cases ran
          exact ⟨by simp [setProc, different.symm], rfl⟩
        refine sound.forks running (.inl unused) forks (.inr (.inl rfl)) (.inl rfl) rfl
          (.inr ⟨.found, rfl, fun late => absurd rfl late⟩) ?_
        rw [forks.census]
        cases ran
        exact .take (by simp [Table.census, Slot.kin, running, State.life])
          (by simpa [Table.census, Slot.kin] using idle)
          (by simpa [Table.census, Slot.kin] using found)

/-- A slot that is being made is an embryo. -/
theorem Sound.embryo_state {stage : Stage} (sound : t.Sound)
    (made : (t.proc p).making = some (q, stage)) : (t.proc q).state = .embryo := by
  have life := (sound.census.making p q stage made).2.1
  cases is : (t.proc q).state <;> simp [Table.census, Slot.kin, is, State.life] at life ⊢

/-- The other parts of `fork`, with what they get from `kalloc`. -/
theorem Sound.resume {succeeds : Bool} (sound : t.Sound) (ran : t.resume c succeeds = some after) :
    t.Leads after := by
  unfold Table.resume at ran
  split at ran
  · cases ran
  · rename_i p runs
    have running := sound.current c p runs
    dsimp only at ran
    split at ran
    · cases ran
    · rename_i q made
      have different := sound.census.making_ne (p := p) made
      have embryo := sound.embryo_state made
      split at ran
      · have forks : Forks t after p q
            { t.proc q with kstack := some t.pages, context := .forkret }
            (some (q, .stacked)) := by
          cases ran
          exact ⟨by simp [setProc, different.symm], rfl⟩
        refine sound.forks running (.inr ⟨_, made⟩) forks (.inr (.inl embryo)) (.inl rfl) rfl
          (.inr ⟨.stacked, rfl, fun _ => rfl⟩) ?_
        rw [forks.census]
        cases ran
        exact .stack made
      · have forks : Forks t after p q { t.proc q with kstack := none, state := .unused } none := by
          cases ran
          exact ⟨by simp [setProc, different.symm], rfl⟩
        refine sound.forks running (.inr ⟨_, made⟩) forks (.inl rfl) (.inl rfl) rfl (.inl rfl) ?_
        rw [forks.census]
        cases ran
        exact .drop made
    · rename_i q made
      have different := sound.census.making_ne (p := p) made
      have embryo := sound.embryo_state made
      have parentless : (t.proc q).parent = none := (sound.census.making p q .stacked made).2.2
      have context := sound.embryo p q .stacked made (by decide)
      split at ran
      · have forks : Forks t after p q { t.proc q with pgdir := some t.pages, parent := some p }
            (some (q, .copied)) := by
          cases ran
          exact ⟨by simp [setProc, different.symm], rfl⟩
        refine sound.forks running (.inr ⟨_, made⟩) forks (.inr (.inl embryo))
          (.inr ⟨parentless, rfl⟩) rfl (.inr ⟨.copied, rfl, fun _ => context⟩) ?_
        rw [forks.census]
        cases ran
        exact .house made
      · have forks : Forks t after p q
            { t.proc q with pgdir := none, kstack := none, state := .unused } none := by
          cases ran
          exact ⟨by simp [setProc, different.symm], rfl⟩
        refine sound.forks running (.inr ⟨_, made⟩) forks (.inl rfl) (.inl rfl) rfl (.inl rfl) ?_
        rw [forks.census]
        cases ran
        exact .giveUp made
    · rename_i q made
      have different := sound.census.making_ne (p := p) made
      have context := sound.embryo p q .copied made (by decide)
      have forks : Forks t after p q { t.proc q with state := .runnable } none := by
        cases ran
        exact ⟨by simp [setProc, note, different.symm], rfl⟩
      refine sound.forks running (.inr ⟨_, made⟩) forks (.inr (.inr ⟨rfl, context⟩)) (.inl rfl) rfl
        (.inl rfl) ?_
      rw [forks.census]
      cases ran
      exact .publish made

/-! ## `exit` -/

/-- A slot after its parent, if that is the process `p`, was replaced by the first
process, and after it was perhaps woken. -/
structure Passed (t after : Table Cpu) (p r : Nat) : Prop where
  parent : (after.proc r).parent =
    if (t.proc r).parent = some p then some t.initproc else (t.proc r).parent
  state : (after.proc r).state = (t.proc r).state ∨
    ((t.proc r).state = .sleeping ∧ (after.proc r).state = .runnable)
  rest : (after.proc r).pid = (t.proc r).pid ∧ (after.proc r).kstack = (t.proc r).kstack ∧
    (after.proc r).pgdir = (t.proc r).pgdir ∧ (after.proc r).making = (t.proc r).making
  chan : (after.proc r).chan = (t.proc r).chan
  context : (after.proc r).context = (t.proc r).context

theorem wakeup1_proc (t : Table Cpu) (chan : Chan) (r : Nat) :
    (t.wakeup1 chan).proc r = t.proc r ∨ ((t.proc r).state = .sleeping ∧
      (t.wakeup1 chan).proc r = { t.proc r with state := .runnable }) := by
  simp only [wakeup1]
  split
  · rename_i asleep
    exact .inr ⟨asleep.1, rfl⟩
  · exact .inl rfl

/-- Who sleeps on an address does not sleep after a wakeup. -/
theorem wakeup1_asleep {chan : Chan} (asleep : ((t.wakeup1 chan).proc r).state = .sleeping) :
    (t.proc r).state = .sleeping ∧ (t.proc r).chan ≠ some chan := by
  simp only [wakeup1] at asleep
  split at asleep
  · cases asleep
  · rename_i other
    exact ⟨asleep, fun same => other ⟨asleep, same⟩⟩

theorem adopt_passed (t : Table Cpu) (p r : Nat) : Passed t (t.adopt p) p r := by
  constructor <;> simp only [adopt, wakeup1] <;> grind

/-- The first process does not sleep in `wait` when it has inherited a zombie. -/
theorem adopt_inWait {u : Nat} (inside : u < nproc) (orphan : (t.proc u).parent = some p)
    (zombie : (t.proc u).state = .zombie) (asleep : ((t.adopt p).proc r).state = .sleeping) :
    (t.proc r).chan ≠ some (.proc t.initproc) := by
  have any : (List.range nproc).any (fun q => decide ((t.proc q).parent = some p ∧
      (t.proc q).state = .zombie)) = true := by
    rw [List.any_eq_true]
    exact ⟨u, List.mem_range.mpr inside, by simp [orphan, zombie]⟩
  simp only [adopt] at asleep
  rw [if_pos any] at asleep
  have other := (wakeup1_asleep asleep).2
  dsimp only at other
  split at other <;> exact other

/-- The table before the children are passed on. -/
def woken (t : Table Cpu) (p : Nat) : Table Cpu :=
  match (t.proc p).parent with
  | some q => t.wakeup1 (.proc q)
  | none => t

theorem bury_eq (t : Table Cpu) (p : Nat) : t.bury p =
    (((t.woken p).adopt p).note (.exit (t.proc p).pid)).setProc p
      { ((t.woken p).adopt p).proc p with state := .zombie, context := .exit } := rfl

theorem woken_passed (t : Table Cpu) (p r : Nat) :
    (t.woken p).proc r = t.proc r ∨ ((t.proc r).state = .sleeping ∧
      (t.woken p).proc r = { t.proc r with state := .runnable }) := by
  simp only [woken]
  split
  · exact wakeup1_proc t _ r
  · exact .inl rfl

theorem woken_initproc (t : Table Cpu) (p : Nat) : (t.woken p).initproc = t.initproc := by
  simp only [woken]
  split <;> rfl

theorem bury_passed (other : r ≠ p) : Passed t (t.bury p) p r := by
  have adopted := adopt_passed (t.woken p) p r
  have woken := woken_passed t p r
  have init := woken_initproc t p
  obtain ⟨h1, h2, h3, h4, h5⟩ := adopted
  have same : (t.bury p).proc r = ((t.woken p).adopt p).proc r := by
    simp [bury_eq, setProc, note, other]
  constructor <;> rw [same] <;> grind

/-- Who sleeps in `wait` after `exit` slept there before, is not the parent of the process
and has inherited no zombie. -/
theorem bury_inWait (waits : t.Waits) (other : r ≠ p) (inWait : (t.bury p).InWait r) :
    t.InWait r ∧ (t.proc p).parent ≠ some r ∧
      ∀ u < nproc, (t.proc u).parent = some p → (t.proc u).state = .zombie → r ≠ t.initproc := by
  have passed := bury_passed (t := t) other
  have before : t.InWait r := by
    obtain ⟨asleep, context⟩ := inWait
    rw [passed.context] at context
    refine ⟨?_, context⟩
    rcases passed.state with same | ⟨was, _⟩
    · rw [← same]
      exact asleep
    · exact was
  have chan := waits.chan r before
  have same : (t.bury p).proc r = ((t.woken p).adopt p).proc r := by
    simp [bury_eq, setProc, note, other]
  have asleep : (((t.woken p).adopt p).proc r).state = .sleeping := same ▸ inWait.1
  refine ⟨before, ?_, ?_⟩
  · intro parent
    have adopted := adopt_passed (t.woken p) p r
    have still : ((t.woken p).proc r).state = .sleeping := by
      rcases adopted.state with is | ⟨was, _⟩
      · rw [← is]
        exact asleep
      · exact was
    simp only [woken, parent] at still
    exact (wakeup1_asleep still).2 chan
  · intro u inside orphan zombie isInit
    have kept : (t.woken p).proc u = t.proc u := by
      rcases woken_passed t p u with is | ⟨was, _⟩
      · exact is
      · rw [zombie] at was
        cases was
    have notInit := adopt_inWait (t := t.woken p) inside (by rw [kept]; exact orphan)
      (by rw [kept]; exact zombie) asleep
    rw [woken_initproc, ← isInit] at notInit
    rcases woken_passed t p r with is | ⟨_, is⟩
    · rw [is] at notInit
      exact notInit chan
    · rw [is] at notInit
      exact notInit chan

/-- The process that exits. -/
theorem bury_self : ((t.bury p).proc p).state = .zombie ∧ ((t.bury p).proc p).context = .exit ∧
      ((t.bury p).proc p).pid = (t.proc p).pid ∧
      ((t.bury p).proc p).kstack = (t.proc p).kstack ∧
      ((t.bury p).proc p).pgdir = (t.proc p).pgdir ∧
      ((t.bury p).proc p).making = (t.proc p).making ∧
      ((t.bury p).proc p).parent =
        if (t.proc p).parent = some p then some t.initproc else (t.proc p).parent := by
  obtain ⟨h1, h2, h3, h4, h5⟩ := adopt_passed (t.woken p) p p
  have woken := woken_passed t p p
  have init := woken_initproc t p
  have same : (t.bury p).proc p =
      { ((t.woken p).adopt p).proc p with state := .zombie, context := .exit } := by
    simp [bury_eq, setProc, note]
  rw [same]
  refine ⟨rfl, rfl, ?_, ?_, ?_, ?_, ?_⟩ <;> dsimp only <;> grind

/-- What `exit` does to the census. -/
theorem bury_census : (t.bury p).census = t.census.exit p := by
  have counters : (t.bury p).initproc = t.initproc ∧ (t.bury p).nextpid = t.nextpid ∧
      (t.bury p).pages = t.pages ∧ (t.bury p).freed = t.freed ∧
      (t.bury p).events = t.events ++ [.exit (t.proc p).pid] := by
    simp only [bury_eq, setProc, note, adopt, woken, wakeup1]
    split <;> split <;> simp
  simp only [Table.census, Census.exit, counters]
  congr 1
  funext r
  by_cases self : r = p
  · subst self
    obtain ⟨state, _, pid, kstack, pgdir, making, parent⟩ := bury_self (t := t) (p := r)
    simp only [Slot.kin, state, pid, kstack, pgdir, making, parent, State.life, if_true]
    congr
  · obtain ⟨parent, state, ⟨pid, kstack, pgdir, making⟩, _, _⟩ := bury_passed (t := t) self
    have life : ((t.bury p).proc r).state.life = (t.proc r).state.life := by
      rcases state with same | ⟨was, is⟩
      · rw [same]
      · rw [was, is]
        rfl
    simp only [Slot.kin, if_neg self, life, pid, kstack, pgdir, making, parent]
    congr

theorem bury_current : (t.bury p).current = t.current := by
  simp only [bury_eq, setProc, note, adopt, woken, wakeup1]
  split <;> split <;> rfl

variable [DecidableEq Cpu]

theorem Sound.bury (sound : t.Sound) (runs : t.current c = some p) (idle : (t.proc p).making = none)
    (notInit : p ≠ t.initproc) : t.Leads ((t.bury p).setCurrent c none) := by
  have running := sound.current c p runs
  have change : t.census.Change ((t.bury p).setCurrent c none).census := by
    rw [show ((t.bury p).setCurrent c none).census = (t.bury p).census from rfl, bury_census]
    exact .exit (by simp [Table.census, Slot.kin, running, State.life])
      (by simpa [Table.census, Slot.kin] using idle) notInit
  obtain ⟨dead, exited, _, _, _, making, parent⟩ := bury_self (t := t) (p := p)
  have current : ∀ d q, ((t.bury p).setCurrent c none).current d = some q →
      d ≠ c ∧ t.current d = some q := by
    intro d q runsOn
    simp only [setCurrent, bury_current] at runsOn
    grind
  have off : ∀ d, d ≠ c → t.current d ≠ some p := fun d other on =>
    other (sound.unique d c p on runs)
  refine sound.of_change change ⟨?_, ?_, ?_⟩
  · constructor
    case current =>
      intro d q runsOn
      obtain ⟨other, on⟩ := current d q runsOn
      have notSelf : q ≠ p := fun same => off d other (same ▸ on)
      have was := sound.current d q on
      rcases (bury_passed (t := t) notSelf).state with same | ⟨asleep, _⟩
      · exact same.trans was
      · rw [was] at asleep
        cases asleep
    case unique =>
      intro d e q first second
      exact sound.unique d e q (current d q first).2 (current e q second).2
    case running =>
      intro q runsOn
      have runsOn : ((t.bury p).proc q).state = .running := runsOn
      have notSelf : q ≠ p := by
        rintro rfl
        rw [dead] at runsOn
        cases runsOn
      have was : (t.proc q).state = .running := by
        rcases (bury_passed (t := t) notSelf).state with same | ⟨_, woke⟩
        · exact same.symm.trans runsOn
        · rw [woke] at runsOn
          cases runsOn
      obtain ⟨d, on⟩ := sound.running q was
      have other : d ≠ c := by
        rintro rfl
        rw [runs] at on
        cases on
        exact notSelf rfl
      exact ⟨d, by simp [setCurrent, bury_current, other, on]⟩
  · have others : ∀ r, r ≠ p → Passed t (t.bury p) p r := fun r other => bury_passed other
    obtain ⟨h1, h2, h3, h4⟩ := sound.toPlaced
    have notEmbryo : ∀ r stage, (t.proc r).making ≠ some (p, stage) := by
      intro r stage made
      have embryo := sound.embryo_state made
      rw [running] at embryo
      cases embryo
    constructor
    case embryo =>
      intro r u stage made late
      have made : ((t.bury p).proc r).making = some (u, stage) := made
      have was : (t.proc r).making = some (u, stage) := by
        by_cases self : r = p
        · subst self
          rw [← making]
          exact made
        · rw [← (others r self).rest.2.2.2]
          exact made
      have notSelf : u ≠ p := fun same => notEmbryo r stage (same ▸ was)
      exact (others u notSelf).context.trans (h3 r u stage was late)
    all_goals
      intro r
      by_cases self : r = p
      · subst self
        simp [setCurrent, dead]
      · obtain ⟨_, state, rest, _, context⟩ := others r self
        simp only [setCurrent]
        grind
  · have inWait : ∀ r, ((t.bury p).setCurrent c none).InWait r → r ≠ p ∧ (t.bury p).InWait r := by
      intro r asleep
      refine ⟨?_, asleep⟩
      rintro rfl
      have asleep : ((t.bury r).proc r).state = .sleeping := asleep.1
      rw [dead] at asleep
      cases asleep
    constructor
    case chan =>
      intro r asleep
      obtain ⟨other, asleep⟩ := inWait r asleep
      obtain ⟨before, _⟩ := bury_inWait sound.toWaits other asleep
      exact (bury_passed (t := t) other).chan.trans (sound.chan r before)
    case child =>
      intro r asleep
      obtain ⟨other, asleep⟩ := inWait r asleep
      obtain ⟨before, notParent, _⟩ := bury_inWait sound.toWaits other asleep
      obtain ⟨u, child⟩ := sound.child r before
      have notSelf : u ≠ p := fun same => notParent (same ▸ child)
      refine ⟨u, (bury_passed (t := t) notSelf).parent.trans ?_⟩
      rw [child, if_neg]
      simpa using other
    case living =>
      intro r u asleep child zombie
      obtain ⟨other, asleep⟩ := inWait r asleep
      obtain ⟨before, notParent, notHeir⟩ := bury_inWait sound.toWaits other asleep
      have child : ((t.bury p).proc u).parent = some r := child
      have zombie : ((t.bury p).proc u).state = .zombie := zombie
      by_cases self : u = p
      · -- the parent of the process was woken, and it is no child of its own
        subst self
        have own : (t.proc u).parent ≠ some u := sound.census.not_own u
        rw [parent, if_neg own] at child
        exact notParent child
      · obtain ⟨passed, state, _⟩ := bury_passed (t := t) self
        have was : (t.proc u).state = .zombie := by
          rcases state with same | ⟨_, woke⟩
          · exact same.symm.trans zombie
          · rw [woke] at zombie
            cases zombie
        rw [passed] at child
        split at child
        · rename_i orphan
          cases child
          have inside : u < nproc := sound.census.inside u (by
            simp [Table.census, Slot.kin, was, State.life])
          exact notHeir u inside orphan was rfl
        · exact sound.living r u before child was

theorem Keeps.of_sched (sched : ∃ last, after.sched c p = .ok last ∧ t.Leads last) :
    t.Keeps (some <$> after.sched c p) := by
  obtain ⟨last, ran, leads⟩ := sched
  refine ⟨some last, by rw [ran]; rfl, ?_⟩
  rintro last ⟨⟩
  exact leads

theorem Sound.scheduler (sound : t.Sound) (c : Cpu) : t.Keeps (t.scheduler c) := by
  rw [Table.scheduler]
  split
  · exact Keeps.impossible
  · rename_i idle
    obtain ⟨after, ran, leads⟩ := sound.scan (List.range nproc) idle
    refine ⟨some after, by rw [ran]; rfl, ?_⟩
    rintro last ⟨⟩
    exact leads

theorem Sound.yield (sound : t.Sound) (c : Cpu) : t.Keeps (t.yield c) := by
  rw [Table.yield]
  split
  · exact Keeps.impossible
  · rename_i p runs
    have running := sound.current c p runs
    refine Keeps.of_sched ((sound.leave runs ?_ (.inl ⟨rfl, rfl⟩)).sched ?_)
    · simp [Slot.kin, running, State.life]
    · simp [setProc]

theorem Sound.sleep (sound : t.Sound) (c : Cpu) (chan : Chan) : t.Keeps (t.sleep c chan) := by
  rw [Table.sleep]
  split
  · exact Keeps.impossible
  · rename_i p runs
    have running := sound.current c p runs
    refine Keeps.of_sched ((sound.leave runs ?_ (.inr (.inl ⟨rfl, rfl⟩))).sched ?_)
    · simp [Slot.kin, running, State.life]
    · simp [setProc]

theorem Sound.wait (sound : t.Sound) (c : Cpu) : t.Keeps (t.wait c) := by
  rw [Table.wait]
  split
  · exact Keeps.impossible
  · rename_i p runs
    split
    · exact Keeps.impossible
    · rename_i idle
      rcases round : t.waitRound p with ⟨sleeps, after⟩
      obtain ⟨answered, slept⟩ := sound.waitRound runs (by simpa using idle) round
      cases sleeps with
      | false =>
        refine ⟨some after, rfl, ?_⟩
        rintro last ⟨⟩
        exact answered rfl
      | true =>
        obtain ⟨leads, state⟩ := slept rfl
        exact Keeps.of_sched (leads.sched (by rw [state]; decide))

/-- `exit` panics only in the first process. -/
theorem Sound.exit (sound : t.Sound) (c : Cpu) : t.Keeps (t.exit c) ∨
    t.exit c = .error "init exiting" ∧ t.current c = some t.initproc ∧
      (t.proc t.initproc).making = none := by
  rw [Table.exit]
  split
  · exact .inl Keeps.impossible
  · rename_i p runs
    split
    · exact .inl Keeps.impossible
    · rename_i idle
      rw [not_not] at idle
      split
      · rename_i first
        exact .inr ⟨rfl, first ▸ runs, first ▸ idle⟩
      · rename_i notInit
        have buried := sound.bury runs idle notInit
        exact .inl (Keeps.of_sched (buried.sched (by rw [bury_self.1]; decide)))

end Table

variable {Cpu : Type} [DecidableEq Cpu]

open Table

variable {t : Table Cpu}

/-- A step keeps the table in order. It panics only where the first process exits. -/
theorem step_keeps (sound : t.Sound) (action : Action Cpu) : t.Keeps (step t action) ∨
    step t action = .error "init exiting" ∧ ∃ c, action = .exit c ∧
      t.current c = some t.initproc ∧ (t.proc t.initproc).making = none := by
  cases action with
  | scheduler c => exact .inl (sound.scheduler c)
  | yield c => exact .inl (sound.yield c)
  | sleep c chan => exact .inl (sound.sleep c chan)
  | wakeup chan =>
    refine .inl ⟨_, rfl, ?_⟩
    rintro last ⟨⟩
    exact sound.wakeup1 chan
  | kill pid =>
    refine .inl ⟨_, rfl, ?_⟩
    rintro last ⟨⟩
    exact sound.kill pid
  | fork c => exact .inl ⟨_, rfl, fun last forked => sound.fork forked⟩
  | resume c succeeds => exact .inl ⟨_, rfl, fun last resumed => sound.resume resumed⟩
  | exit c => exact (sound.exit c).imp_right fun panics => ⟨panics.1, c, rfl, panics.2⟩
  | wait c => exact .inl (sound.wait c)

theorem step_leads {after : Table Cpu} {action : Action Cpu} (sound : t.Sound)
    (taken : step t action = .ok (some after)) : t.Leads after := by
  rcases step_keeps sound action with ⟨result, ran, kept⟩ | ⟨panics, -⟩
  · rw [ran] at taken
    cases taken
    exact kept after rfl
  · rw [panics] at taken
    cases taken

omit [DecidableEq Cpu] in
theorem userinit_kin (p : Nat) : (userinit : Table Cpu).census.kin p =
    if p = 0 then ⟨.alive, 1, none, some 0, some 1, none⟩
    else ⟨.unused, 0, none, none, none, none⟩ := by
  simp only [Table.census, userinit]
  split <;> rfl

omit [DecidableEq Cpu] in
theorem userinit_census : (userinit : Table Cpu).census.Sound := by
  have kin : ∀ p, (userinit : Table Cpu).census.kin p = _ := userinit_kin
  have counters : (userinit : Table Cpu).census.initproc = 0 ∧
      (userinit : Table Cpu).census.nextpid = 2 ∧ (userinit : Table Cpu).census.pages = 2 ∧
      (userinit : Table Cpu).census.freed = [] ∧ (userinit : Table Cpu).census.events = [] :=
    ⟨rfl, rfl, rfl, rfl, rfl⟩
  obtain ⟨init, nextpid, pages, freed, events⟩ := counters
  refine ⟨?_, ?_, ?_⟩
  · constructor <;> simp only [init, nextpid, kin] <;> grind [Kin.Formed, nproc]
  · constructor
    case history =>
      rw [events]
      exact History.nil _
    all_goals
      simp only [init, nextpid, kin, events, Census.family, family_nil, Exited, Reaped]
      grind
  · refine ⟨⟨?_, ?_, ?_, ?_⟩, ?_, ?_⟩
    · intro i item
      simp only [Census.page, kin, freed, pages]
      obtain ⟨p, kind⟩ := i
      cases kind <;> by_cases here : p = 0 <;> simp [here, Kin.page] <;> omega
    · intro i j item
      simp only [Census.page, kin]
      obtain ⟨p, kind⟩ := i
      obtain ⟨q, other⟩ := j
      cases kind <;> cases other <;> by_cases here : p = 0 <;> by_cases there : q = 0 <;>
        simp [here, there, Kin.page] <;> omega
    · rw [freed]
      simp
    · rw [freed]
      exact List.nodup_nil
    all_goals
      simp only [kin]
      grind

omit [DecidableEq Cpu] in
/-- The table after `userinit` is in order. -/
theorem userinit_sound : (userinit : Table Cpu).Sound := by
  refine ⟨⟨?_, ?_, ?_⟩, userinit_census⟩
  all_goals
    constructor <;> simp only [userinit, InWait] <;> grind

/-- Every table that can be reached is in order. -/
theorem run_sound {steps : List (Action Cpu)} (ran : run userinit steps = some t) : t.Sound :=
  Runs.always Table.Sound (fun sound taken => (step_leads sound taken).sound) userinit_sound ran

end Xv6.Ptable
