import Xv6.Lib.Ledger
import Xv6.Ptable.Family

/-!
# The census of the process table

The part of the table that scheduling leaves alone: whether a slot is unused, being made,
alive or a zombie, its pid, its parent, and the pages it has. Sleeping, waking and running
do not change it; `fork`, `exit` and `wait` do, and for each of their parts there is an
operation here that keeps the census in order.
-/

namespace Xv6.Ptable

open Function

/-- The state of a slot up to scheduling. -/
inductive Life where
  | unused
  | embryo
  | alive
  | zombie
deriving DecidableEq, Repr

/-- Sleeping, runnable and running processes are alive. -/
def State.life : State → Life
  | .unused => .unused
  | .embryo => .embryo
  | .sleeping | .runnable | .running => .alive
  | .zombie => .zombie

@[simp] theorem State.life_unused {s : State} : s.life = .unused ↔ s = .unused := by
  cases s <;> simp [life]

@[simp] theorem State.life_zombie {s : State} : s.life = .zombie ↔ s = .zombie := by
  cases s <;> simp [life]

/-- The part of a slot that scheduling leaves alone. -/
structure Kin where
  life : Life
  pid : Nat
  parent : Option Nat
  kstack : Option Nat
  pgdir : Option Nat
  making : Option (Nat × Stage)

def Slot.kin (s : Slot) : Kin where
  life := s.state.life
  pid := s.pid
  parent := s.parent
  kstack := s.kstack
  pgdir := s.pgdir
  making := s.making

/-- A process that was forked and not waited for. -/
def Kin.Formed (k : Kin) : Prop := k.life = .alive ∨ k.life = .zombie

/-- The stack and the directory of a slot, while they are its own. -/
def Kin.page (k : Kin) : Bool → Option Nat
  | true => if k.life = .unused then none else k.kstack
  | false =>
    if k.life = .alive ∨ k.life = .zombie ∨ (k.life = .embryo ∧ k.parent ≠ none) then k.pgdir
    else none

/-- All slots, with the counters and the recorded events. -/
structure Census (Cpu : Type) where
  kin : Nat → Kin
  initproc : Nat
  nextpid : Nat
  pages : Nat
  freed : List Nat
  events : List (Event Cpu)

/-- The census of a table. -/
def Table.census {Cpu : Type} (t : Table Cpu) : Census Cpu where
  kin := fun p => (t.proc p).kin
  initproc := t.initproc
  nextpid := t.nextpid
  pages := t.pages
  freed := t.freed
  events := t.events

namespace Census

variable {Cpu : Type}

/-- The family that the events recorded so far make. -/
def family (s : Census Cpu) : Nat → Option Nat :=
  Ptable.family (s.kin s.initproc).pid s.events

/-- Slots, parents and pids fit together. -/
structure Kinship (s : Census Cpu) : Prop where
  inside : ∀ p, (s.kin p).life ≠ .unused → p < nproc
  init_alive : (s.kin s.initproc).life = .alive
  init_parent : (s.kin s.initproc).parent = none
  parent_alive : ∀ p q, (s.kin p).parent = some q → (s.kin q).life = .alive
  unused_parent : ∀ p, (s.kin p).life = .unused → (s.kin p).parent = none
  has_parent : ∀ p, (s.kin p).Formed → p ≠ s.initproc → ∃ q, (s.kin p).parent = some q
  making : ∀ p q stage, (s.kin p).making = some (q, stage) → (s.kin p).life = .alive ∧
    (s.kin q).life = .embryo ∧
    (s.kin q).parent = if stage = .copied then some p else none
  making_unique : ∀ p q r stage other, (s.kin p).making = some (r, stage) →
    (s.kin q).making = some (r, other) → p = q
  pid_lt : ∀ p, (s.kin p).life ≠ .unused → (s.kin p).pid < s.nextpid
  pid_inj : ∀ p q, (s.kin p).life ≠ .unused → (s.kin q).life ≠ .unused →
    (s.kin p).pid = (s.kin q).pid → p = q
  not_own : ∀ p, (s.kin p).parent ≠ some p

/-- The slots agree with the recorded events. -/
structure Recorded (s : Census Cpu) : Prop where
  exited : ∀ p, (s.kin p).life = .zombie → Exited s.events (s.kin p).pid
  unreaped : ∀ p, (s.kin p).life ≠ .unused → ¬ Reaped s.events (s.kin p).pid
  reaped_lt : ∀ pid, Reaped s.events pid → pid < s.nextpid
  guardian : ∀ p q, (s.kin p).Formed → (s.kin p).parent = some q →
    s.family (s.kin p).pid = some (s.kin q).pid
  member : ∀ child pid, s.family child = some pid → ∃ p q, (s.kin p).Formed ∧
    (s.kin p).pid = child ∧ (s.kin p).parent = some q ∧ (s.kin q).pid = pid
  history : History (s.kin s.initproc).pid s.events

/-- The page of a slot: the stack, or the directory. -/
def page (s : Census Cpu) (i : Nat × Bool) : Option Nat := (s.kin i.1).page i.2

/-- No page is held twice, and none is held that was freed. -/
structure Housed (s : Census Cpu) : Prop where
  ledger : Ledger s.page s.pages s.freed
  unused_stack : ∀ p, (s.kin p).life = .unused → (s.kin p).kstack = none
  found_stack : ∀ p q, (s.kin p).making = some (q, .found) → (s.kin q).kstack = none

/-- The census is in order. -/
structure Sound (s : Census Cpu) : Prop extends Kinship s, Recorded s, Housed s

/-- Replace the slot of a process and another one. -/
def change (s : Census Cpu) (p q : Nat) (mine other : Kin) : Census Cpu :=
  { s with kin := fun r => if r = p then mine else if r = q then other else s.kin r }

/-! ## `fork` -/

/-- `allocproc` takes an unused slot. -/
def take (s : Census Cpu) (p q : Nat) : Census Cpu :=
  { s.change p q { s.kin p with making := some (q, .found) }
      { s.kin q with life := .embryo, pid := s.nextpid } with
    nextpid := s.nextpid + 1 }

/-- The new slot gets a stack. -/
def stack (s : Census Cpu) (p q : Nat) : Census Cpu :=
  { s.change p q { s.kin p with making := some (q, .stacked) }
      { s.kin q with kstack := some s.pages } with
    pages := s.pages + 1 }

/-- The new slot gets a page directory and a parent. -/
def house (s : Census Cpu) (p q : Nat) : Census Cpu :=
  { s.change p q { s.kin p with making := some (q, .copied) }
      { s.kin q with pgdir := some s.pages, parent := some p } with
    pages := s.pages + 1 }

/-- The new slot is given up without a stack. -/
def drop (s : Census Cpu) (p q : Nat) : Census Cpu :=
  s.change p q { s.kin p with making := none } { s.kin q with kstack := none, life := .unused }

/-- The new slot and its stack are given up. -/
def giveUp (s : Census Cpu) (p q : Nat) : Census Cpu :=
  { s.change p q { s.kin p with making := none }
      { s.kin q with pgdir := none, kstack := none, life := .unused } with
    freed := s.freed ++ (s.kin q).kstack.toList }

/-- The child becomes a process. -/
def publish (s : Census Cpu) (p q : Nat) : Census Cpu :=
  { s.change p q { s.kin p with making := none } { s.kin q with life := .alive } with
    events := s.events ++ [Event.fork (s.kin p).pid (s.kin q).pid] }

section Fork

variable {s : Census Cpu} {p q : Nat}

/-- Where no process begins or ends and no event comes, the record stays. -/
theorem Recorded.steady {after : Census Cpu} (recorded : s.Recorded) (kinship : s.Kinship)
    (events : after.events = s.events) (initproc : after.initproc = s.initproc)
    (nextpid : s.nextpid ≤ after.nextpid)
    (formed : ∀ r, (after.kin r).Formed → (s.kin r).Formed)
    (same : ∀ r, (s.kin r).Formed → (after.kin r).life = (s.kin r).life ∧
      (after.kin r).pid = (s.kin r).pid ∧ (after.kin r).parent = (s.kin r).parent)
    (unreaped : ∀ r, (after.kin r).life ≠ .unused → ¬ Reaped s.events (after.kin r).pid) :
    after.Recorded := by
  have init : (after.kin after.initproc).pid = (s.kin s.initproc).pid := by
    rw [initproc]
    exact (same _ (.inl kinship.init_alive)).2.1
  have family : after.family = s.family := by
    rw [Census.family, Census.family, init, events]
  have parentPid : ∀ p q, (s.kin p).parent = some q → (after.kin q).pid = (s.kin q).pid :=
    fun p q parent => (same q (.inl (kinship.parent_alive p q parent))).2.1
  constructor
  case exited =>
    intro r zombie
    have before := same r (formed r (.inr zombie))
    rw [events, before.2.1]
    exact recorded.exited r (before.1.symm.trans zombie)
  case unreaped =>
    intro r used
    rw [events]
    exact unreaped r used
  case reaped_lt =>
    intro pid reaped
    rw [events] at reaped
    exact lt_of_lt_of_le (recorded.reaped_lt pid reaped) nextpid
  case guardian =>
    intro r g is parent
    have before := same r (formed r is)
    rw [before.2.2] at parent
    rw [family, before.2.1, parentPid r g parent]
    exact recorded.guardian r g (formed r is) parent
  case member =>
    intro child pid belongs
    rw [family] at belongs
    obtain ⟨r, g, is, pidChild, parent, pidParent⟩ := recorded.member child pid belongs
    have before := same r is
    refine ⟨r, g, ?_, before.2.1.trans pidChild, before.2.2.trans parent,
      (parentPid r g parent).trans pidParent⟩
    rwa [Kin.Formed, before.1]
  case history =>
    rw [init, events]
    exact recorded.history

/-- A change in what a process is making leaves its pages; the other slot has its new ones. -/
theorem page_change {making : Option (Nat × Stage)} {other : Kin} {pages : Nat × Bool → Option Nat}
    (different : q ≠ p) (new : ∀ kind, other.page kind = pages (q, kind))
    (kept : ∀ i, i.1 ≠ q → pages i = s.page i) :
    (s.change p q { s.kin p with making } other).page = pages := by
  funext i
  obtain ⟨r, kind⟩ := i
  by_cases theirs : r = q
  · subst theirs
    simp [page, change, different, new]
  · rw [kept (r, kind) theirs]
    by_cases self : r = p
    · subst self
      cases kind <;> simp [page, change, Kin.page]
    · simp [page, change, self, theirs]

/-- One page of a slot is set. -/
theorem page_update {kind : Bool} {value : Option Nat} (i : Nat × Bool) (away : i.1 ≠ q) :
    update s.page (q, kind) value i = s.page i :=
  update_of_ne (fun here => away (congrArg Prod.fst here)) _ _

variable (sound : s.Sound)

include sound

theorem Sound.making_ne {stage : Stage} (made : (s.kin p).making = some (q, stage)) : q ≠ p := by
  obtain ⟨alive, embryo, _⟩ := sound.making p q stage made
  rintro rfl
  rw [alive] at embryo
  cases embryo

/-- A part of `fork` before the child is a process: the slot is or becomes unused or an
embryo, and the process that makes it remembers how far it is. -/
theorem Sound.fill {making : Option (Nat × Stage)} {other : Kin} {nextpid pages : Nat}
    {freed : List Nat} (alive : (s.kin p).life = .alive)
    (slot : (s.kin q).life = .unused ∧ (s.kin p).making = none ∧ q < nproc ∨
      ∃ stage, (s.kin p).making = some (q, stage))
    (makes : ∀ r stage, making = some (r, stage) → r = q)
    (life : other.life = if making = none then .unused else .embryo)
    (parent : other.parent = if making = some (q, .copied) then some p else none)
    (pid : other.pid = (s.kin q).pid ∧ nextpid = s.nextpid ∧ (s.kin q).life = .embryo ∨
      other.pid = s.nextpid ∧ nextpid = s.nextpid + 1)
    (childless : other.making = (s.kin q).making)
    (stackless : making = none ∨ making = some (q, .found) → other.kstack = none)
    (ledger : Ledger (s.change p q { s.kin p with making } other).page
      pages freed) :
    Sound { s.change p q { s.kin p with making } other with
      nextpid, pages, freed } := by
  have fresh : ¬ Reaped s.events s.nextpid := fun reaped =>
    absurd (sound.reaped_lt _ reaped) (lt_irrefl _)
  have before : (s.kin q).life = .unused ∨ (s.kin q).life = .embryo := by
    rcases slot with ⟨unused, -⟩ | ⟨stage, made⟩
    · exact .inl unused
    · exact .inr (sound.making p q stage made).2.1
  have different : q ≠ p := by
    rintro rfl
    simp [alive] at before
  have notInit : q ≠ s.initproc := by
    rintro rfl
    simp [sound.init_alive] at before
  have idle : other.making = none := by
    rw [childless, Option.eq_none_iff_forall_ne_some]
    rintro ⟨r, stage⟩ made
    simp [(sound.making q r stage made).1] at before
  have unmade : ∀ r stage, r ≠ p → (s.kin r).making ≠ some (q, stage) := by
    intro r stage other made
    rcases slot with ⟨unused, -⟩ | ⟨_, mine⟩
    · simp [(sound.making r q stage made).2.1] at unused
    · exact other (sound.making_unique r p q stage _ made mine)
  obtain ⟨kinship, recorded, housed⟩ := sound
  refine ⟨?_, ?_, ⟨ledger, ?_, ?_⟩⟩
  · obtain ⟨h1, h2, h3, h4, h5, h6, h7, h8, h9, h10, h11⟩ := kinship
    constructor <;> simp only [change] <;> grind [Kin.Formed]
  · refine recorded.steady kinship rfl rfl (by dsimp only; omega) ?_ ?_ ?_
    all_goals
      intro r
      have unreaped := recorded.unreaped r
      simp only [change]
      grind [Kin.Formed]
  · intro r
    have before := housed.unused_stack r
    simp only [change]
    grind
  · intro r t
    have before := housed.found_stack r t
    simp only [change]
    grind

theorem Sound.take (alive : (s.kin p).life = .alive) (idle : (s.kin p).making = none)
    (unused : (s.kin q).life = .unused) (inside : q < nproc) : (s.take p q).Sound := by
  have different : q ≠ p := by
    rintro rfl
    simp [alive] at unused
  have stackless := sound.unused_stack q unused
  have parentless := sound.unused_parent q unused
  refine sound.fill alive (.inl ⟨unused, idle, inside⟩) (by simp) (by simp) (by simpa)
    (.inr ⟨rfl, rfl⟩) rfl (fun _ => stackless) ?_
  rw [page_change different (fun kind => ?_) fun _ _ => rfl]
  · exact sound.ledger
  · cases kind <;> simp [page, Kin.page, unused, stackless, parentless]

/-- A slot that is being made has no page but its stack, until it has a parent. -/
theorem Sound.page_embryo {stage : Stage} (made : (s.kin p).making = some (q, stage))
    (early : stage ≠ .copied) (kind : Bool) :
    s.page (q, kind) = if kind then (s.kin q).kstack else none := by
  obtain ⟨_, embryo, parent⟩ := sound.making p q stage made
  rw [if_neg early] at parent
  cases kind <;> simp [page, Kin.page, embryo, parent]

theorem Sound.stack (made : (s.kin p).making = some (q, .found)) : (s.stack p q).Sound := by
  obtain ⟨alive, embryo, parent⟩ := sound.making p q .found made
  have pages := sound.page_embryo made (by decide)
  refine sound.fill alive (.inr ⟨_, made⟩) (by simp) (by simpa) (by simpa using parent)
    (.inl ⟨rfl, rfl, embryo⟩) rfl (by simp) ?_
  rw [page_change (sound.making_ne made) (fun kind => ?_) page_update]
  · exact sound.ledger.grant (q, true)
  · cases kind with
    | true => simp [Kin.page, embryo]
    | false => simp [pages, Kin.page, embryo, parent]

theorem Sound.house (made : (s.kin p).making = some (q, .stacked)) : (s.house p q).Sound := by
  obtain ⟨alive, embryo, parent⟩ := sound.making p q .stacked made
  have pages := sound.page_embryo made (by decide)
  refine sound.fill alive (.inr ⟨_, made⟩) (by simp) (by simpa) (by simp)
    (.inl ⟨rfl, rfl, embryo⟩) rfl (by simp) ?_
  rw [page_change (sound.making_ne made) (fun kind => ?_) page_update]
  · exact sound.ledger.grant (q, false)
  · cases kind with
    | true => simp [pages, Kin.page, embryo]
    | false => simp [Kin.page, embryo]

theorem Sound.drop (made : (s.kin p).making = some (q, .found)) : (s.drop p q).Sound := by
  obtain ⟨alive, embryo, parent⟩ := sound.making p q .found made
  have pages := sound.page_embryo made (by decide)
  have stackless := sound.found_stack p q made
  refine sound.fill alive (.inr ⟨_, made⟩) (by simp) (by simp) (by simpa using parent)
    (.inl ⟨rfl, rfl, embryo⟩) rfl (fun _ => rfl) ?_
  rw [page_change (sound.making_ne made) (fun kind => ?_) fun _ _ => rfl]
  · exact sound.ledger
  · cases kind <;> simp [pages, Kin.page, stackless]

theorem Sound.giveUp (made : (s.kin p).making = some (q, .stacked)) : (s.giveUp p q).Sound := by
  obtain ⟨alive, embryo, parent⟩ := sound.making p q .stacked made
  have pages := sound.page_embryo made (by decide)
  have stack : (s.kin q).kstack = s.page (q, true) := by simp [pages]
  refine sound.fill alive (.inr ⟨_, made⟩) (by simp) (by simp) (by simpa using parent)
    (.inl ⟨rfl, rfl, embryo⟩) rfl (fun _ => rfl) ?_
  rw [page_change (sound.making_ne made) (fun kind => ?_) page_update, stack]
  · exact sound.ledger.release (q, true)
  · cases kind <;> simp [pages, Kin.page]

theorem Sound.publish (made : (s.kin p).making = some (q, .copied)) : (s.publish p q).Sound := by
  have different := sound.making_ne made
  obtain ⟨alive, embryo, parent⟩ := sound.making p q .copied made
  rw [if_pos rfl] at parent
  have notInit : q ≠ s.initproc := by
    rintro rfl
    rw [sound.init_alive] at embryo
    cases embryo
  have apart : ∀ r, (s.kin r).Formed → (s.kin r).pid ≠ (s.kin q).pid := by
    intro r formed same
    have used : (s.kin r).life ≠ .unused := by
      rcases formed with is | is <;> rw [is] <;> decide
    have here := sound.pid_inj r q used (by rw [embryo]; decide) same
    subst here
    rcases formed with is | is <;> rw [embryo] at is <;> cases is
  have init : ((s.publish p q).kin (s.publish p q).initproc).pid = (s.kin s.initproc).pid := by
    simp only [Census.publish, change]
    grind
  have family : (s.publish p q).family =
      update s.family (s.kin q).pid (some (s.kin p).pid) := by
    rw [Census.family, init]
    exact family_snoc _ _ _
  obtain ⟨kinship, recorded, housed⟩ := sound
  refine ⟨?_, ?_, ?_⟩
  · obtain ⟨h1, h2, h3, h4, h5, h6, h7, h8, h9, h10, h11⟩ := kinship
    constructor <;> simp only [Census.publish, change] <;> grind [Kin.Formed]
  · constructor
    case exited =>
      intro r
      have before := recorded.exited r
      simp only [Census.publish, change, exited_snoc]
      grind
    case unreaped =>
      intro r
      have before := recorded.unreaped r
      simp only [Census.publish, change, reaped_snoc]
      grind
    case reaped_lt =>
      intro pid
      have before := recorded.reaped_lt pid
      simp only [Census.publish, change, reaped_snoc]
      grind
    case guardian =>
      intro r g
      rw [family]
      have before := recorded.guardian r g
      have apart := apart r
      have living := kinship.parent_alive r g
      simp only [Census.publish, change]
      grind [Kin.Formed]
    case member =>
      intro child pid belongs
      rw [family] at belongs
      by_cases new : child = (s.kin q).pid
      · subst new
        rw [update_self, Option.some.injEq] at belongs
        refine ⟨q, p, ?_⟩
        simp only [Census.publish, change]
        grind [Kin.Formed]
      · rw [update_of_ne new] at belongs
        obtain ⟨r, g, formed, pidChild, parent, pidParent⟩ := recorded.member child pid belongs
        refine ⟨r, g, ?_⟩
        have living := kinship.parent_alive r g parent
        simp only [Census.publish, change]
        grind [Kin.Formed]
    case history =>
      rw [init]
      exact recorded.history.snoc trivial
  · refine ⟨?_, ?_, ?_⟩
    · have same : (s.publish p q).page = s.page := by
        refine page_change different (fun kind => ?_) fun _ _ => rfl
        cases kind <;> simp [page, Kin.page, embryo, parent]
      rw [same]
      exact housed.ledger
    · intro r
      have before := housed.unused_stack r
      simp only [Census.publish, change]
      grind
    · intro r t
      have before := housed.found_stack r t
      simp only [Census.publish, change]
      grind

end Fork

/-! ## `exit` and `wait` -/

/-- The children of a process go to the first process, and it becomes a zombie. -/
def exit (s : Census Cpu) (p : Nat) : Census Cpu :=
  { s with
    kin := fun r =>
      let kin := s.kin r
      let parent := if kin.parent = some p then some s.initproc else kin.parent
      if r = p then { kin with parent, life := .zombie } else { kin with parent }
    events := s.events ++ [.exit (s.kin p).pid] }

/-- A zombie is freed. -/
def reap (s : Census Cpu) (p q : Nat) (current : Cpu → Option Nat) : Census Cpu :=
  { s with
    kin := Function.update s.kin q { s.kin q with
      kstack := none, life := .unused, pid := 0, parent := none }
    freed := s.freed ++ (s.kin q).kstack.toList ++ (s.kin q).pgdir.toList
    events := s.events ++ [.wait (s.kin p).pid (s.kin q).pid q current] }

/-- A `wait` fails. -/
def childless (s : Census Cpu) (p : Nat) (killed : Bool) : Census Cpu :=
  { s with events := s.events ++ [.childless (s.kin p).pid killed] }

section Exit

variable {s : Census Cpu} {p q : Nat} (sound : s.Sound)

include sound

/-- Living processes are told apart by their pids. -/
theorem Sound.alive_inj {r t : Nat} (first : (s.kin r).life = .alive)
    (second : (s.kin t).life = .alive) (same : (s.kin r).pid = (s.kin t).pid) : r = t :=
  sound.pid_inj r t (by rw [first]; decide) (by rw [second]; decide) same

theorem Sound.exit (alive : (s.kin p).life = .alive) (idle : (s.kin p).making = none)
    (notInit : p ≠ s.initproc) : (s.exit p).Sound := by
  have init : ((s.exit p).kin (s.exit p).initproc).pid = (s.kin s.initproc).pid := by
    simp only [Census.exit]
    grind
  have family : (s.exit p).family = fun child =>
      if s.family child = some (s.kin p).pid then some (s.kin s.initproc).pid
      else s.family child := by
    rw [Census.family, init]
    exact family_snoc _ _ _
  have inj : ∀ r, (s.kin r).life = .alive → (s.kin r).pid = (s.kin p).pid → r = p :=
    fun r living same => sound.alive_inj living alive same
  obtain ⟨kinship, recorded, housed⟩ := sound
  refine ⟨?_, ?_, ?_⟩
  · obtain ⟨h1, h2, h3, h4, h5, h6, h7, h8, h9, h10, h11⟩ := kinship
    constructor <;> simp only [Census.exit] <;> grind [Kin.Formed]
  · constructor
    case exited =>
      intro r
      have before := recorded.exited r
      simp only [Census.exit, exited_snoc]
      grind
    case unreaped =>
      intro r
      have before := recorded.unreaped r
      simp only [Census.exit, reaped_snoc]
      grind
    case reaped_lt =>
      intro pid
      have before := recorded.reaped_lt pid
      simp only [Census.exit, reaped_snoc]
      grind
    case guardian =>
      intro r g
      rw [family]
      have living := kinship.parent_alive r
      have before := recorded.guardian r
      simp only [Census.exit]
      grind [Kin.Formed]
    case member =>
      intro child pid belongs
      rw [family] at belongs
      dsimp only at belongs
      split at belongs
      · rename_i orphan
        obtain ⟨r, g, formed, pidChild, parent, pidParent⟩ := recorded.member child _ orphan
        have same := inj g (kinship.parent_alive r g parent) pidParent
        refine ⟨r, s.initproc, ?_⟩
        simp only [Census.exit]
        grind [Kin.Formed]
      · rename_i other
        obtain ⟨r, g, formed, pidChild, parent, pidParent⟩ := recorded.member child pid belongs
        have apart : g ≠ p := by
          rintro rfl
          rw [← pidParent] at belongs
          exact other belongs
        refine ⟨r, g, ?_⟩
        simp only [Census.exit]
        grind [Kin.Formed]
    case history =>
      rw [init]
      exact recorded.history.snoc trivial
  · refine ⟨?_, ?_, ?_⟩
    · have same : (s.exit p).page = s.page := by
        funext i
        obtain ⟨r, kind⟩ := i
        have some : (if (s.kin r).parent = some p then some s.initproc else (s.kin r).parent) ≠
            none ↔ (s.kin r).parent ≠ none := by
          split <;> simp [*]
        by_cases here : r = p
        · subst here
          cases kind <;> simp [page, Census.exit, Kin.page, alive]
        · cases kind <;> simp only [page, Census.exit, Kin.page, if_neg here, some]
      rw [same]
      exact housed.ledger
    · intro r
      have before := housed.unused_stack r
      simp only [Census.exit]
      grind
    · intro r t
      have before := housed.found_stack r t
      simp only [Census.exit]
      grind

theorem Sound.reap (zombie : (s.kin q).life = .zombie) (child : (s.kin q).parent = some p)
    {current : Cpu → Option Nat} (off : ∀ c, current c ≠ some q) : (s.reap p q current).Sound := by
  have notInit : q ≠ s.initproc := by
    rintro rfl
    rw [sound.init_alive] at zombie
    cases zombie
  have idle : ∀ stage r, (s.kin q).making ≠ some (r, stage) := by
    intro stage r made
    have living := (sound.making q r stage made).1
    rw [zombie] at living
    cases living
  have lawful : Lawful (s.kin s.initproc).pid s.events
      (.wait (s.kin p).pid (s.kin q).pid q current) :=
    ⟨sound.guardian q p (.inr zombie) child, sound.exited q zombie,
      sound.unreaped q (by rw [zombie]; decide), off⟩
  have apart : ∀ r, (s.kin r).life ≠ .unused → (s.kin r).pid = (s.kin q).pid → r = q :=
    fun r used same => sound.pid_inj r q used (by rw [zombie]; decide) same
  have init : ((s.reap p q current).kin (s.reap p q current).initproc).pid =
      (s.kin s.initproc).pid := by
    simp only [Census.reap]
    grind
  have family : (s.reap p q current).family = update s.family (s.kin q).pid none := by
    rw [Census.family, init]
    exact family_snoc _ _ _
  have stack : (s.kin q).kstack = s.page (q, true) := by simp [page, Kin.page, zombie]
  have directory : (s.kin q).pgdir = update s.page (q, true) none (q, false) := by
    rw [update_of_ne (by simp)]
    simp [page, Kin.page, zombie]
  obtain ⟨kinship, recorded, housed⟩ := sound
  refine ⟨?_, ?_, ?_⟩
  · obtain ⟨h1, h2, h3, h4, h5, h6, h7, h8, h9, h10, h11⟩ := kinship
    constructor <;> simp only [Census.reap] <;> grind [Kin.Formed]
  · constructor
    case exited =>
      intro r
      have before := recorded.exited r
      simp only [Census.reap, exited_snoc]
      grind
    case unreaped =>
      intro r
      have before := recorded.unreaped r
      simp only [Census.reap, reaped_snoc]
      grind
    case reaped_lt =>
      intro pid
      have before := recorded.reaped_lt pid
      have below := kinship.pid_lt q
      simp only [Census.reap, reaped_snoc]
      grind
    case guardian =>
      intro r g
      rw [family]
      have living := kinship.parent_alive r g
      have before := recorded.guardian r g
      simp only [Census.reap]
      grind [Kin.Formed]
    case member =>
      intro child pid belongs
      rw [family] at belongs
      by_cases gone : child = (s.kin q).pid
      · rw [gone, update_self] at belongs
        cases belongs
      · rw [update_of_ne gone] at belongs
        obtain ⟨r, g, formed, pidChild, parent, pidParent⟩ := recorded.member child pid belongs
        have living := kinship.parent_alive r g parent
        refine ⟨r, g, ?_⟩
        simp only [Census.reap]
        grind [Kin.Formed]
    case history =>
      rw [init]
      exact recorded.history.snoc lawful
  · refine ⟨?_, ?_, ?_⟩
    · have released : (s.reap p q current).page =
          update (update s.page (q, true) none) (q, false) none := by
        funext i
        obtain ⟨r, kind⟩ := i
        by_cases here : r = q
        · subst here
          cases kind <;> simp [page, Census.reap, Kin.page]
        · rw [update_of_ne (by simp [here]), update_of_ne (by simp [here])]
          simp [page, Census.reap, here]
      rw [released]
      have ledger := (housed.ledger.release (q, true)).release (q, false)
      rwa [← stack, ← directory] at ledger
    · intro r
      have before := housed.unused_stack r
      simp only [Census.reap]
      grind
    · intro r t
      have before := housed.found_stack r t
      simp only [Census.reap]
      grind

/-- A process without children has none in the family either. -/
theorem Sound.childless (alive : (s.kin p).life = .alive) {killed : Bool}
    (alone : killed = true ∨ ∀ r < nproc, (s.kin r).parent ≠ some p) :
    (s.childless p killed).Sound := by
  have lawful : Lawful (s.kin s.initproc).pid s.events (.childless (s.kin p).pid killed) := by
    rcases alone with dead | alone
    · exact .inl dead
    · refine .inr fun child belongs => ?_
      obtain ⟨r, g, formed, _, parent, pidParent⟩ := sound.member child _ belongs
      have same := sound.alive_inj (sound.parent_alive r g parent) alive pidParent
      subst same
      have inside : r < nproc := sound.inside r (by
        rcases formed with is | is <;> rw [is] <;> decide)
      exact alone r inside parent
  have family : (s.childless p killed).family = s.family := by
    rw [Census.family]
    exact family_snoc _ _ _
  obtain ⟨kinship, recorded, housed⟩ := sound
  refine ⟨⟨kinship.1, kinship.2, kinship.3, kinship.4, kinship.5, kinship.6, kinship.7, kinship.8,
    kinship.9, kinship.10, kinship.11⟩, ?_, ⟨housed.1, housed.2, housed.3⟩⟩
  constructor
  case exited =>
    intro r zombie
    exact exited_snoc.mpr (.inl (recorded.exited r zombie))
  case unreaped =>
    intro r used reaped
    rcases reaped_snoc.mp reaped with before | ⟨_, _, _, wrong⟩
    · exact recorded.unreaped r used before
    · cases wrong
  case reaped_lt =>
    intro pid reaped
    rcases reaped_snoc.mp reaped with before | ⟨_, _, _, wrong⟩
    · exact recorded.reaped_lt pid before
    · cases wrong
  case guardian =>
    rw [family]
    exact recorded.guardian
  case member =>
    rw [family]
    exact recorded.member
  case history => exact recorded.history.snoc lawful

end Exit

/-- What happens to a census, part by part. -/
inductive Change (s : Census Cpu) : Census Cpu → Prop
  | take {p q : Nat} (alive : (s.kin p).life = .alive) (idle : (s.kin p).making = none)
    (found : (List.range nproc).find? (fun r => (s.kin r).life = .unused) = some q) :
    Change s (s.take p q)
  | stack {p q : Nat} (made : (s.kin p).making = some (q, .found)) : Change s (s.stack p q)
  | house {p q : Nat} (made : (s.kin p).making = some (q, .stacked)) : Change s (s.house p q)
  | drop {p q : Nat} (made : (s.kin p).making = some (q, .found)) : Change s (s.drop p q)
  | giveUp {p q : Nat} (made : (s.kin p).making = some (q, .stacked)) : Change s (s.giveUp p q)
  | publish {p q : Nat} (made : (s.kin p).making = some (q, .copied)) : Change s (s.publish p q)
  | exit {p : Nat} (alive : (s.kin p).life = .alive) (idle : (s.kin p).making = none)
    (notInit : p ≠ s.initproc) : Change s (s.exit p)
  | reap {p q : Nat} {current : Cpu → Option Nat} (alive : (s.kin p).life = .alive)
    (idle : (s.kin p).making = none) (found : (List.range nproc).find? (fun r =>
      (s.kin r).parent = some p ∧ (s.kin r).life = .zombie) = some q)
    (off : ∀ c, current c ≠ some q) : Change s (s.reap p q current)
  | childless {p : Nat} {killed : Bool} (alive : (s.kin p).life = .alive)
    (alone : killed = true ∨ ∀ r < nproc, (s.kin r).parent ≠ some p) :
    Change s (s.childless p killed)

theorem Change.sound {s after : Census Cpu} (change : s.Change after) (sound : s.Sound) :
    after.Sound := by
  cases change with
  | take alive idle found =>
    exact sound.take alive idle (by simpa using List.find?_some found)
      (List.mem_range.mp (List.mem_of_find?_eq_some found))
  | stack made => exact sound.stack made
  | house made => exact sound.house made
  | drop made => exact sound.drop made
  | giveUp made => exact sound.giveUp made
  | publish made => exact sound.publish made
  | exit alive idle notInit => exact sound.exit alive idle notInit
  | reap alive idle found off =>
    have hit := List.find?_some found
    simp only [decide_eq_true_eq] at hit
    exact sound.reap hit.2 hit.1 off
  | childless alive alone => exact sound.childless alive alone

end Census

end Xv6.Ptable
