import Xv6.Proc.Exec

/-!
# The pages of the whole kernel

`Sane` is the invariant of a run: one map of owners for the directories of all
processes, all kernel stacks and the open pipes. A file structure with a
reference to a pipe is one of its two ends, and the words `readopen` and
`writeopen` in the pipe's page say which ends there are; this is what makes the
second close free the page, and no earlier one.
-/

namespace Xv6

open Vm

variable {page : Nat}

/-- Who holds a page outside the page tables. A pipe is named by its page. -/
inductive Holder where
  | kstack (p : Nat)
  | cpu (i : Nat)
  | pipe (page : Nat)

section Holders

variable {β : Type} {layout : Layout} {m : Vm} {live : Nat → Prop}
  {held later : β → Option Nat} {own : Places β} {holder : β}

/-- A page in hand is given to a holder that had none. -/
theorem Owned.hold (owned : Owned layout m live held own) (hand : own page = none)
    (managed : layout.Managed page) (fresh : held holder = none) (given : later holder = some page)
    (others : ∀ other, other ≠ holder → later other = held other) :
    Owned layout m live later (Function.update own page (some (.other holder))) := by
  constructor
  · exact owned.managed_update fun _ => managed
  · obtain ⟨pages, chain, nodup, free⟩ := owned.chain
    exact ⟨pages, chain, nodup, fun other => iff_update (free other) (by simp [hand]) (by simp)⟩
  · exact fun pgdir => iff_update (owned.dir pgdir) (by simp [hand]) (by simp)
  · exact fun pgtab pgdir index =>
      iff_update (owned.table pgtab pgdir index) (by simp [hand]) (by simp)
  · exact fun other pgdir vpn =>
      iff_update (owned.user other pgdir vpn) (by simp [hand]) (by simp)
  · exact owned.kernel
  · intro other someone
    by_cases same : someone = holder
    · subst same
      rw [update_eq_some, owned.other, fresh, given]
      simp [eq_comm]
    · rw [others someone same]
      exact iff_update (owned.other other someone) (by simp [hand]) (by simpa using Ne.symm same)

/-- A holder gives its page up; it is in hand. -/
theorem Owned.release (owned : Owned layout m live held own) (was : held holder = some page)
    (gone : later holder = none) (others : ∀ other, other ≠ holder → later other = held other) :
    Owned layout m live later (Function.update own page none) := by
  have mine : own page = some (.other holder) := (owned.other page holder).mpr was
  constructor
  · exact owned.managed_update fun some => absurd rfl some
  · obtain ⟨pages, chain, nodup, free⟩ := owned.chain
    exact ⟨pages, chain, nodup, fun other => iff_update (free other) (by simp [mine]) (by simp)⟩
  · exact fun pgdir => iff_update (owned.dir pgdir) (by simp [mine]) (by simp)
  · exact fun pgtab pgdir index =>
      iff_update (owned.table pgtab pgdir index) (by simp [mine]) (by simp)
  · exact fun other pgdir vpn =>
      iff_update (owned.user other pgdir vpn) (by simp [mine]) (by simp)
  · exact owned.kernel
  · intro other someone
    by_cases same : someone = holder
    · subst same
      rw [update_eq_some, owned.other, was, gone]
      simp [eq_comm]
    · rw [others someone same]
      exact iff_update (owned.other other someone) (by simpa [mine] using Ne.symm same) (by simp)

/-- The page of a holder carries no structure. -/
theorem Owned.not_structural_of_held (owned : Owned layout m live held own)
    (was : held holder = some page) : ¬ Structural own page := by
  have mine := (owned.other page holder).mpr was
  rintro (free | dir | ⟨pgdir, index, table⟩) <;> simp_all

end Holders

namespace Kernel

variable {middle : Kernel} {p : Nat}

/-- A slot of the process table that is in use. -/
def Used (k : Kernel) (p : Nat) : Prop := p < nproc ∧ (k.proc p).state ≠ .unused

/-- What `main` allocates for the kernel itself. -/
def fixed (k : Kernel) : Nat × List Nat := (k.kpgdir, k.cpuStacks)

/-- The directories in use. -/
def Live (k : Kernel) (pgdir : Nat) : Prop :=
  pgdir = k.kpgdir ∨ ∃ p, k.Used p ∧ (k.proc p).pgdir = pgdir

/-- A file structure that is one end of the pipe in a page. -/
def PipeEnd (k : Kernel) (f page : Nat) (writable : Bool) : Prop :=
  (k.file f).type = .pipe ∧ (k.file f).pipe = page ∧ (k.file f).writable = writable

open Classical in
/-- The pages held outside the page tables: a kernel stack for each process in use and for
each other processor, and one page for each pipe with an open end. -/
noncomputable def held (k : Kernel) : Holder → Option Nat
  | .kstack p => if k.Used p then some (k.proc p).kstack else none
  | .cpu i => k.cpuStacks[i]?
  | .pipe page => if ∃ f writable, k.PipeEnd f page writable then some page else none

/-- The word of a pipe that says whether an end is open. -/
def pipeOpen (writable : Bool) : Nat := if writable then pipeWriteopen else pipeReadopen

/-- What the file structures say about pipes. -/
structure Files (k : Kernel) : Prop where
  closed : ∀ f, (k.file f).ref = 0 → (k.file f).type = .none
  single : ∀ f g page writable, k.PipeEnd f page writable → k.PipeEnd g page writable → f = g
  opened : ∀ f page writable, k.PipeEnd f page writable → ∀ other,
    k.vm.word page (pipeOpen other) ≠ 0 ↔ ∃ g, k.PipeEnd g page other

/-- The invariant of a run. -/
structure Sane (layout : Layout) (k : Kernel) (own : Places Holder) : Prop where
  owned : Owned layout k.vm k.Live k.held own
  distinct : ∀ p q, k.Used p → k.Used q → (k.proc p).pgdir = (k.proc q).pgdir → p = q
  apart : ∀ p, k.Used p → (k.proc p).pgdir ≠ k.kpgdir
  size : ∀ p, k.Used p → (k.proc p).sz < kernbase
  files : k.Files

/-- Every process is complete: exactly the pages below its size are mapped. -/
def Full (k : Kernel) : Prop :=
  ∀ p, k.Used p → Complete k.vm (k.proc p).pgdir (k.proc p).sz

/-- What code of the kernel did to the pages: the invariant still holds, and no page
was lost unless a page table was denied. -/
structure Moved (layout : Layout) (k : Kernel) (own : Places Holder) (after : Kernel)
    (next : Places Holder) : Prop where
  sane : Sane layout after next
  rising : k.vm.denied ≤ after.vm.denied
  kept : after.vm.denied = k.vm.denied → ∀ page, next page = none → own page = none

theorem Moved.refl {layout : Layout} {k : Kernel} {own : Places Holder}
    (sane : Sane layout k own) : Moved layout k own k own :=
  ⟨sane, le_rfl, fun _ _ => id⟩

theorem Moved.trans {layout : Layout} {k after : Kernel}
    {own between next : Places Holder} (first : Moved layout k own middle between)
    (second : Moved layout middle between after next) : Moved layout k own after next where
  sane := second.sane
  rising := first.rising.trans second.rising
  kept := fun same page isLost => by
    have early := first.rising
    have late := second.rising
    exact first.kept (by omega) page (second.kept (by omega) page isLost)

variable {layout : Layout} {k after : Kernel} {own next : Places Holder}

theorem Used.live (used : k.Used p) : k.Live (k.proc p).pgdir := Or.inr ⟨p, used, rfl⟩

theorem PipeEnd.held {f : Nat} {writable : Bool} (isEnd : k.PipeEnd f page writable) :
    k.held (.pipe page) = some page :=
  if_pos ⟨f, writable, isEnd⟩

/-- Processes whose slots, directories and stacks are the same use the same pages. -/
theorem live_congr (sameKernel : after.fixed = k.fixed) (sameUsed : ∀ p, after.Used p ↔ k.Used p)
    (same : ∀ p, k.Used p → (after.proc p).pgdir = (k.proc p).pgdir) : after.Live = k.Live := by
  funext pgdir
  have sameDir : after.kpgdir = k.kpgdir := congrArg Prod.fst sameKernel
  refine propext (or_congr (by rw [sameDir]) (exists_congr fun p => ?_))
  rw [sameUsed p]
  exact and_congr_right fun used => by rw [same p used]

theorem held_kstack (sameUsed : after.Used p ↔ k.Used p)
    (same : k.Used p → (after.proc p).kstack = (k.proc p).kstack) :
    after.held (.kstack p) = k.held (.kstack p) := by
  by_cases used : k.Used p
  · rw [held, held, if_pos used, if_pos (sameUsed.mpr used), same used]
  · rw [held, held, if_neg used, if_neg fun still => used (sameUsed.mp still)]

theorem held_cpu (sameKernel : after.fixed = k.fixed) (i : Nat) :
    after.held (.cpu i) = k.held (.cpu i) :=
  congrArg (fun fixed => fixed.2[i]?) sameKernel

theorem held_pipe (same : (∃ f writable, after.PipeEnd f page writable) ↔
      ∃ f writable, k.PipeEnd f page writable) :
    after.held (.pipe page) = k.held (.pipe page) := by
  by_cases isOpen : ∃ f writable, k.PipeEnd f page writable
  · rw [held, held, if_pos isOpen, if_pos (same.mpr isOpen)]
  · rw [held, held, if_neg isOpen, if_neg fun still => isOpen (same.mp still)]

theorem held_congr (sameKernel : after.fixed = k.fixed) (sameUsed : ∀ p, after.Used p ↔ k.Used p)
    (same : ∀ p, k.Used p → (after.proc p).kstack = (k.proc p).kstack)
    (sameEnd : ∀ f page writable, after.PipeEnd f page writable ↔ k.PipeEnd f page writable) :
    after.held = k.held := by
  funext holder
  cases holder with
  | kstack p => exact held_kstack (sameUsed p) (same p)
  | cpu i => exact held_cpu sameKernel i
  | pipe page =>
    exact held_pipe (exists_congr fun f => exists_congr fun writable => sameEnd f page writable)

/-- Pipes whose pages did not change. -/
theorem Files.of_pages (files : k.Files) (sameFile : after.file = k.file)
    (same : ∀ f page writable, k.PipeEnd f page writable → after.vm.page page = k.vm.page page) :
    after.Files := by
  have ends : ∀ f page writable, after.PipeEnd f page writable ↔ k.PipeEnd f page writable := by
    intro f page writable
    simp only [PipeEnd, sameFile]
  refine ⟨fun f => by rw [sameFile]; exact files.closed f, fun f g page writable => ?_,
    fun f page writable => ?_⟩
  · rw [ends, ends]
    exact files.single f g page writable
  · rw [ends]
    intro isEnd other
    rw [word_congr (same f page writable isEnd)]
    simp only [ends]
    exact files.opened f page writable isEnd other

/-- The processes are as they were, and so are the entries of their directories. -/
structure SameProcs (k after : Kernel) : Prop where
  procs : after.proc = k.proc
  kernel : after.fixed = k.fixed
  denied : after.vm.denied = k.vm.denied
  entries : ∀ pgdir vpn, k.Live pgdir → vpn < 1048576 →
    after.vm.entry pgdir vpn = k.vm.entry pgdir vpn

theorem SameProcs.used (same : SameProcs k after) (p : Nat) : after.Used p ↔ k.Used p := by
  rw [Used, Used, same.procs]

theorem SameProcs.live (same : SameProcs k after) : after.Live = k.Live :=
  live_congr same.kernel same.used fun p _ => by rw [same.procs]

theorem SameProcs.full (same : SameProcs k after) (full : k.Full) : after.Full := by
  intro p used
  have before := (same.used p).mp used
  rw [same.procs]
  intro vpn below
  rw [same.entries _ vpn before.live (by omega)]
  exact full p before vpn below

theorem SameProcs.trans (first : SameProcs k middle) (second : SameProcs middle after) :
    SameProcs k after where
  procs := second.procs.trans first.procs
  kernel := second.kernel.trans first.kernel
  denied := second.denied.trans first.denied
  entries := fun pgdir vpn alive inside => by
    rw [second.entries pgdir vpn (first.live ▸ alive) inside, first.entries pgdir vpn alive inside]

/-- The invariant for the same processes, with other files or other pages. -/
theorem Sane.of_procs (sane : Sane layout k own) (same : SameProcs k after)
    (owned : Owned layout after.vm k.Live after.held next) (files : after.Files) :
    Sane layout after next where
  owned := same.live ▸ owned
  distinct := fun p q left right => by
    rw [same.procs]
    exact sane.distinct p q ((same.used p).mp left) ((same.used q).mp right)
  apart := fun p used => by
    rw [same.procs, show after.kpgdir = k.kpgdir from congrArg Prod.fst same.kernel]
    exact sane.apart p ((same.used p).mp used)
  size := fun p used => by
    rw [same.procs]
    exact sane.size p ((same.used p).mp used)
  files := files

/-- Changing a file structure that stays the same end of the same pipe, or stays none. -/
theorem Sane.setFile (sane : Sane layout k own) (f : Nat) (value : File)
    (ends : ∀ page writable, (k.setFile f value).PipeEnd f page writable ↔
      k.PipeEnd f page writable)
    (closed : value.ref = 0 → value.type = .none) :
    Sane layout (k.setFile f value) own ∧ SameProcs k (k.setFile f value) := by
  have same : SameProcs k (k.setFile f value) := ⟨rfl, rfl, rfl, fun _ _ _ _ => rfl⟩
  have allEnds : ∀ g page writable, (k.setFile f value).PipeEnd g page writable ↔
      k.PipeEnd g page writable := by
    intro g page writable
    by_cases here : g = f
    · rw [here]
      exact ends page writable
    · simp only [PipeEnd, Kernel.setFile, Function.update_of_ne here]
  refine ⟨sane.of_procs same ?_ ⟨fun g => ?_, fun g h page writable => ?_,
    fun g page writable => ?_⟩, same⟩
  · have sameHeld : (k.setFile f value).held = k.held :=
      held_congr rfl (fun _ => Iff.rfl) (fun _ _ => rfl) allEnds
    rw [sameHeld]
    exact sane.owned
  · by_cases here : g = f
    · rw [here]
      simpa [Kernel.setFile] using closed
    · simpa [Kernel.setFile, here] using sane.files.closed g
  · rw [allEnds, allEnds]
    exact sane.files.single g h page writable
  · rw [allEnds]
    simp only [allEnds]
    exact sane.files.opened g page writable

end Kernel

end Xv6
