import Xv6.Proc.Copyout
import Xv6.Proc.Inode
import Xv6.Vm.Growth

/-!
# The stack of a new program

`exec` pushes the argument strings downwards from the end of the stack page, each rounded
down to a multiple of four, and below them a block of words. It never compares the stack
pointer with the bottom of the page: a string that does not fit runs into the guard page,
where `copyout` stops.

So the part of `exec` after the segments returns, and what it stores goes into the pages of
the new program; it succeeds when everything fits in the stack page. This is provided that
no page table was denied unnoticed and that no string is longer than all that is below the
stack pointer, for then its address wraps around.
-/

namespace Xv6

open Vm List Option

variable {β : Type} {layout : Layout} {m later grown : Vm} {live : Nat → Prop}
  {held : β → Option Nat} {own : Places β}
  {pgdir sz size current va sp : Nat} {bytes arg : List UInt8} {argv : List (List UInt8)}
  {result : Option Nat}

/-- The stack pointer after all strings, or a place below the stack. -/
def lowest : Nat → List (List UInt8) → Nat
  | sp, [] => sp
  | sp, arg :: rest => lowest ((sp - (arg.length + 1)) / 4 * 4) rest

/-- Everything fits in the page that ends at `sz`: the strings, and below them the return
address, `argc`, `argv`, a pointer to each string and a null pointer. -/
def StackFits (sz : Nat) (argv : List (List UInt8)) : Prop :=
  sz - 4096 + 4 * (argv.length + 4) ≤ lowest sz argv

instance (sz : Nat) (argv : List (List UInt8)) : Decidable (StackFits sz argv) :=
  inferInstanceAs (Decidable (_ ≤ _))

theorem lowest_le (argv : List (List UInt8)) : ∀ sp, lowest sp argv ≤ sp := by
  induction argv with
  | nil => exact fun _ => Nat.le_refl _
  | cons arg rest ih =>
    intro sp
    have further := ih ((sp - (arg.length + 1)) / 4 * 4)
    simp only [lowest]
    omega

/-! ## Copying into the stack page -/

/-- The pages of a new process as its stack is filled: all below its size are mapped, the
last is open to the user and the one below it is not. -/
structure StackPages (m : Vm) (pgdir sz : Nat) : Prop where
  room : 8192 ≤ sz
  top : sz ≤ kernbase
  aligned : sz % 4096 = 0
  complete : Complete m pgdir sz
  isOpen : m.Open pgdir (sz / 4096 - 1)
  guarded : Guarded m pgdir sz

namespace StackPages

/-- Stores into user pages keep them. -/
theorem filled (pages : StackPages m pgdir sz)
    (filled : Filled layout live held pgdir m own later) : StackPages later pgdir sz where
  room := pages.room
  top := pages.top
  aligned := pages.aligned
  complete := filled.complete.mpr pages.complete
  isOpen := by
    obtain ⟨pte, stored, user⟩ := pages.isOpen
    have bound : sz / 4096 - 1 < 1048576 := by
      have top := pages.top
      rw [kernbase_eq] at top
      omega
    exact ⟨pte, by rw [filled.entries _ bound, stored], user⟩
  guarded := by
    obtain ⟨pte, stored, hidden⟩ := pages.guarded
    exact ⟨pte, by rw [filled.entries _ (guard_page pages.top), stored], hidden⟩

/-- Every page below the size has a table. -/
theorem not_stray (pages : StackPages m pgdir sz) {len : Nat} (below : va + len ≤ sz) :
    ¬ m.Stray pgdir va len := by
  rintro ⟨offset, inside, missing, -⟩
  have top := pages.top
  have page : pageAt va offset = (va + offset) / 4096 := by
    rw [kernbase_eq] at top
    rw [pageAt, Nat.mod_eq_of_lt (by omega), pgsize_eq]
  have within : (va + offset) / 4096 * pgsize < sz := by
    rw [pgsize_eq]
    omega
  have mapped := (pages.complete _ (user_page top within)).mpr within
  rw [page] at missing
  exact isSome_iff_ne_none.mp (tableAt_of_entry mapped) missing

/-- Bytes below the size that reach the guard page fit when they start above it. -/
theorem pushes (owned : Owned layout m live held own) (alive : live pgdir)
    (pages : StackPages m pgdir sz) (below : va + bytes.length ≤ sz)
    (reach : sz < va + bytes.length + 8192) (some : 0 < bytes.length) : ∃ copied later,
      copyout layout m current pgdir va bytes = .ok (copied, later) ∧
      Filled layout live held pgdir m own later ∧ (copied = true ↔ sz - 4096 ≤ va) := by
  have room := pages.room
  have aligned := pages.aligned
  have top := pages.top
  rw [kernbase_eq] at top
  have page : ∀ offset, va + offset < sz → pageAt va offset = (va + offset) / 4096 := by
    intro offset inside
    rw [pageAt, Nat.mod_eq_of_lt (by omega), pgsize_eq]
  have copies : CopiesOut layout live held current pgdir va bytes m own :=
    copyout_copies alive bytes.length (Nat.le_refl _) (by omega) owned
  obtain ⟨-, copied, later, ran, filled, all, -, -⟩ := copies.sound (pages.not_stray below)
  refine ⟨copied, later, ran, filled, all.trans ⟨fun isOpen => ?_, fun high offset inside => ?_⟩⟩
  · by_contra low
    obtain ⟨pte, stored, hidden⟩ := pages.guarded
    have inGuard : pageAt va (max va (sz - 8192) - va) = sz / 4096 - 2 := by
      rw [page _ (by omega)]
      omega
    obtain ⟨pte', stored', user⟩ := isOpen (max va (sz - 8192) - va) (by omega)
    rw [inGuard, stored] at stored'
    cases stored'
    rw [hidden] at user
    cases user
  · rw [page offset (by omega), show (va + offset) / 4096 = sz / 4096 - 1 by omega]
    exact pages.isOpen

end StackPages

/-- What pushing the strings does. -/
structure PushesAll (layout : Layout) (live : Nat → Prop) (held : β → Option Nat)
    (pgdir sz argc sp : Nat) (argv : List (List UInt8)) (ustack : List Nat) (m : Vm)
    (own : Places β) (result : Option (Nat × List Nat)) (later : Vm) : Prop where
  filled : Filled layout live held pgdir m own later
  fits : result.isSome ↔ argc + argv.length ≤ maxarg ∧ sz - 4096 ≤ lowest sp argv
  pointer : ∀ last words, result = some (last, words) →
    last = lowest sp argv ∧ words.length = ustack.length + argv.length

/-- The loop of `exec` over the arguments. -/
theorem pushArgs_fills (alive : live pgdir) (argv : List (List UInt8)) :
    ∀ {m : Vm} {argc sp : Nat} {ustack : List Nat},
      Owned layout m live held own → StackPages m pgdir sz → sz - 4096 ≤ sp → sp ≤ sz →
      argc ≤ maxarg → argsFit (sz - 4096) sp argv = true →
      ∃ result later, pushArgs layout current pgdir argv m argc sp ustack = .ok (result, later) ∧
        PushesAll layout live held pgdir sz argc sp argv ustack m own result later := by
  induction argv with
  | nil =>
    intro m argc sp ustack owned pages above _ few _
    refine ⟨_, _, rfl, Filled.refl owned, iff_of_true rfl ⟨few, above⟩, ?_⟩
    rintro last words ⟨⟩
    exact ⟨rfl, rfl⟩
  | cons arg rest ih =>
    intro m argc sp ustack owned pages above below few fit
    have room := pages.room
    have low := lowest_le rest ((sp - (arg.length + 1)) / 4 * 4)
    have length : (arg :: rest).length = rest.length + 1 := length_cons
    have terminated : (arg ++ [0]).length = arg.length + 1 := by simp
    simp only [argsFit, Bool.and_eq_true, Bool.or_eq_true, decide_eq_true_eq] at fit
    obtain ⟨short, further⟩ := fit
    rw [pushArgs]
    by_cases many : maxarg ≤ argc
    · rw [if_pos many]
      exact ⟨_, _, rfl, Filled.refl owned, iff_of_false (by simp) (by omega), by simp⟩
    rw [if_neg many]
    simp only [arg_place pages.top below short] at low ⊢
    generalize isPlace : (sp - (arg.length + 1)) / 4 * 4 = place at low further ⊢
    obtain ⟨copied, middle, copying, filled, fits⟩ : ∃ copied later,
        copyout layout m current pgdir place (arg ++ [0]) = .ok (copied, later) ∧
        Filled layout live held pgdir m own later ∧ (copied = true ↔ sz - 4096 ≤ place) := by
      apply pages.pushes owned alive <;> omega
    simp only [copying, bind, Except.bind]
    cases copied with
    | false =>
      have outside : ¬ sz - 4096 ≤ place := mt fits.mpr (by simp)
      refine ⟨_, _, rfl, filled, iff_of_false (by simp) ?_, by simp⟩
      simp only [lowest, isPlace]
      omega
    | true =>
      have inside := fits.mp rfl
      obtain ⟨result, later, ran, others⟩ : ∃ result later,
          pushArgs layout current pgdir rest middle (argc + 1) place (ustack ++ [place]) =
            .ok (result, later) ∧
          PushesAll layout live held pgdir sz (argc + 1) place rest (ustack ++ [place]) middle own
            result later :=
        ih filled.owned (pages.filled filled) inside (by omega) (by omega)
          (further.resolve_left (Nat.not_lt.mpr inside))
      refine ⟨result, later, ran, filled.trans others.filled, ?_, fun last words isResult => ?_⟩
      · rw [others.fits, lowest, isPlace, length]
        omega
      · obtain ⟨isLast, count⟩ := others.pointer last words isResult
        rw [lowest, isPlace, isLast, count, length, length_append, length_singleton]
        omega

/-- What filling the stack does. -/
structure StackFilled (layout : Layout) (live : Nat → Prop) (held : β → Option Nat)
    (pgdir sz : Nat) (argv : List (List UInt8)) (m : Vm) (own : Places β)
    (result : Option Nat) (later : Vm) : Prop where
  filled : Filled layout live held pgdir m own later
  fits : result.isSome ↔ argv.length ≤ maxarg ∧ StackFits sz argv

/-- The part of `exec` that fills the stack returns, and succeeds when everything fits. -/
theorem pushStack_fills (owned : Owned layout m live held own) (current : Nat)
    (alive : live pgdir) (pages : StackPages m pgdir sz)
    (fit : argsFit (sz - 4096) sz argv = true) :
    ∃ result later, m.pushStack layout current pgdir sz argv = .ok (result, later) ∧
      StackFilled layout live held pgdir sz argv m own result later := by
  have room := pages.room
  have top := pages.top
  obtain ⟨strings, middle, pushing, pushed⟩ : ∃ result later,
      pushArgs layout current pgdir argv m 0 sz [] = .ok (result, later) ∧
        PushesAll layout live held pgdir sz 0 sz argv [] m own result later :=
    pushArgs_fills alive argv owned pages (by omega) le_rfl (by omega) fit
  have counted := pushed.fits
  rw [Nat.zero_add] at counted
  have low := lowest_le argv sz
  simp only [pushStack, pushing, bind, Except.bind]
  cases strings with
  | none =>
    have short : ¬ (argv.length ≤ maxarg ∧ sz - 4096 ≤ lowest sz argv) :=
      mt counted.mpr (by simp)
    refine ⟨none, middle, rfl, pushed.filled, iff_of_false (by simp) ?_⟩
    simp only [StackFits]
    omega
  | some stack =>
    obtain ⟨last, words⟩ := stack
    obtain ⟨few, inPage⟩ := counted.mp rfl
    have small : argv.length ≤ 32 := few
    obtain ⟨bottom, count⟩ := pushed.pointer last words rfl
    rw [length_nil, Nat.zero_add] at count
    have length : (wordBytes (stackWords last words)).length = 4 * (argv.length + 4) := by
      rw [length_wordBytes]
      simp only [stackWords, length_append, length_cons, length_nil, count]
      omega
    obtain ⟨esp, isPointer⟩ : ∃ esp, esp + 4 * (argv.length + 4) = last :=
      ⟨last - 4 * (argv.length + 4), by omega⟩
    have place : (last + 2 ^ 32 - (3 + words.length + 1) * 4) % 2 ^ 32 = esp := by
      rw [kernbase_eq] at top
      omega
    obtain ⟨copied, later, copying, filled, fits⟩ : ∃ copied later,
        copyout layout middle current pgdir esp (wordBytes (stackWords last words)) =
          .ok (copied, later) ∧
        Filled layout live held pgdir middle own later ∧ (copied = true ↔ sz - 4096 ≤ esp) := by
      apply (pages.filled pushed.filled).pushes pushed.filled.owned alive <;> omega
    have whole : copied = true ↔ StackFits sz argv := by
      rw [fits, StackFits]
      omega
    simp only [place, copying]
    refine ⟨_, later, rfl, pushed.filled.trans filled, ?_⟩
    rw [← whole, and_iff_right few]
    cases copied with
    | false => simp
    | true => simp

/-! ## Building the stack -/

/-- A directory that is ready is ready up to the next page boundary. -/
theorem Ready.rounded (ready : Ready layout live held pgdir size m own)
    (limit : pgroundup size < kernbase) : Ready layout live held pgdir (pgroundup size) m own where
  owned := ready.owned
  alive := ready.alive
  top := limit
  complete := (complete_pgroundup ready.top.le).mpr ready.complete
  tables := by
    intro index inside
    have same : untabled (pgroundup size) index = untabled size index := by
      have pages : (pgroundup size + 4095) / 4096 = (size + 4095) / 4096 := by
        rw [(pgroundup_eq ready.top.le).1, pgsize_eq]
        omega
      simp only [untabled, lacking, pages]
    rw [same]
    exact ready.tables index inside

/-- What building the stack does. -/
structure BuildsStack (layout : Layout) (live : Nat → Prop) (held : β → Option Nat)
    (pgdir size : Nat) (argv : List (List UInt8)) (m : Vm) (own : Places β)
    (result : Option (Nat × Nat)) (later : Vm) : Prop where
  built : Built layout live held pgdir m own (result.map Prod.fst) later
  asked : Asked (stackRequests (some size)) m True True later
  granted : m.foresee (stackRequests (some size)) = none → pgroundup size + 8192 < kernbase →
    argv.length ≤ maxarg → StackFits (pgroundup size + 8192) argv → result.isSome

theorem BuildsStack.reached {result : Option (Nat × Nat)}
    (builds : BuildsStack layout live held pgdir size argv m own result later) :
    Reached layout live held pgdir m own later := by
  obtain ⟨next, owned, keeps, -⟩ := builds.built.stage
  exact ⟨next, owned, keeps⟩

/-- The stack of a directory with its two new pages. -/
theorem Ready.stack (current : Nat) (ready : Ready layout live held pgdir sz grown own)
    (room : 8192 ≤ sz) (aligned : sz % 4096 = 0)
    (extended : Extended pgdir (sz / 4096 - 2) sz m grown)
    (fit : argsFit (sz - 4096) sz argv = true) :
    ∃ cleared, grown.clearpteu pgdir (sz - 2 * pgsize) = .ok cleared ∧
      StackPages cleared pgdir sz ∧ Keeps pgdir grown own cleared own ∧
      ∃ result later, cleared.pushStack layout current pgdir sz argv = .ok (result, later) ∧
        StackFilled layout live held pgdir sz argv cleared own result later := by
  have top := ready.top
  have guard : sz - 2 * pgsize = (sz / 4096 - 2) * pgsize := by
    rw [pgsize_eq]
    omega
  have within : (sz / 4096 - 2) * pgsize < sz ∧ (sz / 4096 - 1) * pgsize < sz := by
    rw [pgsize_eq]
    omega
  have bound := user_page top.le within.1
  have inUser := user_page top.le within.2
  obtain ⟨pte, stored, -⟩ := extended.mapped _ le_rfl within.1
  obtain ⟨last, mapped, user⟩ := extended.mapped (sz / 4096 - 1) (by omega) within.2
  obtain ⟨cleared, clearing⟩ := clearpteu_ok (by omega) stored
  obtain ⟨clean, keeps, -, -, same, hidden⟩ :=
    clearpteu_spec ready.owned ready.alive bound stored clearing
  have entries := clearpteu_entries ready.owned ready.alive bound stored clearing
    (show sz / 4096 - 1 < 1048576 by omega)
  rw [if_neg (by omega), mapped] at entries
  have pages : StackPages cleared pgdir sz := by
    refine ⟨room, top.le, aligned, fun vpn inside => ?_, ⟨last, entries, user⟩, hidden⟩
    rw [same vpn (by omega)]
    exact ready.complete vpn inside
  rw [guard]
  exact ⟨cleared, clearing, pages, keeps, pushStack_fills clean current ready.alive pages fit⟩

/-- Filling the stack asks for nothing. -/
theorem pushStack_served (ran : m.pushStack layout current pgdir sz argv = .ok (result, later)) :
    Served 0 m later := by
  obtain ⟨⟨answer, after⟩, pushing, ran⟩ := Except.of_bind_ok ran
  have first := pushArgs_served argv pushing
  cases answer with
  | none =>
    cases ran
    exact first
  | some stack =>
    obtain ⟨⟨copied, last⟩, copying, ran⟩ := Except.of_bind_ok ran
    cases ran
    exact first.quiet (copyout_served copying)

/-- Without memory for the two pages there is no stack. -/
theorem buildStack_failed (zero : sz = 0)
    (growing : m.allocuvm layout pgdir (pgroundup size) (stackTop (pgroundup size)) =
      .ok (sz, grown)) :
    m.buildStack layout current pgdir size argv = .ok (none, grown) := by
  unfold buildStack
  rw [growing]
  exact if_pos zero

/-- With them, the guard page is closed and the stack is filled. -/
theorem buildStack_grown {cleared : Vm} (nonzero : sz ≠ 0)
    (growing : m.allocuvm layout pgdir (pgroundup size) (stackTop (pgroundup size)) =
      .ok (sz, grown))
    (clearing : grown.clearpteu pgdir (sz - 2 * pgsize) = .ok cleared)
    (pushing : cleared.pushStack layout current pgdir sz argv = .ok (result, later)) :
    m.buildStack layout current pgdir size argv =
      .ok (result.map fun sp => (sz, sp), later) := by
  unfold buildStack
  rw [growing]
  refine (if_neg nonzero).trans ?_
  rw [clearing]
  simp only [pushing, bind, Except.bind]

/-- The part of `exec` after the segments returns, and succeeds when everything fits and no
request for memory fails. -/
theorem buildStack_builds (current : Nat) (ready : Ready layout live held pgdir size m own)
    (loud : m.foresee (stackRequests (some size)) ≠ some .silent)
    (fit : argsFit (pgroundup size + pgsize) (pgroundup size + 2 * pgsize) argv = true) :
    ∃ result later, m.buildStack layout current pgdir size argv = .ok (result, later) ∧
      BuildsStack layout live held pgdir size argv m own result later := by
  obtain ⟨stack, aligned⟩ := stackTop_eq ready.top
  have asks : ∀ {grownTo : Nat} {grown later : Vm}, m.allocuvm layout pgdir (pgroundup size)
      (stackTop (pgroundup size)) = .ok (grownTo, grown) → Served 0 grown later →
      Asked (stackRequests (some size)) m True True later := fun growing still =>
    (allocuvm_asked ready.owned ready.alive ready.lacks growing).quietly still
      (fun _ => trivial) fun _ => trivial
  by_cases limit : kernbase ≤ pgroundup size + 8192
  · -- There is no room for a stack below the kernel.
    have growing : m.allocuvm layout pgdir (pgroundup size) (stackTop (pgroundup size)) =
        .ok (0, m) := by
      rw [allocuvm, stack, if_pos limit]
    refine ⟨none, m, ?_, ⟨⟨own, ready.owned, Keeps.refl _ _ _,
      Accounted.of_quiet rfl fun _ => id⟩, by simp⟩, asks growing (Served.refl _), ?_⟩
    · exact buildStack_failed rfl growing
    · exact fun _ low => absurd limit (Nat.not_le.mpr low)
  · have rounded := ready.rounded (show pgroundup size < kernbase by omega)
    have lackingSame : lacking (pgroundup size) = lacking size := by
      have pages : (pgroundup size + 4095) / 4096 = (size + 4095) / 4096 := by
        rw [(pgroundup_eq ready.top.le).1, pgsize_eq]
        omega
      funext index
      simp only [lacking, pages]
    have requests : stackRequests (some size) =
        allocRequests (lacking (pgroundup size)) (pgroundup size) (stackTop (pgroundup size)) := by
      rw [lackingSame]
      rfl
    obtain ⟨grownTo, grown, growing⟩ := allocuvm_ok rounded.owned rounded.alive rounded.complete
      (stackTop (pgroundup size))
    have sameTorn : grown.torn = m.torn :=
      ((allocuvm_asked rounded.owned rounded.alive rounded.lacks growing).outcome
        (requests ▸ loud)).1
    obtain ⟨next, owned, keeps, account, failed | ⟨nonzero, -, -, -, fresh⟩⟩ :=
      rounded.grow (requests ▸ loud) growing
    · obtain ⟨zero, why⟩ := failed
      refine ⟨none, grown, ?_, ⟨⟨next, owned, keeps, account⟩, by rintro _ ⟨⟩⟩,
        asks growing (Served.refl _), ?_⟩
      · exact buildStack_failed zero growing
      · intro through
        rw [requests] at through
        rcases why with none | refused
        · rw [stack, grownSize, if_neg (by omega)] at none
          omega
        · exact absurd through refused
    · obtain ⟨-, ⟨shorter, -⟩ | ⟨-, isSize, extended⟩⟩ :=
        allocuvm_extends rounded.owned rounded.alive nonzero sameTorn growing
      · omega
      · rw [stack] at isSize extended
        have first : (pgroundup size + 4095) / 4096 = grownTo / 4096 - 2 := by omega
        rw [first, ← isSize] at extended
        have fitHere : argsFit (grownTo - 4096) grownTo argv = true := by
          rw [isSize, show pgroundup size + 8192 - 4096 = pgroundup size + pgsize by
            rw [pgsize_eq]
            omega]
          exact fit
        obtain ⟨cleared, clearing, pages, keepsToo, result, later, pushing, filled⟩ :=
          fresh.stack current (by omega) (by omega) extended fitHere
        have still := (clearpteu_served clearing).quiet (pushStack_served pushing)
        have since := keepsToo.trans filled.filled.keeps
        have whole : Complete later pgdir grownTo := (pages.filled filled.filled).complete
        have accountToo := account.trans (Accounted.of_quiet still.denied fun _ => id) keeps.denied
          since
        refine ⟨result.map fun sp => (grownTo, sp), later, ?_, ⟨⟨next, filled.filled.owned,
          keeps.trans since, accountToo⟩, ?_⟩, asks growing still, ?_⟩
        · exact buildStack_grown nonzero growing clearing pushing
        · intro sz isResult
          simp only [Option.map_map, map_eq_some_iff] at isResult
          obtain ⟨-, -, rfl⟩ := isResult
          exact ⟨fresh.top, whole⟩
        · rw [isSome_map, filled.fits, isSize]
          exact fun _ _ few => And.intro few

end Xv6
