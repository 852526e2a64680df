import Xv6.Proc.Requests

/-!
# What `exec` does to the pages

`exec` takes from the file an address to load a segment at, and from the caller
strings to put on the stack. Two sums of such numbers are not checked for overflow:
the end of a segment, `vaddr + memsz`, and the place of a string below the stack
pointer. `Tame` is the condition on the file and the arguments under which neither
overflows before `exec` gives up for another reason. Under it, and when no failed
request goes unnoticed, all that `exec` stores goes into user pages of the new
directory.
-/

namespace Xv6

open Vm

/-- The argument strings stay above address zero, as long as they go into the stack
page from `bottom` on. -/
def argsFit (bottom : Nat) : (sp : Nat) → List (List UInt8) → Bool
  | _, [] => true
  | sp, arg :: rest =>
    let next := (sp - (arg.length + 1)) / 4 * 4
    arg.length < sp && (next < bottom || argsFit bottom next rest)

/-- No segment that is loaded ends past the address space, and the arguments fit. -/
def segmentsTame (ip : Image) (argv : List (List UInt8)) : (count off sz : Nat) → Bool
  | 0, _, sz => argsFit (pgroundup sz + pgsize) (pgroundup sz + 2 * pgsize) argv
  | count + 1, off, sz =>
    match ip.header off with
    | .bad => true
    | .skip => segmentsTame ip argv count ((off + 32) % 2 ^ 32) sz
    | .load ph =>
      let size := grownSize sz ((ph.vaddr + ph.memsz) % 2 ^ 32)
      size = 0 || (ph.filesz = 0 || ph.vaddr + ph.memsz < 2 ^ 32) &&
        segmentsTame ip argv count ((off + 32) % 2 ^ 32) size

/-- The condition on a file and arguments under which `exec` is safe. -/
def Tame (file : Option Image) (argv : List (List UInt8)) : Bool :=
  match programOf file with
  | none => true
  | some (ip, elf) => segmentsTame ip argv elf.phnum elf.phoff 0

variable {β : Type} {layout : Layout} {m middle later : Vm} {live : Nat → Prop}
  {held : β → Option Nat} {own between next : Places β}

/-- Stores into user pages of a directory: no owner, entry or counter changed. -/
structure Filled (layout : Layout) (live : Nat → Prop) (held : β → Option Nat) (pgdir : Nat)
    (m : Vm) (own : Places β) (later : Vm) : Prop where
  owned : Owned layout later live held own
  keeps : Keeps pgdir m own later own
  entries : ∀ vpn, vpn < 1048576 → later.entry pgdir vpn = m.entry pgdir vpn
  tables : ∀ index, later.tableAt pgdir index = m.tableAt pgdir index
  denied : later.denied = m.denied

namespace Filled

variable {pgdir : Nat}

theorem refl (owned : Owned layout m live held own) : Filled layout live held pgdir m own m :=
  ⟨owned, Keeps.refl _ _ _, fun _ _ => rfl, fun _ => rfl, rfl⟩

theorem trans (first : Filled layout live held pgdir m own middle)
    (second : Filled layout live held pgdir middle own later) :
    Filled layout live held pgdir m own later where
  owned := second.owned
  keeps := first.keeps.trans second.keeps
  entries := fun vpn inside => (second.entries vpn inside).trans (first.entries vpn inside)
  tables := fun index => (second.tables index).trans (first.tables index)
  denied := second.denied.trans first.denied

theorem complete (filled : Filled layout live held pgdir m own later) {sz : Nat} :
    Complete later pgdir sz ↔ Complete m pgdir sz := by
  refine forall_congr' fun vpn => forall_congr' fun below => ?_
  rw [filled.entries vpn (by omega)]

end Filled

/-- A store into a user page. -/
theorem put_user (owned : Owned layout m live held own) {pgdir vpn page offset : Nat}
    {bytes : List UInt8} (alive : live pgdir) (isUser : own page = some (.user pgdir vpn))
    (ran : m.put layout page offset bytes = .ok later) :
    Filled layout live held pgdir m own later := by
  have data : ¬ Structural own page := by
    rintro (free | dir | ⟨other, index, table⟩) <;> simp_all
  have apart : ∀ {other}, Structural own other → other ≠ page := by
    rintro other structural rfl
    exact data structural
  obtain ⟨contents, rfl⟩ := put_eq ran
  refine ⟨owned.setPage _ data, ⟨fun other here => ⟨here, ?_⟩,
    fun other place here _ foreign => ⟨here, ?_⟩, le_rfl, le_rfl⟩, fun other inside => ?_,
    tableAt_of_dir (page_setPage_ne _ _ ?_), rfl⟩
  · refine page_setPage_ne _ _ ?_
    rintro rfl
    simp [isUser] at here
  · refine page_setPage_ne _ _ ?_
    rintro rfl
    rw [isUser] at here
    exact foreign (Option.some.inj here ▸ rfl)
  · exact owned.entry_structural (fun other structural =>
      page_setPage_ne _ _ (apart structural)) alive inside
  · exact (apart (Or.inr (Or.inl ((owned.dir pgdir).mpr alive))))

/-- The page behind an entry of a complete process. -/
theorem user_of_entry (owned : Owned layout m live held own) {pgdir vpn pte : Nat}
    (alive : live pgdir) (below : vpn < 524288) (stored : m.entry pgdir vpn = some pte) :
    own (frame pte) = some (.user pgdir vpn) :=
  (owned.user _ _ _).mpr ⟨alive, below, pte, stored, rfl⟩

/-! ## The stack -/

/-- The page below the stack is there and user code cannot reach it. -/
def Guarded (m : Vm) (pgdir sz : Nat) : Prop :=
  ∃ pte, m.entry pgdir (sz / 4096 - 2) = some pte ∧ userBit pte = false

theorem guard_page {sz : Nat} (top : sz ≤ kernbase) : sz / 4096 - 2 < 1048576 := by
  have pages : sz / 4096 ≤ 524288 := Nat.div_le_div_right top
  omega

theorem length_wordBytes (words : List Nat) : (wordBytes words).length = 4 * words.length := by
  induction words with
  | nil => rfl
  | cons word rest ih =>
    simp only [wordBytes, List.flatMap_cons, List.length_append, List.length_map,
      List.length_range, List.length_cons] at ih ⊢
    omega

/-- What `clearpteu` stores for a mapped page. -/
theorem clearpteu_store {pgdir vpn pte : Nat} (below : vpn < 524288)
    (stored : m.entry pgdir vpn = some pte)
    (ran : m.clearpteu pgdir (vpn * pgsize) = .ok later) :
    ∃ pgtab, m.tableAt pgdir (vpn / 1024) = some pgtab ∧ m.word pgtab (vpn % 1024) = pte ∧
      present pte = true ∧ later = m.store pgtab (vpn % 1024) (pte &&& (2 ^ 32 - 1 - pteU)) := by
  unfold clearpteu at ran
  rw [walk_look, (pdx_ptx (show vpn < 1048576 by omega)).1,
    (pdx_ptx (show vpn < 1048576 by omega)).2] at ran
  cases found : m.tableAt pgdir (vpn / 1024) with
  | none =>
    rw [found] at ran
    cases ran
  | some pgtab =>
    rw [found] at ran
    have slot : vpn % 1024 < 1024 := Nat.mod_lt _ (by decide)
    have whole : vpn / 1024 * 1024 + vpn % 1024 = vpn := by omega
    have before := entry_of_table found slot
    rw [whole, stored] at before
    split at before
    · rename_i shown
      cases before
      cases ran
      exact ⟨pgtab, rfl, rfl, shown, rfl⟩
    · cases before

/-- The entries after `clearpteu`. -/
theorem clearpteu_entries (owned : Owned layout m live held own) {pgdir vpn pte : Nat}
    (alive : live pgdir) (below : vpn < 524288) (stored : m.entry pgdir vpn = some pte)
    (ran : m.clearpteu pgdir (vpn * pgsize) = .ok later) {other : Nat} (inside : other < 1048576) :
    later.entry pgdir other =
      if other = vpn then some (pte &&& (2 ^ 32 - 1 - pteU)) else m.entry pgdir other := by
  obtain ⟨pgtab, found, rfl, shown, rfl⟩ := clearpteu_store below stored ran
  have slot : vpn % 1024 < 1024 := Nat.mod_lt _ (by decide)
  have whole : vpn / 1024 * 1024 + vpn % 1024 = vpn := by omega
  obtain ⟨sameBit, -, -, fits⟩ := clear_user (word_lt m pgtab (vpn % 1024))
  rw [owned.entry_store alive (by omega) found slot fits alive inside, whole, sameBit, shown]
  simp

/-- `clearpteu` on a mapped page takes it out of the reach of user code. -/
theorem clearpteu_spec (owned : Owned layout m live held own) {pgdir vpn pte : Nat}
    (alive : live pgdir) (below : vpn < 524288) (stored : m.entry pgdir vpn = some pte)
    (ran : m.clearpteu pgdir (vpn * pgsize) = .ok later) :
    Owned layout later live held own ∧ Keeps pgdir m own later own ∧
      later.denied = m.denied ∧ later.torn = m.torn ∧
      (∀ other, other < 1048576 → (later.entry pgdir other).isSome = (m.entry pgdir other).isSome) ∧
      ∃ hidden, later.entry pgdir vpn = some hidden ∧ userBit hidden = false := by
  have entries : ∀ other, other < 1048576 → later.entry pgdir other =
      if other = vpn then some (pte &&& (2 ^ 32 - 1 - pteU)) else m.entry pgdir other :=
    fun _ inside => clearpteu_entries owned alive below stored ran inside
  obtain ⟨pgtab, found, rfl, shown, rfl⟩ := clearpteu_store below stored ran
  obtain ⟨sameBit, samePage, hidden, fits⟩ := clear_user (word_lt m pgtab (vpn % 1024))
  have slot : vpn % 1024 < 1024 := Nat.mod_lt _ (by decide)
  have isTable := owned.table_own alive (by omega) found
  refine ⟨owned.reflag alive found slot (by omega) fits sameBit samePage,
    (Keeps.refl pgdir m own).store isTable _ _, rfl, rfl, fun other inside => ?_, _, ?_, hidden⟩
  · rw [entries other inside]
    by_cases here : other = vpn
    · simp [here, stored]
    · simp [here]
  · rw [entries vpn (by omega), if_pos rfl]

/-- A process is as complete for its size as for the size rounded up to pages. -/
theorem complete_pgroundup {pgdir sz : Nat} (top : sz ≤ kernbase) :
    Complete m pgdir (pgroundup sz) ↔ Complete m pgdir sz := by
  refine forall_congr' fun vpn => forall_congr' fun _ => iff_congr Iff.rfl ?_
  rw [(pgroundup_eq top).1, pgsize_eq]
  omega

/-- Where the stack goes: two pages from the next page boundary on. -/
theorem stackTop_eq {sz : Nat} (top : sz < kernbase) :
    stackTop (pgroundup sz) = pgroundup sz + 8192 ∧ pgroundup sz % 4096 = 0 := by
  simp only [stackTop, pgroundup, pgsize_eq, kernbase_eq] at *
  omega

/-- What a stage of `exec` keeps while it builds the new directory. -/
structure Built (layout : Layout) (live : Nat → Prop) (held : β → Option Nat) (pgdir : Nat)
    (m : Vm) (own : Places β) (result : Option Nat) (later : Vm) : Prop where
  stage : ∃ next, Owned layout later live held next ∧ Keeps pgdir m own later next ∧
    Accounted layout m own later next
  size : ∀ sz, result = some sz → sz < kernbase ∧ Complete later pgdir sz

/-! ## The segments -/

/-- The tables of a directory that grew page after page. -/
theorem Vm.Lacks.grow {pgdir sz top : Nat} (lacks : Lacks m pgdir (lacking sz))
    (filling : Filling m later pgdir (tablesOf ((sz + 4095) / 4096)
      ((top + 4095) / 4096 - (sz + 4095) / 4096))) : Lacks later pgdir (lacking (max sz top)) := by
  intro index inside
  rw [filling index (by omega), ← lacks index inside]
  simp only [lacking, decide_eq_true_eq]
  constructor
  · intro beyond
    refine ⟨by omega, ?_⟩
    rintro ⟨page, low, high, rfl⟩
    omega
  · rintro ⟨beyond, outside⟩
    by_contra within
    exact outside ⟨index * 1024, beyond, by omega, by omega⟩

end Xv6
