import Xv6.Vm.UserMemory

/-!
# The copy of an address space

`copyuvm` gives the child a page of its own for every page of the parent, with the
parent's bytes and the flags of the parent's entry, below the kernel's part that
`setupkvm` made. Sizes above the user part never get that far: the copy would meet the
kernel's own entries, and `mappages` panics there.

The pages of the two address spaces have different owners, so later stores of one
process do not reach the memory of the other.
-/

namespace Xv6

open Vm

variable {β : Type} {layout : Layout} {m middle later : Vm} {live : Nat → Prop}
  {held : β → Option Nat} {own next : Places β} {pte : Nat}
  {d pgdir vpn sz page copy : Nat}

/-- The flags of a present entry contain the bit that `mappages` adds. -/
theorem flags_present (shown : present pte = true) :
    pteFlags pte ||| 1 = pteFlags pte := by
  apply Nat.eq_of_testBit_eq
  intro bit
  rw [Nat.testBit_or]
  by_cases first : bit = 0
  · subst first
    have low : (pteFlags pte).testBit 0 = true := by
      rw [← testBit_flags pte (by decide)]
      exact shown
    rw [low, Bool.true_or]
  · have clear : Nat.testBit 1 bit = false := by
      rw [Bool.eq_false_iff, Ne, Nat.testBit_one_eq_true_iff_self_eq_zero]
      exact first
    rw [clear, Bool.or_false]

theorem pteFlags_lt (pte : Nat) : pteFlags pte < 4096 := Nat.mod_lt _ (by decide)

/-- Work for another directory leaves the user pages of this one as they are. -/
theorem Keeps.retains (keeps : Keeps d m own later next) (owned : Owned layout m live held own)
    (alive : live pgdir) (apart : pgdir ≠ d) :
    Retains pgdir (· < 524288) m later := by
  intro vpn pte below stored
  have mine := (owned.apart_user alive below stored).1
  constructor
  · rw [keeps.entry owned alive apart (by omega), stored]
  · exact (keeps.foreign _ _ mine (by simp) apart).2

/-- A page of the child: it has the flags and the contents of the parent's. -/
def CopiedPage (m : Vm) (pgdir d : Nat) (later : Vm) (vpn : Nat) : Prop :=
  ∃ pte page, m.entry pgdir vpn = some pte ∧
    later.entry d vpn = some (mkPte (page * pgsize) (pteFlags pte)) ∧
    later.page page = m.page (frame pte)

/-- What the loop of `copyuvm` adds to the child's directory from a page on. -/
structure Duplicated (pgdir d vpn sz : Nat) (m later : Vm) : Prop where
  pages : ∀ other, vpn ≤ other → other * pgsize < sz → CopiedPage m pgdir d later other
  earlier : Retains d (· < 524288) m later
  kernel : ∀ other, 524288 ≤ other → other < 1048576 → later.entry d other = m.entry d other
  generous : m.Generous d → later.Generous d

/-- One page was copied, and the rest after it. -/
theorem Duplicated.cons (top : sz ≤ kernbase) (stored : m.entry pgdir vpn = some pte)
    (below : vpn < 524288)
    (same : ∀ other, other < 524288 → middle.entry pgdir other = m.entry pgdir other)
    (parent : Retains pgdir (· < 524288) m middle)
    (mapped : middle.entry d vpn = some (mkPte (page * pgsize) (pteFlags pte)))
    (filled : middle.page page = m.page (frame pte)) (earlier : Retains d (· < 524288) m middle)
    (kernel : ∀ other, 524288 ≤ other → other < 1048576 → middle.entry d other = m.entry d other)
    (generous : m.Generous d → middle.Generous d)
    (rest : Duplicated pgdir d (vpn + 1) sz middle later) :
    Duplicated pgdir d vpn sz m later where
  pages := by
    intro other above inside
    have inUser := user_page top inside
    by_cases here : other = vpn
    · subst here
      obtain ⟨still, contents⟩ := rest.earlier other _ below mapped
      rw [frame_mkPte (pteFlags_lt pte)] at contents
      exact ⟨pte, page, stored, still, contents.trans filled⟩
    · obtain ⟨pte', page', stored', mapped', filled'⟩ := rest.pages other (by omega) inside
      rw [same other inUser] at stored'
      obtain ⟨-, contents⟩ := parent other pte' inUser stored'
      exact ⟨pte', page', stored', mapped', filled'.trans contents⟩
  earlier := earlier.trans rest.earlier
  kernel := fun other low high => (rest.kernel other low high).trans (kernel other low high)
  generous := fun before => rest.generous (generous before)

/-- One round of the loop: the page is mapped in the child's directory. -/
theorem copy_round (owned : Owned layout m live held own) {taken : Vm} (source : live pgdir)
    (alive : live d) (apart : pgdir ≠ d) (below : vpn < 524288)
    (asked : m.kalloc = (some page, taken))
    (result : (taken.setPage page (taken.page (frame pte))).mappages d (vpn * pgsize) pgsize
      (page * pgsize) (pteFlags pte) = .ok (true, later)) :
    (∃ next, Owned layout later live held next) ∧
      (∀ other, other < 524288 → later.entry pgdir other = m.entry pgdir other) ∧
      Retains pgdir (· < 524288) m later ∧
      later.entry d vpn = some (mkPte (page * pgsize) (pteFlags pte)) ∧
      later.page page = m.page (frame pte) ∧ Retains d (· < 524288) m later ∧
      (∀ other, 524288 ≤ other → other < 1048576 → later.entry d other = m.entry d other) ∧
      (m.Generous d → later.Generous d) := by
  obtain ⟨isFree, pages, -, -, taking⟩ := owned.kalloc_some asked
  obtain ⟨-, next, growing, keeps, -, success, -⟩ :=
    grow_page owned alive below asked (pteFlags_lt pte) _ result
  obtain ⟨retains, filled, generous⟩ :=
    grow_retains owned alive below asked (pteFlags_lt pte) _ result
  have entries := (success rfl).2
  refine ⟨⟨next, growing⟩, fun other bound => ?_, keeps.retains owned source apart, ?_, ?_,
    retains, fun other low high => ?_, generous⟩
  · exact keeps.entry owned source apart (by omega)
  · rw [entries vpn (by omega), if_pos rfl]
  · rw [filled, pages]
  · rw [entries other high, if_neg (by omega)]

/-- A loop that succeeds has copied all pages from its start on. -/
theorem CopyRun.duplicates (source : live pgdir) (alive : live d) (apart : pgdir ≠ d)
    (top : sz ≤ kernbase) (run : CopyRun layout pgdir sz d vpn m (some copy) later) :
    ∀ {own : Places β}, Owned layout m live held own →
      Duplicated pgdir d vpn sz m later := by
  generalize isResult : some copy = result at run
  induction run with
  | done outside =>
    intro own owned
    refine ⟨fun other above inside => ?_, Retains.refl _ _ _, fun _ _ _ => rfl, id⟩
    exact absurd ((Nat.mul_le_mul_right pgsize above).trans_lt inside) outside
  | full => cases isResult
  | denied => cases isResult
  | page inside stored asked mapping _ ih =>
    intro own owned
    have bound := user_page top inside
    obtain ⟨⟨next, growing⟩, same, parent, mapped, filled, earlier, kernel, generous⟩ :=
      copy_round owned source alive apart bound asked mapping
    exact Duplicated.cons top (stored (by omega)) bound same parent mapped filled earlier kernel
      generous (ih isResult growing)

/-- A copy that is to go beyond the user part does not succeed: the first kernel page is
mapped already. -/
theorem CopyRun.user (alive : live d) (large : kernbase < sz)
    (run : CopyRun layout pgdir sz d vpn m (some copy) later) :
    ∀ {own : Places β}, vpn ≤ 524288 → Owned layout m live held own →
      ¬ (m.entry d 524288).isSome := by
  simp only [kernbase_eq] at large
  generalize isResult : some copy = result at run
  induction run with
  | done outside =>
    intro own low
    simp only [pgsize_eq] at outside
    omega
  | full => cases isResult
  | denied => cases isResult
  | @page vpn pte page _ taken _ _ _ _ _ asked mapping _ ih =>
    intro own low owned kernel
    by_cases first : vpn = 524288
    · subst first
      obtain ⟨-, -, -, -, taking⟩ := owned.kalloc_some asked
      have filled := taking.setPage (taken.page (frame pte))
        (Owned.not_structural_of_none (Function.update_self page none own))
      have vacant := mappages_vacant filled alive (by decide) mapping
      rw [entry_taken owned alive asked _ (by decide)] at vacant
      rw [vacant] at kernel
      cases kernel
    · obtain ⟨-, next, growing, -, -, success, -⟩ :=
        grow_page owned alive (by omega) asked (pteFlags_lt pte) _ mapping
      apply ih isResult (by omega) growing
      rw [(success rfl).2 524288 (by decide), if_neg (by omega)]
      exact kernel

/-! ## Parent and child -/

/-- What `setupkvm` and the loop leave behind when `copyuvm` succeeds. -/
theorem copyuvm_duplicates (owned : Owned layout m live held own) (alive : live pgdir)
    (ran : m.copyuvm layout pgdir sz = .ok (some d, later)) :
    sz ≤ kernbase ∧ pgdir ≠ d ∧ ∃ fresh, m.setupkvm layout = .ok (some d, fresh) ∧
      fresh.Generous d ∧ Retains pgdir (· < 524288) m fresh ∧
      (∀ vpn, vpn < 524288 → fresh.entry pgdir vpn = m.entry pgdir vpn) ∧
      Duplicated pgdir d 0 sz fresh later := by
  obtain ⟨⟨answer, fresh⟩, setup, copying⟩ := Except.of_bind_ok ran
  cases answer with
  | none => cases copying
  | some copy =>
    obtain ⟨isFree, -, -, between, building, keeps, -, -, direct⟩ := setupkvm_some owned setup
    have apart : pgdir ≠ copy := by
      rintro rfl
      exact owned.not_live_of_free isFree alive
    have run := copyLoop_start copying
    have top : sz ≤ kernbase := by
      by_contra large
      obtain ⟨pte, stored, -⟩ := direct 0 (by decide)
      exact run.user (Or.inr rfl) (by omega) (by omega) building
        (Option.isSome_iff_exists.mpr ⟨pte, stored⟩)
    have copied := run.spec (Or.inr rfl) top (fun impossible => absurd impossible (lt_irrefl 0))
      building
    obtain ⟨rfl, -⟩ := copied.done d rfl
    refine ⟨top, apart, fresh, setup, (setupkvm_entries owned layout.dataAddress setup).1,
      keeps.retains owned alive apart, fun vpn below => ?_, ?_⟩
    · exact keeps.entry owned alive apart (by omega)
    · exact run.duplicates (Or.inl alive) (Or.inr rfl) apart top building

/-- A process that is copied has a twin: a successful `copyuvm` gives every address below
the size a translation in the child, with the flags and the byte that the parent has
there, in physical pages that the parent does not have; stores of the two processes, in
any order, leave each what its own stores make of it; and the kernel's part is the one
that `setupkvm` built. -/
theorem copyuvm_copies_space (owned : Owned layout m live held own) {pgdir sz d : Nat}
    (alive : live pgdir) (ran : m.copyuvm layout pgdir sz = .ok (some d, later)) :
    (∀ va, va < sz → ∃ pte copy, m.entry pgdir (va / pgsize) = some pte ∧
      later.entry d (va / pgsize) = some copy ∧ pteFlags copy = pteFlags pte ∧
      later.translate d va =
        some ⟨frame copy * pgsize + va % pgsize, writeBit copy, userBit copy⟩ ∧
      later.load d va = m.load pgdir va ∧ later.load pgdir va = m.load pgdir va) ∧
    (∀ va va' pte copy, va < sz → va' < sz → later.entry pgdir (va / pgsize) = some pte →
      later.entry d (va' / pgsize) = some copy → frame pte ≠ frame copy) ∧
    (∀ writes : List Write, (∀ w ∈ writes, w.pgdir = pgdir ∨ w.pgdir = d) → ∀ va, va < sz →
      (later.writeAll writes).load pgdir va =
        (later.writeAll (writes.filter fun w => w.pgdir = pgdir)).load pgdir va ∧
      (later.writeAll writes).load d va =
        (later.writeAll (writes.filter fun w => w.pgdir = d)).load d va) ∧
    ∃ fresh, m.setupkvm layout = .ok (some d, fresh) ∧ ∀ va, kernbase ≤ va → va < 2 ^ 32 →
      later.translate d va = fresh.translate d va := by
  obtain ⟨top, apart, fresh, setup, generous, parent, same, copied⟩ :=
    copyuvm_duplicates owned alive ran
  obtain ⟨-, -, -, next, final, keeps, -, -⟩ := copyuvm_some owned top ran
  have laterGenerous := copied.generous generous
  have small : ∀ {va}, va < sz → va < 2 ^ 32 ∧ va / pgsize < 524288 ∧ va / pgsize * pgsize < sz := by
    intro va below
    simp only [kernbase_eq, pgsize_eq] at top ⊢
    omega
  refine ⟨?_, ?_, ?_, fresh, setup, ?_⟩
  · intro va below
    obtain ⟨inside, inUser, page⟩ := small below
    obtain ⟨pte, copy, stored, mapped, filled⟩ := copied.pages _ (Nat.zero_le _) page
    rw [same _ inUser] at stored
    have contents := (parent _ pte inUser stored).2
    have isFrame : frame (mkPte (copy * pgsize) (pteFlags pte)) = copy :=
      frame_mkPte (pteFlags_lt pte)
    obtain ⟨-, -, -, -, shown⟩ := walk_mapped (by omega) stored
    refine ⟨pte, _, stored, mapped, ?_, ?_, ?_, ?_⟩
    · rw [pteFlags_mkPte (pteFlags_lt pte), flags_present shown]
    · rw [translate_eq laterGenerous inside, mapped, Option.map_some]
    · rw [load_eq inside, load_eq inside, mapped, stored, Option.map_some, Option.map_some, isFrame,
        filled, contents]
    · apply (keeps.retains owned alive apart).load inside inUser
      rw [stored]
      rfl
  · intro va va' pte copy below below' stored mapped sameFrame
    have mine := (final.apart_user (Or.inl alive) (small below).2.1 stored).1
    have childs := (final.apart_user (Or.inr rfl) (small below').2.1 mapped).1
    rw [sameFrame, childs] at mine
    simp only [Option.some.injEq, Place.user.injEq] at mine
    exact apart mine.1.symm
  · intro writes both va below
    have all : ∀ w ∈ writes, live w.pgdir ∨ w.pgdir = d := by
      intro w member
      rcases both w member with isParent | isChild
      · exact Or.inl (isParent ▸ alive)
      · exact Or.inr isChild
    have inUser : va < kernbase := by omega
    exact ⟨load_writeAll final (Or.inl alive) inUser writes all,
      load_writeAll final (Or.inr rfl) inUser writes all⟩
  · intro va above inside
    have low : 524288 ≤ va / pgsize := by
      simp only [kernbase_eq, pgsize_eq] at above ⊢
      omega
    rw [translate_eq laterGenerous inside, translate_eq generous inside,
      copied.kernel _ low (pdx_ptx_page inside).2.2]

/-- A machine with an address space of one page, and plenty of free pages. -/
theorem one_page_space : ∃ (m : Vm) (pgdir : Nat) (own : Places Empty),
    Owned smallestLayout m (fun other => False ∨ other = pgdir) (fun _ => none) own ∧
      Complete m pgdir pgsize ∧ 100 ≤ m.free ∧ m.refuse = fun _ => false := by
  obtain ⟨bare, own, nothing, count, willing⟩ := spare_pages 200 (by decide)
  obtain ⟨pgdir, fresh, setup, served⟩ := setupkvm_served nothing (by omega) willing
  obtain ⟨-, -, -, between, building, -, -, empty, -⟩ := setupkvm_some nothing setup
  have blank : Complete fresh pgdir 0 := by
    intro vpn below
    simp [empty vpn below]
  have lacks : Lacks fresh pgdir fun index => index < 512 := fun index inside =>
    iff_of_true (by simpa using inside) (((setupkvm_asked nothing setup).2 pgdir rfl index
      (by omega)).mpr (kernelTable_user inside))
  obtain ⟨size, m, grow⟩ := allocuvm_ok building (Or.inr rfl) blank pgsize
  have plenty : fresh.foresee (allocRequests (fun index => index < 512) 0 pgsize) = none := by
    rw [Vm.foresee, served.refuse, willing, served.free, count]
    exact forecast_none (by decide)
  obtain ⟨⟨isSize, -⟩, last⟩ := (allocuvm_asked building (Or.inr rfl) lacks grow).served plenty
  obtain ⟨next, final, -, -, -, complete⟩ := allocuvm_spec building (Or.inr rfl) grow
  have whole : size = pgsize := isSize.trans (by decide)
  subst whole
  have left : m.free = 200 - 65 - 2 := by
    rw [last.free, served.free, count]
    rfl
  refine ⟨m, pgdir, next, final, (complete last.torn blank).1 (by decide), by omega, ?_⟩
  rw [last.refuse, served.refuse, willing]

/-- An address space of one page is copied. -/
theorem copyuvm_copies_space_page : ∃ (m later : Vm) (pgdir d : Nat),
    m.copyuvm smallestLayout pgdir pgsize = .ok (some d, later) ∧
      ∀ va, va < pgsize → (later.translate d va).isSome ∧ later.load d va = m.load pgdir va := by
  obtain ⟨m, pgdir, own, owned, complete, plenty, willing⟩ := one_page_space
  have top : pgsize ≤ kernbase := by decide
  obtain ⟨result, later, ran⟩ := copyuvm_ok owned (Or.inr rfl) top fun vpn below =>
    (complete vpn (user_page top below)).mpr below
  have served : m.foresee (copyRequests pgsize) = none := by
    rw [Vm.foresee, willing]
    exact forecast_none (le_trans (by decide) plenty)
  cases result with
  | none => exact absurd rfl ((copyuvm_asked owned top ran).served served).1
  | some d =>
    obtain ⟨copies, -⟩ := copyuvm_copies_space owned (Or.inr rfl) ran
    refine ⟨m, later, pgdir, d, ran, fun va below => ?_⟩
    obtain ⟨pte, copy, -, -, -, translated, same, -⟩ := copies va below
    exact ⟨by rw [translated]; rfl, same⟩

end Xv6
