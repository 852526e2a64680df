import Xv6.Vm.UserMemory

/-!
# Pages that are added

When `allocuvm` succeeds and no page table was denied to it, every page of the new range
is mapped for the user.

When a page table is denied the loop goes on all the same: the page is lost, and nothing
is mapped at its address.
-/

namespace Xv6

open Vm

variable {β : Type} {layout : Layout} {m middle later : Vm} {live : Nat → Prop}
  {held : β → Option Nat} {own : Places β}

/-- The pages of a range are open to the user, and those below it are as they were. -/
structure Extended (pgdir first newsz : Nat) (m later : Vm) : Prop where
  mapped : ∀ vpn, first ≤ vpn → vpn * pgsize < newsz →
    ∃ pte, later.entry pgdir vpn = some pte ∧ userBit pte = true
  below : ∀ vpn, vpn < first → vpn < 1048576 → later.entry pgdir vpn = m.entry pgdir vpn

namespace Extended

variable {pgdir first newsz : Nat}

/-- Nothing to add. -/
theorem stop (outside : ¬ first * pgsize < newsz) : Extended pgdir first newsz m m where
  mapped := by
    intro vpn above below
    exact absurd ((Nat.mul_le_mul_right pgsize above).trans_lt below) outside
  below := fun _ _ _ => rfl

/-- One page is added, and then the rest. -/
theorem cons {pte : Nat} (bound : first < 1048576) (stored : middle.entry pgdir first = some pte)
    (user : userBit pte = true)
    (entries : ∀ vpn, vpn < 1048576 → vpn ≠ first → middle.entry pgdir vpn = m.entry pgdir vpn)
    (rest : Extended pgdir (first + 1) newsz middle later) :
    Extended pgdir first newsz m later := by
  constructor
  · intro vpn above below
    by_cases here : vpn = first
    · subst here
      exact ⟨pte, (rest.below vpn (by omega) bound).trans stored, user⟩
    · exact rest.mapped vpn (by omega) below
  · intro vpn low inside
    rw [rest.below vpn (by omega) inside, entries vpn inside (by omega)]

end Extended

/-- The loop of `allocuvm` from a page on, when it does not run out of memory. -/
theorem AllocRun.extends {pgdir oldsz newsz size vpn : Nat} (alive : live pgdir)
    (top : newsz < kernbase) (success : size ≠ 0)
    (run : AllocRun layout pgdir oldsz newsz vpn m size later) :
    ∀ {own : Places β}, Owned layout m live held own →
      size = newsz ∧ m.torn ≤ later.torn ∧
        (later.torn = m.torn → Extended pgdir vpn newsz m later) := by
  induction run with
  | done outside => exact fun _ => ⟨rfl, le_rfl, fun _ => Extended.stop outside⟩
  | rollback => exact absurd rfl success
  | @page vpn page _ _ _ _ _ _ mapped inside asked mapping isMiddle _ ih =>
    intro own owned
    have bound := user_page top.le inside
    obtain ⟨next, growing, -, -, added, lost⟩ :=
      grow_round owned alive bound asked mapping isMiddle
    obtain ⟨isSize, more, rest⟩ := ih success growing
    cases mapped with
    | false =>
      have torn := (lost rfl).1
      exact ⟨isSize, by omega, fun same => by omega⟩
    | true =>
      obtain ⟨torn, entries⟩ := added rfl
      refine ⟨isSize, torn ▸ more, fun same => ?_⟩
      have stored := entries vpn (by omega)
      rw [if_pos rfl] at stored
      refine Extended.cons (by omega) stored ?_ (fun other inTable differ => ?_)
        (rest (same.trans torn.symm))
      · rw [userBit_mkPte]
        decide
      · rw [entries other inTable, if_neg differ]

/-- Growing an address space to a size that it does not have. -/
theorem allocuvm_extends (owned : Owned layout m live held own) {pgdir oldsz newsz size : Nat}
    (alive : live pgdir) (success : size ≠ 0) (quiet : later.torn = m.torn)
    (result : m.allocuvm layout pgdir oldsz newsz = .ok (size, later)) :
    newsz < kernbase ∧ (newsz < oldsz ∧ size = oldsz ∧ later = m ∨
      oldsz ≤ newsz ∧ size = newsz ∧ Extended pgdir ((oldsz + 4095) / 4096) newsz m later) := by
  unfold allocuvm at result
  split at result
  · cases result
    exact absurd rfl success
  · rename_i low
    have top : newsz < kernbase := Nat.not_le.mp low
    refine ⟨top, ?_⟩
    split at result
    · rename_i shorter
      cases result
      exact Or.inl ⟨shorter, rfl, rfl⟩
    · rename_i longer
      have order : oldsz ≤ newsz := Nat.not_lt.mp longer
      rw [(pgroundup_eq (order.trans top.le)).1] at result
      obtain ⟨isSize, -, extended⟩ :=
        (allocLoop_run result).extends alive top success owned
      exact Or.inr ⟨order, isSize, extended quiet⟩

/-! ## A page that is lost -/

/-- A missing page table that cannot be allocated. -/
theorem walk_denied {pgdir va : Nat} (missing : m.tableAt pgdir (pdx va) = none)
    (refused : m.refuse m.tick = true) : m.walkpgdir pgdir va true =
      (none, { m with tick := m.tick + 1, denied := m.denied + 1 }) := by
  have absent : present (m.word pgdir (pdx va)) = false := by
    by_contra shown
    simp [tableAt, shown] at missing
  simp [walkpgdir, absent, kalloc, refused]

/-- A round of `allocuvm` that gets a page and no table for it. -/
theorem allocLoop_torn (owned : Owned layout m live held own) {pgdir vpn : Nat}
    (alive : live pgdir) (below : vpn < 524288)
    (missing : m.tableAt pgdir (vpn / 1024) = none) (given : m.free ≠ 0)
    (refused : m.refuse m.tick = false ∧ m.refuse (m.tick + 1) = true) : ∃ torn : Vm,
      (∀ vpn, vpn < 1048576 → torn.entry pgdir vpn = m.entry pgdir vpn) ∧
      ∀ oldsz newsz, vpn * pgsize < newsz →
        allocLoop layout m pgdir oldsz newsz (vpn * pgsize) =
          allocLoop layout torn pgdir oldsz newsz ((vpn + 1) * pgsize) := by
  have served : m.foresee [.page] = none := by
    simp [Vm.foresee, forecast, refused.1, given]
  rcases asked : m.kalloc with ⟨_ | mem, taken⟩
  · exact absurd rfl ((kalloc_asked owned asked .page).served served).1
  obtain ⟨-, taking⟩ := (kalloc_asked owned asked .page).served served
  obtain ⟨-, filled, sameTables⟩ := page_asked owned alive asked Bytes.zero
  obtain ⟨lost, isLost⟩ : ∃ lost, lost = taken.setPage mem Bytes.zero := ⟨_, rfl⟩
  have absent : lost.tableAt pgdir (pdx (vpn * pgsize)) = none := by
    rw [(pdx_ptx (show vpn < 1048576 by omega)).1, isLost, sameTables]
    exact missing
  have again : lost.refuse lost.tick = true := by
    rw [isLost]
    exact (congr taking.refuse taking.tick).trans refused.2
  have mapping : lost.mappages pgdir (vpn * pgsize) pgsize (mem * pgsize) (pteW ||| pteU) =
      .ok (false, { lost with tick := lost.tick + 1, denied := lost.denied + 1 }) := by
    rw [mappages_page (by omega), walk_denied absent again]
  rw [isLost] at mapping
  obtain ⟨-, _, -, -, -, -, failure⟩ := grow_page owned alive below asked (by decide) _ mapping
  refine ⟨{ lost with tick := lost.tick + 1, denied := lost.denied + 1, torn := lost.torn + 1 },
    ?_, fun oldsz newsz inside => ?_⟩
  · rw [isLost]
    exact (failure rfl).2.2
  · rw [allocLoop, if_pos inside, asked, isLost]
    simp only [zero, mapping, page_bytes]
    rfl

end Xv6
