import Xv6.Proc.Isolation

/-!
# No page is lost

Every page that `freerange` handed out at boot has an owner in every state of a run
whose steps are lossless. What the condition excludes are failures of `kalloc` for
a page table: `setupkvm` returns without giving back the directory it has begun,
and `copyuvm` and `allocuvm` forget the page that they could not map.
-/

namespace Xv6

open Vm

namespace Kernel

variable {layout : Layout} {k : Kernel} {own : Places Holder}

/-- A page that has a place in the map of the invariant has an owner. -/
theorem Sane.owner (sane : Sane layout k own) {page : Nat} (placed : own page ≠ none) :
    ∃ owner, k.Owns page owner := by
  cases here : own page with
  | none => exact absurd here placed
  | some place =>
    cases place with
    | free =>
      obtain ⟨pages, -, positions, free⟩ := sane.freeAt
      obtain ⟨position, found⟩ := List.getElem?_of_mem ((free page).mp here)
      exact ⟨.free position, (positions position).trans found⟩
    | dir =>
      rcases (sane.owned.dir page).mp here with isKernel | ⟨p, isDir⟩
      · exact ⟨.kernelDir, isKernel.symm⟩
      · exact ⟨.dir p, isDir⟩
    | table pgdir index => exact ⟨.table pgdir index, (sane.owned.table _ _ _).mp here⟩
    | user pgdir vpn => exact ⟨.user pgdir vpn, (sane.owned.user _ _ _).mp here⟩
    | other holder =>
      have holds := (sane.owned.other page holder).mp here
      cases holder with
      | kstack p =>
        rw [held, Option.ite_none_right_eq_some] at holds
        exact ⟨.kstack p, holds.1, Option.some.inj holds.2⟩
      | cpu i => exact ⟨.cpu i, holds⟩
      | pipe buffer =>
        rw [held, Option.ite_none_right_eq_some] at holds
        exact ⟨.pipe, Option.some.inj holds.2 ▸ holds.1⟩

/-- In every state of a run of lossless steps every page of the allocator has an
owner. -/
theorem no_page_lost {ncpu : Nat} {page : Nat → Page} {initcode : List UInt8} {first : Kernel}
    {steps : List Step} (booted : main layout ncpu page initcode (fun _ => false) = .ok first)
    (lossless : Runs.Meets (step layout) Lossless first steps)
    (ran : first.run layout steps = some k) :
    ∀ page, layout.Managed page → ∃ owner, k.Owns page owner := by
  obtain ⟨owners, sane, whole⟩ := main_spec booted
  obtain ⟨own, sane, all⟩ := run_lossless ⟨owners, sane, (whole rfl).2⟩ lossless ran
  exact fun page managed => sane.owner (all page managed)

/-- The first process grows by a page. -/
theorem no_page_lost_first_growth : ∃ first k,
    main sampleLayout 2 (fun _ => Bytes.zero) [] (fun _ => false) = .ok first ∧
    first.run sampleLayout [⟨0, .sbrk 4096, fun _ => false⟩] = some k ∧
    (∀ page, sampleLayout.Managed page → ∃ owner, k.Owns page owner) ∧
    (k.proc 0).sz = 2 * pgsize := by
  obtain ⟨first, k, booted, -, served, ran, grown⟩ := first_growth
  have lossless : Runs.Meets (step sampleLayout) Lossless first [⟨0, .sbrk 4096, fun _ => false⟩] :=
    ⟨⟨trivial, by simp [served]⟩, fun _ _ => trivial⟩
  exact ⟨first, k, booted, ran, no_page_lost booted lossless ran, grown⟩

end Kernel

/-! ## A directory that is given up -/

/-- When the directory is allocated and its first page table is not, the directory is
lost. -/
theorem setupkvm_lost {β : Type} {layout : Layout} {m : Vm} {live : Nat → Prop}
    {held : β → Option Nat} {own : Places β} (owned : Owned layout m live held own)
    (given : m.free ≠ 0) (refused : m.refuse m.tick = false ∧ m.refuse (m.tick + 1) = true)
    (other : Nat) : ∃ later next, m.setupkvm layout = .ok (none, later) ∧
      Owned layout later live held next ∧ Keeps other m own later next ∧
      ∃ page, layout.Managed page ∧ next page = none := by
  obtain ⟨answer, later, ran⟩ := setupkvm_ok owned
  have foreseen : m.foresee setupRequests = some .table := by
    simp [Vm.foresee, setupRequests, forecast, refused.1, refused.2, given, List.replicate]
  obtain ⟨rfl, -⟩ := (setupkvm_asked owned ran).1.leaked foreseen
  obtain ⟨-, next, final, keeps, account⟩ := setupkvm_none owned ran other
  refine ⟨later, next, ran, final, keeps, account.lost ?_⟩
  obtain ⟨asked, -⟩ | ⟨pgdir, taken, _ | _, asked, mapping, ⟨⟩⟩ := setupkvmFor_cases ran
  · have served : m.foresee [.page] = none := by
      simp [Vm.foresee, forecast, refused.1, given]
    exact absurd rfl ((kalloc_asked owned asked .page).served served).1
  · obtain ⟨-, -, _, -, -, -, -, -, more⟩ := setupkvm_rows owned layout.dataAddress asked mapping
    rw [more rfl]
    exact Nat.succ_ne_self _

/-- A program without segments. -/
def emptyImage : Image := [0x7F, 0x45, 0x4C, 0x46] ++ List.replicate 48 0

namespace Kernel

/-- The first process runs a program while the second call of `kalloc` fails: a page
has no owner any more. -/
theorem directory_lost : ∃ first k page,
    main sampleLayout 2 (fun _ => Bytes.zero) [] (fun _ => false) = .ok first ∧
    first.run sampleLayout [⟨0, .exec (some emptyImage) [], (· == 1)⟩] = some k ∧
    sampleLayout.Managed page ∧ ∀ owner, ¬ k.Owns page owner := by
  obtain ⟨first, booted, -, state, -, -, many⟩ := main_ok sampleLayout 2 (fun _ => Bytes.zero) []
    (by decide) (by decide)
  obtain ⟨own, sane, -⟩ := main_spec booted
  obtain ⟨started, -⟩ := sane.enter (· == 1)
  have given : (first.enter (· == 1)).vm.free ≠ 0 := by
    rw [show (first.enter (· == 1)).vm.free = first.vm.free from rfl]
    omega
  obtain ⟨vm, next, setting, final, keeps, page, managed, lost⟩ :=
    setupkvm_lost started.owned given ⟨rfl, rfl⟩ 0
  have taken : first.step sampleLayout ⟨0, .exec (some emptyImage) [], (· == 1)⟩ =
      .ok (some { first.enter (· == 1) with vm }) := by
    have valid : programOf (some emptyImage) = some (emptyImage, elfhdr emptyImage) := rfl
    rw [step, if_pos ⟨by decide, state⟩]
    simp only [call, exec, valid, setting, bind, Except.bind]
  refine ⟨first, _, page, booted, Runs.run_cons.mpr ⟨_, taken, rfl⟩, managed, fun owner owns => ?_⟩
  have placed := (started.of_keeps keeps final).place owns
  rw [lost] at placed
  cases placed

end Kernel

end Xv6
