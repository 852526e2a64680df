import Xv6.Vm.KernelMap

/-!
# What the pages of an address space hold

The functions of `vm.c` that work on a directory touch pages of the free list, the
directory and its tables, and the pages that they map or free themselves. So the
user pages that stay mapped hold what they held: `Retains` says so for a set of
virtual pages, and composes. A page that is mapped holds what it was filled with.
-/

namespace Xv6

open Vm Function

variable {β : Type} {layout : Layout} {m middle later : Vm} {live : Nat → Prop}
  {held : β → Option Nat} {own : Places β} {vpn va page pa perm : Nat} {mapped : Bool}

/-- The virtual pages of a set that are mapped stay mapped as they are, and their
contents are the same. -/
def Retains (pgdir : Nat) (kept : Nat → Prop) (m later : Vm) : Prop :=
  ∀ vpn pte, kept vpn → m.entry pgdir vpn = some pte →
    later.entry pgdir vpn = some pte ∧ later.page (frame pte) = m.page (frame pte)

namespace Retains

variable {pgdir : Nat} {kept fewer : Nat → Prop}

theorem refl (pgdir : Nat) (kept : Nat → Prop) (m : Vm) : Retains pgdir kept m m :=
  fun _ _ _ stored => ⟨stored, rfl⟩

theorem trans (first : Retains pgdir kept m middle) (second : Retains pgdir kept middle later) :
    Retains pgdir kept m later := by
  intro vpn pte here stored
  obtain ⟨still, same⟩ := first vpn pte here stored
  obtain ⟨last, sameAgain⟩ := second vpn pte here still
  exact ⟨last, sameAgain.trans same⟩

theorem mono (retains : Retains pgdir kept m later) (less : ∀ vpn, fewer vpn → kept vpn) :
    Retains pgdir fewer m later :=
  fun vpn pte here stored => retains vpn pte (less vpn here) stored

/-- Only the pages count. -/
theorem of_page (same : later.page = m.page) : Retains pgdir kept m later := by
  intro vpn pte _ stored
  rw [entry_of_page same, same]
  exact ⟨stored, rfl⟩

end Retains

/-- The pages that work on a directory leaves alone: those that are not free, and
neither the directory nor one of its tables. -/
def Apart (own : Places β) (pgdir page : Nat) : Prop :=
  own page ≠ some .free ∧ page ≠ pgdir ∧ ∀ index, own page ≠ some (.table pgdir index)

/-- The user pages of a directory are such pages. -/
theorem Owned.apart_user (owned : Owned layout m live held own) {pgdir pte : Nat}
    (alive : live pgdir) (below : vpn < 524288) (stored : m.entry pgdir vpn = some pte) :
    own (frame pte) = some (.user pgdir vpn) ∧ Apart own pgdir (frame pte) := by
  have mine : own (frame pte) = some (.user pgdir vpn) :=
    (owned.user _ _ _).mpr ⟨alive, below, pte, stored, rfl⟩
  have isDir := (owned.dir pgdir).mpr alive
  refine ⟨mine, by simp [mine], ?_, by simp [mine]⟩
  rintro same
  rw [same, isDir] at mine
  cases mine

/-! ## Walking and mapping -/

section

variable (owned : Owned layout m live held own)

include owned

/-- A walk that creates a table touches the directory and a free page. -/
theorem walk_apart {pgdir : Nat} {found : Option (Nat × Nat)}
    (result : m.walkpgdir pgdir va true = (found, later)) (apart : Apart own pgdir page) :
    later.page page = m.page page := by
  cases walk_cases result with
  | found => rfl
  | denied _ asked => exact congrFun (owned.kalloc_none asked).1 page
  | @made pgtab _ _ asked =>
    obtain ⟨isFree, pages, -⟩ := owned.kalloc_some asked
    have differ : page ≠ pgtab := by
      rintro rfl
      exact apart.1 isFree
    rw [Vm.store, page_setPage_ne _ _ apart.2.1, Vm.zero, page_setPage_ne _ _ differ, pages]

/-- The table that a walk finds was the directory's, or was free. -/
theorem walk_table {pgdir pgtab index : Nat}
    (alive : live pgdir) (result : m.walkpgdir pgdir va true = (some (pgtab, index), later)) :
    own pgtab = some .free ∨ own pgtab = some (.table pgdir (pdx va)) := by
  cases walk_cases result with
  | found here => exact Or.inr (owned.table_own alive (pdx_lt va) here)
  | made _ asked => exact Or.inl (owned.kalloc_some asked).1

/-- Mapping a page at a user address touches only the directory, its tables and free
pages. -/
theorem mappages_apart {pgdir : Nat} (alive : live pgdir) (below : vpn < 1048576)
    (result : m.mappages pgdir (vpn * pgsize) pgsize pa perm = .ok (mapped, later))
    (apart : Apart own pgdir page) : later.page page = m.page page := by
  cases mappages_cases below result with
  | denied walked => exact walk_apart owned walked apart
  | @stored pgtab _ _ walked =>
    have differ : page ≠ pgtab := by
      rintro rfl
      rcases walk_table owned alive walked with isFree | isTable
      · exact apart.1 isFree
      · exact apart.2.2 _ isTable
    rw [Vm.store, page_setPage_ne _ _ differ]
    exact walk_apart owned walked apart

/-- Mapping a page leaves the entries of the directory generous. -/
theorem mappages_generous {pgdir : Nat} (alive : live pgdir) (below : vpn < 1048576)
    (result : m.mappages pgdir (vpn * pgsize) pgsize pa perm = .ok (mapped, later))
    (generous : m.Generous pgdir) : later.Generous pgdir := by
  cases mappages_cases below result with
  | denied walked => exact walk_generous owned alive walked generous
  | stored walked => exact round_generous owned alive walked _ generous

/-- A page is mapped only where nothing was. -/
theorem mappages_vacant {pgdir : Nat} (alive : live pgdir) (below : vpn < 1048576)
    (result : m.mappages pgdir (vpn * pgsize) pgsize pa perm = .ok (true, later)) :
    m.entry pgdir vpn = none := by
  cases mappages_cases below result with
  | stored walked absent => exact walk_vacant owned alive below walked absent

/-- A round that takes a page, fills it and maps it. What was mapped stays as it was,
and the new page holds what it was filled with. -/
theorem grow_retains {pgdir : Nat} {taken : Vm}
    (alive : live pgdir) (below : vpn < 524288) (asked : m.kalloc = (some page, taken))
    (small : perm < 4096) (contents : Page)
    (result : (taken.setPage page contents).mappages pgdir (vpn * pgsize) pgsize (page * pgsize)
      perm = .ok (mapped, later)) :
    Retains pgdir (· < 524288) m later ∧ later.page page = contents ∧
      (m.Generous pgdir → later.Generous pgdir) := by
  obtain ⟨isFree, pages, denied, torn, taking⟩ := owned.kalloc_some asked
  have filled : Owned layout (taken.setPage page contents) live held
      (update own page none) :=
    taking.setPage _ (Owned.not_structural_of_none (update_self _ _ _))
  obtain ⟨-, samePage, -⟩ := mappages_user filled alive below (update_self _ _ _)
    (owned.managed isFree) small result
  refine ⟨?_, ?_, ?_⟩
  · intro other pte inUser stored
    obtain ⟨mine, apart⟩ := owned.apart_user alive inUser stored
    have differ : frame pte ≠ page := by
      intro same
      rw [same, isFree] at mine
      cases mine
    constructor
    · obtain ⟨-, next, -, -, -, success, failure⟩ :=
        grow_page owned alive below asked small contents result
      cases mapped with
      | false => rw [(failure rfl).2.2 other (by omega), stored]
      | true =>
        have vacant : other ≠ vpn := by
          rintro rfl
          have none := mappages_vacant filled alive (by omega) result
          rw [entry_taken owned alive asked contents (by omega), stored] at none
          cases none
        rw [(success rfl).2 other (by omega), if_neg vacant, stored]
    · have still : Apart (update own page none) pgdir (frame pte) := by
        simpa only [Apart, update_of_ne differ] using apart
      rw [mappages_apart filled alive (by omega) result still, page_setPage_ne _ _ differ, pages]
  · rw [samePage]
    simp [setPage]
  · intro generous
    have differ : pgdir ≠ page := by
      rintro rfl
      rw [(owned.dir pgdir).mpr alive] at isFree
      cases isFree
    apply mappages_generous filled alive (by omega) result
    apply generous.congr
    rw [page_setPage_ne _ _ differ, pages]

end

end Xv6
