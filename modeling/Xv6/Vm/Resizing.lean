import Xv6.Vm.Freeing
import Xv6.Vm.UserMemory

/-!
# Growing an address space and taking the growth back

`allocuvm` maps new pages from the first page above the old size on. When it runs out
of memory it has `deallocuvm` free what it mapped. Whether a page table was denied on
the way or not, the pages below are not touched; and the pages that were mapped are all
found again, provided that the loop of `deallocuvm` does not jump over some of them. It
cannot when the table of its first page exists, or that page is the first of a table.
Otherwise the table is the first thing that `allocuvm` asks for, and as long as nobody
else frees memory meanwhile nothing more is mapped once it was denied.
-/

namespace Xv6

open Vm

variable {β : Type} {layout : Layout} {m middle later : Vm} {live : Nat → Prop}
  {held : β → Option Nat} {own : Places β}
  {pgdir first va index vpn pa perm newsz size oldsz : Nat} {found : Option (Nat × Nat)}
  {mapped : Bool}

/-- The loop of `deallocuvm` cannot jump over a page when it starts here. -/
def Anchored (m : Vm) (pgdir first : Nat) : Prop :=
  first % 1024 = 0 ∨ (m.tableAt pgdir (first / 1024)).isSome

/-- The allocator fails only when the free list is empty. -/
def Alone (m : Vm) : Prop := ∀ tick, m.refuse tick = false

/-- No user page is mapped at or above a size. -/
def Bounded (m : Vm) (pgdir sz : Nat) : Prop :=
  ∀ vpn, vpn < 524288 → sz ≤ vpn * pgsize → m.entry pgdir vpn = none

/-- From such a page on nothing is passed over. -/
theorem Anchored.not_passed (anchored : Anchored m pgdir first) (oldsz : Nat) :
    ¬ PassedOver m pgdir first oldsz := by
  rintro ⟨vpn, above, -, -, early, missing⟩
  rcases anchored with aligned | found
  · omega
  · rw [missing (first / 1024) (Nat.le_refl _) (by omega)] at found
    cases found

/-! ## Page tables come and are not taken away -/

/-- A walk that creates a table keeps the others. -/
theorem walk_tables (owned : Owned layout m live held own) (alive : live pgdir)
    (result : m.walkpgdir pgdir va true = (found, later)) (here : (m.tableAt pgdir index).isSome) :
    (later.tableAt pgdir index).isSome := by
  cases walk_cases result with
  | found => exact here
  | @denied taken _ asked =>
    have same : taken.tableAt pgdir index = m.tableAt pgdir index :=
      tableAt_of_dir (congrFun (owned.kalloc_none asked).1 pgdir) index
    rw [← same] at here
    exact here
  | @made pgtab taken _ asked =>
    obtain ⟨isFree, pages, -⟩ := owned.kalloc_some asked
    have differ : pgdir ≠ pgtab := by
      rintro rfl
      exact owned.not_live_of_free isFree alive
    rw [Owned.tableAt_attach (pdx_lt va) (owned.managed isFree)]
    split
    · rfl
    · have same : (taken.zero pgtab).page pgdir = m.page pgdir := by
        rw [Vm.zero, page_setPage_ne _ _ differ, pages]
      rw [tableAt_of_dir same]
      exact here

/-- Mapping a page keeps the tables. -/
theorem mappages_tables (owned : Owned layout m live held own) (alive : live pgdir)
    (below : vpn < 1048576)
    (result : m.mappages pgdir (vpn * pgsize) pgsize pa perm = .ok (mapped, later))
    (here : (m.tableAt pgdir index).isSome) : (later.tableAt pgdir index).isSome := by
  cases mappages_cases below result with
  | denied walked => exact walk_tables owned alive walked here
  | @stored pgtab place walker walked =>
    have differ : pgdir ≠ pgtab := by
      rintro rfl
      rcases walk_table owned alive walked with isFree | isTable
      · exact owned.not_live_of_free isFree alive
      · rw [(owned.dir pgdir).mpr alive] at isTable
        cases isTable
    have same : (walker.store pgtab place (mkPte pa perm)).page pgdir = walker.page pgdir :=
      page_setPage_ne _ _ differ
    rw [tableAt_of_dir same]
    exact walk_tables owned alive walked here

/-- Without others the allocator fails when no page is free, and then again. -/
theorem kalloc_exhausted {found : Option Nat} (result : m.kalloc = (found, later))
    (alone : Alone m) : Alone later ∧ (found = none ↔ m.freelist = 0) ∧
      (found = none → later.freelist = 0) := by
  unfold kalloc at result
  simp only [alone m.tick, Bool.false_or, beq_iff_eq] at result
  split at result
  · rename_i empty
    cases result
    exact ⟨alone, by simp [empty], fun _ => empty⟩
  · rename_i filled
    cases result
    exact ⟨alone, by simp [filled], by rintro ⟨⟩⟩

/-- So does a walk. -/
theorem walk_exhausted (result : m.walkpgdir pgdir va true = (found, later)) (alone : Alone m) :
    Alone later ∧ (found = none → later.freelist = 0) := by
  cases walk_cases result with
  | found => exact ⟨alone, by rintro ⟨⟩⟩
  | denied _ asked =>
    obtain ⟨still, -, empty⟩ := kalloc_exhausted asked alone
    exact ⟨still, fun _ => empty rfl⟩
  | made _ asked => exact ⟨(kalloc_exhausted asked alone).1, by rintro ⟨⟩⟩

/-- And so does mapping a page. -/
theorem mappages_exhausted (below : vpn < 1048576)
    (result : m.mappages pgdir (vpn * pgsize) pgsize pa perm = .ok (mapped, later))
    (alone : Alone m) : Alone later ∧ (mapped = false → later.freelist = 0) := by
  cases mappages_cases below result with
  | denied walked =>
    obtain ⟨still, empty⟩ := walk_exhausted walked alone
    exact ⟨still, fun _ => empty rfl⟩
  | stored walked => exact ⟨(walk_exhausted walked alone).1, by rintro ⟨⟩⟩

/-! ## The loop of `allocuvm` -/

/-- What `allocuvm` does to the pages below the first new one, and what it leaves mapped
above. -/
structure Resized (pgdir first newsz size : Nat) (m later : Vm) : Prop where
  below : ∀ vpn, vpn < first → vpn < 524288 → later.entry pgdir vpn = m.entry pgdir vpn
  contents : Retains pgdir (fun vpn => vpn < first ∧ vpn < 524288) m later
  sizes : size = newsz ∨ size = 0
  grown : size = newsz → Bounded later pgdir newsz
  failed : size ≠ newsz → ∀ vpn, first ≤ vpn → vpn < 524288 → later.entry pgdir vpn = none

/-- Rounds compose. -/
theorem Resized.step
    (entries : ∀ vpn, vpn < first → vpn < 524288 → middle.entry pgdir vpn = m.entry pgdir vpn)
    (contents : Retains pgdir (· < 524288) m middle)
    (rest : Resized pgdir first newsz size middle later) :
    Resized pgdir first newsz size m later where
  below := fun vpn low user => (rest.below vpn low user).trans (entries vpn low user)
  contents := (contents.mono fun _ here => here.2).trans rest.contents
  sizes := rest.sizes
  grown := rest.grown
  failed := rest.failed

/-- Pages that were mapped up to the failure are all freed. -/
theorem Resized.rollback (owned : Owned layout m live held own) (alive : live pgdir)
    (top : newsz < kernbase) (order : oldsz < newsz) (inside : vpn * pgsize < newsz)
    (vacant : ∀ other, vpn ≤ other → other < 524288 → m.entry pgdir other = none)
    (reached : ¬ PassedOver m pgdir (pgroundup oldsz / pgsize) newsz) :
    ∃ later, m.deallocuvm layout pgdir newsz oldsz = .ok (oldsz, later) ∧
      Resized pgdir (pgroundup oldsz / pgsize) newsz 0 m later := by
  obtain ⟨later, result, ran⟩ := deallocuvm_loop owned alive order top.le
  refine ⟨later, result, ?_⟩
  generalize pgroundup oldsz / pgsize = first at ran reached ⊢
  have released := deallocLoop_released owned alive top.le ran
  have frees := FreesRange.of_loop owned alive top.le ran reached
  have unvisited : ∀ {other}, other < first → ¬ Visited m pgdir first newsz other :=
    fun low visited => absurd visited.1 (Nat.not_le.mpr low)
  refine ⟨?_, ?_, Or.inr rfl, ?_, ?_⟩
  · exact fun other low user => released.entries other (by omega) (unvisited low)
  · exact released.contents.mono fun other here => ⟨here.2, unvisited here.1⟩
  · intro same
    omega
  · intro _ other above user
    by_cases within : other * pgsize < newsz
    · exact frees.cleared other above within
    · have beyond : vpn ≤ other := by
        by_contra low
        exact within ((Nat.mul_le_mul_right pgsize (by omega)).trans_lt inside)
      rw [frees.others pgdir other alive (by omega) fun here => within here.2.2]
      exact vacant other beyond user

/-- No page can be passed over when memory runs out: the loop is anchored, or nothing was
mapped yet and nothing will be, because no page is free. -/
def Steady (m : Vm) (pgdir first vpn : Nat) : Prop :=
  Anchored m pgdir first ∨ Alone m ∧ (vpn = first ∨ m.freelist = 0) ∧
    ∀ other, first ≤ other → other < 524288 → m.entry pgdir other = none

theorem Steady.not_passed (steady : Steady m pgdir first vpn) (top : newsz < kernbase) :
    ¬ PassedOver m pgdir first newsz := by
  rcases steady with anchored | ⟨-, -, vacant⟩
  · exact anchored.not_passed newsz
  · rintro ⟨other, above, below, mapped, -⟩
    rw [vacant other above (user_page top.le below)] at mapped
    cases mapped

/-- A round leaves the loop steady. -/
theorem Steady.round (owned : Owned layout m live held own) {page : Nat} {taken : Vm}
    (alive : live pgdir) (below : vpn < 524288) (started : first ≤ vpn)
    (asked : m.kalloc = (some page, taken))
    (result : (taken.zero page).mappages pgdir (vpn * pgsize) pgsize (page * pgsize)
      (pteW ||| pteU) = .ok (mapped, later))
    (steady : Steady m pgdir first vpn) : Steady later pgdir first (vpn + 1) := by
  obtain ⟨-, filled, sameTables⟩ := page_asked owned alive asked Bytes.zero
  have kept : ∀ {index}, (m.tableAt pgdir index).isSome → (later.tableAt pgdir index).isSome := by
    intro index here
    apply mappages_tables filled alive (by omega) result
    rw [sameTables]
    exact here
  obtain ⟨-, next, -, -, -, success, failure⟩ :=
    grow_page owned alive below asked (by decide) _ result
  rcases steady with anchored | ⟨alone, nothing, vacant⟩
  · exact Or.inl (anchored.imp_right kept)
  · obtain ⟨taking, empty, -⟩ := kalloc_exhausted asked alone
    have here : vpn = first := nothing.resolve_right fun none => Option.some_ne_none _ (empty.mpr none)
    subst here
    have stillAlone : Alone (taken.zero page) := taking
    obtain ⟨last, exhausted⟩ := mappages_exhausted (by omega) result stillAlone
    cases mapped with
    | true =>
      refine Or.inl (Or.inr (tableAt_of_entry ?_))
      rw [(success rfl).2 vpn (by omega), if_pos rfl]
      rfl
    | false =>
      refine Or.inr ⟨last, Or.inr (exhausted rfl), fun other above user => ?_⟩
      rw [(failure rfl).2.2 other (by omega)]
      exact vacant other above user

/-- The loop of `allocuvm` from a page on. -/
theorem AllocRun.resized (alive : live pgdir) (top : newsz < kernbase) (order : oldsz < newsz)
    (run : AllocRun layout pgdir oldsz newsz vpn m size later) :
    ∀ {own : Places β}, pgroundup oldsz / pgsize ≤ vpn →
      (∀ other, other < vpn → other * pgsize < newsz) → Owned layout m live held own →
      (∀ other, vpn ≤ other → other < 524288 → m.entry pgdir other = none) →
      Steady m pgdir (pgroundup oldsz / pgsize) vpn →
      Resized pgdir (pgroundup oldsz / pgsize) newsz size m later := by
  induction run with
  | done =>
    intro own _ reached _ vacant _
    refine ⟨fun _ _ _ => rfl, Retains.refl _ _ _, Or.inl rfl, fun _ other user beyond => ?_,
      fun impossible => absurd rfl impossible⟩
    apply vacant other _ user
    by_contra low
    exact absurd (reached other (by omega)) (Nat.not_lt.mpr beyond)
  | @rollback _ _ _ taken _ inside asked undone =>
    intro own _ _ owned vacant steady
    obtain ⟨pages, -, -, still⟩ := owned.kalloc_none asked
    have entries := entry_of_page pages
    have unpassed : ¬ PassedOver taken pgdir (pgroundup oldsz / pgsize) newsz := by
      simp only [PassedOver, entries, tableAt_of_page pages]
      exact steady.not_passed top
    obtain ⟨after, rolled, resized⟩ := Resized.rollback still alive top order inside
      (by simpa only [entries] using vacant) unpassed
    cases rolled.symm.trans undone
    apply Resized.step _ (Retains.of_page pages) resized
    simp only [entries, implies_true]
  | @page vpn _ _ m _ _ middle _ mapped inside asked mapping isMiddle _ ih =>
    intro own started reached owned vacant steady
    have bound := user_page top.le inside
    obtain ⟨next, growing, -, -, success, failure⟩ :=
      grow_round owned alive bound asked mapping isMiddle
    obtain ⟨retains, -⟩ := grow_retains owned alive bound asked (by decide) _ mapping
    have further := Steady.round owned alive bound started asked mapping steady
    have others : ∀ other, other < 524288 → other ≠ vpn →
        middle.entry pgdir other = m.entry pgdir other := by
      intro other user differ
      cases mapped with
      | true => rw [(success rfl).2 other (by omega), if_neg differ]
      | false => rw [(failure rfl).2 other (by omega)]
    have rest := ih (by omega)
      (fun other low => (Nat.mul_le_mul_right pgsize (by omega)).trans_lt inside) growing
      (fun other above user => by
        rw [others other user (by omega)]
        exact vacant other (by omega) user)
    apply Resized.step (fun other low user => others other user (by omega)) _ (rest _)
    -- The count of lost pages is not looked at.
    all_goals
      subst isMiddle
      cases mapped
    · exact retains
    · exact retains
    · exact further
    · exact further

/-- Growing an address space that has nothing above its size. -/
theorem allocuvm_resized (owned : Owned layout m live held own) (alive : live pgdir)
    (top : newsz < kernbase) (order : oldsz < newsz) (bounded : Bounded m pgdir oldsz)
    (steady : Anchored m pgdir (pgroundup oldsz / pgsize) ∨ Alone m) :
    ∃ size later, m.allocuvm layout pgdir oldsz newsz = .ok (size, later) ∧
      Resized pgdir (pgroundup oldsz / pgsize) newsz size m later := by
  have start := (pgroundup_eq (order.le.trans top.le)).1
  have whole : pgroundup oldsz / pgsize = (oldsz + 4095) / 4096 := by
    rw [start, Nat.mul_div_cancel _ (show 0 < pgsize by decide)]
  have vacant : ∀ other, pgroundup oldsz / pgsize ≤ other → other < 524288 →
      m.entry pgdir other = none := by
    intro other above user
    rw [whole, page_ge_iff] at above
    exact bounded other user (Nat.not_lt.mp above)
  have reached : ∀ other, other < pgroundup oldsz / pgsize → other * pgsize < newsz := by
    intro other low
    have short : other * pgsize < oldsz := by
      by_contra beyond
      rw [← page_ge_iff, ← whole] at beyond
      omega
    omega
  obtain ⟨size, later, ran⟩ : ∃ size later, allocLoop layout m pgdir oldsz newsz
      (pgroundup oldsz / pgsize * pgsize) = .ok (size, later) :=
    allocLoop_ok alive top owned vacant
  refine ⟨size, later, ?_, ?_⟩
  · rw [whole, ← start] at ran
    rw [allocuvm, if_neg (by omega), if_neg (by omega), ran]
  · exact (allocLoop_run ran).resized alive top order le_rfl reached owned vacant
      (steady.imp_right fun alone => ⟨alone, Or.inl rfl, vacant⟩)

end Xv6
