import Xv6.Vm.Mapping

/-!
# Growing, shrinking, copying and freeing address spaces

Specifications of `deallocuvm`, `freevm`, `allocuvm` and `copyuvm` on top of the
ownership map: which user pages are mapped afterwards, that only pages of the
directory at hand change owner, and which pages are lost when a page table is
denied half way.
-/

namespace Xv6

open Vm Function List

variable {β : Type} {layout : Layout} {m middle later : Vm} {live : Nat → Prop}
  {held : β → Option Nat} {own between next : Places β}
  {page pgdir vpn sz oldsz first newsz size : Nat} {taken : Vm} {mapped : Bool}

theorem kfree_ok (result : m.kfree layout page = .ok later) :
    later = m.push page ∧ layout.Managed page := by
  unfold kfree at result
  split at result
  · rename_i managed
    exact ⟨(Except.ok.inj result).symm, managed⟩
  · cases result

namespace Keeps

/-- One of the directory's own pages is freed and the entry for it cleared. -/
theorem free_user (owned : Owned layout m live held own) {index pgtab slot : Nat}
    (alive : live pgdir) (found : m.tableAt pgdir index = some pgtab) (bound : slot < 1024)
    (below : index * 1024 + slot < 524288) (shown : present (m.word pgtab slot) = true) :
    Keeps pgdir m own ((m.push (frame (m.word pgtab slot))).store pgtab slot 0)
      (update own (frame (m.word pgtab slot)) (some .free)) := by
  have isUser := owned.user_frame alive found bound below shown
  have isTable := owned.table_own alive (by omega) found
  refine ⟨fun page here => ?_, fun page place here _ foreign => ?_, le_rfl, le_rfl⟩
  · have apart : page ≠ frame (m.word pgtab slot) := by
      rintro rfl
      simp [isUser] at here
    have notTable : page ≠ pgtab := by
      rintro rfl
      simp [isTable] at here
    rw [update_of_ne apart, Vm.store, page_setPage_ne _ _ notTable]
    exact ⟨here, page_push_ne m apart⟩
  · have apart : page ≠ frame (m.word pgtab slot) := by
      rintro rfl
      rw [isUser] at here
      exact foreign (Option.some.inj here ▸ rfl)
    have notTable : page ≠ pgtab := by
      rintro rfl
      rw [isTable] at here
      exact foreign (Option.some.inj here ▸ rfl)
    rw [update_of_ne apart, Vm.store, page_setPage_ne _ _ notTable]
    exact ⟨here, page_push_ne m apart⟩

end Keeps

/-! ## `deallocuvm` -/

/-- The next page. -/
theorem page_bytes (vpn : Nat) : vpn * pgsize + pgsize = (vpn + 1) * pgsize := by
  rw [Nat.add_mul, Nat.one_mul]

/-- The same page of the next table. -/
theorem table_bytes (vpn : Nat) :
    vpn * pgsize + (nptentries - 1) * pgsize + pgsize = (vpn + 1024) * pgsize := by
  simp only [nptentries_eq, pgsize_eq]
  omega

/-- Pages below a size that is no more than `kernbase` are user pages. -/
theorem user_page (top : sz ≤ kernbase) (below : vpn * pgsize < sz) :
    vpn < 524288 := by
  simp only [kernbase_eq, pgsize_eq] at top below
  omega

/-- What the loop of `deallocuvm` does from a page on: it frees pages of its range
only. It frees all of them when it starts at the first page of a table, or in a
table that exists: then a missing table is skipped from its first page on. -/
structure Shrunk (pgdir vpn oldsz : Nat) (m : Vm) (own : Places β) (later : Vm)
    (next : Places β) : Prop where
  keeps : Keeps pgdir m own later next
  kept : ∀ page, next page = none → own page = none
  denied : later.denied = m.denied
  torn : later.torn = m.torn
  tables : ∀ index, later.tableAt pgdir index = m.tableAt pgdir index
  entries : ∀ other, other < 1048576 → later.entry pgdir other = m.entry pgdir other ∨
    vpn ≤ other ∧ other * pgsize < oldsz ∧ later.entry pgdir other = none
  cleared : vpn % 1024 = 0 ∨ (m.tableAt pgdir (vpn / 1024)).isSome → ∀ other, vpn ≤ other →
    other * pgsize < oldsz → later.entry pgdir other = none

/-- Past the end of the range nothing is freed. -/
theorem Shrunk.refl (outside : ¬ vpn * pgsize < oldsz) :
    Shrunk pgdir vpn oldsz m own m own where
  keeps := Keeps.refl _ _ _
  kept := fun _ => id
  denied := rfl
  torn := rfl
  tables := fun _ => rfl
  entries := fun _ _ => Or.inl rfl
  cleared := fun _ _ above below =>
    absurd ((Nat.mul_le_mul_right pgsize above).trans_lt below) outside

/-- A missing table is skipped. -/
theorem Shrunk.skip (top : oldsz ≤ kernbase) (missing : m.tableAt pgdir (vpn / 1024) = none)
    (rest : Shrunk pgdir (vpn + 1024) oldsz m own later next) :
    Shrunk pgdir vpn oldsz m own later next where
  keeps := rest.keeps
  kept := rest.kept
  denied := rest.denied
  torn := rest.torn
  tables := rest.tables
  entries := fun other bound => (rest.entries other bound).imp_right fun gone =>
    ⟨by omega, gone.2⟩
  cleared := by
    rintro (aligned | impossible) other above below
    · have inUser := user_page top below
      by_cases skipped : other < vpn + 1024
      · have sameTable : other / 1024 = vpn / 1024 := by omega
        have absent : m.entry pgdir other = none := by
          simp only [entry, sameTable, missing]
        rcases rest.entries other (by omega) with same | gone
        · rw [same, absent]
        · exact gone.2.2
      · exact rest.cleared (Or.inl (by omega)) other (by omega) below
    · simp [missing] at impossible

/-- One page was passed, after its entry was cleared or found absent. -/
theorem Shrunk.pass (top : oldsz ≤ kernbase) (inside : vpn * pgsize < oldsz)
    (found : (m.tableAt pgdir (vpn / 1024)).isSome) (early : Keeps pgdir m own middle between)
    (kept : ∀ page, between page = none → own page = none) (denied : middle.denied = m.denied)
    (torn : middle.torn = m.torn)
    (tables : ∀ index, middle.tableAt pgdir index = m.tableAt pgdir index)
    (entries : ∀ other, other < 1048576 → middle.entry pgdir other =
      if other = vpn then none else m.entry pgdir other)
    (rest : Shrunk pgdir (vpn + 1) oldsz middle between later next) :
    Shrunk pgdir vpn oldsz m own later next where
  keeps := early.trans rest.keeps
  kept := fun page isLost => kept page (rest.kept page isLost)
  denied := rest.denied.trans denied
  torn := rest.torn.trans torn
  tables := fun index => (rest.tables index).trans (tables index)
  entries := fun other bound => by
    rcases rest.entries other bound with same | gone
    · rw [same, entries other bound]
      by_cases here : other = vpn
      · subst here
        exact Or.inr ⟨le_rfl, inside, by simp⟩
      · exact Or.inl (by simp [here])
    · exact Or.inr ⟨by omega, gone.2⟩
  cleared := fun _ other above below => by
    have inUser := user_page top below
    by_cases here : other = vpn
    · rcases rest.entries other (by omega) with same | gone
      · rw [same, entries other (by omega), if_pos here]
      · exact gone.2.2
    · have nextTable : (vpn + 1) % 1024 = 0 ∨ (vpn + 1) / 1024 = vpn / 1024 := by omega
      refine rest.cleared (nextTable.imp_right fun same => ?_) other (by omega) below
      rw [same, tables]
      exact found

/-- A run of the loop of `deallocuvm` from a page on: a missing table is skipped, a page that
is there is freed, and an absent one passed. -/
inductive DeallocRun (pgdir oldsz : Nat) : (vpn : Nat) → Vm → Vm → Prop
  | done {vpn : Nat} {m : Vm} (outside : ¬ vpn * pgsize < oldsz) : DeallocRun pgdir oldsz vpn m m
  | skip {vpn : Nat} {m later : Vm} (inside : vpn * pgsize < oldsz)
      (missing : m.tableAt pgdir (vpn / 1024) = none)
      (rest : DeallocRun pgdir oldsz (vpn + 1024) m later) : DeallocRun pgdir oldsz vpn m later
  | free {vpn pgtab : Nat} {m later : Vm} (inside : vpn * pgsize < oldsz)
      (found : m.tableAt pgdir (vpn / 1024) = some pgtab)
      (shown : present (m.word pgtab (vpn % 1024)) = true)
      (rest : DeallocRun pgdir oldsz (vpn + 1)
        ((m.push (frame (m.word pgtab (vpn % 1024)))).store pgtab (vpn % 1024) 0) later) :
      DeallocRun pgdir oldsz vpn m later
  | pass {vpn : Nat} {m later : Vm} (inside : vpn * pgsize < oldsz)
      (found : (m.tableAt pgdir (vpn / 1024)).isSome) (absent : m.entry pgdir vpn = none)
      (rest : DeallocRun pgdir oldsz (vpn + 1) m later) : DeallocRun pgdir oldsz vpn m later

/-- Where the map of owners agrees with memory the loop does not panic. -/
theorem deallocLoop_run (alive : live pgdir) (top : oldsz ≤ kernbase)
    (owned : Owned layout m live held own) : ∃ later,
      deallocLoop layout m pgdir (vpn * pgsize) oldsz = .ok later ∧
        DeallocRun pgdir oldsz vpn m later := by
  generalize isRounds : oldsz - vpn * pgsize = rounds
  induction rounds using Nat.strong_induction_on generalizing vpn m own with
  | _ rounds ih =>
    rw [deallocLoop]
    split
    · rename_i inside
      have bound := user_page top inside
      have next : oldsz - (vpn + 1) * pgsize < rounds := by
        simp only [pgsize_eq] at inside isRounds ⊢
        omega
      rw [walk_look, (pdx_ptx (show vpn < 1048576 by omega)).1,
        (pdx_ptx (show vpn < 1048576 by omega)).2]
      cases found : m.tableAt pgdir (vpn / 1024) with
      | none =>
        simp only [Option.map_none, table_bytes]
        obtain ⟨later, ran, rest⟩ := @ih (oldsz - (vpn + 1024) * pgsize) (by
          simp only [pgsize_eq] at inside isRounds ⊢
          omega) m own (vpn + 1024) owned rfl
        exact ⟨later, ran, .skip inside found rest⟩
      | some pgtab =>
        have slot : vpn % 1024 < 1024 := Nat.mod_lt _ (by decide)
        have here := entry_of_table found slot
        rw [Nat.div_add_mod'] at here
        simp only [Option.map_some, page_bytes]
        split
        · rename_i shown
          rw [if_pos shown] at here
          have managed := owned.managed ((owned.user _ _ _).mpr ⟨alive, bound, _, here, rfl⟩)
          have nonzero : frame (m.word pgtab (vpn % 1024)) ≠ 0 := by
            have := managed.pos
            omega
          obtain ⟨freed, -⟩ := owned.free_user alive found slot (by omega) shown
          rw [if_neg nonzero, kfree, if_pos managed]
          obtain ⟨later, ran, rest⟩ := ih _ next freed rfl
          exact ⟨later, ran, .free inside found shown rest⟩
        · rename_i absent
          rw [if_neg absent] at here
          obtain ⟨later, ran, rest⟩ := ih _ next owned rfl
          exact ⟨later, ran, .pass inside (by simp [found]) here rest⟩
    · rename_i outside
      exact ⟨m, rfl, .done outside⟩

theorem DeallocRun.spec (alive : live pgdir) (top : oldsz ≤ kernbase)
    (run : DeallocRun pgdir oldsz vpn m later) :
    ∀ {own : Places β}, Owned layout m live held own →
      ∃ next, Owned layout later live held next ∧ Shrunk pgdir vpn oldsz m own later next := by
  induction run with
  | done outside => exact fun owned => ⟨_, owned, Shrunk.refl outside⟩
  | skip _ missing _ ih =>
    intro own owned
    obtain ⟨next, final, rest⟩ := ih owned
    exact ⟨next, final, rest.skip top missing⟩
  | @free vpn _ _ _ inside found shown _ ih =>
    intro own owned
    have bound := user_page top inside
    have slot : vpn % 1024 < 1024 := Nat.mod_lt _ (by decide)
    obtain ⟨freeing, tables, entries⟩ := owned.free_user alive found slot (by omega) shown
    rw [Nat.div_add_mod'] at entries
    obtain ⟨next, final, rest⟩ := ih freeing
    exact ⟨next, final, rest.pass top inside (by simp [found])
      (Keeps.free_user owned alive found slot (by omega) shown)
      (fun page isLost => (update_eq_none.mp isLost).2) rfl rfl tables entries⟩
  | @pass vpn _ _ inside found absent _ ih =>
    intro own owned
    obtain ⟨next, final, rest⟩ := ih owned
    refine ⟨next, final, rest.pass top inside found (Keeps.refl _ _ _)
      (fun _ => id) rfl rfl (fun _ => rfl) fun other _ => ?_⟩
    by_cases here : other = vpn
    · rw [if_pos here, here, absent]
    · rw [if_neg here]

/-- The loop of `deallocuvm` that came to an end. -/
theorem deallocLoop_spec (owned : Owned layout m live held own) (alive : live pgdir)
    (top : oldsz ≤ kernbase) (result : deallocLoop layout m pgdir (vpn * pgsize) oldsz = .ok later) :

    DeallocRun pgdir oldsz vpn m later ∧ ∃ next, Owned layout later live held next ∧
      Shrunk pgdir vpn oldsz m own later next := by
  obtain ⟨final, ran, run⟩ := deallocLoop_run alive top owned
  cases ran.symm.trans result
  exact ⟨run, run.spec alive top owned⟩

/-! ## `freevm` -/

/-- A directory's table at one of the listed indices. -/
def TableIn (m : Vm) (pgdir : Nat) (indices : List Nat) (page : Nat) : Prop :=
  ∃ index ∈ indices, m.tableAt pgdir index = some page

/-- The loop over the entries of a directory in hand frees its tables. -/
theorem freeTables_spec (indices : List Nat) :
    ∀ {m : Vm} {own : Places β}, Owned layout m live held own →
      own pgdir = none → indices.Nodup →
      (∀ page, TableIn m pgdir indices page → own page = none ∧ page ≠ pgdir) →
      (∀ i ∈ indices, ∀ j ∈ indices, ∀ page, m.tableAt pgdir i = some page →
        m.tableAt pgdir j = some page → i = j) →
      freeTables layout m pgdir indices = .ok later →
      ∃ next, Owned layout later live held next ∧ later.denied = m.denied ∧
        later.torn = m.torn ∧
        (∀ page, TableIn m pgdir indices page → next page = some .free) ∧
        (∀ page, ¬ TableIn m pgdir indices page →
          next page = own page ∧ later.page page = m.page page) := by
  induction indices with
  | nil =>
    intro m own owned _ _ _ _ result
    cases result
    exact ⟨own, owned, rfl, rfl, by simp [TableIn], fun _ _ => ⟨rfl, rfl⟩⟩
  | cons index rest ih =>
    intro m own owned hand nodup tables distinct result
    have fresh := (nodup_cons.mp nodup).1
    have restTables : ∀ page, TableIn m pgdir rest page → own page = none ∧ page ≠ pgdir := by
      rintro page ⟨other, member, found⟩
      exact tables page ⟨other, mem_cons_of_mem _ member, found⟩
    have restDistinct : ∀ i ∈ rest, ∀ j ∈ rest, ∀ page, m.tableAt pgdir i = some page →
        m.tableAt pgdir j = some page → i = j := fun i left j right =>
      distinct i (mem_cons_of_mem _ left) j (mem_cons_of_mem _ right)
    rw [freeTables] at result
    split at result
    · rename_i shown
      have here : m.tableAt pgdir index = some (frame (m.word pgdir index)) := by
        simp [tableAt, shown]
      generalize frame (m.word pgdir index) = pgtab at here result
      obtain ⟨inHand, apart⟩ := tables pgtab ⟨index, by simp, here⟩
      obtain ⟨after, freed, result⟩ := Except.of_bind_ok result
      obtain ⟨rfl, managed⟩ := kfree_ok freed
      have pushed := owned.push inHand managed
      have sameDir : (m.push pgtab).tableAt pgdir = m.tableAt pgdir := by
        funext place
        simp only [tableAt, word_congr (page_push_ne m (Ne.symm apart))]
      have differ : ∀ page, TableIn m pgdir rest page → page ≠ pgtab := by
        rintro page ⟨other, member, found⟩ rfl
        have same := distinct index (by simp) other (mem_cons_of_mem _ member) page here found
        exact fresh (same ▸ member)
      obtain ⟨next, final, denied, torn, freedTables, kept⟩ :=
        ih pushed (by rwa [update_of_ne (Ne.symm apart)])
          (nodup_cons.mp nodup).2
          (by
            intro page isTable
            simp only [TableIn, sameDir] at isTable
            have before := restTables page isTable
            exact ⟨by rw [update_of_ne (differ page isTable)]; exact before.1, before.2⟩)
          (by rw [sameDir]; exact restDistinct) result
      simp only [TableIn, sameDir] at freedTables kept
      refine ⟨next, final, denied, torn, ?_, ?_⟩
      · rintro page ⟨other, member, found⟩
        rcases mem_cons.mp member with rfl | member
        · obtain rfl : pgtab = page := Option.some.inj (here.symm.trans found)
          rw [(kept pgtab fun isTable => differ pgtab isTable rfl).1, update_self]
        · exact freedTables page ⟨other, member, found⟩
      · intro page outside
        have notHere : page ≠ pgtab := by
          rintro rfl
          exact outside ⟨index, by simp, here⟩
        have notLater : ¬ TableIn m pgdir rest page := by
          rintro ⟨other, member, found⟩
          exact outside ⟨other, mem_cons_of_mem _ member, found⟩
        have later := kept page notLater
        rw [update_of_ne notHere, page_push_ne m notHere] at later
        exact later
    · rename_i absent
      obtain ⟨next, final, denied, torn, freedTables, kept⟩ :=
        ih owned hand (nodup_cons.mp nodup).2 restTables restDistinct result
      have split : ∀ page, TableIn m pgdir (index :: rest) page ↔ TableIn m pgdir rest page := by
        intro page
        constructor
        · rintro ⟨other, member, found⟩
          rcases mem_cons.mp member with rfl | member
          · simp [tableAt, absent] at found
          · exact ⟨other, member, found⟩
        · rintro ⟨other, member, found⟩
          exact ⟨other, mem_cons_of_mem _ member, found⟩
      simp only [split]
      exact ⟨next, final, denied, torn, freedTables, kept⟩

/-- A directory without user pages is taken apart: its tables and its own page go to
the free list. -/
theorem release_tables (owned : Owned layout m live held own) (alive : live pgdir)
    (empty : ∀ vpn, vpn < 524288 → m.entry pgdir vpn = none)
    (ran : m.freeTables layout pgdir (List.range npdentries) = .ok middle)
    (last : middle.kfree layout pgdir = .ok later) :
    ∃ next, Owned layout later (fun other => live other ∧ other ≠ pgdir) held next ∧
      Keeps pgdir m own later next ∧ (∀ page, next page = none → own page = none) ∧
      later.denied = m.denied ∧ later.torn = m.torn := by
  have isDir := (owned.dir pgdir).mpr alive
  have tables : ∀ page, TableIn m pgdir (List.range npdentries) page →
      ∃ index, own page = some (.table pgdir index) := by
    rintro page ⟨index, member, found⟩
    exact ⟨index, owned.table_own alive (mem_range.mp member) found⟩
  have notDir : ¬ TableIn m pgdir (List.range npdentries) pgdir := by
    intro isTable
    obtain ⟨index, place⟩ := tables pgdir isTable
    simp [isDir] at place
  have dirHand : Xv6.discard own pgdir pgdir = none := by simp [Xv6.discard, isDir, Belongs]
  obtain ⟨between, freeing, denied, torn, freed, kept⟩ :=
    freeTables_spec (List.range npdentries) (owned.discard pgdir) dirHand nodup_range
      (by
        intro page isTable
        obtain ⟨index, place⟩ := tables page isTable
        refine ⟨by simp [Xv6.discard, place, Belongs], ?_⟩
        rintro rfl
        exact notDir isTable)
      (by
        intro i left j right page first second
        have one := owned.table_own alive (mem_range.mp left) first
        have two := owned.table_own alive (mem_range.mp right) second
        rw [one] at two
        simpa using two) ran
  obtain ⟨rfl, managed⟩ := kfree_ok last
  have pushed := freeing.push ((kept pgdir notDir).1.trans dirHand) managed
  have elsewhere : ∀ page, page ≠ pgdir → ¬ TableIn m pgdir (List.range npdentries) page →
      update between pgdir (some .free) page = Xv6.discard own pgdir page ∧
        (middle.push pgdir).page page = m.page page := by
    intro page apart outside
    rw [update_of_ne apart, page_push_ne _ apart]
    exact kept page outside
  refine ⟨_, pushed, ⟨?_, ?_, denied.ge, torn.ge⟩, ?_, denied, torn⟩
  · intro page here
    have outside : ¬ TableIn m pgdir (List.range npdentries) page := by
      intro isTable
      obtain ⟨index, place⟩ := tables page isTable
      simp [here] at place
    have apart : page ≠ pgdir := by
      rintro rfl
      simp [isDir] at here
    have same := elsewhere page apart outside
    exact ⟨by simp [same.1, Xv6.discard, here], same.2⟩
  · intro page place here used foreign
    have outside : ¬ TableIn m pgdir (List.range npdentries) page := by
      intro isTable
      obtain ⟨index, isPlace⟩ := tables page isTable
      rw [isPlace] at here
      exact foreign (Option.some.inj here ▸ rfl)
    have apart : page ≠ pgdir := by
      rintro rfl
      rw [isDir] at here
      exact foreign (Option.some.inj here ▸ rfl)
    have same := elsewhere page apart outside
    exact ⟨same.1.trans (discard_eq_some.mpr ⟨here, foreign⟩), same.2⟩
  · intro page isLost
    obtain ⟨apart, absent⟩ := update_eq_none.mp isLost
    have outside : ¬ TableIn m pgdir (List.range npdentries) page := by
      intro isTable
      simp [freed page isTable] at absent
    rw [(kept page outside).1] at absent
    cases here : own page with
    | none => rfl
    | some place =>
      have mine : Belongs pgdir page place := by
        by_contra foreign
        rw [discard_eq_some.mpr ⟨here, foreign⟩] at absent
        cases absent
      exfalso
      cases place with
      | dir => exact apart mine
      | table owner index =>
        obtain ⟨-, inside, found⟩ := (owned.table _ _ _).mp here
        exact outside ⟨index, mem_range.mpr inside, mine ▸ found⟩
      | user owner vpn =>
        obtain ⟨-, below, pte, stored, -⟩ := (owned.user _ _ _).mp here
        rw [show owner = pgdir from mine, empty vpn below] at stored
        cases stored
      | _ => exact mine

/-- `freevm` takes the directory out of use and frees all its pages. -/
theorem freevm_spec (owned : Owned layout m live held own) (alive : live pgdir)
    (result : m.freevm layout pgdir = .ok later) :
    ∃ next, Owned layout later (fun other => live other ∧ other ≠ pgdir) held next ∧
      Keeps pgdir m own later next ∧ (∀ page, next page = none → own page = none) ∧
      later.denied = m.denied ∧ later.torn = m.torn := by
  unfold freevm deallocuvm at result
  rw [if_neg (by decide), show pgroundup 0 = 0 * pgsize from rfl] at result
  obtain ⟨⟨_, first⟩, shrinks, result⟩ := Except.of_bind_ok result
  obtain ⟨_, shrink, ⟨⟩⟩ := Except.of_bind_ok shrinks
  obtain ⟨-, between, shrinking, shrunk⟩ := deallocLoop_spec owned alive le_rfl shrink
  have empty : ∀ vpn, vpn < 524288 → first.entry pgdir vpn = none := by
    intro vpn below
    refine shrunk.cleared (Or.inl rfl) vpn (Nat.zero_le _) ?_
    simp only [pgsize_eq, kernbase_eq]
    omega
  obtain ⟨second, ran, result⟩ := Except.of_bind_ok result
  obtain ⟨next, final, keeps, kept, denied, torn⟩ :=
    release_tables shrinking alive empty ran result
  exact ⟨next, final, shrunk.keeps.trans keeps,
    fun page isLost => shrunk.kept page (kept page isLost),
    denied.trans shrunk.denied, torn.trans shrunk.torn⟩

/-! ## `allocuvm` -/

/-- Filling a page that was just allocated changes no entry. -/
theorem entry_taken (owned : Owned layout m live held own) (alive : live pgdir)
    (asked : m.kalloc = (some page, taken)) (contents : Page) (inside : vpn < 1048576) :
    (taken.setPage page contents).entry pgdir vpn = m.entry pgdir vpn := by
  obtain ⟨isFree, pages, -⟩ := owned.kalloc_some asked
  have elsewhere : ∀ {other}, own other ≠ some .free →
      (taken.setPage page contents).page other = m.page other := by
    intro other used
    rw [page_setPage_ne, pages]
    rintro rfl
    exact used isFree
  refine owned.entry_congr alive (elsewhere ?_) (fun table index isTable => elsewhere ?_) inside
  · rw [(owned.dir pgdir).mpr alive]
    simp
  · rw [isTable]
    simp

/-- One round of the loop: a page is taken and mapped, or lost with a table that was
denied. -/
theorem grow_page (owned : Owned layout m live held own) {perm : Nat} (alive : live pgdir)
    (below : vpn < 524288) (asked : m.kalloc = (some page, taken)) (small : perm < 4096)
    (contents : Page)
    (result : (taken.setPage page contents).mappages pgdir (vpn * pgsize) pgsize (page * pgsize)
      perm = .ok (mapped, later)) :
    later.torn = m.torn ∧ ∃ next, Owned layout later live held next ∧
      Keeps pgdir m own later next ∧ Accounted layout m own later next ∧
      (mapped = true → later.denied = m.denied ∧ ∀ other, other < 1048576 →
        later.entry pgdir other =
          if other = vpn then some (mkPte (page * pgsize) perm) else m.entry pgdir other) ∧
      (mapped = false → later.denied = m.denied + 1 ∧ next page = none ∧
        ∀ other, other < 1048576 → later.entry pgdir other = m.entry pgdir other) := by
  obtain ⟨isFree, pages, denied, torn, taking⟩ := owned.kalloc_some asked
  have filled : Owned layout (taken.setPage page contents) live held
      (update own page none) :=
    taking.setPage _ (Owned.not_structural_of_none (update_self _ _ _))
  have elsewhere : ∀ other, other ≠ page →
      (taken.setPage page contents).page other = m.page other := by
    intro other apart
    rw [page_setPage_ne _ _ apart, pages]
  obtain ⟨sameTorn, -, next, final, keeps, noLoss, success, failure⟩ :=
    mappages_user filled alive below (update_self _ _ _) (owned.managed isFree) small
      result
  rw [update_idem] at keeps
  refine ⟨sameTorn.trans torn, next, final, keeps.after_kalloc isFree elsewhere denied torn,
    ⟨?_, ?_⟩, ?_, ?_⟩
  · intro quiet other isLost
    cases mapped with
    | true =>
      have placed := (success rfl).2.1
      have apart : other ≠ page := by
        rintro rfl
        simp [placed] at isLost
      have before := noLoss other isLost
      rwa [update_of_ne apart] at before
    | false =>
      have more := (failure rfl).1.trans (congrArg (· + 1) denied)
      exact absurd (quiet.symm.trans more) (by simp)
  · intro changed
    cases mapped with
    | true => exact absurd ((success rfl).1.trans denied) changed
    | false => exact ⟨page, owned.managed isFree, (failure rfl).2.1⟩
  · intro isMapped
    obtain ⟨quiet, -, stored⟩ := success isMapped
    refine ⟨quiet.trans denied, fun other bound => ?_⟩
    rw [stored other bound, entry_taken owned alive asked contents bound]
  · intro isDenied
    obtain ⟨more, lost, same⟩ := failure isDenied
    refine ⟨more.trans (congrArg (· + 1) denied), lost, fun other bound => ?_⟩
    rw [same other bound, entry_taken owned alive asked contents bound]

/-- The size of a growing process, in whole pages. -/
theorem pgroundup_eq (below : sz ≤ kernbase) :
    pgroundup sz = (sz + 4095) / 4096 * pgsize ∧ sz ≤ pgroundup sz := by
  simp only [pgroundup, pgsize_eq, kernbase_eq] at *
  omega

/-- What `allocuvm` leaves mapped when none of its pages could not be mapped: the
pages of the new range as well, or on failure exactly what was mapped before. -/
structure Grown (pgdir first newsz size : Nat) (base : Nat → Prop) (later : Vm) : Prop where
  grown : size = newsz → ∀ vpn, vpn < 524288 →
    ((later.entry pgdir vpn).isSome ↔ base vpn ∨ first ≤ vpn ∧ vpn * pgsize < newsz)
  failed : size ≠ newsz → size = 0 ∧ ∀ vpn, vpn < 524288 →
    ((later.entry pgdir vpn).isSome ↔ base vpn)

/-- A page with an entry has a table. -/
theorem tableAt_of_entry (mapped : (m.entry pgdir vpn).isSome) :
    (m.tableAt pgdir (vpn / 1024)).isSome := by
  unfold entry at mapped
  cases found : m.tableAt pgdir (vpn / 1024) with
  | none => simp [found] at mapped
  | some pgtab => rfl

/-- When memory runs out the pages mapped so far are freed again. -/
theorem grown_rollback {base : Nat → Prop} (top : newsz < kernbase) (inside : vpn * pgsize < newsz)
    (started : first ≤ vpn) (mapped : ∀ other, other < 524288 →
      ((m.entry pgdir other).isSome ↔ base other ∨ first ≤ other ∧ other < vpn))
    (outside : ∀ other, base other → first ≤ other → newsz ≤ other * pgsize)
    (shrunk : Shrunk pgdir first newsz m own later next) :
    Grown pgdir first newsz 0 base later where
  grown := fun impossible => by omega
  failed := fun _ => by
    refine ⟨rfl, fun other below => ?_⟩
    by_cases within : first ≤ other ∧ other * pgsize < newsz
    · have gone : later.entry pgdir other = none := by
        by_cases any : first < vpn
        · -- The first page of the range is mapped, so its table exists.
          have present := tableAt_of_entry ((mapped first (by
            have := user_page top.le inside
            omega)).mpr (Or.inr ⟨le_rfl, any⟩))
          exact shrunk.cleared (Or.inr present) other within.1 within.2
        · rcases shrunk.entries other (by omega) with same | ⟨-, -, gone⟩
          · rw [same, ← Option.not_isSome_iff_eq_none, mapped other below]
            rintro (isBase | range)
            · have := outside other isBase within.1
              omega
            · omega
          · exact gone
      have notBase : ¬ base other := by
        intro isBase
        have := outside other isBase within.1
        omega
      simp [gone, notBase]
    · have same : later.entry pgdir other = m.entry pgdir other := by
        rcases shrunk.entries other (by omega) with same | ⟨above, below, -⟩
        · exact same
        · exact absurd ⟨above, below⟩ within
      rw [same, mapped other below]
      constructor
      · rintro (isBase | ⟨above, before⟩)
        · exact isBase
        · have := Nat.mul_le_mul_right pgsize before.le
          exact absurd ⟨above, this.trans_lt inside⟩ within
      · exact Or.inl

/-- A run of the loop of `allocuvm` from a page on. -/
inductive AllocRun (layout : Layout) (pgdir oldsz newsz : Nat) :
    (vpn : Nat) → Vm → (size : Nat) → Vm → Prop
  | done {vpn : Nat} {m : Vm} (outside : ¬ vpn * pgsize < newsz) :
      AllocRun layout pgdir oldsz newsz vpn m newsz m
  | rollback {vpn back : Nat} {m taken later : Vm} (inside : vpn * pgsize < newsz)
      (asked : m.kalloc = (none, taken))
      (undone : taken.deallocuvm layout pgdir newsz oldsz = .ok (back, later)) :
      AllocRun layout pgdir oldsz newsz vpn m 0 later
  | page {vpn page size : Nat} {m taken after middle later : Vm} {mapped : Bool}
      (inside : vpn * pgsize < newsz) (asked : m.kalloc = (some page, taken))
      (mapping : (taken.zero page).mappages pgdir (vpn * pgsize) pgsize (page * pgsize)
        (pteW ||| pteU) = .ok (mapped, after))
      (isMiddle : middle = if mapped then after else { after with torn := after.torn + 1 })
      (rest : AllocRun layout pgdir oldsz newsz (vpn + 1) middle size later) :
      AllocRun layout pgdir oldsz newsz vpn m size later

theorem allocLoop_run
    (result : allocLoop layout m pgdir oldsz newsz (vpn * pgsize) = .ok (size, later)) :
    AllocRun layout pgdir oldsz newsz vpn m size later := by
  generalize isA : vpn * pgsize = a at result
  fun_induction allocLoop layout m pgdir oldsz newsz a generalizing vpn with
  | case1 m a inside taken asked =>
    subst isA
    obtain ⟨⟨back, after⟩, undone, ended⟩ := Except.of_bind_ok result
    cases ended
    exact .rollback inside asked undone
  | case2 => cases result
  | case3 m a inside page taken asked mapped after mapping middle =>
    rename_i ih
    subst isA
    exact .page inside asked mapping rfl (ih (page_bytes vpn).symm result)
  | case4 m a outside =>
    subst isA
    cases result
    exact .done outside

/-- A round of the loop: a page is mapped, or lost and counted. -/
theorem grow_round (owned : Owned layout m live held own) {after : Vm} (alive : live pgdir)
    (below : vpn < 524288) (asked : m.kalloc = (some page, taken))
    (mapping : (taken.zero page).mappages pgdir (vpn * pgsize) pgsize (page * pgsize)
      (pteW ||| pteU) = .ok (mapped, after))
    (isMiddle : middle = if mapped then after else { after with torn := after.torn + 1 }) :
    ∃ next, Owned layout middle live held next ∧ Keeps pgdir m own middle next ∧
      Accounted layout m own middle next ∧
      (mapped = true → middle.torn = m.torn ∧ ∀ other, other < 1048576 →
        middle.entry pgdir other = if other = vpn then
          some (mkPte (page * pgsize) (pteW ||| pteU)) else m.entry pgdir other) ∧
      (mapped = false → middle.torn = m.torn + 1 ∧ ∀ other, other < 1048576 →
        middle.entry pgdir other = m.entry pgdir other) := by
  obtain ⟨torn, next, growing, keeps, account, success, failure⟩ :=
    grow_page owned alive below asked (by decide) _ mapping
  subst isMiddle
  cases mapped with
  | true =>
    exact ⟨next, growing, keeps, account, fun _ => ⟨torn, (success rfl).2⟩, by rintro ⟨⟩⟩
  | false =>
    have bump : Keeps pgdir after next { after with torn := after.torn + 1 } next :=
      Keeps.of_pages rfl le_rfl (Nat.le_succ _)
    exact ⟨next, growing.congr (fun _ _ => rfl) rfl rfl, keeps.trans bump,
      ⟨account.kept, account.lost⟩, by rintro ⟨⟩,
      fun _ => ⟨congrArg (· + 1) torn, (failure rfl).2.2⟩⟩

/-- The loop of `allocuvm` from a page on. -/
theorem AllocRun.spec (alive : live pgdir) (top : newsz < kernbase) (order : oldsz ≤ newsz)
    (start : pgroundup oldsz = first * pgsize)
    (run : AllocRun layout pgdir oldsz newsz vpn m size later) :
    ∀ {own : Places β}, first ≤ vpn → (first < vpn → (vpn - 1) * pgsize < newsz) →
      Owned layout m live held own →
      ∃ next, Owned layout later live held next ∧ Keeps pgdir m own later next ∧
        Accounted layout m own later next ∧ (size = newsz ∨ size = 0) ∧
        (later.torn = m.torn → ∀ base : Nat → Prop,
          (∀ other, other < 524288 →
            ((m.entry pgdir other).isSome ↔ base other ∨ first ≤ other ∧ other < vpn)) →
          (∀ other, base other → first ≤ other → newsz ≤ other * pgsize) →
          Grown pgdir first newsz size base later) := by
  induction run with
  | done outside =>
    intro own started reached owned
    refine ⟨own, owned, Keeps.refl _ _ _, Accounted.of_quiet rfl fun _ => id, Or.inl rfl,
      fun _ base mapped _ => ⟨fun _ other below => ?_, fun impossible => absurd rfl impossible⟩⟩
    rw [mapped other below]
    refine or_congr_right (and_congr_right fun above => ⟨fun before => ?_, fun within => ?_⟩)
    · exact (Nat.mul_le_mul_right pgsize (by omega)).trans_lt (reached (by omega))
    · by_contra beyond
      exact outside ((Nat.mul_le_mul_right pgsize (by omega)).trans_lt within)
  | rollback inside asked undone =>
    intro own started reached owned
    obtain ⟨pages, denied, torn, still⟩ := owned.kalloc_none asked
    have longer : ¬ newsz ≤ oldsz := by
      have grown := (pgroundup_eq (order.trans top.le)).2
      rw [start] at grown
      have := Nat.mul_le_mul_right pgsize started
      omega
    rw [deallocuvm, if_neg longer, start] at undone
    obtain ⟨after, shrink, ended⟩ := Except.of_bind_ok undone
    cases ended
    obtain ⟨-, next, final, shrunk⟩ := deallocLoop_spec still alive top.le shrink
    refine ⟨next, final, (Keeps.of_pages pages denied.ge torn.ge).trans shrunk.keeps,
      Accounted.of_quiet (shrunk.denied.trans denied) shrunk.kept, Or.inr rfl,
      fun _ base mapped outside => grown_rollback top inside started ?_ outside shrunk⟩
    rw [entry_of_page pages]
    exact mapped
  | @page vpn _ _ _ _ _ _ _ mapped inside asked mapping isMiddle _ ih =>
    intro own started reached owned
    obtain ⟨between, growing, early, account, success, failure⟩ :=
      grow_round owned alive (user_page top.le inside) asked mapping isMiddle
    obtain ⟨next, final, keeps, rest, sizes, grown⟩ := ih (by omega) (fun _ => inside) growing
    refine ⟨next, final, early.trans keeps, account.trans rest early.denied keeps, sizes,
      fun same base before outside => ?_⟩
    have more := keeps.torn
    cases mapped with
    | true =>
      refine grown (same.trans (success rfl).1.symm) base (fun other below => ?_) outside
      rw [(success rfl).2 other (by omega)]
      by_cases here : other = vpn
      · subst here
        simp [started]
      · rw [if_neg here, before other below]
        refine or_congr_right (and_congr_right fun _ => ?_)
        omega
    | false =>
      have torn := (failure rfl).1
      omega

/-- A directory maps exactly the user pages below a size. -/
def Complete (m : Vm) (pgdir sz : Nat) : Prop :=
  ∀ vpn, vpn < 524288 → ((m.entry pgdir vpn).isSome ↔ vpn * pgsize < sz)

/-- The first page at or above a size. -/
theorem page_ge_iff : (sz + 4095) / 4096 ≤ vpn ↔ ¬ vpn * pgsize < sz := by
  simp only [pgsize_eq]
  omega

/-- `allocuvm` grows the process to the size it returns. On failure, and whenever no
page table was denied to it, the process is as complete as it was. -/
theorem allocuvm_spec (owned : Owned layout m live held own) (alive : live pgdir)
    (result : m.allocuvm layout pgdir oldsz newsz = .ok (size, later)) :
    ∃ next, Owned layout later live held next ∧ Keeps pgdir m own later next ∧
      Accounted layout m own later next ∧
      (size = newsz ∧ oldsz ≤ newsz ∧ newsz < kernbase ∨ size = oldsz ∧ newsz < oldsz ∨
        size = 0) ∧
      (later.torn = m.torn → Complete m pgdir oldsz →
        (size ≠ 0 → Complete later pgdir size) ∧ (size = 0 → Complete later pgdir oldsz)) := by
  unfold allocuvm at result
  split at result
  · cases result
    exact ⟨own, owned, Keeps.refl _ _ _, Accounted.of_quiet rfl fun _ => id, Or.inr (Or.inr rfl),
      fun _ complete => ⟨fun impossible => absurd rfl impossible, fun _ => complete⟩⟩
  · rename_i low
    have top : newsz < kernbase := by omega
    split at result
    · rename_i shorter
      cases result
      exact ⟨own, owned, Keeps.refl _ _ _, Accounted.of_quiet rfl fun _ => id,
        Or.inr (Or.inl ⟨rfl, shorter⟩), fun _ complete => ⟨fun _ => complete, fun _ => complete⟩⟩
    · rename_i longer
      have order : oldsz ≤ newsz := by omega
      have start := (pgroundup_eq (order.trans top.le)).1
      rw [start] at result
      obtain ⟨next, final, keeps, account, sizes, grown⟩ :=
        (allocLoop_run result).spec alive top order start le_rfl (fun impossible =>
          absurd impossible (lt_irrefl _)) owned
      refine ⟨next, final, keeps, account, ?_, fun quiet complete => ?_⟩
      · exact sizes.imp (fun same => ⟨same, order, top⟩) Or.inr
      · have outcome := grown quiet (fun vpn => vpn * pgsize < oldsz)
          (fun other below => by
            rw [complete other below]
            exact ⟨Or.inl, fun either => either.resolve_right (by omega)⟩)
          (fun other before above => absurd before (page_ge_iff.mp above))
        by_cases success : size = newsz
        · have whole : Complete later pgdir newsz := by
            intro vpn below
            rw [outcome.grown success vpn below, page_ge_iff]
            constructor
            · rintro (before | ⟨-, within⟩)
              · omega
              · exact within
            · intro within
              by_cases before : vpn * pgsize < oldsz
              · exact Or.inl before
              · exact Or.inr ⟨before, within⟩
          refine ⟨fun _ => success ▸ whole, fun isZero => ?_⟩
          obtain rfl : oldsz = newsz := by omega
          exact whole
        · obtain ⟨isZero, same⟩ := outcome.failed success
          exact ⟨fun nonzero => absurd isZero nonzero, fun _ => same⟩

/-- `deallocuvm` shrinks the process to the size it returns. -/
theorem deallocuvm_spec (owned : Owned layout m live held own) (alive : live pgdir)
    (top : oldsz ≤ kernbase) (result : m.deallocuvm layout pgdir oldsz newsz = .ok (size, later)) :
    ∃ next, Owned layout later live held next ∧ Keeps pgdir m own later next ∧
      (∀ page, next page = none → own page = none) ∧ later.denied = m.denied ∧
      later.torn = m.torn ∧ size = min oldsz newsz ∧
      (Complete m pgdir oldsz → Complete later pgdir size) := by
  unfold deallocuvm at result
  split at result
  · rename_i longer
    cases result
    exact ⟨own, owned, Keeps.refl _ _ _, fun _ => id, rfl, rfl, (Nat.min_eq_left longer).symm, id⟩
  · rename_i shorter
    have order : newsz < oldsz := by omega
    have start := (pgroundup_eq (order.le.trans top)).1
    rw [start] at result
    obtain ⟨_, shrink, ⟨⟩⟩ := Except.of_bind_ok result
    obtain ⟨-, next, final, shrunk⟩ := deallocLoop_spec owned alive top shrink
    refine ⟨next, final, shrunk.keeps, shrunk.kept, shrunk.denied, shrunk.torn,
      (Nat.min_eq_right order.le).symm, fun complete vpn below => ?_⟩
    by_cases within : (newsz + 4095) / 4096 ≤ vpn ∧ vpn * pgsize < oldsz
    · have firstInside : (newsz + 4095) / 4096 * pgsize < oldsz :=
        (Nat.mul_le_mul_right pgsize within.1).trans_lt within.2
      have mapped := (complete _ (user_page top firstInside)).mpr firstInside
      have gone := shrunk.cleared (Or.inr (tableAt_of_entry mapped)) vpn within.1 within.2
      simp only [gone, Option.isSome_none, Bool.false_eq_true, false_iff]
      exact page_ge_iff.mp within.1
    · have same : later.entry pgdir vpn = m.entry pgdir vpn := by
        rcases shrunk.entries vpn (by omega) with same | ⟨above, below, -⟩
        · exact same
        · exact absurd ⟨above, below⟩ within
      rw [same, complete vpn below]
      rw [page_ge_iff] at within
      constructor
      · intro inside
        by_contra beyond
        exact within ⟨beyond, inside⟩
      · intro inside
        omega

end Xv6
