import Xv6.Lib.Traced
import Xv6.Vm.Ownership

/-!
# Walking and filling page tables

Code that works on one directory keeps the ownership of every page that is
neither free nor one of that directory's own, and does not touch its contents;
`Keeps` says so and composes. A page is lost only where `walkpgdir` fails to get a
page for a table: the caller then drops the page it wanted to map, or the
directory under construction. `Accounted` ties the lost pages to the counter of
those failures.

The specifications of `walkpgdir`, `mappages` and `setupkvm` follow: which entries
the directory has afterwards, and what was denied.
-/

namespace Xv6

open Vm Function

variable {β : Type} {layout : Layout} {m middle later : Vm} {live : Nat → Prop}
  {held : β → Option Nat} {own between next : Places β}
  {page pgtab index vpn va count pa perm data : Nat} {found : Option (Nat × Nat)}
  {mapped : Bool} {walker taken : Vm}

/-- Code that worked for one directory kept all pages of others: those in hand,
and those with a place that is neither the free list nor the directory. -/
structure Keeps (pgdir : Nat) (m : Vm) (own : Places β) (later : Vm)
    (next : Places β) : Prop where
  hand : ∀ page, own page = none → next page = none ∧ later.page page = m.page page
  foreign : ∀ page place, own page = some place → place ≠ .free → ¬ Belongs pgdir page place →
    next page = some place ∧ later.page page = m.page page
  denied : m.denied ≤ later.denied
  torn : m.torn ≤ later.torn

namespace Keeps

variable {pgdir : Nat}

theorem refl (pgdir : Nat) (m : Vm) (own : Places β) : Keeps pgdir m own m own where
  hand := fun _ here => ⟨here, rfl⟩
  foreign := fun _ _ here _ _ => ⟨here, rfl⟩
  denied := Nat.le_refl _
  torn := Nat.le_refl _

theorem trans (first : Keeps pgdir m own middle between)
    (second : Keeps pgdir middle between later next) : Keeps pgdir m own later next where
  hand := fun page here => by
    have early := first.hand page here
    have late := second.hand page early.1
    exact ⟨late.1, late.2.trans early.2⟩
  foreign := fun page place here used apart => by
    have early := first.foreign page place here used apart
    have late := second.foreign page place early.1 used apart
    exact ⟨late.1, late.2.trans early.2⟩
  denied := first.denied.trans second.denied
  torn := first.torn.trans second.torn

/-- Changes outside the pages concern no directory. -/
theorem of_pages (pages : later.page = m.page) (denied : m.denied ≤ later.denied)
    (torn : m.torn ≤ later.torn) : Keeps pgdir m own later own where
  hand := fun page here => ⟨here, congrFun pages page⟩
  foreign := fun page _ here _ _ => ⟨here, congrFun pages page⟩
  denied := denied
  torn := torn

/-- Work that began by taking a page off the free list. -/
theorem after_kalloc {place : Option (Place β)} (isFree : own page = some .free)
    (same : ∀ other, other ≠ page → middle.page other = m.page other)
    (denied : middle.denied = m.denied) (torn : middle.torn = m.torn)
    (rest : Keeps pgdir middle (update own page place) later next) :
    Keeps pgdir m own later next where
  hand := fun other here => by
    have apart : other ≠ page := by
      rintro rfl
      simp [isFree] at here
    have late := rest.hand other (by rwa [update_of_ne apart])
    exact ⟨late.1, late.2.trans (same other apart)⟩
  foreign := fun other found here used foreign => by
    have apart : other ≠ page := by
      rintro rfl
      rw [isFree] at here
      exact used (Option.some.inj here).symm
    have late := rest.foreign other found (by rwa [update_of_ne apart]) used foreign
    exact ⟨late.1, late.2.trans (same other apart)⟩
  denied := denied ▸ rest.denied
  torn := torn ▸ rest.torn

section

variable (keeps : Keeps pgdir m own later next)

include keeps

/-- Giving up the directory's own pages concerns no other. -/
theorem discard :
    Keeps pgdir m own later (Xv6.discard next pgdir) where
  hand := fun page here => by
    have kept := keeps.hand page here
    exact ⟨by simp [Xv6.discard, kept.1], kept.2⟩
  foreign := fun page found here used apart => by
    have kept := keeps.foreign page found here used apart
    exact ⟨by simp [Xv6.discard, kept.1, apart], kept.2⟩
  denied := keeps.denied
  torn := keeps.torn

/-- A store into one of the directory's own tables. -/
theorem store (isTable : next pgtab = some (.table pgdir index)) (slot value : Nat) :
    Keeps pgdir m own (later.store pgtab slot value) next where
  hand := fun page here => by
    have kept := keeps.hand page here
    refine ⟨kept.1, ?_⟩
    rw [Vm.store, page_setPage_ne _ _ ?_, kept.2]
    rintro rfl
    simp [isTable] at kept
  foreign := fun page place here used apart => by
    have kept := keeps.foreign page place here used apart
    refine ⟨kept.1, ?_⟩
    rw [Vm.store, page_setPage_ne _ _ ?_, kept.2]
    rintro rfl
    rw [isTable] at kept
    exact apart (Option.some.inj kept.1 ▸ rfl)
  denied := keeps.denied
  torn := keeps.torn

/-- A page that was free at the start may go anywhere. -/
theorem relabel (isFree : own page = some .free) (place : Option (Place β)) :
    Keeps pgdir m own later (update next page place) where
  hand := fun other here => by
    have apart : other ≠ page := by
      rintro rfl
      simp [isFree] at here
    rw [update_of_ne apart]
    exact keeps.hand other here
  foreign := fun other found here used foreign => by
    have apart : other ≠ page := by
      rintro rfl
      rw [isFree] at here
      exact used (Option.some.inj here).symm
    rw [update_of_ne apart]
    exact keeps.foreign other found here used foreign
  denied := keeps.denied
  torn := keeps.torn

/-- Entries of other directories are unchanged. -/
theorem entry (owned : Owned layout m live held own)
    {other : Nat} (alive : live other) (apart : other ≠ pgdir) (inside : vpn < 1048576) :
    later.entry other vpn = m.entry other vpn := by
  refine owned.entry_congr alive ?_ ?_ inside
  · exact (keeps.foreign other .dir ((owned.dir other).mpr alive) (by simp) apart).2
  · exact fun page index isTable =>
      (keeps.foreign page _ isTable (by simp) apart).2

/-- What was kept for a directory that is not in use was kept for any other. -/
theorem of_fresh (owned : Owned layout m live held own) (fresh : ¬ live pgdir) (other : Nat) :
    Keeps other m own later next where
  hand := keeps.hand
  foreign := fun page place here used _ => by
    refine keeps.foreign page place here used ?_
    intro mine
    cases place with
    | dir => exact fresh (mine ▸ (owned.dir page).mp here)
    | table owner index => exact fresh (mine ▸ ((owned.table _ _ _).mp here).1)
    | user owner vpn => exact fresh (mine ▸ ((owned.user _ _ _).mp here).1)
    | _ => exact mine
  denied := keeps.denied
  torn := keeps.torn

end

end Keeps

/-- Pages were lost exactly when a page table was denied. -/
structure Accounted (layout : Layout) (m : Vm) (own : Places β) (later : Vm)
    (next : Places β) : Prop where
  kept : later.denied = m.denied → ∀ page, next page = none → own page = none
  lost : later.denied ≠ m.denied → ∃ page, layout.Managed page ∧ next page = none

theorem Accounted.of_quiet (quiet : later.denied = m.denied)
    (kept : ∀ page, next page = none → own page = none) : Accounted layout m own later next :=
  ⟨fun _ => kept, fun changed => absurd quiet changed⟩

theorem Accounted.trans {pgdir : Nat} (first : Accounted layout m own middle between)
    (second : Accounted layout middle between later next) (early : m.denied ≤ middle.denied)
    (keeps : Keeps pgdir middle between later next) : Accounted layout m own later next where
  kept := fun same page isLost => by
    have late := keeps.denied
    exact first.kept (by omega) page (second.kept (by omega) page isLost)
  lost := fun changed => by
    by_cases quiet : later.denied = middle.denied
    · obtain ⟨page, managed, isLost⟩ := first.lost (by omega)
      exact ⟨page, managed, (keeps.hand page isLost).1⟩
    · exact second.lost quiet

/-! ## `walkpgdir` and `mappages` -/

theorem pdx_lt (va : Nat) : pdx va < 1024 := Nat.mod_lt _ (by decide)

/-- The indices of a page's address are the two halves of its number. -/
theorem pdx_ptx (inside : vpn < 1048576) :
    pdx (vpn * pgsize) = vpn / 1024 ∧ ptx (vpn * pgsize) = vpn % 1024 := by
  simp only [pdx, ptx, pgsize_eq]
  omega

/-- Without `alloc` the walk only looks. -/
theorem walk_look {pgdir : Nat} : (m.walkpgdir pgdir va false).1 =
    (m.tableAt pgdir (pdx va)).map fun pgtab => (pgtab, ptx va) := by
  simp only [walkpgdir, tableAt]
  split <;> simp_all

/-- The word that marks a table present. -/
theorem pde_eq (pgtab : Nat) :
    pgtab * pgsize ||| pteP ||| pteW ||| pteU = mkPte (pgtab * pgsize) 6 := by
  simp only [mkPte, pteP, pteW, pteU, Nat.lor_assoc]
  rfl

/-- What a walk that creates missing tables can do: find the table, be denied one, or put
an empty one in its place. -/
inductive Walks (pgdir va : Nat) (m : Vm) : Option (Nat × Nat) → Vm → Prop
  | found {pgtab : Nat} (here : m.tableAt pgdir (pdx va) = some pgtab) :
      Walks pgdir va m (some (pgtab, ptx va)) m
  | denied {taken : Vm} (missing : m.tableAt pgdir (pdx va) = none)
      (asked : m.kalloc = (none, taken)) :
      Walks pgdir va m none { taken with denied := taken.denied + 1 }
  | made {pgtab : Nat} {taken : Vm} (missing : m.tableAt pgdir (pdx va) = none)
      (asked : m.kalloc = (some pgtab, taken)) : Walks pgdir va m (some (pgtab, ptx va))
        ((taken.zero pgtab).store pgdir (pdx va) (mkPte (pgtab * pgsize) 6))

theorem walk_cases {pgdir : Nat} (result : m.walkpgdir pgdir va true = (found, later)) :
    Walks pgdir va m found later := by
  unfold walkpgdir at result
  simp only [if_true, pde_eq] at result
  split at result
  · rename_i shown
    cases result
    exact .found (by simp [tableAt, shown])
  · rename_i absent
    have missing : m.tableAt pgdir (pdx va) = none := by simp [tableAt, absent]
    rcases asked : m.kalloc with ⟨_ | pgtab, taken⟩
    all_goals
      rw [asked] at result
      cases result
    · exact .denied missing asked
    · exact .made missing asked

/-- A walk that creates missing tables. Only a free page and the directory's own
pages change, and no entry does. -/
theorem walk_alloc (owned : Owned layout m live held own) {pgdir : Nat} (alive : live pgdir)
    (result : m.walkpgdir pgdir va true = (found, later)) :
    ∃ next, Owned layout later live held next ∧ Keeps pgdir m own later next ∧
      (∀ page, next page = none → own page = none) ∧ later.torn = m.torn ∧
      (∀ vpn, vpn < 1048576 → later.entry pgdir vpn = m.entry pgdir vpn) ∧
      (∀ pgtab index, found = some (pgtab, index) → later.denied = m.denied ∧
        index = ptx va ∧ later.tableAt pgdir (pdx va) = some pgtab) ∧
      (found = none → later.denied = m.denied + 1) := by
  cases walk_cases result with
  | found here =>
    refine ⟨own, owned, Keeps.refl _ _ _, fun _ => id, rfl, fun _ _ => rfl, ?_, by rintro ⟨⟩⟩
    rintro pgtab index ⟨⟩
    exact ⟨rfl, rfl, here⟩
  | denied _ asked =>
    obtain ⟨pages, denied, torn, still⟩ := owned.kalloc_none asked
    refine ⟨own, still.congr (fun _ _ => rfl) rfl rfl, ?_, fun _ => id, torn, ?_, by rintro _ _ ⟨⟩, ?_⟩
    · exact Keeps.of_pages pages (by simp [denied]) (by simp [torn])
    · intro vpn _
      exact congrFun (congrFun (entry_of_page pages) pgdir) vpn
    · simp [denied]
  | @made pgtab taken missing asked =>
    obtain ⟨isFree, pages, denied, torn, taking⟩ := owned.kalloc_some asked
    have isDir := (owned.dir pgdir).mpr alive
    have elsewhere : ∀ page, own page ≠ some .free →
        (taken.zero pgtab).page page = m.page page := by
      intro page used
      have apart : page ≠ pgtab := by
        rintro rfl
        exact used isFree
      rw [Vm.zero, page_setPage_ne _ _ apart, pages]
    have zeroed : Owned layout (taken.zero pgtab) live held
        (update own pgtab none) :=
      taking.setPage _ (Owned.not_structural_of_none (update_self _ _ _))
    have stillMissing : (taken.zero pgtab).tableAt pgdir (pdx va) = none := by
      rw [← missing]
      simp only [tableAt, word_congr (elsewhere pgdir (by simp [isDir]))]
    have managed := owned.managed isFree
    have empty : ∀ place, present ((taken.zero pgtab).word pgtab place) = false := by simp
    have attached := zeroed.attach alive (pdx_lt va) stillMissing
      (update_self _ _ _) managed empty
    rw [update_idem] at attached
    refine ⟨_, attached, ?_, ?_, ?_, ?_, ?_, by simp⟩
    · refine ⟨fun page here => ?_, fun page place here used apart => ?_, ?_, ?_⟩
      · have differ : page ≠ pgtab := by
          rintro rfl
          simp [isFree] at here
        have notDir : page ≠ pgdir := by
          rintro rfl
          simp [isDir] at here
        rw [update_of_ne differ, Vm.store, page_setPage_ne _ _ notDir]
        exact ⟨here, elsewhere page (by simp [here])⟩
      · have differ : page ≠ pgtab := by
          rintro rfl
          rw [isFree] at here
          exact used (Option.some.inj here).symm
        have notDir : page ≠ pgdir := by
          rintro rfl
          rw [isDir] at here
          cases here
          exact apart rfl
        rw [update_of_ne differ, Vm.store, page_setPage_ne _ _ notDir]
        refine ⟨here, elsewhere page ?_⟩
        rw [here]
        exact fun same => used (Option.some.inj same)
      · exact denied.ge
      · exact torn.ge
    · exact fun page isLost => (update_eq_none.mp isLost).2
    · exact torn
    · intro vpn bound
      rw [zeroed.entry_attach alive (pdx_lt va) stillMissing (update_self _ _ _)
        managed empty alive bound]
      refine owned.entry_congr alive (elsewhere pgdir (by simp [isDir])) ?_ bound
      exact fun page index isTable => elsewhere page (by simp [isTable])
    · rintro table index ⟨⟩
      refine ⟨denied, rfl, ?_⟩
      rw [Owned.tableAt_attach (pdx_lt va) managed]
      simp

/-- The last round of the loop. -/
theorem mapLoop_last (rounds pgdir a pa perm : Nat) :
    mapLoop (rounds + 1) m pgdir a a pa perm =
      match m.walkpgdir pgdir a true with
      | (none, m) => .ok (false, m)
      | (some (pgtab, index), m) =>
        if present (m.word pgtab index) then .error "remap"
        else .ok (true, m.store pgtab index (mkPte pa perm)) := by
  rw [mapLoop]
  rcases m.walkpgdir pgdir a true with ⟨_ | ⟨pgtab, index⟩, walker⟩
  · rfl
  · simp only [if_true]

/-- For whole pages `mappages` runs its loop from the first to the last. -/
theorem mappages_pages {pgdir : Nat} (inside : vpn + count < 1048576) :
    m.mappages pgdir (vpn * pgsize) ((count + 1) * pgsize) pa perm =
      mapLoop (2 ^ 20) m pgdir (vpn * pgsize) ((vpn + count) * pgsize) pa perm := by
  have first : pgrounddown (vpn * pgsize) = vpn * pgsize := by
    simp only [pgrounddown, pgsize_eq]
    omega
  have last : pgrounddown ((vpn * pgsize + (count + 1) * pgsize + (2 ^ 32 - 1)) % 2 ^ 32) =
      (vpn + count) * pgsize := by
    simp only [pgrounddown, pgsize_eq]
    omega
  rw [mappages, first, last]

/-- Mapping one page makes one round of the loop. -/
theorem mappages_page {pgdir : Nat} (inside : vpn < 1048576) :
    m.mappages pgdir (vpn * pgsize) pgsize pa perm =
      match m.walkpgdir pgdir (vpn * pgsize) true with
      | (none, m) => .ok (false, m)
      | (some (pgtab, index), m) =>
        if present (m.word pgtab index) then .error "remap"
        else .ok (true, m.store pgtab index (mkPte pa perm)) := by
  have single : m.mappages pgdir (vpn * pgsize) ((0 + 1) * pgsize) pa perm = _ :=
    mappages_pages inside
  simp only [Nat.zero_add, Nat.one_mul, Nat.add_zero] at single
  rw [single]
  exact mapLoop_last 1048575 pgdir (vpn * pgsize) pa perm

/-- Mapping one page is denied a table, or stores an entry where there was none. -/
inductive MapsPage (pgdir vpn pa perm : Nat) (m : Vm) : Bool → Vm → Prop
  | denied {walker : Vm} (walked : m.walkpgdir pgdir (vpn * pgsize) true = (none, walker)) :
      MapsPage pgdir vpn pa perm m false walker
  | stored {pgtab index : Nat} {walker : Vm}
      (walked : m.walkpgdir pgdir (vpn * pgsize) true = (some (pgtab, index), walker))
      (absent : ¬ present (walker.word pgtab index) = true) :
      MapsPage pgdir vpn pa perm m true (walker.store pgtab index (mkPte pa perm))

theorem mappages_cases {pgdir : Nat} (inside : vpn < 1048576)
    (result : m.mappages pgdir (vpn * pgsize) pgsize pa perm = .ok (mapped, later)) :
    MapsPage pgdir vpn pa perm m mapped later := by
  rw [mappages_page inside] at result
  rcases walked : m.walkpgdir pgdir (vpn * pgsize) true with ⟨_ | ⟨pgtab, index⟩, walker⟩
  · rw [walked] at result
    cases result
    exact .denied walked
  · simp only [walked] at result
    split at result
    · cases result
    · rename_i absent
      cases result
      exact .stored walked absent

/-- A page in hand is mapped at a user address, or stays in hand because a page
table was denied. -/
theorem mappages_user (owned : Owned layout m live held own) {pgdir : Nat} (alive : live pgdir)
    (below : vpn < 524288) (hand : own page = none) (managed : layout.Managed page)
    (small : perm < 4096) (result : m.mappages pgdir (vpn * pgsize) pgsize (page * pgsize) perm =
      .ok (mapped, later)) :
    later.torn = m.torn ∧ later.page page = m.page page ∧
      ∃ next, Owned layout later live held next ∧
        Keeps pgdir m (update own page (some .free)) later next ∧
        (∀ other, next other = none → own other = none) ∧
        (mapped = true → later.denied = m.denied ∧ next page = some (.user pgdir vpn) ∧
          ∀ other, other < 1048576 → later.entry pgdir other =
            if other = vpn then some (mkPte (page * pgsize) perm) else m.entry pgdir other) ∧
        (mapped = false → later.denied = m.denied + 1 ∧ next page = none ∧
          ∀ other, other < 1048576 → later.entry pgdir other = m.entry pgdir other) := by
  have indices := pdx_ptx (show vpn < 1048576 by omega)
  have whole : vpn / 1024 * 1024 + vpn % 1024 = vpn := by omega
  -- The page in hand counts as free for what the walk may touch.
  have freed : ∀ {walker : Vm} {between : Places β}, Keeps pgdir m own walker between →
      Keeps pgdir m (update own page (some .free)) walker between := by
    intro walker between keeps
    refine ⟨fun other here => keeps.hand other ?_, fun other place here used apart =>
      keeps.foreign other place ?_ used apart, keeps.denied, keeps.torn⟩
    · by_cases same : other = page
      · subst same
        simp at here
      · simpa [same] using here
    · rcases update_eq_some.mp here with ⟨-, same⟩ | ⟨-, before⟩
      · exact absurd (Option.some.inj same).symm used
      · exact before
  cases mappages_cases (by omega) result with
  | denied walked =>
    obtain ⟨between, walking, keeps, noLoss, torn, entries, -, miss⟩ :=
      walk_alloc owned alive walked
    have kept := keeps.hand page hand
    exact ⟨torn, kept.2, between, walking, freed keeps, noLoss, by rintro ⟨⟩,
      fun _ => ⟨miss rfl, kept.1, entries⟩⟩
  | @stored pgtab _ walker walked absent =>
    obtain ⟨between, walking, keeps, noLoss, torn, entries, hit, -⟩ :=
      walk_alloc owned alive walked
    have kept := keeps.hand page hand
    obtain ⟨denied, rfl, table⟩ := hit _ _ rfl
    rw [indices.1] at table
    rw [indices.2] at absent ⊢
    have vacant : walker.entry pgdir (vpn / 1024 * 1024 + vpn % 1024) = none := by
      rw [entry_of_table table (Nat.mod_lt _ (by decide)), if_neg absent]
    have mapping := walking.map_user alive table (Nat.mod_lt vpn (by decide)) (by omega)
      vacant kept.1 managed small
    have isTable := walking.table_own alive (by omega) table
    have apart : page ≠ pgtab := by
      rintro rfl
      simp [kept.1] at isTable
    rw [whole] at mapping
    refine ⟨torn, ?_, _, mapping, ?_, ?_, ?_, by rintro ⟨⟩⟩
    · rw [Vm.store, page_setPage_ne _ _ apart]
      exact kept.2
    · exact ((freed keeps).store isTable _ _).relabel (update_self _ _ _) _
    · exact fun other isLost => noLoss other (update_eq_none.mp isLost).2
    · intro _
      refine ⟨denied, update_self _ _ _, fun other bound => ?_⟩
      rw [walking.entry_store alive (by omega) table (Nat.mod_lt _ (by decide))
        (mkPte_lt (by have := managed.lt; omega) small) alive bound, whole, entries other bound]
      simp

/-- Where the loop does not panic there was no entry. -/
theorem walk_vacant (owned : Owned layout m live held own) {pgdir : Nat} (alive : live pgdir)
    (inside : vpn < 1048576)
    (walked : m.walkpgdir pgdir (vpn * pgsize) true = (some (pgtab, index), walker))
    (absent : ¬ present (walker.word pgtab index) = true) : m.entry pgdir vpn = none := by
  obtain ⟨-, -, -, -, -, entries, hit, -⟩ := walk_alloc owned alive walked
  obtain ⟨-, rfl, table⟩ := hit pgtab index rfl
  have indices := pdx_ptx inside
  rw [indices.1] at table
  rw [indices.2] at absent
  rw [← entries vpn inside, ← Nat.div_add_mod' vpn 1024,
    entry_of_table table (Nat.mod_lt _ (by decide)), if_neg absent]

/-- One round of the loop at a kernel address. -/
theorem map_round (owned : Owned layout m live held own) {pgdir : Nat} (page : Nat)
    (alive : live pgdir) (above : 524288 ≤ vpn) (inside : vpn < 1048576) (bound : page < 1048576)
    (small : perm < 4096) (hidden : perm.testBit 2 = false)
    (walked : m.walkpgdir pgdir (vpn * pgsize) true = (some (pgtab, index), walker)) :
    ∃ next, Owned layout (walker.store pgtab index (mkPte (page * pgsize) perm)) live held next ∧
      Keeps pgdir m own (walker.store pgtab index (mkPte (page * pgsize) perm)) next ∧
      (∀ page, next page = none → own page = none) ∧
      walker.torn = m.torn ∧ walker.denied = m.denied ∧
      ∀ other, other < 1048576 →
        (walker.store pgtab index (mkPte (page * pgsize) perm)).entry pgdir other =
          if other = vpn then some (mkPte (page * pgsize) perm) else m.entry pgdir other := by
  obtain ⟨next, walking, keeps, noLoss, torn, entries, hit, -⟩ := walk_alloc owned alive walked
  obtain ⟨denied, rfl, table⟩ := hit pgtab index rfl
  have indices := pdx_ptx inside
  have whole : vpn / 1024 * 1024 + vpn % 1024 = vpn := by omega
  rw [indices.1] at table
  rw [indices.2]
  have slot : vpn % 1024 < 1024 := Nat.mod_lt _ (by decide)
  have fits := mkPte_lt bound small
  have mapping := walking.map_kernel alive (by omega) table slot (by omega) fits
    (by rw [userBit_mkPte, hidden])
  have isTable := walking.table_own alive (by omega) table
  refine ⟨next, mapping, keeps.store isTable _ _, noLoss, torn, denied, fun other below => ?_⟩
  rw [walking.entry_store alive (by omega) table slot fits alive below, whole,
    entries other below]
  simp

/-- A run of the loop of `mappages` over a number of kernel pages: it is denied a table on
the way, or it maps all of them. -/
inductive MapRun (pgdir perm : Nat) : (vpn page count : Nat) → Vm → Bool → Vm → Prop
  | done {vpn page : Nat} {m : Vm} : MapRun pgdir perm vpn page 0 m true m
  | denied {vpn page count : Nat} {m later : Vm} (inside : vpn < 1048576)
      (walked : m.walkpgdir pgdir (vpn * pgsize) true = (none, later)) :
      MapRun pgdir perm vpn page (count + 1) m false later
  | next {vpn page count pgtab index : Nat} {m walker later : Vm} {mapped : Bool}
      (above : 524288 ≤ vpn) (inside : vpn < 1048576) (bound : page < 1048576)
      (walked : m.walkpgdir pgdir (vpn * pgsize) true = (some (pgtab, index), walker))
      (absent : ¬ present (walker.word pgtab index) = true)
      (rest : MapRun pgdir perm (vpn + 1) (page + 1) count
        (walker.store pgtab index (mkPte (page * pgsize) perm)) mapped later) :
      MapRun pgdir perm vpn page (count + 1) m mapped later

/-- The address of the next page. -/
theorem next_page (inside : page + 1 < 1048576) :
    (page * pgsize + pgsize) % 2 ^ 32 = (page + 1) * pgsize := by
  simp only [pgsize_eq]
  omega

/-- The loop over a range of kernel addresses is such a run. -/
theorem mapLoop_run {pgdir : Nat} (count : Nat) :
    ∀ (rounds vpn page : Nat) {m : Vm}, 524288 ≤ vpn → vpn + count < 1048576 →
      page + count < 1048576 → count < rounds →
      mapLoop rounds m pgdir (vpn * pgsize) ((vpn + count) * pgsize) (page * pgsize) perm =
        .ok (mapped, later) → MapRun pgdir perm vpn page (count + 1) m mapped later := by
  induction count with
  | zero =>
    intro rounds vpn page m above inside bound enough result
    obtain ⟨rounds, rfl⟩ : ∃ fewer, rounds = fewer + 1 := ⟨rounds - 1, by omega⟩
    simp only [Nat.add_zero] at result
    rw [mapLoop_last] at result
    rcases walked : m.walkpgdir pgdir (vpn * pgsize) true with ⟨_ | ⟨pgtab, index⟩, walker⟩
    · rw [walked] at result
      cases result
      exact .denied inside walked
    · simp only [walked] at result
      split at result
      · cases result
      · rename_i absent
        cases result
        exact .next above inside bound walked absent .done
  | succ count ih =>
    intro rounds vpn page m above inside bound enough result
    obtain ⟨rounds, rfl⟩ : ∃ fewer, rounds = fewer + 1 := ⟨rounds - 1, by omega⟩
    rw [mapLoop] at result
    rcases walked : m.walkpgdir pgdir (vpn * pgsize) true with ⟨_ | ⟨pgtab, index⟩, walker⟩
    · rw [walked] at result
      cases result
      exact .denied (by omega) walked
    · simp only [walked] at result
      split at result
      · cases result
      · rename_i absent
        rw [if_neg (by simp only [pgsize_eq]; omega), next_page (by omega), next_page (by omega),
          show vpn + (count + 1) = vpn + 1 + count by omega] at result
        exact .next above (by omega) (by omega) walked absent
          (ih rounds _ _ (by omega) (by omega) (by omega) (by omega) result)

/-- The run maps all of the pages, or stops where a page table was denied. -/
theorem MapRun.kernel {pgdir : Nat} (alive : live pgdir) (small : perm < 4096)
    (hidden : perm.testBit 2 = false) (run : MapRun pgdir perm vpn page count m mapped later) :
    ∀ {own : Places β}, Owned layout m live held own →
      ∃ next, Owned layout later live held next ∧ Keeps pgdir m own later next ∧
        (∀ page, next page = none → own page = none) ∧ later.torn = m.torn ∧
        (∀ other pte, other < 1048576 → m.entry pgdir other = some pte →
          later.entry pgdir other = some pte) ∧
        (mapped = true → later.denied = m.denied ∧ ∀ other, other < 1048576 →
          later.entry pgdir other = if vpn ≤ other ∧ other < vpn + count then
            some (mkPte ((page + (other - vpn)) * pgsize) perm) else m.entry pgdir other) ∧
        (mapped = false → later.denied = m.denied + 1 ∧ ∀ other, other < 524288 →
          later.entry pgdir other = m.entry pgdir other) := by
  induction run with
  | done =>
    intro own owned
    refine ⟨own, owned, Keeps.refl _ _ _, fun _ => id, rfl, fun _ _ _ => id,
      fun _ => ⟨rfl, fun other _ => ?_⟩, by rintro ⟨⟩⟩
    rw [if_neg (by omega)]
  | denied inside walked =>
    intro own owned
    obtain ⟨next, walking, keeps, noLoss, torn, entries, -, miss⟩ :=
      walk_alloc owned alive walked
    exact ⟨next, walking, keeps, noLoss, torn,
      fun other pte below stored => (entries other below).trans stored, by rintro ⟨⟩,
      fun _ => ⟨miss rfl, fun other below => entries other (by omega)⟩⟩
  | @next vpn page count _ _ _ _ _ _ above inside bound walked absent _ ih =>
    intro own owned
    obtain ⟨between, mapping, keeps, noLoss, torn, denied, entries⟩ :=
      map_round owned page alive above inside bound small hidden walked
    have vacant := walk_vacant owned alive inside walked absent
    obtain ⟨next, final, rest, restLoss, restTorn, restKept, success, failure⟩ := ih mapping
    refine ⟨next, final, keeps.trans rest, fun page isLost => noLoss page (restLoss page isLost),
      restTorn.trans torn, fun other pte below stored => restKept other pte below ?_,
      fun isMapped => ?_, fun isDenied => ?_⟩
    · rw [entries other below, if_neg, stored]
      rintro rfl
      simp [vacant] at stored
    · obtain ⟨quiet, stored⟩ := success isMapped
      refine ⟨quiet.trans denied, fun other below => ?_⟩
      rw [stored other below, entries other below]
      by_cases here : other = vpn
      · subst here
        rw [if_neg (by omega), if_pos rfl, if_pos (by omega), Nat.sub_self, Nat.add_zero]
      · by_cases within : vpn + 1 ≤ other ∧ other < vpn + 1 + count
        · rw [if_pos within, if_pos (by omega),
            show page + 1 + (other - (vpn + 1)) = page + (other - vpn) by omega]
        · rw [if_neg within, if_neg here, if_neg (by omega)]
    · obtain ⟨more, stored⟩ := failure isDenied
      refine ⟨more.trans (congrArg (· + 1) denied), fun other below => ?_⟩
      rw [stored other below, entries other (by omega), if_neg (by omega)]

/-- A row of the table of kernel mappings, in pages: `count + 1` pages from `vpn` on
are mapped to those from `page` on. -/
structure Kmap.Spans (row : Kmap) (vpn page count : Nat) : Prop where
  virt : row.virt = vpn * pgsize
  phys : row.physStart = page * pgsize
  size : (row.physEnd + 2 ^ 32 - row.physStart) % 2 ^ 32 = (count + 1) * pgsize
  kernel : 524288 ≤ vpn
  virtEnd : vpn + count < 1048576
  physEnd : page + count < 1048576
  perm : row.perm < 4096
  hidden : row.perm.testBit 2 = false

/-- Mapping a row is a run of the loop over its pages. -/
theorem Kmap.Spans.run {row : Kmap} {pgdir : Nat} (span : row.Spans vpn page count)
    (ran : m.mappages pgdir row.virt
      ((row.physEnd + 2 ^ 32 - row.physStart) % 2 ^ 32) row.physStart row.perm =
        .ok (mapped, later)) : MapRun pgdir row.perm vpn page (count + 1) m mapped later := by
  rw [span.virt, span.size, span.phys, mappages_pages span.virtEnd] at ran
  have inside := span.virtEnd
  exact mapLoop_run count _ vpn page span.kernel inside span.physEnd (by omega) ran

/-- Where the linker puts the kernel's data, in pages. -/
theorem data_bounds (layout : Layout) : layout.data % 4096 = 0 ∧ 524545 ≤ layout.data / 4096 ∧
    layout.data / 4096 ≤ 525312 := by
  have aligned := layout.data_aligned
  have start := layout.kernlink_lt_data
  have order := layout.data_le_end
  have top := layout.end_le
  simp only [kernlink_eq, p2v, kernbase_eq, pgsize_eq] at aligned start top
  omega

/-- The start of the kernel's data as a page. -/
theorem DataAddress.bounds (start : DataAddress data) : data % 4096 = 0 ∧
    524545 ≤ data / 4096 ∧ data / 4096 < 581632 := by
  have aligned := start.aligned
  have above := start.above
  have below := start.below
  simp only [kernlink_eq, p2v, kernbase_eq, pgsize_eq, phystop_eq] at aligned above below
  omega

theorem io_spans : Kmap.Spans ⟨kernbase, 0, extmem, pteW⟩ 524288 0 255 := by
  constructor <;> decide

theorem text_spans (start : DataAddress data) : Kmap.Spans
    ⟨kernlink, v2p kernlink, v2p data, 0⟩ 524544 256 (data / 4096 - 524545) := by
  have bounds := start.bounds
  refine ⟨rfl, rfl, ?_, by omega, by omega, by omega, Nat.zero_lt_succ _,
    show Nat.testBit 0 2 = false by decide⟩
  simp only [kernlink_eq, v2p, kernbase_eq, pgsize_eq]
  omega

theorem data_spans (start : DataAddress data) : Kmap.Spans
    ⟨data, v2p data, phystop, pteW⟩ (data / 4096) (data / 4096 - 524288)
      (57344 - (data / 4096 - 524288) - 1) := by
  have bounds := start.bounds
  refine ⟨?_, ?_, ?_, by omega, by omega, by omega, show 2 < 4096 by decide,
    show Nat.testBit 2 2 = false by decide⟩
  all_goals simp only [v2p, kernbase_eq, pgsize_eq, phystop_eq]
  all_goals omega

theorem device_spans : Kmap.Spans ⟨devspace, devspace, 0, pteW⟩ 1040384 1040384 8191 := by
  constructor <;> decide

/-- What `setupkvm` maps is all of it kernel pages. -/
theorem kmap_spans (start : DataAddress data) : ∀ row ∈ kmap data,
    ∃ vpn page count, row.Spans vpn page count := by
  simp only [kmap, List.mem_cons, List.not_mem_nil, or_false]
  rintro row (rfl | rfl | rfl | rfl)
  · exact ⟨_, _, _, io_spans⟩
  · exact ⟨_, _, _, text_spans start⟩
  · exact ⟨_, _, _, data_spans start⟩
  · exact ⟨_, _, _, device_spans⟩

/-- The rows are mapped one after the other. -/
theorem mapRows_spec {pgdir : Nat} (alive : live pgdir) (rows : List Kmap) :
    ∀ {m : Vm} {own : Places β}, Owned layout m live held own →
      (∀ row ∈ rows, ∃ vpn page count, row.Spans vpn page count) →
      m.mapRows pgdir rows = .ok (mapped, later) →
      ∃ next, Owned layout later live held next ∧ Keeps pgdir m own later next ∧
        (∀ page, next page = none → own page = none) ∧ later.torn = m.torn ∧
        (∀ other pte, other < 1048576 → m.entry pgdir other = some pte →
          later.entry pgdir other = some pte) ∧
        (∀ other, other < 524288 → later.entry pgdir other = m.entry pgdir other) ∧
        (mapped = true → later.denied = m.denied ∧
          (∀ row ∈ rows, ∀ vpn page count, row.Spans vpn page count → ∀ offset ≤ count,
            later.entry pgdir (vpn + offset) =
              some (mkPte ((page + offset) * pgsize) row.perm)) ∧
          ∀ other, other < 1048576 → (∀ row ∈ rows, ∀ vpn page count,
            row.Spans vpn page count → ¬ (vpn ≤ other ∧ other ≤ vpn + count)) →
            later.entry pgdir other = m.entry pgdir other) ∧
        (mapped = false → later.denied = m.denied + 1) := by
  induction rows with
  | nil =>
    intro m own owned _ result
    cases result
    exact ⟨own, owned, Keeps.refl _ _ _, fun _ => id, rfl, fun _ _ _ => id, fun _ _ => rfl,
      fun _ => ⟨rfl, by simp, fun _ _ _ => rfl⟩, by simp⟩
  | cons row rows ih =>
    intro m own owned spans result
    obtain ⟨vpn, page, count, span⟩ := spans row (by simp)
    have kernel := span.kernel
    obtain ⟨⟨first, middle⟩, ran, result⟩ := Except.of_bind_ok result
    obtain ⟨between, mapping, keeps, noLoss, torn, kept, success, failure⟩ :=
      (span.run ran).kernel alive span.perm span.hidden owned
    cases first with
    | false =>
      cases result
      obtain ⟨denied, users⟩ := failure rfl
      exact ⟨between, mapping, keeps, noLoss, torn, kept, users, by simp, fun _ => denied⟩
    | true =>
      obtain ⟨denied, entries⟩ := success rfl
      obtain ⟨next, final, rest, restLoss, restTorn, restKept, users, rows, restDenied⟩ :=
        ih mapping (fun other member => spans other (by simp [member])) result
      refine ⟨next, final, keeps.trans rest, fun page isLost => noLoss page (restLoss page isLost),
        restTorn.trans torn, fun other pte below stored =>
          restKept other pte below (kept other pte below stored), fun other below => ?_,
        fun isMapped => ?_, fun isDenied => by rw [restDenied isDenied, denied]⟩
      · rw [users other below, entries other (by omega), if_neg (by omega)]
      · obtain ⟨quiet, covered, outside⟩ := rows isMapped
        refine ⟨quiet.trans denied, fun other member => ?_, fun other below uncovered => ?_⟩
        · rcases List.mem_cons.mp member with rfl | member
          · intro vpn' page' count' span' offset bound
            have same := span.virt.symm.trans span'.virt
            have samePhys := span.phys.symm.trans span'.phys
            have sameSize := span.size.symm.trans span'.size
            simp only [pgsize_eq] at same samePhys sameSize
            obtain ⟨rfl, rfl, rfl⟩ : vpn = vpn' ∧ page = page' ∧ count = count' := by omega
            have inside := span.virtEnd
            refine restKept _ _ (by omega) ?_
            rw [entries _ (by omega), if_pos (by omega), Nat.add_sub_cancel_left]
          · exact covered other member
        · have apart := uncovered row (by simp) vpn page count span
          rw [outside other below fun row member => uncovered row (by simp [member]),
            entries other below, if_neg (by omega)]

/-! ## `setupkvm` -/

/-- Every page of physical memory is reached through the kernel's direct map. -/
def DirectMap (m : Vm) (pgdir : Nat) : Prop :=
  ∀ page, page < 57344 → ∃ pte, m.entry pgdir (524288 + page) = some pte ∧ frame pte = page

/-- The rows of the table cover the direct map. -/
theorem directMap_of_rows {pgdir : Nat} (start : DataAddress data)
    (covered : ∀ row ∈ kmap data, ∀ vpn page count, row.Spans vpn page count →
      ∀ offset ≤ count, m.entry pgdir (vpn + offset) =
        some (mkPte ((page + offset) * pgsize) row.perm)) : DirectMap m pgdir := by
  have bounds := start.bounds
  have reached : ∀ row ∈ kmap data, ∀ vpn first count, row.Spans vpn first count →
      vpn = 524288 + first → ∀ page, first ≤ page → page ≤ first + count →
      ∃ pte, m.entry pgdir (524288 + page) = some pte ∧ frame pte = page := by
    intro row member vpn first count span direct page above below
    have stored := covered row member vpn first count span (page - first) (by omega)
    rw [show vpn + (page - first) = 524288 + page by omega,
      show first + (page - first) = page by omega] at stored
    exact ⟨_, stored, frame_mkPte span.perm⟩
  intro page inside
  by_cases low : page < 256
  · exact reached _ (by simp [kmap]) _ _ _ io_spans rfl page (by omega) (by omega)
  · by_cases text : page < data / 4096 - 524288
    · exact reached _ (by simp [kmap]) _ _ _ (text_spans start) rfl page (by omega) (by omega)
    · exact reached _ (by simp [kmap]) _ _ _ (data_spans start) (by omega) page (by omega)
        (by omega)

/-- A free page is not a directory. -/
theorem Owned.not_live_of_free (owned : Owned layout m live held own)
    (isFree : own page = some .free) : ¬ live page := by
  intro alive
  have isDir := (owned.dir page).mpr alive
  simp [isFree] at isDir

/-- Taking a new directory out of use again leaves the old ones. -/
theorem live_minus_new {pgdir : Nat} (fresh : ¬ live pgdir) :
    (fun other => (live other ∨ other = pgdir) ∧ other ≠ pgdir) = live := by
  funext other
  refine propext ⟨fun both => both.1.resolve_right both.2, fun alive => ?_⟩
  refine ⟨Or.inl alive, ?_⟩
  rintro rfl
  exact fresh alive

/-- What `setupkvm` does: there is no page for the directory, or the rows of the table are
mapped in a new one. -/
theorem setupkvmFor_cases {data : Nat} {answer : Option Nat}
    (result : m.setupkvmFor data = .ok (answer, later)) :
    m.kalloc = (none, later) ∧ answer = none ∨
      ∃ page taken mapped, m.kalloc = (some page, taken) ∧
        (taken.zero page).mapRows page (kmap data) = .ok (mapped, later) ∧
        answer = if mapped then some page else none := by
  unfold setupkvmFor at result
  rcases asked : m.kalloc with ⟨_ | page, taken⟩
  · rw [asked] at result
    cases result
    exact Or.inl ⟨rfl, rfl⟩
  · rw [asked] at result
    simp only [show ¬ p2v phystop > devspace by decide, if_false] at result
    obtain ⟨⟨mapped, after⟩, ran, result⟩ := Except.of_bind_ok result
    cases result
    exact Or.inr ⟨page, taken, mapped, rfl, ran, rfl⟩

section

variable (owned : Owned layout m live held own)

include owned

/-- A zeroed page from the free list is an empty directory. -/
theorem adopt_new {pgdir : Nat} (asked : m.kalloc = (some pgdir, taken)) :
    Owned layout (taken.zero pgdir) (fun other => live other ∨ other = pgdir) held
        (update own pgdir (some .dir)) ∧
      ∀ index, (taken.zero pgdir).tableAt pgdir index = none := by
  obtain ⟨isFree, -, -, -, taking⟩ := owned.kalloc_some asked
  have zeroed : Owned layout (taken.zero pgdir) live held (update own pgdir none) :=
    taking.setPage _ (Owned.not_structural_of_none (update_self _ _ _))
  have empty : ∀ index, (taken.zero pgdir).tableAt pgdir index = none := by
    intro index
    simp [tableAt]
  have adopted := zeroed.adopt (update_self _ _ _) (owned.managed isFree) empty
  rw [update_idem] at adopted
  exact ⟨adopted, empty⟩

/-- The state after `setupkvm` took a page for the directory and mapped the rows. -/
theorem setupkvm_rows {pgdir : Nat}
    (start : DataAddress data) (asked : m.kalloc = (some pgdir, taken))
    (ran : (taken.zero pgdir).mapRows pgdir (kmap data) = .ok (mapped, later)) :
    own pgdir = some .free ∧ later.torn = m.torn ∧
      ∃ next, Owned layout later (fun other => live other ∨ other = pgdir) held next ∧
        Keeps pgdir m own later next ∧
        (∀ page, next page = none → own page = none) ∧
        (∀ vpn, vpn < 524288 → later.entry pgdir vpn = none) ∧
        (mapped = true → later.denied = m.denied ∧ DirectMap later pgdir) ∧
        (mapped = false → later.denied = m.denied + 1) := by
  obtain ⟨isFree, pages, denied, torn, -⟩ := owned.kalloc_some asked
  obtain ⟨adopted, empty⟩ := adopt_new owned asked
  obtain ⟨next, final, keeps, noLoss, restTorn, -, users, success, failure⟩ :=
    mapRows_spec (Or.inr rfl) (kmap data) adopted (kmap_spans start) ran
  refine ⟨isFree, restTorn.trans torn, next, final, ?_, ?_, ?_, ?_, ?_⟩
  · refine Keeps.after_kalloc isFree (fun other apart => ?_)
      (show (taken.zero pgdir).denied = m.denied from denied)
      (show (taken.zero pgdir).torn = m.torn from torn) keeps
    rw [Vm.zero, page_setPage_ne _ _ apart, pages]
  · exact fun page isLost => (update_eq_none.mp (noLoss page isLost)).2
  · intro vpn below
    rw [users vpn below]
    simp [entry, empty]
  · intro isMapped
    obtain ⟨quiet, covered, -⟩ := success isMapped
    exact ⟨quiet.trans denied, directMap_of_rows start covered⟩
  · intro isDenied
    rw [failure isDenied]
    exact congrArg (· + 1) denied

/-- A directory that `setupkvm` returns is new, maps no user page and has the
kernel's direct map. -/
theorem setupkvm_some {pgdir : Nat} (result : m.setupkvm layout = .ok (some pgdir, later)) :
    own pgdir = some .free ∧ later.torn = m.torn ∧ later.denied = m.denied ∧
      ∃ next, Owned layout later (fun other => live other ∨ other = pgdir) held next ∧
        Keeps pgdir m own later next ∧
        (∀ page, next page = none → own page = none) ∧
        (∀ vpn, vpn < 524288 → later.entry pgdir vpn = none) ∧ DirectMap later pgdir := by
  obtain ⟨-, ⟨⟩⟩ | ⟨page, taken, _ | _, asked, ran, ⟨⟩⟩ := setupkvmFor_cases result
  obtain ⟨isFree, torn, next, final, keeps, noLoss, users, success, -⟩ :=
    setupkvm_rows owned layout.dataAddress asked ran
  exact ⟨isFree, torn, (success rfl).1, next, final, keeps, noLoss, users, (success rfl).2⟩

/-- A failed `setupkvm` loses the pages it had taken, if it had taken any. -/
theorem setupkvm_none (result : m.setupkvm layout = .ok (none, later)) (other : Nat) :
    later.torn = m.torn ∧ ∃ next, Owned layout later live held next ∧
      Keeps other m own later next ∧ Accounted layout m own later next := by
  obtain ⟨asked, -⟩ | ⟨page, taken, _ | _, asked, ran, ⟨⟩⟩ := setupkvmFor_cases result
  · obtain ⟨pages, denied, torn, still⟩ := owned.kalloc_none asked
    exact ⟨torn, own, still, Keeps.of_pages pages denied.ge torn.ge,
      Accounted.of_quiet denied fun _ => id⟩
  · obtain ⟨isFree, torn, next, final, keeps, noLoss, -, -, failure⟩ :=
      setupkvm_rows owned layout.dataAddress asked ran
    have fresh := owned.not_live_of_free isFree
    have dropped := final.discard page
    rw [live_minus_new fresh] at dropped
    have more : later.denied = m.denied + 1 := failure rfl
    refine ⟨torn, _, dropped, keeps.discard.of_fresh owned fresh other, ?_, ?_⟩
    · intro same
      exact absurd (more.symm.trans same) (by omega)
    · intro _
      refine ⟨page, owned.managed isFree, ?_⟩
      have isDir := (final.dir page).mpr (Or.inr rfl)
      simp [Xv6.discard, isDir, Belongs]

end

end Xv6
