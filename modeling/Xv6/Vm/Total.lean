import Xv6.Vm.Requests

/-!
# Panics that cannot happen

When the map of owners agrees with memory, `mappages` does not find an entry where
none is, and `kfree` is only called with pages that it accepts. So building a
directory and giving one up again always come to an end.
-/

namespace Xv6

open Vm Function

variable {β : Type} {layout : Layout} {m middle later : Vm} {live : Nat → Prop}
  {held : β → Option Nat} {own next : Places β}

/-! ## Mapping -/

/-- The slot that a walk finds for a page without entry is empty. -/
theorem walk_empty (owned : Owned layout m live held own) {pgdir vpn pgtab index : Nat} {walker : Vm}
    (alive : live pgdir) (inside : vpn < 1048576) (vacant : m.entry pgdir vpn = none)
    (walked : m.walkpgdir pgdir (vpn * pgsize) true = (some (pgtab, index), walker)) :
    present (walker.word pgtab index) = false := by
  obtain ⟨-, -, -, -, -, entries, hit, -⟩ := walk_alloc owned alive walked
  obtain ⟨-, rfl, table⟩ := hit pgtab index rfl
  rw [(pdx_ptx inside).1] at table
  rw [(pdx_ptx inside).2]
  have stored := entry_of_table table (Nat.mod_lt vpn (show 0 < 1024 by decide))
  rw [Nat.div_add_mod', entries vpn inside, vacant] at stored
  by_contra shown
  rw [if_pos (by simpa using shown)] at stored
  cases stored

/-- Mapping a page that has no entry does not panic. -/
theorem mappages_ok (owned : Owned layout m live held own) {pgdir vpn : Nat} (alive : live pgdir)
    (inside : vpn < 1048576) (vacant : m.entry pgdir vpn = none) (pa perm : Nat) :
    ∃ mapped later, m.mappages pgdir (vpn * pgsize) pgsize pa perm = .ok (mapped, later) := by
  rw [mappages_page inside]
  rcases walked : m.walkpgdir pgdir (vpn * pgsize) true with ⟨_ | ⟨pgtab, index⟩, walker⟩
  · exact ⟨false, walker, rfl⟩
  · simp only [walk_empty owned alive inside vacant walked, Bool.false_eq_true, if_false]
    exact ⟨true, _, rfl⟩

/-- The loop over kernel pages that have no entry does not panic. -/
theorem mapLoop_ok {pgdir perm : Nat} (alive : live pgdir) (small : perm < 4096)
    (hidden : perm.testBit 2 = false) (count : Nat) :
    ∀ (rounds vpn page : Nat) {m : Vm} {own : Places β},
      Owned layout m live held own → 524288 ≤ vpn → vpn + count < 1048576 →
      page + count < 1048576 → count < rounds →
      (∀ other, vpn ≤ other → other ≤ vpn + count → m.entry pgdir other = none) →
      ∃ mapped later, mapLoop rounds m pgdir (vpn * pgsize) ((vpn + count) * pgsize)
        (page * pgsize) perm = .ok (mapped, later) := by
  induction count with
  | zero =>
    intro rounds vpn page m own owned above inside bound enough vacant
    obtain ⟨rounds, rfl⟩ : ∃ fewer, rounds = fewer + 1 := ⟨rounds - 1, by omega⟩
    simp only [Nat.add_zero]
    rw [mapLoop_last]
    rcases walked : m.walkpgdir pgdir (vpn * pgsize) true with ⟨_ | ⟨pgtab, index⟩, walker⟩
    · exact ⟨false, walker, rfl⟩
    · have empty := walk_empty owned alive (by omega) (vacant vpn le_rfl (by omega)) walked
      simp only [empty, Bool.false_eq_true, if_false]
      exact ⟨true, _, rfl⟩
  | succ count ih =>
    intro rounds vpn page m own owned above inside bound enough vacant
    obtain ⟨rounds, rfl⟩ : ∃ fewer, rounds = fewer + 1 := ⟨rounds - 1, by omega⟩
    rw [mapLoop]
    rcases walked : m.walkpgdir pgdir (vpn * pgsize) true with ⟨_ | ⟨pgtab, index⟩, walker⟩
    · exact ⟨false, walker, rfl⟩
    · have empty := walk_empty owned alive (by omega) (vacant vpn le_rfl (by omega)) walked
      obtain ⟨between, mapping, -, -, -, -, entries⟩ := map_round owned page alive above (by omega)
        (by omega) small hidden walked
      have notLast : ¬ vpn * pgsize = (vpn + (count + 1)) * pgsize := by
        simp only [pgsize_eq]
        omega
      simp only [empty, Bool.false_eq_true, if_false, if_neg notLast]
      rw [next_page (by omega), next_page (by omega),
        show vpn + (count + 1) = vpn + 1 + count by omega]
      refine ih rounds (vpn + 1) (page + 1) mapping (by omega) (by omega) (by omega)
        (by omega) fun other low high => ?_
      rw [entries other (by omega), if_neg (by omega)]
      exact vacant other (by omega) (by omega)

section

variable (owned : Owned layout m live held own)

include owned

/-- One row of the table of kernel mappings, where nothing is mapped yet. -/
theorem row_ok {pgdir vpn page count : Nat} {row : Kmap}
    (alive : live pgdir) (span : row.Spans vpn page count)
    (vacant : ∀ other, vpn ≤ other → other ≤ vpn + count → m.entry pgdir other = none) :
    ∃ mapped later, m.mappages pgdir row.virt
        ((row.physEnd + 2 ^ 32 - row.physStart) % 2 ^ 32) row.physStart row.perm =
          .ok (mapped, later) ∧
      (∃ next, Owned layout later live held next) ∧
      (mapped = true → ∀ other, other < 1048576 → ¬ (vpn ≤ other ∧ other ≤ vpn + count) →
        later.entry pgdir other = m.entry pgdir other) := by
  rw [span.virt, span.size, span.phys, mappages_pages span.virtEnd]
  have few : count < 2 ^ 20 := by
    have := span.virtEnd
    omega
  obtain ⟨mapped, later, ran⟩ := mapLoop_ok alive span.perm span.hidden count _ _ _ owned
    span.kernel span.virtEnd span.physEnd few vacant
  obtain ⟨next, final, -, -, -, -, success, -⟩ :=
    (mapLoop_run count _ _ _ span.kernel span.virtEnd span.physEnd few ran).kernel alive span.perm
      span.hidden owned
  refine ⟨mapped, later, ran, ⟨next, final⟩, fun isMapped other inside outside => ?_⟩
  rw [(success isMapped).2 other inside, if_neg (by omega)]

/-- A row, and the rows after it. -/
theorem mapRows_ok {pgdir vpn page count : Nat} {row : Kmap}
    {rows : List Kmap} (alive : live pgdir) (span : row.Spans vpn page count)
    (vacant : ∀ other, vpn ≤ other → other ≤ vpn + count → m.entry pgdir other = none)
    (rest : ∀ {later : Vm} {next : Places β}, Owned layout later live held next →
      (∀ other, other < 1048576 → ¬ (vpn ≤ other ∧ other ≤ vpn + count) →
        later.entry pgdir other = m.entry pgdir other) →
      ∃ mapped final, later.mapRows pgdir rows = .ok (mapped, final)) :
    ∃ mapped final, m.mapRows pgdir (row :: rows) = .ok (mapped, final) := by
  obtain ⟨mapped, later, ran, ⟨next, final⟩, entries⟩ := row_ok owned alive span vacant
  rw [mapRows, ran]
  cases mapped with
  | false => exact ⟨false, later, rfl⟩
  | true => exact rest final (entries rfl)

/-- The rows of `kmap` do not overlap. -/
theorem kmap_ok {pgdir data : Nat}
    (start : DataAddress data) (alive : live pgdir) (empty : ∀ vpn, m.entry pgdir vpn = none) :
    ∃ mapped later, m.mapRows pgdir (kmap data) = .ok (mapped, later) := by
  have bounds := start.bounds
  refine mapRows_ok owned alive io_spans (fun other _ _ => empty other) fun {m1 _} owned1 same1 => ?_
  refine mapRows_ok owned1 alive (text_spans start) (fun other low high => ?_)
    fun {m2 _} owned2 same2 => ?_
  · rw [same1 other (by omega) (by omega), empty]
  refine mapRows_ok owned2 alive (data_spans start) (fun other low high => ?_)
    fun {m3 _} owned3 same3 => ?_
  · rw [same2 other (by omega) (by omega), same1 other (by omega) (by omega), empty]
  refine mapRows_ok owned3 alive device_spans (fun other low high => ?_) fun {m4 _} _ _ =>
    ⟨true, m4, rfl⟩
  rw [same3 other (by omega) (by omega), same2 other (by omega) (by omega),
    same1 other (by omega) (by omega), empty]

/-- `setupkvm` does not panic, wherever the kernel's data starts. -/
theorem setupkvmFor_ok {data : Nat}
    (start : DataAddress data) : ∃ answer later, m.setupkvmFor data = .ok (answer, later) := by
  unfold setupkvmFor
  rcases asked : m.kalloc with ⟨_ | pgdir, taken⟩
  · exact ⟨none, taken, rfl⟩
  · obtain ⟨adopted, empty⟩ := adopt_new owned asked
    obtain ⟨mapped, later, ran⟩ := kmap_ok adopted start (Or.inr rfl) fun vpn => by
      simp only [entry, empty]
    simp only [show ¬ p2v phystop > devspace by decide, if_false, ran]
    exact ⟨_, later, rfl⟩

theorem setupkvm_ok :
    ∃ answer later, m.setupkvm layout = .ok (answer, later) :=
  setupkvmFor_ok owned layout.dataAddress

end

/-! ## Freeing -/

/-- Freeing the tables of a directory does not panic: none of them is the directory
itself, so its words stay as they are. -/
theorem freeTables_ok {pgdir : Nat} (indices : List Nat) : ∀ {m : Vm},
    (∀ index ∈ indices, ∀ pgtab, m.tableAt pgdir index = some pgtab →
      layout.Managed pgtab ∧ pgtab ≠ pgdir) →
    ∃ later, freeTables layout m pgdir indices = .ok later := by
  induction indices with
  | nil =>
    intro m _
    exact ⟨m, rfl⟩
  | cons index rest ih =>
    intro m tables
    rw [freeTables]
    split
    · rename_i shown
      obtain ⟨managed, apart⟩ := tables index (by simp) _ (by rw [tableAt, if_pos shown])
      rw [kfree, if_pos managed]
      refine ih fun other member pgtab found => ?_
      rw [tableAt_of_dir (page_push_ne m (Ne.symm apart))] at found
      exact tables other (by simp [member]) pgtab found
    · exact ih fun other member => tables other (by simp [member])

/-- Giving up a directory does not panic. -/
theorem freevm_ok (owned : Owned layout m live held own) {pgdir : Nat} (alive : live pgdir) :
    ∃ later, m.freevm layout pgdir = .ok later := by
  unfold freevm deallocuvm
  rw [if_neg (by decide), show pgroundup 0 = 0 * pgsize from rfl]
  obtain ⟨first, shrink, run⟩ := deallocLoop_run alive le_rfl owned
  obtain ⟨between, shrinking, -⟩ := run.spec alive le_rfl owned
  have isDir := (shrinking.dir pgdir).mpr alive
  obtain ⟨second, freeing⟩ := freeTables_ok (List.range npdentries) (m := first)
    fun index member pgtab found => by
      have isTable := shrinking.table_own alive (List.mem_range.mp member) found
      refine ⟨shrinking.managed isTable, ?_⟩
      rintro rfl
      simp [isDir] at isTable
  rw [shrink]
  simp only [bind, Except.bind, freeing, kfree, if_pos (shrinking.managed isDir)]
  exact ⟨_, rfl⟩

/-! ## Growing and shrinking -/

/-- Shrinking a process does not panic. -/
theorem deallocuvm_ok (owned : Owned layout m live held own) {pgdir oldsz : Nat}
    (alive : live pgdir) (top : oldsz ≤ kernbase) (newsz : Nat) :
    ∃ size later, m.deallocuvm layout pgdir oldsz newsz = .ok (size, later) := by
  unfold deallocuvm
  split
  · exact ⟨_, _, rfl⟩
  · rw [(pgroundup_eq (show newsz ≤ kernbase by omega)).1]
    obtain ⟨later, ran, -⟩ := deallocLoop_run alive top owned
    rw [ran]
    exact ⟨_, _, rfl⟩

/-- Growing over pages that have no entry does not panic. -/
theorem allocLoop_ok {pgdir oldsz newsz vpn : Nat} (alive : live pgdir) (top : newsz < kernbase)
    (owned : Owned layout m live held own)
    (vacant : ∀ other, vpn ≤ other → other < 524288 → m.entry pgdir other = none) :
    ∃ size later, allocLoop layout m pgdir oldsz newsz (vpn * pgsize) = .ok (size, later) := by
  generalize isA : vpn * pgsize = a
  fun_induction allocLoop layout m pgdir oldsz newsz a generalizing vpn own with
  | case1 m a inside taken asked =>
    obtain ⟨-, -, -, still⟩ := owned.kalloc_none asked
    obtain ⟨size, later, ran⟩ := deallocuvm_ok still alive top.le oldsz
    rw [ran]
    exact ⟨_, _, rfl⟩
  | case2 m a inside page taken asked message failed =>
    subst isA
    have bound := user_page top.le inside
    obtain ⟨-, filled, -⟩ := page_asked owned alive asked Bytes.zero
    obtain ⟨mapped, later, ran⟩ := mappages_ok filled alive (show vpn < 1048576 by omega)
      ((entry_taken owned alive asked _ (by omega)).trans (vacant vpn le_rfl bound))
      (page * pgsize) (pteW ||| pteU)
    cases failed.symm.trans ran
  | case3 m a inside page taken asked mapped after mapping middle =>
    rename_i ih
    subst isA
    have bound := user_page top.le inside
    obtain ⟨next, growing, -, -, success, failure⟩ :=
      grow_round owned alive bound asked mapping (rfl : middle = _)
    refine ih growing (fun other above below => ?_) (page_bytes vpn).symm
    cases mapped with
    | true =>
      rw [(success rfl).2 other (by omega), if_neg (by omega)]
      exact vacant other (by omega) below
    | false =>
      rw [(failure rfl).2 other (by omega)]
      exact vacant other (by omega) below
  | case4 => exact ⟨_, _, rfl⟩

/-- Growing a complete process does not panic. -/
theorem allocuvm_ok (owned : Owned layout m live held own) {pgdir oldsz : Nat}
    (alive : live pgdir) (complete : Complete m pgdir oldsz) (newsz : Nat) :
    ∃ size later, m.allocuvm layout pgdir oldsz newsz = .ok (size, later) := by
  unfold allocuvm
  split
  · exact ⟨_, _, rfl⟩
  split
  · exact ⟨_, _, rfl⟩
  · rw [(pgroundup_eq (show oldsz ≤ kernbase by omega)).1]
    refine allocLoop_ok alive (by omega) owned fun other above below => ?_
    have outside := mt (complete other below).mp (page_ge_iff.mp above)
    simpa using outside

/-- Copying pages that are there, over pages that have no entry, does not panic. -/
theorem copyLoop_ok {pgdir sz d vpn : Nat} (source : live pgdir) (alive : live d)
    (apart : pgdir ≠ d) (top : sz ≤ kernbase) (owned : Owned layout m live held own)
    (mapped : ∀ other, other * pgsize < sz → (m.entry pgdir other).isSome)
    (vacant : ∀ other, vpn ≤ other → other < 524288 → m.entry d other = none) :
    ∃ result later, copyLoop layout m pgdir sz d (vpn * pgsize) = .ok (result, later) := by
  generalize isA : vpn * pgsize = a
  fun_induction copyLoop layout m pgdir sz d a generalizing vpn own with
  | case1 m i inside missing =>
    subst isA
    obtain ⟨pte, stored⟩ := Option.isSome_iff_exists.mp (mapped vpn inside)
    obtain ⟨pgtab, index, walked, -⟩ := walk_mapped (by have := user_page top inside; omega) stored
    rw [walked] at missing
    cases missing
  | case2 m i inside pgtab index found pte =>
    rename_i hidden
    subst isA
    obtain ⟨pte, stored⟩ := Option.isSome_iff_exists.mp (mapped vpn inside)
    obtain ⟨_, _, walked, rfl, shown⟩ := walk_mapped (by have := user_page top inside; omega) stored
    cases walked.symm.trans found
    rw [show present pte = true from shown] at hidden
    cases hidden
  | case3 m i inside pgtab index found pte shown taken =>
    rename_i asked
    obtain ⟨-, -, -, still⟩ := owned.kalloc_none asked
    obtain ⟨later, ran⟩ := freevm_ok still alive
    rw [ran]
    exact ⟨_, _, rfl⟩
  | case4 m i inside pgtab index found pte shown page taken asked message =>
    rename_i failed
    subst isA
    have bound := user_page top inside
    obtain ⟨-, filled, -⟩ := page_asked owned alive asked (taken.page (frame pte))
    obtain ⟨done, after, ran⟩ := mappages_ok filled alive (show vpn < 1048576 by omega)
      ((entry_taken owned alive asked _ (by omega)).trans (vacant vpn le_rfl bound))
      (page * pgsize) (pteFlags pte)
    cases failed.symm.trans ran
  | case5 m i inside pgtab index found pte shown page taken asked after mapping =>
    rename_i ih
    subst isA
    have bound := user_page top inside
    obtain ⟨-, next, growing, keeps, -, success, -⟩ :=
      grow_page owned alive bound asked (Nat.mod_lt _ (by decide)) _ mapping
    refine ih growing (fun other below => ?_) (fun other above below => ?_) (page_bytes vpn).symm
    · rw [keeps.entry owned source apart (by have := user_page top below; omega)]
      exact mapped other below
    · rw [(success rfl).2 other (by omega), if_neg (by omega)]
      exact vacant other (by omega) below
  | case6 m i inside pgtab index found pte shown page taken asked after =>
    rename_i mapping
    subst isA
    obtain ⟨-, next, growing, -⟩ :=
      grow_page owned alive (user_page top inside) asked (Nat.mod_lt _ (by decide)) _ mapping
    obtain ⟨later, freed⟩ := freevm_ok growing alive
    rw [freed]
    exact ⟨_, _, rfl⟩
  | case7 => exact ⟨_, _, rfl⟩

/-- Copying a process whose pages are there does not panic. -/
theorem copyuvm_ok (owned : Owned layout m live held own) {pgdir sz : Nat} (alive : live pgdir)
    (top : sz ≤ kernbase) (mapped : ∀ vpn, vpn * pgsize < sz → (m.entry pgdir vpn).isSome) :
    ∃ result later, m.copyuvm layout pgdir sz = .ok (result, later) := by
  obtain ⟨answer, fresh, setup⟩ := setupkvm_ok owned
  unfold copyuvm
  simp only [setup, bind, Except.bind]
  cases answer with
  | none => exact ⟨_, _, rfl⟩
  | some d =>
    obtain ⟨isFree, -, -, between, building, keeps, -, empty, -⟩ := setupkvm_some owned setup
    have apart : pgdir ≠ d := by
      rintro rfl
      exact owned.not_live_of_free isFree alive
    rw [← Nat.zero_mul pgsize]
    refine copyLoop_ok (Or.inl alive) (Or.inr rfl) apart top building (fun vpn below => ?_)
      fun other _ below => empty other below
    have inUser := user_page top below
    rw [keeps.entry owned alive apart (by omega)]
    exact mapped vpn below

/-! ## `freerange` -/

/-- The kernel address of a physical page. -/
theorem v2p_page {page : Nat} (inside : page < 57344) :
    v2p ((524288 + page) * pgsize) / pgsize = page := by
  simp only [v2p, pgsize_eq, kernbase_eq]
  omega

/-- A map of owners in which a range of pages is free. -/
def freed (own : Places β) (first count : Nat) : Places β :=
  fun page => if first ≤ page ∧ page < first + count then some .free else own page

/-- Pages in hand are put on the free list one after the other; the last is its head. -/
theorem freerange_spec (count : Nat) :
    ∀ (first : Nat) {m : Vm} {own : Places β}, Owned layout m live held own →
      first + count ≤ 57344 →
      (∀ page, first ≤ page → page < first + count → own page = none ∧ layout.Managed page) →
      ∃ later, freerange layout m ((524288 + first) * pgsize)
          ((524288 + (first + count)) * pgsize) = .ok later ∧
        Owned layout later live held (freed own first count) ∧
        later.free = m.free + count ∧ later.refuse = m.refuse ∧ later.denied = m.denied ∧
        (0 < count → later.freelist = p2v ((first + count - 1) * pgsize)) := by
  induction count with
  | zero =>
    intro first m own owned top hand
    rw [freerange, if_neg (by simp only [pgsize_eq]; omega)]
    have none : freed own first 0 = own := by
      funext page
      exact if_neg (by omega)
    rw [none]
    exact ⟨m, rfl, owned, rfl, rfl, rfl, by rintro ⟨⟩⟩
  | succ count ih =>
    intro first m own owned top hand
    obtain ⟨inHand, managed⟩ := hand first le_rfl (by omega)
    rw [freerange, if_pos (by simp only [pgsize_eq]; omega), v2p_page (by omega), kfree,
      if_pos managed]
    rw [page_bytes, show 524288 + first + 1 = 524288 + (first + 1) by omega,
      show 524288 + (first + (count + 1)) = 524288 + (first + 1 + count) by omega]
    obtain ⟨later, ran, final, free, refuse, denied, head⟩ := ih (first + 1)
      (owned.push inHand managed) (by omega) (fun page low high => by
        rw [update_of_ne (by omega)]
        exact hand page (by omega) (by omega))
    refine ⟨later, ran, ?_, ?_, refuse, denied, fun _ => ?_⟩
    · have same : freed own first (count + 1) =
          freed (update own first (some .free)) (first + 1) count := by
        funext page
        by_cases here : page = first
        · subst here
          simp only [freed, update_self]
          rw [if_pos (by omega), if_neg (by omega)]
        · simp only [freed, update_of_ne here]
          exact if_congr (by omega) rfl rfl
      rw [same]
      exact final
    · rw [free]
      simp only [Vm.push]
      omega
    · cases count with
      | zero =>
        rw [freerange, if_neg (by simp only [pgsize_eq]; omega)] at ran
        cases ran
        rfl
      | succ count =>
        rw [head (by omega)]
        congr 2
        omega

end Xv6
