import Xv6.Vm.Total

/-!
# The kernel's part of a directory

The hardware translates an address through the directory and a table, and allows
what both entries allow. Directories that `walkpgdir` fills have generous entries,
so a translation has exactly the permissions of its table entry. `setupkvm` then
maps the rows of `kmap` and nothing else, whatever the pages it got held before.

The two lemmas about single rounds follow `walkpgdir` and the loop of `mappages`;
everything else is read off the entries.
-/

namespace Xv6

open Vm

variable {β : Type} {layout : Layout} {m later : Vm} {live : Nat → Prop}
  {held : β → Option Nat} {own : Places β}
  {page perm va pgdir index pgtab vpn count data : Nat} {mapped : Bool} {row : Kmap}

/-- The test `entry & PTE_W`. -/
def writeBit (entry : Nat) : Bool := entry.testBit 1

/-- What the hardware finds for an address: where it is in physical memory, and
whether a store and an access from user mode are allowed. -/
structure Translation where
  pa : Nat
  writable : Bool
  user : Bool
deriving DecidableEq, Repr

namespace Vm

/-- The hardware's walk through a directory and a table. Both entries have to allow
what is allowed. -/
def translate (m : Vm) (pgdir va : Nat) : Option Translation :=
  let pde := m.word pgdir (pdx va)
  if present pde then
    let pte := m.word (frame pde) (ptx va)
    if present pte then
      some ⟨frame pte * pgsize + va % pgsize, writeBit pde && writeBit pte,
        userBit pde && userBit pte⟩
    else none
  else none

/-- The directory's own entries are those that `walkpgdir` stores: present,
writeable and for the user. -/
def Generous (m : Vm) (pgdir : Nat) : Prop :=
  ∀ index, index < 1024 → present (m.word pgdir index) = true →
    pteFlags (m.word pgdir index) = 7

end Vm

theorem testBit_flags (entry : Nat) {bit : Nat} (low : bit < 12) :
    entry.testBit bit = (pteFlags entry).testBit bit := by
  have power : pgsize = 2 ^ 12 := rfl
  rw [pteFlags, power, Nat.testBit_mod_two_pow]
  simp [low]

theorem writeBit_mkPte (small : perm < 4096) :
    writeBit (mkPte (page * pgsize) perm) = perm.testBit 1 := by
  rw [writeBit, testBit_flags _ (by decide), pteFlags_mkPte small, Nat.testBit_or]
  simp [show Nat.testBit 1 1 = false from rfl]

/-- The indices of an address are those of its page. -/
theorem pdx_ptx_page (inside : va < 2 ^ 32) :
    pdx va = va / pgsize / 1024 ∧ ptx va = va / pgsize % 1024 ∧ va / pgsize < 1048576 := by
  simp only [pdx, ptx, pgsize_eq]
  omega

/-- A generous directory translates each address by its entry. -/
theorem translate_eq (generous : m.Generous pgdir) (inside : va < 2 ^ 32) :
    m.translate pgdir va = (m.entry pgdir (va / pgsize)).map fun pte =>
      ⟨frame pte * pgsize + va % pgsize, writeBit pte, userBit pte⟩ := by
  obtain ⟨first, second, bound⟩ := pdx_ptx_page inside
  simp only [Vm.translate, entry, tableAt, first, second]
  by_cases shown : present (m.word pgdir (va / pgsize / 1024)) = true
  · have flags := generous (va / pgsize / 1024) (by omega) shown
    have writes : writeBit (m.word pgdir (va / pgsize / 1024)) = true := by
      rw [writeBit, testBit_flags _ (by decide), flags]
      rfl
    have user : userBit (m.word pgdir (va / pgsize / 1024)) = true := by
      rw [userBit, testBit_flags _ (by decide), flags]
      rfl
    simp only [shown, writes, user, if_true, Bool.true_and]
    split <;> rfl
  · simp only [shown]
    rfl

/-! ## Directory entries -/

theorem Vm.Generous.congr (generous : m.Generous pgdir) (same : later.page pgdir = m.page pgdir) :
    later.Generous pgdir := by
  intro index inside
  rw [word_congr same]
  exact generous index inside

section

variable (owned : Owned layout m live held own) (alive : live pgdir)

include owned alive

/-- A walk that creates a missing table stores a generous entry for it. -/
theorem walk_generous
    {found : Option (Nat × Nat)} (result : m.walkpgdir pgdir va true = (found, later))
    (generous : m.Generous pgdir) :
    later.Generous pgdir := by
  cases walk_cases result with
  | found => exact generous
  | denied _ asked => exact generous.congr (congrFun (owned.kalloc_none asked).1 pgdir)
  | @made pgtab taken _ asked =>
    obtain ⟨isFree, pages, -⟩ := owned.kalloc_some asked
    have apart : pgdir ≠ pgtab := by
      rintro rfl
      exact owned.not_live_of_free isFree alive
    have zeroed : (taken.zero pgtab).Generous pgdir :=
      generous.congr (by rw [Vm.zero, page_setPage_ne _ _ apart, pages])
    have fits : mkPte (pgtab * pgsize) 6 < 2 ^ 32 :=
      mkPte_lt (by have := (owned.managed isFree).lt; omega) (by decide)
    intro index inside shown
    rw [word_store _ (pdx_lt va) fits] at shown ⊢
    split
    · exact pteFlags_mkPte (by decide)
    · rename_i other
      rw [if_neg other] at shown
      exact zeroed index inside shown

/-- A store into one of the directory's tables leaves the directory alone. -/
theorem Vm.Generous.store (inside : index < 1024) (found : m.tableAt pgdir index = some pgtab)
    (generous : m.Generous pgdir) (slot value : Nat) :
    (m.store pgtab slot value).Generous pgdir := by
  have isTable := owned.table_own alive inside found
  have isDir := (owned.dir pgdir).mpr alive
  apply generous.congr
  apply page_setPage_ne
  rintro rfl
  simp [isTable] at isDir

/-- One round of the loop of `mappages`. -/
theorem round_generous {walker : Vm}
    (walked : m.walkpgdir pgdir va true = (some (pgtab, index), walker)) (value : Nat)
    (generous : m.Generous pgdir) : (walker.store pgtab index value).Generous pgdir := by
  obtain ⟨next, walking, -, -, -, -, hit, -⟩ := walk_alloc owned alive walked
  obtain ⟨-, -, table⟩ := hit pgtab index rfl
  exact (walk_generous owned alive walked generous).store walking alive (pdx_lt va) table index value

end

/-- A run of the loop over kernel addresses. -/
theorem MapRun.generous (alive : live pgdir) (small : perm < 4096) (hidden : perm.testBit 2 = false)
    (run : MapRun pgdir perm vpn page count m mapped later) :
    ∀ {own : Places β}, Owned layout m live held own → m.Generous pgdir →
      later.Generous pgdir := by
  induction run with
  | done => exact fun _ => id
  | denied _ walked => exact fun owned => walk_generous owned alive walked
  | next above inside bound walked _ _ ih =>
    intro own owned generous
    obtain ⟨between, mapping, -⟩ :=
      map_round owned _ alive above inside bound small hidden walked
    exact ih mapping (round_generous owned alive walked _ generous)

/-- The loop of `setupkvm`. -/
theorem mapRows_generous (alive : live pgdir) (rows : List Kmap) :
    ∀ {m : Vm} {own : Places β}, Owned layout m live held own →
      (∀ row ∈ rows, ∃ vpn page count, row.Spans vpn page count) →
      m.mapRows pgdir rows = .ok (mapped, later) → m.Generous pgdir → later.Generous pgdir := by
  induction rows with
  | nil =>
    intro m own owned spans result generous
    cases result
    exact generous
  | cons row rows ih =>
    intro m own owned spans result generous
    obtain ⟨vpn, page, count, span⟩ := spans row (by simp)
    obtain ⟨⟨first, middle⟩, ran, rest⟩ := Except.of_bind_ok result
    have run := span.run ran
    obtain ⟨between, mapping, -⟩ := run.kernel alive span.perm span.hidden owned
    have still := run.generous alive span.perm span.hidden owned generous
    cases first with
    | false =>
      cases rest
      exact still
    | true =>
      exact ih mapping (fun other member => spans other (by simp [member])) rest
        still

/-! ## What `setupkvm` maps -/

/-- The bytes that `setupkvm` maps for a row. -/
def Kmap.size (row : Kmap) : Nat := (row.physEnd + 2 ^ 32 - row.physStart) % 2 ^ 32

/-- The entry that a row gives to a virtual page. -/
def Kmap.entry (row : Kmap) (vpn : Nat) : Option Nat :=
  if row.virt ≤ vpn * pgsize ∧ vpn * pgsize < row.virt + row.size then
    some (mkPte (row.physStart + (vpn * pgsize - row.virt)) row.perm)
  else none

theorem Kmap.Spans.entry_eq (span : row.Spans vpn page count) (other : Nat) : row.entry other =
      if vpn ≤ other ∧ other ≤ vpn + count then
        some (mkPte ((page + (other - vpn)) * pgsize) row.perm)
      else none := by
  have size : row.size = (count + 1) * pgsize := span.size
  simp only [Kmap.entry, span.virt, span.phys, size, pgsize_eq]
  by_cases within : vpn ≤ other ∧ other ≤ vpn + count
  · rw [if_pos (by omega), if_pos within,
      show page * 4096 + (other * 4096 - vpn * 4096) = (page + (other - vpn)) * 4096 by omega]
  · rw [if_neg (by omega), if_neg within]

/-- A directory that `setupkvm` returns has generous entries, and holds the pages of
each row and no others. -/
theorem setupkvm_entries (owned : Owned layout m live held own) (start : DataAddress data)
    (result : m.setupkvmFor data = .ok (some pgdir, later)) :
    later.Generous pgdir ∧ ∀ vpn, vpn < 1048576 →
      (∀ row ∈ kmap data, ∀ pte, row.entry vpn = some pte → later.entry pgdir vpn = some pte) ∧
      ((∀ row ∈ kmap data, row.entry vpn = none) → later.entry pgdir vpn = none) := by
  obtain ⟨-, ⟨⟩⟩ | ⟨page, taken, _ | _, asked, ran, ⟨⟩⟩ := setupkvmFor_cases result
  obtain ⟨adopted, empty⟩ := adopt_new owned asked
  have alive : live pgdir ∨ pgdir = pgdir := Or.inr rfl
  have bare : (taken.zero pgdir).Generous pgdir := by
    intro index _ shown
    simp at shown
  have noEntry : ∀ vpn, (taken.zero pgdir).entry pgdir vpn = none := by
    intro vpn
    simp [entry, empty]
  obtain ⟨next, -, -, -, -, -, -, success, -⟩ :=
    mapRows_spec alive (kmap data) adopted (kmap_spans start) ran
  constructor
  · exact mapRows_generous alive (kmap data) adopted (kmap_spans start) ran bare
  · intro vpn inside
    constructor
    · intro row member pte isRow
      obtain ⟨first, frame, count, span⟩ := kmap_spans start row member
      rw [span.entry_eq] at isRow
      split at isRow
      · rename_i within
        have stored := (success rfl).2.1 row member first frame count span (vpn - first) (by omega)
        rw [show first + (vpn - first) = vpn by omega] at stored
        rw [stored]
        exact isRow
      · cases isRow
    · intro uncovered
      rw [(success rfl).2.2 vpn inside, noEntry]
      intro row member first frame count span within
      have none := uncovered row member
      rw [span.entry_eq, if_pos within] at none
      cases none

/-! ## Every address -/

/-- The allocator's list of free pages: they are distinct, and lie above the start of
the kernel's data and below the top of physical memory. Their contents are arbitrary
but for the link to the next page. -/
structure FreeList (m : Vm) (data : Nat) (pages : List Nat) : Prop where
  chain : m.Chain m.freelist pages
  nodup : pages.Nodup
  counted : pages.length = m.free
  above : ∀ page ∈ pages, data ≤ page * pgsize + kernbase
  below : ∀ page ∈ pages, page * pgsize < phystop

/-- The smallest kernel: all pages above its first one are the allocator's. -/
def smallestLayout : Layout where
  data := kernlink + pgsize
  kernelEnd := kernlink + pgsize
  data_aligned := by decide
  kernlink_lt_data := by decide
  data_le_end := Nat.le_refl _
  end_le := by decide

/-- Without directories in use, the pages of the list are the only ones with a place. -/
theorem FreeList.owned (start : DataAddress data) {pages : List Nat} (free : FreeList m data pages) :

    Owned smallestLayout m (fun _ => False) (fun _ : Empty => none)
      (fun page => if page ∈ pages then some .free else none) where
  managed := by
    intro page place here
    split at here
    · rename_i member
      have low := free.above page member
      have bounds := start.bounds
      refine ⟨?_, free.below page member⟩
      simp only [smallestLayout, kernlink_eq, kernbase_eq, pgsize_eq] at low ⊢
      omega
    · cases here
  chain := ⟨pages, free.chain, ⟨free.nodup, free.counted⟩, by simp⟩
  dir := by simp
  table := by simp
  user := by simp
  kernel := by rintro _ _ _ ⟨⟩
  other := by simp

/-- The page of an address lies in a row exactly when the address does. -/
theorem Kmap.Spans.entry_of_address (span : row.Spans vpn page count) (va : Nat) :
    row.entry (va / pgsize) =
      if row.virt ≤ va ∧ va < row.virt + row.size then
        some (mkPte ((page + (va / pgsize - vpn)) * pgsize) row.perm)
      else none := by
  have size : row.size = (count + 1) * pgsize := span.size
  rw [span.entry_eq, span.virt, size]
  simp only [pgsize_eq]
  exact if_congr (by omega) rfl rfl

/-- `setupkvm` maps exactly the kernel. Wherever the kernel's data starts and whatever
the free pages hold, it neither panics nor loops, and in a directory that it returns an
address of a row translates to the row's physical address, with the row's permission to
write and without access for the user, and no other address translates. -/
theorem setupkvm_maps_kernel {data : Nat} (start : DataAddress data) (m : Vm) (pages : List Nat)
    (free : FreeList m data pages) :
    ∃ answer later, m.setupkvmFor data = .ok (answer, later) ∧
      ∀ pgdir, answer = some pgdir → ∀ va, va < 2 ^ 32 →
        (∀ row ∈ kmap data, row.virt ≤ va → va < row.virt + row.size →
          later.translate pgdir va =
            some ⟨row.physStart + (va - row.virt), writeBit row.perm, false⟩) ∧
        ((∀ row ∈ kmap data, ¬ (row.virt ≤ va ∧ va < row.virt + row.size)) →
          later.translate pgdir va = none) ∧
        (va < kernbase ∨ p2v phystop ≤ va ∧ va < devspace →
          later.translate pgdir va = none) := by
  have owned := free.owned start
  obtain ⟨answer, later, ran⟩ := setupkvmFor_ok owned start
  refine ⟨answer, later, ran, ?_⟩
  rintro pgdir rfl va inside
  obtain ⟨generous, entries⟩ := setupkvm_entries owned start ran
  obtain ⟨covered, uncovered⟩ := entries (va / pgsize) (pdx_ptx_page inside).2.2
  have unmapped : (∀ row ∈ kmap data, ¬ (row.virt ≤ va ∧ va < row.virt + row.size)) →
      later.translate pgdir va = none := by
    intro outside
    rw [translate_eq generous inside, uncovered]
    · rfl
    · intro row member
      obtain ⟨vpn, page, count, span⟩ := kmap_spans start row member
      rw [span.entry_of_address, if_neg (outside row member)]
  refine ⟨?_, unmapped, ?_⟩
  · intro row member low high
    obtain ⟨vpn, page, count, span⟩ := kmap_spans start row member
    have here := span.entry_of_address va
    rw [if_pos ⟨low, high⟩] at here
    have address : (page + (va / pgsize - vpn)) * pgsize + va % pgsize =
        row.physStart + (va - row.virt) := by
      rw [span.virt] at low
      rw [span.phys, span.virt]
      simp only [pgsize_eq] at low ⊢
      omega
    rw [translate_eq generous inside, covered row member _ here, Option.map_some,
      frame_mkPte span.perm, writeBit_mkPte span.perm, userBit_mkPte, span.hidden, address,
      writeBit]
  · intro gap
    apply unmapped
    have bounds := start.bounds
    have aligned := start.aligned
    simp only [kmap, List.mem_cons, List.not_mem_nil, or_false, kernbase_eq, devspace_eq, p2v,
      phystop_eq, pgsize_eq] at gap aligned ⊢
    rintro row (rfl | rfl | rfl | rfl) <;>
      simp only [Kmap.size, extmem_eq, kernlink_eq, kernbase_eq, v2p] <;> omega

/-- A machine on which nothing but a number of pages on the free list is in use. -/
theorem spare_pages (count : Nat) (few : count ≤ 1000) :
    ∃ (m : Vm) (own : Places Empty),
      Owned smallestLayout m (fun _ => False) (fun _ => none) own ∧ m.free = count ∧
        m.refuse = fun _ => false := by
  let empty : Vm := ⟨fun _ => Bytes.zero, 0, 0, fun _ => false, 0, 0, 0⟩
  have nothing : Owned smallestLayout empty (fun _ => False) (fun _ : Empty => none)
      fun _ => none :=
    ⟨by simp, ⟨[], rfl, ⟨List.nodup_nil, rfl⟩, by simp⟩, by simp, by simp, by simp, by simp, by simp⟩
  obtain ⟨m, -, owned, free, refuse, -⟩ := freerange_spec count 300 nothing (by omega)
    fun page low high => by
      refine ⟨rfl, ?_, ?_⟩ <;>
        simp only [smallestLayout, kernlink_eq, kernbase_eq, phystop_eq, pgsize_eq] <;> omega
  exact ⟨m, _, owned, free.trans (Nat.zero_add _), refuse⟩

/-- With enough pages `setupkvm` returns a directory. -/
theorem setupkvm_served (owned : Owned layout m live held own) (enough : 65 ≤ m.free)
    (willing : m.refuse = fun _ => false) : ∃ pgdir later,
      m.setupkvm layout = .ok (some pgdir, later) ∧ Served 65 m later := by
  obtain ⟨answer, later, ran⟩ := setupkvm_ok owned
  have served : m.foresee setupRequests = none := by
    rw [Vm.foresee, willing]
    exact forecast_none enough
  obtain ⟨given, rest⟩ := (setupkvm_asked owned ran).1.served served
  cases answer with
  | none => exact absurd rfl given
  | some pgdir => exact ⟨pgdir, later, ran, rest⟩

/-- A machine with a hundred free pages gets a directory. -/
theorem setupkvm_maps_kernel_smallest : ∃ m pages pgdir later,
    FreeList m (kernlink + pgsize) pages ∧
      m.setupkvmFor (kernlink + pgsize) = .ok (some pgdir, later) ∧
      later.translate pgdir 0xFFFFFFFF = some ⟨0xFFFFFFFF, true, false⟩ ∧
      later.translate pgdir kernlink = some ⟨extmem, false, false⟩ ∧
      later.translate pgdir 0 = none := by
  obtain ⟨m, own, owned, count, willing⟩ := spare_pages 100 (by decide)
  obtain ⟨pages, chain, ⟨nodup, counted⟩, isFree⟩ := owned.chain
  have managed : ∀ page ∈ pages, smallestLayout.Managed page :=
    fun page member => owned.managed ((isFree page).mpr member)
  have start : DataAddress (kernlink + pgsize) := smallestLayout.dataAddress
  have free : FreeList m (kernlink + pgsize) pages :=
    ⟨chain, nodup, counted, fun page member => (managed page member).1,
      fun page member => (managed page member).2⟩
  obtain ⟨pgdir, later, ran, -⟩ := setupkvm_served owned (by omega) willing
  obtain ⟨answer, later', ran', maps⟩ := setupkvm_maps_kernel start m pages free
  have same : m.setupkvmFor (kernlink + pgsize) = .ok (some pgdir, later) := ran
  rw [ran'] at same
  cases same
  refine ⟨m, pages, pgdir, later, free, ran', ?_, ?_, ?_⟩
  · exact (maps pgdir rfl 0xFFFFFFFF (by decide)).1 ⟨devspace, devspace, 0, pteW⟩
      (by simp [kmap]) (by decide) (by decide)
  · exact (maps pgdir rfl kernlink (by decide)).1
      ⟨kernlink, v2p kernlink, v2p (kernlink + pgsize), 0⟩ (by simp [kmap]) (by decide) (by decide)
  · exact (maps pgdir rfl 0 (by decide)).2.2 (Or.inl (by decide))

end Xv6
