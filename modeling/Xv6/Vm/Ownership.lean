import Xv6.Vm.Model

/-!
# Who owns a physical page

Every page that the allocator manages has at most one place: the free list, a
page directory, a page table of one directory, a user mapping of one directory,
or some other holder such as a kernel stack. The map `own` names that place. It
is not part of the state; `Owned` ties it to the words in memory in both
directions, so a page cannot be referred to from two places and a page with a
place is really referred to from there. A managed page without a place is in the
hands of the running function; once that function is done with it, it is lost.

This module proves what the allocator and a store into a directory or a table do
to the map. The functions of `vm.c` are sequences of these steps.
-/

namespace Xv6

open Function

variable {page pgdir index pgtab slot other vpn : Nat}

/-- The place that owns a page. The holders outside the page tables are named by
a type of their own. -/
inductive Place (β : Type) where
  | free
  | dir
  | table (pgdir index : Nat)
  | user (pgdir vpn : Nat)
  | other (holder : β)

/-- The place of each page, if it has one. -/
abbrev Places (β : Type) : Type := Nat → Option (Place β)

namespace Vm

/-- The table that a directory holds at an index. -/
def tableAt (m : Vm) (pgdir index : Nat) : Option Nat :=
  if present (m.word pgdir index) then some (frame (m.word pgdir index)) else none

/-- The present entry for a virtual page. -/
def entry (m : Vm) (pgdir vpn : Nat) : Option Nat :=
  match m.tableAt pgdir (vpn / 1024) with
  | none => none
  | some pgtab =>
    if present (m.word pgtab (vpn % 1024)) then some (m.word pgtab (vpn % 1024)) else none

/-- The free list from a pointer on. -/
def Chain (m : Vm) : Nat → List Nat → Prop
  | pointer, [] => pointer = 0
  | pointer, page :: rest => pointer = p2v (page * pgsize) ∧ m.Chain (m.word page 0) rest

/-- Pages with equal contents have equal words. -/
theorem word_congr {m later : Vm} (same : later.page page = m.page page) :
    later.word page = m.word page := by
  funext index
  simp only [word, same]

/-- The entry for a page whose table is known. -/
theorem entry_of_table {m : Vm} (found : m.tableAt pgdir index = some pgtab) (bound : slot < 1024) :
    m.entry pgdir (index * 1024 + slot) =
      if present (m.word pgtab slot) then some (m.word pgtab slot) else none := by
  have quotient : (index * 1024 + slot) / 1024 = index := by omega
  have remainder : (index * 1024 + slot) % 1024 = slot := by omega
  simp only [entry, quotient, remainder, found]

/-- Tables only depend on the pages. -/
theorem tableAt_of_page {m later : Vm} (same : later.page = m.page) :
    later.tableAt = m.tableAt := by
  funext pgdir index
  simp only [tableAt, word_congr (congrFun same pgdir)]

/-- Entries only depend on the pages. -/
theorem entry_of_page {m later : Vm} (same : later.page = m.page) :
    later.entry = m.entry := by
  funext pgdir vpn
  simp only [entry, tableAt_of_page same]
  split
  · rfl
  · rename_i pgtab _
    simp only [word_congr (congrFun same pgtab)]

theorem word_setPage_ne (m : Vm) (contents : Page) (index : Nat) (apart : other ≠ page) :
    (m.setPage page contents).word other index = m.word other index := by
  simp [word, setPage, update_of_ne apart]

theorem page_setPage_ne (m : Vm) (contents : Page) (apart : other ≠ page) :
    (m.setPage page contents).page other = m.page other := by
  simp [setPage, update_of_ne apart]

theorem page_push_ne (m : Vm) (apart : other ≠ page) : (m.push page).page other = m.page other := by
  simp [push, setPage, apart]

@[simp] theorem word_zero (m : Vm) (page index : Nat) : (m.zero page).word page index = 0 := by
  simp [word, zero, setPage]

theorem word_lt (m : Vm) (page index : Nat) : m.word page index < 2 ^ 32 :=
  Bytes.u32_lt _ _

/-- A stored word reads back; all other words are unchanged. -/
theorem word_store (m : Vm) {value : Nat} (inside : index < 1024) (fits : value < 2 ^ 32)
    (other place : Nat) :
    (m.store page index value).word other place =
      if other = page ∧ place = index then value else m.word other place := by
  by_cases same : other = page
  · subst same
    by_cases here : place = index
    · subst here
      simp only [word, store, setPage, update_self, and_self, if_true]
      rw [Bytes.u32_putU32 _ _ _ (by simp only [pgsize_eq]; omega), Nat.mod_eq_of_lt fits]
    · simp only [word, store, setPage, update_self, here, and_false, if_false]
      exact Bytes.u32_putU32_ne _ _ _ _ (by omega)
  · simp [word, store, setPage, same]

/-- The free list only depends on the links in its own pages. -/
theorem Chain.congr {m later : Vm} {pages : List Nat} :
    ∀ {pointer : Nat}, m.Chain pointer pages →
      (∀ page ∈ pages, later.word page 0 = m.word page 0) → later.Chain pointer pages := by
  induction pages with
  | nil => intro pointer chain _; exact chain
  | cons page rest ih =>
    intro pointer chain same
    refine ⟨chain.1, ?_⟩
    rw [same page (by simp)]
    exact ih chain.2 fun other member => same other (by simp [member])

end Vm

open Vm

variable {β : Type} {layout : Layout} {m later : Vm} {live : Nat → Prop}
  {held : β → Option Nat} {own : Places β}

/-- The words of memory and the map of owners agree. `live` are the directories
in use and `held` gives the pages of the other holders. -/
structure Owned (layout : Layout) (m : Vm) (live : Nat → Prop) (held : β → Option Nat)
    (own : Places β) : Prop where
  managed : ∀ {page place}, own page = some place → layout.Managed page
  chain : ∃ pages, m.Chain m.freelist pages ∧ (pages.Nodup ∧ pages.length = m.free) ∧
    ∀ page, own page = some .free ↔ page ∈ pages
  dir : ∀ pgdir, own pgdir = some .dir ↔ live pgdir
  table : ∀ pgtab pgdir index, own pgtab = some (.table pgdir index) ↔
    live pgdir ∧ index < 1024 ∧ m.tableAt pgdir index = some pgtab
  user : ∀ page pgdir vpn, own page = some (.user pgdir vpn) ↔
    live pgdir ∧ vpn < 524288 ∧ ∃ pte, m.entry pgdir vpn = some pte ∧ frame pte = page
  kernel : ∀ pgdir vpn pte, live pgdir → 524288 ≤ vpn → vpn < 1048576 →
    m.entry pgdir vpn = some pte → userBit pte = false
  other : ∀ page holder, own page = some (.other holder) ↔ held holder = some page

/-- The pages whose contents the invariant reads. -/
def Structural (own : Places β) (page : Nat) : Prop :=
  own page = some .free ∨ own page = some .dir ∨
    ∃ pgdir index, own page = some (.table pgdir index)

namespace Owned

section

variable (owned : Owned layout m live held own)

include owned

theorem table_own (alive : live pgdir)
    (inside : index < 1024) (found : m.tableAt pgdir index = some pgtab) :
    own pgtab = some (.table pgdir index) :=
  (owned.table pgtab pgdir index).mpr ⟨alive, inside, found⟩

/-- Directories whose pages agree hold the same tables. -/
theorem tableAt_congr
    (same : ∀ page, own page = some .dir → later.page page = m.page page) (alive : live pgdir)
    (index : Nat) :
    later.tableAt pgdir index = m.tableAt pgdir index := by
  simp only [tableAt, word_congr (same pgdir ((owned.dir pgdir).mpr alive))]

/-- Directories whose pages and tables agree hold the same entries. -/
theorem entry_congr (alive : live pgdir) (sameDir : later.page pgdir = m.page pgdir)
    (sameTable : ∀ page index, own page = some (.table pgdir index) →
      later.page page = m.page page)
    (inside : vpn < 1048576) : later.entry pgdir vpn = m.entry pgdir vpn := by
  have tables : later.tableAt pgdir (vpn / 1024) = m.tableAt pgdir (vpn / 1024) := by
    simp only [tableAt, word_congr sameDir]
  simp only [entry, tables]
  cases found : m.tableAt pgdir (vpn / 1024) with
  | none => rfl
  | some pgtab =>
    have place := owned.table_own alive (by omega) found
    simp only [word_congr (sameTable pgtab _ place)]

/-- Entries only depend on pages that carry structure. -/
theorem entry_structural
    (same : ∀ page, Structural own page → later.page page = m.page page) (alive : live pgdir)
    (inside : vpn < 1048576) :
    later.entry pgdir vpn = m.entry pgdir vpn :=
  owned.entry_congr alive (same pgdir (Or.inr (Or.inl ((owned.dir pgdir).mpr alive))))
    (fun page index place => same page (Or.inr (Or.inr ⟨pgdir, index, place⟩))) inside

/-- The invariant only reads the free list, the directories and the tables. -/
theorem congr (same : ∀ page, Structural own page → later.page page = m.page page)
    (sameList : later.freelist = m.freelist) (sameFree : later.free = m.free) :
    Owned layout later live held own := by
  have entries : ∀ {pgdir vpn}, live pgdir → vpn < 1048576 →
      later.entry pgdir vpn = m.entry pgdir vpn := owned.entry_structural same
  constructor
  · exact owned.managed
  · obtain ⟨pages, chain, nodup, free⟩ := owned.chain
    refine ⟨pages, ?_, sameFree ▸ nodup, free⟩
    rw [sameList]
    refine chain.congr fun page member => ?_
    rw [word_congr (same page (Or.inl ((free page).mpr member)))]
  · exact owned.dir
  · intro pgtab pgdir index
    rw [owned.table]
    refine and_congr_right fun alive => ?_
    rw [owned.tableAt_congr (fun page place => same page (Or.inr (Or.inl place))) alive]
  · intro page pgdir vpn
    rw [owned.user]
    refine and_congr_right fun alive => and_congr_right fun inside => ?_
    rw [entries alive (by omega)]
  · intro pgdir vpn pte alive above inside found
    rw [entries alive inside] at found
    exact owned.kernel pgdir vpn pte alive above inside found
  · exact owned.other

/-- Contents of user pages, of other holders' pages and of pages in hand are
free to change. -/
theorem setPage (contents : Page)
    (data : ¬ Structural own page) : Owned layout (m.setPage page contents) live held own := by
  refine owned.congr (fun other structural => page_setPage_ne m contents ?_) rfl rfl
  rintro rfl
  exact data structural

end

/-- A page in hand carries no structure. -/
theorem not_structural_of_none (hand : own page = none) :
    ¬ Structural own page := by
  rintro (free | dir | ⟨pgdir, index, table⟩) <;> simp_all

end Owned

/-- Where an updated map places a page. -/
theorem update_eq_some {place : Option (Place β)} {result : Place β} :
    update own page place other = some result ↔
      (other = page ∧ place = some result) ∨ (other ≠ page ∧ own other = some result) := by
  by_cases same : other = page
  · subst same
    simp
  · simp [same]

variable {place : Place β}

/-- Which pages have no place after a page got one. -/
theorem update_eq_none :
    update own page (some place) other = none ↔ other ≠ page ∧ own other = none := by
  by_cases same : other = page
  · subst same
    simp
  · simp [same]

/-- The pointer to a managed page leads back to it. -/
theorem page_of_pointer (managed : layout.Managed page) :
    v2p (p2v (page * pgsize)) / pgsize = page ∧ p2v (page * pgsize) ≠ 0 := by
  have below := managed.lt
  simp only [v2p, p2v, pgsize_eq, kernbase_eq]
  omega

namespace Owned

variable {pte : Nat}

/-- Moving a page between places that a statement does not speak of keeps it. -/
theorem iff_update {next : Option (Place β)} {fact : Prop} (before : own other = some place ↔ fact)
    (old : own page ≠ some place) (new : next ≠ some place) :
    update own page next other = some place ↔ fact := by
  by_cases same : other = page
  · subst same
    rw [update_self, ← before]
    exact ⟨fun impossible => absurd impossible new, fun impossible => absurd impossible old⟩
  · rw [update_of_ne same, before]

section

variable (owned : Owned layout m live held own)

include owned

/-- The owner of one page changes, and only to one that may have it. -/
theorem managed_update {next : Option (Place β)} (managed : next ≠ none → layout.Managed page)
    (taken : update own page next other = some place) : layout.Managed other := by
  rcases update_eq_some.mp taken with ⟨rfl, isNext⟩ | ⟨-, before⟩
  · exact managed (by simp [isNext])
  · exact owned.managed before

/-- The page of a user entry is owned by that entry. -/
theorem user_frame (alive : live pgdir) (found : m.tableAt pgdir index = some pgtab)
    (bound : slot < 1024) (below : index * 1024 + slot < 524288)
    (shown : present (m.word pgtab slot) = true) :
    own (frame (m.word pgtab slot)) = some (.user pgdir (index * 1024 + slot)) := by
  rw [owned.user, entry_of_table found bound]
  exact ⟨alive, below, _, by simp [shown], rfl⟩

/-- A page that `kalloc` returns came off the free list and is now in hand. -/
theorem kalloc_some (result : m.kalloc = (some page, later)) :

    own page = some .free ∧ later.page = m.page ∧ later.denied = m.denied ∧
      later.torn = m.torn ∧ Owned layout later live held (update own page none) := by
  obtain ⟨pages, chain, nodup, free⟩ := owned.chain
  unfold Vm.kalloc at result
  split at result
  · simp at result
  · rename_i allowed
    simp only [Prod.mk.injEq, Option.some.injEq] at result
    obtain ⟨here, rfl⟩ := result
    cases pages with
    | nil => simp [show m.freelist = 0 from chain] at allowed
    | cons first rest =>
      have isFree : own first = some .free := (free first).mpr (by simp)
      have pointer := page_of_pointer (owned.managed isFree)
      rw [chain.1, pointer.1] at here
      subst here
      have fresh : first ∉ rest := (List.nodup_cons.mp nodup.1).1
      have fewer : rest.length = m.free - 1 := by
        rw [← nodup.2, List.length_cons, Nat.add_sub_cancel]
      refine ⟨isFree, rfl, rfl, rfl, ?_⟩
      constructor
      · exact owned.managed_update fun some => absurd rfl some
      · refine ⟨rest, ?_, ⟨(List.nodup_cons.mp nodup.1).2, fewer⟩, fun page => ?_⟩
        · simp only [chain.1, pointer.1]
          exact chain.2.congr fun _ _ => rfl
        · rw [update_eq_some, free page]
          constructor
          · rintro (⟨-, impossible⟩ | ⟨apart, member⟩)
            · cases impossible
            · exact (List.mem_cons.mp member).resolve_left apart
          · intro member
            refine Or.inr ⟨?_, List.mem_cons_of_mem _ member⟩
            rintro rfl
            exact fresh member
      · exact fun pgdir => iff_update (owned.dir pgdir) (by simp [isFree]) (by simp)
      · exact fun pgtab pgdir index =>
          iff_update (owned.table pgtab pgdir index) (by simp [isFree]) (by simp)
      · exact fun page pgdir vpn =>
          iff_update (owned.user page pgdir vpn) (by simp [isFree]) (by simp)
      · exact owned.kernel
      · exact fun page holder =>
          iff_update (owned.other page holder) (by simp [isFree]) (by simp)

/-- A failed `kalloc` changes no page. -/
theorem kalloc_none (result : m.kalloc = (none, later)) :
    later.page = m.page ∧ later.denied = m.denied ∧ later.torn = m.torn ∧
      Owned layout later live held own := by
  unfold Vm.kalloc at result
  split at result
  · simp only [Prod.mk.injEq, true_and] at result
    subst result
    exact ⟨rfl, rfl, rfl, owned.congr (fun _ _ => rfl) rfl rfl⟩
  · simp at result

/-- The head of the free list is a pointer of 32 bits. -/
theorem freelist_lt : m.freelist < 2 ^ 32 := by
  obtain ⟨pages, chain, -, -⟩ := owned.chain
  cases pages with
  | nil =>
    rw [show m.freelist = 0 from chain]
    decide
  | cons first rest =>
    rw [chain.1]
    exact Nat.mod_lt _ (by decide)

/-- A page in hand that is pushed is on the free list. -/
theorem push (hand : own page = none) (managed : layout.Managed page) :
    Owned layout (m.push page) live held (update own page (some .free)) := by
  have filled := owned.setPage ((Bytes.ofFn fun _ => 1 : Page).putU32 0 m.freelist)
    (not_structural_of_none hand)
  have same : (m.push page).page =
      (m.setPage page ((Bytes.ofFn fun _ => 1 : Page).putU32 0 m.freelist)).page := rfl
  obtain ⟨pages, chain, nodup, free⟩ := filled.chain
  have fresh : page ∉ pages := by
    intro member
    have isFree := (free page).mpr member
    simp [hand] at isFree
  constructor
  · exact owned.managed_update fun _ => managed
  · refine ⟨page :: pages, ⟨rfl, ?_⟩,
      ⟨List.nodup_cons.mpr ⟨fresh, nodup.1⟩, congrArg (· + 1) nodup.2⟩, fun other => ?_⟩
    · have link : (m.push page).word page 0 = m.freelist := by
        simp only [word, Vm.push, Vm.setPage, update_self, Nat.mul_zero]
        rw [Bytes.u32_putU32 _ _ _ (by decide), Nat.mod_eq_of_lt owned.freelist_lt]
      rw [link]
      exact chain.congr fun other _ => congrFun (word_congr (congrFun same other)) 0
    · rw [update_eq_some, free other, List.mem_cons]
      constructor
      · rintro (⟨same, -⟩ | ⟨-, member⟩)
        · exact Or.inl same
        · exact Or.inr member
      · rintro (same | member)
        · exact Or.inl ⟨same, rfl⟩
        · refine Or.inr ⟨?_, member⟩
          rintro rfl
          exact fresh member
  · exact fun pgdir => iff_update (filled.dir pgdir) (by simp [hand]) (by simp)
  · rw [tableAt_of_page same]
    exact fun pgtab pgdir index =>
      iff_update (filled.table pgtab pgdir index) (by simp [hand]) (by simp)
  · rw [entry_of_page same]
    exact fun other pgdir vpn =>
      iff_update (filled.user other pgdir vpn) (by simp [hand]) (by simp)
  · rw [entry_of_page same]
    exact filled.kernel
  · exact fun other holder =>
      iff_update (filled.other other holder) (by simp [hand]) (by simp)

/-- A zeroed page in hand becomes a directory. -/
theorem adopt (hand : own pgdir = none)
    (managed : layout.Managed pgdir) (empty : ∀ index, m.tableAt pgdir index = none) :
    Owned layout m (fun other => live other ∨ other = pgdir) held
      (update own pgdir (some .dir)) := by
  have fresh : ¬ live pgdir := by
    intro alive
    have isDir := (owned.dir pgdir).mpr alive
    simp [hand] at isDir
  have noEntry : ∀ vpn, m.entry pgdir vpn = none := fun vpn => by simp [entry, empty]
  constructor
  · exact owned.managed_update fun _ => managed
  · obtain ⟨pages, chain, nodup, free⟩ := owned.chain
    exact ⟨pages, chain, nodup, fun other =>
      iff_update (free other) (by simp [hand]) (by simp)⟩
  · intro other
    rw [update_eq_some, owned.dir]
    constructor
    · rintro (⟨same, -⟩ | ⟨-, alive⟩)
      · exact Or.inr same
      · exact Or.inl alive
    · rintro (alive | same)
      · refine Or.inr ⟨?_, alive⟩
        rintro rfl
        exact fresh alive
      · exact Or.inl ⟨same, rfl⟩
  · intro pgtab other index
    refine iff_update ?_ (by simp [hand]) (by simp)
    rw [owned.table]
    constructor
    · rintro ⟨alive, rest⟩
      exact ⟨Or.inl alive, rest⟩
    · rintro ⟨alive | rfl, inside, found⟩
      · exact ⟨alive, inside, found⟩
      · simp [empty] at found
  · intro page other vpn
    refine iff_update ?_ (by simp [hand]) (by simp)
    rw [owned.user]
    constructor
    · rintro ⟨alive, rest⟩
      exact ⟨Or.inl alive, rest⟩
    · rintro ⟨alive | rfl, inside, pte, found, rest⟩
      · exact ⟨alive, inside, pte, found, rest⟩
      · simp [noEntry] at found
  · rintro other vpn pte (alive | rfl) above inside found
    · exact owned.kernel other vpn pte alive above inside found
    · simp [noEntry] at found
  · exact fun other holder =>
      iff_update (owned.other other holder) (by simp [hand]) (by simp)

/-- A store into a page off the free list leaves the list alone. -/
theorem chain_store (apart : own page ≠ some .free) (index value : Nat) : ∃ pages,
      (m.store page index value).Chain (m.store page index value).freelist pages ∧
      (pages.Nodup ∧ pages.length = (m.store page index value).free) ∧
      ∀ other, own other = some .free ↔ other ∈ pages := by
  obtain ⟨pages, chain, nodup, free⟩ := owned.chain
  refine ⟨pages, chain.congr fun other member => word_setPage_ne _ _ _ ?_, nodup, free⟩
  rintro rfl
  exact apart ((free other).mpr member)

end

/-- The tables of all directories after one table was filled in. -/
theorem tableAt_attach (inside : index < 1024) (managed : layout.Managed pgtab) (other place : Nat) :

    (m.store pgdir index (mkPte (pgtab * pgsize) 6)).tableAt other place =
      if other = pgdir ∧ place = index then some pgtab else m.tableAt other place := by
  have fits : mkPte (pgtab * pgsize) 6 < 2 ^ 32 :=
    mkPte_lt (by have := managed.lt; omega) (by decide)
  simp only [tableAt, word_store m inside fits]
  by_cases here : other = pgdir ∧ place = index
  · simp [here, frame_mkPte]
  · simp only [here, if_false]

section

variable (owned : Owned layout m live held own) (alive : live pgdir)

include owned alive

section

variable (inside : index < 1024) (missing : m.tableAt pgdir index = none) (hand : own pgtab = none)
  (managed : layout.Managed pgtab) (empty : ∀ place, present (m.word pgtab place) = false)

include inside missing hand managed empty

/-- Filling in a missing table with an empty one changes no entry. -/
theorem entry_attach (otherAlive : live other) (bound : vpn < 1048576) :
    (m.store pgdir index (mkPte (pgtab * pgsize) 6)).entry other vpn = m.entry other vpn := by
  have isDir := (owned.dir pgdir).mpr alive
  have words : ∀ {page}, page ≠ pgdir →
      (m.store pgdir index (mkPte (pgtab * pgsize) 6)).word page = m.word page := by
    intro page apart
    exact word_congr (page_setPage_ne _ _ apart)
  simp only [entry, tableAt_attach inside managed]
  by_cases here : other = pgdir ∧ vpn / 1024 = index
  · have apart : pgtab ≠ pgdir := by
      rintro rfl
      simp [isDir] at hand
    obtain ⟨rfl, rfl⟩ := here
    simp [missing, words apart, empty]
  · simp only [here, if_false]
    cases found : m.tableAt other (vpn / 1024) with
    | none => rfl
    | some table =>
      have place := owned.table_own otherAlive (by omega) found
      have apart : table ≠ pgdir := by
        rintro rfl
        simp [isDir] at place
      simp only [words apart]

/-- A missing table is filled in: the page in hand becomes a table of the
directory. -/
theorem attach :
    Owned layout (m.store pgdir index (mkPte (pgtab * pgsize) 6)) live held
      (update own pgtab (some (.table pgdir index))) := by
  have isDir := (owned.dir pgdir).mpr alive
  have entries : ∀ {other vpn}, live other → vpn < 1048576 →
      (m.store pgdir index (mkPte (pgtab * pgsize) 6)).entry other vpn = m.entry other vpn :=
    owned.entry_attach alive inside missing hand managed empty
  constructor
  · exact owned.managed_update fun _ => managed
  · obtain ⟨pages, chain, nodup, free⟩ := owned.chain_store
      (show own pgdir ≠ some .free by simp [isDir]) index (mkPte (pgtab * pgsize) 6)
    exact ⟨pages, chain, nodup, fun other =>
      iff_update (free other) (by simp [hand]) (by simp)⟩
  · exact fun other => iff_update (owned.dir other) (by simp [hand]) (by simp)
  · intro page other place
    rw [update_eq_some, tableAt_attach inside managed, owned.table]
    constructor
    · rintro (⟨rfl, same⟩ | ⟨-, otherAlive, bound, found⟩)
      · cases same
        exact ⟨alive, inside, by simp⟩
      · refine ⟨otherAlive, bound, ?_⟩
        rw [if_neg, found]
        rintro ⟨rfl, rfl⟩
        rw [missing] at found
        cases found
    · rintro ⟨otherAlive, bound, found⟩
      split at found
      · rename_i here
        obtain ⟨rfl, rfl⟩ := here
        exact Or.inl ⟨(Option.some.inj found).symm, rfl⟩
      · refine Or.inr ⟨?_, otherAlive, bound, found⟩
        rintro rfl
        have place := owned.table_own otherAlive bound found
        simp [hand] at place
  · intro page other vpn
    refine iff_update ?_ (by simp [hand]) (by simp)
    rw [owned.user]
    refine and_congr_right fun otherAlive => and_congr_right fun bound => ?_
    rw [entries otherAlive (by omega)]
  · intro other vpn pte otherAlive above bound found
    rw [entries otherAlive bound] at found
    exact owned.kernel other vpn pte otherAlive above bound found
  · exact fun other holder =>
      iff_update (owned.other other holder) (by simp [hand]) (by simp)

end

section

variable (inside : index < 1024) (found : m.tableAt pgdir index = some pgtab) (bound : slot < 1024)
  (fits : pte < 2 ^ 32)

include inside found bound fits

/-- The entries of all directories after one entry was stored. -/
theorem entry_store (otherAlive : live other) (below : vpn < 1048576) :
    (m.store pgtab slot pte).entry other vpn =
      if other = pgdir ∧ vpn = index * 1024 + slot then
        if present pte then some pte else none
      else m.entry other vpn := by
  have isTable := owned.table_own alive inside found
  have apart : other ≠ pgtab := by
    rintro rfl
    have isDir := (owned.dir other).mpr otherAlive
    simp [isTable] at isDir
  have tables : (m.store pgtab slot pte).tableAt other = m.tableAt other := by
    funext place
    simp only [tableAt, word_store m bound fits, apart, false_and, if_false]
  simp only [entry, tables]
  cases held : m.tableAt other (vpn / 1024) with
  | none =>
    rw [if_neg]
    rintro ⟨rfl, rfl⟩
    rw [show (index * 1024 + slot) / 1024 = index by omega, found] at held
    cases held
  | some table =>
    have place := owned.table_own otherAlive (by omega) held
    simp only [word_store m bound fits]
    by_cases same : table = pgtab
    · subst same
      rw [isTable] at place
      simp only [Option.some.injEq, Place.table.injEq] at place
      obtain ⟨rfl, rfl⟩ := place
      by_cases here : vpn % 1024 = slot
      · have whole : vpn = vpn / 1024 * 1024 + slot := by omega
        simp only [here, and_self, if_true, ← whole]
      · have apart : ¬ vpn = vpn / 1024 * 1024 + slot := by omega
        simp only [here, and_false, if_false, apart]
    · rw [if_neg (show ¬ (other = pgdir ∧ vpn = index * 1024 + slot) by
        rintro ⟨rfl, rfl⟩
        rw [show (index * 1024 + slot) / 1024 = index by omega, found] at held
        exact same (Option.some.inj held).symm)]
      simp only [same, false_and, if_false]

/-- One entry is stored. The map of owners follows it at the entry's own place and
is otherwise the same. -/
theorem set_entry {next : Places β}
    (managed : ∀ {page place}, next page = some place → layout.Managed page)
    (others : ∀ page place, place ≠ .user pgdir (index * 1024 + slot) →
      (next page = some place ↔ own page = some place))
    (placed : ∀ page, next page = some (.user pgdir (index * 1024 + slot)) ↔
      index * 1024 + slot < 524288 ∧ present pte = true ∧ frame pte = page)
    (kernel : 524288 ≤ index * 1024 + slot → userBit pte = false) :
    Owned layout (m.store pgtab slot pte) live held next := by
  have isTable := owned.table_own alive inside found
  have entries : ∀ {other vpn}, live other → vpn < 1048576 →
      (m.store pgtab slot pte).entry other vpn =
        if other = pgdir ∧ vpn = index * 1024 + slot then
          if present pte then some pte else none
        else m.entry other vpn := owned.entry_store alive inside found bound fits
  constructor
  · exact managed
  · obtain ⟨pages, chain, nodup, free⟩ := owned.chain_store
      (show own pgtab ≠ some .free by simp [isTable]) slot pte
    exact ⟨pages, chain, nodup, fun page => (others page .free (by simp)).trans (free page)⟩
  · exact fun other => (others other .dir (by simp)).trans (owned.dir other)
  · intro page other place
    rw [others page _ (by simp), owned.table]
    refine and_congr_right fun otherAlive => ?_
    have apart : other ≠ pgtab := by
      rintro rfl
      have isDir := (owned.dir other).mpr otherAlive
      simp [isTable] at isDir
    simp only [tableAt, word_store m bound fits, apart, false_and, if_false]
  · intro page other vpn
    by_cases here : other = pgdir ∧ vpn = index * 1024 + slot
    · obtain ⟨rfl, rfl⟩ := here
      rw [placed]
      constructor
      · rintro ⟨below, shown, same⟩
        refine ⟨alive, below, pte, ?_, same⟩
        rw [entries alive (by omega)]
        simp [shown]
      · rintro ⟨-, below, stored, isStored, same⟩
        rw [entries alive (by omega)] at isStored
        simp only [and_self, if_true, Option.ite_none_right_eq_some, Option.some.injEq]
          at isStored
        obtain ⟨shown, rfl⟩ := isStored
        exact ⟨below, shown, same⟩
    · have differ : (Place.user other vpn : Place β) ≠ .user pgdir (index * 1024 + slot) := by
        intro same
        exact here (by simpa using same)
      rw [others page _ differ, owned.user]
      refine and_congr_right fun otherAlive => and_congr_right fun below => ?_
      rw [entries otherAlive (by omega), if_neg here]
  · intro other vpn stored otherAlive above below isStored
    rw [entries otherAlive below] at isStored
    split at isStored
    · rename_i here
      simp only [Option.ite_none_right_eq_some, Option.some.injEq] at isStored
      obtain ⟨-, rfl⟩ := isStored
      exact kernel (by omega)
    · exact owned.kernel other vpn stored otherAlive above below isStored
  · exact fun page holder => (others page _ (by simp)).trans (owned.other page holder)

end

/-- A page in hand is mapped at a free user address. -/
theorem map_user {perm : Nat} (found : m.tableAt pgdir index = some pgtab) (bound : slot < 1024)
    (below : index * 1024 + slot < 524288) (vacant : m.entry pgdir (index * 1024 + slot) = none)
    (hand : own page = none) (managed : layout.Managed page) (small : perm < 4096) :
    Owned layout (m.store pgtab slot (mkPte (page * pgsize) perm)) live held
      (update own page (some (.user pgdir (index * 1024 + slot)))) := by
  have unowned : ∀ other, own other ≠ some (.user pgdir (index * 1024 + slot)) := by
    intro other isUser
    obtain ⟨-, -, pte, stored, -⟩ := (owned.user _ _ _).mp isUser
    rw [vacant] at stored
    cases stored
  refine owned.set_entry alive (by omega) found bound
    (mkPte_lt (by have := managed.lt; omega) small) ?_ ?_ ?_ ?_
  · exact owned.managed_update fun _ => managed
  · intro other place differ
    exact iff_update Iff.rfl (by simp [hand]) (by simpa using differ.symm)
  · intro other
    rw [update_eq_some, frame_mkPte small]
    constructor
    · rintro (⟨rfl, -⟩ | ⟨-, isUser⟩)
      · exact ⟨below, present_mkPte _ _, rfl⟩
      · exact absurd isUser (unowned other)
    · rintro ⟨-, -, rfl⟩
      exact Or.inl ⟨rfl, rfl⟩
  · intro above
    omega

/-- A kernel address is mapped without `PTE_U`; kernel mappings own nothing. -/
theorem map_kernel
    (inside : index < 1024) (found : m.tableAt pgdir index = some pgtab) (bound : slot < 1024)
    (above : 524288 ≤ index * 1024 + slot) (fits : pte < 2 ^ 32) (hidden : userBit pte = false) :
    Owned layout (m.store pgtab slot pte) live held own := by
  refine owned.set_entry alive inside found bound fits owned.managed
    (fun _ _ _ => Iff.rfl) ?_ (fun _ => hidden)
  intro page
  constructor
  · intro isUser
    have below := ((owned.user _ _ _).mp isUser).2.1
    omega
  · rintro ⟨below, -⟩
    omega

section

variable (found : m.tableAt pgdir index = some pgtab) (bound : slot < 1024)
  (below : index * 1024 + slot < 524288)

include found bound below

/-- Changing the flags of a user entry moves no page. -/
theorem reflag (fits : pte < 2 ^ 32) (sameBit : present pte = present (m.word pgtab slot))
    (samePage : frame pte = frame (m.word pgtab slot)) :
    Owned layout (m.store pgtab slot pte) live held own := by
  refine owned.set_entry alive (by omega) found bound fits owned.managed
    (fun _ _ _ => Iff.rfl) ?_ (fun above => by omega)
  intro page
  rw [owned.user, entry_of_table found bound, sameBit, samePage]
  simp only [Option.ite_none_right_eq_some, Option.some.injEq]
  constructor
  · rintro ⟨-, -, stored, ⟨shown, rfl⟩, same⟩
    exact ⟨below, shown, same⟩
  · rintro ⟨-, shown, same⟩
    exact ⟨alive, below, _, ⟨shown, rfl⟩, same⟩

/-- Clearing a user entry leaves its page in hand. -/
theorem unmap (shown : present (m.word pgtab slot) = true) :
    Owned layout (m.store pgtab slot 0) live held
      (update own (frame (m.word pgtab slot)) none) := by
  have isUser := owned.user_frame alive found bound below shown
  refine owned.set_entry alive (by omega) found bound (by decide) ?_ ?_ ?_ ?_
  · exact owned.managed_update fun some => absurd rfl some
  · intro other place differ
    exact iff_update Iff.rfl (by simpa [isUser] using differ.symm) (by simp)
  · intro other
    rw [update_eq_some]
    constructor
    · rintro (⟨-, impossible⟩ | ⟨apart, mine⟩)
      · cases impossible
      · refine absurd ?_ apart
        obtain ⟨-, -, stored, isStored, same⟩ := (owned.user _ _ _).mp mine
        rw [entry_of_table found bound, if_pos shown, Option.some.injEq] at isStored
        rw [← same, isStored]
    · rintro ⟨-, impossible, -⟩
      simp at impossible
  · intro above
    omega

/-- Freeing a user page and clearing its entry touch different pages. -/
theorem push_store_comm (shown : present (m.word pgtab slot) = true) :
    (m.push (frame (m.word pgtab slot))).store pgtab slot 0 =
      (m.store pgtab slot 0).push (frame (m.word pgtab slot)) := by
  have isUser := owned.user_frame alive found bound below shown
  have apart : pgtab ≠ frame (m.word pgtab slot) := by
    intro same
    have isTable := owned.table_own alive (by omega) found
    rw [same, isUser] at isTable
    cases isTable
  simp only [Vm.push, Vm.store, Vm.setPage, update_of_ne apart]
  rw [update_comm apart]

/-- A user page is freed and its entry cleared, in the order of the source. -/
theorem free_user (shown : present (m.word pgtab slot) = true) :
    Owned layout ((m.push (frame (m.word pgtab slot))).store pgtab slot 0) live held
        (update own (frame (m.word pgtab slot)) (some .free)) ∧
      (∀ place, ((m.push (frame (m.word pgtab slot))).store pgtab slot 0).tableAt pgdir place =
        m.tableAt pgdir place) ∧
      ∀ other, other < 1048576 →
        ((m.push (frame (m.word pgtab slot))).store pgtab slot 0).entry pgdir other =
          if other = index * 1024 + slot then none else m.entry pgdir other := by
  have isUser := owned.user_frame alive found bound below shown
  have unmapped := owned.unmap alive found bound below shown
  have freed := unmapped.push (update_self _ _ _) (owned.managed isUser)
  rw [update_idem] at freed
  have isDir := (owned.dir pgdir).mpr alive
  rw [owned.push_store_comm alive found bound below shown]
  refine ⟨freed, fun place => ?_, fun other inside => ?_⟩
  · have isTable := owned.table_own alive (by omega) found
    have notPage : pgdir ≠ frame (m.word pgtab slot) := by
      intro same
      simp [← same, isDir] at isUser
    have notTable : pgdir ≠ pgtab := by
      rintro rfl
      simp [isDir] at isTable
    have same : ((m.store pgtab slot 0).push (frame (m.word pgtab slot))).page pgdir =
        m.page pgdir := by
      rw [page_push_ne _ notPage, Vm.store, page_setPage_ne _ _ notTable]
    simp only [tableAt, word_congr same]
  have kept : ∀ page, Structural (update own (frame (m.word pgtab slot)) none) page →
      ((m.store pgtab slot 0).push (frame (m.word pgtab slot))).page page =
        (m.store pgtab slot 0).page page := by
    intro page structural
    refine page_push_ne (m.store pgtab slot 0) ?_
    rintro rfl
    exact not_structural_of_none (update_self _ _ _) structural
  rw [unmapped.entry_structural kept alive inside,
    owned.entry_store alive (by omega) found bound (by decide) alive inside]
  simp

end

end

end Owned

/-- A page is one of a directory's own: the directory itself, one of its tables or
one of its user pages. -/
def Belongs (pgdir page : Nat) : Place β → Prop
  | .dir => page = pgdir
  | .table owner _ => owner = pgdir
  | .user owner _ => owner = pgdir
  | _ => False

instance (pgdir page : Nat) (place : Place β) : Decidable (Belongs pgdir page place) := by
  cases place <;> unfold Belongs <;> infer_instance

/-- Take all pages of a directory in hand. -/
def discard (own : Places β) (pgdir : Nat) : Places β := fun page =>
  match own page with
  | none => none
  | some place => if Belongs pgdir page place then none else some place

theorem discard_eq_some :
    discard own pgdir page = some place ↔ own page = some place ∧ ¬ Belongs pgdir page place := by
  unfold discard
  cases here : own page with
  | none => simp
  | some found =>
    by_cases mine : Belongs pgdir page found
    · simp only [mine, if_true, Option.some.injEq, false_iff, not_and, not_not, reduceCtorEq]
      rintro rfl
      exact mine
    · simp only [mine, if_false, Option.some.injEq]
      constructor
      · rintro rfl
        exact ⟨rfl, mine⟩
      · exact And.left

/-- A directory goes out of use; its pages are in hand. -/
theorem Owned.discard (owned : Owned layout m live held own) (pgdir : Nat) :
    Owned layout m (fun other => live other ∧ other ≠ pgdir) held (Xv6.discard own pgdir) := by
  constructor
  · intro page place taken
    exact owned.managed (discard_eq_some.mp taken).1
  · obtain ⟨pages, chain, nodup, free⟩ := owned.chain
    refine ⟨pages, chain, nodup, fun page => ?_⟩
    rw [discard_eq_some, free]
    simp [Belongs]
  · intro other
    rw [discard_eq_some, owned.dir]
    rfl
  · intro pgtab other index
    rw [discard_eq_some, owned.table]
    simp only [Belongs]
    tauto
  · intro page other vpn
    rw [discard_eq_some, owned.user]
    simp only [Belongs]
    tauto
  · rintro other vpn pte ⟨alive, -⟩ above inside found
    exact owned.kernel other vpn pte alive above inside found
  · intro page holder
    rw [discard_eq_some, owned.other]
    simp [Belongs]

end Xv6
