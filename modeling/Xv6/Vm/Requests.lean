import Xv6.Vm.Images

/-!
# Which allocation fails first

A function that works for a directory asks `kalloc` for pages in an order that its
arguments and the tables already there determine. This module computes that order
as a list of requests, and from it, from the calls that are refused and from the
number of free pages, the first request that fails. What then happens depends on
the kind of the request only: some failures are undone completely, some are
reported but lose pages, and some are not noticed at all.
-/

namespace Xv6

open Vm Function List Finset

/-- What the failure of one call of `kalloc` leads to. -/
inductive Request where
  /-- It is reported and everything done so far is undone. -/
  | page
  /-- A page table for `setupkvm` or `copyuvm`: it is reported, but pages stay behind
  that no directory in use reaches. -/
  | table
  /-- A page table for `allocuvm`, which does not look at the result of `mappages`. -/
  | silent
  deriving DecidableEq

/-- The first of a list of requests to fail. -/
def forecast (refuse : Nat → Bool) : List Request → (tick free : Nat) → Option Request
  | [], _, _ => none
  | request :: rest, tick, free =>
    if refuse tick || free == 0 then some request
    else forecast refuse rest (tick + 1) (free - 1)

theorem forecast_append (refuse : Nat → Bool) (first second : List Request) :
    ∀ tick free, forecast refuse (first ++ second) tick free =
      (forecast refuse first tick free).or
        (forecast refuse second (tick + first.length) (free - first.length)) := by
  induction first with
  | nil =>
    intro tick free
    rfl
  | cons request rest ih =>
    intro tick free
    simp only [cons_append, forecast]
    split
    · rfl
    · rw [ih, length_cons, Nat.sub_sub, Nat.add_assoc,
        Nat.add_comm 1 rest.length]

variable {requests : List Request}

/-- Requests fail only when they are refused or the pages run out. -/
theorem forecast_granted {refuse : Nat → Bool} : ∀ {tick free : Nat},
    (∀ time, tick ≤ time → time < tick + requests.length → refuse time = false) →
    requests.length ≤ free → forecast refuse requests tick free = none := by
  induction requests with
  | nil =>
    intro tick free _ _
    rfl
  | cons request rest ih =>
    intro tick free granted enough
    rw [length_cons] at granted enough
    have some : (free == 0) = false := by
      simp
      omega
    simp only [forecast, granted tick le_rfl (by omega), some, Bool.or_false, Bool.false_eq_true,
      if_false]
    exact ih (fun time later early => granted time (by omega) (by omega)) (by omega)

theorem forecast_none {tick free : Nat} (enough : requests.length ≤ free) :
    forecast (fun _ => false) requests tick free = none :=
  forecast_granted (fun _ _ _ => rfl) enough

variable {β : Type} {layout : Layout} {m middle later : Vm} {live : Nat → Prop}
  {held : β → Option Nat} {own next : Places β} {ok bad : Prop}

namespace Vm

variable {second : List Request} {answer : Option Nat} {pgtab : Nat}
  {first : List Request} {pgdir low high vpn index perm page count newsz oldsz size sz : Nat}
  {filled : Nat → Prop} {mapped : Bool} {result : Option Nat}

/-- The requests of the current system call that fail first. -/
def foresee (m : Vm) (requests : List Request) : Option Request :=
  forecast m.refuse requests m.tick m.free

/-- A number of calls of `kalloc` were made and succeeded. -/
structure Served (count : Nat) (m later : Vm) : Prop where
  refuse : later.refuse = m.refuse
  tick : later.tick = m.tick + count
  free : later.free = m.free - count
  denied : later.denied = m.denied
  torn : later.torn = m.torn

/-- Code made the given requests in order, up to the first that failed. -/
structure Asked (requests : List Request) (m : Vm) (ok bad : Prop) (later : Vm) : Prop where
  served : m.foresee requests = none → ok ∧ Served requests.length m later
  undone : m.foresee requests = some .page →
    bad ∧ later.denied = m.denied ∧ later.torn = m.torn
  leaked : m.foresee requests = some .table → bad ∧ later.torn = m.torn

theorem Served.refl (m : Vm) : Served 0 m m := ⟨rfl, rfl, rfl, rfl, rfl⟩

theorem Served.trans {first second : Nat} (left : Served first m middle)
    (right : Served second middle later) : Served (first + second) m later where
  refuse := right.refuse.trans left.refuse
  tick := by rw [right.tick, left.tick, Nat.add_assoc]
  free := by rw [right.free, left.free, Nat.sub_sub]
  denied := right.denied.trans left.denied
  torn := right.torn.trans left.torn

/-- After requests that were served the next ones are judged by the state reached. -/
theorem Served.foresee (served : Served first.length m middle) (through : m.foresee first = none)
    (second : List Request) :
    m.foresee (first ++ second) = middle.foresee second := by
  have split := forecast_append m.refuse first second m.tick m.free
  rw [show forecast m.refuse first m.tick m.free = none from through, Option.none_or] at split
  rw [Vm.foresee, Vm.foresee, split, served.refuse, served.tick, served.free]

theorem foresee_append_some {request : Request} (failed : m.foresee first = some request)
    (second : List Request) :
    m.foresee (first ++ second) = some request := by
  have split := forecast_append m.refuse first second m.tick m.free
  rwa [show forecast m.refuse first m.tick m.free = some request from failed,
    Option.some_or] at split

theorem foresee_first {request : Request} (never : m.foresee (first ++ second) ≠ some request) :
    m.foresee first ≠ some request :=
  fun failed => never (foresee_append_some failed second)

/-- What is granted as a whole is granted in part. -/
theorem foresee_granted (granted : m.foresee (first ++ second) = none) :
    m.foresee first = none :=
  Option.eq_none_iff_forall_ne_some.mpr fun request => foresee_first (by rw [granted]; rintro ⟨⟩)

namespace Asked

variable {okToo badToo : Prop}

/-- Code that asks for nothing. -/
theorem nil (same : Served 0 m later) (holds : ok) : Asked [] m ok bad later :=
  ⟨fun _ => ⟨holds, same⟩, by rintro ⟨⟩, by rintro ⟨⟩⟩

/-- Where all requests are served, the first ones are, and the rest from there. -/
theorem through (asked : Asked first m ok bad middle) (quiet : m.foresee (first ++ second) = none) :
    ok ∧ Served first.length m middle ∧ middle.foresee second = none := by
  cases here : m.foresee first with
  | none =>
    obtain ⟨holds, served⟩ := asked.served here
    exact ⟨holds, served, served.foresee here second ▸ quiet⟩
  | some request =>
    rw [foresee_append_some here] at quiet
    cases quiet

/-- Requests one after the other. When the first part failed the second is skipped. -/
theorem append (early : Asked first m ok bad middle)
    (late : ok → Asked second middle okToo badToo later)
    (skipped : bad → badToo ∧ later.denied = middle.denied ∧ later.torn = middle.torn) :
    Asked (first ++ second) m okToo badToo later := by
  cases here : m.foresee first with
  | none =>
    obtain ⟨holds, served⟩ := early.served here
    have same : m.foresee (first ++ second) = middle.foresee second := served.foresee here second
    have rest := late holds
    refine ⟨fun none => ?_, fun page => ?_, fun table => ?_⟩
    · rw [same] at none
      rw [length_append]
      exact (rest.served none).imp_right served.trans
    · rw [same] at page
      obtain ⟨failed, denied, torn⟩ := rest.undone page
      exact ⟨failed, denied.trans served.denied, torn.trans served.torn⟩
    · rw [same] at table
      obtain ⟨failed, torn⟩ := rest.leaked table
      exact ⟨failed, torn.trans served.torn⟩
  | some request =>
    have stopped := foresee_append_some here second
    refine ⟨fun none => ?_, fun page => ?_, fun table => ?_⟩
    · rw [stopped] at none
      cases none
    · rw [stopped] at page
      obtain ⟨failed, denied, torn⟩ := early.undone (here.trans page)
      obtain ⟨failedToo, sameDenied, sameTorn⟩ := skipped failed
      exact ⟨failedToo, sameDenied.trans denied, sameTorn.trans torn⟩
    · rw [stopped] at table
      obtain ⟨failed, torn⟩ := early.leaked (here.trans table)
      obtain ⟨failedToo, -, sameTorn⟩ := skipped failed
      exact ⟨failedToo, sameTorn.trans torn⟩

/-- Unless a failure was not noticed the code reports how it went. -/
theorem outcome (asked : Asked requests m ok bad later) (loud : m.foresee requests ≠ some .silent) :
    later.torn = m.torn ∧ (m.foresee requests = none ∧ ok ∧ Served requests.length m later ∨ bad) := by
  cases first : m.foresee requests with
  | none =>
    obtain ⟨holds, served⟩ := asked.served first
    exact ⟨served.torn, Or.inl ⟨rfl, holds, served⟩⟩
  | some request =>
    cases request with
    | page =>
      obtain ⟨failed, -, torn⟩ := asked.undone first
      exact ⟨torn, Or.inr failed⟩
    | table =>
      obtain ⟨failed, torn⟩ := asked.leaked first
      exact ⟨torn, Or.inr failed⟩
    | silent => exact absurd first loud

/-- No table was denied unless the request that fails first is one for a table. -/
theorem denied (asked : Asked requests m ok bad later) (loud : m.foresee requests ≠ some .silent)
    (whole : m.foresee requests ≠ some .table) :
    later.denied = m.denied := by
  cases first : m.foresee requests with
  | none => exact (asked.served first).2.denied
  | some request =>
    cases request with
    | page => exact (asked.undone first).2.1
    | table => exact absurd first whole
    | silent => exact absurd first loud

/-- Work after the requests that asks for nothing more. -/
theorem quietly (early : Asked requests m ok bad middle) (same : Served 0 middle later)
    (good : ok → okToo) (failed : bad → badToo) : Asked requests m okToo badToo later := by
  have both : Asked (requests ++ []) m okToo badToo later :=
    early.append (fun holds => nil same (good holds)) fun fails =>
      ⟨failed fails, same.denied, same.torn⟩
  rwa [append_nil] at both

end Asked

/-! ## Single requests -/

/-- The free list is empty when it has no pages. -/
theorem freelist_zero (owned : Owned layout m live held own) : m.freelist = 0 ↔ m.free = 0 := by
  obtain ⟨pages, chain, ⟨-, length⟩, free⟩ := owned.chain
  cases pages with
  | nil =>
    rw [← length]
    exact iff_of_true chain rfl
  | cons first rest =>
    have pointer := page_of_pointer (owned.managed ((free first).mpr (by simp)))
    rw [← length, chain.1]
    exact iff_of_false pointer.2 (by simp)

theorem kalloc_asked (owned : Owned layout m live held own) (ran : m.kalloc = (answer, later))
    (request : Request) :
    Asked [request] m (answer ≠ none) (answer = none) later := by
  have sameTest : (m.freelist == 0) = (m.free == 0) := by
    rw [Bool.eq_iff_iff, beq_iff_eq, beq_iff_eq]
    exact freelist_zero owned
  unfold kalloc at ran
  rw [sameTest] at ran
  cases fails : m.refuse m.tick || m.free == 0 with
  | true =>
    have first : m.foresee [request] = some request := by simp [foresee, forecast, fails]
    simp only [fails, if_true, Prod.mk.injEq] at ran
    obtain ⟨rfl, rfl⟩ := ran
    refine ⟨fun none => ?_, fun _ => ⟨rfl, rfl, rfl⟩, fun _ => ⟨rfl, rfl⟩⟩
    rw [first] at none
    cases none
  | false =>
    have first : m.foresee [request] = none := by simp [foresee, forecast, fails]
    simp only [fails, Bool.false_eq_true, if_false, Prod.mk.injEq] at ran
    obtain ⟨rfl, rfl⟩ := ran
    refine ⟨fun _ => ⟨by simp, rfl, rfl, rfl, rfl, rfl⟩, fun page => ?_, fun table => ?_⟩
    · rw [first] at page
      cases page
    · rw [first] at table
      cases table

theorem foresee_single {request failed : Request} (first : m.foresee [request] = some failed) :
    failed = request := by
  simp only [foresee, forecast, Option.ite_none_right_eq_some, Option.some.injEq] at first
  exact first.2.symm

/-- The tables of a directory only depend on its own page. -/
theorem tableAt_of_dir (same : later.page pgdir = m.page pgdir) (index : Nat) :
    later.tableAt pgdir index = m.tableAt pgdir index := by
  simp only [tableAt, word_congr same]

/-- The requests for one page whose table may be missing. -/
def tableRequest (m : Vm) (pgdir index : Nat) (request : Request) : List Request :=
  if m.tableAt pgdir index = none then [request] else []

/-- A directory got the tables for some indices. -/
def Filling (m later : Vm) (pgdir : Nat) (filled : Nat → Prop) : Prop :=
  ∀ index, index < 1024 →
    (later.tableAt pgdir index = none ↔ m.tableAt pgdir index = none ∧ ¬ filled index)

/-- A walk asks for a missing table. -/
theorem walk_asked (owned : Owned layout m live held own) {va : Nat} (alive : live pgdir)
    {found : Option (Nat × Nat)} (ran : m.walkpgdir pgdir va true = (found, later))
    {request : Request} (isTable : request ≠ .page) :
    Asked (m.tableRequest pgdir (pdx va) request) m (found ≠ none) (found = none) later ∧
      (found ≠ none → Filling m later pgdir (· = pdx va)) := by
  cases walk_cases ran with
  | found here =>
    have some : m.tableAt pgdir (pdx va) ≠ none := by simp [here]
    rw [tableRequest, if_neg some]
    refine ⟨Asked.nil (Served.refl m) (by simp), fun _ index inside => ?_⟩
    refine ⟨fun none => ⟨none, ?_⟩, And.left⟩
    rintro rfl
    exact some none
  | denied missing asked =>
    have early := kalloc_asked owned asked request
    rw [tableRequest, if_pos missing]
    refine ⟨⟨fun none => absurd rfl (early.served none).1, fun page => ?_, fun table => ?_⟩,
      fun impossible => absurd rfl impossible⟩
    · exact absurd (foresee_single page).symm isTable
    · exact ⟨rfl, (early.leaked table).2⟩
  | @made pgtab taken missing asked =>
    obtain ⟨isFree, pages, -, -, -⟩ := owned.kalloc_some asked
    have apart : pgdir ≠ pgtab := by
      rintro rfl
      exact owned.not_live_of_free isFree alive
    rw [tableRequest, if_pos missing]
    refine ⟨(kalloc_asked owned asked request).quietly ⟨rfl, rfl, rfl, rfl, rfl⟩ (fun _ => by rintro ⟨⟩)
      (by rintro ⟨⟩), fun _ index inside => ?_⟩
    have before : (taken.zero pgtab).tableAt pgdir index = m.tableAt pgdir index := by
      refine tableAt_of_dir ?_ index
      rw [zero, page_setPage_ne _ _ apart, pages]
    rw [Owned.tableAt_attach (pdx_lt va) (owned.managed isFree), before]
    by_cases here : index = pdx va
    · simp [here]
    · simp [here]

/-! ## The kernel's mappings -/

/-- The tables that a directory lacks in a range of indices. -/
def missing (m : Vm) (pgdir low high : Nat) : Finset Nat :=
  (Finset.Icc low high).filter fun index => m.tableAt pgdir index = none

/-- The first table that is missing is asked for first. -/
theorem replicate_missing (within : low ≤ high) (request : Request) :
    replicate (m.missing pgdir low high).card request =
      m.tableRequest pgdir low request ++
        replicate ((m.missing pgdir low high).erase low).card request := by
  by_cases absent : m.tableAt pgdir low = none
  · have member : low ∈ m.missing pgdir low high := by
      simp [missing, within, absent]
    rw [tableRequest, if_pos absent, ← card_erase_add_one member]
    rfl
  · have outside : low ∉ m.missing pgdir low high := by
      simp [missing, absent]
    rw [tableRequest, if_neg absent, erase_eq_of_notMem outside]
    rfl

/-- What is missing after the table of one page was filled in. -/
theorem missing_after (filling : Filling m later pgdir (· = vpn / 1024)) (bound : high < 1024) :
    later.missing pgdir ((vpn + 1) / 1024) high =
      (m.missing pgdir (vpn / 1024) high).erase (vpn / 1024) := by
  ext index
  simp only [missing, Finset.mem_filter, mem_Icc, mem_erase]
  constructor
  · rintro ⟨⟨low, top⟩, absent⟩
    obtain ⟨before, apart⟩ := (filling index (by omega)).mp absent
    exact ⟨apart, ⟨by omega, top⟩, before⟩
  · rintro ⟨apart, ⟨low, top⟩, before⟩
    exact ⟨⟨by omega, top⟩, (filling index (by omega)).mpr ⟨before, apart⟩⟩

/-- Storing an entry into a table leaves the directory alone. -/
theorem filling_store (owned : Owned layout later live held next) (alive : live pgdir)
    (inside : index < 1024) (found : later.tableAt pgdir index = some pgtab)
    (filling : Filling m later pgdir filled) (slot value : Nat) :
    Filling m (later.store pgtab slot value) pgdir filled := by
  have isTable := owned.table_own alive inside found
  have isDir := (owned.dir pgdir).mpr alive
  have apart : pgdir ≠ pgtab := by
    rintro rfl
    simp [isDir] at isTable
  intro other bound
  rw [tableAt_of_dir (show (later.store pgtab slot value).page pgdir = later.page pgdir from
    page_setPage_ne _ _ apart)]
  exact filling other bound

/-- A round of the loop of `mappages` that stores an entry. -/
theorem round_asked (owned : Owned layout m live held own) {walker : Vm} (alive : live pgdir)
    (inside : vpn < 1048576)
    (walked : m.walkpgdir pgdir (vpn * pgsize) true = (some (pgtab, index), walker))
    {request : Request} (isTable : request ≠ .page) (value : Nat) :
    Asked (m.tableRequest pgdir (vpn / 1024) request) m True False
        (walker.store pgtab index value) ∧
      Filling m (walker.store pgtab index value) pgdir (· = vpn / 1024) := by
  obtain ⟨asked, filling⟩ := walk_asked owned alive walked isTable
  obtain ⟨next, walking, -, -, -, -, hit, -⟩ := walk_alloc owned alive walked
  obtain ⟨-, -, found⟩ := hit pgtab index rfl
  rw [(pdx_ptx inside).1] at asked filling found
  exact ⟨asked.quietly ⟨rfl, rfl, rfl, rfl, rfl⟩ (fun _ => trivial) (by rintro ⟨⟩),
    filling_store walking alive (by omega) found (filling (by rintro ⟨⟩)) index value⟩

/-- A round that is denied its table ends the loop. -/
theorem stopped (owned : Owned layout m live held own) (alive : live pgdir) (inside : vpn < 1048576)
    (walked : m.walkpgdir pgdir (vpn * pgsize) true = (none, later)) {rest : List Request} :
    Asked (m.tableRequest pgdir (vpn / 1024) .table ++ rest) m (false = true) (false = false)
      later := by
  obtain ⟨asked, -⟩ := walk_asked owned alive walked (show Request.table ≠ .page by decide)
  rw [(pdx_ptx inside).1] at asked
  exact asked.append (fun impossible => absurd rfl impossible) fun _ => ⟨rfl, rfl, rfl⟩

/-- The loop of `mappages` asks for the tables that are missing. -/
theorem mapRun_asked (alive : live pgdir) (small : perm < 4096) (hidden : perm.testBit 2 = false)
    (run : MapRun pgdir perm vpn page (count + 1) m mapped later) (limit : vpn + count < 1048576) :
    ∀ {own : Places β}, Owned layout m live held own →
      Asked (replicate (m.missing pgdir (vpn / 1024) ((vpn + count) / 1024)).card .table) m
          (mapped = true) (mapped = false) later ∧
        (mapped = true → Filling m later pgdir
          fun index => vpn / 1024 ≤ index ∧ index ≤ (vpn + count) / 1024) := by
  induction count generalizing vpn page m with
  | zero =>
    intro own owned
    rw [Nat.add_zero, replicate_missing le_rfl]
    cases run with
    | denied inside walked => exact ⟨stopped owned alive inside walked, by rintro ⟨⟩⟩
    | next above inside bound walked absent rest =>
      cases rest
      obtain ⟨asked, filling⟩ := round_asked owned alive inside walked
        (show Request.table ≠ .page by decide) (mkPte (page * pgsize) perm)
      have none : (m.missing pgdir (vpn / 1024) (vpn / 1024)).erase (vpn / 1024) = ∅ := by
        ext other
        simp only [missing, mem_erase, Finset.mem_filter, mem_Icc,
          notMem_empty, iff_false]
        omega
      rw [none, card_empty, replicate_zero, append_nil]
      refine ⟨asked.quietly (Served.refl _) (fun _ => rfl) (by rintro ⟨⟩), fun _ other bound => ?_⟩
      rw [filling other bound]
      exact and_congr_right fun _ => not_congr (by omega)
  | succ count ih =>
    intro own owned
    rw [replicate_missing (Nat.div_le_div_right (by omega))]
    cases run with
    | denied inside walked => exact ⟨stopped owned alive inside walked, by rintro ⟨⟩⟩
    | next above inside bound walked absent run =>
      obtain ⟨between, mapping, -⟩ :=
        map_round owned page alive above inside bound small hidden walked
      obtain ⟨asked, filling⟩ := round_asked owned alive inside walked
        (show Request.table ≠ .page by decide) (mkPte (page * pgsize) perm)
      obtain ⟨rest, filled⟩ := ih run (by omega) mapping
      rw [missing_after filling (by omega)] at rest
      rw [show vpn + (count + 1) = vpn + 1 + count by omega]
      refine ⟨asked.append (fun _ => rest) (by rintro ⟨⟩), fun isMapped other inRange => ?_⟩
      rw [filled isMapped other inRange, filling other inRange, and_assoc]
      exact and_congr_right fun _ => by omega

/-- One row of the table of kernel mappings. -/
theorem row_asked (owned : Owned layout m live held own) {row : Kmap} (alive : live pgdir)
    (span : row.Spans vpn page count)
    (ran : m.mappages pgdir row.virt ((row.physEnd + 2 ^ 32 - row.physStart) % 2 ^ 32)
      row.physStart row.perm = .ok (mapped, later)) :
    Asked (replicate (m.missing pgdir (vpn / 1024) ((vpn + count) / 1024)).card .table) m
        (mapped = true) (mapped = false) later ∧
      (mapped = true → Filling m later pgdir
        fun index => vpn / 1024 ≤ index ∧ index ≤ (vpn + count) / 1024) ∧
      ∃ next, Owned layout later live held next := by
  have run := span.run ran
  obtain ⟨next, final, -⟩ := run.kernel alive span.perm span.hidden owned
  obtain ⟨asked, filling⟩ := mapRun_asked alive span.perm span.hidden run span.virtEnd owned
  exact ⟨asked, filling, next, final⟩

theorem card_missing (first last : Nat) (lower : low ≤ first) (upper : last ≤ high)
    (absent : ∀ index, low ≤ index → index ≤ high →
      (m.tableAt pgdir index = none ↔ first ≤ index ∧ index ≤ last)) :
    (m.missing pgdir low high).card = last + 1 - first := by
  have range : m.missing pgdir low high = Icc first last := by
    ext index
    simp only [missing, Finset.mem_filter, mem_Icc]
    constructor
    · rintro ⟨⟨low, high⟩, none⟩
      exact (absent index low high).mp none
    · rintro ⟨left, right⟩
      exact ⟨⟨by omega, by omega⟩, (absent index (by omega) (by omega)).mpr ⟨left, right⟩⟩
  rw [range, Nat.card_Icc]

/-- The requests of `setupkvm`: the directory, one table for each four megabytes of
physical memory and eight for the devices. -/
def setupRequests : List Request := .page :: List.replicate 64 .table

/-- Which tables exist after one row more was mapped. -/
theorem tables_after
    (before : ∀ index, index < 1024 → (m.tableAt pgdir index = none ↔ ¬ filled index))
    (filling : Filling m later pgdir fun index => low ≤ index ∧ index ≤ high) :
    ∀ index, index < 1024 →
      (later.tableAt pgdir index = none ↔ ¬ (filled index ∨ low ≤ index ∧ index ≤ high)) := by
  intro index inside
  rw [filling index inside, before index inside, not_or]

/-- The tables of the kernel's part: those for physical memory and those for the devices. -/
def kernelTable (index : Nat) : Bool := 512 ≤ index && index ≤ 567 || 1016 ≤ index

/-- The rows of `kmap` in an empty directory. -/
theorem kmap_asked (owned : Owned layout m live held own) (alive : live pgdir)
    (empty : ∀ index, m.tableAt pgdir index = none)
    (ran : m.mapRows pgdir (kmap layout.data) = .ok (mapped, later)) :
    Asked (replicate 64 .table) m (mapped = true) (mapped = false) later ∧
      (mapped = true → ∀ index, index < 1024 →
        (later.tableAt pgdir index = none ↔ kernelTable index = false)) := by
  have bounds := data_bounds layout
  rw [show replicate 64 Request.table = replicate 1 .table ++ (replicate 0 .table ++
    (replicate 55 .table ++ replicate 8 .table)) from rfl]
  have skip : ∀ {middle : Vm}, (false = false) →
      (false = false) ∧ middle.denied = middle.denied ∧ middle.torn = middle.torn :=
    fun _ => ⟨rfl, rfl, rfl⟩
  have none0 : ∀ index, index < 1024 → (m.tableAt pgdir index = none ↔ ¬ 1024 ≤ index) :=
    fun index inside => iff_of_true (empty index) (by omega)
  obtain ⟨⟨done1, m1⟩, mapping1, ran⟩ := Except.of_bind_ok ran
  obtain ⟨asked1, filling1, own1, owned1⟩ := row_asked owned alive io_spans mapping1
  have card1 : (m.missing pgdir (524288 / 1024) ((524288 + 255) / 1024)).card = 1 :=
    card_missing 512 512 (by omega) (by omega) fun index low high => by
      rw [none0 index (by omega)]
      omega
  rw [card1] at asked1
  cases done1 with
  | false =>
    cases ran
    exact ⟨asked1.append (by rintro ⟨⟩) skip, by rintro ⟨⟩⟩
  | true =>
    have none1 := tables_after none0 (filling1 rfl)
    obtain ⟨⟨done2, m2⟩, mapping2, ran⟩ := Except.of_bind_ok ran
    obtain ⟨asked2, filling2, own2, owned2⟩ := row_asked owned1 alive (text_spans layout.dataAddress) mapping2
    have card2 : (m1.missing pgdir (524544 / 1024)
        ((524544 + (layout.data / 4096 - 524545)) / 1024)).card = 0 :=
      card_missing 513 512 (by omega) (by omega) fun index low high => by
        rw [none1 index (by omega)]
        omega
    rw [card2] at asked2
    cases done2 with
    | false =>
      cases ran
      exact ⟨asked1.append (fun _ => asked2.append (by rintro ⟨⟩) skip) (by rintro ⟨⟩), by rintro ⟨⟩⟩
    | true =>
      have none2 := tables_after none1 (filling2 rfl)
      obtain ⟨⟨done3, m3⟩, mapping3, ran⟩ := Except.of_bind_ok ran
      obtain ⟨asked3, filling3, own3, owned3⟩ := row_asked owned2 alive (data_spans layout.dataAddress) mapping3
      have card3 : (m2.missing pgdir (layout.data / 4096 / 1024)
          ((layout.data / 4096 + (57344 - (layout.data / 4096 - 524288) - 1)) / 1024)).card = 55 :=
        card_missing 513 567 (by omega) (by omega) fun index low high => by
          rw [none2 index (by omega)]
          omega
      rw [card3] at asked3
      cases done3 with
      | false =>
        cases ran
        exact ⟨asked1.append (fun _ => asked2.append (fun _ => asked3.append (by rintro ⟨⟩) skip) (by rintro ⟨⟩))
          (by rintro ⟨⟩), by rintro ⟨⟩⟩
      | true =>
        have none3 := tables_after none2 (filling3 rfl)
        obtain ⟨⟨done4, m4⟩, mapping4, ran⟩ := Except.of_bind_ok ran
        obtain ⟨asked4, filling4, -⟩ := row_asked owned3 alive device_spans mapping4
        have card4 : (m3.missing pgdir (1040384 / 1024) ((1040384 + 8191) / 1024)).card = 8 :=
          card_missing 1016 1023 (by omega) (by omega) fun index low high => by
            rw [none3 index (by omega)]
            omega
        rw [card4] at asked4
        have last : mapped = done4 ∧ later = m4 := by
          cases done4 <;> cases ran <;> exact ⟨rfl, rfl⟩
        obtain ⟨rfl, rfl⟩ := last
        refine ⟨asked1.append (fun _ => asked2.append (fun _ => asked3.append (fun _ => asked4)
          (by rintro ⟨⟩)) (by rintro ⟨⟩)) (by rintro ⟨⟩), fun isMapped index inside => ?_⟩
        rw [tables_after none3 (filling4 isMapped) index inside]
        simp only [kernelTable, Bool.or_eq_false_iff, Bool.and_eq_false_iff, decide_eq_false_iff_not]
        omega

/-- `setupkvm` makes its requests in order, and a directory that it returns has just the
tables of the kernel's part. -/
theorem setupkvm_asked (owned : Owned layout m live held own)
    (ran : m.setupkvm layout = .ok (answer, later)) :
    Asked setupRequests m (answer ≠ none) (answer = none) later ∧
      ∀ pgdir, answer = some pgdir → ∀ index, index < 1024 →
        (later.tableAt pgdir index = none ↔ kernelTable index = false) := by
  change Asked ([.page] ++ replicate 64 .table) _ _ _ _ ∧ _
  obtain ⟨asked, rfl⟩ | ⟨pgdir, taken, mapped, asked, mapping, rfl⟩ := setupkvmFor_cases ran
  · exact ⟨(kalloc_asked owned asked .page).append (fun impossible => absurd rfl impossible)
      fun _ => ⟨rfl, rfl, rfl⟩, by rintro _ ⟨⟩⟩
  · obtain ⟨adopted, empty⟩ := adopt_new owned asked
    obtain ⟨rest, tables⟩ := kmap_asked adopted (Or.inr rfl) empty mapping
    have early : Asked [.page] m True False (taken.zero pgdir) :=
      (kalloc_asked owned asked .page).quietly ⟨rfl, rfl, rfl, rfl, rfl⟩ (fun _ => trivial)
        (by rintro ⟨⟩)
    cases mapped with
    | false =>
      exact ⟨early.append (fun _ => rest.quietly (Served.refl _) (by simp) fun _ => rfl) (by simp),
        by simp⟩
    | true =>
      refine ⟨early.append (fun _ => rest.quietly (Served.refl _) (fun _ => by rintro ⟨⟩)
        (by rintro ⟨⟩)) (by rintro ⟨⟩), ?_⟩
      rintro page ⟨⟩
      exact tables rfl

/-- The user part of a directory has no kernel table. -/
theorem kernelTable_user (user : index < 512) : kernelTable index = false := by
  simp only [kernelTable, Bool.or_eq_false_iff, Bool.and_eq_false_iff, decide_eq_false_iff_not]
  omega

/-! ## User pages -/

/-- The requests for a number of user pages: each page, and its table when that is
missing. -/
def growRequests (request : Request) :
    (missing : Nat → Bool) → (count vpn : Nat) → List Request
  | _, 0, _ => []
  | missing, count + 1, vpn =>
    [.page] ++ ((if missing (vpn / 1024) then [request] else []) ++
      growRequests request (Function.update missing (vpn / 1024) false) count (vpn + 1))

/-- A map of the missing tables in the user part of a directory. -/
def Lacks (m : Vm) (pgdir : Nat) (missing : Nat → Bool) : Prop :=
  ∀ index, index < 512 → (missing index = true ↔ m.tableAt pgdir index = none)

theorem Lacks.request {missing : Nat → Bool} (lacks : Lacks m pgdir missing) (inside : index < 512)
    (request : Request) :
    (if missing index then [request] else []) = m.tableRequest pgdir index request := by
  by_cases absent : m.tableAt pgdir index = none
  · rw [tableRequest, if_pos absent, if_pos ((lacks index inside).mpr absent)]
  · rw [tableRequest, if_neg absent, if_neg fun here => absent ((lacks index inside).mp here)]

theorem Lacks.fill {missing : Nat → Bool} (lacks : Lacks m pgdir missing)
    (filling : Filling m later pgdir (· = index)) :
    Lacks later pgdir (update missing index false) := by
  intro other inside
  rw [filling other (by omega), ← lacks other inside]
  by_cases here : other = index
  · simp [here]
  · simp [here]

/-- When the request that fails first is not noticed there is nothing to say. -/
theorem Asked.of_silent (silent : m.foresee first = some .silent) :
    Asked (first ++ second) m ok bad later := by
  constructor <;> rw [foresee_append_some silent] <;> rintro ⟨⟩

/-- Mapping one user page. -/
theorem mappages_asked (owned : Owned layout m live held own) {pa : Nat} (alive : live pgdir)
    (inside : vpn < 1048576) {request : Request} (isTable : request ≠ .page)
    (ran : m.mappages pgdir (vpn * pgsize) pgsize pa perm = .ok (mapped, later)) :
    Asked (m.tableRequest pgdir (vpn / 1024) request) m (mapped = true) (mapped = false) later ∧
      (mapped = true → Filling m later pgdir (· = vpn / 1024)) := by
  cases mappages_cases inside ran with
  | denied walked =>
    obtain ⟨asked, -⟩ := walk_asked owned alive walked isTable
    rw [(pdx_ptx inside).1] at asked
    exact ⟨asked.quietly (Served.refl _) (fun impossible => absurd rfl impossible) fun _ => rfl,
      (by rintro ⟨⟩)⟩
  | stored walked =>
    obtain ⟨asked, filling⟩ := round_asked owned alive inside walked isTable (mkPte pa perm)
    exact ⟨asked.quietly (Served.refl _) (fun _ => rfl) (by rintro ⟨⟩), fun _ => filling⟩

/-- A table that was denied silently. -/
theorem silent_of_denied
    (asked : Asked (m.tableRequest pgdir index .silent) m (mapped = true) bad later)
    (failed : mapped = false) : m.foresee (m.tableRequest pgdir index .silent) = some .silent := by
  cases first : m.foresee (m.tableRequest pgdir index .silent) with
  | none =>
    have success := (asked.served first).1
    simp [failed] at success
  | some request =>
    unfold tableRequest at first
    split at first
    · rw [foresee_single first]
    · cases first

/-- A page from the free list, filled, is not yet part of the directory. -/
theorem page_asked (owned : Owned layout m live held own) {taken : Vm} (alive : live pgdir)
    (asked : m.kalloc = (some page, taken)) (contents : Page) :
    Asked [.page] m True False (taken.setPage page contents) ∧
      Owned layout (taken.setPage page contents) live held (update own page none) ∧
      ∀ index, (taken.setPage page contents).tableAt pgdir index = m.tableAt pgdir index := by
  obtain ⟨isFree, pages, -, -, taking⟩ := owned.kalloc_some asked
  refine ⟨(kalloc_asked owned asked .page).quietly ⟨rfl, rfl, rfl, rfl, rfl⟩ (fun _ => trivial)
    (by rintro ⟨⟩), taking.setPage _ (Owned.not_structural_of_none (update_self _ _ _)),
    tableAt_of_dir ?_⟩
  rw [page_setPage_ne, pages]
  rintro rfl
  exact owned.not_live_of_free isFree alive

/-- The indices of the tables of a range of pages. -/
def tablesOf (vpn count index : Nat) : Prop := ∃ page, vpn ≤ page ∧ page < vpn + count ∧
  page / 1024 = index

theorem Filling.none (m : Vm) (pgdir vpn : Nat) : Filling m m pgdir (tablesOf vpn 0) := by
  intro index _
  refine ⟨fun absent => ⟨absent, ?_⟩, And.left⟩
  rintro ⟨page, low, high, -⟩
  omega

/-- The tables of a range are those of its first page and of the rest. -/
theorem Filling.cons (first : Filling m middle pgdir (· = vpn / 1024))
    (rest : Filling middle later pgdir (tablesOf (vpn + 1) count)) :
    Filling m later pgdir (tablesOf vpn (count + 1)) := by
  intro index inside
  rw [rest index inside, first index inside, and_assoc]
  refine and_congr_right fun _ => ⟨?_, fun outside => ⟨?_, ?_⟩⟩
  · rintro ⟨notFirst, notRest⟩ ⟨page, low, high, same⟩
    by_cases here : page = vpn
    · exact notFirst (here ▸ same.symm)
    · exact notRest ⟨page, by omega, by omega, same⟩
  · rintro rfl
    exact outside ⟨vpn, le_rfl, by omega, rfl⟩
  · rintro ⟨page, low, high, same⟩
    exact outside ⟨page, by omega, by omega, same⟩

/-- Inside a size some pages are still to come. -/
theorem pages_left (inside : vpn * pgsize < newsz) (range : count = (newsz + 4095) / 4096 - vpn) :
    ∃ rest, count = rest + 1 := by
  have := mt page_ge_iff.mp (not_not.mpr inside)
  exact ⟨count - 1, by omega⟩

/-- The loop of `allocuvm`. -/
theorem allocRun_asked (alive : live pgdir) (top : newsz < kernbase)
    (run : AllocRun layout pgdir oldsz newsz vpn m size later) :
    ∀ {own : Places β} {missing : Nat → Bool}, Owned layout m live held own →
      count = (newsz + 4095) / 4096 - vpn → Lacks m pgdir missing →
      Asked (growRequests .silent missing count vpn) m
        (size = newsz ∧ Filling m later pgdir (tablesOf vpn count)) (size = 0) later := by
  induction run generalizing count with
  | done outside =>
    intro own missing owned range _
    obtain rfl : count = 0 := by
      have := page_ge_iff.mpr outside
      omega
    exact Asked.nil (Served.refl _) ⟨rfl, Filling.none _ pgdir _⟩
  | @rollback vpn _ _ _ _ inside asked undone =>
    intro own missing owned range _
    obtain ⟨count, rfl⟩ := pages_left inside range
    obtain ⟨-, -, -, still⟩ := owned.kalloc_none asked
    obtain ⟨-, -, -, -, denied, torn, -⟩ := deallocuvm_spec still alive top.le undone
    rw [growRequests]
    exact (kalloc_asked owned asked .page).append (fun impossible => absurd rfl impossible)
      fun _ => ⟨rfl, denied, torn⟩
  | @page vpn page _ m taken _ middle _ mapped inside asked mapping isMiddle _ ih =>
    intro own missing owned range lacks
    obtain ⟨count, rfl⟩ := pages_left inside range
    have bound := user_page top.le inside
    obtain ⟨early, filled, tables⟩ := page_asked owned alive asked Bytes.zero
    have lacking : Lacks (taken.zero page) pgdir missing := by
      intro index below
      rw [lacks index below, zero, tables index]
    obtain ⟨between, growing, -⟩ := grow_round owned alive bound asked mapping isMiddle
    obtain ⟨mapAsked, filling⟩ := mappages_asked filled alive (by omega)
      (show Request.silent ≠ .page by decide) mapping
    rw [growRequests]
    refine early.append (fun _ => ?_) (by rintro ⟨⟩)
    rw [lacking.request (by omega)]
    cases mapped with
    | false => exact Asked.of_silent (silent_of_denied mapAsked rfl)
    | true =>
      subst isMiddle
      have first : Filling m middle pgdir (· = vpn / 1024) := by
        intro index below
        rw [filling rfl index below, tables index]
      exact mapAsked.append (fun _ => (ih growing (by omega)
        (lacking.fill (filling rfl))).quietly (Served.refl _)
          (fun grown => ⟨grown.1, first.cons grown.2⟩) id) (by rintro ⟨⟩)

/-- The size that `allocuvm` returns when no request fails. -/
def grownSize (oldsz newsz : Nat) : Nat :=
  if kernbase ≤ newsz then 0 else max oldsz newsz

/-- The requests of `allocuvm`. -/
def allocRequests (missing : Nat → Bool) (oldsz newsz : Nat) : List Request :=
  if kernbase ≤ newsz then []
  else growRequests .silent missing ((newsz + 4095) / 4096 - (oldsz + 4095) / 4096)
    ((oldsz + 4095) / 4096)

/-- `allocuvm` makes its requests in order. -/
theorem allocuvm_asked (owned : Owned layout m live held own) {missing : Nat → Bool}
    (alive : live pgdir) (lacks : Lacks m pgdir missing)
    (ran : m.allocuvm layout pgdir oldsz newsz = .ok (size, later)) :
    Asked (allocRequests missing oldsz newsz) m
      (size = grownSize oldsz newsz ∧ (newsz < kernbase → Filling m later pgdir (tablesOf
        ((oldsz + 4095) / 4096) ((newsz + 4095) / 4096 - (oldsz + 4095) / 4096))))
      (size = 0) later := by
  unfold allocuvm at ran
  unfold allocRequests grownSize
  split at ran
  · rename_i large
    cases ran
    rw [if_pos large]
    exact Asked.nil (Served.refl _) ⟨(if_pos large).symm, fun small => by omega⟩
  · rename_i small
    have top : newsz < kernbase := by omega
    rw [if_neg small]
    split at ran
    · rename_i shorter
      cases ran
      rw [Nat.sub_eq_zero_of_le (Nat.div_le_div_right (by omega))]
      exact Asked.nil (Served.refl _) ⟨by rw [if_neg small, max_eq_left shorter.le], fun _ =>
        Filling.none _ _ _⟩
    · rename_i longer
      have order : oldsz ≤ newsz := by omega
      rw [(pgroundup_eq (order.trans top.le)).1] at ran
      refine (allocRun_asked alive top (allocLoop_run ran) owned rfl lacks).quietly
        (Served.refl _) (fun grown => ?_) id
      rw [if_neg small, max_eq_right order]
      exact ⟨grown.1, fun _ => grown.2⟩

/-- The loop of `copyuvm`. -/
theorem copyRun_asked {d : Nat} (alive : live d) (top : sz ≤ kernbase)
    (run : CopyRun layout pgdir sz d vpn m result later) :
    ∀ {own : Places β} {missing : Nat → Bool}, Owned layout m live held own →
      count = (sz + 4095) / 4096 - vpn → Lacks m d missing →
      Asked (growRequests .table missing count vpn) m (result = some d) (result = none) later := by
  -- A page that was taken, and what mapping it asks for.
  have round : ∀ {vpn pte page : Nat} {m taken after : Vm} {own : Places β}
      {missing : Nat → Bool} {mapped : Bool}, vpn < 524288 → Owned layout m live held own →
      Lacks m d missing → m.kalloc = (some page, taken) →
      (taken.setPage page (taken.page (frame pte))).mappages d (vpn * pgsize) pgsize
        (page * pgsize) (pteFlags pte) = .ok (mapped, after) →
      Asked ([.page] ++ if missing (vpn / 1024) then [.table] else []) m (mapped = true)
          (mapped = false) after ∧
        (mapped = true → Lacks after d (update missing (vpn / 1024) false)) := by
    intro vpn pte page m taken after own missing mapped bound owned lacks asked mapping
    obtain ⟨early, filled, tables⟩ :=
      page_asked owned alive asked (taken.page (frame pte))
    have lacking : Lacks (taken.setPage page (taken.page (frame pte))) d missing := by
      intro index below
      rw [lacks index below, tables index]
    obtain ⟨mapAsked, filling⟩ := mappages_asked filled alive (by omega)
      (show Request.table ≠ .page by decide) mapping
    rw [lacking.request (by omega)]
    exact ⟨early.append (fun _ => mapAsked) (by rintro ⟨⟩), fun isMapped => lacking.fill (filling isMapped)⟩
  induction run generalizing count with
  | done outside =>
    intro own missing owned range _
    obtain rfl : count = 0 := by
      have := page_ge_iff.mpr outside
      omega
    exact Asked.nil (Served.refl _) rfl
  | full inside asked freeing =>
    intro own missing owned range _
    obtain ⟨count, rfl⟩ := pages_left inside range
    obtain ⟨-, -, -, still⟩ := owned.kalloc_none asked
    obtain ⟨-, -, -, -, denied, torn⟩ := freevm_spec still alive freeing
    rw [growRequests]
    exact (kalloc_asked owned asked .page).append (fun impossible => absurd rfl impossible)
      fun _ => ⟨rfl, denied, torn⟩
  | denied inside asked mapping freeing =>
    intro own missing owned range lacks
    obtain ⟨count, rfl⟩ := pages_left inside range
    have bound := user_page top inside
    obtain ⟨-, between, growing, -⟩ :=
      grow_page owned alive bound asked (Nat.mod_lt _ (by decide)) _ mapping
    obtain ⟨-, -, -, -, denied, torn⟩ := freevm_spec growing alive freeing
    rw [growRequests, ← append_assoc]
    exact (round bound owned lacks asked mapping).1.append (by rintro ⟨⟩) fun _ => ⟨rfl, denied, torn⟩
  | page inside stored asked mapping _ ih =>
    intro own missing owned range lacks
    obtain ⟨count, rfl⟩ := pages_left inside range
    have bound := user_page top inside
    obtain ⟨-, between, growing, -⟩ :=
      grow_page owned alive bound asked (Nat.mod_lt _ (by decide)) _ mapping
    obtain ⟨first, lacking⟩ := round bound owned lacks asked mapping
    rw [growRequests, ← append_assoc]
    exact first.append (fun _ => ih growing (by omega) (lacking rfl)) (by rintro ⟨⟩)

/-- The requests of `copyuvm`. -/
def copyRequests (sz : Nat) : List Request :=
  setupRequests ++ growRequests .table (fun index => index < 512) ((sz + 4095) / 4096) 0

/-- `copyuvm` makes its requests in order. -/
theorem copyuvm_asked (owned : Owned layout m live held own) (top : sz ≤ kernbase)
    (ran : m.copyuvm layout pgdir sz = .ok (result, later)) :
    Asked (copyRequests sz) m (result ≠ none) (result = none) later := by
  obtain ⟨⟨answer, after⟩, setup, ran⟩ := Except.of_bind_ok ran
  obtain ⟨early, tables⟩ := setupkvm_asked owned setup
  cases answer with
  | none =>
    cases ran
    exact early.append (fun impossible => absurd rfl impossible) fun _ => ⟨rfl, rfl, rfl⟩
  | some d =>
    obtain ⟨-, -, -, between, building, -⟩ := setupkvm_some owned setup
    have lacks : Lacks after d fun index => index < 512 := fun index inside =>
      iff_of_true (by simpa using inside)
        ((tables d rfl index (by omega)).mpr (kernelTable_user inside))
    have rest := copyRun_asked (Or.inr rfl) top (copyLoop_start ran) building rfl lacks
    exact early.append (fun _ => rest.quietly (Served.refl _) (fun same => by simp [same]) id) (by rintro ⟨⟩)

end Vm

end Xv6
