import Xv6.Proc.Steps

/-!
# The state in which the scheduler starts

`main` frees all pages above the kernel in two ranges, with the kernel's own
directory built and the other processors started in between, and `userinit` makes
the first process. After it the invariant holds; and when no call of `kalloc` failed,
the first process is complete and every managed page has a place.
-/

namespace Xv6

open Vm Function Except

variable {β : Type} {layout : Layout} {m later : Vm} {live : Nat → Prop}
  {held : β → Option Nat} {own : Places β} {pgdir : Nat} {init : List UInt8}

/-! ## `inituvm` and `userinit` -/

/-- Filling a page that was free does not touch what was in use. -/
theorem Keeps.fill {page : Nat} {next : Places β}
    (keeps : Keeps pgdir m own later next) (isFree : own page = some .free) (contents : Page) :
    Keeps pgdir m own (later.setPage page contents) next where
  hand := fun other here => by
    have kept := keeps.hand other here
    refine ⟨kept.1, ?_⟩
    rw [page_setPage_ne _ _ ?_, kept.2]
    rintro rfl
    simp [isFree] at here
  foreign := fun other place here used apart => by
    have kept := keeps.foreign other place here used apart
    refine ⟨kept.1, ?_⟩
    rw [page_setPage_ne _ _ ?_, kept.2]
    rintro rfl
    rw [isFree] at here
    exact used (Option.some.inj here).symm
  denied := keeps.denied
  torn := keeps.torn

/-- The first user page is mapped and holds the given code, unless its page table was denied;
then it is lost, since the result of `mappages` is not looked at. -/
theorem inituvm_spec (owned : Owned layout m live held own) (alive : live pgdir)
    (ran : m.inituvm layout pgdir init = .ok later) :
    ∃ next, Owned layout later live held next ∧ Keeps pgdir m own later next ∧
      Accounted layout m own later next ∧
      (m.entry pgdir 0 = none → ∀ pte, later.entry pgdir 0 = some pte →
        ∀ i, i < init.length → (later.page (frame pte)).byte i = init.getD i 0) ∧
      (m.foresee ([.page] ++ m.tableRequest pgdir 0 .silent) = none →
        Served (Request.page :: m.tableRequest pgdir 0 .silent).length m later ∧
          Filling m later pgdir (· = 0) ∧ ∀ vpn, vpn < 1048576 →
            ((later.entry pgdir vpn).isSome ↔ vpn = 0 ∨ (m.entry pgdir vpn).isSome)) := by
  unfold inituvm at ran
  split at ran
  · cases ran
  rename_i short
  rcases asked : m.kalloc with ⟨_ | mem, taken⟩
  · rw [asked] at ran
    cases ran
  rw [asked] at ran
  obtain ⟨⟨mapped, mapping⟩, mapRan, putting⟩ := of_bind_ok ran
  rw [zero, show 0 = 0 * pgsize from rfl] at mapRan
  obtain ⟨isFree, pages, sameDenied, sameTorn, taking⟩ := owned.kalloc_some asked
  obtain ⟨pageAsked, filled, sameTables⟩ := page_asked owned alive asked Bytes.zero
  obtain ⟨-, next, final, keeps, account, success, failure⟩ :=
    grow_page owned alive (by decide) asked (by decide) _ mapRan
  obtain ⟨tableAsked, filling⟩ := mappages_asked filled alive (by decide)
    (show Request.silent ≠ .page by simp) mapRan
  rw [tableRequest, sameTables, ← tableRequest] at tableAsked
  have asking := pageAsked.append (fun _ => tableAsked) False.elim
  have data : ¬ Structural next mem := by
    cases mapped with
    | true =>
      have stored := (success rfl).2 0 (by decide)
      rw [if_pos rfl] at stored
      have isUser := user_of_entry final alive (by decide) stored
      rw [frame_mkPte (by decide)] at isUser
      rintro (free | dir | ⟨pgdir, index, table⟩) <;> simp_all
    | false => exact Owned.not_structural_of_none (failure rfl).2.1
  have bytes := put_byte (by omega) putting mem
  obtain ⟨contents, rfl⟩ := put_eq putting
  have entries : ∀ vpn, vpn < 1048576 →
      (mapping.setPage mem contents).entry pgdir vpn = mapping.entry pgdir vpn := by
    refine fun vpn inside => final.entry_structural (fun page structural => ?_) alive inside
    refine page_setPage_ne _ _ ?_
    rintro rfl
    exact data structural
  refine ⟨next, final.setPage _ data, keeps.fill isFree _, ⟨account.kept, account.lost⟩,
    fun empty pte stored i inside => ?_, fun quiet => ?_⟩
  · rw [entries 0 (by decide)] at stored
    cases mapped with
    | true =>
      rw [(success rfl).2 0 (by decide), if_pos rfl] at stored
      cases stored
      rw [frame_mkPte (by decide), bytes i, if_pos ⟨rfl, by omega⟩, Nat.sub_zero]
    | false =>
      rw [(failure rfl).2.2 0 (by decide), empty] at stored
      cases stored
  obtain ⟨isMapped, served⟩ := asking.served quiet
  have quietly : Served 0 mapping (mapping.setPage mem contents) := ⟨rfl, rfl, rfl, rfl, rfl⟩
  refine ⟨served.trans quietly, fun index inside => ?_, fun vpn inside => ?_⟩
  · rw [tableAt_of_dir (page_setPage_ne _ _ ?_), filling isMapped index inside, sameTables]
    rintro rfl
    exact data (Or.inr (Or.inl ((final.dir _).mpr alive)))
  · rw [entries vpn inside, (success isMapped).2 vpn inside]
    split <;> simp_all

namespace Kernel

variable {k after : Kernel} {owners : Places Holder}
  {initcode : List UInt8} {page : Nat → Page} {kpgdir p pte i : Nat} {vm : Vm}
  {refuse : Nat → Bool}

/-- The pages that `userinit` asks for. -/
def bootRequests : List Request := [.page] ++ (setupRequests ++ ([.page] ++ [.silent]))

/-- The first process. -/
theorem userinit_spec (sane : Sane layout k owners) (ran : k.userinit layout initcode = .ok after) :
    (∃ next, Moved layout k owners after next) ∧
      (k.vm.foresee bootRequests = none → after.vm.denied = k.vm.denied ∧
        (k.Full → after.Full)) := by
  unfold userinit at ran
  rcases allocating : k.allocproc with ⟨_ | p, one⟩
  · rw [allocating] at ran
    cases ran
  rw [allocating] at ran
  obtain ⟨inside, unused, kstack, taken, asked, rfl⟩ := allocproc_some allocating
  obtain ⟨isFree, takenPages, early, sameEarly, denied⟩ := sane.taken asked
  obtain ⟨⟨answer, vm⟩, setting, ran⟩ := of_bind_ok ran
  cases answer with
  | none => cases ran
  | some pgdir =>
    obtain ⟨loaded, loading, ran⟩ := of_bind_ok ran
    cases ran
    obtain ⟨fresh, -, quiet, between, setUp, keeps, kept, empty, -⟩ :=
      setupkvm_some early.owned setting
    obtain ⟨next, final, keepsToo, account, -, boot⟩ := inituvm_spec setUp (Or.inr rfl) loading
    have notLive : ¬ k.Live pgdir := early.owned.not_live_of_free fresh
    have managed := sane.owned.managed isFree
    have keeping := keeps.trans keepsToo
    have hand : next kstack = none := (keeping.hand kstack (update_self _ _ _)).1
    obtain ⟨setAsked, tables⟩ := setupkvm_asked early.owned setting
    have kept' : loaded.denied = k.vm.denied → ∀ page,
        update next kstack (some (.other (.kstack p))) page = none →
          owners page = none := by
      intro same page isLost
      obtain ⟨apart, lost⟩ := update_eq_none.mp isLost
      have before := kept page (account.kept (same.trans (quiet.trans denied).symm) page lost)
      rwa [update_of_ne apart] at before
    have low : k.vm.denied ≤ loaded.denied := (quiet.trans denied) ▸ keepsToo.denied
    refine ⟨⟨_, sane.add_process ⟨inside, unused⟩ ?_ ?_ ?_ ?_ rfl (fun _ _ _ => Iff.rfl)
      sane.files.closed ?_ final notLive hand managed ?_, low, kept'⟩, fun served => ?_⟩
    · simp [setProc]
    · simp [setProc]
    · simp [setProc, embryo]
    · intro q here
      simp [setProc, here, embryo]
    · intro f page writable isEnd
      exact (early.pipe_page keeping f page writable isEnd).trans (congrFun takenPages page)
    · simp [setProc, pgsize_eq]
    · obtain ⟨-, -, served⟩ := (kalloc_asked sane.owned asked .page).through served
      obtain ⟨-, -, served⟩ := setAsked.through served
      have request : [Request.silent] = vm.tableRequest pgdir 0 .silent := by
        rw [tableRequest, if_pos ((tables pgdir rfl 0 (by decide)).mpr rfl)]
      rw [request] at served
      obtain ⟨last, -, entries⟩ := boot served
      refine ⟨last.denied.trans (quiet.trans denied), fun full q usedToo => ?_⟩
      by_cases here : q = p
      · subst here
        simp only [setProc, update_self]
        intro vpn below
        rw [entries vpn (by omega), empty vpn below]
        simp [pgsize_eq]
      · have before : k.Used q := by simpa [Used, setProc, here, embryo] using usedToo
        have same : ∀ value, (({ k.embryo p kstack taken with
            vm := loaded, initproc := some p }).setProc p value).proc q = k.proc q := by
          simp [setProc, here, embryo]
        rw [same]
        refine (keeping.complete early.owned before.live ?_).mpr (sameEarly.full full q before)
        rintro rfl
        exact notLive before.live

/-! ## `main` -/

/-- Nothing is in use before `main` runs. -/
theorem power_owned (layout : Layout) (page : Nat → Page) :
    Owned layout (power page).vm (fun _ => False) (fun _ : Holder => none) fun _ => none where
  managed := by rintro _ _ ⟨⟩
  chain := ⟨[], rfl, ⟨List.nodup_nil, rfl⟩, by simp⟩
  dir := by simp
  table := by simp
  user := by simp
  kernel := by rintro _ _ _ ⟨⟩
  other := by simp

/-- The managed pages are those from the end of the kernel on. -/
theorem managed_range (layout : Layout) : ∃ first, first ≤ 1024 ∧
    pgroundup layout.kernelEnd = (524288 + first) * pgsize ∧
    ∀ page, layout.Managed page ↔ first ≤ page ∧ page < 57344 := by
  have start := layout.kernlink_lt_data
  have order := layout.data_le_end
  have top := layout.end_le
  simp only [kernlink_eq, p2v, kernbase_eq] at start top
  refine ⟨(layout.kernelEnd + 4095) / 4096 - 524288, ?_, ?_, fun page => ?_⟩
  · omega
  · simp only [pgroundup, pgsize_eq]
    omega
  · simp only [Layout.Managed, pgsize_eq, kernbase_eq, phystop_eq]
    omega

/-- The pages of the first four megabytes. -/
theorem low_pages (layout : Layout) (page : Nat → Page) : ∃ first vm, first ≤ 1024 ∧
    (∀ page, layout.Managed page ↔ first ≤ page ∧ page < 57344) ∧
    freerange layout (power page).vm (pgroundup layout.kernelEnd) (p2v (4 * 1024 * 1024)) = .ok vm ∧
    Owned layout vm (fun _ => False) (fun _ : Holder => none)
      (freed (fun _ => none) first (1024 - first)) ∧
    vm.free = 1024 - first ∧ vm.refuse = (fun _ => false) ∧
    (first < 1024 → vm.freelist = p2v (1023 * pgsize)) := by
  obtain ⟨first, below, start, managed⟩ := managed_range layout
  obtain ⟨vm, ran, owned, free, refuse, denied, head⟩ := freerange_spec (1024 - first) first
    (power_owned layout page) (by omega)
    fun other low high => ⟨rfl, (managed other).mpr ⟨low, by omega⟩⟩
  rw [show first + (1024 - first) = 1024 by omega, ← start] at ran
  refine ⟨first, vm, below, managed, ran, owned, free.trans (Nat.zero_add _), refuse, fun some => ?_⟩
  rw [head (by omega)]
  congr 2
  omega

/-- Without processes and files the invariant is about the owners only. -/
theorem Sane.of_idle (noProc : ∀ p, (k.proc p).state = .unused)
    (noFile : ∀ f, (k.file f).type = .none) (owned : Owned layout k.vm k.Live k.held owners) :
    Sane layout k owners := by
  have idle : ∀ p, ¬ k.Used p := fun p used => used.2 (noProc p)
  have noEnd : ∀ f other writable, ¬ k.PipeEnd f other writable := by
    rintro f other writable ⟨isPipe, -⟩
    rw [noFile f] at isPipe
    cases isPipe
  exact ⟨owned, fun p _ used => absurd used (idle p), fun p used => absurd used (idle p),
    fun p used => absurd used (idle p), fun f _ => noFile f,
    fun f _ other writable isEnd => absurd isEnd (noEnd f other writable),
    fun f other writable isEnd => absurd isEnd (noEnd f other writable)⟩

/-- At first only the kernel's directory is in use. -/
theorem idle_sane
    (owned : Owned layout vm (fun other => False ∨ other = kpgdir) (fun _ => none) owners) :
    Sane layout { power page with vm, kpgdir } owners := by
  have idle : ∀ p, ¬ ({ power page with vm, kpgdir } : Kernel).Used p := fun p used => used.2 rfl
  have isLive : ({ power page with vm, kpgdir } : Kernel).Live =
      fun other => False ∨ other = kpgdir := by
    funext other
    simp [Live, idle]
  have noHolder : ({ power page with vm, kpgdir } : Kernel).held = fun _ => none := by
    funext holder
    cases holder with
    | kstack p => exact if_neg (idle p)
    | cpu i => exact List.getElem?_nil
    | pipe other =>
      refine if_neg ?_
      rintro ⟨f, writable, impossible, -⟩
      cases impossible
  refine .of_idle (fun _ => rfl) (fun _ => rfl) ?_
  rw [isLive, noHolder]
  exact owned

/-- Another processor gets a page for its stack. -/
theorem Sane.add_stack (sane : Sane layout k owners) {stack : Nat}
    (asked : k.vm.kalloc = (some stack, vm)) : owners stack = some .free ∧
      Sane layout { k with vm, cpuStacks := k.cpuStacks ++ [stack] }
        (update owners stack (some (.other (.cpu k.cpuStacks.length)))) := by
  obtain ⟨isFree, -, early, -⟩ := sane.taken asked
  have holding : Owned layout vm k.Live
      ({ k with vm, cpuStacks := k.cpuStacks ++ [stack] } : Kernel).held
      (update (update owners stack none) stack (some (.other (.cpu k.cpuStacks.length)))) := by
    refine early.owned.hold (update_self _ _ _) (sane.owned.managed isFree)
      (List.getElem?_eq_none (Nat.le_refl _)) List.getElem?_concat_length fun holder differ => ?_
    cases holder with
    | kstack p => exact held_kstack Iff.rfl fun _ => rfl
    | cpu i =>
      have apart : i ≠ k.cpuStacks.length := fun same => differ (congrArg Holder.cpu same)
      rcases Nat.lt_or_gt_of_ne apart with before | beyond
      · exact List.getElem?_append_left before
      · simp only [held]
        rw [List.getElem?_eq_none (by simpa using beyond), List.getElem?_eq_none beyond.le]
    | pipe page => exact held_pipe Iff.rfl
  rw [update_idem] at holding
  exact ⟨isFree, holding, sane.distinct, sane.apart, sane.size, early.files.of_pages rfl
    fun _ _ _ _ => rfl⟩

/-- Starting processors changes nothing else. -/
theorem startothers_same (count : Nat) : ∀ {k : Kernel}, k.startothers count = .ok after →
    after = { k with vm := after.vm, cpuStacks := after.cpuStacks } := by
  induction count with
  | zero =>
    rintro k ⟨⟩
    rfl
  | succ count ih =>
    intro k ran
    rw [startothers] at ran
    split at ran
    · cases ran
    · have same := ih ran
      exact same

/-- Starting processors places their stacks and loses nothing. -/
theorem startothers_spec (count : Nat) : ∀ {k : Kernel} {owners : Places Holder},
    Sane layout k owners → k.startothers count = .ok after → ∃ next, Sane layout after next ∧
      ∀ page, next page = none ↔ owners page = none := by
  induction count with
  | zero =>
    rintro k owners sane ⟨⟩
    exact ⟨owners, sane, fun _ => Iff.rfl⟩
  | succ count ih =>
    intro k owners sane ran
    rw [startothers] at ran
    rcases asked : k.vm.kalloc with ⟨_ | stack, vm⟩
    · rw [asked] at ran
      cases ran
    · rw [asked] at ran
      obtain ⟨isFree, added⟩ := sane.add_stack asked
      obtain ⟨next, last, same⟩ := ih added ran
      refine ⟨next, last, fun page => (same page).trans ?_⟩
      rw [update_eq_none]
      refine and_iff_right_of_imp fun unplaced => ?_
      rintro rfl
      rw [isFree] at unplaced
      cases unplaced

/-- The kernel's directory, the other processors' stacks and the pages above the first four
megabytes: the state before the first process. -/
theorem high_pages {first count : Nat} {low : Vm} (below : first ≤ 1024)
    (managed : ∀ page, layout.Managed page ↔ first ≤ page ∧ page < 57344)
    (owned : Owned layout low (fun _ => False) (fun _ : Holder => none)
      (freed (fun _ => none) first (1024 - first)))
    (setting : low.setupkvm layout = .ok (some kpgdir, vm))
    (starting : { power page with vm, kpgdir }.startothers count = .ok k) : ∃ last owners,
      freerange layout k.vm (pgroundup (p2v (4 * 1024 * 1024))) (p2v phystop) = .ok last ∧
      Sane layout { k with vm := last } owners ∧
      (∀ page, layout.Managed page → owners page ≠ none) ∧ 56320 ≤ last.free := by
  obtain ⟨-, -, -, between, setUp, keeps, kept, -⟩ := setupkvm_some owned setting
  obtain ⟨next, sane, placed⟩ := startothers_spec count (idle_sane setUp) starting
  have same := startothers_same count starting
  obtain ⟨last, ran, final, free, -⟩ := freerange_spec 56320 1024 sane.owned (by decide)
    fun other low high => ⟨(placed other).mpr (keeps.hand other (if_neg (by omega))).1,
      (managed other).mpr ⟨by omega, by omega⟩⟩
  have idle : Sane layout { k with vm := last } (freed next 1024 56320) := by
    refine .of_idle (fun p => ?_) (fun f => ?_) final
    · rw [same]
      rfl
    · rw [same]
      rfl
  refine ⟨last, _, ran, idle, fun page inside isLost => ?_, by omega⟩
  have bounds := (managed page).mp inside
  rw [freed] at isLost
  split at isLost
  · cases isLost
  · have early := kept page ((placed page).mp isLost)
    rw [freed, if_pos (by omega)] at early
    cases early

/-- Counting the calls of `kalloc` anew changes no page. -/
theorem Sane.enter (sane : Sane layout k owners) (refuse : Nat → Bool) :
    Sane layout (k.enter refuse) owners ∧ SameProcs k (k.enter refuse) := by
  have same : SameProcs k (k.enter refuse) := ⟨rfl, rfl, rfl, fun _ _ _ _ => rfl⟩
  refine ⟨sane.of_procs same (sane.owned.congr (fun _ _ => rfl) rfl rfl) ?_, same⟩
  exact sane.files.of_pages rfl fun _ _ _ _ => rfl

/-- The state in which the scheduler starts. -/
theorem main_spec {ncpu : Nat} (ran : main layout ncpu page initcode refuse = .ok k) :
    ∃ owners, Sane layout k owners ∧
      (refuse = (fun _ => false) → k.Full ∧ ∀ page, layout.Managed page → owners page ≠ none) := by
  obtain ⟨first, low, below, managed, lowRan, owned, -⟩ := low_pages layout page
  unfold main at ran
  obtain ⟨_, lowRan', ran⟩ := of_bind_ok ran
  cases lowRan.symm.trans lowRan'
  obtain ⟨⟨answer, vm⟩, setting, ran⟩ := of_bind_ok ran
  cases answer with
  | none => cases ran
  | some kpgdir =>
    obtain ⟨idle, starting, ran⟩ := of_bind_ok ran
    obtain ⟨last, owners, highRan, sane, all, many⟩ :=
      high_pages below managed owned setting starting
    obtain ⟨_, highRan', ran⟩ := of_bind_ok ran
    cases highRan.symm.trans highRan'
    obtain ⟨started, -⟩ := sane.enter refuse
    obtain ⟨⟨next, moved⟩, quiet⟩ := userinit_spec started ran
    refine ⟨next, moved.sane, ?_⟩
    rintro rfl
    obtain ⟨denied, full⟩ := quiet (forecast_none (le_trans (by decide) many))
    refine ⟨full fun p used => absurd ?_ used.2, fun page inside isLost => ?_⟩
    · rw [startothers_same _ starting]
      rfl
    · exact all page inside (moved.kept denied page isLost)

/-! ## A kernel that starts -/

/-- A page of the first process is there when `kalloc` gives one. -/
theorem inituvm_ok (owned : Owned layout m live held own) (alive : live pgdir)
    (empty : m.entry pgdir 0 = none) (short : init.length < pgsize)
    (served : m.foresee [.page] = none) : ∃ later, m.inituvm layout pgdir init = .ok later := by
  unfold inituvm
  rw [if_neg (by omega)]
  rcases asked : m.kalloc with ⟨_ | mem, taken⟩
  · exact absurd rfl ((kalloc_asked owned asked .page).served served).1
  · obtain ⟨isFree, -⟩ := owned.kalloc_some asked
    obtain ⟨-, filled, -⟩ := page_asked owned alive asked Bytes.zero
    obtain ⟨mapped, later, ran⟩ := mappages_ok filled alive (show 0 < 1048576 by decide)
      ((entry_taken owned alive asked _ (by decide)).trans empty) (mem * pgsize) (pteW ||| pteU)
    have writable := (owned.managed isFree).writable
    rw [Nat.zero_mul] at ran
    simp only [zero, ran, bind, Except.bind, put, writable]
    split
    · exact ⟨_, rfl⟩
    · exact ⟨_, rfl⟩

/-- The first process takes the first slot. It has one page, and no page table but the
one for that page. -/
theorem userinit_ok (sane : Sane layout k owners) (idle : ∀ p, (k.proc p).state = .unused)
    (short : initcode.length < pgsize) (served : k.vm.foresee bootRequests = none) : ∃ after,
      k.userinit layout initcode = .ok after ∧ after.kpgdir = k.kpgdir ∧
      (after.proc 0).state = .runnable ∧ (after.proc 0).sz = pgsize ∧
      Lacks after.vm (after.proc 0).pgdir (lacking pgsize) ∧ after.vm.free = k.vm.free - 68 := by
  have slot : (List.range nproc).find? (fun p => (k.proc p).state = .unused) = some 0 := by
    rw [show List.range nproc = 0 :: (List.range 63).map Nat.succ from rfl, List.find?_cons_of_pos]
    simpa using idle 0
  rcases asked : k.vm.kalloc with ⟨_ | kstack, taken⟩
  · exact absurd rfl ((kalloc_asked sane.owned asked .page).through served).1
  obtain ⟨-, stackServed, served⟩ := (kalloc_asked sane.owned asked .page).through served
  have allocating : k.allocproc = (some 0, k.embryo 0 kstack taken) := by
    have same : (k.setProc 0 { k.proc 0 with state := .embryo, pid := k.nextpid }).vm.kalloc =
        (some kstack, taken) := asked
    simp only [allocproc, slot, same]
    simp [embryo, setProc]
  obtain ⟨-, -, early, -, -⟩ := sane.taken asked
  obtain ⟨answer, vm, setting⟩ := setupkvm_ok early.owned
  obtain ⟨setAsked, tables⟩ := setupkvm_asked early.owned setting
  obtain ⟨given, setServed, served⟩ := setAsked.through served
  cases answer with
  | none => exact absurd rfl given
  | some pgdir =>
    obtain ⟨-, -, -, between, setUp, -, -, empty, -⟩ := setupkvm_some early.owned setting
    have first : vm.foresee [.page] = none := by
      cases failed : vm.foresee [.page] with
      | none => rfl
      | some request => exact (foresee_append_some failed [.silent]).symm.trans served
    obtain ⟨loaded, loading⟩ := inituvm_ok setUp (Or.inr rfl) (empty 0 (by decide)) short first
    have setting' : (k.embryo 0 kstack taken).vm.setupkvm layout = .ok (some pgdir, vm) := setting
    have ran : k.userinit layout initcode =
        .ok (({ k.embryo 0 kstack taken with vm := loaded, initproc := some 0 }).setProc 0
          { (k.embryo 0 kstack taken).proc 0 with pgdir, sz := pgsize, state := .runnable }) := by
      unfold userinit
      rw [allocating]
      simp only [setting', bind, Except.bind, loading]
    have request : [Request.silent] = vm.tableRequest pgdir 0 .silent := by
      rw [tableRequest, if_pos ((tables pgdir rfl 0 (by decide)).mpr rfl)]
    rw [request] at served
    obtain ⟨-, -, -, -, -, boot⟩ := inituvm_spec setUp (Or.inr rfl) loading
    obtain ⟨last, filling, -⟩ := boot served
    rw [← request] at last
    refine ⟨_, ran, rfl, by simp [setProc], by simp [setProc], ?_, ?_⟩
    · intro index inside
      simp only [setProc, update_self]
      rw [filling index (by omega), show lacking pgsize index = decide (1 ≤ index * 1024) from rfl,
        decide_eq_true_eq,
        eq_true ((tables pgdir rfl index (by omega)).mpr (kernelTable_user inside)), true_and]
      omega
    · exact ((stackServed.trans setServed).trans last).free

/-- The directory of `setupkvm` is the page at the head of the free list. -/
theorem setupkvm_head (setting : m.setupkvm layout = .ok (some pgdir, later)) :
    pgdir = v2p m.freelist / pgsize := by
  obtain ⟨-, ⟨⟩⟩ | ⟨page, taken, _ | _, given, -, ⟨⟩⟩ := setupkvmFor_cases setting
  unfold kalloc at given
  split at given
  · cases given
  · cases given
    rfl

/-- Processors start when there are pages for their stacks. -/
theorem startothers_ok (count : Nat) : ∀ {k : Kernel} {owners : Places Holder},
    Sane layout k owners → k.vm.foresee (List.replicate count .page) = none →
      ∃ after, k.startothers count = .ok after := by
  induction count with
  | zero => exact fun _ _ => ⟨_, rfl⟩
  | succ count ih =>
    intro k owners sane served
    rw [startothers]
    rcases asked : k.vm.kalloc with ⟨_ | stack, vm⟩
    · exact absurd rfl ((kalloc_asked sane.owned asked .page).through served).1
    · obtain ⟨-, -, served⟩ := (kalloc_asked sane.owned asked .page).through served
      exact ih (sane.add_stack asked).2 served

/-- A kernel that leaves room for its own directory and the other processors' stacks in the
first four megabytes starts. The directory is in the last page of them, since `freerange`
frees that page last. -/
theorem main_ok (layout : Layout) (ncpu : Nat) (page : Nat → Page) (initcode : List UInt8)
    (short : initcode.length < pgsize)
    (room : layout.kernelEnd + (65 + (ncpu - 1)) * pgsize ≤ p2v (4 * 1024 * 1024)) : ∃ k,
      main layout ncpu page initcode (fun _ => false) = .ok k ∧ k.kpgdir = 1023 ∧
      (k.proc 0).state = .runnable ∧ (k.proc 0).sz = pgsize ∧
      Lacks k.vm (k.proc 0).pgdir (lacking pgsize) ∧ 50000 ≤ k.vm.free := by
  obtain ⟨first, low, below, managed, lowRan, owned, free, refuse, head⟩ := low_pages layout page
  have enough : first + 65 + (ncpu - 1) ≤ 1024 := by
    have start := layout.kernlink_lt_data
    have order := layout.data_le_end
    simp only [p2v, pgsize_eq, kernbase_eq, kernlink_eq] at room start
    have inside : layout.Managed (959 - (ncpu - 1)) := by
      simp only [Layout.Managed, pgsize_eq, kernbase_eq, phystop_eq]
      omega
    have := (managed _).mp inside
    omega
  obtain ⟨answer, vm, setting⟩ := setupkvm_ok owned
  have served : low.foresee (setupRequests ++ List.replicate (ncpu - 1) .page) = none := by
    rw [Vm.foresee, refuse, free]
    refine forecast_none ?_
    rw [List.length_append, List.length_replicate, show setupRequests.length = 65 from rfl]
    omega
  obtain ⟨given, -, served⟩ := (setupkvm_asked owned setting).1.through served
  cases answer with
  | none => exact absurd rfl given
  | some kpgdir =>
    obtain ⟨-, -, -, _, setUp, -⟩ := setupkvm_some owned setting
    have early : Sane layout { power page with vm, kpgdir } _ := idle_sane setUp
    obtain ⟨idle, starting⟩ := startothers_ok (ncpu - 1) early served
    have still := startothers_same _ starting
    obtain ⟨last, owners, highRan, sane, -, many⟩ :=
      high_pages below managed owned setting starting
    obtain ⟨started, -⟩ := sane.enter fun _ => false
    have unused : ∀ p, (idle.proc p).state = .unused := by
      rw [still]
      exact fun _ => rfl
    have dir : idle.kpgdir = kpgdir := by rw [still]
    obtain ⟨k, ran, same, state, size, lacks, rest⟩ := userinit_ok started unused short
      (forecast_none (le_trans (by decide) many))
    have left : 50000 ≤ k.vm.free := by
      rw [rest]
      exact le_trans (by decide) (Nat.sub_le_sub_right many 68)
    refine ⟨k, ?_, (same.trans dir).trans ?_, state, size, lacks, left⟩
    · unfold main
      simp only [lowRan, bind, Except.bind, setting, starting, highRan]
      exact ran
    · exact (setupkvm_head setting).trans (by rw [head (by omega)]; decide)

/-- Addresses for a kernel of about a hundred kilobytes. -/
def sampleLayout : Layout where
  data := 0x80108000
  kernelEnd := 0x80115000
  data_aligned := by decide
  kernlink_lt_data := by decide
  data_le_end := by decide
  end_le := by decide

end Kernel

end Xv6
