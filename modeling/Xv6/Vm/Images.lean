import Xv6.Vm.Spaces

/-!
# Copying address spaces and writing into them

`copyuvm` builds a directory page by page and takes it apart again when memory runs
out. The stores that `loaduvm` and `copyout` make into a directory's user pages
change no owner, provided that they reach only pages the directory maps; for
`copyout` that is a matter of the page tables being there, because an absent one
makes it follow a null pointer.
-/

namespace Xv6

open Vm

variable {β : Type} {layout : Layout} {m middle later : Vm} {live : Nat → Prop}
  {held : β → Option Nat} {own between next : Places β}
  {pgdir vpn sz d : Nat} {result : Option Nat}

/-! ## `copyuvm` -/

/-- What a finished copy and a failed one leave behind. -/
structure Copied (layout : Layout) (live : Nat → Prop) (held : β → Option Nat) (d sz : Nat)
    (fresh : Prop) (m : Vm) (own : Places β) (result : Option Nat)
    (later : Vm) : Prop where
  torn : later.torn = m.torn
  done : ∀ copy, result = some copy → copy = d ∧ later.denied = m.denied ∧ ∃ next,
    Owned layout later live held next ∧ Keeps d m own later next ∧
      (∀ page, next page = none → own page = none) ∧ (fresh → Complete later d sz)
  failed : result = none → ∃ next,
    Owned layout later (fun other => live other ∧ other ≠ d) held next ∧
      Keeps d m own later next ∧ Accounted layout m own later next

/-- A run of the loop of `copyuvm` from a page on. -/
inductive CopyRun (layout : Layout) (pgdir sz d : Nat) : (vpn : Nat) → Vm → Option Nat → Vm → Prop
  | done {vpn : Nat} {m : Vm} (outside : ¬ vpn * pgsize < sz) :
      CopyRun layout pgdir sz d vpn m (some d) m
  | full {vpn : Nat} {m taken later : Vm} (inside : vpn * pgsize < sz)
      (asked : m.kalloc = (none, taken)) (freeing : taken.freevm layout d = .ok later) :
      CopyRun layout pgdir sz d vpn m none later
  | denied {vpn pte page : Nat} {m taken after later : Vm} (inside : vpn * pgsize < sz)
      (asked : m.kalloc = (some page, taken))
      (mapping : (taken.setPage page (taken.page (frame pte))).mappages d (vpn * pgsize) pgsize
        (page * pgsize) (pteFlags pte) = .ok (false, after))
      (freeing : after.freevm layout d = .ok later) : CopyRun layout pgdir sz d vpn m none later
  | page {vpn pte page : Nat} {m taken after later : Vm} {result : Option Nat}
      (inside : vpn * pgsize < sz) (stored : vpn < 1048576 → m.entry pgdir vpn = some pte)
      (asked : m.kalloc = (some page, taken))
      (mapping : (taken.setPage page (taken.page (frame pte))).mappages d (vpn * pgsize) pgsize
        (page * pgsize) (pteFlags pte) = .ok (true, after))
      (rest : CopyRun layout pgdir sz d (vpn + 1) after result later) :
      CopyRun layout pgdir sz d vpn m result later

/-- The entry that a look finds. -/
theorem walk_entry {pgtab index : Nat} (inside : vpn < 1048576)
    (walked : (m.walkpgdir pgdir (vpn * pgsize) false).1 = some (pgtab, index))
    (shown : present (m.word pgtab index) = true) :
    m.entry pgdir vpn = some (m.word pgtab index) := by
  rw [walk_look, (pdx_ptx inside).1, (pdx_ptx inside).2] at walked
  obtain ⟨table, found, same⟩ := Option.map_eq_some_iff.mp walked
  cases same
  have here := entry_of_table found (Nat.mod_lt vpn (show 0 < 1024 by decide))
  rwa [Nat.div_add_mod', if_pos shown] at here

theorem copyLoop_run (ran : copyLoop layout m pgdir sz d (vpn * pgsize) = .ok (result, later)) :
    CopyRun layout pgdir sz d vpn m result later := by
  generalize isA : vpn * pgsize = a at ran
  fun_induction copyLoop layout m pgdir sz d a generalizing vpn with
  | case1 => cases ran
  | case2 => cases ran
  | case3 m i inside pgtab index walked pte shown taken =>
    rename_i asked
    subst isA
    obtain ⟨after, freeing, ended⟩ := Except.of_bind_ok ran
    cases ended
    exact .full inside asked freeing
  | case4 => cases ran
  | case5 m i inside pgtab index walked pte shown page taken asked after mapping =>
    rename_i ih
    subst isA
    refine .page inside (fun bound => walk_entry bound walked ?_) asked mapping
      (ih (page_bytes vpn).symm ran)
    simpa using shown
  | case6 m i inside pgtab index walked pte shown page taken asked after =>
    rename_i mapping
    subst isA
    obtain ⟨freed, freeing, ended⟩ := Except.of_bind_ok ran
    cases ended
    exact .denied inside asked mapping freeing
  | case7 m i outside =>
    subst isA
    cases ran
    exact .done outside

/-- The loop of `copyuvm` from a page on. -/
theorem CopyRun.spec (alive : live d) (top : sz ≤ kernbase)
    (run : CopyRun layout pgdir sz d vpn m result later) :
    ∀ {own : Places β}, (0 < vpn → (vpn - 1) * pgsize < sz) →
      Owned layout m live held own → Copied layout live held d sz
        (∀ other, other < 524288 → ((m.entry d other).isSome ↔ other < vpn)) m own result later := by
  induction run with
  | done outside =>
    intro own reached owned
    refine ⟨rfl, ?_, by rintro ⟨⟩⟩
    rintro copy ⟨⟩
    refine ⟨rfl, rfl, own, owned, Keeps.refl _ _ _, fun _ => id, fun fresh other below => ?_⟩
    rw [fresh other below]
    constructor
    · intro before
      exact (Nat.mul_le_mul_right pgsize (by omega)).trans_lt (reached (by omega))
    · intro within
      by_contra beyond
      exact outside ((Nat.mul_le_mul_right pgsize (by omega)).trans_lt within)
  | full _ asked freeing =>
    intro own _ owned
    obtain ⟨pages, denied, torn, still⟩ := owned.kalloc_none asked
    obtain ⟨next, final, keeps, kept, sameDenied, sameTorn⟩ := freevm_spec still alive freeing
    exact ⟨sameTorn.trans torn, by rintro _ ⟨⟩, fun _ => ⟨next, final,
      (Keeps.of_pages pages denied.ge torn.ge).trans keeps,
      Accounted.of_quiet (sameDenied.trans denied) kept⟩⟩
  | denied inside asked mapping freeing =>
    intro own _ owned
    obtain ⟨torn, between, growing, early, account, -⟩ :=
      grow_page owned alive (user_page top inside) asked (Nat.mod_lt _ (by decide)) _ mapping
    obtain ⟨next, freed, keeps, kept, sameDenied, sameTorn⟩ := freevm_spec growing alive freeing
    exact ⟨sameTorn.trans torn, by rintro _ ⟨⟩, fun _ => ⟨next, freed, early.trans keeps,
      account.trans (Accounted.of_quiet sameDenied kept) early.denied keeps⟩⟩
  | @page vpn _ _ _ _ _ _ _ inside _ asked mapping _ ih =>
    intro own _ owned
    obtain ⟨torn, between, growing, early, account, success, -⟩ :=
      grow_page owned alive (user_page top inside) asked (Nat.mod_lt _ (by decide)) _ mapping
    have rest := ih (fun _ => inside) growing
    obtain ⟨denied, entries⟩ := success rfl
    refine ⟨rest.torn.trans torn, fun copy same => ?_, fun failed => ?_⟩
    · obtain ⟨isCopy, quiet, next, final, keeps, kept, complete⟩ := rest.done copy same
      refine ⟨isCopy, quiet.trans denied, next, final, early.trans keeps,
        fun other isLost => account.kept denied other (kept other isLost),
        fun fresh => complete fun other below => ?_⟩
      rw [entries other (by omega)]
      by_cases here : other = vpn
      · subst here
        simp
      · rw [if_neg here, fresh other below]
        omega
    · obtain ⟨next, final, keeps, rest⟩ := rest.failed failed
      exact ⟨next, final, early.trans keeps, account.trans rest early.denied keeps⟩

/-- What `copyuvm` does once it has a directory. -/
theorem copyLoop_start (ran : copyLoop layout m pgdir sz d 0 = .ok (result, later)) :
    CopyRun layout pgdir sz d 0 m result later := by
  rw [← Nat.zero_mul pgsize] at ran
  exact copyLoop_run ran

/-- A finished copy is a new directory with the pages of the old one. -/
theorem copyuvm_some (owned : Owned layout m live held own) (top : sz ≤ kernbase)
    (ran : m.copyuvm layout pgdir sz = .ok (some d, later)) :
    own d = some .free ∧ later.torn = m.torn ∧ later.denied = m.denied ∧
      ∃ next, Owned layout later (fun other => live other ∨ other = d) held next ∧
        Keeps d m own later next ∧ (∀ page, next page = none → own page = none) ∧
        Complete later d sz := by
  obtain ⟨⟨_ | copy, after⟩, setup, ran⟩ := Except.of_bind_ok ran
  · cases ran
  · obtain ⟨isFree, torn, denied, between, building, early, noLoss, empty, -⟩ :=
      setupkvm_some owned setup
    have copied := (copyLoop_start ran).spec (Or.inr rfl) top
      (fun impossible => absurd impossible (lt_irrefl 0)) building
    obtain ⟨rfl, quiet, next, final, keeps, kept, complete⟩ := copied.done d rfl
    refine ⟨isFree, copied.torn.trans torn, quiet.trans denied, next, final, early.trans keeps,
      fun page isLost => noLoss page (kept page isLost), complete fun other below => ?_⟩
    simp [empty other below]

/-- A failed copy leaves nothing in use, and loses pages only with a denied page
table. -/
theorem copyuvm_none (owned : Owned layout m live held own) (top : sz ≤ kernbase)
    (ran : m.copyuvm layout pgdir sz = .ok (none, later)) (other : Nat) :
    later.torn = m.torn ∧ ∃ next, Owned layout later live held next ∧
      Keeps other m own later next ∧ Accounted layout m own later next := by
  obtain ⟨⟨_ | copy, after⟩, setup, ran⟩ := Except.of_bind_ok ran
  · cases ran
    exact setupkvm_none owned setup other
  · obtain ⟨isFree, torn, denied, between, building, early, noLoss, -, -⟩ :=
      setupkvm_some owned setup
    have copied := (copyLoop_start ran).spec (Or.inr rfl) top
      (fun impossible => absurd impossible (lt_irrefl 0)) building
    obtain ⟨next, final, keeps, account⟩ := copied.failed rfl
    have fresh := owned.not_live_of_free isFree
    rw [live_minus_new fresh] at final
    refine ⟨copied.torn.trans torn, next, final, (early.trans keeps).of_fresh owned fresh other, ?_⟩
    exact (Accounted.of_quiet denied noLoss).trans account early.denied keeps

/-! ### The panics of `copyuvm` -/

/-- The two panics of `copyuvm` itself. -/
def CopyPanic (message : String) : Prop :=
  message = "copyuvm: pte should exist" ∨ message = "copyuvm: page not present"

instance (message : String) : Decidable (CopyPanic message) := by
  unfold CopyPanic
  infer_instance

theorem kfree_error {page : Nat} {message : String}
    (failed : m.kfree layout page = .error message) : ¬ CopyPanic message := by
  unfold kfree at failed
  split at failed
  · cases failed
  · cases failed
    decide

/-- Work for another directory keeps a process complete. -/
theorem Keeps.complete {other : Nat} (keeps : Keeps pgdir m own later next)
    (owned : Owned layout m live held own) (alive : live other) (apart : other ≠ pgdir) :
    Complete later other sz ↔ Complete m other sz := by
  refine forall_congr' fun vpn => forall_congr' fun below => ?_
  rw [keeps.entry owned alive apart (by omega)]

/-- Looking up a page that is mapped finds its table and its entry. -/
theorem walk_mapped {pte : Nat} (inside : vpn < 1048576) (stored : m.entry pgdir vpn = some pte) :
    ∃ pgtab index, (m.walkpgdir pgdir (vpn * pgsize) false).1 = some (pgtab, index) ∧
      m.word pgtab index = pte ∧ present pte = true := by
  rw [walk_look, (pdx_ptx inside).1, (pdx_ptx inside).2]
  unfold entry at stored
  cases found : m.tableAt pgdir (vpn / 1024) with
  | none => simp [found] at stored
  | some pgtab =>
    simp only [found, Option.ite_none_right_eq_some, Option.some.injEq] at stored
    obtain ⟨shown, rfl⟩ := stored
    exact ⟨pgtab, vpn % 1024, rfl, rfl, shown⟩

end Xv6
