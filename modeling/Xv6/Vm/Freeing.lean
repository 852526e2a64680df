import Xv6.Vm.Contents

/-!
# Which pages `deallocuvm` frees

Where a page table is missing the loop of `deallocuvm` goes on at the same place of
the next table, not at its start. `Visited` says which pages it comes by: in the first
table that exists, the pages below that place are passed over unless the loop started
in that very table. Every visited page is freed and its entry cleared, and everything
else is left as it is.

So `deallocuvm` frees all it covers exactly when no mapped page of the range is passed
over in this way.
-/

namespace Xv6

open Vm

variable {β : Type} {layout : Layout} {m middle later : Vm} {live : Nat → Prop}
  {held : β → Option Nat} {own next : Places β}

/-- The pages that the loop comes by from a page on. -/
def Visited (m : Vm) (pgdir first oldsz vpn : Nat) : Prop :=
  first ≤ vpn ∧ vpn * pgsize < oldsz ∧
    (vpn % 1024 < first % 1024 →
      ∃ index, first / 1024 ≤ index ∧ index < vpn / 1024 ∧ (m.tableAt pgdir index).isSome)

/-- What the loop does to the directory from a page on. -/
structure Released (pgdir first oldsz : Nat) (m later : Vm) : Prop where
  cleared : ∀ vpn, vpn < 1048576 → Visited m pgdir first oldsz vpn →
    later.entry pgdir vpn = none
  entries : ∀ vpn, vpn < 1048576 → ¬ Visited m pgdir first oldsz vpn →
    later.entry pgdir vpn = m.entry pgdir vpn
  contents : Retains pgdir (fun vpn => vpn < 524288 ∧ ¬ Visited m pgdir first oldsz vpn) m later

namespace Visited

variable {pgdir first oldsz vpn : Nat}

/-- Past the end of the range no page is visited. -/
theorem not_outside (outside : ¬ first * pgsize < oldsz) : ¬ Visited m pgdir first oldsz vpn := by
  rintro ⟨above, below, -⟩
  exact outside ((Nat.mul_le_mul_right pgsize above).trans_lt below)

/-- Without its first table, the loop visits what it visits from the next one on, and
pages that are not mapped. -/
theorem skip (missing : m.tableAt pgdir (first / 1024) = none) :
    Visited m pgdir first oldsz vpn ↔ Visited m pgdir (first + 1024) oldsz vpn ∨
      first ≤ vpn ∧ vpn * pgsize < oldsz ∧ vpn / 1024 = first / 1024 := by
  have place : (first + 1024) % 1024 = first % 1024 := by omega
  have table : (first + 1024) / 1024 = first / 1024 + 1 := by omega
  simp only [Visited, place, table]
  constructor
  · rintro ⟨above, below, reached⟩
    by_cases same : vpn / 1024 = first / 1024
    · exact Or.inr ⟨above, below, same⟩
    · left
      by_cases early : vpn % 1024 < first % 1024
      · obtain ⟨index, low, high, found⟩ := reached early
        have next : index ≠ first / 1024 := by
          rintro rfl
          simp [missing] at found
        exact ⟨by omega, below, fun _ => ⟨index, by omega, high, found⟩⟩
      · exact ⟨by omega, below, fun impossible => absurd impossible early⟩
  · rintro (⟨above, below, reached⟩ | ⟨above, below, same⟩)
    · refine ⟨by omega, below, fun early => ?_⟩
      obtain ⟨index, low, high, found⟩ := reached early
      exact ⟨index, by omega, high, found⟩
    · exact ⟨above, below, fun early => by omega⟩

/-- In a table that exists the loop visits a page and goes on with the next one. -/
theorem pass (inside : first * pgsize < oldsz) (found : (m.tableAt pgdir (first / 1024)).isSome) :
    Visited m pgdir first oldsz vpn ↔ vpn = first ∨ Visited m pgdir (first + 1) oldsz vpn := by
  simp only [Visited]
  constructor
  · rintro ⟨above, below, -⟩
    by_cases here : vpn = first
    · exact Or.inl here
    · refine Or.inr ⟨by omega, below, fun early => ⟨first / 1024, by omega, by omega, found⟩⟩
  · rintro (rfl | ⟨above, below, reached⟩)
    · exact ⟨Nat.le_refl _, inside, fun impossible => absurd impossible (Nat.lt_irrefl _)⟩
    · refine ⟨by omega, below, fun early => ⟨first / 1024, Nat.le_refl _, by omega, found⟩⟩

/-- Only the tables count. -/
theorem congr (tables : ∀ index, later.tableAt pgdir index = m.tableAt pgdir index) :
    Visited later pgdir first oldsz vpn ↔ Visited m pgdir first oldsz vpn := by
  simp only [Visited, tables]

end Visited

namespace Released

variable {pgdir first oldsz : Nat}

theorem stop (outside : ¬ first * pgsize < oldsz) : Released pgdir first oldsz m m where
  cleared := fun _ _ visited => absurd visited (Visited.not_outside outside)
  entries := fun _ _ _ => rfl
  contents := Retains.refl _ _ _

/-- A missing table has no entries to clear. -/
theorem skip (missing : m.tableAt pgdir (first / 1024) = none)
    (rest : Released pgdir (first + 1024) oldsz m later) :
    Released pgdir first oldsz m later where
  cleared := by
    intro vpn bound visited
    by_cases again : Visited m pgdir (first + 1024) oldsz vpn
    · exact rest.cleared vpn bound again
    · obtain ⟨-, -, same⟩ := ((Visited.skip missing).mp visited).resolve_left again
      rw [rest.entries vpn bound again]
      simp only [entry, same, missing]
  entries := by
    intro vpn bound passed
    apply rest.entries vpn bound
    exact fun visited => passed ((Visited.skip missing).mpr (Or.inl visited))
  contents := rest.contents.mono fun vpn here =>
    ⟨here.1, fun visited => here.2 ((Visited.skip missing).mpr (Or.inl visited))⟩

/-- One page was passed, after its entry was cleared or found absent. -/
theorem pass (inside : first * pgsize < oldsz) (found : (m.tableAt pgdir (first / 1024)).isSome)
    (tables : ∀ index, middle.tableAt pgdir index = m.tableAt pgdir index)
    (entries : ∀ other, other < 1048576 → middle.entry pgdir other =
      if other = first then none else m.entry pgdir other)
    (contents : Retains pgdir (fun vpn => vpn < 524288 ∧ vpn ≠ first) m middle)
    (rest : Released pgdir (first + 1) oldsz middle later) :
    Released pgdir first oldsz m later := by
  have split : ∀ vpn, Visited m pgdir first oldsz vpn ↔
      vpn = first ∨ Visited middle pgdir (first + 1) oldsz vpn := by
    intro vpn
    rw [Visited.pass inside found, Visited.congr tables]
  constructor
  · intro vpn bound visited
    by_cases again : Visited middle pgdir (first + 1) oldsz vpn
    · exact rest.cleared vpn bound again
    · have here := ((split vpn).mp visited).resolve_right again
      rw [rest.entries vpn bound again, entries vpn bound, if_pos here]
  · intro vpn bound passed
    rw [split, not_or] at passed
    rw [rest.entries vpn bound passed.2, entries vpn bound, if_neg passed.1]
  · apply Retains.trans
    · apply contents.mono
      rintro vpn ⟨below, passed⟩
      rw [split, not_or] at passed
      exact ⟨below, passed.1⟩
    · apply rest.contents.mono
      rintro vpn ⟨below, passed⟩
      rw [split, not_or] at passed
      exact ⟨below, passed.2⟩

end Released

/-- Freeing one user page touches that page and the table with its entry. -/
theorem free_user_retains (owned : Owned layout m live held own) {pgdir vpn pgtab : Nat}
    (alive : live pgdir) (found : m.tableAt pgdir (vpn / 1024) = some pgtab)
    (below : vpn < 524288) (shown : present (m.word pgtab (vpn % 1024)) = true) :
    Retains pgdir (fun other => other < 524288 ∧ other ≠ vpn) m
      ((m.push (frame (m.word pgtab (vpn % 1024)))).store pgtab (vpn % 1024) 0) := by
  have slot : vpn % 1024 < 1024 := Nat.mod_lt _ (by decide)
  have whole : vpn / 1024 * 1024 + vpn % 1024 = vpn := by omega
  obtain ⟨-, -, entries⟩ := owned.free_user alive found slot (by omega) shown
  have stored : m.entry pgdir vpn = some (m.word pgtab (vpn % 1024)) := by
    have here := entry_of_table found slot
    rwa [whole, if_pos shown] at here
  have freed := (owned.apart_user alive below stored).1
  have isTable := owned.table_own alive (by omega) found
  rintro other pte ⟨inUser, differ⟩ other_stored
  obtain ⟨mine, apart⟩ := owned.apart_user alive inUser other_stored
  have notFreed : frame pte ≠ frame (m.word pgtab (vpn % 1024)) := by
    intro same
    rw [same, freed] at mine
    simp only [Option.some.injEq, Place.user.injEq] at mine
    exact differ mine.2.symm
  have notTable : frame pte ≠ pgtab := by
    rintro same
    exact apart.2.2 _ (same ▸ isTable)
  constructor
  · rw [entries other (by omega), whole, if_neg differ, other_stored]
  · rw [Vm.store, page_setPage_ne _ _ notTable, page_push_ne _ notFreed]

/-- The loop of `deallocuvm` from a page on. -/
theorem DeallocRun.released {pgdir oldsz vpn : Nat} (alive : live pgdir) (top : oldsz ≤ kernbase)
    (run : DeallocRun pgdir oldsz vpn m later) :
    ∀ {own : Places β}, Owned layout m live held own →
      Released pgdir vpn oldsz m later := by
  induction run with
  | done outside => exact fun _ => Released.stop outside
  | skip _ missing _ ih => exact fun owned => Released.skip missing (ih owned)
  | @free vpn _ _ _ inside found shown _ ih =>
    intro own owned
    have bound := user_page top inside
    obtain ⟨freeing, tables, entries⟩ :=
      owned.free_user alive found (Nat.mod_lt vpn (by decide)) (by omega) shown
    rw [Nat.div_add_mod'] at entries
    apply Released.pass inside (by simp [found]) tables entries
    · exact free_user_retains owned alive found bound shown
    · exact ih freeing
  | @pass vpn _ _ inside found absent _ ih =>
    intro own owned
    apply Released.pass inside found fun _ => rfl
    · intro other _
      by_cases here : other = vpn
      · rw [if_pos here, here, absent]
      · rw [if_neg here]
    · exact Retains.refl _ _ _
    · exact ih owned

theorem deallocLoop_released (owned : Owned layout m live held own) {pgdir oldsz vpn : Nat}
    (alive : live pgdir) (top : oldsz ≤ kernbase)
    (ran : deallocLoop layout m pgdir (vpn * pgsize) oldsz = .ok later) :
    Released pgdir vpn oldsz m later :=
  (deallocLoop_spec owned alive top ran).1.released alive top owned

/-! ## Free pages -/

namespace Shrunk

variable {pgdir first oldsz : Nat}

/-- No page gets another place than the free list. -/
theorem place (owned : Owned layout m live held own) (final : Owned layout later live held next)
    (shrunk : Shrunk pgdir first oldsz m own later next) {page : Nat} {place : Place β}
    (here : next page = some place) : place = .free ∨ own page = some place := by
  cases place with
  | free => exact Or.inl rfl
  | dir => exact Or.inr ((owned.dir page).mpr ((final.dir page).mp here))
  | table owner index =>
    right
    obtain ⟨alive, inside, found⟩ := (final.table _ _ _).mp here
    apply owned.table_own alive inside
    by_cases mine : owner = pgdir
    · subst mine
      rw [← shrunk.tables, found]
    · have isDir := (owned.dir owner).mpr alive
      have same := (shrunk.keeps.foreign owner .dir isDir (by simp) mine).2
      rw [← found]
      simp only [tableAt, word_congr same]
  | user owner vpn =>
    right
    obtain ⟨alive, below, pte, stored, same⟩ := (final.user _ _ _).mp here
    refine (owned.user _ _ _).mpr ⟨alive, below, pte, ?_, same⟩
    by_cases mine : owner = pgdir
    · subst mine
      rcases shrunk.entries vpn (by omega) with kept | ⟨-, -, gone⟩
      · rw [← kept, stored]
      · rw [gone] at stored
        cases stored
    · rw [← shrunk.keeps.entry owned alive mine (by omega), stored]
  | other holder => exact Or.inr ((owned.other _ _).mpr ((final.other _ _).mp here))

/-- The free pages afterwards are those before and the ones whose entries are gone. -/
theorem free_iff (owned : Owned layout m live held own) (alive : live pgdir)
    (final : Owned layout later live held next)
    (shrunk : Shrunk pgdir first oldsz m own later next) (page : Nat) :
    next page = some .free ↔ own page = some .free ∨ ∃ vpn pte, vpn < 524288 ∧
      m.entry pgdir vpn = some pte ∧ frame pte = page ∧ later.entry pgdir vpn = none := by
  constructor
  · intro isFree
    cases here : own page with
    | none =>
      rw [(shrunk.keeps.hand page here).1] at isFree
      cases isFree
    | some place =>
      by_cases mine : Belongs pgdir page place
      · cases place with
        | dir =>
          rw [(final.dir page).mpr ((owned.dir page).mp here)] at isFree
          cases isFree
        | table owner index =>
          obtain ⟨-, inside, found⟩ := (owned.table _ _ _).mp here
          have same : owner = pgdir := mine
          subst same
          rw [final.table_own alive inside (by rw [shrunk.tables, found])] at isFree
          cases isFree
        | user owner vpn =>
          obtain ⟨-, below, pte, stored, same⟩ := (owned.user _ _ _).mp here
          have isMine : owner = pgdir := mine
          subst isMine
          refine Or.inr ⟨vpn, pte, below, stored, same, ?_⟩
          rcases shrunk.entries vpn (by omega) with kept | ⟨-, -, gone⟩
          · have still : next page = some (.user owner vpn) :=
              (final.user _ _ _).mpr ⟨alive, below, pte, kept.trans stored, same⟩
            rw [still] at isFree
            cases isFree
          · exact gone
        | free => exact absurd mine id
        | other holder => exact absurd mine id
      · by_cases free : place = .free
        · exact Or.inl (congrArg some free)
        · rw [(shrunk.keeps.foreign page place here free mine).1] at isFree
          exact absurd (Option.some.inj isFree) free
  · intro before
    cases here : next page with
    | none =>
      have absent := shrunk.kept page here
      rcases before with isFree | ⟨vpn, pte, below, stored, rfl, -⟩
      · simp [absent] at isFree
      · have mine := (owned.apart_user alive below stored).1
        simp [absent] at mine
    | some place =>
      rcases shrunk.place owned final here with free | same
      · exact congrArg some free
      · rcases before with isFree | ⟨vpn, pte, below, stored, rfl, gone⟩
        · exact same.symm.trans isFree
        · have mine := (owned.apart_user alive below stored).1
          rw [same] at mine
          cases mine
          obtain ⟨-, -, pte', still, -⟩ := (final.user _ _ _).mp here
          rw [gone] at still
          cases still

end Shrunk

/-! ## The whole function -/

/-- The physical pages that a directory maps in a range: those from a page on and
below a size. -/
def MappedIn (m : Vm) (pgdir first oldsz page : Nat) : Prop :=
  ∃ vpn pte, first ≤ vpn ∧ vpn * pgsize < oldsz ∧ m.entry pgdir vpn = some pte ∧ frame pte = page

/-- All that `deallocuvm` is to do: each page mapped in the range is on the free list,
once, with what was there before; the entries of the range are clear; and all other
entries of all directories are as they were. -/
structure FreesRange (live : Nat → Prop) (pgdir first oldsz : Nat) (m later : Vm) : Prop where
  freed : ∃ before after, m.Chain m.freelist before ∧ later.Chain later.freelist after ∧
    after.Nodup ∧ ∀ page, page ∈ after ↔ page ∈ before ∨ MappedIn m pgdir first oldsz page
  cleared : ∀ vpn, first ≤ vpn → vpn * pgsize < oldsz → later.entry pgdir vpn = none
  others : ∀ other vpn, live other → vpn < 1048576 →
    ¬ (other = pgdir ∧ first ≤ vpn ∧ vpn * pgsize < oldsz) →
      later.entry other vpn = m.entry other vpn

/-- A mapped page of the range that the loop passes over: it lies below the place where
the loop enters its table, and all tables before that one are missing. -/
def PassedOver (m : Vm) (pgdir first oldsz : Nat) : Prop :=
  ∃ vpn, first ≤ vpn ∧ vpn * pgsize < oldsz ∧ (m.entry pgdir vpn).isSome ∧
    vpn % 1024 < first % 1024 ∧
    ∀ index, first / 1024 ≤ index → index < vpn / 1024 → m.tableAt pgdir index = none

/-- A page of the range that is mapped and not passed over is visited. -/
theorem visited_of_mapped {pgdir first oldsz vpn : Nat} (above : first ≤ vpn)
    (below : vpn * pgsize < oldsz) (mapped : (m.entry pgdir vpn).isSome)
    (reached : ¬ PassedOver m pgdir first oldsz) : Visited m pgdir first oldsz vpn := by
  refine ⟨above, below, fun early => ?_⟩
  by_contra missing
  apply reached
  refine ⟨vpn, above, below, mapped, early, fun index low high => ?_⟩
  by_contra found
  exact missing ⟨index, low, high, Option.isSome_iff_ne_none.mpr found⟩

/-- A mapped page that is passed over stays mapped. -/
theorem PassedOver.stays {pgdir first oldsz : Nat} (top : oldsz ≤ kernbase)
    (passed : PassedOver m pgdir first oldsz) (released : Released pgdir first oldsz m later) :
    ∃ vpn, first ≤ vpn ∧ vpn * pgsize < oldsz ∧ (later.entry pgdir vpn).isSome := by
  obtain ⟨vpn, above, below, mapped, early, missing⟩ := passed
  have inUser := user_page top below
  have unvisited : ¬ Visited m pgdir first oldsz vpn := by
    rintro ⟨-, -, reached⟩
    obtain ⟨index, low, high, found⟩ := reached early
    simp [missing index low high] at found
  refine ⟨vpn, above, below, ?_⟩
  rw [released.entries vpn (by omega) unvisited]
  exact mapped

/-- So the range is not freed. -/
theorem PassedOver.not_frees {pgdir first oldsz : Nat} (top : oldsz ≤ kernbase)
    (passed : PassedOver m pgdir first oldsz) (released : Released pgdir first oldsz m later) :
    ¬ FreesRange live pgdir first oldsz m later := by
  obtain ⟨vpn, above, below, mapped⟩ := passed.stays top released
  intro frees
  rw [frees.cleared vpn above below] at mapped
  cases mapped

/-- The loop as `deallocuvm` runs it. -/
theorem deallocuvm_loop (owned : Owned layout m live held own) {pgdir oldsz newsz : Nat}
    (alive : live pgdir) (order : newsz < oldsz) (top : oldsz ≤ kernbase) :
    ∃ later, m.deallocuvm layout pgdir oldsz newsz = .ok (newsz, later) ∧
      deallocLoop layout m pgdir (pgroundup newsz / pgsize * pgsize) oldsz = .ok later := by
  have start := (pgroundup_eq (order.le.trans top)).1
  have whole : pgroundup newsz / pgsize * pgsize = pgroundup newsz := by
    rw [start, Nat.mul_div_cancel _ (show 0 < pgsize by decide)]
  obtain ⟨later, ran, -⟩ := deallocLoop_run alive top owned
  refine ⟨later, ?_, ran⟩
  rw [whole] at ran
  rw [deallocuvm, if_neg (by omega), ran]
  rfl

/-- When no mapped page is passed over, the loop frees its range. -/
theorem FreesRange.of_loop (owned : Owned layout m live held own) {pgdir first oldsz : Nat}
    (alive : live pgdir) (top : oldsz ≤ kernbase)
    (ran : deallocLoop layout m pgdir (first * pgsize) oldsz = .ok later)
    (reached : ¬ PassedOver m pgdir first oldsz) : FreesRange live pgdir first oldsz m later := by
  obtain ⟨-, next, final, shrunk⟩ := deallocLoop_spec owned alive top ran
  have released := deallocLoop_released owned alive top ran
  have cleared : ∀ vpn, first ≤ vpn → vpn * pgsize < oldsz →
      later.entry pgdir vpn = none := by
    intro vpn above below
    have inUser := user_page top below
    by_cases visited : Visited m pgdir first oldsz vpn
    · exact released.cleared vpn (by omega) visited
    · rw [released.entries vpn (by omega) visited]
      by_contra mapped
      exact visited (visited_of_mapped above below (Option.isSome_iff_ne_none.mpr mapped) reached)
  refine ⟨?_, cleared, ?_⟩
  · obtain ⟨before, chain, -, wasFree⟩ := owned.chain
    obtain ⟨after, laterChain, ⟨nodup, -⟩, isFree⟩ := final.chain
    refine ⟨before, after, chain, laterChain, nodup, fun page => ?_⟩
    rw [← isFree, ← wasFree, shrunk.free_iff owned alive final]
    apply or_congr_right
    constructor
    · rintro ⟨vpn, pte, below, stored, same, gone⟩
      by_cases visited : Visited m pgdir first oldsz vpn
      · exact ⟨vpn, pte, visited.1, visited.2.1, stored, same⟩
      · rw [released.entries vpn (by omega) visited, stored] at gone
        cases gone
    · rintro ⟨vpn, pte, above, below, stored, same⟩
      exact ⟨vpn, pte, user_page top below, stored, same, cleared vpn above below⟩
  · intro other vpn otherAlive inside outside
    by_cases mine : other = pgdir
    · subst mine
      apply released.entries vpn inside
      exact fun visited => outside ⟨rfl, visited.1, visited.2.1⟩
    · exact shrunk.keeps.entry owned otherAlive mine inside

/-- `deallocuvm` does not panic, and it does all that it is to do exactly when no mapped
page is passed over. -/
theorem deallocuvm_frees_range (owned : Owned layout m live held own) {pgdir oldsz newsz : Nat}
    (alive : live pgdir) (order : newsz < oldsz) (top : oldsz ≤ kernbase) :
    ∃ later, m.deallocuvm layout pgdir oldsz newsz = .ok (newsz, later) ∧
      (FreesRange live pgdir (pgroundup newsz / pgsize) oldsz m later ↔
        ¬ PassedOver m pgdir (pgroundup newsz / pgsize) oldsz) := by
  obtain ⟨later, result, ran⟩ := deallocuvm_loop owned alive order top
  refine ⟨later, result, ?_⟩
  generalize pgroundup newsz / pgsize = first at ran ⊢
  constructor
  · intro frees passed
    exact passed.not_frees top (deallocLoop_released owned alive top ran) frees
  · exact FreesRange.of_loop owned alive top ran

/-- Memory in which the directory in page 300 has one table, in page 301, and that table
maps one page, page 302, at its first place. -/
def onePage (index : Nat) : Vm :=
  let zeroed : Vm := ⟨fun _ => Bytes.zero, 0, 0, fun _ => false, 0, 0, 0⟩
  (zeroed.store 300 index (mkPte (301 * pgsize) 6)).store 301 0 (mkPte (302 * pgsize) 6)

/-- The owners of its pages. -/
def onePageOwners (index : Nat) : Places Empty :=
  Function.update (Function.update (Function.update (fun _ => none) 300 (some .dir)) 301
    (some (.table 300 index))) 302 (some (.user 300 (index * 1024 + 0)))

theorem onePage_owned {index : Nat} (user : index < 512) :
    Owned smallestLayout (onePage index) (fun other => False ∨ other = 300) (fun _ => none)
      (onePageOwners index) := by
  let zeroed : Vm := ⟨fun _ => Bytes.zero, 0, 0, fun _ => false, 0, 0, 0⟩
  have words : ∀ page index, zeroed.word page index = 0 := fun _ _ => Bytes.u32_zero _
  have managed : ∀ page, 300 ≤ page → page ≤ 302 → smallestLayout.Managed page := by
    intro page low high
    simp only [Layout.Managed, smallestLayout, kernlink_eq, kernbase_eq, phystop_eq, pgsize_eq]
    omega
  have nothing : Owned smallestLayout zeroed (fun _ => False) (fun _ : Empty => none)
      fun _ => none :=
    ⟨by simp, ⟨[], rfl, ⟨List.nodup_nil, rfl⟩, by simp⟩, by simp, by simp, by simp, by simp, by simp⟩
  have empty : ∀ pgdir index, zeroed.tableAt pgdir index = none := by
    intro pgdir index
    simp [tableAt, words]
  have adopted : Owned smallestLayout zeroed (fun other => False ∨ other = 300)
      (fun _ : Empty => none) (Function.update (fun _ => none) 300 (some .dir)) :=
    nothing.adopt rfl (managed 300 (by decide) (by decide)) (empty 300)
  have attached : Owned smallestLayout (zeroed.store 300 index (mkPte (301 * pgsize) 6))
      (fun other => False ∨ other = 300) (fun _ : Empty => none)
      (Function.update (Function.update (fun _ => none) 300 (some .dir)) 301
        (some (.table 300 index))) :=
    adopted.attach (Or.inr rfl) (by omega) (empty 300 index) rfl
      (managed 301 (by decide) (by decide)) fun place => by simp [words]
  have table : (zeroed.store 300 index (mkPte (301 * pgsize) 6)).tableAt 300 index = some 301 := by
    rw [Owned.tableAt_attach (by omega) (managed 301 (by decide) (by decide))]
    simp
  have vacant : (zeroed.store 300 index (mkPte (301 * pgsize) 6)).entry 300 (index * 1024 + 0) =
      none := by
    have blank : (zeroed.store 300 index (mkPte (301 * pgsize) 6)).word 301 0 = 0 :=
      (word_setPage_ne _ _ _ (by decide)).trans (words 301 0)
    rw [entry_of_table table (by decide), blank]
    rfl
  exact attached.map_user (Or.inr rfl) table (by decide) (by omega) vacant rfl
    (managed 302 (by decide) (by decide)) (by decide)

/-- With the table at index 1 the page is the first one above four megabytes, and the table
before it is missing. -/
theorem onePage_gap : ((onePage 1).entry 300 1024).isSome ∧ (onePage 1).tableAt 300 0 = none := by
  decide +kernel

/-- From the start of the address space nothing is passed over. -/
theorem deallocuvm_frees_range_all : ∃ later,
    (onePage 1).deallocuvm smallestLayout 300 0x800000 0 = .ok (0, later) ∧
      FreesRange (fun other => False ∨ other = 300) 300 0 0x800000 (onePage 1) later := by
  have owned := onePage_owned (show 1 < 512 by decide)
  have order : 0 < 0x800000 := by decide
  obtain ⟨later, ran, whole⟩ := deallocuvm_frees_range owned (Or.inr rfl) order (by decide)
  refine ⟨later, ran, whole.mpr ?_⟩
  rintro ⟨vpn, -, -, -, early, -⟩
  exact absurd early (Nat.not_lt_zero _)

/-- Shrinking to one page leaves the page above four megabytes mapped. -/
theorem page_passed_over :
    Owned smallestLayout (onePage 1) (fun other => False ∨ other = 300) (fun _ => none)
        (onePageOwners 1) ∧
      ∃ later, (onePage 1).deallocuvm smallestLayout 300 0x800000 0x1000 = .ok (0x1000, later) ∧
        ¬ FreesRange (fun other => False ∨ other = 300) 300 (pgroundup 0x1000 / pgsize) 0x800000
          (onePage 1) later := by
  have owned := onePage_owned (show 1 < 512 by decide)
  have order : 0x1000 < 0x800000 := by decide
  obtain ⟨later, result, ran⟩ := deallocuvm_loop owned (Or.inr rfl) order (by decide)
  refine ⟨owned, later, result, ?_⟩
  apply PassedOver.not_frees (by decide)
  · refine ⟨1024, by decide, by decide, onePage_gap.1, by decide, fun index _ high => ?_⟩
    obtain rfl : index = 0 := by omega
    exact onePage_gap.2
  · exact deallocLoop_released owned (Or.inr rfl) (by decide) ran

end Xv6
