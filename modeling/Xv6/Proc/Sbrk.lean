import Xv6.Proc.Model
import Xv6.Syscall.Model
import Xv6.Vm.Resizing

/-!
# `sys_sbrk`

`sbrk` is to move the size of the process by exactly its argument or to do nothing.
Growing does. Shrinking falls short in three ways. A request for more bytes than the
process has wraps around: `deallocuvm` takes the new size to be larger than the old one
and the call succeeds without an effect. A request for all of them makes `deallocuvm`
return 0, which `growproc` takes for a failure after the pages are gone. And a shrink
below a missing page table may pass over pages that stay mapped.
-/

namespace Xv6

open Vm Kernel Syscall

variable {β : Type} {layout : Layout} {m later : Vm} {live : Nat → Prop}
  {held : β → Option Nat} {own : Places β} {sz vpn pgdir old new size index : Nat}

/-- The call of `sys_sbrk`, whose argument is in hand. -/
def Kernel.sysSbrk (layout : Layout) (k : Kernel) (p : Nat) (n : UInt32) :
    Except String (Int × Kernel) := do
  let addr := (k.proc p).sz
  let (done, k) ← k.growproc layout p n.toNat
  if done then .ok (Syscall.signed (UInt32.ofNat addr), k) else .ok (-1, k)

/-- A page is on the free list. -/
def Vm.OnFreeList (m : Vm) (page : Nat) : Prop :=
  ∃ pages, m.Chain m.freelist pages ∧ page ∈ pages

/-- A process was resized: nothing at or above the new size is mapped, the pages that were
are free, and the bytes below both sizes are the same. -/
structure MovedTo (pgdir old new : Nat) (m later : Vm) : Prop where
  unmapped : Bounded later pgdir new
  freed : ∀ vpn pte, vpn < 524288 → new ≤ vpn * pgsize → m.entry pgdir vpn = some pte →
    later.OnFreeList (frame pte)
  bytes : ∀ va, va < min old new → later.load pgdir va = m.load pgdir va

/-- What `sbrk` is to do: exactly what it was asked for, or nothing. -/
def SbrkExact (k : Kernel) (p : Nat) (n : UInt32) (answer : Int) (after : Kernel) : Prop :=
  (answer = (k.proc p).sz ∧ ((after.proc p).sz : Int) = (k.proc p).sz + Syscall.signed n ∧
    MovedTo (k.proc p).pgdir (k.proc p).sz (after.proc p).sz k.vm after.vm) ∨
  (answer = -1 ∧ (after.proc p).sz = (k.proc p).sz ∧ Untouched (k.proc p).pgdir k.vm after.vm)

/-! ## Pages above and below a size -/

/-- The first page at or above a size, as the code computes it. -/
theorem first_page_iff (top : sz ≤ kernbase) :
    pgroundup sz / pgsize ≤ vpn ↔ sz ≤ vpn * pgsize := by
  rw [(pgroundup_eq top).1, Nat.mul_div_cancel _ (show 0 < pgsize by decide), page_ge_iff,
    Nat.not_lt]

/-- An address below a size is in a page below the first one above it. -/
theorem page_below_first {va : Nat} (top : sz ≤ kernbase) (below : va < sz) :
    va / pgsize < pgroundup sz / pgsize := by
  by_contra above
  rw [Nat.not_lt, first_page_iff top] at above
  have := Nat.div_mul_le_self va pgsize
  omega

/-! ## Growing -/

/-- Growing moves the size or changes nothing. -/
theorem Resized.moved (top : new < kernbase) (order : old < new) (bounded : Bounded m pgdir old)
    (resized : Resized pgdir (pgroundup old / pgsize) new new m later) :
    MovedTo pgdir old new m later where
  unmapped := resized.grown rfl
  freed := by
    intro vpn pte user beyond stored
    rw [bounded vpn user (order.le.trans beyond)] at stored
    cases stored
  bytes := by
    intro va below
    have short : va < old := by omega
    have low := page_below_first (order.le.trans top.le) short
    obtain ⟨user, inside⟩ := page_of_user (show va < kernbase by omega)
    exact load_retained inside (resized.below _ low user) resized.contents ⟨low, user⟩

theorem Resized.untouched (top : new < kernbase) (order : old < new) (bounded : Bounded m pgdir old)
    (failed : size ≠ new) (resized : Resized pgdir (pgroundup old / pgsize) new size m later) :
    Untouched pgdir m later := by
  have bottom : old ≤ kernbase := order.le.trans top.le
  have entries : ∀ vpn, vpn < 524288 → later.entry pgdir vpn = m.entry pgdir vpn := by
    intro vpn user
    by_cases low : vpn < pgroundup old / pgsize
    · exact resized.below vpn low user
    · rw [Nat.not_lt] at low
      rw [resized.failed failed vpn low user, bounded vpn user ((first_page_iff bottom).mp low)]
  refine ⟨entries, fun va below => ?_⟩
  obtain ⟨user, inside⟩ := page_of_user below
  by_cases low : va / pgsize < pgroundup old / pgsize
  · exact load_retained inside (entries _ user) resized.contents ⟨low, user⟩
  · rw [Nat.not_lt] at low
    rw [load_eq inside, load_eq inside, resized.failed failed _ low user,
      bounded _ user ((first_page_iff bottom).mp low)]
    rfl

/-! ## Shrinking -/

/-- A shrink that passes over nothing moves the size. -/
theorem shrink_moved (owned : Owned layout m live held own) (alive : live pgdir)
    (top : old ≤ kernbase) (order : new < old) (bounded : Bounded m pgdir old)
    (ran : deallocLoop layout m pgdir (pgroundup new / pgsize * pgsize) old = .ok later)
    (reached : ¬ PassedOver m pgdir (pgroundup new / pgsize) old) :
    MovedTo pgdir old new m later := by
  have released := deallocLoop_released owned alive top ran
  have frees := FreesRange.of_loop owned alive top ran reached
  have bottom : new ≤ kernbase := order.le.trans top
  constructor
  · intro vpn user beyond
    have above := (first_page_iff bottom).mpr beyond
    by_cases within : vpn * pgsize < old
    · exact frees.cleared vpn above within
    · rw [frees.others pgdir vpn alive (by omega) fun here => within here.2.2]
      exact bounded vpn user (Nat.not_lt.mp within)
  · intro vpn pte user beyond stored
    obtain ⟨before, after, -, chain, -, freed⟩ := frees.freed
    have within : vpn * pgsize < old := by
      by_contra outside
      rw [bounded vpn user (Nat.not_lt.mp outside)] at stored
      cases stored
    refine ⟨after, chain, (freed _).mpr (Or.inr ⟨vpn, pte, ?_, within, stored, rfl⟩)⟩
    exact (first_page_iff bottom).mpr beyond
  · intro va below
    have short : va < new := by omega
    have low := page_below_first bottom short
    obtain ⟨user, inside⟩ := page_of_user (show va < kernbase by omega)
    have unvisited : ¬ Visited m pgdir (pgroundup new / pgsize) old (va / pgsize) :=
      fun visited => absurd visited.1 (Nat.not_le.mpr low)
    exact load_retained inside (released.entries _ (by omega) unvisited) released.contents
      ⟨user, unvisited⟩

/-- A shrink that passes over a page does not. -/
theorem PassedOver.not_moved (top : old ≤ kernbase) (order : new < old)
    (passed : PassedOver m pgdir (pgroundup new / pgsize) old)
    (released : Released pgdir (pgroundup new / pgsize) old m later) :
    ¬ MovedTo pgdir old new m later := by
  intro moved
  obtain ⟨vpn, above, below, mapped⟩ := passed.stays top released
  have beyond := (first_page_iff (order.le.trans top)).mp above
  rw [moved.unmapped vpn (user_page top below) beyond] at mapped
  cases mapped

/-- Taking all pages away changes nothing only where there were none. -/
theorem empty_untouched_iff (owned : Owned layout m live held own) (alive : live pgdir)
    (top : old ≤ kernbase) (bounded : Bounded m pgdir old)
    (ran : deallocLoop layout m pgdir (pgroundup 0 / pgsize * pgsize) old = .ok later) :
    Untouched pgdir m later ↔ ∀ vpn, vpn < 524288 → m.entry pgdir vpn = none := by
  have released := deallocLoop_released owned alive top ran
  have start : pgroundup 0 / pgsize = 0 := by decide
  rw [start] at released
  have later_none : ∀ vpn, vpn < 524288 → later.entry pgdir vpn = none := by
    intro vpn user
    by_cases within : vpn * pgsize < old
    · apply released.cleared vpn (by omega)
      exact ⟨Nat.zero_le _, within, fun early => absurd early (Nat.not_lt_zero _)⟩
    · rw [released.entries vpn (by omega) fun visited => within visited.2.1]
      exact bounded vpn user (Nat.not_lt.mp within)
  constructor
  · intro untouched vpn user
    rw [← untouched.entries vpn user, later_none vpn user]
  · intro nothing
    refine ⟨fun vpn user => (later_none vpn user).trans (nothing vpn user).symm,
      fun va below => ?_⟩
    obtain ⟨user, inside⟩ := page_of_user below
    rw [load_eq inside, load_eq inside, later_none _ user, nothing _ user]
    rfl

/-! ## The call -/

/-- The arguments that `sbrk` handles: those that grow, those of a process without memory,
those that leave something and pass over no page, and those that take everything from a
process with no page. -/
def SbrkHandles (k : Kernel) (p : Nat) (n : UInt32) : Prop :=
  0 ≤ Syscall.signed n ∨ (k.proc p).sz = 0 ∨
    (0 < (k.proc p).sz + Syscall.signed n ∧
      ¬ PassedOver k.vm (k.proc p).pgdir
        (pgroundup ((k.proc p).sz + Syscall.signed n).toNat / pgsize) (k.proc p).sz) ∨
    ((k.proc p).sz + Syscall.signed n = 0 ∧
      ∀ vpn, vpn < 524288 → k.vm.entry (k.proc p).pgdir vpn = none)

/-- An argument is a count of bytes to add, or to take away. -/
theorem signed_eq (n : UInt32) :
    n.toNat < 2 ^ 31 ∧ signed n = n.toNat ∨
      2 ^ 31 ≤ n.toNat ∧ signed n = n.toNat - 2 ^ 32 := by
  have value : signed n = if 2 * n.toNat < 2 ^ 32 then (n.toNat : Int)
      else n.toNat - 2 ^ 32 := by
    rw [signed, BitVec.toInt_eq_toNat_cond]
    rfl
  split at value <;> omega

/-- Sizes are their own values as an `int`. -/
theorem signed_size (small : sz < kernbase) :
    signed (UInt32.ofNat sz) = sz := by
  rw [kernbase_eq] at small
  have value : (UInt32.ofNat sz).toNat = sz := UInt32.toNat_ofNat_of_lt' (by
    simp only [UInt32.size]
    omega)
  rcases signed_eq (UInt32.ofNat sz) with ⟨-, same⟩ | ⟨large, -⟩
  · rw [same, value]
  · omega

/-- The answer of the call. -/
theorem Kernel.sysSbrk_eq {k after : Kernel} {p : Nat} {n : UInt32} {done : Bool}
    (small : (k.proc p).sz < kernbase) (ran : k.growproc layout p n.toNat = .ok (done, after)) :
    k.sysSbrk layout p n = .ok (if done then ((k.proc p).sz : Int) else -1, after) := by
  rw [sysSbrk, ran, signed_size small]
  cases done with
  | true => rfl
  | false => rfl

section Call

variable {k : Kernel} {p : Nat} {n : UInt32} {vm : Vm}

/-- What `growproc` makes of the size that it gets. -/
def Kernel.resized (k : Kernel) (p size : Nat) (vm : Vm) : Bool × Kernel :=
  if size = 0 then (false, { k with vm })
  else (true, { k with vm }.setProc p { k.proc p with sz := size })

theorem Kernel.growproc_grow (nonzero : n.toNat ≠ 0) (grows : n.toNat < 2 ^ 31)
    (whole : ((k.proc p).sz + n.toNat) % 2 ^ 32 = new)
    (ran : k.vm.allocuvm layout (k.proc p).pgdir (k.proc p).sz new = .ok (size, vm)) :
    k.growproc layout p n.toNat = .ok (k.resized p size vm) := by
  simp only [growproc, if_neg nonzero, if_pos grows, whole, ran, resized]
  exact (apply_ite Except.ok _ _ _).symm

theorem Kernel.growproc_shrink (shrinks : 2 ^ 31 ≤ n.toNat)
    (whole : ((k.proc p).sz + n.toNat) % 2 ^ 32 = new)
    (ran : k.vm.deallocuvm layout (k.proc p).pgdir (k.proc p).sz new = .ok (size, vm)) :
    k.growproc layout p n.toNat = .ok (k.resized p size vm) := by
  have nonzero : n.toNat ≠ 0 := by omega
  have negative : ¬ n.toNat < 2 ^ 31 := by omega
  simp only [growproc, if_neg nonzero, if_neg negative, whole, ran, resized]
  exact (apply_ite Except.ok _ _ _).symm

/-- A size of zero is a failure. -/
theorem Kernel.resized_zero : k.resized p 0 vm = (false, { k with vm }) := rfl

/-- Other sizes are taken over. -/
theorem Kernel.resized_size (nonzero : size ≠ 0) :
    k.resized p size vm = (true, { k with vm }.setProc p { k.proc p with sz := size }) :=
  if_neg nonzero

/-- A failure is to change nothing. -/
theorem exact_failed_iff : SbrkExact k p n (-1) { k with vm } ↔
    Untouched (k.proc p).pgdir k.vm vm := by
  constructor
  · rintro (⟨impossible, -⟩ | ⟨-, -, untouched⟩)
    · omega
    · exact untouched
  · exact fun untouched => Or.inr ⟨rfl, rfl, untouched⟩

/-- A success is to move the size by the argument. -/
theorem exact_done_iff :
    SbrkExact k p n (k.proc p).sz ({ k with vm }.setProc p { k.proc p with sz := size }) ↔
      (size : Int) = (k.proc p).sz + signed n ∧
        MovedTo (k.proc p).pgdir (k.proc p).sz size k.vm vm := by
  simp only [SbrkExact, setProc, Function.update_self, true_and]
  constructor
  · rintro (moved | ⟨impossible, -⟩)
    · exact moved
    · omega
  · exact Or.inl

section

variable (owned : Owned layout k.vm live held own) (alive : live (k.proc p).pgdir)
  (small : (k.proc p).sz < kernbase) (bounded : Bounded k.vm (k.proc p).pgdir (k.proc p).sz)

include owned alive small bounded

/-- Growing is exact or has no effect. -/
theorem grows_exact
    (steady : Anchored k.vm (k.proc p).pgdir (pgroundup (k.proc p).sz / pgsize) ∨ Alone k.vm)
    (grows : n.toNat < 2 ^ 31) (value : signed n = n.toNat) :
    ∃ outcome, k.growproc layout p n.toNat = .ok outcome ∧
      SbrkExact k p n (if outcome.1 then ((k.proc p).sz : Int) else -1) outcome.2 := by
  by_cases zero : n.toNat = 0
  · have same : ((k.proc p).sz : Int) = (k.proc p).sz + signed n := by omega
    refine ⟨(true, k), ?_, Or.inl ⟨rfl, same, bounded, ?_, fun _ _ => rfl⟩⟩
    · simp only [Kernel.growproc, if_pos zero]
    · intro vpn pte user beyond stored
      rw [bounded vpn user beyond] at stored
      cases stored
  · have whole : ((k.proc p).sz + n.toNat) % 2 ^ 32 = (k.proc p).sz + n.toNat := by
      rw [kernbase_eq] at small
      omega
    by_cases high : kernbase ≤ (k.proc p).sz + n.toNat
    · have ran : k.vm.allocuvm layout (k.proc p).pgdir (k.proc p).sz ((k.proc p).sz + n.toNat) =
          .ok (0, k.vm) := by
        rw [allocuvm, if_pos high]
      exact ⟨_, growproc_grow zero grows whole ran,
        exact_failed_iff.mpr (Untouched.refl _ _)⟩
    · have top : (k.proc p).sz + n.toNat < kernbase := Nat.not_le.mp high
      have order : (k.proc p).sz < (k.proc p).sz + n.toNat := by omega
      obtain ⟨size, vm, ran, resized⟩ := allocuvm_resized owned alive top order bounded steady
      refine ⟨_, growproc_grow zero grows whole ran, ?_⟩
      rcases resized.sizes with rfl | rfl
      · have nonzero : (k.proc p).sz + n.toNat ≠ 0 := by omega
        rw [resized_size nonzero]
        apply exact_done_iff.mpr
        exact ⟨by omega, resized.moved top order bounded⟩
      · apply exact_failed_iff.mpr
        exact resized.untouched top order bounded (by omega)

/-- Shrinking is exact, or has no effect, for the arguments that are handled. -/
theorem shrinks_exact_iff (shrinks : 2 ^ 31 ≤ n.toNat)
    (value : signed n = n.toNat - 2 ^ 32) :
    ∃ outcome, k.growproc layout p n.toNat = .ok outcome ∧
      (SbrkExact k p n (if outcome.1 then ((k.proc p).sz : Int) else -1) outcome.2 ↔
        SbrkHandles k p n) := by
  have word := n.toNat_lt
  have bottom := small
  rw [kernbase_eq] at bottom
  by_cases more : (k.proc p).sz + n.toNat < 2 ^ 32
  · have whole : ((k.proc p).sz + n.toNat) % 2 ^ 32 = (k.proc p).sz + n.toNat :=
      Nat.mod_eq_of_lt more
    have ran : k.vm.deallocuvm layout (k.proc p).pgdir (k.proc p).sz
        ((k.proc p).sz + n.toNat) = .ok ((k.proc p).sz, k.vm) := by
      rw [deallocuvm, if_pos (by omega)]
    refine ⟨_, growproc_shrink shrinks whole ran, ?_⟩
    by_cases zero : (k.proc p).sz = 0
    · have handled : SbrkHandles k p n := Or.inr (Or.inl zero)
      rw [zero, resized_zero]
      exact iff_of_true (exact_failed_iff.mpr (Untouched.refl _ _)) handled
    · rw [resized_size zero]
      apply iff_of_false
      · intro moved
        have moved := (exact_done_iff.mp moved).1
        omega
      · rintro (grows | none | ⟨some, -⟩ | ⟨all, -⟩) <;> omega
  · have whole : ((k.proc p).sz + n.toNat) % 2 ^ 32 = (k.proc p).sz + n.toNat - 2 ^ 32 := by
      omega
    have less : (k.proc p).sz + n.toNat - 2 ^ 32 < (k.proc p).sz := by omega
    obtain ⟨vm, ran, loop⟩ := deallocuvm_loop owned alive less small.le
    refine ⟨_, growproc_shrink shrinks whole ran, ?_⟩
    have new : ((k.proc p).sz + signed n).toNat = (k.proc p).sz + n.toNat - 2 ^ 32 := by
      omega
    generalize (k.proc p).sz + n.toNat - 2 ^ 32 = size at less loop new
    by_cases zero : size = 0
    · subst zero
      rw [resized_zero]
      apply exact_failed_iff.trans
      rw [empty_untouched_iff owned alive small.le bounded loop]
      constructor
      · exact fun nothing => Or.inr (Or.inr (Or.inr ⟨by omega, nothing⟩))
      · rintro (grows | none | ⟨some, -⟩ | ⟨-, nothing⟩)
        · omega
        · omega
        · omega
        · exact nothing
    · rw [resized_size zero]
      apply exact_done_iff.trans
      constructor
      · rintro ⟨-, moved⟩
        refine Or.inr (Or.inr (Or.inl ⟨by omega, fun passed => ?_⟩))
        rw [new] at passed
        apply passed.not_moved small.le less _ moved
        exact deallocLoop_released owned alive small.le loop
      · rintro (grows | none | ⟨some, reached⟩ | ⟨all, -⟩)
        · omega
        · omega
        · rw [new] at reached
          exact ⟨by omega, shrink_moved owned alive small.le less bounded loop reached⟩
        · omega

end

/-- `sbrk` never panics, and it is exact or has no effect precisely for the arguments that
are handled. -/
theorem sysSbrk_exact_iff (owned : Owned layout k.vm live held own)
    (alive : live (k.proc p).pgdir) (small : (k.proc p).sz < kernbase)
    (bounded : Bounded k.vm (k.proc p).pgdir (k.proc p).sz)
    (steady : Anchored k.vm (k.proc p).pgdir (pgroundup (k.proc p).sz / pgsize) ∨ Alone k.vm) :
    ∃ answer after, k.sysSbrk layout p n = .ok (answer, after) ∧
      (SbrkExact k p n answer after ↔ SbrkHandles k p n) := by
  rcases signed_eq n with ⟨grows, value⟩ | ⟨shrinks, value⟩
  · obtain ⟨⟨done, after⟩, ran, exact⟩ :=
      grows_exact owned alive small bounded steady grows value
    refine ⟨_, _, Kernel.sysSbrk_eq small ran, iff_of_true exact (Or.inl ?_)⟩
    omega
  · obtain ⟨⟨done, after⟩, ran, exact⟩ :=
      shrinks_exact_iff owned alive small bounded shrinks value
    exact ⟨_, _, Kernel.sysSbrk_eq small ran, exact⟩

end Call

/-- A process of a given size whose only page is the first of its table at an index. -/
def onePageKernel (index : Nat) : Kernel where
  vm := onePage index
  kpgdir := 299
  cpuStacks := []
  proc := fun _ =>
    ⟨(index * 1024 + 1) * pgsize, 300, 298, .runnable, 1, none, false, fun _ => none⟩
  file := fun _ => ⟨.none, 0, false, false, 0⟩
  initproc := none
  nextpid := 2

/-- It has no other page. -/
theorem onePage_only (user : index < 512) (below : vpn < 524288)
    (mapped : ((onePage index).entry 300 vpn).isSome) : vpn = index * 1024 := by
  obtain ⟨pte, stored⟩ := Option.isSome_iff_exists.mp mapped
  have mine := ((onePage_owned user).apart_user (Or.inr rfl) below stored).1
  simp only [onePageOwners, Function.update_apply] at mine
  generalize frame pte = page at mine
  by_cases isUser : page = 302
  · rw [if_pos isUser, Option.some.injEq, Place.user.injEq] at mine
    omega
  · rw [if_neg isUser] at mine
    split at mine
    · cases mine
    · split at mine
      · cases mine
      · cases mine

theorem onePage_bounded (user : index < 512) :
    Bounded (onePage index) 300 ((index * 1024 + 1) * pgsize) := by
  intro vpn below beyond
  by_contra mapped
  obtain rfl := onePage_only user below (Option.isSome_iff_ne_none.mpr mapped)
  simp only [pgsize_eq] at beyond
  omega

/-- A page at four megabytes is taken away from a process that ends with it. -/
theorem sysSbrk_exact_iff_page : ∃ answer after,
    (onePageKernel 1).sysSbrk smallestLayout 0 (-4096) = .ok (answer, after) ∧
      SbrkExact (onePageKernel 1) 0 (-4096) answer after := by
  have user : 1 < 512 := by decide
  have alone : Alone (onePageKernel 1).vm := fun _ => rfl
  obtain ⟨answer, after, ran, exact⟩ := sysSbrk_exact_iff (k := onePageKernel 1) (p := 0)
    (n := -4096) (onePage_owned user) (Or.inr rfl) (by decide) (onePage_bounded user)
    (Or.inr alone)
  refine ⟨answer, after, ran, exact.mpr (Or.inr (Or.inr (Or.inl ⟨by decide, ?_⟩)))⟩
  rintro ⟨vpn, -, -, -, early, -⟩
  exact absurd early (Nat.not_lt_zero _)

/-- A process of one page that asks for as much less or more is not served exactly. -/
theorem onePage_shrinks {n : UInt32} (shrinks : 2 ^ 31 ≤ n.toNat)
    (isDelta : signed n = n.toNat - 2 ^ 32) (below : 4096 + signed n ≤ 0) :
    ∃ answer after, (onePageKernel 0).sysSbrk smallestLayout 0 n = .ok (answer, after) ∧
      ¬ SbrkExact (onePageKernel 0) 0 n answer after := by
  have user : 0 < 512 := by decide
  have mapped : ((onePage 0).entry 300 0).isSome := by decide +kernel
  obtain ⟨⟨done, after⟩, ran, exact⟩ := shrinks_exact_iff (onePage_owned user) (Or.inr rfl)
    (show ((onePageKernel 0).proc 0).sz < kernbase by decide) (onePage_bounded user) shrinks
    isDelta
  refine ⟨_, after, sysSbrk_eq (by decide) ran, fun done => ?_⟩
  rcases exact.mp done with grows | none | ⟨some, -⟩ | ⟨-, nothing⟩
  · omega
  · exact absurd none (by decide)
  · have size : (((onePageKernel 0).proc 0).sz : Int) = 4096 := by decide
    omega
  · have gone : (onePage 0).entry 300 0 = none := nothing 0 (by decide)
    rw [gone] at mapped
    cases mapped

/-- A process of one page that asks for a page less, or for two pages less. The first call
fails and takes the page, the second succeeds and does nothing. -/
theorem sbrk_below_zero :
    (∃ answer after, (onePageKernel 0).sysSbrk smallestLayout 0 (-4096) = .ok (answer, after) ∧
      ¬ SbrkExact (onePageKernel 0) 0 (-4096) answer after) ∧
    ∃ answer after, (onePageKernel 0).sysSbrk smallestLayout 0 (-8192) = .ok (answer, after) ∧
      ¬ SbrkExact (onePageKernel 0) 0 (-8192) answer after :=
  ⟨onePage_shrinks (by decide) (by decide) (by decide),
    onePage_shrinks (by decide) (by decide) (by decide)⟩

end Xv6
