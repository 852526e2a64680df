import Xv6.Proc.Runs

/-!
# Address spaces without holes

A process of size `sz` maps exactly the user pages below `sz`, in every state of a
run whose steps are heeded; so `fork` does not find a page missing. The condition
is needed: an `sbrk` that takes away the last page frees it, is told by the size 0
that it failed, and leaves the old size in place.
-/

namespace Xv6

open Vm

namespace Kernel

variable {layout : Layout} {k : Kernel} {own : Places Holder}

theorem dupFiles_error {ofile : Nat → Option Nat} {message : String} (fds : List Nat) :
    ∀ {k : Kernel}, k.dupFiles ofile fds = .error message → ¬ CopyPanic message := by
  induction fds with
  | nil =>
    intro k failed
    cases failed
  | cons fd rest ih =>
    intro k failed
    rw [dupFiles] at failed
    split at failed
    · exact ih failed
    · rcases Except.of_bind_error failed with failed | ⟨after, -, failed⟩
      · unfold filedup at failed
        split at failed <;> cases failed
        decide
      · exact ih failed

/-- `fork` of a complete process does not reach the panics of `copyuvm`. -/
theorem fork_error (sane : Sane layout k own) (full : k.Full) {p : Nat} {message : String}
    (used : k.Used p) (failed : k.fork layout p = .error message) : ¬ CopyPanic message := by
  unfold fork at failed
  rcases allocating : k.allocproc with ⟨_ | np, one⟩
  · rw [allocating] at failed
    cases failed
  rw [allocating] at failed
  obtain ⟨-, unused, kstack, taken, asked, rfl⟩ := allocproc_some allocating
  obtain ⟨-, -, early, sameEarly, -⟩ := sane.taken asked
  have notNew : p ≠ np := by
    rintro rfl
    exact used.2 unused
  have parent : (k.embryo np kstack taken).proc p = k.proc p := by simp [embryo, notNew]
  simp only [parent] at failed
  have complete : Complete taken (k.proc p).pgdir (k.proc p).sz := sameEarly.full full p used
  rcases Except.of_bind_error failed with failed | ⟨⟨_ | d, vm⟩, -, failed⟩
  · obtain ⟨result, later, ran⟩ := copyuvm_ok early.owned used.live (sane.size p used).le
      fun vpn below => (complete vpn (user_page (sane.size p used).le below)).mpr below
    cases ran.symm.trans failed
  · rcases Except.of_bind_error failed with failed | ⟨_, -, failed⟩
    · exact kfree_error failed
    · cases failed
  · rcases Except.of_bind_error failed with failed | ⟨_, -, failed⟩
    · exact dupFiles_error _ failed
    · cases failed

/-- A step that forks a complete process does not reach them either. -/
theorem step_error (sane : Sane layout k own) (full : k.Full) {p : Nat} {refuse : Nat → Bool}
    {message : String} (failed : k.step layout ⟨p, .fork, refuse⟩ = .error message) :
    ¬ CopyPanic message := by
  unfold step at failed
  split at failed
  · rename_i able
    obtain ⟨started, same⟩ := sane.enter refuse
    rcases Except.of_bind_error failed with failed | ⟨_, -, failed⟩
    · refine fork_error started (same.full full) ⟨able.1, fun unused => ?_⟩ failed
      cases able.2.symm.trans unused
    · cases failed
  · cases failed

/-- The pages below a size are those below it rounded up. -/
theorem below_pgroundup {sz vpn : Nat} (top : sz < kernbase) :
    vpn * pgsize < sz ↔ vpn * pgsize < pgroundup sz := by
  rw [(pgroundup_eq top.le).1]
  simp only [pgsize_eq]
  omega

/-- In every state of a run of heeded steps, a process in use maps exactly the user
pages below its size, and a fork does not find one missing. -/
theorem address_spaces_complete {ncpu : Nat} {page : Nat → Page} {initcode : List UInt8}
    {first : Kernel} {steps : List Step}
    (booted : main layout ncpu page initcode (fun _ => false) = .ok first)
    (heeded : Runs.Meets (step layout) Heeded first steps)
    (ran : first.run layout steps = some k) :
    (∀ p, k.Used p → ∀ vpn, vpn < kernbase / pgsize →
      ((k.vm.entry (k.proc p).pgdir vpn).isSome ↔ vpn * pgsize < pgroundup (k.proc p).sz)) ∧
    ∀ p refuse message, k.step layout ⟨p, .fork, refuse⟩ = .error message →
      message ≠ "copyuvm: pte should exist" ∧ message ≠ "copyuvm: page not present" := by
  obtain ⟨owners, sane, whole⟩ := main_spec booted
  obtain ⟨⟨own, sane⟩, full⟩ := run_full ⟨⟨owners, sane⟩, (whole rfl).1⟩ heeded ran
  refine ⟨fun p used vpn below => ?_, fun p refuse message failed => ?_⟩
  · rw [full p used vpn below, below_pgroundup (sane.size p used)]
  · exact not_or.mp (step_error sane full failed)

/-- The first process grows by a page. -/
theorem address_spaces_complete_first_growth : ∃ first k,
    main sampleLayout 2 (fun _ => Bytes.zero) [] (fun _ => false) = .ok first ∧
    first.run sampleLayout [⟨0, .sbrk 4096, fun _ => false⟩] = some k ∧
    (∀ p, k.Used p → ∀ vpn, vpn < kernbase / pgsize →
      ((k.vm.entry (k.proc p).pgdir vpn).isSome ↔ vpn * pgsize < pgroundup (k.proc p).sz)) ∧
    (k.proc 0).sz = 2 * pgsize := by
  obtain ⟨first, k, booted, size, served, ran, grown⟩ := first_growth
  have heeded : Runs.Meets (step sampleLayout) Heeded first [⟨0, .sbrk 4096, fun _ => false⟩] := by
    refine ⟨⟨trivial, ?_, ?_⟩, fun _ _ => trivial⟩
    · simp [served]
    · rw [size]
      decide
  exact ⟨first, k, booted, ran, (address_spaces_complete booted heeded ran).1, grown⟩

/-- A page whose page table is denied is not mapped, and the process is a page larger
all the same. -/
theorem growproc_torn (sane : Sane layout k own) (full : k.Full) {p vpn : Nat} (used : k.Used p)
    (size : (k.proc p).sz = vpn * pgsize) (fits : vpn + 1 < 524288)
    (missing : k.vm.tableAt (k.proc p).pgdir (vpn / 1024) = none) (given : k.vm.free ≠ 0)
    (refused : k.vm.refuse k.vm.tick = false ∧ k.vm.refuse (k.vm.tick + 1) = true) : ∃ vm,
      k.growproc layout p 4096 =
        .ok (true, { k with vm }.setProc p { k.proc p with sz := (vpn + 1) * pgsize }) ∧
      vm.entry (k.proc p).pgdir vpn = none := by
  have inside : vpn * pgsize < (vpn + 1) * pgsize := by
    simp only [pgsize_eq]
    omega
  have top : (vpn + 1) * pgsize < kernbase := by
    simp only [pgsize_eq, kernbase_eq]
    omega
  have start : pgroundup (vpn * pgsize) = vpn * pgsize := by
    rw [(pgroundup_eq (inside.trans top).le).1]
    simp only [pgsize_eq]
    omega
  have moved : (vpn * pgsize + 4096) % 2 ^ 32 = (vpn + 1) * pgsize := by
    simp only [pgsize_eq]
    omega
  obtain ⟨torn, entries, round⟩ :=
    allocLoop_torn sane.owned used.live (by omega) missing given refused
  refine ⟨torn, ?_, ?_⟩
  · unfold growproc allocuvm
    simp only [size, moved, show ¬ 4096 = 0 by decide, if_false, show 4096 < 2 ^ 31 by decide,
      if_true, if_neg (show ¬ kernbase ≤ (vpn + 1) * pgsize by omega),
      if_neg (show ¬ (vpn + 1) * pgsize < vpn * pgsize by omega), start, round _ _ inside]
    rw [allocLoop, if_neg (lt_irrefl _)]
    simp only [bind, Except.bind]
    rw [if_neg (by omega)]
  · have outside := mt (full p used vpn (by omega)).mp (by rw [size]; exact lt_irrefl _)
    exact (entries vpn (by omega)).trans (Option.not_isSome_iff_eq_none.mp outside)

/-- The first process grows to four megabytes. Then it grows by one more page, whose
page table cannot be allocated: its size includes a page that is not mapped. -/
theorem address_space_with_hole : ∃ first k,
    main sampleLayout 2 (fun _ => Bytes.zero) [] (fun _ => false) = .ok first ∧
    first.run sampleLayout [⟨0, .sbrk 4190208, fun _ => false⟩, ⟨0, .sbrk 4096, (· == 1)⟩] =
      some k ∧
    k.Used 0 ∧ 1024 * pgsize < pgroundup (k.proc 0).sz ∧
    k.vm.entry (k.proc 0).pgdir 1024 = none := by
  obtain ⟨first, booted, -, state, size, lacks, many⟩ := main_ok sampleLayout 2 (fun _ => Bytes.zero)
    [] (by decide) (by decide)
  obtain ⟨own, sane, whole⟩ := main_spec booted
  have few : (first.requests 0 (.sbrk 4190208)).length ≤ 2050 :=
    sbrk_requests (by decide) (by rw [size]; decide)
  have served : first.foresee ⟨0, .sbrk 4190208, fun _ => false⟩ = none :=
    forecast_none (few.trans (by omega))
  obtain ⟨middle, taken, same, after, free⟩ := step_grows sane (whole rfl).1 ⟨by decide, state⟩
    (by decide) (by rw [size]; decide) served
  have heeded : first.Heeded ⟨0, .sbrk 4190208, fun _ => false⟩ :=
    ⟨trivial, by simp [served], by rw [size]; decide⟩
  obtain ⟨-, next, moved, full⟩ := step_spec sane heeded.1 taken
  obtain ⟨started, unchanged⟩ := moved.sane.enter (· == 1)
  have able : (middle.proc 0).state = .runnable := by rw [same, state]
  have used : (middle.enter (· == 1)).Used 0 := by
    refine ⟨by decide, fun unused => ?_⟩
    cases able.symm.trans unused
  have larger : (middle.proc 0).sz = 1024 * pgsize := by
    rw [same, size]
    rfl
  have missing : middle.vm.tableAt (middle.proc 0).pgdir 1 = none := by
    rw [same]
    rw [size] at after
    exact (after lacks 1 (by decide)).mp (by decide)
  have given : (middle.enter (· == 1)).vm.free ≠ 0 := by
    rw [show (middle.enter (· == 1)).vm.free = middle.vm.free from rfl]
    omega
  obtain ⟨vm, ran, hole⟩ := growproc_torn started (unchanged.full (full heeded (whole rfl).1)) used
    larger (by decide) missing given ⟨rfl, rfl⟩
  have second : middle.step sampleLayout ⟨0, .sbrk 4096, (· == 1)⟩ =
      .ok (some ({ middle.enter (· == 1) with vm }.setProc 0
        { (middle.enter (· == 1)).proc 0 with sz := (1024 + 1) * pgsize })) := by
    rw [step, if_pos ⟨by decide, able⟩]
    simp only [call, show UInt32.toNat 4096 = 4096 from rfl, ran, bind, Except.bind]
  refine ⟨first, _, booted, Runs.run_cons.mpr ⟨middle, taken, Runs.run_cons.mpr ⟨_, second, rfl⟩⟩,
    ?_, ?_, ?_⟩
  · refine ⟨by decide, ?_⟩
    simp [setProc, Kernel.enter, able]
  · simp only [setProc, Function.update_self]
    decide
  · simpa [setProc] using hole

end Kernel

end Xv6
