import Xv6.Proc.Boot

/-!
# What a step of a run keeps

Three conditions on a step, each on the state before it, on the call and its
arguments, and on which calls of `kalloc` fail. They name the calls for which the
kernel's error handling falls short: an `exec` whose image or arguments make the
kernel store outside the pages it has just mapped, an `sbrk` to size zero, and a
failed `kalloc` for a page table.
-/

namespace Xv6

open Vm Except

namespace Kernel

variable {layout : Layout} {k after : Kernel} {own : Places Holder}

/-- An `exec` stays within the pages it maps: its segments end below `2^32` and its
arguments fit the address space, and no page table for them is denied. -/
def Contained (k : Kernel) (s : Step) : Prop :=
  match s.call with
  | .exec file argv => Tame file argv = true ∧ k.foresee s ≠ some .silent
  | _ => True

/-- Besides, an `sbrk` does not shrink the process to nothing, and no page table for
it is denied. -/
def Heeded (k : Kernel) (s : Step) : Prop :=
  k.Contained s ∧
    match s.call with
    | .sbrk n => k.foresee s ≠ some .silent ∧ (k.proc s.proc).sz + n.toNat ≠ 2 ^ 32
    | _ => True

/-- No call is the first to fail at a page table. -/
def Lossless (k : Kernel) (s : Step) : Prop :=
  k.Contained s ∧ k.foresee s ≠ some .silent ∧ k.foresee s ≠ some .table

theorem enter_requests (k : Kernel) (refuse : Nat → Bool) (p : Nat) (c : Call) :
    (k.enter refuse).requests p c = k.requests p c := by
  cases c <;> rfl

/-- What is foreseen for a step is what the call meets. -/
theorem enter_foresee (k : Kernel) (s : Step) :
    (k.enter s.refuse).vm.foresee ((k.enter s.refuse).requests s.proc s.call) = k.foresee s := by
  rw [enter_requests, Vm.foresee, Kernel.foresee]
  rfl

/-- One call of a process, in a state in which the calls of `kalloc` are counted from
here. -/
theorem call_spec (sane : Sane layout k own) {s : Step} (used : k.Used s.proc)
    (fresh : k.vm.refuse = s.refuse ∧ k.vm.tick = 0) (contained : k.Contained s)
    (ran : k.call layout s.proc s.call = .ok (some after)) :
    (k.Lossless s → after.vm.denied = k.vm.denied) ∧
      ∃ next, Moved layout k own after next ∧ (k.Heeded s → k.Full → after.Full) := by
  obtain ⟨p, c, refuse⟩ := s
  have foreseen : k.vm.foresee (k.requests p c) = k.foresee ⟨p, c, refuse⟩ := by
    rw [Vm.foresee, fresh.1, fresh.2, Kernel.foresee]
  cases c with
  | fork =>
    obtain ⟨⟨done, last⟩, forking, ran⟩ := of_bind_ok ran
    cases ran
    obtain ⟨quiet, next, moved, full⟩ := fork_spec sane used forking
    rw [foreseen] at quiet
    exact ⟨fun lossless => quiet lossless.2.1 lossless.2.2, next, moved, fun _ => full⟩
  | exec file argv =>
    obtain ⟨⟨done, last⟩, executing, ran⟩ := of_bind_ok ran
    cases ran
    obtain ⟨tame, loud⟩ := contained
    rw [← foreseen] at loud
    obtain ⟨quiet, next, moved, full⟩ := exec_spec sane used tame loud executing
    rw [show execRequests file = k.requests p (.exec file argv) from rfl, foreseen] at quiet
    exact ⟨fun lossless => quiet lossless.2.2, next, moved, fun _ => full⟩
  | sbrk n =>
    obtain ⟨⟨done, last⟩, growing, ran⟩ := of_bind_ok ran
    cases ran
    obtain ⟨quiet, next, moved, full⟩ := growproc_spec sane used growing
    rw [foreseen] at quiet full
    exact ⟨fun lossless => quiet lossless.2.1 lossless.2.2, next, moved,
      fun heeded => full heeded.2.1 heeded.2.2⟩
  | pipe =>
    obtain ⟨⟨done, last⟩, piping, ran⟩ := of_bind_ok ran
    cases ran
    obtain ⟨quiet, next, moved, full⟩ := sysPipe_spec sane piping
    exact ⟨fun _ => quiet, next, moved, fun _ => full⟩
  | close fd =>
    obtain ⟨⟨done, last⟩, closing, ran⟩ := of_bind_ok ran
    cases ran
    obtain ⟨quiet, next, moved, full⟩ := sysClose_spec sane closing
    exact ⟨fun _ => quiet, next, moved, fun _ => full⟩
  | exit =>
    obtain ⟨last, exiting, ran⟩ := of_bind_ok ran
    cases ran
    obtain ⟨quiet, next, moved, full⟩ := exit_spec sane used exiting
    exact ⟨fun _ => quiet, next, moved, fun _ => full⟩
  | wait =>
    obtain ⟨answer, waiting, ran⟩ := of_bind_ok ran
    rcases answer with _ | ⟨done, last⟩
    · cases ran
    · cases ran
      obtain ⟨quiet, next, moved, full⟩ := wait_spec sane waiting
      exact ⟨fun _ => quiet, next, moved, fun _ => full⟩
  | store va byte =>
    have stored : k.userStore p va byte = some after := by simpa [call] using ran
    obtain ⟨moved, same⟩ := userStore_spec sane used stored
    exact ⟨fun _ => same.denied, own, moved, fun _ => same.full⟩

/-- One step of a run. -/
theorem step_spec (sane : Sane layout k own) {s : Step} (contained : k.Contained s)
    (ran : k.step layout s = .ok (some after)) :
    (k.Lossless s → after.vm.denied = k.vm.denied) ∧
      ∃ next, Moved layout k own after next ∧ (k.Heeded s → k.Full → after.Full) := by
  unfold step at ran
  split at ran
  · rename_i able
    have used : (k.enter s.refuse).Used s.proc := by
      refine ⟨able.1, fun unused => ?_⟩
      cases able.2.symm.trans unused
    obtain ⟨started, same⟩ := sane.enter s.refuse
    obtain ⟨quiet, next, moved, full⟩ := call_spec started used ⟨rfl, rfl⟩ contained ran
    exact ⟨quiet, next, ⟨moved.sane, moved.rising, moved.kept⟩,
      fun heeded whole => full heeded (same.full whole)⟩
  · cases ran

variable {first : Kernel} {steps : List Step}

/-- Along a run of contained steps every page keeps at most one place. -/
theorem run_sane (sane : ∃ own, Sane layout first own)
    (meets : Runs.Meets (step layout) Contained first steps)
    (ran : first.run layout steps = some k) : ∃ own, Sane layout k own := by
  refine Runs.invariant (fun k => ∃ own, Sane layout k own) ?_ sane meets ran
  rintro k after s ⟨own, sane⟩ contained taken
  obtain ⟨-, next, moved, -⟩ := step_spec sane contained taken
  exact ⟨next, moved.sane⟩

/-- Along a run of heeded steps the processes stay complete. -/
theorem run_full (start : (∃ own, Sane layout first own) ∧ first.Full)
    (meets : Runs.Meets (step layout) Heeded first steps)
    (ran : first.run layout steps = some k) : (∃ own, Sane layout k own) ∧ k.Full := by
  refine Runs.invariant (fun k => (∃ own, Sane layout k own) ∧ k.Full) ?_ start meets ran
  rintro k after s ⟨⟨own, sane⟩, whole⟩ heeded taken
  obtain ⟨-, next, moved, full⟩ := step_spec sane heeded.1 taken
  exact ⟨⟨next, moved.sane⟩, full heeded whole⟩

/-- Along a run of lossless steps every page keeps a place. -/
theorem run_lossless
    (start : ∃ own, Sane layout first own ∧ ∀ page, layout.Managed page → own page ≠ none)
    (meets : Runs.Meets (step layout) Lossless first steps)
    (ran : first.run layout steps = some k) :
    ∃ own, Sane layout k own ∧ ∀ page, layout.Managed page → own page ≠ none := by
  refine Runs.invariant (fun k => ∃ own, Sane layout k own ∧
    ∀ page, layout.Managed page → own page ≠ none) ?_ start meets ran
  rintro k after s ⟨own, sane, all⟩ lossless taken
  obtain ⟨quiet, next, moved, -⟩ := step_spec sane lossless.1 taken
  exact ⟨next, moved.sane, fun page managed isLost =>
    all page managed (moved.kept (quiet lossless) page isLost)⟩

/-! ## Growth that succeeds -/

/-- A complete process grows when its requests are served. -/
theorem growproc_ok (sane : Sane layout k own) (full : k.Full) {p : Nat} {n : UInt32}
    (used : k.Used p) (grows : 0 < n.toNat ∧ n.toNat < 2 ^ 31)
    (fits : (k.proc p).sz + n.toNat < kernbase)
    (served : k.vm.foresee (k.requests p (.sbrk n)) = none) : ∃ vm,
      k.growproc layout p n.toNat =
        .ok (true, { k with vm }.setProc p { k.proc p with sz := (k.proc p).sz + n.toNat }) ∧
      (Lacks k.vm (k.proc p).pgdir (lacking (k.proc p).sz) →
        Lacks vm (k.proc p).pgdir (lacking ((k.proc p).sz + n.toNat))) ∧
      vm.free = k.vm.free - (k.requests p (.sbrk n)).length := by
  have whole : ((k.proc p).sz + n.toNat) % 2 ^ 32 = (k.proc p).sz + n.toNat :=
    Nat.mod_eq_of_lt (by simp only [kernbase_eq] at fits; omega)
  obtain ⟨size, vm, growing⟩ := allocuvm_ok sane.owned used.live (full p used)
    ((k.proc p).sz + n.toNat)
  rw [requests, if_pos grows.2, whole] at served ⊢
  obtain ⟨⟨grown, filling⟩, last⟩ := (allocuvm_asked sane.owned used.live (fun _ _ => by simp)
    growing).served served
  have larger : size = (k.proc p).sz + n.toNat := by
    rw [grown, grownSize, if_neg (by omega), max_eq_right (by omega)]
  refine ⟨vm, ?_, fun lacks => ?_, last.free⟩
  · unfold growproc
    simp only [whole, if_neg (show ¬ n.toNat = 0 by omega), if_pos grows.2, growing, bind,
      Except.bind]
    rw [if_neg (by omega), larger]
  · have grows := lacks.grow (filling fits)
    rwa [max_eq_right (by omega)] at grows

/-- The step of a runnable process that grows. -/
theorem step_grows (sane : Sane layout k own) (full : k.Full) {p : Nat} {n : UInt32}
    {refuse : Nat → Bool} (able : p < nproc ∧ (k.proc p).state = .runnable)
    (grows : 0 < n.toNat ∧ n.toNat < 2 ^ 31) (fits : (k.proc p).sz + n.toNat < kernbase)
    (served : k.foresee ⟨p, .sbrk n, refuse⟩ = none) : ∃ after,
      k.step layout ⟨p, .sbrk n, refuse⟩ = .ok (some after) ∧
      after.proc p = { k.proc p with sz := (k.proc p).sz + n.toNat } ∧
      (Lacks k.vm (k.proc p).pgdir (lacking (k.proc p).sz) →
        Lacks after.vm (k.proc p).pgdir (lacking ((k.proc p).sz + n.toNat))) ∧
      after.vm.free = k.vm.free - (k.requests p (.sbrk n)).length := by
  obtain ⟨started, same⟩ := sane.enter refuse
  have used : (k.enter refuse).Used p := by
    refine ⟨able.1, fun unused => ?_⟩
    cases able.2.symm.trans unused
  rw [← enter_foresee] at served
  obtain ⟨vm, ran, lacks, free⟩ := growproc_ok started (same.full full) used grows fits served
  rw [show (k.enter refuse).proc = k.proc from rfl] at lacks ran
  refine ⟨{ k.enter refuse with vm }.setProc p
    { k.proc p with sz := (k.proc p).sz + n.toNat }, ?_, ?_, fun before => ?_, ?_⟩
  · rw [step, if_pos able]
    simp only [call, ran, bind, Except.bind]
    rfl
  · simp [setProc]
  · have early : Lacks (k.enter refuse).vm (k.proc p).pgdir (lacking (k.proc p).sz) := by
      intro index inside
      rw [before index inside]
      rfl
    have last := lacks early
    rw [setProc]
    exact last
  · rwa [enter_requests] at free

/-- Each page asks for itself and at most one page table. -/
theorem growRequests_length (request : Request) (count : Nat) :
    ∀ (missing : Nat → Bool) (vpn : Nat),
      (growRequests request missing count vpn).length ≤ 2 * count := by
  induction count with
  | zero =>
    intro missing vpn
    rfl
  | succ count ih =>
    intro missing vpn
    have rest := ih (Function.update missing (vpn / 1024) false) (vpn + 1)
    simp only [growRequests, List.length_append, List.length_cons, List.length_nil]
    split
    · simp only [List.length_cons, List.length_nil]
      omega
    · simp only [List.length_nil]
      omega

/-- Growing by at most four megabytes asks for few pages. -/
theorem sbrk_requests {p : Nat} {n : UInt32} (small : n.toNat ≤ 4194304)
    (fits : (k.proc p).sz < kernbase) : (k.requests p (.sbrk n)).length ≤ 2050 := by
  have whole : ((k.proc p).sz + n.toNat) % 2 ^ 32 = (k.proc p).sz + n.toNat :=
    Nat.mod_eq_of_lt (by simp only [kernbase_eq] at fits; omega)
  simp only [requests, if_pos (show n.toNat < 2 ^ 31 by omega), whole, allocRequests]
  split
  · exact Nat.zero_le _
  · refine (growRequests_length _ _ _ _).trans ?_
    omega

/-- The first process asks for a page, and gets it. -/
theorem first_growth : ∃ first k,
    main sampleLayout 2 (fun _ => Bytes.zero) [] (fun _ => false) = .ok first ∧
    (first.proc 0).sz = pgsize ∧ first.foresee ⟨0, .sbrk 4096, fun _ => false⟩ = none ∧
    first.run sampleLayout [⟨0, .sbrk 4096, fun _ => false⟩] = some k ∧
    (k.proc 0).sz = 2 * pgsize := by
  obtain ⟨first, booted, -, state, size, -, many⟩ := main_ok sampleLayout 2 (fun _ => Bytes.zero) []
    (by decide) (by decide)
  obtain ⟨own, sane, whole⟩ := main_spec booted
  have served : first.foresee ⟨0, .sbrk 4096, fun _ => false⟩ = none :=
    forecast_none ((sbrk_requests (by decide) (by rw [size]; decide)).trans (by omega))
  obtain ⟨k, taken, same, -⟩ := step_grows sane (whole rfl).1 ⟨by decide, state⟩ (by decide)
    (by rw [size]; decide) served
  refine ⟨first, k, booted, size, served, Runs.run_cons.mpr ⟨k, taken, rfl⟩, ?_⟩
  rw [same, size]
  rfl

end Kernel

end Xv6
