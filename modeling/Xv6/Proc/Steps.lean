import Xv6.Proc.Pipes
import Xv6.Proc.ArgumentStack

/-!
# System calls keep the invariant

One lemma for each call: from a sane kernel it leads to a sane kernel, and it loses
no page unless a page table was denied to it. For `exec` the program has to be tame
and all its pages mapped. A process stays complete in every call but two: when
`allocuvm` left a page unmapped, and when `sbrk` takes the whole memory away, since
`growproc` mistakes the new size zero for a failure.
-/

namespace Xv6

namespace Kernel

open Vm Function Except

variable {layout : Layout} {k after : Kernel} {own next : Places Holder}
  {pgdir : Nat} {vm : Vm} {p sz np kstack page : Nat} {done : Bool}

section

variable (sane : Sane layout k own)

include sane

/-- Work for one directory does not touch the pipes. -/
theorem Sane.pipe_page (keeps : Keeps pgdir k.vm own vm next) :
    ∀ f page writable, k.PipeEnd f page writable → vm.page page = k.vm.page page := by
  intro f page writable isEnd
  have mine := (sane.owned.other page (.pipe page)).mpr isEnd.held
  exact (keeps.foreign page _ mine (by simp) (by simp [Belongs])).2

/-- Work for one directory that leaves the same directories in use. -/
theorem Sane.of_keeps (keeps : Keeps pgdir k.vm own vm next)
    (owned : Owned layout vm k.Live k.held next) :
    Sane layout { k with vm } next where
  owned := owned
  distinct := sane.distinct
  apart := sane.apart
  size := sane.size
  files := sane.files.of_pages rfl (sane.pipe_page keeps)

/-- Work for one process leaves the others complete. -/
theorem Sane.full_of_keeps (full : k.Full) (used : k.Used p)
    (keeps : Keeps (k.proc p).pgdir k.vm own vm next)
    (complete : Complete vm (k.proc p).pgdir (k.proc p).sz) : ({ k with vm } : Kernel).Full := by
  intro q usedToo
  by_cases same : q = p
  · rw [same]
    exact complete
  · refine (keeps.complete sane.owned (Used.live usedToo) ?_).mpr (full q usedToo)
    exact fun sameDir => same (sane.distinct q p usedToo used sameDir)

/-- Work for a directory that is not in use leaves all processes complete. -/
theorem Sane.full_of_fresh (full : k.Full) (fresh : ¬ k.Live pgdir)
    (keeps : Keeps pgdir k.vm own vm next) :
    ({ k with vm } : Kernel).Full := by
  intro p used
  refine (keeps.complete sane.owned (Used.live used) ?_).mpr (full p used)
  rintro rfl
  exact fresh (Used.live used)

/-- The first page of memory is no directory. -/
theorem Sane.not_live_zero : ¬ k.Live 0 := by
  intro alive
  have managed := (sane.owned.managed ((sane.owned.dir 0).mpr alive)).pos
  omega

end

/-! ## `sbrk` -/

/-- A new size for a process. -/
theorem Sane.set_size (sane : Sane layout k own) (p : Nat) (small : sz < kernbase) :
    Sane layout (k.setProc p { k.proc p with sz }) own := by
  have used : ∀ q, (k.setProc p { k.proc p with sz }).Used q ↔ k.Used q := by
    intro q
    by_cases same : q = p <;> simp [Used, setProc, same]
  have dirs : ∀ q, ((k.setProc p { k.proc p with sz }).proc q).pgdir = (k.proc q).pgdir ∧
      ((k.setProc p { k.proc p with sz }).proc q).kstack = (k.proc q).kstack := by
    intro q
    by_cases same : q = p <;> simp [setProc, same]
  refine ⟨?_, fun q r left right => ?_, fun q usedToo => ?_, fun q usedToo => ?_,
    sane.files.of_pages rfl fun _ _ _ _ => rfl⟩
  · have sameLive : (k.setProc p { k.proc p with sz }).Live = k.Live :=
      live_congr rfl used fun q _ => (dirs q).1
    have sameHeld : (k.setProc p { k.proc p with sz }).held = k.held :=
      held_congr rfl used (fun q _ => (dirs q).2) fun _ _ _ => Iff.rfl
    rw [sameLive, sameHeld]
    exact sane.owned
  · rw [(dirs q).1, (dirs r).1]
    exact sane.distinct q r ((used q).mp left) ((used r).mp right)
  · rw [(dirs q).1]
    exact sane.apart q ((used q).mp usedToo)
  · by_cases same : q = p
    · simpa [setProc, same] using small
    · simpa [setProc, same] using sane.size q ((used q).mp usedToo)

/-- The end of `growproc`: the size that was computed becomes the process's, unless it
is zero. -/
theorem resize_spec (sane : Sane layout k own) {size : Nat} (used : k.Used p)
    (keeps : Keeps (k.proc p).pgdir k.vm own vm next) (owned : Owned layout vm k.Live k.held next)
    (kept : vm.denied = k.vm.denied → ∀ page, next page = none → own page = none)
    (small : size < kernbase) (ran : (if size = 0 then .ok (false, { k with vm })
      else .ok (true, { k with vm }.setProc p { k.proc p with sz := size }) :
        Except String (Bool × Kernel)) = .ok (done, after)) :
    Moved layout k own after next ∧ after.vm = vm ∧
      (Complete vm (k.proc p).pgdir (if size = 0 then (k.proc p).sz else size) →
        k.Full → after.Full) := by
  have middle := sane.of_keeps keeps owned
  split at ran
  · rename_i zero
    cases ran
    refine ⟨⟨middle, keeps.denied, kept⟩, rfl, fun complete full => ?_⟩
    rw [if_pos zero] at complete
    exact sane.full_of_keeps full used keeps complete
  · rename_i nonzero
    cases ran
    refine ⟨⟨middle.set_size p small, keeps.denied, kept⟩, rfl, fun complete full q usedToo => ?_⟩
    rw [if_neg nonzero] at complete
    by_cases same : q = p
    · subst same
      simpa [setProc] using complete
    · have before : k.Used q := by simpa [Used, setProc, same] using usedToo
      have differ : (k.proc q).pgdir ≠ (k.proc p).pgdir := fun sameDir =>
        same (sane.distinct q p before used sameDir)
      simpa [setProc, same] using (keeps.complete sane.owned before.live differ).mpr (full q before)

/-- Growing or shrinking a process. -/
theorem growproc_spec (sane : Sane layout k own) {n : UInt32} (used : k.Used p)
    (ran : k.growproc layout p n.toNat = .ok (done, after)) :
    (k.vm.foresee (k.requests p (.sbrk n)) ≠ some .silent →
        k.vm.foresee (k.requests p (.sbrk n)) ≠ some .table → after.vm.denied = k.vm.denied) ∧
      ∃ next, Moved layout k own after next ∧
        (k.vm.foresee (k.requests p (.sbrk n)) ≠ some .silent →
          (k.proc p).sz + n.toNat ≠ 2 ^ 32 → k.Full → after.Full) := by
  have top := sane.size p used
  have word := n.toNat_lt
  unfold growproc at ran
  simp only at ran
  split at ran
  · cases ran
    exact ⟨fun _ _ => rfl, own, Moved.refl sane, fun _ _ => id⟩
  · split at ran
    · rename_i grows
      obtain ⟨⟨size, vm⟩, growing, ran⟩ := of_bind_ok ran
      obtain ⟨next, owned, keeps, account, sizes, whole⟩ :=
        allocuvm_spec sane.owned used.live growing
      have asked := allocuvm_asked sane.owned used.live
        (show Lacks k.vm (k.proc p).pgdir fun index => k.vm.tableAt (k.proc p).pgdir index = none from
          fun index _ => by simp) growing
      have small : size < kernbase := by
        rcases sizes with ⟨rfl, -, below⟩ | ⟨rfl, -⟩ | rfl
        · exact below
        · exact top
        · decide
      obtain ⟨moved, sameVm, full⟩ := resize_spec sane used keeps owned account.kept small ran
      rw [requests, if_pos grows]
      refine ⟨fun loud tables => sameVm ▸ asked.denied loud tables, next, moved,
        fun loud _ before => full ?_ before⟩
      obtain ⟨grown, failed⟩ := whole (asked.outcome loud).1 (before p used)
      split
      · exact failed (by assumption)
      · exact grown (by assumption)
    · rename_i shrinks
      obtain ⟨⟨size, vm⟩, shrinking, ran⟩ := of_bind_ok ran
      obtain ⟨next, owned, keeps, kept, denied, -, sizes, whole⟩ :=
        deallocuvm_spec sane.owned used.live top.le shrinking
      have small : size < kernbase := by
        rw [sizes]
        exact (Nat.min_le_left _ _).trans_lt top
      obtain ⟨moved, sameVm, full⟩ := resize_spec sane used keeps owned (fun _ => kept) small ran
      refine ⟨fun _ _ => sameVm ▸ denied, next, moved, fun _ partly before => full ?_ before⟩
      have complete := whole (before p used)
      split
      · rename_i zero
        have none : (k.proc p).sz = 0 := by
          rw [kernbase_eq] at top
          omega
        rw [none]
        rwa [zero] at complete
      · exact complete

/-! ## `exec` -/

/-- A directory that is built next to those in use. -/
structure Building (layout : Layout) (k : Kernel) (own : Places Holder) (pgdir : Nat)
    (vm : Vm) (next : Places Holder) : Prop where
  owned : Owned layout vm (fun other => k.Live other ∨ other = pgdir) k.held next
  keeps : Keeps pgdir k.vm own vm next
  account : Accounted layout k.vm own vm next
  fresh : own pgdir = some .free

theorem Building.not_live (building : Building layout k own pgdir vm next)
    (sane : Sane layout k own) : ¬ k.Live pgdir := sane.owned.not_live_of_free building.fresh

/-- A new directory starts with the kernel's part only. -/
theorem setupkvm_building (sane : Sane layout k own)
    (ran : k.vm.setupkvm layout = .ok (some pgdir, vm)) :
    vm.torn = k.vm.torn ∧ Complete vm pgdir 0 ∧ ∃ next, Building layout k own pgdir vm next := by
  obtain ⟨fresh, torn, denied, next, owned, keeps, kept, empty, -⟩ := setupkvm_some sane.owned ran
  refine ⟨torn, fun vpn below => ?_, next, owned, keeps, Accounted.of_quiet denied kept, fresh⟩
  simp [empty vpn below]

/-- The directory that `setupkvm` returns is ready for the first segment. -/
theorem Sane.setup_ready (sane : Sane layout k own)
    (ran : k.vm.setupkvm layout = .ok (some pgdir, vm)) : ∃ next,
      Building layout k own pgdir vm next ∧
      Ready layout (fun other => k.Live other ∨ other = pgdir) k.held pgdir 0 vm next := by
  obtain ⟨-, empty, next, building⟩ := setupkvm_building sane ran
  have tables := (setupkvm_asked sane.owned ran).2 pgdir rfl
  refine ⟨next, building, building.owned, Or.inr rfl, by decide, empty, fun index inside => ?_⟩
  rw [tables index inside, untabled]
  split
  · rename_i user
    exact iff_of_true (by simp [lacking]) (kernelTable_user user)
  · simp

/-- A later stage of building. -/
theorem Building.later {later : Vm} {last : Places Holder}
    (building : Building layout k own pgdir vm next)
    (owned : Owned layout later (fun other => k.Live other ∨ other = pgdir) k.held last)
    (keeps : Keeps pgdir vm next later last) (account : Accounted layout vm next later last) :
    Building layout k own pgdir later last :=
  ⟨owned, building.keeps.trans keeps,
    building.account.trans account building.keeps.denied keeps, building.fresh⟩

/-- The new directory is given up again. -/
theorem Building.freevm (sane : Sane layout k own) {later : Vm}
    (building : Building layout k own pgdir vm next) (ran : vm.freevm layout pgdir = .ok later) :
    later.denied = vm.denied ∧ ∃ last, Moved layout k own { k with vm := later } last ∧
      (k.Full → ({ k with vm := later } : Kernel).Full) := by
  obtain ⟨last, owned, keeps, kept, denied, -⟩ := freevm_spec building.owned (Or.inr rfl) ran
  have fresh := building.not_live sane
  rw [live_minus_new fresh] at owned
  have whole := building.keeps.trans keeps
  have account := building.account.trans (Accounted.of_quiet denied kept) building.keeps.denied keeps
  exact ⟨denied, last, ⟨sane.of_keeps whole owned, whole.denied, account.kept⟩, fun full =>
    sane.full_of_fresh full fresh whole⟩

/-- The new directory takes the place of the old one. -/
theorem Building.replace (sane : Sane layout k own) {later : Vm} (used : k.Used p)
    (building : Building layout k own pgdir vm next) (small : sz < kernbase)
    (ran : vm.freevm layout (k.proc p).pgdir = .ok later) :
    later.denied = vm.denied ∧ ∃ last,
      Moved layout k own ({ k with vm := later }.setProc p { k.proc p with pgdir, sz }) last ∧
      (Complete vm pgdir sz → k.Full →
        ({ k with vm := later }.setProc p { k.proc p with pgdir, sz }).Full) := by
  obtain ⟨last, owned, keeps, kept, denied, -⟩ :=
    freevm_spec building.owned (Or.inl used.live) ran
  have fresh := building.not_live sane
  have notOld : pgdir ≠ (k.proc p).pgdir := by
    rintro rfl
    exact fresh used.live
  have whole := (building.keeps.of_fresh sane.owned fresh (k.proc p).pgdir).trans keeps
  have account := building.account.trans (Accounted.of_quiet denied kept) building.keeps.denied keeps
  have usedSame : ∀ q, ({ k with vm := later }.setProc p { k.proc p with pgdir, sz }).Used q ↔
      k.Used q := by
    intro q
    by_cases same : q = p <;> simp [Used, setProc, same]
  have otherDir : ∀ q, k.Used q → q ≠ p → (k.proc q).pgdir ≠ (k.proc p).pgdir :=
    fun q usedToo differ sameDir => differ (sane.distinct q p usedToo used sameDir)
  have live : ({ k with vm := later }.setProc p { k.proc p with pgdir, sz }).Live =
      fun other => (k.Live other ∨ other = pgdir) ∧ other ≠ (k.proc p).pgdir := by
    funext other
    refine propext ⟨?_, ?_⟩
    · rintro (rfl | ⟨q, usedToo, rfl⟩)
      · exact ⟨Or.inl (Or.inl rfl), (sane.apart p used).symm⟩
      · by_cases same : q = p
        · subst same
          simpa [setProc] using notOld
        · have before := (usedSame q).mp usedToo
          simpa [setProc, same] using ⟨Or.inl before.live, otherDir q before same⟩
    · rintro ⟨(rfl | ⟨q, usedToo, rfl⟩) | rfl, differ⟩
      · exact Or.inl rfl
      · refine Or.inr ⟨q, (usedSame q).mpr usedToo, ?_⟩
        have same : q ≠ p := by
          rintro rfl
          exact differ rfl
        simp [setProc, same]
      · exact Or.inr ⟨p, (usedSame p).mpr used, by simp [setProc]⟩
  have heldSame : ({ k with vm := later }.setProc p { k.proc p with pgdir, sz }).held = k.held := by
    refine held_congr rfl usedSame (fun q _ => ?_) fun _ _ _ => Iff.rfl
    by_cases same : q = p <;> simp [setProc, same]
  refine ⟨denied, last, ⟨⟨?_, fun q r left right => ?_, fun q usedToo => ?_, fun q usedToo => ?_,
    sane.files.of_pages rfl (sane.pipe_page whole)⟩, whole.denied, account.kept⟩,
    fun complete full q usedToo => ?_⟩
  · rw [live, heldSame]
    exact owned
  · have one := (usedSame q).mp left
    have two := (usedSame r).mp right
    by_cases first : q = p
    · by_cases second : r = p
      · exact fun _ => first.trans second.symm
      · simp only [setProc, first, update_self, update_of_ne second]
        rintro rfl
        exact absurd two.live fresh
    · by_cases second : r = p
      · simp only [setProc, second, update_self, update_of_ne first]
        rintro rfl
        exact absurd one.live fresh
      · simpa [setProc, first, second] using sane.distinct q r one two
  · by_cases same : q = p
    · simp only [setProc, same, update_self]
      rintro rfl
      exact fresh (Or.inl rfl)
    · simpa [setProc, same] using sane.apart q ((usedSame q).mp usedToo)
  · by_cases same : q = p
    · simpa [setProc, same] using small
    · simpa [setProc, same] using sane.size q ((usedSame q).mp usedToo)
  · have before := (usedSame q).mp usedToo
    by_cases same : q = p
    · simp only [setProc, same, update_self]
      exact (keeps.complete building.owned (Or.inr rfl) notOld).mpr complete
    · simp only [setProc, update_of_ne same]
      exact (whole.complete sane.owned before.live (otherDir q before same)).mpr (full q before)

/-- Replacing a process's memory by a tame program. -/
theorem exec_spec (sane : Sane layout k own) {file : Option Image} {argv : List (List UInt8)}
    (used : k.Used p) (tame : Tame file argv = true)
    (loud : k.vm.foresee (execRequests file) ≠ some .silent)
    (ran : k.exec layout p file argv = .ok (done, after)) :
    (k.vm.foresee (execRequests file) ≠ some .table → after.vm.denied = k.vm.denied) ∧
      ∃ next, Moved layout k own after next ∧ (k.Full → after.Full) := by
  have still : ∀ requests, (k.vm.foresee requests ≠ some .table → k.vm.denied = k.vm.denied) ∧
      ∃ next, Moved layout k own k next ∧ (k.Full → k.Full) :=
    fun _ => ⟨fun _ => rfl, own, Moved.refl sane, id⟩
  unfold exec at ran
  unfold Tame at tame
  unfold execRequests at loud ⊢
  cases valid : programOf file with
  | none =>
    rw [valid] at ran
    cases ran
    exact still _
  | some program =>
    obtain ⟨ip, elf⟩ := program
    rw [valid] at ran tame loud
    dsimp only at ran tame loud ⊢
    obtain ⟨⟨answer, vm⟩, setup, ran⟩ := of_bind_ok ran
    have setupAsked := (setupkvm_asked sane.owned setup).1
    cases answer with
    | none =>
      cases ran
      obtain ⟨-, next, owned, keeps, account⟩ := setupkvm_none sane.owned setup 0
      exact ⟨fun whole => setupAsked.denied (foresee_first loud) (foresee_first whole), next,
        ⟨sane.of_keeps keeps owned, keeps.denied, account.kept⟩, fun full =>
        sane.full_of_fresh full sane.not_live_zero keeps⟩
    | some pgdir =>
      obtain ⟨between, building, ready⟩ := sane.setup_ready setup
      obtain ⟨through, -, served⟩ :=
        (setupAsked.outcome (foresee_first loud)).2.resolve_right (by rintro ⟨⟩)
      rw [served.foresee through] at loud ⊢
      obtain ⟨⟨answer, loaded⟩, loading, ran⟩ := of_bind_ok ran
      obtain ⟨confined, fits⟩ := loadSegments_tame _ ready (foresee_first loud) tame loading
      obtain ⟨⟨middle, owned, keeps, account, readyToo⟩, segmentsAsked⟩ :=
        loadSegments_done _ ready (foresee_first loud) confined loading
      have stage := building.later owned keeps account
      cases answer with
      | none =>
        obtain ⟨freed, freeing, ran⟩ := of_bind_ok ran
        cases ran
        obtain ⟨quiet, rest⟩ := stage.freevm sane freeing
        exact ⟨fun whole => quiet.trans ((segmentsAsked.denied (foresee_first loud)
          (foresee_first whole)).trans served.denied), rest⟩
      | some size =>
        obtain ⟨throughToo, isSize, servedToo⟩ :=
          (segmentsAsked.outcome (foresee_first loud)).2.resolve_right (by rintro ⟨⟩)
        rw [servedToo.foresee throughToo, ← isSize] at loud ⊢
        obtain ⟨⟨answer, stacked⟩, stacking, ran⟩ := of_bind_ok ran
        obtain ⟨result, last, pushing, builds⟩ := buildStack_builds (k.proc p).pgdir
          (readyToo size rfl) loud (fits size rfl)
        rw [pushing] at stacking
        cases stacking
        obtain ⟨newest, ownedToo, keepsToo, accountToo⟩ := builds.built.stage
        have final := stage.later ownedToo keepsToo accountToo
        have quietly : loaded.foresee (stackRequests (some size)) ≠ some .table →
            stacked.denied = k.vm.denied := fun whole =>
          (builds.asked.denied loud whole).trans (servedToo.denied.trans served.denied)
        cases answer with
        | none =>
          obtain ⟨freed, freeing, ran⟩ := of_bind_ok ran
          cases ran
          obtain ⟨quiet, rest⟩ := final.freevm sane freeing
          exact ⟨fun whole => quiet.trans (quietly whole), rest⟩
        | some program =>
          obtain ⟨freed, freeing, ran⟩ := of_bind_ok ran
          cases ran
          obtain ⟨below, isComplete⟩ := builds.built.size program.1 rfl
          obtain ⟨quiet, next, moved, full⟩ := final.replace sane used below freeing
          exact ⟨fun whole => quiet.trans (quietly whole), next, moved, full isComplete⟩

/-! ## `fork` -/

/-- The kernel with a new process in a slot. -/
def embryo (k : Kernel) (np kstack : Nat) (vm : Vm) : Kernel :=
  { k with
    vm
    proc := Function.update k.proc np
      { k.proc np with state := .embryo, pid := k.nextpid, kstack }
    nextpid := k.nextpid + 1 }

/-- Finding a slot and a kernel stack for a new process. -/
theorem allocproc_some (ran : k.allocproc = (some np, after)) :
    np < nproc ∧ (k.proc np).state = .unused ∧
      ∃ kstack taken, k.vm.kalloc = (some kstack, taken) ∧ after = k.embryo np kstack taken := by
  unfold allocproc at ran
  split at ran
  · cases ran
  · rename_i p found
    have unused : (k.proc p).state = .unused := by simpa using List.find?_some found
    have inside : p < nproc := List.mem_range.mp (List.mem_of_find?_eq_some found)
    simp only at ran
    split at ran
    · cases ran
    · rename_i kstack taken asked
      cases ran
      refine ⟨inside, unused, kstack, taken, asked, ?_⟩
      simp [embryo, setProc]

section

variable (sane : Sane layout k own)

include sane

/-- What is in a slot that is not in use does not matter. -/
theorem Sane.set_unused (unused : (k.proc np).state = .unused)
    (still : (after.proc np).state = .unused) (sameVm : after.vm = k.vm)
    (sameKernel : after.fixed = k.fixed) (sameFile : after.file = k.file)
    (others : ∀ q, q ≠ np → after.proc q = k.proc q) :
    Sane layout after own ∧ (k.Full → after.Full) := by
  refine sane.of_spaces sameVm sameKernel sameFile (fun q => ?_) fun q used => ?_
  · by_cases here : q = np
    · simp [Used, here, unused, still]
    · simp [Used, others q here]
  · have here : q ≠ np := by
      rintro rfl
      exact used.2 unused
    simp [others q here]

/-- Finding none leaves the pages alone. -/
theorem allocproc_none (ran : k.allocproc = (none, after)) :
    after.vm.denied = k.vm.denied ∧ Moved layout k own after own ∧ (k.Full → after.Full) := by
  unfold allocproc at ran
  split at ran
  · cases ran
    exact ⟨rfl, Moved.refl sane, id⟩
  · rename_i p found
    have unused : (k.proc p).state = .unused := by simpa using List.find?_some found
    simp only at ran
    split at ran
    · rename_i vm asked
      cases ran
      obtain ⟨moved, same⟩ := sane.kalloc_none asked
      refine ⟨same.denied, And.imp (fun last => ⟨last, moved.rising, moved.kept⟩)
        (fun full whole => full (same.full whole))
        (moved.sane.set_unused unused (by simp [setProc]) rfl rfl rfl fun q here => ?_)⟩
      simp [setProc, here]
    · cases ran

/-- A slot of the process table gets a directory and a kernel stack. -/
theorem Sane.add_process
    (slot : np < nproc ∧ (k.proc np).state = .unused) (isUsed : (after.proc np).state ≠ .unused)
    (isDir : (after.proc np).pgdir = pgdir) (isStack : (after.proc np).kstack = kstack)
    (others : ∀ q, q ≠ np → after.proc q = k.proc q) (sameKernel : after.fixed = k.fixed)
    (ends : ∀ f page writable, after.PipeEnd f page writable ↔ k.PipeEnd f page writable)
    (closed : ∀ f, (after.file f).ref = 0 → (after.file f).type = .none)
    (pages : ∀ f page writable, k.PipeEnd f page writable → after.vm.page page = k.vm.page page)
    (owned : Owned layout after.vm (fun other => k.Live other ∨ other = pgdir) k.held next)
    (fresh : ¬ k.Live pgdir) (hand : next kstack = none) (managed : layout.Managed kstack)
    (small : (after.proc np).sz < kernbase) :
    Sane layout after (update next kstack (some (.other (.kstack np)))) := by
  have sameDir : after.kpgdir = k.kpgdir := congrArg Prod.fst sameKernel
  have usedSame : ∀ q, q ≠ np → (after.Used q ↔ k.Used q) := by
    intro q differ
    simp [Used, others q differ]
  have usedNew : after.Used np := ⟨slot.1, isUsed⟩
  have notUsed : ¬ k.Used np := fun used => used.2 slot.2
  have live : after.Live = fun other => k.Live other ∨ other = pgdir := by
    funext other
    refine propext ⟨?_, ?_⟩
    · rintro (rfl | ⟨q, used, rfl⟩)
      · exact Or.inl (Or.inl sameDir)
      · by_cases same : q = np
        · rw [same, isDir]
          exact Or.inr rfl
        · rw [others q same]
          exact Or.inl ((usedSame q same).mp used).live
    · rintro ((rfl | ⟨q, used, rfl⟩) | rfl)
      · exact Or.inl sameDir.symm
      · have same : q ≠ np := by
          rintro rfl
          exact notUsed used
        exact Or.inr ⟨q, (usedSame q same).mpr used, by rw [others q same]⟩
      · exact Or.inr ⟨np, usedNew, isDir⟩
  refine ⟨?_, fun q r left right => ?_, fun q used => ?_, fun q used => ?_, ⟨closed, ?_, ?_⟩⟩
  · rw [live]
    refine owned.hold hand managed (if_neg notUsed) ?_ fun holder differ => ?_
    · rw [held, if_pos usedNew, isStack]
    · cases holder with
      | kstack q =>
        have same : q ≠ np := by
          rintro rfl
          exact differ rfl
        exact held_kstack (usedSame q same) fun _ => by rw [others q same]
      | cpu i => exact held_cpu sameKernel i
      | pipe page =>
        exact held_pipe (exists_congr fun f => exists_congr fun writable => ends f page writable)
  · by_cases first : q = np
    · by_cases second : r = np
      · exact fun _ => first.trans second.symm
      · rw [first, isDir, others r second]
        intro sameDir
        exact absurd (sameDir ▸ ((usedSame r second).mp right).live) fresh
    · by_cases second : r = np
      · rw [second, isDir, others q first]
        intro sameDir
        exact absurd (sameDir ▸ ((usedSame q first).mp left).live) fresh
      · rw [others q first, others r second]
        exact sane.distinct q r ((usedSame q first).mp left) ((usedSame r second).mp right)
  · by_cases same : q = np
    · rw [same, isDir, sameDir]
      intro sameDir
      exact fresh (Or.inl sameDir)
    · rw [others q same, sameDir]
      exact sane.apart q ((usedSame q same).mp used)
  · by_cases same : q = np
    · rw [same]
      exact small
    · rw [others q same]
      exact sane.size q ((usedSame q same).mp used)
  · intro f g page writable
    rw [ends, ends]
    exact sane.files.single f g page writable
  · intro f page writable isEnd other
    rw [ends] at isEnd
    rw [word_congr (pages f page writable isEnd)]
    simp only [ends]
    exact sane.files.opened f page writable isEnd other

/-- The invariant on the pages while the new process has its stack but is not used
yet. -/
theorem Sane.taken {taken : Vm} (asked : k.vm.kalloc = (some kstack, taken)) :
    own kstack = some .free ∧ taken.page = k.vm.page ∧
      Sane layout { k with vm := taken } (update own kstack none) ∧
      SameProcs k { k with vm := taken } ∧ taken.denied = k.vm.denied := by
  obtain ⟨isFree, pages, denied, -, taking⟩ := sane.owned.kalloc_some asked
  have same : SameProcs k { k with vm := taken } :=
    ⟨rfl, rfl, denied, fun pgdir vpn _ _ => congrFun (congrFun (entry_of_page pages) pgdir) vpn⟩
  exact ⟨isFree, pages, sane.of_procs same taking (sane.files.of_pages rfl fun _ page _ _ =>
    congrFun pages page), same, denied⟩

/-- A page in hand is freed. -/
theorem Sane.push (hand : own page = none) (managed : layout.Managed page) :
    Sane layout { k with vm := k.vm.push page } (update own page (some .free)) ∧
      SameProcs k { k with vm := k.vm.push page } := by
  have apart : ∀ other, own other ≠ none → (k.vm.push page).page other = k.vm.page other := by
    intro other placed
    refine page_push_ne k.vm ?_
    rintro rfl
    exact placed hand
  have same : SameProcs k { k with vm := k.vm.push page } := by
    refine ⟨rfl, rfl, rfl, fun pgdir vpn alive inside => sane.owned.entry_structural (fun other structural =>
      apart other ?_) alive inside⟩
    intro none
    exact Owned.not_structural_of_none none structural
  refine ⟨sane.of_procs same (sane.owned.push hand managed) (sane.files.of_pages rfl
    fun f other writable isEnd => apart other ?_), same⟩
  rw [(sane.owned.other other (.pipe other)).mpr isEnd.held]
  exact Option.some_ne_none _

/-- Copying a process. -/
theorem fork_spec (used : k.Used p) (ran : k.fork layout p = .ok (done, after)) :
    (k.vm.foresee (k.requests p .fork) ≠ some .silent →
        k.vm.foresee (k.requests p .fork) ≠ some .table → after.vm.denied = k.vm.denied) ∧
      ∃ next, Moved layout k own after next ∧ (k.Full → after.Full) := by
  unfold fork at ran
  rcases allocating : k.allocproc with ⟨_ | np, one⟩
  · rw [allocating] at ran
    cases ran
    obtain ⟨quiet, moved, full⟩ := allocproc_none sane allocating
    exact ⟨fun _ _ => quiet, own, moved, full⟩
  · rw [allocating] at ran
    obtain ⟨inside, unused, kstack, taken, asked, rfl⟩ := allocproc_some allocating
    obtain ⟨isFree, takenPages, early, sameEarly, denied⟩ := sane.taken asked
    have managed := sane.owned.managed isFree
    have notNew : p ≠ np := by
      rintro rfl
      exact used.2 unused
    have parent : (k.embryo np kstack taken).proc p = k.proc p := by simp [embryo, notNew]
    simp only [parent] at ran
    obtain ⟨⟨answer, vm⟩, copying, ran⟩ := of_bind_ok ran
    have top := sane.size p used
    have slotFree : ∃ q ∈ List.range nproc, (k.proc q).state = .unused :=
      ⟨np, List.mem_range.mpr inside, unused⟩
    have copyAsked := ((kalloc_asked sane.owned asked .page).quietly (Served.refl _)
      (fun _ => trivial) (by rintro ⟨⟩)).append (fun _ => copyuvm_asked early.owned top.le copying) False.elim
    rw [requests, if_pos slotFree]
    cases answer with
    | none =>
      obtain ⟨freed, freeing, ran⟩ := of_bind_ok ran
      cases ran
      obtain ⟨rfl, -⟩ := kfree_ok freeing
      obtain ⟨-, next, owned, keeps, account⟩ := copyuvm_none early.owned top.le copying 0
      have hand : next kstack = none := (keeps.hand kstack (update_self _ _ _)).1
      have stack : ((k.embryo np kstack taken).proc np).kstack = kstack := by simp [embryo]
      rw [stack]
      obtain ⟨pushed, samePush⟩ := (early.of_keeps keeps owned).push hand managed
      have kept : vm.denied = k.vm.denied → ∀ page,
          update next kstack (some .free) page = none → own page = none := by
        intro quiet page isLost
        obtain ⟨apart, lost⟩ := update_eq_none.mp isLost
        have before := account.kept (quiet.trans denied.symm) page lost
        rwa [update_of_ne apart] at before
      refine ⟨copyAsked.denied, _, And.imp (fun last => ⟨last, denied ▸ keeps.denied, kept⟩)
        (fun full whole => full (samePush.full (early.full_of_fresh (sameEarly.full whole)
          early.not_live_zero keeps)))
        (pushed.set_unused unused (by simp [setProc]) rfl rfl rfl fun q here => ?_)⟩
      simp [setProc, embryo, here]
    | some d =>
      obtain ⟨filed, duplicating, ran⟩ := of_bind_ok ran
      cases ran
      obtain ⟨fresh, -, sameDenied, next, owned, keeps, kept, complete⟩ :=
        copyuvm_some early.owned top.le copying
      have notLive : ¬ k.Live d := early.owned.not_live_of_free fresh
      have filing := dupFiles_spec _ duplicating
      have hand : next kstack = none := (keeps.hand kstack (update_self _ _ _)).1
      have procs : filed.proc = (k.embryo np kstack taken).proc := filing.procs
      have slot : (filed.proc np).kstack = kstack := by simp [procs, embryo]
      have source : filed.proc p = k.proc p := by rw [procs, parent]
      have pages : ∀ f page writable, k.PipeEnd f page writable →
          filed.vm.page page = k.vm.page page := by
        intro f page writable isEnd
        rw [filing.vm]
        exact (early.pipe_page keeps f page writable isEnd).trans (congrFun takenPages page)
      have kept' : ∀ page, update next kstack (some (.other (.kstack np))) page = none →
          own page = none := by
        intro page isLost
        obtain ⟨apart, lost⟩ := update_eq_none.mp isLost
        have before := kept page lost
        rwa [update_of_ne apart] at before
      have quiet : filed.vm.denied = k.vm.denied := by
        rw [← denied, ← sameDenied]
        exact congrArg Vm.denied filing.vm
      refine ⟨fun _ _ => quiet, _, ⟨sane.add_process ⟨inside, unused⟩ ?_ ?_ ?_ ?_ filing.kernel
        filing.ends (filing.closed sane.files.closed) pages (filing.vm ▸ owned) notLive hand managed
        ?_, quiet.ge, fun _ => kept'⟩, ?_⟩
      · simp [setProc]
      · simp [setProc]
      · simpa [setProc] using slot
      · intro q here
        simp [setProc, here, procs, embryo]
      · simpa [setProc, source] using top
      · intro full q usedToo
        have sameVm : filed.vm = vm := filing.vm
        by_cases here : q = np
        · simpa [setProc, here, source, sameVm] using complete
        · have stored : ∀ value, (filed.setProc np value).proc q = k.proc q := by
            simp [setProc, here, procs, embryo]
          have before : k.Used q := by simpa [Used, setProc, here, procs, embryo] using usedToo
          rw [stored]
          simp only [setProc, sameVm]
          refine (keeps.complete early.owned before.live ?_).mpr (sameEarly.full full q before)
          rintro rfl
          exact notLive before.live

end

/-! ## `exit` and `wait` -/

/-- A process that exits keeps its pages. -/
theorem exit_spec (sane : Sane layout k own) (used : k.Used p) (ran : k.exit layout p = .ok after) :
    after.vm.denied = k.vm.denied ∧
      ∃ next, Moved layout k own after next ∧ (k.Full → after.Full) := by
  unfold exit at ran
  split at ran
  · cases ran
  · obtain ⟨closed, closing, ran⟩ := of_bind_ok ran
    cases ran
    obtain ⟨states, quiet, next, moved, full⟩ := closeFiles_spec _ sane closing
    refine ⟨quiet, next, And.imp (fun last => moved.trans ⟨last, le_rfl, fun _ _ => id⟩)
      (fun fullToo whole => fullToo (full whole))
      (moved.sane.of_spaces rfl rfl rfl (fun q => ?_) fun q _ => ?_)⟩
    · by_cases here : q = p
      · simp [Used, setProc, here, states, used.2]
      · simp only [Used, setProc, update_of_ne here]
        split <;> rfl
    · by_cases here : q = p
      · simp only [setProc, here, update_self]
        split <;> simp
      · simp only [setProc, update_of_ne here]
        split <;> simp

/-- A process's stack and directory are freed and its slot is given up. -/
theorem Sane.remove_process (sane : Sane layout k own) {q : Nat} (used : k.Used q)
    (managed : layout.Managed (k.proc q).kstack)
    (releasing : (k.vm.push (k.proc q).kstack).freevm layout (k.proc q).pgdir = .ok after.vm)
    (gone : (after.proc q).state = .unused) (others : ∀ r, r ≠ q → after.proc r = k.proc r)
    (sameKernel : after.fixed = k.fixed) (sameFile : after.file = k.file) :
    after.vm.denied = k.vm.denied ∧
      ∃ next, Moved layout k own after next ∧ (k.Full → after.Full) := by
  have sameDir : after.kpgdir = k.kpgdir := congrArg Prod.fst sameKernel
  have isStack : k.held (.kstack q) = some (k.proc q).kstack := if_pos used
  have mine := (sane.owned.other _ _).mpr isStack
  have data := sane.owned.not_structural_of_held isStack
  have notUsed : ¬ after.Used q := fun still => still.2 gone
  have usedSame : ∀ r, r ≠ q → (after.Used r ↔ k.Used r) := by
    intro r differ
    simp [Used, others r differ]
  have elsewhere : ∀ page, page ≠ (k.proc q).kstack →
      (k.vm.push (k.proc q).kstack).page page = k.vm.page page := fun page apart =>
    page_push_ne k.vm apart
  have entries : ∀ {pgdir vpn}, k.Live pgdir → vpn < 1048576 →
      (k.vm.push (k.proc q).kstack).entry pgdir vpn = k.vm.entry pgdir vpn := by
    refine sane.owned.entry_structural fun page structural => elsewhere page ?_
    rintro rfl
    exact data structural
  have freed : Owned layout (k.vm.push (k.proc q).kstack) k.Live after.held
      (update own (k.proc q).kstack (some .free)) := by
    have released : Owned layout k.vm k.Live after.held
        (update own (k.proc q).kstack none) := by
      refine sane.owned.release isStack (if_neg notUsed) fun holder differ => ?_
      cases holder with
      | kstack r =>
        have same : r ≠ q := by
          rintro rfl
          exact differ rfl
        exact held_kstack (usedSame r same) fun _ => by rw [others r same]
      | cpu i => exact held_cpu sameKernel i
      | pipe page =>
        refine held_pipe (exists_congr fun f => exists_congr fun writable => ?_)
        rw [PipeEnd, PipeEnd, sameFile]
    have pushed := released.push (update_self _ _ _) managed
    rwa [update_idem] at pushed
  obtain ⟨next, owned, keeps, kept, denied, -⟩ := freevm_spec freed used.live releasing
  have otherDir : ∀ r, k.Used r → r ≠ q → (k.proc r).pgdir ≠ (k.proc q).pgdir :=
    fun r usedToo differ sameDir => differ (sane.distinct r q usedToo used sameDir)
  have live : after.Live = fun other => k.Live other ∧ other ≠ (k.proc q).pgdir := by
    funext other
    refine propext ⟨?_, ?_⟩
    · rintro (rfl | ⟨r, usedToo, rfl⟩)
      · exact ⟨Or.inl sameDir, sameDir ▸ (sane.apart q used).symm⟩
      · have same : r ≠ q := by
          rintro rfl
          exact notUsed usedToo
        have before := (usedSame r same).mp usedToo
        rw [others r same]
        exact ⟨before.live, otherDir r before same⟩
    · rintro ⟨rfl | ⟨r, usedToo, rfl⟩, differ⟩
      · exact Or.inl sameDir.symm
      · have same : r ≠ q := by
          rintro rfl
          exact differ rfl
        exact Or.inr ⟨r, (usedSame r same).mpr usedToo, by rw [others r same]⟩
  have old : ∀ r, after.Used r → r ≠ q ∧ k.Used r ∧ after.proc r = k.proc r := by
    intro r usedToo
    have same : r ≠ q := by
      rintro rfl
      exact notUsed usedToo
    exact ⟨same, (usedSame r same).mp usedToo, others r same⟩
  refine ⟨denied, next, ⟨⟨live ▸ owned, fun r t left right => ?_, fun r usedToo => ?_, fun r usedToo => ?_,
    sane.files.of_pages sameFile fun f page writable isEnd => ?_⟩, denied.ge,
    fun _ page isLost => (update_eq_none.mp (kept page isLost)).2⟩, fun full r usedToo => ?_⟩
  · rw [(old r left).2.2, (old t right).2.2]
    exact sane.distinct r t (old r left).2.1 (old t right).2.1
  · rw [(old r usedToo).2.2, sameDir]
    exact sane.apart r (old r usedToo).2.1
  · rw [(old r usedToo).2.2]
    exact sane.size r (old r usedToo).2.1
  · have isPipe := (sane.owned.other page (.pipe page)).mpr isEnd.held
    have apart : page ≠ (k.proc q).kstack := by
      rintro rfl
      simp [mine] at isPipe
    rw [← elsewhere page apart]
    exact (keeps.foreign page _ (by rwa [update_of_ne apart]) (by simp)
      (by simp [Belongs])).2
  · obtain ⟨same, before, isOld⟩ := old r usedToo
    rw [isOld]
    refine (keeps.complete freed before.live (otherDir r before same)).mpr fun vpn below => ?_
    rw [entries before.live (by omega)]
    exact full r before vpn below

/-- A process that waits for a zombie frees its pages. -/
theorem wait_spec (sane : Sane layout k own) (ran : k.wait layout p = .ok (some (done, after))) :
    after.vm.denied = k.vm.denied ∧
      ∃ next, Moved layout k own after next ∧ (k.Full → after.Full) := by
  unfold wait at ran
  split at ran
  · rename_i q found
    have inside : q < nproc := List.mem_range.mp (List.mem_of_find?_eq_some found)
    have zombie : (k.proc q).state = .zombie := by
      have both := List.find?_some found
      simp only [decide_eq_true_eq] at both
      exact both.2
    have used : k.Used q := ⟨inside, by simp [zombie]⟩
    obtain ⟨first, freeing, ran⟩ := of_bind_ok ran
    obtain ⟨rfl, managed⟩ := kfree_ok freeing
    obtain ⟨vm, releasing, ran⟩ := of_bind_ok ran
    cases ran
    exact sane.remove_process used managed releasing (by simp [setProc])
      (fun r differ => by simp [setProc, differ]) rfl rfl
  · split at ran
    · cases ran
      exact ⟨rfl, own, Moved.refl sane, id⟩
    · cases ran

/-! ## User code -/

/-- The contents of user pages are not part of the invariant. -/
theorem Sane.set_user_page (sane : Sane layout k own) {vpn : Nat}
    (mine : own page = some (.user pgdir vpn)) (contents : Page) :
    Moved layout k own { k with vm := k.vm.setPage page contents } own ∧
      SameProcs k { k with vm := k.vm.setPage page contents } := by
  have data : ¬ Structural own page := by
    rintro (free | dir | ⟨other, index, table⟩) <;> simp_all
  have same : SameProcs k { k with vm := k.vm.setPage page contents } := by
    refine ⟨rfl, rfl, rfl, fun pgdir vpn alive bound => sane.owned.entry_structural
      (fun other structural => page_setPage_ne _ _ ?_) alive bound⟩
    rintro rfl
    exact data structural
  refine ⟨⟨sane.of_procs same (sane.owned.setPage _ data) (sane.files.of_pages rfl
    fun f other writable isEnd => page_setPage_ne _ _ ?_), le_rfl, fun _ _ => id⟩, same⟩
  rintro rfl
  have isPipe := (sane.owned.other other (.pipe other)).mpr isEnd.held
  simp [mine] at isPipe

/-- A store by user code goes into one of the process's own pages. -/
theorem userStore_spec (sane : Sane layout k own) {va : Nat} {byte : UInt8} (used : k.Used p)
    (ran : k.userStore p va byte = some after) :
    Moved layout k own after own ∧ SameProcs k after := by
  have indices : pdx va = va / 4096 % 1048576 / 1024 ∧ ptx va = va / 4096 % 1048576 % 1024 := by
    simp only [pdx, ptx]
    omega
  unfold userStore at ran
  rw [walk_look] at ran
  cases found : k.vm.tableAt (k.proc p).pgdir (pdx va) with
  | none => simp [found] at ran
  | some pgtab =>
    simp only [found, Option.map_some] at ran
    split at ran
    · rename_i reachable
      cases ran
      obtain ⟨shown, user⟩ := Bool.and_eq_true_iff.mp reachable
      have stored : k.vm.entry (k.proc p).pgdir (va / 4096 % 1048576) =
          some (k.vm.word pgtab (ptx va)) := by
        rw [indices.1] at found
        have here := entry_of_table found (Nat.mod_lt (va / 4096 % 1048576) (show 0 < 1024 by decide))
        rwa [Nat.div_add_mod', ← indices.2, if_pos shown] at here
      have inside : va / 4096 % 1048576 < 1048576 := Nat.mod_lt _ (by decide)
      have below : va / 4096 % 1048576 < 524288 := by
        by_contra above
        have hidden := sane.owned.kernel _ _ _ used.live (by omega) inside stored
        simp [hidden] at user
      have mine := user_of_entry sane.owned used.live below stored
      exact sane.set_user_page mine _
    · cases ran

end Kernel

end Xv6
