import Xv6.Proc.Invariant

/-!
# Files and pipes

Closing a file structure keeps the invariant: the close that finds both words of a
pipe zero is the one of the last end, and only that one frees the page. Opening a
pipe gives a page from the free list to two file structures that were out of use.
-/

namespace Xv6

namespace Kernel

open Vm Function Except

variable {layout : Layout} {k after : Kernel} {own next : Places Holder}
  {f p : Nat} {writable done : Bool} {vm : Vm}

/-! ## Closing -/

theorem pipeOpen_lt (writable : Bool) : pipeOpen writable < 1024 := by
  cases writable <;> decide

theorem pipeOpen_inj {left right : Bool} : pipeOpen left = pipeOpen right ↔ left = right := by
  cases left <;> cases right <;> decide

/-- A file structure goes out of use. -/
def shut (k : Kernel) (f : Nat) : Kernel := k.setFile f { k.file f with ref := 0, type := .none }

theorem pipeEnd_shut (k : Kernel) (vm : Vm) (f g page : Nat) (writable : Bool) :
    ({ k.shut f with vm } : Kernel).PipeEnd g page writable ↔
      k.PipeEnd g page writable ∧ g ≠ f := by
  by_cases here : g = f
  · simp [PipeEnd, shut, Kernel.setFile, here]
  · simp [PipeEnd, shut, Kernel.setFile, here]

/-- After the word of the end that is closed was cleared, the words of the pipe again
say which ends are open. -/
theorem open_after_close (files : k.Files) {page : Nat} (isEnd : k.PipeEnd f page writable)
    (other : Bool) :
    (k.vm.store page (pipeOpen writable) 0).word page (pipeOpen other) ≠ 0 ↔
      ∃ g, k.PipeEnd g page other ∧ g ≠ f := by
  rw [word_store _ (pipeOpen_lt writable) (by decide)]
  by_cases same : other = writable
  · subst same
    simp only [and_self, if_true, ne_eq, not_true_eq_false, false_iff]
    rintro ⟨g, otherEnd, apart⟩
    exact apart (files.single g f page other otherEnd isEnd)
  · rw [if_neg fun both => same (pipeOpen_inj.mp both.2), files.opened f page writable isEnd other]
    refine exists_congr fun g => ⟨fun otherEnd => ⟨otherEnd, ?_⟩, And.left⟩
    rintro rfl
    exact same (otherEnd.2.2.symm.trans isEnd.2.2)

/-- The file structures after one end was closed. -/
theorem Files.shut (files : k.Files) {page : Nat} (isEnd : k.PipeEnd f page writable)
    (others : ∀ other, other ≠ page → ∀ g way, k.PipeEnd g other way →
      vm.page other = k.vm.page other)
    (here : (∃ g way, k.PipeEnd g page way ∧ g ≠ f) →
      vm.page page = (k.vm.store page (pipeOpen writable) 0).page page) :
    ({ k.shut f with vm } : Kernel).Files := by
  constructor
  · intro g unused
    by_cases same : g = f
    · simp [Kernel.shut, Kernel.setFile, same]
    · simp only [Kernel.shut, Kernel.setFile, update_of_ne same] at unused ⊢
      exact files.closed g unused
  · intro g h other way left right
    rw [pipeEnd_shut] at left right
    exact files.single g h other way left.1 right.1
  · intro g other way left third
    simp only [pipeEnd_shut] at left ⊢
    by_cases same : other = page
    · subst same
      rw [← open_after_close files isEnd third]
      rw [word_congr (here ⟨g, way, left⟩)]
    · rw [word_congr (others other same g way left.1), files.opened g other way left.1 third]
      refine exists_congr fun h => ⟨fun otherEnd => ⟨otherEnd, ?_⟩, And.left⟩
      rintro rfl
      exact same (otherEnd.2.1.symm.trans isEnd.2.1)

/-- Closing an end changes what is held only at the pipe's own page. -/
theorem held_shut {page : Nat} (isEnd : k.PipeEnd f page writable) (vm : Vm) {holder : Holder}
    (apart : holder ≠ .pipe page) :
    ({ k.shut f with vm } : Kernel).held holder = k.held holder := by
  cases holder with
  | kstack p => exact held_kstack Iff.rfl fun _ => rfl
  | cpu i => exact held_cpu rfl i
  | pipe other =>
    refine held_pipe (exists_congr fun g => exists_congr fun way => ?_)
    rw [pipeEnd_shut]
    refine ⟨And.left, fun otherEnd => ⟨otherEnd, ?_⟩⟩
    rintro rfl
    exact apart (congrArg Holder.pipe (otherEnd.2.1.symm.trans isEnd.2.1))

section

variable (sane : Sane layout k own)

include sane

/-- Closing one end of a pipe, once its file structure is out of use. -/
theorem pipeclose_spec {page : Nat} (isEnd : k.PipeEnd f page writable)
    (ran : pipeclose layout k.vm page writable = .ok vm) :
    ∃ next, Moved layout k own { k.shut f with vm } next ∧ SameProcs k { k.shut f with vm } := by
  have data := sane.owned.not_structural_of_held isEnd.held
  have stored := sane.owned.setPage ((k.vm.page page).putU32 (4 * pipeOpen writable) 0) data
  have elsewhere : ∀ other, other ≠ page →
      (k.vm.store page (pipeOpen writable) 0).page other = k.vm.page other :=
    fun other apart => page_setPage_ne _ _ apart
  have apart : ∀ other, Structural own other → other ≠ page := by
    rintro other structural rfl
    exact data structural
  have words := open_after_close sane.files isEnd
  change (if (k.vm.store page (pipeOpen writable) 0).word page (pipeOpen false) = 0 ∧
      (k.vm.store page (pipeOpen writable) 0).word page (pipeOpen true) = 0 then
      (k.vm.store page (pipeOpen writable) 0).kfree layout page
    else .ok (k.vm.store page (pipeOpen writable) 0)) = .ok vm at ran
  split at ran
  · rename_i empty
    obtain ⟨rfl, managed⟩ := kfree_ok ran
    have closed : ∀ g way, ¬ (k.PipeEnd g page way ∧ g ≠ f) := by
      intro g way left
      refine (words way).mpr ⟨g, left⟩ ?_
      cases way with
      | false => exact empty.1
      | true => exact empty.2
    have same : SameProcs k { k.shut f with
        vm := (k.vm.store page (pipeOpen writable) 0).push page } :=
      ⟨rfl, rfl, rfl, fun pgdir vpn alive inside => sane.owned.entry_structural (fun other structural => by
        rw [page_push_ne _ (apart other structural), elsewhere other (apart other structural)])
        alive inside⟩
    have gone : ({ k.shut f with vm := (k.vm.store page (pipeOpen writable) 0).push page } :
        Kernel).held (.pipe page) = none := by
      refine if_neg ?_
      rintro ⟨g, way, left⟩
      exact closed g way ((pipeEnd_shut _ _ _ _ _ _).mp left)
    have released := (stored.release isEnd.held gone fun holder differ =>
      held_shut isEnd _ differ).push (update_self _ _ _) managed
    rw [update_idem] at released
    refine ⟨_, ⟨sane.of_procs same released (sane.files.shut isEnd ?_ ?_), le_rfl,
      fun _ other isLost => (update_eq_none.mp isLost).2⟩, same⟩
    · intro other differ g way _
      rw [page_push_ne _ differ, elsewhere other differ]
    · rintro ⟨g, way, left⟩
      exact absurd left (closed g way)
  · rename_i still
    cases ran
    have same : SameProcs k { k.shut f with vm := k.vm.store page (pipeOpen writable) 0 } :=
      ⟨rfl, rfl, rfl, fun pgdir vpn alive inside => sane.owned.entry_structural (fun other structural =>
        elsewhere other (apart other structural)) alive inside⟩
    have heldSame : ({ k.shut f with vm := k.vm.store page (pipeOpen writable) 0 } :
        Kernel).held = k.held := by
      funext holder
      by_cases differ : holder = .pipe page
      · subst differ
        refine held_pipe ⟨?_, fun _ => ?_⟩
        · rintro ⟨g, way, left⟩
          exact ⟨g, way, ((pipeEnd_shut _ _ _ _ _ _).mp left).1⟩
        · simp only [pipeEnd_shut]
          by_contra none
          push Not at none
          have zero : ∀ way, (k.vm.store page (pipeOpen writable) 0).word page (pipeOpen way) = 0 := by
            intro way
            by_contra nonzero
            obtain ⟨g, left, differs⟩ := (words way).mp nonzero
            exact differs (none g way left)
          exact still ⟨zero false, zero true⟩
      · exact held_shut isEnd _ differ
    refine ⟨own, ⟨sane.of_procs same (heldSame ▸ stored) (sane.files.shut isEnd ?_ ?_), le_rfl,
      fun _ _ => id⟩, same⟩
    · exact fun other differ _ _ _ => elsewhere other differ
    · exact fun _ => rfl

/-- Closing a file. -/
theorem fileclose_spec (ran : k.fileclose layout f = .ok after) :
    ∃ next, Moved layout k own after next ∧ SameProcs k after := by
  unfold fileclose at ran
  simp only at ran
  split at ran
  · cases ran
  · rename_i referenced
    split at ran
    · cases ran
      obtain ⟨still, same⟩ := sane.setFile f
        { k.file f with ref := (k.file f).ref - 1 }
        (fun page writable => by simp [PipeEnd, Kernel.setFile]) (by simp; omega)
      exact ⟨own, ⟨still, le_rfl, fun _ _ => id⟩, same⟩
    · split at ran
      · rename_i isPipe
        obtain ⟨vm, closing, ran⟩ := of_bind_ok ran
        cases ran
        exact pipeclose_spec sane ⟨isPipe, rfl, rfl⟩ closing
      · rename_i notPipe
        cases ran
        obtain ⟨still, same⟩ := sane.setFile f
          { k.file f with ref := 0, type := .none }
          (fun page writable => by simp [PipeEnd, Kernel.setFile, notPipe]) (fun _ => rfl)
        exact ⟨own, ⟨still, le_rfl, fun _ _ => id⟩, same⟩

/-- Processes in use that differ in other fields than their directory, stack and size. -/
theorem Sane.of_spaces (sameVm : after.vm = k.vm)
    (sameKernel : after.fixed = k.fixed) (sameFile : after.file = k.file)
    (sameUsed : ∀ p, after.Used p ↔ k.Used p)
    (same : ∀ p, k.Used p → (after.proc p).pgdir = (k.proc p).pgdir ∧
      (after.proc p).kstack = (k.proc p).kstack ∧ (after.proc p).sz = (k.proc p).sz) :
    Sane layout after own ∧ (k.Full → after.Full) := by
  have sameLive : after.Live = k.Live :=
    live_congr sameKernel sameUsed fun p used => (same p used).1
  have sameHeld : after.held = k.held := by
    refine held_congr sameKernel sameUsed (fun p used => (same p used).2.1) fun f page writable => ?_
    rw [PipeEnd, PipeEnd, sameFile]
  refine ⟨⟨?_, fun p q left right => ?_, fun p used => ?_, fun p used => ?_, ?_⟩, fun full p used => ?_⟩
  · rw [sameVm, sameLive, sameHeld]
    exact sane.owned
  · have one := (sameUsed p).mp left
    have two := (sameUsed q).mp right
    rw [(same p one).1, (same q two).1]
    exact sane.distinct p q one two
  · have before := (sameUsed p).mp used
    rw [(same p before).1, show after.kpgdir = k.kpgdir from congrArg Prod.fst sameKernel]
    exact sane.apart p before
  · have before := (sameUsed p).mp used
    rw [(same p before).2.2]
    exact sane.size p before
  · exact sane.files.of_pages sameFile fun _ _ _ _ => by rw [sameVm]
  · have before := (sameUsed p).mp used
    rw [(same p before).1, (same p before).2.2, sameVm]
    exact full p before

/-- The descriptors of a process are not part of the invariant. -/
theorem Sane.set_ofile (p : Nat) (ofile : Nat → Option Nat) :
    Sane layout (k.setProc p { k.proc p with ofile }) own ∧
      (k.Full → (k.setProc p { k.proc p with ofile }).Full) := by
  refine sane.of_spaces rfl rfl rfl (fun q => ?_) fun q _ => ?_
  · by_cases same : q = p <;> simp [Used, setProc, same]
  · by_cases same : q = p <;> simp [setProc, same]

/-- `sys_close`. -/
theorem sysClose_spec {fd : Nat} (ran : k.sysClose layout p fd = .ok (done, after)) :
    after.vm.denied = k.vm.denied ∧
      ∃ next, Moved layout k own after next ∧ (k.Full → after.Full) := by
  unfold sysClose at ran
  split at ran
  · cases ran
    exact ⟨rfl, own, Moved.refl sane, id⟩
  · split at ran
    · cases ran
      exact ⟨rfl, own, Moved.refl sane, id⟩
    · rename_i f _
      obtain ⟨closed, closing, ran⟩ := of_bind_ok ran
      cases ran
      obtain ⟨cleared, full⟩ := sane.set_ofile p (update (k.proc p).ofile fd none)
      obtain ⟨next, moved, same⟩ := fileclose_spec cleared closing
      exact ⟨same.denied, next, ⟨moved.sane, moved.rising, moved.kept⟩, fun whole => same.full (full whole)⟩

end

/-- The loop of `exit` over the open files. -/
theorem closeFiles_spec (fds : List Nat) :
    ∀ {k : Kernel} {own : Places Holder}, Sane layout k own →
      k.closeFiles layout p fds = .ok after →
      (∀ q, (after.proc q).state = (k.proc q).state) ∧ after.vm.denied = k.vm.denied ∧
        ∃ next, Moved layout k own after next ∧ (k.Full → after.Full) := by
  induction fds with
  | nil =>
    intro k own sane ran
    cases ran
    exact ⟨fun _ => rfl, rfl, own, Moved.refl sane, id⟩
  | cons fd rest ih =>
    intro k own sane ran
    rw [closeFiles] at ran
    split at ran
    · exact ih sane ran
    · rename_i f _
      obtain ⟨closed, closing, ran⟩ := of_bind_ok ran
      obtain ⟨between, moved, same⟩ := fileclose_spec sane closing
      obtain ⟨cleared, full⟩ := moved.sane.set_ofile p
        (update (closed.proc p).ofile fd none)
      obtain ⟨states, quiet, next, last, whole⟩ := ih cleared ran
      refine ⟨fun q => ?_, quiet.trans same.denied, next, moved.trans ⟨last.sane, last.rising, last.kept⟩,
        fun before => whole (full (same.full before))⟩
      rw [states q, ← same.procs]
      by_cases here : q = p <;> simp [setProc, here]

/-! ## Opening -/

/-- Only reference counts of files changed, and none became zero. -/
structure Referenced (k after : Kernel) : Prop where
  vm : after.vm = k.vm
  kernel : after.fixed = k.fixed
  procs : after.proc = k.proc
  ends : ∀ f page writable, after.PipeEnd f page writable ↔ k.PipeEnd f page writable
  closed : (∀ f, (k.file f).ref = 0 → (k.file f).type = .none) →
    ∀ f, (after.file f).ref = 0 → (after.file f).type = .none

/-- Taking one more reference to a file structure. -/
theorem filedup_spec (ran : k.filedup f = .ok after) : Referenced k after := by
  unfold filedup at ran
  split at ran
  · cases ran
  · cases ran
    refine ⟨rfl, rfl, rfl, fun g page writable => ?_, fun closed g unused => ?_⟩
    · by_cases here : g = f <;> simp [PipeEnd, Kernel.setFile, here]
    · by_cases here : g = f
      · simp [Kernel.setFile, here] at unused
      · simp only [Kernel.setFile, update_of_ne here] at unused ⊢
        exact closed g unused

/-- The loop of `fork` over the open files. -/
theorem dupFiles_spec {ofile : Nat → Option Nat} (fds : List Nat) :
    ∀ {k : Kernel}, k.dupFiles ofile fds = .ok after → Referenced k after := by
  induction fds with
  | nil =>
    intro k ran
    cases ran
    exact ⟨rfl, rfl, rfl, fun _ _ _ => Iff.rfl, id⟩
  | cons fd rest ih =>
    intro k ran
    rw [dupFiles] at ran
    split at ran
    · exact ih ran
    · rename_i f _
      obtain ⟨middle, duplicating, ran⟩ := of_bind_ok ran
      have first := filedup_spec duplicating
      have second := ih ran
      exact ⟨second.vm.trans first.vm, second.kernel.trans first.kernel,
        second.procs.trans first.procs,
        fun g page writable => (second.ends g page writable).trans (first.ends g page writable),
        fun closed => second.closed (first.closed closed)⟩

/-- A new file structure is no end of a pipe yet. -/
theorem filealloc_spec (sane : Sane layout k own) (ran : k.filealloc = (some f, after)) :
    after = k.setFile f { k.file f with ref := 1 } ∧ (k.file f).ref = 0 ∧
      Sane layout after own ∧ SameProcs k after := by
  unfold filealloc at ran
  split at ran
  · cases ran
  · rename_i g found
    cases ran
    have unused : (k.file f).ref = 0 := by simpa using List.find?_some found
    obtain ⟨still, same⟩ := sane.setFile f { k.file f with ref := 1 }
      (fun page writable => by simp [PipeEnd, Kernel.setFile]) (by simp)
    exact ⟨rfl, unused, still, same⟩

/-- The page of a new pipe with the stores of `pipealloc`. -/
def pipePage (vm : Vm) (pipe : Nat) : Vm :=
  (((vm.store pipe pipeReadopen 1).store pipe pipeWriteopen 1).store pipe pipeNwrite 0).store pipe
    pipeNread 0

theorem pipePage_ne (vm : Vm) {pipe page : Nat} (apart : page ≠ pipe) :
    (pipePage vm pipe).page page = vm.page page := by
  simp only [pipePage, store, page_setPage_ne _ _ apart]

theorem pipePage_open (vm : Vm) (pipe : Nat) (writable : Bool) :
    (pipePage vm pipe).word pipe (pipeOpen writable) = 1 := by
  have small : ∀ {index : Nat}, index < 1024 → ∀ {value : Nat}, value < 2 ^ 32 → ∀ m : Vm, ∀ place,
      (m.store pipe index value).word pipe place = if place = index then value
        else m.word pipe place := by
    intro index inside value fits m place
    rw [word_store m inside fits]
    simp
  simp only [pipePage, small (show pipeNread < 1024 by decide) (show 0 < 2 ^ 32 by decide),
    small (show pipeNwrite < 1024 by decide) (show 0 < 2 ^ 32 by decide),
    small (show pipeWriteopen < 1024 by decide) (show 1 < 2 ^ 32 by decide),
    small (show pipeReadopen < 1024 by decide) (show 1 < 2 ^ 32 by decide)]
  cases writable <;> rfl

/-- The two file structures of a new pipe. -/
def setPipe (k : Kernel) (f0 f1 pipe : Nat) : Kernel :=
  let k := k.setFile f0 { k.file f0 with type := .pipe, readable := true, writable := false, pipe }
  k.setFile f1 { k.file f1 with type := .pipe, readable := false, writable := true, pipe }

theorem pipeEnd_setPipe {f0 f1 pipe : Nat} (differ : f1 ≠ f0) (g page : Nat) (writable : Bool) :
    (k.setPipe f0 f1 pipe).PipeEnd g page writable ↔
      (g = f0 ∧ writable = false ∨ g = f1 ∧ writable = true) ∧ pipe = page ∨
        g ≠ f0 ∧ g ≠ f1 ∧ k.PipeEnd g page writable := by
  by_cases second : g = f1
  · subst second
    simp [PipeEnd, setPipe, Kernel.setFile, differ, and_comm, eq_comm]
  · by_cases first : g = f0
    · subst first
      simp [PipeEnd, setPipe, Kernel.setFile, second, and_comm, eq_comm]
    · simp [PipeEnd, setPipe, Kernel.setFile, first, second]

section

variable (sane : Sane layout k own)

include sane

/-- A page from the free list becomes a pipe. -/
theorem setPipe_spec {f0 f1 pipe : Nat} {taken : Vm} (differ : f1 ≠ f0)
    (new0 : (k.file f0).type = .none ∧ (k.file f0).ref ≠ 0)
    (new1 : (k.file f1).type = .none ∧ (k.file f1).ref ≠ 0)
    (asked : k.vm.kalloc = (some pipe, taken)) :
    ∃ next, Moved layout k own ({ k with vm := pipePage taken pipe }.setPipe f0 f1 pipe) next ∧
      SameProcs k ({ k with vm := pipePage taken pipe }.setPipe f0 f1 pipe) := by
  obtain ⟨isFree, pages, denied, torn, taking⟩ := sane.owned.kalloc_some asked
  have hand : ∀ {m : Vm}, Owned layout m k.Live k.held (update own pipe none) →
      ∀ index value, Owned layout (m.store pipe index value) k.Live k.held
        (update own pipe none) := fun owned index value =>
    owned.setPage _ (Owned.not_structural_of_none (update_self _ _ _))
  have filled : Owned layout (pipePage taken pipe) k.Live k.held (update own pipe none) :=
    hand (hand (hand (hand taking _ _) _ _) _ _) _ _
  have noEnd : ∀ g writable, ¬ k.PipeEnd g pipe writable := by
    intro g writable isEnd
    have mine := (sane.owned.other pipe (.pipe pipe)).mpr isEnd.held
    simp [isFree] at mine
  have fresh : k.held (.pipe pipe) = none := by
    refine if_neg ?_
    rintro ⟨g, writable, isEnd⟩
    exact noEnd g writable isEnd
  have ends := @pipeEnd_setPipe { k with vm := pipePage taken pipe } f0 f1 pipe differ
  have others : ∀ g page writable, k.PipeEnd g page writable → g ≠ f0 ∧ g ≠ f1 := by
    intro g page writable isEnd
    constructor
    · rintro rfl
      simp [PipeEnd, new0.1] at isEnd
    · rintro rfl
      simp [PipeEnd, new1.1] at isEnd
  have pageSame : ∀ page, page ≠ pipe → (pipePage taken pipe).page page = k.vm.page page := by
    intro page apart
    rw [pipePage_ne taken apart, pages]
  have same : SameProcs k ({ k with vm := pipePage taken pipe }.setPipe f0 f1 pipe) := by
    refine ⟨rfl, rfl, denied, fun pgdir vpn alive inside => ?_⟩
    rw [← entry_of_page pages]
    refine taking.entry_structural (fun page structural => pipePage_ne taken ?_) alive inside
    rintro rfl
    exact Owned.not_structural_of_none (update_self _ _ _) structural
  have given : ({ k with vm := pipePage taken pipe }.setPipe f0 f1 pipe).held (.pipe pipe) =
      some pipe := if_pos ⟨f0, false, (ends _ _ _).mpr (Or.inl ⟨Or.inl ⟨rfl, rfl⟩, rfl⟩)⟩
  have elsewhere : ∀ holder, holder ≠ .pipe pipe →
      ({ k with vm := pipePage taken pipe }.setPipe f0 f1 pipe).held holder = k.held holder := by
    intro holder apart
    cases holder with
    | kstack p => exact held_kstack Iff.rfl fun _ => rfl
    | cpu i => exact held_cpu rfl i
    | pipe page =>
      refine held_pipe (exists_congr fun g => exists_congr fun writable => ?_)
      rw [ends]
      constructor
      · rintro (⟨-, rfl⟩ | ⟨-, -, isEnd⟩)
        · exact absurd rfl apart
        · exact isEnd
      · intro isEnd
        obtain ⟨not0, not1⟩ := others g page writable isEnd
        exact Or.inr ⟨not0, not1, isEnd⟩
  have files : ({ k with vm := pipePage taken pipe }.setPipe f0 f1 pipe).Files := by
    constructor
    · intro g unused
      by_cases second : g = f1
      · subst second
        simp [setPipe, Kernel.setFile, differ, new1.2] at unused
      · by_cases first : g = f0
        · subst first
          simp [setPipe, Kernel.setFile, second, new0.2] at unused
        · simp only [setPipe, Kernel.setFile, update_of_ne second,
            update_of_ne first] at unused ⊢
          exact sane.files.closed g unused
    · intro g h page writable left right
      rw [ends] at left right
      rcases left with ⟨new, rfl⟩ | ⟨-, -, old⟩
      · rcases right with ⟨newToo, -⟩ | ⟨-, -, oldToo⟩
        · rcases new with ⟨rfl, rfl⟩ | ⟨rfl, rfl⟩ <;> simpa [eq_comm] using newToo
        · exact absurd oldToo (noEnd h writable)
      · rcases right with ⟨-, rfl⟩ | ⟨-, -, oldToo⟩
        · exact absurd old (noEnd g writable)
        · exact sane.files.single g h page writable old oldToo
    · intro g page writable left other
      rw [ends] at left
      simp only [ends]
      rcases left with ⟨-, rfl⟩ | ⟨-, -, old⟩
      · have isOne : (pipePage taken pipe).word pipe (pipeOpen other) = 1 :=
          pipePage_open taken pipe other
        refine iff_of_true (fun zero => absurd (isOne.symm.trans zero) (by decide)) ?_
        cases other with
        | false => exact ⟨f0, Or.inl ⟨Or.inl ⟨rfl, rfl⟩, rfl⟩⟩
        | true => exact ⟨f1, Or.inl ⟨Or.inr ⟨rfl, rfl⟩, rfl⟩⟩
      · have apart : page ≠ pipe := by
          rintro rfl
          exact noEnd g writable old
        have words : (pipePage taken pipe).word page = k.vm.word page :=
          word_congr (pageSame page apart)
        refine Iff.trans (by rw [← words]; rfl) ((sane.files.opened g page writable old other).trans
          (exists_congr fun h => ⟨fun isEnd => ?_, ?_⟩))
        · obtain ⟨not0, not1⟩ := others h page other isEnd
          exact Or.inr ⟨not0, not1, isEnd⟩
        · rintro (⟨-, rfl⟩ | ⟨-, -, isEnd⟩)
          · exact absurd rfl apart
          · exact isEnd
  have holding := filled.hold (update_self _ _ _) (sane.owned.managed isFree) fresh given
    elsewhere
  rw [update_idem] at holding
  exact ⟨_, ⟨sane.of_procs same holding files, denied.ge, fun _ page isLost =>
    (update_eq_none.mp isLost).2⟩, same⟩

/-- A failed `kalloc` leaves the kernel as it was. -/
theorem Sane.kalloc_none (asked : k.vm.kalloc = (none, vm)) :
    Moved layout k own { k with vm } own ∧ SameProcs k { k with vm } := by
  obtain ⟨pages, denied, -, still⟩ := sane.owned.kalloc_none asked
  have same : SameProcs k { k with vm } :=
    ⟨rfl, rfl, denied, fun pgdir vpn _ _ => congrFun (congrFun (entry_of_page pages) pgdir) vpn⟩
  exact ⟨⟨sane.of_procs same still (sane.files.of_pages rfl fun _ page _ _ => congrFun pages page),
    denied.ge, fun _ _ => id⟩, same⟩

/-- Opening a pipe. -/
theorem pipealloc_spec {ends : Option (Nat × Nat)} (ran : k.pipealloc layout = .ok (ends, after)) :
    ∃ next, Moved layout k own after next ∧ SameProcs k after := by
  unfold pipealloc at ran
  rcases first : k.filealloc with ⟨_ | f0, one⟩
  · rw [first] at ran
    cases ran
    obtain rfl : after = k := by
      unfold filealloc at first
      split at first <;> simp_all
    exact ⟨own, Moved.refl sane, ⟨rfl, rfl, rfl, fun _ _ _ _ => rfl⟩⟩
  · rw [first] at ran
    obtain ⟨is0, unused0, sane0, same0⟩ := filealloc_spec sane first
    have moved0 : Moved layout k own one own := ⟨sane0, by rw [is0]; exact le_rfl, fun _ _ => id⟩
    simp only at ran
    rcases second : one.filealloc with ⟨_ | f1, two⟩
    · rw [second] at ran
      obtain rfl : two = one := by
        unfold filealloc at second
        split at second <;> simp_all
      obtain ⟨closed, closing, ran⟩ := of_bind_ok ran
      cases ran
      obtain ⟨next, moved, same⟩ := fileclose_spec sane0 closing
      exact ⟨next, moved0.trans moved, same0.trans same⟩
    · rw [second] at ran
      obtain ⟨is1, unused1, sane1, same1⟩ := filealloc_spec sane0 second
      have moved1 : Moved layout k own two own :=
        moved0.trans ⟨sane1, by rw [is1]; exact le_rfl, fun _ _ => id⟩
      have sameToo := same0.trans same1
      simp only at ran
      rcases asked : two.vm.kalloc with ⟨_ | pipe, taken⟩
      · rw [asked] at ran
        obtain ⟨still, sameStill⟩ := sane1.kalloc_none asked
        obtain ⟨three, closing, ran⟩ := of_bind_ok ran
        obtain ⟨between, closed0, same2⟩ := fileclose_spec still.sane closing
        obtain ⟨four, closing, ran⟩ := of_bind_ok ran
        cases ran
        obtain ⟨next, closed1, same3⟩ := fileclose_spec closed0.sane closing
        exact ⟨next, moved1.trans (still.trans (closed0.trans closed1)),
          sameToo.trans (sameStill.trans (same2.trans same3))⟩
      · rw [asked] at ran
        cases ran
        have differ : f1 ≠ f0 := by
          rintro rfl
          simp [is0, Kernel.setFile] at unused1
        have type0 := sane.files.closed f0 unused0
        have type1 := sane0.files.closed f1 unused1
        obtain ⟨next, moved, same⟩ := setPipe_spec sane1 differ
          (by simp [is1, is0, Kernel.setFile, differ.symm, type0])
          (by simp [is1, Kernel.setFile, type1]) asked
        exact ⟨next, moved1.trans moved, sameToo.trans same⟩

/-- Giving a process a descriptor. -/
theorem fdalloc_spec {fd : Option Nat} (ran : k.fdalloc p f = (fd, after)) :
    after.vm.denied = k.vm.denied ∧ Moved layout k own after own ∧ (k.Full → after.Full) := by
  unfold fdalloc at ran
  split at ran
  · cases ran
    exact ⟨rfl, Moved.refl sane, id⟩
  · cases ran
    obtain ⟨still, full⟩ := sane.set_ofile p (update (k.proc p).ofile _ (some f))
    exact ⟨rfl, ⟨still, le_rfl, fun _ _ => id⟩, full⟩

/-- `sys_pipe`. -/
theorem sysPipe_spec (ran : k.sysPipe layout p = .ok (done, after)) :
    after.vm.denied = k.vm.denied ∧
      ∃ next, Moved layout k own after next ∧ (k.Full → after.Full) := by
  obtain ⟨⟨ends, opened⟩, opening, ran⟩ := of_bind_ok ran
  obtain ⟨first, moved, same⟩ := pipealloc_spec sane opening
  have closeBoth : ∀ {start : Kernel} {rf wf : Nat}, Moved layout k own start first →
      start.vm.denied = k.vm.denied → (k.Full → start.Full) →
      (do
        let k ← start.fileclose layout rf
        let k ← k.fileclose layout wf
        (.ok (false, k) : Except String (Bool × Kernel))) = .ok (done, after) →
      after.vm.denied = k.vm.denied ∧
        ∃ next, Moved layout k own after next ∧ (k.Full → after.Full) := by
    intro start rf wf early quiet full ran
    obtain ⟨one, closing, ran⟩ := of_bind_ok ran
    obtain ⟨between, closed0, same0⟩ := fileclose_spec early.sane closing
    obtain ⟨two, closing, ran⟩ := of_bind_ok ran
    obtain ⟨next, closed1, same1⟩ := fileclose_spec closed0.sane closing
    cases ran
    exact ⟨same1.denied.trans (same0.denied.trans quiet), next,
      early.trans (closed0.trans closed1), fun whole => same1.full (same0.full (full whole))⟩
  cases ends with
  | none =>
    cases ran
    exact ⟨same.denied, first, moved, same.full⟩
  | some both =>
    obtain ⟨rf, wf⟩ := both
    simp only at ran
    rcases allocating : opened.fdalloc p rf with ⟨_ | fd0, one⟩
    · rw [allocating] at ran
      obtain ⟨quiet, early, full⟩ := fdalloc_spec moved.sane allocating
      exact closeBoth (moved.trans early) (quiet.trans same.denied) (fun whole => full (same.full whole)) ran
    · rw [allocating] at ran
      obtain ⟨quiet, early, full⟩ := fdalloc_spec moved.sane allocating
      simp only at ran
      rcases allocatingToo : one.fdalloc p wf with ⟨_ | fd1, two⟩
      · rw [allocatingToo] at ran
        obtain ⟨quietToo, middle, fullToo⟩ := fdalloc_spec early.sane allocatingToo
        obtain ⟨cleared, still⟩ := middle.sane.set_ofile p
          (update (two.proc p).ofile fd0 none)
        exact closeBoth (moved.trans (early.trans (middle.trans
          ⟨cleared, le_rfl, fun _ _ => id⟩))) (quietToo.trans (quiet.trans same.denied))
          (fun whole => still (fullToo (full (same.full whole)))) ran
      · rw [allocatingToo] at ran
        cases ran
        obtain ⟨quietToo, middle, fullToo⟩ := fdalloc_spec early.sane allocatingToo
        exact ⟨quietToo.trans (quiet.trans same.denied), first, moved.trans (early.trans middle),
          fun whole => fullToo (full (same.full whole))⟩

end

end Kernel

end Xv6
