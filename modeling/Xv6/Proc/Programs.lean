import Xv6.Proc.Isolation

/-!
# `exec` confines what a program file can do

Whether `exec` comes to an end and all that it loads goes to pages it has just
allocated for the user part of the new directory is decided by the program headers
alone, as long as the arguments fit and no page table is denied unnoticed.

Two kinds of header are not confined. The end of a segment can wrap around, so that
`allocuvm` is content with it while `loaduvm` follows its start into the kernel's part
of the directory. And the start of a segment may not be on a page boundary: nothing
looks at it before `loaduvm`, which panics.
-/

namespace Xv6

open Vm

variable {layout : Layout} {p : Nat} {vaddr : UInt8}

/-- The arguments fit on the stack of the program, when the file is good. -/
def ArgumentsFit (file : Option Image) (argv : List (List UInt8)) : Bool :=
  match programOf file with
  | none => true
  | some (ip, elf) =>
    match (segmentRequests ip elf.phnum elf.phoff 0).2 with
    | none => true
    | some sz => argsFit (pgroundup sz + pgsize) (pgroundup sz + 2 * pgsize) argv

/-- A file confines what loading it does, with some pages free and some calls of `kalloc`
refused: it is no program, or there is no page directory for it, or each of its segments
that is loaded is aligned and confined. -/
def Confines (file : Option Image) (refuse : Nat → Bool) (free : Nat) : Bool :=
  match programOf file with
  | none => true
  | some (ip, elf) =>
    if forecast refuse setupRequests 0 free ≠ none then true
    else
      segmentsConfined refuse ip elf.phnum elf.phoff 0 setupRequests.length
        (free - setupRequests.length)

namespace Kernel

variable {k : Kernel} {own next : Places Holder} {pgdir : Nat} {vm : Vm}
  {file : Option Image} {ip : Image} {elf : Elfhdr} {argv : List (List UInt8)}

/-- A page that the new directory maps for its user was free when `exec` began. -/
theorem Building.free_before {vpn pte : Nat} {later : Vm}
    (building : Building layout k own pgdir vm next) (sane : Sane layout k own)
    (reached : Reached layout (fun other => k.Live other ∨ other = pgdir) k.held pgdir vm next later)
    (user : vpn < 524288) (stored : later.entry pgdir vpn = some pte) :
    own (frame pte) = some .free := by
  obtain ⟨last, owned, keeps⟩ := reached
  have mine := user_of_entry owned (Or.inr rfl) user stored
  have whole := building.keeps.trans keeps
  have fresh := building.not_live sane
  cases before : own (frame pte) with
  | none =>
    have gone := (whole.hand _ before).1
    rw [mine] at gone
    cases gone
  | some place =>
    by_contra used
    have apart : ¬ Belongs pgdir (frame pte) place := by
      intro belongs
      cases place with
      | free => exact belongs
      | dir =>
        rw [show frame pte = pgdir from belongs] at before
        exact fresh ((sane.owned.dir _).mp before)
      | table owner index =>
        rw [show owner = pgdir from belongs] at before
        exact fresh ((sane.owned.table _ _ _).mp before).1
      | user owner page =>
        rw [show owner = pgdir from belongs] at before
        exact fresh ((sane.owned.user _ _ _).mp before).1
      | other holder => exact belongs
    have still := (whole.foreign _ _ before (fun isFree => used (isFree ▸ rfl)) apart).1
    rw [mine] at still
    cases still
    exact apart rfl

/-- Once the segments are loaded `exec` comes to an end. -/
theorem exec_loaded {loaded : Vm} {result : Option Nat} (used : k.Used p)
    (valid : programOf file = some (ip, elf))
    (setting : k.vm.setupkvm layout = .ok (some pgdir, vm))
    (loading : (loadSegments layout ip pgdir elf.phnum vm elf.phoff 0).result = .ok (result, loaded))
    (reached : Reached layout (fun other => k.Live other ∨ other = pgdir) k.held pgdir vm next loaded)
    (stacking : ∀ size, result = some size → ∃ final built, loaded.buildStack layout (k.proc p).pgdir
      pgdir size argv = .ok (final, built) ∧
      Reached layout (fun other => k.Live other ∨ other = pgdir) k.held pgdir vm next built) :
    ∃ answer, k.exec layout p file argv = .ok answer := by
  unfold exec
  simp only [valid, setting, loading, bind, Except.bind]
  cases result with
  | none =>
    obtain ⟨last, owned, -⟩ := reached
    obtain ⟨freed, freeing⟩ := freevm_ok owned (Or.inr rfl)
    simp only [freeing]
    exact ⟨_, rfl⟩
  | some size =>
    obtain ⟨final, built, building, last, owned, -⟩ := stacking size rfl
    simp only [building]
    cases final with
    | none =>
      obtain ⟨freed, freeing⟩ := freevm_ok owned (Or.inr rfl)
      simp only [freeing]
      exact ⟨_, rfl⟩
    | some final =>
      obtain ⟨freed, freeing⟩ := freevm_ok owned (Or.inl used.live)
      simp only [freeing]
      exact ⟨_, rfl⟩

/-- The same for a program whose directory is set up. -/
theorem Sane.program_confined (sane : Sane layout k own) {segments : List Request × Option Nat}
    (used : k.Used p) (valid : programOf file = some (ip, elf))
    (setting : k.vm.setupkvm layout = .ok (some pgdir, vm))
    (asks : segmentRequests ip elf.phnum elf.phoff 0 = segments)
    (fit : ∀ size, segments.2 = some size →
      argsFit (pgroundup size + pgsize) (pgroundup size + 2 * pgsize) argv = true)
    (loud : vm.foresee (segments.1 ++ stackRequests segments.2) ≠ some .silent) :
    ((∃ answer, k.exec layout p file argv = .ok answer) ∧
      ∀ write ∈ k.execWrites layout file, write.InUser ∧ own write.page = some .free) ↔
    segmentsConfined vm.refuse ip elf.phnum elf.phoff 0 vm.tick vm.free = true := by
  obtain ⟨next, building, ready⟩ := sane.setup_ready setting
  have loads := loadSegments_confined elf.phnum ready (asks ▸ foresee_first loud)
  have writes : k.execWrites layout file =
      (loadSegments layout ip pgdir elf.phnum vm elf.phoff 0).events := by
    simp only [execWrites, valid, setting]
  rw [writes]
  constructor
  · rintro ⟨⟨answer, ran⟩, good⟩
    refine loads.stores.exact_when.mp ⟨?_, fun write member => (good write member).1⟩
    unfold exec at ran
    simp only [valid, setting, bind, Except.bind] at ran
    split at ran
    · cases ran
    · rename_i result loading
      exact ⟨result, loading⟩
  · intro confined
    obtain ⟨⟨⟨result, loaded⟩, loading⟩, good⟩ := loads.stores.exact_when.mpr confined
    obtain ⟨reached, ending⟩ := loads.after confined result loaded loading
    refine ⟨exec_loaded used valid setting loading reached fun size isSize => ?_,
      fun write member => ⟨good write member, ?_⟩⟩
    · obtain ⟨same, served, through, last, readyToo, keeps⟩ := ending size isSize
      rw [asks] at same served through
      rw [served.foresee through, same] at loud
      obtain ⟨final, built, ran, builds⟩ := buildStack_builds (k.proc p).pgdir readyToo loud
        (fit size same)
      exact ⟨final, built, ran, builds.reached.trans keeps⟩
    · obtain ⟨directory, reachedToo⟩ := loads.stores.during confined write member
      obtain ⟨low, pte, stored, isPage⟩ := good write member
      rw [directory] at stored
      rw [← isPage]
      refine building.free_before sane reachedToo ?_ stored
      rw [kernbase_eq] at low
      rw [pgsize_eq]
      omega

/-- Whether `exec` comes to an end and stores what it loads in pages that were free when
it began and that the new directory maps for its user, is decided by the file. -/
theorem Sane.exec_exact (sane : Sane layout k own) (used : k.Used p)
    (early : k.vm.tick = 0) (fit : ArgumentsFit file argv = true)
    (loud : k.vm.foresee (execRequests file) ≠ some .silent) :
    ((∃ answer, k.exec layout p file argv = .ok answer) ∧
      ∀ write ∈ k.execWrites layout file, write.InUser ∧ own write.page = some .free) ↔
    Confines file k.vm.refuse k.vm.free = true := by
  unfold Confines
  unfold ArgumentsFit at fit
  unfold execRequests at loud
  cases valid : programOf file with
  | none =>
    refine iff_of_true ⟨⟨(false, k), ?_⟩, ?_⟩ rfl
    · simp only [exec, valid]
    · simp [execWrites, valid]
  | some program =>
    obtain ⟨ip, elf⟩ := program
    rw [valid] at fit loud
    dsimp only at fit loud ⊢
    obtain ⟨answer, vm, setting⟩ := setupkvm_ok sane.owned
    have asked := (setupkvm_asked sane.owned setting).1
    cases answer with
    | none =>
      have fails : k.vm.foresee setupRequests ≠ none := fun through =>
        (asked.served through).1 rfl
      rw [Vm.foresee, early] at fails
      rw [if_pos fails]
      refine iff_of_true ⟨⟨(false, { k with vm }), ?_⟩, ?_⟩ rfl
      · simp only [exec, valid, setting, bind, Except.bind]
      · simp [execWrites, valid, setting]
    | some pgdir =>
      obtain ⟨through, -, served⟩ :=
        (asked.outcome (foresee_first loud)).2.resolve_right (by rintro ⟨⟩)
      rw [served.foresee through] at loud
      rw [sane.program_confined used valid setting rfl (fun size isSize => ?_) loud,
        served.refuse, served.tick, served.free, early, Nat.zero_add]
      · rw [Vm.foresee, early] at through
        rw [if_neg (not_not.mpr through)]
      · rw [isSize] at fit
        exact fit

/-- In every state of a run of contained steps, for every file: `exec` returns, and all
that loading the program stores goes to user pages of the new directory that were free
when it began, exactly when the file is confined. -/
theorem exec_confined {ncpu : Nat} {page : Nat → Page} {initcode : List UInt8}
    {refuse denies : Nat → Bool} {first : Kernel} {steps : List Step}
    (booted : main layout ncpu page initcode refuse = .ok first)
    (contained : Runs.Meets (step layout) Contained first steps)
    (ran : first.run layout steps = some k) {p : Nat} {file : Option Image}
    {argv : List (List UInt8)} (able : p < nproc ∧ (k.proc p).state = .runnable)
    (fit : ArgumentsFit file argv = true)
    (loud : k.foresee ⟨p, .exec file argv, denies⟩ ≠ some .silent) :
    ((∃ done after, (k.enter denies).exec layout p file argv = .ok (done, after)) ∧
      ∀ write ∈ (k.enter denies).execWrites layout file,
        write.InUser ∧ ∃ position, k.Owns write.page (.free position)) ↔
    Confines file denies k.vm.free = true := by
  obtain ⟨owners, sane, -⟩ := main_spec booted
  obtain ⟨own, sane⟩ := run_sane ⟨owners, sane⟩ contained ran
  obtain ⟨started, -⟩ := sane.enter denies
  obtain ⟨pages, -, positions, free⟩ := sane.freeAt
  have used : (k.enter denies).Used p := ⟨able.1, fun unused => by
    have state : (k.proc p).state = .unused := unused
    rw [able.2] at state
    cases state⟩
  have isFree : ∀ page, own page = some .free ↔ ∃ position, k.Owns page (.free position) := by
    intro page
    rw [free page, List.mem_iff_getElem?]
    exact exists_congr fun position => by rw [Owns, positions position]
  have exactly := started.exec_exact used rfl fit loud
  simp only [isFree, Prod.exists] at exactly
  exact exactly

end Kernel

/-! ## Programs of one small segment -/

/-- A program of one segment of four bytes from an address below 256 on. -/
def smallImage (vaddr : UInt8) : Image :=
  [0x7F, 0x45, 0x4C, 0x46] ++ List.replicate 24 0 ++ [52, 0, 0, 0] ++ List.replicate 12 0 ++
    [1, 0] ++ List.replicate 6 0 ++
  [1, 0, 0, 0, 84, 0, 0, 0, vaddr, 0, 0, 0, 0, 0, 0, 0, 4, 0, 0, 0, 4, 0, 0, 0] ++
    List.replicate 8 0 ++ [0x90, 0x90, 0x90, 0x90]

theorem smallImage_program (low : vaddr = 0 ∨ vaddr = 1) :
    programOf (some (smallImage vaddr)) =
      some (smallImage vaddr, { magic := elfMagic, phoff := 52, phnum := 1 }) := by
  rcases low with rfl | rfl
  · rfl
  · rfl

theorem smallImage_segment (low : vaddr = 0 ∨ vaddr = 1) :
    (smallImage vaddr).header 52 =
      .load { type := 1, off := 84, vaddr := vaddr.toNat, filesz := 4, memsz := 4 } ∧
    (smallImage vaddr).readi 84 4 = some [0x90, 0x90, 0x90, 0x90] := by
  rcases low with rfl | rfl
  · exact ⟨rfl, rfl⟩
  · exact ⟨rfl, rfl⟩

/-- The bytes of the segment are all there. -/
theorem smallImage_readable : (smallImage 0).readable 84 4 0 = true := by
  rw [Image.readable, if_pos (by decide)]
  simp only [show (84 + 0) % 2 ^ 32 = 84 from rfl, show min (4 - 0) pgsize = 4 from rfl,
    (smallImage_segment (.inl rfl)).2]
  rw [Image.readable, if_neg (by decide)]
  rfl

/-- The program asks for one page and a table for it, and its size is four bytes. -/
theorem smallImage_requests :
    segmentRequests (smallImage 0) 1 52 0 = (allocRequests (lacking 0) 0 4, some 4) := by
  rw [segmentRequests_load (smallImage_segment (.inl rfl)).1 rfl,
    if_neg (by rw [smallImage_readable]; decide)]
  simp [segmentRequests, grownSize, kernbase_eq]

/-- Its segment is loaded below its size. -/
theorem smallImage_loads : segmentConfined (smallImage 0) 0 84 4 4 0 = true := by
  rw [segmentConfined, if_pos (by decide)]
  simp only [show (84 + 0) % 2 ^ 32 = 84 from rfl, show min (4 - 0) pgsize = 4 from rfl,
    (smallImage_segment (.inl rfl)).2]
  rw [segmentConfined, if_neg (by decide)]
  rfl

/-- The program is confined. -/
theorem smallImage_confines {free : Nat} (many : 100 ≤ free) :
    Confines (some (smallImage 0)) (fun _ => false) free = true := by
  have served : forecast (fun _ => false) (allocRequests (lacking 0) 0 4) setupRequests.length
      (free - setupRequests.length) = none := by
    refine forecast_none ?_
    rw [show (allocRequests (lacking 0) 0 4).length = 2 from rfl,
      show setupRequests.length = 65 from rfl]
    omega
  unfold Confines
  rw [smallImage_program (.inl rfl)]
  dsimp only
  rw [if_neg (not_not.mpr (forecast_none (le_trans (by decide) many))),
    segmentsConfined_load (smallImage_segment (.inl rfl)).1 rfl rfl, if_neg]
  · simp only [segmentsConfined, Bool.or_true, Bool.and_true]
    exact smallImage_loads
  · exact not_or.mpr ⟨by decide, not_not.mpr served⟩

/-- It asks for a directory with its tables, and for three pages and a table. -/
theorem smallImage_asks : (execRequests (some (smallImage 0))).length = 69 := by
  simp only [execRequests, smallImage_program (.inl rfl), smallImage_requests]
  rfl

namespace Kernel

/-- The first process runs the program. -/
theorem exec_confined_small : ∃ first,
    main sampleLayout 2 (fun _ => Bytes.zero) [] (fun _ => false) = .ok first ∧
    (∃ done after, (first.enter fun _ => false).exec sampleLayout 0 (some (smallImage 0)) [] =
      .ok (done, after)) ∧
    ∀ write ∈ (first.enter fun _ => false).execWrites sampleLayout (some (smallImage 0)),
      write.InUser ∧ ∃ position, first.Owns write.page (.free position) := by
  obtain ⟨first, booted, -, state, -, -, many⟩ := main_ok sampleLayout 2 (fun _ => Bytes.zero) []
    (by decide) (by decide)
  have fit : ArgumentsFit (some (smallImage 0)) [] = true := by
    simp only [ArgumentsFit, smallImage_program (.inl rfl), smallImage_requests]
    rfl
  have served : first.foresee ⟨0, .exec (some (smallImage 0)) [], fun _ => false⟩ = none :=
    forecast_none (smallImage_asks.trans_le (le_trans (by decide) many))
  have still : Runs.Meets (step sampleLayout) Contained first [] := trivial
  exact ⟨first, booted, (exec_confined booted still rfl ⟨by decide, state⟩ fit
    (by simp [served])).mpr (smallImage_confines (le_trans (by decide) many))⟩

/-- A program whose segment does not start at a page boundary makes `loaduvm` panic. -/
theorem Sane.exec_misaligned {k : Kernel} {own : Places Holder}
    (sane : Sane layout k own)
    (served : k.vm.foresee (setupRequests ++ allocRequests (lacking 0) 0 5) = none) :
    k.exec layout p (some (smallImage 1)) [] = .error "loaduvm: addr must be page aligned" := by
  obtain ⟨answer, vm, setting⟩ := setupkvm_ok sane.owned
  obtain ⟨given, -, rest⟩ := (setupkvm_asked sane.owned setting).1.through served
  cases answer with
  | none => exact absurd rfl given
  | some pgdir =>
    obtain ⟨next, -, ready⟩ := sane.setup_ready setting
    obtain ⟨size, grown, growing⟩ := allocuvm_ok ready.owned ready.alive ready.complete 5
    have nonzero : size ≠ 0 := by
      obtain ⟨-, -, -, -, ⟨-, zero | fails⟩ | ⟨nonzero, -⟩⟩ := ready.grow (by simp [rest]) growing
      · exact absurd zero (by decide)
      · exact absurd rest fails
      · exact nonzero
    have segments : (loadSegments layout (smallImage 1) pgdir 1 vm 52 0).result =
        .error "loaduvm: addr must be page aligned" := by
      rw [loadSegments_header, (smallImage_segment (.inr rfl)).1]
      dsimp only
      rw [show ((1 : UInt8).toNat + 4) % 2 ^ 32 = 5 from rfl, Traced.lift_andThen growing]
      dsimp only
      rw [if_neg nonzero, loaduvm, if_pos (by decide)]
      rfl
    simp only [exec, smallImage_program (.inr rfl), bind, Except.bind, setting, segments]

/-- The first process runs a program whose segment starts at address 1. The kernel panics. -/
theorem exec_panics : ∃ first,
    main sampleLayout 2 (fun _ => Bytes.zero) [] (fun _ => false) = .ok first ∧
    first.step sampleLayout ⟨0, .exec (some (smallImage 1)) [], fun _ => false⟩ =
      .error "loaduvm: addr must be page aligned" := by
  obtain ⟨first, booted, -, state, -, -, many⟩ := main_ok sampleLayout 2 (fun _ => Bytes.zero) []
    (by decide) (by decide)
  obtain ⟨own, sane, -⟩ := main_spec booted
  obtain ⟨started, -⟩ := sane.enter fun _ => false
  have served : (first.enter fun _ => false).vm.foresee
      (setupRequests ++ allocRequests (lacking 0) 0 5) = none :=
    forecast_none (le_trans (by decide) many)
  refine ⟨first, booted, ?_⟩
  rw [step, if_pos ⟨by decide, state⟩]
  simp only [call, started.exec_misaligned served, bind, Except.bind]

end Kernel

end Xv6
