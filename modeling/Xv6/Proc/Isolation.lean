import Xv6.Proc.Runs

/-!
# No page has two owners

The owners of a page as they can be read off the state: a position in the free
list, a page directory, a page table of one directory, a present user entry of one
directory, a kernel stack, the stack of another processor, a pipe. In every state of a run
whose steps are contained a page has at most one of them.

Without the condition this fails. `exec` adds the size of a segment to its address
without looking for a carry, so a segment can end at a small address and yet start
inside the kernel's direct map; `loaduvm` then copies the file over the page that
lies there, whatever it is.
-/

namespace Xv6

open Vm

/-- What can own a page. -/
inductive Owner where
  | free (position : Nat)
  | kernelDir
  | dir (p : Nat)
  | table (pgdir index : Nat)
  | user (pgdir vpn : Nat)
  | kstack (p : Nat)
  | cpu (i : Nat)
  | pipe

/-- The page at a position of the free list that starts at a pointer. -/
def Vm.freeAt (m : Vm) : (pointer position : Nat) → Option Nat
  | pointer, 0 => if pointer = 0 then none else some (v2p pointer / pgsize)
  | pointer, position + 1 =>
    if pointer = 0 then none else m.freeAt (m.word (v2p pointer / pgsize) 0) position

/-- The positions of the free list hold its pages in order. -/
theorem Vm.freeAt_chain {layout : Layout} {m : Vm} {pages : List Nat} : ∀ {pointer : Nat},
    m.Chain pointer pages → (∀ page ∈ pages, layout.Managed page) → ∀ position,
      m.freeAt pointer position = pages[position]? := by
  induction pages with
  | nil =>
    rintro pointer rfl - position
    cases position <;> simp [freeAt]
  | cons page rest ih =>
    rintro pointer ⟨points, chain⟩ managed position
    obtain ⟨back, nonzero⟩ := page_of_pointer (managed page (by simp))
    rw [← points] at back nonzero
    cases position with
    | zero => rw [freeAt, if_neg nonzero, back, List.getElem?_cons_zero]
    | succ position =>
      rw [freeAt, if_neg nonzero, back, List.getElem?_cons_succ]
      exact ih chain (fun other member => managed other (by simp [member])) position

namespace Kernel

variable {layout : Layout} {k : Kernel} {own : Places Holder}

/-- The owners of a page in a state. -/
def Owns (k : Kernel) (page : Nat) : Owner → Prop
  | .free position => k.vm.freeAt k.vm.freelist position = some page
  | .kernelDir => k.kpgdir = page
  | .dir p => k.Used p ∧ (k.proc p).pgdir = page
  | .table pgdir index =>
    k.Live pgdir ∧ index < npdentries ∧ k.vm.tableAt pgdir index = some page
  | .user pgdir vpn => k.Live pgdir ∧ vpn < kernbase / pgsize ∧
    ∃ pte, k.vm.entry pgdir vpn = some pte ∧ frame pte = page
  | .kstack p => k.Used p ∧ (k.proc p).kstack = page
  | .cpu i => k.cpuStacks[i]? = some page
  | .pipe => ∃ f writable, k.PipeEnd f page writable

/-- The place that stands for an owner in the map of the invariant. -/
def placeOf (page : Nat) : Owner → Place Holder
  | .free _ => .free
  | .kernelDir => .dir
  | .dir _ => .dir
  | .table pgdir index => .table pgdir index
  | .user pgdir vpn => .user pgdir vpn
  | .kstack p => .other (.kstack p)
  | .cpu i => .other (.cpu i)
  | .pipe => .other (.pipe page)

theorem Sane.freeAt (sane : Sane layout k own) : ∃ pages : List Nat, pages.Nodup ∧
    (∀ position, k.vm.freeAt k.vm.freelist position = pages[position]?) ∧
    ∀ page, own page = some .free ↔ page ∈ pages := by
  obtain ⟨pages, chain, nodup, free⟩ := sane.owned.chain
  exact ⟨pages, nodup.1, freeAt_chain chain fun page member =>
    sane.owned.managed ((free page).mpr member), free⟩

/-- The map of the invariant places a page where its owner is. -/
theorem Sane.place (sane : Sane layout k own) {page : Nat} {owner : Owner}
    (owns : k.Owns page owner) : own page = some (placeOf page owner) := by
  cases owner with
  | free position =>
    obtain ⟨pages, -, positions, free⟩ := sane.freeAt
    exact (free page).mpr (List.mem_of_getElem? ((positions position).symm.trans owns))
  | kernelDir => exact (sane.owned.dir page).mpr (Or.inl owns.symm)
  | dir p => exact (sane.owned.dir page).mpr (Or.inr ⟨p, owns⟩)
  | table pgdir index => exact (sane.owned.table page pgdir index).mpr owns
  | user pgdir vpn => exact (sane.owned.user page pgdir vpn).mpr owns
  | kstack p =>
    obtain ⟨used, rfl⟩ := owns
    exact (sane.owned.other _ _).mpr (if_pos used)
  | cpu i => exact (sane.owned.other _ _).mpr owns
  | pipe =>
    obtain ⟨f, writable, isEnd⟩ := owns
    exact (sane.owned.other _ _).mpr isEnd.held

/-- A page has at most one owner. -/
theorem Sane.owner_unique (sane : Sane layout k own) {page : Nat} {left right : Owner}
    (first : k.Owns page left) (second : k.Owns page right) : left = right := by
  have same : placeOf page left = placeOf page right :=
    Option.some.inj ((sane.place first).symm.trans (sane.place second))
  cases left <;> cases right <;> simp only [placeOf, reduceCtorEq, Place.table.injEq,
    Place.user.injEq, Place.other.injEq, Holder.kstack.injEq, Holder.cpu.injEq] at same
  case free.free one two =>
    obtain ⟨pages, nodup, positions, -⟩ := sane.freeAt
    have early : pages[one]? = some page := (positions one).symm.trans first
    have late : pages[two]? = some page := (positions two).symm.trans second
    have inside := (List.getElem?_eq_some_iff.mp early).1
    rw [(List.getElem?_inj inside nodup).mp (early.trans late.symm)]
  case kernelDir.kernelDir => rfl
  case kernelDir.dir p => exact absurd (second.2.trans first.symm) (sane.apart p second.1)
  case dir.kernelDir p => exact absurd (first.2.trans second.symm) (sane.apart p first.1)
  case dir.dir p q =>
    rw [sane.distinct p q first.1 second.1 (first.2.trans second.2.symm)]
  case table.table => rw [same.1, same.2]
  case user.user => rw [same.1, same.2]
  case kstack.kstack => rw [same]
  case cpu.cpu => rw [same]
  case pipe.pipe => rfl

/-- `kalloc` takes the first page of the free list. -/
theorem kalloc_owns {refuse : Nat → Bool} {page : Nat} {later : Vm}
    (asked : (k.enter refuse).vm.kalloc = (some page, later)) : k.Owns page (.free 0) := by
  unfold kalloc at asked
  split at asked
  · cases asked
  · rename_i allowed
    simp only [Prod.mk.injEq, Option.some.injEq] at asked
    have nonempty : k.vm.freelist ≠ 0 := by
      intro empty
      simp [Kernel.enter, empty] at allowed
    rw [Owns, freeAt, if_neg nonempty]
    exact congrArg some asked.1

/-- In every state of a run of contained steps every page has at most one owner, all
of them pages of the allocator; no page is shared by two pipes; no entry above
`KERNBASE` is open to user code; and `kalloc` returns a page that nothing else owns. -/
theorem pages_isolated {ncpu : Nat} {page : Nat → Page} {initcode : List UInt8}
    {refuse : Nat → Bool} {first : Kernel} {steps : List Step}
    (booted : main layout ncpu page initcode refuse = .ok first)
    (contained : Runs.Meets (step layout) Contained first steps)
    (ran : first.run layout steps = some k) :
    (∀ page left right, k.Owns page left → k.Owns page right → left = right) ∧
    (∀ page owner, k.Owns page owner → layout.Managed page) ∧
    (∀ f g page writable, k.PipeEnd f page writable → k.PipeEnd g page writable → f = g) ∧
    (∀ pgdir vpn pte, k.Live pgdir → kernbase / pgsize ≤ vpn → vpn < 2 ^ 20 →
      k.vm.entry pgdir vpn = some pte → userBit pte = false) ∧
    ∀ refuse page later, (k.enter refuse).vm.kalloc = (some page, later) →
      ∀ owner, k.Owns page owner → owner = .free 0 := by
  obtain ⟨owners, sane, -⟩ := main_spec booted
  obtain ⟨own, sane⟩ := run_sane ⟨owners, sane⟩ contained ran
  refine ⟨fun page left right => sane.owner_unique, fun page owner owns => ?_,
    sane.files.single, sane.owned.kernel, fun refuse page later asked owner owns => ?_⟩
  · exact sane.owned.managed (sane.place owns)
  · exact sane.owner_unique owns (kalloc_owns asked)

/-- The first process looks for a program that is not there, and grows by a page. -/
theorem pages_isolated_first_growth : ∃ first k,
    main sampleLayout 2 (fun _ => Bytes.zero) [] (fun _ => false) = .ok first ∧
    first.run sampleLayout [⟨0, .exec none [], fun _ => false⟩, ⟨0, .sbrk 4096, fun _ => false⟩] =
      some k ∧
    (∀ page left right, k.Owns page left → k.Owns page right → left = right) ∧
    (k.proc 0).sz = 2 * pgsize := by
  obtain ⟨first, booted, -, state, size, -, many⟩ := main_ok sampleLayout 2 (fun _ => Bytes.zero) []
    (by decide) (by decide)
  obtain ⟨own, sane, whole⟩ := main_spec booted
  obtain ⟨started, same⟩ := sane.enter fun _ => false
  have missing : first.step sampleLayout ⟨0, .exec none [], fun _ => false⟩ =
      .ok (some (first.enter fun _ => false)) := by
    rw [step, if_pos ⟨by decide, state⟩]
    rfl
  have served : (first.enter fun _ => false).foresee ⟨0, .sbrk 4096, fun _ => false⟩ = none :=
    forecast_none ((sbrk_requests (by decide) (by rw [same.procs, size]; decide)).trans
      (le_trans (by decide) many))
  obtain ⟨k, taken, grown, -⟩ := step_grows started (same.full (whole rfl).1) ⟨by decide, state⟩
    (by decide) (by rw [same.procs, size]; decide) served
  have contained : Runs.Meets (step sampleLayout) Contained first
      [⟨0, .exec none [], fun _ => false⟩, ⟨0, .sbrk 4096, fun _ => false⟩] :=
    ⟨⟨rfl, by rintro ⟨⟩⟩, fun _ _ => ⟨trivial, fun _ _ => trivial⟩⟩
  have ran : first.run sampleLayout [⟨0, .exec none [], fun _ => false⟩,
      ⟨0, .sbrk 4096, fun _ => false⟩] = some k :=
    Runs.run_cons.mpr ⟨_, missing, Runs.run_cons.mpr ⟨k, taken, rfl⟩⟩
  refine ⟨first, k, booted, ran, (pages_isolated booted contained ran).1, ?_⟩
  rw [grown, same.procs, size]
  rfl

end Kernel

/-! ## A segment that wraps -/

/-- A program of one segment from address `0x803FF000` on. With its length the end of
the segment wraps to 4096. The file ends before the segment does; its last word looks
like the entry of a directory for page 1023. -/
def wrappingImage : Image :=
  [0x7F, 0x45, 0x4C, 0x46] ++ List.replicate 24 0 ++ [52, 0, 0, 0] ++ List.replicate 12 0 ++
    [1, 0] ++ List.replicate 6 0 ++
  [1, 0, 0, 0, 84, 0, 0, 0, 0x00, 0xF0, 0x3F, 0x80, 0, 0, 0, 0, 8, 0, 0, 0,
    0x00, 0x20, 0xC0, 0x7F] ++ List.replicate 8 0 ++
  [0x07, 0xF0, 0x3F, 0x00]

theorem wrappingImage_program : programOf (some wrappingImage) =
    some (wrappingImage, { magic := elfMagic, phoff := 52, phnum := 1 }) := rfl

theorem wrappingImage_segment :
    wrappingImage.header 52 =
      .load { type := 1, off := 84, vaddr := 0x803FF000, filesz := 8, memsz := 0x7FC02000 } ∧
    wrappingImage.readi 84 8 = some [0x07, 0xF0, 0x3F, 0x00] :=
  ⟨rfl, rfl⟩

/-- A new directory grows by its first page. -/
theorem allocuvm_first {β : Type} {layout : Layout} {m : Vm} {live : Nat → Prop}
    {held : β → Option Nat} {own : Places β} (owned : Owned layout m live held own) {pgdir : Nat}
    (alive : live pgdir) (empty : m.entry pgdir 0 = none) (served : m.foresee [.page] = none) :
    ∃ later next, m.allocuvm layout pgdir 0 4096 = .ok (4096, later) ∧
      Owned layout later live held next ∧ Keeps pgdir m own later next ∧
      ∀ vpn, vpn ≠ 0 → vpn < 1048576 → later.entry pgdir vpn = m.entry pgdir vpn := by
  rcases asked : m.kalloc with ⟨_ | mem, taken⟩
  · exact absurd rfl ((kalloc_asked owned asked .page).served served).1
  obtain ⟨-, filled, -⟩ := page_asked owned alive asked Bytes.zero
  obtain ⟨mapped, later, ran⟩ := mappages_ok filled alive (show 0 < 1048576 by decide)
    ((entry_taken owned alive asked _ (by decide)).trans empty) (mem * pgsize) (pteW ||| pteU)
  obtain ⟨-, next, final, keeps, -, success, failure⟩ :=
    grow_page owned alive (by decide) asked (by decide) _ ran
  have entries : ∀ vpn, vpn ≠ 0 → vpn < 1048576 → later.entry pgdir vpn = m.entry pgdir vpn := by
    intro vpn apart inside
    cases mapped with
    | true => rw [(success rfl).2 vpn inside, if_neg apart]
    | false => exact (failure rfl).2.2 vpn inside
  have growing : m.allocuvm layout pgdir 0 4096 =
      .ok (4096, if mapped then later else { later with torn := later.torn + 1 }) := by
    unfold allocuvm
    rw [if_neg (by decide), if_neg (by decide), show pgroundup 0 = 0 * pgsize from rfl, allocLoop,
      if_pos (by decide), asked]
    simp only [zero, ran]
    rw [allocLoop, if_neg (by decide)]
  cases mapped with
  | true => exact ⟨later, next, growing, final, keeps, entries⟩
  | false =>
    exact ⟨_, next, growing, final.congr (fun _ _ => rfl) rfl rfl,
      ⟨keeps.hand, keeps.foreign, keeps.denied, keeps.torn.trans (Nat.le_succ _)⟩, entries⟩

/-- The store at the start of page 1023 that loading the segment makes. -/
def Vm.strayStore (m : Vm) : Vm :=
  m.setPage 1023 ((m.page 1023).blit 0 4 fun position => [0x07, 0xF0, 0x3F, 0x00].getD position 0)

/-- The segment's address is that of page 1023 in the kernel's direct map. -/
theorem loaduvm_wrapping {layout : Layout} {m : Vm} {pgdir pte : Nat} (managed : layout.Managed 1023)
    (stored : m.entry pgdir 525311 = some pte) (direct : frame pte = 1023) :
    (m.loaduvm layout pgdir 0x803FF000 wrappingImage 84 8).result = .ok (false, m.strayStore) := by
  obtain ⟨pgtab, index, walked, rfl, -⟩ := walk_mapped (by decide) stored
  unfold loaduvm
  rw [if_neg (by decide), loadLoop, if_pos (by decide),
    show (0x803FF000 + 0) % 2 ^ 32 = 525311 * pgsize from rfl, walked]
  simp only [show (84 + 0) % 2 ^ 32 = 84 from rfl, show min (8 - 0) pgsize = 8 from rfl,
    wrappingImage_segment.2, direct, put, managed.writable]
  rfl

theorem stray_word (m : Vm) : (m.strayStore).word 1023 0 = 0x3FF007 := by
  simp only [strayStore, word, setPage, Function.update_self, Bytes.u32]
  rw [Bytes.byte_blit _ _ _ _ _ (by decide), Bytes.byte_blit _ _ _ _ _ (by decide),
    Bytes.byte_blit _ _ _ _ _ (by decide), Bytes.byte_blit _ _ _ _ _ (by decide)]
  simp

/-- A segment whose pages are there but whose file is too short. -/
theorem loadSegments_short {layout : Layout} {ip : Image} {ph : Proghdr} {vm grown last : Vm}
    {count pgdir off sz size : Nat} (header : ip.header off = .load ph)
    (growing : vm.allocuvm layout pgdir sz ((ph.vaddr + ph.memsz) % 2 ^ 32) = .ok (size, grown))
    (nonzero : size ≠ 0)
    (loading : (grown.loaduvm layout pgdir ph.vaddr ip ph.off ph.filesz).result =
      .ok (false, last)) :
    (loadSegments layout ip pgdir (count + 1) vm off sz).result = .ok (none, last) := by
  rw [loadSegments_header, header]
  dsimp only
  rw [Traced.lift_andThen growing]
  dsimp only
  rw [if_neg nonzero, Traced.andThen_of_ok loading]
  rfl

namespace Kernel

variable {layout : Layout} {k : Kernel} {own : Places Holder}

/-- `exec` of the program fails, and has stored a word into the kernel's directory. -/
theorem exec_wrapping (sane : Sane layout k own) {p : Nat} (kernel : k.kpgdir = 1023)
    (served : k.vm.foresee (setupRequests ++ [.page]) = none) : ∃ vm,
      k.exec layout p (some wrappingImage) [] = .ok (false, { k with vm }) ∧
      vm.word 1023 0 = 0x3FF007 := by
  have isDir : own 1023 = some .dir := (sane.owned.dir 1023).mpr (Or.inl kernel.symm)
  have managed := sane.owned.managed isDir
  obtain ⟨answer, vm, setting⟩ := setupkvm_ok sane.owned
  obtain ⟨given, -, served⟩ := (setupkvm_asked sane.owned setting).1.through served
  cases answer with
  | none => exact absurd rfl given
  | some pgdir =>
    obtain ⟨fresh, -, -, next, setUp, keeps, -, empty, direct⟩ := setupkvm_some sane.owned setting
    obtain ⟨grown, later, growing, owned, keepsToo, entries⟩ := allocuvm_first setUp (Or.inr rfl)
      (empty 0 (by decide)) served
    have apart : pgdir ≠ 1023 := by
      rintro rfl
      simp [isDir] at fresh
    obtain ⟨pte, stored, frameEq⟩ := direct 1023 (by decide)
    rw [← entries _ (by decide) (by decide)] at stored
    have loading := loaduvm_wrapping managed stored frameEq
    -- Without the kernel's directory the map of owners allows the store.
    have still : later 1023 = some .dir :=
      (owned.dir 1023).mpr (Or.inl (Or.inl kernel.symm))
    have hand : discard later 1023 1023 = none := by simp [discard, still, Belongs]
    have stray : Owned layout grown.strayStore
        (fun other => (k.Live other ∨ other = pgdir) ∧ other ≠ 1023) k.held (discard later 1023) :=
      (owned.discard 1023).setPage _ (Owned.not_structural_of_none hand)
    obtain ⟨last, freeing⟩ := freevm_ok stray ⟨Or.inr rfl, apart⟩
    obtain ⟨_, -, kept, -⟩ := freevm_spec stray ⟨Or.inr rfl, apart⟩ freeing
    have segments : (loadSegments layout wrappingImage pgdir 1 vm 52 0).result =
        .ok (none, grown.strayStore) :=
      loadSegments_short wrappingImage_segment.1 growing (by decide) loading
    refine ⟨last, ?_, ?_⟩
    · unfold exec
      simp only [wrappingImage_program, bind, Except.bind, setting, segments, freeing]
    · rw [word_congr (kept.hand 1023 hand).2]
      exact stray_word grown

/-- The first process runs the program. The kernel's directory is then its own first
page table. -/
theorem directory_overwritten : ∃ first k,
    main sampleLayout 2 (fun _ => Bytes.zero) [] (fun _ => false) = .ok first ∧
    first.run sampleLayout [⟨0, .exec (some wrappingImage) [], fun _ => false⟩] = some k ∧
    k.Owns 1023 .kernelDir ∧ k.Owns 1023 (.table 1023 0) := by
  obtain ⟨first, booted, kernel, state, -, -, many⟩ := main_ok sampleLayout 2 (fun _ => Bytes.zero) []
    (by decide) (by decide)
  obtain ⟨own, sane, -⟩ := main_spec booted
  obtain ⟨started, -⟩ := sane.enter fun _ => false
  have served : (first.enter fun _ => false).vm.foresee (setupRequests ++ [.page]) = none :=
    forecast_none (le_trans (by decide) many)
  obtain ⟨vm, ran, written⟩ := exec_wrapping (p := 0) started kernel served
  have taken : first.step sampleLayout ⟨0, .exec (some wrappingImage) [], fun _ => false⟩ =
      .ok (some { first.enter fun _ => false with vm }) := by
    rw [step, if_pos ⟨by decide, state⟩]
    simp only [call, ran, bind, Except.bind]
  refine ⟨first, _, booted, Runs.run_cons.mpr ⟨_, taken, rfl⟩, kernel, Or.inl kernel.symm, by decide,
    ?_⟩
  rw [tableAt, written]
  rfl

end Kernel

end Xv6
