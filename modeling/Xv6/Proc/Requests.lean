import Xv6.Vm.Requests
import Xv6.Proc.System

/-!
# The requests of the system calls

For each system call the list of the pages it asks for, computed from the state in
which it starts: the size of the process, the page tables that it lacks, and for
`exec` the program headers of the file. The first request that fails decides what
the call leaves behind.
-/

namespace Xv6

open Vm

variable {ip : Image} {off pgdir count sz : Nat}

/-- The reads of `loaduvm` all give as many bytes as were asked for. -/
def Image.readable (ip : Image) (offset sz i : Nat) : Bool :=
  if i < sz then
    match ip.readi ((offset + i) % 2 ^ 32) (min (sz - i) pgsize) with
    | none => false
    | some bytes => bytes.length = min (sz - i) pgsize && ip.readable offset sz (i + pgsize)
  else true
termination_by sz - i
decreasing_by simp only [pgsize_eq]; omega

/-- The tables that a directory lacks when all its pages below a size were mapped one
after the other. -/
def lacking (sz : Nat) : Nat → Bool := fun index => (sz + 4095) / 4096 ≤ index * 1024

/-- What the loop of `exec` makes of a program header: it gives up, passes over the
header, or loads the segment. -/
inductive Header
  | bad
  | skip
  | load (ph : Proghdr)

/-- The program header at an offset of the file. -/
def Image.header (ip : Image) (off : Nat) : Header :=
  match ip.readi off 32 with
  | none => .bad
  | some bytes =>
    let ph := proghdr bytes
    if bytes.length ≠ 32 then .bad
    else if ph.type ≠ elfProgLoad then .skip
    else if ph.memsz < ph.filesz then .bad
    else .load ph

/-- A segment that is loaded is no larger in the file than in memory. -/
theorem Image.header_load {ph : Proghdr} (header : ip.header off = .load ph) :
    ph.filesz ≤ ph.memsz := by
  unfold Image.header at header
  split at header
  · cases header
  · dsimp only at header
    split_ifs at header with short skipped larger
    cases header
    exact Nat.not_lt.mp larger

/-- One round of the loop over the program headers. -/
theorem loadSegments_header {layout : Layout} {m : Vm} :
    loadSegments layout ip pgdir (count + 1) m off sz =
      match ip.header off with
      | .bad => .done (none, m)
      | .skip => loadSegments layout ip pgdir count m ((off + 32) % 2 ^ 32) sz
      | .load ph =>
        .andThen (.lift (m.allocuvm layout pgdir sz ((ph.vaddr + ph.memsz) % 2 ^ 32))) fun (sz, m) =>
          if sz = 0 then .done (none, m)
          else
            (m.loaduvm layout pgdir ph.vaddr ip ph.off ph.filesz).andThen fun (loaded, m) =>
              if loaded then loadSegments layout ip pgdir count m ((off + 32) % 2 ^ 32) sz
              else .done (none, m) := by
  rw [loadSegments, Image.header]
  cases ip.readi off 32 with
  | none => rfl
  | some bytes =>
    dsimp only
    split_ifs <;> rfl

/-- The requests of `exec` for the segments of a program, and the size it reaches when
the file is good. -/
def segmentRequests (ip : Image) : (count off sz : Nat) → List Request × Option Nat
  | 0, _, sz => ([], some sz)
  | count + 1, off, sz =>
    match ip.header off with
    | .bad => ([], none)
    | .skip => segmentRequests ip count ((off + 32) % 2 ^ 32) sz
    | .load ph =>
      let top := (ph.vaddr + ph.memsz) % 2 ^ 32
      if grownSize sz top = 0 ∨ ip.readable ph.off ph.filesz 0 = false then
        (allocRequests (lacking sz) sz top, none)
      else
        let rest := segmentRequests ip count ((off + 32) % 2 ^ 32) (grownSize sz top)
        (allocRequests (lacking sz) sz top ++ rest.1, rest.2)

theorem segmentRequests_load {ph : Proghdr} {top : Nat} (header : ip.header off = .load ph)
    (isTop : top = (ph.vaddr + ph.memsz) % 2 ^ 32) :
    segmentRequests ip (count + 1) off sz =
      if grownSize sz top = 0 ∨ ip.readable ph.off ph.filesz 0 = false then
        (allocRequests (lacking sz) sz top, none)
      else
        (allocRequests (lacking sz) sz top ++
            (segmentRequests ip count ((off + 32) % 2 ^ 32) (grownSize sz top)).1,
          (segmentRequests ip count ((off + 32) % 2 ^ 32) (grownSize sz top)).2) := by
  subst isTop
  rw [segmentRequests, header]

/-- The requests for the two pages of the stack. -/
def stackRequests : Option Nat → List Request
  | none => []
  | some sz => allocRequests (lacking sz) (pgroundup sz) (stackTop (pgroundup sz))

/-- The requests of `exec`. -/
def execRequests (file : Option Image) : List Request :=
  match programOf file with
  | none => []
  | some (ip, elf) =>
    let segments := segmentRequests ip elf.phnum elf.phoff 0
    setupRequests ++ (segments.1 ++ stackRequests segments.2)

namespace Kernel

/-- The requests of a step of a process. -/
def requests (k : Kernel) (p : Nat) : Call → List Request
  | .fork =>
    if ∃ q ∈ List.range nproc, (k.proc q).state = .unused then
      [.page] ++ copyRequests (k.proc p).sz
    else []
  | .exec file _ => execRequests file
  | .sbrk n =>
    if n.toNat < 2 ^ 31 then
      allocRequests (fun index => k.vm.tableAt (k.proc p).pgdir index = none) (k.proc p).sz
        (((k.proc p).sz + n.toNat) % 2 ^ 32)
    else []
  | .pipe =>
    if 2 ≤ ((List.range nfile).filter fun f => (k.file f).ref = 0).length then [.page] else []
  | _ => []

/-- The request of a step that fails first. -/
def foresee (k : Kernel) (s : Step) : Option Request :=
  forecast s.refuse (k.requests s.proc s.call) 0 k.vm.free

end Kernel

namespace Vm

variable {layout : Layout} {m middle later : Vm} {page offset current : Nat} {bytes : List UInt8}

theorem Served.quiet (first : Served 0 m middle) (second : Served 0 middle later) :
    Served 0 m later := first.trans second

/-- A store through the direct map changes at most its page. -/
theorem put_eq (ran : m.put layout page offset bytes = .ok later) :
    ∃ contents, later = m.setPage page contents := by
  unfold put at ran
  split at ran
  · cases ran
    exact ⟨m.page page, by simp [setPage]⟩
  · split at ran
    · cases ran
      exact ⟨_, rfl⟩
    · cases ran

theorem put_served (ran : m.put layout page offset bytes = .ok later) : Served 0 m later := by
  obtain ⟨contents, rfl⟩ := put_eq ran
  exact ⟨rfl, rfl, rfl, rfl, rfl⟩

/-- Loading a segment asks for nothing, and succeeds exactly when the file is long
enough. -/
theorem loadLoop_served {addr i : Nat} {loaded : Bool} :
    (loadLoop layout m pgdir addr ip offset sz i).result = .ok (loaded, later) →
      Served 0 m later ∧ loaded = ip.readable offset sz i := by
  fun_induction loadLoop layout m pgdir addr ip offset sz i with
  | case1 =>
    rw [Traced.result_fail]
    rintro ⟨⟩
  | case2 m i inside pgtab index _ n reading =>
    rw [Traced.result_done]
    rintro ⟨⟩
    rw [Image.readable, if_pos inside, reading]
    exact ⟨Served.refl _, rfl⟩
  | case3 =>
    rw [Traced.result_after, Traced.result_fail]
    rintro ⟨⟩
  | case4 m i inside pgtab index _ n bytes reading _ _ after stored long ih =>
    rw [Traced.result_after]
    intro ran
    obtain ⟨served, same⟩ := ih ran
    rw [Image.readable, if_pos inside, reading]
    exact ⟨(put_served stored).quiet served, by simpa [n, long] using same⟩
  | case5 m i inside pgtab index _ n bytes reading _ _ after stored short =>
    rw [Traced.result_after, Traced.result_done]
    rintro ⟨⟩
    rw [Image.readable, if_pos inside, reading]
    exact ⟨put_served stored, by simpa [n] using fun long => absurd long short⟩
  | case6 m i outside =>
    rw [Traced.result_done]
    rintro ⟨⟩
    rw [Image.readable, if_neg outside]
    exact ⟨Served.refl _, rfl⟩

theorem loaduvm_served {addr : Nat} {loaded : Bool}
    (ran : (m.loaduvm layout pgdir addr ip offset sz).result = .ok (loaded, later)) :
    addr % pgsize = 0 ∧ Served 0 m later ∧ loaded = ip.readable offset sz 0 := by
  unfold loaduvm at ran
  split at ran
  · cases ran
  · rename_i aligned
    exact ⟨not_not.mp aligned, loadLoop_served ran⟩

theorem copyout_served {va : Nat} {copied : Bool} :
    copyout layout m current pgdir va bytes = .ok (copied, later) → Served 0 m later := by
  fun_induction copyout layout m current pgdir va bytes with
  | case1 =>
    rintro ⟨⟩
    exact Served.refl _
  | case2 => rintro ⟨⟩
  | case3 =>
    rintro ⟨⟩
    exact Served.refl _
  | case4 => rintro ⟨⟩
  | case5 m va bytes _ va0 page _ n after stored ih =>
    intro ran
    exact (put_served stored).quiet (ih ran)

theorem pushArgs_served {pushed : Option (Nat × List Nat)} (argv : List (List UInt8)) :
    ∀ {m : Vm} {argc sp : Nat} {ustack : List Nat},
      pushArgs layout current pgdir argv m argc sp ustack = .ok (pushed, later) →
      Served 0 m later := by
  induction argv with
  | nil =>
    intro m argc sp ustack ran
    cases ran
    exact Served.refl _
  | cons arg rest ih =>
    intro m argc sp ustack ran
    rw [pushArgs] at ran
    split at ran
    · cases ran
      exact Served.refl _
    · obtain ⟨⟨copied, after⟩, copying, ran⟩ := Except.of_bind_ok ran
      have first := copyout_served copying
      simp only at ran
      split at ran
      · exact first.quiet (ih ran)
      · cases ran
        exact first

theorem clearpteu_served {uva : Nat} (ran : m.clearpteu pgdir uva = .ok later) :
    Served 0 m later := by
  unfold clearpteu at ran
  split at ran
  · cases ran
  · cases ran
    exact ⟨rfl, rfl, rfl, rfl, rfl⟩

end Vm

end Xv6
