import Xv6.Lib.Runs
import Xv6.Proc.Model

/-!
# `exec` and runs of the system

`exec` builds a new address space from an ELF file, pushes the arguments on its
stack and only then replaces the old one. Its `bad` label is the result `none` of
the stages below. The file is given by its contents; the path lookup, and the log
operation around it, are those of the file system.

A run is a list of system calls and stores by user code, from the state in which
`main` enters the scheduler, on a machine with any number of processors. Every step
comes with the choice of the calls of `kalloc` that fail in it.
-/

namespace Xv6

/-- `struct proghdr`. -/
structure Proghdr where
  type : Nat
  off : Nat
  vaddr : Nat
  filesz : Nat
  memsz : Nat

/-- Value of `type` for a segment to load, `ELF_PROG_LOAD`. -/
def elfProgLoad : Nat := 1

/-- `ELF_MAGIC`. -/
def elfMagic : Nat := 0x464C457F

/-- Lay bytes that were read over a record. -/
def record (size : Nat) (bytes : List UInt8) : Bytes size :=
  Bytes.ofFn fun position => bytes.getD position 0

/-- The fields of a program header. -/
def proghdr (bytes : List UInt8) : Proghdr :=
  let ph := record 32 bytes
  { type := ph.u32 0
    off := ph.u32 4
    vaddr := ph.u32 8
    filesz := ph.u32 16
    memsz := ph.u32 20 }

/-- The fields of the ELF header that `exec` uses. -/
structure Elfhdr where
  magic : Nat
  phoff : Nat
  phnum : Nat

def elfhdr (bytes : List UInt8) : Elfhdr :=
  let elf := record 52 bytes
  { magic := elf.u32 0
    phoff := elf.u32 28
    phnum := elf.u16 44 }

namespace Vm

/-- The loop of `exec` over the program headers, with the stores of `loaduvm`. -/
def loadSegments (layout : Layout) (ip : Image) (pgdir : Nat) :
    (count : Nat) → Vm → (off sz : Nat) → Traced LoadWrite String (Option Nat × Vm)
  | 0, m, _, sz => .done (some sz, m)
  | count + 1, m, off, sz =>
    match ip.readi off 32 with
    | none => .done (none, m)
    | some bytes =>
      let ph := proghdr bytes
      if bytes.length ≠ 32 then .done (none, m)
      else if ph.type ≠ elfProgLoad then
        loadSegments layout ip pgdir count m ((off + 32) % 2 ^ 32) sz
      else if ph.memsz < ph.filesz then .done (none, m)
      else
        .andThen (.lift (m.allocuvm layout pgdir sz ((ph.vaddr + ph.memsz) % 2 ^ 32))) fun (sz, m) =>
          if sz = 0 then .done (none, m)
          else
            (m.loaduvm layout pgdir ph.vaddr ip ph.off ph.filesz).andThen fun (loaded, m) =>
              if loaded then loadSegments layout ip pgdir count m ((off + 32) % 2 ^ 32) sz
              else .done (none, m)

/-- The loop of `exec` that pushes the argument strings. It returns the stack pointer
and the addresses of the strings. -/
def pushArgs (layout : Layout) (current pgdir : Nat) :
    List (List UInt8) → Vm → (argc sp : Nat) → (ustack : List Nat) →
      Except String (Option (Nat × List Nat) × Vm)
  | [], m, _, sp, ustack => .ok (some (sp, ustack), m)
  | arg :: rest, m, argc, sp, ustack =>
    if maxarg ≤ argc then .ok (none, m)
    else do
      let sp := (sp + 2 ^ 32 - (arg.length + 1)) % 2 ^ 32 / 4 * 4
      let (copied, m) ← m.copyout layout current pgdir sp (arg ++ [0])
      if copied then pushArgs layout current pgdir rest m (argc + 1) sp (ustack ++ [sp])
      else .ok (none, m)

/-- The bytes of a list of words. -/
def wordBytes (words : List Nat) : List UInt8 :=
  words.flatMap fun value => (List.range 4).map (Bytes.encode value)

/-- The words that `main` finds on the stack: a return address, `argc`, `argv` and the
array that `argv` points to. -/
def stackWords (sp : Nat) (ustack : List Nat) : List Nat :=
  [0xffffffff, ustack.length, (sp + 2 ^ 32 - (ustack.length + 1) * 4) % 2 ^ 32] ++ ustack ++ [0]

/-- The part of `exec` that fills the stack. It returns the stack pointer. -/
def pushStack (layout : Layout) (m : Vm) (current pgdir sz : Nat) (argv : List (List UInt8)) :
    Except String (Option Nat × Vm) := do
  match ← pushArgs layout current pgdir argv m 0 sz [] with
  | (none, m) => .ok (none, m)
  | (some (sp, ustack), m) => do
    let sp' := (sp + 2 ^ 32 - (3 + ustack.length + 1) * 4) % 2 ^ 32
    let (copied, m) ← m.copyout layout current pgdir sp' (wordBytes (stackWords sp ustack))
    .ok (if copied then some sp' else none, m)

/-- The end of the two pages at the next page boundary. -/
def stackTop (sz : Nat) : Nat := (sz + 2 * pgsize) % 2 ^ 32

/-- The part of `exec` after the segments are loaded: two pages of stack, of which the
lower is made inaccessible, and the arguments. It returns the size and the stack pointer. -/
def buildStack (layout : Layout) (m : Vm) (current pgdir sz : Nat) (argv : List (List UInt8)) :
    Except String (Option (Nat × Nat) × Vm) := do
  let (sz, m) ← m.allocuvm layout pgdir (pgroundup sz) (stackTop (pgroundup sz))
  if sz = 0 then .ok (none, m)
  else do
    let m ← m.clearpteu pgdir (sz - 2 * pgsize)
    let (pushed, m) ← m.pushStack layout current pgdir sz argv
    .ok (pushed.map fun sp => (sz, sp), m)

end Vm

/-- The program that `exec` finds in a file, and its header. -/
def programOf (file : Option Image) : Option (Image × Elfhdr) :=
  match file with
  | none => none
  | some ip =>
    match ip.readi 0 52 with
    | none => none
    | some bytes =>
      let elf := elfhdr bytes
      if bytes.length < 52 ∨ elf.magic ≠ elfMagic then none else some (ip, elf)

namespace Kernel

/-- Replace a process's memory by a program. -/
def exec (layout : Layout) (k : Kernel) (p : Nat) (file : Option Image)
    (argv : List (List UInt8)) : Except String (Bool × Kernel) :=
  match programOf file with
  | none => .ok (false, k)
  | some (ip, elf) => do
    match ← k.vm.setupkvm layout with
    | (none, vm) => .ok (false, { k with vm })
    | (some pgdir, vm) => do
      let current := (k.proc p).pgdir
      match ← (Vm.loadSegments layout ip pgdir elf.phnum vm elf.phoff 0).result with
      | (none, vm) => do
        let vm ← vm.freevm layout pgdir
        .ok (false, { k with vm })
      | (some sz, vm) => do
        match ← vm.buildStack layout current pgdir sz argv with
        | (none, vm) => do
          let vm ← vm.freevm layout pgdir
          .ok (false, { k with vm })
        | (some (sz, _), vm) => do
          let vm ← vm.freevm layout current
          .ok (true, { k with vm }.setProc p { k.proc p with pgdir, sz })

end Kernel

/-- What a process can do. -/
inductive Call where
  | fork
  | exec (file : Option Image) (argv : List (List UInt8))
  | sbrk (n : UInt32)
  | pipe
  | close (fd : Nat)
  | exit
  | wait
  | store (va : Nat) (byte : UInt8)

namespace Kernel

/-- A store by user code, to a page that it can write. -/
def userStore (k : Kernel) (p va : Nat) (byte : UInt8) : Option Kernel :=
  match (k.vm.walkpgdir (k.proc p).pgdir va false).1 with
  | none => none
  | some (pgtab, index) =>
    let pte := k.vm.word pgtab index
    if present pte && userBit pte then
      let page := frame pte
      let contents := (k.vm.page page).blit (va % pgsize) 1 fun _ => byte
      some { k with vm := k.vm.setPage page contents }
    else none

/-- One step of one process. There is no next state when the process cannot make the
call or sleeps in it. -/
def call (layout : Layout) (k : Kernel) (p : Nat) : Call → Except String (Option Kernel)
  | .fork => do
    let (_, k) ← k.fork layout p
    .ok (some k)
  | .exec file argv => do
    let (_, k) ← k.exec layout p file argv
    .ok (some k)
  | .sbrk n => do
    let (_, k) ← k.growproc layout p n.toNat
    .ok (some k)
  | .pipe => do
    let (_, k) ← k.sysPipe layout p
    .ok (some k)
  | .close fd => do
    let (_, k) ← k.sysClose layout p fd
    .ok (some k)
  | .exit => do
    let k ← k.exit layout p
    .ok (some k)
  | .wait => do
    let result ← k.wait layout p
    .ok (result.map Prod.snd)
  | .store va byte => .ok (k.userStore p va byte)

/-- Start a system call: the calls of `kalloc` are counted from here. -/
def enter (k : Kernel) (refuse : Nat → Bool) : Kernel :=
  { k with vm := { k.vm with refuse, tick := 0 } }

end Kernel

/-- A process, what it does, and the calls of `kalloc` that fail meanwhile. -/
structure Step where
  proc : Nat
  call : Call
  refuse : Nat → Bool

namespace Kernel

/-- One step of a run. -/
def step (layout : Layout) (k : Kernel) (s : Step) : Except String (Option Kernel) :=
  if s.proc < nproc ∧ (k.proc s.proc).state = .runnable then
    (k.enter s.refuse).call layout s.proc s.call
  else .ok none

/-- Run a list of steps. A run ends without a state at a panic and where a process
cannot make its step. -/
def run (layout : Layout) : Kernel → List Step → Option Kernel := Runs.run (step layout)

/-- The kernel before the allocator is initialised: no process, no open file. -/
def power (page : Nat → Page) : Kernel where
  vm := { page, freelist := 0, free := 0, refuse := fun _ => false, tick := 0, denied := 0, torn := 0 }
  kpgdir := 0
  cpuStacks := []
  proc := fun _ =>
    { sz := 0, pgdir := 0, kstack := 0, state := .unused, pid := 0, parent := none, killed := false,
      ofile := fun _ => none }
  file := fun _ => { type := .none, ref := 0, readable := false, writable := false, pipe := 0 }
  initproc := none
  nextpid := 1

/-- Start other processors, each on a stack of its own. One without a stack loses the page
it runs on when it loads the kernel's directory. -/
def startothers (k : Kernel) : (count : Nat) → Except String Kernel
  | 0 => .ok k
  | count + 1 =>
    match k.vm.kalloc with
    | (none, _) => .error "trap"
    | (some stack, vm) => startothers { k with vm, cpuStacks := k.cpuStacks ++ [stack] } count

/-- The part of `main` that allocates pages, and `userinit`, on a machine with so many
processors. The pages of the first four megabytes are freed first, then the kernel's own
directory is built, the other processors are started and the rest is freed. -/
def main (layout : Layout) (ncpu : Nat) (page : Nat → Page) (initcode : List UInt8)
    (refuse : Nat → Bool) : Except String Kernel := do
  let k := power page
  let vm ← Vm.freerange layout k.vm (pgroundup layout.kernelEnd) (p2v (4 * 1024 * 1024))
  match ← vm.setupkvm layout with
  | (none, _) => .error "trap"
  | (some kpgdir, vm) => do
    let k ← { k with vm, kpgdir }.startothers (ncpu - 1)
    let vm ← Vm.freerange layout k.vm (pgroundup (p2v (4 * 1024 * 1024))) (p2v phystop)
    ({ k with vm }.enter refuse).userinit layout initcode

end Kernel

end Xv6
