import Xv6.Vm.Model

/-!
# Processes, files and the system calls that move pages

A model of the process table (`proc.c`), of `exec.c`, and of the parts of `file.c`,
`pipe.c` and `sysfile.c` that allocate or free pages. Each system call runs to its
end as one step; between system calls a process stores into its own memory.

The scheduler is left out, so `runnable` stands for every process that can make a
call. Trap frames, kernel contexts, process names, working directories and the
swap file pointer are left out: no function here reads them. A pipe is a page whose
words hold the fields of `struct pipe`; its lock and its buffer are not modelled.
-/

namespace Xv6

/-- Processes in the table, `NPROC`. -/
def nproc : Nat := 64

/-- Open files per process, `NOFILE`. -/
def nofile : Nat := 16

/-- Open files in the system, `NFILE`. -/
def nfile : Nat := 100

/-- Arguments that `exec` takes, `MAXARG`. -/
def maxarg : Nat := 32

/-- Process states. -/
inductive ProcState where
  | unused
  | embryo
  | runnable
  | zombie
  deriving DecidableEq

/-- The per-process state that memory management uses. -/
structure Proc where
  sz : Nat
  pgdir : Nat
  kstack : Nat
  state : ProcState
  pid : Nat
  parent : Option Nat
  killed : Bool
  ofile : Nat → Option Nat

/-- Kinds of open files. -/
inductive FdType where
  | none
  | pipe
  | inode
  deriving DecidableEq

/-- `struct file`. -/
structure File where
  type : FdType
  ref : Nat
  readable : Bool
  writable : Bool
  pipe : Nat

/-- The kernel's state. -/
structure Kernel where
  vm : Vm
  kpgdir : Nat
  /-- The pages on which the schedulers of the other processors run. -/
  cpuStacks : List Nat
  proc : Nat → Proc
  file : Nat → File
  initproc : Option Nat
  nextpid : Nat

namespace Kernel

/-- Replace one process. -/
def setProc (k : Kernel) (p : Nat) (value : Proc) : Kernel :=
  { k with proc := Function.update k.proc p value }

/-- Replace one file structure. -/
def setFile (k : Kernel) (f : Nat) (value : File) : Kernel :=
  { k with file := Function.update k.file f value }

/-! ## `proc.c` -/

/-- Look in the process table for an unused process and give it a kernel stack. -/
def allocproc (k : Kernel) : Option Nat × Kernel :=
  match (List.range nproc).find? fun p => (k.proc p).state = .unused with
  | none => (none, k)
  | some p =>
    let embryo := { k.proc p with state := .embryo, pid := k.nextpid }
    let k := { k.setProc p embryo with nextpid := k.nextpid + 1 }
    match k.vm.kalloc with
    | (none, vm) => (none, { k with vm }.setProc p { embryo with kstack := 0, state := .unused })
    | (some kstack, vm) => (some p, { k with vm }.setProc p { embryo with kstack })

/-- Set up the first user process. A failed allocation is used as it is, and
faults. -/
def userinit (layout : Layout) (initcode : List UInt8) (k : Kernel) : Except String Kernel :=
  match k.allocproc with
  | (none, _) => .error "trap"
  | (some p, k) => do
    match ← k.vm.setupkvm layout with
    | (none, _) => .error "userinit: out of memory?"
    | (some pgdir, vm) => do
      let vm ← vm.inituvm layout pgdir initcode
      let k := { k with vm, initproc := some p }
      .ok (k.setProc p { k.proc p with pgdir, sz := pgsize, state := .runnable })

/-- Grow or shrink a process's memory. `n` is the 32-bit argument; its sign is the
top bit. -/
def growproc (layout : Layout) (k : Kernel) (p n : Nat) : Except String (Bool × Kernel) :=
  let sz := (k.proc p).sz
  let moved := (sz + n) % 2 ^ 32
  if n = 0 then .ok (true, k)
  else do
    let (size, vm) ←
      if n < 2 ^ 31 then k.vm.allocuvm layout (k.proc p).pgdir sz moved
      else k.vm.deallocuvm layout (k.proc p).pgdir sz moved
    let k := { k with vm }
    if size = 0 then .ok (false, k)
    else .ok (true, k.setProc p { k.proc p with sz := size })

/-- Take one more reference to a file. -/
def filedup (k : Kernel) (f : Nat) : Except String Kernel :=
  if (k.file f).ref < 1 then .error "filedup"
  else .ok (k.setFile f { k.file f with ref := (k.file f).ref + 1 })

/-- The loop of `fork` over the open files of the parent. -/
def dupFiles (k : Kernel) (ofile : Nat → Option Nat) : List Nat → Except String Kernel
  | [] => .ok k
  | fd :: rest =>
    match ofile fd with
    | none => dupFiles k ofile rest
    | some f => do
      let k ← k.filedup f
      dupFiles k ofile rest

/-- Create a new process copying a process as its parent. -/
def fork (layout : Layout) (k : Kernel) (p : Nat) : Except String (Bool × Kernel) :=
  match k.allocproc with
  | (none, k) => .ok (false, k)
  | (some np, k) => do
    match ← k.vm.copyuvm layout (k.proc p).pgdir (k.proc p).sz with
    | (none, vm) => do
      let vm ← vm.kfree layout (k.proc np).kstack
      .ok (false, { k with vm }.setProc np
        { k.proc np with pgdir := 0, kstack := 0, state := .unused })
    | (some pgdir, vm) => do
      let k ← { k with vm }.dupFiles (k.proc p).ofile (List.range nofile)
      let ofile := fun fd =>
        if ((k.proc p).ofile fd).isSome then (k.proc p).ofile fd else (k.proc np).ofile fd
      .ok (true, k.setProc np
        { k.proc np with pgdir, sz := (k.proc p).sz, parent := some p, ofile, state := .runnable })

/-! ## `pipe.c` and `file.c` -/

/-- Word of `struct pipe` that holds `nread`. -/
def pipeNread : Nat := 141

/-- Word of `struct pipe` that holds `nwrite`. -/
def pipeNwrite : Nat := 142

/-- Word of `struct pipe` that holds `readopen`. -/
def pipeReadopen : Nat := 143

/-- Word of `struct pipe` that holds `writeopen`. -/
def pipeWriteopen : Nat := 144

/-- Close one end of a pipe; the last end frees it. -/
def pipeclose (layout : Layout) (vm : Vm) (pipe : Nat) (writable : Bool) : Except String Vm :=
  let vm := vm.store pipe (if writable then pipeWriteopen else pipeReadopen) 0
  if vm.word pipe pipeReadopen = 0 ∧ vm.word pipe pipeWriteopen = 0 then vm.kfree layout pipe
  else .ok vm

/-- Allocate a file structure. -/
def filealloc (k : Kernel) : Option Nat × Kernel :=
  match (List.range nfile).find? fun f => (k.file f).ref = 0 with
  | none => (none, k)
  | some f => (some f, k.setFile f { k.file f with ref := 1 })

/-- Close a file. The last reference closes its end of a pipe. -/
def fileclose (layout : Layout) (k : Kernel) (f : Nat) : Except String Kernel :=
  let ff := k.file f
  if ff.ref < 1 then .error "fileclose"
  else if 0 < ff.ref - 1 then .ok (k.setFile f { ff with ref := ff.ref - 1 })
  else
    let k := k.setFile f { ff with ref := 0, type := .none }
    if ff.type = .pipe then do
      let vm ← pipeclose layout k.vm ff.pipe ff.writable
      .ok { k with vm }
    else .ok k

/-- Allocate a pipe and a file for each of its ends. -/
def pipealloc (layout : Layout) (k : Kernel) : Except String (Option (Nat × Nat) × Kernel) :=
  match k.filealloc with
  | (none, k) => .ok (none, k)
  | (some f0, k) =>
    match k.filealloc with
    | (none, k) => do
      let k ← k.fileclose layout f0
      .ok (none, k)
    | (some f1, k) =>
      match k.vm.kalloc with
      | (none, vm) => do
        let k ← { k with vm }.fileclose layout f0
        let k ← k.fileclose layout f1
        .ok (none, k)
      | (some pipe, vm) =>
        let vm := (((vm.store pipe pipeReadopen 1).store pipe pipeWriteopen 1).store pipe
          pipeNwrite 0).store pipe pipeNread 0
        let k := { k with vm }.setFile f0
          { k.file f0 with type := .pipe, readable := true, writable := false, pipe }
        let k := k.setFile f1
          { k.file f1 with type := .pipe, readable := false, writable := true, pipe }
        .ok (some (f0, f1), k)

/-! ## `sysfile.c` -/

/-- Allocate a file descriptor for a file. -/
def fdalloc (k : Kernel) (p f : Nat) : Option Nat × Kernel :=
  match (List.range nofile).find? fun fd => (k.proc p).ofile fd = none with
  | none => (none, k)
  | some fd =>
    (some fd, k.setProc p
      { k.proc p with ofile := Function.update (k.proc p).ofile fd (some f) })

/-- `sys_pipe`, without the copy of the two descriptors to user memory. -/
def sysPipe (layout : Layout) (k : Kernel) (p : Nat) : Except String (Bool × Kernel) := do
  match ← k.pipealloc layout with
  | (none, k) => .ok (false, k)
  | (some (rf, wf), k) =>
    match k.fdalloc p rf with
    | (none, k) => do
      let k ← k.fileclose layout rf
      let k ← k.fileclose layout wf
      .ok (false, k)
    | (some fd0, k) =>
      match k.fdalloc p wf with
      | (none, k) => do
        let k := k.setProc p
          { k.proc p with ofile := Function.update (k.proc p).ofile fd0 none }
        let k ← k.fileclose layout rf
        let k ← k.fileclose layout wf
        .ok (false, k)
      | (some _, k) => .ok (true, k)

/-- `sys_close`. -/
def sysClose (layout : Layout) (k : Kernel) (p fd : Nat) : Except String (Bool × Kernel) :=
  if nofile ≤ fd then .ok (false, k)
  else
    match (k.proc p).ofile fd with
    | none => .ok (false, k)
    | some f => do
      let k := k.setProc p
        { k.proc p with ofile := Function.update (k.proc p).ofile fd none }
      let k ← k.fileclose layout f
      .ok (true, k)

/-! ## `exit` and `wait` -/

/-- The loop of `exit` over the open files. -/
def closeFiles (layout : Layout) (k : Kernel) (p : Nat) : List Nat → Except String Kernel
  | [] => .ok k
  | fd :: rest =>
    match (k.proc p).ofile fd with
    | none => closeFiles layout k p rest
    | some f => do
      let k ← k.fileclose layout f
      let k := k.setProc p
        { k.proc p with ofile := Function.update (k.proc p).ofile fd none }
      closeFiles layout k p rest

/-- Exit a process. Its children go to `initproc`; it stays a zombie until its parent
waits for it. -/
def exit (layout : Layout) (k : Kernel) (p : Nat) : Except String Kernel :=
  if k.initproc = some p then .error "init exiting"
  else do
    let k ← k.closeFiles layout p (List.range nofile)
    let adopted := fun q =>
      if (k.proc q).parent = some p then { k.proc q with parent := k.initproc } else k.proc q
    let k := { k with proc := adopted }
    .ok (k.setProc p { k.proc p with state := .zombie })

/-- Wait for a child process to exit. Nothing is returned while the caller sleeps:
it has children and none of them is a zombie. -/
def wait (layout : Layout) (k : Kernel) (p : Nat) : Except String (Option (Bool × Kernel)) :=
  match (List.range nproc).find? fun q =>
      (k.proc q).parent = some p ∧ (k.proc q).state = .zombie with
  | some q => do
    let vm ← k.vm.kfree layout (k.proc q).kstack
    let vm ← vm.freevm layout (k.proc q).pgdir
    .ok (some (true, { k with vm }.setProc q
      { k.proc q with kstack := 0, state := .unused, pid := 0, parent := none, killed := false }))
  | none =>
    if (List.range nproc).all (fun q => (k.proc q).parent ≠ some p) ∨ (k.proc p).killed then
      .ok (some (false, k))
    else .ok none

end Kernel

end Xv6
