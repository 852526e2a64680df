import Xv6.Proc.System

/-!
# `exec` of any inode, with all that it changes

`Kernel.exec` runs a file that is given by its bytes. Here an inode is what `readi`
answers about it, so it may be a device too, whose answers differ from call to call and
which may fail. The two records that `exec` reads headers into are local variables: they
hold what was on the kernel's stack until they are read. The result has what `exec`
writes to the process besides its directory and size: the user registers in the trap
frame, and the name.

For an inode whose answers are the bytes of a file this is `Kernel.exec`.
-/

namespace Xv6

variable {bytes : List UInt8} {m : Vm} {pgdir sz current : Nat} {argv : List (List UInt8)}

/-- What a call of `readi` returns, and the bytes that it stored. -/
structure Answer where
  value : Int
  bytes : List UInt8

/-- An inode as `readi` shows it: the answer of each call, by the number of calls before
it, the offset and the length. A call stores no more than it was asked for. Unless it
fails it returns how much that was. -/
structure Inode where
  readi : Nat → Nat → Nat → Answer
  fits : ∀ call off n, (readi call off n).bytes.length ≤ n
  counts : ∀ call off n, 0 ≤ (readi call off n).value →
    (readi call off n).value = (readi call off n).bytes.length
  negative : ∀ call off n, -(2 ^ 31) ≤ (readi call off n).value

/-- The value of an `int` that is compared with an unsigned one. -/
def asWord (value : Int) : Nat := (value % 2 ^ 32).toNat

/-- The answer of a read of a file. -/
def Image.answer (ip : Image) (off n : Nat) : Answer :=
  match ip.readi off n with
  | none => ⟨-1, []⟩
  | some bytes => ⟨bytes.length, bytes⟩

theorem Image.answer_fits (ip : Image) (off n : Nat) : (ip.answer off n).bytes.length ≤ n := by
  unfold answer Image.readi
  split
  · exact Nat.zero_le _
  · rename_i bytes reading
    split at reading
    · cases reading
    · cases reading
      exact (List.length_take_le _ _)

theorem Image.answer_counts (ip : Image) (off n : Nat) (nonneg : 0 ≤ (ip.answer off n).value) :
    (ip.answer off n).value = (ip.answer off n).bytes.length := by
  unfold answer at nonneg ⊢
  split
  · rename_i failed
    rw [failed] at nonneg
    exact absurd nonneg (by decide)
  · rfl

theorem Image.answer_negative (ip : Image) (off n : Nat) :
    -(2 ^ 31) ≤ (ip.answer off n).value := by
  unfold answer
  split
  · decide
  · simp only
    omega

/-- The inode of a file. -/
def Image.inode (ip : Image) : Inode where
  readi := fun _ => ip.answer
  fits := fun _ => ip.answer_fits
  counts := fun _ => ip.answer_counts
  negative := fun _ => ip.answer_negative

/-- The local variables of `exec` that it reads into. -/
structure Locals where
  elf : Bytes 52
  ph : Bytes 32

/-- Store bytes at the start of a record. -/
def lay {size : Nat} (old : Bytes size) (bytes : List UInt8) : Bytes size :=
  old.blit 0 bytes.length fun position => bytes.getD position 0

/-- The fields of a program header. -/
def segmentOf (ph : Bytes 32) : Proghdr where
  type := ph.u32 0
  off := ph.u32 4
  vaddr := ph.u32 8
  filesz := ph.u32 16
  memsz := ph.u32 20

/-- What `exec` changes of a process besides its directory and size, and its current
directory, which it does not change. -/
structure Thread where
  eip : Nat
  esp : Nat
  name : Bytes 16
  cwd : Nat

/-- The loop of `safestrcpy`, with as many bytes left as it may copy. -/
def copyName : (left place : Nat) → List UInt8 → Bytes 16 → Bytes 16
  | 0, place, _, s => s.blit place 1 fun _ => 0
  | _ + 1, place, [], s => (s.blit place 1 fun _ => 0).blit (place + 1) 1 fun _ => 0
  | left + 1, place, c :: t, s => copyName left (place + 1) t (s.blit place 1 fun _ => c)

/-- `safestrcpy` to a name of 16 bytes. -/
def safestrcpy (s : Bytes 16) (t : List UInt8) : Bytes 16 := copyName 15 0 t s

/-- The part of a path after its last slash. -/
def lastName (path : List UInt8) : List UInt8 :=
  let rec go : List UInt8 → List UInt8 → List UInt8
    | [], last => last
    | c :: s, last => go s (if c = 0x2F then s else last)
  go path path

namespace Inode

open Vm

/-- The loop of `loaduvm`. It returns also the number of calls of `readi` made so far. -/
def loadLoop (layout : Layout) (ip : Inode) (m : Vm) (call pgdir addr offset sz i : Nat) :
    Except String (Bool × Nat × Vm) :=
  if i < sz then
    match (m.walkpgdir pgdir ((addr + i) % 2 ^ 32) false).1 with
    | none => .error "loaduvm: address should exist"
    | some (pgtab, index) =>
      let n := min (sz - i) pgsize
      let answer := ip.readi call ((offset + i) % 2 ^ 32) n
      match m.put layout (frame (m.word pgtab index)) 0 answer.bytes with
      | .error message => .error message
      | .ok m =>
        if asWord answer.value = n then
          loadLoop layout ip m (call + 1) pgdir addr offset sz (i + pgsize)
        else .ok (false, call + 1, m)
  else .ok (true, call, m)
termination_by sz - i
decreasing_by simp only [pgsize_eq]; omega

/-- Load a program segment. -/
def loaduvm (layout : Layout) (ip : Inode) (m : Vm) (call pgdir addr offset sz : Nat) :
    Except String (Bool × Nat × Vm) :=
  if addr % pgsize ≠ 0 then .error "loaduvm: addr must be page aligned"
  else loadLoop layout ip m call pgdir addr offset sz 0

/-- The loop of `exec` over the program headers. -/
def loadSegments (layout : Layout) (ip : Inode) (pgdir : Nat) :
    (count : Nat) → Vm → (call : Nat) → Bytes 32 → (off sz : Nat) →
      Except String (Option Nat × Vm)
  | 0, m, _, _, _, sz => .ok (some sz, m)
  | count + 1, m, call, old, off, sz =>
    let answer := ip.readi call off 32
    let ph := lay old answer.bytes
    if asWord answer.value ≠ 32 then .ok (none, m)
    else if (segmentOf ph).type ≠ elfProgLoad then
      loadSegments layout ip pgdir count m (call + 1) ph ((off + 32) % 2 ^ 32) sz
    else if (segmentOf ph).memsz < (segmentOf ph).filesz then .ok (none, m)
    else do
      let (sz, m) ← m.allocuvm layout pgdir sz
        (((segmentOf ph).vaddr + (segmentOf ph).memsz) % 2 ^ 32)
      if sz = 0 then .ok (none, m)
      else do
        let (loaded, call, m) ← ip.loaduvm layout m (call + 1) pgdir (segmentOf ph).vaddr
          (segmentOf ph).off (segmentOf ph).filesz
        if loaded then loadSegments layout ip pgdir count m call ph ((off + 32) % 2 ^ 32) sz
        else .ok (none, m)

end Inode

namespace Kernel

/-- Replace a process's memory by the program in an inode, with the previous contents of
the local variables. -/
def execInode (layout : Layout) (k : Kernel) (p : Nat) (t : Thread) (stack : Locals)
    (path : List UInt8) (file : Option Inode) (argv : List (List UInt8)) :
    Except String (Int × Thread × Kernel) :=
  match file with
  | none => .ok (-1, t, k)
  | some ip =>
    let answer := ip.readi 0 0 52
    let elf := lay stack.elf answer.bytes
    if asWord answer.value < 52 then .ok (-1, t, k)
    else if elf.u32 0 ≠ elfMagic then .ok (-1, t, k)
    else do
      match ← k.vm.setupkvm layout with
      | (none, vm) => .ok (-1, t, { k with vm })
      | (some pgdir, vm) => do
        let current := (k.proc p).pgdir
        match ← ip.loadSegments layout pgdir (elf.u16 44) vm 1 stack.ph (elf.u32 28) 0 with
        | (none, vm) => do
          let vm ← vm.freevm layout pgdir
          .ok (-1, t, { k with vm })
        | (some sz, vm) => do
          match ← vm.buildStack layout current pgdir sz argv with
          | (none, vm) => do
            let vm ← vm.freevm layout pgdir
            .ok (-1, t, { k with vm })
          | (some (sz, sp), vm) => do
            let vm ← vm.freevm layout current
            let name := safestrcpy t.name (lastName path)
            .ok (0, { t with eip := elf.u32 24, esp := sp, name },
              { k with vm }.setProc p { k.proc p with pgdir, sz })

end Kernel

/-! ## Files -/

open Vm

variable {layout : Layout}

/-- A count is its own value. -/
theorem asWord_count {count : Nat} (small : count < 2 ^ 32) : asWord count = count := by
  simp only [asWord]
  omega

/-- A failure passes for a large count. -/
theorem asWord_negative {value : Int} (negative : value < 0) (bound : -(2 ^ 31) ≤ value) :
    2 ^ 31 ≤ asWord value := by
  simp only [asWord]
  omega

/-- A record that is read as a whole is its bytes. -/
theorem lay_all {size : Nat} (old : Bytes size) (whole : bytes.length = size) :
    lay old bytes = record size bytes := by
  apply Bytes.ext_byte
  intro position inside
  rw [lay, record, Bytes.byte_blit _ _ _ _ _ (by omega), Bytes.byte_ofFn _ _ inside,
    if_pos (by omega), Nat.sub_zero]

namespace Image

variable {ip : Image} {off n : Nat} {addr offset : Nat}

end Image

end Xv6
