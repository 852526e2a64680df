import Xv6.Lib.Traced
import Xv6.Param
import Xv6.Vm.Layout

/-!
# System calls that take a buffer

`sys_read`, `sys_write`, `sys_fstat` and `sys_pipe` from the fetching of their arguments
to every byte of user memory they load or store through the pointer: `fetchint`,
`argint`, `argptr` and `argfd` of `syscall.c` and `sysfile.c`, `fileread`, `filewrite` and
`filestat` of `file.c`, `readi`, `writei` and `stati` of `fs.c`, `piperead` and `pipewrite`
of `pipe.c`, `consoleread` and `consolewrite` of `console.c`. A call leaves the trace of
these loads and stores, also when it ends in a panic.

Unsigned values are machine words and wrap as they do in C; a word read as an `int` is
taken by its two's complement value. What a call finds in the kernel may have been left
there by other processes at any moment before, so it is a parameter, the `World`.
-/

namespace Xv6.Syscall

/-- One byte of user memory that the kernel touches. -/
inductive Access where
  | load (address : UInt32)
  | store (address : UInt32) (value : UInt8)
deriving DecidableEq, Repr

/-- Where. -/
def Access.address : Access → UInt32
  | .load address => address
  | .store address _ => address

/-- The value of a word as an `int`. -/
def signed (word : UInt32) : Int := word.toBitVec.toInt

/-- `NOFILE`. -/
def nofile : Nat := 16

/-- `NDEV`. -/
def ndev : Nat := 10

/-- `CONSOLE`. -/
def console : Nat := 1

/-- `NDIRECT`. -/
def ndirect : Nat := 12

/-- `NINDIRECT`. -/
def nindirect : Nat := bsize / 4

/-- `MAXFILE`. -/
def maxfile : Nat := ndirect + nindirect

/-- `T_DEV`. -/
def tDev : Int := 3

/-- The fields of an inode that these calls read, and what `bread` of the block gives
that `bmap` finds or allocates for each number below `MAXFILE`: its data or the panic
of a function they call. -/
structure Inode where
  dev : UInt32
  inum : UInt32
  type : Int
  major : Int
  nlink : Int
  size : UInt32
  block : Nat → Except String Block

/-- `enum` of `struct file`. -/
inductive FileType where
  | none
  | pipe
  | inode
deriving DecidableEq, Repr

/-- The fields of a `struct file` that do not change while it is open. -/
structure File where
  type : FileType
  readable : Bool
  writable : Bool
deriving DecidableEq, Repr

/-- The process that makes the call. -/
structure Process where
  sz : UInt32
  esp : UInt32
  memory : UInt32 → UInt8
  ofile : Nat → Option File

/-- What a call finds in the kernel. -/
structure World where
  /-- `f->off` when `f->ip` has been locked for the given time. -/
  off : Nat → UInt32
  /-- `*f->ip` when it has been locked for the given time. -/
  ip : Nat → Inode
  /-- The bytes in the pipe when the wait in `piperead` is over, none if the process has
  been killed in it. -/
  stored : Option (List UInt8)
  /-- Whether there is room in the pipe when the wait in `pipewrite` before the given byte
  is over, rather than no reader or a process that has been killed. -/
  room : Nat → Bool
  /-- The character of the given number that `consoleread` gets, none if the process is
  killed waiting for it. -/
  typed : Nat → Option UInt8
  /-- Whether `pipealloc` gives two files. -/
  pipealloc : Bool

/-- A computation of the kernel: what it touches, and the `int` it returns or the text of
its panic. -/
abbrev Kernel := Traced Access String Int

namespace Process

/-- The little-endian word at an address. -/
def word (proc : Process) (addr : UInt32) : UInt32 :=
  (proc.memory addr).toUInt32 + (proc.memory (addr + 1)).toUInt32 * 256 +
    (proc.memory (addr + 2)).toUInt32 * 65536 + (proc.memory (addr + 3)).toUInt32 * 16777216

/-- `fetchint`, none for `-1`. -/
def fetchint (proc : Process) (addr : UInt32) : Option UInt32 :=
  if addr ≥ proc.sz ∨ addr + 4 > proc.sz then none else some (proc.word addr)

/-- `argint`. -/
def argint (proc : Process) (n : UInt32) : Option UInt32 :=
  proc.fetchint (proc.esp + 4 + 4 * n)

/-- `argptr`. -/
def argptr (proc : Process) (n size : UInt32) : Option UInt32 :=
  match proc.argint n with
  | none => none
  | some i => if i ≥ proc.sz ∨ i + size > proc.sz then none else some i

/-- `argfd`. -/
def argfd (proc : Process) (n : UInt32) : Option File :=
  match proc.argint n with
  | none => none
  | some fd =>
    if signed fd < 0 ∨ signed fd ≥ nofile then none else proc.ofile (signed fd).toNat

/-- `fdalloc`. -/
def fdalloc (proc : Process) (f : File) : Option (Nat × Process) :=
  match (List.range nofile).find? fun fd => (proc.ofile fd).isNone with
  | none => none
  | some fd => some (fd, { proc with ofile := Function.update proc.ofile fd (some f) })

end Process

/-- The bytes that a copy of `count` bytes to an address stores. -/
def stores (dst : UInt32) (count : Nat) (value : Nat → UInt8) : List Access :=
  (List.range count).map fun k => .store (dst + UInt32.ofNat k) (value k)

/-- The bytes that a copy of `count` bytes from an address loads. -/
def loads (src : UInt32) (count : Nat) : List Access :=
  (List.range count).map fun k => .load (src + UInt32.ofNat k)

/-- The assignment of a `short` or an `int` of `size` bytes to a variable of the user. -/
def assign (dst : UInt32) (size : Nat) (value : UInt32) : List Access :=
  stores dst size fun k => (value >>> UInt32.ofNat (8 * k)).toUInt8

/-- `bread(ip->dev, bmap(ip, bn))`. -/
def Inode.bread (ip : Inode) (bn : Nat) : Except String Block :=
  if bn < maxfile then ip.block bn else .error "bmap: out of range"

/-- The loop of `readi`, with the number of bytes that are left. -/
def readiLoop (ip : Inode) (dst : UInt32) (off left : Nat) : Traced Access String Unit :=
  if 0 < left then
    match ip.bread (off / bsize) with
    | .error failure => .fail failure
    | .ok data =>
      let m := min left (bsize - off % bsize)
      .after (stores dst m fun k => data.byte (off % bsize + k))
        (readiLoop ip (dst + UInt32.ofNat m) (off + m) (left - m))
  else .done ()
termination_by left
decreasing_by
  have room : off % bsize < bsize := Nat.mod_lt _ (by decide)
  omega

/-- `consoleread`, from the character of number `i` on. -/
def consolereadLoop (world : World) (dst : UInt32) (i : Nat) : Nat → Kernel
  | 0 => .done i
  | left + 1 =>
    match world.typed i with
    | none => .done (-1)
    | some c =>
      -- C('D')
      if c = 4 then .done i
      else .after [.store (dst + UInt32.ofNat i) c]
        (if c = 10 then .done (i + 1) else consolereadLoop world dst (i + 1) left)

/-- `consoleread`. -/
def consoleread (world : World) (dst n : UInt32) : Kernel :=
  consolereadLoop world dst 0 (signed n).toNat

/-- `consolewrite`. -/
def consolewrite (buf n : UInt32) : Kernel :=
  .after (loads buf (signed n).toNat) (.done (signed n))

/-- `readi`. The only entry of `devsw` is that of the console. -/
def readi (world : World) (ip : Inode) (dst off n : UInt32) : Kernel :=
  if ip.type = tDev then
    if ip.major < 0 ∨ ip.major ≥ ndev ∨ ip.major ≠ console then .done (-1)
    else consoleread world dst n
  else if off > ip.size ∨ off + n < off then .done (-1)
  else
    let n := if off + n > ip.size then ip.size - off else n
    (readiLoop ip dst off.toNat n.toNat).andThen fun _ => .done (signed n)

/-- The loop of `writei`, with the number of bytes that are left. -/
def writeiLoop (ip : Inode) (src : UInt32) (off left : Nat) : Traced Access String Unit :=
  if 0 < left then
    match ip.bread (off / bsize) with
    | .error failure => .fail failure
    | .ok _ =>
      let m := min left (bsize - off % bsize)
      .after (loads src m) (writeiLoop ip (src + UInt32.ofNat m) (off + m) (left - m))
  else .done ()
termination_by left
decreasing_by
  have room : off % bsize < bsize := Nat.mod_lt _ (by decide)
  omega

/-- `writei`. -/
def writei (ip : Inode) (src off n : UInt32) : Kernel :=
  if ip.type = tDev then
    if ip.major < 0 ∨ ip.major ≥ ndev ∨ ip.major ≠ console then .done (-1)
    else consolewrite src n
  else if off > ip.size ∨ off + n < off then .done (-1)
  else if off + n > UInt32.ofNat (maxfile * bsize) then .done (-1)
  else (writeiLoop ip src off.toNat n.toNat).andThen fun _ => .done (signed n)

/-- `stati`, with the layout of `struct stat`. -/
def stati (ip : Inode) (st : UInt32) : List Access :=
  assign (st + 4) 4 ip.dev ++ assign (st + 8) 4 ip.inum ++ assign st 2 (UInt32.ofInt ip.type) ++
    assign (st + 12) 2 (UInt32.ofInt ip.nlink) ++ assign (st + 16) 4 ip.size

/-- `sizeof(struct stat)`. -/
def sizeofStat : UInt32 := 20

/-- `piperead`. -/
def piperead (world : World) (addr n : UInt32) : Kernel :=
  match world.stored with
  | none => .done (-1)
  | some bytes =>
    let copied := bytes.take (signed n).toNat
    .after (stores addr copied.length fun k => copied.getD k 0) (.done copied.length)

/-- `pipewrite`, from the byte of number `i` on. -/
def pipewriteLoop (world : World) (addr : UInt32) (i : Nat) : Nat → Kernel
  | 0 => .done i
  | left + 1 =>
    if world.room i then
      .after [.load (addr + UInt32.ofNat i)] (pipewriteLoop world addr (i + 1) left)
    else .done (-1)

/-- `pipewrite`. It returns `n`, which is not the number of bytes when `n` is negative. -/
def pipewrite (world : World) (addr n : UInt32) : Kernel :=
  (pipewriteLoop world addr 0 (signed n).toNat).andThen fun written =>
    .done (if written < 0 then -1 else signed n)

namespace File

/-- `fileread`. -/
def fileread (f : File) (world : World) (addr n : UInt32) : Kernel :=
  if f.readable = false then .done (-1)
  else match f.type with
  | .pipe => piperead world addr n
  | .inode => readi world (world.ip 0) addr (world.off 0) n
  | .none => .fail "fileread"

/-- `max` of `filewrite`. -/
def writeMax : Nat := (logsize - 1 - 1 - 2) / 2 * 512

/-- The loop of `filewrite`: `i` bytes are written and `left` are not, and the inode is
locked for the time of number `round`. -/
def filewriteLoop (world : World) (addr : UInt32) (i left round : Nat) : Kernel :=
  if 0 < left then
    let n1 := min left writeMax
    (writei (world.ip round) (addr + UInt32.ofNat i) (world.off round) (UInt32.ofNat n1)).andThen
      fun r =>
        if r < 0 then .done (-1)
        else if r ≠ n1 then .fail "short filewrite"
        else filewriteLoop world addr (i + n1) (left - n1) (round + 1)
  else .done i
termination_by left
decreasing_by
  have positive : 0 < writeMax := by decide
  omega

/-- `filewrite`. -/
def filewrite (f : File) (world : World) (addr n : UInt32) : Kernel :=
  if f.writable = false then .done (-1)
  else match f.type with
  | .pipe => pipewrite world addr n
  | .inode =>
    (filewriteLoop world addr 0 (signed n).toNat 0).andThen fun i =>
      .done (if i = signed n then signed n else -1)
  | .none => .fail "filewrite"

/-- `filestat`. -/
def filestat (f : File) (world : World) (st : UInt32) : Kernel :=
  if f.type = .inode then .after (stati (world.ip 0) st) (.done 0) else .done (-1)

end File

/-- The system calls. -/
inductive Call where
  | read
  | write
  | fstat
  | pipe
deriving DecidableEq, Repr

namespace Process

/-- `sys_read`. -/
def sysRead (proc : Process) (world : World) : Kernel :=
  match proc.argfd 0, proc.argint 2 with
  | some f, some n =>
    match proc.argptr 1 n with
    | some p => f.fileread world p n
    | none => .done (-1)
  | _, _ => .done (-1)

/-- `sys_write`. -/
def sysWrite (proc : Process) (world : World) : Kernel :=
  match proc.argfd 0, proc.argint 2 with
  | some f, some n =>
    match proc.argptr 1 n with
    | some p => f.filewrite world p n
    | none => .done (-1)
  | _, _ => .done (-1)

/-- `sys_fstat`. -/
def sysFstat (proc : Process) (world : World) : Kernel :=
  match proc.argfd 0, proc.argptr 1 sizeofStat with
  | some f, some st => f.filestat world st
  | _, _ => .done (-1)

/-- The files that `pipealloc` gives. -/
def pipeEnd (readable : Bool) : File := ⟨.pipe, readable, !readable⟩

/-- `sys_pipe`. -/
def sysPipe (proc : Process) (world : World) : Kernel :=
  match proc.argptr 0 8 with
  | none => .done (-1)
  | some fd =>
    if world.pipealloc = false then .done (-1)
    else match proc.fdalloc (pipeEnd true) with
    | none => .done (-1)
    | some (fd0, proc) =>
      match proc.fdalloc (pipeEnd false) with
      | none => .done (-1)
      | some (fd1, _) =>
        .after (assign fd 4 (UInt32.ofNat fd0) ++ assign (fd + 4) 4 (UInt32.ofNat fd1)) (.done 0)

/-- A system call. -/
def call (proc : Process) (world : World) : Call → Kernel
  | .read => proc.sysRead world
  | .write => proc.sysWrite world
  | .fstat => proc.sysFstat world
  | .pipe => proc.sysPipe world

end Process

end Xv6.Syscall
