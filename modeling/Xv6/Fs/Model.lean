import Xv6.Lib.Runs
import Xv6.Param

/-!
# Inodes, directories and the inode cache

The functions of `fs.c` that work on the inode cache, on the inodes of the disk and on
directories, as steps of any number of processes. A step is a stretch under
`icache.lock` or one logged update of a buffer. What `writei` and `itrunc` log for an inode
that the process has locked is one step: nobody else looks at that inode meanwhile. A
process that sleeps on a busy inode has no step until it is free.

There is one device. The contents of a directory are the list of its entries; those of
other files, the entries of indirect blocks, the bitmap and all of the log but the count of
operations are left out, and the blocks that `balloc` returns in a step are given with the
step. A process that waits in `begin_op` takes no step. A file whose size is not
backed by blocks is outside of the model, so reading allocates nothing. Open files are the
references they hold, with whether they may be written; which descriptors name a file is
left out, so that any process may use any open file, and the last descriptor of a file is
closed only when no process is in a call on it.
-/

namespace Xv6.Fs

/-- Entries of the inode cache, `NINODE`. -/
def ninode : Nat := 50

/-- The inode of the root directory, `ROOTINO`. -/
def rootino : Nat := 1

/-- Direct blocks of an inode, `NDIRECT`. -/
def ndirect : Nat := 12

/-- Block numbers in an indirect block, `NINDIRECT`. -/
def nindirect : Nat := bsize / 4

/-- Blocks of the largest file, `MAXFILE`. -/
def maxfile : Nat := ndirect + nindirect

/-- Bytes of a directory entry, `sizeof(struct dirent)`. -/
def direntSize : Nat := 16

/-- The device number of the console, `CONSOLE`. -/
def console : UInt16 := 1

/-- The type of an inode; a free inode has type 0. -/
inductive FileType where
  | free
  | dir
  | file
  | dev
  deriving DecidableEq

/-- `struct dinode`. -/
structure Dinode where
  type : FileType
  major : UInt16
  minor : UInt16
  nlink : Int
  size : Nat
  addrs : Fin (ndirect + 1) → Nat

/-- An inode that `ialloc` has just marked. -/
def Dinode.fresh (type : FileType) : Dinode :=
  { type, major := 0, minor := 0, nlink := 0, size := 0, addrs := fun _ => 0 }

/-- A path element, which is also the name of a directory entry. -/
inductive Name where
  | dot
  | dotdot
  | named (text : String)
  deriving DecidableEq

/-- `struct dirent`. An entry with inode number 0 is free. -/
structure Dirent where
  inum : Nat
  name : Name
  deriving DecidableEq

/-- The entry that `memset` leaves. -/
def Dirent.zero : Dirent := ⟨0, .named ""⟩

/-- The loop of `dirlookup`: the place and the inode number of the entry of a name. -/
def lookup (name : Name) : List Dirent → Option (Nat × Nat)
  | [] => none
  | de :: rest =>
    if de.inum = 0 ∨ de.name ≠ name then (lookup name rest).map fun found => (found.1 + 1, found.2)
    else some (0, de.inum)

/-- The loop of `dirlink`: the place of the first free entry, or the end. -/
def freeSlot : List Dirent → Nat
  | [] => 0
  | de :: rest => if de.inum = 0 then 0 else freeSlot rest + 1

/-- The entries after one is written at a place. -/
def place (entries : List Dirent) (off : Nat) (de : Dirent) : List Dirent :=
  entries.take off ++ de :: entries.drop (off + 1)

/-- `isdirempty`. -/
def isdirempty (entries : List Dirent) : Bool := (entries.drop 2).all fun de => de.inum = 0

/-- The blocks that `balloc` returns in a step, by the place in the inode they are for. -/
abbrev Supply := Fin (ndirect + 1) → ℕ+

/-- The place in the inode through which a block of the file is reached. -/
def slot (bn : Nat) : Fin (ndirect + 1) := ⟨min bn ndirect, by omega⟩

/-- `bmap`, as far as the inode is concerned. The callers ask for blocks below `MAXFILE`
only. -/
def bmap (balloc : Supply) (addrs : Fin (ndirect + 1) → Nat) (bn : Nat) : Fin (ndirect + 1) → Nat :=
  if addrs (slot bn) = 0 then Function.update addrs (slot bn) (balloc (slot bn)) else addrs

/-- The blocks that a range of bytes touches, in the order of the loop of `writei`. -/
def blocks (off n : Nat) : List Nat :=
  if n = 0 then [] else List.range' (off / bsize) ((off + n - 1) / bsize - off / bsize + 1)

/-- `writei` on a file or directory: the inode in memory afterwards, and whether it is
written to the disk. -/
def Dinode.writei (node : Dinode) (balloc : Supply) (off n : Nat) : Option (Dinode × Bool) :=
  if node.size < off ∨ 2 ^ 32 ≤ off + n then none
  else if maxfile * bsize < off + n then none
  else
    let addrs := (blocks off n).foldl (bmap balloc) node.addrs
    if 0 < n ∧ node.size < off + n then some ({ node with addrs, size := off + n }, true)
    else some ({ node with addrs }, false)

/-- An entry of the inode cache. -/
structure Inode where
  inum : Nat
  ref : Nat
  busy : Bool
  valid : Bool
  copy : Dinode

/-- What a process has before it in the kernel. -/
inductive Program (P : Type) where
  /-- Return to user code. -/
  | idle
  | panic (message : String)
  | beginOp (rest : Program P)
  | endOp (rest : Program P)
  | iget (inum : Nat) (rest : Fin ninode → Program P)
  /-- `idup(proc->cwd)`. -/
  | idup (rest : Fin ninode → Program P)
  | ilock (ip : Fin ninode) (rest : Program P)
  | iunlock (ip : Fin ninode) (rest : Program P)
  | iput (ip : Fin ninode) (rest : Program P)
  /-- `ialloc` on the device of a directory. -/
  | ialloc (dp : Fin ninode) (type : FileType) (rest : Fin ninode → Program P)
  /-- Look at the fields of a locked inode. -/
  | read (ip : Fin ninode) (rest : Dinode → Program P)
  | dirlookup (dp : Fin ninode) (name : Name) (rest : Option (Fin ninode × Nat) → Program P)
  | isdirempty (dp : Fin ninode) (rest : Bool → Program P)
  /-- The part of `dirlink` that writes the entry, for the number of a cached inode. -/
  | enter (dp : Fin ninode) (name : Name) (ip : Fin ninode) (rest : Program P)
  /-- Write a zero entry. -/
  | clear (dp : Fin ninode) (off : Nat) (rest : Program P)
  /-- The stores of `create` to a new inode, and `iupdate`. -/
  | setup (ip : Fin ninode) (major minor : UInt16) (rest : Program P)
  /-- `ip->nlink++; iupdate(ip)`. -/
  | link (ip : Fin ninode) (rest : Program P)
  /-- `ip->nlink--; iupdate(ip)`. -/
  | unlink (ip : Fin ninode) (rest : Program P)
  /-- `writei` on an inode that is not a device. -/
  | writei (ip : Fin ninode) (off n : Nat) (rest : Option Nat → Program P)
  /-- Give up the current directory, whose reference the process keeps. -/
  | takeCwd (rest : Fin ninode → Program P)
  /-- `proc->cwd = ip`. -/
  | setCwd (ip : Fin ninode) (rest : Program P)
  /-- `np->cwd = idup(proc->cwd)`. -/
  | fork (child : P) (rest : Program P)
  /-- `f->ip = ip`, for a file that may or may not be written. -/
  | openFile (ip : Fin ninode) (writable : Bool) (rest : Program P)
  /-- The last descriptor of a file goes; its reference is left to the process. -/
  | fileclose (ip : Fin ninode) (writable : Bool) (rest : Program P)
  /-- Begin a call on an open file. -/
  | useFile (ip : Fin ninode) (writable : Bool) (rest : Program P)
  /-- The call on the file is over. -/
  | leaveFile (rest : Program P)

/-- Where a process is. -/
inductive Pc (P : Type) where
  /-- Between two calls. -/
  | run (program : Program P)
  /-- `ilock` has set `I_BUSY`. -/
  | loading (ip : Fin ninode) (rest : Program P)
  /-- `iput` has set `I_BUSY` and is about to call `itrunc`. -/
  | truncating (ip : Fin ninode) (rest : Program P)
  /-- `iput` is about to free the inode on the disk. -/
  | freeing (ip : Fin ninode) (rest : Program P)
  /-- `iput` has freed the inode on the disk. -/
  | dropping (ip : Fin ninode) (rest : Program P)
  /-- `ialloc` is about to look at an inode of the disk. -/
  | scanning (type : FileType) (inum : Nat) (rest : Fin ninode → Program P)
  /-- `ialloc` has marked an inode of the disk. -/
  | marked (type : FileType) (inum : Nat) (rest : Fin ninode → Program P)

/-- The inodes of the disk and the contents of the directories. -/
structure Image where
  /-- `sb.ninodes`. -/
  ninodes : Nat
  dinode : Nat → Dinode
  entries : Nat → List Dirent

/-- The kernel, with processes named by a type. -/
structure System (P : Type) extends Image where
  inode : Fin ninode → Inode
  pc : P → Pc P
  cwd : P → Option (Fin ninode)
  /-- The inodes of the open files, and whether the file may be written. -/
  files : List (Fin ninode × Bool)
  /-- The file that the process is in a call on. -/
  inUse : P → Option (Fin ninode)
  /-- `log.outstanding`. -/
  outstanding : Nat

variable {P : Type}

namespace System

/-! ## The inode cache -/

/-- The system at boot, before the first process has a current directory. -/
def boot (image : Image) : System P where
  toImage := image
  inode := fun _ =>
    { inum := 0, ref := 0, busy := false, valid := false, copy := .fresh .free }
  pc := fun _ => .run .idle
  cwd := fun _ => none
  files := []
  inUse := fun _ => none
  outstanding := 0

def setInode (s : System P) (ip : Fin ninode) (value : Inode) : System P :=
  { s with inode := Function.update s.inode ip value }

def setCopy (s : System P) (ip : Fin ninode) (copy : Dinode) : System P :=
  s.setInode ip { s.inode ip with copy }

def setRef (s : System P) (ip : Fin ninode) (ref : Nat) : System P :=
  s.setInode ip { s.inode ip with ref }

def setBusy (s : System P) (ip : Fin ninode) (busy : Bool) : System P :=
  s.setInode ip { s.inode ip with busy }

def setEntries (s : System P) (inum : Nat) (entries : List Dirent) : System P :=
  { s with entries := Function.update s.entries inum entries }

/-- `iget`. -/
def iget (s : System P) (inum : Nat) : Except String (Fin ninode × System P) :=
  match (List.finRange ninode).find? fun ip => 0 < (s.inode ip).ref ∧ (s.inode ip).inum = inum with
  | some ip => .ok (ip, s.setRef ip ((s.inode ip).ref + 1))
  | none =>
    match (List.finRange ninode).find? fun ip => (s.inode ip).ref = 0 with
    | some ip =>
      .ok (ip, s.setInode ip { s.inode ip with inum, ref := 1, busy := false, valid := false })
    | none => .error "iget: no inodes"

/-- `iupdate`. -/
def iupdate (s : System P) (ip : Fin ninode) : System P :=
  { s with dinode := Function.update s.dinode (s.inode ip).inum (s.inode ip).copy }

/-- `itrunc`. -/
def itrunc (s : System P) (ip : Fin ninode) : System P :=
  ((s.setCopy ip { (s.inode ip).copy with addrs := fun _ => 0, size := 0 }).setEntries
    (s.inode ip).inum []).iupdate ip

/-- `writei`, when it does not fail. -/
def write (s : System P) (ip : Fin ninode) (written : Dinode × Bool) : System P :=
  if written.2 then (s.setCopy ip written.1).iupdate ip else s.setCopy ip written.1

/-- Write a directory entry with `writei`. -/
def writeEntry (s : System P) (balloc : Supply) (dp : Fin ninode) (off : Nat) (de : Dirent) :
    Option (System P) :=
  ((s.inode dp).copy.writei balloc (direntSize * off) direntSize).map fun written =>
    (s.write dp written).setEntries (s.inode dp).inum
      (place (s.entries (s.inode dp).inum) off de)

/-! ## The steps of a process -/

variable [DecidableEq P]

/-- A process goes on to another point. -/
def goto (s : System P) (p : P) (pc : Pc P) : System P :=
  { s with pc := Function.update s.pc p pc }

/-- `iget`, then the rest of the program. -/
def igetThen (s : System P) (p : P) (inum : Nat) (rest : Fin ninode → Program P) :
    Except String (Option (System P)) := do
  let (ip, s) ← s.iget inum
  .ok (some (s.goto p (.run (rest ip))))

/-- `iput` up to the point where it truncates the inode, or to its end. -/
def iput (s : System P) (p : P) (ip : Fin ninode) (rest : Program P) :
    Except String (Option (System P)) :=
  if (s.inode ip).ref = 1 ∧ (s.inode ip).valid ∧ (s.inode ip).copy.nlink = 0 then
    if (s.inode ip).busy then .error "iput busy"
    else .ok (some ((s.setBusy ip true).goto p (.truncating ip rest)))
  else .ok (some ((s.setRef ip ((s.inode ip).ref - 1)).goto p (.run rest)))

variable [Fintype P]

/-- The reference of a file may go: another file has the inode open, or no process is in a
call on it. -/
def closable (s : System P) (ip : Fin ninode) (writable : Bool) : Bool :=
  (s.files.erase (ip, writable)).any (·.1 = ip) || decide (∀ p, s.inUse p ≠ some ip)

/-- A process begins its next call. Nothing is returned while it sleeps, is in user code or
would use what it does not have. -/
def begin (s : System P) (p : P) (balloc : Supply) :
    Program P → Except String (Option (System P))
  | .idle => .ok none
  | .panic message => .error message
  | .beginOp rest =>
    .ok (some ({ s with outstanding := s.outstanding + 1 }.goto p (.run rest)))
  | .endOp rest =>
    .ok (some ({ s with outstanding := s.outstanding - 1 }.goto p (.run rest)))
  | .iget inum rest => s.igetThen p inum rest
  | .idup rest =>
    match s.cwd p with
    | none => .ok none
    | some ip => .ok (some ((s.setRef ip ((s.inode ip).ref + 1)).goto p (.run (rest ip))))
  | .ilock ip rest =>
    if (s.inode ip).ref < 1 then .error "ilock"
    else if (s.inode ip).busy then .ok none
    else .ok (some ((s.setBusy ip true).goto p (.loading ip rest)))
  | .iunlock ip rest =>
    if (s.inode ip).busy = false ∨ (s.inode ip).ref < 1 then .error "iunlock"
    else .ok (some ((s.setBusy ip false).goto p (.run rest)))
  | .iput ip rest => s.iput p ip rest
  | .ialloc _ type rest => .ok (some (s.goto p (.scanning type 1 rest)))
  | .read ip rest => .ok (some (s.goto p (.run (rest (s.inode ip).copy))))
  | .dirlookup dp name rest =>
    if (s.inode dp).copy.type ≠ .dir then .error "dirlookup not DIR"
    else
      match lookup name (s.entries (s.inode dp).inum) with
      | none => .ok (some (s.goto p (.run (rest none))))
      | some (off, inum) => s.igetThen p inum fun ip => rest (some (ip, off))
  | .isdirempty dp rest =>
    .ok (some (s.goto p (.run (rest (Fs.isdirempty (s.entries (s.inode dp).inum))))))
  | .enter dp name ip rest =>
    match s.writeEntry balloc dp (freeSlot (s.entries (s.inode dp).inum)) ⟨(s.inode ip).inum, name⟩ with
    | none => .error "dirlink"
    | some s => .ok (some (s.goto p (.run rest)))
  | .clear dp off rest =>
    match s.writeEntry balloc dp off .zero with
    | none => .error "unlink: writei"
    | some s => .ok (some (s.goto p (.run rest)))
  | .setup ip major minor rest =>
    .ok (some (((s.setCopy ip { (s.inode ip).copy with major, minor, nlink := 1 }).iupdate ip).goto p
      (.run rest)))
  | .link ip rest =>
    .ok (some (((s.setCopy ip { (s.inode ip).copy with nlink := (s.inode ip).copy.nlink + 1 }).iupdate
      ip).goto p (.run rest)))
  | .unlink ip rest =>
    .ok (some (((s.setCopy ip { (s.inode ip).copy with nlink := (s.inode ip).copy.nlink - 1 }).iupdate
      ip).goto p (.run rest)))
  | .writei ip off n rest =>
    match (s.inode ip).copy.writei balloc off n with
    | none => .ok (some (s.goto p (.run (rest none))))
    | some written => .ok (some ((s.write ip written).goto p (.run (rest (some n)))))
  | .takeCwd rest =>
    match s.cwd p with
    | none => .ok none
    | some ip => .ok (some ({ s with cwd := Function.update s.cwd p none }.goto p (.run (rest ip))))
  | .setCwd ip rest =>
    .ok (some ({ s with cwd := Function.update s.cwd p (some ip) }.goto p (.run rest)))
  | .fork child rest =>
    match s.cwd p, s.cwd child, s.pc child with
    | some ip, none, .run .idle =>
      .ok (some ({ s.setRef ip ((s.inode ip).ref + 1) with
        cwd := Function.update s.cwd child (some ip) }.goto p (.run rest)))
    | _, _, _ => .ok none
  | .openFile ip writable rest =>
    .ok (some ({ s with files := (ip, writable) :: s.files }.goto p (.run rest)))
  | .fileclose ip writable rest =>
    if (ip, writable) ∈ s.files ∧ s.closable ip writable then
      .ok (some ({ s with files := s.files.erase (ip, writable) }.goto p (.run rest)))
    else .ok none
  | .useFile ip writable rest =>
    if (ip, writable) ∈ s.files then
      .ok (some ({ s with inUse := Function.update s.inUse p (some ip) }.goto p (.run rest)))
    else .ok none
  | .leaveFile rest =>
    .ok (some ({ s with inUse := Function.update s.inUse p none }.goto p (.run rest)))

/-- A process goes on. -/
def next (s : System P) (p : P) (balloc : Supply) : Except String (Option (System P)) :=
  match s.pc p with
  | .run program => s.begin p balloc program
  | .loading ip rest =>
    if (s.inode ip).valid then .ok (some (s.goto p (.run rest)))
    else if (s.dinode (s.inode ip).inum).type = .free then .error "ilock: no type"
    else
      .ok (some ((s.setInode ip
        { s.inode ip with copy := s.dinode (s.inode ip).inum, valid := true }).goto p (.run rest)))
  | .truncating ip rest => .ok (some ((s.itrunc ip).goto p (.freeing ip rest)))
  | .freeing ip rest =>
    .ok (some (((s.setCopy ip { (s.inode ip).copy with type := .free }).iupdate ip).goto p
      (.dropping ip rest)))
  | .dropping ip rest =>
    .ok (some ((s.setInode ip
      { s.inode ip with busy := false, valid := false, ref := (s.inode ip).ref - 1 }).goto p
      (.run rest)))
  | .scanning type inum rest =>
    if inum < s.ninodes then
      if (s.dinode inum).type = .free then
        .ok (some ({ s with dinode := Function.update s.dinode inum (.fresh type) }.goto p
          (.marked type inum rest)))
      else .ok (some (s.goto p (.scanning type (inum + 1) rest)))
    else .error "ialloc: no inodes"
  | .marked _ inum rest => s.igetThen p inum rest

end System

end Xv6.Fs
