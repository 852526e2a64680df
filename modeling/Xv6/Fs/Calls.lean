import Xv6.Fs.Model

/-!
# The file system calls

The path walk of `fs.c` and the calls of `sysfile.c`, `file.c`, `exec.c` and `proc.c` that
work on inodes, as programs of the functions of the inode layer. Copying arguments and what
is done with the contents of files are left out. A path is the list of its elements, and
whether it begins with a slash. `dup`, and `close` of a file with other descriptors, change
the count of the file only.
-/

namespace Xv6.Fs

/-- A path, as `skipelem` takes it apart. -/
structure Path where
  absolute : Bool
  elems : List Name

namespace Program

variable {P : Type}

/-- `iunlockput`. -/
def iunlockput (ip : Fin ninode) (rest : Program P) : Program P := .iunlock ip (.iput ip rest)

/-- The loop of `namex`, from the inode it has reached. `name` is the last element copied. -/
def namex (nameiparent : Bool) (rest : Option (Fin ninode × Name) → Program P) :
    List Name → Name → Fin ninode → Program P
  | [], name, ip => if nameiparent then .iput ip (rest none) else rest (some (ip, name))
  | elem :: path, _, ip =>
    .ilock ip <| .read ip fun node =>
    if node.type ≠ .dir then iunlockput ip (rest none)
    else if nameiparent ∧ path = [] then .iunlock ip (rest (some (ip, elem)))
    else .dirlookup ip elem fun
      | none => iunlockput ip (rest none)
      | some (next, _) => iunlockput ip (namex nameiparent rest path elem next)

/-- `namex` from its start. The name is not set before the first element. -/
def walk (nameiparent : Bool) (path : Path) (rest : Option (Fin ninode × Name) → Program P) :
    Program P :=
  if path.absolute then .iget rootino (namex nameiparent rest path.elems .dot)
  else .idup (namex nameiparent rest path.elems .dot)

def namei (path : Path) (rest : Option (Fin ninode) → Program P) : Program P :=
  walk false path fun found => rest (found.map Prod.fst)

def nameiparent (path : Path) (rest : Option (Fin ninode × Name) → Program P) : Program P :=
  walk true path rest

/-- `dirlink`, for the number of a cached inode. -/
def dirlink (dp : Fin ninode) (name : Name) (ip : Fin ninode) (rest : Bool → Program P) : Program P :=
  .dirlookup dp name fun
    | some (found, _) => .iput found (rest false)
    | none => .enter dp name ip (rest true)

/-- The end of `create`: the entry of the new inode. -/
def createEntry (dp : Fin ninode) (name : Name) (ip : Fin ninode)
    (rest : Option (Fin ninode) → Program P) : Program P :=
  dirlink dp name ip fun
    | false => .panic "create: dirlink"
    | true => iunlockput dp (rest (some ip))

/-- The part of `create` that makes a directory of a new inode. -/
def createDots (dp ip : Fin ninode) (rest : Program P) : Program P :=
  .link dp <| dirlink ip .dot ip fun
    | false => .panic "create dots"
    | true => dirlink ip .dotdot dp fun
      | false => .panic "create dots"
      | true => rest

/-- `create`. -/
def create (path : Path) (type : FileType) (major minor : UInt16)
    (rest : Option (Fin ninode) → Program P) : Program P :=
  nameiparent path fun
    | none => rest none
    | some (dp, name) =>
      .ilock dp <| .dirlookup dp name fun
        | some (ip, _) =>
          iunlockput dp <| .ilock ip <| .read ip fun node =>
          if type = .file ∧ node.type = .file then rest (some ip) else iunlockput ip (rest none)
        | none =>
          .ialloc dp type fun ip => .ilock ip <| .setup ip major minor <|
          if type = .dir then createDots dp ip (createEntry dp name ip rest)
          else createEntry dp name ip rest

/-- The end of `sys_open`. There may be no free file or descriptor. -/
def openInode (omode : Nat) (room : Bool) (ip : Fin ninode) : Program P :=
  if room then
    .iunlock ip <| .endOp <| .openFile ip (omode &&& 1 ≠ 0 ∨ omode &&& 2 ≠ 0) .idle
  else iunlockput ip <| .endOp .idle

def sysOpen (path : Path) (omode : Nat) (room : Bool) : Program P :=
  .beginOp <|
  if omode &&& 0x200 ≠ 0 then
    create path .file 0 0 fun
      | none => .endOp .idle
      | some ip => openInode omode room ip
  else
    namei path fun
      | none => .endOp .idle
      | some ip =>
        .ilock ip <| .read ip fun node =>
        if node.type = .dir ∧ omode ≠ 0 then iunlockput ip <| .endOp .idle
        else openInode omode room ip

def sysMkdir (path : Path) : Program P :=
  .beginOp <| create path .dir 0 0 fun
    | none => .endOp .idle
    | some ip => iunlockput ip <| .endOp .idle

def sysMknod (path : Path) (major minor : UInt16) : Program P :=
  .beginOp <| create path .dev major minor fun
    | none => .endOp .idle
    | some ip => iunlockput ip <| .endOp .idle

/-- The `bad` branch of `sys_link`. -/
def linkBad (ip : Fin ninode) : Program P :=
  .ilock ip <| .unlink ip <| iunlockput ip <| .endOp .idle

def sysLink (old new : Path) : Program P :=
  .beginOp <| namei old fun
    | none => .endOp .idle
    | some ip =>
      .ilock ip <| .read ip fun node =>
      if node.type = .dir then iunlockput ip <| .endOp .idle
      else
        .link ip <| .iunlock ip <|
        nameiparent new fun
          | none => linkBad ip
          | some (dp, name) =>
            .ilock dp <| dirlink dp name ip fun
              | false => iunlockput dp (linkBad ip)
              | true => iunlockput dp <| .iput ip <| .endOp .idle

/-- The end of `sys_unlink`, once the entry may go. -/
def unlinkEntry (dp : Fin ninode) (off : Nat) (ip : Fin ninode) (type : FileType) : Program P :=
  let finish := iunlockput dp <| .unlink ip <| iunlockput ip <| .endOp .idle
  .clear dp off <| if type = .dir then .unlink dp finish else finish

def sysUnlink (path : Path) : Program P :=
  .beginOp <| nameiparent path fun
    | none => .endOp .idle
    | some (dp, name) =>
      .ilock dp <|
      if name = .dot ∨ name = .dotdot then iunlockput dp <| .endOp .idle
      else .dirlookup dp name fun
        | none => iunlockput dp <| .endOp .idle
        | some (ip, off) =>
          .ilock ip <| .read ip fun node =>
          if node.nlink < 1 then .panic "unlink: nlink < 1"
          else if node.type = .dir then
            .isdirempty ip fun empty =>
            if empty then unlinkEntry dp off ip .dir
            else iunlockput ip <| iunlockput dp <| .endOp .idle
          else unlinkEntry dp off ip node.type

def sysChdir (path : Path) : Program P :=
  .beginOp <| namei path fun
    | none => .endOp .idle
    | some ip =>
      .ilock ip <| .read ip fun node =>
      if node.type ≠ .dir then iunlockput ip <| .endOp .idle
      else .iunlock ip <| .takeCwd fun old => .iput old <| .endOp <| .setCwd ip .idle

/-- `consoleread` and `consolewrite` let go of the inode while they are at work. -/
def device (ip : Fin ninode) (rest : Program P) : Program P := .iunlock ip <| .ilock ip rest

/-- `readi` on a locked inode, a number of times. -/
def readi (ip : Fin ninode) : Nat → Program P → Program P
  | 0, rest => rest
  | times + 1, rest => .read ip fun node =>
    if node.type = .dev ∧ node.major = console then device ip (readi ip times rest)
    else readi ip times rest

/-- `exec`, which calls `readi` some number of times before it has the program or gives up. -/
def exec (path : Path) (reads : Nat) : Program P :=
  .beginOp <| namei path fun
    | none => .endOp .idle
    | some ip => .ilock ip <| readi ip reads <| iunlockput ip <| .endOp .idle

/-- The last `fileclose` of a file. -/
def sysClose (ip : Fin ninode) (writable : Bool) : Program P :=
  .fileclose ip writable <| .beginOp <| .iput ip <| .endOp .idle

def sysRead (ip : Fin ninode) (writable : Bool) : Program P :=
  .useFile ip writable <| .ilock ip <| readi ip 1 <| .iunlock ip <| .leaveFile .idle

def sysFstat (ip : Fin ninode) (writable : Bool) : Program P :=
  .useFile ip writable <| .ilock ip <| .iunlock ip <| .leaveFile .idle

/-- The end of a round of `filewrite`, with the result of `writei`. -/
def writeDone (ip : Fin ninode) (n : Nat) (next : Nat → Program P) (r : Option Nat) : Program P :=
  .iunlock ip <| .endOp <|
  match r with
  | none => .leaveFile .idle
  | some r => if r ≠ n then .panic "short filewrite" else next r

/-- The loop of `filewrite`, over the sizes of the writes still to be made. -/
def filewrite (ip : Fin ninode) : Nat → List Nat → Program P
  | _, [] => .leaveFile .idle
  | off, n :: rest =>
    let done := writeDone ip n fun r => filewrite ip (off + r) rest
    .beginOp <| .ilock ip <| .read ip fun node =>
    if node.type = .dev then
      if node.major = console then device ip (done (some n)) else done none
    else .writei ip off n done

/-- The bytes that `filewrite` writes in one transaction. -/
def writeMax : Nat := (logsize - 1 - 1 - 2) / 2 * 512

/-- The sizes of the writes of `filewrite`. -/
def chunks (n : Nat) : List Nat :=
  List.replicate (n / writeMax) writeMax ++ if n % writeMax = 0 then [] else [n % writeMax]

/-- `filewrite` at some offset. -/
def sysWrite (ip : Fin ninode) (off n : Nat) : Program P :=
  .useFile ip true <| filewrite ip off (chunks n)

/-- `userinit`: the first process gets its current directory. -/
def userinit : Program P := .iget rootino fun ip => .setCwd ip .idle

/-- The end of the current directory in `exit`. -/
def exit : Program P := .beginOp <| .takeCwd fun old => .iput old <| .endOp .idle

/-- `sys_mkdir`, `sys_mknod` or `sys_chdir`, when an argument cannot be fetched. -/
def unfetched : Program P := .beginOp <| .endOp .idle

end Program

/-- A call that a process makes. -/
inductive Call (P : Type) where
  | userinit
  | fork (child : P)
  | exit
  | open (path : Path) (omode : Nat) (room : Bool)
  | mkdir (path : Path)
  | mknod (path : Path) (major minor : UInt16)
  | link (old new : Path)
  | unlink (path : Path)
  | chdir (path : Path)
  | exec (path : Path) (reads : Nat)
  | close (ip : Fin ninode) (writable : Bool)
  | read (ip : Fin ninode) (writable : Bool)
  | fstat (ip : Fin ninode) (writable : Bool)
  | write (ip : Fin ninode) (off n : Nat)
  | unfetched
  /-- `dup`, `close` of a file with other descriptors, or a call on a descriptor that is not
  open: no inode is used. -/
  | fileref

variable {P : Type}

def Call.program : Call P → Program P
  | .userinit => .userinit
  | .fork child => .fork child .idle
  | .exit => .exit
  | .open path omode room => .sysOpen path omode room
  | .mkdir path => .sysMkdir path
  | .mknod path major minor => .sysMknod path major minor
  | .link old new => .sysLink old new
  | .unlink path => .sysUnlink path
  | .chdir path => .sysChdir path
  | .exec path reads => .exec path reads
  | .close ip writable => .sysClose ip writable
  | .read ip writable => .sysRead ip writable
  | .fstat ip writable => .sysFstat ip writable
  | .write ip off n => .sysWrite ip off n
  | .unfetched => .unfetched
  | .fileref => .idle

/-- The call makes a process of one that is not there yet. -/
def Call.starts : Call P → Bool
  | .userinit => true
  | _ => false

/-- What can happen next. -/
inductive Event (P : Type) where
  | call (p : P) (c : Call P)
  | next (p : P) (balloc : Supply)

namespace System

variable [DecidableEq P] [Fintype P]

/-- One step of the system. A process that is there has a current directory. -/
def step (s : System P) : Event P → Except String (Option (System P))
  | .call p c =>
    match s.pc p with
    | .run .idle =>
      .ok (if (s.cwd p).isNone = c.starts then some (s.goto p (.run c.program)) else none)
    | _ => .ok none
  | .next p balloc => s.next p balloc

/-- The state after a list of events. -/
def run (s : System P) (events : List (Event P)) : Option (System P) := Runs.run step s events

end System

end Xv6.Fs
