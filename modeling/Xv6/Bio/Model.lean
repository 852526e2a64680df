import Xv6.Lib.Links
import Xv6.Lib.Runs
import Xv6.Log.Model

/-!
# The buffer cache

The functions of `bio.c`, the queue of `ide.c` and the calls that `log.c` makes of them,
as steps of any number of processes. A step is a stretch under `bcache.lock`, `idelock`
or `log.lock`, or one that works on a buffer the process holds; the disk interrupt is a
step of its own. A process that has to sleep, on a busy buffer, for the disk or in
`begin_op`, has no step until what it waits for has happened; one that slept on a busy
buffer then scans the list again from its start.

In its own code a process calls these functions in any order, on buffers that it got
from `bread` and has not released, and it releases a buffer whose data it has changed
only after `log_write` or `bwrite`. `end_op` of the last operation runs `commit`, which
is written out as a program of such calls. Device numbers are those of disks; `-1` marks
a buffer that holds no block yet.

Two fields record what happened: `contents` the last data of each block that were logged
or written, `pending` which blocks were logged and have not been written to their place
on the disk since.
-/

namespace Xv6.Bio

/-- Buffers in the cache, `NBUF`. -/
def nbuf : Nat := maxopblocks * 3

/-- The device number of a buffer that holds no block. -/
def nodev : UInt32 := 0xffffffff

/-- The number of a disk. -/
def Dev : Type := { dev : UInt32 // dev ≠ nodev }

/-- A block of a disk: device and block number. -/
abbrev Key := UInt32 × UInt32

/-- `struct buf` without its links. -/
structure Buf where
  busy : Bool
  valid : Bool
  dirty : Bool
  dev : UInt32
  blockno : UInt32
  data : Block

def Buf.key (buf : Buf) : Key := (buf.dev, buf.blockno)

/-- A node of the list of buffers. -/
inductive Node where
  | head
  | buf (b : Fin nbuf)
  deriving DecidableEq

/-- What a process has before it in the kernel. -/
inductive Program where
  /-- Return to its own code. -/
  | idle
  | bread (dev : Dev) (blockno : UInt32) (rest : Fin nbuf → Program)
  | write (b : Fin nbuf) (data : Block) (rest : Program)
  | memmove (dst src : Fin nbuf) (rest : Program)
  | logWrite (b : Fin nbuf) (rest : Program)
  | bwrite (b : Fin nbuf) (rest : Program)
  | brelse (b : Fin nbuf) (rest : Program)
  | beginOp (rest : Program)
  | endOp (rest : Program)
  | commit (rest : Program)
  /-- The loop of `write_log`. -/
  | writeLog (tail : Nat) (rest : Program)
  | writeHead (rest : Program)
  /-- The stores of `write_head` into the header block. -/
  | storeHead (b : Fin nbuf) (rest : Program)
  /-- The loop of `install_trans`. -/
  | installTrans (tail : Nat) (rest : Program)
  /-- `log.lh.n = 0`. -/
  | clearHead (rest : Program)
  /-- The end of `end_op`, after the commit. -/
  | committed (rest : Program)

/-- Where a process is. -/
inductive Pc where
  /-- Between two calls. -/
  | run (program : Program)
  /-- `bget` has returned a buffer to `bread`. -/
  | got (dev : Dev) (blockno : UInt32) (b : Fin nbuf) (rest : Fin nbuf → Program)
  /-- `bread` waits for the disk. -/
  | reading (dev : Dev) (blockno : UInt32) (b : Fin nbuf) (rest : Fin nbuf → Program)
  /-- `log_write` has made its tests. -/
  | logging (b : Fin nbuf) (rest : Program)
  /-- `bwrite` waits for the disk. -/
  | writing (b : Fin nbuf) (rest : Program)

/-- A call that a process makes in its own code. -/
inductive Call where
  | bread (dev : Dev) (blockno : UInt32)
  | write (b : Fin nbuf) (data : Block)
  | logWrite (b : Fin nbuf)
  | bwrite (b : Fin nbuf)
  | brelse (b : Fin nbuf)
  | beginOp
  | endOp

def Call.program : Call → Program
  | .bread dev blockno => .bread dev blockno fun _ => .idle
  | .write b data => .write b data .idle
  | .logWrite b => .logWrite b .idle
  | .bwrite b => .bwrite b .idle
  | .brelse b => .brelse b .idle
  | .beginOp => .beginOp .idle
  | .endOp => .endOp .idle

/-- What a process knows of a buffer it holds: the block it asked for, and whether it has
changed the data since it last called `log_write` or `bwrite`. -/
structure Hold where
  key : Key
  touched : Bool

/-- The kernel, with processes named by a type. -/
structure System (P : Type) where
  buf : Fin nbuf → Buf
  links : Links Node
  /-- The buffers queued for the disk, the one being served first. -/
  idequeue : List (Fin nbuf)
  havedisk1 : Bool
  disk : Key → Block
  log : Log
  logDev : Dev
  pc : P → Pc
  held : P → Fin nbuf → Option Hold
  /-- The process is between `begin_op` and `end_op`. -/
  active : P → Bool
  contents : Key → Block
  pending : Key → Bool

/-- What can happen next. -/
inductive Event (P : Type) where
  | call (p : P) (c : Call)
  | next (p : P)
  | ideintr

variable {P : Type}

namespace System

/-! ## `bio.c` -/

/-- The loop of `binit`. -/
def binit : List (Fin nbuf) → Links Node → Links Node
  | [], links => links
  | b :: rest, links => binit rest (links.pushFront .head (.buf b))

/-- The system after `binit`, with an empty log of the given place and size. -/
def boot (disk : Key → Block) (havedisk1 : Bool) (logDev : Dev) (start size : Nat) : System P where
  buf := fun _ =>
    { busy := false, valid := false, dirty := false, dev := nodev, blockno := 0, data := Bytes.zero }
  links := binit (List.finRange nbuf) ⟨fun _ => .head, fun _ => .head⟩
  idequeue := []
  havedisk1 := havedisk1
  disk := disk
  log := { start, size, outstanding := 0, committing := false, lh := [] }
  logDev := logDev
  pc := fun _ => .run .idle
  held := fun _ _ => none
  active := fun _ => false
  contents := disk
  pending := fun _ => false

def setBuf (s : System P) (b : Fin nbuf) (value : Buf) : System P :=
  { s with buf := Function.update s.buf b value }

/-- The first loop of `bget` stops at the buffer of the block. -/
def caches (s : System P) (key : Key) : Node → Bool
  | .head => false
  | .buf b => (s.buf b).key = key

/-- The second loop of `bget` stops at a buffer that is neither busy nor dirty. -/
def clean (s : System P) : Node → Bool
  | .head => false
  | .buf b => !(s.buf b).busy && !(s.buf b).dirty

/-- `bget`. Nothing is returned while the caller sleeps on a busy buffer. -/
def bget (s : System P) (dev blockno : UInt32) : Except String (Option (Fin nbuf × System P)) :=
  match Links.search s.links.next .head (s.caches (dev, blockno)) (nbuf + 1) (s.links.next .head) with
  | some (some (.buf b)) =>
    if (s.buf b).busy then .ok none
    else .ok (some (b, s.setBuf b { s.buf b with busy := true }))
  | some none =>
    match Links.search s.links.prev .head s.clean (nbuf + 1) (s.links.prev .head) with
    | some (some (.buf b)) =>
      .ok (some (b, s.setBuf b
        { s.buf b with dev, blockno, busy := true, valid := false, dirty := false }))
    | some none => .error "bget: no buffers"
    | _ => .ok none
  | _ => .ok none

/-- The part of `brelse` under `bcache.lock`. -/
def release (s : System P) (b : Fin nbuf) : System P :=
  { s.setBuf b { s.buf b with busy := false } with
    links := (s.links.unlink (.buf b)).pushFront .head (.buf b) }

/-! ## `ide.c` -/

/-- Start the request for a buffer. A block to be written goes to the disk here. -/
def idestart (s : System P) (b : Fin nbuf) : Except String (System P) :=
  if (s.buf b).blockno.toNat ≥ fssize then .error "incorrect blockno"
  else if (s.buf b).dirty then
    .ok { s with disk := Function.update s.disk (s.buf b).key (s.buf b).data }
  else .ok s

/-- The part of `iderw` before it waits. -/
def iderw (s : System P) (b : Fin nbuf) : Except String (System P) :=
  if (s.buf b).busy = false then .error "iderw: buf not busy"
  else if (s.buf b).valid ∧ (s.buf b).dirty = false then .error "iderw: nothing to do"
  else if (s.buf b).dev ≠ 0 ∧ s.havedisk1 = false then .error "iderw: ide disk 1 not present"
  else if s.idequeue = [] then { s with idequeue := [b] }.idestart b
  else .ok { s with idequeue := s.idequeue ++ [b] }

/-- `iderw` waits until the buffer is valid and clean. -/
def served (s : System P) (b : Fin nbuf) : Bool := (s.buf b).valid && !(s.buf b).dirty

/-- The buffer of a request that is done. -/
def complete (s : System P) (b : Fin nbuf) : Buf :=
  { s.buf b with
    data := if (s.buf b).dirty then (s.buf b).data else s.disk (s.buf b).key
    valid := true
    dirty := false }

/-- The disk interrupt: the first request is done and the next one starts. -/
def ideintr (s : System P) : Except String (System P) :=
  match s.idequeue with
  | [] => .ok s
  | b :: rest =>
    let s :=
      { s.setBuf b (s.complete b) with
        idequeue := rest
        pending := if (s.buf b).dirty then Function.update s.pending (s.buf b).key false
          else s.pending }
    match rest with
    | [] => .ok s
    | c :: _ => s.idestart c

/-! ## The steps of a process -/

variable [DecidableEq P]

/-- A process goes on to another point. -/
def goto (s : System P) (p : P) (pc : Pc) : System P :=
  { s with pc := Function.update s.pc p pc }

/-- Note what a process knows of a buffer. -/
def hold (s : System P) (p : P) (b : Fin nbuf) (value : Option Hold) : System P :=
  { s with held := Function.update s.held p (Function.update (s.held p) b value) }

/-- Change the data of a held buffer. -/
def store (s : System P) (p : P) (b : Fin nbuf) (h : Hold) (data : Block) : System P :=
  (s.setBuf b { s.buf b with data }).hold p b (some { h with touched := true })

/-- The data of a held buffer are logged or written: it is dirty from here on. -/
def sync (s : System P) (p : P) (b : Fin nbuf) (h : Hold) : System P :=
  { (s.setBuf b { s.buf b with dirty := true }).hold p b (some { h with touched := false }) with
    contents := Function.update s.contents (s.buf b).key (s.buf b).data }

/-- One round of `write_log`: the block of a slot of the header goes to its log block. -/
def logSlot (s : System P) (tail blockno : Nat) (rest : Program) : Program :=
  .bread s.logDev (.ofNat (s.log.start + tail + 1)) fun dst =>
  .bread s.logDev (.ofNat blockno) fun src =>
  .memmove dst src (.bwrite dst (.brelse src (.brelse dst (.writeLog (tail + 1) rest))))

/-- One round of `install_trans`: a log block goes to the block of its slot. -/
def installSlot (s : System P) (tail blockno : Nat) (rest : Program) : Program :=
  .bread s.logDev (.ofNat (s.log.start + tail + 1)) fun lbuf =>
  .bread s.logDev (.ofNat blockno) fun dbuf =>
  .memmove dbuf lbuf (.bwrite dbuf (.brelse lbuf (.brelse dbuf (.installTrans (tail + 1) rest))))

/-- `bread` returns a buffer. -/
def give (s : System P) (p : P) (dev : Dev) (blockno : UInt32) (b : Fin nbuf)
    (rest : Fin nbuf → Program) : System P :=
  (s.hold p b (some ⟨(dev.val, blockno), false⟩)).goto p (.run (rest b))

/-- `bwrite` up to the point where it waits. -/
def bwrite (s : System P) (p : P) (b : Fin nbuf) (h : Hold) : Except String (System P) :=
  if (s.buf b).busy = false then .error "bwrite" else (s.sync p b h).iderw b

/-- `log_write` under `log.lock`. -/
def record (s : System P) (p : P) (b : Fin nbuf) (h : Hold) : System P :=
  { s.sync p b h with
    log := s.log.logRecord (s.buf b).blockno.toNat
    pending := Function.update s.pending (s.buf b).key true }

/-- A process begins its next call. Nothing is returned while it sleeps, is in its own code or
would use a buffer in a way that it may not. -/
def begin (s : System P) (p : P) : Program → Except String (Option (System P))
  | .idle => .ok none
  | .bread dev blockno rest => do
    match ← s.bget dev.val blockno with
    | none => .ok none
    | some (b, s) => .ok (some (s.goto p (.got dev blockno b rest)))
  | .write b data rest =>
    match s.held p b with
    | none => .ok none
    | some h => .ok (some ((s.store p b h data).goto p (.run rest)))
  | .memmove dst src rest =>
    match s.held p dst, s.held p src with
    | some h, some _ => .ok (some ((s.store p dst h (s.buf src).data).goto p (.run rest)))
    | _, _ => .ok none
  | .logWrite b rest =>
    match s.log.logTest with
    | .error message => .error message
    | .ok _ => .ok (some (s.goto p (.logging b rest)))
  | .bwrite b rest =>
    match s.held p b with
    | none => .ok none
    | some h => do
      let s ← s.bwrite p b h
      .ok (some (s.goto p (.writing b rest)))
  | .brelse b rest =>
    match s.held p b with
    | none => .ok none
    | some h =>
      if h.touched then .ok none
      else if (s.buf b).busy = false then .error "brelse"
      else .ok (some (((s.release b).hold p b none).goto p (.run rest)))
  | .beginOp rest =>
    match s.log.beginOp with
    | none => .ok none
    | some log =>
      if s.active p then .ok none
      else .ok (some ({ s with log, active := Function.update s.active p true }.goto p (.run rest)))
  | .endOp rest =>
    if s.active p then do
      let (doCommit, log) ← s.log.endOp
      .ok (some ({ s with log, active := Function.update s.active p false }.goto p
        (.run (if doCommit then .commit rest else rest))))
    else .ok none
  | .commit rest =>
    .ok (some (s.goto p (.run (if s.log.lh.length > 0 then
      .writeLog 0 (.writeHead (.installTrans 0 (.clearHead (.writeHead (.committed rest)))))
      else .committed rest))))
  | .writeLog tail rest =>
    match s.log.lh[tail]? with
    | none => .ok (some (s.goto p (.run rest)))
    | some blockno => .ok (some (s.goto p (.run (s.logSlot tail blockno rest))))
  | .writeHead rest =>
    .ok (some (s.goto p (.run (.bread s.logDev (.ofNat s.log.start) fun b =>
      .storeHead b (.bwrite b (.brelse b rest))))))
  | .storeHead b rest =>
    match s.held p b with
    | none => .ok none
    | some h =>
      .ok (some ((s.store p b h (Machine.storeHead (s.buf b).data s.log.lh)).goto p (.run rest)))
  | .installTrans tail rest =>
    match s.log.lh[tail]? with
    | none => .ok (some (s.goto p (.run rest)))
    | some blockno => .ok (some (s.goto p (.run (s.installSlot tail blockno rest))))
  | .clearHead rest => .ok (some ({ s with log := { s.log with lh := [] } }.goto p (.run rest)))
  | .committed rest =>
    .ok (some ({ s with log := { s.log with committing := false } }.goto p (.run rest)))

/-- A process goes on. -/
def next (s : System P) (p : P) : Except String (Option (System P)) :=
  match s.pc p with
  | .run program => s.begin p program
  | .got dev blockno b rest =>
    if (s.buf b).valid then .ok (some (s.give p dev blockno b rest))
    else do
      let s ← s.iderw b
      .ok (some (s.goto p (.reading dev blockno b rest)))
  | .reading dev blockno b rest =>
    .ok (if s.served b then some (s.give p dev blockno b rest) else none)
  | .logging b rest =>
    match s.held p b with
    | none => .ok none
    | some h => .ok (some ((s.record p b h).goto p (.run rest)))
  | .writing b rest => .ok (if s.served b then some (s.goto p (.run rest)) else none)

/-- One step of the system. -/
def step (s : System P) : Event P → Except String (Option (System P))
  | .call p c =>
    match s.pc p with
    | .run .idle => .ok (some (s.goto p (.run c.program)))
    | _ => .ok none
  | .next p => s.next p
  | .ideintr => do
    let s ← s.ideintr
    .ok (some s)

/-- The state after a list of events. -/
def run (s : System P) (events : List (Event P)) : Option (System P) := Runs.run step s events

end System

end Xv6.Bio
