import Xv6.Lib.Chains
import Xv6.Lib.Runs
import Xv6.Param

/-!
# The disk driver

The functions of `ide.c`, with the queue as the pointers it is made of, and a drive that
works on one command at a time. A step is a stretch under `idelock`, or one of a process on
a buffer that it holds. The drive raises one interrupt for each command; the status that
`idewait` reads then is given with the interrupt, and so is what a failed write leaves on
the disk. Waiting for the drive to take a command is left out.

The callers are those of `bio.c`: `bget` gives out buffers, which unused buffer it takes
being left open, and a process calls `iderw`, writes to a buffer or marks it dirty only while
it holds the buffer. The processes and the buffers are any two types. Device numbers are
those of the two disks. `issued` and `completed` record the requests in the order in which
they were queued and finished.
-/

namespace Xv6.Ide

/-- Bytes of a sector, `SECTOR_SIZE`. -/
def sectorSize : Nat := 512

/-- `IDE_BSY`. -/
def ideBsy : UInt8 := 0x80

/-- `IDE_DRDY`. -/
def ideDrdy : UInt8 := 0x40

/-- `IDE_DF`. -/
def ideDf : UInt8 := 0x20

/-- `IDE_ERR`. -/
def ideErr : UInt8 := 0x01

/-- The drive reports that the command failed. -/
def failed (status : UInt8) : Bool := status &&& (ideDf ||| ideErr) ≠ 0

/-- `idewait`, with the status that it reads. There is no result while the drive is not
ready. -/
def idewait (status : UInt8) (checkerr : Bool) : Option Int :=
  if status &&& (ideBsy ||| ideDrdy) ≠ ideDrdy then none
  else if checkerr ∧ failed status then some (-1)
  else some 0

/-- `struct buf` without the links of the cache. -/
structure Buf (B : Type) where
  busy : Bool
  valid : Bool
  dirty : Bool
  dev : UInt32
  blockno : UInt32
  qnext : Option B
  data : Block

/-- A sector of one of the two disks, as the registers of the drive give it. -/
structure Address where
  disk1 : Bool
  sector : Nat
  deriving DecidableEq

/-- A command to the drive. -/
inductive Command where
  | read (source : Address)
  | write (target : Address) (data : Block)

/-- Sectors of a block. -/
def sectorPerBlock : Nat := bsize / sectorSize

namespace Buf

variable {B : Type}

/-- The device and the block number. -/
def key (buf : Buf B) : UInt32 × UInt32 := (buf.dev, buf.blockno)

/-- The registers have one bit for the disk and 28 for the sector. -/
def address (buf : Buf B) : Address :=
  ⟨buf.dev &&& 1 ≠ 0, buf.blockno.toNat * sectorPerBlock % 2 ^ 28⟩

/-- The command for a buffer. -/
def request (buf : Buf B) : Command :=
  if buf.dirty then .write buf.address buf.data else .read buf.address

/-- The condition that `iderw` waits for. -/
def served (buf : Buf B) : Bool := buf.valid && !buf.dirty

end Buf

/-- The driver, the drive and the callers. -/
structure System (P B : Type) where
  buf : B → Buf B
  idequeue : Option B
  havedisk1 : Bool
  disk : Address → Block
  /-- What the drive is at work on. -/
  command : Option Command
  /-- The process that holds a buffer. -/
  owner : B → Option P
  /-- The buffer for which a process waits in `iderw`. -/
  waits : P → Option B
  issued : List B
  completed : List B

/-- What can happen next. -/
inductive Event (P B : Type) where
  /-- `bget` of a block of a disk returns a buffer. -/
  | bget (p : P) (disk1 : Bool) (blockno : UInt32) (b : B)
  | store (p : P) (b : B) (data : Block)
  /-- `b->flags |= B_DIRTY`, in `bwrite` and `log_write`. -/
  | mark (p : P) (b : B)
  | iderw (p : P) (b : B)
  /-- `iderw` returns. -/
  | done (p : P)
  | brelse (p : P) (b : B)
  /-- The drive is done with its command. -/
  | interrupt (status : UInt8) (damage : Block)

variable {P B : Type}

namespace System

/-- The device number of a buffer that holds no block. -/
def nodev : UInt32 := 0xffffffff

/-- The device number of a disk. -/
def devOf (disk1 : Bool) : UInt32 := if disk1 then 1 else 0

/-- The system after `binit` and `ideinit`. -/
def boot (disk : Address → Block) (havedisk1 : Bool) : System P B where
  buf := fun _ =>
    { busy := false, valid := false, dirty := false, dev := nodev, blockno := 0, qnext := none
      data := Bytes.zero }
  idequeue := none
  havedisk1 := havedisk1
  disk := disk
  command := none
  owner := fun _ => none
  waits := fun _ => none
  issued := []
  completed := []

variable [DecidableEq B]

def setBuf (s : System P B) (b : B) (value : Buf B) : System P B :=
  { s with buf := Function.update s.buf b value }

/-- Start the request for a buffer. -/
def idestart (s : System P B) (b : B) : Except String (System P B) :=
  if (s.buf b).blockno.toNat ≥ fssize then .error "incorrect blockno"
  else if sectorPerBlock > 7 then .error "idestart"
  else .ok { s with command := some (s.buf b).request }

section Queue

variable [Fintype B]

/-- Append a buffer to the queue. Nothing is returned if the loop does not end. -/
def append (s : System P B) (b : B) : Option (System P B) :=
  let s := s.setBuf b { s.buf b with qnext := none }
  match s.idequeue with
  | none => some { s with idequeue := some b }
  | some first =>
    (Chain.last (fun c => (s.buf c).qnext) (Fintype.card B) first).map fun last =>
      s.setBuf last { s.buf last with qnext := some b }

/-- Start the disk if the buffer is the first in the queue. -/
def startIfFirst (s : System P B) (b : B) : Except String (System P B) :=
  if s.idequeue = some b then s.idestart b else .ok s

/-- The part of `iderw` before it waits. -/
def iderw (s : System P B) (b : B) : Except String (Option (System P B)) :=
  if (s.buf b).busy = false then .error "iderw: buf not busy"
  else if (s.buf b).served then .error "iderw: nothing to do"
  else if (s.buf b).dev ≠ 0 ∧ s.havedisk1 = false then .error "iderw: ide disk 1 not present"
  else
    match s.append b with
    | none => .ok none
    | some s => do
      let s ← s.startIfFirst b
      .ok (some { s with issued := s.issued ++ [b] })

end Queue

/-- The buffer of a request that is done, with the data that the drive has for the processor.
There is none while the drive is not ready. -/
def complete (s : System P B) (b : B) (status : UInt8) (port : Block) : Option (Buf B) :=
  if (s.buf b).dirty then some { s.buf b with valid := true, dirty := false }
  else (idewait status true).map fun r : Int =>
    { s.buf b with data := if r ≥ 0 then port else (s.buf b).data, valid := true, dirty := false }

/-- `ideintr`. -/
def ideintr (s : System P B) (status : UInt8) (port : Block) :
    Except String (Option (System P B)) :=
  match s.idequeue with
  | none => .ok (some s)
  | some b =>
    match s.complete b status port with
    | none => .ok none
    | some value => do
      let s :=
        { s.setBuf b value with
          idequeue := (s.buf b).qnext
          completed := s.completed ++ [b] }
      match s.idequeue with
      | none => .ok (some s)
      | some next =>
        let s ← s.idestart next
        .ok (some s)

/-- What the drive leaves on the disk. A command that fails may leave anything in the sector
that it was to write. -/
def perform (disk : Address → Block) (status : UInt8) (damage : Block) : Command → Address → Block
  | .read _ => disk
  | .write target data => Function.update disk target (if failed status then damage else data)

/-- The data that the drive has for the processor at the end of a command. -/
def output (disk : Address → Block) : Command → Block
  | .read source => disk source
  | .write _ data => data

/-- The process holds the buffer and is not in `iderw`. -/
def holds [DecidableEq P] (s : System P B) (p : P) (b : B) : Bool :=
  s.owner b = some p && (s.waits p).isNone

variable [DecidableEq P] [Fintype B]

/-- One step of the system. -/
def step (s : System P B) : Event P B → Except String (Option (System P B))
  | .bget p disk1 blockno b =>
    let take (value : Buf B) : System P B :=
      { s.setBuf b { value with busy := true } with owner := Function.update s.owner b (some p) }
    if s.waits p ≠ none ∨ (s.buf b).busy then .ok none
    else if (s.buf b).key = (devOf disk1, blockno) then .ok (some (take (s.buf b)))
    else if (∃ c, (s.buf c).key = (devOf disk1, blockno)) ∨ (s.buf b).dirty then .ok none
    else
      .ok (some (take { s.buf b with dev := devOf disk1, blockno, valid := false, dirty := false }))
  | .store p b data =>
    .ok (if s.holds p b then some (s.setBuf b { s.buf b with data }) else none)
  | .mark p b =>
    .ok (if s.holds p b then some (s.setBuf b { s.buf b with dirty := true }) else none)
  | .iderw p b =>
    if s.holds p b then do
      match ← s.iderw b with
      | none => .ok none
      | some s => .ok (some { s with waits := Function.update s.waits p (some b) })
    else .ok none
  | .done p =>
    match s.waits p with
    | none => .ok none
    | some b =>
      .ok (if (s.buf b).served then some { s with waits := Function.update s.waits p none }
        else none)
  | .brelse p b =>
    .ok (if s.holds p b then
      some { s.setBuf b { s.buf b with busy := false } with
        owner := Function.update s.owner b none }
      else none)
  | .interrupt status damage =>
    match s.command with
    | none => .ok none
    | some command =>
      { s with disk := perform s.disk status damage command, command := none }.ideintr status
        (output s.disk command)

/-- The state after a list of events. -/
def run (s : System P B) (events : List (Event P B)) : Option (System P B) :=
  Runs.run step s events

end System

end Xv6.Ide
