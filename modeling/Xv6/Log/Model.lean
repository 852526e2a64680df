import Xv6.Lib.Writes
import Xv6.Param

/-!
# The redo log of `log.c`

`Log` is the in-memory `struct log`; its header keeps the logged block numbers
in order, so `lh.n` is the length of the list. `Machine` adds what the log code
reads and writes: the buffer cache, the disk and the block-sized disk writes it
has issued, oldest first.

A buffer holds the contents of its block and the `B_DIRTY` flag. `bget` may
recycle any clean buffer at any access, its own or that of another process; the
choice is made by the oracle `steal`, so every result holds for every recycling
order. The device number is left out because there is one device. A process that
has to sleep in `begin_op` is not a step of the system; it is one once it may
proceed.
-/

namespace Xv6

/-- `struct log`, with `lh.block[0 .. lh.n)` as a list. -/
structure Log where
  start : Nat
  size : Nat
  outstanding : Nat
  committing : Bool
  lh : List Nat

namespace Log

/-- `begin_op`: `none` while the operation has to sleep, either for a commit in
progress or because it might exhaust the log space. -/
def beginOp (log : Log) : Option Log :=
  if log.committing then none
  else if log.lh.length + (log.outstanding + 1) * maxopblocks > logsize then none
  else some { log with outstanding := log.outstanding + 1 }

/-- The scan of `log_write`: a block number already in the header is absorbed,
a new one takes the next slot. -/
def record (lh : List Nat) (blockno : Nat) : List Nat :=
  if blockno ∈ lh then lh else lh ++ [blockno]

/-- The tests of `log_write`, before it takes `log.lock`. -/
def logTest (log : Log) : Except String Unit :=
  if log.lh.length ≥ logsize ∨ log.lh.length ≥ log.size - 1 then
    .error "too big a transaction"
  else if log.outstanding < 1 then
    .error "log_write outside of trans"
  else
    .ok ()

/-- `log_write` under `log.lock`. -/
def logRecord (log : Log) (blockno : Nat) : Log := { log with lh := record log.lh blockno }

/-- `log_write` on the header. Here the tests and the recording are one step. In the source
other processes can record blocks in between; `Bio.System` has two steps. -/
def logWrite (log : Log) (blockno : Nat) : Except String Log := do
  log.logTest
  .ok (log.logRecord blockno)

/-- The first critical section of `end_op`; the flag says whether the caller
has to commit. -/
def endOp (log : Log) : Except String (Bool × Log) :=
  if log.committing then
    .error "log.committing"
  else if log.outstanding - 1 = 0 then
    .ok (true, { log with outstanding := log.outstanding - 1, committing := true })
  else
    .ok (false, { log with outstanding := log.outstanding - 1 })

end Log

/-- A valid buffer of the cache. -/
structure Buf where
  data : Block
  dirty : Bool

/-- What the log code works on. `tick` counts buffer accesses. -/
structure Machine where
  log : Log
  cache : Nat → Option Buf
  disk : Disk
  writes : List (Nat × Block)
  tick : Nat

namespace Machine

/-- The kernel right after boot: nothing cached, nothing logged. -/
def boot (start size : Nat) (disk : Disk) : Machine where
  log := { start, size, outstanding := 0, committing := false, lh := [] }
  cache := fun _ => none
  disk := disk
  writes := []
  tick := 0

section
variable (steal : Nat → Nat → Bool)

/-- Before each access the oracle may recycle clean buffers; a dirty buffer is
pinned until the log has written it. -/
def recycle (m : Machine) : Machine :=
  { m with
    cache := fun blockno => (m.cache blockno).filter fun buf => buf.dirty || !steal m.tick blockno
    tick := m.tick + 1 }

/-- `bread`: the cached contents, or those of the disk, which are then cached. -/
def bread (m : Machine) (blockno : Nat) : Block × Machine :=
  let m := m.recycle steal
  match m.cache blockno with
  | some buf => (buf.data, m)
  | none =>
    (m.disk blockno,
      { m with cache := Function.update m.cache blockno (some ⟨m.disk blockno, false⟩) })

/-- `bwrite`: the buffer's new contents go to the disk and the buffer is clean. -/
def bwrite (m : Machine) (blockno : Nat) (data : Block) : Machine :=
  { m with
    cache := Function.update m.cache blockno (some ⟨data, false⟩)
    disk := Function.update m.disk blockno data
    writes := m.writes ++ [(blockno, data)] }

/-- The loop of `install_trans` from slot `tail` on. -/
def installFrom : List Nat → Nat → Machine → Machine
  | [], _, m => m
  | blockno :: rest, tail, m =>
    let (lbuf, m) := m.bread steal (m.log.start + tail + 1)
    let (_, m) := m.bread steal blockno
    installFrom rest (tail + 1) (m.bwrite blockno lbuf)

/-- `install_trans`: copy committed blocks from the log to their home location. -/
def installTrans (m : Machine) : Machine := installFrom steal m.log.lh 0 m

/-- The stores of `write_head` into `hb->block` from slot `i` on. -/
def storeBlocks : List Nat → Nat → Block → Block
  | [], _, buf => buf
  | blockno :: rest, i, buf => storeBlocks rest (i + 1) (buf.putU32 (4 + 4 * i) blockno)

/-- The header block after `write_head` has stored `hb->n` and the block numbers;
the bytes behind them stay. -/
def storeHead (buf : Block) (lh : List Nat) : Block :=
  storeBlocks lh 0 (buf.putU32 0 lh.length)

/-- The `int n` of a header block as a loop bound; a negative one runs no loop. -/
def headCount (buf : Block) : Nat :=
  if buf.u32 0 < 2 ^ 31 then buf.u32 0 else 0

/-- The block numbers `read_head` takes from the header block. -/
def loadHead (buf : Block) : List Nat :=
  (List.range (headCount buf)).map fun i => buf.u32 (4 + 4 * i)

/-- `read_head`. -/
def readHead (m : Machine) : Machine :=
  let (buf, m) := m.bread steal m.log.start
  { m with log := { m.log with lh := loadHead buf } }

/-- `write_head`, the true point at which the current transaction commits. -/
def writeHead (m : Machine) : Machine :=
  let (buf, m) := m.bread steal m.log.start
  m.bwrite m.log.start (storeHead buf m.log.lh)

/-- `log.lh.n = 0`. -/
def clearHead (m : Machine) : Machine := { m with log := { m.log with lh := [] } }

/-- `recover_from_log`. -/
def recoverFromLog (m : Machine) : Machine :=
  ((m.readHead steal).installTrans steal).clearHead.writeHead steal

/-- The loop of `write_log` from slot `tail` on. -/
def writeLogFrom : List Nat → Nat → Machine → Machine
  | [], _, m => m
  | blockno :: rest, tail, m =>
    let (_, m) := m.bread steal (m.log.start + tail + 1)
    let (source, m) := m.bread steal blockno
    writeLogFrom rest (tail + 1) (m.bwrite (m.log.start + tail + 1) source)

/-- `write_log`: copy modified blocks from cache to log. -/
def writeLog (m : Machine) : Machine := writeLogFrom steal m.log.lh 0 m

/-- `commit`. -/
def commit (m : Machine) : Machine :=
  if m.log.lh.length > 0 then
    ((((m.writeLog steal).writeHead steal).installTrans steal).clearHead).writeHead steal
  else m

/-- `begin_op`. -/
def beginOp (m : Machine) : Option Machine :=
  m.log.beginOp.map fun log => { m with log }

/-- `log_write` by a caller that has stored `data` in the buffer of `blockno`. -/
def logWrite (m : Machine) (blockno : Nat) (data : Block) : Except String Machine := do
  let log ← m.log.logWrite blockno
  return { m with log, cache := Function.update m.cache blockno (some ⟨data, true⟩) }

/-- `end_op`; the last outstanding operation commits. -/
def endOp (m : Machine) : Except String Machine := do
  let (doCommit, log) ← m.log.endOp
  if doCommit then
    let m := ({ m with log } : Machine).commit steal
    return { m with log := { m.log with committing := false } }
  else
    return { m with log }

end

end Machine

/-- What a process does next to the log. Operations are told apart by number;
`bread` is an access to any block by anyone. -/
inductive Event where
  | beginOp (op : Nat)
  | logWrite (op : Nat) (blockno : UInt32) (data : Block)
  | endOp (op : Nat)
  | bread (blockno : UInt32)

/-- Why an event does not happen: the process sleeps or has no operation in
progress, or the kernel panics. -/
inductive Stop where
  | refused
  | panic (message : String)
  deriving DecidableEq

/-- The machine with the operations between their `begin_op` and `end_op`. -/
structure System where
  machine : Machine
  active : List Nat

namespace System

/-- A booted machine with no operation in progress. -/
def boot (start size : Nat) (disk : Disk) : System := ⟨.boot start size disk, []⟩

variable (steal : Nat → Nat → Bool)

/-- A call that may panic, as a step that may stop. -/
def panicking {α : Type} : Except String α → Except Stop α
  | .ok value => .ok value
  | .error message => .error (.panic message)

/-- One event of one process. -/
def step (s : System) : Event → Except Stop System
  | .beginOp op =>
    if op ∈ s.active then .error .refused
    else match s.machine.beginOp with
      | none => .error .refused
      | some machine => .ok ⟨machine, op :: s.active⟩
  | .logWrite op blockno data =>
    if op ∈ s.active then do
      let machine ← panicking (s.machine.logWrite blockno.toNat data)
      return ⟨machine, s.active⟩
    else .error .refused
  | .endOp op =>
    if op ∈ s.active then do
      let machine ← panicking (s.machine.endOp steal)
      return ⟨machine, s.active.erase op⟩
    else .error .refused
  | .bread blockno => .ok { s with machine := (s.machine.bread steal blockno.toNat).2 }

/-- A run: the events in the order in which they happen. -/
def run (s : System) : List Event → Except Stop System
  | [] => .ok s
  | event :: rest => do
    let s ← s.step steal event
    s.run rest

end System

end Xv6
