import Xv6.Lib.Bytes

/-!
# System parameters

The constants of `param.h` and `fs.h` under the source's names. Those that are
written as products or quotients there are written so here.
-/

namespace Xv6

/-- Blocks one file system operation may log, `MAXOPBLOCKS`. -/
def maxopblocks : Nat := 10

/-- Slots of the in-memory log header, `LOGSIZE`. -/
def logsize : Nat := maxopblocks * 3

/-- Bytes in a disk block, `BSIZE`. -/
def bsize : Nat := 512

/-- Blocks in the file system image that `mkfs` builds, `FSSIZE`. -/
def fssize : Nat := 1000

/-- The contents of one disk block. -/
abbrev Block := Bytes bsize

/-- Contents of all blocks of the one device. -/
abbrev Disk := Nat → Block

@[simp] theorem logsize_eq : logsize = 30 := rfl
@[simp] theorem bsize_eq : bsize = 512 := rfl
@[simp] theorem fssize_eq : fssize = 1000 := rfl

end Xv6
