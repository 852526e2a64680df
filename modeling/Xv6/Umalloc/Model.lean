import Xv6.Lib.Runs
import Xv6.Lib.Spans

/-!
# The user heap allocator

`malloc` and `free` of `umalloc.c`. Addresses and sizes are counted in units of a `Header`,
and memory is what a header at each address would hold. The static header `base` lies below
the heap. `sbrk` fails or gives the units at the end of the heap. Requests are small enough
that nothing overflows, so that sizes are natural numbers. The loops are given more rounds
than there can be blocks; nothing is returned when they do not end within these.

Programs write what they like into the blocks that they were given. `live` records these
blocks with their headers.
-/

namespace Xv6.Umalloc

/-- `Header`: the address of the next free block and the size of this one. -/
structure Header where
  ptr : Nat
  size : Nat

/-- Bytes of a `Header`. -/
def headerSize : Nat := 8

abbrev Memory := Nat → Header

/-- The allocator and the memory of a program. -/
structure Heap where
  mem : Memory
  /-- The address of `base`. -/
  base : Nat
  freep : Option Nat
  /-- The first address of the heap. -/
  start : Nat
  /-- The end of the heap. -/
  brk : Nat
  live : List Span

/-- The loop of `free`, from a block of the list on. -/
def findPlace (mem : Memory) (bp : Nat) : Nat → Nat → Option Nat
  | 0, _ => none
  | rounds + 1, p =>
    if bp > p ∧ bp < (mem p).ptr then some p
    else if p ≥ (mem p).ptr ∧ (bp > p ∨ bp < (mem p).ptr) then some p
    else findPlace mem bp rounds (mem p).ptr

/-- Link a block to the next one, or join them if they touch. -/
def attach (mem : Memory) (b next : Nat) : Memory :=
  if b + (mem b).size = next then
    Function.update mem b ⟨(mem next).ptr, (mem b).size + (mem next).size⟩
  else Function.update mem b ⟨next, (mem b).size⟩

namespace Heap

/-- Rounds enough for any list of blocks in the heap. -/
def rounds (h : Heap) : Nat := h.brk - h.start + 2

/-- `free`, of the block with a header. The list is there by then. -/
def free (h : Heap) (bp : Nat) : Option Heap :=
  match h.freep with
  | none => none
  | some freep =>
    (findPlace h.mem bp h.rounds freep).map fun p =>
      { h with mem := attach (attach h.mem bp (h.mem p).ptr) p bp, freep := some p }

/-- `morecore`, with what `sbrk` does to the heap for a number of units: it returns the old
break, and nothing for -1. The first free block is returned. -/
def morecore (h : Heap) (sbrk : Heap → Nat → Heap × Option Nat) (nu : Nat) :
    Option (Heap × Option Nat) :=
  let nu := if nu < 4096 then 4096 else nu
  match sbrk h nu with
  | (h, none) => some (h, none)
  | (h, some hp) =>
    ({ h with mem := Function.update h.mem hp { h.mem hp with size := nu } }.free hp).map
      fun h => (h, h.freep)

/-- The part of `malloc` that takes a block, or its end, from the list. -/
def carve (h : Heap) (prevp p nunits : Nat) : Heap × Option Nat :=
  if (h.mem p).size = nunits then
    ({ h with
        mem := Function.update h.mem prevp { h.mem prevp with ptr := (h.mem p).ptr }
        freep := some prevp }, some p)
  else
    let rest := (h.mem p).size - nunits
    let mem := Function.update h.mem p { h.mem p with size := rest }
    ({ h with
        mem := Function.update mem (p + rest) { mem (p + rest) with size := nunits }
        freep := some prevp }, some (p + rest))

/-- The loop of `malloc`, with the call of `morecore` in it. It returns the header of the
block, if there is one. -/
def search (more : Heap → Option (Heap × Option Nat)) (nunits : Nat) :
    Nat → Heap → Nat → Nat → Option (Heap × Option Nat)
  | 0, _, _, _ => none
  | rounds + 1, h, prevp, p =>
    if (h.mem p).size ≥ nunits then some (h.carve prevp p nunits)
    else if h.freep = some p then
      match more h with
      | none => none
      | some (h, none) => some (h, none)
      | some (h, some p) => search more nunits rounds h p (h.mem p).ptr
    else search more nunits rounds h p (h.mem p).ptr

/-- The units of a block for a number of bytes. -/
def unitsFor (nbytes : Nat) : Nat := (nbytes + headerSize - 1) / headerSize + 1

/-- The list with `base` in it, if there is none yet. -/
def ensureBase (h : Heap) : Heap × Nat :=
  match h.freep with
  | some prevp => (h, prevp)
  | none =>
    ({ h with mem := Function.update h.mem h.base ⟨h.base, 0⟩, freep := some h.base }, h.base)

/-- `malloc` of a number of units. -/
def mallocUnits (h : Heap) (sbrk : Heap → Nat → Heap × Option Nat) (nunits : Nat) :
    Option (Heap × Option Nat) :=
  let (h, prevp) := h.ensureBase
  search (fun h => h.morecore sbrk nunits) nunits (2 * h.rounds) h prevp (h.mem prevp).ptr

/-- `sbrk`, and whether it gives memory. -/
def grow (granted : Bool) (h : Heap) (nu : Nat) : Heap × Option Nat :=
  if granted then ({ h with brk := h.brk + nu }, some h.brk) else (h, none)

/-- `malloc`. -/
def malloc (h : Heap) (nbytes : Nat) (granted : Bool) : Option (Heap × Option Nat) :=
  h.mallocUnits (grow granted) (unitsFor nbytes)

end Heap

/-- What a program does. -/
inductive Event where
  /-- `malloc`, and whether `sbrk` gives it memory if it asks. -/
  | malloc (nbytes : Nat) (granted : Bool)
  /-- `free` of a block that was returned and not freed since. -/
  | free (block : Span)
  /-- A store into a block. -/
  | write (block : Span) (addr : Nat) (value : Header)

namespace Heap

/-- A program with an empty heap. -/
def boot (mem : Memory) (base start : Nat) : Heap :=
  { mem, base, freep := none, start, brk := start, live := [] }

/-- One step. A loop that does not end is an error. -/
def step (h : Heap) : Event → Except Unit (Option Heap)
  | .malloc nbytes granted =>
    match h.malloc nbytes granted with
    | none => .error ()
    | some (h, none) => .ok (some h)
    | some (h, some p) => .ok (some { h with live := ⟨p, unitsFor nbytes⟩ :: h.live })
  | .free block =>
    if block ∈ h.live then
      match h.free block.addr with
      | none => .error ()
      | some h => .ok (some { h with live := h.live.erase block })
    else .ok none
  | .write block addr value =>
    .ok (if block ∈ h.live ∧ block.addr < addr ∧ addr < block.stop then
      some { h with mem := Function.update h.mem addr value }
      else none)

/-- The heap after a list of events. -/
def run (h : Heap) (events : List Event) : Option Heap := Runs.run step h events

end Heap

end Xv6.Umalloc
