import Xv6.Lib.Traced
import Xv6.Vm.Layout

/-!
# Physical pages and page tables

A model of `kalloc.c` and of the page table functions of `vm.c` over the bytes of
physical memory. The free list runs through the first word of the free pages,
directories and tables are pages of 1024 words, and every function reads and
writes them where the source does.

A call of `kalloc` may fail even when pages are left: `refuse` says which calls
of the current system call do. Three counters that the source does not have help
to state the properties below: `free` counts the pages of the free list, `denied`
the page-table pages that `walkpgdir` could not get, and `torn` the pages that
`allocuvm` allocated but could not map. No function reads them.

`Except.error` is `panic`, with the source's text. A kernel access to an address
that is not mapped, or not writable, ends in `trap`'s panic of that name.
-/

namespace Xv6

/-- The contents of one physical page. -/
abbrev Page := Bytes pgsize

/-- The contents of a regular file that is read but not written. -/
abbrev Image := List UInt8

/-- `readi` on a regular file: the bytes from an offset on, up to the end of the
file. -/
def Image.readi (ip : Image) (off n : Nat) : Option (List UInt8) :=
  if ip.length < off ∨ 2 ^ 32 ≤ off + n then none
  else some ((ip.drop off).take n)

/-- Physical memory and the page allocator. -/
structure Vm where
  /-- Contents of each physical page. -/
  page : Nat → Page
  /-- `kmem.freelist`, a kernel virtual address, zero for the empty list. -/
  freelist : Nat
  /-- Pages on the free list. -/
  free : Nat
  /-- Which calls of `kalloc` fail, by their number in the current system call. -/
  refuse : Nat → Bool
  /-- Calls of `kalloc` so far in the current system call. -/
  tick : Nat
  /-- Page-table pages that `walkpgdir` asked for and did not get. -/
  denied : Nat
  /-- Pages that `allocuvm` allocated and could not map. -/
  torn : Nat

namespace Vm

/-- Word `index` of a page: an entry of a directory or of a table. -/
def word (m : Vm) (page index : Nat) : Nat := (m.page page).u32 (4 * index)

/-- Replace the contents of a page. -/
def setPage (m : Vm) (page : Nat) (contents : Page) : Vm :=
  { m with page := Function.update m.page page contents }

/-- Store word `index` of a page. -/
def store (m : Vm) (page index value : Nat) : Vm :=
  m.setPage page ((m.page page).putU32 (4 * index) value)

/-- `memset` of a page to zero. -/
def zero (m : Vm) (page : Nat) : Vm := m.setPage page Bytes.zero

/-- A store of some bytes into a page through the kernel's direct map. -/
def put (m : Vm) (layout : Layout) (page offset : Nat) (bytes : List UInt8) :
    Except String Vm :=
  if bytes.isEmpty then .ok m
  else if layout.writable page then
    .ok (m.setPage page ((m.page page).blit offset bytes.length fun position =>
      bytes.getD position 0))
  else .error "trap"

/-- Fill a page with junk and put it at the head of the free list. -/
def push (m : Vm) (page : Nat) : Vm :=
  let junk : Page := Bytes.ofFn fun _ => 1
  { m.setPage page (junk.putU32 0 m.freelist) with
    freelist := p2v (page * pgsize)
    free := m.free + 1 }

/-- Free the page of physical memory with the given number. -/
def kfree (m : Vm) (layout : Layout) (page : Nat) : Except String Vm :=
  if layout.Managed page then .ok (m.push page) else .error "kfree"

/-- Allocate one page of physical memory. -/
def kalloc (m : Vm) : Option Nat × Vm :=
  let later := { m with tick := m.tick + 1 }
  if m.refuse m.tick || m.freelist == 0 then (none, later)
  else
    let page := v2p m.freelist / pgsize
    (some page, { later with freelist := m.word page 0, free := m.free - 1 })

/-- Free every whole page between two kernel virtual addresses. -/
def freerange (layout : Layout) (m : Vm) (p vend : Nat) : Except String Vm :=
  if p + pgsize ≤ vend then
    match m.kfree layout (v2p p / pgsize) with
    | .error message => .error message
    | .ok m => freerange layout m (p + pgsize) vend
  else .ok m
termination_by vend - p
decreasing_by simp only [pgsize_eq] at *; omega

/-- Find the entry for a virtual address, as a table page and an index. With
`alloc` a missing page table is created. -/
def walkpgdir (m : Vm) (pgdir va : Nat) (alloc : Bool) : Option (Nat × Nat) × Vm :=
  let pde := m.word pgdir (pdx va)
  if present pde then (some (frame pde, ptx va), m)
  else if alloc then
    match m.kalloc with
    | (none, m) => (none, { m with denied := m.denied + 1 })
    | (some pgtab, m) =>
      (some (pgtab, ptx va), (m.zero pgtab).store pgdir (pdx va)
        (pgtab * pgsize ||| pteP ||| pteW ||| pteU))
  else (none, m)

/-- The loop of `mappages`. The addresses are multiples of the page size, so the
loop meets `last` within as many rounds as the address space has pages. -/
def mapLoop : (rounds : Nat) → Vm → (pgdir a last pa perm : Nat) → Except String (Bool × Vm)
  | 0, _, _, _, _, _, _ => .error "mappages"
  | rounds + 1, m, pgdir, a, last, pa, perm =>
    match m.walkpgdir pgdir a true with
    | (none, m) => .ok (false, m)
    | (some (pgtab, index), m) =>
      if present (m.word pgtab index) then .error "remap"
      else
        let m := m.store pgtab index (mkPte pa perm)
        if a = last then .ok (true, m)
        else mapLoop rounds m pgdir ((a + pgsize) % 2 ^ 32) last ((pa + pgsize) % 2 ^ 32) perm

/-- Create entries for the virtual addresses from `va` on. -/
def mappages (m : Vm) (pgdir va size pa perm : Nat) : Except String (Bool × Vm) :=
  mapLoop (2 ^ 20) m pgdir (pgrounddown va)
    (pgrounddown ((va + size + (2 ^ 32 - 1)) % 2 ^ 32)) pa perm

end Vm

/-- One row of the table of kernel mappings. -/
structure Kmap where
  virt : Nat
  physStart : Nat
  physEnd : Nat
  perm : Nat

/-- The kernel's mappings, present in every directory, for a place of the symbol
`data`. -/
def kmap (data : Nat) : List Kmap :=
  [⟨kernbase, 0, extmem, pteW⟩,
   ⟨kernlink, v2p kernlink, v2p data, 0⟩,
   ⟨data, v2p data, phystop, pteW⟩,
   ⟨devspace, devspace, 0, pteW⟩]

namespace Vm

/-- The loop of `setupkvm` over the rows of `kmap`. -/
def mapRows (m : Vm) (pgdir : Nat) : List Kmap → Except String (Bool × Vm)
  | [] => .ok (true, m)
  | row :: rows => do
    let (mapped, m) ← m.mappages pgdir row.virt
      ((row.physEnd + 2 ^ 32 - row.physStart) % 2 ^ 32) row.physStart row.perm
    if mapped then mapRows m pgdir rows else .ok (false, m)

/-- Set up the kernel part of a page table, for a place of the symbol `data`. -/
def setupkvmFor (m : Vm) (data : Nat) : Except String (Option Nat × Vm) :=
  match m.kalloc with
  | (none, m) => .ok (none, m)
  | (some pgdir, m) =>
    if p2v phystop > devspace then .error "PHYSTOP too high"
    else do
      let (mapped, m) ← (m.zero pgdir).mapRows pgdir (kmap data)
      .ok (if mapped then some pgdir else none, m)

/-- `setupkvm` of the kernel that was linked. -/
def setupkvm (m : Vm) (layout : Layout) : Except String (Option Nat × Vm) :=
  m.setupkvmFor layout.data

/-- Load the initcode into address 0 of a directory. -/
def inituvm (m : Vm) (layout : Layout) (pgdir : Nat) (init : List UInt8) : Except String Vm :=
  if pgsize ≤ init.length then .error "inituvm: more than a page"
  else
    match m.kalloc with
    | (none, _) => .error "trap"
    | (some mem, m) => do
      let (_, m) ← (m.zero mem).mappages pgdir 0 pgsize (mem * pgsize) (pteW ||| pteU)
      m.put layout mem 0 init

/-- A store of `loaduvm`: the memory before it, the new directory, the address that the
bytes are meant for and the page that they go to. -/
structure LoadWrite where
  vm : Vm
  pgdir : Nat
  va : Nat
  page : Nat

/-- The loop of `loaduvm`, with its stores. What `readi` gives is stored through the direct
map, also when it is less than was asked for. -/
def loadLoop (layout : Layout) (m : Vm) (pgdir addr : Nat) (ip : Image) (offset sz i : Nat) :
    Traced LoadWrite String (Bool × Vm) :=
  if i < sz then
    match (m.walkpgdir pgdir ((addr + i) % 2 ^ 32) false).1 with
    | none => .fail "loaduvm: address should exist"
    | some (pgtab, index) =>
      let n := min (sz - i) pgsize
      match ip.readi ((offset + i) % 2 ^ 32) n with
      | none => .done (false, m)
      | some bytes =>
        let page := frame (m.word pgtab index)
        let stores := if bytes.isEmpty then [] else [⟨m, pgdir, (addr + i) % 2 ^ 32, page⟩]
        match m.put layout page 0 bytes with
        | .error message => .after stores (.fail message)
        | .ok m =>
          if bytes.length = n then
            .after stores (loadLoop layout m pgdir addr ip offset sz (i + pgsize))
          else .after stores (.done (false, m))
  else .done (true, m)
termination_by sz - i
decreasing_by simp only [pgsize_eq]; omega

/-- Load a program segment into a directory. -/
def loaduvm (m : Vm) (layout : Layout) (pgdir addr : Nat) (ip : Image) (offset sz : Nat) :
    Traced LoadWrite String (Bool × Vm) :=
  if addr % pgsize ≠ 0 then .fail "loaduvm: addr must be page aligned"
  else loadLoop layout m pgdir addr ip offset sz 0

/-- The loop of `deallocuvm`. A missing table skips one table's worth of pages. -/
def deallocLoop (layout : Layout) (m : Vm) (pgdir a oldsz : Nat) : Except String Vm :=
  if a < oldsz then
    match (m.walkpgdir pgdir a false).1 with
    | none => deallocLoop layout m pgdir (a + (nptentries - 1) * pgsize + pgsize) oldsz
    | some (pgtab, index) =>
      let pte := m.word pgtab index
      if present pte then
        if frame pte = 0 then .error "kfree"
        else
          match m.kfree layout (frame pte) with
          | .error message => .error message
          | .ok m => deallocLoop layout (m.store pgtab index 0) pgdir (a + pgsize) oldsz
      else deallocLoop layout m pgdir (a + pgsize) oldsz
  else .ok m
termination_by oldsz - a
decreasing_by all_goals simp only [pgsize_eq, nptentries_eq]; omega

/-- Deallocate user pages to bring the process size from `oldsz` to `newsz`. -/
def deallocuvm (m : Vm) (layout : Layout) (pgdir oldsz newsz : Nat) :
    Except String (Nat × Vm) :=
  if oldsz ≤ newsz then .ok (oldsz, m)
  else do
    let m ← deallocLoop layout m pgdir (pgroundup newsz) oldsz
    .ok (newsz, m)

/-- The loop of `allocuvm`. The result of `mappages` is not looked at. -/
def allocLoop (layout : Layout) (m : Vm) (pgdir oldsz newsz a : Nat) :
    Except String (Nat × Vm) :=
  if a < newsz then
    match m.kalloc with
    | (none, m) => do
      let (_, m) ← m.deallocuvm layout pgdir newsz oldsz
      .ok (0, m)
    | (some mem, m) =>
      match (m.zero mem).mappages pgdir a pgsize (mem * pgsize) (pteW ||| pteU) with
      | .error message => .error message
      | .ok (mapped, m) =>
        let m := if mapped then m else { m with torn := m.torn + 1 }
        allocLoop layout m pgdir oldsz newsz (a + pgsize)
  else .ok (newsz, m)
termination_by newsz - a
decreasing_by simp only [pgsize_eq]; omega

/-- Allocate page tables and memory to grow a process from `oldsz` to `newsz`;
zero is failure. -/
def allocuvm (m : Vm) (layout : Layout) (pgdir oldsz newsz : Nat) :
    Except String (Nat × Vm) :=
  if kernbase ≤ newsz then .ok (0, m)
  else if newsz < oldsz then .ok (oldsz, m)
  else allocLoop layout m pgdir oldsz newsz (pgroundup oldsz)

/-- The loop of `freevm` over the entries of the directory. -/
def freeTables (layout : Layout) (m : Vm) (pgdir : Nat) : List Nat → Except String Vm
  | [] => .ok m
  | i :: rest =>
    if present (m.word pgdir i) then do
      let m ← m.kfree layout (frame (m.word pgdir i))
      freeTables layout m pgdir rest
    else freeTables layout m pgdir rest

/-- Free a page table and all the physical memory pages in the user part. -/
def freevm (m : Vm) (layout : Layout) (pgdir : Nat) : Except String Vm := do
  let (_, m) ← m.deallocuvm layout pgdir kernbase 0
  let m ← m.freeTables layout pgdir (List.range npdentries)
  m.kfree layout pgdir

/-- Clear `PTE_U` on a page. -/
def clearpteu (m : Vm) (pgdir uva : Nat) : Except String Vm :=
  match (m.walkpgdir pgdir uva false).1 with
  | none => .error "clearpteu"
  | some (pgtab, index) =>
    .ok (m.store pgtab index (m.word pgtab index &&& (2 ^ 32 - 1 - pteU)))

/-- The loop of `copyuvm`. -/
def copyLoop (layout : Layout) (m : Vm) (pgdir sz d i : Nat) :
    Except String (Option Nat × Vm) :=
  if i < sz then
    match (m.walkpgdir pgdir i false).1 with
    | none => .error "copyuvm: pte should exist"
    | some (pgtab, index) =>
      let pte := m.word pgtab index
      if !present pte then .error "copyuvm: page not present"
      else
        match m.kalloc with
        | (none, m) => do
          let m ← m.freevm layout d
          .ok (none, m)
        | (some mem, m) =>
          match (m.setPage mem (m.page (frame pte))).mappages d i pgsize (mem * pgsize)
            (pteFlags pte) with
          | .error message => .error message
          | .ok (true, m) => copyLoop layout m pgdir sz d (i + pgsize)
          | .ok (false, m) => do
            let m ← m.freevm layout d
            .ok (none, m)
  else .ok (some d, m)
termination_by sz - i
decreasing_by simp only [pgsize_eq]; omega

/-- Given a parent process's page table, create a copy of it for a child. -/
def copyuvm (m : Vm) (layout : Layout) (pgdir sz : Nat) : Except String (Option Nat × Vm) := do
  match ← m.setupkvm layout with
  | (none, m) => .ok (none, m)
  | (some d, m) => copyLoop layout m pgdir sz d 0

/-- Map a user virtual address to a page of the kernel's direct map. Without a
page table the entry pointer is null, and the word that is read is the one at
address 0 of the address space in use. -/
def uva2ka (m : Vm) (current pgdir uva : Nat) : Except String (Option Nat) := do
  let pte ←
    match (m.walkpgdir pgdir uva false).1 with
    | some (pgtab, index) => .ok (m.word pgtab index)
    | none =>
      match (m.walkpgdir current 0 false).1 with
      | none => .error "trap"
      | some (pgtab, index) =>
        if present (m.word pgtab index) then
          .ok (m.word (frame (m.word pgtab index)) 0)
        else .error "trap"
  .ok (if present pte && userBit pte then some (frame pte) else none)

/-- Copy bytes to a user address of a directory that need not be the current
one. -/
def copyout (layout : Layout) (m : Vm) (current pgdir va : Nat) (bytes : List UInt8) :
    Except String (Bool × Vm) :=
  if bytes.isEmpty then .ok (true, m)
  else
    let va0 := pgrounddown va
    match m.uva2ka current pgdir va0 with
    | .error message => .error message
    | .ok none => .ok (false, m)
    | .ok (some page) =>
      let n := min (pgsize - (va - va0)) bytes.length
      match m.put layout page (va - va0) (bytes.take n) with
      | .error message => .error message
      | .ok m => copyout layout m current pgdir ((va0 + pgsize) % 2 ^ 32) (bytes.drop n)
termination_by bytes.length
decreasing_by
  have offset : va - pgrounddown va < pgsize := by
    simp only [pgrounddown, pgsize_eq]
    omega
  have some : 0 < bytes.length := by
    cases bytes with
    | nil => simp at *
    | cons => simp
  simp only [List.length_drop]
  omega

end Vm

end Xv6
