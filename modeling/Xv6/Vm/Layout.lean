import Xv6.Lib.Bytes

/-!
# Memory layout and page table entries

The constants and address arithmetic of `memlayout.h` and `mmu.h`. Addresses are
natural numbers below `2^32`; wherever the source's unsigned arithmetic can wrap
the reduction is written out. A pointer to a whole page is kept as the number of
the physical page, so `v2p` of it is that number times `pgsize`.

Two addresses come from the linker: where the kernel's writable data starts and
where the kernel ends. A `Layout` carries the facts that `kernel.ld` gives about
them.
-/

namespace Xv6

variable {page perm : Nat}

/-- Bytes mapped by a page, `PGSIZE`. -/
def pgsize : Nat := 4096

/-- Entries of a page directory, `NPDENTRIES`. -/
def npdentries : Nat := 1024

/-- Entries of a page table, `NPTENTRIES`. -/
def nptentries : Nat := 1024

/-- Start of extended memory, `EXTMEM`. -/
def extmem : Nat := 0x100000

/-- Top of physical memory, `PHYSTOP`. -/
def phystop : Nat := 0xE000000

/-- Devices at high addresses, `DEVSPACE`. -/
def devspace : Nat := 0xFE000000

/-- First kernel virtual address, `KERNBASE`. -/
def kernbase : Nat := 0x80000000

/-- Address where the kernel is linked, `KERNLINK`. -/
def kernlink : Nat := kernbase + extmem

theorem pgsize_eq : pgsize = 4096 := rfl
@[simp] theorem npdentries_eq : npdentries = 1024 := rfl
@[simp] theorem nptentries_eq : nptentries = 1024 := rfl
@[simp] theorem extmem_eq : extmem = 1048576 := rfl
@[simp] theorem phystop_eq : phystop = 234881024 := rfl
@[simp] theorem devspace_eq : devspace = 4261412864 := rfl
@[simp] theorem kernbase_eq : kernbase = 2147483648 := rfl
@[simp] theorem kernlink_eq : kernlink = 2148532224 := rfl

/-- Physical address of a kernel virtual address. -/
def v2p (a : Nat) : Nat := (a + 2 ^ 32 - kernbase) % 2 ^ 32

/-- Kernel virtual address of a physical address. -/
def p2v (a : Nat) : Nat := (a + kernbase) % 2 ^ 32

/-- `PGROUNDUP`, on 32-bit addresses. -/
def pgroundup (sz : Nat) : Nat := (sz + pgsize - 1) % 2 ^ 32 / pgsize * pgsize

/-- `PGROUNDDOWN`. -/
def pgrounddown (a : Nat) : Nat := a / pgsize * pgsize

/-- Page directory index, `PDX`. -/
def pdx (va : Nat) : Nat := va / 2 ^ 22 % 1024

/-- Page table index, `PTX`. -/
def ptx (va : Nat) : Nat := va / 2 ^ 12 % 1024

/-- Present, `PTE_P`. -/
def pteP : Nat := 1

/-- Writeable, `PTE_W`. -/
def pteW : Nat := 2

/-- User, `PTE_U`. -/
def pteU : Nat := 4

/-- The test `entry & PTE_P`. -/
def present (entry : Nat) : Bool := entry.testBit 0

/-- The test `entry & PTE_U`. -/
def userBit (entry : Nat) : Bool := entry.testBit 2

/-- The page that an entry's address `PTE_ADDR` names. -/
def frame (entry : Nat) : Nat := entry / pgsize

/-- `PTE_FLAGS`. -/
def pteFlags (entry : Nat) : Nat := entry % pgsize

/-- The word `pa | perm | PTE_P` that `mappages` stores. -/
def mkPte (pa perm : Nat) : Nat := pa ||| perm ||| pteP

/-- The two addresses that the linker fixes. -/
structure Layout where
  /-- Start of the kernel's data section, the symbol `data`. -/
  data : Nat
  /-- First address after the kernel, the symbol `end`. -/
  kernelEnd : Nat
  data_aligned : data % pgsize = 0
  kernlink_lt_data : kernlink < data
  data_le_end : data ≤ kernelEnd
  end_le : kernelEnd ≤ p2v (4 * 1024 * 1024)

/-- An address where the kernel's data can start: a page boundary above the first
page of the kernel and below the top of physical memory. -/
structure DataAddress (data : Nat) : Prop where
  aligned : data % pgsize = 0
  above : kernlink < data
  below : data < p2v phystop

namespace Layout

variable (layout : Layout)

theorem dataAddress : DataAddress layout.data where
  aligned := layout.data_aligned
  above := layout.kernlink_lt_data
  below := by
    have order := layout.data_le_end
    have top := layout.end_le
    simp only [p2v, kernbase_eq, phystop_eq] at top ⊢
    omega

/-- Pages the allocator manages: `kfree` accepts exactly these. -/
def Managed (page : Nat) : Prop :=
  layout.kernelEnd ≤ page * pgsize + kernbase ∧ page * pgsize < phystop

instance (page : Nat) : Decidable (layout.Managed page) := by
  unfold Managed
  infer_instance

/-- Pages that kernel code can store to through the direct map: all of physical
memory but the kernel's read-only text. -/
def writable (page : Nat) : Bool :=
  page * pgsize < phystop &&
    !(extmem ≤ page * pgsize && page * pgsize + kernbase < layout.data)

variable {layout}

theorem Managed.lt (managed : layout.Managed page) : page < 57344 := by
  have below := managed.2
  simp only [pgsize_eq, phystop_eq] at below
  omega

theorem Managed.pos (managed : layout.Managed page) : 256 < page := by
  have above := managed.1
  have start := layout.kernlink_lt_data
  have order := layout.data_le_end
  simp only [pgsize_eq, kernbase_eq, kernlink_eq] at above start
  omega

/-- Managed pages lie above the kernel's text, so the kernel can store to them. -/
theorem Managed.writable (managed : layout.Managed page) :
    layout.writable page = true := by
  have above := managed.1
  have below := managed.2
  have order := layout.data_le_end
  simp only [Layout.writable, Bool.and_eq_true, decide_eq_true_eq, Bool.not_eq_true',
    Bool.and_eq_false_iff, decide_eq_false_iff_not]
  exact ⟨below, Or.inr (by omega)⟩

end Layout

/-- An entry that names no page and is not present. -/
@[simp] theorem present_zero : present 0 = false := rfl

theorem frame_mkPte (small : perm < 4096) :
    frame (mkPte (page * pgsize) perm) = page := by
  have noPerm : perm / 4096 = 0 := by omega
  have shifted : (page * 4096 ||| perm ||| 1) >>> 12 = page := by
    rw [Nat.shiftRight_or_distrib, Nat.shiftRight_or_distrib]
    simp only [Nat.shiftRight_eq_div_pow, Nat.reducePow, noPerm]
    simp
  simpa [frame, mkPte, pteP, pgsize_eq, Nat.shiftRight_eq_div_pow] using shifted

theorem pteFlags_mkPte (small : perm < 4096) :
    pteFlags (mkPte (page * pgsize) perm) = perm ||| 1 := by
  simp only [pteFlags, mkPte, pteP, pgsize_eq]
  have outer := Nat.or_mod_two_pow (a := page * 4096 ||| perm) (b := 1) (n := 12)
  have inner := Nat.or_mod_two_pow (a := page * 4096) (b := perm) (n := 12)
  simp only [Nat.reducePow] at outer inner
  rw [outer, inner, Nat.mul_mod_left, Nat.mod_eq_of_lt small]
  simp

@[simp] theorem present_mkPte (pa perm : Nat) : present (mkPte pa perm) = true := by
  simp [present, mkPte, pteP]

theorem userBit_mkPte (page perm : Nat) :
    userBit (mkPte (page * pgsize) perm) = perm.testBit 2 := by
  have low : (page * 4096).testBit 2 = false := by
    have power : page * 4096 = 2 ^ 12 * page := by omega
    rw [power, Nat.testBit_two_pow_mul]
    simp
  have one : Nat.testBit 1 2 = false := rfl
  simp [userBit, mkPte, pteP, pgsize_eq, low, one]

/-- An entry for a page of a 32-bit address space fits in a word. -/
theorem mkPte_lt (inside : page < 2 ^ 20) (small : perm < 4096) :
    mkPte (page * pgsize) perm < 2 ^ 32 := by
  simp only [mkPte, pgsize_eq, pteP]
  refine Nat.or_lt_two_pow (Nat.or_lt_two_pow ?_ ?_) ?_ <;> omega

/-- `entry & ~PTE_U` on a word: only the user bit changes. -/
theorem clear_user {entry : Nat} (fits : entry < 2 ^ 32) :
    present (entry &&& (2 ^ 32 - 1 - pteU)) = present entry ∧
      frame (entry &&& (2 ^ 32 - 1 - pteU)) = frame entry ∧
      userBit (entry &&& (2 ^ 32 - 1 - pteU)) = false ∧
      entry &&& (2 ^ 32 - 1 - pteU) < 2 ^ 32 := by
  have bit : Nat.testBit (2 ^ 32 - 1 - pteU) 0 = true ∧ Nat.testBit (2 ^ 32 - 1 - pteU) 2 = false := by
    decide
  refine ⟨by rw [present, Nat.testBit_and, bit.1, Bool.and_true, present], ?_,
    by rw [userBit, Nat.testBit_and, bit.2, Bool.and_false],
    Nat.lt_of_le_of_lt Nat.and_le_left fits⟩
  have shifted : (entry &&& (2 ^ 32 - 1 - pteU)) >>> 12 = entry >>> 12 := by
    rw [Nat.shiftRight_and_distrib, show (2 ^ 32 - 1 - pteU) >>> 12 = 2 ^ 20 - 1 by decide,
      Nat.and_two_pow_sub_one_eq_mod, Nat.mod_eq_of_lt]
    rw [Nat.shiftRight_eq_div_pow]
    omega
  simpa [frame, pgsize_eq, Nat.shiftRight_eq_div_pow] using shifted

end Xv6
