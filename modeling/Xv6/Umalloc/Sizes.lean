import Xv6.Umalloc.Allocator

/-!
# Sizes in 32 bits

`malloc` with the arithmetic of its types. The number of bytes is rounded up to units, the
units are turned back into bytes for `sbrk`, and `sbrk` takes the result for a signed
number; each of these can wrap around. A negative number makes `growproc` shrink the
process, or leaves it as it is when the new size wraps around too.

For sizes where nothing wraps around this is the `malloc` that was verified before. For all
others there is a heap in which `malloc` does wrong: it gives a block that is too small, or
counts memory beyond the break as free, or shrinks the heap.
-/

namespace Xv6.Umalloc.Heap

open Function

/-- The units of a block for a number of bytes, in 32 bits. -/
def unitsFor32 (nbytes : Nat) : Nat := (nbytes + headerSize - 1) % 2 ^ 32 / headerSize + 1

/-- An unsigned number of 32 bits as a signed one. -/
def asInt (n : Nat) : Int := if n % 2 ^ 32 < 2 ^ 31 then n % 2 ^ 32 else n % 2 ^ 32 - 2 ^ 32

/-- `sys_sbrk` with `growproc`, and whether there is memory to grow. It returns the old break,
and nothing for -1. Only the size of the process is kept, not its pages. -/
def sbrk (h : Heap) (n : Int) (granted : Bool) : Heap × Option Nat :=
  let sz : Int := h.brk * headerSize
  if 0 < n then
    if granted then ({ h with brk := ((sz + n) / headerSize).toNat }, some h.brk) else (h, none)
  else if n < 0 then
    -- `deallocuvm` returns the old size when the new one is not smaller.
    let newsz := (sz + n) % 2 ^ 32
    if sz ≤ newsz then (h, some h.brk)
    else if newsz = 0 then (h, none)
    else ({ h with brk := (newsz / headerSize).toNat }, some h.brk)
  else (h, some h.brk)

/-- `sbrk` for a number of units, the bytes counted in 32 bits. -/
def sbrkUnits (granted : Bool) (h : Heap) (nu : Nat) : Heap × Option Nat :=
  h.sbrk (asInt (nu * headerSize)) granted

/-- `malloc` with its sizes in 32 bits. -/
def malloc32 (h : Heap) (nbytes : Nat) (granted : Bool) : Option (Heap × Option Nat) :=
  h.mallocUnits (sbrkUnits granted) (unitsFor32 nbytes)

/-- A call of `malloc` that does what it should: the heap does not shrink, free blocks lie in
the memory that `sbrk` gave, and a block that is returned lies there too, apart from all
others, and has room for the bytes behind its header. -/
def Honours (h : Heap) (nbytes : Nat) (granted : Bool) : Prop :=
  ∃ after blocks, h.brk ≤ after.brk ∧
    ((h.malloc32 nbytes granted = some (after, none) ∧ Sound after blocks 0) ∨
      ∃ p size, h.malloc32 nbytes granted = some (after, some p) ∧
        nbytes ≤ (size - 1) * headerSize ∧
        Sound { after with live := ⟨p, size⟩ :: after.live } blocks 0)

/-- The bytes that `malloc` asks for stay below what a signed number can hold. -/
def Fits (nbytes : Nat) : Prop := unitsFor nbytes * headerSize < 2 ^ 31

variable {h after : Heap} {nbytes n : Nat} {granted : Bool}

/-! ## Sizes that fit -/

theorem unitsFor32_eq (fits : Fits nbytes) : unitsFor32 nbytes = unitsFor nbytes := by
  simp only [Fits, unitsFor, headerSize] at fits
  simp only [unitsFor32, unitsFor, headerSize]
  omega

theorem sbrkUnits_eq {nu : Nat} (small : 0 < nu ∧ nu * headerSize < 2 ^ 31) :
    h.sbrkUnits granted nu = grow granted h nu := by
  have asked : asInt (nu * headerSize) = nu * 8 := by
    simp only [headerSize] at small
    simp only [asInt, headerSize]
    omega
  have brk : (((h.brk * headerSize : Int) + nu * 8) / headerSize).toNat = h.brk + nu := by
    simp only [headerSize]
    omega
  simp only [sbrkUnits, sbrk, grow, asked, brk]
  rw [if_pos (by omega)]

theorem morecore_sbrkUnits (fits : n * headerSize < 2 ^ 31) :
    h.morecore (sbrkUnits granted) n = h.morecore (grow granted) n := by
  have small : 0 < (if n < 4096 then 4096 else n) ∧
      (if n < 4096 then 4096 else n) * headerSize < 2 ^ 31 := by
    split
    · decide
    · exact ⟨by omega, fits⟩
  simp only [morecore, sbrkUnits_eq small]

/-- `free` leaves the break where it is. -/
theorem free_brk {bp : Nat} (freed : h.free bp = some after) : after.brk = h.brk := by
  unfold free at freed
  split at freed
  · cases freed
  · obtain ⟨p, -, rfl⟩ := Option.map_eq_some_iff.mp freed
    rfl

theorem morecore_brk {result : Option Nat}
    (more : h.morecore (grow granted) n = some (after, result)) : h.brk ≤ after.brk := by
  cases granted with
  | false =>
    cases more
    exact Nat.le_refl _
  | true =>
    obtain ⟨now, freed, is⟩ := Option.map_eq_some_iff.mp more
    cases is
    rw [free_brk freed]
    exact Nat.le_add_right ..

/-- The loop does not take memory back. -/
theorem search_brk {result : Option Nat} {rounds prevp p : Nat}
    (found : search (fun h => h.morecore (grow granted) n) n rounds h prevp p =
      some (after, result)) : h.brk ≤ after.brk := by
  fun_induction search (fun h => h.morecore (grow granted) n) n rounds h prevp p with
  | case1 => cases found
  | case2 rounds h prevp p large =>
    unfold carve at found
    split at found
    · cases found
      exact Nat.le_refl _
    · cases found
      exact Nat.le_refl _
  | case3 => cases found
  | case4 rounds h prevp p small last more isMore =>
    cases found
    exact morecore_brk isMore
  | case5 rounds h prevp p small last more q isMore ih =>
    exact Nat.le_trans (morecore_brk isMore) (ih found)
  | case6 rounds h prevp p small other ih => exact ih found

/-- Where nothing wraps around, `malloc` does what it should. -/
theorem honours_of_fits (good : Good h) (fits : Fits nbytes) (granted : Bool) :
    h.Honours nbytes granted := by
  have same : ∀ h : Heap, h.malloc32 nbytes granted = h.malloc nbytes granted := by
    intro h
    simp only [malloc32, malloc, mallocUnits, unitsFor32_eq fits, morecore_sbrkUnits fits]
  have room : nbytes ≤ (unitsFor nbytes - 1) * headerSize := by
    simp only [unitsFor, headerSize]
    omega
  have keeps : ∀ {after result}, h.malloc nbytes granted = some (after, result) →
      h.brk ≤ after.brk := by
    intro after result found
    have base : h.ensureBase.1.brk = h.brk := by
      unfold ensureBase
      split
      · rfl
      · rfl
    rw [← base]
    exact search_brk found
  obtain ⟨after, now, ⟨ran, sound⟩ | ⟨p, ran, sound⟩⟩ := good.malloc nbytes granted
  · exact ⟨after, now, keeps ran, .inl ⟨(same h).trans ran, sound⟩⟩
  · exact ⟨after, now, keeps ran, .inr ⟨p, _, (same h).trans ran, room, sound⟩⟩

/-! ## Sizes that do not fit -/

/-- A block that is taken has its size in its header. -/
theorem carve_header (h : Heap) (prevp p n : Nat) :
    ∃ after q, h.carve prevp p n = (after, some q) ∧ after.brk = h.brk ∧ after.start = h.start ∧
      after.live = h.live ∧ (after.mem q).size = n := by
  unfold carve
  split
  · rename_i whole
    refine ⟨_, p, rfl, rfl, rfl, rfl, ?_⟩
    simp only [update_apply]
    split
    · rename_i same
      rw [← same]
      exact whole
    · exact whole
  · exact ⟨_, _, rfl, rfl, rfl, rfl, by simp only [update_self]⟩

/-- A heap with `base` only. -/
def emptied (mem : Memory) (s : Nat) : Heap where
  mem := Function.update mem 0 ⟨0, 0⟩
  base := 0
  freep := some 0
  start := s
  brk := s
  live := []

/-- What `malloc` does in a heap that was never used, when `sbrk` returns. -/
theorem malloc32_boot {mem : Memory} {s b nu : Nat} (positive : 0 < s)
    (units : (if unitsFor32 nbytes < 4096 then 4096 else unitsFor32 nbytes) = nu)
    (given : (emptied mem s).sbrk (asInt (nu * headerSize)) granted =
      ({ emptied mem s with brk := b }, some s)) :
    ∃ after p, (boot mem 0 s).malloc32 nbytes granted = some (after, some p) ∧ after.brk = b ∧
      after.start = s ∧ after.live = [] ∧ (after.mem p).size = unitsFor32 nbytes := by
  have large : unitsFor32 nbytes ≤ nu ∧ 0 < unitsFor32 nbytes := by
    refine ⟨?_, Nat.succ_pos _⟩
    rw [← units]
    split
    · omega
    · exact Nat.le_refl _
  have apart : s ≠ 0 := Nat.ne_of_gt positive
  -- The new block is the only one on the list.
  have more : (emptied mem s).morecore (sbrkUnits granted) (unitsFor32 nbytes) = some
      ({ emptied mem s with
          mem := update (update (update mem 0 ⟨0, 0⟩) s ⟨0, nu⟩) 0 ⟨s, 0⟩
          brk := b }, some 0) := by
    simp only [morecore, sbrkUnits, units, given]
    simp [emptied, free, rounds, findPlace, attach, positive, apart, apart.symm]
  have fuel : 2 * (emptied mem s).rounds = 4 := by
    simp [emptied, rounds]
  have goes : (boot mem 0 s).malloc32 nbytes granted =
      search (fun h => h.morecore (sbrkUnits granted) (unitsFor32 nbytes)) (unitsFor32 nbytes) 4
        (emptied mem s) 0 0 := by
    rw [← fuel]
    simp only [malloc32, mallocUnits, boot, ensureBase, emptied, update_self]
  have empty : ¬ ((emptied mem s).mem 0).size ≥ unitsFor32 nbytes := by
    simp only [emptied, update_self]
    omega
  rw [goes, search, if_neg empty, if_pos (show (emptied mem s).freep = some 0 from rfl), more]
  simp only [search]
  rw [if_pos (by simpa [apart] using large.1)]
  obtain ⟨after, q, carved, brk, start, live, header⟩ := carve_header { emptied mem s with
      mem := update (update (update mem 0 ⟨0, 0⟩) s ⟨0, nu⟩) 0 ⟨s, 0⟩
      brk := b } 0 s (unitsFor32 nbytes)
  exact ⟨after, q, by simpa using congrArg some carved, brk, start, live, header⟩

/-- What a call that does what it should says about the block it returns. -/
theorem Honours.block {p : Nat} (honours : h.Honours nbytes granted)
    (ran : h.malloc32 nbytes granted = some (after, some p)) :
    h.brk ≤ after.brk ∧ after.start ≤ p ∧ p + (after.mem p).size ≤ after.brk ∧
      0 < (after.mem p).size ∧ nbytes ≤ ((after.mem p).size - 1) * headerSize := by
  obtain ⟨last, blocks, grown, ⟨failed, -⟩ | ⟨q, size, again, room, sound⟩⟩ := honours
  · rw [ran] at failed
    cases failed
  · rw [ran] at again
    cases again
    have inside := sound.inside ⟨p, size⟩ (List.mem_append_right _ List.mem_cons_self)
    obtain ⟨positive, header⟩ := sound.used ⟨p, size⟩ List.mem_cons_self
    simp only at header positive
    rw [header]
    exact ⟨grown, inside.1, inside.2, positive, room⟩

/-- A negative number of units that leaves the process as it is. -/
theorem sbrk_unchanged (mem : Memory) (granted : Bool) {nu : Nat} (large : 2 ^ 28 ≤ nu)
    (most : nu ≤ 2 ^ 29) (other : nu ≠ 2 ^ 29 - 1) :
    (emptied mem 1).sbrk (asInt (nu * headerSize)) granted = (emptied mem 1, some 1) := by
  by_cases zero : nu = 2 ^ 29
  · subst zero
    rfl
  · have asked : asInt (nu * headerSize) = nu * 8 - 2 ^ 32 := by
      simp only [asInt, headerSize]
      omega
    simp only [sbrk, asked]
    rw [if_neg (by omega), if_pos (by omega), if_pos]
    · rfl
    · simp only [emptied, headerSize]
      omega

/-- One that shrinks it. -/
theorem sbrk_shrinks (mem : Memory) (granted : Bool) :
    (emptied mem 2).sbrk (asInt ((2 ^ 29 - 1) * headerSize)) granted =
      ({ emptied mem 2 with brk := 1 }, some 2) := by
  simp [sbrk, asInt, headerSize, emptied]

/-- `malloc` does what it should in every heap exactly for the sizes that fit. -/
theorem malloc_honours_iff (word : nbytes < 2 ^ 32) :
    (∀ h granted, Good h → h.Honours nbytes granted) ↔ Fits nbytes := by
  refine ⟨fun honours => ?_, fun fits h granted good => honours_of_fits good fits granted⟩
  by_contra large
  simp only [Fits, unitsFor, headerSize] at large
  have good : ∀ s, 0 < s → Good (boot (fun _ => ⟨0, 0⟩) 0 s) := fun _ low => .fresh _ low
  by_cases wraps : 2 ^ 32 ≤ nbytes + 7
  · have one : unitsFor32 nbytes = 1 := by
      simp only [unitsFor32, headerSize]
      omega
    have given : (emptied (fun _ => ⟨0, 0⟩) 1).sbrk (asInt (4096 * headerSize)) true =
        ({ emptied (fun _ => ⟨0, 0⟩) 1 with brk := 4097 }, some 1) := rfl
    obtain ⟨after, p, ran, -, -, -, header⟩ := malloc32_boot (by decide) (by rw [one]; rfl) given
    obtain ⟨-, -, -, -, room⟩ := (honours _ true (good 1 (by decide))).block ran
    rw [header, one] at room
    omega
  · have units : unitsFor32 nbytes = unitsFor nbytes := by
      simp only [unitsFor32, unitsFor, headerSize]
      omega
    obtain ⟨nu, isNu⟩ : ∃ nu, unitsFor nbytes = nu := ⟨_, rfl⟩
    have range : 2 ^ 28 ≤ nu ∧ nu ≤ 2 ^ 29 := by
      simp only [unitsFor, headerSize] at isNu
      omega
    have same : (if unitsFor32 nbytes < 4096 then 4096 else unitsFor32 nbytes) = nu := by
      rw [units, isNu, if_neg (by omega)]
    by_cases most : nu = 2 ^ 29 - 1
    · subst most
      obtain ⟨after, p, ran, brk, -, -, -⟩ := malloc32_boot (by decide) same
        (sbrk_shrinks (fun _ => ⟨0, 0⟩) true)
      have grown := ((honours _ true (good 2 (by decide))).block ran).1
      rw [brk] at grown
      exact absurd grown (by decide)
    · obtain ⟨after, p, ran, brk, start, -, -⟩ := malloc32_boot (by decide) same
        (sbrk_unchanged (fun _ => ⟨0, 0⟩) true range.1 range.2 most)
      obtain ⟨-, low, high, positive, -⟩ := (honours _ true (good 1 (by decide))).block ran
      omega

theorem malloc_honours_iff_page : (∀ h granted, Good h → h.Honours 4096 granted) ↔ Fits 4096 :=
  malloc_honours_iff (by decide)

/-- In the unused heap of a process with two pages, a request for `2 ^ 32 - 1` bytes gets a
block without any, and one for `2 ^ 32 - 4104` bytes makes the process a page smaller. -/
theorem malloc_wraps : ((boot (fun _ => ⟨0, 0⟩) 400 1024).malloc32 (2 ^ 32 - 1) true).map
      (fun r => r.2.map fun p => (r.1.mem p).size) = some (some 1) ∧
    ((boot (fun _ => ⟨0, 0⟩) 400 1024).malloc32 (2 ^ 32 - 4104) true).map
      (fun r => (r.2.isSome, r.1.brk)) = some (true, 512) := by
  decide +kernel

end Xv6.Umalloc.Heap
