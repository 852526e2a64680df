import Xv6.Proc.Confinement
import Xv6.Vm.Freeing
import Xv6.Vm.UserMemory

/-!
# What `copyout` writes

`copyout` copies page by page through `uva2ka`. Where every page of the range is
present and open to the user it replaces exactly the bytes of the range; where it meets
a page that is not, it stops and reports failure. But `uva2ka` follows the pointer that
`walkpgdir` returns without a look at it: for an address without a page table it is null.

The entry pointers that a call follows are a list of their own, read off the same loop.
No null pointer is among them exactly when the first page that is not open to the user,
if there is one, has a page table; and then the copy is exact.
-/

namespace Xv6

open Vm List Option

variable {β : Type} {layout : Layout} {m middle later : Vm} {live : Nat → Prop}
  {held : β → Option Nat} {own : Places β} {page offset vpn pte current pgtab : Nat}

namespace Vm

/-- The entry pointers that `copyout` follows, in order. `none` is the null pointer. -/
def copyoutPointers (layout : Layout) (m : Vm) (current pgdir va : Nat) (bytes : List UInt8) :
    List (Option (Nat × Nat)) :=
  if bytes.isEmpty then []
  else
    let va0 := pgrounddown va
    (m.walkpgdir pgdir va0 false).1 ::
      match m.uva2ka current pgdir va0 with
      | .error _ => []
      | .ok none => []
      | .ok (some page) =>
        let n := min (pgsize - (va - va0)) bytes.length
        match m.put layout page (va - va0) (bytes.take n) with
        | .error _ => []
        | .ok m => copyoutPointers layout m current pgdir ((va0 + pgsize) % 2 ^ 32) (bytes.drop n)
termination_by bytes.length
decreasing_by
  have offset : va - pgrounddown va < pgsize := by
    simp only [pgrounddown, pgsize_eq]
    omega
  have some : 0 < bytes.length := by
    cases bytes with
    | nil => simp at *
    | cons => simp
  simp only [List.length_drop]
  omega

/-- A page that is present and open to the user. -/
def Open (m : Vm) (pgdir vpn : Nat) : Prop :=
  ∃ pte, m.entry pgdir vpn = some pte ∧ userBit pte = true

/-- The page of an address of a range, which may run around the end of the address
space. -/
def pageAt (va offset : Nat) : Nat := (va + offset) % 2 ^ 32 / pgsize

/-- The first page of a range that is not open to the user has no page table. -/
def Stray (m : Vm) (pgdir va len : Nat) : Prop :=
  ∃ offset < len, m.tableAt pgdir (pageAt va offset / 1024) = none ∧
    ∀ earlier < offset, m.Open pgdir (pageAt va earlier)

end Vm

/-- The bytes at the addresses of a range, in pages that a directory maps, are the given
ones, and all other bytes of memory are as before. -/
structure Replaced (pgdir va : Nat) (bytes : List UInt8) (m later : Vm) : Prop where
  inside : ∀ offset pte, offset < bytes.length →
    m.entry pgdir ((va + offset) / pgsize) = some pte →
    (later.page (frame pte)).byte ((va + offset) % pgsize) = bytes.getD offset 0
  outside : ∀ page position,
    (∀ offset pte, offset < bytes.length → m.entry pgdir ((va + offset) / pgsize) = some pte →
      ¬ (page = frame pte ∧ position = (va + offset) % pgsize)) →
    (later.page page).byte position = (m.page page).byte position

/-- A store through the direct map, byte by byte. -/
theorem put_byte {bytes : List UInt8} (fits : offset + bytes.length ≤ pgsize)
    (ran : m.put layout page offset bytes = .ok later) (other position : Nat) :
    (later.page other).byte position =
      if other = page ∧ offset ≤ position ∧ position < offset + bytes.length then
        bytes.getD (position - offset) 0
      else (m.page other).byte position := by
  unfold put at ran
  split at ran
  · rename_i empty
    cases ran
    rw [List.isEmpty_iff] at empty
    subst empty
    rw [if_neg]
    rintro ⟨-, low, high⟩
    simp only [length_nil] at high
    omega
  · split at ran
    · cases ran
      by_cases here : other = page
      · subst here
        simp only [setPage, Function.update_self]
        by_cases within : offset ≤ position ∧ position < offset + bytes.length
        · rw [Bytes.byte_blit _ _ _ _ _ (by omega), if_pos within, if_pos ⟨trivial, within⟩]
        · rw [Bytes.byte_blit_outside _ _ _ _ _ (by omega), if_neg fun all => within all.2]
      · rw [page_setPage_ne _ _ here, if_neg fun all => here all.1]
    · cases ran

/-! ## Ranges -/

/-- Pages that are open to the user are user pages. -/
theorem Vm.Open.below (owned : Owned layout m live held own) {pgdir : Nat} (alive : live pgdir)
    (inside : vpn < 1048576) (isOpen : m.Open pgdir vpn) : vpn < 524288 := by
  obtain ⟨pte, stored, user⟩ := isOpen
  by_contra above
  rw [owned.kernel pgdir vpn pte alive (by omega) inside stored] at user
  cases user

theorem pageAt_lt (va offset : Nat) : pageAt va offset < 1048576 := by
  simp only [pageAt, pgsize_eq]
  omega

/-- The part of a range in its first page, and the rest of it. -/
structure Chunk (va len n : Nat) : Prop where
  start : va < 2 ^ 32
  some : 0 < len
  size : n = min (pgsize - va % pgsize) len

namespace Chunk

variable {va len n : Nat}

section

variable (chunk : Chunk va len n)

include chunk

theorem pos : 0 < n := by
  have size := chunk.size
  have some := chunk.some
  simp only [pgsize_eq] at size
  omega

/-- The first page holds the first part. -/
theorem first (early : offset < n) :
    pageAt va offset = va / pgsize := by
  have size := chunk.size
  have start := chunk.start
  simp only [pageAt, pgsize_eq] at size ⊢
  omega

/-- The rest starts with the next page. -/
theorem rest (more : n < len) :
    pageAt va (n + offset) = pageAt ((va / pgsize * pgsize + pgsize) % 2 ^ 32) offset := by
  have size := chunk.size
  simp only [pageAt, pgsize_eq] at size ⊢
  omega

/-- What holds of the pages of a range holds of its first page and of the rest. -/
theorem forall_iff (fact : Nat → Prop) :
    (∀ offset < len, fact (pageAt va offset)) ↔ fact (va / pgsize) ∧
      ∀ offset < len - n, fact (pageAt ((va / pgsize * pgsize + pgsize) % 2 ^ 32) offset) := by
  have pos := chunk.pos
  have some := chunk.some
  constructor
  · intro all
    constructor
    · rw [← chunk.first pos]
      exact all 0 some
    · intro offset inside
      rw [← chunk.rest (by omega)]
      exact all (n + offset) (by omega)
  · rintro ⟨here, rest⟩ offset inside
    by_cases early : offset < n
    · rw [chunk.first early]
      exact here
    · have next := rest (offset - n) (by omega)
      rw [← chunk.rest (by omega), show n + (offset - n) = offset by omega] at next
      exact next

/-- Behind an open first page, the range strays where the rest of it does. -/
theorem stray_iff {pgdir : Nat} (isOpen : m.Open pgdir (va / pgsize)) :
    m.Stray pgdir va len ↔
      m.Stray pgdir ((va / pgsize * pgsize + pgsize) % 2 ^ 32) (len - n) := by
  have found : m.tableAt pgdir (va / pgsize / 1024) ≠ none := by
    obtain ⟨pte, stored, -⟩ := isOpen
    exact isSome_iff_ne_none.mp (tableAt_of_entry (by rw [stored]; rfl))
  constructor
  · rintro ⟨offset, inside, missing, earlier⟩
    have late : n ≤ offset := by
      by_contra early
      rw [chunk.first (by omega)] at missing
      exact found missing
    refine ⟨offset - n, by omega, ?_, fun other before => ?_⟩
    · rw [← chunk.rest (by omega), show n + (offset - n) = offset by omega]
      exact missing
    · rw [← chunk.rest (by omega)]
      exact earlier (n + other) (by omega)
  · rintro ⟨offset, inside, missing, earlier⟩
    refine ⟨n + offset, by omega, ?_, fun other before => ?_⟩
    · rw [chunk.rest (by omega)]
      exact missing
    · by_cases early : other < n
      · rw [chunk.first early]
        exact isOpen
      · have open_ := earlier (other - n) (by omega)
        rw [← chunk.rest (by omega), show n + (other - n) = other by omega] at open_
        exact open_

end

end Chunk

/-! ## The loop -/

/-- Nothing copied, nothing changed. -/
theorem Replaced.nil (pgdir va : Nat) (m : Vm) : Replaced pgdir va [] m m where
  inside := fun _ _ impossible => absurd impossible (Nat.not_lt_zero _)
  outside := fun _ _ _ => rfl

/-- The first part of a range was stored, and then the rest. -/
theorem Replaced.chunk (owned : Owned layout m live held own) {pgdir va n : Nat}
    {bytes : List UInt8} (alive : live pgdir) (chunk : Chunk va bytes.length n)
    (top : va + bytes.length ≤ kernbase) (stored : m.entry pgdir (va / pgsize) = some pte)
    (ran : m.put layout (frame pte) (va % pgsize) (bytes.take n) = .ok middle)
    (entries : ∀ vpn, vpn < 1048576 → middle.entry pgdir vpn = m.entry pgdir vpn)
    (rest : Replaced pgdir ((va / pgsize * pgsize + pgsize) % 2 ^ 32) (bytes.drop n) middle later) :
    Replaced pgdir va bytes m later := by
  have size := chunk.size
  have taken : (bytes.take n).length = n := by
    rw [length_take]
    omega
  have left : (bytes.drop n).length = bytes.length - n := length_drop
  have fits : va % pgsize + (bytes.take n).length ≤ pgsize := by
    rw [taken]
    simp only [pgsize_eq] at size ⊢
    omega
  have next : n < bytes.length → (va / pgsize * pgsize + pgsize) % 2 ^ 32 = va + n := by
    intro more
    simp only [pgsize_eq, kernbase_eq] at size top ⊢
    omega
  have inUser : ∀ offset, offset < bytes.length → (va + offset) / pgsize < 524288 := by
    intro offset inside
    simp only [pgsize_eq, kernbase_eq] at top ⊢
    omega
  have bytesAt := put_byte fits ran
  rw [taken] at bytesAt
  constructor
  · intro offset pte' inside mapped
    by_cases early : offset < n
    · have page : (va + offset) / pgsize = va / pgsize := by
        simp only [pgsize_eq] at size ⊢
        omega
      have place : (va + offset) % pgsize = va % pgsize + offset := by
        simp only [pgsize_eq] at size ⊢
        omega
      rw [page, stored] at mapped
      cases mapped
      rw [rest.outside, bytesAt, place, if_pos ⟨rfl, by omega, by omega⟩]
      · rw [Nat.add_sub_cancel_left, getD_eq_getElem?_getD, getD_eq_getElem?_getD,
          List.getElem?_take_of_lt early]
      · rintro other pte' otherInside otherMapped ⟨same, -⟩
        rw [left] at otherInside
        rw [next (by omega), Nat.add_assoc] at otherMapped
        have low := inUser (n + other) (by omega)
        rw [entries _ (by omega)] at otherMapped
        have mine := (owned.apart_user alive (inUser offset inside) (page ▸ stored)).1
        have others := (owned.apart_user alive low otherMapped).1
        rw [← same, mine] at others
        simp only [Option.some.injEq, Place.user.injEq, true_and] at others
        simp only [pgsize_eq] at size others
        omega
    · obtain ⟨shift, rfl⟩ : ∃ shift, offset = n + shift := ⟨offset - n, by omega⟩
      have later := rest.inside shift pte' (by omega)
      rw [next (by omega), Nat.add_assoc, entries _ (by have := inUser _ inside; omega)] at later
      rw [later mapped, getD_eq_getElem?_getD, getD_eq_getElem?_getD,
        List.getElem?_drop]
  · intro page position apart
    rw [rest.outside, bytesAt, if_neg]
    · rintro ⟨rfl, low, high⟩
      apply apart (position - va % pgsize) pte (by omega)
      · rw [← stored]
        congr 1
        simp only [pgsize_eq] at size low high ⊢
        omega
      · refine ⟨rfl, ?_⟩
        simp only [pgsize_eq] at size low high ⊢
        omega
    · intro offset pte' inside mapped
      rw [left] at inside
      rw [next (by omega), Nat.add_assoc,
        entries _ (by have := inUser (n + offset) (by omega); omega)] at mapped
      rw [next (by omega), Nat.add_assoc]
      exact apart (n + offset) pte' (by omega) mapped

/-- With a page table `uva2ka` finds the pages that are open to the user. -/
theorem uva2ka_found {pgdir : Nat} (bound : vpn < 1048576)
    (found : m.tableAt pgdir (vpn / 1024) = some pgtab) :
    m.uva2ka current pgdir (vpn * pgsize) = .ok ((m.entry pgdir vpn).bind fun pte =>
      if userBit pte then some (frame pte) else none) := by
  have walked : (m.walkpgdir pgdir (vpn * pgsize) false).1 = some (pgtab, vpn % 1024) := by
    rw [walk_look, (pdx_ptx bound).1, (pdx_ptx bound).2, found]
    rfl
  simp only [uva2ka, walked, entry, found, bind, Except.bind]
  by_cases shown : present (m.word pgtab (vpn % 1024)) = true
  · simp [shown]
  · simp [shown]

/-- What the call with a range does: it follows a null pointer where the range strays, and
otherwise copies all of it or reports a page that is not open to the user. -/
structure CopiesOut (layout : Layout) (live : Nat → Prop) (held : β → Option Nat)
    (current pgdir va : Nat) (bytes : List UInt8) (m : Vm) (own : Places β) :
    Prop where
  stray : m.Stray pgdir va bytes.length → none ∈ copyoutPointers layout m current pgdir va bytes
  sound : ¬ m.Stray pgdir va bytes.length →
    none ∉ copyoutPointers layout m current pgdir va bytes ∧ ∃ copied later,
      copyout layout m current pgdir va bytes = .ok (copied, later) ∧
      Filled layout live held pgdir m own later ∧
      (copied = true ↔ ∀ offset < bytes.length, m.Open pgdir (pageAt va offset)) ∧
      (copied = true → bytes ≠ [] → va + bytes.length ≤ kernbase) ∧
      (copied = true → Replaced pgdir va bytes m later)

/-- The call stops at its first page, which has a table and is not open to the user. -/
theorem CopiesOut.closed (owned : Owned layout m live held own) {pgdir va : Nat}
    {bytes : List UInt8} (start : va < 2 ^ 32) (filled : bytes ≠ [])
    (found : m.tableAt pgdir (va / pgsize / 1024) = some pgtab)
    (closed : ¬ m.Open pgdir (va / pgsize)) :
    CopiesOut layout live held current pgdir va bytes m own := by
  have bound : va / pgsize < 1048576 := (pdx_ptx_page start).2.2
  have positive := length_pos_iff.mpr filled
  have first : pageAt va 0 = va / pgsize := by
    rw [pageAt, Nat.add_zero, Nat.mod_eq_of_lt start]
  have notStray : ¬ m.Stray pgdir va bytes.length := by
    rintro ⟨offset, -, missing, earlier⟩
    by_cases isFirst : offset = 0
    · rw [isFirst, first, found] at missing
      cases missing
    · exact closed (first ▸ earlier 0 (by omega))
  have answer : m.uva2ka current pgdir (va / pgsize * pgsize) = .ok Option.none := by
    rw [uva2ka_found bound found]
    cases stored : m.entry pgdir (va / pgsize) with
    | none => rfl
    | some pte =>
      have hidden : ¬ userBit pte = true := fun user => closed ⟨pte, stored, user⟩
      simp [hidden]
  have walked : (m.walkpgdir pgdir (va / pgsize * pgsize) false).1 ≠ Option.none := by
    rw [walk_look, (pdx_ptx bound).1, found]
    rintro ⟨⟩
  have nonempty : ¬ bytes.isEmpty = true := by
    rw [List.isEmpty_iff]
    exact filled
  refine ⟨fun stray => absurd stray notStray, fun _ => ⟨?_, false, m, ?_, Filled.refl owned, ?_,
    by rintro ⟨⟩, by rintro ⟨⟩⟩⟩
  · rw [copyoutPointers, if_neg nonempty]
    simp only [pgrounddown, answer, mem_singleton]
    exact fun same => walked same.symm
  · rw [copyout, if_neg nonempty]
    simp only [pgrounddown, answer]
  · refine iff_of_false (by decide) fun all => closed ?_
    rw [← first]
    exact all 0 positive

/-- The entries and tables are what decides. -/
theorem Vm.Stray.congr {pgdir va len : Nat}
    (entries : ∀ vpn, vpn < 1048576 → later.entry pgdir vpn = m.entry pgdir vpn)
    (tables : ∀ index, later.tableAt pgdir index = m.tableAt pgdir index) :
    later.Stray pgdir va len ↔ m.Stray pgdir va len := by
  simp only [Vm.Stray, Vm.Open, tables, entries _ (pageAt_lt _ _)]

/-- The first page is open to the user: its part is stored and the call goes on with the
rest. -/
theorem CopiesOut.opened (owned : Owned layout m live held own) {pgdir va n : Nat}
    {bytes : List UInt8} (alive : live pgdir) (chunk : Chunk va bytes.length n)
    (stored : m.entry pgdir (va / pgsize) = some pte) (user : userBit pte = true)
    (ran : m.put layout (frame pte) (va % pgsize) (bytes.take n) = .ok middle)
    (filled : Filled layout live held pgdir m own middle)
    (rest : CopiesOut layout live held current pgdir ((va / pgsize * pgsize + pgsize) % 2 ^ 32)
      (bytes.drop n) middle own) : CopiesOut layout live held current pgdir va bytes m own := by
  have bound : va / pgsize < 1048576 := (pdx_ptx_page chunk.start).2.2
  have size := chunk.size
  have left : (bytes.drop n).length = bytes.length - n := length_drop
  have nonempty : ¬ bytes.isEmpty = true := by
    rw [List.isEmpty_iff]
    exact length_pos_iff.mp chunk.some
  have offset : va - va / pgsize * pgsize = va % pgsize := by
    simp only [pgsize_eq]
    omega
  have isOpen : m.Open pgdir (va / pgsize) := ⟨pte, stored, user⟩
  obtain ⟨pgtab, found⟩ := isSome_iff_exists.mp
    (tableAt_of_entry (show (m.entry pgdir (va / pgsize)).isSome by rw [stored]; rfl))
  have answer : m.uva2ka current pgdir (va / pgsize * pgsize) = .ok (some (frame pte)) := by
    rw [uva2ka_found bound found, stored]
    simp [user]
  have walked : (m.walkpgdir pgdir (va / pgsize * pgsize) false).1 ≠ none := by
    rw [walk_look, (pdx_ptx bound).1, found]
    rintro ⟨⟩
  have same : m.Stray pgdir va bytes.length ↔
      middle.Stray pgdir ((va / pgsize * pgsize + pgsize) % 2 ^ 32) (bytes.drop n).length := by
    rw [chunk.stray_iff isOpen, left, Stray.congr filled.entries filled.tables]
  have pointers : copyoutPointers layout m current pgdir va bytes =
      (m.walkpgdir pgdir (va / pgsize * pgsize) false).1 ::
        copyoutPointers layout middle current pgdir ((va / pgsize * pgsize + pgsize) % 2 ^ 32)
          (bytes.drop n) := by
    rw [copyoutPointers, if_neg nonempty]
    simp only [pgrounddown, answer, offset, ← size, ran]
  have steps : copyout layout m current pgdir va bytes =
      copyout layout middle current pgdir ((va / pgsize * pgsize + pgsize) % 2 ^ 32)
        (bytes.drop n) := by
    rw [copyout, if_neg nonempty]
    simp only [pgrounddown, answer, offset, ← size, ran]
  refine ⟨fun stray => ?_, fun sound => ?_⟩
  · rw [pointers]
    exact mem_cons_of_mem _ (rest.stray (same.mp stray))
  · obtain ⟨clean, copied, later, done, others, all, top, replaced⟩ :=
      rest.sound (mt same.mpr sound)
    have range : copied = true ↔ ∀ offset < bytes.length, m.Open pgdir (pageAt va offset) := by
      rw [all, left, chunk.forall_iff (m.Open pgdir)]
      simp only [Vm.Open, filled.entries _ (pageAt_lt _ _)]
      exact ⟨fun others => ⟨isOpen, others⟩, fun both => both.2⟩
    have below : copied = true → va + bytes.length ≤ kernbase := by
      intro success
      have low := isOpen.below owned alive bound
      by_cases more : n < bytes.length
      · have fits := top success (length_pos_iff.mp (by omega))
        simp only [pgsize_eq, kernbase_eq] at size fits low ⊢
        omega
      · simp only [pgsize_eq, kernbase_eq] at size low ⊢
        omega
    refine ⟨?_, copied, later, steps.trans done, filled.trans others, range,
      fun success _ => below success, fun success => ?_⟩
    · rw [pointers, mem_cons, not_or]
      exact ⟨fun same => walked same.symm, clean⟩
    · exact Replaced.chunk owned alive chunk (below success) stored ran filled.entries
        (replaced success)

/-- The loop from a page on. -/
theorem copyout_copies {pgdir : Nat} (alive : live pgdir) (size : Nat) :
    ∀ {va : Nat} {bytes : List UInt8} {m : Vm}, bytes.length ≤ size → va < 2 ^ 32 →
      Owned layout m live held own →
      CopiesOut layout live held current pgdir va bytes m own := by
  have empty : ∀ {va : Nat} {m : Vm}, Owned layout m live held own →
      CopiesOut layout live held current pgdir va [] m own := by
    intro va m owned
    have notStray : ¬ m.Stray pgdir va ([] : List UInt8).length := by
      rintro ⟨offset, impossible, -⟩
      exact absurd impossible (Nat.not_lt_zero _)
    refine ⟨fun stray => absurd stray notStray, fun _ => ⟨?_, true, m, ?_, Filled.refl owned, ?_,
      ?_, ?_⟩⟩
    · rw [copyoutPointers]
      simp
    · rw [copyout]
      simp
    · simp
    · exact fun _ impossible => absurd rfl impossible
    · exact fun _ => Replaced.nil pgdir va m
  induction size with
  | zero =>
    intro va bytes m short start owned
    obtain rfl : bytes = [] := length_eq_zero_iff.mp (by omega)
    exact empty owned
  | succ size ih =>
    intro va bytes m short start owned
    by_cases none : bytes = []
    · subst none
      exact empty owned
    · have positive := length_pos_iff.mpr none
      have bound : va / pgsize < 1048576 := (pdx_ptx_page start).2.2
      have nonempty : ¬ bytes.isEmpty = true := by
        rw [List.isEmpty_iff]
        exact none
      cases found : m.tableAt pgdir (va / pgsize / 1024) with
      | none =>
        have isStray : m.Stray pgdir va bytes.length := by
          refine ⟨0, positive, ?_, fun _ impossible => absurd impossible (Nat.not_lt_zero _)⟩
          rw [pageAt, Nat.add_zero, Nat.mod_eq_of_lt start, found]
        refine ⟨fun _ => ?_, fun sound => absurd isStray sound⟩
        rw [copyoutPointers, if_neg nonempty]
        simp only [pgrounddown]
        rw [walk_look, (pdx_ptx bound).1, found]
        exact mem_cons_self
      | some pgtab =>
        by_cases isOpen : m.Open pgdir (va / pgsize)
        · obtain ⟨pte, stored, user⟩ := isOpen
          have chunk : Chunk va bytes.length (min (pgsize - va % pgsize) bytes.length) :=
            ⟨start, positive, rfl⟩
          have below := Open.below owned alive bound ⟨pte, stored, user⟩
          have owner := user_of_entry owned alive below stored
          obtain ⟨middle, ran⟩ := put_user_ok owned owner (bytes.take _)
          have filled := put_user owned alive owner ran
          apply CopiesOut.opened owned alive chunk stored user ran filled
          apply ih _ (Nat.mod_lt _ (by decide)) filled.owned
          have progress := chunk.pos
          rw [length_drop]
          omega
        · exact CopiesOut.closed owned start none found isOpen

/-! ## The whole call -/

namespace Replaced

variable {pgdir va : Nat} {bytes : List UInt8} {a : Nat}

section

variable (owned : Owned layout m live held own) (alive : live pgdir)
  (top : va + bytes.length ≤ kernbase) (replaced : Replaced pgdir va bytes m later)

include owned alive top replaced

/-- A copy into user pages leaves directories, tables and free pages alone. -/
theorem structural (isStructure : Structural own page) : later.page page = m.page page := by
  apply Bytes.ext_byte
  intro position _
  apply replaced.outside
  rintro offset pte inside mapped ⟨rfl, -⟩
  have below : (va + offset) / pgsize < 524288 := by
    simp only [pgsize_eq, kernbase_eq] at top ⊢
    omega
  have mine := (owned.apart_user alive below mapped).1
  rcases isStructure with isFree | isDir | ⟨dir, index, isTable⟩
  · simp [mine] at isFree
  · simp [mine] at isDir
  · simp [mine] at isTable

/-- The process finds the new bytes in the range, and what it had elsewhere. -/
theorem load (mapped : ∀ offset < bytes.length, (m.entry pgdir ((va + offset) / pgsize)).isSome)
    (below : a < kernbase) :
    later.load pgdir a =
      if va ≤ a ∧ a < va + bytes.length then bytes[a - va]? else m.load pgdir a := by
  have inside : a < 2 ^ 32 := by
    simp only [kernbase_eq] at below
    omega
  have inUser : a / pgsize < 524288 := by
    simp only [kernbase_eq, pgsize_eq] at below ⊢
    omega
  have entries : later.entry pgdir (a / pgsize) = m.entry pgdir (a / pgsize) :=
    owned.entry_structural (fun page isStructure =>
      replaced.structural owned alive top isStructure) alive (by omega)
  rw [load_eq inside, load_eq inside, entries]
  by_cases within : va ≤ a ∧ a < va + bytes.length
  · have place : va + (a - va) = a := by omega
    obtain ⟨pte, stored⟩ := isSome_iff_exists.mp (mapped (a - va) (by omega))
    have byte := replaced.inside (a - va) pte (by omega) stored
    rw [place] at byte stored
    rw [if_pos within, stored, map_some, byte, getD_eq_getElem?_getD,
      List.getElem?_eq_getElem (by omega)]
    rfl
  · rw [if_neg within]
    cases stored : m.entry pgdir (a / pgsize) with
    | none => rfl
    | some pte =>
      rw [map_some, map_some, replaced.outside]
      rintro offset pte' early other ⟨same, position⟩
      have low : (va + offset) / pgsize < 524288 := by
        simp only [pgsize_eq, kernbase_eq] at top ⊢
        omega
      have mine := (owned.apart_user alive inUser stored).1
      have others := (owned.apart_user alive low other).1
      rw [← same, mine] at others
      simp only [Option.some.injEq, Place.user.injEq, true_and] at others
      simp only [pgsize_eq] at others position
      omega

end

/-- The same for a range in pages that are open to the user. -/
theorem load_open (owned : Owned layout m live held own) (alive : live pgdir)
    (top : bytes ≠ [] → va + bytes.length ≤ kernbase)
    (all : ∀ offset < bytes.length, m.Open pgdir (pageAt va offset))
    (replaced : Replaced pgdir va bytes m later) (below : a < kernbase) :
    later.load pgdir a =
      if va ≤ a ∧ a < va + bytes.length then bytes[a - va]? else m.load pgdir a := by
  by_cases none : bytes = []
  · subst none
    rw [if_neg (by simp only [length_nil]; omega)]
    apply load_seen owned alive below
    intro page _
    apply Bytes.ext_byte
    intro position _
    exact replaced.outside page position fun _ _ impossible => absurd impossible (Nat.not_lt_zero _)
  · have fits := top none
    apply replaced.load owned alive fits _ below
    intro offset inside
    obtain ⟨pte, stored, -⟩ := all offset inside
    rw [pageAt, Nat.mod_eq_of_lt (by simp only [kernbase_eq] at fits; omega)] at stored
    rw [stored]
    rfl

end Replaced

/-- A call that is total and exact: no null pointer is followed; the call returns, with
success exactly when all pages of the range are present and open to the user; and then
the bytes of the range are the given ones, and all others are as before. -/
def CopyoutExact (layout : Layout) (m : Vm) (current pgdir va : Nat) (bytes : List UInt8) : Prop :=
  none ∉ copyoutPointers layout m current pgdir va bytes ∧ ∃ copied later,
    copyout layout m current pgdir va bytes = .ok (copied, later) ∧
    (copied = true ↔ ∀ offset < bytes.length, m.Open pgdir (pageAt va offset)) ∧
    (copied = true → Replaced pgdir va bytes m later ∧ ∀ a, a < kernbase →
      later.load pgdir a =
        if va ≤ a ∧ a < va + bytes.length then bytes[a - va]? else m.load pgdir a)

/-- A call of `copyout` is total and exact exactly when the first page of its range that is
not open to the user, if there is one, has a page table. -/
theorem copyout_exact_iff (owned : Owned layout m live held own) (current : Nat) {pgdir va : Nat}
    (alive : live pgdir) (start : va < 2 ^ 32) (bytes : List UInt8) :
    CopyoutExact layout m current pgdir va bytes ↔ ¬ m.Stray pgdir va bytes.length := by
  have copies : CopiesOut layout live held current pgdir va bytes m own :=
    copyout_copies alive bytes.length (Nat.le_refl _) start owned
  constructor
  · rintro ⟨clean, -⟩ stray
    exact clean (copies.stray stray)
  · intro sound
    obtain ⟨clean, copied, later, ran, -, all, top, replaced⟩ := copies.sound sound
    refine ⟨clean, copied, later, ran, all, fun success => ⟨replaced success, fun a below => ?_⟩⟩
    exact (replaced success).load_open owned alive (top success) (all.mp success) below

/-- A copy into a page that is open to the user. -/
theorem copyout_exact_iff_page :
    CopyoutExact smallestLayout (onePage 1) 300 300 0x400000 [1, 2, 3] := by
  have owned := onePage_owned (show 1 < 512 by decide)
  apply (copyout_exact_iff owned 300 (Or.inr rfl) (by decide) [1, 2, 3]).mpr
  rintro ⟨offset, inside, missing, -⟩
  have page : pageAt 0x400000 offset / 1024 = 1 := by
    simp only [List.length_cons, List.length_nil] at inside
    simp only [pageAt, pgsize_eq]
    omega
  rw [page] at missing
  exact absurd missing (by decide +kernel)

/-- Memory in which the directory maps one page, at address 0, and the first word of that
page looks like an entry for page 303. -/
def baitSpace : Vm := (onePage 0).store 302 0 (mkPte (303 * pgsize) 6)

theorem baitSpace_owned : Owned smallestLayout baitSpace (fun other => False ∨ other = 300)
    (fun _ => none) (onePageOwners 0) := by
  apply (onePage_owned (show 0 < 512 by decide)).setPage
  rintro (isFree | isDir | ⟨dir, index, isTable⟩) <;>
    simp_all [onePageOwners]

/-- A copy to an address between the top of physical memory and the devices, where no
directory has page tables, follows a null pointer, takes the word at address 0 for an
entry, writes into a page that nobody mapped and reports success. -/
theorem null_entry_followed : ∃ later,
    Owned smallestLayout baitSpace (fun other => False ∨ other = 300) (fun _ => none)
        (onePageOwners 0) ∧
      copyout smallestLayout baitSpace 300 300 0xFD800000 [1] = .ok (true, later) ∧
      (later.page 303).byte 0 = 1 ∧ (baitSpace.page 303).byte 0 = 0 ∧
      ¬ CopyoutExact smallestLayout baitSpace 300 300 0xFD800000 [1] := by
  have start : pgrounddown 0xFD800000 = 0xFD800000 := rfl
  have bait : baitSpace.uva2ka 300 300 0xFD800000 = .ok (some 303) := rfl
  obtain ⟨later, ran⟩ : ∃ later, baitSpace.put smallestLayout 303 0 [1] = .ok later := by
    rw [put, if_neg (by decide), if_pos (by decide)]
    exact ⟨_, rfl⟩
  have stray : baitSpace.Stray 300 0xFD800000 1 :=
    ⟨0, by decide, by decide +kernel, fun _ impossible => absurd impossible (Nat.not_lt_zero _)⟩
  have copies : CopiesOut smallestLayout _ _ 300 300 0xFD800000 [1] baitSpace _ :=
    copyout_copies (Or.inr rfl) 1 (Nat.le_refl _) (by decide) baitSpace_owned
  refine ⟨later, baitSpace_owned, ?_, ?_, ?_, ?_⟩
  · rw [copyout, if_neg (by decide)]
    simp only [start, bait, Nat.sub_self, List.length_cons, List.length_nil, ran,
      show min (pgsize - 0) (0 + 1) = 1 from rfl, List.take_succ_cons, List.take_zero,
      List.drop_succ_cons, List.drop_zero]
    rw [copyout]
    rfl
  · rw [put_byte (by decide) ran]
    rfl
  · exact Bytes.byte_zero 0
  · exact fun exact_ => exact_.1 (copies.stray stray)

end Xv6
