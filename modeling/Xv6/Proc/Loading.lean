import Xv6.Proc.Exec

/-!
# What loading a program stores, and where

`loaduvm` looks up the page of each address of a segment in the new directory and
copies the file there, whatever it finds. This module lists the stores that loading
makes, with the memory in which each is made, and says for which program headers they
all go to pages that the directory maps below `KERNBASE`: the segment is aligned, and
each of its pages that the file reaches lies below the size grown so far. Where the
file ends earlier nothing is stored; then it is enough that there is a page table, as
without one `loaduvm` panics.
-/

namespace Xv6

open Vm

/-- The bytes go where the directory maps their address, below `KERNBASE`. -/
def Vm.LoadWrite.InUser (write : LoadWrite) : Prop :=
  write.va < kernbase ∧
    ∃ pte, write.vm.entry write.pgdir (write.va / pgsize) = some pte ∧ frame pte = write.page

/-- The stores of `exec` before it builds the stack. -/
def Kernel.execWrites (layout : Layout) (k : Kernel) (file : Option Image) : List LoadWrite :=
  match programOf file with
  | none => []
  | some (ip, elf) =>
    match k.vm.setupkvm layout with
    | .ok (some pgdir, vm) => (loadSegments layout ip pgdir elf.phnum vm elf.phoff 0).events
    | _ => []

/-- A directory of the given size has no table at an index. -/
def untabled (size index : Nat) : Bool :=
  if index < 512 then lacking size index else !kernelTable index

/-- Loading a segment into a directory of the given size stores below that size only, and
finds a table for every address it looks up. -/
def segmentConfined (ip : Image) (vaddr offset filesz size i : Nat) : Bool :=
  if i < filesz then
    let a := (vaddr + i) % 2 ^ 32
    let n := min (filesz - i) pgsize
    match ip.readi ((offset + i) % 2 ^ 32) n with
    | none => a < size || !untabled size (a / 4194304)
    | some bytes =>
      (a < size || !untabled size (a / 4194304) && bytes.isEmpty) &&
        (bytes.length ≠ n || segmentConfined ip vaddr offset filesz size (i + pgsize))
  else true
termination_by filesz - i
decreasing_by simp only [pgsize_eq]; omega

/-- Every segment that is loaded before a call of `kalloc` fails is aligned and confined. -/
def segmentsConfined (refuse : Nat → Bool) (ip : Image) : (count off sz tick free : Nat) → Bool
  | 0, _, _, _, _ => true
  | count + 1, off, sz, tick, free =>
    match ip.header off with
    | .bad => true
    | .skip => segmentsConfined refuse ip count ((off + 32) % 2 ^ 32) sz tick free
    | .load ph =>
      let top := (ph.vaddr + ph.memsz) % 2 ^ 32
      let requests := allocRequests (lacking sz) sz top
      if grownSize sz top = 0 ∨ forecast refuse requests tick free ≠ none then true
      else
        ph.vaddr % pgsize = 0 &&
          segmentConfined ip ph.vaddr ph.off ph.filesz (grownSize sz top) 0 &&
          (!ip.readable ph.off ph.filesz 0 ||
            segmentsConfined refuse ip count ((off + 32) % 2 ^ 32) (grownSize sz top)
              (tick + requests.length) (free - requests.length))

theorem segmentsConfined_load {refuse : Nat → Bool} {ip : Image} {ph : Proghdr}
    {count off sz tick free top : Nat} {requests : List Request} (header : ip.header off = .load ph)
    (isTop : top = (ph.vaddr + ph.memsz) % 2 ^ 32)
    (isRequests : requests = allocRequests (lacking sz) sz top) :
    segmentsConfined refuse ip (count + 1) off sz tick free =
      if grownSize sz top = 0 ∨ forecast refuse requests tick free ≠ none then true
      else
        ph.vaddr % pgsize = 0 &&
          segmentConfined ip ph.vaddr ph.off ph.filesz (grownSize sz top) 0 &&
          (!ip.readable ph.off ph.filesz 0 ||
            segmentsConfined refuse ip count ((off + 32) % 2 ^ 32) (grownSize sz top)
              (tick + requests.length) (free - requests.length)) := by
  subst isTop isRequests
  rw [segmentsConfined, header]

variable {β : Type} {layout : Layout} {m later : Vm} {live : Nat → Prop}
  {held : β → Option Nat} {own : Places β}

/-- A new directory of the given size, ready for a segment to be loaded. -/
structure Ready (layout : Layout) (live : Nat → Prop) (held : β → Option Nat) (pgdir size : Nat)
    (m : Vm) (own : Places β) : Prop where
  owned : Owned layout m live held own
  alive : live pgdir
  top : size < kernbase
  complete : Complete m pgdir size
  tables : ∀ index, index < 1024 → (untabled size index = true ↔ m.tableAt pgdir index = none)

theorem Ready.filled {pgdir size : Nat} (ready : Ready layout live held pgdir size m own)
    (filled : Filled layout live held pgdir m own later) :
    Ready layout live held pgdir size later own where
  owned := filled.owned
  alive := ready.alive
  top := ready.top
  complete := filled.complete.mpr ready.complete
  tables := fun index inside => by rw [filled.tables index, ready.tables index inside]

/-- The table and the entry of a page below the size. -/
theorem Ready.mapped {pgdir size vpn : Nat} (ready : Ready layout live held pgdir size m own)
    (below : vpn * pgsize < size) : ∃ pgtab pte, vpn < 524288 ∧
      m.tableAt pgdir (vpn / 1024) = some pgtab ∧ m.word pgtab (vpn % 1024) = pte ∧
      m.entry pgdir vpn = some pte ∧ own (frame pte) = some (.user pgdir vpn) := by
  have user := user_page ready.top.le below
  obtain ⟨pte, stored⟩ := Option.isSome_iff_exists.mp ((ready.complete vpn user).mpr below)
  have owner := user_of_entry ready.owned ready.alive user stored
  unfold entry at stored
  cases found : m.tableAt pgdir (vpn / 1024) with
  | none => simp [found] at stored
  | some pgtab =>
    simp only [found] at stored
    split at stored
    · rename_i shown
      refine ⟨pgtab, pte, user, rfl, Option.some.inj stored, ?_, owner⟩
      rw [entry, found]
      simp only [shown, if_true, stored]
    · cases stored

/-- A page at or above the size has no entry. -/
theorem Ready.unmapped {pgdir size vpn : Nat} (ready : Ready layout live held pgdir size m own)
    (user : vpn < 524288) (above : ¬ vpn * pgsize < size) : m.entry pgdir vpn = none := by
  have outside := mt (ready.complete vpn user).mp above
  simpa using outside

/-- The kernel can store to a page of the directory. -/
theorem put_user_ok (owned : Owned layout m live held own) {pgdir vpn page offset : Nat}
    (isUser : own page = some (.user pgdir vpn)) (bytes : List UInt8) :
    ∃ after, m.put layout page offset bytes = .ok after := by
  unfold put
  split
  · exact ⟨_, rfl⟩
  · rw [if_pos (owned.managed isUser).writable]
    exact ⟨_, rfl⟩

/-- The address of a page of an aligned segment, and the table for it. -/
theorem page_walk {vaddr i : Nat} (aligned : vaddr % pgsize = 0) (even : i % pgsize = 0) (m : Vm)
    (pgdir : Nat) :
    ∃ vpn < 1048576, (vaddr + i) % 2 ^ 32 = vpn * pgsize ∧
      (vaddr + i) % 2 ^ 32 / 4194304 = vpn / 1024 ∧
      (m.walkpgdir pgdir ((vaddr + i) % 2 ^ 32) false).1 =
        (m.tableAt pgdir (vpn / 1024)).map fun pgtab => (pgtab, vpn % 1024) := by
  obtain ⟨vpn, bound, address, index⟩ : ∃ vpn < 1048576, (vaddr + i) % 2 ^ 32 = vpn * pgsize ∧
      (vaddr + i) % 2 ^ 32 / 4194304 = vpn / 1024 := by
    rw [pgsize_eq] at *
    exact ⟨(vaddr + i) % 2 ^ 32 / 4096, by omega, by omega, by omega⟩
  refine ⟨vpn, bound, address, index, ?_⟩
  rw [address, walk_look, (pdx_ptx bound).1, (pdx_ptx bound).2]

/-- One round of the loop of `loaduvm` when the file reaches the page. -/
theorem loadLoop_page {pgdir vaddr offset filesz i n pgtab index : Nat} {ip : Image}
    {bytes : List UInt8} (inside : i < filesz)
    (walk : (m.walkpgdir pgdir ((vaddr + i) % 2 ^ 32) false).1 = some (pgtab, index))
    (isN : n = min (filesz - i) pgsize)
    (reading : ip.readi ((offset + i) % 2 ^ 32) n = some bytes) :
    loadLoop layout m pgdir vaddr ip offset filesz i =
      .after (if bytes.isEmpty then []
          else [⟨m, pgdir, (vaddr + i) % 2 ^ 32, frame (m.word pgtab index)⟩])
        (match m.put layout (frame (m.word pgtab index)) 0 bytes with
        | .error message => .fail message
        | .ok after =>
          if bytes.length = n then loadLoop layout after pgdir vaddr ip offset filesz (i + pgsize)
          else .done (false, after)) := by
  subst isN
  rw [loadLoop, if_pos inside, walk]
  simp only [reading]
  cases m.put layout (frame (m.word pgtab index)) 0 bytes with
  | error message => rfl
  | ok after =>
    dsimp only
    split <;> rfl

/-- What loading does in a directory that is ready: whether it comes to an end and stores
to user pages only, and if so what it leaves. -/
structure Loads (layout : Layout) (live : Nat → Prop) (held : β → Option Nat) (pgdir : Nat)
    (own : Places β) (load : Traced LoadWrite String (Bool × Vm)) (confined : Bool)
    (m : Vm) : Prop where
  exact_when : load.Only LoadWrite.InUser ↔ confined = true
  filled : confined = true → ∀ loaded later, load.result = .ok (loaded, later) →
    Filled layout live held pgdir m own later
  during : confined = true → ∀ write ∈ load.events,
    Filled layout live held pgdir m own write.vm ∧ write.pgdir = pgdir

section Rounds

variable {pgdir : Nat} {load : Traced LoadWrite String (Bool × Vm)} {confined : Bool}

/-- Loading that ends before it stores anything. -/
theorem Loads.stop (owned : Owned layout m live held own) (loaded : Bool) :
    Loads layout live held pgdir own (.done (loaded, m)) true m where
  exact_when := iff_of_true (Traced.only_done _) rfl
  filled := by
    rintro _ _ _ ⟨⟩
    exact Filled.refl owned
  during := by simp

/-- Loading that does not come to an end, or stores elsewhere. -/
theorem Loads.never (fails : ¬ load.Only LoadWrite.InUser) :
    Loads layout live held pgdir own load false m where
  exact_when := iff_of_false fails (by simp)
  filled := by simp
  during := by simp

/-- The bytes of one page, and the pages after it. -/
theorem Loads.next {after : Vm} {write : LoadWrite}
    (filled : Filled layout live held pgdir m own after) (here : write.InUser)
    (now : write.vm = m ∧ write.pgdir = pgdir) (owned : Owned layout m live held own)
    (loads : Loads layout live held pgdir own load confined after) :
    Loads layout live held pgdir own (.after [write] load) confined m where
  exact_when := by
    rw [← loads.exact_when]
    exact Traced.only_after (by simpa using here)
  filled := fun holds loaded later result => filled.trans (loads.filled holds loaded later result)
  during := by
    intro holds other member
    rcases List.mem_cons.mp member with rfl | later
    · exact ⟨by rw [now.1]; exact Filled.refl owned, now.2⟩
    · obtain ⟨since, directory⟩ := loads.during holds other later
      exact ⟨filled.trans since, directory⟩

end Rounds

/-- The lookup of an address. Without a table for it loading panics, and the address is not
below the size. -/
theorem Ready.lookup {pgdir size vaddr i offset filesz : Nat} {ip : Image}
    (ready : Ready layout live held pgdir size m own) (aligned : vaddr % pgsize = 0)
    (even : i % pgsize = 0) (inside : i < filesz) :
    (¬ (loadLoop layout m pgdir vaddr ip offset filesz i).Only LoadWrite.InUser ∧
      ¬ (vaddr + i) % 2 ^ 32 < size ∧ untabled size ((vaddr + i) % 2 ^ 32 / 4194304) = true) ∨
    ∃ vpn pgtab, (vaddr + i) % 2 ^ 32 = vpn * pgsize ∧ m.tableAt pgdir (vpn / 1024) = some pgtab ∧
      (m.walkpgdir pgdir ((vaddr + i) % 2 ^ 32) false).1 = some (pgtab, vpn % 1024) ∧
      untabled size ((vaddr + i) % 2 ^ 32 / 4194304) = false := by
  obtain ⟨vpn, bound, address, index, walk⟩ := page_walk aligned even m pgdir
  have tables := ready.tables (vpn / 1024) (by omega)
  rw [index]
  cases found : m.tableAt pgdir (vpn / 1024) with
  | none =>
    rw [found, Option.map_none] at walk
    refine Or.inl ⟨fun only => ?_, fun below => ?_, tables.mpr found⟩
    · obtain ⟨⟨result, ran⟩, -⟩ := only
      rw [loadLoop, if_pos inside, walk] at ran
      cases ran
    · obtain ⟨pgtab, -, -, there, -⟩ := ready.mapped (by rw [← address]; exact below)
      rw [found] at there
      cases there
  | some pgtab =>
    rw [found, Option.map_some] at walk
    refine Or.inr ⟨vpn, pgtab, address, found, walk, ?_⟩
    rw [← Bool.not_eq_true, tables, found]
    rintro ⟨⟩

/-- Loading a segment, page by page. -/
theorem loadLoop_confined {pgdir vaddr offset filesz size i : Nat} {ip : Image}
    (aligned : vaddr % pgsize = 0) : ∀ {m : Vm}, i % pgsize = 0 →
      Ready layout live held pgdir size m own →
      Loads layout live held pgdir own (loadLoop layout m pgdir vaddr ip offset filesz i)
        (segmentConfined ip vaddr offset filesz size i) m := by
  fun_induction segmentConfined ip vaddr offset filesz size i with
  | case3 i outside =>
    intro m even ready
    rw [loadLoop, if_neg outside]
    exact Loads.stop ready.owned true
  | case1 i inside a n =>
    rename_i unread
    intro m even ready
    obtain ⟨fails, above, absent⟩ | ⟨vpn, pgtab, -, -, walk, present⟩ :=
      ready.lookup aligned even inside
    · rw [decide_eq_false above, absent]
      exact Loads.never fails
    · rw [present, Bool.not_false, Bool.or_true, loadLoop, if_pos inside, walk]
      simp only
      rw [unread]
      exact Loads.stop ready.owned false
  | case2 i inside a n bytes reading =>
    rename_i ih
    intro m even ready
    obtain ⟨fails, above, absent⟩ | ⟨vpn, pgtab, address, found, walk, present⟩ :=
      ready.lookup aligned even inside
    · rw [decide_eq_false above, absent]
      exact Loads.never fails
    · have positive : 0 < n := lt_min (by omega) (by decide)
      have isN : n = min (filesz - i) pgsize := rfl
      clear_value n
      rw [loadLoop_page inside walk isN reading]
      by_cases empty : bytes = []
      · subst empty
        have short : ¬ 0 = n := by omega
        have nothing : m.put layout (frame (m.word pgtab (vpn % 1024))) 0 [] = .ok m := rfl
        rw [nothing, present]
        simp only [List.length_nil, List.isEmpty_nil, ne_eq, short, not_false_eq_true, decide_true,
          Bool.not_false, Bool.and_true, Bool.or_true, Bool.true_or, if_true, if_false]
        exact Loads.stop ready.owned false
      · have nonempty : bytes.isEmpty = false := by simpa using empty
        rw [nonempty, Bool.and_false, Bool.or_false]
        by_cases below : a < size
        · obtain ⟨there, pte, user, table, isPte, stored, owner⟩ :=
            ready.mapped (show vpn * pgsize < size by rw [← address]; exact below)
          rw [found] at table
          cases table
          obtain ⟨after, storing⟩ := put_user_ok ready.owned owner bytes
          have filled := put_user ready.owned ready.alive owner storing
          rw [isPte, storing]
          have here : LoadWrite.InUser ⟨m, pgdir, (vaddr + i) % 2 ^ 32, frame pte⟩ := by
            refine ⟨below.trans ready.top, pte, ?_, rfl⟩
            simp only [address, Nat.mul_div_cancel vpn (show 0 < pgsize by decide)]
            exact stored
          refine Loads.next filled here ⟨rfl, rfl⟩ ready.owned ?_
          rw [decide_eq_true below, Bool.true_and]
          by_cases long : bytes.length = n
          · simp only [long, if_true, ne_eq, not_true_eq_false, decide_false, Bool.false_or]
            exact ih (by rw [Nat.add_mod_right, even]) (ready.filled filled)
          · simp only [long, if_false, ne_eq, not_false_eq_true, decide_true, Bool.true_or]
            exact Loads.stop filled.owned false
        · rw [decide_eq_false below, Bool.false_and]
          refine Loads.never fun only => ?_
          obtain ⟨low, pte, stored, -⟩ := only.2 ⟨m, pgdir, (vaddr + i) % 2 ^ 32, _⟩
            (List.mem_append_left _ (List.mem_singleton_self _))
          simp only [address, Nat.mul_div_cancel vpn (show 0 < pgsize by decide)] at low stored
          have user : vpn < 524288 := user_page le_rfl low
          rw [ready.unmapped user (by rw [← address]; exact below)] at stored
          cases stored

end Xv6
