import Xv6.Vm.Contents

/-!
# User memory

What a process finds at an address of its own, and what a store from user mode does.
Both go through the translation of the hardware. A store that is not allowed faults
and changes nothing.

Directories in use share no user page, so the stores of one process are invisible to
another: after any interleaving of stores a process finds what its own stores alone
would have left.
-/

namespace Xv6

open Vm Option

variable {β : Type} {layout : Layout} {m later : Vm} {live : Nat → Prop}
  {held : β → Option Nat} {own : Places β} {page va pgdir : Nat} {kept : Nat → Prop}

namespace Vm

/-- The byte at an address. -/
def load (m : Vm) (pgdir va : Nat) : Option UInt8 :=
  (m.translate pgdir va).map fun t => (m.page (t.pa / pgsize)).byte (t.pa % pgsize)

/-- A store of a byte from user mode. -/
def userWrite (m : Vm) (pgdir va : Nat) (byte : UInt8) : Vm :=
  match m.translate pgdir va with
  | none => m
  | some t =>
    if t.user && t.writable then
      m.setPage (t.pa / pgsize)
        ((m.page (t.pa / pgsize)).blit (t.pa % pgsize) 1 fun _ => byte)
    else m

end Vm

/-- A store by the process with a given directory. -/
structure Write where
  pgdir : Nat
  va : UInt32
  byte : UInt8

/-- Stores one after the other. -/
def Vm.writeAll (m : Vm) : List Write → Vm
  | [] => m
  | w :: rest => (m.userWrite w.pgdir w.va.toNat w.byte).writeAll rest

/-! ## Loads -/

theorem Vm.pa_page : (page * pgsize + va % pgsize) / pgsize = page ∧
      (page * pgsize + va % pgsize) % pgsize = va % pgsize := by
  simp only [pgsize_eq]
  omega

/-- A translation comes from an entry, whose permissions it has at most. -/
theorem translate_some {t : Translation} (inside : va < 2 ^ 32)
    (found : m.translate pgdir va = some t) : ∃ pte, m.entry pgdir (va / pgsize) = some pte ∧
      t.pa = frame pte * pgsize + va % pgsize ∧ (t.user = true → userBit pte = true) := by
  obtain ⟨first, second, -⟩ := pdx_ptx_page inside
  simp only [Vm.translate, first, second] at found
  split at found
  · rename_i shown
    split at found
    · rename_i mapped
      cases found
      refine ⟨_, ?_, rfl, fun user => ?_⟩
      · simp only [entry, tableAt, shown, mapped, if_true]
      · simp only [Bool.and_eq_true] at user
        exact user.2
    · cases found
  · cases found

/-- The byte at an address is in the page of its entry. -/
theorem load_eq (inside : va < 2 ^ 32) :
    m.load pgdir va = (m.entry pgdir (va / pgsize)).map fun pte =>
      (m.page (frame pte)).byte (va % pgsize) := by
  obtain ⟨first, second, -⟩ := pdx_ptx_page inside
  simp only [Vm.load, Vm.translate, entry, tableAt, first, second]
  by_cases shown : present (m.word pgdir (va / pgsize / 1024)) = true
  · simp only [shown, if_true]
    split
    · simp only [map_some, pa_page]
    · rfl
  · simp only [shown]
    rfl

/-- Pages that stay mapped give the same bytes. -/
theorem Retains.load (retains : Retains pgdir kept m later) (inside : va < 2 ^ 32)
    (here : kept (va / pgsize)) (mapped : (m.entry pgdir (va / pgsize)).isSome) :
    later.load pgdir va = m.load pgdir va := by
  obtain ⟨pte, stored⟩ := isSome_iff_exists.mp mapped
  obtain ⟨still, same⟩ := retains _ pte here stored
  rw [load_eq inside, load_eq inside, still, stored, map_some, map_some, same]

/-- Entries and contents that stay give the same bytes. -/
theorem load_retained (inside : va < 2 ^ 32)
    (same : later.entry pgdir (va / pgsize) = m.entry pgdir (va / pgsize))
    (retains : Retains pgdir kept m later) (here : kept (va / pgsize)) :
    later.load pgdir va = m.load pgdir va := by
  by_cases mapped : (m.entry pgdir (va / pgsize)).isSome
  · exact retains.load inside here mapped
  · have absent := not_isSome_iff_eq_none.mp mapped
    rw [load_eq inside, load_eq inside, same, absent]
    rfl

/-- The page of a user address. -/
theorem page_of_user (below : va < kernbase) :
    va / pgsize < 524288 ∧ va < 2 ^ 32 := by
  simp only [kernbase_eq, pgsize_eq] at *
  omega

/-- The user part of an address space is as it was. -/
structure Untouched (pgdir : Nat) (m later : Vm) : Prop where
  entries : ∀ vpn, vpn < 524288 → later.entry pgdir vpn = m.entry pgdir vpn
  bytes : ∀ va, va < kernbase → later.load pgdir va = m.load pgdir va

theorem Untouched.refl (pgdir : Nat) (m : Vm) : Untouched pgdir m m :=
  ⟨fun _ _ => rfl, fun _ _ => rfl⟩

/-! ## Stores -/

/-- Translations only depend on the directory and its tables. -/
theorem translate_congr (owned : Owned layout m live held own)
    (same : ∀ page, Structural own page → later.page page = m.page page) (alive : live pgdir)
    (va : Nat) : later.translate pgdir va = m.translate pgdir va := by
  have sameDir : later.word pgdir = m.word pgdir :=
    word_congr (same pgdir (Or.inr (Or.inl ((owned.dir pgdir).mpr alive))))
  simp only [Vm.translate, sameDir]
  by_cases shown : present (m.word pgdir (pdx va)) = true
  · have isTable : own (frame (m.word pgdir (pdx va))) = some (.table pgdir (pdx va)) := by
      apply owned.table_own alive (pdx_lt va)
      simp [tableAt, shown]
    have sameTable : later.word (frame (m.word pgdir (pdx va))) =
        m.word (frame (m.word pgdir (pdx va))) :=
      word_congr (same _ (Or.inr (Or.inr ⟨pgdir, _, isTable⟩)))
    simp only [sameTable]
  · simp only [shown, Bool.false_eq_true, if_false]

/-- The page that a store of a process reaches is one of its own. -/
theorem userWrite_cases (owned : Owned layout m live held own) (alive : live pgdir)
    (inside : va < 2 ^ 32) (byte : UInt8) :
    m.userWrite pgdir va byte = m ∨ ∃ page vpn, own page = some (.user pgdir vpn) ∧
      m.userWrite pgdir va byte =
        m.setPage page ((m.page page).blit (va % pgsize) 1 fun _ => byte) := by
  unfold userWrite
  split
  · exact Or.inl rfl
  · rename_i t found
    split
    · rename_i allowed
      simp only [Bool.and_eq_true] at allowed
      obtain ⟨pte, stored, address, user⟩ := translate_some inside found
      have bound := (pdx_ptx_page inside).2.2
      have below : va / pgsize < 524288 := by
        by_contra above
        have hidden := owned.kernel pgdir _ pte alive (by omega) bound stored
        rw [user allowed.1] at hidden
        cases hidden
      refine Or.inr ⟨frame pte, va / pgsize, (owned.apart_user alive below stored).1, ?_⟩
      rw [address, pa_page.1, pa_page.2]
    · exact Or.inl rfl

/-- A store keeps the owners of all pages. -/
theorem userWrite_owned (owned : Owned layout m live held own) (alive : live pgdir)
    (inside : va < 2 ^ 32) (byte : UInt8) :
    Owned layout (m.userWrite pgdir va byte) live held own := by
  rcases userWrite_cases owned alive inside byte with same | ⟨page, vpn, mine, stored⟩
  · rw [same]
    exact owned
  · rw [stored]
    apply owned.setPage
    rintro (isFree | isDir | ⟨dir, index, isTable⟩) <;> simp_all

/-- The pages that a process sees: the structure of all directories, and its own user
pages. -/
def Seen (own : Places β) (pgdir page : Nat) : Prop :=
  Structural own page ∨ ∃ vpn, own page = some (.user pgdir vpn)

/-- What a process does not see is not changed by a store of another one. -/
theorem userWrite_unseen (owned : Owned layout m live held own) {other : Nat} (alive : live other)
    (apart : other ≠ pgdir) (inside : va < 2 ^ 32) (byte : UInt8) (seen : Seen own pgdir page) :
    (m.userWrite other va byte).page page = m.page page := by
  rcases userWrite_cases owned alive inside byte with same | ⟨written, vpn, mine, stored⟩
  · rw [same]
  · rw [stored]
    apply page_setPage_ne
    rintro rfl
    rcases seen with (isFree | isDir | ⟨dir, index, isTable⟩) | ⟨vpn', isUser⟩
    · simp [mine] at isFree
    · simp [mine] at isDir
    · simp [mine] at isTable
    · simp only [mine, Option.some.injEq, Place.user.injEq] at isUser
      exact apart isUser.1

/-- A store has the same effect on what is seen, whatever the rest of memory holds. -/
theorem userWrite_seen (owned : Owned layout m live held own) (alive : live pgdir) (byte : UInt8)
    (agree : ∀ page, Seen own pgdir page → later.page page = m.page page) (page : Nat)
    (seen : Seen own pgdir page) :
    (later.userWrite pgdir va byte).page page = (m.userWrite pgdir va byte).page page := by
  have sameMap : later.translate pgdir va = m.translate pgdir va :=
    translate_congr owned (fun page structural => agree page (Or.inl structural)) alive va
  simp only [userWrite, sameMap]
  cases m.translate pgdir va with
  | none => exact agree page seen
  | some t =>
    simp only
    split
    · by_cases here : page = t.pa / pgsize
      · subst here
        simp only [setPage, Function.update_self, agree _ seen]
      · rw [page_setPage_ne _ _ here, page_setPage_ne _ _ here]
        exact agree page seen
    · exact agree page seen

theorem writeAll_owned (writes : List Write) : ∀ {m : Vm}, Owned layout m live held own →
    (∀ w ∈ writes, live w.pgdir) → Owned layout (m.writeAll writes) live held own := by
  induction writes with
  | nil =>
    intro m owned _
    exact owned
  | cons w rest ih =>
    intro m owned all
    apply ih
    · exact userWrite_owned owned (all w (by simp)) w.va.toNat_lt w.byte
    · exact fun other member => all other (by simp [member])

/-- A load depends on what is seen. -/
theorem load_seen (owned : Owned layout m live held own) (alive : live pgdir)
    (below : va < kernbase) (agree : ∀ page, Seen own pgdir page → later.page page = m.page page) :
    later.load pgdir va = m.load pgdir va := by
  have inside : va < 2 ^ 32 := by
    simp only [kernbase_eq] at below
    omega
  have inUser : va / pgsize < 524288 := by
    simp only [kernbase_eq, pgsize_eq] at below ⊢
    omega
  have entries : later.entry pgdir (va / pgsize) = m.entry pgdir (va / pgsize) :=
    owned.entry_structural (fun page structural => agree page (Or.inl structural)) alive (by omega)
  rw [load_eq inside, load_eq inside, entries]
  cases stored : m.entry pgdir (va / pgsize) with
  | none => rfl
  | some pte =>
    have mine := (owned.apart_user alive inUser stored).1
    rw [map_some, map_some, agree _ (Or.inr ⟨_, mine⟩)]

/-- After the stores of several processes, one of them sees what its own stores alone
leave behind. -/
theorem writeAll_seen (alive : live pgdir) (writes : List Write) :
    ∀ {m later : Vm}, Owned layout m live held own → Owned layout later live held own →
      (∀ w ∈ writes, live w.pgdir) →
      (∀ page, Seen own pgdir page → later.page page = m.page page) →
      ∀ page, Seen own pgdir page → (later.writeAll writes).page page =
        (m.writeAll (writes.filter fun w => w.pgdir = pgdir)).page page := by
  induction writes with
  | nil =>
    intro m later _ _ _ agree
    exact agree
  | cons w rest ih =>
    intro m later owned laterOwned all agree page seen
    have wrote : live w.pgdir := all w (by simp)
    have others : ∀ other ∈ rest, live other.pgdir := fun other member => all other (by simp [member])
    have bound : w.va.toNat < 2 ^ 32 := w.va.toNat_lt
    have laterNext := userWrite_owned laterOwned wrote bound w.byte
    by_cases mine : w.pgdir = pgdir
    · rw [List.filter_cons_of_pos (by simp [mine])]
      subst mine
      apply ih (userWrite_owned owned wrote bound w.byte) laterNext others _ page
        seen
      exact userWrite_seen owned wrote w.byte agree
    · rw [List.filter_cons_of_neg (by simp [mine])]
      apply ih owned laterNext others _ page seen
      intro page seen
      rw [userWrite_unseen laterOwned wrote mine bound w.byte seen]
      exact agree page seen

/-- So its memory is what its own stores alone make it. -/
theorem load_writeAll (owned : Owned layout m live held own) (alive : live pgdir)
    (below : va < kernbase) (writes : List Write) (all : ∀ w ∈ writes, live w.pgdir) :
    (m.writeAll writes).load pgdir va =
      (m.writeAll (writes.filter fun w => w.pgdir = pgdir)).load pgdir va := by
  have fewer : ∀ w ∈ writes.filter fun w => w.pgdir = pgdir, live w.pgdir :=
    fun w member => all w (List.mem_of_mem_filter member)
  apply load_seen (writeAll_owned _ owned fewer) alive below
  exact writeAll_seen alive writes owned owned all fun _ _ => rfl

end Xv6
