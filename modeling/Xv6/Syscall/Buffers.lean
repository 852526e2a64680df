import Xv6.Syscall.Model

/-!
# Buffers of system calls stay inside the process

A call that has been let through touches bytes from its pointer on. With a length that is
not negative it touches no more than that many, and `argptr` has checked that they lie
below `sz`. A negative length passes `argptr` as well, since the sum wraps. All loops
over an `int` then do nothing, but `readi` takes the length as unsigned and cuts it to
what the file has left, so it copies the rest of the file.
-/

namespace Xv6.Syscall

open UInt32 Traced List

/-- An access to one of a number of bytes from an address on. -/
def Within (start : UInt32) (count : Nat) (access : Access) : Prop :=
  ∃ k < count, access.address = start + UInt32.ofNat k

variable {start : UInt32} {count : Nat} {access : Access}

theorem Within.mono {more : Nat} (within : Within start count access) (le : count ≤ more) :
    Within start more access := by
  obtain ⟨k, inside, address⟩ := within
  exact ⟨k, by omega, address⟩

/-- A range that starts later. -/
theorem Within.shift (skipped : Nat) (within : Within (start + ofNat skipped) count access) :
    Within start (skipped + count) access := by
  obtain ⟨k, inside, address⟩ := within
  refine ⟨skipped + k, by omega, ?_⟩
  rw [address, UInt32.add_assoc, ← ofNat_add]

/-- A range that ends below a limit. -/
theorem Within.below {sz : UInt32} (within : Within start count access)
    (fits : start.toNat + count ≤ sz.toNat) : access.address < sz := by
  obtain ⟨k, inside, address⟩ := within
  have small : sz.toNat < 2 ^ 32 := sz.toNat_lt
  rw [address, lt_iff_toNat_lt, UInt32.toNat_add, toNat_ofNat']
  omega

theorem within_stores {value : Nat → UInt8} (stored : access ∈ stores start count value) :
    Within start count access := by
  obtain ⟨k, inside, rfl⟩ := mem_map.mp stored
  exact ⟨k, mem_range.mp inside, rfl⟩

theorem within_loads (loaded : access ∈ loads start count) : Within start count access := by
  obtain ⟨k, inside, rfl⟩ := mem_map.mp loaded
  exact ⟨k, mem_range.mp inside, rfl⟩

section Loops

variable {world : World} {ip : Inode} {n : UInt32} {left : Nat} {off : Nat}

/-- The loop of `consoleread` stores at most one byte in each round. -/
theorem within_consolereadLoop :
    ∀ {i : Nat}, access ∈ (consolereadLoop world start i left).events →
      Within start (i + left) access := by
  induction left with
  | zero => simp [consolereadLoop]
  | succ left ih =>
    intro i stored
    unfold consolereadLoop at stored
    split at stored
    · simp at stored
    · split at stored
      · simp at stored
      · rw [events_after, mem_append, mem_singleton] at stored
        rcases stored with rfl | later
        · exact ⟨i, by omega, rfl⟩
        · split at later
          · simp at later
          · exact (ih later).mono (by omega)

/-- The loop of `pipewrite` loads one byte in each round. -/
theorem within_pipewriteLoop :
    ∀ {i : Nat}, access ∈ (pipewriteLoop world start i left).events →
      Within start (i + left) access := by
  induction left with
  | zero => simp [pipewriteLoop]
  | succ left ih =>
    intro i loaded
    unfold pipewriteLoop at loaded
    split at loaded
    · rw [events_after, mem_append, mem_singleton] at loaded
      rcases loaded with rfl | later
      · exact ⟨i, by omega, rfl⟩
      · exact (ih later).mono (by omega)
    · simp at loaded

/-- The loop of `readi` stores at most what is left. -/
theorem within_readiLoop (stored : access ∈ (readiLoop ip start off left).events) :
    Within start left access := by
  fun_induction readiLoop ip start off left with
  | case1 => simp at stored
  | case2 start off left more data found m ih =>
    rcases mem_append.mp stored with now | later
    · exact (within_stores now).mono (by omega)
    · exact ((ih later).shift _).mono (by omega)
  | case3 => simp at stored

/-- The loop of `writei` loads at most what is left. -/
theorem within_writeiLoop (loaded : access ∈ (writeiLoop ip start off left).events) :
    Within start left access := by
  fun_induction writeiLoop ip start off left with
  | case1 => simp at loaded
  | case2 start off left more data found m ih =>
    rcases mem_append.mp loaded with now | later
    · exact (within_loads now).mono (by omega)
    · exact ((ih later).shift _).mono (by omega)
  | case3 => simp at loaded

/-- `consoleread`, `consolewrite`, `piperead` and `pipewrite` touch at most as many bytes as
the length says, none when it is negative. -/
theorem within_consoleread (stored : access ∈ (consoleread world start n).events) :
    Within start (signed n).toNat access :=
  (within_consolereadLoop stored).mono (by omega)

theorem within_consolewrite (loaded : access ∈ (consolewrite start n).events) :
    Within start (signed n).toNat access := by
  rw [consolewrite, events_after, events_done, append_nil] at loaded
  exact within_loads loaded

theorem within_piperead (stored : access ∈ (piperead world start n).events) :
    Within start (signed n).toNat access := by
  unfold piperead at stored
  split at stored
  · simp at stored
  · rename_i bytes found
    rw [events_after, events_done, append_nil] at stored
    exact (within_stores stored).mono (length_take_le _ _)

theorem within_pipewrite :
    ∀ access ∈ (pipewrite world start n).events, Within start (signed n).toNat access := by
  apply forall_andThen
  · intro access loaded
    exact (within_pipewriteLoop loaded).mono (by omega)
  · simp

/-- A length that is not negative is the same number as an `int` and as a `uint`. -/
theorem signed_of_nonneg (nonneg : 0 ≤ signed n) : signed n = n.toNat := by
  unfold signed at *
  rw [BitVec.toInt_eq_toNat_cond] at *
  have same : n.toBitVec.toNat = n.toNat := rfl
  omega

/-- A number below `2^31` is the same as an `int`. -/
theorem signed_ofNat {number : Nat} (small : number < 2 ^ 31) :
    signed (ofNat number) = number := by
  unfold signed
  rw [BitVec.toInt_eq_toNat_cond]
  have same : (ofNat number).toBitVec.toNat = number := by
    rw [toNat_toBitVec, toNat_ofNat']
    omega
  omega

/-- `writei` loads at most as many bytes as its length says. -/
theorem within_writei {off : UInt32} (nonneg : 0 ≤ signed n) :
    ∀ access ∈ (writei ip start off n).events, Within start n.toNat access := by
  have length := signed_of_nonneg nonneg
  unfold writei
  split
  · split
    · simp
    · intro access loaded
      exact (within_consolewrite loaded).mono (by omega)
  · split
    · simp
    · split
      · simp
      · apply forall_andThen
        · exact fun access loaded => within_writeiLoop loaded
        · simp

/-- The loop of `filewrite` loads bytes that have not been written. -/
theorem within_filewriteLoop {i round : Nat} :
    ∀ access ∈ (File.filewriteLoop world start i left round).events,
      Within start (i + left) access := by
  fun_induction File.filewriteLoop world start i left round with
  | case1 i left round more n1 ih =>
    have small : n1 < 2 ^ 31 := lt_of_le_of_lt (Nat.min_le_right _ _) (by decide)
    apply forall_andThen
    · intro access loaded
      have nonneg : 0 ≤ signed (ofNat n1) := by
        rw [signed_ofNat small]
        omega
      have within := within_writei nonneg access loaded
      rw [toNat_ofNat', Nat.mod_eq_of_lt (by omega)] at within
      exact (within.shift i).mono (by omega)
    · intro r access loaded
      split at loaded
      · simp at loaded
      · split at loaded
        · simp at loaded
        · exact (ih r access loaded).mono (by omega)
  | case2 => simp

/-- `readi` with a length that is not negative stores at most that many bytes. -/
theorem within_readi {off : UInt32} (nonneg : 0 ≤ signed n) :
    ∀ access ∈ (readi world ip start off n).events, Within start (signed n).toNat access := by
  have length := signed_of_nonneg nonneg
  unfold readi
  split
  · split
    · simp
    · exact fun access stored => within_consoleread stored
  · split
    · simp
    · rename_i reads
      apply forall_andThen
      · intro access stored
        refine (within_readiLoop stored).mono ?_
        split
        · rename_i cut
          simp only [not_or, not_lt, gt_iff_lt, lt_iff_toNat_lt,
            UInt32.toNat_add] at reads cut
          rw [UInt32.toNat_sub_of_le _ _ (le_iff_toNat_le.mpr reads.1)]
          omega
        · omega
      · simp

/-- The blocks of a file from an offset on up to a byte behind it are all found. -/
def Inode.Reaches (ip : Inode) (off k : Nat) : Prop :=
  ∀ bn, off / bsize ≤ bn → bn ≤ (off + k) / bsize → ∃ data, ip.bread bn = .ok data

/-- A byte of the first block is reached when that block is found. -/
theorem Inode.reaches_first {k : Nat} (inside : k < bsize - off % bsize) :
    ip.Reaches off k ↔ ∃ data, ip.bread (off / bsize) = .ok data := by
  have block : (off + k) / bsize = off / bsize := by
    rw [bsize_eq] at *
    omega
  constructor
  · exact fun reaches => reaches _ le_rfl (by omega)
  · intro found bn low high
    have same : bn = off / bsize := by omega
    rw [same]
    exact found

/-- A byte behind the first block is reached when that block is found and the byte is
reached from the next block on. -/
theorem Inode.reaches_later {k : Nat} (outside : bsize - off % bsize ≤ k) :
    ip.Reaches off k ↔ (∃ data, ip.bread (off / bsize) = .ok data) ∧
      ip.Reaches (off + (bsize - off % bsize)) (k - (bsize - off % bsize)) := by
  have next : (off + (bsize - off % bsize)) / bsize = off / bsize + 1 := by
    rw [bsize_eq] at *
    omega
  have same : off + (bsize - off % bsize) + (k - (bsize - off % bsize)) = off + k := by omega
  have later : off / bsize + 1 ≤ (off + k) / bsize := by
    rw [← next]
    exact Nat.div_le_div_right (by omega)
  unfold Reaches
  rw [next, same]
  constructor
  · intro reaches
    exact ⟨reaches _ le_rfl (by omega), fun bn low high => reaches bn (by omega) high⟩
  · rintro ⟨first, rest⟩ bn low high
    rcases Nat.eq_or_lt_of_le low with rfl | behind
    · exact first
    · exact rest bn behind high

/-- No byte behind the largest file is reached. -/
theorem Inode.Reaches.lt {k : Nat} (reaches : ip.Reaches off k) :
    off + k < maxfile * bsize := by
  obtain ⟨data, found⟩ := reaches _ (Nat.div_le_div_right (by omega)) le_rfl
  unfold bread at found
  split at found
  · rename_i inside
    exact (Nat.div_lt_iff_lt_mul (by decide)).mp inside
  · cases found

/-- The addresses that the loop of `readi` stores to: of the bytes left in the file, those
before the first block that is not found. -/
theorem readiLoop_addresses {address : UInt32} :
    (∃ access ∈ (readiLoop ip start off left).events, access.address = address) ↔
      ∃ k < left, ip.Reaches off k ∧ address = start + ofNat k := by
  fun_induction readiLoop ip start off left with
  | case1 start off left more failure lost =>
    simp only [events_fail, not_mem_nil, false_and, exists_false, false_iff]
    rintro ⟨k, inside, reaches, -⟩
    obtain ⟨data, found⟩ := reaches _ le_rfl (Nat.div_le_div_right (by omega))
    rw [lost] at found
    cases found
  | case2 start off left more data found m ih =>
    have positive : 0 < bsize - off % bsize := Nat.sub_pos_of_lt (Nat.mod_lt _ (by decide))
    simp only [events_after, mem_append, or_and_right, exists_or,
      ih]
    constructor
    · rintro (⟨access, now, address⟩ | ⟨k, inside, reaches, address⟩)
      · obtain ⟨k, inside, within⟩ := within_stores now
        refine ⟨k, by omega, (Inode.reaches_first (by omega)).mpr ⟨data, found⟩, ?_⟩
        rw [← address, within]
      · have whole : m = bsize - off % bsize := by omega
        refine ⟨m + k, by omega, (Inode.reaches_later (by omega)).mpr ⟨⟨data, found⟩, ?_⟩, ?_⟩
        · rw [← whole]
          simpa using reaches
        · rw [address, UInt32.add_assoc, ← ofNat_add]
    · rintro ⟨k, inside, reaches, address⟩
      by_cases now : k < m
      · refine .inl ⟨_, mem_map.mpr ⟨k, mem_range.mpr now, rfl⟩, address.symm⟩
      · have whole : m = bsize - off % bsize := by omega
        refine .inr ⟨k - m, by omega, ?_, ?_⟩
        · rw [whole]
          exact ((Inode.reaches_later (by omega)).mp reaches).2
        · rw [address, UInt32.add_assoc, ← ofNat_add]
          congr
          omega
  | case3 start off left empty =>
    simp only [events_done, not_mem_nil, false_and, exists_false, false_iff]
    rintro ⟨k, inside, -⟩
    omega

end Loops

section Negative

variable {world : World} {n sz : UInt32}

/-- Nothing lies within an empty range. -/
theorem below_of_negative (negative : signed n < 0)
    (within : Within start (signed n).toNat access) : access.address < sz := by
  obtain ⟨k, inside, -⟩ := within
  omega

/-- `readi` of a file with a negative length, which is at least `2^31` as a `uint`. -/
theorem readi_negative {ip : Inode} {off : UInt32} (negative : signed n < 0)
    (pointer : start.toNat < sz.toNat) (below : sz.toNat < kernbase) :
    (∀ access ∈ (readi world ip start off n).events, access.address < sz) ↔
      (ip.type ≠ tDev → off ≤ ip.size → off.toNat + n.toNat < 2 ^ 32 →
        ∀ k, off.toNat + k < ip.size.toNat → ip.Reaches off.toNat k →
          start.toNat + k < sz.toNat) := by
  have large : 2 ^ 31 ≤ n.toNat := by
    unfold signed at negative
    rw [BitVec.toInt_eq_toNat_cond] at negative
    have same : n.toBitVec.toNat = n.toNat := rfl
    omega
  rw [kernbase_eq] at below
  unfold readi
  split
  · rename_i device
    refine iff_of_true ?_ (fun file => absurd device file)
    split
    · simp
    · exact fun access stored => below_of_negative negative (within_consoleread stored)
  · rename_i file
    split
    · rename_i refused
      refine iff_of_true (by simp) ?_
      intro _ inside nowrap
      rw [gt_iff_lt, lt_iff_toNat_lt, lt_iff_toNat_lt, UInt32.toNat_add] at refused
      rw [le_iff_toNat_le] at inside
      omega
    · rename_i reads
      rw [gt_iff_lt, lt_iff_toNat_lt, lt_iff_toNat_lt, UInt32.toNat_add] at reads
      have inside : off ≤ ip.size := le_iff_toNat_le.mpr (by omega)
      have smallOff : off.toNat < 2 ^ 32 := off.toNat_lt
      have smallN : n.toNat < 2 ^ 32 := n.toNat_lt
      have nowrap : off.toNat + n.toNat < 2 ^ 32 := by omega
      simp only [events_andThen_done]
      generalize length : (if off + n > ip.size then ip.size - off else n) = m
      -- the length is cut to the rest of the file, or longer than any file
      have left : ∀ k, ip.Reaches off.toNat k → (k < m.toNat ↔ off.toNat + k < ip.size.toNat) := by
        intro k reaches
        have short : off.toNat + k < 71680 := reaches.lt
        subst length
        split
        · rw [UInt32.toNat_sub_of_le _ _ inside]
          omega
        · rename_i uncut
          rw [gt_iff_lt, lt_iff_toNat_lt, UInt32.toNat_add] at uncut
          omega
      have address : ∀ k, ip.Reaches off.toNat k →
          (start + ofNat k).toNat = start.toNat + k := by
        intro k reaches
        have short : off.toNat + k < 71680 := reaches.lt
        rw [UInt32.toNat_add, toNat_ofNat']
        omega
      constructor
      · intro stays _ _ _ k rest reaches
        obtain ⟨access, stored, there⟩ := readiLoop_addresses.mpr
          ⟨k, (left k reaches).mpr rest, reaches, rfl⟩
        have lower := stays access stored
        rw [there, lt_iff_toNat_lt, address k reaches] at lower
        exact lower
      · intro fits access stored
        obtain ⟨k, inLength, reaches, there⟩ := readiLoop_addresses.mp ⟨access, stored, rfl⟩
        rw [there, lt_iff_toNat_lt, address k reaches]
        exact fits file inside nowrap k ((left k reaches).mp inLength) reaches

end Negative

namespace Process

variable {proc : Process} {k n p : UInt32}

/-- What `argptr` has checked, for a length that is not negative. -/
theorem argptr_fits (checked : proc.argptr k n = some p) (below : proc.sz.toNat < kernbase)
    (nonneg : 0 ≤ signed n) : p.toNat + (signed n).toNat ≤ proc.sz.toNat := by
  have length := signed_of_nonneg nonneg
  have half : n.toNat < 2 ^ 31 := by
    unfold signed at nonneg
    rw [BitVec.toInt_eq_toNat_cond] at nonneg
    have same : n.toBitVec.toNat = n.toNat := rfl
    have small : n.toNat < 2 ^ 32 := n.toNat_lt
    omega
  unfold argptr at checked
  split at checked
  · cases checked
  · rename_i i fetched
    split at checked
    · cases checked
    · rename_i passed
      cases checked
      simp only [not_or, not_le, not_lt, ge_iff_le, gt_iff_lt, lt_iff_toNat_lt,
        le_iff_toNat_le, UInt32.toNat_add] at passed
      rw [kernbase_eq] at below
      omega

/-- `argptr` lets only pointers below `sz` through. -/
theorem argptr_below (checked : proc.argptr k n = some p) : p.toNat < proc.sz.toNat := by
  unfold argptr at checked
  split at checked
  · cases checked
  · split at checked
    · cases checked
    · rename_i passed
      cases checked
      rw [not_or, ge_iff_le, UInt32.not_le, lt_iff_toNat_lt] at passed
      exact passed.1

/-- Where the check of `argptr` is not enough: a read of a file with a negative length that
`readi` takes for a large one. Every byte that the file has left and whose block is found
must lie below `sz`. -/
def Fits (proc : Process) (world : World) : Call → Prop
  | .read => ∀ f n p, proc.argfd 0 = some f → proc.argint 2 = some n →
      proc.argptr 1 n = some p → signed n < 0 → f.readable = true → f.type = .inode →
      (world.ip 0).type ≠ tDev → world.off 0 ≤ (world.ip 0).size →
      (world.off 0).toNat + n.toNat < 2 ^ 32 →
      ∀ k, (world.off 0).toNat + k < (world.ip 0).size.toNat →
        (world.ip 0).Reaches (world.off 0).toNat k → p.toNat + k < proc.sz.toNat
  | .write | .fstat | .pipe => True

/-- Calls with fixed or non-negative lengths, and the writes. -/
theorem sysWrite_below (world : World) (below : proc.sz.toNat < kernbase) :
    ∀ access ∈ (proc.sysWrite world).events, access.address < proc.sz := by
  intro access touched
  unfold sysWrite at touched
  split at touched
  · rename_i f n file length
    split at touched
    · rename_i p checked
      have within : Within p (signed n).toNat access := by
        unfold File.filewrite at touched
        split at touched
        · simp at touched
        · split at touched
          · exact within_pipewrite access touched
          · refine forall_andThen ?_ ?_ access touched
            · intro access loaded
              exact (within_filewriteLoop access loaded).mono (by omega)
            · simp
          · simp at touched
      by_cases nonneg : 0 ≤ signed n
      · exact within.below (argptr_fits checked below nonneg)
      · exact below_of_negative (by omega) within
    · simp at touched
  · simp at touched

/-- The fields of `struct stat` lie within it. -/
theorem within_stati {ip : Inode} {st : UInt32} (stored : access ∈ stati ip st) :
    Within st 20 access := by
  unfold stati assign at stored
  simp only [mem_append] at stored
  rcases stored with (((stored | stored) | stored) | stored) | stored
  · exact (Within.shift 4 (within_stores stored)).mono (by omega)
  · exact (Within.shift 8 (within_stores stored)).mono (by omega)
  · exact (within_stores stored).mono (by omega)
  · exact (Within.shift 12 (within_stores stored)).mono (by omega)
  · exact (Within.shift 16 (within_stores stored)).mono (by omega)

theorem sysFstat_below (world : World) (below : proc.sz.toNat < kernbase) :
    ∀ access ∈ (proc.sysFstat world).events, access.address < proc.sz := by
  intro access touched
  unfold sysFstat at touched
  split at touched
  · rename_i f st file checked
    unfold File.filestat at touched
    split at touched
    · rw [events_after, events_done, append_nil] at touched
      exact (within_stati touched).below (argptr_fits checked below (by decide))
    · simp at touched
  · simp at touched

theorem sysPipe_below (world : World) (below : proc.sz.toNat < kernbase) :
    ∀ access ∈ (proc.sysPipe world).events, access.address < proc.sz := by
  intro access touched
  unfold sysPipe at touched
  split at touched
  · simp at touched
  · rename_i fd checked
    have fits : fd.toNat + 8 ≤ proc.sz.toNat := argptr_fits checked below (by decide)
    repeat' split at touched
    case h_2 =>
      rw [events_after, events_done, append_nil] at touched
      rcases mem_append.mp touched with stored | stored
      · exact ((within_stores stored).mono (by omega)).below fits
      · exact ((Within.shift 4 (within_stores stored)).mono (by omega)).below fits
    all_goals simp at touched

/-- `fileread` after `argptr` has let the pointer through. -/
theorem fileread_below {f : File} {world : World} (below : proc.sz.toNat < kernbase)
    (checked : proc.argptr 1 n = some p) :
    (∀ access ∈ (f.fileread world p n).events, access.address < proc.sz) ↔
      (signed n < 0 → f.readable = true → f.type = .inode →
        (world.ip 0).type ≠ tDev → world.off 0 ≤ (world.ip 0).size →
        (world.off 0).toNat + n.toNat < 2 ^ 32 →
        ∀ k, (world.off 0).toNat + k < (world.ip 0).size.toNat →
          (world.ip 0).Reaches (world.off 0).toNat k → p.toNat + k < proc.sz.toNat) := by
  by_cases nonneg : 0 ≤ signed n
  · refine iff_of_true ?_ (fun negative => by omega)
    intro access stored
    have within : Within p (signed n).toNat access := by
      unfold File.fileread at stored
      split at stored
      · simp at stored
      · split at stored
        · exact within_piperead stored
        · exact within_readi nonneg access stored
        · simp at stored
    exact within.below (argptr_fits checked below nonneg)
  · have negative : signed n < 0 := by omega
    unfold File.fileread
    split
    · rename_i unreadable
      exact iff_of_true (by simp) (fun _ readable => by simp [unreadable] at readable)
    · rename_i readable
      split
      · rename_i pipe
        refine iff_of_true ?_ (fun _ _ inode => by simp [pipe] at inode)
        exact fun access stored => below_of_negative negative (within_piperead stored)
      · rename_i inode
        rw [readi_negative negative (argptr_below checked) below]
        have opened : f.readable = true := by simpa using readable
        exact ⟨fun fits _ _ _ => fits, fun fits => fits negative opened inode⟩
      · rename_i none
        exact iff_of_true (by simp) (fun _ _ inode => by simp [none] at inode)

theorem sysRead_below (world : World) (below : proc.sz.toNat < kernbase) :
    (∀ access ∈ (proc.sysRead world).events, access.address < proc.sz) ↔
      proc.Fits world .read := by
  constructor
  · intro stays f n p file length checked
    have same : proc.sysRead world = f.fileread world p n := by
      simp only [sysRead, file, length, checked]
    rw [same] at stays
    exact (fileread_below below checked).mp stays
  · intro fits
    unfold sysRead
    split
    · rename_i f n file length
      split
      · rename_i p checked
        exact (fileread_below below checked).mpr (fits f n p file length checked)
      · simp
    · simp

/-- Every byte of user memory that a call touches through its pointer lies below `sz`,
exactly when a read with a negative length finds no more of the file than fits. -/
theorem buffers_inside (proc : Process) (world : World) (call : Call)
    (below : proc.sz.toNat < kernbase) :
    (∀ access ∈ (proc.call world call).events, access.address < proc.sz) ↔
      proc.Fits world call := by
  cases call with
  | read => exact sysRead_below world below
  | write => exact iff_of_true (sysWrite_below world below) trivial
  | fstat => exact iff_of_true (sysFstat_below world below) trivial
  | pipe => exact iff_of_true (sysPipe_below world below) trivial

/-- A process of one page whose stack, at the bottom of the page, holds the arguments of
`read(0, 4095, n)` for a length that takes one byte, or is `-1`. -/
def reader (length : UInt8) : Process where
  sz := 4096
  esp := 0
  memory := fun address =>
    if address = 8 then 0xff else if address = 9 then 0x0f
    else if 12 ≤ address ∧ address < 16 then (if length = 0xff then 0xff
      else if address = 12 then length else 0)
    else 0
  ofile := fun fd => if fd = 0 then some ⟨.inode, true, false⟩ else none

/-- Descriptor 0 is open on a file of two zero bytes, at its start. -/
def twoBytes : World where
  off := fun _ => 0
  ip := fun _ => ⟨1, 2, 2, 0, 1, 2, fun _ => .ok .zero⟩
  stored := none
  room := fun _ => false
  typed := fun _ => none
  pipealloc := false

/-- `read(0, 4095, 1)` touches only the last byte of the process. -/
theorem buffers_inside_read : (reader 1).sz.toNat < kernbase ∧ (reader 1).argptr 1 1 = some 4095 ∧
      ∀ access ∈ ((reader 1).call twoBytes .read).events, access.address < (reader 1).sz := by
  refine ⟨by decide, by decide, (buffers_inside _ _ .read (by decide)).mpr ?_⟩
  intro f n p file length checked negative
  have one : (reader 1).argint 2 = some 1 := by decide
  rw [one] at length
  cases length
  exact absurd negative (by decide)

/-- `read(0, 4095, -1)` stores the second byte of the file just behind the process. -/
theorem read_overruns : (reader 0xff).sz.toNat < kernbase ∧
      ∃ access ∈ ((reader 0xff).call twoBytes .read).events,
        ¬ access.address < (reader 0xff).sz := by
  refine ⟨by decide, ?_⟩
  by_contra inside
  have stays : ∀ access ∈ ((reader 0xff).sysRead twoBytes).events,
      access.address < (reader 0xff).sz := by
    intro access stored
    by_contra outside
    exact inside ⟨access, stored, outside⟩
  have fits := (sysRead_below twoBytes (by decide)).mp stays ⟨.inode, true, false⟩
    0xffffffff 4095 (by decide) (by decide) (by decide) (by decide) rfl rfl (by decide) (by decide)
    (by decide) 1 (by decide)
  have found : (twoBytes.ip 0).Reaches (twoBytes.off 0).toNat 1 :=
    (Inode.reaches_first (by decide)).mpr ⟨.zero, rfl⟩
  exact absurd (fits found) (by decide)

end Process

end Xv6.Syscall
