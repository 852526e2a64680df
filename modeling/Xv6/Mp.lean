import Mathlib

/-!
# The multiprocessor tables

`mpconfig` finds the configuration table that the firmware left in memory and checks its
signature, version and checksum. `mpinit` then goes over the entries of the table, one
after the other. It does not move on behind an entry of a type it does not know, it does
not count the processors before it stores one, and it looks at all fields of an entry that
begins inside the table.

Memory is a function of the physical address, and addresses do not go around: the kernel
maps physical memory far below the top of its address space.
-/

namespace Xv6.Mp

/-- `NCPU`. -/
def ncpu : Nat := 8

/-- Sizes of `struct mp`, `struct mpconf` and `struct mpproc`. -/
def mpSize : Nat := 16

def mpconfSize : Nat := 44

def mpprocSize : Nat := 20

/-- The types of entries. -/
def mpproc : UInt8 := 0

def mpbus : UInt8 := 1

def mpioapic : UInt8 := 2

def mpiointr : UInt8 := 3

def mplintr : UInt8 := 4

/-- A number in two bytes, the lower one first. -/
def half (mem : Nat → UInt8) (addr : Nat) : Nat := (mem addr).toNat + 2 ^ 8 * (mem (addr + 1)).toNat

/-- A number in four bytes. -/
def word (mem : Nat → UInt8) (addr : Nat) : Nat := half mem addr + 2 ^ 16 * half mem (addr + 2)

/-- Bytes from an address on. -/
def bytesAt (mem : Nat → UInt8) (addr len : Nat) : List UInt8 :=
  (List.range len).map fun i => mem (addr + i)

/-- The sum of some bytes, as a byte. -/
def sum (mem : Nat → UInt8) (addr len : Nat) : UInt8 := (bytesAt mem addr len).sum

/-- Look for `struct mp` at some addresses, each behind the last. -/
def mpsearch1 (mem : Nat → UInt8) (a : Nat) : (count : Nat) → Option Nat
  | 0 => none
  | count + 1 =>
    if bytesAt mem a 4 = [95, 77, 80, 95] ∧ sum mem a mpSize = 0 then some a
    else mpsearch1 mem (a + mpSize) count

/-- Look where the specification says. -/
def mpsearch (mem : Nat → UInt8) : Option Nat :=
  let p := half mem 0x40E * 16
  let first :=
    if p ≠ 0 then mpsearch1 mem p (1024 / mpSize)
    else mpsearch1 mem ((half mem 0x413 * 1024 + 2 ^ 32 - 1024) % 2 ^ 32) (1024 / mpSize)
  first.or (mpsearch1 mem 0xF0000 (0x10000 / mpSize))

/-- The addresses of `struct mp` and of a table that is in order. -/
def mpconfig (mem : Nat → UInt8) : Option (Nat × Nat) := do
  let mp ← mpsearch mem
  let conf := word mem (mp + 4)
  let version := mem (conf + 6)
  if conf = 0 then none
  else if bytesAt mem conf 4 ≠ [80, 67, 77, 80] then none
  else if version ≠ 1 ∧ version ≠ 4 then none
  else if sum mem conf (half mem (conf + 4)) ≠ 0 then none
  else some (mp, conf)

/-- What is printed during the scan. -/
inductive Message where
  /-- `mpinit: ncpu=%d apicid=%d` -/
  | apicid (ncpu : Nat) (apicid : UInt8)
  /-- `mpinit: unknown config type %x` -/
  | unknown (type : UInt8)

/-- The variables of `mpinit`. -/
structure Scan where
  /-- The next entry, counted from the start of the table. -/
  p : Nat
  ncpu : Nat
  ismp : Bool
  /-- The index of `bcpu` in `cpus`. -/
  bcpu : Nat
  lapic : Nat
  ioapicid : UInt8
  printed : List Message
  /-- No byte behind the table has decided what was done, and no store was behind the end
  of `cpus`. -/
  sound : Bool

/-- One round of the loop. -/
def Scan.entry (table : Nat → UInt8) (length : Nat) (s : Scan) : Scan :=
  let type := table s.p
  if type = mpproc then
    let apicid := table (s.p + 1)
    let differs := s.ncpu ≠ apicid.toNat
    { s with
      p := s.p + mpprocSize
      ncpu := s.ncpu + 1
      ismp := s.ismp && !differs
      bcpu := if table (s.p + 3) &&& 2 ≠ 0 then s.ncpu else s.bcpu
      printed := if differs then s.printed ++ [.apicid s.ncpu apicid] else s.printed
      sound := s.sound && decide (s.p + 3 < length ∧ s.ncpu < Mp.ncpu) }
  else if type = mpioapic then
    { s with p := s.p + 8, ioapicid := table (s.p + 1) }
  else if type = mpbus ∨ type = mpiointr ∨ type = mplintr then
    { s with p := s.p + 8 }
  else { s with ismp := false, printed := s.printed ++ [.unknown type] }

/-- The loop of `mpinit`, if it ends within the given number of rounds. -/
def mpscan (table : Nat → UInt8) (length : Nat) : (rounds : Nat) → Scan → Option Scan
  | 0, s => if s.p < length then none else some s
  | rounds + 1, s => if s.p < length then mpscan table length rounds (s.entry table length) else some s

/-- Before the loop. -/
def Scan.start (lapicaddr : Nat) : Scan where
  p := mpconfSize
  ncpu := 0
  ismp := true
  bcpu := 0
  lapic := lapicaddr
  ioapicid := 0
  printed := []
  sound := true

/-- After the loop: without all processors in order there is one. -/
def Scan.finish (s : Scan) : Scan :=
  if s.ismp then s else { s with ncpu := 1, lapic := 0, ioapicid := 0 }

/-- `mpinit` with a table, if its loop ends within the given number of rounds, and whether
it masks external interrupts in the end. -/
def mpinit (mem : Nat → UInt8) (mp conf rounds : Nat) : Option (Scan × Bool) := do
  let s ← mpscan (fun i => mem (conf + i)) (half mem (conf + 4)) rounds
    (.start (word mem (conf + 36)))
  some (s.finish, s.ismp && mem (mp + 12) ≠ 0)

/-- The scan comes to an end, no byte behind the table has decided anything, no store was
behind the end of `cpus`, and there are processors, but not too many. -/
def Survives (mem : Nat → UInt8) (mp conf : Nat) : Prop :=
  ∃ rounds s imcr, mpinit mem mp conf rounds = some (s, imcr) ∧ s.sound = true ∧
    1 ≤ s.ncpu ∧ s.ncpu ≤ ncpu

/-- The types of entries that are passed over, with what they may set. -/
def Passed (type : UInt8) : Prop :=
  type = mpioapic ∨ type = mpbus ∨ type = mpiointr ∨ type = mplintr

/-- The entries of a table from one on, up to its end, are all of known types, none of a
processor has its flags behind the end, and there are so many processors. -/
inductive Entries (table : Nat → UInt8) (length : Nat) : (p processors : Nat) → Prop
  | done {p : Nat} (ended : length ≤ p) : Entries table length p 0
  | proc {p processors : Nat} (type : table p = mpproc) (inside : p + 3 < length)
      (rest : Entries table length (p + mpprocSize) processors) :
      Entries table length p (processors + 1)
  | other {p processors : Nat} (type : Passed (table p)) (inside : p < length)
      (rest : Entries table length (p + 8) processors) : Entries table length p processors

variable {table : Nat → UInt8} {length rounds processors : Nat} {s last : Scan}

/-! ## One entry -/

/-- What a round does. -/
inductive Round (table : Nat → UInt8) (length : Nat) (s next : Scan) : Prop
  | proc (type : table s.p = mpproc) (moves : next.p = s.p + mpprocSize)
      (counts : next.ncpu = s.ncpu + 1)
      (sound : next.sound = true ↔ s.sound = true ∧ s.p + 3 < length ∧ s.ncpu < ncpu)
  | other (type : Passed (table s.p)) (moves : next.p = s.p + 8) (counts : next.ncpu = s.ncpu)
      (sound : next.sound = s.sound) (good : next.ismp = s.ismp)
  | stays (type : ¬ (table s.p = mpproc ∨ Passed (table s.p))) (unmoved : next.p = s.p)

theorem Scan.entry_round (table : Nat → UInt8) (length : Nat) (s : Scan) :
    Round table length s (s.entry table length) := by
  unfold Scan.entry
  dsimp only
  by_cases isProc : table s.p = mpproc
  · rw [if_pos isProc]
    exact .proc isProc rfl rfl (by simp)
  rw [if_neg isProc]
  by_cases isIoapic : table s.p = mpioapic
  · rw [if_pos isIoapic]
    exact .other (.inl isIoapic) rfl rfl rfl rfl
  rw [if_neg isIoapic]
  by_cases isPassed : table s.p = mpbus ∨ table s.p = mpiointr ∨ table s.p = mplintr
  · rw [if_pos isPassed]
    exact .other (.inr isPassed) rfl rfl rfl rfl
  rw [if_neg isPassed]
  refine .stays ?_ rfl
  rintro (proc | ioapic | passed)
  · exact isProc proc
  · exact isIoapic ioapic
  · exact isPassed passed

/-- At an entry of an unknown type the loop does not end. -/
theorem mpscan_stays (inside : s.p < length) (type : ¬ (table s.p = mpproc ∨ Passed (table s.p))) :
    mpscan table length rounds s = none := by
  induction rounds generalizing s with
  | zero => rw [mpscan, if_pos inside]
  | succ rounds ih =>
    rw [mpscan, if_pos inside]
    cases s.entry_round table length with
    | proc isProc => exact absurd (.inl isProc) type
    | other isPassed => exact absurd (.inr isPassed) type
    | stays _ unmoved =>
      apply ih
      · rwa [unmoved]
      · rwa [unmoved]

/-! ## The whole table -/

theorem not_passed_mpproc : ¬ Passed mpproc := by
  unfold Passed
  decide

/-- The loop ends for such entries, and counts the processors. -/
theorem Entries.scan {p : Nat} (entries : Entries table length p processors) :
    ∀ {s : Scan}, s.p = p → s.ncpu + processors ≤ ncpu → s.sound = true →
      ∃ rounds last, mpscan table length rounds s = some last ∧ last.sound = true ∧
        last.ncpu = s.ncpu + processors := by
  induction entries with
  | done ended =>
    intro s here _ sound
    exact ⟨0, s, by rw [mpscan, if_neg (by omega)], sound, rfl⟩
  | proc type fields _ ih =>
    intro s here few sound
    subst here
    have inside : s.p < length := by omega
    cases s.entry_round table length with
    | proc _ moves counts soundToo =>
      obtain ⟨rounds, last, ran, end_, total⟩ :=
        ih moves (by omega) (soundToo.mpr ⟨sound, fields, by omega⟩)
      exact ⟨rounds + 1, last, by rw [mpscan, if_pos inside, ran], end_, by omega⟩
    | other isPassed => exact absurd (type ▸ isPassed) not_passed_mpproc
    | stays unknown => exact absurd (.inl type) unknown
  | other type inside _ ih =>
    intro s here few sound
    subst here
    cases s.entry_round table length with
    | proc isProc => exact absurd (isProc ▸ type) not_passed_mpproc
    | other _ moves counts soundToo =>
      obtain ⟨rounds, last, ran, end_, total⟩ := ih moves (by omega) (soundToo.trans sound)
      exact ⟨rounds + 1, last, by rw [mpscan, if_pos inside, ran], end_, by omega⟩
    | stays unknown => exact absurd (.inr type) unknown

/-- What a loop that ends leaves, and the entries it went over. -/
structure Scanned (table : Nat → UInt8) (length : Nat) (s last : Scan) (processors : Nat) :
    Prop where
  entries : Entries table length s.p processors
  total : last.ncpu = s.ncpu + processors
  few : 0 < processors → last.ncpu ≤ ncpu
  good : processors = 0 → last.ismp = s.ismp

theorem Scanned.done (ended : ¬ s.p < length) : Scanned table length s s 0 :=
  ⟨.done (Nat.not_lt.mp ended), rfl, fun impossible => absurd impossible (by decide), fun _ => rfl⟩

/-- A loop that ends soundly has found such entries. -/
theorem mpscan_entries (ran : mpscan table length rounds s = some last)
    (sound : last.sound = true) :
    s.sound = true ∧ ∃ processors, Scanned table length s last processors := by
  induction rounds generalizing s with
  | zero =>
    rw [mpscan] at ran
    split at ran
    · cases ran
    · rename_i ended
      cases ran
      exact ⟨sound, 0, .done ended⟩
  | succ rounds ih =>
    rw [mpscan] at ran
    split at ran
    · rename_i inside
      cases s.entry_round table length with
      | proc type moves counts soundToo =>
        obtain ⟨soundHere, processors, entries, total, few, -⟩ := ih ran
        obtain ⟨before, fields, room⟩ := soundToo.mp soundHere
        rw [moves] at entries
        refine ⟨before, processors + 1, .proc type fields entries, by omega, fun _ => ?_, by simp⟩
        by_cases more : 0 < processors
        · exact few more
        · omega
      | other type moves counts soundToo good =>
        obtain ⟨soundHere, processors, entries, total, few, goodToo⟩ := ih ran
        rw [moves] at entries
        exact ⟨soundToo.symm.trans soundHere, processors, .other type inside entries, by omega, few,
          fun none => (goodToo none).trans good⟩
      | stays unknown unmoved =>
        rw [mpscan_stays (by rwa [unmoved]) (by rwa [unmoved])] at ran
        cases ran
    · rename_i ended
      cases ran
      exact ⟨sound, 0, .done ended⟩

/-- `mpinit` survives a table that `mpconfig` accepts exactly if the table has entries of
known types only, at least one and at most `NCPU` of them for processors, and the fields of
these that are looked at lie inside the table. -/
theorem mpinit_survives (mem : Nat → UInt8) : ∀ mp conf, mpconfig mem = some (mp, conf) →
    (Survives mem mp conf ↔ ∃ processors, 1 ≤ processors ∧ processors ≤ ncpu ∧
      Entries (fun i => mem (conf + i)) (half mem (conf + 4)) mpconfSize processors) := by
  intro mp conf _
  constructor
  · rintro ⟨rounds, s, imcr, ran, sound, some, few⟩
    obtain ⟨last, scanning, isLast⟩ := Option.bind_eq_some_iff.mp ran
    obtain ⟨rfl, -⟩ := Prod.mk.inj (Option.some.inj isLast)
    have same : last.finish.sound = last.sound := by
      unfold Scan.finish
      split <;> rfl
    obtain ⟨-, processors, entries, total, fewToo, good⟩ := mpscan_entries scanning (same ▸ sound)
    have isTotal : last.ncpu = processors := total.trans (Nat.zero_add _)
    have positive : 0 < processors := by
      by_contra none
      have ismp : last.ismp = true := good (by omega)
      rw [Scan.finish, if_pos ismp] at some
      omega
    exact ⟨processors, positive, isTotal ▸ fewToo positive, entries⟩
  · rintro ⟨processors, some, few, entries⟩
    obtain ⟨rounds, last, ran, sound, total⟩ : ∃ rounds last, mpscan (fun i => mem (conf + i))
        (half mem (conf + 4)) rounds (.start (word mem (conf + 36))) = Option.some last ∧ _ :=
      entries.scan rfl ((Nat.zero_add _).trans_le few) rfl
    have isTotal : last.ncpu = processors := total.trans (Nat.zero_add _)
    refine ⟨rounds, _, _, by rw [mpinit, ran]; rfl, ?_⟩
    unfold Scan.finish
    split
    · exact ⟨sound, by omega, by omega⟩
    · exact ⟨sound, Nat.le_refl 1, by show 1 ≤ ncpu; decide⟩

/-- A memory with a table of one entry, of 20 bytes. -/
def firmware (checksum type : UInt8) (a : Nat) : UInt8 :=
  if a = 0x40F then 0x10
  else if a < 0x10000 then 0
  else ([95, 77, 80, 95, 16, 0, 1, 0, 1, 4, 143, 0, 0, 0, 0, 0] ++
    [80, 67, 77, 80, 64, 0, 4, checksum] ++ List.replicate 26 0 ++ [1, 0, 0, 0, 224, 254] ++
    [0, 0, 0, 0, type, 0, 20, 3]).getD (a - 0x10000) 0

theorem mpinit_survives_processor : Survives (firmware 150 mpproc) 0x10000 0x10010 := by
  refine (mpinit_survives _ 0x10000 0x10010 (by decide +kernel)).mpr ⟨1, by decide, by decide, ?_⟩
  exact .proc (by decide +kernel) (by decide +kernel) (.done (by decide +kernel))

/-- `mpinit` does not come to an end at an entry of type 5. -/
theorem mpinit_loops :
    mpconfig (firmware 145 5) = some (0x10000, 0x10010) ∧
      ¬ Survives (firmware 145 5) 0x10000 0x10010 := by
  refine ⟨by decide +kernel, ?_⟩
  rintro ⟨rounds, s, imcr, ran, -⟩
  obtain ⟨last, scanning, -⟩ := Option.bind_eq_some_iff.mp ran
  rw [mpscan_stays (by decide +kernel) (by unfold Passed; decide +kernel)] at scanning
  cases scanning

end Xv6.Mp
