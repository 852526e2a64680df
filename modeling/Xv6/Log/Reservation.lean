import Xv6.Log.History

/-!
# Log space reservation

`begin_op` admits an operation as long as the blocks logged so far and
`MAXOPBLOCKS` for every operation in progress fit into `LOGSIZE`. `mkfs` gives the
log `LOGSIZE` blocks with the header among them, and `log_write` refuses to run
once the header lists one block less than that, before it looks whether the block
is already there. So the space that is really reserved has to stay two below what
`begin_op` tests.

The count of an operation's blocks and of the transaction's blocks is taken from
the events alone.
-/

namespace Xv6

open Function List Xv6.System

/-- The number of log blocks that `mkfs` writes into the superblock. -/
def nlog : Nat := logsize

/-- The block at which the log of an image made by `mkfs` starts. -/
def logstart : Nat := 2

namespace Reservation

open Machine

variable {s s' : System} {h : History} {event : Event} {op : Nat}

/-- The blocks each operation has logged since its `begin_op`, each once. -/
def tally (logged : Nat → List Nat) : Event → Nat → List Nat
  | .beginOp op => Function.update logged op []
  | .logWrite op blockno _ => Function.update logged op ((logged op).insert blockno.toNat)
  | .endOp _ => logged
  | .bread _ => logged

/-- An event that logs keeps its operation within `MAXOPBLOCKS` distinct blocks. -/
def withinBound (logged : Nat → List Nat) : Event → Bool
  | .logWrite op blockno _ => ((logged op).insert blockno.toNat).length ≤ maxopblocks
  | _ => true

/-- Every operation of the run logs at most `MAXOPBLOCKS` distinct blocks, each
as often as it likes. -/
def bounded (logged : Nat → List Nat) : List Event → Bool
  | [] => true
  | event :: rest => withinBound logged event && bounded (tally logged event) rest

/-- Distinct blocks logged since the last commit. -/
def distinct (h : History) : Nat := (h.pending.map Prod.fst).dedup.length

/-- An admission that leaves two blocks of the log area beyond the reserved ones. -/
def admits (h : History) : Event → Bool
  | .beginOp _ => distinct h + (h.active.length + 1) * maxopblocks ≤ nlog - 2
  | _ => true

/-- Every admission of the run leaves two blocks. -/
def reserved (h : History) : List Event → Bool
  | [] => true
  | event :: rest => admits h event && reserved (h.step event) rest

/-! ## The in-memory log through a commit -/

section
variable (steal : Nat → Nat → Bool)

@[simp] theorem bread_log (m : Machine) (blockno : Nat) :
    (m.bread steal blockno).2.log = m.log := by
  unfold bread
  simp only
  split <;> rfl

@[simp] theorem bwrite_log (m : Machine) (blockno : Nat) (data : Block) :
    (m.bwrite blockno data).log = m.log := rfl

@[simp] theorem installFrom_log (lh : List Nat) (tail : Nat) (m : Machine) :
    (installFrom steal lh tail m).log = m.log := by
  induction lh generalizing tail m with
  | nil => rfl
  | cons blockno rest ih => simp [installFrom, ih]

@[simp] theorem writeLogFrom_log (lh : List Nat) (tail : Nat) (m : Machine) :
    (writeLogFrom steal lh tail m).log = m.log := by
  induction lh generalizing tail m with
  | nil => rfl
  | cons blockno rest ih => simp [writeLogFrom, ih]

@[simp] theorem writeHead_log (m : Machine) : (m.writeHead steal).log = m.log := by
  simp [writeHead]

/-- Whatever a commit writes, it leaves the in-memory header empty and nothing
else of the log changed. -/
theorem commit_log (m : Machine) : (m.commit steal).log = { m.log with lh := [] } := by
  unfold commit
  split
  · simp [clearHead, installTrans, writeLog]
  · rename_i empty
    have none : m.log.lh = [] := length_eq_zero_iff.mp (by omega)
    cases log : m.log
    simp_all

end

/-! ## What the header counts -/

/-- The header lists exactly the blocks logged since the last commit, each once. -/
structure Counted (s : System) (h : History) : Prop where
  active : s.active = h.active
  once : h.active.Nodup
  outstanding : s.machine.log.outstanding = h.active.length
  idle : s.machine.log.committing = false
  size : s.machine.log.size = nlog
  nodup : s.machine.log.lh.Nodup
  listed : ∀ blockno, blockno ∈ s.machine.log.lh ↔ blockno ∈ h.pending.map Prod.fst

theorem Counted.length (counted : Counted s h) :
    s.machine.log.lh.length = distinct h := by
  apply Perm.length_eq
  rw [perm_ext_iff_of_nodup counted.nodup (nodup_dedup _)]
  intro blockno
  rw [counted.listed, mem_dedup]

theorem record_nodup {lh : List Nat} (nodup : lh.Nodup) (blockno : Nat) :
    (Log.record lh blockno).Nodup := by
  unfold Log.record
  split
  · exact nodup
  · rename_i absent
    refine nodup_append.mpr ⟨nodup, nodup_singleton _, ?_⟩
    intro other member last inLast same
    rw [mem_singleton] at inLast
    exact absent (inLast ▸ same ▸ member)

section
variable (steal : Nat → Nat → Bool)

/-- What each event does to the header and to the operations in progress. -/
theorem step_counted (counted : Counted s h) (stepped : s.step steal event = .ok s') :
    Counted s' (h.step event) := by
  cases event with
  | beginOp op =>
    obtain ⟨absent, rfl⟩ := step_beginOp stepped
    refine ⟨by simp [History.step, counted.active], ?_,
      by simp [History.step, counted.outstanding], counted.idle, counted.size, counted.nodup,
      counted.listed⟩
    exact nodup_cons.mpr ⟨by rwa [← counted.active], counted.once⟩
  | logWrite op blockno data =>
    obtain ⟨-, -, -, rfl⟩ := step_logWrite stepped
    refine ⟨counted.active, counted.once, counted.outstanding, counted.idle, counted.size,
      record_nodup counted.nodup _, ?_⟩
    intro other
    simp [record_mem, counted.listed, History.step]
  | endOp op =>
    obtain ⟨inProgress, rfl⟩ := step_endOp stepped
    have member : op ∈ h.active := counted.active ▸ inProgress
    have shorter : (h.active.erase op).length = h.active.length - 1 :=
      length_erase_of_mem member
    by_cases last : h.active.length - 1 = 0
    · rw [counted.outstanding, if_pos last]
      simp only [commit_log]
      refine ⟨?_, ?_, ?_, rfl, ?_, ?_, ?_⟩
      · simp [History.step, last, counted.active]
      · simpa [History.step, last] using counted.once.erase op
      · simp [History.step, last, shorter]
      · exact counted.size
      · simp
      · simp [History.step, last]
    · rw [counted.outstanding, if_neg last]
      refine ⟨?_, ?_, ?_, counted.idle, counted.size, counted.nodup, ?_⟩
      · simp [History.step, last, counted.active]
      · simpa [History.step, last] using counted.once.erase op
      · simp [History.step, last, shorter]
      · simpa [History.step, last] using counted.listed
  | bread blockno =>
    have same := Except.ok.inj stepped
    subst same
    refine ⟨counted.active, counted.once, ?_, ?_, ?_, ?_, ?_⟩
    · rw [bread_log]; exact counted.outstanding
    · rw [bread_log]; exact counted.idle
    · rw [bread_log]; exact counted.size
    · rw [bread_log]; exact counted.nodup
    · rw [bread_log]; exact counted.listed

end

theorem boot_counted (disk0 : Disk) :
    Counted (System.boot logstart nlog disk0) History.init where
  active := rfl
  once := nodup_nil
  outstanding := rfl
  idle := rfl
  size := rfl
  nodup := nodup_nil
  listed := by simp [System.boot, Machine.boot, History.init]

/-! ## What an operation may still log -/

/-- Blocks that the operations in progress may still log. -/
def allowance (active : List Nat) (logged : Nat → List Nat) : Nat :=
  (active.map fun op => maxopblocks - (logged op).length).sum

/-- Setting the blocks of one operation in progress changes its share only. -/
theorem allowance_update {active : List Nat} (once : active.Nodup) (member : op ∈ active)
    (logged : Nat → List Nat) (blocks : List Nat) :
    allowance active (update logged op blocks) + (maxopblocks - (logged op).length) =
      allowance active logged + (maxopblocks - blocks.length) := by
  have others : (active.erase op).map (fun other =>
      maxopblocks - (update logged op blocks other).length) =
        (active.erase op).map fun other => maxopblocks - (logged other).length := by
    apply map_congr_left
    intro other inside
    have apart : other ≠ op := fun same => once.not_mem_erase (same ▸ inside)
    rw [update_of_ne apart]
  unfold allowance
  rw [← sum_map_erase _ member, ← sum_map_erase (fun other =>
    maxopblocks - (logged other).length) member, others, update_self]
  omega

/-- The header and what may still be logged stay two blocks below the log area. -/
structure Reserved (s : System) (h : History) (logged : Nat → List Nat) : Prop where
  counted : Counted s h
  within : ∀ op ∈ h.active, (logged op).length ≤ maxopblocks
  own : ∀ op ∈ h.active, ∀ blockno ∈ logged op, blockno ∈ s.machine.log.lh
  room : s.machine.log.lh.length + allowance h.active logged ≤ nlog - 2

theorem allowance_le (active : List Nat) (logged : Nat → List Nat) :
    allowance active logged ≤ active.length * maxopblocks := by
  unfold allowance
  induction active with
  | nil => simp
  | cons op rest ih =>
    simp only [map_cons, sum_cons, length_cons, Nat.add_mul, Nat.one_mul]
    omega

/-- Ending an operation gives its share back. -/
theorem allowance_erase_le (active : List Nat) (op : Nat) (logged : Nat → List Nat) :
    allowance (active.erase op) logged ≤ allowance active logged := by
  unfold allowance
  by_cases member : op ∈ active
  · rw [← sum_map_erase _ member]
    exact Nat.le_add_left _ _
  · rw [erase_of_not_mem member]

section
variable (steal : Nat → Nat → Bool) {logged : Nat → List Nat} {events : List Event}

/-- Reservation through one event of a bounded run with sufficient admissions. -/
theorem step_reserved (inv : Reserved s h logged) (bound : withinBound logged event = true)
    (admitted : admits h event = true) (stepped : s.step steal event = .ok s') :
    Reserved s' (h.step event) (tally logged event) := by
  have counted' := step_counted steal inv.counted stepped
  cases event with
  | beginOp op =>
    obtain ⟨absent, rfl⟩ := step_beginOp stepped
    have fresh : op ∉ h.active := inv.counted.active ▸ absent
    have elsewhere : ∀ other ∈ h.active, update logged op [] other = logged other := by
      intro other member
      apply update_of_ne
      rintro rfl
      exact fresh member
    refine ⟨counted', ?_, ?_, ?_⟩
    · intro other member
      rcases mem_cons.mp member with rfl | old
      · simp [tally]
      · simpa only [tally, elsewhere other old] using inv.within other old
    · intro other member blockno logs
      rcases mem_cons.mp member with rfl | old
      · simp [tally] at logs
      · rw [tally, elsewhere other old] at logs
        exact inv.own other old blockno logs
    · simp only [admits, decide_eq_true_eq] at admitted
      rw [← inv.counted.length] at admitted
      have most := allowance_le (op :: h.active) (tally logged (.beginOp op))
      simp only [length_cons] at most
      exact (Nat.add_le_add_left most _).trans admitted
  | logWrite op blockno data =>
    obtain ⟨inProgress, -, -, rfl⟩ := step_logWrite stepped
    have member : op ∈ h.active := inv.counted.active ▸ inProgress
    simp only [withinBound, decide_eq_true_eq] at bound
    refine ⟨counted', ?_, ?_, ?_⟩
    · intro other inside
      by_cases here : other = op
      · subst here
        simpa only [tally, update_self] using bound
      · simpa only [tally, update_of_ne here] using inv.within other inside
    · intro other inside block logs
      rw [record_mem]
      by_cases here : other = op
      · subst here
        rw [tally, update_self, mem_insert_iff] at logs
        rcases logs with rfl | old
        · exact Or.inr rfl
        · exact Or.inl (inv.own other inside block old)
      · rw [tally, update_of_ne here] at logs
        exact Or.inl (inv.own other inside block logs)
    · have changed := allowance_update inv.counted.once member logged
        ((logged op).insert blockno.toNat)
      have room := inv.room
      have share := inv.within op member
      change (Log.record s.machine.log.lh blockno.toNat).length +
        allowance h.active (update logged op ((logged op).insert blockno.toNat)) ≤ _
      by_cases own : blockno.toNat ∈ logged op
      · have old := inv.own op member _ own
        have same : ((logged op).insert blockno.toNat).length = (logged op).length := by
          rw [insert_of_mem own]
        rw [Log.record, if_pos old]
        omega
      · have longer : ((logged op).insert blockno.toNat).length = (logged op).length + 1 := by
          rw [insert_of_not_mem own, length_cons]
        have most := record_length s.machine.log.lh blockno.toNat
        omega
  | endOp op =>
    obtain ⟨inProgress, rfl⟩ := step_endOp stepped
    have member : op ∈ h.active := inv.counted.active ▸ inProgress
    by_cases last : h.active.length - 1 = 0
    · have shorter : (h.active.erase op).length = 0 := by
        rw [length_erase_of_mem member]
        exact last
      have noneLeft : h.active.erase op = [] := length_eq_zero_iff.mp shorter
      have noPending : (h.step (.endOp op)).pending = [] := by simp [History.step, last]
      have noneActive : (h.step (.endOp op)).active = [] := by
        simp [History.step, last, noneLeft]
      refine ⟨counted', ?_, ?_, ?_⟩
      · simp [noneActive]
      · simp [noneActive]
      · rw [counted'.length, distinct, noPending, noneActive]
        simp [allowance]
    · rw [inv.counted.outstanding, if_neg last] at counted' ⊢
      have left : (h.step (.endOp op)).active = h.active.erase op := by
        simp [History.step, last]
      refine ⟨counted', ?_, ?_, ?_⟩
      · intro other inside
        rw [left] at inside
        exact inv.within other (mem_of_mem_erase inside)
      · intro other inside
        rw [left] at inside
        exact inv.own other (mem_of_mem_erase inside)
      · rw [left]
        exact (Nat.add_le_add_left (allowance_erase_le h.active op logged) _).trans inv.room
  | bread blockno =>
    have same := Except.ok.inj stepped
    subst same
    refine ⟨counted', inv.within, ?_, ?_⟩
    · intro op member block logs
      rw [bread_log]
      exact inv.own op member block logs
    · rw [bread_log]
      exact inv.room

theorem run_counted (counted : Counted s h) (ran : s.run steal events = .ok s') :
    Counted s' (events.foldl History.step h) := by
  induction events generalizing s h with
  | nil =>
    have same := Except.ok.inj ran
    exact same ▸ counted
  | cons event rest ih =>
    obtain ⟨middle, stepped, ran⟩ := Except.of_bind_ok ran
    exact ih (step_counted steal counted stepped) ran

theorem run_reserved (inv : Reserved s h logged) (bound : bounded logged events = true)
    (admitted : reserved h events = true) (ran : s.run steal events = .ok s') :
    s'.machine.log.lh.length ≤ nlog - 2 := by
  induction events generalizing s h logged with
  | nil =>
    have same := Except.ok.inj ran
    have room := inv.room
    rw [← same]
    omega
  | cons event rest ih =>
    simp only [bounded, Bool.and_eq_true] at bound
    simp only [reserved, Bool.and_eq_true] at admitted
    obtain ⟨middle, stepped, ran⟩ := Except.of_bind_ok ran
    exact ih (step_reserved steal inv bound.1 admitted.1 stepped) bound.2 admitted.2 ran

/-- An operation in progress panics in `log_write` exactly when the header lists
one block less than the log area has. -/
theorem logWrite_panics (counted : Counted s h) (member : op ∈ s.active) (blockno : UInt32)
    (data : Block) :
    s.step steal (.logWrite op blockno data) = .error (.panic "too big a transaction") ↔
      nlog - 1 ≤ distinct h := by
  have outstanding : 1 ≤ s.machine.log.outstanding := by
    rw [counted.outstanding, ← counted.active]
    exact length_pos_of_mem member
  have size : s.machine.log.size = 30 := counted.size
  rw [← counted.length]
  by_cases full : 30 - 1 ≤ s.machine.log.lh.length
  · have refused : s.machine.log.logWrite blockno.toNat = .error "too big a transaction" := by
      rw [Log.logWrite, Log.logTest, size, if_pos (Or.inr full)]
      rfl
    simpa [step, member, Machine.logWrite, refused, bind, Except.bind, panicking,
      nlog] using full
  · have recorded : s.machine.log.logWrite blockno.toNat =
        .ok { s.machine.log with lh := Log.record s.machine.log.lh blockno.toNat } := by
      rw [Log.logWrite, Log.logTest, if_neg (by simp only [size, logsize_eq]; omega),
        if_neg (by omega)]
      rfl
    simpa [step, member, Machine.logWrite, recorded, bind, Except.bind, panicking,
      pure, Except.pure, nlog] using full

end

end Reservation

open Reservation in
/-- On the log that `mkfs` lays out, in a run in which every operation logs at
most `MAXOPBLOCKS` distinct blocks: when every admission leaves two blocks of the
log area beyond the reserved ones, no `log_write` is refused in the state reached.
The limit is sharp. Whoever calls `log_write` once the transaction has logged all
blocks of the area but the header panics, also for a block already logged. -/
theorem log_space_reserved (steal : Nat → Nat → Bool) (disk0 : Disk) (events : List Event)
    (s : System) (bound : bounded (fun _ => []) events = true)
    (ran : (System.boot logstart nlog disk0).run steal events = .ok s) :
    (reserved History.init events = true → ∀ op blockno data,
      s.step steal (.logWrite op blockno data) ≠ .error (.panic "too big a transaction")) ∧
    ∀ op ∈ s.active, ∀ blockno data,
      s.step steal (.logWrite op blockno data) = .error (.panic "too big a transaction") ↔
        nlog - 1 ≤ distinct (history events) := by
  have counted : Counted s (history events) := run_counted steal (boot_counted disk0) ran
  have sharp := fun op (member : op ∈ s.active) blockno data =>
    logWrite_panics steal counted member blockno data
  refine ⟨?_, sharp⟩
  intro admitted op blockno data
  by_cases member : op ∈ s.active
  · rw [ne_eq, sharp op member blockno data, ← counted.length]
    have start : Reserved (System.boot logstart nlog disk0) History.init (fun _ => []) :=
      ⟨boot_counted disk0, by simp [History.init], by simp [History.init], Nat.zero_le _⟩
    have room := run_reserved steal start bound admitted ran
    have area : nlog = 30 := rfl
    omega
  · simp [System.step, member]

/-- `count` operations begin and then log ten distinct blocks each, one operation
after the other. -/
def tenBlocksEach (count : Nat) : List Event :=
  (List.range count).map Event.beginOp ++ (List.range (10 * count)).map fun i =>
    .logWrite (i / 10) (UInt32.ofNat (100 + i)) Bytes.zero

open Reservation in
/-- Two operations with ten blocks each leave ten blocks of the log area. -/
theorem log_space_reserved_two_operations :
    ∃ s, (System.boot logstart nlog fun _ => Bytes.zero).run (fun _ _ => false)
        (tenBlocksEach 2) = .ok s ∧
      ∀ op blockno data, s.step (fun _ _ => false) (.logWrite op blockno data) ≠
        .error (.panic "too big a transaction") := by
  refine ⟨_, rfl, ?_⟩
  exact (log_space_reserved (fun _ _ => false) (fun _ => Bytes.zero) (tenBlocksEach 2) _ rfl rfl).1
    rfl

open Reservation in
/-- Three operations with ten blocks each are all admitted, stay within their
bound and panic at the thirtieth block. -/
theorem log_space_exhausted :
    bounded (fun _ => []) (tenBlocksEach 3) = true ∧
      (System.boot logstart nlog fun _ => Bytes.zero).run (fun _ _ => false) (tenBlocksEach 3) =
        .error (.panic "too big a transaction") :=
  ⟨rfl, rfl⟩

open Reservation in
/-- After every run the log counts the operations in progress, and its header has exactly one
slot for each block logged since the last commit, whoever logged it and however often. -/
theorem log_header_exact (steal : Nat → Nat → Bool) (disk0 : Disk) (events : List Event)
    (s : System) (ran : (System.boot logstart nlog disk0).run steal events = .ok s) :
    s.machine.log.outstanding = (history events).active.length ∧ s.machine.log.lh.Nodup ∧
      ∀ blockno, blockno ∈ s.machine.log.lh ↔
        ∃ data, (blockno, data) ∈ (history events).pending := by
  have counted : Counted s (history events) := run_counted steal (boot_counted disk0) ran
  refine ⟨counted.outstanding, counted.nodup, fun blockno => ?_⟩
  rw [counted.listed, mem_map]
  constructor
  · rintro ⟨⟨_, data⟩, logged, rfl⟩
    exact ⟨data, logged⟩
  · rintro ⟨data, logged⟩
    exact ⟨_, logged, rfl⟩

theorem log_header_exact_two_operations :
    ∃ s, (System.boot logstart nlog fun _ => Bytes.zero).run (fun _ _ => false)
      (tenBlocksEach 2) = .ok s ∧ s.machine.log.outstanding = 2 ∧ s.machine.log.lh.Nodup := by
  have exact := log_header_exact (fun _ _ => false) (fun _ => Bytes.zero) (tenBlocksEach 2) _ rfl
  exact ⟨_, rfl, exact.1, exact.2.1⟩

end Xv6
