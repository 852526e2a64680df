import Xv6.Log.Replay

/-!
# Crash atomicity of the log

Between two events the disk holds the committed transactions and the cache the
pending one. At each disk write of an event the disk recovers to the transactions
before the event or to those after it, so a crash can only fall before or after a
whole transaction, and a recovery may be repeated from wherever it was cut.
-/

namespace Xv6

open Writes Function List History

namespace Crash

open Machine

variable {start size : Nat} {disk0 disk target : Disk} {s s' : System} {h : History}
  {machine : Machine}

/-! ## One event -/

/-- What holds between two events of a run that started on `disk0`. -/
structure Inv (start size : Nat) (disk0 : Disk) (s : System) (h : History) : Prop where
  active : s.active = h.active
  outstanding : s.machine.log.outstanding = h.active.length
  idle : s.machine.log.committing = false
  place : s.machine.log.start = start ∧ s.machine.log.size = size
  listed : ∀ blockno, blockno ∈ s.machine.log.lh ↔ ∃ w ∈ h.pending, w.1 = blockno
  narrow : ∀ blockno ∈ s.machine.log.lh, blockno < 2 ^ 32
  homes : ∀ blockno ∈ s.machine.log.lh, Home start size blockno
  short : s.machine.log.lh.length ≤ logsize ∧ s.machine.log.lh.length < size
  coherent : Coherent s.machine
  pinned : ∀ blockno, Dirty s.machine blockno → blockno ∈ s.machine.log.lh
  clear : loadHead (s.machine.disk start) = []
  durable : ∀ blockno, Home start size blockno →
    s.machine.disk blockno = applyTxns h.committed disk0 blockno
  visible : ∀ blockno, Home start size blockno →
    view s.machine blockno = Writes.apply h.pending s.machine.disk blockno
  issued : s.machine.disk = Writes.apply s.machine.writes disk0

/-- What an event adds to the disk: some writes, after each of which the disk
recovers to the transactions committed before the event or to those committed
after it; after all of them it is the latter. -/
def Effect (start size : Nat) (disk0 : Disk) (s s' : System) (h h' : History) : Prop :=
  ∃ ws, s'.machine.writes = s.machine.writes ++ ws ∧ h.committed <+: h'.committed ∧
    ∀ k ≤ ws.length, ∃ j, h.committed.length ≤ j ∧ j ≤ h'.committed.length ∧
      (k = ws.length → j = h'.committed.length) ∧
      Recoverable start size (Writes.apply (ws.take k) s.machine.disk)
        (applyTxns (h'.committed.take j) disk0)

/-- An event that neither writes nor commits. -/
theorem Effect.of_quiet {h' : History} (inv : Inv start size disk0 s h)
    (quiet : s'.machine.writes = s.machine.writes) (kept : h'.committed = h.committed) :
    Effect start size disk0 s s' h h' := by
  refine ⟨[], by simp [quiet], by simp [kept], ?_⟩
  intro k bound
  refine ⟨h.committed.length, Nat.le_refl _, by simp [kept], by simp [kept], ?_⟩
  rw [kept, take_length]
  simpa using Recoverable.of_clear (Nat.zero_lt_of_lt inv.short.2) inv.clear inv.durable

/-- Storing through `log_write` changes the block's visible contents and nothing
on the disk. -/
theorem logWrite_inv (inv : Inv start size disk0 s h) (op : Nat) {blockno : UInt32} {data : Block}
    (home : Home start size blockno.toNat)
    (roomHeader : s.machine.log.lh.length < logsize)
    (roomLog : s.machine.log.lh.length < s.machine.log.size - 1) :
    Inv start size disk0 ⟨{ s.machine with
      log := { s.machine.log with lh := Log.record s.machine.log.lh blockno.toNat }
      cache := update s.machine.cache blockno.toNat (some ⟨data, true⟩) }, s.active⟩
      (h.step (.logWrite op blockno data)) := by
  have place := inv.place
  have length := record_length s.machine.log.lh blockno.toNat
  refine ⟨inv.active, inv.outstanding, inv.idle, inv.place, ?_, ?_, ?_, ⟨?_, ?_⟩, ?_, ?_,
    inv.clear, inv.durable, ?_, inv.issued⟩
  · intro other
    simp only [record_mem, inv.listed, step, mem_append, mem_singleton]
    constructor
    · rintro (⟨w, member, same⟩ | rfl)
      · exact ⟨w, Or.inl member, same⟩
      · exact ⟨_, Or.inr rfl, rfl⟩
    · rintro ⟨w, member | rfl, same⟩
      · exact Or.inl ⟨w, member, same⟩
      · exact Or.inr same.symm
  · intro other member
    rcases (record_mem _ _ _).mp member with old | rfl
    · exact inv.narrow other old
    · exact blockno.toNat_lt
  · intro other member
    rcases (record_mem _ _ _).mp member with old | rfl
    · exact inv.homes other old
    · exact home
  · dsimp only
    omega
  · dsimp only
    omega
  · intro other buf cached clean
    by_cases here : other = blockno.toNat
    · subst here
      simp only [update_self, Option.some.injEq] at cached
      simp [← cached] at clean
    · simp only [update_of_ne here] at cached
      exact inv.coherent other buf cached clean
  · rintro other ⟨buf, cached, isDirty⟩
    rw [record_mem]
    by_cases here : other = blockno.toNat
    · exact Or.inr here
    · simp only [update_of_ne here] at cached
      exact Or.inl (inv.pinned other ⟨buf, cached, isDirty⟩)
  · intro other otherHome
    simp only [step, apply_append, apply_cons, apply_nil]
    by_cases here : other = blockno.toNat
    · subst here
      simp [view]
    · have before := inv.visible other otherHome
      simpa [view, update_of_ne here] using before

section
variable (steal : Nat → Nat → Bool)

/-- A commit of a nonempty log: its disk writes in order, an empty header in
memory and on the disk, and no logged block left dirty. -/
theorem commit_wrote (start size : Nat) {m : Machine} (coherent : Coherent m)
    (here : m.log.start = start) (homes : ∀ blockno ∈ m.log.lh, Home start size blockno)
    (narrow : ∀ blockno ∈ m.log.lh, blockno < 2 ^ 32)
    (short : m.log.lh.length ≤ logsize ∧ m.log.lh.length < size) (some : m.log.lh ≠ []) :
    ∃ full erased, loadHead full = m.log.lh ∧ loadHead erased = [] ∧
      (m.commit steal).log = { m.log with lh := [] } ∧
      (m.commit steal).writes = m.writes ++ commitWrites start (view m) m.log.lh full erased ∧
      (m.commit steal).disk =
        Writes.apply (commitWrites start (view m) m.log.lh full erased) m.disk ∧
      Coherent (m.commit steal) ∧
      ∀ blockno, Dirty (m.commit steal) blockno → Dirty m blockno ∧ blockno ∉ m.log.lh := by
  subst here
  have logged := writeLogFrom_wrote steal m.log.start size m.log.lh 0 m coherent rfl homes
    (by omega)
  rw [show writeLogFrom steal m.log.lh 0 m = m.writeLog steal from rfl] at logged
  have headed := writeHead_wrote steal logged.coherent
  rw [logged.log] at headed
  have slots : installWrites m.log.start (view ((m.writeLog steal).writeHead steal)) m.log.lh 0 =
      m.log.lh.map fun blockno => (blockno, view m blockno) := by
    rw [← installWrites_logWrites m.log.start (view m) (view m) m.log.lh 0]
    apply installWrites_congr
    intro slot _ _
    rw [headed.view, logged.view]
    simp [update_of_ne (show m.log.start + slot + 1 ≠ m.log.start by omega)]
  have installed := installFrom_wrote steal m.log.start size m.log.lh 0
    ((m.writeLog steal).writeHead steal) headed.coherent
    (by rw [headed.log, logged.log]) homes (by omega)
  rw [slots] at installed
  have sameLh : ((m.writeLog steal).writeHead steal).log.lh = m.log.lh := by
    rw [headed.log, logged.log]
  rw [show installFrom steal m.log.lh 0 ((m.writeLog steal).writeHead steal) =
    ((m.writeLog steal).writeHead steal).installTrans steal by rw [installTrans, sameLh]]
    at installed
  have copied := (logged.trans headed).trans installed
  generalize copiedTo : ((m.writeLog steal).writeHead steal).installTrans steal = last
    at copied
  have erasing : Wrote last.clearHead [(m.log.start, storeHead (view last m.log.start) [])]
      (last.clearHead.writeHead steal) := by
    have wrote := writeHead_wrote steal (m := last.clearHead) copied.coherent
    rwa [show last.clearHead.log.start = m.log.start by rw [← copied.log]; rfl] at wrote
  have whole : m.commit steal = last.clearHead.writeHead steal := by
    rw [commit, if_pos (length_pos_iff.mpr some), copiedTo]
  refine ⟨storeHead (view (m.writeLog steal) m.log.start) m.log.lh,
    storeHead (view last m.log.start) [], loadHead_storeHead _ _ short.1 narrow,
    loadHead_storeHead _ _ (by simp) (by simp), ?_, ?_, ?_, ?_, ?_⟩
  · rw [whole, erasing.log, clearHead, copied.log]
  · rw [whole, erasing.writes, clearHead, copied.writes]
    simp [commitWrites]
  · rw [whole, erasing.disk, clearHead, copied.disk, ← apply_append]
    simp [commitWrites]
  · rw [whole]
    exact erasing.coherent
  · intro blockno isDirty
    rw [whole] at isDirty
    obtain ⟨lastDirty, _⟩ := erasing.dirty blockno isDirty
    obtain ⟨firstDirty, apart⟩ := copied.dirty blockno lastDirty
    refine ⟨firstDirty, ?_⟩
    intro member
    exact apart (blockno, view m blockno) (by simp [member]) rfl

end

/-- The visible home contents are those the transaction leaves on the disk. -/
theorem Inv.commits (inv : Inv start size disk0 s h) (blockno : Nat)
    (home : Home start size blockno) :
    Writes.apply (s.machine.log.lh.map fun other => (other, view s.machine other))
      s.machine.disk blockno = applyTxns (h.committed ++ [h.pending]) disk0 blockno := by
  have seen : Writes.apply (s.machine.log.lh.map fun other => (other, view s.machine other))
      s.machine.disk blockno = view s.machine blockno := by
    by_cases logged : blockno ∈ s.machine.log.lh
    · apply apply_of_mem
      · intro w member
        obtain ⟨other, _, rfl⟩ := mem_map.mp member
        rfl
      · exact ⟨_, mem_map_of_mem logged, rfl⟩
    · rw [apply_of_not_mem]
      · exact (view_of_not_dirty inv.coherent fun isDirty => logged (inv.pinned _ isDirty)).symm
      · intro w member same
        obtain ⟨other, otherLogged, rfl⟩ := mem_map.mp member
        exact logged (same ▸ otherLogged)
  rw [seen, inv.visible blockno home, applyTxns, flatten_append, apply_append]
  simpa [applyTxns] using apply_congr h.pending _ _ blockno (Or.inr (inv.durable blockno home))

section
variable (steal : Nat → Nat → Bool) {op : Nat}

/-- The end of an operation that is not the last one in progress. -/
theorem endOp_early (inv : Inv start size disk0 s h) (more : h.active.length - 1 ≠ 0)
    (inProgress : op ∈ s.active) :
    Inv start size disk0 ⟨{ s.machine with
      log := { s.machine.log with outstanding := s.machine.log.outstanding - 1 } },
      s.active.erase op⟩ (h.step (.endOp op)) := by
  rw [step, if_neg more]
  refine ⟨by simp [inv.active], ?_, inv.idle, inv.place, inv.listed, inv.narrow, inv.homes,
    inv.short, inv.coherent, inv.pinned, inv.clear, inv.durable, inv.visible, inv.issued⟩
  have member : op ∈ h.active := inv.active ▸ inProgress
  simp [length_erase_of_mem member, inv.outstanding]

/-- The end of the last operation in progress: all its writes keep the disk
recoverable, and the transaction is durable when `end_op` returns. -/
theorem endOp_last {m : Machine} (inv : Inv start size disk0 s h) (last : h.active.length - 1 = 0)
    (inProgress : op ∈ s.active)
    (locked : { s.machine with log := { s.machine.log with
      outstanding := s.machine.log.outstanding - 1, committing := true } } = m)
    (result : machine = { m.commit steal with
      log := { (m.commit steal).log with committing := false } }) :
    Inv start size disk0 ⟨machine, s.active.erase op⟩ (h.step (.endOp op)) ∧
      Effect start size disk0 s ⟨machine, s.active.erase op⟩ h (h.step (.endOp op)) := by
  have counted : s.machine.log.outstanding - 1 = 0 := by rw [inv.outstanding]; exact last
  have room : 0 < size := Nat.zero_lt_of_lt inv.short.2
  have noneActive : s.active.erase op = [] := by
    rw [← length_eq_zero_iff, length_erase_of_mem inProgress, inv.active]
    exact last
  have noneLeft : h.active.erase op = [] := inv.active ▸ noneActive
  have stepped : h.step (.endOp op) = ⟨[], [], h.committed ++ [h.pending]⟩ := by
    rw [step, if_pos last, noneLeft]
  have sameLh : m.log.lh = s.machine.log.lh := by rw [← locked]
  have sameDisk : m.disk = s.machine.disk := by rw [← locked]
  have sameWrites : m.writes = s.machine.writes := by rw [← locked]
  have sameView : view m = view s.machine := by rw [← locked]; rfl
  have sameDirty : ∀ blockno, Dirty m blockno ↔ Dirty s.machine blockno := by
    intro blockno
    rw [← locked]
    rfl
  have coherent : Coherent m := by rw [← locked]; exact inv.coherent
  rw [stepped, noneActive]
  by_cases empty : s.machine.log.lh = []
  · -- Nothing was logged: `commit` returns at once and the transaction is empty.
    have noPending : h.pending = [] := by
      apply eq_nil_iff_forall_not_mem.mpr
      intro w member
      have listed := (inv.listed w.1).mpr ⟨w, member, rfl⟩
      simp [empty] at listed
    have skipped : m.commit steal = m := by simp [commit, sameLh, empty]
    have sameTxns : applyTxns (h.committed ++ [h.pending]) disk0 = applyTxns h.committed disk0 := by
      simp [applyTxns, noPending]
    rw [skipped, ← locked] at result
    subst result
    constructor
    · refine ⟨rfl, counted, rfl, inv.place, ?_, ?_, ?_, ?_, inv.coherent, inv.pinned,
        inv.clear, ?_, ?_, inv.issued⟩
      · simp [empty]
      · simp [empty]
      · simp [empty]
      · simpa [empty] using room
      · intro blockno home
        rw [sameTxns]
        exact inv.durable blockno home
      · intro blockno home
        have before := inv.visible blockno home
        rw [noPending] at before
        exact before
    · refine ⟨[], by simp, prefix_append _ _, ?_⟩
      intro k bound
      refine ⟨(h.committed ++ [h.pending]).length, by simp, Nat.le_refl _, fun _ => rfl, ?_⟩
      rw [take_length, sameTxns]
      simpa using Recoverable.of_clear room inv.clear inv.durable
  · obtain ⟨full, erased, fullListed, erasedEmpty, log', writes', disk', coherent', dirty'⟩ :=
      commit_wrote steal start size coherent
        (by rw [← locked]; exact inv.place.1) (by rw [sameLh]; exact inv.homes)
        (by rw [sameLh]; exact inv.narrow) (by rw [sameLh]; exact inv.short)
        (by rw [sameLh]; exact empty)
    rw [sameView, sameLh] at writes' disk'
    rw [sameLh] at fullListed dirty'
    rw [sameWrites] at writes'
    rw [sameDisk] at disk'
    have clean : ∀ blockno, ¬ Dirty (m.commit steal) blockno := by
      intro blockno isDirty
      obtain ⟨before, notLogged⟩ := dirty' blockno isDirty
      exact notLogged (inv.pinned blockno ((sameDirty blockno).mp before))
    have clear' : loadHead ((m.commit steal).disk start) = [] := by
      rw [disk', commitWrites, apply_append, apply_cons, apply_append]
      simpa using erasedEmpty
    have after : ∀ k, s.machine.log.lh.length < k → Recoverable start size
        (Writes.apply ((commitWrites start (view s.machine) s.machine.log.lh full erased).take k)
          s.machine.disk)
        (applyTxns (h.committed ++ [h.pending]) disk0) := by
      intro k late
      obtain ⟨homes, short, replays⟩ := commit_after s.machine.disk
        (view s.machine) inv.homes inv.short.2 fullListed erasedEmpty late
      exact ⟨homes, short, fun blockno home =>
        (replays blockno home).trans (inv.commits blockno home)⟩
    have durable' : ∀ blockno, Home start size blockno →
        (m.commit steal).disk blockno = applyTxns (h.committed ++ [h.pending]) disk0 blockno := by
      intro blockno home
      have final := (after (commitWrites start (view s.machine) s.machine.log.lh full
        erased).length (by simp [commitWrites, logWrites_length])).replays blockno home
      rw [take_length, ← disk', replayed, clear'] at final
      exact final
    subst result
    constructor
    · refine ⟨rfl, ?_, rfl, ?_, ?_, ?_, ?_, ?_, ?_, ?_, clear', durable', ?_, ?_⟩
      · rw [log', ← locked]
        exact counted
      · rw [log', ← locked]
        exact inv.place
      · simp [log']
      · simp [log']
      · simp [log']
      · simpa [log'] using room
      · exact coherent'
      · intro blockno isDirty
        exact absurd isDirty (clean blockno)
      · intro blockno _
        exact view_of_not_dirty coherent' (clean blockno)
      · change (m.commit steal).disk = Writes.apply (m.commit steal).writes disk0
        rw [disk', writes', apply_append, ← inv.issued]
    · refine ⟨_, writes', prefix_append _ _, ?_⟩
      intro k bound
      by_cases late : s.machine.log.lh.length < k
      · refine ⟨(h.committed ++ [h.pending]).length, by simp, Nat.le_refl _, fun _ => rfl, ?_⟩
        rw [take_length]
        exact after k late
      · refine ⟨h.committed.length, Nat.le_refl _, by simp, ?_, ?_⟩
        · intro whole
          simp [commitWrites, logWrites_length] at whole
          omega
        · obtain ⟨homes, short, replays⟩ := commit_before (view s.machine)
            full erased inv.clear inv.short.2 (Nat.le_of_not_lt late)
          refine ⟨homes, short, fun blockno home => ?_⟩
          rw [take_left]
          exact (replays blockno home).trans (inv.durable blockno home)

end

/-! ## Whole runs -/

section
variable (steal : Nat → Nat → Bool)

/-- Every event that happens keeps the invariant and leaves the disk recoverable
at each of its writes. -/
theorem step_inv {event : Event} (inv : Inv start size disk0 s h)
    (homes : ∀ op blockno data, event = .logWrite op blockno data → Home start size blockno.toNat)
    (stepped : s.step steal event = .ok s') :
    Inv start size disk0 s' (h.step event) ∧ Effect start size disk0 s s' h (h.step event) := by
  cases event with
  | beginOp op =>
    obtain ⟨-, rfl⟩ := step_beginOp stepped
    refine ⟨?_, Effect.of_quiet inv rfl rfl⟩
    exact ⟨by simp [step, inv.active], by simp [step, inv.outstanding],
      inv.idle, inv.place, inv.listed, inv.narrow, inv.homes, inv.short, inv.coherent,
      inv.pinned, inv.clear, inv.durable, inv.visible, inv.issued⟩
  | logWrite op blockno data =>
    obtain ⟨-, roomHeader, roomLog, rfl⟩ := step_logWrite stepped
    exact ⟨logWrite_inv inv op (homes op blockno data rfl) roomHeader roomLog,
      Effect.of_quiet inv rfl rfl⟩
  | endOp op =>
    obtain ⟨inProgress, rfl⟩ := step_endOp stepped
    by_cases last : h.active.length - 1 = 0
    · exact endOp_last steal inv last inProgress rfl (if_pos (by rw [inv.outstanding, last]))
    · rw [if_neg (by rw [inv.outstanding]; exact last)]
      refine ⟨endOp_early inv last inProgress, Effect.of_quiet inv rfl ?_⟩
      rw [step, if_neg last]
  | bread blockno =>
    have same := Except.ok.inj stepped
    subst same
    obtain ⟨_, read⟩ := bread_wrote steal inv.coherent blockno.toNat
    have sameDisk : (s.machine.bread steal blockno.toNat).2.disk = s.machine.disk := read.disk
    have sameView : view (s.machine.bread steal blockno.toNat).2 = view s.machine := read.view
    refine ⟨?_, Effect.of_quiet inv (by simpa using read.writes) rfl⟩
    refine ⟨inv.active, ?_, ?_, ?_, ?_, ?_, ?_, ?_, read.coherent, ?_, ?_, ?_, ?_, ?_⟩
    · rw [read.log]; exact inv.outstanding
    · rw [read.log]; exact inv.idle
    · rw [read.log]; exact inv.place
    · rw [read.log]; exact inv.listed
    · rw [read.log]; exact inv.narrow
    · rw [read.log]; exact inv.homes
    · rw [read.log]; exact inv.short
    · intro other isDirty
      rw [read.log]
      exact inv.pinned other (read.dirty other isDirty).1
    · rw [sameDisk]; exact inv.clear
    · rw [sameDisk]; exact inv.durable
    · rw [sameDisk, sameView]; exact inv.visible
    · rw [sameDisk, read.writes, append_nil]; exact inv.issued

theorem boot_inv (room : 0 < size) (clear : loadHead (disk0 start) = []) :
    Inv start size disk0 (System.boot start size disk0) init where
  active := rfl
  outstanding := rfl
  idle := rfl
  place := ⟨rfl, rfl⟩
  listed := by simp [System.boot, boot, init]
  narrow := by simp [System.boot, boot]
  homes := by simp [System.boot, boot]
  short := ⟨Nat.zero_le _, room⟩
  coherent := by
    intro blockno buf cached
    simp [System.boot, boot] at cached
  pinned := by
    rintro blockno ⟨buf, cached, _⟩
    simp [System.boot, boot] at cached
  clear := clear
  durable := fun _ _ => rfl
  visible := fun _ _ => rfl
  issued := rfl

/-- Along a run the invariant holds, and every prefix of the issued disk writes
leaves a disk that recovers to whole transactions: at least those committed by
any earlier moment of the run whose writes are all in the prefix. -/
theorem run_inv (room : 0 < size) (clear : loadHead (disk0 start) = []) (events : List Event)
    (homes : LogsHome start size events)
    (ran : (System.boot start size disk0).run steal events = .ok s) :
    Inv start size disk0 s (history events) ∧
      ∀ k ≤ s.machine.writes.length, ∃ j ≤ (transactions events).length,
        (∀ first s₁, first <+: events → (System.boot start size disk0).run steal first = .ok s₁ →
          s₁.machine.writes.length ≤ k → (transactions first).length ≤ j) ∧
        Recoverable start size (Writes.apply (s.machine.writes.take k) disk0)
          (applyTxns ((transactions events).take j) disk0) := by
  induction events using reverseRecOn generalizing s with
  | nil =>
    have same := Except.ok.inj ran
    subst same
    refine ⟨boot_inv room clear, ?_⟩
    intro k bound
    refine ⟨0, Nat.zero_le _, ?_, ?_⟩
    · intro first s₁ earlier _ _
      rw [prefix_nil.mp earlier]
      exact Nat.le_refl _
    · simpa [System.boot, boot, applyTxns] using
        (Recoverable.of_clear room clear fun _ _ => rfl : Recoverable start size disk0 disk0)
  | append_singleton events event ih =>
    obtain ⟨middle, before, stepped⟩ := run_snoc steal ran
    obtain ⟨inv, crashes⟩ := ih
      (fun op blockno data member => homes op blockno data (by simp [member])) before
    have eventHome : ∀ op blockno data, event = .logWrite op blockno data →
        Home start size blockno.toNat := fun op blockno data same =>
      homes op blockno data (by simp [same])
    obtain ⟨inv', ws, issued, grown, effect⟩ := step_inv steal inv eventHome stepped
    rw [← history_snoc] at inv' grown effect
    refine ⟨inv', ?_⟩
    intro k bound
    have writesLength : s.machine.writes.length = middle.machine.writes.length + ws.length := by
      rw [issued, length_append]
    by_cases early : k < middle.machine.writes.length
    · -- The crash falls before this event's writes: the shorter run decides.
      obtain ⟨j, inside, reached, recoverable⟩ := crashes k (Nat.le_of_lt early)
      refine ⟨j, inside.trans grown.length_le, ?_, ?_⟩
      · intro first s₁ earlier ranFirst durable
        rcases prefix_concat_iff.mp earlier with whole | shorter
        · subst whole
          rw [ran] at ranFirst
          have same := Except.ok.inj ranFirst
          subst same
          omega
        · exact reached first s₁ shorter ranFirst durable
      · rw [issued, take_append_of_le_length (Nat.le_of_lt early)]
        have sameTake : (transactions (events ++ [event])).take j =
            (transactions events).take j := by
          obtain ⟨more, whole⟩ := grown
          change (history (events ++ [event])).committed.take j = (history events).committed.take j
          rw [← whole]
          exact take_append_of_le_length inside
        rwa [sameTake]
    · obtain ⟨j, atLeast, atMost, complete, recoverable⟩ :=
        effect (k - middle.machine.writes.length) (by omega)
      refine ⟨j, atMost, ?_, ?_⟩
      · intro first s₁ earlier ranFirst durable
        rcases prefix_concat_iff.mp earlier with whole | shorter
        · subst whole
          rw [ran] at ranFirst
          have same := Except.ok.inj ranFirst
          subst same
          exact Nat.le_of_eq (complete (by omega)).symm
        · exact (transactions_monotone shorter).length_le.trans atLeast
      · rw [issued, take_append, take_of_length_le (Nat.le_of_not_lt early),
          apply_append, ← inv.issued]
        exact recoverable

/-! ## Recovery -/

/-- The machine on which a recovery runs: fresh memory and the crashed disk. -/
def recovering (start size : Nat) (disk : Disk) : Machine :=
  (Machine.boot start size disk).recoverFromLog steal

/-- The disk writes of a recovery are the writes home and the erased header. -/
theorem recovering_wrote (recoverable : Recoverable start size disk target) :
    ∃ erased, loadHead erased = [] ∧
      (recovering steal start size disk).writes =
        installWrites start disk (loadHead (disk start)) 0 ++ [(start, erased)] ∧
      (recovering steal start size disk).disk =
        Writes.apply (recovering steal start size disk).writes disk := by
  have coherent : Coherent (Machine.boot start size disk) := by
    intro blockno buf cached
    simp [boot] at cached
  obtain ⟨headRead, read⟩ := bread_wrote steal coherent start
  generalize loaded : ((Machine.boot start size disk).readHead steal) = m
  have mLh : m.log.lh = loadHead (disk start) := by
    rw [← loaded]
    change loadHead ((Machine.boot start size disk).bread steal start).1 = _
    rw [headRead]
    rfl
  have mStart : m.log.start = start := by
    rw [← loaded]
    change ((Machine.boot start size disk).bread steal start).2.log.start = start
    rw [read.log]
    rfl
  have mWrites : m.writes = [] := by
    rw [← loaded]
    exact read.writes
  have mDisk : m.disk = disk := by
    rw [← loaded]
    exact read.disk
  have mView : view m = disk := by
    rw [← loaded]
    exact read.view
  have mCoherent : Coherent m := by
    rw [← loaded]
    exact read.coherent
  have installed := installFrom_wrote steal start size m.log.lh 0 m mCoherent mStart
    (by rw [mLh]; exact recoverable.homes) (by rw [mLh, Nat.zero_add]; exact recoverable.short)
  rw [mView, mLh] at installed
  have whole : recovering steal start size disk =
      ((installFrom steal (loadHead (disk start)) 0 m).clearHead).writeHead steal := by
    rw [recovering, recoverFromLog, loaded, installTrans, mLh]
  generalize copied : installFrom steal (loadHead (disk start)) 0 m = last at installed whole
  have erasing := writeHead_wrote steal (m := last.clearHead) installed.coherent
  rw [show last.clearHead.log.start = start by
    change last.log.start = start
    rw [installed.log, mStart]] at erasing
  refine ⟨storeHead (view last.clearHead start) [],
    loadHead_storeHead _ _ (by simp) (by simp), ?_, ?_⟩
  · rw [whole, erasing.writes]
    change last.writes ++ _ = _
    rw [installed.writes, mWrites]
    rfl
  · rw [whole, erasing.disk, erasing.writes]
    change Writes.apply _ last.disk = Writes.apply (last.writes ++ _) disk
    rw [installed.disk, installed.writes, mWrites, mDisk, nil_append, apply_append]

end

/-- The disk after a crash recovers to `final`: any number of recoveries are cut
short, each after some prefix of its own writes, and then one completes. Each
runs under its own recycling order. -/
inductive Recovers (start size : Nat) : Disk → Disk → Prop where
  | interrupted (steal : Nat → Nat → Bool) (disk final : Disk) (k : Nat)
      (later : Recovers start size
        (Writes.apply ((recovering steal start size disk).writes.take k) disk) final) :
      Recovers start size disk final
  | completed (steal : Nat → Nat → Bool) (disk : Disk) :
      Recovers start size disk (recovering steal start size disk).disk

/-- Recovery of a recoverable disk ends at its reading, with an empty header. -/
theorem recovers_target {final : Disk} (recoverable : Recoverable start size disk target)
    (ended : Recovers start size disk final) :
    loadHead (final start) = [] ∧
      ∀ blockno, Home start size blockno → final blockno = target blockno := by
  induction ended with
  | interrupted steal disk final k _ ih =>
    obtain ⟨erased, empty, writes, _⟩ := recovering_wrote steal recoverable
    apply ih
    rw [writes]
    exact recoverable.replay_partial empty k
  | completed steal disk =>
    obtain ⟨erased, empty, writes, result⟩ := recovering_wrote steal recoverable
    have clear : loadHead ((recovering steal start size disk).disk start) = [] := by
      rw [result, writes, apply_append]
      simpa using empty
    refine ⟨clear, ?_⟩
    intro blockno home
    have last := recoverable.replay_partial empty
      (installWrites start disk (loadHead (disk start)) 0 ++ [(start, erased)]).length
    rw [take_length, ← writes, ← result] at last
    have reading := last.replays blockno home
    rwa [replayed, clear] at reading

end Crash

open Crash in
/-- A crash after any prefix of the disk writes of a run, followed by any number
of interrupted recoveries and a complete one, leaves the home blocks with the
first `j` whole transactions applied to the initial disk, in commit order, where
`j` is at least the number of transactions committed by any moment of the run
whose writes all reached the disk. The log is empty again, so that the next run
starts as this one did. -/
theorem crash_recovery_atomic (steal : Nat → Nat → Bool) (start size : Nat) (disk0 : Disk)
    (room : 0 < size) (clear : Machine.loadHead (disk0 start) = []) (events : List Event)
    (homes : LogsHome start size events) (s : System)
    (ran : (System.boot start size disk0).run steal events = .ok s) (k : Nat) (final : Disk)
    (recovered : Recovers start size (Writes.apply (s.machine.writes.take k) disk0) final) :
    Machine.loadHead (final start) = [] ∧
      ∃ j ≤ (transactions events).length,
        (∀ first s₁, first <+: events → (System.boot start size disk0).run steal first = .ok s₁ →
          s₁.machine.writes.length ≤ k → (transactions first).length ≤ j) ∧
        ∀ blockno, Home start size blockno →
          final blockno = applyTxns ((transactions events).take j) disk0 blockno := by
  obtain ⟨inv, crashes⟩ := run_inv steal room clear events homes ran
  by_cases cut : k ≤ s.machine.writes.length
  · obtain ⟨j, inside, reached, recoverable⟩ := crashes k cut
    obtain ⟨empty, contents⟩ := recovers_target recoverable recovered
    exact ⟨empty, j, inside, reached, contents⟩
  · -- A crash after the last write is the one at the end of the run.
    rw [List.take_of_length_le (by omega)] at recovered
    obtain ⟨j, inside, reached, recoverable⟩ := crashes s.machine.writes.length (Nat.le_refl _)
    rw [List.take_length] at recoverable
    obtain ⟨empty, contents⟩ := recovers_target recoverable recovered
    have whole : (transactions events).length ≤ j :=
      reached events s List.prefix_rfl ran (Nat.le_refl _)
    refine ⟨empty, j, inside, ?_, contents⟩
    intro first s₁ earlier _ _
    exact (transactions_monotone earlier).length_le.trans whole

open Crash in
/-- One operation logs one block and the machine stops right after the header has
reached the disk: the theorem applies and recovery brings the block home. -/
theorem crash_recovery_atomic_header :
    ∃ s final, (System.boot 2 30 fun _ => Bytes.zero).run (fun _ _ => false)
        [.beginOp 0, .logWrite 0 100 (Bytes.zero.putU32 0 7), .endOp 0] = .ok s ∧
      Recovers 2 30 (Writes.apply (s.machine.writes.take 2) fun _ => Bytes.zero) final ∧
      Machine.loadHead (final 2) = [] := by
  have clear : Machine.loadHead ((fun _ => Bytes.zero : Disk) 2) = [] := by
    simp [Machine.loadHead, Machine.headCount]
  have homes : LogsHome 2 30
      [.beginOp 0, .logWrite 0 100 (Bytes.zero.putU32 0 7), .endOp 0] := by
    intro op blockno data member
    simp only [List.mem_cons, Event.logWrite.injEq, reduceCtorEq, List.not_mem_nil, or_false,
      false_or] at member
    rw [member.2.1]
    exact Or.inr (by decide)
  refine ⟨_, _, rfl, .completed (fun _ _ => false) _, ?_⟩
  exact (crash_recovery_atomic (fun _ _ => false) 2 30 (fun _ => Bytes.zero) (by decide) clear _
    homes _ rfl 2 _ (.completed (fun _ _ => false) _)).1

end Xv6
