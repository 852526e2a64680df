import Xv6.Lib.Traced
import Xv6.Log.Model

/-!
# Runs of the log and their transactions

The transactions of a run are read off its events, by `History`, without looking
at the log: a transaction is everything logged between two moments at which no
operation is in progress. The lemmas below take a run apart at its last event
and say when the calls of `log.c` succeed and what they then do.
-/

namespace Xv6

/-- The updates of one transaction, in the order in which they were logged. -/
abbrev Txn := List (Nat × Block)

/-- What the events mean, independently of the log: the operations in progress,
the updates logged since the last commit and the transactions committed so far. -/
structure History where
  active : List Nat
  pending : Txn
  committed : List Txn

namespace History

/-- Nothing has happened yet. -/
def init : History := ⟨[], [], []⟩

/-- The meaning of one event. The last operation to end commits what all
operations have logged since the previous commit. -/
def step (h : History) : Event → History
  | .beginOp op => { h with active := op :: h.active }
  | .logWrite _ blockno data => { h with pending := h.pending ++ [(blockno.toNat, data)] }
  | .endOp op =>
    if h.active.length - 1 = 0 then ⟨h.active.erase op, [], h.committed ++ [h.pending]⟩
    else { h with active := h.active.erase op }
  | .bread _ => h

end History

/-- The history of a run. -/
def history (events : List Event) : History := events.foldl History.step History.init

/-- The transactions of a run, in commit order. -/
def transactions (events : List Event) : List Txn := (history events).committed

/-- A disk with whole transactions applied in order. -/
def applyTxns (txns : List Txn) (disk : Disk) : Disk := Writes.apply txns.flatten disk

/-- A block outside the log area. -/
def Home (start size blockno : Nat) : Prop := blockno < start ∨ start + size ≤ blockno

/-- Every logged block lies outside the log area. -/
def LogsHome (start size : Nat) (events : List Event) : Prop :=
  ∀ op blockno data, Event.logWrite op blockno data ∈ events → Home start size blockno.toNat

/-! ## The calls that succeed -/

theorem record_mem (lh : List Nat) (blockno other : Nat) :
    other ∈ Log.record lh blockno ↔ other ∈ lh ∨ other = blockno := by
  unfold Log.record
  split
  · rename_i already
    constructor
    · exact Or.inl
    · rintro (member | rfl)
      · exact member
      · exact already
  · simp

theorem record_length (lh : List Nat) (blockno : Nat) :
    (Log.record lh blockno).length ≤ lh.length + 1 := by
  unfold Log.record
  split
  · exact Nat.le_succ _
  · simp

section

open Xv6.System

variable {steal : Nat → Nat → Bool} {s s' : System} {op : Nat}

theorem of_panicking {α : Type} {call : Except String α} {value : α}
    (returned : panicking call = .ok value) : call = .ok value := by
  cases call <;> cases returned
  rfl

/-- `begin_op`, when it returns. -/
theorem step_beginOp (stepped : s.step steal (.beginOp op) = .ok s') :
    op ∉ s.active ∧ s' = ⟨{ s.machine with
      log := { s.machine.log with outstanding := s.machine.log.outstanding + 1 } },
      op :: s.active⟩ := by
  simp only [step, Machine.beginOp, Log.beginOp] at stepped
  split_ifs at stepped with absent <;> cases stepped
  exact ⟨absent, rfl⟩

/-- `log_write`, when it does not panic. -/
theorem step_logWrite {blockno : UInt32} {data : Block}
    (stepped : s.step steal (.logWrite op blockno data) = .ok s') :
    op ∈ s.active ∧ s.machine.log.lh.length < logsize ∧
      s.machine.log.lh.length < s.machine.log.size - 1 ∧ s' = ⟨{ s.machine with
        log := { s.machine.log with lh := Log.record s.machine.log.lh blockno.toNat }
        cache := Function.update s.machine.cache blockno.toNat (some ⟨data, true⟩) },
        s.active⟩ := by
  simp only [step] at stepped
  split_ifs at stepped with active
  obtain ⟨machine, logged, ⟨⟩⟩ := Except.of_bind_ok stepped
  obtain ⟨log, recorded, ⟨⟩⟩ := Except.of_bind_ok (of_panicking logged)
  obtain ⟨_, tested, ⟨⟩⟩ := Except.of_bind_ok recorded
  unfold Log.logTest at tested
  split_ifs at tested
  exact ⟨active, by omega, by omega, rfl⟩

/-- `end_op`: the last operation in progress commits. -/
theorem step_endOp (stepped : s.step steal (.endOp op) = .ok s') :
    op ∈ s.active ∧ s' = ⟨if s.machine.log.outstanding - 1 = 0 then
        let m := ({ s.machine with log := { s.machine.log with
          outstanding := s.machine.log.outstanding - 1, committing := true } } :
            Machine).commit steal
        { m with log := { m.log with committing := false } }
      else { s.machine with
        log := { s.machine.log with outstanding := s.machine.log.outstanding - 1 } },
      s.active.erase op⟩ := by
  simp only [step] at stepped
  split_ifs at stepped with active
  obtain ⟨machine, ended, ⟨⟩⟩ := Except.of_bind_ok stepped
  have ended := of_panicking ended
  simp only [Machine.endOp, Log.endOp] at ended
  split_ifs at ended with committing last
  · cases ended
  · cases ended
    rw [if_pos last]
    exact ⟨active, rfl⟩
  · cases ended
    rw [if_neg last]
    exact ⟨active, rfl⟩

end

/-! ## Taking a run apart -/

section
variable (steal : Nat → Nat → Bool)

theorem run_append (s : System) (first second : List Event) :
    s.run steal (first ++ second) = (s.run steal first).bind fun s' => s'.run steal second := by
  induction first generalizing s with
  | nil => rfl
  | cons event rest ih =>
    simp only [List.cons_append, System.run, bind, Except.bind]
    cases s.step steal event with
    | error stop => rfl
    | ok s' => exact ih s'

/-- The last event of a run, taken apart. -/
theorem run_snoc {s s' : System} {events : List Event} {event : Event}
    (ran : s.run steal (events ++ [event]) = .ok s') :
    ∃ middle, s.run steal events = .ok middle ∧ middle.step steal event = .ok s' := by
  rw [run_append] at ran
  obtain ⟨middle, first, ran⟩ := Except.of_bind_ok ran
  obtain ⟨last, stepped, ⟨⟩⟩ := Except.of_bind_ok ran
  exact ⟨middle, first, stepped⟩

end

theorem history_snoc (events : List Event) (event : Event) :
    history (events ++ [event]) = (history events).step event := by
  simp [history, List.foldl_append]

theorem step_committed (h : History) (event : Event) :
    h.committed <+: (h.step event).committed := by
  cases event with
  | endOp op =>
    simp only [History.step]
    split
    · exact List.prefix_append _ _
    · exact List.prefix_rfl
  | _ => exact List.prefix_rfl

/-- A longer run has committed at least the transactions of a shorter one. -/
theorem transactions_monotone {first events : List Event} (earlier : first <+: events) :
    transactions first <+: transactions events := by
  obtain ⟨rest, rfl⟩ := earlier
  induction rest using List.reverseRecOn with
  | nil => simp
  | append_singleton rest event ih =>
    refine ih.trans ?_
    rw [← List.append_assoc]
    change (history (first ++ rest)).committed <+: (history (first ++ rest ++ [event])).committed
    rw [history_snoc]
    exact step_committed _ event

end Xv6
