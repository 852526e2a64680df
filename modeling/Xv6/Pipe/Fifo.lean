import Xv6.Lib.Ring
import Xv6.Pipe.Model

/-!
# A pipe delivers what was stored, in order

The two counters of a pipe are 32 bits wide and `PIPESIZE` divides `2 ^ 32`, so the
pipe is a ring in the sense of `Xv6.Ring` through any number of wraps. Every step of
every process either leaves the bytes and the counters alone, or stores a byte in a
pipe that is not full, or takes one from a pipe that is not empty.
-/

namespace Xv6.Pipe

/-- The bytes in the buffer that were not read yet. -/
def contents (p : Pipe) : List UInt8 :=
  Ring.contents pipesize (2 ^ 32) p.data p.nread.toNat p.nwrite.toNat

theorem full_iff (p : Pipe) :
    p.full = true ↔ p.nwrite.toNat = (p.nread.toNat + pipesize) % 2 ^ 32 := by
  rw [full, beq_iff_eq, ← UInt32.toNat_inj, UInt32.toNat_add]
  rfl

theorem empty_iff (p : Pipe) : p.empty = true ↔ p.nread.toNat = p.nwrite.toNat := by
  rw [empty, beq_iff_eq, UInt32.toNat_inj]

/-- The slot the writing counter stands for. -/
theorem slot_toNat (count : UInt32) :
    (count % UInt32.ofNat pipesize).toNat = count.toNat % pipesize := by
  rw [UInt32.toNat_mod]
  rfl

theorem succ_toNat (count : UInt32) : (count + 1).toNat = (count.toNat + 1) % 2 ^ 32 := by
  rw [UInt32.toNat_add]
  rfl

namespace State

variable {Pid : Type} {s after : State Pid}

/-- The pipe holds what was stored in it and not delivered. -/
def Keeps (s : State Pid) : Prop :=
  Ring.Represents pipesize (2 ^ 32) s.pipe.data s.pipe.nread.toNat s.pipe.nwrite.toNat
    s.stored s.delivered

/-- The two states have the same bytes, in the pipe and outside. -/
structure SameBytes (s after : State Pid) : Prop where
  data : after.pipe.data = s.pipe.data
  nread : after.pipe.nread = s.pipe.nread
  nwrite : after.pipe.nwrite = s.pipe.nwrite
  stored : after.stored = s.stored
  delivered : after.delivered = s.delivered

/-- One byte was stored, in a pipe that was not full. -/
structure Stores (s after : State Pid) (byte : UInt8) : Prop where
  space : s.pipe.full = false
  pipe : after.pipe = s.pipe.store byte
  stored : after.stored = s.stored ++ [byte]
  delivered : after.delivered = s.delivered

/-- One byte was delivered, from a pipe that was not empty. -/
structure Delivers (s after : State Pid) : Prop where
  waiting : s.pipe.empty = false
  pipe : after.pipe = s.pipe.fetch
  stored : after.stored = s.stored
  delivered : after.delivered = s.delivered ++ [s.pipe.next]

theorem SameBytes.keeps (same : SameBytes s after) (kept : s.Keeps) :
    after.Keeps := by
  rw [Keeps, same.data, same.nread, same.nwrite, same.stored, same.delivered]
  exact kept

theorem Stores.keeps {byte : UInt8} (stores : Stores s after byte) (kept : s.Keeps) :
    after.Keeps := by
  have space : s.pipe.nwrite.toNat ≠ (s.pipe.nread.toNat + pipesize) % 2 ^ 32 := by
    intro full
    rw [← full_iff, stores.space] at full
    exact absurd full (by decide)
  have put := Ring.Represents.put kept (by decide) (by decide) byte space
  rw [Keeps, stores.pipe, stores.stored, stores.delivered]
  rw [store, slot_toNat, succ_toNat]
  exact put

theorem Delivers.keeps (delivers : Delivers s after) (kept : s.Keeps) :
    after.Keeps := by
  have waiting : s.pipe.nread.toNat ≠ s.pipe.nwrite.toNat := by
    intro empty
    rw [← empty_iff, delivers.waiting] at empty
    exact absurd empty (by decide)
  have take := Ring.Represents.take kept (by decide) (by decide) waiting
  rw [Keeps, delivers.pipe, delivers.stored, delivers.delivered]
  rw [fetch, succ_toNat, next, slot_toNat]
  exact take

variable [DecidableEq Pid]

/-- A call of `pipewrite` begins. -/
theorem pipewrite_cases {p : Pid} {addr : Nat → UInt8} {n : Int}
    (taken : s.pipewrite p addr n = some after) :
    (∃ result, s.task p = .returned result) ∧ (s.lock = none ∧ s.pipe.writeopen = true) ∧
      after = { (s.acquire p).become p (.writing addr n 0) with
        writers := insert p s.writers } := by
  unfold pipewrite at taken
  split at taken
  · rename_i result was
    split at taken
    · rename_i free
      cases taken
      exact ⟨⟨result, was⟩, free, rfl⟩
    · cases taken
  · cases taken

/-- A call of `piperead` begins. -/
theorem piperead_cases {p : Pid} {n : Int} (taken : s.piperead p n = some after) :
    (∃ result, s.task p = .returned result) ∧ (s.lock = none ∧ s.pipe.readopen = true) ∧
      after = { (s.acquire p).become p (.reading n) with readers := insert p s.readers } := by
  unfold piperead at taken
  split at taken
  · rename_i result was
    split at taken
    · rename_i free
      cases taken
      exact ⟨⟨result, was⟩, free, rfl⟩
    · cases taken
  · cases taken

/-- What the next step of a process in a call does to the bytes. -/
theorem advance_bytes {p : Pid} (taken : s.advance p = some after) :
    SameBytes s after ∨ (∃ byte, Stores s after byte) ∨ Delivers s after := by
  unfold advance at taken
  split at taken
  case h_2 addr n i _ =>
    split at taken
    · split at taken
      · cases taken
        exact .inl ⟨rfl, rfl, rfl, rfl, rfl⟩
      · rename_i space
        cases taken
        exact .inr (.inl ⟨addr i, by simpa using space, rfl, rfl, rfl⟩)
    · cases taken
      exact .inl ⟨rfl, rfl, rfl, rfl, rfl⟩
  case h_10 n i _ =>
    split at taken
    · rename_i some
      cases taken
      exact .inr (.inr ⟨some.2, rfl, rfl, rfl⟩)
    · cases taken
      exact .inl ⟨rfl, rfl, rfl, rfl, rfl⟩
  all_goals
    first
    | cases taken
      exact .inl ⟨rfl, rfl, rfl, rfl, rfl⟩
    | split at taken <;> cases taken <;> exact .inl ⟨rfl, rfl, rfl, rfl, rfl⟩
    | cases taken

theorem pipeclose_bytes {writable : Bool} (taken : s.pipeclose writable = some after) :
    SameBytes s after := by
  cases writable with
  | true =>
    rw [pipeclose] at taken
    split at taken <;> cases taken
    exact ⟨rfl, rfl, rfl, rfl, rfl⟩
  | false =>
    rw [pipeclose] at taken
    split at taken <;> cases taken
    exact ⟨rfl, rfl, rfl, rfl, rfl⟩

end State

variable {Pid : Type} [DecidableEq Pid] {s after : State Pid} {action : Action Pid}

/-- What a step does to the bytes. -/
theorem step_bytes (taken : step s action = some after) :
    s.SameBytes after ∨ (∃ byte, s.Stores after byte) ∨ s.Delivers after := by
  cases action with
  | pipewrite p addr n =>
    obtain ⟨-, -, rfl⟩ := State.pipewrite_cases taken
    exact .inl ⟨rfl, rfl, rfl, rfl, rfl⟩
  | piperead p n =>
    obtain ⟨-, -, rfl⟩ := State.piperead_cases taken
    exact .inl ⟨rfl, rfl, rfl, rfl, rfl⟩
  | advance p => exact State.advance_bytes taken
  | pipeclose writable => exact .inl (State.pipeclose_bytes taken)
  | kill p =>
    cases taken
    exact .inl ⟨rfl, rfl, rfl, rfl, rfl⟩

theorem step_keeps (kept : s.Keeps) (taken : step s action = some after) : after.Keeps := by
  rcases step_bytes taken with same | ⟨byte, stores⟩ | delivers
  · exact same.keeps kept
  · exact stores.keeps kept
  · exact delivers.keeps kept

/-- Whatever the processes do, the pipe holds what was stored and not delivered. -/
theorem run_keeps {data : Nat → UInt8} {steps : List (Action Pid)}
    (ran : run (pipealloc data) steps = some s) : s.Keeps := by
  have start : (pipealloc data : State Pid).Keeps := Ring.Represents.new data
  refine Runs.always State.Keeps ?_ start ran
  intro state after action kept taken
  exact step_keeps kept (Runs.unfailing_ok.mp taken)

/-- The outstanding count, the wrapped difference of the two counters. -/
theorem outstanding {p : Pipe} : (p.nwrite - p.nread).toNat = p.contents.length := by
  have readLt := p.nread.toNat_lt
  rw [contents, Ring.contents, List.length_map, List.length_range, UInt32.toNat_sub]
  congr 1
  omega

/-- However many processes write, read and close, and however often the counters wrap:
at most `PIPESIZE` bytes are outstanding, and the bytes delivered followed by the bytes
between the two counters are the bytes stored. -/
theorem pipe_is_fifo (data : Nat → UInt8) (steps : List (Action Pid)) (s : State Pid)
    (ran : run (pipealloc data) steps = some s) :
    (s.pipe.nwrite - s.pipe.nread).toNat ≤ pipesize ∧
      s.pipe.contents.length = (s.pipe.nwrite - s.pipe.nread).toNat ∧
      s.delivered ++ s.pipe.contents = s.stored := by
  have kept := run_keeps ran
  have bounded : s.pipe.contents.length ≤ pipesize := kept.contents_length (by decide)
  have whole : s.stored = s.delivered ++ s.pipe.contents :=
    kept.stored_eq (by decide) (by decide)
  exact ⟨outstanding ▸ bounded, outstanding.symm, whole.symm⟩

/-- One process stores two bytes and another reads the first of them. -/
def exchange : List (Action Nat) :=
  [.pipewrite 0 (fun i => UInt8.ofNat i) 2, .advance 0, .advance 0, .advance 0,
    .piperead 1 1, .advance 1, .advance 1]

theorem pipe_is_fifo_exchange :
    ∃ s, run (pipealloc fun _ => 0) exchange = some s ∧
      s.delivered = [0] ∧ s.stored = [0, 1] ∧
      (s.pipe.nwrite - s.pipe.nread).toNat ≤ pipesize ∧
      s.pipe.contents.length = (s.pipe.nwrite - s.pipe.nread).toNat ∧
      s.delivered ++ s.pipe.contents = s.stored :=
  ⟨_, rfl, rfl, rfl, pipe_is_fifo (fun _ => 0) exchange _ rfl⟩

end Xv6.Pipe
