import Xv6.Console.Model
import Xv6.Pipe.Sleepers
import Xv6.Syscall.Model

/-!
# Calls in a world

The model of the system calls says what `piperead`, `pipewrite` and `consoleread` do to the
buffer of their caller, in a world that answers their waits. The models of the pipe and of
the console say what they do to the bytes that processes share, and how the waits end. Here
the two are one: every call that returns in a run of the pipe or of the console is the
system call in some world. It returns the same value, and the bytes of the buffer that it
touches are those that it passes through the pipe or takes off the console.
-/

namespace Xv6

open List Function

namespace Syscall

/-- The stores of some bytes to an address on. -/
def deposits (dst : UInt32) (bytes : List UInt8) : List Access :=
  stores dst bytes.length fun k => bytes.getD k 0

theorem deposits_concat (dst : UInt32) (bytes : List UInt8) (c : UInt8) :
    deposits dst (bytes ++ [c]) =
      deposits dst bytes ++ [.store (dst + UInt32.ofNat bytes.length) c] := by
  have early : ∀ k ∈ range bytes.length, (bytes ++ [c]).getD k 0 = bytes.getD k 0 := by
    intro k inside
    simp only [getD_eq_getElem?_getD, getElem?_append_left (mem_range.mp inside)]
  simp only [deposits, stores, length_append, length_singleton, range_succ, map_append, map_cons,
    map_nil]
  congr 1
  · exact map_congr_left fun k inside => by rw [early k inside]
  · simp

end Syscall

open Syscall

/-! ## Pipes -/

namespace Pipe

variable {Pid : Type} {s after : State Pid} {p : Pid}

/-- A call of `pipewrite` or `piperead`. -/
inductive Request where
  | write (buffer : Nat → UInt8) (n : Int)
  | read (n : Int)

namespace Request

/-- How it begins. -/
def action (p : Pid) : Request → Action Pid
  | write buffer n => .pipewrite p buffer n
  | read n => .piperead p n

/-- The number of bytes it asks for. -/
def count : Request → Int
  | write _ n => n
  | read n => n

/-- The bytes that have passed the end of the pipe that it is on. -/
def stream (s : State Pid) : Request → List UInt8
  | write _ _ => s.stored
  | read _ => s.delivered

/-- A point of the call, with the bytes that it has passed. -/
inductive At : Request → Task → List UInt8 → Prop
  | writing {buffer n i} (few : i ≤ n.toNat) :
    At (.write buffer n) (.writing buffer n i) ((range i).map buffer)
  | blocked {buffer n} {i : Nat} (less : (i : Int) < n) :
    At (.write buffer n) (.blocked buffer n i) ((range i).map buffer)
  | stalling {buffer n} {i : Nat} (less : (i : Int) < n) :
    At (.write buffer n) (.stalling buffer n i) ((range i).map buffer)
  | stalled {buffer n} {i : Nat} (less : (i : Int) < n) :
    At (.write buffer n) (.stalled buffer n i) ((range i).map buffer)
  | wrote {buffer n} : At (.write buffer n) (.returned n) ((range n.toNat).map buffer)
  | failed {buffer n} {i : Nat} (less : (i : Int) < n) :
    At (.write buffer n) (.returned (-1)) ((range i).map buffer)
  | reading {n} : At (.read n) (.reading n) []
  | starved {n} : At (.read n) (.starved n) []
  | drowsy {n} : At (.read n) (.drowsy n) []
  | parched {n} : At (.read n) (.parched n) []
  | copying {n} {bytes : List UInt8} (few : bytes.length ≤ n.toNat) :
    At (.read n) (.copying n bytes.length) bytes
  | copied {n} {bytes : List UInt8} (few : bytes.length ≤ n.toNat) :
    At (.read n) (.returned bytes.length) bytes
  | killed {n} : At (.read n) (.returned (-1)) []

/-- The system call. -/
def call (world : World) (addr n : UInt32) : Request → Kernel
  | write _ _ => Syscall.pipewrite world addr n
  | read _ => Syscall.piperead world addr n

variable {request : Request} {bytes : List UInt8} {value : Int}

variable [DecidableEq Pid]

/-- The process gets to a point. -/
theorem At.moves {next : Task} (point : request.At next bytes) :
    request.At (update s.task p next p) bytes := (update_self p next s.task).symm ▸ point

/-- The call goes on by itself: it passes a byte or none. -/
theorem At.advance (point : request.At (s.task p) bytes) (taken : s.advance p = some after) :
    request.stream after = request.stream s ∧ request.At (after.task p) bytes ∨
      ∃ byte, request.stream after = request.stream s ++ [byte] ∧
        request.At (after.task p) (bytes ++ [byte]) := by
  unfold State.advance at taken
  generalize s.task p = task at point taken
  cases point with
  | wrote | failed | copied | killed => cases taken
  | @writing buffer n i few =>
    dsimp only at taken
    split at taken
    · rename_i less
      split at taken
      · cases taken
        exact .inl ⟨rfl, .moves (.blocked less)⟩
      · cases taken
        refine .inr ⟨buffer i, rfl, ?_⟩
        rw [← map_singleton, ← map_append, ← range_succ]
        exact .moves (.writing (by omega))
    · cases taken
      obtain rfl : i = n.toNat := by omega
      exact .inl ⟨rfl, .moves .wrote⟩
  | blocked less =>
    dsimp only at taken
    split at taken
    · cases taken
      exact .inl ⟨rfl, .moves (.failed less)⟩
    · cases taken
      exact .inl ⟨rfl, .moves (.stalling less)⟩
  | stalling less =>
    cases taken
    exact .inl ⟨rfl, .moves (.stalled less)⟩
  | stalled less =>
    dsimp only at taken
    split at taken
    · cases taken
      exact .inl ⟨rfl, .moves (.writing (by omega))⟩
    · cases taken
  | @reading n =>
    dsimp only at taken
    split at taken
    · cases taken
      exact .inl ⟨rfl, .moves .starved⟩
    · cases taken
      exact .inl ⟨rfl, .moves (.copying (show [].length ≤ n.toNat from Nat.zero_le _))⟩
  | starved =>
    dsimp only at taken
    split at taken
    · cases taken
      exact .inl ⟨rfl, .moves .killed⟩
    · cases taken
      exact .inl ⟨rfl, .moves .drowsy⟩
  | drowsy =>
    cases taken
    exact .inl ⟨rfl, .moves .parched⟩
  | parched =>
    dsimp only at taken
    split at taken
    · cases taken
      exact .inl ⟨rfl, .moves .reading⟩
    · cases taken
  | @copying n bytes few =>
    dsimp only at taken
    split at taken
    · rename_i more
      cases taken
      have longer : (bytes ++ [s.pipe.next]).length = bytes.length + 1 := length_append
      exact .inr ⟨s.pipe.next, rfl, longer ▸ .moves (.copying (by omega))⟩
    · cases taken
      exact .inl ⟨rfl, .moves (.copied few)⟩

/-- A step that is no call of the process leaves it where it is, or is the next of its call. -/
theorem step_task {action : Action Pid} (apart : ∀ other : Request, action ≠ other.action p)
    (taken : step s action = some after) : after.task p = s.task p ∨ s.advance p = some after := by
  by_cases mine : action.mover = some p
  · cases action with
    | pipewrite q buffer n =>
      cases mine
      exact absurd rfl (apart (.write buffer n))
    | piperead q n =>
      cases mine
      exact absurd rfl (apart (.read n))
    | advance q =>
      cases mine
      exact .inr taken
    | _ => cases mine
  · exact .inl ((step_leaves taken).1 p mine)

/-- The streams only grow. -/
theorem stream_grows {action : Action Pid} (taken : step s action = some after) :
    ∃ more, request.stream after = request.stream s ++ more := by
  rcases step_bytes taken with same | ⟨byte, stores⟩ | delivers
  · exact ⟨[], by cases request <;> simp [stream, same.stored, same.delivered]⟩
  · cases request with
    | write buffer n => exact ⟨[byte], stores.stored⟩
    | read n => exact ⟨[], by simp [stream, stores.delivered]⟩
  · cases request with
    | write buffer n => exact ⟨[], by simp [stream, delivers.stored]⟩
    | read n => exact ⟨[s.pipe.next], delivers.delivered⟩

/-- The call begins. -/
theorem At.begin (taken : step s (request.action p) = some after) :
    request.At (after.task p) [] ∧ request.stream after = request.stream s := by
  cases request with
  | write buffer n =>
    obtain ⟨-, -, rfl⟩ := State.pipewrite_cases taken
    exact ⟨.moves (.writing (Nat.zero_le n.toNat)), rfl⟩
  | read n =>
    obtain ⟨-, -, rfl⟩ := State.piperead_cases taken
    exact ⟨.moves .reading, rfl⟩

/-- What a step of anybody keeps: the bytes that the call has passed are among those that
passed since it began. -/
theorem At.step {action : Action Pid} {base more : List UInt8}
    (point : request.At (s.task p) bytes) (grown : request.stream s = base ++ more)
    (among : bytes <+ more) (apart : ∀ other : Request, action ≠ other.action p)
    (taken : step s action = some after) : ∃ bytes more, request.At (after.task p) bytes ∧
      request.stream after = base ++ more ∧ bytes <+ more := by
  rcases step_task apart taken with same | next
  · obtain ⟨later, longer⟩ : ∃ later, request.stream after = request.stream s ++ later :=
      stream_grows taken
    rw [grown, append_assoc] at longer
    exact ⟨bytes, more ++ later, same ▸ point, longer, among.trans (sublist_append_left ..)⟩
  · rcases point.advance next with ⟨same, point⟩ | ⟨byte, longer, point⟩
    · exact ⟨bytes, more, point, same.trans grown, among⟩
    · rw [grown, append_assoc] at longer
      exact ⟨bytes ++ [byte], more ++ [byte], point, longer, among.append (Sublist.refl _)⟩

end Request

end Pipe

/-! ## The console -/

namespace Console

/-- A call that has stored some bytes and wants more: the system call has come that far in
every world that gave it these characters. -/
def Resumes (target n : Nat) (stored : List UInt8) : Prop :=
  stored.length + n = target ∧ ∀ (world : World) (dst : UInt32),
    (∀ i < stored.length, world.typed i = stored[i]?) → consolereadLoop world dst 0 target =
      .after (deposits dst stored) (consolereadLoop world dst stored.length n)

/-- A call that has returned: so does the system call, in a world that gave it what it got. -/
def Returns (target : Nat) (value : Int) (stored : List UInt8) : Prop :=
  ∃ got : List UInt8, ∀ (world : World) (dst : UInt32), (∀ i, world.typed i = got[i]?) →
    consolereadLoop world dst 0 target = ⟨deposits dst stored, .ok value⟩

/-- The stretch that ends like this is part of the system call. -/
def Outcome.InWorld (target : Nat) : Outcome → Prop
  | .asleep n stored => Resumes target n stored
  | .returned value stored => Returns target value stored

variable {target n : Nat} {stored : List UInt8} {c : UInt8}

/-- One more character. -/
theorem Resumes.next (waits : Resumes target (n + 1) stored) (more : c ≠ ctrl 'D') {world : World}
    {dst : UInt32} (typed : ∀ i < (stored ++ [c]).length, world.typed i = (stored ++ [c])[i]?) :
    consolereadLoop world dst 0 target = .after (deposits dst (stored ++ [c]))
      (if c = newline then .done (stored.length + 1)
        else consolereadLoop world dst (stored.length + 1) n) := by
  have early : ∀ i < stored.length, world.typed i = stored[i]? := by
    intro i inside
    rw [typed i (by simp; omega), getElem?_append_left inside]
  have here : world.typed stored.length = some c := by
    rw [typed _ (by simp), getElem?_concat_length]
  rw [waits.2 world dst early, consolereadLoop, here]
  dsimp only
  rw [if_neg (show ¬ c = 4 from more), deposits_concat]
  simp only [Traced.after, append_assoc]
  rfl

/-- A stretch of `consoleread` goes on with the system call. -/
theorem readLoop_inWorld (killed : Bool) (n : Nat) : ∀ {stored : List UInt8} {input : Input},
    Resumes target n stored → (readLoop killed target n stored input).1.InWorld target := by
  induction n with
  | zero =>
    intro stored input waits
    refine ⟨stored, fun world dst typed => ?_⟩
    rw [waits.2 world dst fun i _ => typed i, consolereadLoop, Traced.after_done, ← waits.1]
    rfl
  | succ n ih =>
    intro stored input waits
    have length := waits.1
    rw [readLoop]
    split
    · cases killed with
      | false => exact waits
      | true =>
        refine ⟨stored, fun world dst typed => ?_⟩
        rw [waits.2 world dst fun i _ => typed i, consolereadLoop, typed, getElem?_eq_none le_rfl]
        exact Traced.after_done ..
    · dsimp only
      generalize input.buf (slot input.r) = c
      split
      · -- The mark ends the call, whether it is left for the next one or not.
        rename_i mark
        refine ⟨stored ++ [c], fun world dst typed => ?_⟩
        rw [waits.2 world dst fun i inside => by rw [typed, getElem?_append_left inside],
          consolereadLoop, typed, getElem?_concat_length]
        dsimp only
        rw [if_pos (show c = 4 from mark), Traced.after_done]
        congr 2
        omega
      · rename_i more
        split
        · rename_i ends
          refine ⟨stored ++ [c], fun world dst typed => ?_⟩
          rw [waits.next more fun i _ => typed i, if_pos ends, Traced.after_done]
          congr 2
          omega
        · rename_i plain
          refine ih ⟨by simp; omega, fun world dst typed => ?_⟩
          rw [waits.next more typed, if_neg plain, length_append]
          rfl

/-- Every call that waits or has returned is part of a system call. -/
structure System.InWorld {P : Type} (s : System P) : Prop where
  reading : ∀ p call, s.reading p = some call → Resumes call.target call.n call.stored
  results : ∀ result ∈ s.results, Returns result.target result.value result.stored

variable {P : Type} [DecidableEq P] {s after : System P}

theorem System.InWorld.proceed (inWorld : s.InWorld) {call : Call}
    (waits : Resumes call.target call.n call.stored) (p : P) : (s.proceed p call).InWorld := by
  have stretch : (readLoop (s.killed p) call.target call.n call.stored s.input).1.InWorld _ :=
    readLoop_inWorld _ _ waits
  rw [System.proceed]
  generalize readLoop (s.killed p) call.target call.n call.stored s.input = ended at stretch ⊢
  obtain ⟨outcome, input⟩ := ended
  cases outcome with
  | asleep n stored =>
    refine ⟨fun q other isCall => ?_, inWorld.results⟩
    by_cases same : q = p
    · rw [same] at isCall
      simp only [System.settle, update_self, Option.some.injEq] at isCall
      exact isCall ▸ stretch
    · exact inWorld.reading q other ((update_of_ne same ..).symm.trans isCall)
  | returned value stored =>
    refine ⟨fun q other isCall => ?_, fun result member => ?_⟩
    · by_cases same : q = p
      · rw [same] at isCall
        simp [System.settle] at isCall
      · exact inWorld.reading q other ((update_of_ne same ..).symm.trans isCall)
    · rcases mem_append.mp member with before | new
      · exact inWorld.results result before
      · rw [mem_singleton.mp new]
        exact stretch

theorem System.InWorld.step {event : Event P} (inWorld : s.InWorld)
    (stepped : s.step event = some after) : after.InWorld := by
  cases event with
  | consoleintr typed =>
    cases stepped
    exact ⟨inWorld.reading, inWorld.results⟩
  | kill p =>
    cases stepped
    exact ⟨inWorld.reading, inWorld.results⟩
  | consoleread p n =>
    rw [System.step] at stepped
    split at stepped
    · cases stepped
    · cases stepped
      have counted : ({ s with calls := s.calls + 1 } : System P).InWorld :=
        ⟨inWorld.reading, inWorld.results⟩
      exact counted.proceed ⟨Nat.zero_add _, fun _ _ _ => rfl⟩ p
  | wake p =>
    obtain ⟨call, isCall, rfl⟩ := Option.map_eq_some_iff.mp stepped
    exact inWorld.proceed (inWorld.reading p call isCall) p

/-- Every call of `consoleread` that has returned in a run is the system call in some world,
for a buffer at any address: the value and the bytes it stores are the same. -/
theorem consoleread_in_world {buf : Nat → UInt8} {events : List (Event P)}
    (ran : System.run (.boot buf) events = some s) {result : Result}
    (member : result ∈ s.results) (world : World) : ∃ got : List UInt8, ∀ dst n,
      (signed n).toNat = result.target →
        Syscall.consoleread { world with typed := fun i => got[i]? } dst n =
          ⟨deposits dst result.stored, .ok result.value⟩ := by
  have start : (System.boot buf : System P).InWorld :=
    ⟨by simp [System.boot], by simp [System.boot]⟩
  have inWorld : s.InWorld := Runs.always System.InWorld
    (fun inWorld taken => inWorld.step (Runs.unfailing_ok.mp taken)) start ran
  obtain ⟨got, returns⟩ := inWorld.results result member
  refine ⟨got, fun dst n wanted => ?_⟩
  rw [Syscall.consoleread, wanted]
  exact returns _ dst fun _ => rfl

theorem consoleread_in_world_line : ∃ s : System Bool, ∃ result ∈ s.results,
    System.run (.boot fun _ => 0) [.consoleintr [newline], .consoleread true 5] = some s ∧
      ∀ world : World, ∃ got : List UInt8, ∀ dst,
        Syscall.consoleread { world with typed := fun i => got[i]? } dst 5 =
          ⟨deposits dst result.stored, .ok result.value⟩ := by
  obtain ⟨s, ran, returned⟩ : ∃ s : System Bool, System.run (.boot fun _ => 0)
      [.consoleintr [newline], .consoleread true 5] = some s ∧
      ⟨0, 5, 1, [newline]⟩ ∈ s.results := ⟨_, rfl, mem_singleton_self _⟩
  refine ⟨s, _, returned, ran, fun world => ?_⟩
  obtain ⟨got, called⟩ := consoleread_in_world ran returned world
  exact ⟨got, fun dst => called dst 5 rfl⟩

end Console

end Xv6
