import Xv6.Lib.Runs

/-!
# Console input

`consoleintr` and `consoleread` of `console.c`, for any number of processes. A step is a
stretch under `cons.lock`: a whole call of `consoleintr`, or `consoleread` up to the point
where it sleeps or returns. A process that sleeps may go on at any time; it looks at the
buffer again and may go back to sleep. What is shown on the screen is left out, and so is
where the bytes are copied to. Calls of `consoleread` are numbered in the order in which they
are made, and `results` records what they return.
-/

namespace Xv6.Console

/-- Bytes of the input buffer, `INPUT_BUF`. -/
def inputBuf : Nat := 128

/-- A control character, `C(x)`. -/
def ctrl (letter : Char) : UInt8 := letter.toUInt8 - '@'.toUInt8

def newline : UInt8 := '\n'.toUInt8

def return_ : UInt8 := '\r'.toUInt8

/-- The delete key. -/
def delete : UInt8 := 0x7f

/-- `struct input`. -/
structure Input where
  buf : Nat → UInt8
  /-- Read index. -/
  r : UInt32
  /-- Write index. -/
  w : UInt32
  /-- Edit index. -/
  e : UInt32

/-- The place in the buffer of an index. -/
def slot (index : UInt32) : Nat := (index % UInt32.ofNat inputBuf).toNat

namespace Input

/-- The loop of kill line. It ends at the latest when the edit index is back at the write
index. -/
def killLine : Nat → Input → Input
  | 0, input => input
  | rounds + 1, input =>
    if input.e ≠ input.w ∧ input.buf (slot (input.e - 1)) ≠ newline then
      killLine rounds { input with e := input.e - 1 }
    else input

/-- Store a character and perhaps end the line. -/
def store (input : Input) (c : UInt8) : Input :=
  let input := { input with buf := Function.update input.buf (slot input.e) c, e := input.e + 1 }
  if c = newline ∨ c = ctrl 'D' ∨ input.e = input.r + UInt32.ofNat inputBuf then
    { input with w := input.e }
  else input

/-- The body of the loop of `consoleintr`. -/
def key (input : Input) (c : UInt8) : Input :=
  if c = ctrl 'P' then input
  else if c = ctrl 'U' then killLine (input.e - input.w).toNat input
  else if c = ctrl 'H' ∨ c = delete then
    if input.e ≠ input.w then { input with e := input.e - 1 } else input
  else if c ≠ 0 ∧ input.e - input.r < UInt32.ofNat inputBuf then
    input.store (if c = return_ then newline else c)
  else input

/-- `consoleintr`, with the characters that `getc` gives. -/
def consoleintr (input : Input) (typed : List UInt8) : Input := typed.foldl key input

end Input

/-- How a stretch of `consoleread` ends. -/
inductive Outcome where
  /-- It sleeps, with so many bytes still wanted and these stored. -/
  | asleep (n : Nat) (stored : List UInt8)
  /-- It returns a value, and has stored these bytes. -/
  | returned (value : Int) (stored : List UInt8)
  deriving DecidableEq

/-- The loop of `consoleread`, with the bytes stored so far. -/
def readLoop (killed : Bool) (target : Nat) : Nat → List UInt8 → Input → Outcome × Input
  | 0, stored, input => (.returned target stored, input)
  | n + 1, stored, input =>
    if input.r = input.w then
      (if killed then .returned (-1) stored else .asleep (n + 1) stored, input)
    else
      let c := input.buf (slot input.r)
      let input := { input with r := input.r + 1 }
      if c = ctrl 'D' then
        -- Save ^D for next time, to make sure caller gets a 0-byte result.
        let input := if n + 1 < target then { input with r := input.r - 1 } else input
        (.returned (target - (n + 1 : Nat)) stored, input)
      else if c = newline then (.returned (target - n) (stored ++ [c]), input)
      else readLoop killed target n (stored ++ [c]) input

/-- A call of `consoleread` that is not over. -/
structure Call where
  number : Nat
  target : Nat
  n : Nat
  stored : List UInt8
  deriving DecidableEq

/-- What a call of `consoleread` returned. -/
structure Result where
  number : Nat
  target : Nat
  value : Int
  stored : List UInt8
  deriving DecidableEq

/-- The console and its readers. -/
structure System (P : Type) where
  input : Input
  killed : P → Bool
  reading : P → Option Call
  /-- Calls made so far. -/
  calls : Nat
  results : List Result

/-- What can happen next. -/
inductive Event (P : Type) where
  | consoleintr (typed : List UInt8)
  /-- A process calls `consoleread` for a number of bytes, as an `int`. -/
  | consoleread (p : P) (n : Int)
  /-- A process that sleeps in `consoleread` goes on. -/
  | wake (p : P)
  | kill (p : P)

namespace System

variable {P : Type}

/-- The console before anything is typed. -/
def boot (buf : Nat → UInt8) : System P where
  input := { buf, r := 0, w := 0, e := 0 }
  killed := fun _ => false
  reading := fun _ => none
  calls := 0
  results := []

variable [DecidableEq P]

/-- A process takes up or leaves its call. -/
def settle (s : System P) (p : P) (call : Call) : Outcome → System P
  | .asleep n stored =>
    { s with reading := Function.update s.reading p (some { call with n, stored }) }
  | .returned value stored =>
    { s with
      reading := Function.update s.reading p none
      results := s.results ++ [⟨call.number, call.target, value, stored⟩] }

/-- A stretch of `consoleread`. -/
def proceed (s : System P) (p : P) (call : Call) : System P :=
  let (outcome, input) := readLoop (s.killed p) call.target call.n call.stored s.input
  { s with input }.settle p call outcome

/-- One step. A number of bytes that is not positive is wanted not at all. -/
def step (s : System P) : Event P → Option (System P)
  | .consoleintr typed => some { s with input := s.input.consoleintr typed }
  | .consoleread p n =>
    match s.reading p with
    | some _ => none
    | none =>
      some ({ s with calls := s.calls + 1 }.proceed p ⟨s.calls, n.toNat, n.toNat, []⟩)
  | .wake p => (s.reading p).map (s.proceed p)
  | .kill p => some { s with killed := Function.update s.killed p true }

/-- The state after a list of events. -/
def run (s : System P) (events : List (Event P)) : Option (System P) :=
  Runs.run (Runs.unfailing step) s events

end System

end Xv6.Console
