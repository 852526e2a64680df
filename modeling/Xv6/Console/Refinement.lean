import Xv6.Console.Discipline
import Xv6.Lib.Ring

/-!
# The buffer keeps the line discipline

The three indices of the console buffer are 32 bits wide and `INPUT_BUF` divides `2 ^ 32`. So
the buffer is a ring in the sense of `Xv6.Ring`, in which the stream and the line being typed
are stored and from which calls take, through any number of wraps: every step of the console
is one of the line discipline.
-/

namespace Xv6.Console

open List Discipline

@[simp] theorem inputBuf_eq : inputBuf = 128 := rfl

theorem slot_eq (index : UInt32) : slot index = index.toNat % inputBuf := by
  rw [slot, UInt32.toNat_mod]
  rfl

theorem succ_toNat (index : UInt32) : (index + 1).toNat = (index.toNat + 1) % 2 ^ 32 := by
  rw [UInt32.toNat_add]
  rfl

theorem pred_toNat (index : UInt32) : (index - 1).toNat = (index.toNat + 2 ^ 32 - 1) % 2 ^ 32 := by
  rw [UInt32.toNat_sub]
  have one : (1 : UInt32).toNat = 1 := rfl
  congr 1
  omega

/-- How far one index is ahead of another. -/
theorem ahead_toNat (index behind : UInt32) :
    (index - behind).toNat = (index.toNat + 2 ^ 32 - behind.toNat) % 2 ^ 32 := by
  rw [UInt32.toNat_sub]
  have small := behind.toNat_lt
  congr 1
  omega

namespace Input

/-- The buffer holds the stream and the line, of which a beginning was taken. -/
structure Holds (input : Input) (committed line taken : List UInt8) : Prop where
  ring : Ring.Represents inputBuf (2 ^ 32) input.buf input.r.toNat input.e.toNat
    (committed ++ line) taken
  write : input.w.toNat = committed.length % 2 ^ 32
  order : taken <+: committed
  unended : newline ∉ line

namespace Holds

variable {input : Input} {committed line taken : List UInt8}

section

variable (holds : input.Holds committed line taken)

include holds

theorem edit_eq :
    input.e.toNat = (committed.length + line.length) % 2 ^ 32 := by
  rw [holds.ring.written, length_append]

theorem short :
    committed.length + line.length ≤ taken.length + 128 := by
  have room := holds.ring.room
  rw [length_append, inputBuf_eq] at room
  exact room

/-- The line is what is between the write index and the edit index. -/
theorem line_length : (input.e - input.w).toNat = line.length := by
  have short := holds.short
  have order := holds.order.length_le
  rw [ahead_toNat, holds.edit_eq, holds.write]
  exact Ring.gap_mod _ _ (by omega)

theorem edited_iff : input.e ≠ input.w ↔ line ≠ [] := by
  have length := holds.line_length
  rw [ne_eq, ne_eq, not_iff_not, ← length_eq_zero_iff, ← length, ← UInt32.toNat_inj]
  constructor
  · intro same
    have equal : input.e = input.w := UInt32.toNat_inj.mp same
    rw [equal, UInt32.sub_self]
    rfl
  · intro none
    rw [none] at length
    rw [holds.edit_eq, holds.write, ← length, Nat.add_zero]

/-- The last character of the line is taken back. -/
theorem back (some : line ≠ []) :
    { input with e := input.e - 1 }.Holds committed line.dropLast taken := by
  have split : line.dropLast ++ [line.getLast some] = line := dropLast_append_getLast some
  have ring := holds.ring
  rw [← split, ← append_assoc] at ring
  refine ⟨?_, holds.write, holds.order, fun mem => holds.unended (mem_of_mem_dropLast mem)⟩
  rw [pred_toNat]
  refine ring.unput (by decide) ?_
  have order := holds.order.length_le
  rw [length_append]
  omega

/-- The character before the edit index is the last of the line, and no newline. -/
theorem last_ne (some : line ≠ []) :
    input.buf (slot (input.e - 1)) ≠ newline := by
  have order := holds.order.length_le
  have held := holds.ring.held (committed.length + line.dropLast.length) (by omega) (by
    have pos := length_pos_iff.mpr some
    rw [length_append, length_dropLast]
    omega)
  have isSlot : slot (input.e - 1) = (committed.length + line.dropLast.length) % inputBuf := by
    have after := (holds.back some).edit_eq
    rw [slot_eq, after, Nat.mod_mod_of_dvd _ (by decide)]
  rw [isSlot]
  intro isNewline
  rw [isNewline] at held
  have mem : newline ∈ line := by
    rw [List.getElem?_append_right (by omega), Nat.add_sub_cancel_left] at held
    exact mem_of_getElem? held
  exact holds.unended mem

end

/-- Kill line takes the whole line back. -/
theorem killLine {line : List UInt8} : ∀ {input : Input}, input.Holds committed line taken →
    (Input.killLine line.length input).Holds committed [] taken := by
  induction line using reverseRecOn with
  | nil => exact fun holds => holds
  | append_singleton line c ih =>
    intro input holds
    have some : line ++ [c] ≠ [] := by simp
    have back := holds.back some
    rw [dropLast_concat] at back
    rw [length_append, length_singleton, Input.killLine,
      if_pos ⟨holds.edited_iff.mpr some, holds.last_ne some⟩]
    exact ih back

/-- How much is in the buffer. -/
theorem used_eq (holds : input.Holds committed line taken) :
    (input.e - input.r).toNat = committed.length + line.length - taken.length := by
  rw [ahead_toNat, holds.ring.distance (by decide), length_append]

/-- A character goes into the buffer, where there is room. -/
theorem store (holds : input.Holds committed line taken) (c : UInt8)
    (space : committed.length + line.length < taken.length + 128) :
    if c = newline ∨ c = ctrl 'D' ∨ committed.length + line.length + 1 = taken.length + 128 then
      (input.store c).Holds (committed ++ (line ++ [c])) [] taken
    else (input.store c).Holds committed (line ++ [c]) taken := by
  have notFull : input.e.toNat ≠ (input.r.toNat + inputBuf) % 2 ^ 32 := by
    intro full
    have length := (holds.ring.full_iff (by decide)).mp full
    rw [length_append, inputBuf_eq] at length
    omega
  have ring := holds.ring.put (by decide) (by decide) c notFull
  rw [← slot_eq, ← succ_toNat, append_assoc] at ring
  have isFull : input.e + 1 = input.r + UInt32.ofNat inputBuf ↔
      committed.length + line.length + 1 = taken.length + 128 := by
    have full := ring.full_iff (by decide)
    simp only [length_append, length_singleton, inputBuf_eq] at full
    rw [← UInt32.toNat_inj, UInt32.toNat_add, Nat.add_assoc]
    exact full
  rw [Input.store]
  simp only [isFull]
  split
  · rename_i ends
    refine ⟨?_, ?_, holds.order.trans (prefix_append ..), not_mem_nil⟩
    · rw [append_nil]
      exact ring
    · exact ring.written
  · rename_i goesOn
    refine ⟨ring, holds.write, holds.order, ?_⟩
    intro mem
    rcases mem_append.mp mem with old | new
    · exact holds.unended old
    · exact goesOn (Or.inl (mem_singleton.mp new).symm)

end Holds

end Input

variable {P : Type} {d : Discipline P} {input : Input}

/-- The buffer holds what the line discipline says. -/
def Input.Carries (input : Input) (d : Discipline P) : Prop :=
  input.Holds d.committed d.line (d.taken.map Prod.snd)

theorem Input.Carries.full_iff (carries : input.Carries d) :
    d.full = true ↔ ¬ input.e - input.r < UInt32.ofNat inputBuf := by
  have used := Input.Holds.used_eq carries
  have order := carries.order.length_le
  have size : (UInt32.ofNat inputBuf).toNat = 128 := rfl
  rw [UInt32.lt_iff_toNat_lt, used, size, Discipline.full, decide_eq_true_eq, unread]
  rw [length_map] at order ⊢
  rw [length_drop, inputBuf_eq]
  omega

/-- A key does to the buffer what it does to the line discipline. -/
theorem Input.Carries.key (carries : input.Carries d) (c : UInt8) :
    (input.key c).Carries (d.key c) := by
  have full := carries.full_iff
  rw [Input.key, Discipline.key]
  split
  · exact carries
  · split
    · rw [carries.line_length]
      exact carries.killLine
    · split
      · split
        · rename_i edited
          exact carries.back (carries.edited_iff.mp edited)
        · rename_i unedited
          have none : d.line = [] := by
            by_contra some
            exact unedited (carries.edited_iff.mpr some)
          rw [none, dropLast_nil, ← none]
          exact carries
      · by_cases accepted : c ≠ 0 ∧ input.e - input.r < UInt32.ofNat inputBuf
        · have notFull : ¬ d.full = true := by
            rw [full]
            exact not_not_intro accepted.2
          rw [if_pos accepted, if_neg (not_or.mpr ⟨accepted.1, notFull⟩)]
          generalize (if c = return_ then newline else c) = typed
          have order := carries.order.length_le
          have space : d.committed.length + d.line.length < (d.taken.map Prod.snd).length + 128 := by
            rw [Discipline.full, decide_eq_true_eq, unread, length_drop,
              inputBuf_eq] at notFull
            rw [length_map] at order ⊢
            omega
          have stored := Input.Holds.store carries typed space
          have isFull : Discipline.full { d with line := d.line ++ [typed] } = true ↔
              d.committed.length + d.line.length + 1 = (d.taken.map Prod.snd).length + 128 := by
            rw [length_map] at order space
            simp only [Discipline.full, decide_eq_true_eq, unread, length_drop,
              length_append, length_singleton, length_map, inputBuf_eq]
            omega
          rw [extend]
          simp only [isFull]
          split
          · rename_i ends
            rw [if_pos ends] at stored
            exact stored
          · rename_i goesOn
            rw [if_neg goesOn] at stored
            exact stored
        · have refused : c = 0 ∨ d.full = true := by
            rw [full]
            by_contra neither
            exact accepted ⟨fun isZero => neither (Or.inl isZero),
              not_not.mp fun tooFar => neither (Or.inr tooFar)⟩
          rw [if_neg accepted, if_pos refused]
          exact carries

theorem Input.Carries.keys (typed : List UInt8) : ∀ {input : Input} {d : Discipline P},
    input.Carries d → (input.consoleintr typed).Carries (typed.foldl Discipline.key d) := by
  induction typed with
  | nil => exact fun carries => carries
  | cons c rest ih => exact fun carries => ih (carries.key c)

/-! ## Reading -/

/-- The stream that is not taken begins with the character at the read index. -/
theorem Input.Holds.next {committed line taken : List UInt8}
    (holds : input.Holds committed line taken) (waiting : input.r ≠ input.w) :
    ∃ rest, committed.drop taken.length = input.buf (slot input.r) :: rest ∧
      { input with r := input.r + 1 }.Holds committed line
        (taken ++ [input.buf (slot input.r)]) := by
  have short := holds.short
  have order := holds.order.length_le
  have behind : taken.length < committed.length := by
    refine Nat.lt_of_le_of_ne order fun same => waiting ?_
    rw [← UInt32.toNat_inj, holds.ring.read, holds.write, same]
  have isSlot : slot input.r = taken.length % inputBuf := by
    rw [slot_eq, holds.ring.read, Nat.mod_mod_of_dvd _ (by decide)]
  have isNext : committed[taken.length]? = some (input.buf (slot input.r)) := by
    have held := holds.ring.held taken.length (Nat.le_refl _) (by rw [length_append]; omega)
    rw [List.getElem?_append_left behind] at held
    rw [isSlot]
    exact held
  obtain ⟨inside, isByte⟩ := List.getElem?_eq_some_iff.mp isNext
  have split := drop_eq_getElem_cons behind
  rw [isByte] at split
  refine ⟨committed.drop (taken.length + 1), split, ?_, holds.write, ?_, holds.unended⟩
  · have notEmpty : input.r.toNat ≠ input.e.toNat := by
      intro empty
      have same := (holds.ring.empty_iff (by decide)).mp empty
      rw [length_append] at same
      omega
    have take := holds.ring.take (by decide) (by decide) notEmpty
    rw [← slot_eq, ← succ_toNat] at take
    exact take
  · have whole := prefix_iff_eq_append.mp holds.order
    rw [split] at whole
    exact ⟨_, by rw [append_assoc]; exact whole⟩

/-- The indices agree exactly when everything committed was taken. -/
theorem Input.Holds.caughtUp {committed line taken : List UInt8}
    (holds : input.Holds committed line taken) (same : input.r = input.w) :
    committed.drop taken.length = [] := by
  have short := holds.short
  have order := holds.order.length_le
  have gap : ((taken.length + (committed.length - taken.length)) % 2 ^ 32 + 2 ^ 32 -
      taken.length % 2 ^ 32) % 2 ^ 32 = committed.length - taken.length :=
    Ring.gap_mod _ _ (by omega)
  have total : taken.length + (committed.length - taken.length) = committed.length := by omega
  rw [total, ← holds.write, ← same, holds.ring.read, Nat.add_sub_cancel_left, Nat.mod_self] at gap
  rw [drop_eq_nil_iff]
  omega

/-- A stretch of `consoleread` takes what the line discipline takes. -/
theorem readLoop_take (killed : Bool) (target : Nat) {committed line : List UInt8} (n : Nat) :
    ∀ {stored taken : List UInt8} {input : Input}, stored.length + n = target →
      input.Holds committed line taken →
      (readLoop killed target n stored input).1 =
          (Discipline.take killed n stored (committed.drop taken.length)).1 ∧
        (readLoop killed target n stored input).2.Holds committed line
          (taken ++ (Discipline.take killed n stored (committed.drop taken.length)).2) := by
  induction n with
  | zero =>
    intro stored taken input count holds
    rw [readLoop, Discipline.take, append_nil]
    refine ⟨?_, holds⟩
    rw [← count, Nat.add_zero]
  | succ n ih =>
    intro stored taken input count holds
    rw [readLoop]
    by_cases empty : input.r = input.w
    · rw [if_pos empty, holds.caughtUp empty, Discipline.take, append_nil]
      exact ⟨rfl, holds⟩
    · rw [if_neg empty]
      obtain ⟨rest, split, after⟩ := holds.next empty
      have later : committed.drop (taken ++ [input.buf (slot input.r)]).length = rest := by
        rw [length_append, length_singleton, ← drop_drop, split, drop_one,
          tail_cons]
      rw [split]
      generalize input.buf (slot input.r) = c at *
      simp only [Discipline.take]
      by_cases isEof : c = ctrl 'D'
      · rw [if_pos isEof, if_pos isEof]
        have value : ((target : Int) - (n + 1 : Nat)) = stored.length := by omega
        refine ⟨by rw [value], ?_⟩
        by_cases fresh : stored = []
        · rw [fresh, length_nil, Nat.zero_add] at count
          rw [if_neg (by omega), if_pos fresh]
          exact after
        · have some := length_pos_iff.mpr fresh
          rw [if_pos (by omega), if_neg fresh, append_nil]
          have same : input.r + 1 - 1 = input.r := by simp
          simp only [same]
          exact holds
      · rw [if_neg isEof, if_neg isEof]
        by_cases isLine : c = newline
        · rw [if_pos isLine, if_pos isLine]
          refine ⟨?_, after⟩
          have value : ((target : Int) - n) = (stored ++ [c]).length := by
            rw [length_append, length_singleton]
            omega
          rw [value]
        · rw [if_neg isLine, if_neg isLine]
          have next : (stored ++ [c]).length + n = target := by
            rw [length_append, length_singleton]
            omega
          have ih := ih next after
          rw [later, append_assoc, singleton_append] at ih
          exact ih

/-- A stretch ends asleep only if its process is not killed, and returns -1 only if its process
is killed, wants more and has nothing left to take. -/
def Outcome.Waits (killed : Bool) (target : Nat) (left : Input) : Outcome → Prop
  | .asleep _ _ => killed = false
  | .returned value stored =>
    value = -1 → killed = true ∧ left.r = left.w ∧ stored.length < target

theorem readLoop_waits (killed : Bool) (target n : Nat) :
    ∀ (stored : List UInt8) (input : Input), stored.length + n = target →
      (readLoop killed target n stored input).1.Waits killed target
        (readLoop killed target n stored input).2 := by
  induction n with
  | zero =>
    intro stored input count value
    omega
  | succ n ih =>
    intro stored input count
    rw [readLoop]
    by_cases empty : input.r = input.w
    · rw [if_pos empty]
      cases killed with
      | true => exact fun _ => ⟨rfl, empty, by omega⟩
      | false => exact rfl
    · rw [if_neg empty]
      -- Any other way to return gives a number of bytes.
      dsimp only
      split
      · intro value
        omega
      · split
        · intro value
          omega
        · refine ih _ _ ?_
          rw [length_append, length_singleton]
          omega

/-! ## Runs -/

/-- The console is in step with the line discipline. -/
structure Refines (s : System P) (d : Discipline P) : Prop where
  carries : s.input.Carries d
  lawful : d.Lawful
  killed : s.killed = d.killed
  reading : s.reading = d.reading
  calls : s.calls = d.calls
  results : s.results = d.results

namespace Refines

variable {s t : System P}

theorem boot (buf : Nat → UInt8) : Refines (System.boot buf : System P) .boot where
  carries := ⟨Ring.Represents.new buf, rfl, prefix_refl [], not_mem_nil⟩
  lawful := .boot
  killed := rfl
  reading := rfl
  calls := rfl
  results := rfl

variable [DecidableEq P]

/-- A stretch of `consoleread`, of a call that has stored what it does not want any more. -/
theorem proceed (refines : Refines s d) (p : P) (call : Call)
    (count : call.stored.length + call.n = call.target) (lawful : (d.proceed p call).Lawful) :
    Refines (s.proceed p call) (d.proceed p call) := by
  obtain ⟨same, carries⟩ := readLoop_take (s.killed p) call.target call.n count refines.carries
  rw [length_map, refines.killed] at same carries
  revert lawful
  simp only [System.proceed, Discipline.proceed, refines.killed, unread, same]
  revert carries
  generalize Discipline.take (d.killed p) call.n call.stored (d.committed.drop d.taken.length) = after
  generalize (readLoop (d.killed p) call.target call.n call.stored s.input).2 = input
  obtain ⟨outcome, now⟩ := after
  intro carries lawful
  have noted : input.Carries (d.note call.number now) := by
    have taken : (d.note call.number now).taken.map Prod.snd = d.taken.map Prod.snd ++ now := by
      rw [note, map_append, map_map]
      congr 1
      exact map_id' now
    rw [Input.Carries, taken]
    exact carries
  cases outcome with
  | asleep n stored =>
    refine ⟨noted, lawful, rfl, ?_, refines.calls, refines.results⟩
    simp only [System.settle, settle, note, refines.reading]
  | returned value stored =>
    refine ⟨noted, lawful, rfl, ?_, refines.calls, ?_⟩
    · simp only [System.settle, settle, note, refines.reading]
    · simp only [System.settle, settle, note, refines.results]

/-- Every step of the console is one of the line discipline. -/
theorem step {event : Event P} (refines : Refines s d) (stepped : s.step event = some t) :
    ∃ after, d.step event = some after ∧ Refines t after := by
  cases event with
  | consoleintr typed =>
    cases stepped
    have types := keys_types typed refines.lawful
    refine ⟨_, rfl, refines.carries.keys typed, types.lawful refines.lawful, ?_, ?_, ?_, ?_⟩ <;>
      rw [types.same]
    · exact refines.killed
    · exact refines.reading
    · exact refines.calls
    · exact refines.results
  | consoleread p n =>
    simp only [System.step] at stepped
    split at stepped
    · cases stepped
    · rename_i notReading
      cases stepped
      rw [refines.reading] at notReading
      have taken : d.step (.consoleread p n) = some ({ d with calls := d.calls + 1 }.proceed p
          ⟨d.calls, n.toNat, n.toNat, []⟩) := by
        simp only [Discipline.step, notReading]
      have counted : Refines { s with calls := s.calls + 1 } { d with calls := d.calls + 1 } :=
        ⟨refines.carries, refines.lawful.count, refines.killed, refines.reading,
          congrArg (· + 1) refines.calls, refines.results⟩
      refine ⟨_, taken, ?_⟩
      rw [refines.calls] at counted ⊢
      exact counted.proceed p _ (Nat.zero_add _) (refines.lawful.step taken).1
  | wake p =>
    obtain ⟨call, isReading, rfl⟩ := Option.map_eq_some_iff.mp stepped
    rw [refines.reading] at isReading
    have taken : d.step (.wake p) = some (d.proceed p call) := by
      simp only [Discipline.step, isReading, Option.map_some]
    obtain ⟨-, -, count, -⟩ := refines.lawful.begun p call isReading
    exact ⟨_, taken, refines.proceed p call count (refines.lawful.step taken).1⟩
  | kill p =>
    cases stepped
    have taken : d.step (.kill p) = some { d with killed := Function.update d.killed p true } := rfl
    refine ⟨_, taken, refines.carries, (refines.lawful.step taken).1, ?_, refines.reading,
      refines.calls, refines.results⟩
    simp only [refines.killed]

/-- Every run of the console is one of the line discipline. -/
theorem run {events : List (Event P)} : ∀ {s : System P} {d : Discipline P}, Refines s d →
    s.run events = some t → ∃ after, d.run events = some after ∧ Refines t after := by
  induction events with
  | nil =>
    rintro s d refines ⟨⟩
    exact ⟨d, rfl, refines⟩
  | cons event rest ih =>
    intro s d refines ran
    obtain ⟨middle, stepped, ran⟩ := Runs.run_cons.mp ran
    obtain ⟨after, taken, refines⟩ := refines.step (Runs.unfailing_ok.mp stepped)
    obtain ⟨last, ranToo, refines⟩ := ih refines ran
    exact ⟨last, Runs.run_cons.mpr ⟨after, Runs.unfailing_ok.mpr taken, ranToo⟩, refines⟩

end Refines

/-- The process that goes on in `consoleread`. -/
def Event.caller : Event P → Option P
  | .consoleread p _ => some p
  | .wake p => some p
  | _ => none

/-- The call of a process sleeps or returns, as `Outcome.Waits` has it. -/
def System.Answers (s t : System P) (p : P) : Prop :=
  (t.results = s.results ∧ s.killed p = false) ∨
    ∃ result, t.results = s.results ++ [result] ∧ (result.value = -1 →
      s.killed p = true ∧ t.input.r = t.input.w ∧ result.stored.length < result.target)

section

variable [DecidableEq P] {s t : System P}

theorem System.proceed_answers (s : System P) (p : P) (call : Call)
    (count : call.stored.length + call.n = call.target) : s.Answers (s.proceed p call) p := by
  have waits := readLoop_waits (s.killed p) call.target call.n call.stored s.input count
  rw [System.proceed]
  generalize readLoop (s.killed p) call.target call.n call.stored s.input = stretch at waits
  obtain ⟨outcome, input⟩ := stretch
  cases outcome with
  | asleep n stored => exact Or.inl ⟨rfl, waits⟩
  | returned value stored => exact Or.inr ⟨_, rfl, waits⟩

/-- Only a call that goes on returns anything. -/
theorem Refines.answers {event : Event P} (refines : Refines s d)
    (stepped : s.step event = some t) :
    (event.caller = none → t.results = s.results) ∧
      ∀ p, event.caller = some p → s.Answers t p := by
  cases event with
  | consoleintr typed =>
    cases stepped
    exact ⟨fun _ => rfl, by rintro _ ⟨⟩⟩
  | kill p =>
    cases stepped
    exact ⟨fun _ => rfl, by rintro _ ⟨⟩⟩
  | consoleread p n =>
    refine ⟨by rintro ⟨⟩, ?_⟩
    rintro _ ⟨⟩
    simp only [System.step] at stepped
    split at stepped
    · cases stepped
    · cases stepped
      exact System.proceed_answers { s with calls := s.calls + 1 } p _ (Nat.zero_add _)
  | wake p =>
    refine ⟨by rintro ⟨⟩, ?_⟩
    rintro _ ⟨⟩
    obtain ⟨call, isReading, rfl⟩ := Option.map_eq_some_iff.mp stepped
    rw [refines.reading] at isReading
    obtain ⟨-, -, count, -⟩ := refines.lawful.begun p call isReading
    exact s.proceed_answers p call count

end

/-- The bytes between two indices. -/
def Input.between (input : Input) (first last : UInt32) : List UInt8 :=
  Ring.contents inputBuf (2 ^ 32) input.buf first.toNat last.toNat

/-- What is between the indices is the stream that is not taken, and the line. -/
theorem Input.Carries.between (carries : input.Carries d) :
    input.between input.r input.w = d.unread ∧ input.between input.w input.e = d.line ∧
      (input.w - input.r).toNat = d.unread.length ∧
      (input.e - input.r).toNat = d.unread.length + d.line.length := by
  have order := carries.order.length_le
  have short := Input.Holds.short carries
  rw [length_map] at order short
  have length : d.unread.length = d.committed.length - d.taken.length := by
    rw [unread, length_drop]
  -- The ring up to the write index, and from there on.
  have held := carries.ring.held
  have front : Ring.Represents inputBuf (2 ^ 32) input.buf input.r.toNat input.w.toNat d.committed
      (d.taken.map Prod.snd) := by
    refine ⟨carries.ring.read, carries.write, carries.order, ?_, fun k after inside => ?_⟩
    · rw [length_map, inputBuf_eq]
      omega
    · have byte := held k after (by rw [length_append]; omega)
      rw [List.getElem?_append_left inside] at byte
      exact byte
  have back : Ring.Represents inputBuf (2 ^ 32) input.buf input.w.toNat input.e.toNat
      (d.committed ++ d.line) d.committed := by
    refine ⟨carries.write, carries.ring.written, prefix_append .., ?_, fun k after inside => ?_⟩
    · rw [length_append, inputBuf_eq]
      omega
    · refine held k ?_ inside
      rw [length_map]
      omega
  refine ⟨?_, ?_, ?_, ?_⟩
  · have stream := front.stored_eq (by decide) (by decide)
    have drop := prefix_iff_eq_append.mp carries.order
    rw [length_map] at drop
    rw [← drop] at stream
    exact (append_cancel_left stream).symm
  · have stream := back.stored_eq (by decide) (by decide)
    exact (append_cancel_left stream).symm
  · rw [ahead_toNat, front.distance (by decide), length_map, length]
  · rw [Input.Holds.used_eq carries, length_map, length]
    omega

/-- The stream only grows at its end. -/
theorem Discipline.run_committed [DecidableEq P] {events : List (Event P)} {after : Discipline P}
    (lawful : d.Lawful) (ran : d.run events = some after) :
    after.Lawful ∧ d.committed <+: after.committed := by
  refine Runs.always (fun now : Discipline P => now.Lawful ∧ d.committed <+: now.committed) ?_
    ⟨lawful, prefix_refl _⟩ ran
  rintro before after event ⟨lawful, grown⟩ stepped
  obtain ⟨lawful, more⟩ := lawful.step (Runs.unfailing_ok.mp stepped)
  exact ⟨lawful, grown.trans more⟩

/-- In every run of the console, with the stream and the line as the line discipline has them:
the indices are in order and at most `INPUT_BUF` apart, the buffer holds the stream that was
not taken and the line, the stream grows at its end only, and what calls of `consoleread` took,
in the order in which they took it, is a beginning of the stream. A call has stored what it
took and returns the number of bytes, an end-of-file mark as 0. It returns -1 only if its
process is killed while it wants more and nothing is left to take; a killed process does not
sleep. -/
theorem console_input_discipline [DecidableEq P] (buf : Nat → UInt8) (events : List (Event P))
    (s : System P) (ran : (System.boot buf).run events = some s) :
    ∃ d, Discipline.boot.run events = some d ∧
      (s.input.w - s.input.r).toNat ≤ (s.input.e - s.input.r).toNat ∧
      (s.input.e - s.input.r).toNat ≤ inputBuf ∧
      s.input.between s.input.r s.input.w = d.unread ∧
      s.input.between s.input.w s.input.e = d.line ∧
      (∀ k earlier, Discipline.boot.run (events.take k) = some earlier →
        earlier.committed <+: d.committed) ∧
      d.taken.map Prod.snd ++ d.unread = d.committed ∧
      s.results = d.results ∧
      (∀ result ∈ s.results, result.Exact d) ∧
      (∀ p call, s.reading p = some call → d.items call.number = call.stored) ∧
      ∀ event t, s.step event = some t →
        (event.caller = none → t.results = s.results) ∧
          ∀ p, event.caller = some p → s.Answers t p := by
  obtain ⟨d, ranToo, refines⟩ := (Refines.boot buf).run ran
  obtain ⟨front, back, ahead, used⟩ := refines.carries.between
  have lawful := refines.lawful
  refine ⟨d, ranToo, ?_, ?_, front, back, ?_, lawful.stream, refines.results, ?_, ?_,
    fun _ _ => refines.answers⟩
  · rw [ahead, used]
    exact Nat.le_add_right ..
  · rw [used]
    exact lawful.room
  · intro k earlier ranFirst
    have split : events.take k ++ events.drop k = events := List.take_append_drop k events
    rw [← split] at ranToo
    obtain ⟨middle, first, rest⟩ := Runs.run_append.mp ranToo
    have same : middle = earlier := Option.some.inj (first.symm.trans ranFirst)
    subst same
    have start := Discipline.run_committed .boot first
    exact (Discipline.run_committed start.1 rest).2
  · rw [refines.results]
    exact fun result mem => (lawful.ended result mem).2.1
  · rw [refines.reading]
    exact fun p call isReading => (lawful.begun p call isReading).2.1

/-- What the caller of `consoleread` is given. -/
def Result.given (result : Result) : List UInt8 :=
  if result.value < 0 then []
  else if result.value = 0 ∧ 0 < result.target then [ctrl 'D']
  else result.stored

/-- A process reads a buffer full of characters and waits for more. It is killed, and another
process reads on. -/
def killedReader : List (Event (Fin 2)) :=
  [.consoleintr (List.replicate 128 'a'.toUInt8), .consoleread 0 200, .kill 0, .wake 0,
    .consoleread 1 10, .consoleintr ['b'.toUInt8, 'x'.toUInt8, delete, return_], .wake 1]

theorem console_input_discipline_killedReader :
    ∃ s d, (System.boot fun _ => 0).run killedReader = some s ∧
      Discipline.boot.run killedReader = some d ∧
      d.taken.map Prod.snd ++ d.unread = d.committed ∧ ∀ result ∈ s.results, result.Exact d := by
  have finished : ((System.boot fun _ => 0).run killedReader).isSome = true := by decide +kernel
  obtain ⟨s, ran⟩ := Option.isSome_iff_exists.mp finished
  obtain ⟨d, ranToo, -, -, -, -, -, stream, -, exact_, -⟩ :=
    console_input_discipline (fun _ => 0) killedReader s ran
  exact ⟨s, d, ran, ranToo, stream, exact_⟩

/-- What the calls returned is then not a beginning of the stream: the bytes that the killed
process had taken are missing. -/
theorem killed_reader_loses_bytes :
    ∃ s d, (System.boot fun _ => 0).run killedReader = some s ∧
      Discipline.boot.run killedReader = some d ∧
      ¬ s.results.flatMap Result.given <+: d.committed := by
  have reads : ((System.boot fun _ => 0).run killedReader).map
      (fun s => s.results.flatMap Result.given) = some ['b'.toUInt8, newline] := by
    decide +kernel
  have stream : (Discipline.boot.run killedReader).map (fun d => d.committed) =
      some (List.replicate 128 'a'.toUInt8 ++ ['b'.toUInt8, newline]) := by
    decide +kernel
  obtain ⟨s, ran, given⟩ := Option.map_eq_some_iff.mp reads
  obtain ⟨d, ranToo, committed⟩ := Option.map_eq_some_iff.mp stream
  refine ⟨s, d, ran, ranToo, ?_⟩
  rw [given, committed]
  decide

end Xv6.Console
