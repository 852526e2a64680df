import Xv6.Console.Model

/-!
# The line discipline

What the console is for, without a buffer: a line that is being typed, the stream of what was
committed, and readers who take characters off the stream. There is room for `INPUT_BUF`
characters that nobody has taken; what is typed when there is none is not accepted. The
stream only grows at its end, and every character of it is taken by one call, in order.
-/

namespace Xv6.Console

open Function List

variable {number : Nat}

/-- The console as its users see it. -/
structure Discipline (P : Type) where
  /-- Everything committed so far. -/
  committed : List UInt8
  /-- The line that is being typed. -/
  line : List UInt8
  /-- The characters taken off the stream, with the number of the call that took each. -/
  taken : List (Nat × UInt8)
  killed : P → Bool
  reading : P → Option Call
  calls : Nat
  results : List Result

namespace Discipline

variable {P : Type}

def boot : Discipline P := ⟨[], [], [], fun _ => false, fun _ => none, 0, []⟩

/-- What was committed and not taken. -/
def unread (d : Discipline P) : List UInt8 := d.committed.drop d.taken.length

/-- There is no room for another character. -/
def full (d : Discipline P) : Bool := d.unread.length + d.line.length ≥ inputBuf

/-- The line gets longer; it is committed when it ends or when there is no more room. -/
def extend (d : Discipline P) (c : UInt8) : Discipline P :=
  let d := { d with line := d.line ++ [c] }
  if c = newline ∨ c = ctrl 'D' ∨ d.full then
    { d with committed := d.committed ++ d.line, line := [] }
  else d

/-- A key is pressed. -/
def key (d : Discipline P) (c : UInt8) : Discipline P :=
  if c = ctrl 'P' then d
  else if c = ctrl 'U' then { d with line := [] }
  else if c = ctrl 'H' ∨ c = delete then { d with line := d.line.dropLast }
  else if c = 0 ∨ d.full then d
  else d.extend (if c = return_ then newline else c)

/-- A call takes characters off the stream: up to the end of a line, the number it wants, or
an end-of-file mark, which it takes only if it has nothing else to return. It gives up when
it is killed with nothing there to take. -/
def take (killed : Bool) : Nat → List UInt8 → List UInt8 → Outcome × List UInt8
  | 0, stored, _ => (.returned stored.length stored, [])
  | n + 1, stored, [] => (if killed then .returned (-1) stored else .asleep (n + 1) stored, [])
  | n + 1, stored, c :: rest =>
    if c = ctrl 'D' then (.returned stored.length stored, if stored = [] then [c] else [])
    else if c = newline then (.returned (stored ++ [c]).length (stored ++ [c]), [c])
    else ((take killed n (stored ++ [c]) rest).1, c :: (take killed n (stored ++ [c]) rest).2)

/-- A call takes characters. -/
def note (d : Discipline P) (number : Nat) (now : List UInt8) : Discipline P :=
  { d with taken := d.taken ++ now.map fun c => (number, c) }

variable [DecidableEq P]

/-- A process takes up or leaves its call. -/
def settle (d : Discipline P) (p : P) (call : Call) : Outcome → Discipline P
  | .asleep n stored =>
    { d with reading := Function.update d.reading p (some { call with n, stored }) }
  | .returned value stored =>
    { d with
      reading := Function.update d.reading p none
      results := d.results ++ [⟨call.number, call.target, value, stored⟩] }

def proceed (d : Discipline P) (p : P) (call : Call) : Discipline P :=
  let (outcome, now) := take (d.killed p) call.n call.stored d.unread
  (d.note call.number now).settle p call outcome

def step (d : Discipline P) : Event P → Option (Discipline P)
  | .consoleintr typed => some (typed.foldl key d)
  | .consoleread p n =>
    match d.reading p with
    | some _ => none
    | none =>
      some ({ d with calls := d.calls + 1 }.proceed p ⟨d.calls, n.toNat, n.toNat, []⟩)
  | .wake p => (d.reading p).map (d.proceed p)
  | .kill p => some { d with killed := Function.update d.killed p true }

def run (d : Discipline P) (events : List (Event P)) : Option (Discipline P) :=
  Runs.run (Runs.unfailing step) d events

/-! ## What a call takes -/

end Discipline

/-- How a stretch that began with some bytes stored and took some characters can end. -/
def Outcome.Fits (stored now : List UInt8) (n : Nat) : Outcome → Prop
  | .asleep m after => after = stored ++ now ∧ after.length + m = stored.length + n ∧ 0 < m
  | .returned value after => (value = -1 ∧ after = stored ++ now) ∨
      (value = after.length ∧ stored ++ now = if after = [] ∧ 0 < n then [ctrl 'D'] else after)

namespace Discipline

variable {P : Type}

/-- What a stretch takes is the beginning of what is there, and is accounted for. -/
theorem take_fits (killed : Bool) (n : Nat) (stored unread : List UInt8) :
    (take killed n stored unread).2 <+: unread ∧
      (take killed n stored unread).1.Fits stored (take killed n stored unread).2 n := by
  induction n generalizing stored unread with
  | zero => exact ⟨List.nil_prefix, Or.inr ⟨rfl, by simp [take]⟩⟩
  | succ n ih =>
    cases unread with
    | nil =>
      refine ⟨List.nil_prefix, ?_⟩
      simp only [take]
      cases killed with
      | true => exact Or.inl ⟨rfl, (append_nil stored).symm⟩
      | false => exact ⟨(append_nil stored).symm, rfl, Nat.succ_pos n⟩
    | cons c rest =>
      by_cases isEof : c = ctrl 'D'
      · simp only [take, isEof, if_true]
        by_cases fresh : stored = []
        · subst fresh
          exact ⟨by simp, Or.inr ⟨rfl, by simp⟩⟩
        · rw [if_neg fresh]
          exact ⟨List.nil_prefix, Or.inr ⟨rfl, by simp [fresh]⟩⟩
      · by_cases isLine : c = newline
        · simp only [take, isEof, if_false, if_pos isLine]
          exact ⟨by simp, Or.inr ⟨rfl, by simp⟩⟩
        · simp only [take, isEof, if_false, isLine]
          obtain ⟨first, fits⟩ := ih (stored ++ [c]) rest
          refine ⟨cons_prefix_cons.mpr ⟨rfl, first⟩, ?_⟩
          revert fits
          generalize (take killed n (stored ++ [c]) rest).2 = now
          cases (take killed n (stored ++ [c]) rest).1 with
          | asleep m after =>
            rintro ⟨isAfter, count, some⟩
            refine ⟨by simpa using isAfter, ?_, some⟩
            rw [length_append, length_singleton] at count
            omega
          | returned value after =>
            rintro (⟨isValue, isAfter⟩ | ⟨isValue, split⟩)
            · exact Or.inl ⟨isValue, by simpa using isAfter⟩
            · refine Or.inr ⟨isValue, ?_⟩
              rw [append_assoc, singleton_append] at split
              -- The end-of-file mark is taken alone, and this character is none.
              split at split
              · cases stored with
                | nil => exact absurd (List.cons.inj split).1 isEof
                | cons _ _ => simp at split
              · have some : after ≠ [] := by
                  rw [← split]
                  simp
                rw [split, if_neg (fun none => some none.1)]

/-- The characters that a call has taken. -/
def items (d : Discipline P) (number : Nat) : List UInt8 :=
  (d.taken.filter fun item => item.1 = number).map Prod.snd

theorem items_note_self (d : Discipline P) (number : Nat) (now : List UInt8) :
    (d.note number now).items number = d.items number ++ now := by
  have all : (now.map fun c => (number, c)).filter (fun item => item.1 = number) =
      now.map fun c => (number, c) := by
    rw [filter_eq_self]
    simp
  rw [items, note, filter_append, all, map_append, map_map]
  congr 1
  exact map_id' now

theorem items_note_of_ne (d : Discipline P) {other : Nat} (apart : number ≠ other)
    (now : List UInt8) : (d.note number now).items other = d.items other := by
  have none : (now.map fun c => (number, c)).filter (fun item => item.1 = other) = [] := by
    rw [filter_eq_nil_iff]
    simp [apart]
  rw [items, note, filter_append, none, append_nil, items]

end Discipline

/-- The call returned what it took: an end-of-file mark as no byte at all. One that was killed
returned nothing of it. -/
def Result.Exact {P : Type} (d : Discipline P) (result : Result) : Prop :=
  (result.value = -1 ∧ d.items result.number = result.stored) ∨
    (result.value = result.stored.length ∧ d.items result.number =
      if result.stored = [] ∧ 0 < result.target then [ctrl 'D'] else result.stored)

namespace Discipline

variable {P : Type}
  {after : Discipline P} {p : P} {call : Call} {now stored : List UInt8} {value : Int}

/-- The laws of the line discipline. -/
structure Lawful (d : Discipline P) : Prop where
  order : d.taken.map Prod.snd <+: d.committed
  room : d.unread.length + d.line.length ≤ inputBuf
  begun : ∀ p call, d.reading p = some call → call.number < d.calls ∧
    d.items call.number = call.stored ∧ call.stored.length + call.n = call.target ∧ 0 < call.n
  apart : ∀ p q call other, d.reading p = some call → d.reading q = some other →
    call.number = other.number → p = q
  ended : ∀ result ∈ d.results, result.number < d.calls ∧ result.Exact d ∧
    ∀ p call, d.reading p = some call → call.number ≠ result.number
  known : ∀ item ∈ d.taken, item.1 < d.calls

variable {d : Discipline P}

theorem Lawful.boot : (boot : Discipline P).Lawful where
  order := prefix_refl []
  room := Nat.zero_le _
  begun := by rintro _ _ ⟨⟩
  apart := by rintro _ _ _ _ ⟨⟩
  ended := by rintro _ ⟨⟩
  known := by rintro _ ⟨⟩

/-- What was taken and what was not are the stream. -/
theorem Lawful.stream (lawful : d.Lawful) : d.taken.map Prod.snd ++ d.unread = d.committed := by
  have first := prefix_iff_eq_append.mp lawful.order
  rw [length_map] at first
  exact first

/-- Typing changes the line and adds to the stream. -/
structure Types (d after : Discipline P) : Prop where
  committed : d.committed <+: after.committed
  room : after.unread.length + after.line.length ≤ inputBuf
  same : after = { d with committed := after.committed, line := after.line }

theorem Types.trans {middle : Discipline P} (first : Types d middle) (second : Types middle after) :
    Types d after where
  committed := first.committed.trans second.committed
  room := second.room
  same := by
    rw [second.same, first.same]

theorem Types.lawful (types : Types d after) (lawful : d.Lawful) :
    after.Lawful := by
  obtain ⟨committed, room, same⟩ := types
  have taken : after.taken = d.taken := by rw [same]
  have reading : after.reading = d.reading := by rw [same]
  have calls : after.calls = d.calls := by rw [same]
  have results : after.results = d.results := by rw [same]
  have items : after.items = d.items := by
    funext number
    rw [Discipline.items, taken, Discipline.items]
  refine ⟨?_, room, ?_, ?_, ?_, ?_⟩
  · rw [taken]
    exact lawful.order.trans committed
  · rw [reading, calls, items]
    exact lawful.begun
  · rw [reading]
    exact lawful.apart
  · rw [results, reading, calls]
    intro result mem
    obtain ⟨number, exact_, unread⟩ := lawful.ended result mem
    refine ⟨number, ?_, unread⟩
    rw [Result.Exact, items]
    exact exact_
  · rw [taken, calls]
    exact lawful.known

/-- A key keeps the laws. -/
theorem key_types (lawful : d.Lawful) (c : UInt8) : Types d (d.key c) := by
  have room := lawful.room
  have stays : Types d d := ⟨prefix_refl _, room, rfl⟩
  rw [key]
  split
  · exact stays
  · split
    · refine ⟨prefix_refl _, ?_, rfl⟩
      simp only [unread, length_nil] at room ⊢
      omega
    · split
      · refine ⟨prefix_refl _, ?_, rfl⟩
        simp only [unread, length_dropLast] at room ⊢
        omega
      · split
        · exact stays
        · rename_i accepted
          have space : d.unread.length + d.line.length < inputBuf := by
            have notFull : ¬ d.full = true := fun full => accepted (Or.inr full)
            simpa [full] using notFull
          generalize (if c = return_ then newline else c) = typed
          rw [extend]
          split
          · refine ⟨prefix_append .., ?_, rfl⟩
            simp only [unread, length_drop, length_append, length_singleton,
              length_nil] at space ⊢
            have order := lawful.order.length_le
            rw [length_map] at order
            omega
          · refine ⟨prefix_refl _, ?_, rfl⟩
            simp only [unread, length_append, length_singleton] at space ⊢
            omega

/-- Any number of keys. -/
theorem keys_types (typed : List UInt8) : ∀ {d : Discipline P}, d.Lawful →
    Types d (typed.foldl key d) := by
  induction typed with
  | nil => exact fun lawful => ⟨prefix_refl _, lawful.room, rfl⟩
  | cons c rest ih =>
    intro d lawful
    have first := key_types lawful c
    exact first.trans (ih (first.lawful lawful))

variable [DecidableEq P]

/-- A call that nobody else makes, and that has not returned, may take characters. -/
structure Open (d : Discipline P) (p : P) (call : Call) : Prop where
  number : call.number < d.calls
  items : d.items call.number = call.stored
  count : call.stored.length + call.n = call.target
  others : ∀ q other, q ≠ p → d.reading q = some other → call.number ≠ other.number
  unreturned : ∀ result ∈ d.results, call.number ≠ result.number

omit [DecidableEq P] in
/-- Nobody else's account changes when a call takes characters. -/
theorem Open.account (isOpen : d.Open p call) (now : List UInt8) {result : Result}
    (mem : result ∈ d.results) (exact_ : result.Exact d) :
    result.Exact (d.note call.number now) := by
  rw [Result.Exact, items_note_of_ne d (isOpen.unreturned result mem)]
  exact exact_

omit [DecidableEq P] in
/-- What the laws say of the stream, when a call takes the beginning of what is there. -/
theorem Lawful.note (lawful : d.Lawful) (begun : number < d.calls) (first : now <+: d.unread) :
    ((d.note number now).taken.map Prod.snd <+: d.committed) ∧
      (d.note number now).unread.length + d.line.length ≤ inputBuf ∧
      ∀ item ∈ (d.note number now).taken, item.1 < d.calls := by
  refine ⟨?_, ?_, ?_⟩
  · obtain ⟨rest, split⟩ := first
    refine ⟨rest, ?_⟩
    have same : (now.map fun c => (number, c)).map Prod.snd = now := by
      rw [map_map]
      exact map_id' now
    rw [Discipline.note, map_append, same, ← lawful.stream, ← split, append_assoc]
  · have before := lawful.room
    simp only [unread, Discipline.note, length_drop, length_append] at before ⊢
    omega
  · intro item mem
    rcases mem_append.mp mem with old | new
    · exact lawful.known item old
    · obtain ⟨c, -, rfl⟩ := mem_map.mp new
      exact begun

/-- A stretch that ends asleep. -/
theorem Lawful.asleep (lawful : d.Lawful) (isOpen : d.Open p call) (first : now <+: d.unread)
    {m : Nat} (fits : (Outcome.asleep m stored).Fits call.stored now call.n) :
    ((d.note call.number now).settle p call (.asleep m stored)).Lawful := by
  obtain ⟨isStored, length, some⟩ := fits
  obtain ⟨order, room, known⟩ := lawful.note isOpen.number first
  refine ⟨order, room, ?_, ?_, ?_, known⟩
  · intro q other isOther
    simp only [settle, Discipline.note, update_apply] at isOther
    split at isOther
    · cases isOther
      refine ⟨isOpen.number, ?_, ?_, some⟩
      · have mine := items_note_self d call.number now
        rw [isOpen.items] at mine
        exact mine.trans isStored.symm
      · have count := isOpen.count
        simp only
        omega
    · rename_i apart
      obtain ⟨begun, items, rest⟩ := lawful.begun q other isOther
      have theirs := items_note_of_ne d (isOpen.others q other apart isOther) now
      exact ⟨begun, theirs.trans items, rest⟩
  · intro q r call other isFirst isSecond equal
    simp only [settle, Discipline.note, update_apply] at isFirst isSecond
    split at isFirst <;> split at isSecond
    · rename_i here there
      rw [here, there]
    · rename_i here there
      cases isFirst
      exact absurd equal (isOpen.others r other there isSecond)
    · rename_i here there
      cases isSecond
      exact absurd equal.symm (isOpen.others q call here isFirst)
    · exact lawful.apart q r call other isFirst isSecond equal
  · intro result mem
    obtain ⟨begun, exact_, unread⟩ := lawful.ended result mem
    refine ⟨begun, isOpen.account now mem exact_, fun q other isOther => ?_⟩
    simp only [settle, Discipline.note, update_apply] at isOther
    split at isOther
    · cases isOther
      exact isOpen.unreturned result mem
    · exact unread q other isOther

omit [DecidableEq P] in
/-- A call that returns has returned what it took. -/
theorem Open.exact_ (isOpen : d.Open p call)
    (fits : (Outcome.returned value stored).Fits call.stored now call.n) :
    Result.Exact (d.note call.number now) ⟨call.number, call.target, value, stored⟩ := by
  have count := isOpen.count
  rw [Result.Exact, items_note_self, isOpen.items]
  rcases fits with ⟨isValue, isStored⟩ | ⟨isValue, split⟩
  · exact Or.inl ⟨isValue, isStored.symm⟩
  · refine Or.inr ⟨isValue, ?_⟩
    rw [split]
    by_cases empty : stored = []
    · -- A call that has stored nothing still wants all that it was asked for.
      have none : call.n = 0 → call.target = 0 := by
        intro isZero
        rw [if_neg (by omega), empty, append_eq_nil_iff] at split
        rw [split.1, length_nil] at count
        omega
      have same : 0 < call.n ↔ 0 < call.target := by omega
      simp only [empty, true_and, same]
    · rw [if_neg fun both => empty both.1, if_neg fun both => empty both.1]

/-- A stretch that ends the call. -/
theorem Lawful.returned (lawful : d.Lawful) (isOpen : d.Open p call) (first : now <+: d.unread)
    (fits : (Outcome.returned value stored).Fits call.stored now call.n) :
    ((d.note call.number now).settle p call (.returned value stored)).Lawful := by
  obtain ⟨order, room, known⟩ := lawful.note isOpen.number first
  -- Whoever is in a call now is somebody else and was in it before.
  have before : ∀ q other, update d.reading p none q = some other →
      q ≠ p ∧ d.reading q = some other := by
    intro q other isOther
    rw [update_apply] at isOther
    split at isOther
    · cases isOther
    · rename_i apart
      exact ⟨apart, isOther⟩
  refine ⟨order, room, ?_, ?_, ?_, known⟩
  · intro q other isOther
    obtain ⟨apart, was⟩ := before q other isOther
    obtain ⟨begun, items, rest⟩ := lawful.begun q other was
    have theirs := items_note_of_ne d (isOpen.others q other apart was) now
    exact ⟨begun, theirs.trans items, rest⟩
  · intro q r call other isFirst isSecond equal
    exact lawful.apart q r call other (before q call isFirst).2 (before r other isSecond).2 equal
  · intro result mem
    rcases mem_append.mp mem with old | new
    · obtain ⟨begun, exact_, unread⟩ := lawful.ended result old
      refine ⟨begun, isOpen.account now old exact_, fun q other isOther => ?_⟩
      exact unread q other (before q other isOther).2
    · cases mem_singleton.mp new
      refine ⟨isOpen.number, isOpen.exact_ fits, fun q other isOther => ?_⟩
      obtain ⟨apart, was⟩ := before q other isOther
      exact (isOpen.others q other apart was).symm

/-- A stretch of a call keeps the laws. -/
theorem Lawful.proceed (lawful : d.Lawful) (isOpen : d.Open p call) :
    (d.proceed p call).Lawful := by
  obtain ⟨first, fits⟩ := take_fits (d.killed p) call.n call.stored d.unread
  rw [Discipline.proceed]
  generalize take (d.killed p) call.n call.stored d.unread = after at first fits
  obtain ⟨outcome, now⟩ := after
  cases outcome with
  | asleep m stored => exact lawful.asleep isOpen first fits
  | returned value stored => exact lawful.returned isOpen first fits

omit [DecidableEq P] in
/-- Another call is made. -/
theorem Lawful.count (lawful : d.Lawful) :
    ({ d with calls := d.calls + 1 } : Discipline P).Lawful := by
  refine ⟨lawful.order, lawful.room, ?_, lawful.apart, ?_, ?_⟩
  · intro q call isReading
    obtain ⟨begun, rest⟩ := lawful.begun q call isReading
    exact ⟨Nat.lt_succ_of_lt begun, rest⟩
  · intro result mem
    obtain ⟨begun, rest⟩ := lawful.ended result mem
    exact ⟨Nat.lt_succ_of_lt begun, rest⟩
  · exact fun item mem => Nat.lt_succ_of_lt (lawful.known item mem)

/-- Every step keeps the laws, and the stream only grows at its end. -/
theorem Lawful.step {event : Event P} (lawful : d.Lawful) (stepped : d.step event = some after) :
    after.Lawful ∧ d.committed <+: after.committed := by
  have stream : ∀ {d : Discipline P} (p : P) (call : Call),
      (d.proceed p call).committed = d.committed := by
    intro d p call
    simp only [Discipline.proceed]
    cases (take (d.killed p) call.n call.stored d.unread).1 with
    | asleep m stored => rfl
    | returned value stored => rfl
  cases event with
  | consoleintr typed =>
    cases stepped
    have types := keys_types typed lawful
    exact ⟨types.lawful lawful, types.committed⟩
  | consoleread p n =>
    simp only [Discipline.step] at stepped
    split at stepped
    · cases stepped
    · rename_i notReading
      cases stepped
      refine ⟨lawful.count.proceed ⟨Nat.lt_succ_self _, ?_, by simp, ?_, ?_⟩, ?_⟩
      · have none : d.taken.filter (fun item => item.1 = d.calls) = [] := by
          rw [filter_eq_nil_iff]
          intro item mem isSame
          have begun := lawful.known item mem
          simp only [decide_eq_true_eq] at isSame
          omega
        simp only [items, none, map_nil]
      · intro q other _ isReading
        exact (Nat.ne_of_lt (lawful.begun q other isReading).1).symm
      · intro result mem
        exact (Nat.ne_of_lt (lawful.ended result mem).1).symm
      · rw [stream]
  | wake p =>
    obtain ⟨call, isReading, rfl⟩ := Option.map_eq_some_iff.mp stepped
    obtain ⟨begun, items, count, -⟩ := lawful.begun p call isReading
    refine ⟨lawful.proceed ⟨begun, items, count, ?_, ?_⟩, by rw [stream]⟩
    · intro q other apart isOther equal
      exact apart (lawful.apart p q call other isReading isOther equal).symm
    · intro result mem
      exact (lawful.ended result mem).2.2 p call isReading
  | kill p =>
    cases stepped
    exact ⟨⟨lawful.order, lawful.room, lawful.begun, lawful.apart, lawful.ended, lawful.known⟩,
      prefix_refl _⟩

end Discipline

end Xv6.Console
