import Xv6.Ide.Model
import Xv6.Lib.Traced

/-!
# The disk queue

The pointers of the queue run through a list of distinct buffers, whose first one is the one
the drive is at work on. The requests made are those finished, followed by those in the
queue, whatever the drive reports. What a process finds in its buffer when `iderw` lets it go
on depends on the drive: the buffer agrees with the disk exactly as long as every command
either succeeds or fails without a difference.
-/

namespace Xv6.Ide

open Function List Option

variable {P B : Type}

namespace System

variable {status : UInt8} {damage : Block}

/-- The driver with the list of the queued buffers. -/
structure Sound (s : System P B) (queue : List B) : Prop where
  chain : Chain (fun b => (s.buf b).qnext) s.idequeue queue
  nodup : queue.Nodup
  history : s.issued = s.completed ++ queue
  command : s.command = queue.head?.map fun b => (s.buf b).request
  started : ∀ b ∈ queue.head?, (s.buf b).blockno.toNat < fssize
  queued : ∀ b ∈ queue, (∃ p, s.waits p = some b) ∧ (s.buf b).served = false
  held : ∀ p b, s.waits p = some b → s.owner b = some p
  done : ∀ p b, s.waits p = some b → b ∉ queue →
    (s.buf b).served = true ∧ (s.buf b).blockno.toNat < fssize
  busy : ∀ b, s.owner b ≠ none → (s.buf b).busy = true
  known : ∀ b, s.owner b ≠ none → (s.buf b).dev = 0 ∨ (s.buf b).dev = 1
  distinct : ∀ b c, (s.buf b).dev ≠ nodev → (s.buf b).key = (s.buf c).key → b = c

/-- A process that may leave `iderw` has what is on the disk. -/
def Agrees (s : System P B) : Prop :=
  ∀ p b, s.waits p = some b → (s.buf b).served = true → (s.buf b).data = s.disk (s.buf b).address

/-- Nobody waits for the buffer. -/
def Unwanted (s : System P B) (b : B) : Prop := ∀ p, s.waits p ≠ some b

variable {s t : System P B} {queue : List B} {b : B} {p : P}

theorem Sound.notMem (sound : Sound s queue) (unwanted : s.Unwanted b) : b ∉ queue := by
  intro mem
  obtain ⟨⟨q, waits⟩, -⟩ := sound.queued b mem
  exact unwanted q waits

theorem Sound.unwanted [DecidableEq P] (sound : Sound s queue) (holds : s.holds p b = true) :
    s.Unwanted b := by
  intro q waits
  simp only [System.holds, Bool.and_eq_true_iff, decide_eq_true_eq, isNone_iff_eq_none] at holds
  have isOwner := sound.held q b waits
  rw [holds.1] at isOwner
  cases isOwner
  rw [holds.2] at waits
  cases waits

/-- Blocks of the two disks that the driver accepts have addresses of their own. -/
theorem key_eq_of_address {first second : Buf B} (firstDev : first.dev = 0 ∨ first.dev = 1)
    (secondDev : second.dev = 0 ∨ second.dev = 1) (firstSmall : first.blockno.toNat < fssize)
    (secondSmall : second.blockno.toNat < fssize) (same : first.address = second.address) :
    first.key = second.key := by
  obtain ⟨sameDisk, sameSector⟩ := Address.mk.inj same
  have block : first.blockno = second.blockno := by
    rw [UInt32.toNat_inj.symm]
    simp only [sectorPerBlock, sectorSize, bsize_eq, fssize_eq] at *
    omega
  have dev : first.dev = second.dev := by
    rcases firstDev with isFirst | isFirst <;> rcases secondDev with isSecond | isSecond <;>
      rw [isFirst, isSecond] at sameDisk ⊢
    · cases sameDisk
    · cases sameDisk
  rw [Buf.key, Buf.key, block, dev]

theorem devOf_cases (disk1 : Bool) : devOf disk1 = 0 ∨ devOf disk1 = 1 := by
  cases disk1 with
  | false => exact Or.inl rfl
  | true => exact Or.inr rfl

theorem ne_nodev {dev : UInt32} (isDisk : dev = 0 ∨ dev = 1) : dev ≠ nodev := by
  rcases isDisk with rfl | rfl <;> decide

variable [DecidableEq B]

/-- A buffer that nobody waits for changes, or its owner does. -/
theorem Sound.edit (sound : Sound s queue) (unwanted : s.Unwanted b) (value : Buf B)
    (owner : B → Option P) (others : ∀ c, c ≠ b → owner c = s.owner c)
    (busy : owner b ≠ none → value.busy = true)
    (known : owner b ≠ none → value.dev = 0 ∨ value.dev = 1)
    (distinct : ∀ c, c ≠ b → value.dev ≠ nodev → value.key ≠ (s.buf c).key) :
    Sound { s.setBuf b value with owner } queue := by
  have outside := sound.notMem unwanted
  have same : ∀ c, c ≠ b → update s.buf b value c = s.buf c :=
    fun c other => update_of_ne other ..
  have queuedOther : ∀ c ∈ queue, c ≠ b := fun c mem isSame => outside (isSame ▸ mem)
  have firstOther : ∀ c ∈ queue.head?, c ≠ b :=
    fun c mem => queuedOther c (mem_of_mem_head? mem)
  refine ⟨?_, sound.nodup, sound.history, ?_, ?_, ?_, ?_, ?_, ?_, ?_, ?_⟩
  · refine sound.chain.congr fun c mem => ?_
    simp only [setBuf, same c (queuedOther c mem)]
  · rw [setBuf, sound.command]
    cases isFirst : queue.head? with
    | none => rfl
    | some first => simp only [map_some, same first (firstOther first isFirst)]
  · intro c mem
    simp only [setBuf, same c (firstOther c mem)]
    exact sound.started c mem
  · intro c mem
    simp only [setBuf, same c (queuedOther c mem)]
    exact sound.queued c mem
  · intro q c waits
    have other : c ≠ b := fun isSame => unwanted q (isSame ▸ waits)
    exact (others c other).trans (sound.held q c waits)
  · intro q c waits notQueued
    have other : c ≠ b := fun isSame => unwanted q (isSame ▸ waits)
    simp only [setBuf, same c other]
    exact sound.done q c waits notQueued
  · intro c
    by_cases isSame : c = b
    · subst isSame
      simpa [setBuf] using busy
    · simp only [setBuf, same c isSame, others c isSame]
      exact sound.busy c
  · intro c
    by_cases isSame : c = b
    · subst isSame
      simpa [setBuf] using known
    · simp only [setBuf, same c isSame, others c isSame]
      exact sound.known c
  · intro c d used
    simp only [setBuf] at used ⊢
    by_cases isFirst : c = b <;> by_cases isSecond : d = b
    · intro _
      rw [isFirst, isSecond]
    · subst isFirst
      rw [update_self] at used ⊢
      rw [same d isSecond]
      exact fun keys => absurd keys (distinct d isSecond used)
    · subst isSecond
      rw [same c isFirst] at used ⊢
      rw [update_self]
      intro keys
      have dev : value.dev = (s.buf c).dev := (congrArg Prod.fst keys).symm
      exact absurd keys.symm (distinct c isFirst (dev ▸ used))
    · rw [same c isFirst] at used ⊢
      rw [same d isSecond]
      exact sound.distinct c d used

/-- The process that holds a buffer changes its data or marks it. -/
theorem Sound.touch [DecidableEq P] (sound : Sound s queue) (holds : s.holds p b = true)
    (value : Buf B) (busy : value.busy = (s.buf b).busy) (key : value.key = (s.buf b).key) :
    Sound (s.setBuf b value) queue := by
  have dev : value.dev = (s.buf b).dev := congrArg Prod.fst key
  refine sound.edit (sound.unwanted holds) value s.owner (fun _ _ => rfl) ?_ ?_ ?_
  · intro owned
    rw [busy]
    exact sound.busy b owned
  · intro owned
    rw [dev]
    exact sound.known b owned
  · intro c other used keys
    rw [dev] at used
    rw [key] at keys
    exact other (sound.distinct b c used keys).symm

/-- A buffer that nobody waits for does not matter. -/
theorem Agrees.edit (agrees : s.Agrees) (unwanted : s.Unwanted b) (value : Buf B)
    (owner : B → Option P) : Agrees { s.setBuf b value with owner } := by
  intro q c waits
  have other : c ≠ b := fun isSame => unwanted q (isSame ▸ waits)
  simp only [setBuf, update_of_ne other]
  exact agrees q c waits

/-- The buffers differ in their pointers only. -/
def Relinked (s t : System P B) : Prop := ∀ c, ∃ qnext, t.buf c = { s.buf c with qnext }

/-- Appending a buffer ends, and puts it behind the others. -/
theorem Sound.append [Fintype B] (sound : Sound s queue) (outside : b ∉ queue) :
    ∃ t, s.append b = some t ∧ t = { s with buf := t.buf, idequeue := t.idequeue } ∧
      Relinked s t ∧ Chain (fun c => (t.buf c).qnext) t.idequeue (queue ++ [b]) := by
  rcases eq_nil_or_concat queue with rfl | ⟨front, last, rfl⟩
  · refine ⟨{ s.setBuf b { s.buf b with qnext := none } with idequeue := some b }, ?_, rfl, ?_, ?_⟩
    · have empty : s.idequeue = none := sound.chain
      simp only [System.append, setBuf, empty]
    · intro c
      by_cases isSame : c = b
      · subst isSame
        exact ⟨none, by simp [setBuf]⟩
      · exact ⟨(s.buf c).qnext, by simp [setBuf, update_of_ne isSame]⟩
    · exact ⟨rfl, by simp [setBuf, Chain]⟩
  · rw [concat_eq_append] at *
    -- The pointers after the buffer's own one is cleared.
    let cleared : System P B := s.setBuf b { s.buf b with qnext := none }
    have apart : last ≠ b := by
      rintro rfl
      exact outside (by simp)
    have chain : Chain (fun c => (cleared.buf c).qnext) s.idequeue (front ++ [last]) := by
      refine sound.chain.congr fun c mem => ?_
      have other : c ≠ b := fun isSame => outside (isSame ▸ mem)
      simp only [cleared, setBuf, update_of_ne other]
    obtain ⟨first, isFirst⟩ : ∃ first, s.idequeue = some first := by
      cases front with
      | nil => exact ⟨last, sound.chain.1⟩
      | cons first rest => exact ⟨first, sound.chain.1⟩
    have short : front.length < Fintype.card B := by
      have le := sound.nodup.length_le_card
      simp only [length_append, length_singleton] at le
      omega
    have found : Chain.last (fun c => (cleared.buf c).qnext) (Fintype.card B) first = some last :=
      Chain.last_eq (isFirst ▸ chain) short
    refine ⟨cleared.setBuf last { cleared.buf last with qnext := some b }, ?_, rfl, ?_, ?_⟩
    · simp only [System.append]
      have start : cleared.idequeue = some first := isFirst
      simp only [cleared] at start found ⊢
      simp only [start, found, map_some]
    · intro c
      by_cases isLast : c = last
      · subst isLast
        exact ⟨some b, by simp [cleared, setBuf, update_of_ne apart]⟩
      · by_cases isSame : c = b
        · subst isSame
          exact ⟨none, by simp [cleared, setBuf, update_of_ne isLast]⟩
        · refine ⟨(s.buf c).qnext, ?_⟩
          simp [cleared, setBuf, update_of_ne isLast, update_of_ne isSame]
    · rw [append_assoc]
      refine chain.append (fun c mem => ?_) ?_ ?_
      · have notLast : c ≠ last := by
          rintro rfl
          have nodup := sound.nodup
          rw [nodup_append] at nodup
          exact nodup.2.2 c mem c (by simp) rfl
        simp [setBuf, update_of_ne notLast]
      · simp [setBuf]
      · simp [cleared, setBuf, update_of_ne (Ne.symm apart)]

omit [DecidableEq B] in
/-- What does not depend on the pointers. -/
theorem Relinked.fields (relinked : Relinked s t) (c : B) :
    (t.buf c).busy = (s.buf c).busy ∧ (t.buf c).served = (s.buf c).served ∧
      (t.buf c).dev = (s.buf c).dev ∧ (t.buf c).key = (s.buf c).key ∧
      (t.buf c).blockno = (s.buf c).blockno ∧ (t.buf c).request = (s.buf c).request ∧
      (t.buf c).data = (s.buf c).data ∧ (t.buf c).address = (s.buf c).address := by
  obtain ⟨qnext, same⟩ := relinked c
  rw [same]
  exact ⟨rfl, rfl, rfl, rfl, rfl, rfl, rfl, rfl⟩

omit [DecidableEq B] in
/-- A request is started only for a block that is on the disk. -/
theorem idestart_ok (started : s.idestart b = .ok t) :
    (s.buf b).blockno.toNat < fssize ∧ t = { s with command := some (s.buf b).request } := by
  rw [idestart] at started
  split at started
  · cases started
  · split at started
    · cases started
    · cases started
      exact ⟨by omega, rfl⟩

/-- What `iderw` does before it waits: the buffer was not done with, it is queued behind the
others, and if there are none the drive starts on it. -/
theorem iderw_ok [Fintype B] (sound : Sound s queue) (outside : b ∉ queue)
    (stepped : s.iderw b = .ok (some t)) :
    (s.buf b).served = false ∧ Relinked s t ∧
      Chain (fun c => (t.buf c).qnext) t.idequeue (queue ++ [b]) ∧
      (queue = [] → (s.buf b).blockno.toNat < fssize) ∧
      t = { s with
        buf := t.buf
        idequeue := t.idequeue
        command := if queue = [] then some (s.buf b).request else s.command
        issued := s.issued ++ [b] } := by
  obtain ⟨u, appended, same, relinked, chain⟩ := sound.append outside
  rw [iderw] at stepped
  split at stepped
  · cases stepped
  · split at stepped
    · cases stepped
    · rename_i notServed
      split at stepped
      · cases stepped
      · rw [appended] at stepped
        obtain ⟨v, started, after⟩ := Except.of_bind_ok stepped
        cases after
        refine ⟨by simpa using notServed, ?_⟩
        have start := chain.start_eq
        have issued : u.issued = s.issued := by rw [same]
        cases isQueue : queue with
        | nil =>
          subst isQueue
          rw [startIfFirst, if_pos (by simpa using start)] at started
          obtain ⟨small, rfl⟩ := idestart_ok started
          have fields := relinked.fields b
          refine ⟨relinked, chain, fun _ => ?_, ?_⟩
          · rw [← fields.2.2.2.2.1]
            exact small
          · rw [if_pos rfl, ← fields.2.2.2.2.2.1, same]
        | cons first rest =>
          subst isQueue
          have notStarted : u.idequeue ≠ some b := by
            rw [start]
            rintro ⟨⟩
            exact outside mem_cons_self
          rw [startIfFirst, if_neg notStarted] at started
          cases started
          refine ⟨relinked, chain, by rintro ⟨⟩, ?_⟩
          rw [if_neg (cons_ne_nil first rest), same]

/-- `iderw` queues a request. -/
theorem Sound.iderw [Fintype B] [DecidableEq P] (sound : Sound s queue)
    (holds : s.holds p b = true) (stepped : s.iderw b = .ok (some t)) :
    Sound { t with waits := update t.waits p (some b) } (queue ++ [b]) ∧
      (s.Agrees → Agrees { t with waits := update t.waits p (some b) }) := by
  have unwanted := sound.unwanted holds
  have outside := sound.notMem unwanted
  obtain ⟨notServed, relinked, chain, small, same⟩ := iderw_ok sound outside stepped
  simp only [System.holds, Bool.and_eq_true_iff, decide_eq_true_eq, isNone_iff_eq_none] at holds
  have waits : t.waits = s.waits := by rw [same]
  have owner : t.owner = s.owner := by rw [same]
  have fields := fun c => relinked.fields c
  have first : (queue ++ [b]).head? = if queue = [] then some b else queue.head? := by
    cases queue <;> rfl
  -- Who waits for what after the step.
  have waiting : ∀ q c, update t.waits p (some b) q = some c →
      (q = p ∧ c = b) ∨ (q ≠ p ∧ s.waits q = some c) := by
    intro q c isWaiting
    rw [waits] at isWaiting
    by_cases isSame : q = p
    · subst isSame
      rw [update_self] at isWaiting
      exact Or.inl ⟨rfl, (Option.some.inj isWaiting).symm⟩
    · rw [update_of_ne isSame] at isWaiting
      exact Or.inr ⟨isSame, isWaiting⟩
  constructor
  · refine ⟨chain, ?_, ?_, ?_, ?_, ?_, ?_, ?_, ?_, ?_, ?_⟩
    · simpa [nodup_append] using ⟨sound.nodup, fun c mem isSame => outside (isSame ▸ mem)⟩
    · have issued : t.issued = s.issued ++ [b] := by rw [same]
      have completed : t.completed = s.completed := by rw [same]
      simp only [issued, completed, sound.history, append_assoc]
    · have command : t.command = if queue = [] then some (s.buf b).request else s.command := by
        rw [same]
      simp only [command, first]
      split
      · simp only [map_some, (fields b).2.2.2.2.2.1]
      · rw [sound.command]
        exact Option.map_congr fun c _ => (fields c).2.2.2.2.2.1.symm
    · intro c mem
      simp only [(fields c).2.2.2.2.1]
      rw [first] at mem
      split at mem
      · rename_i empty
        cases mem
        exact small empty
      · exact sound.started c mem
    · intro c mem
      simp only [(fields c).2.1]
      rcases mem_append.mp mem with old | new
      · obtain ⟨⟨q, isWaiting⟩, pending⟩ := sound.queued c old
        refine ⟨⟨q, ?_⟩, pending⟩
        have other : q ≠ p := by
          rintro rfl
          rw [holds.2] at isWaiting
          cases isWaiting
        rw [update_of_ne other, waits]
        exact isWaiting
      · cases mem_singleton.mp new
        exact ⟨⟨p, update_self ..⟩, notServed⟩
    · intro q c isWaiting
      simp only [owner]
      rcases waiting q c isWaiting with ⟨rfl, rfl⟩ | ⟨-, before⟩
      · exact holds.1
      · exact sound.held q c before
    · intro q c isWaiting notQueued
      simp only [(fields c).2.1, (fields c).2.2.2.2.1]
      rcases waiting q c isWaiting with ⟨rfl, rfl⟩ | ⟨-, before⟩
      · exact absurd (by simp) notQueued
      · exact sound.done q c before fun mem => notQueued (mem_append_left _ mem)
    · intro c
      simp only [owner, (fields c).1]
      exact sound.busy c
    · intro c
      simp only [owner, (fields c).2.2.1]
      exact sound.known c
    · intro c d
      simp only [(fields c).2.2.1, (fields c).2.2.2.1, (fields d).2.2.2.1]
      exact sound.distinct c d
  · intro agrees q c isWaiting
    have disk : t.disk = s.disk := by rw [same]
    simp only [(fields c).2.1, (fields c).2.2.2.2.2.2.1, (fields c).2.2.2.2.2.2.2, disk]
    rcases waiting q c isWaiting with ⟨rfl, rfl⟩ | ⟨-, before⟩
    · rw [notServed]
      rintro ⟨⟩
    · exact agrees q c before

/-! ## The end of a command -/

/-- The data of a buffer after its request. -/
def received (s : System P B) (b : B) (status : UInt8) : Block :=
  if (s.buf b).dirty ∨ failed status then (s.buf b).data else s.disk (s.buf b).address

/-- The disk after the command for a buffer. -/
def stored (s : System P B) (b : B) (status : UInt8) (damage : Block) : Address → Block :=
  perform s.disk status damage (s.buf b).request

omit [DecidableEq B] in
/-- What `ideintr` makes of the buffer. -/
theorem complete_eq {value : Buf B} (same : t.buf = s.buf)
    (completed : t.complete b status (output s.disk (s.buf b).request) = some value) :
    value = { s.buf b with data := s.received b status, valid := true, dirty := false } := by
  rw [complete, same] at completed
  split at completed
  · rename_i isDirty
    cases completed
    simp [received, isDirty]
  · rename_i isClean
    obtain ⟨r, waited, rfl⟩ := map_eq_some_iff.mp completed
    rw [idewait] at waited
    split at waited
    · cases waited
    · split at waited
      · rename_i isFailed
        cases waited
        simp [received, isFailed.2]
      · rename_i fine
        cases waited
        have success : failed status = false := by simpa using fine
        have clean : (s.buf b).dirty = false := by simpa using isClean
        simp [received, success, clean, output, Buf.request]

/-- What an interrupt does: the first request is done, the next one is started. -/
theorem interrupt_ok [DecidableEq P] [Fintype B] (sound : Sound s queue)
    (stepped : s.step (.interrupt status damage) = .ok (some t)) :
    ∃ b rest, queue = b :: rest ∧ (∀ c ∈ rest.head?, (s.buf c).blockno.toNat < fssize) ∧
      t = { s with
        buf := update s.buf b
          { s.buf b with data := s.received b status, valid := true, dirty := false }
        idequeue := (s.buf b).qnext
        disk := s.stored b status damage
        command := rest.head?.map fun c => (s.buf c).request
        completed := s.completed ++ [b] } := by
  cases isQueue : queue with
  | nil =>
    subst isQueue
    have none : s.command = none := sound.command
    simp only [step, none] at stepped
    cases stepped
  | cons b rest =>
    subst isQueue
    have command : s.command = some (s.buf b).request := sound.command
    have start : s.idequeue = some b := sound.chain.1
    have onward : (s.buf b).qnext = rest.head? := sound.chain.2.start_eq
    simp only [step, command, ideintr, start] at stepped
    split at stepped
    · cases stepped
    · rename_i value completed
      have isValue := complete_eq (s := s) rfl completed
      refine ⟨b, rest, rfl, ?_⟩
      rw [onward] at stepped ⊢
      cases isNext : rest.head? with
      | none =>
        rw [isNext] at stepped
        cases stepped
        exact ⟨by rintro _ ⟨⟩, by rw [isValue]; rfl⟩
      | some c =>
        have other : c ≠ b := by
          rintro rfl
          have nodup := nodup_cons.mp sound.nodup
          exact nodup.1 (mem_of_mem_head? isNext)
        rw [isNext] at stepped
        obtain ⟨u, started, after⟩ := Except.of_bind_ok stepped
        cases after
        obtain ⟨small, rfl⟩ := idestart_ok started
        simp only [setBuf, update_of_ne other] at small
        refine ⟨fun d isFirst => ?_, ?_⟩
        · cases isFirst
          exact small
        · rw [isValue]
          simp only [setBuf, update_of_ne other, map_some, stored]

/-- The command in progress succeeds, or its failure makes no difference: what was to be read
is in the buffer already, or what was to be written is on the disk nevertheless. -/
def Faithful (s : System P B) : Event P B → Prop
  | .interrupt status damage => failed status = false ∨ ∀ b, s.idequeue = some b →
      if (s.buf b).dirty then damage = (s.buf b).data
      else (s.buf b).data = s.disk (s.buf b).address
  | _ => True

omit [DecidableEq B] in
/-- The buffer agrees with the disk after its request exactly when the end of the command is
faithful. -/
theorem received_eq_stored_iff (start : s.idequeue = some b) :
    s.received b status = s.stored b status damage (s.buf b).address ↔
      s.Faithful (.interrupt status damage) := by
  simp only [received, stored, Faithful, start, Option.some.injEq, forall_eq', Buf.request]
  cases isDirty : (s.buf b).dirty with
  | true =>
    cases isFailed : failed status with
    | true => simpa [perform, isFailed] using eq_comm
    | false => simp [perform, isFailed]
  | false => cases failed status <;> simp [perform]

/-- An interrupt finishes a request. -/
theorem Sound.interrupt [DecidableEq P] [Fintype B] (sound : Sound s queue)
    (stepped : s.step (.interrupt status damage) = .ok (some t)) :
    (∃ rest, Sound t rest) ∧ (s.Agrees → s.Faithful (.interrupt status damage) → t.Agrees) ∧
      (t.Agrees → s.Faithful (.interrupt status damage)) := by
  obtain ⟨b, rest, rfl, small, rfl⟩ := interrupt_ok sound stepped
  have start : s.idequeue = some b := sound.chain.1
  have outside : b ∉ rest := (nodup_cons.mp sound.nodup).1
  have other : ∀ c ∈ rest, c ≠ b := fun c mem isSame => outside (isSame ▸ mem)
  obtain ⟨⟨p, waits⟩, -⟩ := sound.queued b mem_cons_self
  have started := sound.started b rfl
  refine ⟨⟨rest, ?_, ?_, ?_, ?_, ?_, ?_, sound.held, ?_, ?_, ?_, ?_⟩, ?_, ?_⟩
  · refine sound.chain.2.congr fun c mem => ?_
    simp only [update_of_ne (other c mem)]
  · exact (nodup_cons.mp sound.nodup).2
  · simp only [sound.history, append_assoc, singleton_append]
  · refine Option.map_congr fun c isFirst => ?_
    simp only [update_of_ne (other c (mem_of_mem_head? isFirst))]
  · intro c isFirst
    simp only [update_of_ne (other c (mem_of_mem_head? isFirst))]
    exact small c isFirst
  · intro c mem
    simp only [update_of_ne (other c mem)]
    exact sound.queued c (mem_cons_of_mem b mem)
  · intro q c isWaiting notQueued
    by_cases isSame : c = b
    · subst isSame
      simp only [update_self]
      exact ⟨rfl, started⟩
    · simp only [update_of_ne isSame]
      exact sound.done q c isWaiting (by simp [isSame, notQueued])
  · intro c owned
    by_cases isSame : c = b
    · subst isSame
      simp only [update_self]
      exact sound.busy c owned
    · simp only [update_of_ne isSame]
      exact sound.busy c owned
  · intro c owned
    by_cases isSame : c = b
    · subst isSame
      simp only [update_self]
      exact sound.known c owned
    · simp only [update_of_ne isSame]
      exact sound.known c owned
  · intro c d used keys
    have same : ∀ c, (update s.buf b { s.buf b with
        data := s.received b status, valid := true, dirty := false } c).key = (s.buf c).key := by
      intro c
      by_cases isSame : c = b
      · subst isSame
        rw [update_self]
        rfl
      · rw [update_of_ne isSame]
    simp only [same] at keys
    refine sound.distinct c d (fun none => used ?_) keys
    exact (congrArg Prod.fst (same c)).trans none
  · intro agrees faithful q c isWaiting
    by_cases isSame : c = b
    · subst isSame
      simp only [update_self]
      exact fun _ => (received_eq_stored_iff start).mpr faithful
    · simp only [update_of_ne isSame]
      intro isServed
      have notQueued : c ∉ b :: rest := by
        intro mem
        rw [(sound.queued c mem).2] at isServed
        cases isServed
      -- The drive was at work on another sector.
      have apart : (s.buf c).address ≠ (s.buf b).address := by
        intro same
        have ownedC : s.owner c ≠ none := by
          rw [sound.held q c isWaiting]
          rintro ⟨⟩
        have ownedB : s.owner b ≠ none := by
          rw [sound.held p b waits]
          rintro ⟨⟩
        have keys := key_eq_of_address (sound.known c ownedC) (sound.known b ownedB)
          (sound.done q c isWaiting notQueued).2 started same
        exact isSame (sound.distinct c b (ne_nodev (sound.known c ownedC)) keys)
      rw [agrees q c isWaiting isServed, stored, Buf.request]
      split
      · rw [perform, update_of_ne apart]
      · rfl
  · intro agrees
    have mine := agrees p b waits
    simp only [update_self] at mine
    exact (received_eq_stored_iff start).mp (mine rfl)

/-! ## Runs -/

variable [DecidableEq P] [Fintype B]

/-- Every step keeps the queue. The agreement of buffers and disk is kept by the faithful steps,
and by no other. -/
theorem Sound.step (sound : Sound s queue) {event : Event P B}
    (stepped : s.step event = .ok (some t)) :
    (∃ rest, Sound t rest) ∧ (s.Agrees → s.Faithful event → t.Agrees) ∧
      (t.Agrees → s.Faithful event) := by
  cases event with
  | bget p disk1 blockno b =>
    simp only [System.step] at stepped
    split at stepped
    · cases stepped
    · rename_i free
      have unwanted : s.Unwanted b := by
        intro q waits
        refine free (Or.inr (sound.busy b ?_))
        rw [sound.held q b waits]
        rintro ⟨⟩
      have others : ∀ c, c ≠ b → update s.owner b (some p) c = s.owner c :=
        fun c other => update_of_ne other ..
      split at stepped
      · rename_i isKey
        have isDev : (s.buf b).dev = devOf disk1 := congrArg Prod.fst isKey
        cases stepped
        refine ⟨⟨queue, sound.edit unwanted _ _ others (fun _ => rfl) (fun _ => ?_) ?_⟩,
          fun agrees _ => agrees.edit unwanted _ _, fun _ => trivial⟩
        · exact isDev ▸ devOf_cases disk1
        · intro c other used keys
          exact other (sound.distinct b c used keys).symm
      · split at stepped
        · cases stepped
        · rename_i notCached
          cases stepped
          refine ⟨⟨queue, sound.edit unwanted _ _ others (fun _ => rfl)
            (fun _ => devOf_cases disk1) ?_⟩, fun agrees _ => agrees.edit unwanted _ _,
            fun _ => trivial⟩
          intro c other used keys
          exact notCached (Or.inl ⟨c, keys.symm⟩)
  | store p b data =>
    simp only [System.step] at stepped
    split at stepped
    · rename_i holds
      cases stepped
      refine ⟨⟨queue, sound.touch holds _ rfl rfl⟩, fun agrees _ => ?_, fun _ => trivial⟩
      exact agrees.edit (sound.unwanted holds) _ s.owner
    · cases stepped
  | mark p b =>
    simp only [System.step] at stepped
    split at stepped
    · rename_i holds
      cases stepped
      refine ⟨⟨queue, sound.touch holds _ rfl rfl⟩, fun agrees _ => ?_, fun _ => trivial⟩
      exact agrees.edit (sound.unwanted holds) _ s.owner
    · cases stepped
  | iderw p b =>
    simp only [System.step] at stepped
    split at stepped
    · rename_i holds
      obtain ⟨u, began, after⟩ := Except.of_bind_ok stepped
      cases u with
      | none => cases after
      | some u =>
        cases after
        obtain ⟨queued, agrees⟩ := sound.iderw holds began
        exact ⟨⟨queue ++ [b], queued⟩, fun before _ => agrees before, fun _ => trivial⟩
    · cases stepped
  | done p =>
    simp only [System.step] at stepped
    split at stepped
    · cases stepped
    · rename_i b waits
      split at stepped
      · rename_i isServed
        cases stepped
        -- Whoever still waits waited before.
        have before : ∀ q c, update s.waits p none q = some c →
            q ≠ p ∧ s.waits q = some c := by
          intro q c isWaiting
          by_cases isSame : q = p
          · subst isSame
            rw [update_self] at isWaiting
            cases isWaiting
          · rw [update_of_ne isSame] at isWaiting
            exact ⟨isSame, isWaiting⟩
        refine ⟨⟨queue, sound.chain, sound.nodup, sound.history, sound.command, sound.started, ?_,
          fun q c isWaiting => sound.held q c (before q c isWaiting).2,
          fun q c isWaiting => sound.done q c (before q c isWaiting).2, sound.busy, sound.known,
          sound.distinct⟩, fun agrees _ q c isWaiting => agrees q c (before q c isWaiting).2,
          fun _ => trivial⟩
        intro c mem
        obtain ⟨⟨q, isWaiting⟩, pending⟩ := sound.queued c mem
        refine ⟨⟨q, ?_⟩, pending⟩
        have other : q ≠ p := by
          rintro rfl
          rw [waits] at isWaiting
          cases isWaiting
          rw [isServed] at pending
          cases pending
        simp only [update_of_ne other]
        exact isWaiting
      · cases stepped
  | brelse p b =>
    simp only [System.step] at stepped
    split at stepped
    · rename_i holds
      cases stepped
      have unwanted := sound.unwanted holds
      have none : update s.owner b Option.none b = Option.none := update_self ..
      refine ⟨⟨queue, sound.edit unwanted _ _ (fun c other => update_of_ne other ..)
        (fun owned => absurd none owned) (fun owned => absurd none owned) ?_⟩,
        fun agrees _ => agrees.edit unwanted _ _, fun _ => trivial⟩
      intro c other used keys
      exact other (sound.distinct b c used keys).symm
    · cases stepped
  | interrupt status damage => exact sound.interrupt stepped

omit [DecidableEq B] [DecidableEq P] [Fintype B] in
theorem sound_boot (disk : Address → Block) (havedisk1 : Bool) :
    Sound (boot disk havedisk1 : System P B) [] where
  chain := rfl
  nodup := nodup_nil
  history := rfl
  command := rfl
  started := by rintro _ ⟨⟩
  queued := by rintro _ ⟨⟩
  held := by rintro _ _ ⟨⟩
  done := by rintro _ _ ⟨⟩
  busy := fun _ owned => absurd rfl owned
  known := fun _ owned => absurd rfl owned
  distinct := fun _ _ used => absurd rfl used

/-- In every run, whatever the drive reports: the queue holds each buffer once, the drive is at
work on its first buffer, requests are finished once and in the order in which they were made,
a process waits exactly for the buffers in the queue, and appending a buffer ends. In every
state in which a process may leave `iderw` its buffer agrees with the disk, exactly if the
commands that fail make no difference. -/
theorem disk_queue_integrity (disk : Address → Block) (havedisk1 : Bool)
    (events : List (Event P B)) (s : System P B)
    (ran : (boot disk havedisk1).run events = some s) :
    (∃ queue : List B, Chain (fun b => (s.buf b).qnext) s.idequeue queue ∧ queue.Nodup ∧
      s.command = (queue.head?.map fun b => (s.buf b).request) ∧
      s.issued = s.completed ++ queue ∧
      (∀ b, b ∈ queue ↔ ∃ p, s.waits p = some b ∧ (s.buf b).served = false) ∧
      ∀ p b, s.holds p b → (s.append b).isSome) ∧
    ((∀ k t, (boot disk havedisk1).run (events.take k) = some t → t.Agrees) ↔
      Runs.Meets step Faithful (boot disk havedisk1) events) := by
  constructor
  · obtain ⟨queue, sound⟩ := Runs.always (fun s : System P B => ∃ queue, Sound s queue)
      (fun before stepped => (before.choose_spec.step stepped).1) ⟨[], sound_boot disk havedisk1⟩ ran
    refine ⟨queue, sound.chain, sound.nodup, sound.command, sound.history, fun b => ⟨?_, ?_⟩, ?_⟩
    · intro mem
      obtain ⟨⟨p, waits⟩, pending⟩ := sound.queued b mem
      exact ⟨p, waits, pending⟩
    · rintro ⟨p, waits, pending⟩
      by_contra outside
      rw [(sound.done p b waits outside).1] at pending
      cases pending
    · intro p b holds
      obtain ⟨t, appended, -⟩ := sound.append (sound.notMem (sound.unwanted holds))
      rw [appended]
      rfl
  · refine Runs.visits_iff_meets (fun s => (∃ queue, Sound s queue) ∧ s.Agrees) Agrees
      (fun holds => holds.2) ?_ ?_ ⟨⟨[], sound_boot disk havedisk1⟩, by rintro _ _ ⟨⟩⟩ ran
    · rintro before after event ⟨⟨queue, sound⟩, agrees⟩ faithful stepped
      obtain ⟨still, kept, -⟩ := sound.step stepped
      exact ⟨still, kept agrees faithful⟩
    · rintro before after event ⟨⟨queue, sound⟩, -⟩ unfaithful stepped agrees
      exact unfaithful ((sound.step stepped).2.2 agrees)

/-- Not the end of a command that failed. -/
def succeeds : Event P B → Bool
  | .interrupt status _ => !failed status
  | _ => true

/-- Every byte of the disk is 1. -/
def ones : Address → Block := fun _ => Bytes.ofFn fun _ => 1

/-- Two processes read a block each. The drive serves both. -/
def bothRead : List (Event (Fin 2) (Fin 2)) :=
  [.bget 0 true 5 0, .bget 1 true 6 1, .iderw 0 0, .iderw 1 1, .interrupt 0x40 Bytes.zero,
    .interrupt 0x40 Bytes.zero, .done 0, .mark 0 0, .iderw 0 0, .interrupt 0x40 Bytes.zero]

theorem disk_queue_integrity_bothRead :
    ∃ s, (boot ones true).run bothRead = some s ∧ s.completed = [0, 1, 0] ∧ s.idequeue = none ∧
      s.waits = (fun p => some p) ∧ s.Agrees := by
  have read : ((boot ones true).run bothRead).map
      (fun s => (s.completed, s.idequeue, s.waits)) =
      some ([0, 1, 0], none, fun p => some p) := by
    decide +kernel
  obtain ⟨s, ran, isRead⟩ := Option.map_eq_some_iff.mp read
  obtain ⟨completed, rest⟩ := Prod.mk.inj isRead
  obtain ⟨empty, waits⟩ := Prod.mk.inj rest
  refine ⟨s, ran, completed, empty, waits, ?_⟩
  refine (disk_queue_integrity ones true bothRead s ran).2.mpr ?_ 10 s ran
  have checked : Runs.check step (fun _ => succeeds) (boot ones true) bothRead = true := by
    decide +kernel
  refine Runs.Meets.of_check (fun state event fine => ?_) checked
  cases event with
  | interrupt status damage => exact Or.inl (by simpa [succeeds] using fine)
  | _ => trivial

/-- A process reads a block, and the drive reports an error. -/
def failedRead : List (Event (Fin 1) (Fin 1)) :=
  [.bget 0 true 5 0, .iderw 0 0, .interrupt 0x41 Bytes.zero]

/-- The process may leave `iderw` with a valid buffer whose bytes are not those of the block. -/
theorem read_error_unnoticed :
    ∃ s, (boot ones true).run failedRead = some s ∧ s.waits 0 = some 0 ∧
      (s.buf 0).served = true ∧ (s.buf 0).data ≠ s.disk (s.buf 0).address := by
  have read : ((boot ones true).run failedRead).map
      (fun s => (s.waits 0, (s.buf 0).served, (s.buf 0).data.byte 0,
        (s.disk (s.buf 0).address).byte 0)) = some (some 0, true, 0, 1) := by
    decide +kernel
  obtain ⟨s, ran, isRead⟩ := Option.map_eq_some_iff.mp read
  obtain ⟨waits, rest⟩ := Prod.mk.inj isRead
  obtain ⟨isServed, rest⟩ := Prod.mk.inj rest
  obtain ⟨inBuffer, onDisk⟩ := Prod.mk.inj rest
  refine ⟨s, ran, waits, isServed, fun same => ?_⟩
  rw [same, onDisk] at inBuffer
  cases inBuffer

end System

end Xv6.Ide
