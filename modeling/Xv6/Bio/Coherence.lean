import Xv6.Bio.Invariant
import Xv6.Lib.Traced

/-!
# The buffer cache is coherent

Every step keeps the invariant, whatever process takes it and whether it is part of a
call of its own or of a commit. So in every state of every run no two buffers carry the
same block, the list runs through all buffers in both directions, a buffer is with one
process at a time and holds what was last logged or written, and a block that was logged
and not yet written to its place stays in its buffer.
-/

namespace Xv6.Bio

open Function Bio.System List

variable {P : Type} {s t : System P} {b : Fin nbuf} {p : P} {rest : List (Fin nbuf)} {pc : Pc}

/-! ## The disk -/

/-- What `iderw` does before it waits. -/
theorem iderw_ok (ran : s.iderw b = .ok t) : ((s.buf b).valid = false ∨ (s.buf b).dirty = true) ∧
    t = { s with
      idequeue := s.idequeue ++ [b]
      disk := if s.idequeue = [] ∧ (s.buf b).dirty = true then
          update s.disk (s.buf b).key (s.buf b).data
        else s.disk } := by
  unfold iderw at ran
  split at ran
  · cases ran
  split at ran
  · cases ran
  rename_i _ todo
  have unserved : (s.buf b).valid = false ∨ (s.buf b).dirty = true := by
    cases valid : (s.buf b).valid <;> cases dirty : (s.buf b).dirty <;> simp_all
  split at ran
  · cases ran
  split at ran
  · rename_i empty
    unfold idestart at ran
    refine ⟨unserved, ?_⟩
    split at ran
    · cases ran
    · split at ran
      · rename_i dirty
        cases ran
        simp_all
      · rename_i clean
        cases ran
        simp_all
  · rename_i waiting
    cases ran
    exact ⟨unserved, by simp [waiting]⟩

/-- A process that waits for a buffer has it, and has not changed its data since it asked. -/
theorem Owners.waiter (owners : Owners s) (waits : (s.pc p).waiting = some b) :
    (s.buf b).dev ≠ nodev ∧ ¬ s.Touched b ∧ ((s.buf b).dirty = true → (s.buf b).valid = true) := by
  rcases Pc.waiting_cases waits with ⟨key, fetching⟩ | writes
  · obtain ⟨-, rfl, real, fresh⟩ := owners.fetched p b key fetching
    refine ⟨real, ?_, ?_⟩
    · rintro ⟨q, h, held, -⟩
      rw [owners.apart p q b _ fetching] at held
      cases held
    · intro dirty
      cases valid : (s.buf b).valid with
      | true => rfl
      | false => rw [fresh valid] at dirty; cases dirty
  · obtain ⟨h, held, untouched⟩ := owners.writers p b writes
    obtain ⟨-, valid, isKey, real⟩ := owners.kept p b h held
    rw [← isKey] at real
    exact ⟨real, owners.untouched held untouched, fun _ => valid⟩

/-- What starting a request does. -/
theorem idestart_ok (ran : s.idestart b = .ok t) : t = { s with
    disk := if (s.buf b).dirty then update s.disk (s.buf b).key (s.buf b).data
      else s.disk } := by
  unfold idestart at ran
  split at ran
  · cases ran
  · split at ran
    · rename_i dirty
      cases ran
      rw [if_pos dirty]
    · rename_i clean
      cases ran
      rw [if_neg clean]

/-- The state in which the first request is done and the next one is not yet started. -/
def System.popped (s : System P) (b : Fin nbuf) (rest : List (Fin nbuf)) : System P :=
  { s.setBuf b (s.complete b) with
    idequeue := rest
    pending := if (s.buf b).dirty then Function.update s.pending (s.buf b).key false
      else s.pending }

/-- The requests behind the one that is done. -/
theorem Queue.tail (queue : Queue s) (first : s.idequeue = b :: rest) : rest.Nodup ∧
      (∀ c ∈ rest, ∃ p, (s.pc p).waiting = some c) ∧
      ∀ c ∈ rest, (s.popped b rest).buf c = s.buf c ∧
        ((s.buf c).valid = false ∨ (s.buf c).dirty = true) := by
  have nodup := first ▸ queue.nodup
  have queued := first ▸ queue.queued
  have unserved := first ▸ queue.unserved
  refine ⟨(nodup_cons.mp nodup).2, fun c member => queued c (mem_cons_of_mem _ member),
    fun c member => ⟨?_, unserved c (mem_cons_of_mem _ member)⟩⟩
  refine update_of_ne ?_ _ _
  rintro rfl
  exact (nodup_cons.mp nodup).1 member

/-- The first request is done. -/
theorem Sound.pop (sound : Sound s) (first : s.idequeue = b :: rest) :
    Owners (s.popped b rest) ∧ Data (s.popped b rest) := by
  obtain ⟨p, waits⟩ := sound.queue.queued b (first ▸ mem_cons_self)
  obtain ⟨real, untouched, valid⟩ := sound.owners.waiter waits
  have written := sound.queue.started b (by rw [first]; rfl)
  have owners : Owners (s.setBuf b (s.complete b)) := sound.owners.serve rfl rfl rfl
  have data := sound.data.serve real untouched valid written
  exact ⟨owners.congr rfl rfl rfl,
    data.congr (fun _ => Buf.Agrees.refl _) rfl rfl rfl (fun _ => id) fun _ => .inr rfl⟩

/-- The disk interrupt. -/
theorem Sound.ideintr (sound : Sound s) (ran : s.ideintr = .ok t) : Sound t := by
  unfold System.ideintr at ran
  split at ran
  · cases ran
    exact sound
  · rename_i b rest first
    obtain ⟨owners, data⟩ := sound.pop first
    obtain ⟨nodup, queued, others⟩ := sound.queue.tail first
    cases rest with
    | nil =>
      cases ran
      exact ⟨sound.linked, owners, data, by simp, by simp, by simp, by simp⟩
    | cons c rest =>
      obtain rfl := idestart_ok (s := s.popped b (c :: rest)) ran
      obtain ⟨same, -⟩ := others c mem_cons_self
      obtain ⟨p, waits⟩ := queued c mem_cons_self
      have real : ((s.popped b (c :: rest)).buf c).dev ≠ nodev :=
        same ▸ (sound.owners.waiter waits).1
      refine ⟨sound.linked, owners.congr rfl rfl rfl, ?_, nodup, queued, ?_, ?_⟩
      · split
        · rename_i dirty
          exact data.onto_disk real dirty _
        · exact data
      · intro d member
        obtain ⟨same, unserved⟩ := others d member
        have unchanged : (s.popped b (c :: rest)).buf d = s.buf d := same
        simp only [unchanged]
        exact unserved
      · rintro d isFirst dirty
        cases isFirst
        simp only at dirty ⊢
        rw [if_pos dirty, update_self]

variable [DecidableEq P]

/-- A process that waits for a buffer puts it into the queue. -/
theorem Queue.append (queue : Queue s) {disk : Key → Block} (was : (s.pc p).waiting = none)
    (waits : pc.waiting = some b) (absent : b ∉ s.idequeue)
    (unserved : (s.buf b).valid = false ∨ (s.buf b).dirty = true)
    (same : s.idequeue ≠ [] → disk = s.disk)
    (written : s.idequeue = [] → (s.buf b).dirty = true → disk (s.buf b).key = (s.buf b).data) :
    Queue ({ s with idequeue := s.idequeue ++ [b], disk }.goto p pc) where
  nodup := by
    refine Nodup.append queue.nodup (nodup_singleton b) ?_
    intro c member isB
    rw [mem_singleton] at isB
    exact absent (isB ▸ member)
  queued := by
    intro c member
    rcases mem_append.mp member with before | isB
    · obtain ⟨q, waiting⟩ := queue.queued c before
      have apart : q ≠ p := by
        rintro rfl
        rw [was] at waiting
        cases waiting
      exact ⟨q, by simpa [System.goto, apart] using waiting⟩
    · rw [mem_singleton] at isB
      exact ⟨p, by simpa [System.goto, isB] using waits⟩
  unserved := by
    intro c member
    rcases mem_append.mp member with before | isB
    · exact queue.unserved c before
    · rw [mem_singleton] at isB
      exact isB ▸ unserved
  started := by
    intro c first dirty
    cases queueing : s.idequeue with
    | nil =>
      simp only [System.goto, queueing, nil_append, head?_cons,
        Option.some.injEq] at first
      subst first
      exact written queueing dirty
    | cons head rest =>
      have nonempty : s.idequeue ≠ [] := by simp [queueing]
      simp only [System.goto, queueing, cons_append, head?_cons,
        Option.some.injEq] at first
      have before := queue.started c (by simp [queueing, first]) dirty
      simpa only [System.goto, same nonempty] using before

/-- A process that has a buffer asks the disk for it. -/
theorem Sound.enqueue (sound : Sound s) (real : (s.buf b).dev ≠ nodev) (absent : b ∉ s.idequeue)
    (was : (s.pc p).waiting = none) (waits : pc.waiting = some b)
    (fetching : ∀ c key, pc.fetching = some (c, key) → (s.pc p).fetching = some (c, key))
    (writes : ∀ c, pc.writes = some c → ∃ h, s.held p c = some h ∧ h.touched = false)
    (ran : s.iderw b = .ok t) : Sound (t.goto p pc) := by
  obtain ⟨unserved, rfl⟩ := iderw_ok ran
  have owners : Owners { s with
      idequeue := s.idequeue ++ [b]
      disk := if s.idequeue = [] ∧ (s.buf b).dirty = true then
          update s.disk (s.buf b).key (s.buf b).data
        else s.disk } := sound.owners.congr rfl rfl rfl
  refine ⟨sound.linked, owners.goto fetching writes, ?_, ?_⟩
  · have stored : ∀ disk, disk = (if s.idequeue = [] ∧ (s.buf b).dirty = true then
        update s.disk (s.buf b).key (s.buf b).data else s.disk) →
        Data { s with disk } := by
      rintro disk rfl
      split
      · rename_i first
        exact sound.data.onto_disk real first.2 _
      · exact sound.data
    exact (stored _ rfl).congr (fun _ => Buf.Agrees.refl _) rfl rfl rfl (fun _ => id)
      fun _ => .inr rfl
  · refine sound.queue.append was waits absent unserved (fun nonempty => ?_) fun empty dirty => ?_
    · rw [if_neg (fun first => nonempty first.1)]
    · rw [if_pos ⟨empty, dirty⟩, update_self]

/-! ## The steps of a process -/

namespace Sound

variable {dev : Dev} {blockno : UInt32} {h : Hold}

omit [DecidableEq P] in
/-- The log and the operations in progress do not matter. -/
theorem setLog (sound : Sound s) (log : Log) (active : P → Bool) : Sound { s with log, active } :=
  ⟨sound.linked, sound.owners.congr rfl rfl rfl,
    sound.data.congr (fun _ => Buf.Agrees.refl _) rfl rfl rfl (fun _ => id) fun _ => .inr rfl,
    sound.queue.congr (fun _ _ => Buf.Agrees.refl _) (fun _ _ => rfl) rfl rfl fun _ _ _ => id⟩

/-- A process goes on, and waits for no buffer in the queue. -/
theorem goto (sound : Sound s) (was : ∀ b ∈ s.idequeue, (s.pc p).waiting ≠ some b)
    (fetching : pc.fetching = none) (writes : pc.writes = none) : Sound (s.goto p pc) := by
  refine ⟨sound.linked, sound.owners.goto (by simp [fetching]) (by simp [writes]),
    sound.data.congr (fun _ => Buf.Agrees.refl _) rfl rfl rfl (fun _ => id) fun _ => .inr rfl,
    sound.queue.congr (fun _ _ => Buf.Agrees.refl _) (fun _ _ => rfl) rfl rfl ?_⟩
  intro b member q waits
  have apart : q ≠ p := by
    rintro rfl
    exact was b member waits
  simpa [System.goto, apart] using waits

/-- `bget` returns a buffer. -/
theorem fetch (sound : Sound s) {rest : Fin nbuf → Program} (was : (s.pc p).waiting = none)
    (ran : s.bget dev.val blockno = .ok (some (b, t))) :
    Sound (t.goto p (.got dev blockno b rest)) := by
  obtain ⟨free, found⟩ := bget_cases sound.linked ran
  have unqueued : b ∉ s.idequeue := by
    intro member
    obtain ⟨q, waits⟩ := sound.queue.queued b member
    rcases Pc.waiting_cases waits with ⟨key, fetching⟩ | writes
    · exact (sound.owners.free free).2 q key fetching
    · obtain ⟨h, held, -⟩ := sound.owners.writers q b writes
      rw [(sound.owners.free free).1 q] at held
      cases held
  have waits : ∀ value, ∀ c ∈ s.idequeue, ∀ q, (s.pc q).waiting = some c →
      (((s.setBuf b value).goto p (.got dev blockno b rest)).pc q).waiting = some c := by
    intro value c _ q waits
    have apart : q ≠ p := by
      rintro rfl
      rw [was] at waits
      cases waits
    simpa [System.goto, setBuf, apart] using waits
  have others : ∀ value, ∀ c ∈ s.idequeue,
      ((s.setBuf b value).goto p (.got dev blockno b rest)).buf c = s.buf c := by
    intro value c member
    have apart : c ≠ b := fun same => unqueued (same ▸ member)
    simp [System.goto, setBuf, apart]
  rcases found with ⟨named, rfl⟩ | ⟨missing, clean, rfl⟩
  · have valid := sound.owners.released b free (by
      rw [show (s.buf b).dev = dev.val from congrArg Prod.fst named]
      exact dev.property)
    refine ⟨sound.linked, sound.owners.fetch free rfl named (by simp [valid]), ?_,
      sound.queue.congr (fun c member => ?_) (fun c member => ?_) rfl rfl (waits _)⟩
    · refine sound.data.congr (fun c => ?_) rfl rfl rfl (fun _ => id) fun c => .inr ?_
      · by_cases same : c = b
        · subst same
          simp [System.goto, setBuf, Buf.Agrees]
        · simp [System.goto, setBuf, Buf.Agrees, same]
      · by_cases same : c = b
        · subst same
          simp [System.goto, setBuf]
        · simp [System.goto, setBuf, same]
    · rw [others _ c member]
      exact Buf.Agrees.refl _
    · rw [others _ c member]
  · have recycled : Data (s.setBuf b { s.buf b with
        dev := dev.val, blockno, busy := true, valid := false, dirty := false }) :=
      sound.data.recycle clean rfl dev.property missing
    refine ⟨sound.linked, sound.owners.fetch free rfl rfl (fun _ => rfl),
      recycled.congr (fun _ => Buf.Agrees.refl _) rfl rfl rfl (fun _ => id) fun _ => .inr rfl,
      sound.queue.congr (fun c member => ?_) (fun c member => ?_) rfl rfl (waits _)⟩
    · rw [others _ c member]
      exact Buf.Agrees.refl _
    · rw [others _ c member]

omit [DecidableEq P] in
/-- A buffer that the disk has served is not in the queue. -/
theorem served (sound : Sound s) (done : s.served b = true) : b ∉ s.idequeue := by
  intro member
  simp only [System.served, Bool.and_eq_true, Bool.not_eq_true'] at done
  rcases sound.queue.unserved b member with invalid | dirty
  · rw [done.1] at invalid
    cases invalid
  · rw [done.2] at dirty
    cases dirty

/-- `bread` returns a buffer. -/
theorem give (sound : Sound s) {rest : Fin nbuf → Program}
    (was : ∀ c ∈ s.idequeue, (s.pc p).waiting ≠ some c)
    (fetching : (s.pc p).fetching = some (b, (dev.val, blockno))) (valid : (s.buf b).valid = true) :
    Sound (s.give p dev blockno b rest) := by
  have unheld := fun q => sound.owners.apart p q b _ fetching
  refine ⟨sound.linked, sound.owners.give fetching valid, ?_,
    sound.queue.congr (fun _ _ => Buf.Agrees.refl _) (fun _ _ => rfl) rfl rfl ?_⟩
  · refine sound.data.congr (fun _ => Buf.Agrees.refl _) rfl rfl rfl ?_ fun _ => .inr rfl
    intro c touched
    by_cases same : c = b
    · obtain ⟨q, h, held, -⟩ := touched
      rw [same, unheld q] at held
      cases held
    · exact (touched_hold same).mpr touched
  · intro c member q waits
    have apart : q ≠ p := by
      rintro rfl
      exact was c member waits
    simpa [System.give, hold, System.goto, apart] using waits

section

variable (sound : Sound s) (holds : s.held p b = some h) (outside : (s.pc p).waiting = none)

include sound holds outside

omit [DecidableEq P] in
/-- Nobody else has a holds buffer, and it is not in the queue unless its holder waits. -/
theorem held : (∀ q, q ≠ p → s.held q b = none) ∧ b ∉ s.idequeue ∧ (s.buf b).dev ≠ nodev := by
  refine ⟨fun q differ => ?_, fun member => ?_, ?_⟩
  · cases heldToo : s.held q b with
    | none => rfl
    | some g => exact absurd (sound.owners.holders q p b g h heldToo holds) differ
  · obtain ⟨q, waits⟩ := sound.queue.queued b member
    rcases Pc.waiting_cases waits with ⟨key, fetching⟩ | writes
    · rw [sound.owners.apart q p b key fetching] at holds
      cases holds
    · obtain ⟨g, heldToo, -⟩ := sound.owners.writers q b writes
      cases sound.owners.holders q p b g h heldToo holds
      rw [outside] at waits
      cases waits
  · obtain ⟨-, -, isKey, real⟩ := sound.owners.kept p b h holds
    rw [← isKey] at real
    exact real

/-- The holder of a buffer changes its data. -/
theorem store (writes : (s.pc p).writes = none) (value : Block) :
    Sound (s.store p b h value) := by
  obtain ⟨alone, unqueued, -⟩ := sound.held holds outside
  refine ⟨sound.linked, sound.owners.rework holds writes rfl rfl rfl, sound.data.store alone value,
    sound.queue.congr (fun c member => ?_) (fun c member => ?_) rfl rfl fun _ _ _ => id⟩
  all_goals
    have apart : c ≠ b := fun same => unqueued (same ▸ member)
    simp [System.store, hold, setBuf, apart, Buf.Agrees]

/-- The holder of a buffer logs its data or has them written. -/
theorem sync {pending : Key → Bool} (writes : (s.pc p).writes = none)
    (others : ∀ key, key ≠ (s.buf b).key → pending key = s.pending key) :
    Sound { s.sync p b h with pending } := by
  obtain ⟨alone, unqueued, real⟩ := sound.held holds outside
  have owners : Owners ((s.setBuf b { s.buf b with dirty := true }).hold p b
      (some { h with touched := false })) := sound.owners.rework holds writes rfl rfl rfl
  refine ⟨sound.linked, owners.congr rfl rfl rfl, sound.data.sync real others,
    sound.queue.congr (fun c member => ?_) (fun c member => ?_) rfl rfl fun _ _ _ => id⟩
  all_goals
    have apart : c ≠ b := fun same => unqueued (same ▸ member)
    simp [System.sync, hold, setBuf, apart, Buf.Agrees]

/-- The holder of a buffer releases it. -/
theorem release (writes : (s.pc p).writes = none) (untouched : h.touched = false) :
    Sound ((s.release b).hold p b none) := by
  obtain ⟨alone, unqueued, -⟩ := sound.held holds outside
  refine ⟨sound.linked.release b, sound.owners.drop holds writes, ?_,
    sound.queue.congr (fun c member => ?_) (fun c member => ?_) rfl rfl fun _ _ _ => id⟩
  · refine sound.data.congr (fun c => ?_) rfl rfl rfl (fun c touched => ?_) fun c => .inr ?_
    · by_cases same : c = b
      · subst same
        simp [System.release, hold, setBuf, Buf.Agrees]
      · simp [System.release, hold, setBuf, Buf.Agrees, same]
    · by_cases same : c = b
      · exact absurd (same ▸ touched) (sound.owners.untouched holds untouched)
      · exact (touched_hold same).mpr touched
    · by_cases same : c = b
      · subst same
        simp [System.release, hold, setBuf]
      · simp [System.release, hold, setBuf, same]
  all_goals
    have apart : c ≠ b := fun same => unqueued (same ▸ member)
    simp [System.release, hold, setBuf, apart, Buf.Agrees]

end

/-- A process begins its next call. -/
theorem begin (sound : Sound s) {program : Program} (here : s.pc p = .run program)
    (ran : s.begin p program = .ok (some t)) : Sound t := by
  have outside : (s.pc p).waiting = none := by rw [here]; rfl
  have writes : (s.pc p).writes = none := by rw [here]; rfl
  have was : ∀ b ∈ s.idequeue, (s.pc p).waiting ≠ some b := by simp [outside]
  cases program with
  | idle => cases ran
  | bread dev blockno rest =>
    obtain ⟨answer, getting, ran⟩ := Except.of_bind_ok ran
    cases answer with
    | none => cases ran
    | some result =>
      cases ran
      exact sound.fetch outside getting
  | write b data rest =>
    simp only [System.begin] at ran
    split at ran
    · cases ran
    · rename_i h held
      cases ran
      exact (sound.store held outside writes data).goto was rfl rfl
  | memmove dst src rest =>
    simp only [System.begin] at ran
    split at ran
    · rename_i h _ held _
      cases ran
      exact (sound.store held outside writes _).goto was rfl rfl
    · cases ran
  | logWrite b rest =>
    simp only [System.begin] at ran
    split at ran
    · cases ran
    · cases ran
      exact sound.goto was rfl rfl
  | bwrite b rest =>
    simp only [System.begin] at ran
    split at ran
    · cases ran
    · rename_i h held
      obtain ⟨after, writing, ran⟩ := Except.of_bind_ok ran
      cases ran
      unfold System.bwrite at writing
      split at writing
      · cases writing
      · have synced : Sound (s.sync p b h) := sound.sync held outside writes fun _ _ => rfl
        have mine : (s.sync p b h).held p b = some { h with touched := false } := by
          simp [System.sync, hold]
        obtain ⟨-, unqueued, real⟩ := synced.held mine outside
        refine synced.enqueue real unqueued outside rfl (by rintro _ _ ⟨⟩) ?_ writing
        rintro c ⟨⟩
        exact ⟨_, mine, rfl⟩
  | brelse b rest =>
    simp only [System.begin] at ran
    split at ran
    · cases ran
    · rename_i h held
      split at ran
      · cases ran
      split at ran
      · cases ran
      · rename_i untouched _
        cases ran
        exact (sound.release held outside writes (by simpa using untouched)).goto was rfl rfl
  | beginOp rest =>
    simp only [System.begin] at ran
    split at ran
    · cases ran
    · split at ran
      · cases ran
      · cases ran
        exact (sound.setLog _ _).goto was rfl rfl
  | endOp rest =>
    simp only [System.begin] at ran
    split at ran
    · obtain ⟨⟨doCommit, log⟩, -, ran⟩ := Except.of_bind_ok ran
      cases ran
      exact (sound.setLog _ _).goto was rfl rfl
    · cases ran
  | commit rest =>
    cases ran
    exact sound.goto was rfl rfl
  | writeLog tail rest =>
    simp only [System.begin] at ran
    split at ran
    all_goals
      cases ran
      exact sound.goto was rfl rfl
  | writeHead rest =>
    cases ran
    exact sound.goto was rfl rfl
  | storeHead b rest =>
    simp only [System.begin] at ran
    split at ran
    · cases ran
    · rename_i h held
      cases ran
      exact (sound.store held outside writes _).goto was rfl rfl
  | installTrans tail rest =>
    simp only [System.begin] at ran
    split at ran
    all_goals
      cases ran
      exact sound.goto was rfl rfl
  | clearHead rest =>
    cases ran
    exact (sound.setLog _ _).goto was rfl rfl
  | committed rest =>
    cases ran
    exact (sound.setLog _ _).goto was rfl rfl

/-- A process goes on. -/
theorem next (sound : Sound s) (ran : s.next p = .ok (some t)) : Sound t := by
  unfold System.next at ran
  cases here : s.pc p with
  | run program =>
    rw [here] at ran
    exact sound.begin here ran
  | got dev blockno b rest =>
    rw [here] at ran
    have fetching : (s.pc p).fetching = some (b, (dev.val, blockno)) := by rw [here]; rfl
    have outside : (s.pc p).waiting = none := by rw [here]; rfl
    simp only at ran
    split at ran
    · rename_i valid
      cases ran
      exact sound.give (by simp [outside]) fetching valid
    · obtain ⟨after, reading, ran⟩ := Except.of_bind_ok ran
      cases ran
      obtain ⟨-, named, real, -⟩ := sound.owners.fetched p b _ fetching
      rw [← named] at real
      refine sound.enqueue real (fun member => ?_) outside rfl ?_ (by rintro _ ⟨⟩) reading
      · obtain ⟨q, waits⟩ := sound.queue.queued b member
        rcases Pc.waiting_cases waits with ⟨key, fetchingToo⟩ | writes
        · cases sound.owners.fetchers p q b _ key fetching fetchingToo
          rw [outside] at waits
          cases waits
        · obtain ⟨h, held, -⟩ := sound.owners.writers q b writes
          rw [sound.owners.apart p q b _ fetching] at held
          cases held
      · rintro c key ⟨⟩
        exact fetching
  | reading dev blockno b rest =>
    rw [here] at ran
    simp only [Except.ok.injEq, Option.ite_none_right_eq_some, Option.some.injEq] at ran
    obtain ⟨done, rfl⟩ := ran
    have unqueued := sound.served done
    simp only [System.served, Bool.and_eq_true] at done
    refine sound.give (fun c member waits => ?_) (by rw [here]; rfl) done.1
    rw [here] at waits
    cases waits
    exact unqueued member
  | logging b rest =>
    rw [here] at ran
    simp only at ran
    split at ran
    · cases ran
    · rename_i h held
      cases ran
      have was : ∀ c ∈ s.idequeue, (s.pc p).waiting ≠ some c := by simp [here, Pc.waiting]
      have logged : Sound { s.sync p b h with
          pending := update s.pending (s.buf b).key true } :=
        sound.sync held (by rw [here]; rfl) (by rw [here]; rfl) fun key differ =>
          update_of_ne differ _ _
      exact (logged.setLog _ _).goto was rfl rfl
  | writing b rest =>
    rw [here] at ran
    simp only [Except.ok.injEq, Option.ite_none_right_eq_some, Option.some.injEq] at ran
    obtain ⟨done, rfl⟩ := ran
    have unqueued := sound.served done
    refine sound.goto (fun c member waits => ?_) rfl rfl
    rw [here] at waits
    cases waits
    exact unqueued member

/-- One step of the system. -/
theorem step (sound : Sound s) {e : Event P} (ran : s.step e = .ok (some t)) : Sound t := by
  cases e with
  | call p c =>
    simp only [System.step] at ran
    split at ran
    · rename_i here
      cases ran
      exact sound.goto (by simp [here, Pc.waiting]) rfl rfl
    · cases ran
  | next p => exact sound.next ran
  | ideintr =>
    obtain ⟨after, done, ran⟩ := Except.of_bind_ok ran
    cases ran
    exact sound.ideintr done

end Sound

/-! ## Every run -/

/-- `binit` puts the buffers into the list one after the other. -/
theorem binit_cycle {links : Links Node} {nodes : List (Fin nbuf)} (bufs : List (Fin nbuf))
    (cycle : links.Cycle .head (nodes.map .buf)) (nodup : (bufs ++ nodes).Nodup) :
    (binit bufs links).Cycle .head ((bufs.reverse ++ nodes).map .buf) := by
  induction bufs generalizing links nodes with
  | nil => exact cycle
  | cons b rest ih =>
    rw [cons_append, nodup_cons, mem_append, not_or] at nodup
    have fresh : Node.buf b ∉ Node.head :: nodes.map Node.buf := by
      simpa using nodup.1.2
    have pushed : (links.pushFront .head (.buf b)).Cycle .head ((b :: nodes).map .buf) :=
      cycle.pushFront fresh
    have apart : (rest ++ b :: nodes).Nodup := by
      rw [nodup_middle, nodup_cons, mem_append, not_or]
      exact nodup
    simpa [binit] using ih pushed apart

omit [DecidableEq P] in
/-- The system after `binit`. -/
theorem boot_sound (disk : Key → Block) (havedisk1 : Bool) (logDev : Dev) (start size : Nat) :
    Sound (boot disk havedisk1 logDev start size : System P) where
  linked := by
    have empty : (⟨fun _ => .head, fun _ => .head⟩ : Links Node).Cycle .head
        (([] : List (Fin nbuf)).map .buf) := ⟨⟨rfl, rfl⟩, by simp⟩
    refine ⟨(finRange nbuf).reverse ++ [], fun b => by simp, ?_⟩
    exact binit_cycle _ empty (by simpa using nodup_finRange nbuf)
  owners :=
    { holders := by rintro _ _ _ _ _ ⟨⟩
      fetchers := by rintro _ _ _ _ _ ⟨⟩
      apart := by rintro _ _ _ _ ⟨⟩
      kept := by rintro _ _ _ ⟨⟩
      fetched := by rintro _ _ _ ⟨⟩
      released := fun _ _ real => absurd rfl real
      writers := by rintro _ _ ⟨⟩ }
  data :=
    { distinct := fun _ _ _ real => absurd rfl real
      current := fun _ real => absurd rfl real
      clean := fun _ real => absurd rfl real
      pinned := fun _ real => absurd rfl real
      absent := fun _ _ _ => ⟨rfl, rfl⟩ }
  queue :=
    { nodup := nodup_nil
      queued := by rintro _ ⟨⟩
      unserved := by rintro _ ⟨⟩
      started := by rintro _ ⟨⟩ }

/-- The events in which a process reads a block, changes it and logs it. -/
def logOneBlock : List (Event (Fin 2)) :=
  [.call 0 .beginOp, .next 0, .call 0 (.bread ⟨1, by decide⟩ 59), .next 0, .next 0, .ideintr,
    .next 0, .call 0 (.write ⟨0, by decide⟩ (Bytes.zero.putU32 0 7)), .next 0,
    .call 0 (.logWrite ⟨0, by decide⟩), .next 0, .next 0]

/-- In every state of every run the disk is behind what was last logged or written for a
block only while a dirty buffer has the block; and no buffer is queued for the disk twice,
or without a process that waits for it. -/
theorem disk_behind_dirty {disk : Key → Block} {havedisk1 : Bool} {logDev : Dev}
    {start size : Nat} {events : List (Event P)}
    (ran : (System.boot disk havedisk1 logDev start size).run events = some s) :
    (∀ key : Key, key.1 ≠ nodev → s.disk key ≠ s.contents key →
      ∃ b, (s.buf b).key = key ∧ (s.buf b).dirty = true) ∧
    s.idequeue.Nodup ∧ ∀ b ∈ s.idequeue, ∃ p, (s.pc p).waiting = some b := by
  have sound : Sound s := Runs.always Sound (fun sound => sound.step) (boot_sound _ _ _ _ _) ran
  refine ⟨fun key real behind => ?_, sound.queue.nodup, sound.queue.queued⟩
  by_contra missing
  refine behind (sound.data.absent key real ?_).1
  rintro b rfl
  refine missing ⟨b, rfl, ?_⟩
  by_contra clean
  exact behind (sound.data.clean b real (Bool.eq_false_iff.mpr clean))

theorem disk_behind_dirty_logged : ∃ s : System (Fin 2),
    (System.boot (fun _ => Bytes.zero) true ⟨1, by decide⟩ 2 30).run logOneBlock = some s ∧
    ∀ key : Key, key.1 ≠ nodev → s.disk key ≠ s.contents key →
      ∃ b, (s.buf b).key = key ∧ (s.buf b).dirty = true := by
  obtain ⟨s, ran⟩ := Option.isSome_iff_exists.mp (show ((System.boot (fun _ => Bytes.zero) true
    ⟨1, by decide⟩ 2 30).run logOneBlock).isSome = true by decide +kernel)
  exact ⟨s, ran, (disk_behind_dirty ran).1⟩

end Xv6.Bio
