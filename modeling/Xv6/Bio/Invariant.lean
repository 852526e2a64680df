import Xv6.Bio.Model

/-!
# The invariant of the buffer cache

One invariant relates the buffers, the disk queue and where the processes are to the
recorded contents of the blocks. A block that no buffer carries is on the disk as it was
last written, and is not pending. A buffer that carries a block holds its last contents,
unless it is still to be read or its holder is changing it; while it is clean so does the
disk, and while the block is pending it is dirty, so that `bget` does not recycle it.
-/

namespace Xv6.Bio

open Function List

variable {pc : Pc} {b c : Fin nbuf} {value : Buf} {h : Hold} {blockno : UInt32}

/-- The buffer that a process has from `bget` but not yet from `bread`, and the block it
asked for. -/
def Pc.fetching : Pc → Option (Fin nbuf × Key)
  | .got dev blockno b _ => some (b, (dev.val, blockno))
  | .reading dev blockno b _ => some (b, (dev.val, blockno))
  | _ => none

/-- The buffer that a process waits for the disk to serve. -/
def Pc.waiting : Pc → Option (Fin nbuf)
  | .reading _ _ b _ => some b
  | .writing b _ => some b
  | _ => none

/-- The buffer that a process waits for the disk to write. -/
def Pc.writes : Pc → Option (Fin nbuf)
  | .writing b _ => some b
  | _ => none

/-- A process waits to read a block or to write it. -/
@[grind →] theorem Pc.waiting_cases (waits : pc.waiting = some b) :
    (∃ key, pc.fetching = some (b, key)) ∨ pc.writes = some b := by
  cases pc <;> simp_all [Pc.writes, Pc.waiting, Pc.fetching]

variable {P : Type}

namespace System

/-- The holder of a buffer has changed its data and not yet logged or written them. -/
def Touched (s : System P) (b : Fin nbuf) : Prop := ∃ p h, s.held p b = some h ∧ h.touched = true

/-- The list runs through all buffers. -/
def Linked (s : System P) : Prop :=
  ∃ nodes : List (Fin nbuf), (∀ b, b ∈ nodes) ∧ s.links.Cycle .head (nodes.map .buf)

end System

/-- Which processes have which buffers. -/
structure Owners (s : System P) : Prop where
  holders : ∀ p q b h g, s.held p b = some h → s.held q b = some g → p = q
  fetchers : ∀ p q b key other, (s.pc p).fetching = some (b, key) →
    (s.pc q).fetching = some (b, other) → p = q
  apart : ∀ p q b key, (s.pc p).fetching = some (b, key) → s.held q b = none
  kept : ∀ p b h, s.held p b = some h → (s.buf b).busy = true ∧ (s.buf b).valid = true ∧
    (s.buf b).key = h.key ∧ h.key.1 ≠ nodev
  fetched : ∀ p b key, (s.pc p).fetching = some (b, key) → (s.buf b).busy = true ∧
    (s.buf b).key = key ∧ key.1 ≠ nodev ∧ ((s.buf b).valid = false → (s.buf b).dirty = false)
  released : ∀ b, (s.buf b).busy = false → (s.buf b).dev ≠ nodev → (s.buf b).valid = true
  writers : ∀ p b, (s.pc p).writes = some b → ∃ h, s.held p b = some h ∧ h.touched = false

/-- What the buffers and the disk hold. -/
structure Data (s : System P) : Prop where
  distinct : ∀ b c, (s.buf b).key = (s.buf c).key → (s.buf b).dev ≠ nodev → b = c
  current : ∀ b, (s.buf b).dev ≠ nodev → (s.buf b).valid = true → ¬ s.Touched b →
    (s.buf b).data = s.contents (s.buf b).key
  clean : ∀ b, (s.buf b).dev ≠ nodev → (s.buf b).dirty = false →
    s.disk (s.buf b).key = s.contents (s.buf b).key
  pinned : ∀ b, (s.buf b).dev ≠ nodev → s.pending (s.buf b).key = true → (s.buf b).dirty = true
  absent : ∀ key : Key, key.1 ≠ nodev → (∀ b, (s.buf b).key ≠ key) →
    s.disk key = s.contents key ∧ s.pending key = false

/-- Which buffers wait for the disk. -/
structure Queue (s : System P) : Prop where
  nodup : s.idequeue.Nodup
  queued : ∀ b ∈ s.idequeue, ∃ p, (s.pc p).waiting = some b
  unserved : ∀ b ∈ s.idequeue, (s.buf b).valid = false ∨ (s.buf b).dirty = true
  started : ∀ b, s.idequeue.head? = some b → (s.buf b).dirty = true →
    s.disk (s.buf b).key = (s.buf b).data

/-- What holds between any two steps. -/
structure Sound (s : System P) : Prop where
  linked : s.Linked
  owners : Owners s
  data : Data s
  queue : Queue s

variable {s t : System P}

/-! ## What does not change -/

/-- Two buffers agree but for being busy and for their data. -/
def Buf.Agrees (left right : Buf) : Prop :=
  left.dev = right.dev ∧ left.blockno = right.blockno ∧ left.valid = right.valid ∧
    left.dirty = right.dirty

theorem Buf.Agrees.refl (buf : Buf) : buf.Agrees buf := ⟨rfl, rfl, rfl, rfl⟩

@[grind →] theorem Buf.Agrees.key {left right : Buf} (agrees : left.Agrees right) :
    left.key = right.key := by
  rw [Buf.key, agrees.1, agrees.2.1, Buf.key]

/-- What the buffers hold does not depend on who has them. -/
theorem Data.congr (data : Data s) (bufs : ∀ b, (t.buf b).Agrees (s.buf b)) (disk : t.disk = s.disk)
    (contents : t.contents = s.contents) (pending : t.pending = s.pending)
    (touched : ∀ b, s.Touched b → t.Touched b)
    (same : ∀ b, t.Touched b ∨ (t.buf b).data = (s.buf b).data) : Data t where
  distinct := by
    intro b c same real
    rw [(bufs b).key, (bufs c).key] at same
    exact data.distinct b c same ((bufs b).1 ▸ real)
  current := by
    intro b real valid untouched
    rw [(bufs b).key, (same b).resolve_left untouched, contents]
    exact data.current b ((bufs b).1 ▸ real) ((bufs b).2.2.1 ▸ valid) fun was =>
      untouched (touched b was)
  clean := by
    intro b real clean
    rw [(bufs b).key, disk, contents]
    exact data.clean b ((bufs b).1 ▸ real) ((bufs b).2.2.2 ▸ clean)
  pinned := by
    intro b real pinned
    rw [(bufs b).key, pending] at pinned
    rw [(bufs b).2.2.2]
    exact data.pinned b ((bufs b).1 ▸ real) pinned
  absent := by
    intro key real missing
    rw [disk, contents, pending]
    exact data.absent key real fun b same => missing b ((bufs b).key.trans same)

/-- Who has which buffer does not depend on the disk, the log and the list. -/
theorem Owners.congr (owners : Owners s) (bufs : t.buf = s.buf) (held : t.held = s.held)
    (pc : t.pc = s.pc) : Owners t where
  holders := held ▸ owners.holders
  fetchers := pc ▸ owners.fetchers
  apart := held ▸ pc ▸ owners.apart
  kept := held ▸ bufs ▸ owners.kept
  fetched := pc ▸ bufs ▸ owners.fetched
  released := bufs ▸ owners.released
  writers := held ▸ pc ▸ owners.writers

/-- The queue does not depend on who has the buffers, as long as the processes that wait
go on waiting. -/
theorem Queue.congr (queue : Queue s) (bufs : ∀ b ∈ s.idequeue, (t.buf b).Agrees (s.buf b))
    (data : ∀ b ∈ s.idequeue, (t.buf b).data = (s.buf b).data)
    (disk : t.disk = s.disk) (same : t.idequeue = s.idequeue)
    (waits : ∀ b ∈ s.idequeue, ∀ p, (s.pc p).waiting = some b → (t.pc p).waiting = some b) :
    Queue t where
  nodup := same ▸ queue.nodup
  queued := by
    intro b member
    rw [same] at member
    obtain ⟨p, waiting⟩ := queue.queued b member
    exact ⟨p, waits b member p waiting⟩
  unserved := by
    intro b member
    rw [same] at member
    rw [(bufs b member).2.2.1, (bufs b member).2.2.2]
    exact queue.unserved b member
  started := by
    intro b first dirty
    rw [same] at first
    have member := mem_of_head? first
    rw [(bufs b member).2.2.2] at dirty
    rw [(bufs b member).key, data b member, disk]
    exact queue.started b first dirty

variable {p : P}

/-- What a process notes of one buffer does not matter for the others. -/
theorem System.touched_hold [DecidableEq P] {value : Option Hold} (differ : c ≠ b) :
    (s.hold p b value).Touched c ↔ s.Touched c := by
  refine exists_congr fun q => exists_congr fun h => and_congr_left fun _ => ?_
  by_cases same : q = p
  · subst same
    simp [System.hold, differ]
  · simp [System.hold, same]

/-- Of one buffer it is all that matters. -/
theorem System.touched_held [DecidableEq P] {value : Option Hold}
    (alone : ∀ q, q ≠ p → s.held q b = none) :
    (s.hold p b value).Touched b ↔ ∃ h, value = some h ∧ h.touched = true := by
  constructor
  · rintro ⟨q, h, held, touched⟩
    by_cases same : q = p
    · subst same
      exact ⟨h, by simpa [System.hold] using held, touched⟩
    · simp [System.hold, same, alone q same] at held
  · rintro ⟨h, rfl, touched⟩
    exact ⟨p, h, by simp [System.hold], touched⟩

/-! ## Who has a buffer -/

namespace Owners

variable {dev : Dev} {rest : Fin nbuf → Program}

/-- Nobody has a buffer that is not busy. -/
theorem free (owners : Owners s) (free : (s.buf b).busy = false) :
    (∀ p, s.held p b = none) ∧ ∀ p key, (s.pc p).fetching ≠ some (b, key) := by
  constructor
  · intro p
    cases held : s.held p b with
    | none => rfl
    | some h => rw [(owners.kept p b h held).1] at free; cases free
  · intro p key fetching
    rw [(owners.fetched p b key fetching).1] at free
    cases free

/-- When its holder has not, nobody has changed the data of a buffer. -/
theorem untouched (owners : Owners s) (held : s.held p b = some h) (untouched : h.touched = false) :
    ¬ s.Touched b := by
  rintro ⟨q, g, heldToo, touched⟩
  cases owners.holders p q b h g held heldToo
  rw [held] at heldToo
  cases heldToo
  rw [untouched] at touched
  cases touched

variable [DecidableEq P]

/-- A process goes on without getting another buffer. -/
theorem goto (owners : Owners s)
    (fetching : ∀ b key, pc.fetching = some (b, key) → (s.pc p).fetching = some (b, key))
    (writes : ∀ b, pc.writes = some b → ∃ h, s.held p b = some h ∧ h.touched = false) :
    Owners (s.goto p pc) := by
  have others : ∀ q b key, ((s.goto p pc).pc q).fetching = some (b, key) →
      (s.pc q).fetching = some (b, key) := by
    intro q b key now
    by_cases same : q = p
    · subst same
      exact fetching b key (by simpa [System.goto] using now)
    · simpa [System.goto, same] using now
  refine ⟨owners.holders, ?_, ?_, owners.kept, ?_, owners.released, ?_⟩
  · intro q r b key other left right
    exact owners.fetchers q r b key other (others q b key left) (others r b other right)
  · intro q r b key now
    exact owners.apart q r b key (others q b key now)
  · intro q b key now
    exact owners.fetched q b key (others q b key now)
  · intro q b now
    by_cases same : q = p
    · subst same
      exact writes b (by simpa [System.goto] using now)
    · exact owners.writers q b (by simpa [System.goto, same] using now)

/-- A process gets a buffer from `bget`. -/
theorem fetch (owners : Owners s) (free : (s.buf b).busy = false) (busy : value.busy = true)
    (named : value.key = (dev.val, blockno)) (fresh : value.valid = false → value.dirty = false) :
    Owners ((s.setBuf b value).goto p (.got dev blockno b rest)) := by
  obtain ⟨unheld, unfetched⟩ := owners.free free
  have here : (Pc.got dev blockno b rest).fetching = some (b, (dev.val, blockno)) := rfl
  have quiet : (Pc.got dev blockno b rest).writes = none := rfl
  have real := dev.property
  constructor
  all_goals simp only [System.goto, System.setBuf, update_apply]
  case holders => exact owners.holders
  case fetchers =>
    have := owners.fetchers
    grind
  case apart =>
    have := owners.apart
    grind
  case kept =>
    have := owners.kept
    grind
  case fetched =>
    have := owners.fetched
    grind
  case released =>
    have := owners.released
    grind
  case writers =>
    have := owners.writers
    grind

/-- A process gets a buffer from `bread`. -/
theorem give (owners : Owners s) (fetching : (s.pc p).fetching = some (b, (dev.val, blockno)))
    (valid : (s.buf b).valid = true) : Owners (s.give p dev blockno b rest) := by
  have unheld := fun q => owners.apart p q b _ fetching
  have mine := owners.fetched p b _ fetching
  have alone := fun q key => owners.fetchers p q b (dev.val, blockno) key fetching
  have outside : (Pc.run (rest b)).fetching = none ∧ (Pc.run (rest b)).writes = none := ⟨rfl, rfl⟩
  constructor
  all_goals simp only [System.give, System.hold, System.goto, update_apply]
  case holders =>
    have := owners.holders
    grind
  case fetchers =>
    have := owners.fetchers
    grind
  case apart =>
    have := owners.apart
    grind
  case kept =>
    have := owners.kept
    grind
  case fetched =>
    have := owners.fetched
    grind
  case released => exact owners.released
  case writers =>
    have := owners.writers
    grind

/-- The holder of a buffer works on it. -/
theorem rework (owners : Owners s) {touched : Bool} (held : s.held p b = some h)
    (outside : (s.pc p).writes = none) (busy : value.busy = (s.buf b).busy)
    (valid : value.valid = (s.buf b).valid) (named : value.key = (s.buf b).key) :
    Owners ((s.setBuf b value).hold p b (some { h with touched })) := by
  have mine := owners.kept p b h held
  have alone := fun q g => owners.holders p q b h g held
  have unfetched := fun q key => owners.apart q p b key
  have real : value.key.1 = value.dev := rfl
  constructor
  all_goals simp only [System.hold, System.setBuf, update_apply]
  case holders =>
    have := owners.holders
    grind
  case fetchers => exact owners.fetchers
  case apart =>
    have := owners.apart
    grind
  case kept =>
    have := owners.kept
    grind
  case fetched =>
    have := owners.fetched
    grind
  case released =>
    have := owners.released
    grind
  case writers =>
    have := owners.writers
    grind

/-- The holder of a buffer releases it. -/
theorem drop (owners : Owners s) (held : s.held p b = some h) (outside : (s.pc p).writes = none) :
    Owners ((s.release b).hold p b none) := by
  have mine := owners.kept p b h held
  have alone := fun q g => owners.holders p q b h g held
  have unfetched := fun q key => owners.apart q p b key
  constructor
  all_goals simp only [System.hold, System.release, System.setBuf, update_apply]
  case holders =>
    have := owners.holders
    grind
  case fetchers => exact owners.fetchers
  case apart =>
    have := owners.apart
    grind
  case kept =>
    have := owners.kept
    grind [Buf.key]
  case fetched =>
    have := owners.fetched
    grind [Buf.key]
  case released =>
    have := owners.released
    grind
  case writers =>
    have := owners.writers
    grind

omit [DecidableEq P] in
/-- The disk serves a buffer. -/
theorem serve (owners : Owners s) (busy : value.busy = (s.buf b).busy)
    (named : value.key = (s.buf b).key) (valid : value.valid = true) :
    Owners (s.setBuf b value) := by
  refine ⟨owners.holders, owners.fetchers, owners.apart, ?_, ?_, ?_, owners.writers⟩
  all_goals simp only [System.setBuf, update_apply]
  · have := owners.kept
    grind
  · have := owners.fetched
    grind
  · have := owners.released
    grind

end Owners

/-! ## What the buffers hold -/

namespace Data

/-- The block of a real buffer is in no other. -/
theorem other (data : Data s) (real : (s.buf b).dev ≠ nodev) (differ : c ≠ b) :
    (s.buf c).key ≠ (s.buf b).key :=
  fun same => differ (data.distinct b c same.symm real).symm

/-- `bget` recycles a buffer that is neither busy nor dirty for a block in none of the
buffers. -/
theorem recycle (data : Data s) (was : (s.buf b).dirty = false) (invalid : value.valid = false)
    (real : value.dev ≠ nodev) (missing : ∀ c, (s.buf c).key ≠ value.key) :
    Data (s.setBuf b value) := by
  obtain ⟨onDisk, unpinned⟩ := data.absent value.key real missing
  have pinned := data.pinned b
  have clean := data.clean b
  have old : (s.buf b).key.1 = (s.buf b).dev := rfl
  constructor
  all_goals simp only [System.setBuf, update_apply, System.Touched]
  case distinct =>
    have := data.distinct
    grind
  case current =>
    have := data.current
    grind [System.Touched]
  case clean =>
    have := data.clean
    grind
  case pinned =>
    have := data.pinned
    grind
  case absent =>
    intro key realKey gone
    by_cases here : (s.buf b).key = key
    · subst here
      refine ⟨clean realKey was, ?_⟩
      cases pending : s.pending (s.buf b).key with
      | false => rfl
      | true => rw [pinned realKey pending] at was; cases was
    · refine data.absent key realKey fun c => ?_
      have := gone c
      grind

/-- The disk gets the data of a dirty buffer. -/
theorem onto_disk (data : Data s) (real : (s.buf b).dev ≠ nodev) (dirty : (s.buf b).dirty = true)
    (value : Block) :
    Data { s with disk := update s.disk (s.buf b).key value } := by
  refine ⟨data.distinct, data.current, ?_, data.pinned, ?_⟩
  · intro c realToo undirty
    have differ : c ≠ b := by
      rintro rfl
      rw [dirty] at undirty
      cases undirty
    simp only
    rw [update_of_ne (data.other real differ)]
    exact data.clean c realToo undirty
  · intro key realToo missing
    have apart : key ≠ (s.buf b).key := fun same => missing b same.symm
    simp only
    rw [update_of_ne apart]
    exact data.absent key realToo missing

/-- The disk has served a buffer: what was to be written is on the disk, and what was to be
read is in the buffer. -/
theorem serve (data : Data s) (real : (s.buf b).dev ≠ nodev) (untouched : ¬ s.Touched b)
    (valid : (s.buf b).dirty = true → (s.buf b).valid = true)
    (written : (s.buf b).dirty = true → s.disk (s.buf b).key = (s.buf b).data) :
    Data { s.setBuf b (s.complete b) with
      pending := if (s.buf b).dirty then update s.pending (s.buf b).key false
        else s.pending } := by
  have stored : (s.complete b).data = s.contents (s.buf b).key ∧
      s.disk (s.buf b).key = s.contents (s.buf b).key := by
    cases dirty : (s.buf b).dirty with
    | true =>
      have current := data.current b real (valid dirty) untouched
      simp only [System.complete, dirty, if_true]
      exact ⟨current, (written dirty).trans current⟩
    | false =>
      have clean := data.clean b real dirty
      simp only [System.complete, dirty, Bool.false_eq_true, if_false]
      exact ⟨clean, clean⟩
  have named : (s.complete b).key = (s.buf b).key := rfl
  have undirty : (s.complete b).dirty = false := rfl
  have unpinned : (s.buf b).dirty = false → s.pending (s.buf b).key = false := by
    intro undirty
    have := data.pinned b real
    grind
  have apart := fun c => data.other (c := c) real
  constructor
  all_goals simp only [System.setBuf, update_apply]
  case distinct =>
    have := data.distinct
    grind
  case current =>
    have := data.current
    grind [System.Touched]
  case clean =>
    have := data.clean
    grind
  case pinned =>
    have := data.pinned
    grind
  case absent =>
    have := data.absent
    grind

variable [DecidableEq P]

/-- The holder of a buffer changes its data. -/
theorem store (data : Data s) (alone : ∀ q, q ≠ p → s.held q b = none) (value : Block) :
    Data (s.store p b h value) := by
  have here : (s.store p b h value).Touched b :=
    (System.touched_held (by simpa [System.setBuf] using alone)).mpr ⟨_, rfl, rfl⟩
  refine data.congr ?_ rfl rfl rfl ?_ ?_
  · intro c
    by_cases same : c = b
    · subst same
      simp [System.store, System.hold, System.setBuf, Buf.Agrees]
    · simp [System.store, System.hold, System.setBuf, same, Buf.Agrees]
  · intro c touched
    by_cases same : c = b
    · exact same ▸ here
    · exact (System.touched_hold same).mpr touched
  · intro c
    by_cases same : c = b
    · exact .inl (same ▸ here)
    · exact .inr (by simp [System.store, System.hold, System.setBuf, same])

/-- The holder of a buffer logs its data or has them written. -/
theorem sync (data : Data s) {pending : Key → Bool} (real : (s.buf b).dev ≠ nodev)
    (others : ∀ key, key ≠ (s.buf b).key → pending key = s.pending key) :
    Data { s.sync p b h with pending } := by
  have apart := fun c => data.other (c := c) real
  have elsewhere : ∀ c, c ≠ b → ((s.sync p b h).Touched c ↔ s.Touched c) :=
    fun c differ => System.touched_hold differ
  have touched : ∀ c, System.Touched { s.sync p b h with pending } c ↔ (s.sync p b h).Touched c :=
    fun _ => Iff.rfl
  constructor
  case distinct =>
    have := data.distinct
    simp only [System.sync, System.hold, System.setBuf, update_apply]
    grind [Buf.key]
  case current =>
    intro c realToo valid untouched
    rw [touched] at untouched
    by_cases same : c = b
    · subst same
      simp [System.sync, System.hold, System.setBuf, Buf.key]
    · rw [elsewhere c same] at untouched
      have := apart c same
      simp only [System.sync, System.hold, System.setBuf, update_of_ne same] at *
      rw [update_of_ne this]
      exact data.current c realToo valid untouched
  case clean =>
    have := data.clean
    simp only [System.sync, System.hold, System.setBuf, update_apply]
    grind
  case pinned =>
    have := data.pinned
    simp only [System.sync, System.hold, System.setBuf, update_apply]
    grind
  case absent =>
    have := data.absent
    simp only [System.sync, System.hold, System.setBuf, update_apply]
    grind [Buf.key]

end Data

/-! ## The list of buffers -/

/-- What `bget` gives: the buffer of the block, which was not busy, or one that was neither
busy nor dirty when no buffer has the block. -/
theorem bget_cases (linked : s.Linked) {dev : UInt32} (ran : s.bget dev blockno = .ok (some (b, t))) :
    (s.buf b).busy = false ∧
      ((s.buf b).key = (dev, blockno) ∧ t = s.setBuf b { s.buf b with busy := true } ∨
      (∀ c, (s.buf c).key ≠ (dev, blockno)) ∧ (s.buf b).dirty = false ∧
        t = s.setBuf b
          { s.buf b with dev, blockno, busy := true, valid := false, dirty := false }) := by
  obtain ⟨nodes, all, cycle⟩ := linked
  have short : (nodes.map Node.buf).length < nbuf + 1 := by
    have nodup : nodes.Nodup := (nodup_cons.mp cycle.nodup).2.of_map
    rw [length_map]
    exact Nat.lt_succ_of_le (nodup.length_le_card.trans (by simp))
  unfold System.bget at ran
  rw [cycle.search_next short, cycle.search_prev short] at ran
  split at ran
  · rename_i found
    have test := find?_some (Option.some.inj found)
    split at ran
    · cases ran
    · rename_i free
      cases ran
      exact ⟨by simpa using free, .inl ⟨by simpa [System.caches] using test, rfl⟩⟩
  · rename_i missing
    split at ran
    · rename_i found
      have test := find?_some (Option.some.inj found)
      cases ran
      simp only [System.clean, Bool.and_eq_true, Bool.not_eq_true'] at test
      refine ⟨test.1, .inr ⟨fun c same => ?_, test.2, rfl⟩⟩
      have none := find?_eq_none.mp (Option.some.inj missing) (.buf c)
        (mem_map_of_mem (all c))
      simp [System.caches, same] at none
    · cases ran
    · cases ran
  · cases ran

/-- `brelse` moves a buffer to the front of the list. -/
theorem System.Linked.release (linked : s.Linked) (b : Fin nbuf) : (s.release b).Linked := by
  obtain ⟨nodes, all, cycle⟩ := linked
  obtain ⟨left, right, rfl⟩ := append_of_mem (all b)
  rw [map_append, map_cons] at cycle
  have outside : Node.buf b ∉ Node.head :: (left.map Node.buf ++ right.map Node.buf) := by
    have nodup := (nodup_cons.mp cycle.nodup).2
    have apart := (nodup_middle.mp nodup)
    simpa using (nodup_cons.mp apart).1
  refine ⟨b :: (left ++ right), fun c => ?_, ?_⟩
  · have := all c
    grind
  · rw [map_cons, map_append]
    exact cycle.unlink.pushFront outside

end Xv6.Bio
