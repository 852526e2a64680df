import Xv6.Fs.Blocks
import Xv6.Fs.Protocol
import Xv6.Fs.Tree

/-!
# What holds between the steps of calls

The states of all processes, as the protocol sees them, are in step with the kernel: the
references that processes, current directories and open files have are those that the cache
counts; a lock has one holder; what a process knows of an inode it has locked is so, on the
disk and in memory; and the directories are a tree that obeys the law of link counts with
what the processes owe.
-/

namespace Xv6.Fs

/-- What a process is doing to an inode that it has made busy. -/
inductive Phase where
  | loading
  | truncating
  | freeing
  | dropping
  deriving DecidableEq

variable {P : Type}

/-- The inode that a process has made busy and does not yet, or no longer, use as locked. -/
def Pc.phase : Pc P → Option (Phase × Fin ninode)
  | .loading ip _ => some (.loading, ip)
  | .truncating ip _ => some (.truncating, ip)
  | .freeing ip _ => some (.freeing, ip)
  | .dropping ip _ => some (.dropping, ip)
  | _ => none

/-- The references of its own that a process has to an entry of the cache. -/
def Local.own (l : Local) (ip : Fin ninode) : Nat :=
  l.refs.countP fun ref => ref.ip = ip ∧ ref.lent = false

/-- What a process owes an inode. -/
def Local.debt (l : Local) (inum : Nat) : Nat := l.owed.countP fun debt => debt.inum = inum

section

variable (s : System P) (l : P → Local)

/-- The references of a process and of its current directory. -/
def held (p : P) (ip : Fin ninode) : Nat := (l p).own ip + if s.cwd p = some ip then 1 else 0

/-- The process has made the inode busy. -/
def Holds (p : P) (ip : Fin ninode) : Prop :=
  (l p).locks ip ≠ none ∨ ∃ phase, (s.pc p).phase = some (phase, ip)

/-- The references that the cache counts. -/
structure Refs [Fintype P] : Prop where
  distinct : ∀ a b, 0 < (s.inode a).ref → 0 < (s.inode b).ref →
    (s.inode a).inum = (s.inode b).inum → a = b
  counted : ∀ ip, (s.inode ip).ref = ∑ p, held s l p ip + s.files.countP fun file => file.1 = ip
  named : ∀ p, ∀ ref ∈ (l p).refs, (s.inode ref.ip).inum = ref.inum
  lent : ∀ p, ∀ ref ∈ (l p).refs, ref.lent = true → s.inUse p = some ref.ip
  inUse : ∀ p ip, s.inUse p = some ip → ∃ writable, (ip, writable) ∈ s.files
  away : ∀ p, (l p).away = true → s.cwd p = none

/-- The locks. -/
structure Locks : Prop where
  busy : ∀ p ip, Holds s l p ip → (s.inode ip).busy = true
  once : ∀ p q ip, Holds s l p ip → Holds s l q ip → p = q
  apart : ∀ p phase ip, (s.pc p).phase = some (phase, ip) → (l p).locks ip = none
  kept : ∀ p ip, Holds s l p ip → ∃ ref ∈ (l p).refs, ref.ip = ip

/-- Nobody else has a reference to an inode, but for one that is just being dropped. -/
structure Unshared (p : P) (inum : Nat) : Prop where
  refs : ∀ q, ∀ ref ∈ (l q).refs, ref.inum = inum →
    q = p ∨ (s.pc q).phase = some (.dropping, ref.ip)
  cwd : ∀ q ip, s.cwd q = some ip → (s.inode ip).inum ≠ inum
  files : ∀ ip writable, (ip, writable) ∈ s.files → (s.inode ip).inum ≠ inum
  locks : ∀ ip view, (l p).locks ip = some view → view.inum ≠ inum

/-- What is known of inodes, in memory and on the disk. -/
structure Data : Prop where
  view : ∀ p ip view, (l p).locks ip = some view →
    (s.inode ip).valid = true ∧ (s.inode ip).inum = view.inum ∧
    s.dinode view.inum = view.node ∧ s.entries view.inum = view.entries ∧
    (view.rooted = true → s.Rooted view.inum)
  coherent : ∀ ip, 0 < (s.inode ip).ref → (s.inode ip).valid = true →
    (∀ p, (s.pc p).phase ≠ some (.dropping, ip)) →
    (s.inode ip).copy = s.dinode (s.inode ip).inum
  used : ∀ p, ∀ ref ∈ (l p).refs, (s.pc p).phase ≠ some (.dropping, ref.ip) →
    (s.dinode ref.inum).type ≠ .free ∧ (ref.plain = true → (s.dinode ref.inum).type ≠ .dir)
  usedCwd : ∀ p ip, s.cwd p = some ip → (s.dinode (s.inode ip).inum).type ≠ .free
  usedFile : ∀ ip writable, (ip, writable) ∈ s.files →
    (s.dinode (s.inode ip).inum).type ≠ .free ∧
    (writable = true → (s.dinode (s.inode ip).inum).type ≠ .dir)
  ending : ∀ p phase ip, (s.pc p).phase = some (phase, ip) →
    phase = .truncating ∨ phase = .freeing →
    (s.inode ip).ref = 1 ∧ (s.inode ip).valid = true ∧ (s.dinode (s.inode ip).inum).nlink = 0 ∧
    0 < (l p).own ip
  emptied : ∀ p ip, (s.pc p).phase = some (.freeing, ip) → s.entries (s.inode ip).inum = []
  dropped : ∀ p ip, (s.pc p).phase = some (.dropping, ip) →
    (s.inode ip).copy.type = .free ∧ ((l p).refs.countP fun ref => ref.ip = ip) ≤ 1
  fresh : ∀ p inum type, (l p).fresh = some (inum, type) →
    type ≠ .free ∧ s.dinode inum = .fresh type ∧ s.entries inum = [] ∧ Unshared s l p inum
  freshOnce : ∀ p q inum type other, (l p).fresh = some (inum, type) →
    (l q).fresh = some (inum, other) → p = q
  backed : ∀ inum, (s.dinode inum).Backed
  sized : ∀ inum, (s.dinode inum).type = .dir →
    (s.dinode inum).size = direntSize * (s.entries inum).length

/-- The directory is just being made or freed. -/
inductive Partial (p : P) (inum : Nat) : Prop where
  | fresh (type : FileType) (isFresh : (l p).fresh = some (inum, type))
  | locked (ip : Fin ninode) (view : View) (isView : (l p).locks ip = some view)
      (isInode : view.inum = inum)
  | freeing (ip : Fin ninode) (inPhase : (s.pc p).phase = some (.freeing, ip))
      (isInode : (s.inode ip).inum = inum)

/-- The tree of the directories, with what the processes owe. -/
structure Forest [Fintype P] : Prop where
  tree : s.toImage.Tree fun inum => ∑ p, (l p).debt inum
  whole : ∀ inum, (s.dinode inum).type = .dir →
    2 ≤ (s.entries inum).length ∨ ∃ p, Partial s l p inum
  debts : ∀ p, ∀ debt ∈ (l p).owed,
    ((s.dinode debt.inum).type = .dir ↔ debt.dir = true) ∧
    (debt.dir = true → ∃ ip view, (l p).locks ip = some view ∧ view.inum = debt.inum)

/-- All of it. -/
structure Sound [Fintype P] : Prop where
  refs : Refs s l
  locks : Locks s l
  data : Data s l
  forest : Forest s l

end

variable {s t : System P} {l m : P → Local} {p : P}

/-! ## References -/

theorem Local.own_pos {l : Local} {ref : Ref} (mem : ref ∈ l.refs) (own : ref.lent = false) :
    0 < l.own ref.ip :=
  Multiset.countP_pos.mpr ⟨ref, mem, rfl, own⟩

namespace Refs

variable [Fintype P]

/-- What somebody has a reference to is referenced. -/
theorem own_pos (refs : Refs s l) {ip : Fin ninode} (some : 0 < held s l p ip) :
    0 < (s.inode ip).ref := by
  have mine := Sums.le_of_mem (fun q => held s l q ip) (Finset.mem_univ p)
  rw [refs.counted ip]
  omega

theorem file_pos (refs : Refs s l) {ip : Fin ninode} {writable : Bool}
    (mem : (ip, writable) ∈ s.files) : 0 < (s.inode ip).ref := by
  have some : 0 < s.files.countP fun file => file.1 = ip :=
    List.countP_pos_iff.mpr ⟨_, mem, by simp⟩
  rw [refs.counted ip]
  omega

theorem cwd_pos (refs : Refs s l) {ip : Fin ninode} (isCwd : s.cwd p = some ip) :
    0 < (s.inode ip).ref := by
  refine refs.own_pos (p := p) ?_
  rw [held, if_pos isCwd]
  omega

theorem ref_pos (refs : Refs s l) {ref : Ref} (mem : ref ∈ (l p).refs) :
    0 < (s.inode ref.ip).ref := by
  cases isLent : ref.lent with
  | true =>
    obtain ⟨writable, file⟩ := refs.inUse p ref.ip (refs.lent p ref mem isLent)
    exact refs.file_pos file
  | false =>
    refine refs.own_pos (p := p) ?_
    have mine := Local.own_pos mem isLent
    rw [held]
    omega

/-- The references of one process change, together with the counts of the cache. -/
theorem change (refs : Refs s l) [DecidableEq P]
    (others : ∀ q, q ≠ p → (m q).refs = (l q).refs ∧ (m q).away = (l q).away ∧
      t.cwd q = s.cwd q ∧ t.inUse q = s.inUse q)
    (balance : ∀ ip, (t.inode ip).ref +
        (held s l p ip + s.files.countP fun file => file.1 = ip) =
      (s.inode ip).ref + (held t m p ip + t.files.countP fun file => file.1 = ip))
    (stays : ∀ ip, 0 < (s.inode ip).ref → (t.inode ip).inum = (s.inode ip).inum)
    (distinct : ∀ a b, 0 < (t.inode a).ref → 0 < (t.inode b).ref →
      (t.inode a).inum = (t.inode b).inum → a = b)
    (named : ∀ ref ∈ (m p).refs, (t.inode ref.ip).inum = ref.inum)
    (lent : ∀ ref ∈ (m p).refs, ref.lent = true → t.inUse p = some ref.ip)
    (inUse : ∀ q ip, t.inUse q = some ip → ∃ writable, (ip, writable) ∈ t.files)
    (away : (m p).away = true → t.cwd p = none) : Refs t m where
  distinct := distinct
  counted := by
    intro ip
    have sums := Sums.change (fun q => held s l q ip) (fun q => held t m q ip)
      (Finset.mem_univ p) fun q _ other => by
        obtain ⟨sameRefs, -, sameCwd, -⟩ := others q other
        simp only [held, Local.own, sameRefs, sameCwd]
    have before := refs.counted ip
    have change := balance ip
    omega
  named := by
    intro q ref mem
    by_cases same : q = p
    · subst same
      exact named ref mem
    · rw [(others q same).1] at mem
      rw [stays ref.ip (refs.ref_pos mem)]
      exact refs.named q ref mem
  lent := by
    intro q ref mem isLent
    by_cases same : q = p
    · subst same
      exact lent ref mem isLent
    · rw [(others q same).1] at mem
      rw [(others q same).2.2.2]
      exact refs.lent q ref mem isLent
  inUse := inUse
  away := by
    intro q isAway
    by_cases same : q = p
    · subst same
      exact away isAway
    · rw [(others q same).2.1] at isAway
      rw [(others q same).2.2.1]
      exact refs.away q isAway

end Refs

/-! ## Locks -/

/-- The locks of one process change. -/
theorem Locks.change (locks : Locks s l)
    (others : ∀ q, q ≠ p → (m q).locks = (l q).locks ∧ (t.pc q).phase = (s.pc q).phase ∧
      (m q).refs = (l q).refs)
    (still : ∀ q, q ≠ p → ∀ ip, Holds s l q ip → (t.inode ip).busy = true)
    (mine : ∀ ip, Holds t m p ip → (t.inode ip).busy = true ∧
      (Holds s l p ip ∨ (s.inode ip).busy = false) ∧ ∃ ref ∈ (m p).refs, ref.ip = ip)
    (apart : ∀ phase ip, (t.pc p).phase = some (phase, ip) → (m p).locks ip = none) :
    Locks t m := by
  have same : ∀ q, q ≠ p → ∀ ip, Holds t m q ip ↔ Holds s l q ip := by
    intro q other ip
    obtain ⟨sameLocks, samePhase, -⟩ := others q other
    rw [Holds, Holds, sameLocks, samePhase]
  -- A process that holds the inode besides the one that steps held it before.
  have before : ∀ q, q ≠ p → ∀ ip, Holds t m q ip → Holds t m p ip → False := by
    intro q other ip theirs ours
    have held := (same q other ip).mp theirs
    rcases (mine ip ours).2.1 with was | free
    · exact other (locks.once q p ip held was)
    · rw [locks.busy q ip held] at free
      cases free
  constructor
  · intro q ip holds
    by_cases isSelf : q = p
    · subst isSelf
      exact (mine ip holds).1
    · exact still q isSelf ip ((same q isSelf ip).mp holds)
  · intro q r ip first second
    by_cases isSelf : q = p <;> by_cases isOther : r = p
    · rw [isSelf, isOther]
    · subst isSelf
      exact (before r isOther ip second first).elim
    · subst isOther
      exact (before q isSelf ip first second).elim
    · exact locks.once q r ip ((same q isSelf ip).mp first) ((same r isOther ip).mp second)
  · intro q phase ip inPhase
    by_cases isSelf : q = p
    · subst isSelf
      exact apart phase ip inPhase
    · obtain ⟨sameLocks, samePhase, -⟩ := others q isSelf
      rw [samePhase] at inPhase
      rw [sameLocks]
      exact locks.apart q phase ip inPhase
  · intro q ip holds
    by_cases isSelf : q = p
    · subst isSelf
      exact (mine ip holds).2.2
    · rw [(others q isSelf).2.2]
      exact locks.kept q ip ((same q isSelf ip).mp holds)

end Xv6.Fs
