import Xv6.Fs.Passing

/-!
# Steps on one inode

A process that has made an inode busy changes its entry in the cache, the inode on the disk
and the entries of the directory, and what it knows and owes. Nothing else changes, and what
is known of all other inodes stays true.
-/

namespace Xv6.Fs

open Function

variable {P : Type} {s t : System P} {l m : P → Local} {p : P} {ip : Fin ninode}

/-- A process works on one entry of the cache that nobody else has made busy. -/
structure Touches (s t : System P) (l m : P → Local) (p : P) (ip : Fin ninode) : Prop where
  ninodes : t.ninodes = s.ninodes
  entry : ∀ other, other ≠ ip → t.inode other = s.inode other
  inum : (t.inode ip).inum = (s.inode ip).inum
  disk : ∀ j, j ≠ (s.inode ip).inum → t.dinode j = s.dinode j ∧ t.entries j = s.entries j
  others : ∀ q, q ≠ p → m q = l q ∧ t.pc q = s.pc q
  cwd : t.cwd = s.cwd
  files : t.files = s.files
  inUse : t.inUse = s.inUse
  alone : ∀ q, q ≠ p → ¬ Holds s l q ip
  mine : ∃ ref ∈ (l p).refs, ref.ip = ip
  before : ∀ phase other, (s.pc p).phase = some (phase, other) → other = ip
  after : ∀ phase other, (t.pc p).phase = some (phase, other) → other = ip
  locks : ∀ other, other ≠ ip → (m p).locks other = (l p).locks other

/-- What a process leaves behind at the inode that it works on. -/
structure Fits (s t : System P) (l m : P → Local) (p : P) (ip : Fin ninode) : Prop where
  view : ∀ view, (m p).locks ip = some view →
    (t.inode ip).valid = true ∧ view.inum = (s.inode ip).inum ∧
    t.dinode (s.inode ip).inum = view.node ∧ t.entries (s.inode ip).inum = view.entries ∧
    (view.rooted = true → t.Rooted (s.inode ip).inum)
  rooted : ∀ q other view, (m q).locks other = some view → view.inum ≠ (s.inode ip).inum →
    view.rooted = true → s.Rooted view.inum → t.Rooted view.inum
  coherent : (t.inode ip).valid = true → (∀ q, (t.pc q).phase ≠ some (.dropping, ip)) →
    (t.inode ip).copy = t.dinode (s.inode ip).inum
  used : ∀ q, ∀ ref ∈ (m q).refs, ref.inum = (s.inode ip).inum →
    (t.pc q).phase ≠ some (.dropping, ref.ip) →
    (t.dinode ref.inum).type ≠ .free ∧ (ref.plain = true → (t.dinode ref.inum).type ≠ .dir)
  others : ∀ ref ∈ (m p).refs, ref.inum ≠ (s.inode ip).inum → ref ∈ (l p).refs
  usedCwd : ∀ q, s.cwd q = some ip → (t.dinode (s.inode ip).inum).type ≠ .free
  usedFile : ∀ writable, (ip, writable) ∈ s.files → (t.dinode (s.inode ip).inum).type ≠ .free ∧
    (writable = true → (t.dinode (s.inode ip).inum).type ≠ .dir)
  ending : ∀ phase, (t.pc p).phase = some (phase, ip) → phase = .truncating ∨ phase = .freeing →
    (t.inode ip).ref = 1 ∧ (t.inode ip).valid = true ∧ (t.dinode (s.inode ip).inum).nlink = 0 ∧
    0 < (m p).own ip
  emptied : (t.pc p).phase = some (.freeing, ip) → t.entries (s.inode ip).inum = []
  dropped : (t.pc p).phase = some (.dropping, ip) → (t.inode ip).copy.type = .free ∧
    ((m p).refs.countP fun ref => ref.ip = ip) ≤ 1
  fresh : (m p).fresh = none ∨ (m p).fresh = (l p).fresh
  freshSame : ∀ q type, (m q).fresh = some ((s.inode ip).inum, type) →
    t.dinode (s.inode ip).inum = s.dinode (s.inode ip).inum ∧
    t.entries (s.inode ip).inum = s.entries (s.inode ip).inum
  freshOther : ∀ q type, q ≠ p → (l q).fresh = some ((s.inode ip).inum, type) →
    ∀ ref ∈ (m p).refs, ref.inum ≠ (s.inode ip).inum
  freshLock : ∀ type, (m p).locks ip ≠ none → (m p).fresh ≠ some ((s.inode ip).inum, type)
  backed : (t.dinode (s.inode ip).inum).Backed
  sized : (t.dinode (s.inode ip).inum).type = .dir →
    (t.dinode (s.inode ip).inum).size = direntSize * (t.entries (s.inode ip).inum).length

/-- A step that writes one entry of the cache, and at most its inode on the disk. -/
structure Writes (s t : System P) [DecidableEq P] (p : P) (ip : Fin ninode) (value : Inode)
    (pc : Pc P) : Prop where
  inode : t.inode = Function.update s.inode ip value
  pc : t.pc = Function.update s.pc p pc
  inum : value.inum = (s.inode ip).inum
  ninodes : t.ninodes = s.ninodes
  disk : ∀ j, j ≠ (s.inode ip).inum → t.dinode j = s.dinode j ∧ t.entries j = s.entries j
  cwd : t.cwd = s.cwd
  files : t.files = s.files
  inUse : t.inUse = s.inUse

theorem Writes.touches [DecidableEq P] {value : Inode} {pc : Pc P} (writes : Writes s t p ip value pc)
    {now : Local} (isNow : m = update l p now)
    (alone : ∀ q, q ≠ p → ¬ Holds s l q ip) (mine : ∃ ref ∈ (l p).refs, ref.ip = ip)
    (before : ∀ phase other, (s.pc p).phase = some (phase, other) → other = ip)
    (after : ∀ phase other, pc.phase = some (phase, other) → other = ip)
    (locks : ∀ other, other ≠ ip → now.locks other = (l p).locks other) :
    Touches s t l m p ip where
  ninodes := writes.ninodes
  entry := fun other apart => by rw [writes.inode, update_of_ne apart]
  inum := by rw [writes.inode, update_self, writes.inum]
  disk := writes.disk
  others := fun q other => by
    rw [isNow, writes.pc, update_of_ne other, update_of_ne other]
    exact ⟨rfl, rfl⟩
  cwd := writes.cwd
  files := writes.files
  inUse := writes.inUse
  alone := alone
  mine := mine
  before := before
  after := by
    rw [writes.pc, update_self]
    exact after
  locks := by
    rw [isNow, update_self]
    exact locks

/-- What all processes owe, when one of them changes but for what it owes. -/
theorem sum_debt_congr [Fintype P] [DecidableEq P] {now : Local} (same : now.owed = (l p).owed) :
    (fun inum => ∑ q, (update l p now q).debt inum) = fun inum => ∑ q, (l q).debt inum := by
  funext inum
  refine Finset.sum_congr rfl fun q _ => ?_
  by_cases isSelf : q = p
  · rw [isSelf, update_self, Local.debt, Local.debt, same]
  · rw [update_of_ne isSelf]

namespace Writes

variable [DecidableEq P] {value : Inode} {pc : Pc P}

theorem entry (writes : Writes s t p ip value pc) : t.inode ip = value := by
  rw [writes.inode, update_self]

theorem at_pc (writes : Writes s t p ip value pc) : t.pc p = pc := by
  rw [writes.pc, update_self]

end Writes

namespace Touches

section

variable (touches : Touches s t l m p ip)

include touches

theorem inum_eq (other : Fin ninode) : (t.inode other).inum = (s.inode other).inum := by
  by_cases same : other = ip
  · rw [same, touches.inum]
  · rw [touches.entry other same]

/-- A point of a process at which it has made another inode busy is one from before. -/
theorem phase_iff {q : P} {phase : Phase} {other : Fin ninode} (apart : other ≠ ip) :
    (t.pc q).phase = some (phase, other) ↔ (s.pc q).phase = some (phase, other) := by
  by_cases same : q = p
  · subst same
    constructor
    · exact fun inPhase => absurd (touches.after phase other inPhase) apart
    · exact fun inPhase => absurd (touches.before phase other inPhase) apart
  · rw [(touches.others q same).2]

theorem lock_iff (q : P) {other : Fin ninode}
    (apart : other ≠ ip) : (m q).locks other = (l q).locks other := by
  by_cases same : q = p
  · subst same
    exact touches.locks other apart
  · rw [(touches.others q same).1]

/-- An inode that is fresh afterwards was fresh before. -/
theorem fresh_was (fits : Fits s t l m p ip) {q : P} {inum : Nat}
    {type : FileType} (isFresh : (m q).fresh = some (inum, type)) :
    (l q).fresh = some (inum, type) := by
  by_cases isSelf : q = p
  · subst isSelf
    rcases fits.fresh with none | old
    · rw [none] at isFresh
      cases isFresh
    · rw [← old, isFresh]
  · rw [← (touches.others q isSelf).1, isFresh]

end

variable [Fintype P]

/-- Another entry in use is for another inode. -/
theorem inum_ne (touches : Touches s t l m p ip) (refs : Refs s l) {other : Fin ninode}
    (some : 0 < (s.inode other).ref) (apart : other ≠ ip) :
    (s.inode other).inum ≠ (s.inode ip).inum := by
  obtain ⟨ref, mem, rfl⟩ := touches.mine
  exact fun same => apart (refs.distinct other ref.ip some (refs.ref_pos mem) same)

/-- What is known of inodes stays, when it is so of the one that is worked on. -/
theorem data (touches : Touches s t l m p ip) (refs : Refs s l) (locks : Locks s l)
    (data : Data s l) (fits : Fits s t l m p ip) : Data t m := by
  have referenced : ∀ q other, Holds s l q other → 0 < (s.inode other).ref := by
    intro q other holds
    obtain ⟨ref, mem, rfl⟩ := locks.kept q other holds
    exact refs.ref_pos mem
  have disk := touches.disk
  constructor
  · intro q other view isView
    by_cases same : other = ip
    · subst same
      have isSelf : q = p := by
        by_contra apart
        rw [(touches.others q apart).1] at isView
        exact touches.alone q apart (Or.inl (by rw [isView]; rintro ⟨⟩))
      subst isSelf
      obtain ⟨valid, isInode, node, entries, rooted⟩ := fits.view view isView
      rw [touches.inum, isInode]
      exact ⟨valid, rfl, node, entries, rooted⟩
    · have was := isView
      rw [touches.lock_iff q same] at was
      obtain ⟨valid, isInode, node, entries, rooted⟩ := data.view q other view was
      have apart : view.inum ≠ (s.inode ip).inum := by
        rw [← isInode]
        exact touches.inum_ne refs (referenced q other (Or.inl (by rw [was]; rintro ⟨⟩))) same
      rw [touches.entry other same, (disk _ apart).1, (disk _ apart).2]
      exact ⟨valid, isInode, node, entries,
        fun flag => fits.rooted q other view isView apart flag (rooted flag)⟩
  · intro other some valid calm
    by_cases same : other = ip
    · subst same
      rw [touches.inum]
      exact fits.coherent valid calm
    · rw [touches.entry other same] at valid some
      have apart := touches.inum_ne refs some same
      rw [touches.entry other same, (disk _ apart).1]
      refine data.coherent other some valid fun q => ?_
      rw [Ne, ← touches.phase_iff same]
      exact calm q
  · intro q ref mem calm
    by_cases same : ref.inum = (s.inode ip).inum
    · exact fits.used q ref mem same calm
    · rw [(disk _ same).1]
      by_cases isSelf : q = p
      · subst isSelf
        have old := fits.others ref mem same
        refine data.used q ref old fun dropping => same ?_
        rw [← refs.named q ref old, touches.before _ _ dropping]
      · rw [(touches.others q isSelf).1] at mem
        rw [(touches.others q isSelf).2] at calm
        exact data.used q ref mem calm
  · intro q other isCwd
    rw [touches.cwd] at isCwd
    rw [touches.inum_eq]
    by_cases same : other = ip
    · subst same
      exact fits.usedCwd q isCwd
    · rw [(disk _ (touches.inum_ne refs (refs.cwd_pos isCwd) same)).1]
      exact data.usedCwd q other isCwd
  · intro other writable file
    rw [touches.files] at file
    rw [touches.inum_eq]
    by_cases same : other = ip
    · subst same
      exact fits.usedFile writable file
    · rw [(disk _ (touches.inum_ne refs (refs.file_pos file) same)).1]
      exact data.usedFile other writable file
  · intro q phase other inPhase isEnding
    rw [touches.inum_eq]
    by_cases isSelf : q = p
    · subst isSelf
      obtain rfl := touches.after phase other inPhase
      exact fits.ending phase inPhase isEnding
    · rw [(touches.others q isSelf).2] at inPhase
      have same : other ≠ ip := by
        rintro rfl
        exact touches.alone q isSelf (Or.inr ⟨phase, inPhase⟩)
      have apart := touches.inum_ne refs (referenced q other (Or.inr ⟨phase, inPhase⟩)) same
      rw [touches.entry other same, (disk _ apart).1, (touches.others q isSelf).1]
      exact data.ending q phase other inPhase isEnding
  · intro q other inPhase
    rw [touches.inum_eq]
    by_cases isSelf : q = p
    · subst isSelf
      obtain rfl := touches.after _ other inPhase
      exact fits.emptied inPhase
    · rw [(touches.others q isSelf).2] at inPhase
      have same : other ≠ ip := by
        rintro rfl
        exact touches.alone q isSelf (Or.inr ⟨_, inPhase⟩)
      have apart := touches.inum_ne refs (referenced q other (Or.inr ⟨_, inPhase⟩)) same
      rw [(disk _ apart).2]
      exact data.emptied q other inPhase
  · intro q other inPhase
    by_cases isSelf : q = p
    · subst isSelf
      obtain rfl := touches.after _ other inPhase
      exact fits.dropped inPhase
    · rw [(touches.others q isSelf).2] at inPhase
      have same : other ≠ ip := by
        rintro rfl
        exact touches.alone q isSelf (Or.inr ⟨_, inPhase⟩)
      rw [touches.entry other same, (touches.others q isSelf).1]
      exact data.dropped q other inPhase
  · intro q inum type isFresh
    have was := touches.fresh_was fits isFresh
    obtain ⟨used, isNew, empty, unshared⟩ := data.fresh q inum type was
    have image : t.dinode inum = s.dinode inum ∧ t.entries inum = s.entries inum := by
      by_cases same : inum = (s.inode ip).inum
      · subst same
        exact fits.freshSame q type isFresh
      · exact disk inum same
    refine ⟨used, image.1.trans isNew, image.2.trans empty, fun r ref mem isInode => ?_,
      fun r other isCwd => ?_, fun other writable file => ?_, fun other view isView => ?_⟩
    · by_cases isSelf : r = p
      · subst isSelf
        by_cases mine : q = r
        · exact Or.inl mine.symm
        · have apart : ref.inum ≠ (s.inode ip).inum := by
            intro same
            rw [isInode] at same
            rw [same] at was
            exact fits.freshOther q type mine was ref mem (isInode.trans same)
          have old := fits.others ref mem apart
          rcases unshared.refs r ref old isInode with same | dropping
          · exact Or.inl same
          · refine absurd ?_ apart
            rw [← refs.named r ref old, touches.before _ _ dropping]
      · rw [(touches.others r isSelf).1] at mem
        rw [(touches.others r isSelf).2]
        exact unshared.refs r ref mem isInode
    · rw [touches.cwd] at isCwd
      rw [touches.inum_eq]
      exact unshared.cwd r other isCwd
    · rw [touches.files] at file
      rw [touches.inum_eq]
      exact unshared.files other writable file
    · by_cases same : other = ip
      · subst same
        by_cases isSelf : q = p
        · subst isSelf
          rintro rfl
          rw [(fits.view view isView).2.1] at isFresh
          exact fits.freshLock type (by rw [isView]; rintro ⟨⟩) isFresh
        · rw [(touches.others q isSelf).1] at isView
          exact unshared.locks other view isView
      · rw [touches.lock_iff q same] at isView
        exact unshared.locks other view isView
  · intro q r inum type other first second
    exact data.freshOnce q r inum type other (touches.fresh_was fits first)
      (touches.fresh_was fits second)
  · intro inum
    by_cases same : inum = (s.inode ip).inum
    · rw [same]
      exact fits.backed
    · rw [(disk inum same).1]
      exact data.backed inum
  · intro inum
    by_cases same : inum = (s.inode ip).inum
    · rw [same]
      exact fits.sized
    · rw [(disk inum same).1, (disk inum same).2]
      exact data.sized inum

omit [Fintype P] in
/-- What is left at the inode, when the disk stays as it is. -/
theorem fits_of_image (touches : Touches s t l m p ip) (data : Data s l)
    (image : t.toImage = s.toImage)
    (view : ∀ view, (m p).locks ip = some view →
      (t.inode ip).valid = true ∧ view.inum = (s.inode ip).inum ∧
      s.dinode (s.inode ip).inum = view.node ∧ s.entries (s.inode ip).inum = view.entries ∧
      (view.rooted = true → s.Rooted (s.inode ip).inum))
    (coherent : (t.inode ip).valid = true → (∀ q, (t.pc q).phase ≠ some (.dropping, ip)) →
      (t.inode ip).copy = s.dinode (s.inode ip).inum)
    (used : ∀ ref ∈ (m p).refs, ref.inum = (s.inode ip).inum →
      (s.dinode ref.inum).type ≠ .free ∧ (ref.plain = true → (s.dinode ref.inum).type ≠ .dir))
    (others : ∀ ref ∈ (m p).refs, ref.inum ≠ (s.inode ip).inum → ref ∈ (l p).refs)
    (ending : ∀ phase, (t.pc p).phase = some (phase, ip) → phase = .truncating ∧
      (t.inode ip).ref = 1 ∧ (t.inode ip).valid = true ∧
      (s.dinode (s.inode ip).inum).nlink = 0 ∧ 0 < (m p).own ip ∨ phase = .loading)
    (fresh : (m p).fresh = none ∨ (m p).fresh = (l p).fresh)
    (freshOther : ∀ q type, q ≠ p → (l q).fresh = some ((s.inode ip).inum, type) →
      ∀ ref ∈ (m p).refs, ref.inum ≠ (s.inode ip).inum)
    (freshLock : ∀ type, (m p).locks ip ≠ none →
      (m p).fresh ≠ some ((s.inode ip).inum, type)) : Fits s t l m p ip where
  view := by
    rw [image]
    exact view
  rooted := by
    rw [image]
    exact fun q other view _ _ _ rooted => rooted
  coherent := by
    rw [image]
    exact coherent
  used := by
    intro q ref mem isInode calm
    rw [image]
    by_cases isSelf : q = p
    · subst isSelf
      exact used ref mem isInode
    · rw [(touches.others q isSelf).1] at mem
      rw [(touches.others q isSelf).2] at calm
      exact data.used q ref mem calm
  others := others
  usedCwd := by
    rw [image]
    exact fun q isCwd => data.usedCwd q ip isCwd
  usedFile := by
    rw [image]
    exact fun writable file => data.usedFile ip writable file
  ending := by
    intro phase inPhase isEnding
    rw [image]
    rcases ending phase inPhase with ⟨-, known⟩ | rfl
    · exact known
    · simp at isEnding
  emptied := by
    intro inPhase
    rcases ending .freeing inPhase with ⟨wrong, -⟩ | wrong
    · cases wrong
    · cases wrong
  dropped := by
    intro inPhase
    rcases ending .dropping inPhase with ⟨wrong, -⟩ | wrong
    · cases wrong
    · cases wrong
  fresh := fresh
  freshSame := by
    intro q type isFresh
    rw [image]
    exact ⟨rfl, rfl⟩
  freshOther := freshOther
  freshLock := freshLock
  backed := by
    rw [image]
    exact data.backed _
  sized := by
    rw [image]
    exact data.sized _

/-- The references stay as they are. -/
theorem refs (touches : Touches s t l m p ip) (refs : Refs s l)
    (count : (t.inode ip).ref = (s.inode ip).ref)
    (locals : (m p).refs = (l p).refs ∧ (m p).away = (l p).away) : Refs t m := by
  have counts : ∀ other, (t.inode other).ref = (s.inode other).ref := by
    intro other
    by_cases same : other = ip
    · rw [same, count]
    · rw [touches.entry other same]
  have same : ∀ q, (m q).refs = (l q).refs ∧ (m q).away = (l q).away := by
    intro q
    by_cases isSelf : q = p
    · rw [isSelf]
      exact locals
    · rw [(touches.others q isSelf).1]
      exact ⟨rfl, rfl⟩
  constructor
  · intro a b first second
    rw [counts] at first second
    rw [touches.inum_eq, touches.inum_eq]
    exact refs.distinct a b first second
  · intro other
    rw [counts, touches.files, refs.counted other]
    simp only [held, Local.own, (same _).1, touches.cwd]
  · intro q ref mem
    rw [(same q).1] at mem
    rw [touches.inum_eq]
    exact refs.named q ref mem
  · intro q ref mem
    rw [(same q).1] at mem
    rw [touches.inUse]
    exact refs.lent q ref mem
  · rw [touches.inUse, touches.files]
    exact refs.inUse
  · intro q
    rw [(same q).2, touches.cwd]
    exact refs.away q

omit [Fintype P] in
/-- The locks, when the process has the inode afterwards. -/
theorem lockSound (touches : Touches s t l m p ip) (locks : Locks s l)
    (locals : (m p).refs = (l p).refs) (busy : (t.inode ip).busy = true)
    (had : Holds s l p ip ∨ (s.inode ip).busy = false)
    (apart : ∀ phase, (t.pc p).phase = some (phase, ip) → (m p).locks ip = none) : Locks t m := by
  refine locks.change (p := p) (fun q other => ?_) (fun q other entry holds => ?_)
    (fun entry holds => ?_) (fun phase entry inPhase => ?_)
  · rw [(touches.others q other).1, (touches.others q other).2]
    exact ⟨rfl, rfl, rfl⟩
  · have elsewhere : entry ≠ ip := by
      rintro rfl
      exact touches.alone q other holds
    rw [touches.entry entry elsewhere]
    exact locks.busy q entry holds
  · by_cases same : entry = ip
    · subst same
      rw [locals]
      exact ⟨busy, had, touches.mine⟩
    · have was : Holds s l p entry := by
        rw [Holds, ← touches.locks entry same]
        refine holds.imp_right ?_
        rintro ⟨phase, inPhase⟩
        exact ⟨phase, (touches.phase_iff same).mp inPhase⟩
      rw [touches.entry entry same, locals]
      exact ⟨locks.busy p entry was, Or.inl was, locks.kept p entry was⟩
  · obtain rfl := touches.after phase entry inPhase
    exact apart phase inPhase

omit [Fintype P] in
/-- The locks, when the process has let the inode go. -/
theorem released (touches : Touches s t l m p ip) (locks : Locks s l) (calm : Calm t p)
    (unlocked : (m p).locks ip = none)
    (kept : ∀ ref ∈ (l p).refs, ref.ip ≠ ip → ref ∈ (m p).refs) : Locks t m := by
  refine locks.change (p := p) (fun q other => ?_) (fun q other entry holds => ?_)
    (fun entry holds => ?_) (fun phase entry wrong => absurd wrong (calm.phase_ne _))
  · rw [(touches.others q other).1, (touches.others q other).2]
    exact ⟨rfl, rfl, rfl⟩
  · have elsewhere : entry ≠ ip := by
      rintro rfl
      exact touches.alone q other holds
    rw [touches.entry entry elsewhere]
    exact locks.busy q entry holds
  · obtain ⟨view, isView⟩ := calm.holds holds
    have elsewhere : entry ≠ ip := by
      rintro rfl
      rw [unlocked] at isView
      cases isView
    rw [touches.locks entry elsewhere] at isView
    have was : Holds s l p entry := Or.inl (by rw [isView]; rintro ⟨⟩)
    rw [touches.entry entry elsewhere]
    obtain ⟨ref, mem, rfl⟩ := locks.kept p entry was
    exact ⟨locks.busy p ref.ip was, Or.inl was, ref, kept ref mem elsewhere, rfl⟩

/-- The tree after the step, with what the process then owes. -/
theorem forest (touches : Touches s t l m p ip) (forest : Forest s l)
    (tree : t.toImage.Tree fun inum => ∑ q, (m q).debt inum)
    (whole : (t.dinode (s.inode ip).inum).type = .dir →
      2 ≤ (t.entries (s.inode ip).inum).length ∨ Partial t m p (s.inode ip).inum)
    (others : ∀ type inum, inum ≠ (s.inode ip).inum → (l p).fresh = some (inum, type) →
      (m p).fresh = some (inum, type))
    (viewed : ∀ view, (l p).locks ip = some view → view.inum = (s.inode ip).inum)
    (types : ∀ q, q ≠ p → ∀ debt ∈ (l q).owed, debt.inum = (s.inode ip).inum →
      (t.dinode debt.inum).type = (s.dinode debt.inum).type)
    (debts : ∀ debt ∈ (m p).owed, ((t.dinode debt.inum).type = .dir ↔ debt.dir = true) ∧
      (debt.dir = true → ∃ other view, (m p).locks other = some view ∧ view.inum = debt.inum)) :
    Forest t m where
  tree := tree
  whole := by
    intro inum isDir
    by_cases same : inum = (s.inode ip).inum
    · subst same
      exact (whole isDir).imp_right fun part => ⟨p, part⟩
    · rw [(touches.disk inum same).1] at isDir
      rw [(touches.disk inum same).2]
      refine (forest.whole inum isDir).imp_right ?_
      rintro ⟨q, part⟩
      refine ⟨q, ?_⟩
      by_cases isSelf : q = p
      · subst isSelf
        cases part with
        | fresh type isFresh => exact .fresh type (others type inum same isFresh)
        | locked other view isView isInode =>
          have apart : other ≠ ip := by
            rintro rfl
            exact same (isInode.symm.trans (viewed view isView))
          rw [← touches.locks other apart] at isView
          exact .locked other view isView isInode
        | freeing other inPhase isInode =>
          obtain rfl := touches.before _ _ inPhase
          exact absurd isInode.symm same
      · obtain ⟨sameLocal, samePc⟩ := touches.others q isSelf
        cases part with
        | fresh type isFresh => exact .fresh type (by rw [sameLocal, isFresh])
        | locked other view isView isInode =>
          exact .locked other view (by rw [sameLocal, isView]) isInode
        | freeing other inPhase isInode =>
          exact .freeing other (by rw [samePc, inPhase]) ((touches.inum_eq other).trans isInode)
  debts := by
    intro q debt mem
    by_cases isSelf : q = p
    · subst isSelf
      exact debts debt mem
    · rw [(touches.others q isSelf).1] at mem ⊢
      have same : (t.dinode debt.inum).type = (s.dinode debt.inum).type := by
        by_cases here : debt.inum = (s.inode ip).inum
        · exact types q isSelf debt mem here
        · rw [(touches.disk _ here).1]
      rw [same]
      exact forest.debts q debt mem

end Touches

end Xv6.Fs
