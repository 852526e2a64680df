import Xv6.Fs.Frame

/-!
# Locking and unlocking inodes

`ilock` in its two steps, `iunlock`, and the step of `iput` that makes the last reference to
an unlinked inode busy.
-/

namespace Xv6.Fs

open Function Multiset

variable {P : Type} {s : System P} {l : P → Local} {p : P} {ip : Fin ninode} {ref : Ref}
  [Fintype P]

omit [Fintype P] in
/-- An entry that is not busy has no holder. -/
theorem Locks.unheld (locks : Locks s l) (free : (s.inode ip).busy = false) (q : P) :
    ¬ Holds s l q ip := by
  intro holds
  rw [locks.busy q ip holds] at free
  cases free

/-- A locked inode is in the entry that is in use for its number. -/
theorem Sound.entry_eq (sound : Sound s l) {q : P} {other : Fin ninode} {view : View}
    (isView : (l q).locks other = some view) (some : 0 < (s.inode ip).ref)
    (same : view.inum = (s.inode ip).inum) : other = ip := by
  obtain ⟨ref, mem, rfl⟩ := sound.locks.kept q other (Or.inl (by rw [isView]; rintro ⟨⟩))
  refine sound.refs.distinct ref.ip ip (sound.refs.ref_pos mem) some ?_
  rw [(sound.data.view q ref.ip view isView).2.1, same]

/-- What `ilock` finds is so. -/
theorem Sound.finds (sound : Sound s l) (mem : ref ∈ (l p).refs)
    (inPhase : (s.pc p).phase = some (.loading, ref.ip)) :
    (l p).Finds ref (s.dinode ref.inum) (s.entries ref.inum) := by
  have some := sound.refs.ref_pos mem
  have named := sound.refs.named p ref mem
  have known := sound.known mem (by rw [inPhase]; simp)
  have holds : Holds s l p ref.ip := Or.inr ⟨_, inPhase⟩
  have unlocked := sound.locks.apart p _ _ inPhase
  have apart : ∀ other view, (l p).locks other = Option.some view → view.inum ≠ ref.inum := by
    intro other view isView same
    obtain rfl := sound.entry_eq isView some (same.trans named.symm)
    rw [unlocked] at isView
    cases isView
  refine ⟨fun type isFresh => ?_, fun settled isDir => ?_, known.plain, apart⟩
  · obtain ⟨-, isNew, empty, -⟩ := sound.data.fresh p ref.inum type isFresh
    exact ⟨isNew, empty⟩
  · rcases sound.forest.whole ref.inum isDir with whole | ⟨q, part⟩
    · exact whole
    · exfalso
      cases part with
      | fresh type isFresh =>
        by_cases isSelf : q = p
        · subst isSelf
          exact settled type isFresh
        · exact known.notFresh q type isSelf isFresh
      | locked other view isView isInode =>
        obtain rfl := sound.entry_eq isView some (isInode.trans named.symm)
        have isSelf := sound.locks.once q p ref.ip (Or.inl (by rw [isView]; rintro ⟨⟩)) holds
        subst isSelf
        exact apart ref.ip view isView isInode
      | freeing other freeing isInode =>
        obtain ⟨one, -⟩ := sound.data.ending q _ other freeing (Or.inr rfl)
        obtain rfl := sound.refs.distinct other ref.ip (by omega) some (isInode.trans named.symm)
        have isSelf := sound.locks.once q p ref.ip (Or.inr ⟨_, freeing⟩) holds
        subst isSelf
        rw [inPhase] at freeing
        cases freeing

variable [DecidableEq P]

/-- A process makes an inode busy, to lock it or to free it. -/
theorem Sound.busy (sound : Sound s l) (calm : Calm s p) (free : (s.inode ip).busy = false)
    (mem : ref ∈ (l p).refs) (isRef : ref.ip = ip) (pc : Pc P) {phase : Phase}
    (inPhase : pc.phase = some (phase, ip))
    (ready : phase = .truncating ∧ (s.inode ip).ref = 1 ∧ (s.inode ip).valid = true ∧
      (s.dinode (s.inode ip).inum).nlink = 0 ∧ 0 < (l p).own ip ∨ phase = .loading) :
    Sound ((s.setBusy ip true).goto p pc) l := by
  generalize isAfter : (s.setBusy ip true).goto p pc = t
  have image : t.toImage = s.toImage := by
    rw [← isAfter]
    rfl
  have writes : Writes s t p ip { s.inode ip with busy := true } pc := by
    rw [← isAfter]
    exact ⟨rfl, rfl, rfl, rfl, fun _ _ => ⟨rfl, rfl⟩, rfl, rfl, rfl⟩
  have unheld := sound.locks.unheld free
  have unlocked : (l p).locks ip = none := by
    by_contra locked
    exact unheld p (Or.inl locked)
  have touches : Touches s t l l p ip := by
    refine writes.touches (update_eq_self p l).symm (fun q _ => unheld q)
      ⟨ref, mem, isRef⟩ (fun phase other wrong => absurd wrong (calm.phase_ne _))
      (fun later other inLater => ?_) fun _ _ => rfl
    rw [inPhase] at inLater
    cases inLater
    rfl
  have known := sound.known mem (calm.phase_ne _)
  have isInode : (s.inode ip).inum = ref.inum := by rw [← isRef, known.named]
  have fits : Fits s t l l p ip := by
    refine touches.fits_of_image sound.data image (fun view isView => ?_) (fun valid settled => ?_)
      (fun ref mem _ => sound.data.used p ref mem (calm.phase_ne _)) (fun _ mem _ => mem)
      (fun later inLater => ?_) (Or.inr rfl) (fun q type other isFresh => ?_)
      (fun type locked => absurd unlocked locked)
    · rw [unlocked] at isView
      cases isView
    · rw [writes.entry] at valid ⊢
      have some := sound.refs.ref_pos mem
      rw [isRef] at some
      refine sound.data.coherent ip some valid fun q dropping => ?_
      exact unheld q (Or.inr ⟨_, dropping⟩)
    · rw [writes.at_pc, inPhase] at inLater
      cases inLater
      rw [writes.entry]
      rcases ready with ⟨isEnding, one, valid, unlinked, own⟩ | isLoading
      · exact Or.inl ⟨isEnding, one, valid, unlinked, own⟩
      · exact Or.inr isLoading
    · rw [isInode] at isFresh
      exact absurd isFresh (known.notFresh q type other)
  refine ⟨touches.refs sound.refs ?_ ⟨rfl, rfl⟩, touches.lockSound sound.locks rfl ?_ (Or.inr free)
    fun _ _ => unlocked, touches.data sound.refs sound.locks sound.data fits,
    sound.forest.of_eq image (fun q => ⟨rfl, rfl, rfl⟩) fun q other freeing => ?_⟩
  · rw [writes.entry]
  · rw [writes.entry]
  · have other : q ≠ p := by
      rintro rfl
      exact calm.phase_ne _ freeing
    rw [(touches.others q other).2]
    exact ⟨freeing, touches.inum_eq _⟩

/-- `ilock` has the inode in memory. -/
theorem Sound.load (sound : Sound s l) {rest : Program P} (isAt : s.pc p = .loading ref.ip rest)
    (mem : ref ∈ (l p).refs) (value : Inode)
    (same : value.inum = (s.inode ref.ip).inum ∧ value.ref = (s.inode ref.ip).ref ∧
      value.busy = (s.inode ref.ip).busy)
    (valid : value.valid = true) (copy : value.copy = s.dinode ref.inum) :
    Sound ((s.setInode ref.ip value).goto p (.run rest)) (update l p
      ((l p).loaded ref.ip ref.inum (s.dinode ref.inum) (s.entries ref.inum))) := by
  generalize isAfter : (s.setInode ref.ip value).goto p (.run rest) = t
  generalize isNow :
    (l p).loaded ref.ip ref.inum (s.dinode ref.inum) (s.entries ref.inum) = now
  have image : t.toImage = s.toImage := by
    rw [← isAfter]
    rfl
  have writes : Writes s t p ref.ip value (.run rest) := by
    rw [← isAfter]
    exact ⟨rfl, rfl, same.1, rfl, fun _ _ => ⟨rfl, rfl⟩, rfl, rfl, rfl⟩
  have inPhase : (s.pc p).phase = some (.loading, ref.ip) := by
    rw [isAt]
    rfl
  have holds : Holds s l p ref.ip := Or.inr ⟨_, inPhase⟩
  have known := sound.known mem (by rw [inPhase]; simp)
  have locked : now.locks ref.ip =
      some ⟨ref.inum, s.dinode ref.inum, s.entries ref.inum, false⟩ := by
    rw [← isNow]
    exact update_self ..
  have sameRefs : now.refs = (l p).refs := by
    rw [← isNow]
    rfl
  have touches : Touches s t l (update l p now) p ref.ip := by
    refine writes.touches rfl (fun q other held => other (sound.locks.once q p ref.ip held holds))
      ⟨ref, mem, rfl⟩ (fun phase other was => ?_) (by rintro _ _ ⟨⟩) fun other apart => ?_
    · rw [inPhase] at was
      cases was
      rfl
    · rw [← isNow]
      exact update_of_ne apart ..
  have isFresh : ∀ inum type, now.fresh = some (inum, type) ↔
      inum ≠ ref.inum ∧ (l p).fresh = some (inum, type) := by
    intro inum type
    rw [← isNow]
    simp only [Local.loaded]
    split
    · rename_i taken
      refine ⟨by rintro ⟨⟩, fun both => absurd ?_ both.1⟩
      rw [both.2] at taken
      exact Option.some.inj taken
    · rename_i other
      refine ⟨fun fresh => ⟨?_, fresh⟩, fun fresh => fresh.2⟩
      rintro rfl
      exact other (congrArg (Option.map Prod.fst) fresh)
  have self : update l p now p = now := update_self ..
  have fits : Fits s t l (update l p now) p ref.ip := by
    refine touches.fits_of_image sound.data image ?_ ?_ ?_ ?_ ?_ ?_ ?_ ?_
    · intro view isView
      rw [self, locked, Option.some.injEq] at isView
      rw [writes.entry, known.named, ← isView]
      exact ⟨valid, rfl, rfl, rfl, by rintro ⟨⟩⟩
    · intro _ _
      rw [writes.entry, known.named, copy]
    · intro other later isInode
      rw [self, sameRefs] at later
      exact sound.data.used p other later (by rw [inPhase]; simp)
    · intro other later _
      rw [self, sameRefs] at later
      exact later
    · intro phase wrong
      rw [writes.at_pc] at wrong
      cases wrong
    · rw [self, ← isNow]
      simp only [Local.loaded]
      split
      · exact Or.inl rfl
      · exact Or.inr rfl
    · intro q type other fresh
      rw [known.named] at fresh
      exact absurd fresh (known.notFresh q type other)
    · intro type _ fresh
      rw [self, known.named] at fresh
      exact ((isFresh _ _).mp fresh).1 rfl
  refine ⟨touches.refs sound.refs ?_ ?_, touches.lockSound sound.locks ?_ ?_ (Or.inl holds) ?_,
    touches.data sound.refs sound.locks sound.data fits, touches.forest sound.forest ?_ ?_ ?_ ?_ ?_ ?_⟩
  · rw [writes.entry, same.2.1]
  · rw [self, ← isNow]
    exact ⟨rfl, rfl⟩
  · rw [self, sameRefs]
  · rw [writes.entry, same.2.2]
    exact sound.locks.busy p ref.ip holds
  · intro phase wrong
    rw [writes.at_pc] at wrong
    cases wrong
  · rw [image, sum_debt_congr (by rw [← isNow]; rfl)]
    exact sound.forest.tree
  · intro _
    refine Or.inr (.locked ref.ip _ (by rw [self]; exact locked) known.named.symm)
  · intro type inum other fresh
    rw [known.named] at other
    rw [self]
    exact (isFresh inum type).mpr ⟨other, fresh⟩
  · intro view isView
    rw [sound.locks.apart p _ _ inPhase] at isView
    cases isView
  · intro q other debt mem isInode
    rw [image]
  · intro debt mem
    rw [self, ← isNow] at mem
    rw [image]
    obtain ⟨types, there⟩ := sound.forest.debts p debt mem
    refine ⟨types, fun isDir => ?_⟩
    obtain ⟨other, view, isView, isInode⟩ := there isDir
    have apart : other ≠ ref.ip := by
      rintro rfl
      rw [sound.locks.apart p _ _ inPhase] at isView
      cases isView
    exact ⟨other, view, (touches.locks other apart).trans isView, isInode⟩

/-- `iunlock`. What the process has seen of the type of the inode it may go on to use. -/
theorem Sound.iunlock (sound : Sound s l) (calm : Calm s p) {view : View} {others : Multiset Ref}
    (isView : (l p).locks ref.ip = some view) (isRefs : (l p).refs = ref ::ₘ others)
    (settled : ¬ (l p).OwesDir view.inum)
    (whole : view.node.type = .dir → 2 ≤ view.entries.length) (rest : Program P) :
    Sound ((s.setBusy ref.ip false).goto p (.run rest)) (update l p
      { (l p).setLock ref.ip none with
        refs := { ref with plain := ref.plain || view.node.type ≠ .dir } ::ₘ others }) := by
  generalize isAfter : (s.setBusy ref.ip false).goto p (.run rest) = t
  generalize isSeen : ({ ref with plain := ref.plain || view.node.type ≠ .dir } : Ref) = seen
  generalize isNow : Local.mk _ _ _ _ _ = now
  have image : t.toImage = s.toImage := by
    rw [← isAfter]
    rfl
  have writes : Writes s t p ref.ip { s.inode ref.ip with busy := false } (.run rest) := by
    rw [← isAfter]
    exact ⟨rfl, rfl, rfl, rfl, fun _ _ => ⟨rfl, rfl⟩, rfl, rfl, rfl⟩
  have mem : ref ∈ (l p).refs := by simp [isRefs]
  have holds : Holds s l p ref.ip := Or.inl (by rw [isView]; rintro ⟨⟩)
  have known := sound.known mem (calm.phase_ne _)
  obtain ⟨isValid, isInode, isNode, isEntries, -⟩ := sound.data.view p ref.ip view isView
  have sameInum : view.inum = ref.inum := by rw [← isInode, known.named]
  have unlocked : now.locks ref.ip = none := by
    rw [← isNow]
    exact update_self ..
  have nowRefs : now.refs = seen ::ₘ others := by rw [← isNow]
  have asSeen : seen.ip = ref.ip ∧ seen.inum = ref.inum ∧ seen.lent = ref.lent := by
    rw [← isSeen]
    exact ⟨rfl, rfl, rfl⟩
  have locksOther : ∀ other, other ≠ ref.ip → now.locks other = (l p).locks other := by
    intro other apart
    rw [← isNow]
    exact update_of_ne apart ..
  have self : update l p now p = now := update_self ..
  have touches : Touches s t l (update l p now) p ref.ip :=
    writes.touches rfl (fun q other held => other (sound.locks.once q p ref.ip held holds))
      ⟨ref, mem, rfl⟩ (fun phase other wrong => absurd wrong (calm.phase_ne _)) (by rintro _ _ ⟨⟩) locksOther
  have plain : seen.plain = true → (s.dinode ref.inum).type ≠ .dir := by
    intro isPlain
    rw [← isSeen, Bool.or_eq_true_iff, decide_eq_true_eq] at isPlain
    rcases isPlain with before | looked
    · exact known.plain before
    · rw [← sameInum, isNode]
      exact looked
  have fits : Fits s t l (update l p now) p ref.ip := by
    refine touches.fits_of_image sound.data image ?_ ?_ ?_ ?_ ?_ ?_ ?_ ?_
    · intro other isOther
      rw [self, unlocked] at isOther
      cases isOther
    · intro _ _
      rw [writes.entry]
      refine sound.data.coherent ref.ip (sound.refs.ref_pos mem) isValid fun q dropping => ?_
      have isSelf := sound.locks.once q p ref.ip (Or.inr ⟨_, dropping⟩) holds
      subst isSelf
      exact calm.phase_ne _ dropping
    · intro other later _
      rw [self, nowRefs, mem_cons] at later
      rcases later with rfl | later
      · rw [asSeen.2.1]
        exact ⟨known.used, plain⟩
      · refine sound.data.used p other ?_ (calm.phase_ne _)
        rw [isRefs]
        exact mem_cons_of_mem later
    · intro other later apart
      rw [self, nowRefs, mem_cons] at later
      rcases later with rfl | later
      · rw [asSeen.2.1, known.named] at apart
        exact absurd rfl apart
      · rw [isRefs]
        exact mem_cons_of_mem later
    · intro phase wrong
      rw [writes.at_pc] at wrong
      cases wrong
    · rw [self, ← isNow]
      exact Or.inr rfl
    · intro q type other fresh
      rw [known.named] at fresh
      exact absurd fresh (known.notFresh q type other)
    · intro type locked
      rw [self] at locked
      exact absurd unlocked locked
  refine ⟨?_, ?_, touches.data sound.refs sound.locks sound.data fits,
    touches.forest sound.forest ?_ ?_ ?_ ?_ ?_ ?_⟩
  · have counts : ∀ other, (t.inode other).ref = (s.inode other).ref := by
      intro other
      by_cases same : other = ref.ip
      · rw [same, writes.entry]
      · rw [touches.entry other same]
    refine sound.refs.change (p := p) (fun q other => ?_) (fun other => ?_)
      (fun other _ => touches.inum_eq other) (fun a b first second same => ?_)
      (fun other later => ?_) (fun other later isLent => ?_) ?_ ?_
    · rw [update_of_ne other, touches.cwd, touches.inUse]
      exact ⟨rfl, rfl, rfl, rfl⟩
    · rw [counts, touches.files, held, held, self, touches.cwd, Local.own_cons isRefs other,
        Local.own_cons nowRefs other, asSeen.1, asSeen.2.2]
    · rw [counts] at first second
      rw [touches.inum_eq, touches.inum_eq] at same
      exact sound.refs.distinct a b first second same
    · rw [self, nowRefs, mem_cons] at later
      rw [touches.inum_eq]
      rcases later with rfl | later
      · rw [asSeen.1, asSeen.2.1, known.named]
      · refine sound.refs.named p other ?_
        rw [isRefs]
        exact mem_cons_of_mem later
    · rw [self, nowRefs, mem_cons] at later
      rw [touches.inUse]
      rcases later with rfl | later
      · rw [asSeen.1]
        exact sound.refs.lent p ref mem (asSeen.2.2 ▸ isLent)
      · refine sound.refs.lent p other ?_ isLent
        rw [isRefs]
        exact mem_cons_of_mem later
    · rw [touches.inUse, touches.files]
      exact sound.refs.inUse
    · rw [self, touches.cwd, ← isNow]
      exact sound.refs.away p
  · refine touches.released sound.locks ?_ (by rw [self]; exact unlocked) fun other later apart => ?_
    · rw [Calm, writes.at_pc]
      rfl
    · rw [isRefs, mem_cons] at later
      rw [self, nowRefs]
      rcases later with rfl | later
      · exact absurd rfl apart
      · exact mem_cons_of_mem later
  · rw [image, sum_debt_congr (by rw [← isNow]; rfl)]
    exact sound.forest.tree
  · intro isDir
    rw [image, isInode] at isDir ⊢
    rw [isNode] at isDir
    rw [isEntries]
    exact Or.inl (whole isDir)
  · intro type inum _ fresh
    rw [self, ← isNow]
    exact fresh
  · intro other isOther
    rw [isView, Option.some.injEq] at isOther
    rw [← isOther, isInode]
  · intro q other debt owes isDebt
    rw [image]
  · intro debt owes
    rw [self, ← isNow] at owes
    rw [image, self]
    obtain ⟨types, there⟩ := sound.forest.debts p debt owes
    refine ⟨types, fun isDir => ?_⟩
    obtain ⟨other, found, isFound, isDebt⟩ := there isDir
    have apart : other ≠ ref.ip := by
      rintro rfl
      rw [isView, Option.some.injEq] at isFound
      refine settled ?_
      rw [Local.OwesDir, isFound, isDebt, ← isDir]
      exact owes
    exact ⟨other, found, (locksOther other apart).trans isFound, isDebt⟩

end Xv6.Fs
