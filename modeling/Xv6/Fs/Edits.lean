import Xv6.Fs.Allocating

/-!
# Changes to a locked inode

What a process writes to an inode that it has locked, in memory and on the disk, together
with what it then knows and owes.
-/

namespace Xv6.Fs

open Function

variable {P : Type} {s t : System P} {l : P → Local} {p : P} {ip : Fin ninode} {view : View}
  [Fintype P] [DecidableEq P]

/-- What all processes owe, when what one of them owes changes. -/
theorem sum_debt_change (now : Local) (inum : Nat) :
    ∑ q, (update l p now q).debt inum + (l p).debt inum =
      ∑ q, (l q).debt inum + now.debt inum := by
  have sums := Sums.change (fun q => (l q).debt inum)
    (fun q => (update l p now q).debt inum) (Finset.mem_univ p) fun q _ other => by
      rw [update_of_ne other]
  rw [update_self] at sums
  exact sums

/-- The process has changed an inode that it has locked. -/
theorem Sound.edit (sound : Sound s l) (calm : Calm s p) (isView : (l p).locks ip = some view)
    {node : Dinode} {entries : List Dirent} {rooted : Bool} {owed : Multiset Debt} {pc : Pc P}
    (calmNow : pc.phase = none) (writes : Writes s t p ip { s.inode ip with copy := node } pc)
    (disk : t.dinode view.inum = node) (isEntries : t.entries view.inum = entries)
    (type : node.type = view.node.type) (backed : node.Backed)
    (sized : node.type = .dir → node.size = direntSize * entries.length)
    (flag : rooted = true → t.Rooted view.inum)
    (flags : ∀ q other found, (l q).locks other = some found → found.inum ≠ view.inum →
      found.rooted = true → s.Rooted found.inum → t.Rooted found.inum)
    (debts : ∀ debt ∈ owed, ((s.dinode debt.inum).type = .dir ↔ debt.dir = true) ∧
      (debt.dir = true → ∃ other found, (l p).locks other = some found ∧ found.inum = debt.inum))
    (tree : t.toImage.Tree fun inum => ∑ q, (update l p
      { (l p).setLock ip (some { view with node, entries, rooted }) with owed } q).debt inum) :
    Sound t (update l p
      { (l p).setLock ip (some { view with node, entries, rooted }) with owed }) := by
  generalize isNow : Local.mk _ _ _ _ _ = now at tree ⊢
  have self : update l p now p = now := update_self ..
  have locked : now.locks ip = some { view with node, entries, rooted } := by
    rw [← isNow]
    exact update_self ..
  have elsewhere : ∀ other, other ≠ ip → now.locks other = (l p).locks other := by
    intro other apart
    rw [← isNow]
    exact update_of_ne apart ..
  have sameRefs : now.refs = (l p).refs := by
    rw [← isNow]
    rfl
  have holds : Holds s l p ip := Or.inl (by rw [isView]; rintro ⟨⟩)
  obtain ⟨isValid, isInode, isNode, -, -⟩ := sound.data.view p ip view isView
  obtain ⟨ref, mem, isRef⟩ := sound.locks.kept p ip holds
  have known := sound.known mem (calm.phase_ne _)
  have isNamed : view.inum = ref.inum := by rw [← isInode, ← isRef, known.named]
  have touches : Touches s t l (update l p now) p ip :=
    writes.touches rfl (fun q other held => other (sound.locks.once q p ip held holds))
      ⟨ref, mem, isRef⟩ (fun phase other wrong => absurd wrong (calm.phase_ne _))
      (fun phase other wrong => by rw [calmNow] at wrong; cases wrong) elsewhere
  have notFresh : ∀ q kind, (l q).fresh ≠ some (view.inum, kind) := by
    intro q kind fresh
    by_cases isSelf : q = p
    · subst isSelf
      obtain ⟨-, -, -, unshared⟩ := sound.data.fresh q view.inum kind fresh
      exact unshared.locks ip view isView rfl
    · rw [isNamed] at fresh
      exact known.notFresh q kind isSelf fresh
  have nowFresh : ∀ q kind, (update l p now q).fresh ≠ some (view.inum, kind) := by
    intro q kind
    by_cases isSelf : q = p
    · rw [isSelf, self, ← isNow]
      exact notFresh p kind
    · rw [update_of_ne isSelf]
      exact notFresh q kind
  have calmAfter : ∀ point, (t.pc p).phase ≠ some point := by
    intro point
    rw [writes.at_pc, calmNow]
    rintro ⟨⟩
  have sameType : (t.dinode view.inum).type = (s.dinode view.inum).type := by
    rw [disk, type, isNode]
  have fits : Fits s t l (update l p now) p ip := by
    refine ⟨?_, ?_, ?_, ?_, ?_, ?_, ?_, ?_, ?_, ?_, ?_, ?_, ?_, ?_, ?_, ?_⟩ <;> try rw [isInode]
    · intro found isFound
      rw [self, locked, Option.some.injEq] at isFound
      rw [writes.entry, ← isFound]
      exact ⟨isValid, rfl, disk, isEntries, flag⟩
    · intro q other found isFound apart
      by_cases here : other = ip
      · subst here
        by_cases isSelf : q = p
        · rw [isSelf, self, locked, Option.some.injEq] at isFound
          rw [← isFound] at apart
          exact absurd rfl apart
        · rw [update_of_ne isSelf] at isFound
          exact absurd (Or.inl (by rw [isFound]; rintro ⟨⟩)) (touches.alone q isSelf)
      · rw [touches.lock_iff q here] at isFound
        exact flags q other found isFound apart
    · intro _ _
      rw [writes.entry, disk]
    · intro q other later isOther settled
      rw [isOther, sameType, ← isOther]
      by_cases isSelf : q = p
      · rw [isSelf, self, sameRefs] at later
        exact sound.data.used p other later (calm.phase_ne _)
      · rw [update_of_ne isSelf] at later
        rw [(touches.others q isSelf).2] at settled
        exact sound.data.used q other later settled
    · intro other later _
      rw [self, sameRefs] at later
      exact later
    · intro q isCwd
      rw [sameType, ← isInode]
      exact sound.data.usedCwd q ip isCwd
    · intro writable file
      rw [sameType, ← isInode]
      exact sound.data.usedFile ip writable file
    · exact fun phase wrong => absurd wrong (calmAfter _)
    · exact fun wrong => absurd wrong (calmAfter _)
    · exact fun wrong => absurd wrong (calmAfter _)
    · rw [self, ← isNow]
      exact Or.inr rfl
    · exact fun q kind fresh => absurd fresh (nowFresh q kind)
    · exact fun q kind _ fresh => absurd fresh (notFresh q kind)
    · exact fun kind _ => nowFresh p kind
    · rw [disk]
      exact backed
    · rw [disk, isEntries]
      exact sized
  refine ⟨touches.refs sound.refs ?_ ?_, touches.lockSound sound.locks ?_ ?_ (Or.inl holds) ?_,
    touches.data sound.refs sound.locks sound.data fits,
    touches.forest sound.forest tree ?_ ?_ ?_ ?_ ?_⟩
  · rw [writes.entry]
  · rw [self, ← isNow]
    exact ⟨rfl, rfl⟩
  · rw [self, sameRefs]
  · rw [writes.entry]
    exact sound.locks.busy p ip holds
  · exact fun phase wrong => absurd wrong (calmAfter _)
  · intro _
    refine Or.inr (.locked ip _ (by rw [self]; exact locked) ?_)
    exact isInode.symm
  · intro kind inum _ fresh
    rw [self, ← isNow]
    exact fresh
  · intro found isFound
    rw [isView, Option.some.injEq] at isFound
    rw [← isFound, isInode]
  · intro q _ debt owes isDebt
    rw [isDebt, isInode, sameType]
  · intro debt owes
    rw [self, ← isNow] at owes
    rw [self]
    obtain ⟨types, there⟩ := debts debt owes
    have same : (t.dinode debt.inum).type = (s.dinode debt.inum).type := by
      by_cases here : debt.inum = view.inum
      · rw [here, sameType]
      · rw [(writes.disk _ (by rw [isInode]; exact here)).1]
    refine ⟨by rw [same, types], fun isDir => ?_⟩
    obtain ⟨other, found, isFound, isDebt⟩ := there isDir
    by_cases here : other = ip
    · subst here
      rw [isView, Option.some.injEq] at isFound
      exact ⟨other, _, locked, by rw [← isDebt, ← isFound]⟩
    · exact ⟨other, found, (elsewhere other here).trans isFound, isDebt⟩

omit [DecidableEq P] in
/-- The copy in memory of a locked inode. -/
theorem Sound.view_copy (sound : Sound s l) (calm : Calm s p)
    (isView : (l p).locks ip = some view) : (s.inode ip).copy = view.node := by
  obtain ⟨isValid, isInode, isNode, -, -⟩ := sound.data.view p ip view isView
  have holds : Holds s l p ip := Or.inl (by rw [isView]; rintro ⟨⟩)
  obtain ⟨ref, mem, rfl⟩ := sound.locks.kept p ip holds
  rw [← isNode, ← isInode]
  refine sound.data.coherent ref.ip (sound.refs.ref_pos mem) isValid fun q dropping => ?_
  have isSelf := sound.locks.once q p ref.ip (Or.inr ⟨_, dropping⟩) holds
  subst isSelf
  exact calm.phase_ne _ dropping

/-! ## Link counts -/

/-- `iupdate` after the links of an inode have changed by what is owed then. -/
theorem Sound.relink (sound : Sound s l) (calm : Calm s p) (isView : (l p).locks ip = some view)
    {node : Dinode} {owed : Multiset Debt} (rest : Program P)
    (same : node.type = view.node.type ∧ node.size = view.node.size ∧ node.addrs = view.node.addrs)
    (balance : ∀ inum, (if inum = view.inum then node.nlink else (s.dinode inum).nlink) +
      (l p).debt inum = (s.dinode inum).nlink + (owed.countP fun debt => debt.inum = inum : Nat))
    (debts : ∀ debt ∈ owed, ((s.dinode debt.inum).type = .dir ↔ debt.dir = true) ∧
      (debt.dir = true → ∃ other found, (l p).locks other = some found ∧ found.inum = debt.inum)) :
    Sound (((s.setCopy ip node).iupdate ip).goto p (.run rest)) (update l p
      { (l p).setLock ip (some { view with node }) with owed }) := by
  obtain ⟨-, isInode, isNode, isEntries, isRooted⟩ := sound.data.view p ip view isView
  have used := sound.view_used isView
  generalize isAfter : ((s.setCopy ip node).iupdate ip).goto p (.run rest) = t
  have isDinode : t.dinode = update s.dinode view.inum node := by
    rw [← isAfter, ← isInode]
    simp [System.setCopy, System.setInode, System.iupdate, System.goto]
  have entries : t.entries = s.entries := by
    rw [← isAfter]
    rfl
  have writes : Writes s t p ip { s.inode ip with copy := node } (.run rest) := by
    rw [← isAfter]
    refine ⟨rfl, rfl, rfl, rfl, fun j other => ?_, rfl, rfl, rfl⟩
    rw [isInode] at other
    rw [isAfter, isDinode, update_of_ne other, entries]
    exact ⟨rfl, rfl⟩
  have rooted : ∀ j, s.Rooted j → t.Rooted j := by
    intro j was
    rw [Image.Rooted, Image.Tree.names_congr writes.ninodes entries]
    exact was
  refine sound.edit calm isView rfl writes ?_ (by rw [entries, isEntries]) same.1 ?_ ?_
    (fun flag => rooted _ (isRooted flag)) (fun _ _ _ _ _ _ => rooted _) debts ?_
  · rw [isDinode, update_self]
  · intro bn below
    rw [same.2.1, ← isNode] at below
    rw [same.2.2, ← isNode]
    exact sound.data.backed view.inum bn below
  · intro isDir
    rw [same.1, ← isNode] at isDir
    rw [same.2.1, ← isNode, ← isEntries]
    exact sound.data.sized view.inum isDir
  · refine sound.forest.tree.relink writes.ninodes entries (fun j => ?_) (fun j => ?_) fun j free => ?_
    · by_cases here : j = view.inum
      · rw [here, isDinode, update_self, same.1, isNode]
      · rw [isDinode, update_of_ne here]
    · have change := sum_debt_change (l := l) (p := p)
        { (l p).setLock ip (some { view with node }) with owed } j
      have sums := balance j
      have links : (t.dinode j).nlink =
          if j = view.inum then node.nlink else (s.dinode j).nlink := by
        by_cases here : j = view.inum
        · rw [here, isDinode, update_self, if_pos rfl]
        · rw [isDinode, update_of_ne here, if_neg here]
      rw [links]
      simp only [Local.debt] at change sums ⊢
      omega
    · have other : j ≠ view.inum := by
        rintro rfl
        exact used free
      have none : ∑ q, (l q).debt j = 0 := by
        have law := sound.forest.tree.law j
        rw [sound.forest.tree.free j free] at law
        omega
      have change := sum_debt_change (l := l) (p := p)
        { (l p).setLock ip (some { view with node }) with owed } j
      have sums := balance j
      rw [if_neg other] at sums
      simp only [Local.debt] at change sums none ⊢
      omega

end Xv6.Fs
