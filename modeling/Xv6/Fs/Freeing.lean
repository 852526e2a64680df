import Xv6.Fs.Locking

/-!
# Freeing inodes

The steps of `iput` that truncate and free an unlinked inode whose last reference goes.
-/

namespace Xv6.Fs

open Function

variable {P : Type} {s t : System P} {l m : P → Local} {p : P} {ip : Fin ninode} {ref : Ref}
  [Fintype P] {phase : Phase} {q : P} {rest : Program P}

/-- Nobody but the process that is about to free an inode has anything to do with it. -/
structure Lone (s : System P) (l : P → Local) (p : P) (ip : Fin ninode) : Prop where
  refs : ∀ q, ∀ ref ∈ (l q).refs, ref.ip = ip → q = p
  once : ((l p).refs.countP fun ref => ref.ip = ip) ≤ 1
  cwd : ∀ q, s.cwd q ≠ some ip
  files : ∀ writable, (ip, writable) ∉ s.files

theorem Sound.lone (sound : Sound s l) (inPhase : (s.pc p).phase = some (phase, ip))
    (isEnding : phase = .truncating ∨ phase = .freeing) : Lone s l p ip := by
  obtain ⟨-, -, -, own⟩ := sound.data.ending p phase ip inPhase isEnding
  obtain ⟨alone, one, files⟩ := sound.data.alone sound.refs inPhase isEnding
  have mine : ∀ q, ∀ ref ∈ (l q).refs, ref.ip = ip → ref.lent = false := by
    rintro q ref mem rfl
    by_contra lent
    obtain ⟨writable, file⟩ := sound.refs.inUse q ref.ip
      (sound.refs.lent q ref mem (by simpa using lent))
    exact files writable file
  rw [held] at one
  refine ⟨fun q ref mem isRef => alone q ?_, ?_, fun q isCwd => ?_, files⟩
  · have some := Local.own_pos mem (mine q ref mem isRef)
    rw [held, ← isRef]
    omega
  · have same : ((l p).refs.countP fun ref => ref.ip = ip) = (l p).own ip :=
      Multiset.countP_congr rfl fun ref mem =>
        propext ⟨fun isRef => ⟨isRef, mine p ref mem isRef⟩, fun isRef => isRef.1⟩
    omega
  · have isSelf : q = p := by
      refine alone q ?_
      rw [held, if_pos isCwd]
      omega
    subst isSelf
    rw [if_pos isCwd] at one
    omega

/-- Nothing is owed to an inode without links. -/
theorem Forest.debt_inum_ne (forest : Forest s l) {inum : Nat}
    (unlinked : (s.dinode inum).nlink = 0) {debt : Debt} (mem : debt ∈ (l q).owed) :
    debt.inum ≠ inum := by
  rintro rfl
  have law := forest.tree.law debt.inum
  have mine := Sums.le_of_mem (fun r => (l r).debt debt.inum) (Finset.mem_univ q)
  have some : 0 < (l q).debt debt.inum := Multiset.countP_pos.mpr ⟨debt, mem, rfl⟩
  simp only [unlinked] at law mine
  omega

variable [DecidableEq P]

omit [DecidableEq P] in
/-- The references that are still in use when an inode is truncated or freed. -/
theorem Lone.fits (lone : Lone s l p ip) (refs : Refs s l) (some : 0 < (s.inode ip).ref)
    (mem : ref ∈ (l q).refs) (isInode : ref.inum = (s.inode ip).inum) :
    q = p ∧ ref.ip = ip := by
  have isRef : ref.ip = ip := by
    refine refs.distinct ref.ip ip (refs.ref_pos mem) some ?_
    rw [refs.named q ref mem, isInode]
  exact ⟨lone.refs q ref mem isRef, isRef⟩

/-- A step on the way to freeing an inode, which empties it or makes it free. -/
theorem Sound.wipe (sound : Sound s l) {later : Phase} (inPhase : (s.pc p).phase = some (phase, ip))
    (isEnding : phase = .truncating ∨ phase = .freeing)
    (settled : ∀ type, (l p).fresh ≠ some ((s.inode ip).inum, type)) {node : Dinode} {pc : Pc P}
    (writes : Writes s t p ip { s.inode ip with copy := node } pc)
    (inLater : pc.phase = some (later, ip)) (disk : t.dinode (s.inode ip).inum = node)
    (empty : t.entries (s.inode ip).inum = []) (unlinked : node.nlink = 0)
    (stage : later = .freeing ∧ node.type = (s.dinode (s.inode ip).inum).type ∨
      later = .dropping ∧ node.type = .free)
    (backed : node.Backed) (sized : node.type = .dir → node.size = 0)
    (tree : t.toImage.Tree fun inum => ∑ q, (l q).debt inum) (rooted : ∀ j, s.Rooted j → t.Rooted j) :
    Sound t l := by
  obtain ⟨one, isValid, was, own⟩ := sound.data.ending p phase ip inPhase isEnding
  have holds : Holds s l p ip := Or.inr ⟨_, inPhase⟩
  have lone := sound.lone inPhase isEnding
  have some : 0 < (s.inode ip).ref := by omega
  have notDropping : ∀ other, (s.pc p).phase ≠ Option.some (.dropping, other) := by
    intro other dropping
    rw [inPhase] at dropping
    cases dropping
    simp at isEnding
  obtain ⟨ref, mem, isRef⟩ := sound.locks.kept p ip holds
  have unlocked := sound.locks.apart p _ _ inPhase
  have now : (t.pc p).phase = Option.some (later, ip) := by rw [writes.at_pc, inLater]
  have touches : Touches s t l l p ip := by
    refine writes.touches (update_eq_self p l).symm
      (fun q other held => other (sound.locks.once q p ip held holds)) ⟨ref, mem, isRef⟩
      (fun phase other was => ?_) (fun phase other was => ?_) fun _ _ => rfl
    · rw [inPhase] at was
      cases was
      rfl
    · rw [inLater] at was
      cases was
      rfl
  have notFresh : ∀ q type, (l q).fresh ≠ Option.some ((s.inode ip).inum, type) := by
    intro q type
    by_cases isSelf : q = p
    · rw [isSelf]
      exact settled type
    · have known := sound.known mem (notDropping _)
      rw [← isRef, known.named]
      exact known.notFresh q type isSelf
  have fits : Fits s t l l p ip := {
    view := by
      intro view isView
      rw [unlocked] at isView
      cases isView
    rooted := fun q other view _ _ _ was => rooted _ was
    coherent := by
      intro _ _
      rw [writes.entry, disk]
    used := by
      intro q other later isInode calm
      obtain ⟨isSelf, isEntry⟩ := lone.fits sound.refs some later isInode
      rw [isSelf] at later calm
      rw [isEntry] at calm
      rw [isInode, disk]
      rcases stage with ⟨-, same⟩ | ⟨rfl, -⟩
      · rw [same, ← isInode]
        exact sound.data.used p other later (notDropping _)
      · exact absurd now calm
    others := fun _ mem _ => mem
    usedCwd := fun q isCwd => absurd isCwd (lone.cwd q)
    usedFile := fun writable file => absurd file (lone.files writable)
    ending := by
      intro _ _ _
      rw [writes.entry, disk]
      exact ⟨one, isValid, unlinked, own⟩
    emptied := fun _ => empty
    dropped := by
      intro dropping
      rw [now] at dropping
      cases dropping
      rw [writes.entry]
      rcases stage with ⟨wrong, -⟩ | ⟨-, free⟩
      · cases wrong
      · exact ⟨free, lone.once⟩
    fresh := Or.inr rfl
    freshSame := fun q type fresh => absurd fresh (notFresh q type)
    freshOther := fun q type _ fresh => absurd fresh (notFresh q type)
    freshLock := fun type _ => notFresh p type
    backed := by
      rw [disk]
      exact backed
    sized := by
      rw [disk, empty]
      exact sized }
  refine ⟨touches.refs sound.refs ?_ ⟨rfl, rfl⟩,
    touches.lockSound sound.locks rfl ?_ (Or.inl holds) fun _ _ => unlocked,
    touches.data sound.refs sound.locks sound.data fits,
    touches.forest sound.forest tree ?_ (fun _ _ _ fresh => fresh) ?_ ?_ ?_⟩
  · rw [writes.entry]
  · rw [writes.entry]
    exact sound.locks.busy p ip holds
  · intro isDir
    rcases stage with ⟨rfl, -⟩ | ⟨-, free⟩
    · exact Or.inr (.freeing ip now (touches.inum_eq ip))
    · rw [disk, free] at isDir
      cases isDir
  · intro view isView
    rw [unlocked] at isView
    cases isView
  · intro q _ debt owes isInode
    exact absurd isInode (sound.forest.debt_inum_ne was owes)
  · intro debt owes
    rw [(touches.disk _ (sound.forest.debt_inum_ne was owes)).1]
    exact sound.forest.debts p debt owes

omit [DecidableEq P] in
/-- The copy in memory of an inode that is about to be freed. -/
theorem Sound.ending_copy (sound : Sound s l) (inPhase : (s.pc p).phase = some (phase, ip))
    (isEnding : phase = .truncating ∨ phase = .freeing) :
    (s.inode ip).copy = s.dinode (s.inode ip).inum := by
  obtain ⟨one, isValid, -, -⟩ := sound.data.ending p phase ip inPhase isEnding
  refine sound.data.coherent ip (by omega) isValid fun q dropping => ?_
  have isSelf := sound.locks.once q p ip (Or.inr ⟨_, dropping⟩) (Or.inr ⟨_, inPhase⟩)
  subst isSelf
  rw [inPhase] at dropping
  cases dropping
  simp at isEnding

/-- `itrunc`, for an inode that is about to be freed. -/
theorem Sound.itrunc (sound : Sound s l) (isAt : s.pc p = .truncating ip rest)
    (settled : ∀ type, (l p).fresh ≠ some ((s.inode ip).inum, type)) :
    Sound ((s.itrunc ip).goto p (.freeing ip rest)) l := by
  have inPhase : (s.pc p).phase = some (.truncating, ip) := by
    rw [isAt]
    rfl
  obtain ⟨-, -, unlinked, -⟩ := sound.data.ending p _ ip inPhase (Or.inl rfl)
  have copy := sound.ending_copy inPhase (Or.inl rfl)
  obtain ⟨ref, mem, isRef⟩ := sound.locks.kept p ip (Or.inr ⟨_, inPhase⟩)
  have known := sound.known mem (by rw [inPhase]; simp)
  generalize isAfter : (s.itrunc ip).goto p (.freeing ip rest) = t
  generalize isNode : ({ s.dinode (s.inode ip).inum with addrs := fun _ => 0, size := 0 } :
    Dinode) = node
  have isDinode : t.dinode = update s.dinode (s.inode ip).inum node := by
    rw [← isAfter, ← isNode, ← copy]
    simp [System.itrunc, System.setCopy, System.setInode, System.setEntries, System.iupdate,
      System.goto]
  have isEntries : t.entries = update s.entries (s.inode ip).inum [] := by
    rw [← isAfter]
    rfl
  have ninodes : t.ninodes = s.ninodes := by
    rw [← isAfter]
    rfl
  have writes : Writes s t p ip { s.inode ip with copy := node } (.freeing ip rest) := by
    rw [← isAfter, ← isNode, ← copy]
    refine ⟨rfl, rfl, rfl, rfl, fun j other => ?_, rfl, rfl, rfl⟩
    rw [isAfter, isDinode, isEntries, update_of_ne other, update_of_ne other]
    exact ⟨rfl, rfl⟩
  have empty : t.entries (s.inode ip).inum = [] := by rw [isEntries, update_self]
  have others : ∀ j, j ≠ (s.inode ip).inum → t.entries j = s.entries j := by
    intro j other
    rw [isEntries, update_of_ne other]
  have tree := sound.forest.tree
  have used : (s.dinode (s.inode ip).inum).type ≠ .free := by
    rw [← isRef, known.named]
    exact known.used
  have unrooted : ¬ s.Rooted (s.inode ip).inum :=
    fun rooted => tree.rooted_linked rooted unlinked
  have childless : Childless (t.entries (s.inode ip).inum) := by
    rw [empty]
    exact .nil
  have same : ∀ i, (t.dinode i).type = (s.dinode i).type ∧ (t.dinode i).nlink = (s.dinode i).nlink := by
    intro i
    by_cases here : i = (s.inode ip).inum
    · rw [here, isDinode, update_self, ← isNode]
      exact ⟨rfl, rfl⟩
    · rw [isDinode, update_of_ne here]
      exact ⟨rfl, rfl⟩
  refine sound.wipe inPhase (Or.inl rfl) settled writes rfl ?_ empty ?_ (Or.inl ⟨rfl, ?_⟩) ?_ ?_
    (tree.reshape ninodes others (fun i => (same i).1) (fun i => (same i).2) used (fun _ => empty)
      unrooted childless ?_) fun j rooted => ?_
  · rw [isDinode, update_self]
  · rw [← isNode]
    exact unlinked
  · rw [← isNode]
  · rw [← isNode]
    exact fun bn below => absurd below (Nat.not_lt_zero _)
  · rw [← isNode]
    exact fun _ => rfl
  · rw [empty]
    trivial
  · rw [Image.Rooted, tree.names_reshape ninodes others used unrooted childless]
    exact rooted

/-- `iput` makes the inode free. -/
theorem Sound.ifree (sound : Sound s l) (isAt : s.pc p = .freeing ip rest)
    (settled : ∀ type, (l p).fresh ≠ some ((s.inode ip).inum, type)) :
    Sound (((s.setCopy ip { (s.inode ip).copy with type := .free }).iupdate ip).goto p
      (.dropping ip rest)) l := by
  have inPhase : (s.pc p).phase = some (.freeing, ip) := by
    rw [isAt]
    rfl
  obtain ⟨-, -, unlinked, -⟩ := sound.data.ending p _ ip inPhase (Or.inr rfl)
  have copy := sound.ending_copy inPhase (Or.inr rfl)
  generalize isNode : ({ (s.inode ip).copy with type := .free } : Dinode) = node
  generalize isAfter : ((s.setCopy ip node).iupdate ip).goto p (.dropping ip rest) = t
  have isDinode : t.dinode = update s.dinode (s.inode ip).inum node := by
    rw [← isAfter]
    simp [System.setCopy, System.setInode, System.iupdate, System.goto]
  have writes : Writes s t p ip { s.inode ip with copy := node } (.dropping ip rest) := by
    rw [← isAfter]
    refine ⟨rfl, rfl, rfl, rfl, fun j other => ?_, rfl, rfl, rfl⟩
    rw [isAfter, isDinode, update_of_ne other, ← isAfter]
    exact ⟨rfl, rfl⟩
  have entries : t.entries = s.entries := by
    rw [← isAfter]
    rfl
  have disk : t.dinode (s.inode ip).inum = node := by rw [isDinode, update_self]
  have empty := sound.data.emptied p ip inPhase
  have nlink : node.nlink = 0 := by
    rw [← isNode, copy]
    exact unlinked
  refine sound.wipe inPhase (Or.inr rfl) settled writes rfl disk ?_ nlink (Or.inr ⟨rfl, ?_⟩) ?_ ?_
    (sound.forest.tree.retype writes.ninodes entries (fun j other => (writes.disk j other).1) unlinked
      ?_ empty fun used => ?_) fun j rooted => ?_
  · rw [entries, empty]
  · rw [← isNode]
  · rw [← isNode, copy]
    exact sound.data.backed _
  · rw [← isNode]
    rintro ⟨⟩
  · rw [disk, nlink]
  · rw [disk, ← isNode] at used
    exact absurd rfl used
  · rw [Image.Rooted, Image.Tree.names_congr writes.ninodes entries]
    exact rooted

/-- `iput` gives back the entry of the inode that it has freed. -/
theorem Sound.drop (sound : Sound s l) {others : Multiset Ref}
    (isAt : s.pc p = .dropping ref.ip rest) (givesUp : (l p).GivesUp ref others) :
    Sound ((s.setInode ref.ip { s.inode ref.ip with
        busy := false, valid := false, ref := (s.inode ref.ip).ref - 1 }).goto p (.run rest))
      (update l p { l p with refs := others }) := by
  have inPhase : (s.pc p).phase = some (.dropping, ref.ip) := by
    rw [isAt]
    rfl
  obtain ⟨isRefs, own, -, settled⟩ := givesUp
  have mem : ref ∈ (l p).refs := by simp [isRefs]
  have holds : Holds s l p ref.ip := Or.inr ⟨_, inPhase⟩
  have unlocked := sound.locks.apart p _ _ inPhase
  have subset : ∀ other ∈ others, other ∈ (l p).refs := fun other => Local.mem_of_rest isRefs
  have last : ∀ other ∈ others, other.ip ≠ ref.ip := by
    intro other later isRef
    have atMost := (sound.data.dropped p ref.ip inPhase).2
    rw [isRefs, Multiset.countP_cons, if_pos rfl] at atMost
    have some : 0 < others.countP fun other => other.ip = ref.ip :=
      Multiset.countP_pos.mpr ⟨other, later, isRef⟩
    omega
  have lastInum : ∀ other ∈ others, other.inum ≠ (s.inode ref.ip).inum := by
    intro other later isInode
    refine last other later (sound.refs.distinct _ _ (sound.refs.ref_pos (subset other later))
      (sound.refs.ref_pos mem) ?_)
    rw [sound.refs.named p other (subset other later), isInode]
  generalize isAfter : (s.setInode ref.ip { s.inode ref.ip with
    busy := false, valid := false, ref := (s.inode ref.ip).ref - 1 }).goto p (.run rest) = t
  have image : t.toImage = s.toImage := by
    rw [← isAfter]
    rfl
  have writes : Writes s t p ref.ip { s.inode ref.ip with
      busy := false, valid := false, ref := (s.inode ref.ip).ref - 1 } (.run rest) := by
    rw [← isAfter]
    exact ⟨rfl, rfl, rfl, rfl, fun _ _ => ⟨rfl, rfl⟩, rfl, rfl, rfl⟩
  have self : update l p { l p with refs := others } p = { l p with refs := others } :=
    update_self ..
  have touches : Touches s t l (update l p { l p with refs := others }) p ref.ip := by
    refine writes.touches rfl (fun q other held => other (sound.locks.once q p ref.ip held holds))
      ⟨ref, mem, rfl⟩ (fun phase other was => ?_) (by rintro _ _ ⟨⟩) fun _ _ => rfl
    rw [inPhase] at was
    cases was
    rfl
  have fits : Fits s t l (update l p { l p with refs := others }) p ref.ip := by
    refine touches.fits_of_image sound.data image ?_ ?_ ?_ ?_ ?_ ?_ ?_ ?_
    · intro view isView
      rw [self, unlocked] at isView
      cases isView
    · intro valid _
      rw [writes.entry] at valid
      cases valid
    · intro other later isInode
      rw [self] at later
      exact absurd isInode (lastInum other later)
    · intro other later _
      rw [self] at later
      exact subset other later
    · intro phase wrong
      rw [writes.at_pc] at wrong
      cases wrong
    · rw [self]
      exact Or.inr rfl
    · intro q type _ _ other later
      rw [self] at later
      exact lastInum other later
    · intro type locked
      rw [self] at locked
      exact absurd unlocked locked
  have counts : ∀ ip, (t.inode ip).ref + (if ref.ip = ip then 1 else 0) = (s.inode ip).ref := by
    intro ip
    have some := sound.refs.ref_pos mem
    by_cases same : ref.ip = ip
    · subst same
      rw [writes.entry, if_pos rfl]
      exact Nat.sub_add_cancel some
    · rw [touches.entry ip (Ne.symm same), if_neg same, Nat.add_zero]
  have before : ∀ ip, 0 < (t.inode ip).ref → 0 < (s.inode ip).ref := by
    intro ip some
    have count := counts ip
    omega
  refine ⟨?_, ?_, touches.data sound.refs sound.locks sound.data fits,
    sound.forest.of_eq image (fun q => ?_) fun q ip freeing => ?_⟩
  · refine sound.refs.change (p := p) (fun q other => ?_) (fun ip => ?_)
      (fun ip _ => touches.inum_eq ip) (fun a b first second same => ?_)
      (fun other later => ?_) (fun other later isLent => ?_) ?_ ?_
    · rw [update_of_ne other, touches.cwd, touches.inUse]
      exact ⟨rfl, rfl, rfl, rfl⟩
    · have count := counts ip
      rw [held, held, touches.cwd, touches.files, self, Local.own_cons isRefs ip]
      simp only [own, and_true, Local.own] at count ⊢
      omega
    · rw [touches.inum_eq, touches.inum_eq] at same
      exact sound.refs.distinct a b (before a first) (before b second) same
    · rw [self] at later
      rw [touches.inum_eq]
      exact sound.refs.named p other (subset other later)
    · rw [self] at later
      rw [touches.inUse]
      exact sound.refs.lent p other (subset other later) isLent
    · rw [touches.inUse, touches.files]
      exact sound.refs.inUse
    · rw [self, touches.cwd]
      exact sound.refs.away p
  · refine touches.released sound.locks ?_ (by rw [self]; exact unlocked) fun other later apart => ?_
    · rw [Calm, writes.at_pc]
      rfl
    · rw [isRefs, Multiset.mem_cons] at later
      rw [self]
      rcases later with rfl | later
      · exact absurd rfl apart
      · exact later
  · by_cases isSelf : q = p
    · rw [isSelf, self]
      exact ⟨rfl, rfl, rfl⟩
    · rw [update_of_ne isSelf]
      exact ⟨rfl, rfl, rfl⟩
  · have other : q ≠ p := by
      rintro rfl
      rw [inPhase] at freeing
      cases freeing
    rw [(touches.others q other).2]
    exact ⟨freeing, touches.inum_eq ip⟩

end Xv6.Fs
