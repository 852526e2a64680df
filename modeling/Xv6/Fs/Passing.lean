import Xv6.Fs.References

/-!
# Passing references on

A reference goes from a process to its current directory or to an open file, or back, or an
open file lends its own to a process that is in a call on it. The cache does not change.
-/

namespace Xv6.Fs

open Local Multiset

open Function

variable {P : Type} {s t : System P} {l : P → Local} {p : P} [Fintype P] [DecidableEq P]
  {ref : Ref} {ip : Fin ninode} {writable : Bool} {others : Multiset Ref}

/-- A reference that a process may have. -/
structure Known (s : System P) (l : P → Local) (p : P) (ref : Ref) : Prop where
  named : (s.inode ref.ip).inum = ref.inum
  used : (s.dinode ref.inum).type ≠ .free
  plain : ref.plain = true → (s.dinode ref.inum).type ≠ .dir
  notFresh : ∀ q type, q ≠ p → (l q).fresh ≠ some (ref.inum, type)

/-- An entry of the cache that a current directory or an open file may have. -/
structure Shared (s : System P) (l : P → Local) (ip : Fin ninode) : Prop where
  used : (s.dinode (s.inode ip).inum).type ≠ .free
  notFresh : ∀ q type, (l q).fresh ≠ some ((s.inode ip).inum, type)

omit [DecidableEq P] in
theorem Sound.known (sound : Sound s l) (mem : ref ∈ (l p).refs)
    (still : (s.pc p).phase ≠ some (.dropping, ref.ip)) : Known s l p ref where
  named := sound.refs.named p ref mem
  used := (sound.data.used p ref mem still).1
  plain := (sound.data.used p ref mem still).2
  notFresh := by
    intro q type other isFresh
    obtain ⟨-, -, -, unshared⟩ := sound.data.fresh q ref.inum type isFresh
    rcases unshared.refs p ref mem rfl with same | dropping
    · exact other same.symm
    · exact still dropping

omit [DecidableEq P] in
theorem Sound.shared_cwd (sound : Sound s l) {q : P} (isCwd : s.cwd q = some ip) :
    Shared s l ip where
  used := sound.data.usedCwd q ip isCwd
  notFresh := by
    intro r type isFresh
    obtain ⟨-, -, -, unshared⟩ := sound.data.fresh r _ type isFresh
    exact unshared.cwd q ip isCwd rfl

omit [DecidableEq P] in
theorem Sound.shared_file (sound : Sound s l) (file : (ip, writable) ∈ s.files) :
    Shared s l ip where
  used := (sound.data.usedFile ip writable file).1
  notFresh := by
    intro r type isFresh
    obtain ⟨-, -, -, unshared⟩ := sound.data.fresh r _ type isFresh
    exact unshared.files ip writable file rfl

omit [DecidableEq P] in
/-- What an open file has. -/
theorem Sound.fileShared (sound : Sound s l) (file : (ip, writable) ∈ s.files) :
    Shared s l ip ∧ (writable = true → (s.dinode (s.inode ip).inum).type ≠ .dir) :=
  ⟨sound.shared_file file, (sound.data.usedFile ip writable file).2⟩

omit [DecidableEq P] in
/-- With one reference more a process still has one for every lock. -/
theorem Sound.kept_cons (sound : Sound s l) {view : View} (isView : (l p).locks ip = some view) :
    ∃ other ∈ ref ::ₘ (l p).refs, other.ip = ip := by
  obtain ⟨other, mem, isRef⟩ := sound.locks.kept p ip (Or.inl (by rw [isView]; rintro ⟨⟩))
  exact ⟨other, mem_cons_of_mem mem, isRef⟩

omit [DecidableEq P] in
/-- The reference may be passed on. -/
theorem Sound.shared_of_givesUp (sound : Sound s l) (calm : Calm s p)
    (givesUp : (l p).GivesUp ref others) : Shared s l ref.ip := by
  obtain ⟨isRefs, -, -, settled⟩ := givesUp
  have mem : ref ∈ (l p).refs := by simp [isRefs]
  have known := sound.known mem (calm.phase_ne _)
  constructor
  · rw [known.named]
    exact known.used
  · intro q type
    rw [known.named]
    by_cases same : q = p
    · subst same
      exact settled type
    · exact known.notFresh q type same

omit [Fintype P] [DecidableEq P] in
/-- The reference that a current directory or an open file has may be taken over. -/
theorem Shared.known (shared : Shared s l ip) (p : P) {plain lent : Bool}
    (isPlain : plain = true → (s.dinode (s.inode ip).inum).type ≠ .dir) :
    Known s l p ⟨ip, (s.inode ip).inum, plain, lent⟩ where
  named := rfl
  used := shared.used
  plain := isPlain
  notFresh := fun q type _ => shared.notFresh q type

/-- References pass between a process, its current directory and the open files. -/
theorem Sound.shift (sound : Sound s l) (rest : Rest s t p) (inode : t.inode = s.inode)
    {now : Local} (locks : now.locks = (l p).locks) (fresh : now.fresh = (l p).fresh)
    (owed : now.owed = (l p).owed)
    (others : ∀ q, q ≠ p → t.cwd q = s.cwd q ∧ t.inUse q = s.inUse q)
    (balance : ∀ ip, held s l p ip + s.files.countP (fun file => file.1 = ip) =
      now.own ip + (if t.cwd p = some ip then 1 else 0) + t.files.countP fun file => file.1 = ip)
    (mine : ∀ ref ∈ now.refs, Known s l p ref)
    (lent : ∀ ref ∈ now.refs, ref.lent = true → t.inUse p = some ref.ip)
    (inUse : ∀ q ip, t.inUse q = some ip → ∃ writable, (ip, writable) ∈ t.files)
    (away : now.away = true → t.cwd p = none)
    (kept : ∀ ip view, (l p).locks ip = some view → ∃ ref ∈ now.refs, ref.ip = ip)
    (cwd : ∀ ip, t.cwd p = some ip → Shared s l ip)
    (files : ∀ ip writable, (ip, writable) ∈ t.files → Shared s l ip ∧
      (writable = true → (s.dinode (s.inode ip).inum).type ≠ .dir)) :
    Sound t (update l p now) := by
  have isNow : update l p now p = now := update_self ..
  have elsewhere : ∀ q, q ≠ p → update l p now q = l q :=
    fun q other => update_of_ne other ..
  have moves : Moves s t l (update l p now) p := by
    refine .of_update rest locks fresh owed (fun ip _ => ?_) fun ip none some => ?_
    · rw [inode]
      exact ⟨rfl, rfl, rfl, rfl⟩
    · rw [inode] at some
      omega
  have sharedCwd : ∀ q ip, t.cwd q = some ip → Shared s l ip := by
    intro q ip isCwd
    by_cases same : q = p
    · subst same
      exact cwd ip isCwd
    · rw [(others q same).1] at isCwd
      exact sound.shared_cwd isCwd
  refine ⟨?_, moves.lockSound sound.refs sound.locks ?_,
    moves.data sound.refs sound.locks sound.data ?_ ?_ ?_ ?_ ?_, moves.forest sound.refs sound.locks sound.forest⟩
  · refine sound.refs.change (p := p) (fun q other => ?_) (fun ip => ?_) (fun ip _ => by rw [inode])
      (by rw [inode]; exact sound.refs.distinct) ?_ ?_ inUse ?_
    · rw [elsewhere q other]
      exact ⟨rfl, rfl, others q other⟩
    · rw [inode, balance ip, held, isNow]
    · intro ref mem
      rw [isNow] at mem
      rw [inode]
      exact (mine ref mem).named
    · rw [isNow]
      exact lent
    · rw [isNow]
      exact away
  · rw [isNow]
    exact kept
  · intro ref mem
    rw [isNow] at mem
    exact ⟨(mine ref mem).used, (mine ref mem).plain⟩
  · intro q ip isCwd
    rw [inode]
    exact (sharedCwd q ip isCwd).used
  · intro ip writable file
    rw [inode]
    exact ⟨(files ip writable file).1.used, (files ip writable file).2⟩
  · intro q phase ip inPhase isEnding
    rw [inode]
    exact (sound.data.ending q phase ip inPhase isEnding).1
  · intro q inum type isFresh
    obtain ⟨-, -, -, unshared⟩ := sound.data.fresh q inum type isFresh
    refine unshared.change rest.phases (moves.locks q) moves.others (fun other ref mem => ?_)
      (fun r ip isCwd => ?_) (fun ip writable file => ?_)
    · rw [isNow] at mem
      refine Or.inr ?_
      rintro rfl
      exact (mine ref mem).notFresh q type other isFresh
    · rw [inode]
      rintro rfl
      exact (sharedCwd r ip isCwd).notFresh q type isFresh
    · rw [inode]
      rintro rfl
      exact (files ip writable file).1.notFresh q type isFresh

/-! ## Current directories -/

/-- `proc->cwd = ip`. -/
theorem Sound.setCwd (sound : Sound s l) (rest : Rest s t p) (inode : t.inode = s.inode)
    (givesUp : (l p).GivesUp ref others) (was : s.cwd p = none)
    (cwd : t.cwd = update s.cwd p (some ref.ip)) (files : t.files = s.files)
    (inUse : t.inUse = s.inUse) :
    Sound t (update l p { l p with refs := others, away := false }) := by
  obtain ⟨isRefs, own, -, -⟩ := id givesUp
  have subset : ∀ other ∈ others, other ∈ (l p).refs := fun other => mem_of_rest isRefs
  refine sound.shift rest inode rfl rfl rfl (fun q other => ?_) (fun ip => ?_)
    (fun other later => sound.known (subset other later) (rest.calm.phase_ne _)) (fun other later isLent => ?_)
    ?_ (by rintro ⟨⟩) (sound.locks.kept_of_givesUp givesUp) (fun ip isCwd => ?_)
    (fun ip writable file => ?_)
  · rw [cwd, inUse, update_of_ne other]
    exact ⟨rfl, rfl⟩
  · rw [held, own_cons isRefs ip, was, cwd, update_self, files]
    simp [own, Local.own]
  · rw [inUse]
    exact sound.refs.lent p other (subset other later) isLent
  · rw [inUse, files]
    exact sound.refs.inUse
  · rw [cwd, update_self, Option.some.injEq] at isCwd
    subst isCwd
    exact sound.shared_of_givesUp rest.calm givesUp
  · exact sound.fileShared (files ▸ file)

/-- A process takes over the reference of its current directory. -/
theorem Sound.takeCwd (sound : Sound s l) (rest : Rest s t p) (inode : t.inode = s.inode)
    (was : s.cwd p = some ip) (cwd : t.cwd = update s.cwd p none)
    (files : t.files = s.files) (inUse : t.inUse = s.inUse) :
    Sound t (update l p { (l p).gain ip (s.inode ip).inum with away := true }) := by
  refine sound.shift rest inode rfl rfl rfl (fun q other => ?_) (fun other => ?_)
    (fun ref mem => ?_) (fun ref mem isLent => ?_) ?_ (fun _ => ?_) (fun locked view isView => ?_)
    (fun other isCwd => ?_) (fun other writable file => ?_)
  · rw [cwd, inUse, update_of_ne other]
    exact ⟨rfl, rfl⟩
  · rw [held, was, cwd, update_self, files,
      own_cons (l := { (l p).gain ip (s.inode ip).inum with away := true })
        (gain_refs (l p) ip _) other]
    simp [Local.own]
  · rw [gain_refs, mem_cons] at mem
    rcases mem with rfl | old
    · exact (sound.shared_cwd was).known p (by rintro ⟨⟩)
    · exact sound.known old (rest.calm.phase_ne _)
  · rw [gain_refs, mem_cons] at mem
    rw [inUse]
    rcases mem with rfl | old
    · cases isLent
    · exact sound.refs.lent p ref old isLent
  · rw [inUse, files]
    exact sound.refs.inUse
  · rw [cwd, update_self]
  · exact sound.kept_cons isView
  · rw [cwd, update_self] at isCwd
    cases isCwd
  · exact sound.fileShared (files ▸ file)

/-! ## Open files -/

section

variable (sound : Sound s l) (rest : Rest s t p) (inode : t.inode = s.inode)

include sound rest inode

/-- `f->ip = ip`. -/
theorem Sound.openFile
    (givesUp : (l p).GivesUp ref others) (plain : writable = true → ref.plain = true)
    (cwd : t.cwd = s.cwd) (files : t.files = (ref.ip, writable) :: s.files)
    (inUse : t.inUse = s.inUse) :
    Sound t (update l p { l p with refs := others }) := by
  obtain ⟨isRefs, own, -, -⟩ := id givesUp
  have subset : ∀ other ∈ others, other ∈ (l p).refs := fun other => mem_of_rest isRefs
  refine sound.shift rest inode rfl rfl rfl (fun q other => ?_) (fun ip => ?_)
    (fun other later => sound.known (subset other later) (rest.calm.phase_ne _)) (fun other later isLent => ?_)
    (fun q ip isUsed => ?_) (fun isAway => ?_) (sound.locks.kept_of_givesUp givesUp)
    (fun ip isCwd => ?_) (fun ip mode file => ?_)
  · rw [cwd, inUse]
    exact ⟨rfl, rfl⟩
  · rw [held, own_cons isRefs ip, cwd, files, List.countP_cons]
    simp only [own, and_true, Local.own, decide_eq_true_eq]
    omega
  · rw [inUse]
    exact sound.refs.lent p other (subset other later) isLent
  · rw [inUse] at isUsed
    obtain ⟨mode, file⟩ := sound.refs.inUse q ip isUsed
    exact ⟨mode, by rw [files]; exact List.mem_cons_of_mem _ file⟩
  · rw [cwd]
    exact sound.refs.away p isAway
  · rw [cwd] at isCwd
    exact sound.shared_cwd isCwd
  · rw [files, List.mem_cons] at file
    rcases file with same | old
    · cases same
      refine ⟨sound.shared_of_givesUp rest.calm givesUp, fun isWritable => ?_⟩
      have mem : ref ∈ (l p).refs := by simp [isRefs]
      have known := sound.known mem (rest.calm.phase_ne _)
      rw [known.named]
      exact known.plain (plain isWritable)
    · exact sound.fileShared old

/-- The last descriptor of a file goes. -/
theorem Sound.fileclose (file : (ip, writable) ∈ s.files) (closable : s.closable ip writable = true)
    (cwd : t.cwd = s.cwd) (files : t.files = s.files.erase (ip, writable))
    (inUse : t.inUse = s.inUse) :
    Sound t (update l p ((l p).gain ip (s.inode ip).inum)) := by
  refine sound.shift rest inode rfl rfl rfl (fun q other => ?_) (fun other => ?_)
    (fun ref mem => ?_) (fun ref mem isLent => ?_) (fun q other isUsed => ?_) (fun isAway => ?_)
    (fun locked view isView => ?_) (fun other isCwd => ?_) (fun other mode still => ?_)
  · rw [cwd, inUse]
    exact ⟨rfl, rfl⟩
  · have split := (List.perm_cons_erase file).countP_eq fun file => file.1 = other
    rw [held, cwd, files, own_cons (gain_refs (l p) ip _) other, split,
      List.countP_cons]
    simp only [and_true, Local.own, decide_eq_true_eq]
    omega
  · rw [gain_refs, mem_cons] at mem
    rcases mem with rfl | old
    · exact (sound.shared_file file).known p (by rintro ⟨⟩)
    · exact sound.known old (rest.calm.phase_ne _)
  · rw [gain_refs, mem_cons] at mem
    rw [inUse]
    rcases mem with rfl | old
    · cases isLent
    · exact sound.refs.lent p ref old isLent
  · rw [inUse] at isUsed
    rw [files]
    rw [System.closable, Bool.or_eq_true_iff, List.any_eq_true, decide_eq_true_eq] at closable
    by_cases same : other = ip
    · subst same
      rcases closable with ⟨⟨_, mode⟩, still, isInode⟩ | unused
      · obtain rfl := of_decide_eq_true isInode
        exact ⟨mode, still⟩
      · exact absurd isUsed (unused q)
    · obtain ⟨mode, was⟩ := sound.refs.inUse q other isUsed
      exact ⟨mode, (List.mem_erase_of_ne (by simp [same])).mpr was⟩
  · rw [cwd]
    exact sound.refs.away p isAway
  · exact sound.kept_cons isView
  · rw [cwd] at isCwd
    exact sound.shared_cwd isCwd
  · rw [files] at still
    exact sound.fileShared (List.mem_of_mem_erase still)

/-- A process begins a call on an open file. -/
theorem Sound.useFile
    (file : (ip, writable) ∈ s.files) (none : ∀ ref ∈ (l p).refs, ref.lent = false)
    (cwd : t.cwd = s.cwd) (files : t.files = s.files)
    (inUse : t.inUse = update s.inUse p (some ip)) :
    Sound t (update l p ((l p).addRef ⟨ip, (s.inode ip).inum, writable, true⟩)) := by
  refine sound.shift rest inode rfl rfl rfl (fun q other => ?_) (fun other => ?_)
    (fun ref mem => ?_) (fun ref mem isLent => ?_) (fun q other isUsed => ?_) (fun isAway => ?_)
    (fun locked view isView => ?_) (fun other isCwd => ?_) (fun other mode old => ?_)
  · rw [cwd, inUse, update_of_ne other]
    exact ⟨rfl, rfl⟩
  · rw [held, cwd, files, own_cons (addRef_refs (l p) _) other]
    simp [Local.own]
  · rw [addRef_refs, mem_cons] at mem
    rcases mem with rfl | old
    · exact (sound.shared_file file).known p (sound.data.usedFile ip writable file).2
    · exact sound.known old (rest.calm.phase_ne _)
  · rw [addRef_refs, mem_cons] at mem
    rcases mem with rfl | old
    · rw [inUse, update_self]
    · rw [none ref old] at isLent
      cases isLent
  · rw [files]
    by_cases same : q = p
    · subst same
      rw [inUse, update_self, Option.some.injEq] at isUsed
      exact ⟨writable, isUsed ▸ file⟩
    · rw [inUse, update_of_ne same] at isUsed
      exact sound.refs.inUse q other isUsed
  · rw [cwd]
    exact sound.refs.away p isAway
  · exact sound.kept_cons isView
  · rw [cwd] at isCwd
    exact sound.shared_cwd isCwd
  · exact sound.fileShared (files ▸ old)

/-- The call on the file is over. -/
theorem Sound.leaveFile (isRefs : (l p).refs = ref ::ₘ others) (isLent : ref.lent = true)
    (unlocked : (l p).locks ref.ip = none) (none : ∀ other ∈ others, other.lent = false)
    (cwd : t.cwd = s.cwd) (files : t.files = s.files)
    (inUse : t.inUse = update s.inUse p Option.none) :
    Sound t (update l p { l p with refs := others }) := by
  have subset : ∀ other ∈ others, other ∈ (l p).refs := fun other => mem_of_rest isRefs
  refine sound.shift rest inode rfl rfl rfl (fun q other => ?_) (fun ip => ?_)
    (fun other later => sound.known (subset other later) (rest.calm.phase_ne _)) (fun other later lent => ?_)
    (fun q ip isUsed => ?_) (fun isAway => ?_) (fun locked view isView => ?_)
    (fun ip isCwd => ?_) (fun ip mode file => ?_)
  · rw [cwd, inUse, update_of_ne other]
    exact ⟨rfl, rfl⟩
  · rw [held, cwd, files, own_cons isRefs ip]
    simp [Local.own, isLent]
  · rw [none other later] at lent
    cases lent
  · rw [files]
    by_cases same : q = p
    · subst same
      rw [inUse, update_self] at isUsed
      cases isUsed
    · rw [inUse, update_of_ne same] at isUsed
      exact sound.refs.inUse q ip isUsed
  · rw [cwd]
    exact sound.refs.away p isAway
  · obtain ⟨other, mem, rfl⟩ := sound.locks.kept p locked (Or.inl (by rw [isView]; rintro ⟨⟩))
    rw [isRefs, mem_cons] at mem
    rcases mem with rfl | later
    · rw [unlocked] at isView
      cases isView
    · exact ⟨other, later, rfl⟩
  · rw [cwd] at isCwd
    exact sound.shared_cwd isCwd
  · exact sound.fileShared (files ▸ file)

end

end Xv6.Fs
