import Xv6.Fs.Edits

/-!
# Writing entries and files

`dirlink` and `sys_unlink` write an entry of a directory that the process has locked, and
`filewrite` writes to a file. A directory that gets an entry has to be linked: that is the
one thing the kernel does not check.
-/

namespace Xv6.Fs

open Function Multiset Fs.System

variable {P : Type} {s t : System P} {l : P → Local} {p : P} {ip : Fin ninode} {view : View}
  [Fintype P] [DecidableEq P]
  {balloc : Supply} {off n inum : Nat} {de : Dirent} {written : Dinode × Bool} {u : System P}
  {owed : Multiset Debt} {name : Name}

omit [Fintype P] [DecidableEq P] in
theorem System.write_pc (s : System P) (ip : Fin ninode) (written : Dinode × Bool) :
    (s.write ip written).pc = s.pc := by
  rw [System.write]
  split <;> rfl

omit [Fintype P] [DecidableEq P] in
theorem System.writeEntry_pc (wrote : s.writeEntry balloc ip off de = some t) : t.pc = s.pc := by
  obtain ⟨written, -, rfl⟩ := Option.map_eq_some_iff.mp wrote
  exact System.write_pc s ip written

/-- What a write leaves of a locked inode. -/
structure Wrote (s t : System P) (p : P) (ip : Fin ninode) (view : View) (node : Dinode)
    (entries : List Dirent) (pc : Pc P) : Prop where
  writes : Writes s t p ip { s.inode ip with copy := node } pc
  dinode : t.dinode = Function.update s.dinode view.inum node
  entries : t.entries = Function.update s.entries view.inum entries
  resized : view.node.Resized node
  backed : node.Backed

theorem Sound.write (sound : Sound s l) (calm : Calm s p) (isView : (l p).locks ip = some view)
    (wrote : (s.inode ip).copy.writei balloc off n = some written) (entries : List Dirent)
    (pc : Pc P) :
    Wrote s (((s.write ip written).setEntries view.inum entries).goto p pc) p ip view written.1
      entries pc ∧
    written.1.size = if 0 < n then max view.node.size (off + n) else view.node.size := by
  obtain ⟨-, isInode, isNode, -, -⟩ := sound.data.view p ip view isView
  have copy := sound.view_copy calm isView
  have backed : view.node.Backed := by
    rw [← isNode]
    exact sound.data.backed view.inum
  rw [copy] at wrote
  obtain ⟨stillBacked, type, nlink, size, small⟩ := backed.writei wrote
  refine ⟨?_, size⟩
  generalize isAfter : ((s.write ip written).setEntries view.inum entries).goto p pc = t
  have isEntries : t.entries = update s.entries view.inum entries := by
    rw [← isAfter, System.write]
    split <;> rfl
  have isDinode : t.dinode = update s.dinode view.inum written.1 := by
    rw [← isAfter, System.write]
    split
    · simp [setEntries, setCopy, setInode, iupdate, System.goto, isInode]
    · rename_i unchanged
      rw [small (by simpa using unchanged), ← isNode, update_eq_self]
      rfl
  refine ⟨?_, isDinode, isEntries, ⟨type, nlink⟩, stillBacked⟩
  have disk : ∀ j, j ≠ (s.inode ip).inum → t.dinode j = s.dinode j ∧ t.entries j = s.entries j := by
    intro j other
    rw [isInode] at other
    rw [isDinode, isEntries, update_of_ne other, update_of_ne other]
    exact ⟨rfl, rfl⟩
  rw [← isAfter] at disk ⊢
  rw [System.write] at disk ⊢
  split
  · rename_i grows
    rw [if_pos grows] at disk
    exact ⟨rfl, rfl, rfl, rfl, disk, rfl, rfl, rfl⟩
  · rename_i same
    rw [if_neg same] at disk
    exact ⟨rfl, rfl, rfl, rfl, disk, rfl, rfl, rfl⟩

/-- An entry is written to a directory, at most behind the last one. -/
theorem Sound.writeEntry (sound : Sound s l) (calm : Calm s p) (isView : (l p).locks ip = some view)
    (isDir : view.node.type = .dir) (below : off ≤ view.entries.length)
    (wrote : s.writeEntry balloc ip off de = some u) (pc : Pc P) :
    ∃ node, Wrote s (u.goto p pc) p ip view node (place view.entries off de) pc ∧
      node.size = direntSize * (place view.entries off de).length := by
  obtain ⟨-, isInode, isNode, isEntries, -⟩ := sound.data.view p ip view isView
  rw [System.writeEntry, Option.map_eq_some_iff, isInode, isEntries] at wrote
  obtain ⟨written, wrote, rfl⟩ := wrote
  obtain ⟨after, size⟩ := sound.write calm isView wrote (place view.entries off de) pc
  refine ⟨written.1, after, ?_⟩
  have sized := sound.data.sized view.inum (by rw [isNode, isDir])
  rw [isNode, isEntries] at sized
  rw [size, sized, length_place below, if_pos (by decide)]
  simp only [direntSize]
  omega

namespace Wrote

variable {node : Dinode} {entries : List Dirent} {pc : Pc P}

omit [Fintype P] in
theorem types (after : Wrote s t p ip view node entries pc)
    (isNode : s.dinode view.inum = view.node) (j : Nat) :
    (t.dinode j).type = (s.dinode j).type ∧ (t.dinode j).nlink = (s.dinode j).nlink := by
  by_cases here : j = view.inum
  · rw [here, after.dinode, update_self, isNode]
    exact after.resized
  · rw [after.dinode, update_of_ne here]
    exact ⟨rfl, rfl⟩

omit [Fintype P] in
theorem others (after : Wrote s t p ip view node entries pc) (j : Nat) (other : j ≠ view.inum) :
    t.entries j = s.entries j := by
  rw [after.entries, update_of_ne other]

omit [Fintype P] in
theorem here (after : Wrote s t p ip view node entries pc) : t.entries view.inum = entries := by
  rw [after.entries, update_self]

/-- The process has written to the inode, and to nothing else. -/
theorem sound (after : Wrote s t p ip view node entries pc) (sound : Sound s l) (calm : Calm s p)
    (isView : (l p).locks ip = some view) (calmNow : pc.phase = none)
    (size : view.node.type = .dir → node.size = direntSize * entries.length)
    (flag : view.rooted = true → t.Rooted view.inum)
    (flags : ∀ q other found, (l q).locks other = some found → found.inum ≠ view.inum →
      found.rooted = true → s.Rooted found.inum → t.Rooted found.inum)
    (debts : ∀ debt ∈ owed, ((s.dinode debt.inum).type = .dir ↔ debt.dir = true) ∧
      (debt.dir = true → ∃ other found, (l p).locks other = some found ∧ found.inum = debt.inum))
    (tree : t.toImage.Tree fun inum => ∑ q, (update l p
      { (l p).setLock ip (some { view with node, entries }) with owed } q).debt inum) :
    Sound t (update l p
      { (l p).setLock ip (some { view with node, entries }) with owed }) := by
  refine sound.edit calm isView calmNow after.writes ?_ after.here after.resized.1 after.backed
    (fun isDir => size ?_) flag flags debts tree
  · rw [after.dinode, update_self]
  · rw [← after.resized.1, isDir]

end Wrote

/-! ## Directories that are linked -/

omit [DecidableEq P] in
/-- What is owed to a locked directory, its holder owes it. -/
theorem Sound.debt_eq_zero (sound : Sound s l) (isView : (l p).locks ip = some view)
    (isDir : view.node.type = .dir) (settled : ¬ (l p).OwesDir view.inum) :
    ∑ q, (l q).debt view.inum = 0 := by
  obtain ⟨-, isInode, isNode, -, -⟩ := sound.data.view p ip view isView
  have holds : Holds s l p ip := Or.inl (by rw [isView]; rintro ⟨⟩)
  obtain ⟨ref, mem, rfl⟩ := sound.locks.kept p ip holds
  refine Finset.sum_eq_zero fun q _ => countP_eq_zero.mpr fun debt owes isDebt => ?_
  obtain ⟨types, there⟩ := sound.forest.debts q debt owes
  have isSub : debt.dir = true := by
    rw [← types, isDebt, isNode, isDir]
  obtain ⟨other, found, isFound, isLocked⟩ := there isSub
  obtain rfl := sound.entry_eq isFound (sound.refs.ref_pos mem)
    (isLocked.trans (isDebt.trans isInode.symm))
  have isSelf := sound.locks.once q p ref.ip (Or.inl (by rw [isFound]; rintro ⟨⟩)) holds
  subst isSelf
  refine settled ?_
  rw [Local.OwesDir, ← isDebt, ← isSub]
  exact owes

omit [DecidableEq P] in
/-- A locked directory with links is the root or named. -/
theorem Sound.rooted (sound : Sound s l) (isView : (l p).locks ip = some view)
    (isDir : view.node.type = .dir) (linked : view.node.nlink ≠ 0)
    (settled : view.rooted = true ∨ ¬ (l p).OwesDir view.inum) : s.Rooted view.inum := by
  obtain ⟨-, -, isNode, -, isRooted⟩ := sound.data.view p ip view isView
  rcases settled with flag | settled
  · exact isRooted flag
  · refine sound.forest.tree.rooted_of_linked ?_ (sound.debt_eq_zero isView isDir settled)
    rw [isNode]
    exact linked

omit [DecidableEq P] in
/-- A new directory that is owed its only link is neither the root nor named. -/
theorem Sound.unrooted (sound : Sound s l) (isView : (l p).locks ip = some view)
    (once : view.node.nlink = 1) (owes : (l p).OwesDir view.inum) : ¬ s.Rooted view.inum := by
  obtain ⟨-, -, isNode, -, -⟩ := sound.data.view p ip view isView
  have law := sound.forest.tree.law view.inum
  have mine := Sums.le_of_mem (fun q => (l q).debt view.inum) (Finset.mem_univ p)
  have some : 0 < (l p).debt view.inum := countP_pos.mpr ⟨_, owes, rfl⟩
  rw [isNode, once] at law
  rintro (isRoot | isNamed)
  · rw [isRoot, Image.rootLink, if_pos rfl, ← isRoot] at law
    omega
  · omega

/-! ## `dirlink` -/

section

variable (sound : Sound s l) (calm : Calm s p) (isView : (l p).locks ip = some view)

include sound calm isView

/-- The first two entries of a new directory. -/
theorem Sound.enter_dots (isDir : view.node.type = .dir)
    (once : view.node.nlink = 1) (owes : (l p).OwesDir view.inum) {node : Dinode}
    {entries : List Dirent} {pc : Pc P} (calmNow : pc.phase = none)
    (after : Wrote s t p ip view node entries pc)
    (size : node.size = direntSize * entries.length)
    (childless : Childless entries) (shaped : Shaped view.inum entries) :
    Sound t (update l p { (l p).setLock ip (some { view with node, entries }) with
      owed := (l p).owed }) := by
  obtain ⟨-, -, isNode, -, isRooted⟩ := sound.data.view p ip view isView
  have unrooted := sound.unrooted isView once owes
  have tree := sound.forest.tree
  have used := sound.view_used isView
  have bare : Childless (t.entries view.inum) := by
    rw [after.here]
    exact childless
  have rooted : ∀ j, s.Rooted j → t.Rooted j := by
    intro j was
    rw [Image.Rooted, tree.names_reshape after.writes.ninodes after.others used unrooted bare]
    exact was
  refine after.sound sound calm isView calmNow (fun _ => size) (fun flag => rooted _ (isRooted flag))
    (fun _ _ _ _ _ _ => rooted _) (sound.forest.debts p) ?_
  rw [sum_debt_congr (by rfl)]
  refine tree.reshape after.writes.ninodes after.others (fun j => (after.types isNode j).1)
    (fun j => (after.types isNode j).2) used (fun other => ?_) unrooted bare ?_
  · rw [isNode] at other
    exact absurd isDir other
  · rw [after.here]
    exact shaped

/-- A proper entry of a directory that is linked. -/
theorem Sound.enter_proper (isDir : view.node.type = .dir)
    (whole : 2 ≤ view.entries.length) (rooted : s.Rooted view.inum)
    (missing : lookup name view.entries = none) (real : inum ≠ 0) (paid : Multiset Debt)
    (owes : (l p).owed = paid + owed) (sub : (s.dinode inum).type = .dir →
      ¬ s.Rooted inum ∧ dotdot (s.entries inum) = some view.inum)
    (pays : ∀ j, (paid.countP fun debt => debt.inum = j) = (if j = inum then 1 else 0) +
      if (s.dinode inum).type = .dir ∧ j = view.inum then 1 else 0)
    {node : Dinode} {pc : Pc P} (calmNow : pc.phase = none) (after : Wrote s t p ip view node
      (place view.entries (freeSlot view.entries) ⟨inum, name⟩) pc)
    (size : node.size =
      direntSize * (place view.entries (freeSlot view.entries) ⟨inum, name⟩).length) :
    Sound t (update l p { (l p).setLock ip (some { view with
        node
        entries := place view.entries (freeSlot view.entries) ⟨inum, name⟩ }) with owed }) := by
  obtain ⟨-, -, isNode, isEntries, isRooted⟩ := sound.data.view p ip view isView
  have tree := sound.forest.tree
  have shaped := tree.shaped view.inum
  rw [isEntries] at shaped
  have isDirNow : (s.dinode view.inum).type = .dir := by rw [isNode, isDir]
  have plain := shaped.plain_of_lookup (tree.inum_pos (by rw [isDirNow]; rintro ⟨⟩)) whole missing
  have proper : (⟨inum, name⟩ : Dirent).proper = true := by simp [Dirent.proper, real, plain]
  have now : t.entries view.inum =
      place (s.entries view.inum) (freeSlot (s.entries view.inum)) ⟨inum, name⟩ := by
    rw [after.here, isEntries]
  have stays : ∀ j, s.Rooted j → t.Rooted j := by
    intro j was
    have more := tree.names_enter after.writes.ninodes after.others isDirNow now proper j
    refine was.imp_right fun isNamed => ?_
    omega
  refine after.sound sound calm isView calmNow (fun _ => size) (fun flag => stays _ (isRooted flag))
    (fun _ _ _ _ _ _ => stays _) (fun debt later => ?_) ?_
  · refine sound.forest.debts p debt ?_
    rw [owes]
    exact mem_add.mpr (Or.inr later)
  · refine tree.enter after.writes.ninodes after.others (fun j => (after.types isNode j).1)
      (fun j => (after.types isNode j).2) isDirNow (by rw [isEntries]; exact whole) rooted now plain
      real sub fun j => ?_
    have change := sum_debt_change (l := l) (p := p) { (l p).setLock ip (some { view with
        node
        entries := place view.entries (freeSlot view.entries) ⟨inum, name⟩ }) with owed } j
    have mine : (l p).debt j = (paid.countP fun debt => debt.inum = j) +
        owed.countP fun debt => debt.inum = j := by
      rw [Local.debt, owes, countP_add]
    have sum := pays j
    simp only [Local.debt] at change mine ⊢
    omega

/-- `dirlink` writes the entry of an inode that is owed the link, to a directory with links. -/
theorem Sound.enter
    (isDir : view.node.type = .dir) {ref : Ref} (missing : lookup name view.entries = none)
    (mem : ref ∈ (l p).refs) (may : (l p).MayEnter view ref.inum name owed)
    (linked : view.node.nlink ≠ 0)
    (wrote : s.writeEntry balloc ip (freeSlot view.entries) ⟨ref.inum, name⟩ = some u)
    (rest : Program P) :
    ∃ node, view.node.Resized node ∧ Sound (u.goto p (.run rest)) (update l p
      { (l p).setLock ip (some { view with
          node
          entries := place view.entries (freeSlot view.entries) ⟨ref.inum, name⟩ }) with owed }) := by
  obtain ⟨-, -, isNode, -, -⟩ := sound.data.view p ip view isView
  obtain ⟨node, after, size⟩ := sound.writeEntry calm isView isDir (freeSlot_le _) wrote (.run rest)
  refine ⟨node, after.resized, ?_⟩
  have tree := sound.forest.tree
  have known := sound.known mem (calm.phase_ne _)
  have real := tree.inum_pos known.used
  have viewReal : view.inum ≠ 0 := tree.inum_pos (by rw [isNode, isDir]; rintro ⟨⟩)
  cases may with
  | dot self empty once owes =>
    refine sound.enter_dots calm isView isDir once owes rfl after size ?_ ?_
    · rw [empty]
      simp [freeSlot, Childless, Dirent.proper, Name.plain]
    · rw [empty, self]
      rfl
  | dotdot one once owes =>
    have placed : place view.entries (freeSlot view.entries) ⟨ref.inum, .dotdot⟩ =
        [⟨view.inum, .dot⟩, ⟨ref.inum, .dotdot⟩] := by
      rw [one]
      simp [freeSlot, viewReal]
    refine sound.enter_dots calm isView isDir once owes rfl after size ?_ ?_
    · rw [placed]
      simp [Childless, Dirent.proper, Name.plain]
    · rw [placed]
      exact ⟨rfl, rfl, real, by rintro _ ⟨⟩⟩
  | file whole rooted owes =>
    have isFile : (s.dinode ref.inum).type ≠ .dir := by
      have types := (sound.forest.debts p ⟨ref.inum, false⟩ (by simp [owes])).1
      simpa using types
    refine sound.enter_proper calm isView isDir whole (sound.rooted isView isDir linked rooted) missing
      real (⟨ref.inum, false⟩ ::ₘ 0) ?_ (fun isSub => absurd isSub isFile) (fun j => ?_) rfl after size
    · rw [owes, cons_add, Multiset.zero_add]
    · rw [countP_cons, countP_zero]
      simp [isFile, eq_comm]
  | dir whole rooted owes child new locked isNew once up =>
    have isSub : (s.dinode ref.inum).type = .dir :=
      (sound.forest.debts p ⟨ref.inum, true⟩ (by simp [owes])).1.mpr rfl
    obtain ⟨-, -, -, newEntries, -⟩ := sound.data.view p child new locked
    have owesNew : (l p).OwesDir new.inum := by simp [Local.OwesDir, owes, isNew]
    refine sound.enter_proper calm isView isDir whole
      (sound.rooted isView isDir linked (Or.inl rooted)) missing real
      (⟨ref.inum, true⟩ ::ₘ ⟨view.inum, true⟩ ::ₘ 0) ?_ (fun _ => ?_) (fun j => ?_) rfl after size
    · rw [owes, cons_add, cons_add, Multiset.zero_add]
    · rw [← isNew, newEntries]
      exact ⟨sound.unrooted locked once owesNew, up⟩
    · rw [countP_cons, countP_cons, countP_zero]
      simp only [isSub, true_and, eq_comm (a := j)]
      omega

end

/-! ## `sys_unlink` -/

/-- `sys_unlink` clears the entry of an inode that it has locked, which is no directory or an
empty one. -/
theorem Sound.clear (sound : Sound s l) (calm : Calm s p) (isView : (l p).locks ip = some view)
    (isDir : view.node.type = .dir) (found : view.entries[off]? = some ⟨inum, name⟩)
    (proper : (⟨inum, name⟩ : Dirent).proper = true) {child : Fin ninode} {target : View}
    (locked : (l p).locks child = some target) (isTarget : target.inum = inum)
    (unknown : target.rooted = false)
    (empty : target.node.type = .dir → isdirempty target.entries = true)
    (wrote : s.writeEntry balloc ip off .zero = some u) (rest : Program P) :
    ∃ node, view.node.Resized node ∧ Sound (u.goto p (.run rest)) (update l p
      { (l p).setLock ip (some { view with node, entries := place view.entries off .zero }) with
        owed := ⟨inum, target.node.type = .dir⟩ ::ₘ
          ((if target.node.type = .dir then {⟨view.inum, true⟩} else 0) + (l p).owed) }) := by
  obtain ⟨-, -, isNode, isEntries, isRooted⟩ := sound.data.view p ip view isView
  obtain ⟨-, targetInode, targetNode, targetEntries, -⟩ := sound.data.view p child target locked
  have below := (List.getElem?_eq_some_iff.mp found).1
  obtain ⟨node, after, size⟩ := sound.writeEntry calm isView isDir below.le wrote (.run rest)
  refine ⟨node, after.resized, ?_⟩
  have tree := sound.forest.tree
  have isDirNow : (s.dinode view.inum).type = .dir := by rw [isNode, isDir]
  rw [isTarget] at targetNode targetEntries
  have sub : (s.dinode inum).type = .dir → Childless (s.entries inum) := by
    intro isSub
    refine (tree.shaped inum).childless ?_
    rw [targetEntries]
    exact empty (by rw [← targetNode, isSub])
  rw [← isEntries] at found
  have placed : (u.goto p (.run rest)).entries view.inum = place (s.entries view.inum) off .zero := by
    rw [after.here, isEntries]
  have names := tree.names_clear after.writes.ninodes after.others isDirNow found proper placed
  have stays : ∀ j, j ≠ inum → s.Rooted j → (u.goto p (.run rest)).Rooted j := by
    intro j other was
    have change := names j
    rw [if_neg other] at change
    refine was.imp_right fun isNamed => ?_
    omega
  have apart : view.inum ≠ inum := by
    intro same
    by_cases isSub : (s.dinode inum).type = .dir
    · have bare := sub isSub _ (same ▸ List.mem_of_getElem? found)
      rw [proper] at bare
      cases bare
    · rw [same] at isDirNow
      exact isSub isDirNow
  refine after.sound sound calm isView rfl (fun _ => size) (fun flag => stays _ apart (isRooted flag))
    (fun q other seen isSeen _ flag was => stays _ ?_ was) (fun debt owes => ?_) ?_
  · rintro rfl
    obtain ⟨ref, mem, rfl⟩ := sound.locks.kept p child (Or.inl (by rw [locked]; rintro ⟨⟩))
    obtain rfl := sound.entry_eq isSeen (sound.refs.ref_pos mem) (isTarget.symm.trans targetInode.symm)
    have isSelf := sound.locks.once q p ref.ip (Or.inl (by rw [isSeen]; rintro ⟨⟩))
      (Or.inl (by rw [locked]; rintro ⟨⟩))
    subst isSelf
    rw [locked, Option.some.injEq] at isSeen
    rw [← isSeen, unknown] at flag
    cases flag
  · rw [mem_cons, mem_add] at owes
    rcases owes with rfl | parent | old
    · refine ⟨by rw [targetNode, decide_eq_true_eq], fun _ => ⟨child, target, locked, isTarget⟩⟩
    · split at parent
      · rw [mem_singleton] at parent
        subst parent
        exact ⟨by simp [isDirNow], fun _ => ⟨ip, view, isView, rfl⟩⟩
      · exact absurd parent (notMem_zero _)
    · exact sound.forest.debts p debt old
  · refine tree.clear after.writes.ninodes after.others (fun j => (after.types isNode j).1)
      (fun j => (after.types isNode j).2) isDirNow found proper placed sub fun j => ?_
    have change := sum_debt_change (l := l) (p := p) { (l p).setLock ip (some { view with
        node
        entries := place view.entries off .zero }) with
      owed := ⟨inum, target.node.type = .dir⟩ ::ₘ
        ((if target.node.type = .dir then {⟨view.inum, true⟩} else 0) + (l p).owed) } j
    rw [targetNode]
    by_cases isSub : target.node.type = .dir
    · simp only [Local.debt, if_pos isSub, countP_cons, countP_add,
        ← cons_zero, countP_zero] at change ⊢
      simp only [isSub, true_and, eq_comm (a := j)] at change ⊢
      omega
    · simp only [Local.debt, if_neg isSub, countP_cons, Multiset.zero_add] at change ⊢
      simp only [isSub, false_and, if_false, eq_comm (a := j)] at change ⊢
      omega

/-! ## Files, and the start of `ialloc` -/

/-- `writei` on a file. -/
theorem Sound.writei (sound : Sound s l) (calm : Calm s p) (isView : (l p).locks ip = some view)
    (isFile : view.node.type ≠ .dir) (wrote : (s.inode ip).copy.writei balloc off n = some written)
    (rest : Program P) :
    view.node.Resized written.1 ∧ Sound ((s.write ip written).goto p (.run rest))
      (update l p ((l p).setLock ip (some { view with node := written.1 }))) := by
  obtain ⟨-, -, isNode, isEntries, isRooted⟩ := sound.data.view p ip view isView
  obtain ⟨after, -⟩ := sound.write calm isView wrote view.entries (.run rest)
  refine ⟨after.resized, ?_⟩
  have same : (s.write ip written).setEntries view.inum view.entries = s.write ip written := by
    rw [setEntries, System.write]
    split <;> simp [setCopy, setInode, iupdate, ← isEntries]
  rw [same] at after
  have entries : ((s.write ip written).goto p (.run rest)).entries = s.entries := by
    rw [after.entries, ← isEntries, update_eq_self]
  have rooted : ∀ j, s.Rooted j → ((s.write ip written).goto p (.run rest)).Rooted j := by
    intro j was
    rw [Image.Rooted, Image.Tree.names_congr after.writes.ninodes entries]
    exact was
  refine after.sound sound calm isView rfl (fun isDir => absurd isDir isFile)
    (fun flag => rooted _ (isRooted flag)) (fun _ _ _ _ _ _ => rooted _) (sound.forest.debts p) ?_
  rw [sum_debt_congr (by rfl)]
  refine sound.forest.tree.relink after.writes.ninodes entries (fun j => (after.types isNode j).1)
    (fun j => by rw [(after.types isNode j).2]) fun j free => ?_
  have law := sound.forest.tree.law j
  rw [sound.forest.tree.free j free] at law
  omega

/-- `ialloc` on the device of a directory with links starts to look for a free inode. -/
theorem Sound.ialloc (sound : Sound s l) (calm : Calm s p) (isView : (l p).locks ip = some view)
    (isDir : view.node.type = .dir) (linked : view.node.nlink ≠ 0)
    (settled : ¬ (l p).OwesDir view.inum) {pc : Pc P} (calmNow : pc.phase = none) :
    Sound (s.goto p pc) (update l p
      ((l p).setLock ip (some { view with rooted := true }))) := by
  obtain ⟨-, -, isNode, isEntries, -⟩ := sound.data.view p ip view isView
  have copy := sound.view_copy calm isView
  have rooted := sound.rooted isView isDir linked (Or.inr settled)
  have writes : Writes s (s.goto p pc) p ip { s.inode ip with copy := view.node } pc := by
    refine ⟨?_, rfl, rfl, rfl, fun _ _ => ⟨rfl, rfl⟩, rfl, rfl, rfl⟩
    rw [← copy]
    exact (update_eq_self ..).symm
  refine sound.edit calm isView calmNow writes isNode isEntries rfl ?_ ?_ (fun _ => rooted)
    (fun _ _ _ _ _ _ was => was) (sound.forest.debts p) ?_
  · rw [← isNode]
    exact sound.data.backed view.inum
  · rw [← isNode, ← isEntries]
    exact sound.data.sized view.inum
  · rw [sum_debt_congr (by rfl)]
    exact sound.forest.tree

end Xv6.Fs
