import Xv6.Fs.Entries
import Xv6.Fs.Verified
import Xv6.Lib.Traced

/-!
# Every step keeps the tree

A process that keeps to the protocol takes a step, and the state of the kernel stays in step
with what all processes have and know. One condition is left to the callers: nobody enters a
name into a directory without links, nor looks for `..` in one.
-/

namespace Xv6.Fs

open Function Fs.System Multiset

variable {P : Type} {s t : System P} {l : P → Local} {p : P} [Fintype P] [DecidableEq P]
  {inum : Nat} {ip : Fin ninode} {u : System P} {view : View} {rest : Program P}
  {balloc : Supply}

/-- The directory that the next step enters a name into, or looks for `..` in. -/
def Pc.risks : Pc P → Option (Fin ninode)
  | .run (.ialloc dp _ _) | .run (.enter dp _ _ _) | .run (.dirlookup dp .dotdot _) => some dp
  | _ => none

/-- The next step of the process does not enter a name into a directory without links, nor
look for `..` in one. -/
def Cautious (s : System P) (p : P) : Prop :=
  ∀ dp ∈ (s.pc p).risks, (s.inode dp).copy.nlink ≠ 0

instance (s : System P) (p : P) : Decidable (Cautious s p) :=
  inferInstanceAs (Decidable (∀ dp ∈ (s.pc p).risks, (s.inode dp).copy.nlink ≠ 0))

/-- The kernel is in step with processes that keep to the protocol. -/
def Good (s : System P) : Prop := ∃ l, Sound s l ∧ ∀ p, (s.pc p).Keeps (l p)

theorem Good.of_update (keeps : ∀ q, (s.pc q).Keeps (l q)) {now : Local} (pc : Pc P)
    (sound : Sound t (update l p now)) (isPc : t.pc = update s.pc p pc)
    (mine : pc.Keeps now) : Good t := by
  refine ⟨_, sound, fun q => ?_⟩
  by_cases isSelf : q = p
  · rw [isSelf, isPc, update_self, update_self]
    exact mine
  · rw [isPc, update_of_ne isSelf, update_of_ne isSelf]
    exact keeps q

omit [Fintype P] in
/-- A process goes from one point where it has made no inode busy to another. -/
theorem Rest.of_pc (calm : Calm s p) (pc : Pc P) (calmNow : pc.phase = none)
    (image : t.toImage = s.toImage) (isPc : t.pc = update s.pc p pc) : Rest s t p := by
  refine ⟨image, calm, fun q => ?_⟩
  by_cases isSelf : q = p
  · rw [isSelf, isPc, update_self, calmNow, calm]
  · rw [isPc, update_of_ne isSelf]

omit [Fintype P] in
theorem Rest.goto (calm : Calm s p) (u : System P) (pc : Pc P) (image : u.toImage = s.toImage)
    (isPc : u.pc = s.pc) (calmNow : pc.phase = none) : Rest s (u.goto p pc) p := by
  refine .of_pc calm pc calmNow image ?_
  rw [← isPc]
  rfl

/-- A step that changes nothing that matters here. -/
theorem Sound.still (sound : Sound s l) (rest : Rest s t p) (inode : t.inode = s.inode)
    (cwd : t.cwd = s.cwd) (files : t.files = s.files) (inUse : t.inUse = s.inUse) :
    Sound t l := by
  have shifted : Sound t (update l p (l p)) := by
    refine sound.shift rest inode rfl rfl rfl (fun q _ => ?_) (fun ip => ?_)
      (fun ref mem => sound.known mem (rest.calm.phase_ne _)) ?_ ?_ ?_ (fun ip view isView => ?_)
      (fun ip isCwd => ?_) (fun ip writable file => ?_)
    · rw [cwd, inUse]
      exact ⟨rfl, rfl⟩
    · rw [held, cwd, files]
    · rw [inUse]
      exact sound.refs.lent p
    · rw [inUse, files]
      exact sound.refs.inUse
    · rw [cwd]
      exact sound.refs.away p
    · exact sound.locks.kept p ip (Or.inl (by rw [isView]; rintro ⟨⟩))
    · rw [cwd] at isCwd
      exact sound.shared_cwd isCwd
    · rw [files] at file
      exact ⟨sound.shared_file file, (sound.data.usedFile ip writable file).2⟩
  rw [update_eq_self] at shifted
  exact shifted

/-! ## References -/

/-- `iget` for an inode that is in use, is not about to be freed and is nobody's new one. -/
theorem Sound.iget (sound : Sound s l) (calm : Calm s p) (got : s.iget inum = .ok (ip, u))
    (used : (s.dinode inum).type ≠ .free)
    (safe : ∀ q phase other, (s.pc q).phase = some (phase, other) →
      (s.inode other).inum = inum → ¬ (phase = .truncating ∨ phase = .freeing))
    (notFresh : ∀ q type, q ≠ p → (l q).fresh ≠ some (inum, type)) (rest : Program P) :
    Sound (u.goto p (.run rest)) (update l p ((l p).gain ip inum)) := by
  obtain ⟨gets, isAfter⟩ := iget_gets got
  have image : u.toImage = s.toImage := by rw [isAfter]
  have isPc : u.pc = s.pc := by rw [isAfter]
  have cwd : u.cwd = s.cwd := by rw [isAfter]
  have files : u.files = s.files := by rw [isAfter]
  have inUse : u.inUse = s.inUse := by rw [isAfter]
  have getsThen : Gets s (u.goto p (.run rest)) ip inum := by
    cases gets with
    | hit some isInode after => exact .hit some isInode after
    | miss none absent after => exact .miss none absent after
  have onlyPc := Rest.goto calm u (.run rest) image isPc rfl
  refine sound.gain onlyPc getsThen cwd files inUse used
    (fun q phase inPhase => not_or.mp fun isEnding => ?_) notFresh
  cases gets with
  | hit some isInode after => exact safe q phase ip inPhase isInode isEnding
  | miss none absent after =>
    have one := (sound.data.ending q phase ip inPhase isEnding).1
    omega

/-- `iget` for an inode with links. -/
theorem Sound.iget_linked (sound : Sound s l) (calm : Calm s p) (got : s.iget inum = .ok (ip, u))
    (linked : (s.dinode inum).nlink ≠ 0) (rest : Program P) :
    Sound (u.goto p (.run rest)) (update l p ((l p).gain ip inum)) := by
  refine sound.iget calm got (sound.forest.tree.linked_used linked) ?_ ?_ rest
  · intro q phase other inPhase isInode isEnding
    obtain ⟨-, -, unlinked, -⟩ := sound.data.ending q phase other inPhase isEnding
    rw [isInode] at unlinked
    exact linked unlinked
  · intro q type _ isFresh
    obtain ⟨-, isNew, -, -⟩ := sound.data.fresh q inum type isFresh
    rw [isNew] at linked
    exact linked rfl

/-- `dirlookup` finds an inode that may be referenced. -/
theorem Sound.dirlookup (sound : Sound s l) (calm : Calm s p) {dp : Fin ninode}
    (isView : (l p).locks dp = some view) (isDir : view.node.type = .dir) {name : Name} {off : Nat}
    (found : lookup name view.entries = some (off, inum))
    (settled : name = .dotdot → view.rooted = true ∨ ¬ (l p).OwesDir view.inum)
    (linked : name = .dotdot → view.node.nlink ≠ 0) (got : s.iget inum = .ok (ip, u))
    (rest : Program P) :
    Sound (u.goto p (.run rest)) (update l p ((l p).gain ip inum)) := by
  obtain ⟨-, isInode, isNode, isEntries, -⟩ := sound.data.view p dp view isView
  obtain ⟨place, used⟩ := lookup_some found
  have tree := sound.forest.tree
  have shaped := tree.shaped view.inum
  rw [isEntries] at shaped
  cases name with
  | dot =>
    obtain rfl := shaped.of_dot place used
    have holds : Holds s l p dp := Or.inl (by rw [isView]; rintro ⟨⟩)
    obtain ⟨ref, mem, rfl⟩ := sound.locks.kept p dp holds
    have known := sound.known mem (calm.phase_ne _)
    refine sound.iget calm got (sound.view_used isView) (fun q phase other inPhase same isEnding => ?_)
      (fun q type other => ?_) rest
    · have one := (sound.data.ending q phase other inPhase isEnding).1
      obtain rfl := sound.entry_eq isView (by omega) same.symm
      have isSelf := sound.locks.once q p ref.ip (Or.inr ⟨_, inPhase⟩) holds
      subst isSelf
      exact calm.phase_ne _ inPhase
    · rw [← isInode, known.named]
      exact known.notFresh q type other
  | dotdot =>
    have up := shaped.of_dotdot place used
    rw [← isEntries] at up
    refine sound.iget_linked calm got (tree.dotdot_linked ?_ ?_ up) rest
    · rw [isNode, isDir]
    · exact sound.rooted isView isDir (linked rfl) (settled rfl)
  | named text =>
    have mem : (⟨inum, .named text⟩ : Dirent) ∈ s.entries view.inum := by
      rw [isEntries]
      exact List.mem_of_getElem? place
    refine sound.iget_linked calm got (tree.target_linked mem ?_) rest
    simp [Dirent.proper, used, Name.plain]

/-! ## The steps of programs -/

/-- A process goes on with nothing changed but its own place. -/
theorem Good.of_still (sound : Sound s l) (keeps : ∀ q, (s.pc q).Keeps (l q)) (calm : Calm s p)
    (pc : Pc P) (calmNow : pc.phase = none) (mine : pc.Keeps (l p)) (image : t.toImage = s.toImage)
    (isPc : t.pc = update s.pc p pc) (inode : t.inode = s.inode) (cwd : t.cwd = s.cwd)
    (files : t.files = s.files) (inUse : t.inUse = s.inUse) : Good t := by
  have after := sound.still (Rest.of_pc calm pc calmNow image isPc) inode cwd files inUse
  rw [← update_eq_self p l] at after
  exact .of_update keeps pc after isPc mine

/-- `iget`, then the rest of the program. -/
theorem Good.of_iget (keeps : ∀ q, (s.pc q).Keeps (l q)) {rest : Fin ninode → Program P}
    (stepped : s.igetThen p inum rest = .ok (some t))
    (mine : ∀ ip, (rest ip).Keeps ((l p).gain ip inum))
    (sound : ∀ {ip u}, s.iget inum = .ok (ip, u) → ∀ rest : Program P,
      Sound (u.goto p (.run rest)) (update l p ((l p).gain ip inum))) : Good t := by
  obtain ⟨⟨ip, u⟩, got, after⟩ := Except.of_bind_ok stepped
  cases after
  refine .of_update keeps (.run (rest ip)) (sound got (rest ip)) ?_ (mine ip)
  rw [(iget_gets got).2]
  rfl

section

variable (sound : Sound s l) (keeps : ∀ q, (s.pc q).Keeps (l q))

include sound keeps

/-- A change of the links of a locked inode that is paid for. -/
theorem Good.of_relink (calm : Calm s p)
    (isView : (l p).locks ip = some view) {node : Dinode} {owed : Multiset Debt}
    (same : node.type = view.node.type ∧ node.size = view.node.size ∧ node.addrs = view.node.addrs)
    (change : (owed = ⟨view.inum, view.node.type = .dir⟩ ::ₘ (l p).owed ∧
        node.nlink = view.node.nlink + 1) ∨
      (l p).owed = ⟨view.inum, view.node.type = .dir⟩ ::ₘ owed ∧ node.nlink = view.node.nlink - 1)
    (mine : rest.Keeps { (l p).setLock ip (some { view with node }) with owed }) :
    Good (((s.setCopy ip node).iupdate ip).goto p (.run rest)) := by
  obtain ⟨-, -, isNode, -, -⟩ := sound.data.view p ip view isView
  refine .of_update keeps (.run rest)
    (sound.relink calm isView rest same (fun inum => ?_) fun debt mem => ?_) rfl mine
  · have links : inum = view.inum → (s.dinode inum).nlink = view.node.nlink := by
      rintro rfl
      rw [isNode]
    rw [Local.debt]
    rcases change with ⟨isOwed, count⟩ | ⟨isOwed, count⟩
    · rw [isOwed, countP_cons]
      simp only [eq_comm (a := view.inum)]
      split
      · rename_i here
        rw [links here, count]
        omega
      · omega
    · rw [isOwed, countP_cons]
      simp only [eq_comm (a := view.inum)]
      split
      · rename_i here
        rw [links here, count]
        omega
      · omega
  · rcases change with ⟨isOwed, -⟩ | ⟨isOwed, -⟩
    · rw [isOwed, mem_cons] at mem
      rcases mem with rfl | old
      · refine ⟨by rw [isNode, decide_eq_true_eq], fun _ => ⟨ip, view, isView, rfl⟩⟩
      · exact sound.forest.debts p debt old
    · refine sound.forest.debts p debt ?_
      rw [isOwed]
      exact mem_cons_of_mem mem

/-- `iput` begins: the reference goes, or the inode is about to be freed. -/
theorem Good.of_iput (calm : Calm s p)
    (mine : (Program.iput ip rest).Keeps (l p)) (stepped : s.iput p ip rest = .ok (some t)) :
    Good t := by
  obtain ⟨ref, others, rfl, givesUp, later⟩ := id mine
  have mem : ref ∈ (l p).refs := by simp [givesUp.1]
  rw [System.iput] at stepped
  split at stepped
  · rename_i last
    obtain ⟨one, isValid, unlinked⟩ := last
    split at stepped
    · cases stepped
    · rename_i idle
      cases stepped
      have free : (s.inode ref.ip).busy = false := by simpa using idle
      have copy := sound.data.coherent ref.ip (by omega) isValid
        fun q dropping => sound.locks.unheld free q (Or.inr ⟨_, dropping⟩)
      rw [copy] at unlinked
      have after := sound.busy calm free mem rfl (.truncating ref.ip rest) rfl
        (Or.inl ⟨rfl, one, isValid, unlinked, Local.own_pos mem givesUp.2.1⟩)
      rw [← update_eq_self p l] at after
      exact .of_update keeps (.truncating ref.ip rest) after rfl mine
  · cases stepped
    have onlyPc := Rest.goto calm (s.setRef ref.ip ((s.inode ref.ip).ref - 1)) (.run rest) rfl rfl rfl
    exact .of_update keeps (.run rest) (sound.lose onlyPc givesUp rfl rfl rfl rfl) rfl later

/-- `fork` gives the child a current directory: it gets a reference and passes it on. -/
theorem Good.of_fork {child : P}
    (isAt : s.pc p = .run (.fork child rest)) (isCwd : s.cwd p = some ip)
    (none : s.cwd child = none) (idle : s.pc child = .run .idle) :
    Good ({ s.setRef ip ((s.inode ip).ref + 1) with
      cwd := update s.cwd child (some ip) }.goto p (.run rest)) := by
  have apart : p ≠ child := by
    rintro rfl
    rw [isAt] at idle
    cases idle
  have calm : Calm s p := by
    rw [Calm, isAt]
    rfl
  have calmChild : Calm s child := by
    rw [Calm, idle]
    rfl
  have spent : (l child).Spent := by
    have childKeeps := keeps child
    rw [idle] at childKeeps
    exact childKeeps
  have shared := sound.shared_cwd isCwd
  have gets : Gets s (s.setRef ip ((s.inode ip).ref + 1)) ip (s.inode ip).inum :=
    .hit (sound.refs.cwd_pos isCwd) rfl rfl
  have gained := sound.gain (t := s.setRef ip ((s.inode ip).ref + 1)) (p := child)
    ⟨rfl, calmChild, fun _ => rfl⟩ gets rfl rfl rfl shared.used
    (fun q phase inPhase => not_or.mp (sound.notEnding calm (by rw [held, if_pos isCwd]; omega) inPhase))
    fun q type _ => shared.notFresh q type
  generalize isChild : (l child).gain ip (s.inode ip).inum = gain at gained
  have givesUp : (update l child gain child).GivesUp ⟨ip, (s.inode ip).inum, false, false⟩
      (l child).refs := by
    rw [update_self, ← isChild]
    refine ⟨rfl, rfl, fun locked => absurd (spent.locks ip) locked, fun type => ?_⟩
    rw [Local.gain_fresh, spent.fresh]
    rintro ⟨⟩
  have onlyPc : Rest (s.setRef ip ((s.inode ip).ref + 1)) ({ s.setRef ip ((s.inode ip).ref + 1) with
      cwd := update s.cwd child (some ip) }.goto p (.run rest)) child := by
    refine ⟨rfl, calmChild, fun q => ?_⟩
    exact (Rest.goto (s := s) calm s (.run rest) rfl rfl rfl).phases q
  have after := gained.setCwd onlyPc rfl givesUp none rfl rfl rfl
  rw [update_idem, update_self] at after
  refine ⟨_, after, fun q => ?_⟩
  by_cases isChildSelf : q = child
  · rw [isChildSelf, update_self, ← isChild]
    have idleNow : ({ s.setRef ip ((s.inode ip).ref + 1) with
        cwd := update s.cwd child (some ip) }.goto p (.run rest)).pc child = s.pc child :=
      update_of_ne apart.symm ..
    rw [idleNow, idle]
    exact ⟨spent.refs, spent.locks, spent.owed, spent.fresh⟩
  · rw [update_of_ne isChildSelf]
    by_cases isSelf : q = p
    · rw [isSelf]
      have mine := keeps p
      rw [isAt] at mine
      have there : ({ s.setRef ip ((s.inode ip).ref + 1) with
          cwd := update s.cwd child (some ip) }.goto p (.run rest)).pc p = .run rest :=
        update_self ..
      rw [there]
      exact mine
    · have there : ({ s.setRef ip ((s.inode ip).ref + 1) with
          cwd := update s.cwd child (some ip) }.goto p (.run rest)).pc q = s.pc q :=
        update_of_ne isSelf ..
      rw [there]
      exact keeps q

/-- A process begins its next call. -/
theorem Good.begin {program : Program P} (isAt : s.pc p = .run program) (cautious : Cautious s p)
    (stepped : s.begin p balloc program = .ok (some t)) : Good t := by
  have mine := keeps p
  rw [isAt] at mine
  have calm : Calm s p := by
    rw [Calm, isAt]
    rfl
  rw [Cautious, isAt] at cautious
  cases program with
  | idle => cases stepped
  | panic message => cases stepped
  | beginOp rest =>
    cases stepped
    exact .of_still sound keeps calm (.run rest) rfl mine rfl rfl rfl rfl rfl rfl
  | endOp rest =>
    cases stepped
    exact .of_still sound keeps calm (.run rest) rfl mine rfl rfl rfl rfl rfl rfl
  | iget inum rest =>
    obtain ⟨rfl, later⟩ := mine
    refine .of_iget keeps stepped later fun got => sound.iget_linked calm got ?_
    exact sound.forest.tree.rooted_linked (Or.inl rfl)
  | idup rest =>
    simp only [System.begin] at stepped
    split at stepped
    · cases stepped
    · rename_i ip isCwd
      cases stepped
      have shared := sound.shared_cwd isCwd
      have gets : Gets s ((s.setRef ip ((s.inode ip).ref + 1)).goto p (.run (rest ip))) ip
          (s.inode ip).inum := .hit (sound.refs.cwd_pos isCwd) rfl rfl
      have onlyPc := Rest.goto calm (s.setRef ip ((s.inode ip).ref + 1)) (.run (rest ip)) rfl rfl rfl
      refine .of_update keeps (.run (rest ip)) (sound.gain onlyPc gets rfl rfl rfl shared.used
        (fun q phase inPhase => not_or.mp (sound.notEnding calm ?_ inPhase))
        fun q type _ => shared.notFresh q type) rfl (mine ip _)
      rw [held, if_pos isCwd]
      omega
  | ilock ip rest =>
    obtain ⟨ref, mem, isRef, -⟩ := id mine
    simp only [System.begin] at stepped
    split at stepped
    · cases stepped
    · split at stepped
      · cases stepped
      · rename_i idle
        cases stepped
        have after := sound.busy calm (by simpa using idle) mem isRef (.loading ip rest) rfl (Or.inr rfl)
        rw [← update_eq_self p l] at after
        exact .of_update keeps (.loading ip rest) after rfl mine
  | iunlock ip rest =>
    obtain ⟨view, ref, others, isView, isRefs, rfl, settled, whole, later⟩ := mine
    simp only [System.begin] at stepped
    split at stepped
    · cases stepped
    · cases stepped
      exact .of_update keeps (.run rest) (sound.iunlock calm isView isRefs settled whole rest) rfl later
  | iput ip rest => exact .of_iput sound keeps calm mine stepped
  | ialloc dp type rest =>
    obtain ⟨used, none, view, isView, isDir, settled, later⟩ := mine
    cases stepped
    have linked : view.node.nlink ≠ 0 := by
      rw [← sound.view_copy calm isView]
      exact cautious dp rfl
    exact .of_update keeps (.scanning type 1 rest) (sound.ialloc calm isView isDir linked settled rfl)
      rfl ⟨used, one_ne_zero, none, later⟩
  | read ip rest =>
    obtain ⟨view, isView, later⟩ := mine
    cases stepped
    rw [← sound.view_copy calm isView] at later
    exact .of_still sound keeps calm (.run (rest _)) rfl later rfl rfl rfl rfl rfl rfl
  | dirlookup dp name rest =>
    obtain ⟨view, isView, later⟩ := mine
    obtain ⟨-, isInode, -, isEntries, -⟩ := sound.data.view p dp view isView
    have copy := sound.view_copy calm isView
    simp only [System.begin] at stepped
    rw [copy, isInode, isEntries] at stepped
    split at stepped
    · cases stepped
    · rename_i isDir
      have isDir := Decidable.not_not.mp isDir
      have later := later isDir
      split at stepped
      · rename_i missing
        cases stepped
        rw [missing] at later
        exact .of_still sound keeps calm (.run (rest none)) rfl later rfl rfl rfl rfl rfl rfl
      · rename_i off inum found
        rw [found] at later
        refine .of_iget keeps stepped later.2 fun got => ?_
        refine sound.dirlookup calm isView isDir found later.1 ?_ got
        rintro rfl
        rw [← copy]
        exact cautious dp rfl
  | isdirempty dp rest =>
    obtain ⟨view, isView, later⟩ := mine
    obtain ⟨-, isInode, -, isEntries, -⟩ := sound.data.view p dp view isView
    cases stepped
    rw [← isEntries, ← isInode] at later
    exact .of_still sound keeps calm (.run (rest _)) rfl later rfl rfl rfl rfl rfl rfl
  | enter dp name ip rest =>
    obtain ⟨view, ref, owed, isView, isDir, missing, mem, rfl, may, later⟩ := mine
    obtain ⟨-, isInode, -, isEntries, -⟩ := sound.data.view p dp view isView
    have linked : view.node.nlink ≠ 0 := by
      rw [← sound.view_copy calm isView]
      exact cautious dp rfl
    simp only [System.begin] at stepped
    rw [isInode, isEntries, sound.refs.named p ref mem] at stepped
    split at stepped
    · cases stepped
    · rename_i u wrote
      cases stepped
      obtain ⟨node, resized, after⟩ := sound.enter calm isView isDir missing mem may linked wrote rest
      refine .of_update keeps (.run rest) after ?_ (later node resized)
      rw [← writeEntry_pc wrote]
      rfl
  | clear dp off rest =>
    obtain ⟨view, inum, name, child, target, isView, isDir, found, proper, locked, isTarget, unknown,
      empty, later⟩ := mine
    simp only [System.begin] at stepped
    split at stepped
    · cases stepped
    · rename_i u wrote
      cases stepped
      obtain ⟨node, resized, after⟩ := sound.clear calm isView isDir found proper locked isTarget
        unknown empty wrote rest
      refine .of_update keeps (.run rest) after ?_ (later node resized)
      rw [← writeEntry_pc wrote]
      rfl
  | setup ip major minor rest =>
    obtain ⟨view, type, isView, isNew, empty, later⟩ := mine
    cases stepped
    rw [sound.view_copy calm isView]
    refine .of_relink sound keeps calm isView ⟨rfl, rfl, rfl⟩ (Or.inl ⟨?_, ?_⟩) later
    · rw [isNew]
      rfl
    · rw [isNew]
      rfl
  | link ip rest =>
    obtain ⟨view, isView, later⟩ := mine
    cases stepped
    rw [sound.view_copy calm isView]
    exact .of_relink sound keeps calm isView ⟨rfl, rfl, rfl⟩ (Or.inl ⟨rfl, rfl⟩) later
  | unlink ip rest =>
    obtain ⟨view, owed, isView, isOwed, later⟩ := mine
    cases stepped
    rw [sound.view_copy calm isView]
    exact .of_relink sound keeps calm isView ⟨rfl, rfl, rfl⟩ (Or.inr ⟨isOwed, rfl⟩) later
  | writei ip off n rest =>
    obtain ⟨view, isView, isFile, later⟩ := mine
    simp only [System.begin] at stepped
    split at stepped
    · cases stepped
      have keepsNone := later view.node none ⟨rfl, rfl⟩
      have same : (l p).setLock ip (some { view with node := view.node }) = l p := by
        rw [Local.setLock, ← isView, update_eq_self]
      rw [same] at keepsNone
      exact .of_still sound keeps calm (.run (rest none)) rfl keepsNone rfl rfl rfl rfl rfl rfl
    · rename_i written wrote
      cases stepped
      obtain ⟨resized, after⟩ := sound.writei calm isView isFile wrote (rest (some n))
      refine .of_update keeps (.run (rest (some n))) after ?_ (later written.1 (some n) resized)
      rw [← write_pc s ip written]
      rfl
  | takeCwd rest =>
    simp only [System.begin] at stepped
    split at stepped
    · cases stepped
    · rename_i ip isCwd
      cases stepped
      have onlyPc := Rest.goto calm { s with cwd := update s.cwd p none } (.run (rest ip))
        rfl rfl rfl
      exact .of_update keeps (.run (rest ip)) (sound.takeCwd onlyPc rfl isCwd rfl rfl rfl) rfl
        (mine ip _)
  | setCwd ip rest =>
    obtain ⟨isAway, ref, others, rfl, givesUp, later⟩ := mine
    cases stepped
    have onlyPc := Rest.goto calm { s with cwd := update s.cwd p (some ref.ip) } (.run rest)
      rfl rfl rfl
    exact .of_update keeps (.run rest)
      (sound.setCwd onlyPc rfl givesUp (sound.refs.away p isAway) rfl rfl rfl) rfl later
  | fork child rest =>
    simp only [System.begin] at stepped
    split at stepped
    · rename_i ip isCwd none idle
      cases stepped
      exact .of_fork sound keeps isAt isCwd none idle
    · cases stepped
  | openFile ip writable rest =>
    obtain ⟨ref, others, rfl, givesUp, plain, later⟩ := mine
    cases stepped
    have onlyPc := Rest.goto calm { s with files := (ref.ip, writable) :: s.files } (.run rest)
      rfl rfl rfl
    exact .of_update keeps (.run rest) (sound.openFile onlyPc rfl givesUp plain rfl rfl rfl) rfl later
  | fileclose ip writable rest =>
    simp only [System.begin] at stepped
    split at stepped
    · rename_i may
      cases stepped
      have onlyPc := Rest.goto calm { s with files := s.files.erase (ip, writable) } (.run rest)
        rfl rfl rfl
      exact .of_update keeps (.run rest) (sound.fileclose onlyPc rfl may.1 may.2 rfl rfl rfl) rfl
        (mine _)
    · cases stepped
  | useFile ip writable rest =>
    obtain ⟨none, later⟩ := mine
    simp only [System.begin] at stepped
    split at stepped
    · rename_i file
      cases stepped
      have onlyPc := Rest.goto calm { s with inUse := update s.inUse p (some ip) } (.run rest)
        rfl rfl rfl
      exact .of_update keeps (.run rest) (sound.useFile onlyPc rfl file none rfl rfl rfl) rfl (later _)
    · cases stepped
  | leaveFile rest =>
    obtain ⟨ref, others, isRefs, isLent, unlocked, none, later⟩ := mine
    cases stepped
    have onlyPc := Rest.goto calm { s with inUse := update s.inUse p Option.none } (.run rest)
      rfl rfl rfl
    exact .of_update keeps (.run rest)
      (sound.leaveFile onlyPc rfl isRefs isLent unlocked none rfl rfl rfl) rfl later

/-- A process goes on. -/
theorem Good.next (cautious : Cautious s p)
    (stepped : s.next p balloc = .ok (some t)) : Good t := by
  have mine := keeps p
  rw [System.next] at stepped
  split at stepped
  · rename_i program isAt
    exact .begin sound keeps isAt cautious stepped
  · rename_i ip rest isAt
    rw [isAt] at mine
    obtain ⟨ref, mem, rfl, later⟩ := mine
    have inPhase : (s.pc p).phase = some (.loading, ref.ip) := by
      rw [isAt]
      rfl
    have finds := later _ _ (sound.locks.apart p _ _ inPhase) (sound.finds mem inPhase)
    have named := sound.refs.named p ref mem
    split at stepped
    · rename_i isValid
      cases stepped
      have copy := sound.data.coherent ref.ip (sound.refs.ref_pos mem) isValid fun q dropping => by
        have isSelf := sound.locks.once q p ref.ip (Or.inr ⟨_, dropping⟩) (Or.inr ⟨_, inPhase⟩)
        subst isSelf
        rw [inPhase] at dropping
        cases dropping
      rw [named] at copy
      have after := sound.load isAt mem (s.inode ref.ip) ⟨rfl, rfl, rfl⟩ isValid copy
      have same : s.setInode ref.ip (s.inode ref.ip) = s := by
        rw [setInode, update_eq_self]
      rw [same] at after
      exact .of_update keeps (.run rest) after rfl finds
    · split at stepped
      · cases stepped
      · cases stepped
        rw [named]
        refine .of_update keeps (.run rest) (sound.load isAt mem _ ?_ ?_ ?_) rfl finds
        · exact ⟨rfl, rfl, rfl⟩
        · rfl
        · rfl
  · rename_i ip rest isAt
    rw [isAt] at mine
    cases stepped
    obtain ⟨ref, others, rfl, givesUp, later⟩ := id mine
    have mem : ref ∈ (l p).refs := by simp [givesUp.1]
    have after := sound.itrunc isAt (by rw [sound.refs.named p ref mem]; exact givesUp.2.2.2)
    rw [← update_eq_self p l] at after
    exact .of_update keeps (.freeing ref.ip rest) after rfl mine
  · rename_i ip rest isAt
    rw [isAt] at mine
    cases stepped
    obtain ⟨ref, others, rfl, givesUp, later⟩ := id mine
    have mem : ref ∈ (l p).refs := by simp [givesUp.1]
    have after := sound.ifree isAt (by rw [sound.refs.named p ref mem]; exact givesUp.2.2.2)
    rw [← update_eq_self p l] at after
    exact .of_update keeps (.dropping ref.ip rest) after rfl mine
  · rename_i ip rest isAt
    rw [isAt] at mine
    cases stepped
    obtain ⟨ref, others, rfl, givesUp, later⟩ := mine
    exact .of_update keeps (.run rest) (sound.drop isAt givesUp) rfl later
  · rename_i type inum rest isAt
    rw [isAt] at mine
    obtain ⟨used, real, none, later⟩ := mine
    split at stepped
    · rename_i inside
      split at stepped
      · rename_i free
        cases stepped
        refine .of_update keeps (.marked type inum rest) (sound.mark isAt inside real free none used) rfl
          ⟨rfl, fun ref mem isInode => ?_, fun ip => later ip inum real⟩
        have allocated := (sound.data.used p ref mem (by rw [isAt]; rintro ⟨⟩)).1
        rw [isInode] at allocated
        exact allocated free
      · cases stepped
        have calm : Calm s p := by
          rw [Calm, isAt]
          rfl
        exact .of_still sound keeps calm (.scanning type (inum + 1) rest) rfl
          ⟨used, Nat.succ_ne_zero _, none, later⟩ rfl rfl rfl rfl rfl rfl
    · cases stepped
  · rename_i type inum rest isAt
    rw [isAt] at mine
    obtain ⟨isFresh, -, later⟩ := mine
    have calm : Calm s p := by
      rw [Calm, isAt]
      rfl
    obtain ⟨used, isNew, -, unshared⟩ := sound.data.fresh p inum type isFresh
    refine .of_iget keeps stepped later fun got => sound.iget calm got ?_ ?_ ?_
    · rw [isNew]
      exact used
    · intro q phase other inPhase isInode isEnding
      obtain ⟨ref, mem, rfl⟩ := sound.locks.kept q other (Or.inr ⟨_, inPhase⟩)
      rw [sound.refs.named q ref mem] at isInode
      rcases unshared.refs q ref mem isInode with isSelf | dropping
      · rw [isSelf] at inPhase
        exact calm.phase_ne _ inPhase
      · rw [inPhase] at dropping
        cases dropping
        simp at isEnding
    · intro q other apart otherFresh
      exact apart (sound.data.freshOnce q p inum other type otherFresh isFresh)

/-- A process makes a call. -/
theorem Good.call (idle : s.pc p = .run .idle) {c : Call P} (there : (s.cwd p).isNone = c.starts) :
    Good (s.goto p (.run c.program)) := by
  have calm : Calm s p := by
    rw [Calm, idle]
    rfl
  have spent : (l p).Spent := by
    have mine := keeps p
    rw [idle] at mine
    exact mine
  have onlyPc := Rest.goto calm s (.run c.program) rfl rfl rfl
  have start : Sound (s.goto p (.run c.program)) (update l p (.nothing c.starts)) := by
    refine sound.shift onlyPc rfl ?_ spent.fresh.symm spent.owed.symm (fun _ _ => ⟨rfl, rfl⟩)
      (fun ip => ?_) (fun ref mem => absurd mem (notMem_zero _))
      (fun ref mem => absurd mem (notMem_zero _)) sound.refs.inUse (fun isAway => ?_)
      (fun ip view isView => ?_) (fun ip isCwd => sound.shared_cwd isCwd) (fun ip writable file => ?_)
    · funext ip
      rw [spent.locks]
      rfl
    · rw [held, Local.own, spent.refs]
      rfl
    · rw [← Option.isNone_iff_eq_none]
      exact there.trans isAway
    · rw [spent.locks] at isView
      cases isView
    · exact ⟨sound.shared_file file, (sound.data.usedFile ip writable file).2⟩
  exact .of_update keeps (.run c.program) start rfl c.keeps

end

/-- Every step of a run keeps the kernel in step with the processes. -/
theorem Good.step (good : Good s) {event : Event P}
    (cautious : ∀ p balloc, event = .next p balloc → Cautious s p)
    (stepped : s.step event = .ok (some t)) : Good t := by
  obtain ⟨l, sound, keeps⟩ := good
  cases event with
  | call p c =>
    simp only [System.step] at stepped
    split at stepped
    · rename_i idle
      split at stepped
      · rename_i there
        cases stepped
        exact .call sound keeps idle there
      · cases stepped
    · cases stepped
  | next p balloc => exact .next sound keeps (cautious p balloc rfl) stepped

end Xv6.Fs
