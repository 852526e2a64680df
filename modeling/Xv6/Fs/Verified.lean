import Xv6.Fs.Protocol

/-!
# The system calls keep to the protocol

One lemma for each function of the source that several calls share, and one for each call.
The proofs go through the programs step by step; what a step finds is arbitrary.
-/

namespace Xv6.Fs

open Function Local Multiset

/-- A process that has locked nothing, owes no directory a link and has no new inode. -/
structure Local.Quiet (l : Local) : Prop where
  unlocked : ∀ ip, l.locks ip = .none
  settled : ∀ inum, ¬ l.OwesDir inum
  unallocated : l.fresh = .none

theorem Local.Quiet.notFresh {l : Local} (quiet : l.Quiet) (inum : Nat) (type : FileType) :
    l.fresh ≠ some (inum, type) := by
  rw [quiet.unallocated]
  rintro ⟨⟩

/-- A process that has nothing. -/
def Local.nothing (away : Bool) : Local := ⟨0, fun _ => .none, 0, .none, away⟩

theorem Local.nothing_quiet (away : Bool) : (Local.nothing away).Quiet :=
  ⟨fun _ => rfl, fun _ => notMem_zero _, rfl⟩

theorem Local.nothing_spent (away : Bool) : (Local.nothing away).Spent :=
  ⟨rfl, fun _ => rfl, rfl, rfl⟩

namespace Program

variable {P : Type} {l : Local} {rest : Program P}
  {ref : Ref} {others : Multiset Ref} {plain : Bool} {inum : Nat} {name : Name}

/-! ## Rules for the common idioms -/

theorem keeps_done (away : Bool) : (endOp idle : Program P).Keeps (.nothing away) :=
  nothing_spent away

theorem keeps_beginOp (after : rest.Keeps l) : (beginOp rest).Keeps l := after

/-- An inode that is locked and unlocked again leaves the locks as they were. -/
theorem unlocked_again {locks : Fin ninode → Option View} {ip : Fin ninode}
    (free : locks ip = none) (view : Option View) :
    update (update locks ip view) ip none = locks := by
  rw [update_idem, ← free, update_eq_self]

/-- `ilock`, when no inode is new. -/
theorem keeps_ilock {ip : Fin ninode} (mem : ref ∈ l.refs) (isRef : ref.ip = ip)
    (unallocated : l.fresh = none)
    (after : ∀ node entries, l.locks ip = none → (node.type = .dir → 2 ≤ entries.length) →
      (ref.plain = true → node.type ≠ .dir) →
      (∀ other view, l.locks other = some view → view.inum ≠ ref.inum) →
      rest.Keeps (l.setLock ip (some ⟨ref.inum, node, entries, false⟩))) :
    (ilock ip rest).Keeps l := by
  refine ⟨ref, mem, isRef, fun node entries free finds => ?_⟩
  have locked : l.loaded ip ref.inum node entries =
      l.setLock ip (some ⟨ref.inum, node, entries, false⟩) := by
    simp [loaded, setLock, unallocated]
  rw [locked]
  exact after node entries free (finds.whole fun type => by rw [unallocated]; rintro ⟨⟩) finds.plain
    finds.apart

/-- `iunlockput`. -/
theorem keeps_iunlockput {ip : Fin ninode} {view : View} (locked : l.locks ip = some view)
    (refs : l.refs = ref ::ₘ others) (isRef : ref.ip = ip) (own : ref.lent = false)
    (settled : ¬ l.OwesDir view.inum) (whole : view.node.type = .dir → 2 ≤ view.entries.length)
    (notFresh : ∀ type, l.fresh ≠ some (ref.inum, type))
    (after : rest.Keeps { l.setLock ip none with refs := others }) :
    (iunlockput ip rest).Keeps l := by
  refine ⟨view, ref, others, locked, refs, isRef, settled, whole, ?_⟩
  refine ⟨{ ref with plain := ref.plain || view.node.type ≠ .dir }, others, isRef, ?_, after⟩
  refine ⟨rfl, own, fun held => ?_, notFresh⟩
  subst isRef
  exact absurd (update_self ..) held

/-- `iput` of an inode that the process has not locked. -/
theorem keeps_iput {ip : Fin ninode} (refs : l.refs = ref ::ₘ others) (isRef : ref.ip = ip)
    (own : ref.lent = false) (free : l.locks ip = none)
    (notFresh : ∀ type, l.fresh ≠ some (ref.inum, type))
    (after : rest.Keeps { l with refs := others }) : (iput ip rest).Keeps l := by
  refine ⟨ref, others, isRef, ⟨refs, own, fun held => ?_, notFresh⟩, after⟩
  subst isRef
  exact absurd free held

/-! ## Paths -/

/-- `namex`, from an inode that the process has a reference to. -/
theorem keeps_namex (quiet : l.Quiet) (nameiparent : Bool)
    {rest : Option (Fin ninode × Name) → Program P} (failed : (rest none).Keeps l)
    (found : ∀ ip inum plain name, (rest (some (ip, name))).Keeps (l.addRef ⟨ip, inum, plain, false⟩))
    (path : List Name) : ∀ name ip inum plain,
      (namex nameiparent rest path name ip).Keeps (l.addRef ⟨ip, inum, plain, false⟩) := by
  induction path with
  | nil =>
    intro name ip inum plain
    rw [namex]
    split
    · exact keeps_iput rfl rfl rfl (quiet.unlocked ip) (quiet.notFresh inum) failed
    · exact found ip inum plain name
  | cons elem path ih =>
    intro name ip inum plain
    rw [namex]
    refine keeps_ilock (mem_cons_self _ _) rfl quiet.unallocated ?_
    intro node entries free whole _ _
    have isLocked : ((l.addRef ⟨ip, inum, plain, false⟩).setLock ip
        (some ⟨inum, node, entries, false⟩)).locks ip = some ⟨inum, node, entries, false⟩ :=
      update_self ..
    have again := unlocked_again (quiet.unlocked ip) (some ⟨inum, node, entries, false⟩)
    have done : ∀ others : Multiset Ref,
        { ((l.addRef ⟨ip, inum, plain, false⟩).setLock ip (some ⟨inum, node, entries, false⟩)).setLock
            ip none with refs := others } = { l with refs := others } := by
      intro others
      simp only [setLock, addRef, again]
    refine ⟨_, isLocked, ?_⟩
    dsimp only
    split
    · refine keeps_iunlockput isLocked rfl rfl rfl (quiet.settled _) whole (quiet.notFresh _) ?_
      rw [done]
      exact failed
    · split
      · refine ⟨_, _, l.refs, isLocked, rfl, rfl, quiet.settled _, whole, ?_⟩
        rw [done]
        exact found ip inum _ elem
      · refine ⟨_, isLocked, fun _ => ?_⟩
        split
        · refine keeps_iunlockput isLocked rfl rfl rfl (quiet.settled _) whole (quiet.notFresh _) ?_
          rw [done]
          exact failed
        · rename_i off target _
          refine ⟨fun _ => Or.inr (quiet.settled _), fun next => ?_⟩
          refine keeps_iunlockput isLocked (cons_swap _ _ _) rfl rfl (quiet.settled _) whole
            (quiet.notFresh _) ?_
          have moved := done (⟨next, target, false, false⟩ ::ₘ l.refs)
          have kept := ih elem next target false
          simp only [setLock, addRef, gain] at moved kept ⊢
          rw [moved]
          exact kept

/-- `namex` from its start. -/
theorem keeps_walk (quiet : l.Quiet) (nameiparent : Bool) (path : Path)
    {rest : Option (Fin ninode × Name) → Program P} (failed : (rest none).Keeps l)
    (found : ∀ ip inum plain name,
      (rest (some (ip, name))).Keeps (l.addRef ⟨ip, inum, plain, false⟩)) :
    (walk nameiparent path rest).Keeps l := by
  rw [walk]
  split
  · exact ⟨rfl, fun ip => keeps_namex quiet nameiparent failed found path.elems .dot ip rootino false⟩
  · intro ip inum
    exact keeps_namex quiet nameiparent failed found path.elems .dot ip inum false

theorem keeps_namei (quiet : l.Quiet) (path : Path) {rest : Option (Fin ninode) → Program P}
    (failed : (rest none).Keeps l)
    (found : ∀ ip inum plain, (rest (some ip)).Keeps (l.addRef ⟨ip, inum, plain, false⟩)) :
    (namei path rest).Keeps l :=
  keeps_walk quiet false path failed fun ip inum plain _ => found ip inum plain

/-! ## One locked inode -/

/-- The process has locked one inode, to which it has or has been lent a reference, and has
nothing else but what it owes. -/
structure Sole (l : Local) (lent : Bool) (ip : Fin ninode) (view : View) (owed : Multiset Debt) :
    Prop where
  refs : ∃ plain, l.refs = {⟨ip, view.inum, plain, lent⟩}
  locked : l.locks ip = some view
  others : ∀ other, other ≠ ip → l.locks other = none
  whole : view.node.type = .dir → 2 ≤ view.entries.length
  owing : l.owed = owed
  unallocated : l.fresh = none

namespace Sole

variable {lent : Bool} {ip : Fin ninode} {view : View} {owed : Multiset Debt}

theorem settled (sole : Sole l lent ip view 0) (inum : Nat) : ¬ l.OwesDir inum := by
  rw [OwesDir, sole.owing]
  exact notMem_zero _

theorem notFresh (sole : Sole l lent ip view owed) (inum : Nat) (type : FileType) :
    l.fresh ≠ some (inum, type) := by
  rw [sole.unallocated]
  rintro ⟨⟩

/-- After the inode is unlocked nothing is locked. -/
theorem unlocked (sole : Sole l lent ip view owed) (other : Fin ninode) :
    (l.setLock ip none).locks other = none := by
  by_cases same : other = ip
  · subst same
    exact update_self ..
  · exact (update_of_ne same ..).trans (sole.others other same)

/-- The inode is unlocked and given up, and the call is over. -/
theorem keeps_done (sole : Sole l false ip view 0) :
    (iunlockput ip (endOp idle) : Program P).Keeps l := by
  obtain ⟨plain, refs⟩ := sole.refs
  refine keeps_iunlockput sole.locked refs rfl rfl (sole.settled _) sole.whole (sole.notFresh _) ?_
  exact ⟨rfl, sole.unlocked, sole.owing, sole.unallocated⟩

end Sole

/-- A process with one reference locks the inode. -/
theorem keeps_ilock_sole (refs : l.refs = {ref}) (unlocked : ∀ ip, l.locks ip = none)
    (settled : l.owed = 0) (unallocated : l.fresh = none)
    (after : ∀ l view, Sole l ref.lent ref.ip view 0 → (ref.plain = true → view.node.type ≠ .dir) →
      rest.Keeps l) :
    (ilock ref.ip rest).Keeps l := by
  have mem : ref ∈ l.refs := by simp [refs]
  refine keeps_ilock mem rfl unallocated fun node entries _ whole plain _ => ?_
  refine after _ ⟨ref.inum, node, entries, false⟩ ⟨⟨ref.plain, refs⟩,
    update_self .., ?_, whole, settled, unallocated⟩ plain
  intro other apart
  exact (update_of_ne apart ..).trans (unlocked other)

/-- `ilock` of an inode that a path walk has found. -/
theorem keeps_ilock_found {away : Bool} {ip : Fin ninode}
    (after : ∀ l view, Sole l false ip view 0 → rest.Keeps l) :
    (ilock ip rest).Keeps ((nothing away).addRef ⟨ip, inum, plain, false⟩) := by
  have kept : (ilock (⟨ip, inum, plain, false⟩ : Ref).ip rest).Keeps
      ((nothing away).addRef ⟨ip, inum, plain, false⟩) :=
    keeps_ilock_sole rfl (fun _ => rfl) rfl rfl fun l view sole _ => after l view sole
  exact kept

/-- A device lets go of the inode and locks it again. It has not become a directory. -/
theorem keeps_device {lent : Bool} {ip : Fin ninode} {view : View} (sole : Sole l lent ip view 0)
    (after : ∀ l now, Sole l lent ip now 0 → (view.node.type ≠ .dir → now.node.type ≠ .dir) →
      rest.Keeps l) : (device ip rest).Keeps l := by
  obtain ⟨plain, refs⟩ := sole.refs
  refine ⟨view, _, 0, sole.locked, refs, rfl, sole.settled _, sole.whole, ?_⟩
  have kept : (ilock (⟨ip, view.inum, plain || view.node.type ≠ .dir, lent⟩ : Ref).ip rest).Keeps
      { l.setLock ip none with
        refs := {⟨ip, view.inum, plain || view.node.type ≠ .dir, lent⟩} } :=
    keeps_ilock_sole rfl sole.unlocked sole.owing sole.unallocated
      fun l now sole plain => after l now sole fun isFile => plain (by simp [isFile])
  exact kept

/-- `readi` leaves the inode locked, though maybe not as it was. -/
theorem keeps_readi {lent : Bool} {ip : Fin ninode}
    (after : ∀ l view, Sole l lent ip view 0 → rest.Keeps l) (times : Nat) :
    ∀ l view, Sole l lent ip view 0 → (readi ip times rest).Keeps l := by
  induction times with
  | zero => exact after
  | succ times ih =>
    intro l view sole
    refine ⟨view, sole.locked, ?_⟩
    dsimp only
    split
    · exact keeps_device sole fun l now sole _ => ih l now sole
    · exact ih l view sole

theorem keeps_exec (path : Path) (reads : Nat) :
    (exec path reads : Program P).Keeps (.nothing false) := by
  refine keeps_beginOp (keeps_namei (nothing_quiet _) path (keeps_done _) fun ip _ _ => ?_)
  refine keeps_ilock_found (keeps_readi (fun l view sole => ?_) reads)
  exact sole.keeps_done

theorem keeps_sysChdir (path : Path) : (sysChdir path : Program P).Keeps (.nothing false) := by
  refine keeps_beginOp (keeps_namei (nothing_quiet _) path (keeps_done _) fun ip _ _ => ?_)
  refine keeps_ilock_found fun l view sole => ⟨view, sole.locked, ?_⟩
  dsimp only
  split
  · exact sole.keeps_done
  · obtain ⟨plain, refs⟩ := sole.refs
    refine ⟨view, _, 0, sole.locked, refs, rfl, sole.settled _, sole.whole, fun old inum => ?_⟩
    refine ⟨⟨old, inum, false, false⟩, {⟨ip, view.inum, plain || view.node.type ≠ .dir, false⟩}, rfl,
      ⟨rfl, rfl, fun held => ?_, sole.notFresh _⟩, ?_⟩
    · exact absurd (sole.unlocked old) held
    refine ⟨rfl, _, 0, rfl, ⟨rfl, rfl, fun held => ?_, sole.notFresh _⟩, ?_⟩
    · exact absurd (sole.unlocked ip) held
    · exact ⟨rfl, sole.unlocked, sole.owing, sole.unallocated⟩

/-- The end of `sys_open`, for a file that is not a directory or is only read. -/
theorem keeps_openInode {ip : Fin ninode} {view : View} (sole : Sole l false ip view 0)
    {omode : Nat} (reads : view.node.type = .dir → omode = 0) (room : Bool) :
    (openInode omode room ip : Program P).Keeps l := by
  rw [openInode]
  split
  · obtain ⟨plain, refs⟩ := sole.refs
    refine ⟨view, _, 0, sole.locked, refs, rfl, sole.settled _, sole.whole, ?_⟩
    refine ⟨_, 0, rfl, ⟨rfl, rfl, fun held => ?_, sole.notFresh _⟩, fun writes => ?_, ?_⟩
    · exact absurd (sole.unlocked ip) held
    · rw [Bool.or_eq_true]
      refine Or.inr (decide_eq_true fun isDir => ?_)
      simp [reads isDir] at writes
    · exact ⟨rfl, sole.unlocked, sole.owing, sole.unallocated⟩
  · exact sole.keeps_done

/-! ## Calls on open files -/

/-- The inode of an open file is unlocked, and the call is over. -/
theorem Sole.keeps_leave {ip : Fin ninode} {view : View} (sole : Sole l true ip view 0) :
    (iunlock ip (leaveFile idle) : Program P).Keeps l := by
  obtain ⟨plain, refs⟩ := sole.refs
  refine ⟨view, _, 0, sole.locked, refs, rfl, sole.settled _, sole.whole, ?_⟩
  refine ⟨_, 0, rfl, rfl, sole.unlocked ip, fun _ none => absurd none (notMem_zero _), ?_⟩
  exact ⟨rfl, sole.unlocked, sole.owing, sole.unallocated⟩

/-- A process begins a call on an open file and locks its inode. -/
theorem keeps_useFile {ip : Fin ninode} {writable : Bool}
    (after : ∀ l view, Sole l true ip view 0 → rest.Keeps l) :
    (useFile ip writable (ilock ip rest)).Keeps (.nothing false) := by
  refine ⟨fun _ none => absurd none (notMem_zero _), fun inum => ?_⟩
  have kept : (ilock (⟨ip, inum, writable, true⟩ : Ref).ip rest).Keeps
      ((nothing false).addRef ⟨ip, inum, writable, true⟩) :=
    keeps_ilock_sole rfl (fun _ => rfl) rfl rfl fun l view sole _ => after l view sole
  exact kept

theorem keeps_sysRead (ip : Fin ninode) (writable : Bool) :
    (sysRead ip writable : Program P).Keeps (.nothing false) :=
  keeps_useFile (keeps_readi (fun _ _ sole => sole.keeps_leave) 1)

theorem keeps_sysFstat (ip : Fin ninode) (writable : Bool) :
    (sysFstat ip writable : Program P).Keeps (.nothing false) :=
  keeps_useFile fun _ _ sole => sole.keeps_leave

/-- A process in a call on an open file that may be written, with nothing locked. -/
structure Writing (l : Local) (ip : Fin ninode) : Prop where
  refs : ∃ inum, l.refs = {⟨ip, inum, true, true⟩}
  unlocked : ∀ other, l.locks other = none
  owing : l.owed = 0
  unallocated : l.fresh = none

theorem Writing.keeps_leave {ip : Fin ninode} (writing : Writing l ip) :
    (leaveFile idle : Program P).Keeps l := by
  obtain ⟨inum, refs⟩ := writing.refs
  refine ⟨_, 0, refs, rfl, writing.unlocked _, fun _ none => absurd none (notMem_zero _), ?_⟩
  exact ⟨rfl, writing.unlocked, writing.owing, writing.unallocated⟩

/-- The inode as the process leaves it. -/
theorem Sole.setView {lent : Bool} {ip : Fin ninode} {view other : View} {owed after : Multiset Debt}
    (sole : Sole l lent ip view owed) (same : other.inum = view.inum)
    (whole : other.node.type = .dir → 2 ≤ other.entries.length) :
    Sole { l.setLock ip (some other) with owed := after } lent ip other after where
  refs := by
    rw [same]
    exact sole.refs
  locked := update_self ..
  others := fun third apart => (update_of_ne apart ..).trans (sole.others third apart)
  whole := whole
  owing := rfl
  unallocated := sole.unallocated

/-- The end of a round of `filewrite`. -/
theorem keeps_writeDone {ip : Fin ninode} {view : View} {n : Nat} {next : Nat → Program P}
    (sole : Sole l true ip view 0) (isFile : view.node.type ≠ .dir)
    (again : ∀ l r, Writing l ip → (next r).Keeps l) (r : Option Nat) :
    (writeDone ip n next r).Keeps l := by
  obtain ⟨plain, refs⟩ := sole.refs
  refine ⟨view, _, 0, sole.locked, refs, rfl, sole.settled _, sole.whole, ?_⟩
  have writing : Writing { l.setLock ip none with
      refs := {⟨ip, view.inum, plain || view.node.type ≠ .dir, true⟩} } ip :=
    ⟨⟨view.inum, by simp [isFile]⟩, sole.unlocked, sole.owing, sole.unallocated⟩
  cases r with
  | none => exact writing.keeps_leave
  | some r =>
    show (if r ≠ n then panic "short filewrite" else next r : Program P).Keeps _
    split
    · exact (by decide : "short filewrite" ≠ "ilock: no type")
    · exact again _ r writing

/-- `filewrite`, from a point where the inode is not locked. -/
theorem keeps_filewrite (ip : Fin ninode) (sizes : List Nat) :
    ∀ (l : Local) (off : Nat), Writing l ip → (filewrite ip off sizes : Program P).Keeps l := by
  induction sizes with
  | nil => exact fun l off writing => writing.keeps_leave
  | cons n rest ih =>
    intro l off writing
    obtain ⟨inum, refs⟩ := writing.refs
    have again : ∀ l r, Writing l ip → (filewrite ip (off + r) rest : Program P).Keeps l :=
      fun l r => ih l (off + r)
    refine keeps_beginOp (keeps_ilock_sole refs writing.unlocked writing.owing writing.unallocated
      fun l view sole plain => ⟨view, sole.locked, ?_⟩)
    have isFile := plain rfl
    dsimp only
    split
    · split
      · exact keeps_device sole fun l now sole still =>
          keeps_writeDone sole (still isFile) again (some n)
      · exact keeps_writeDone sole isFile again none
    · refine ⟨view, sole.locked, isFile, fun node result resized => ?_⟩
      have still : node.type ≠ .dir := by
        rw [resized.1]
        exact isFile
      have changed : Sole { l.setLock ip (some { view with node }) with owed := 0 } true ip
          { view with node } 0 := sole.setView rfl fun isDir => absurd isDir still
      have same : { l.setLock ip (some { view with node }) with owed := 0 } =
          l.setLock ip (some { view with node }) := by
        simp [setLock, sole.owing]
      rw [same] at changed
      exact keeps_writeDone changed still again result

theorem keeps_sysWrite (ip : Fin ninode) (off n : Nat) :
    (sysWrite ip off n : Program P).Keeps (.nothing false) := by
  refine ⟨fun _ none => absurd none (notMem_zero _), fun inum => ?_⟩
  exact keeps_filewrite ip (chunks n) _ off ⟨⟨inum, rfl⟩, fun _ => rfl, rfl, rfl⟩

/-! ## A directory and one of its entries -/

/-- The process has locked a directory and another inode, and has nothing else but what it
owes. -/
structure Pair (l : Local) (dp ip : Fin ninode) (parent child : View) (owed : Multiset Debt) :
    Prop where
  apart : ip ≠ dp
  differ : parent.inum ≠ child.inum
  refs : ∃ a b, l.refs = {⟨ip, child.inum, a, false⟩, ⟨dp, parent.inum, b, false⟩}
  lockedParent : l.locks dp = some parent
  lockedChild : l.locks ip = some child
  others : ∀ other, other ≠ dp → other ≠ ip → l.locks other = none
  isDir : parent.node.type = .dir
  whole : 2 ≤ parent.entries.length
  owing : l.owed = owed
  unallocated : l.fresh = none

namespace Pair

variable {dp ip : Fin ninode} {parent child : View} {owed : Multiset Debt}
  {owedAfter : Multiset Debt}

section

variable (pair : Pair l dp ip parent child owed)

include pair

theorem notFresh (inum : Nat) (type : FileType) :
    l.fresh ≠ some (inum, type) := by
  rw [pair.unallocated]
  rintro ⟨⟩

/-- The directory changes. -/
theorem setParent {view : View} (same : view.inum = parent.inum) (isDir : view.node.type = .dir)
    (whole : 2 ≤ view.entries.length) :
    Pair { l.setLock dp (some view) with owed := owedAfter } dp ip view child owedAfter where
  apart := pair.apart
  differ := by
    rw [same]
    exact pair.differ
  refs := by
    rw [same]
    exact pair.refs
  lockedParent := update_self ..
  lockedChild := (update_of_ne pair.apart ..).trans pair.lockedChild
  others := by
    intro other notParent notChild
    exact (update_of_ne notParent ..).trans (pair.others other notParent notChild)
  isDir := isDir
  whole := whole
  owing := rfl
  unallocated := pair.unallocated

/-- The other inode changes. -/
theorem setChild {view : View} (same : view.inum = child.inum) :
    Pair { l.setLock ip (some view) with owed := owedAfter } dp ip parent view owedAfter where
  apart := pair.apart
  differ := by
    rw [same]
    exact pair.differ
  refs := by
    rw [same]
    exact pair.refs
  lockedParent := (update_of_ne pair.apart.symm ..).trans pair.lockedParent
  lockedChild := update_self ..
  others := by
    intro other notParent notChild
    exact (update_of_ne notChild ..).trans (pair.others other notParent notChild)
  isDir := pair.isDir
  whole := pair.whole
  owing := rfl
  unallocated := pair.unallocated

/-- The directory is unlocked and given up. -/
theorem keeps_dropParent (settled : ⟨parent.inum, true⟩ ∉ owed)
    (whole : child.node.type = .dir → 2 ≤ child.entries.length)
    (after : ∀ l, Sole l false ip child owed → rest.Keeps l) : (iunlockput dp rest).Keeps l := by
  obtain ⟨a, b, refs⟩ := pair.refs
  have swapped : l.refs = ⟨dp, parent.inum, b, false⟩ ::ₘ {⟨ip, child.inum, a, false⟩} := by
    rw [refs]
    exact cons_swap _ _ _
  refine keeps_iunlockput pair.lockedParent swapped rfl rfl ?_ (fun _ => pair.whole)
    (pair.notFresh _) (after _ ⟨⟨a, rfl⟩, ?_, ?_, whole, pair.owing, pair.unallocated⟩)
  · rw [OwesDir, pair.owing]
    exact settled
  · exact (update_of_ne pair.apart ..).trans pair.lockedChild
  · intro other notChild
    by_cases same : other = dp
    · subst same
      exact update_self ..
    · exact (update_of_ne same ..).trans (pair.others other same notChild)

/-- The other inode is unlocked and given up. -/
theorem keeps_dropChild (settled : ⟨child.inum, true⟩ ∉ owed)
    (whole : child.node.type = .dir → 2 ≤ child.entries.length)
    (after : ∀ l, Sole l false dp parent owed → rest.Keeps l) : (iunlockput ip rest).Keeps l := by
  obtain ⟨a, b, refs⟩ := pair.refs
  refine keeps_iunlockput pair.lockedChild refs rfl rfl ?_ whole
    (pair.notFresh _) (after _ ⟨⟨b, rfl⟩, ?_, ?_, fun _ => pair.whole, pair.owing,
      pair.unallocated⟩)
  · rw [OwesDir, pair.owing]
    exact settled
  · exact (update_of_ne pair.apart.symm ..).trans pair.lockedParent
  · intro other notParent
    by_cases same : other = ip
    · subst same
      exact update_self ..
    · exact (update_of_ne same ..).trans (pair.others other notParent same)

end

end Pair

/-! ## Making an inode -/

/-- The end of `create`. -/
theorem keeps_createEntry {dp ip : Fin ninode} {parent child : View} {owed : Multiset Debt}
    {rest : Option (Fin ninode) → Program P} (pair : Pair l dp ip parent child owed)
    (missing : lookup name parent.entries = none) (may : l.MayEnter parent child.inum name 0)
    (whole : child.node.type = .dir → 2 ≤ child.entries.length)
    (after : ∀ l, Sole l false ip child 0 → (rest (some ip)).Keeps l) :
    (createEntry dp name ip rest).Keeps l := by
  refine ⟨parent, pair.lockedParent, fun _ => ?_⟩
  rw [missing]
  obtain ⟨a, b, refs⟩ := pair.refs
  refine ⟨parent, ⟨ip, child.inum, a, false⟩, 0, pair.lockedParent, pair.isDir, missing,
    by simp [refs], rfl, may, fun node resized => ?_⟩
  have isDir : node.type = .dir := by
    rw [resized.1]
    exact pair.isDir
  have grown : 2 ≤ (place parent.entries (freeSlot parent.entries) ⟨child.inum, name⟩).length := by
    have shape := pair.whole
    rw [length_place (freeSlot_le _)]
    omega
  have changed : Pair { l.setLock dp (some { parent with
        node
        entries := place parent.entries (freeSlot parent.entries) ⟨child.inum, name⟩ }) with
      owed := 0 } dp ip _ child 0 := pair.setParent rfl isDir grown
  exact changed.keeps_dropParent (notMem_zero _) whole after

/-- `dirlink` of one of the first two entries of a new directory. -/
theorem keeps_dirlink_dots {dp ip target : Fin ninode} {parent child : View} {owed : Multiset Debt}
    {rest : Bool → Program P} (ref : Ref) (pair : Pair l dp ip parent child owed)
    (isDir : child.node.type = .dir) (missing : lookup name child.entries = none)
    (mem : ref ∈ l.refs) (isRef : ref.ip = target) (may : l.MayEnter child ref.inum name l.owed)
    (after : ∀ l node, child.node.Resized node →
      Pair l dp ip parent
        { child with
          node
          entries := place child.entries (freeSlot child.entries) ⟨ref.inum, name⟩ } owed →
      (rest true).Keeps l) :
    (dirlink ip name target rest).Keeps l := by
  refine ⟨child, pair.lockedChild, fun _ => ?_⟩
  rw [missing]
  refine ⟨child, ref, l.owed, pair.lockedChild, isDir, missing, mem, isRef, may, ?_⟩
  intro node resized
  have changed : Pair { l.setLock ip (some { child with
        node
        entries := place child.entries (freeSlot child.entries) ⟨ref.inum, name⟩ }) with
      owed := l.owed } dp ip parent _ l.owed := pair.setChild rfl
  rw [pair.owing] at changed ⊢
  exact after _ node resized changed

/-- The entries of a new directory. -/
theorem keeps_createDots {dp ip : Fin ninode} {parent child : View}
    (pair : Pair l dp ip parent child {⟨child.inum, true⟩}) (real : child.inum ≠ 0)
    (isDir : child.node.type = .dir) (once : child.node.nlink = 1) (empty : child.entries = [])
    (after : ∀ l parentNode childNode, childNode.type = .dir → childNode.nlink = 1 →
      Pair l dp ip { parent with node := parentNode }
        { child with
          node := childNode
          entries := [⟨child.inum, .dot⟩, ⟨parent.inum, .dotdot⟩] }
        {⟨parent.inum, true⟩, ⟨child.inum, true⟩} → rest.Keeps l) :
    (createDots dp ip rest).Keeps l := by
  refine ⟨parent, pair.lockedParent, ?_⟩
  have owes : ⟨parent.inum, parent.node.type = .dir⟩ ::ₘ l.owed =
      ({⟨parent.inum, true⟩, ⟨child.inum, true⟩} : Multiset Debt) := by
    rw [pair.owing]
    simp [pair.isDir]
  rw [owes]
  have linked : Pair { l.setLock dp (some { parent with
        node := { parent.node with nlink := parent.node.nlink + 1 } }) with
      owed := {⟨parent.inum, true⟩, ⟨child.inum, true⟩} } dp ip _ child _ :=
    pair.setParent rfl pair.isDir pair.whole
  have owesChild : ∀ {l : Local}, l.owed = {⟨parent.inum, true⟩, ⟨child.inum, true⟩} →
      l.OwesDir child.inum := by
    intro l owing
    simp [OwesDir, owing]
  obtain ⟨a, b, refs⟩ := linked.refs
  refine keeps_dirlink_dots ⟨ip, child.inum, a, false⟩ linked isDir (by rw [empty]; rfl)
    (by rw [refs]; simp) rfl (.dot rfl empty once (owesChild linked.owing)) ?_
  intro l node resized first
  have one : place child.entries (freeSlot child.entries) ⟨child.inum, .dot⟩ =
      [⟨child.inum, .dot⟩] := by
    rw [empty]
    rfl
  rw [one] at first
  have nowDir : node.type = .dir := by rw [resized.1, isDir]
  have nowOnce : node.nlink = 1 := by rw [resized.2, once]
  obtain ⟨a, b, refs⟩ := first.refs
  refine keeps_dirlink_dots ⟨dp, parent.inum, b, false⟩ first nowDir (by simp [lookup])
    (by rw [refs]; simp) rfl (.dotdot rfl nowOnce (owesChild first.owing)) ?_
  intro l other resized second
  have both : place [⟨child.inum, .dot⟩] (freeSlot [⟨child.inum, .dot⟩]) ⟨parent.inum, .dotdot⟩ =
      [⟨child.inum, .dot⟩, ⟨parent.inum, .dotdot⟩] := by
    simp [freeSlot, real]
  rw [both] at second
  exact after l _ other (by rw [resized.1, nowDir]) (by rw [resized.2, nowOnce]) second

/-- `create`, from nothing. What it returns is locked, and is of the wanted type. -/
theorem keeps_create (path : Path) {type : FileType} (used : type ≠ .free) (major minor : UInt16)
    {rest : Option (Fin ninode) → Program P}
    (failed : ∀ l : Local, l.Spent → (rest none).Keeps l)
    (made : ∀ l ip view, Sole l false ip view 0 → view.node.type = type → (rest (some ip)).Keeps l) :
    (create path type major minor rest).Keeps (.nothing false) := by
  refine keeps_walk (nothing_quiet _) true path (failed _ (nothing_spent _))
    fun dp inum plain name => ?_
  refine keeps_ilock_found fun l view sole => ⟨view, sole.locked, fun isDir => ?_⟩
  obtain ⟨plain, refs⟩ := sole.refs
  split
  · rename_i missing
    refine ⟨used, sole.unallocated, view, sole.locked, isDir, sole.settled _, fun ip inum real => ?_⟩
    refine ⟨⟨ip, inum, false, false⟩, mem_cons_self _ _, rfl, ?_⟩
    intro node entries free finds
    have apart : ip ≠ dp := by
      rintro rfl
      exact absurd (free.symm.trans (update_self ..)) (by simp)
    obtain ⟨rfl, rfl⟩ := finds.new type rfl
    refine ⟨⟨inum, .fresh type, [], false⟩, type, update_self .., rfl, rfl, ?_⟩
    generalize isNow : mk _ _ _ _ _ = now
    have pair : Pair now dp ip { view with rooted := true }
        ⟨inum, { Dinode.fresh type with major, minor, nlink := 1 }, [], false⟩
        {⟨inum, type = .dir⟩} := by
      subst isNow
      have differ : view.inum ≠ inum :=
        finds.apart dp { view with rooted := true } (update_self ..)
      refine ⟨apart, differ, ⟨false, plain, ?_⟩, ?_, update_self .., ?_, isDir,
        sole.whole isDir, ?_, ?_⟩
      · show ⟨ip, inum, false, false⟩ ::ₘ l.refs = _
        rw [refs]
        rfl
      · simp [loaded, update_of_ne apart.symm]
      · intro other notParent notChild
        simp [loaded, update_of_ne notParent, update_of_ne notChild,
          sole.others other notParent]
      · show ⟨inum, type = .dir⟩ ::ₘ l.owed = _
        rw [sole.owing]
        rfl
      · simp [loaded]
    split
    · rename_i isSub
      subst isSub
      rw [decide_eq_true rfl] at pair
      refine keeps_createDots pair real rfl rfl rfl fun l parentNode childNode isDir once both => ?_
      refine keeps_createEntry both missing (.dir both.whole rfl ?_ ip _ both.lockedChild rfl once rfl)
        (fun _ => le_refl 2) fun l sole => made l ip _ sole isDir
      rw [both.owing]
      exact cons_swap _ _ _
    · rename_i isFile
      rw [decide_eq_false isFile] at pair
      exact keeps_createEntry pair missing (.file pair.whole (Or.inl rfl) pair.owing)
        (fun isDir => absurd isDir isFile) fun l sole => made l ip _ sole rfl
  · rename_i off target found
    refine ⟨fun _ => Or.inr (sole.settled _), fun ip => ?_⟩
    have swapped : (l.gain ip target).refs =
        ⟨dp, view.inum, plain, false⟩ ::ₘ {⟨ip, target, false, false⟩} := by
      rw [gain_refs, refs]
      exact cons_swap _ _ _
    refine keeps_iunlockput sole.locked swapped rfl rfl (sole.settled _) sole.whole
      (sole.notFresh _) ?_
    have kept : (ilock (⟨ip, target, false, false⟩ : Ref).ip (.read ip fun node =>
        if type = .file ∧ node.type = .file then rest (some ip) else iunlockput ip (rest none))).Keeps
        { (l.gain ip target).setLock dp none with refs := {⟨ip, target, false, false⟩} } := by
      refine keeps_ilock_sole rfl sole.unlocked sole.owing sole.unallocated ?_
      intro l now only _
      refine ⟨now, only.locked, ?_⟩
      dsimp only
      split
      · rename_i both
        exact made l ip now only (both.2.trans both.1.symm)
      · obtain ⟨plain, refs⟩ := only.refs
        refine keeps_iunlockput only.locked refs rfl rfl (only.settled _) only.whole
          (only.notFresh _) (failed _ ?_)
        exact ⟨rfl, only.unlocked, only.owing, only.unallocated⟩
    exact kept

theorem keeps_sysOpen (path : Path) (omode : Nat) (room : Bool) :
    (sysOpen path omode room : Program P).Keeps (.nothing false) := by
  refine keeps_beginOp ?_
  split
  · refine keeps_create path (by simp) 0 0 (fun _ spent => spent) fun l ip view sole isFile => ?_
    exact keeps_openInode sole (fun isDir => by simp [isFile] at isDir) room
  · refine keeps_namei (nothing_quiet _) path (keeps_done _) fun ip _ _ => ?_
    refine keeps_ilock_found fun l view sole => ⟨view, sole.locked, ?_⟩
    dsimp only
    split
    · exact sole.keeps_done
    · rename_i readOnly
      refine keeps_openInode sole (fun isDir => ?_) room
      by_contra writes
      exact readOnly ⟨isDir, writes⟩

theorem keeps_sysMkdir (path : Path) : (sysMkdir path : Program P).Keeps (.nothing false) :=
  keeps_beginOp (keeps_create path (by simp) 0 0 (fun _ spent => spent)
    fun _ _ _ sole _ => sole.keeps_done)

theorem keeps_sysMknod (path : Path) (major minor : UInt16) :
    (sysMknod path major minor : Program P).Keeps (.nothing false) :=
  keeps_beginOp (keeps_create path (by simp) major minor (fun _ spent => spent)
    fun _ _ _ sole _ => sole.keeps_done)

/-! ## Links -/

/-- A process that owes a file a link, and has nothing else but a reference to it. -/
structure Linking (l : Local) (ip : Fin ninode) (inum : Nat) : Prop where
  refs : l.refs = {⟨ip, inum, true, false⟩}
  unlocked : ∀ other, l.locks other = none
  owing : l.owed = {⟨inum, false⟩}
  unallocated : l.fresh = none

theorem Linking.quiet {ip : Fin ninode} (linking : Linking l ip inum) : l.Quiet where
  unlocked := linking.unlocked
  settled := by
    intro other owes
    rw [OwesDir, linking.owing] at owes
    simp at owes
  unallocated := linking.unallocated

/-- The link of a file is taken back. -/
theorem keeps_linkBad {ip : Fin ninode} (linking : Linking l ip inum) :
    (linkBad ip : Program P).Keeps l := by
  have mem : (⟨ip, inum, true, false⟩ : Ref) ∈ l.refs := by simp [linking.refs]
  refine keeps_ilock mem rfl linking.unallocated fun node entries _ whole plain _ => ?_
  have isFile := plain rfl
  refine ⟨⟨inum, node, entries, false⟩, 0, update_self .., ?_, ?_⟩
  · show l.owed = _
    rw [linking.owing]
    simp [isFile]
  have sole : Sole (l.setLock ip (some ⟨inum, node, entries, false⟩)) false ip
      ⟨inum, node, entries, false⟩ l.owed :=
    ⟨⟨true, linking.refs⟩, update_self ..,
      fun other apart => (update_of_ne apart ..).trans (linking.unlocked other),
      whole, rfl, linking.unallocated⟩
  have changed : Sole { (l.setLock ip (some ⟨inum, node, entries, false⟩)).setLock ip
      (some ⟨inum, { node with nlink := node.nlink - 1 }, entries, false⟩) with owed := 0 } false ip _
      0 := sole.setView rfl whole
  exact changed.keeps_done

/-- `sys_link`, once it has found the directory. -/
theorem keeps_linkEntry {ip dp : Fin ninode} {parent : Nat} (linking : Linking l ip inum) :
    (ilock dp (dirlink dp name ip fun
      | false => iunlockput dp (linkBad ip)
      | true => iunlockput dp (.iput ip (.endOp .idle))) : Program P).Keeps
      (l.addRef ⟨dp, parent, plain, false⟩) := by
  have quiet := linking.quiet
  have mem : (⟨dp, parent, plain, false⟩ : Ref) ∈ (l.addRef ⟨dp, parent, plain, false⟩).refs := by
    simp
  refine keeps_ilock mem rfl quiet.unallocated fun node entries _ whole _ _ => ?_
  have locked : ((l.addRef ⟨dp, parent, plain, false⟩).setLock dp
      (some ⟨parent, node, entries, false⟩)).locks dp = some ⟨parent, node, entries, false⟩ :=
    update_self ..
  refine ⟨_, locked, fun isDir => ?_⟩
  split
  · rename_i missing
    refine ⟨_, ⟨ip, inum, true, false⟩, 0, locked, isDir, missing, by simp [linking.refs], rfl,
      .file (whole isDir) (Or.inr (quiet.settled _)) linking.owing, fun now resized => ?_⟩
    refine keeps_iunlockput (update_self ..) rfl rfl rfl (notMem_zero _) ?_
      (quiet.notFresh _) ?_
    · intro _
      have shape := whole isDir
      show 2 ≤ (place entries _ _).length
      rw [length_place (freeSlot_le _)]
      omega
    · refine keeps_iput linking.refs rfl rfl ?_ (quiet.notFresh _) ?_
      · simp [setLock, update_apply, quiet.unlocked]
      · refine ⟨rfl, fun other => ?_, rfl, quiet.unallocated⟩
        simp [setLock, update_apply, quiet.unlocked]
  · rename_i off target found
    refine ⟨fun _ => Or.inr (quiet.settled _), fun entry => ?_⟩
    refine ⟨⟨entry, target, false, false⟩, _, rfl, ⟨rfl, rfl, fun held => ?_, quiet.notFresh _⟩, ?_⟩
    · refine ⟨⟨dp, parent, plain, false⟩, mem, ?_⟩
      by_contra apart
      refine held ((update_of_ne (Ne.symm apart) ..).trans (quiet.unlocked entry))
    · refine keeps_iunlockput locked rfl rfl rfl (quiet.settled _) whole (quiet.notFresh _) ?_
      have still : ∀ other, (((l.addRef ⟨dp, parent, plain, false⟩).setLock dp
          (some ⟨parent, node, entries, false⟩)).setLock dp none).locks other = none := by
        intro other
        simp [setLock, update_apply, quiet.unlocked]
      exact keeps_linkBad ⟨linking.refs, still, linking.owing, quiet.unallocated⟩

theorem keeps_sysLink (old new : Path) : (sysLink old new : Program P).Keeps (.nothing false) := by
  refine keeps_beginOp (keeps_namei (nothing_quiet _) old (keeps_done _) fun ip _ _ => ?_)
  refine keeps_ilock_found fun l view sole => ⟨view, sole.locked, ?_⟩
  dsimp only
  split
  · exact sole.keeps_done
  · rename_i isFile
    obtain ⟨plain, refs⟩ := sole.refs
    refine ⟨view, sole.locked, ?_⟩
    refine ⟨_, _, 0, update_self .., refs, rfl, ?_, fun isDir => absurd isDir isFile, ?_⟩
    · simp [OwesDir, sole.owing, isFile]
    · generalize isNow : mk _ _ _ _ _ = now
      have linking : Linking now ip view.inum := by
        subst isNow
        refine ⟨by simp [isFile], fun other => ?_, by simp [sole.owing, isFile], sole.unallocated⟩
        by_cases same : other = ip
        · simp [setLock, same]
        · simp [setLock, update_of_ne same, sole.others other same]
      refine keeps_walk linking.quiet true new (keeps_linkBad linking) ?_
      exact fun dp inum plain name => keeps_linkEntry linking

/-- The end of `sys_unlink`. -/
theorem keeps_unlinkEntry {dp ip : Fin ninode} {parent child : View} {off : Nat}
    (pair : Pair l dp ip parent child 0) (found : parent.entries[off]? = some ⟨child.inum, name⟩)
    (proper : (⟨child.inum, name⟩ : Dirent).proper = true) (unknown : child.rooted = false)
    (whole : child.node.type = .dir → 2 ≤ child.entries.length)
    (empty : child.node.type = .dir → Fs.isdirempty child.entries = true) :
    (unlinkEntry dp off ip child.node.type : Program P).Keeps l := by
  refine ⟨parent, child.inum, name, ip, child, pair.lockedParent, pair.isDir, found, proper,
    pair.lockedChild, rfl, unknown, empty, fun node resized => ?_⟩
  have isDir : node.type = .dir := by rw [resized.1, pair.isDir]
  have below : off < parent.entries.length := (List.getElem?_eq_some_iff.mp found).1
  have grown : 2 ≤ (place parent.entries off .zero).length := by
    have shape := pair.whole
    rw [length_place below.le]
    omega
  rw [pair.owing, Multiset.add_zero]
  -- The rest of the call, once only the inode itself is owed a link.
  have finish : ∀ {l node entries},
      Pair l dp ip { parent with node, entries } child {⟨child.inum, child.node.type = .dir⟩} →
      (iunlockput dp <| .unlink ip <| iunlockput ip <| .endOp .idle : Program P).Keeps l := by
    intro l node entries pair
    refine pair.keeps_dropParent ?_ whole fun l sole => ?_
    · rw [mem_singleton]
      intro same
      exact pair.differ (congrArg Debt.inum same)
    · refine ⟨child, 0, sole.locked, sole.owing, ?_⟩
      have changed : Sole { l.setLock ip (some { child with
          node := { child.node with nlink := child.node.nlink - 1 } }) with owed := 0 } false ip _ 0 :=
        sole.setView rfl whole
      exact changed.keeps_done
  by_cases isSub : child.node.type = .dir
  · rw [if_pos isSub, if_pos isSub]
    have cleared : Pair { l.setLock dp (some { parent with
          node
          entries := place parent.entries off .zero }) with
        owed := ⟨child.inum, child.node.type = .dir⟩ ::ₘ {⟨parent.inum, true⟩} } dp ip _ child _ :=
      pair.setParent rfl isDir grown
    refine ⟨_, {⟨child.inum, child.node.type = .dir⟩}, cleared.lockedParent, ?_, ?_⟩
    · rw [decide_eq_true isDir, cleared.owing]
      exact cons_swap _ _ 0
    · exact finish (cleared.setParent rfl isDir grown)
  · rw [if_neg isSub, if_neg isSub]
    exact finish (pair.setParent rfl isDir grown)

theorem keeps_sysUnlink (path : Path) : (sysUnlink path : Program P).Keeps (.nothing false) := by
  refine keeps_beginOp (keeps_walk (nothing_quiet _) true path (keeps_done _)
    fun dp inum plain name => ?_)
  refine keeps_ilock_found fun l parent sole => ?_
  split
  · exact sole.keeps_done
  · rename_i isPlain
    obtain ⟨plain, refs⟩ := sole.refs
    refine ⟨parent, sole.locked, fun isDir => ?_⟩
    split
    · exact sole.keeps_done
    · rename_i off target found
      obtain ⟨place, used⟩ := lookup_some found
      refine ⟨fun _ => Or.inr (sole.settled _), fun ip => ?_⟩
      have mem : (⟨ip, target, false, false⟩ : Ref) ∈ (l.gain ip target).refs := by simp
      refine keeps_ilock mem rfl sole.unallocated fun node entries free whole _ differ => ?_
      have apart : ip ≠ dp := by
        rintro rfl
        exact absurd (free.symm.trans sole.locked) (by simp)
      have pair : Pair ((l.gain ip target).setLock ip (some ⟨target, node, entries, false⟩)) dp ip
          parent ⟨target, node, entries, false⟩ 0 := by
        refine ⟨apart, differ dp parent sole.locked, ⟨false, plain, ?_⟩, ?_, update_self ..,
          ?_, isDir, sole.whole isDir, sole.owing, sole.unallocated⟩
        · show ⟨ip, target, false, false⟩ ::ₘ l.refs = _
          rw [refs]
          rfl
        · exact (update_of_ne apart.symm ..).trans sole.locked
        · intro other notParent notChild
          exact (update_of_ne notChild ..).trans (sole.others other notParent)
      have proper : (⟨target, name⟩ : Dirent).proper = true := by
        cases name with
        | dot => exact absurd (Or.inl rfl) isPlain
        | dotdot => exact absurd (Or.inr rfl) isPlain
        | named text => simp [Dirent.proper, used, Name.plain]
      refine ⟨_, pair.lockedChild, ?_⟩
      dsimp only
      split
      · exact (by decide : "unlink: nlink < 1" ≠ "ilock: no type")
      · split
        · rename_i isSub
          refine ⟨_, pair.lockedChild, ?_⟩
          dsimp only
          split
          · rename_i empty
            rw [← isSub]
            exact keeps_unlinkEntry pair place proper rfl whole fun _ => empty
          · exact pair.keeps_dropChild (notMem_zero _) whole fun l sole => sole.keeps_done
        · rename_i isFile
          exact keeps_unlinkEntry pair place proper rfl whole fun isDir => absurd isDir isFile

/-! ## All calls -/

theorem keeps_userinit : (userinit : Program P).Keeps (.nothing true) := by
  refine ⟨rfl, fun ip => ⟨rfl, ⟨ip, rootino, false, false⟩, 0, rfl, ⟨rfl, rfl, ?_, by rintro _ ⟨⟩⟩, ?_⟩⟩
  · exact fun held => absurd rfl held
  · exact nothing_spent false

theorem keeps_exit : (exit : Program P).Keeps (.nothing false) := by
  refine keeps_beginOp fun ip inum => ?_
  refine ⟨⟨ip, inum, false, false⟩, 0, rfl, ⟨rfl, rfl, ?_, by rintro _ ⟨⟩⟩, ?_⟩
  · exact fun held => absurd rfl held
  · exact nothing_spent true

theorem keeps_sysClose (ip : Fin ninode) (writable : Bool) :
    (sysClose ip writable : Program P).Keeps (.nothing false) := by
  intro inum
  refine ⟨⟨ip, inum, false, false⟩, 0, rfl, ⟨rfl, rfl, ?_, by rintro _ ⟨⟩⟩, ?_⟩
  · exact fun held => absurd rfl held
  · exact nothing_spent false

end Program

/-- Every call keeps to the protocol. -/
theorem Call.keeps {P : Type} (c : Call P) : c.program.Keeps (.nothing c.starts) := by
  cases c with
  | userinit => exact Program.keeps_userinit
  | fork child => exact nothing_spent false
  | exit => exact Program.keeps_exit
  | «open» path omode room => exact Program.keeps_sysOpen path omode room
  | mkdir path => exact Program.keeps_sysMkdir path
  | mknod path major minor => exact Program.keeps_sysMknod path major minor
  | link old new => exact Program.keeps_sysLink old new
  | unlink path => exact Program.keeps_sysUnlink path
  | chdir path => exact Program.keeps_sysChdir path
  | exec path reads => exact Program.keeps_exec path reads
  | close ip writable => exact Program.keeps_sysClose ip writable
  | read ip writable => exact Program.keeps_sysRead ip writable
  | fstat ip writable => exact Program.keeps_sysFstat ip writable
  | write ip off n => exact Program.keeps_sysWrite ip off n
  | unfetched => exact nothing_spent false
  | fileref => exact nothing_spent false

end Xv6.Fs
