import Xv6.Fs.Calls
import Xv6.Fs.Directory

/-!
# How a call uses inodes

What a process has at a point of a call: references, locked inodes with all it knows of
them, links that it owes, and an inode that it has allocated and not yet locked. A program
keeps to the protocol from such a state when each of its steps is allowed there and the rest
of the program keeps to it from the state after the step, whatever the step finds. At the end
of a call the process has given back all it had.

The rules say which facts a step needs: to write an entry for an inode one must owe it a
link, to clear the entry of a directory one must have locked the directory and found it
empty, and so on. What makes them sound is shown elsewhere; here is what the system calls
have to obey.
-/

namespace Xv6.Fs

/-- What a process knows of an inode that it has locked. -/
structure View where
  inum : Nat
  node : Dinode
  entries : List Dirent
  /-- The directory is known to be the root or to have a name. -/
  rooted : Bool

/-- A reference to a cached inode. -/
structure Ref where
  ip : Fin ninode
  inum : Nat
  /-- The inode is known not to be a directory. -/
  plain : Bool
  /-- The reference is that of an open file, which the process is in a call on. -/
  lent : Bool
  deriving DecidableEq

/-- A link that is owed to an inode. -/
structure Debt where
  inum : Nat
  /-- The inode is a directory. -/
  dir : Bool
  deriving DecidableEq

/-- What a process has at a point of a call. -/
structure Local where
  refs : Multiset Ref
  locks : Fin ninode → Option View
  owed : Multiset Debt
  /-- The inode that `ialloc` has returned, until it is locked. -/
  fresh : Option (Nat × FileType)
  /-- The process has no current directory. -/
  away : Bool

namespace Local

def addRef (l : Local) (ref : Ref) : Local := { l with refs := ref ::ₘ l.refs }

/-- A new reference to an inode. -/
def gain (l : Local) (ip : Fin ninode) (inum : Nat) : Local := l.addRef ⟨ip, inum, false, false⟩

def setLock (l : Local) (ip : Fin ninode) (view : Option View) : Local :=
  { l with locks := Function.update l.locks ip view }

section Fields

variable (l : Local) (ref : Ref) (ip : Fin ninode) (inum : Nat) (view : Option View)

@[simp] theorem addRef_refs : (l.addRef ref).refs = ref ::ₘ l.refs := rfl
@[simp] theorem addRef_locks : (l.addRef ref).locks = l.locks := rfl
@[simp] theorem addRef_owed : (l.addRef ref).owed = l.owed := rfl
@[simp] theorem addRef_fresh : (l.addRef ref).fresh = l.fresh := rfl
@[simp] theorem addRef_away : (l.addRef ref).away = l.away := rfl
@[simp] theorem gain_refs : (l.gain ip inum).refs = ⟨ip, inum, false, false⟩ ::ₘ l.refs := rfl
@[simp] theorem gain_locks : (l.gain ip inum).locks = l.locks := rfl
@[simp] theorem gain_owed : (l.gain ip inum).owed = l.owed := rfl
@[simp] theorem gain_fresh : (l.gain ip inum).fresh = l.fresh := rfl
@[simp] theorem gain_away : (l.gain ip inum).away = l.away := rfl
@[simp] theorem setLock_refs : (l.setLock ip view).refs = l.refs := rfl
@[simp] theorem setLock_locks : (l.setLock ip view).locks = Function.update l.locks ip view := rfl
@[simp] theorem setLock_owed : (l.setLock ip view).owed = l.owed := rfl
@[simp] theorem setLock_fresh : (l.setLock ip view).fresh = l.fresh := rfl
@[simp] theorem setLock_away : (l.setLock ip view).away = l.away := rfl

end Fields

/-- The process has given back all it had. -/
structure Spent (l : Local) : Prop where
  refs : l.refs = 0
  locks : ∀ ip, l.locks ip = none
  owed : l.owed = 0
  fresh : l.fresh = none

/-- A reference may be given up, with what remains then. -/
def GivesUp (l : Local) (ref : Ref) (others : Multiset Ref) : Prop :=
  l.refs = ref ::ₘ others ∧ ref.lent = false ∧
    (l.locks ref.ip ≠ .none → ∃ other ∈ others, other.ip = ref.ip) ∧
    ∀ type, l.fresh ≠ some (ref.inum, type)

/-- What `ilock` finds. A directory that is not just being made has its first two entries. -/
structure Finds (l : Local) (ref : Ref) (node : Dinode) (entries : List Dirent) : Prop where
  new : ∀ type, l.fresh = some (ref.inum, type) → node = .fresh type ∧ entries = []
  whole : (∀ type, l.fresh ≠ some (ref.inum, type)) → node.type = .dir → 2 ≤ entries.length
  plain : ref.plain = true → node.type ≠ .dir
  apart : ∀ other view, l.locks other = some view → view.inum ≠ ref.inum

/-- The process has locked an inode. -/
def loaded (l : Local) (ip : Fin ninode) (inum : Nat) (node : Dinode) (entries : List Dirent) :
    Local :=
  { l.setLock ip (some ⟨inum, node, entries, false⟩) with
    fresh := if l.fresh.map Prod.fst = some inum then .none else l.fresh }

/-- Whether a lock is held on an inode that is owed a link as a directory. -/
def OwesDir (l : Local) (inum : Nat) : Prop := ⟨inum, true⟩ ∈ l.owed

/-- An entry may be written for an inode, with what is owed then. -/
inductive MayEnter (l : Local) (view : View) (inum : Nat) : Name → Multiset Debt → Prop where
  | dot (self : inum = view.inum) (empty : view.entries = []) (once : view.node.nlink = 1)
      (owes : l.OwesDir view.inum) : MayEnter l view inum .dot l.owed
  | dotdot (one : view.entries = [⟨view.inum, .dot⟩]) (once : view.node.nlink = 1)
      (owes : l.OwesDir view.inum) : MayEnter l view inum .dotdot l.owed
  | file {name owed} (whole : 2 ≤ view.entries.length)
      (rooted : view.rooted = true ∨ ¬ l.OwesDir view.inum)
      (owes : l.owed = ⟨inum, false⟩ ::ₘ owed) : MayEnter l view inum name owed
  | dir {name owed} (whole : 2 ≤ view.entries.length) (rooted : view.rooted = true)
      (owes : l.owed = ⟨inum, true⟩ ::ₘ ⟨view.inum, true⟩ ::ₘ owed)
      (child : Fin ninode) (new : View) (locked : l.locks child = some new)
      (isNew : new.inum = inum) (once : new.node.nlink = 1)
      (up : Fs.dotdot new.entries = some view.inum) : MayEnter l view inum name owed

end Local

/-- A node that differs from another in size and blocks at most. -/
def Dinode.Resized (node other : Dinode) : Prop :=
  other.type = node.type ∧ other.nlink = node.nlink

variable {P : Type}

/-- The program keeps to the protocol. -/
def Program.Keeps : Program P → Local → Prop
  | .idle, l => l.Spent
  | .panic message, _ => message ≠ "ilock: no type"
  | .beginOp rest, l | .endOp rest, l => rest.Keeps l
  | .iget inum rest, l => inum = rootino ∧ ∀ ip, (rest ip).Keeps (l.gain ip rootino)
  | .idup rest, l => ∀ ip inum, (rest ip).Keeps (l.gain ip inum)
  | .ilock ip rest, l =>
    ∃ ref ∈ l.refs, ref.ip = ip ∧ ∀ node entries, l.locks ip = none →
      l.Finds ref node entries → rest.Keeps (l.loaded ip ref.inum node entries)
  | .iunlock ip rest, l =>
    ∃ view ref others, l.locks ip = some view ∧ l.refs = ref ::ₘ others ∧ ref.ip = ip ∧
      ¬ l.OwesDir view.inum ∧ (view.node.type = .dir → 2 ≤ view.entries.length) ∧
      rest.Keeps { l.setLock ip none with
        refs := { ref with plain := ref.plain || view.node.type ≠ .dir } ::ₘ others }
  | .iput ip rest, l =>
    ∃ ref others, ref.ip = ip ∧ l.GivesUp ref others ∧ rest.Keeps { l with refs := others }
  | .ialloc dp type rest, l =>
    type ≠ .free ∧ l.fresh = none ∧ ∃ view, l.locks dp = some view ∧ view.node.type = .dir ∧
      ¬ l.OwesDir view.inum ∧
      ∀ ip inum, inum ≠ 0 → (rest ip).Keeps
        { (l.setLock dp (some { view with rooted := true })).gain ip inum with
          fresh := some (inum, type) }
  | .read ip rest, l => ∃ view, l.locks ip = some view ∧ (rest view.node).Keeps l
  | .dirlookup dp name rest, l =>
    ∃ view, l.locks dp = some view ∧ (view.node.type = .dir →
      match lookup name view.entries with
      | none => (rest none).Keeps l
      | some (off, inum) =>
        (name = .dotdot → view.rooted = true ∨ ¬ l.OwesDir view.inum) ∧
          ∀ ip, (rest (some (ip, off))).Keeps (l.gain ip inum))
  | .isdirempty dp rest, l =>
    ∃ view, l.locks dp = some view ∧ (rest (Fs.isdirempty view.entries)).Keeps l
  | .enter dp name ip rest, l =>
    ∃ view ref owed, l.locks dp = some view ∧ view.node.type = .dir ∧
      lookup name view.entries = none ∧ ref ∈ l.refs ∧ ref.ip = ip ∧
      l.MayEnter view ref.inum name owed ∧
      ∀ node, view.node.Resized node → rest.Keeps
        { l.setLock dp (some { view with
            node
            entries := place view.entries (freeSlot view.entries) ⟨ref.inum, name⟩ }) with owed }
  | .clear dp off rest, l =>
    ∃ view inum name child target, l.locks dp = some view ∧ view.node.type = .dir ∧
      view.entries[off]? = some ⟨inum, name⟩ ∧ (⟨inum, name⟩ : Dirent).proper = true ∧
      l.locks child = some target ∧ target.inum = inum ∧ target.rooted = false ∧
      (target.node.type = .dir → Fs.isdirempty target.entries = true) ∧
      ∀ node, view.node.Resized node → rest.Keeps
        { l.setLock dp (some { view with node, entries := place view.entries off .zero }) with
          owed := ⟨inum, target.node.type = .dir⟩ ::ₘ
            ((if target.node.type = .dir then {⟨view.inum, true⟩} else 0) + l.owed) }
  | .setup ip major minor rest, l =>
    ∃ view type, l.locks ip = some view ∧ view.node = .fresh type ∧ view.entries = [] ∧
      rest.Keeps { l.setLock ip (some { view with node := { view.node with major, minor, nlink := 1 } })
        with owed := ⟨view.inum, type = .dir⟩ ::ₘ l.owed }
  | .link ip rest, l =>
    ∃ view, l.locks ip = some view ∧
      rest.Keeps { l.setLock ip (some { view with
          node := { view.node with nlink := view.node.nlink + 1 } }) with
        owed := ⟨view.inum, view.node.type = .dir⟩ ::ₘ l.owed }
  | .unlink ip rest, l =>
    ∃ view owed, l.locks ip = some view ∧ l.owed = ⟨view.inum, view.node.type = .dir⟩ ::ₘ owed ∧
      rest.Keeps { l.setLock ip (some { view with
          node := { view.node with nlink := view.node.nlink - 1 } }) with owed }
  | .writei ip _ _ rest, l =>
    ∃ view, l.locks ip = some view ∧ view.node.type ≠ .dir ∧
      ∀ node result, view.node.Resized node →
        (rest result).Keeps (l.setLock ip (some { view with node }))
  | .takeCwd rest, l => ∀ ip inum, (rest ip).Keeps { l.gain ip inum with away := true }
  | .setCwd ip rest, l =>
    l.away = true ∧ ∃ ref others, ref.ip = ip ∧ l.GivesUp ref others ∧
      rest.Keeps { l with refs := others, away := false }
  | .fork _ rest, l => rest.Keeps l
  | .openFile ip writable rest, l =>
    ∃ ref others, ref.ip = ip ∧ l.GivesUp ref others ∧ (writable = true → ref.plain = true) ∧
      rest.Keeps { l with refs := others }
  | .fileclose ip _ rest, l => ∀ inum, rest.Keeps (l.gain ip inum)
  | .useFile ip writable rest, l =>
    (∀ ref ∈ l.refs, ref.lent = false) ∧ ∀ inum, rest.Keeps (l.addRef ⟨ip, inum, writable, true⟩)
  | .leaveFile rest, l =>
    ∃ ref others, l.refs = ref ::ₘ others ∧ ref.lent = true ∧ l.locks ref.ip = none ∧
      (∀ other ∈ others, other.lent = false) ∧ rest.Keeps { l with refs := others }

/-- The process keeps to the protocol from where it is. -/
def Pc.Keeps : Pc P → Local → Prop
  | .run program, l => program.Keeps l
  | .loading ip rest, l => (Program.ilock ip rest).Keeps l
  | .truncating ip rest, l | .freeing ip rest, l | .dropping ip rest, l =>
    (Program.iput ip rest).Keeps l
  | .scanning type inum rest, l =>
    type ≠ .free ∧ inum ≠ 0 ∧ l.fresh = none ∧
      ∀ ip inum, inum ≠ 0 → (rest ip).Keeps { l.gain ip inum with fresh := some (inum, type) }
  | .marked type inum rest, l =>
    l.fresh = some (inum, type) ∧ (∀ ref ∈ l.refs, ref.inum ≠ inum) ∧
      ∀ ip, (rest ip).Keeps (l.gain ip inum)

end Xv6.Fs
