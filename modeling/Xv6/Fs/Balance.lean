import Xv6.Fs.Calls

/-!
# What a call takes, it gives back

The references and locks that a process has taken in a call, and whether it is in a
transaction. A program is balanced when it gives up only what it has and has nothing left at
its end, whatever its steps find. Nothing is asked of the directories: this is about the
shape of the calls alone. A process in `begin_op` or `end_op` has no inode locked.
-/

namespace Xv6.Fs

open Multiset

/-- What a process has taken. -/
structure Holding where
  refs : Multiset (Fin ninode)
  locks : Multiset (Fin ninode)
  /-- Between `begin_op` and `end_op`. -/
  inOp : Bool
  /-- The process has no current directory. -/
  away : Bool

namespace Holding

def take (h : Holding) (ip : Fin ninode) : Holding := { h with refs := ip ::ₘ h.refs }

def lock (h : Holding) (ip : Fin ninode) : Holding := { h with locks := ip ::ₘ h.locks }

/-- A process between two calls. -/
def nothing (away : Bool) : Holding := ⟨0, 0, false, away⟩

end Holding

variable {P : Type}

/-- The program gives back what it takes. -/
def Program.Balanced : Program P → Holding → Prop
  | .idle, h => h.refs = 0 ∧ h.locks = 0 ∧ h.inOp = false
  | .panic _, _ => True
  | .beginOp rest, h => h.inOp = false ∧ h.locks = 0 ∧ rest.Balanced { h with inOp := true }
  | .endOp rest, h => h.inOp = true ∧ h.locks = 0 ∧ rest.Balanced { h with inOp := false }
  | .iget _ rest, h | .idup rest, h | .ialloc _ _ rest, h => ∀ ip, (rest ip).Balanced (h.take ip)
  | .ilock ip rest, h => rest.Balanced (h.lock ip)
  | .iunlock ip rest, h => ∃ locks, h.locks = ip ::ₘ locks ∧ rest.Balanced { h with locks }
  | .iput ip rest, h | .openFile ip _ rest, h =>
    ∃ refs, h.refs = ip ::ₘ refs ∧ rest.Balanced { h with refs }
  | .read _ rest, h => ∀ node, (rest node).Balanced h
  | .dirlookup _ _ rest, h =>
    (rest none).Balanced h ∧ ∀ ip off, (rest (some (ip, off))).Balanced (h.take ip)
  | .isdirempty _ rest, h => ∀ empty, (rest empty).Balanced h
  | .enter _ _ _ rest, h | .clear _ _ rest, h | .setup _ _ _ rest, h | .link _ rest, h
  | .unlink _ rest, h | .fork _ rest, h | .useFile _ _ rest, h | .leaveFile rest, h =>
    rest.Balanced h
  | .writei _ _ _ rest, h => ∀ result, (rest result).Balanced h
  | .takeCwd rest, h => ∀ ip, (rest ip).Balanced { h.take ip with away := true }
  | .setCwd ip rest, h =>
    h.away = true ∧ ∃ refs, h.refs = ip ::ₘ refs ∧ rest.Balanced { h with refs, away := false }
  | .fileclose ip _ rest, h => rest.Balanced (h.take ip)

/-- The process gives back what it has taken from where it is. -/
def Pc.Balanced : Pc P → Holding → Prop
  | .run program, h => program.Balanced h
  | .loading ip rest, h => rest.Balanced (h.lock ip)
  | .truncating ip rest, h | .freeing ip rest, h | .dropping ip rest, h =>
    (Program.iput ip rest).Balanced h
  | .scanning _ _ rest, h | .marked _ _ rest, h => ∀ ip, (rest ip).Balanced (h.take ip)

namespace Program

variable {h : Holding} {rest : Program P} {ip dp : Fin ninode} {name : Name}

/-! ## The parts that calls share -/

theorem balanced_iunlockput (refs locks : Multiset (Fin ninode))
    (hasRef : h.refs = ip ::ₘ refs) (hasLock : h.locks = ip ::ₘ locks)
    (later : rest.Balanced { h with refs, locks }) : (iunlockput ip rest).Balanced h :=
  ⟨locks, hasLock, refs, hasRef, later⟩

theorem balanced_namex (parent : Bool) (found : Option (Fin ninode × Name) → Program P)
    (none : (found none).Balanced h)
    (some : ∀ ip name, (found (some (ip, name))).Balanced (h.take ip)) :
    ∀ (path : List Name) (name : Name) (ip : Fin ninode),
      (namex parent found path name ip).Balanced (h.take ip) := by
  intro path
  induction path with
  | nil =>
    intro name ip
    rw [namex]
    split
    · exact ⟨h.refs, rfl, none⟩
    · exact some ip name
  | cons elem path ih =>
    intro name ip node
    dsimp only
    split
    · exact balanced_iunlockput h.refs h.locks rfl rfl none
    · split
      · exact ⟨h.locks, rfl, some ip elem⟩
      · refine ⟨balanced_iunlockput h.refs h.locks rfl rfl none, fun next off => ?_⟩
        exact balanced_iunlockput (next ::ₘ h.refs) h.locks (cons_swap ..) rfl
          (ih elem next)

theorem balanced_walk (parent : Bool) (path : Path) (found : Option (Fin ninode × Name) → Program P)
    (none : (found none).Balanced h)
    (some : ∀ ip name, (found (some (ip, name))).Balanced (h.take ip)) :
    (walk parent path found).Balanced h := by
  rw [walk]
  split
  · exact fun ip => balanced_namex parent found none some path.elems .dot ip
  · exact fun ip => balanced_namex parent found none some path.elems .dot ip

theorem balanced_namei (path : Path) (found : Option (Fin ninode) → Program P)
    (none : (found none).Balanced h) (some : ∀ ip, (found (some ip)).Balanced (h.take ip)) :
    (namei path found).Balanced h :=
  balanced_walk false path _ none fun ip _ => some ip

theorem balanced_dirlink {done : Bool → Program P} (each : ∀ added, (done added).Balanced h) :
    (dirlink dp name ip done).Balanced h :=
  ⟨each true, fun _ _ => ⟨h.refs, rfl, each false⟩⟩

theorem balanced_createEntry {made : Option (Fin ninode) → Program P}
    (some : (made (some ip)).Balanced ((h.take ip).lock ip)) :
    (createEntry dp name ip made).Balanced ((((h.take dp).lock dp).take ip).lock ip) := by
  refine balanced_dirlink fun added => ?_
  cases added with
  | false => trivial
  | true =>
    exact balanced_iunlockput (ip ::ₘ h.refs) (ip ::ₘ h.locks) (cons_swap ..)
      (cons_swap ..) some

theorem balanced_createDots (later : rest.Balanced h) : (createDots dp ip rest).Balanced h := by
  rw [createDots, Balanced]
  refine balanced_dirlink fun added => ?_
  cases added with
  | false => trivial
  | true =>
    refine balanced_dirlink fun added => ?_
    cases added with
    | false => trivial
    | true => exact later

theorem balanced_create (path : Path) (type : FileType) (major minor : UInt16)
    (made : Option (Fin ninode) → Program P) (none : (made none).Balanced h)
    (some : ∀ ip, (made (some ip)).Balanced ((h.take ip).lock ip)) :
    (create path type major minor made).Balanced h := by
  refine balanced_walk true path _ none fun dp name => ⟨fun ip => ?_, fun ip off => ?_⟩
  · show (if type = .dir then _ else _ : Program P).Balanced _
    split
    · exact balanced_createDots (balanced_createEntry (some ip))
    · exact balanced_createEntry (some ip)
  · refine balanced_iunlockput (ip ::ₘ h.refs) h.locks (cons_swap ..) rfl fun node => ?_
    dsimp only
    split
    · exact some ip
    · exact balanced_iunlockput h.refs h.locks rfl rfl none

/-! ## The calls -/

/-- The end of a call that gives up the one inode it has. -/
theorem balanced_finish (ip : Fin ninode) (away : Bool) :
    (iunlockput ip <| .endOp .idle : Program P).Balanced ⟨{ip}, {ip}, true, away⟩ :=
  balanced_iunlockput 0 0 rfl rfl ⟨rfl, rfl, rfl, rfl, rfl⟩

theorem balanced_openInode (omode : Nat) (room : Bool) (ip : Fin ninode) (away : Bool) :
    (openInode omode room ip : Program P).Balanced ⟨{ip}, {ip}, true, away⟩ := by
  rw [openInode]
  split
  · exact ⟨0, rfl, rfl, rfl, 0, rfl, rfl, rfl, rfl⟩
  · exact balanced_finish ip away

theorem balanced_sysOpen (path : Path) (omode : Nat) (room : Bool) :
    (sysOpen path omode room : Program P).Balanced (.nothing false) := by
  refine ⟨rfl, rfl, ?_⟩
  split
  · refine balanced_create path .file 0 0 _ ⟨rfl, rfl, rfl, rfl, rfl⟩ fun ip => ?_
    exact balanced_openInode omode room ip false
  · refine balanced_namei path _ ⟨rfl, rfl, rfl, rfl, rfl⟩ fun ip node => ?_
    dsimp only
    split
    · exact balanced_finish ip false
    · exact balanced_openInode omode room ip false

/-- `sys_mkdir` and `sys_mknod`. -/
theorem balanced_make (path : Path) (type : FileType) (major minor : UInt16) :
    (.beginOp <| create path type major minor fun
      | none => .endOp .idle
      | some ip => iunlockput ip <| .endOp .idle : Program P).Balanced (.nothing false) := by
  refine ⟨rfl, rfl, balanced_create path type major minor _ ⟨rfl, rfl, rfl, rfl, rfl⟩ fun ip => ?_⟩
  exact balanced_finish ip false

theorem balanced_linkBad (ip : Fin ninode) (away : Bool) :
    (linkBad ip : Program P).Balanced ⟨{ip}, 0, true, away⟩ :=
  balanced_finish ip away

theorem balanced_sysLink (old new : Path) :
    (sysLink old new : Program P).Balanced (.nothing false) := by
  refine ⟨rfl, rfl, balanced_namei old _ ⟨rfl, rfl, rfl, rfl, rfl⟩ fun ip node => ?_⟩
  dsimp only
  split
  · exact balanced_finish ip false
  · refine ⟨0, rfl, balanced_walk true new _ (balanced_linkBad ip false) fun dp name => ?_⟩
    dsimp only
    rw [Balanced]
    refine balanced_dirlink fun added => ?_
    cases added with
    | false => exact balanced_iunlockput {ip} 0 rfl rfl (balanced_linkBad ip false)
    | true => exact balanced_iunlockput {ip} 0 rfl rfl ⟨0, rfl, rfl, rfl, rfl, rfl, rfl⟩

theorem balanced_unlinkEntry (dp : Fin ninode) (off : Nat) (ip : Fin ninode) (type : FileType)
    (away : Bool) :
    (unlinkEntry dp off ip type : Program P).Balanced ⟨ip ::ₘ {dp}, ip ::ₘ {dp}, true, away⟩ := by
  have finish : (iunlockput dp <| .unlink ip <| iunlockput ip <| .endOp .idle : Program P).Balanced
      ⟨ip ::ₘ {dp}, ip ::ₘ {dp}, true, away⟩ := by
    refine balanced_iunlockput {ip} {ip} (cons_swap ip dp 0) (cons_swap ip dp 0) ?_
    exact balanced_finish ip away
  show (if type = .dir then _ else _ : Program P).Balanced _
  split
  · exact finish
  · exact finish

theorem balanced_sysUnlink (path : Path) :
    (sysUnlink path : Program P).Balanced (.nothing false) := by
  refine ⟨rfl, rfl, balanced_walk true path _ ⟨rfl, rfl, rfl, rfl, rfl⟩ fun dp name => ?_⟩
  show (if name = .dot ∨ name = .dotdot then _ else _ : Program P).Balanced _
  split
  · exact balanced_finish dp false
  · refine ⟨balanced_finish dp false, fun ip off node => ?_⟩
    dsimp only
    split
    · trivial
    · split
      · intro empty
        dsimp only
        split
        · exact balanced_unlinkEntry dp off ip .dir false
        · exact balanced_iunlockput {dp} {dp} rfl rfl (balanced_finish dp false)
      · exact balanced_unlinkEntry dp off ip node.type false

theorem balanced_sysChdir (path : Path) :
    (sysChdir path : Program P).Balanced (.nothing false) := by
  refine ⟨rfl, rfl, balanced_namei path _ ⟨rfl, rfl, rfl, rfl, rfl⟩ fun ip node => ?_⟩
  dsimp only
  split
  · exact balanced_finish ip false
  · exact ⟨0, rfl, fun old => ⟨{ip}, rfl, rfl, rfl, rfl, 0, rfl, rfl, rfl, rfl⟩⟩

theorem balanced_device (locks : Multiset (Fin ninode)) (hasLock : h.locks = ip ::ₘ locks)
    (later : rest.Balanced h) : (device ip rest).Balanced h := by
  refine ⟨locks, hasLock, ?_⟩
  have same : ({ h with locks } : Holding).lock ip = h := by
    rw [Holding.lock, ← hasLock]
  show rest.Balanced _
  rw [same]
  exact later

theorem balanced_readi (locks : Multiset (Fin ninode)) (hasLock : h.locks = ip ::ₘ locks)
    (later : rest.Balanced h) (times : Nat) : (readi ip times rest).Balanced h := by
  induction times with
  | zero => exact later
  | succ times ih =>
    intro node
    dsimp only
    split
    · exact balanced_device locks hasLock ih
    · exact ih

theorem balanced_exec (path : Path) (reads : Nat) :
    (exec path reads : Program P).Balanced (.nothing false) := by
  refine ⟨rfl, rfl, balanced_namei path _ ⟨rfl, rfl, rfl, rfl, rfl⟩ fun ip => ?_⟩
  exact balanced_readi 0 rfl (balanced_finish ip false) reads

theorem balanced_sysRead (ip : Fin ninode) (writable : Bool) :
    (sysRead ip writable : Program P).Balanced (.nothing false) := by
  have finish : (.iunlock ip <| .leaveFile .idle : Program P).Balanced ⟨0, {ip}, false, false⟩ :=
    ⟨0, rfl, rfl, rfl, rfl⟩
  exact balanced_readi 0 rfl finish 1

theorem balanced_filewrite (ip : Fin ninode) (sizes : List Nat) :
    ∀ off, (filewrite ip off sizes : Program P).Balanced (.nothing false) := by
  induction sizes with
  | nil => exact fun _ => ⟨rfl, rfl, rfl⟩
  | cons n sizes ih =>
    intro off
    have done : ∀ result, (writeDone ip n (fun r => filewrite ip (off + r) sizes) result :
        Program P).Balanced ⟨0, {ip}, true, false⟩ := by
      intro result
      refine ⟨0, rfl, rfl, rfl, ?_⟩
      cases result with
      | none => exact ⟨rfl, rfl, rfl⟩
      | some r =>
        show (if r ≠ n then _ else _ : Program P).Balanced _
        split
        · trivial
        · exact ih (off + r)
    refine ⟨rfl, rfl, fun node => ?_⟩
    dsimp only
    split
    · split
      · exact balanced_device 0 rfl (done (some n))
      · exact done none
    · exact done

end Program

/-- Every call gives back what it takes. -/
theorem Call.balanced (c : Call P) : c.program.Balanced (.nothing c.starts) := by
  cases c with
  | userinit => exact fun ip => ⟨rfl, 0, rfl, rfl, rfl, rfl⟩
  | fork child => exact ⟨rfl, rfl, rfl⟩
  | exit => exact ⟨rfl, rfl, fun old => ⟨0, rfl, rfl, rfl, rfl, rfl, rfl⟩⟩
  | «open» path omode room => exact Program.balanced_sysOpen path omode room
  | mkdir path => exact Program.balanced_make path .dir 0 0
  | mknod path major minor => exact Program.balanced_make path .dev major minor
  | link old new => exact Program.balanced_sysLink old new
  | unlink path => exact Program.balanced_sysUnlink path
  | chdir path => exact Program.balanced_sysChdir path
  | exec path reads => exact Program.balanced_exec path reads
  | close ip writable => exact ⟨rfl, rfl, 0, rfl, rfl, rfl, rfl, rfl, rfl⟩
  | read ip writable => exact Program.balanced_sysRead ip writable
  | fstat ip writable => exact ⟨0, rfl, rfl, rfl, rfl⟩
  | write ip off n => exact Program.balanced_filewrite ip (Program.chunks n) off
  | unfetched => exact ⟨rfl, rfl, rfl, rfl, rfl, rfl, rfl⟩
  | fileref => exact ⟨rfl, rfl, rfl⟩

end Xv6.Fs
