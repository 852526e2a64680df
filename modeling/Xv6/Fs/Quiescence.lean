import Xv6.Fs.Accounts
import Xv6.Fs.Counts

/-!
# The inode layer at rest

Every step keeps the counts of the kernel in step with what the processes have taken, and
calls are balanced. So nothing is left when no call is in progress: the references are those
of open files and current directories, no inode is busy and no operation is outstanding.
-/

namespace Xv6.Fs

open Function Fs.System Holding

variable {P : Type} [Fintype P] [DecidableEq P] {s t : System P} {h : P → Holding} {p : P}

/-! ## The steps of a call -/

/-- `iput`, up to the point where it truncates the inode. -/
theorem Accounts.iput (accounts : Accounts s h) {program rest : Program P} {ip : Fin ninode}
    (isAt : s.pc p = .run program) (active : program ≠ .idle)
    (mine : (Program.iput ip rest).Balanced (h p))
    (stepped : s.iput p ip rest = .ok (some t)) : Accounted t := by
  have calm : Calm s p := by
    rw [Calm, isAt]
    rfl
  have isActive : s.pc p ≠ .run .idle := by
    rw [isAt]
    simpa using active
  obtain ⟨refs, hasRef, later⟩ := id mine
  rw [System.iput] at stepped
  split at stepped
  · split at stepped
    · cases stepped
    · cases stepped
      exact accounts.lock .truncating rfl isActive calm mine
  · cases stepped
    refine accounts.put hasRef rest isActive later _ rfl id fun other _ has => ?_
    rw [isAt, Pc.has_run] at has
    exact has

/-- The next function that a process calls. -/
theorem Accounts.begin (accounts : Accounts s h) {program : Program P}
    (isAt : s.pc p = .run program) {balloc : Supply}
    (stepped : s.begin p balloc program = .ok (some t)) : Accounted t := by
  have mine := accounts.balanced p
  rw [isAt] at mine
  have calm : Calm s p := by
    rw [Calm, isAt]
    rfl
  have busy : program ≠ .idle := by
    rintro rfl
    cases stepped
  have active : s.pc p ≠ .run .idle := by
    rw [isAt]
    simpa using busy
  cases program with
  | idle => cases stepped
  | panic message => cases stepped
  | beginOp rest =>
    cases stepped
    obtain ⟨notIn, -, later⟩ := mine
    refine accounts.ops isAt busy (s.outstanding + 1) true ?_ later
    simp [Holding.ops, notIn]
  | endOp rest =>
    cases stepped
    obtain ⟨isIn, -, later⟩ := mine
    refine accounts.ops isAt busy (s.outstanding - 1) false ?_ later
    have mineToo := Sums.le_of_mem (fun q => (h q).ops) (Finset.mem_univ p)
    rw [← accounts.outstanding] at mineToo
    simp only [Holding.ops, isIn, if_true, Bool.false_eq_true, if_false] at mineToo ⊢
    omega
  | iget inum rest => exact accounts.iget calm active mine stepped
  | idup rest =>
    simp only [System.begin] at stepped
    split at stepped
    · cases stepped
    · rename_i ip isCwd
      cases stepped
      refine accounts.take calm active (rest ip) (mine ip) rfl (fun other => ?_) fun other => ?_
      · by_cases same : ip = other
        · subst same
          simp [setRef, setInode]
        · simp [setRef, setInode, update_of_ne (Ne.symm same), same]
      · by_cases same : other = ip
        · subst same
          simp [setRef, setInode]
        · simp [setRef, setInode, update_of_ne same]
  | ilock ip rest =>
    simp only [System.begin] at stepped
    split at stepped
    · cases stepped
    · split at stepped
      · cases stepped
      · cases stepped
        exact accounts.lock .loading rfl active calm mine
  | iunlock ip rest =>
    obtain ⟨locks, hasLock, later⟩ := mine
    simp only [System.begin] at stepped
    split at stepped
    · cases stepped
    · cases stepped
      exact accounts.unlock hasLock active calm later
  | iput ip rest => exact accounts.iput isAt busy mine stepped
  | ialloc dp type rest =>
    cases stepped
    refine accounts.alike (.refl s) (.scanning type 1 rest) active mine fun ip has => ?_
    rw [isAt, Pc.has_run] at has
    exact Or.inl has
  | read ip rest =>
    cases stepped
    exact accounts.goOn isAt busy (.refl s) (mine _)
  | dirlookup dp name rest =>
    simp only [System.begin] at stepped
    split at stepped
    · cases stepped
    · split at stepped
      · cases stepped
        exact accounts.goOn isAt busy (.refl s) mine.1
      · rename_i off inum found
        exact accounts.iget calm active (fun ip => mine.2 ip off) stepped
  | isdirempty dp rest =>
    cases stepped
    exact accounts.goOn isAt busy (.refl s) (mine _)
  | enter dp name ip rest =>
    simp only [System.begin] at stepped
    split at stepped
    · cases stepped
    · rename_i wrote
      cases stepped
      exact accounts.goOn isAt busy (.writeEntry wrote) mine
  | clear dp off rest =>
    simp only [System.begin] at stepped
    split at stepped
    · cases stepped
    · rename_i wrote
      cases stepped
      exact accounts.goOn isAt busy (.writeEntry wrote) mine
  | setup ip major minor rest =>
    cases stepped
    exact accounts.goOn isAt busy (.update s ip _) mine
  | link ip rest =>
    cases stepped
    exact accounts.goOn isAt busy (.update s ip _) mine
  | unlink ip rest =>
    cases stepped
    exact accounts.goOn isAt busy (.update s ip _) mine
  | writei ip off n rest =>
    simp only [System.begin] at stepped
    split at stepped
    · cases stepped
      exact accounts.goOn isAt busy (.refl s) (mine none)
    · cases stepped
      exact accounts.goOn isAt busy (.write s ip _) (mine (some n))
  | takeCwd rest =>
    simp only [System.begin] at stepped
    split at stepped
    · cases stepped
    · rename_i ip isCwd
      cases stepped
      refine accounts.trade calm { (h p).take ip with away := true } (rest ip) rfl rfl rfl (mine ip) ?_
        ?_ (fun _ => id) rfl fun _ => update_self ..
      · intro q other
        exact update_of_ne other ..
      · intro other
        have moved : counts { (h p).take ip with away := true } none other =
            (h p).counts (some ip) other := by
          simp [counts, Holding.take, Multiset.count_cons, eq_comm (a := ip)]
        simp only [goto, opens, update_self, isCwd, moved]
  | setCwd ip rest =>
    cases stepped
    obtain ⟨isAway, refs, hasRef, later⟩ := mine
    have none := (accounts.away p isAway).resolve_right active
    refine accounts.trade calm { h p with refs, away := false } rest rfl rfl rfl later ?_ ?_
      (fun _ => id) rfl (by rintro ⟨⟩)
    · intro q other
      exact update_of_ne other ..
    · intro other
      have moved : counts { h p with refs, away := false } (some ip) other =
          (h p).counts Option.none other := by
        simp [counts, hasRef, Multiset.count_cons, eq_comm (a := ip)]
      simp only [goto, opens, update_self, none, moved]
  | fork child rest =>
    simp only [System.begin] at stepped
    split at stepped
    · rename_i ip isCwd none idle
      cases stepped
      exact accounts.fork isAt isCwd none idle
    · cases stepped
  | openFile ip writable rest =>
    cases stepped
    obtain ⟨refs, hasRef, later⟩ := mine
    refine accounts.trade calm { h p with refs } rest rfl rfl rfl later (fun _ _ => rfl) ?_
      (fun _ => id) rfl fun isAway => (accounts.away p isAway).resolve_right active
    intro other
    rw [counts_cons hasRef]
    simp only [goto, opens, List.countP_cons, decide_eq_true_eq, eq_comm (a := other)]
    omega
  | fileclose ip writable rest =>
    simp only [System.begin] at stepped
    split at stepped
    · rename_i isOpen
      cases stepped
      refine accounts.trade calm ((h p).take ip) rest rfl rfl rfl mine (fun _ _ => rfl) ?_
        (fun _ => id) rfl fun isAway => (accounts.away p isAway).resolve_right active
      intro other
      have perm := (List.perm_cons_erase isOpen.1).countP_eq fun file => decide (file.1 = other)
      rw [List.countP_cons] at perm
      simp only [decide_eq_true_eq] at perm
      simp only [goto, opens, counts_take]
      omega
    · cases stepped
  | useFile ip writable rest =>
    simp only [System.begin] at stepped
    split at stepped
    · cases stepped
      exact accounts.goOn isAt busy
        ⟨fun _ => rfl, fun _ => rfl, rfl, rfl, rfl, rfl⟩ mine
    · cases stepped
  | leaveFile rest =>
    cases stepped
    exact accounts.goOn isAt busy ⟨fun _ => rfl, fun _ => rfl, rfl, rfl, rfl, rfl⟩ mine

/-- A process goes on. -/
theorem Accounts.next (accounts : Accounts s h) {balloc : Supply}
    (stepped : s.next p balloc = .ok (some t)) : Accounted t := by
  have mine := accounts.balanced p
  rw [System.next] at stepped
  split at stepped
  · rename_i program isAt
    exact accounts.begin isAt stepped
  · rename_i ip rest isAt
    rw [isAt] at mine
    split at stepped
    · cases stepped
      exact accounts.loaded isAt (.refl s)
    · split at stepped
      · cases stepped
      · cases stepped
        exact accounts.loaded isAt (.setInode ip _ rfl rfl)
  · rename_i ip rest isAt
    rw [isAt] at mine
    cases stepped
    refine accounts.alike (.itrunc s ip) (.freeing ip rest) (by rw [isAt]; rintro ⟨⟩) mine ?_
    rintro other (has | ⟨phase, inPhase⟩)
    · exact Or.inl has
    · rw [isAt] at inPhase
      cases inPhase
      exact Or.inr ⟨.freeing, rfl⟩
  · rename_i ip rest isAt
    rw [isAt] at mine
    cases stepped
    refine accounts.alike (.update s ip _) (.dropping ip rest) (by rw [isAt]; rintro ⟨⟩) mine ?_
    rintro other (has | ⟨phase, inPhase⟩)
    · exact Or.inl has
    · rw [isAt] at inPhase
      cases inPhase
      exact Or.inr ⟨.dropping, rfl⟩
  · rename_i ip rest isAt
    rw [isAt] at mine
    obtain ⟨refs, hasRef, later⟩ := mine
    cases stepped
    refine accounts.put hasRef rest (by rw [isAt]; rintro ⟨⟩) later _ rfl (by rintro ⟨⟩) ?_
    rintro other isBusy (has | ⟨phase, inPhase⟩)
    · exact has
    · rw [isAt] at inPhase
      cases inPhase
      simp [setInode] at isBusy
  · rename_i type inum rest isAt
    rw [isAt] at mine
    have has : ∀ pc : Pc P, ∀ ip, (s.pc p).Has (h p) ip → pc.Has (h p) ip := by
      rintro pc ip (has | ⟨phase, inPhase⟩)
      · exact Or.inl has
      · rw [isAt] at inPhase
        cases inPhase
    split at stepped
    · split at stepped
      · cases stepped
        exact accounts.alike ((Alike.refl s).disk _ _) (.marked type inum rest) (by rw [isAt]; rintro ⟨⟩)
          mine (has _)
      · cases stepped
        exact accounts.alike (.refl s) (.scanning type (inum + 1) rest) (by rw [isAt]; rintro ⟨⟩) mine
          (has _)
    · cases stepped
  · rename_i type inum rest isAt
    rw [isAt] at mine
    refine accounts.iget ?_ (by rw [isAt]; rintro ⟨⟩) mine stepped
    rw [Calm, isAt]
    rfl

/-- A process makes a call. -/
theorem Accounts.call (accounts : Accounts s h) {c : Call P} (idle : s.pc p = .run .idle)
    (there : (s.cwd p).isNone = c.starts) : Accounted (s.goto p (.run c.program)) := by
  have spent := accounts.balanced p
  rw [idle] at spent
  obtain ⟨noRefs, noLocks, notIn⟩ := spent
  refine accounts.change (.nothing c.starts) (.run c.program) rfl c.balanced (fun _ _ => rfl) ?_ ?_ ?_ ?_
  · intro ip
    simp only [counts, nothing, noRefs]
    rfl
  · intro ip isBusy
    refine Or.inl ⟨isBusy, fun has => ?_⟩
    rw [idle, Pc.has_run, noLocks] at has
    exact absurd has (Multiset.notMem_zero ip)
  · simp only [Holding.ops, nothing, notIn]
    rfl
  · intro isAway
    have none : (s.cwd p).isNone = true := there.trans isAway
    exact Or.inl (Option.isNone_iff_eq_none.mp none)

/-- Every step keeps the accounts. -/
theorem Accounted.step {event : Event P} (accounted : Accounted s)
    (stepped : s.step event = .ok (some t)) : Accounted t := by
  obtain ⟨h, accounts⟩ := accounted
  cases event with
  | call p c =>
    simp only [System.step] at stepped
    split at stepped
    · rename_i idle
      split at stepped
      · rename_i there
        cases stepped
        exact accounts.call idle there
      · cases stepped
    · cases stepped
  | next p balloc => exact accounts.next stepped

omit [DecidableEq P] in
/-- At boot nobody has anything. -/
theorem Accounted.boot (image : Image) : Accounted (System.boot image : System P) := by
  refine ⟨fun _ => .nothing true, fun ip => ?_, by rintro _ ⟨⟩, ?_, fun _ _ => Or.inl rfl, fun _ => ⟨rfl, rfl, rfl⟩⟩
  · simp [System.boot, opens, counts, nothing]
  · simp [System.boot, ops, nothing]

/-- After any calls on any disk, when no call is in progress: the references to every inode
of the cache are those of open files and current directories, no inode is busy and no
operation is outstanding. -/
theorem inode_layer_balanced (image : Image) (events : List (Event P)) (s : System P)
    (ran : (System.boot image).run events = some s) (quiet : ∀ p, s.pc p = .run .idle) :
    (∀ ip, (s.inode ip).ref = (s.files.countP fun file => file.1 = ip) +
      (Finset.univ.filter fun p => s.cwd p = some ip).card) ∧
    (∀ ip, (s.inode ip).busy = false) ∧ s.outstanding = 0 := by
  obtain ⟨h, accounts⟩ := Runs.always Accounted (fun before step => before.step step)
    (Accounted.boot image) ran
  have spent : ∀ p, (h p).refs = 0 ∧ (h p).locks = 0 ∧ (h p).inOp = false := by
    intro p
    have balanced := accounts.balanced p
    rw [quiet p] at balanced
    exact balanced
  refine ⟨fun ip => ?_, fun ip => ?_, ?_⟩
  · have each : ∀ p, (h p).counts (s.cwd p) ip = if s.cwd p = some ip then 1 else 0 := by
      intro p
      rw [Holding.counts, (spent p).1, Multiset.count_zero, Nat.zero_add]
    rw [accounts.counted ip, Finset.sum_congr rfl fun p _ => each p, Finset.card_filter,
      System.opens, Nat.add_comm]
  · rw [Bool.eq_false_iff]
    intro isBusy
    obtain ⟨p, has⟩ := accounts.busy ip isBusy
    rw [quiet p, Pc.has_run, (spent p).2.1] at has
    exact Multiset.notMem_zero ip has
  · rw [accounts.outstanding]
    refine Finset.sum_eq_zero fun p _ => ?_
    rw [Holding.ops, (spent p).2.2]
    rfl

/-- The first process opens `/a`, then fails to open it again for want of a file, and to open
what is not there. -/
def openedDir : List (Event (Fin 2)) :=
  madeDir ++ Event.whole 0 (.open ⟨true, [.named "a"]⟩ 0 true) 14 ++
    Event.whole 0 (.open ⟨true, [.named "a"]⟩ 0 false) 14 ++
    Event.whole 0 (.open ⟨true, [.named "b"]⟩ 0 true) 9

instance : NeZero ninode := ⟨by decide⟩

theorem inode_layer_balanced_openedDir :
    ∃ s, (System.boot emptyDisk).run openedDir = some s ∧ s.files = [(1, false)] ∧
      (s.inode 1).ref = 1 ∧ (∀ ip, (s.inode ip).busy = false) ∧ s.outstanding = 0 := by
  have opened : ((System.boot emptyDisk).run openedDir).map
      (fun s => (s.quiet, s.files, s.cwd)) =
      some (true, [(1, false)], fun p => if p = 0 then some 0 else none) := by
    decide +kernel
  obtain ⟨s, ran, isOpen⟩ := Option.map_eq_some_iff.mp opened
  obtain ⟨quiet, rest⟩ := Prod.mk.inj isOpen
  obtain ⟨files, cwd⟩ := Prod.mk.inj rest
  obtain ⟨refs, busy, outstanding⟩ :=
    inode_layer_balanced emptyDisk openedDir s ran (s.idle_of_quiet quiet)
  refine ⟨s, ran, files, ?_, busy, outstanding⟩
  rw [refs 1, files, cwd]
  decide

end Xv6.Fs
