import Xv6.Fs.Balance
import Xv6.Fs.References
import Xv6.Lib.Traced

/-!
# What the kernel counts

The counts of the inode cache and of the log are in step with what the processes have taken
in their calls. There is one lemma for each way in which a step of a process changes what it
has taken, together with the counts. Nothing is asked of the disk.
-/

namespace Xv6.Fs

open Function Fs.System

variable {P : Type} {ip : Fin ninode} {refs : Multiset (Fin ninode)} {program rest : Program P}

/-- The references of a process and of its current directory. -/
def Holding.counts (h : Holding) (cwd : Option (Fin ninode)) (ip : Fin ninode) : Nat :=
  h.refs.count ip + if cwd = some ip then 1 else 0

theorem Holding.counts_cons {h : Holding} (hasRef : h.refs = ip ::ₘ refs)
    (cwd : Option (Fin ninode)) (other : Fin ninode) :
    h.counts cwd other =
      Holding.counts { h with refs } cwd other + if other = ip then 1 else 0 := by
  simp only [counts, hasRef, Multiset.count_cons]
  omega

theorem Holding.counts_take (h : Holding) (ip : Fin ninode) (cwd : Option (Fin ninode))
    (other : Fin ninode) :
    (h.take ip).counts cwd other = h.counts cwd other + if ip = other then 1 else 0 := by
  rw [counts_cons (h := h.take ip) rfl]
  simp only [eq_comm (a := other)]
  rfl

/-- The operations that a process has begun and not ended. -/
def Holding.ops (h : Holding) : Nat := if h.inOp then 1 else 0

/-- The process has made the inode busy. -/
def Pc.Has (pc : Pc P) (h : Holding) (ip : Fin ninode) : Prop :=
  ip ∈ h.locks ∨ ∃ phase, pc.phase = some (phase, ip)

theorem Pc.has_run {h : Holding} : (Pc.run program).Has h ip ↔ ip ∈ h.locks := by
  simp [Pc.Has, Pc.phase]

/-- The open files that have a reference to an entry of the cache. -/
def System.opens (s : System P) (ip : Fin ninode) : Nat := s.files.countP fun file => file.1 = ip

variable [Fintype P]

/-- The counts of the kernel are those of the processes. -/
structure Accounts (s : System P) (h : P → Holding) : Prop where
  counted : ∀ ip, (s.inode ip).ref = ∑ p, (h p).counts (s.cwd p) ip + s.opens ip
  busy : ∀ ip, (s.inode ip).busy = true → ∃ p, (s.pc p).Has (h p) ip
  outstanding : s.outstanding = ∑ p, (h p).ops
  away : ∀ p, (h p).away = true → s.cwd p = none ∨ s.pc p = .run .idle
  balanced : ∀ p, (s.pc p).Balanced (h p)

/-- There are such accounts. -/
def Accounted (s : System P) : Prop := ∃ h, Accounts s h

variable [DecidableEq P] {s t u : System P} {h : P → Holding} {p : P}

/-- What a process has taken changes, together with the counts of the kernel. -/
theorem Accounts.change (accounts : Accounts s h) (now : Holding) (pc : Pc P)
    (moved : t.pc = update s.pc p pc) (mine : pc.Balanced now)
    (cwd : ∀ q, q ≠ p → t.cwd q = s.cwd q)
    (refs : ∀ ip, (t.inode ip).ref + ((h p).counts (s.cwd p) ip + s.opens ip) =
      (s.inode ip).ref + (now.counts (t.cwd p) ip + t.opens ip))
    (busy : ∀ ip, (t.inode ip).busy = true →
      (s.inode ip).busy = true ∧ ((s.pc p).Has (h p) ip → pc.Has now ip) ∨ pc.Has now ip)
    (outstanding : t.outstanding + (h p).ops = s.outstanding + now.ops)
    (away : now.away = true → t.cwd p = none ∨ pc = .run .idle) : Accounted t := by
  refine ⟨update h p now, ?_, ?_, ?_, ?_, ?_⟩
  · intro ip
    have sums := Sums.change (fun q => (h q).counts (s.cwd q) ip)
      (fun q => (update h p now q).counts (t.cwd q) ip) (Finset.mem_univ p)
      fun q _ other => by rw [update_of_ne other, cwd q other]
    rw [update_self] at sums
    have before := accounts.counted ip
    have change := refs ip
    omega
  · intro ip isBusy
    have ours : pc.Has now ip → ∃ q, (t.pc q).Has (update h p now q) ip := by
      intro has
      refine ⟨p, ?_⟩
      rw [moved, update_self, update_self]
      exact has
    rcases busy ip isBusy with ⟨before, stays⟩ | has
    · obtain ⟨q, has⟩ := accounts.busy ip before
      by_cases same : q = p
      · subst same
        exact ours (stays has)
      · refine ⟨q, ?_⟩
        rw [moved, update_of_ne same, update_of_ne same]
        exact has
    · exact ours has
  · have sums := Sums.change (fun q => (h q).ops) (fun q => (update h p now q).ops)
      (Finset.mem_univ p) fun q _ other => by rw [update_of_ne other]
    rw [update_self] at sums
    have before := accounts.outstanding
    omega
  · intro q isAway
    by_cases same : q = p
    · subst same
      rw [update_self] at isAway
      rw [moved, update_self]
      exact away isAway
    · rw [update_of_ne same] at isAway
      rw [moved, update_of_ne same, cwd q same]
      exact accounts.away q isAway
  · intro q
    rw [moved]
    by_cases same : q = p
    · subst same
      rw [update_self, update_self]
      exact mine
    · rw [update_of_ne same, update_of_ne same]
      exact accounts.balanced q

/-! ## Steps that leave the counts alone -/

omit [Fintype P] [DecidableEq P] in
/-- Nothing that is counted changes. -/
structure Alike (s t : System P) : Prop where
  ref : ∀ ip, (t.inode ip).ref = (s.inode ip).ref
  busy : ∀ ip, (t.inode ip).busy = (s.inode ip).busy
  cwd : t.cwd = s.cwd
  files : t.files = s.files
  outstanding : t.outstanding = s.outstanding
  pc : t.pc = s.pc

namespace Alike

omit [Fintype P] [DecidableEq P]

theorem refl (s : System P) : Alike s s := ⟨fun _ => rfl, fun _ => rfl, rfl, rfl, rfl, rfl⟩

theorem setInode (ip : Fin ninode) (value : Inode) (ref : value.ref = (s.inode ip).ref)
    (busy : value.busy = (s.inode ip).busy) : Alike s (s.setInode ip value) := by
  refine ⟨fun other => ?_, fun other => ?_, rfl, rfl, rfl, rfl⟩
  · simp only [System.setInode, update_apply]
    split
    · rename_i same
      rw [ref, same]
    · rfl
  · simp only [System.setInode, update_apply]
    split
    · rename_i same
      rw [busy, same]
    · rfl

/-- The entries and the inodes on the disk are not counted. -/
theorem disk (alike : Alike s t) (dinode : Nat → Dinode) (entries : Nat → List Dirent) :
    Alike s { t with dinode, entries } :=
  ⟨alike.ref, alike.busy, alike.cwd, alike.files, alike.outstanding, alike.pc⟩

theorem setCopy (s : System P) (ip : Fin ninode) (copy : Dinode) : Alike s (s.setCopy ip copy) :=
  setInode ip _ rfl rfl

theorem update (s : System P) (ip : Fin ninode) (copy : Dinode) :
    Alike s ((s.setCopy ip copy).iupdate ip) :=
  (setCopy s ip copy).disk _ _

theorem write (s : System P) (ip : Fin ninode) (written : Dinode × Bool) :
    Alike s (s.write ip written) := by
  rw [System.write]
  split
  · exact update s ip written.1
  · exact setCopy s ip written.1

theorem writeEntry {balloc : Supply} {dp : Fin ninode} {off : Nat} {de : Dirent}
    (wrote : s.writeEntry balloc dp off de = some t) : Alike s t := by
  obtain ⟨written, -, rfl⟩ := Option.map_eq_some_iff.mp wrote
  exact (write s dp written).disk _ _

theorem itrunc (s : System P) (ip : Fin ninode) : Alike s (s.itrunc ip) :=
  ((setCopy s ip _).disk _ _).disk _ _

end Alike

/-- A step that leaves the counts alone. -/
theorem Accounts.alike (accounts : Accounts s h) (alike : Alike s u) (pc : Pc P)
    (active : s.pc p ≠ .run .idle) (mine : pc.Balanced (h p))
    (has : ∀ ip, (s.pc p).Has (h p) ip → pc.Has (h p) ip) : Accounted (u.goto p pc) := by
  refine accounts.change (p := p) (h p) pc ?_ mine ?_ ?_ ?_ ?_ ?_
  · rw [← alike.pc]
    rfl
  · intro q _
    exact congrFun alike.cwd q
  · intro ip
    have ref := alike.ref ip
    simp only [goto, opens, alike.cwd, alike.files, ref]
  · intro ip isBusy
    have busy := alike.busy ip
    exact Or.inl ⟨busy ▸ isBusy, has ip⟩
  · simp only [goto, alike.outstanding]
  · intro isAway
    have none := (accounts.away p isAway).resolve_right active
    exact Or.inl ((congrFun alike.cwd p).trans none)

/-- A program that leaves the counts alone and goes on. -/
theorem Accounts.goOn (accounts : Accounts s h) (isAt : s.pc p = .run program)
    (active : program ≠ .idle) (alike : Alike s u) (mine : rest.Balanced (h p)) :
    Accounted (u.goto p (.run rest)) := by
  refine accounts.alike alike (.run rest) ?_ mine ?_
  · rw [isAt]
    simpa using active
  · intro ip
    rw [isAt, Pc.has_run, Pc.has_run]
    exact id

/-! ## Steps that take and give back -/

/-- `begin_op` and `end_op`. -/
theorem Accounts.ops (accounts : Accounts s h) (isAt : s.pc p = .run program)
    (active : program ≠ .idle) (count : Nat) (inOp : Bool)
    (change : count + (h p).ops = s.outstanding + Holding.ops { h p with inOp })
    (mine : rest.Balanced { h p with inOp }) :
    Accounted ({ s with outstanding := count }.goto p (.run rest)) := by
  refine accounts.change { h p with inOp } (.run rest) rfl mine (fun _ _ => rfl) (fun _ => rfl) ?_
    change ?_
  · intro ip isBusy
    refine Or.inl ⟨isBusy, fun has => ?_⟩
    rw [isAt, Pc.has_run] at has
    exact Pc.has_run.mpr has
  · intro isAway
    refine Or.inl ((accounts.away p isAway).resolve_right ?_)
    rw [isAt]
    simpa using active

/-- The references of a process change. -/
theorem Accounts.trade (accounts : Accounts s h) (calm : Calm s p) (now : Holding) (rest : Program P)
    (locks : now.locks = (h p).locks) (inOp : now.inOp = (h p).inOp)
    (moved : t.pc = update s.pc p (.run rest)) (mine : rest.Balanced now)
    (cwd : ∀ q, q ≠ p → t.cwd q = s.cwd q)
    (refs : ∀ ip, (t.inode ip).ref + ((h p).counts (s.cwd p) ip + s.opens ip) =
      (s.inode ip).ref + (now.counts (t.cwd p) ip + t.opens ip))
    (busy : ∀ ip, (t.inode ip).busy = true → (s.inode ip).busy = true)
    (outstanding : t.outstanding = s.outstanding)
    (away : now.away = true → t.cwd p = none) : Accounted t := by
  refine accounts.change now (.run rest) moved mine cwd refs ?_ ?_ fun isAway => Or.inl (away isAway)
  · intro ip isBusy
    refine Or.inl ⟨busy ip isBusy, fun has => Pc.has_run.mpr ?_⟩
    rcases has with has | ⟨phase, inPhase⟩
    · rw [locks]
      exact has
    · rw [calm] at inPhase
      cases inPhase
  · rw [outstanding, Holding.ops, Holding.ops, inOp]

/-- A process takes a reference. -/
theorem Accounts.take (accounts : Accounts s h) (calm : Calm s p) (active : s.pc p ≠ .run .idle)
    (rest : Program P) (mine : rest.Balanced ((h p).take ip))
    (same : u = { s with inode := u.inode })
    (ref : ∀ other, (u.inode other).ref = (s.inode other).ref + if ip = other then 1 else 0)
    (busy : ∀ other, (u.inode other).busy = true → (s.inode other).busy = true) :
    Accounted (u.goto p (.run rest)) := by
  have cwd : u.cwd = s.cwd := by rw [same]
  have files : u.files = s.files := by rw [same]
  refine accounts.trade calm ((h p).take ip) rest rfl rfl ?_ mine ?_ ?_ busy ?_ ?_
  · rw [same]
    rfl
  · intro q _
    exact congrFun cwd q
  · intro other
    have changed := ref other
    simp only [goto, opens, cwd, files, changed, Holding.counts_take]
    omega
  · rw [same]
    rfl
  · intro isAway
    exact (congrFun cwd p).trans ((accounts.away p isAway).resolve_right active)

/-- `iget`. -/
theorem Accounts.iget (accounts : Accounts s h) (calm : Calm s p) (active : s.pc p ≠ .run .idle)
    {inum : Nat} {rest : Fin ninode → Program P}
    (mine : ∀ ip, (rest ip).Balanced ((h p).take ip))
    (stepped : s.igetThen p inum rest = .ok (some t)) : Accounted t := by
  obtain ⟨⟨ip, u⟩, got, after⟩ := Except.of_bind_ok stepped
  cases after
  obtain ⟨gets, same⟩ := iget_gets got
  refine accounts.take calm active (rest ip) (mine ip) same gets.ref_eq fun other isBusy => ?_
  cases gets with
  | hit some isInode after =>
    rw [after, update_apply] at isBusy
    grind
  | miss none absent after =>
    rw [after, update_apply] at isBusy
    grind

section

variable (accounts : Accounts s h)

include accounts

omit [DecidableEq P] in
/-- What a process has a reference to is referenced. -/
theorem Accounts.ref_pos (mem : ip ∈ (h p).refs) :
    0 < (s.inode ip).ref := by
  have mine := Sums.le_of_mem (fun q => (h q).counts (s.cwd q) ip) (Finset.mem_univ p)
  have some : 0 < (h p).counts (s.cwd p) ip := Nat.add_pos_left (Multiset.count_pos.mpr mem) _
  rw [accounts.counted ip]
  omega

/-- A process that holds one reference more than it will hold gives it up. -/
theorem Accounts.put (hasRef : (h p).refs = ip ::ₘ refs)
    (rest : Program P) (active : s.pc p ≠ .run .idle) (mine : rest.Balanced { h p with refs })
    (value : Inode) (ref : value.ref = (s.inode ip).ref - 1)
    (busy : value.busy = true → (s.inode ip).busy = true)
    (has : ∀ other, ((s.setInode ip value).inode other).busy = true → (s.pc p).Has (h p) other →
      other ∈ (h p).locks) :
    Accounted ((s.setInode ip value).goto p (.run rest)) := by
  have pos : 0 < (s.inode ip).ref := accounts.ref_pos (hasRef ▸ Multiset.mem_cons_self ip refs)
  refine accounts.change (p := p) { h p with refs } (.run rest) rfl mine (fun _ _ => rfl) ?_ ?_ rfl ?_
  · intro other
    rw [Holding.counts_cons hasRef]
    simp only [goto, System.setInode, opens, update_apply]
    by_cases same : other = ip
    · subst same
      rw [if_pos rfl, if_pos rfl, ref]
      omega
    · rw [if_neg same, if_neg same]
      omega
  · intro other isBusy
    refine Or.inl ⟨?_, fun before => Pc.has_run.mpr (has other isBusy before)⟩
    simp only [goto, System.setInode, update_apply] at isBusy
    split at isBusy
    · rename_i same
      rw [same]
      exact busy isBusy
    · exact isBusy
  · intro isAway
    exact Or.inl ((accounts.away p isAway).resolve_right active)

/-- A process takes the lock of an inode, and is now at a point where it has made it busy. -/
theorem Accounts.lock {pc : Pc P} (phase : Phase)
    (inPhase : pc.phase = some (phase, ip)) (active : s.pc p ≠ .run .idle) (calm : Calm s p)
    (mine : pc.Balanced (h p)) : Accounted ((s.setBusy ip true).goto p pc) := by
  refine accounts.change (h p) pc rfl mine (fun _ _ => rfl) ?_ ?_ rfl ?_
  · intro other
    simp only [goto, setBusy, System.setInode, opens, update_apply]
    split
    · rename_i same
      rw [same]
    · rfl
  · intro other isBusy
    simp only [goto, setBusy, System.setInode, update_apply] at isBusy
    split at isBusy
    · rename_i same
      rw [same]
      exact Or.inr (Or.inr ⟨phase, inPhase⟩)
    · refine Or.inl ⟨isBusy, fun has => ?_⟩
      rcases has with has | ⟨phase, inPhase⟩
      · exact Or.inl has
      · rw [calm] at inPhase
        cases inPhase
  · intro isAway
    exact Or.inl ((accounts.away p isAway).resolve_right active)

/-- `ilock` has the inode in memory: from here on the lock is among those of the process. -/
theorem Accounts.loaded (isAt : s.pc p = .loading ip rest)
    (alike : Alike s u) : Accounted (u.goto p (.run rest)) := by
  have mine := accounts.balanced p
  rw [isAt] at mine
  refine accounts.change (p := p) ((h p).lock ip) (.run rest) ?_ mine ?_ ?_ ?_ ?_ ?_
  · rw [← alike.pc]
    rfl
  · intro q _
    exact congrFun alike.cwd q
  · intro other
    have ref := alike.ref other
    simp only [goto, opens, alike.cwd, alike.files, ref]
    rfl
  · intro other isBusy
    have busy := alike.busy other
    refine Or.inl ⟨busy ▸ isBusy, fun has => Pc.has_run.mpr (Multiset.mem_cons.mpr ?_)⟩
    rcases has with has | ⟨phase, inPhase⟩
    · exact Or.inr has
    · rw [isAt] at inPhase
      cases inPhase
      exact Or.inl rfl
  · simp only [goto, alike.outstanding]
    rfl
  · intro isAway
    have active : s.pc p ≠ .run .idle := by
      rw [isAt]
      rintro ⟨⟩
    have none := (accounts.away p isAway).resolve_right active
    exact Or.inl ((congrFun alike.cwd p).trans none)

/-- `iunlock`. -/
theorem Accounts.unlock {locks : Multiset (Fin ninode)}
    (hasLock : (h p).locks = ip ::ₘ locks) (active : s.pc p ≠ .run .idle) (calm : Calm s p)
    (mine : rest.Balanced { h p with locks }) :
    Accounted ((s.setBusy ip false).goto p (.run rest)) := by
  refine accounts.change { h p with locks } (.run rest) rfl mine (fun _ _ => rfl) ?_ ?_ rfl ?_
  · intro other
    simp only [goto, setBusy, System.setInode, opens, update_apply]
    split
    · rename_i same
      rw [same]
      rfl
    · rfl
  · intro other isBusy
    simp only [goto, setBusy, System.setInode, update_apply] at isBusy
    split at isBusy
    · cases isBusy
    · rename_i apart
      refine Or.inl ⟨isBusy, fun has => Pc.has_run.mpr ?_⟩
      rcases has with has | ⟨phase, inPhase⟩
      · rw [hasLock] at has
        exact (Multiset.mem_cons.mp has).resolve_left apart
      · rw [calm] at inPhase
        cases inPhase
  · intro isAway
    exact Or.inl ((accounts.away p isAway).resolve_right active)

/-- `fork`: the current directory of the child is counted. The child has nothing else. -/
theorem Accounts.fork {child : P}
    (isAt : s.pc p = .run (.fork child rest)) (isCwd : s.cwd p = some ip)
    (none : s.cwd child = none) (idle : s.pc child = .run .idle) :
    Accounted ({ s.setRef ip ((s.inode ip).ref + 1) with
      cwd := update s.cwd child (some ip) }.goto p (.run rest)) := by
  have apart : p ≠ child := by
    rintro rfl
    rw [isCwd] at none
    cases none
  have mine : rest.Balanced (h p) := by
    have balanced := accounts.balanced p
    rw [isAt] at balanced
    exact balanced
  refine ⟨h, ?_, ?_, accounts.outstanding, ?_, ?_⟩
  · intro other
    have sums := Sums.change (fun q => (h q).counts (s.cwd q) other)
      (fun q => (h q).counts (update s.cwd child (some ip) q) other)
      (Finset.mem_univ child) fun q _ isOther => by rw [update_of_ne isOther]
    rw [update_self, none] at sums
    have before := accounts.counted other
    have gained : (h child).counts (some ip) other =
        (h child).counts Option.none other + if ip = other then 1 else 0 := by
      simp [Holding.counts]
    simp only [goto, setRef, System.setInode, opens, update_apply] at *
    by_cases same : other = ip
    · subst same
      rw [if_pos rfl] at gained ⊢
      simp only
      omega
    · rw [if_neg (Ne.symm same)] at gained
      rw [if_neg same]
      omega
  · intro other isBusy
    have before : (s.inode other).busy = true := by
      simp only [goto, setRef, System.setInode, update_apply] at isBusy
      split at isBusy
      · rename_i same
        rw [same]
        exact isBusy
      · exact isBusy
    obtain ⟨q, has⟩ := accounts.busy other before
    refine ⟨q, ?_⟩
    by_cases same : q = p
    · subst same
      rw [isAt, Pc.has_run] at has
      simp only [goto, update_self]
      exact Pc.has_run.mpr has
    · simp only [goto, update_of_ne same]
      exact has
  · intro q isAway
    rcases accounts.away q isAway with away | isIdle
    · by_cases same : q = child
      · subst same
        refine Or.inr ?_
        simp only [goto, update_of_ne (Ne.symm apart)]
        exact idle
      · refine Or.inl ?_
        simp only [goto, update_of_ne same]
        exact away
    · have other : q ≠ p := by
        rintro rfl
        rw [isAt] at isIdle
        cases isIdle
      refine Or.inr ?_
      simp only [goto, update_of_ne other]
      exact isIdle
  · intro q
    by_cases same : q = p
    · subst same
      simp only [goto, update_self]
      exact mine
    · simp only [goto, update_of_ne same]
      exact accounts.balanced q

end

end Xv6.Fs
