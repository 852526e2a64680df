import Xv6.Fs.Invariant

/-!
# Steps that only move references

A process gets or gives up a reference, or passes one to or from a current directory or an
open file. The disk, the locks and what is known of inodes stay as they are.
-/

namespace Xv6.Fs

open Local Multiset

open Function

variable {P : Type} {s t : System P} {l m : P → Local} {p : P}
  {q : P} {phase : Phase} {ref : Ref} {others : Multiset Ref}

/-- The tree does not change. -/
theorem Forest.of_eq [Fintype P] (forest : Forest s l) (image : t.toImage = s.toImage)
    (locals : ∀ q, (m q).owed = (l q).owed ∧ (m q).locks = (l q).locks ∧
      (m q).fresh = (l q).fresh)
    (phases : ∀ q ip, (s.pc q).phase = some (.freeing, ip) →
      (t.pc q).phase = some (.freeing, ip) ∧ (t.inode ip).inum = (s.inode ip).inum) :
    Forest t m where
  tree := by
    have same : (fun inum => ∑ q, (m q).debt inum) = fun inum => ∑ q, (l q).debt inum := by
      funext inum
      exact Finset.sum_congr rfl fun q _ => by rw [Local.debt, Local.debt, (locals q).1]
    rw [image, same]
    exact forest.tree
  whole := by
    intro inum isDir
    rw [image] at isDir ⊢
    refine (forest.whole inum isDir).imp_right ?_
    rintro ⟨q, part⟩
    refine ⟨q, ?_⟩
    cases part with
    | fresh type isFresh =>
      rw [← (locals q).2.2] at isFresh
      exact .fresh type isFresh
    | locked ip view isView isInode =>
      rw [← (locals q).2.1] at isView
      exact .locked ip view isView isInode
    | freeing ip inPhase isInode =>
      obtain ⟨stillPhase, sameInum⟩ := phases q ip inPhase
      exact .freeing ip stillPhase (sameInum.trans isInode)
  debts := by
    intro q debt mem
    rw [(locals q).1] at mem
    rw [image, (locals q).2.1]
    exact forest.debts q debt mem

/-- The process is at none of the points where it has made an inode busy. -/
def Calm (s : System P) (p : P) : Prop := (s.pc p).phase = none

theorem Calm.holds (calm : Calm s p) {ip : Fin ninode} (holds : Holds s l p ip) :
    ∃ view, (l p).locks ip = some view := by
  rcases holds with locked | ⟨phase, inPhase⟩
  · exact Option.ne_none_iff_exists'.mp locked
  · rw [calm] at inPhase
    cases inPhase

theorem Calm.phase_ne (calm : Calm s p) (point : Phase × Fin ninode) :
    (s.pc p).phase ≠ some point := by
  rw [calm]
  rintro ⟨⟩

/-- Whoever is about to free an inode has the only reference to it. -/
theorem Data.alone [Fintype P] (data : Data s l) (refs : Refs s l) {ip : Fin ninode}
    (inPhase : (s.pc q).phase = some (phase, ip))
    (isEnding : phase = .truncating ∨ phase = .freeing) :
    (∀ r, held s l r ip ≠ 0 → r = q) ∧ held s l q ip = 1 ∧
      ∀ writable, (ip, writable) ∉ s.files := by
  classical
  obtain ⟨one, -, -, own⟩ := data.ending q phase ip inPhase isEnding
  have counted := refs.counted ip
  have mine := Sums.le_of_mem (fun r => held s l r ip) (Finset.mem_univ q)
  have atLeast : 0 < held s l q ip := by
    rw [held]
    omega
  refine ⟨fun r theirs => ?_, by omega, fun writable mem => ?_⟩
  · exact Sums.eq_of_le_one (fun r => held s l r ip) (by omega) (Finset.mem_univ r)
      (Finset.mem_univ q) theirs (by omega)
  · have file : 0 < s.files.countP fun file => file.1 = ip :=
      List.countP_pos_iff.mpr ⟨_, mem, by simp⟩
    omega

/-- References move, and nothing else happens. -/
structure Moves (s t : System P) (l m : P → Local) (p : P) : Prop where
  image : t.toImage = s.toImage
  calm : Calm s p
  phases : ∀ q, (t.pc q).phase = (s.pc q).phase
  locks : ∀ q, (m q).locks = (l q).locks
  fresh : ∀ q, (m q).fresh = (l q).fresh
  owed : ∀ q, (m q).owed = (l q).owed
  others : ∀ q, q ≠ p → (m q).refs = (l q).refs
  stays : ∀ ip, 0 < (s.inode ip).ref → (t.inode ip).inum = (s.inode ip).inum ∧
    (t.inode ip).valid = (s.inode ip).valid ∧ (t.inode ip).copy = (s.inode ip).copy ∧
    (t.inode ip).busy = (s.inode ip).busy
  new : ∀ ip, (s.inode ip).ref = 0 → 0 < (t.inode ip).ref → (t.inode ip).valid = false

namespace Moves

variable [Fintype P]

section

variable (moves : Moves s t l m p) (refs : Refs s l) (locks : Locks s l)

include moves refs locks

theorem forest (forest : Forest s l) : Forest t m := by
  refine forest.of_eq moves.image (fun q => ⟨moves.owed q, moves.locks q, moves.fresh q⟩) ?_
  intro q ip inPhase
  obtain ⟨ref, mem, rfl⟩ := locks.kept q ip (Or.inr ⟨_, inPhase⟩)
  rw [moves.phases]
  exact ⟨inPhase, (moves.stays ref.ip (refs.ref_pos mem)).1⟩

theorem lockSound (kept : ∀ ip view, (l p).locks ip = some view → ∃ ref ∈ (m p).refs, ref.ip = ip) :
    Locks t m := by
  have busy : ∀ q ip, Holds s l q ip → (t.inode ip).busy = true := by
    intro q ip holds
    obtain ⟨ref, mem, rfl⟩ := locks.kept q ip holds
    rw [(moves.stays ref.ip (refs.ref_pos mem)).2.2.2]
    exact locks.busy q ref.ip holds
  have same : ∀ ip, Holds t m p ip ↔ Holds s l p ip := by
    intro ip
    rw [Holds, Holds, moves.locks, moves.phases]
  refine locks.change (p := p) (fun q other => ⟨moves.locks q, moves.phases q, moves.others q other⟩)
    (fun q _ ip holds => busy q ip holds) (fun ip holds => ?_) (fun phase ip inPhase => ?_)
  · have was := (same ip).mp holds
    obtain ⟨view, isView⟩ := moves.calm.holds was
    exact ⟨busy p ip was, Or.inl was, kept ip view isView⟩
  · rw [moves.phases, moves.calm] at inPhase
    cases inPhase

/-- What is known of inodes stays, when what is newly referenced is in use. -/
theorem data (data : Data s l) (mine : ∀ ref ∈ (m p).refs, (s.dinode ref.inum).type ≠ .free ∧
      (ref.plain = true → (s.dinode ref.inum).type ≠ .dir))
    (cwd : ∀ q ip, t.cwd q = some ip → (s.dinode (t.inode ip).inum).type ≠ .free)
    (files : ∀ ip writable, (ip, writable) ∈ t.files →
      (s.dinode (t.inode ip).inum).type ≠ .free ∧
      (writable = true → (s.dinode (t.inode ip).inum).type ≠ .dir))
    (ending : ∀ q phase ip, (s.pc q).phase = some (phase, ip) →
      phase = .truncating ∨ phase = .freeing → (t.inode ip).ref = 1)
    (unshared : ∀ q inum type, (l q).fresh = some (inum, type) → Unshared t m q inum) :
    Data t m := by
  have referenced : ∀ q ip, Holds s l q ip → 0 < (s.inode ip).ref := by
    intro q ip holds
    obtain ⟨ref, mem, rfl⟩ := locks.kept q ip holds
    exact refs.ref_pos mem
  have calmNow : ∀ phase ip, (t.pc p).phase ≠ some (phase, ip) := by
    intro phase ip
    rw [moves.phases, moves.calm]
    rintro ⟨⟩
  constructor
  · intro q ip view isView
    rw [moves.locks] at isView
    obtain ⟨sameInum, sameValid, -, -⟩ :=
      moves.stays ip (referenced q ip (Or.inl (by rw [isView]; rintro ⟨⟩)))
    rw [sameInum, sameValid, moves.image]
    exact data.view q ip view isView
  · intro ip some valid calm
    rcases Nat.eq_zero_or_pos (s.inode ip).ref with none | before
    · rw [moves.new ip none some] at valid
      cases valid
    · obtain ⟨sameInum, sameValid, sameCopy, -⟩ := moves.stays ip before
      rw [sameValid] at valid
      rw [sameCopy, sameInum, moves.image]
      refine data.coherent ip before valid fun q => ?_
      rw [← moves.phases]
      exact calm q
  · intro q ref mem calm
    rw [moves.image]
    by_cases same : q = p
    · subst same
      exact mine ref mem
    · rw [moves.others q same] at mem
      rw [moves.phases] at calm
      exact data.used q ref mem calm
  · intro q ip isCwd
    rw [moves.image]
    exact cwd q ip isCwd
  · intro ip writable mem
    rw [moves.image]
    exact files ip writable mem
  · intro q phase ip inPhase isEnding
    rw [moves.phases] at inPhase
    have other : q ≠ p := by
      rintro rfl
      rw [moves.calm] at inPhase
      cases inPhase
    obtain ⟨-, valid, unlinked, own⟩ := data.ending q phase ip inPhase isEnding
    obtain ⟨sameInum, sameValid, -, -⟩ := moves.stays ip (referenced q ip (Or.inr ⟨_, inPhase⟩))
    rw [sameInum, sameValid, moves.image, Local.own, moves.others q other]
    exact ⟨ending q phase ip inPhase isEnding, valid, unlinked, own⟩
  · intro q ip inPhase
    rw [moves.phases] at inPhase
    rw [(moves.stays ip (referenced q ip (Or.inr ⟨_, inPhase⟩))).1, moves.image]
    exact data.emptied q ip inPhase
  · intro q ip inPhase
    have other : q ≠ p := by
      rintro rfl
      exact calmNow _ _ inPhase
    rw [moves.phases] at inPhase
    rw [(moves.stays ip (referenced q ip (Or.inr ⟨_, inPhase⟩))).2.2.1, moves.others q other]
    exact data.dropped q ip inPhase
  · intro q inum type isFresh
    rw [moves.fresh] at isFresh
    rw [moves.image]
    obtain ⟨used, isNew, empty, -⟩ := data.fresh q inum type isFresh
    exact ⟨used, isNew, empty, unshared q inum type isFresh⟩
  · intro q r inum type other first second
    rw [moves.fresh] at first second
    exact data.freshOnce q r inum type other first second
  · rw [moves.image]
    exact data.backed
  · rw [moves.image]
    exact data.sized

end

end Moves

/-! ## Getting a reference -/

theorem Local.mem_of_rest {l : Local} {other : Ref} (isRefs : l.refs = ref ::ₘ others)
    (later : other ∈ others) : other ∈ l.refs := by
  rw [isRefs]
  exact mem_cons_of_mem later

/-- The references of a process when one of them is singled out. -/
theorem Local.own_cons {l : Local} (refs : l.refs = ref ::ₘ others) (ip : Fin ninode) :
    l.own ip = (others.countP fun ref => ref.ip = ip ∧ ref.lent = false) +
      if ref.ip = ip ∧ ref.lent = false then 1 else 0 := by
  rw [Local.own, refs, countP_cons]

/-- The count of an entry goes up: one that is in use for the inode, or a free one that is
taken for it. -/
inductive Gets (s t : System P) (ip : Fin ninode) (inum : Nat) : Prop where
  | hit (some : 0 < (s.inode ip).ref) (isInode : (s.inode ip).inum = inum)
      (after : t.inode = Function.update s.inode ip
        { s.inode ip with ref := (s.inode ip).ref + 1 })
  | miss (none : (s.inode ip).ref = 0)
      (absent : ∀ other, 0 < (s.inode other).ref → (s.inode other).inum ≠ inum)
      (after : t.inode = Function.update s.inode ip
        { s.inode ip with inum, ref := 1, busy := false, valid := false })

namespace Gets

variable {ip : Fin ninode} {inum : Nat}

section

variable (gets : Gets s t ip inum)

include gets

theorem inum_eq : (t.inode ip).inum = inum := by
  cases gets with
  | hit some isInode after => simp [after, isInode]
  | miss none absent after => simp [after]

theorem ref_eq (other : Fin ninode) :
    (t.inode other).ref = (s.inode other).ref + if ip = other then 1 else 0 := by
  by_cases same : ip = other
  · subst same
    cases gets with
    | hit some isInode after => simp [after]
    | miss none absent after => simp [after, none]
  · cases gets with
    | hit some isInode after => simp [after, update_of_ne (Ne.symm same), same]
    | miss none absent after => simp [after, update_of_ne (Ne.symm same), same]

theorem stays (other : Fin ninode) (before : 0 < (s.inode other).ref) :
    (t.inode other).inum = (s.inode other).inum ∧ (t.inode other).valid = (s.inode other).valid ∧
      (t.inode other).copy = (s.inode other).copy ∧ (t.inode other).busy = (s.inode other).busy := by
  by_cases same : other = ip
  · subst same
    cases gets with
    | hit some isInode after => simp [after]
    | miss none absent after => omega
  · cases gets with
    | hit some isInode after => simp [after, update_of_ne same]
    | miss none absent after => simp [after, update_of_ne same]

theorem new (other : Fin ninode) (none : (s.inode other).ref = 0)
    (now : 0 < (t.inode other).ref) : (t.inode other).valid = false := by
  rw [gets.ref_eq other] at now
  have same : ip = other := by
    by_contra apart
    rw [if_neg apart] at now
    omega
  subst same
  cases gets with
  | hit some isInode after => omega
  | miss none absent after => simp [after]

theorem distinct (before : ∀ a b, 0 < (s.inode a).ref →
      0 < (s.inode b).ref → (s.inode a).inum = (s.inode b).inum → a = b) (a b : Fin ninode)
    (first : 0 < (t.inode a).ref) (second : 0 < (t.inode b).ref)
    (same : (t.inode a).inum = (t.inode b).inum) : a = b := by
  cases gets with
  | hit some isInode after =>
    simp only [after, update_apply] at first second same
    grind
  | miss none absent after =>
    simp only [after, update_apply] at first second same
    grind

end

end Gets

/-- What `iget` does. -/
theorem iget_gets {inum : Nat} {ip : Fin ninode} (got : s.iget inum = .ok (ip, t)) :
    Gets s t ip inum ∧ t = { s with inode := t.inode } := by
  rw [System.iget] at got
  split at got
  · rename_i other found
    cases got
    have match_ := List.find?_some found
    simp only [decide_eq_true_eq] at match_
    exact ⟨.hit match_.1 match_.2 rfl, rfl⟩
  · rename_i missing
    split at got
    · rename_i other found
      cases got
      have free := List.find?_some found
      simp only [decide_eq_true_eq] at free
      refine ⟨.miss free (fun other some same => ?_) rfl, rfl⟩
      have none := List.find?_eq_none.mp missing other (List.mem_finRange other)
      simp only [decide_eq_true_eq] at none
      exact none ⟨some, same⟩
    · cases got

section Moving

variable [Fintype P] [DecidableEq P]

/-- All that a step leaves alone when it moves references of a process that is calm. -/
structure Rest (s t : System P) (p : P) : Prop where
  image : t.toImage = s.toImage
  calm : Calm s p
  phases : ∀ q, (t.pc q).phase = (s.pc q).phase

omit [Fintype P] [DecidableEq P] in
/-- Who has a reference to a fresh inode, when the references of one process change. -/
theorem Unshared.change {inum : Nat} (unshared : Unshared s l q inum)
    (phases : ∀ r, (t.pc r).phase = (s.pc r).phase) (locks : (m q).locks = (l q).locks)
    (others : ∀ r, r ≠ p → (m r).refs = (l r).refs)
    (mine : q ≠ p → ∀ ref ∈ (m p).refs, ref ∈ (l p).refs ∨ ref.inum ≠ inum)
    (cwd : ∀ r ip, t.cwd r = some ip → (t.inode ip).inum ≠ inum)
    (files : ∀ ip writable, (ip, writable) ∈ t.files → (t.inode ip).inum ≠ inum) :
    Unshared t m q inum where
  refs := by
    intro r ref mem isInode
    rw [phases]
    by_cases same : r = p
    · subst same
      by_cases isSelf : q = r
      · exact Or.inl isSelf.symm
      · rcases mine isSelf ref mem with old | other
        · exact unshared.refs r ref old isInode
        · exact absurd isInode other
    · rw [others r same] at mem
      exact unshared.refs r ref mem isInode
  cwd := cwd
  files := files
  locks := by
    rw [locks]
    exact unshared.locks

omit [Fintype P] in
/-- A process changes its references only. -/
theorem Moves.of_update (rest : Rest s t p) {now : Local} (locks : now.locks = (l p).locks)
    (fresh : now.fresh = (l p).fresh) (owed : now.owed = (l p).owed)
    (stays : ∀ ip, 0 < (s.inode ip).ref → (t.inode ip).inum = (s.inode ip).inum ∧
      (t.inode ip).valid = (s.inode ip).valid ∧ (t.inode ip).copy = (s.inode ip).copy ∧
      (t.inode ip).busy = (s.inode ip).busy)
    (new : ∀ ip, (s.inode ip).ref = 0 → 0 < (t.inode ip).ref → (t.inode ip).valid = false) :
    Moves s t l (update l p now) p := by
  refine ⟨rest.image, rest.calm, rest.phases, ?_, ?_, ?_, ?_, stays, new⟩
  · intro q
    by_cases same : q = p
    · rw [same, update_self, locks]
    · rw [update_of_ne same]
  · intro q
    by_cases same : q = p
    · rw [same, update_self, fresh]
    · rw [update_of_ne same]
  · intro q
    by_cases same : q = p
    · rw [same, update_self, owed]
    · rw [update_of_ne same]
  · intro q other
    rw [update_of_ne other]

/-- A process gets a reference. -/
theorem Sound.gain (sound : Sound s l) (rest : Rest s t p) {ip : Fin ninode} {inum : Nat}
    (gets : Gets s t ip inum) (cwd : t.cwd = s.cwd) (files : t.files = s.files)
    (inUse : t.inUse = s.inUse) (used : (s.dinode inum).type ≠ .free)
    (safe : ∀ q phase, (s.pc q).phase = some (phase, ip) → phase ≠ .truncating ∧ phase ≠ .freeing)
    (notFresh : ∀ q type, q ≠ p → (l q).fresh ≠ some (inum, type)) :
    Sound t (update l p ((l p).gain ip inum)) := by
  obtain ⟨refs, locks, data, forest⟩ := sound
  have mine : update l p ((l p).gain ip inum) p = (l p).gain ip inum :=
    update_self ..
  have others : ∀ q, q ≠ p → update l p ((l p).gain ip inum) q = l q :=
    fun q other => update_of_ne other ..
  have moves : Moves s t l (update l p ((l p).gain ip inum)) p :=
    .of_update rest rfl rfl rfl gets.stays gets.new
  refine ⟨?_, moves.lockSound refs locks ?_, moves.data refs locks data ?_ ?_ ?_ ?_ ?_,
    moves.forest refs locks forest⟩
  · refine refs.change (p := p) (fun q other => ?_) (fun other => ?_)
      (fun other before => (gets.stays other before).1) (gets.distinct refs.distinct) ?_ ?_ ?_ ?_
    · rw [others q other, cwd, inUse]
      exact ⟨rfl, rfl, rfl, rfl⟩
    · rw [gets.ref_eq other, held, held, cwd, files, mine,
        own_cons (gain_refs (l p) ip inum) other]
      simp only [and_true, Local.own]
      omega
    · intro ref mem
      rw [mine, gain_refs, mem_cons] at mem
      rcases mem with rfl | old
      · exact gets.inum_eq
      · rw [(gets.stays ref.ip (refs.ref_pos old)).1]
        exact refs.named p ref old
    · intro ref mem isLent
      rw [mine, gain_refs, mem_cons] at mem
      rw [inUse]
      rcases mem with rfl | old
      · cases isLent
      · exact refs.lent p ref old isLent
    · rw [inUse, files]
      exact refs.inUse
    · rw [mine, cwd]
      exact refs.away p
  · intro locked view isView
    obtain ⟨ref, mem, isRef⟩ := locks.kept p locked (Or.inl (by rw [isView]; rintro ⟨⟩))
    exact ⟨ref, by rw [mine, gain_refs]; exact mem_cons_of_mem mem, isRef⟩
  · intro ref mem
    rw [mine, gain_refs, mem_cons] at mem
    rcases mem with rfl | old
    · exact ⟨used, by rintro ⟨⟩⟩
    · exact data.used p ref old (rest.calm.phase_ne _)
  · intro q other isCwd
    rw [cwd] at isCwd
    rw [(gets.stays other (refs.cwd_pos isCwd)).1]
    exact data.usedCwd q other isCwd
  · intro other writable mem
    rw [files] at mem
    rw [(gets.stays other (refs.file_pos mem)).1]
    exact data.usedFile other writable mem
  · intro q phase other inPhase isEnding
    obtain ⟨one, -⟩ := data.ending q phase other inPhase isEnding
    have apart : ip ≠ other := by
      rintro rfl
      obtain ⟨notTruncating, notFreeing⟩ := safe q phase inPhase
      rcases isEnding with rfl | rfl
      · exact notTruncating rfl
      · exact notFreeing rfl
    rw [gets.ref_eq other, if_neg apart, one]
  · intro q target type isFresh
    obtain ⟨-, -, -, unshared⟩ := data.fresh q target type isFresh
    refine unshared.change rest.phases (moves.locks q) moves.others (fun other ref mem => ?_)
      (fun r other isCwd => ?_) (fun other writable mem => ?_)
    · rw [mine, gain_refs, mem_cons] at mem
      rcases mem with rfl | old
      · refine Or.inr ?_
        rintro rfl
        exact notFresh q type other isFresh
      · exact Or.inl old
    · rw [cwd] at isCwd
      rw [(gets.stays other (refs.cwd_pos isCwd)).1]
      exact unshared.cwd r other isCwd
    · rw [files] at mem
      rw [(gets.stays other (refs.file_pos mem)).1]
      exact unshared.files other writable mem

omit [Fintype P] [DecidableEq P] in
/-- A locked inode keeps a reference when another one is given up. -/
theorem Locks.kept_of_givesUp (locks : Locks s l) (givesUp : (l p).GivesUp ref others)
    (ip : Fin ninode) (view : View) (isView : (l p).locks ip = some view) :
    ∃ other ∈ others, other.ip = ip := by
  obtain ⟨isRefs, -, remains, -⟩ := givesUp
  by_cases same : ip = ref.ip
  · subst same
    exact remains (by rw [isView]; rintro ⟨⟩)
  · obtain ⟨other, mem, rfl⟩ := locks.kept p ip (Or.inl (by rw [isView]; rintro ⟨⟩))
    rw [isRefs, mem_cons] at mem
    rcases mem with rfl | mem
    · exact absurd rfl same
    · exact ⟨other, mem, rfl⟩

omit [DecidableEq P] in
/-- A reference that a process gives up is not the last one to an inode being freed. -/
theorem Sound.notEnding (sound : Sound s l) (calm : Calm s p) {ip : Fin ninode}
    (mine : held s l p ip ≠ 0) (inPhase : (s.pc q).phase = some (phase, ip)) :
    ¬ (phase = .truncating ∨ phase = .freeing) := by
  intro isEnding
  have same := (sound.data.alone sound.refs inPhase isEnding).1 p mine
  rw [same] at calm
  rw [calm] at inPhase
  cases inPhase

/-- A process gives up a reference that is not the last one of an unlinked inode. -/
theorem Sound.lose (sound : Sound s l) (rest : Rest s t p) (givesUp : (l p).GivesUp ref others)
    (after : t.inode = update s.inode ref.ip
      { s.inode ref.ip with ref := (s.inode ref.ip).ref - 1 })
    (cwd : t.cwd = s.cwd) (files : t.files = s.files) (inUse : t.inUse = s.inUse) :
    Sound t (update l p { l p with refs := others }) := by
  obtain ⟨refs, locks, data, forest⟩ := id sound
  obtain ⟨isRefs, own, -, -⟩ := id givesUp
  have mem : ref ∈ (l p).refs := by simp [isRefs]
  have subset : ∀ other ∈ others, other ∈ (l p).refs := fun other => mem_of_rest isRefs
  have mine : update l p { l p with refs := others } p = { l p with refs := others } :=
    update_self ..
  have elsewhere : ∀ q, q ≠ p → update l p { l p with refs := others } q = l q :=
    fun q other => update_of_ne other ..
  have held_pos : held s l p ref.ip ≠ 0 := by
    have some := own_pos mem own
    rw [held]
    omega
  have counts : ∀ ip, (t.inode ip).ref + (if ref.ip = ip then 1 else 0) = (s.inode ip).ref := by
    intro ip
    have some := refs.ref_pos mem
    by_cases same : ref.ip = ip
    · subst same
      simp only [after, update_self, if_true]
      omega
    · simp [after, update_of_ne (Ne.symm same), same]
  have stays : ∀ ip, (t.inode ip).inum = (s.inode ip).inum ∧
      (t.inode ip).valid = (s.inode ip).valid ∧ (t.inode ip).copy = (s.inode ip).copy ∧
      (t.inode ip).busy = (s.inode ip).busy := by
    intro ip
    by_cases same : ip = ref.ip
    · subst same
      simp [after]
    · simp [after, update_of_ne same]
  have before : ∀ ip, 0 < (t.inode ip).ref → 0 < (s.inode ip).ref := by
    intro ip some
    have count := counts ip
    omega
  have moves : Moves s t l (update l p { l p with refs := others }) p := by
    refine .of_update rest rfl rfl rfl (fun ip _ => stays ip) fun ip none some => ?_
    have := before ip some
    omega
  refine ⟨?_, moves.lockSound refs locks ?_, moves.data refs locks data ?_ ?_ ?_ ?_ ?_,
    moves.forest refs locks forest⟩
  · refine refs.change (p := p) (fun q other => ?_) (fun ip => ?_) (fun ip _ => (stays ip).1)
      (fun a b first second same => ?_) ?_ ?_ ?_ ?_
    · rw [elsewhere q other, cwd, inUse]
      exact ⟨rfl, rfl, rfl, rfl⟩
    · have count := counts ip
      rw [held, held, cwd, files, mine, own_cons isRefs ip]
      simp only [own, and_true, Local.own] at count ⊢
      omega
    · rw [(stays a).1, (stays b).1] at same
      exact refs.distinct a b (before a first) (before b second) same
    · intro other later
      rw [mine] at later
      rw [(stays other.ip).1]
      exact refs.named p other (subset other later)
    · intro other later isLent
      rw [mine] at later
      rw [inUse]
      exact refs.lent p other (subset other later) isLent
    · rw [inUse, files]
      exact refs.inUse
    · rw [mine, cwd]
      exact refs.away p
  · intro ip view isView
    rw [mine]
    exact locks.kept_of_givesUp givesUp ip view isView
  · intro other later
    rw [mine] at later
    exact data.used p other (subset other later) (rest.calm.phase_ne _)
  · intro q ip isCwd
    rw [cwd] at isCwd
    rw [(stays ip).1]
    exact data.usedCwd q ip isCwd
  · intro ip writable file
    rw [files] at file
    rw [(stays ip).1]
    exact data.usedFile ip writable file
  · intro q phase ip inPhase isEnding
    have count := counts ip
    obtain ⟨one, -⟩ := data.ending q phase ip inPhase isEnding
    have apart : ref.ip ≠ ip := by
      rintro rfl
      exact sound.notEnding rest.calm held_pos inPhase isEnding
    rw [if_neg apart] at count
    omega
  · intro q inum type isFresh
    obtain ⟨-, -, -, unshared⟩ := data.fresh q inum type isFresh
    refine unshared.change rest.phases (moves.locks q) moves.others (fun _ other later => ?_)
      (fun r ip isCwd => ?_) (fun ip writable file => ?_)
    · rw [mine] at later
      exact Or.inl (subset other later)
    · rw [cwd] at isCwd
      rw [(stays ip).1]
      exact unshared.cwd r ip isCwd
    · rw [files] at file
      rw [(stays ip).1]
      exact unshared.files ip writable file

end Moving

end Xv6.Fs
