import Xv6.Fs.Freeing

/-!
# Allocating inodes

The step of `ialloc` that marks a free inode. The inode may be marked, and even be in use
again, while the `iput` that has freed it still has its entry of the cache.
-/

namespace Xv6.Fs

open Function

variable {P : Type} {s : System P} {l : P → Local} {p : P} {ip : Fin ninode} [Fintype P]

/-- Somebody has every reference that the cache counts. -/
theorem Refs.holder (refs : Refs s l) (some : 0 < (s.inode ip).ref) :
    (∃ q, ∃ ref ∈ (l q).refs, ref.ip = ip) ∨ (∃ q, s.cwd q = Option.some ip) ∨
      ∃ writable, (ip, writable) ∈ s.files := by
  by_contra nobody
  obtain ⟨noRef, noCwd, noFile⟩ : (∀ q, ∀ ref ∈ (l q).refs, ref.ip ≠ ip) ∧
      (∀ q, s.cwd q ≠ Option.some ip) ∧ ∀ writable, (ip, writable) ∉ s.files := by
    refine ⟨fun q ref mem isRef => nobody (Or.inl ⟨q, ref, mem, isRef⟩),
      fun q isCwd => nobody (Or.inr (Or.inl ⟨q, isCwd⟩)),
      fun writable file => nobody (Or.inr (Or.inr ⟨writable, file⟩))⟩
  have none : ∀ q, held s l q ip = 0 := by
    intro q
    rw [held, if_neg (noCwd q), Local.own, Nat.add_zero, Multiset.countP_eq_zero]
    exact fun ref mem isRef => noRef q ref mem isRef.1
  have noFiles : s.files.countP (fun file => file.1 = ip) = 0 := by
    rw [List.countP_eq_zero]
    rintro ⟨other, writable⟩ file isFile
    obtain rfl : other = ip := by simpa using isFile
    exact noFile writable file
  rw [refs.counted ip, noFiles, Finset.sum_eq_zero fun q _ => none q] at some
  omega

/-- An inode that is referenced is allocated, unless its entry is just being dropped. -/
theorem Sound.entry_used (sound : Sound s l) (some : 0 < (s.inode ip).ref)
    (settled : ∀ q, (s.pc q).phase ≠ Option.some (.dropping, ip)) :
    (s.dinode (s.inode ip).inum).type ≠ .free := by
  rcases sound.refs.holder some with ⟨q, ref, mem, rfl⟩ | ⟨q, isCwd⟩ | ⟨writable, file⟩
  · rw [sound.refs.named q ref mem]
    exact (sound.data.used q ref mem (settled q)).1
  · exact sound.data.usedCwd q ip isCwd
  · exact (sound.data.usedFile ip writable file).1

/-- A locked inode is allocated. -/
theorem Sound.view_used (sound : Sound s l) {q : P} {view : View}
    (isView : (l q).locks ip = some view) : (s.dinode view.inum).type ≠ .free := by
  obtain ⟨-, isInode, -⟩ := sound.data.view q ip view isView
  have holds : Holds s l q ip := Or.inl (by rw [isView]; rintro ⟨⟩)
  obtain ⟨ref, mem, rfl⟩ := sound.locks.kept q ip holds
  rw [← isInode]
  refine sound.entry_used (sound.refs.ref_pos mem) fun r dropping => ?_
  have isSelf := sound.locks.once q r ref.ip holds (Or.inr ⟨_, dropping⟩)
  subst isSelf
  rw [sound.locks.apart q _ _ dropping] at isView
  cases isView

/-- `ialloc` marks a free inode. -/
theorem Sound.mark [DecidableEq P] (sound : Sound s l) {type : FileType} {inum : Nat}
    {rest : Fin ninode → Program P} (isAt : s.pc p = .scanning type inum rest)
    (inside : inum < s.ninodes) (real : inum ≠ 0) (free : (s.dinode inum).type = .free)
    (none : (l p).fresh = none) (used : type ≠ .free) :
    Sound ({ s with dinode := update s.dinode inum (.fresh type) }.goto p
      (.marked type inum rest)) (update l p { l p with fresh := some (inum, type) }) := by
  generalize isAfter : ({ s with dinode := update s.dinode inum (.fresh type) } :
    System P).goto p (.marked type inum rest) = t
  obtain ⟨isDinode, entries, ninodes, inode, cwd, files, inUse, isPc⟩ :
      t.dinode = update s.dinode inum (.fresh type) ∧ t.entries = s.entries ∧
        t.ninodes = s.ninodes ∧ t.inode = s.inode ∧ t.cwd = s.cwd ∧ t.files = s.files ∧
        t.inUse = s.inUse ∧ t.pc = update s.pc p (.marked type inum rest) := by
    rw [← isAfter]
    exact ⟨rfl, rfl, rfl, rfl, rfl, rfl, rfl, rfl⟩
  have phases : ∀ q, (t.pc q).phase = (s.pc q).phase := by
    intro q
    by_cases isSelf : q = p
    · rw [isSelf, isAt, isPc, update_self]
      rfl
    · rw [isPc, update_of_ne isSelf]
  generalize isNow : update l p { l p with fresh := some (inum, type) } = m
  have self : m p = { l p with fresh := some (inum, type) } := by
    rw [← isNow, update_self]
  have others : ∀ q, q ≠ p → m q = l q := by
    intro q other
    rw [← isNow, update_of_ne other]
  have same : ∀ q, (m q).refs = (l q).refs ∧ (m q).locks = (l q).locks ∧
      (m q).owed = (l q).owed ∧ (m q).away = (l q).away := by
    intro q
    by_cases isSelf : q = p
    · rw [isSelf, self]
      exact ⟨rfl, rfl, rfl, rfl⟩
    · rw [others q isSelf]
      exact ⟨rfl, rfl, rfl, rfl⟩
  -- An inode that is not free is not the one that is marked.
  have still : ∀ j, (s.dinode j).type ≠ .free → j ≠ inum ∧ t.dinode j = s.dinode j := by
    intro j allocated
    have other : j ≠ inum := by
      rintro rfl
      exact allocated free
    exact ⟨other, by rw [isDinode, update_of_ne other]⟩
  have calm : Calm s p := by
    rw [Calm, isAt]
    rfl
  have unlinked := sound.forest.tree.free inum free
  have empty : s.entries inum = [] := sound.forest.tree.onlyDirs inum (by rw [free]; rintro ⟨⟩)
  have rooted : ∀ j, t.Rooted j ↔ s.Rooted j := by
    intro j
    rw [Image.Rooted, Image.Rooted, Image.Tree.names_congr ninodes entries]
  have isFresh : ∀ q i kind, (m q).fresh = some (i, kind) →
      q = p ∧ i = inum ∧ kind = type ∨ q ≠ p ∧ (l q).fresh = some (i, kind) := by
    intro q i kind fresh
    by_cases isSelf : q = p
    · rw [isSelf, self] at fresh
      cases fresh
      exact Or.inl ⟨isSelf, rfl, rfl⟩
    · rw [others q isSelf] at fresh
      exact Or.inr ⟨isSelf, fresh⟩
  have allocated : ∀ q i kind, (l q).fresh = some (i, kind) → (s.dinode i).type ≠ .free := by
    intro q i kind fresh
    obtain ⟨isType, isNew, -, -⟩ := sound.data.fresh q i kind fresh
    rw [isNew]
    exact isType
  refine ⟨?_, ?_, ?_, ?_⟩
  · refine sound.refs.change (p := p) (fun q other => ?_) (fun ip => ?_) (fun ip _ => by rw [inode])
      ?_ ?_ ?_ ?_ ?_
    · rw [others q other, cwd, inUse]
      exact ⟨rfl, rfl, rfl, rfl⟩
    · rw [inode, files, held, held, cwd, self]
      rfl
    · rw [inode]
      exact sound.refs.distinct
    · rw [inode, self]
      exact sound.refs.named p
    · rw [inUse, self]
      exact sound.refs.lent p
    · rw [inUse, files]
      exact sound.refs.inUse
    · rw [self, cwd]
      exact sound.refs.away p
  · have holds : ∀ q ip, Holds t m q ip ↔ Holds s l q ip := by
      intro q ip
      rw [Holds, Holds, (same q).2.1, phases]
    refine sound.locks.change (p := p) (fun q other => ⟨(same q).2.1, phases q, (same q).1⟩)
      (fun q _ ip held => ?_) (fun ip held => ?_) (fun phase ip inPhase => ?_)
    · rw [inode]
      exact sound.locks.busy q ip held
    · have was := (holds p ip).mp held
      rw [inode, (same p).1]
      exact ⟨sound.locks.busy p ip was, Or.inl was, sound.locks.kept p ip was⟩
    · rw [phases] at inPhase
      exact absurd inPhase (calm.phase_ne _)
  · constructor
    · intro q ip view isView
      rw [(same q).2.1] at isView
      rw [inode, (still _ (sound.view_used isView)).2, entries, rooted]
      exact sound.data.view q ip view isView
    · intro ip some valid settled
      rw [inode] at some valid ⊢
      simp only [phases] at settled
      rw [(still _ (sound.entry_used some settled)).2]
      exact sound.data.coherent ip some valid settled
    · intro q ref mem settled
      rw [(same q).1] at mem
      rw [phases] at settled
      rw [(still _ (sound.data.used q ref mem settled).1).2]
      exact sound.data.used q ref mem settled
    · intro q ip isCwd
      rw [cwd] at isCwd
      rw [inode, (still _ (sound.data.usedCwd q ip isCwd)).2]
      exact sound.data.usedCwd q ip isCwd
    · intro ip writable file
      rw [files] at file
      rw [inode, (still _ (sound.data.usedFile ip writable file).1).2]
      exact sound.data.usedFile ip writable file
    · intro q phase ip inPhase isEnding
      rw [phases] at inPhase
      obtain ⟨one, valid, wasUnlinked, own⟩ := sound.data.ending q phase ip inPhase isEnding
      have settled : ∀ r, (s.pc r).phase ≠ Option.some (.dropping, ip) := by
        intro r dropping
        have isSelf := sound.locks.once r q ip (Or.inr ⟨_, dropping⟩) (Or.inr ⟨_, inPhase⟩)
        subst isSelf
        rw [inPhase] at dropping
        cases dropping
        simp at isEnding
      rw [inode, (still _ (sound.entry_used (by omega) settled)).2, Local.own, (same q).1]
      exact ⟨one, valid, wasUnlinked, own⟩
    · intro q ip inPhase
      rw [phases] at inPhase
      rw [entries, inode]
      exact sound.data.emptied q ip inPhase
    · intro q ip inPhase
      rw [phases] at inPhase
      rw [inode, (same q).1]
      exact sound.data.dropped q ip inPhase
    · intro q i kind fresh
      rcases isFresh q i kind fresh with ⟨rfl, rfl, rfl⟩ | ⟨other, was⟩
      · refine ⟨used, by rw [isDinode, update_self], by rw [entries, empty],
          fun r ref mem isInode => ?_, fun r ip isCwd => ?_, fun ip writable file => ?_,
          fun ip view isView => ?_⟩
        · rw [(same r).1] at mem
          rw [phases]
          refine or_iff_not_imp_right.mpr fun settled => ?_
          exact absurd isInode (still _ (sound.data.used r ref mem settled).1).1
        · rw [cwd] at isCwd
          rw [inode]
          exact (still _ (sound.data.usedCwd r ip isCwd)).1
        · rw [files] at file
          rw [inode]
          exact (still _ (sound.data.usedFile ip writable file).1).1
        · rw [(same q).2.1] at isView
          exact (still _ (sound.view_used isView)).1
      · obtain ⟨isType, isNew, isEmpty, unshared⟩ := sound.data.fresh q i kind was
        refine ⟨isType, by rw [(still i (allocated q i kind was)).2, isNew], by rw [entries, isEmpty],
          ?_, ?_, ?_, ?_⟩
        · intro r ref mem isInode
          rw [(same r).1] at mem
          rw [phases]
          exact unshared.refs r ref mem isInode
        · rw [cwd, inode]
          exact unshared.cwd
        · rw [files, inode]
          exact unshared.files
        · rw [(same q).2.1]
          exact unshared.locks
    · intro q r i kind other first second
      rcases isFresh q i kind first with ⟨rfl, rfl, rfl⟩ | ⟨-, was⟩ <;>
        rcases isFresh r i other second with ⟨isSelf, isInode, -⟩ | ⟨-, wasOther⟩
      · exact isSelf.symm
      · exact absurd rfl (still _ (allocated r i other wasOther)).1
      · exact absurd isInode (still _ (allocated q i kind was)).1
      · exact sound.data.freshOnce q r i kind other was wasOther
    · intro j
      by_cases here : j = inum
      · rw [here, isDinode, update_self]
        exact Dinode.fresh_backed type
      · rw [isDinode, update_of_ne here]
        exact sound.data.backed j
    · intro j
      by_cases here : j = inum
      · rw [here, isDinode, update_self, entries, empty]
        exact fun _ => rfl
      · rw [isDinode, update_of_ne here, entries]
        exact sound.data.sized j
  · constructor
    · have debts : (fun j => ∑ q, (m q).debt j) = fun j => ∑ q, (l q).debt j := by
        simp only [Local.debt, (same _).2.2.1]
      rw [debts]
      refine sound.forest.tree.retype ninodes entries (fun j other => ?_) unlinked ?_ empty
        fun _ => ⟨real, inside⟩
      · rw [isDinode, update_of_ne other]
      · rw [isDinode, update_self]
        rfl
    · intro j isDir
      by_cases here : j = inum
      · exact Or.inr ⟨p, .fresh type (by rw [self, here])⟩
      · rw [isDinode, update_of_ne here] at isDir
        rw [entries]
        refine (sound.forest.whole j isDir).imp_right ?_
        rintro ⟨q, part⟩
        refine ⟨q, ?_⟩
        cases part with
        | fresh kind fresh =>
          have other : q ≠ p := by
            rintro rfl
            rw [none] at fresh
            cases fresh
          exact .fresh kind (by rw [others q other, fresh])
        | locked ip view isView isInode =>
          exact .locked ip view (by rw [(same q).2.1, isView]) isInode
        | freeing ip inPhase isInode =>
          exact .freeing ip (by rw [phases, inPhase]) (by rw [inode, isInode])
    · intro q debt mem
      rw [(same q).2.2.1] at mem
      have other := sound.forest.debt_inum_ne unlinked mem
      rw [isDinode, update_of_ne other, (same q).2.1]
      exact sound.forest.debts q debt mem

end Xv6.Fs
