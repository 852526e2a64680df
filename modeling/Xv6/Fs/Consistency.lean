import Xv6.Fs.Soundness

/-!
# The inode cache and path lookup

What holds in every run from a well-formed file system in which no step enters a name into a
directory without links or looks for `..` in one: the cache agrees with the disk, an inode is
freed only by whoever has the last reference to it, and whatever a path leads to is allocated.
The kernel itself does not see to that condition, and without it none of this is so.
-/

namespace Xv6.Fs

open Fs.System

variable {P : Type} [Fintype P] [DecidableEq P]
  {image : Image} {events : List (Event P)} {inum : Nat} {rest : Fin ninode → Program P}

/-- A file system that nobody uses: the directories are a tree, the counts of links are
right, directories have their first two entries, and sizes are backed by blocks. -/
structure Image.WellFormed (image : Image) : Prop where
  tree : image.Tree fun _ => 0
  whole : ∀ inum, (image.dinode inum).type = .dir → 2 ≤ (image.entries inum).length
  backed : ∀ inum, (image.dinode inum).Backed
  sized : ∀ inum, (image.dinode inum).type = .dir →
    (image.dinode inum).size = direntSize * (image.entries inum).length

/-- The condition on a step. -/
def Event.Cautious (s : System P) : Event P → Prop
  | .call _ _ => True
  | .next p _ => Fs.Cautious s p

instance (s : System P) : ∀ event : Event P, Decidable (event.Cautious s)
  | .call _ _ => .isTrue trivial
  | .next p _ => inferInstanceAs (Decidable (Fs.Cautious s p))

omit [DecidableEq P] in
/-- The kernel at boot. -/
theorem Image.WellFormed.good (formed : image.WellFormed) :
    Good (boot image : System P) := by
  have nobody : ∀ (q : P) ip, ¬ Holds (boot image) (fun _ => Local.nothing true) q ip := by
    rintro q ip (locked | ⟨phase, inPhase⟩)
    · exact locked rfl
    · cases inPhase
  have none : (fun inum => ∑ _ : P, (Local.nothing true).debt inum) = fun _ => 0 := by
    funext inum
    exact Finset.sum_eq_zero fun _ _ => rfl
  refine ⟨fun _ => .nothing true, { refs := ?_, locks := ?_, data := ?_, forest := ?_ },
    fun _ => Local.nothing_spent true⟩
  · exact
      { distinct := fun a b some => absurd some (Nat.lt_irrefl 0)
        counted := fun ip =>
          (Nat.add_eq_zero_iff.mpr ⟨Finset.sum_eq_zero fun _ _ => rfl, rfl⟩).symm
        named := by rintro _ _ ⟨⟩
        lent := by rintro _ _ ⟨⟩
        inUse := by rintro _ _ ⟨⟩
        away := fun _ _ => rfl }
  · exact
      { busy := fun q ip holds => absurd holds (nobody q ip)
        once := fun q _ ip holds => absurd holds (nobody q ip)
        apart := by rintro _ _ _ ⟨⟩
        kept := fun q ip holds => absurd holds (nobody q ip) }
  · exact
      { view := by rintro _ _ _ ⟨⟩
        coherent := fun ip some => absurd some (Nat.lt_irrefl 0)
        used := by rintro _ _ ⟨⟩
        usedCwd := by rintro _ _ ⟨⟩
        usedFile := by rintro _ _ ⟨⟩
        ending := by rintro _ _ _ ⟨⟩
        emptied := by rintro _ _ ⟨⟩
        dropped := by rintro _ _ ⟨⟩
        fresh := by rintro _ _ _ ⟨⟩
        freshOnce := by rintro _ _ _ _ _ ⟨⟩
        backed := formed.backed
        sized := formed.sized }
  · exact
      { tree := by
          rw [none]
          exact formed.tree
        whole := fun inum isDir => Or.inl (formed.whole inum isDir)
        debts := by rintro _ _ ⟨⟩ }

/-- Every cautious run from a well-formed file system. -/
theorem Image.WellFormed.run (formed : image.WellFormed)
    (cautious : Runs.Meets step Event.Cautious (boot image) events) {s : System P}
    (ran : (boot image).run events = some s) : Good s := by
  refine Runs.invariant Good (fun good condition stepped => good.step ?_ stepped) formed.good cautious ran
  rintro p balloc rfl
  exact condition

/-- A file system with the root directory only. -/
def emptyDisk : Image where
  ninodes := 8
  dinode := fun inum =>
    if inum = rootino then
      { Dinode.fresh .dir with nlink := 1, size := 32, addrs := fun k => if k = 0 then 59 else 0 }
    else .fresh .free
  entries := fun inum => if inum = rootino then [⟨rootino, .dot⟩, ⟨rootino, .dotdot⟩] else []

theorem emptyDisk_childless (d : Nat) : Childless (emptyDisk.entries d) := by
  intro de mem
  simp only [emptyDisk] at mem
  split at mem
  · rcases List.mem_pair.mp mem with rfl | rfl <;> rfl
  · cases mem

theorem emptyDisk_names (inum : Nat) : emptyDisk.names inum = 0 :=
  Finset.sum_eq_zero fun d _ =>
    (emptyDisk_childless d).countP fun _ isName => (Dirent.names_iff.mp isName).1

theorem emptyDisk_wellFormed : emptyDisk.WellFormed := by
  have other : ∀ inum, inum ≠ rootino →
      emptyDisk.dinode inum = .fresh .free ∧ emptyDisk.entries inum = [] := by
    intro inum apart
    simp [emptyDisk, apart]
  refine ⟨⟨?_, ?_, ?_, ?_, ?_, ?_, fun d _ => emptyDisk_childless d, ?_, ?_⟩, ?_, ?_, ?_⟩
  · intro inum
    rw [emptyDisk_names, Image.Tree.subdirs_eq_zero (emptyDisk_childless inum), Image.rootLink]
    by_cases isRoot : inum = rootino
    · rw [isRoot]
      rfl
    · rw [(other inum isRoot).1, if_neg isRoot]
      rfl
  · intro inum free
    by_cases isRoot : inum = rootino
    · rw [isRoot] at free
      cases free
    · rw [(other inum isRoot).1]
      rfl
  · intro inum used
    by_cases isRoot : inum = rootino
    · rw [isRoot]
      decide
    · rw [(other inum isRoot).1] at used
      exact absurd rfl used
  · intro inum notDir
    by_cases isRoot : inum = rootino
    · rw [isRoot] at notDir
      exact absurd rfl notDir
    · exact (other inum isRoot).2
  · intro inum
    by_cases isRoot : inum = rootino
    · rw [isRoot]
      exact ⟨rfl, rfl, by decide, by rintro _ ⟨⟩⟩
    · rw [(other inum isRoot).2]
      trivial
  · exact ⟨rfl, rfl, emptyDisk_names rootino⟩
  · intro inum _
    rw [emptyDisk_names]
    exact Nat.zero_le 1
  · intro d de mem isSub
    have proper := Image.Tree.isSubdir_proper isSub
    rw [emptyDisk_childless d de mem] at proper
    cases proper
  · intro inum isDir
    by_cases isRoot : inum = rootino
    · rw [isRoot]
      exact Nat.le_refl 2
    · rw [(other inum isRoot).1] at isDir
      cases isDir
  · intro inum
    by_cases isRoot : inum = rootino
    · intro bn below
      have first : bn = 0 := by
        rw [isRoot] at below
        have small : bn * 512 < 32 := below
        omega
      rw [isRoot, first]
      decide
    · rw [(other inum isRoot).1]
      exact Dinode.fresh_backed .free
  · intro inum isDir
    by_cases isRoot : inum = rootino
    · rw [isRoot]
      rfl
    · rw [(other inum isRoot).1] at isDir
      cases isDir

/-- A call of a process and its steps. -/
def Event.whole (p : P) (c : Call P) (steps : Nat) : List (Event P) :=
  .call p c :: List.replicate steps (.next p fun _ => 1)

/-- The first process makes the directory `/a`. -/
def madeDir : List (Event (Fin 2)) :=
  Event.whole 0 .userinit 2 ++ Event.whole 0 (.mkdir ⟨true, [.named "a"]⟩) 28

theorem cautious_of_check {s : System P}
    (checked : Runs.check step (fun s event => decide (event.Cautious s)) s events = true) :
    Runs.Meets step Event.Cautious s events :=
  .of_check (fun _ _ => of_decide_eq_true) checked

/-- The first process makes `/a` and `/a/b`, forks, goes to `/a/b` and removes it. Its
current directory has no links now, and an entry `..` for `/a`. -/
def strayed : List (Event (Fin 2)) :=
  madeDir ++ Event.whole 0 (.mkdir ⟨true, [.named "a", .named "b"]⟩) 35 ++
    Event.whole 0 (.fork 1) 1 ++ Event.whole 0 (.chdir ⟨true, [.named "a", .named "b"]⟩) 22 ++
    Event.whole 0 (.unlink ⟨true, [.named "a", .named "b"]⟩) 27

/-! ## Names and open files -/

section
variable (image : Image) (formed : image.WellFormed) (events : List (Event P))
  (cautious : Runs.Meets System.step Event.Cautious (System.boot image) events) (s : System P)
  (ran : (System.boot image).run events = some s)
include formed cautious ran

/-- At every point of a cautious run the inodes of current directories and open files are
allocated, and no directory is open for writing. -/
theorem open_files_allocated :
    (∀ p ip, s.cwd p = some ip → (s.dinode (s.inode ip).inum).type ≠ .free) ∧
      ∀ ip writable, (ip, writable) ∈ s.files → (s.dinode (s.inode ip).inum).type ≠ .free ∧
        (writable = true → (s.dinode (s.inode ip).inum).type ≠ .dir) := by
  obtain ⟨l, sound, -⟩ := formed.run cautious ran
  exact ⟨sound.data.usedCwd, sound.data.usedFile⟩

end

theorem open_files_allocated_madeDir :
    ∃ s ip, (System.boot emptyDisk).run madeDir = some s ∧ s.cwd 0 = some ip ∧
      (s.dinode (s.inode ip).inum).type ≠ .free :=
  ⟨_, _, rfl, rfl, (open_files_allocated emptyDisk emptyDisk_wellFormed madeDir
    (cautious_of_check rfl) _ rfl).1 0 _ rfl⟩

/-! ## The cache -/

section

variable {s : System P} {l : P → Local} {p : P} {ip : Fin ninode}

omit [Fintype P] [DecidableEq P] in
theorem Pc.eq_dropping {pc : Pc P} (inPhase : pc.phase = some (.dropping, ip)) :
    ∃ rest, pc = .dropping ip rest := by
  cases pc with
  | dropping other rest =>
    cases inPhase
    exact ⟨rest, rfl⟩
  | _ => cases inPhase

omit [DecidableEq P] in
/-- An inode that `ialloc` has just marked is referenced at most by an `iput` that has freed
it and is about to drop its entry. -/
theorem Sound.marked_ref (sound : Sound s l) {type : FileType}
    (keeps : (Pc.marked type inum rest).Keeps (l p)) (some : 0 < (s.inode ip).ref)
    (isInode : (s.inode ip).inum = inum) :
    (s.inode ip).ref = 1 ∧ ∃ q rest, s.pc q = .dropping ip rest := by
  classical
  obtain ⟨isFresh, none, -⟩ := keeps
  obtain ⟨-, -, -, unshared⟩ := sound.data.fresh p inum type isFresh
  have dropping : ∀ q, ∀ ref ∈ (l q).refs, ref.ip = ip →
      (s.pc q).phase = Option.some (.dropping, ip) := by
    rintro q ref mem rfl
    rw [sound.refs.named q ref mem] at isInode
    rcases unshared.refs q ref mem isInode with rfl | dropping
    · exact absurd isInode (none ref mem)
    · exact dropping
  have noCwd : ∀ q, s.cwd q ≠ Option.some ip := fun q isCwd => unshared.cwd q ip isCwd isInode
  have noFile : ∀ writable, (ip, writable) ∉ s.files :=
    fun writable file => unshared.files ip writable file isInode
  obtain ⟨q, ref, mem, isRef⟩ : ∃ q, ∃ ref ∈ (l q).refs, ref.ip = ip := by
    rcases sound.refs.holder some with mine | ⟨q, isCwd⟩ | ⟨writable, file⟩
    · exact mine
    · exact absurd isCwd (noCwd q)
    · exact absurd file (noFile writable)
  have isDropping := dropping q ref mem isRef
  refine ⟨?_, q, Pc.eq_dropping isDropping⟩
  have others : ∀ r, r ≠ q → held s l r ip = 0 := by
    intro r other
    rw [held, if_neg (noCwd r), Local.own, Nat.add_zero, Multiset.countP_eq_zero]
    intro ref mem isRef
    have theirs := dropping r ref mem isRef.1
    exact other (sound.locks.once r q ip (Or.inr ⟨_, theirs⟩) (Or.inr ⟨_, isDropping⟩))
  have noFiles : s.files.countP (fun file => file.1 = ip) = 0 := by
    rw [List.countP_eq_zero]
    rintro ⟨other, writable⟩ file isFile
    obtain rfl : other = ip := by simpa using isFile
    exact noFile writable file
  have counted := sound.refs.counted ip
  rw [noFiles, Finset.sum_eq_single q (fun r _ other => others r other)
    (fun absent => absurd (Finset.mem_univ q) absent), held, if_neg (noCwd q), Local.own] at counted
  have fewer : ((l q).refs.countP fun ref => ref.ip = ip ∧ ref.lent = false) ≤
      (l q).refs.countP fun ref => ref.ip = ip := by
    rw [Multiset.countP_eq_card_filter, Multiset.countP_eq_card_filter]
    exact Multiset.card_le_card (Multiset.monotone_filter_right _ fun _ both => both.1)
  have atMost := (sound.data.dropped q ip isDropping).2
  omega

end

/-- In a cautious run: an inode has one entry of the cache; an entry that is valid and not
busy agrees with the disk; `ialloc` returns an inode that nobody refers to, but for an `iput`
that has freed it; and `iput` frees an inode only with the last reference to it. -/
theorem inode_cache_coherent (image : Image) (formed : image.WellFormed) (events : List (Event P))
    (cautious : Runs.Meets System.step Event.Cautious (System.boot image) events) (s : System P)
    (ran : (System.boot image).run events = some s) :
    (∀ a b, 0 < (s.inode a).ref → 0 < (s.inode b).ref → (s.inode a).inum = (s.inode b).inum →
      a = b) ∧
    (∀ ip, 0 < (s.inode ip).ref → (s.inode ip).valid = true → (s.inode ip).busy = false →
      (s.inode ip).copy = s.dinode (s.inode ip).inum) ∧
    (∀ p type inum rest, s.pc p = .marked type inum rest → ∀ ip, 0 < (s.inode ip).ref →
      (s.inode ip).inum = inum → (s.inode ip).ref = 1 ∧ ∃ q rest, s.pc q = .dropping ip rest) ∧
    ∀ p ip rest, s.pc p = .truncating ip rest ∨ s.pc p = .freeing ip rest →
      (s.inode ip).ref = 1 := by
  obtain ⟨l, sound, keeps⟩ := formed.run cautious ran
  refine ⟨sound.refs.distinct, fun ip some valid idle => ?_,
    fun p type inum rest isAt ip some isInode => ?_, fun p ip rest isAt => ?_⟩
  · refine sound.data.coherent ip some valid fun q dropping => ?_
    exact sound.locks.unheld idle q (Or.inr ⟨_, dropping⟩)
  · have mine := keeps p
    rw [isAt] at mine
    exact sound.marked_ref mine some isInode
  · rcases isAt with isAt | isAt
    · exact (sound.data.ending p .truncating ip (by rw [isAt]; rfl) (Or.inl rfl)).1
    · exact (sound.data.ending p .freeing ip (by rw [isAt]; rfl) (Or.inr rfl)).1

/-- The first process removes `/a` again and is about to free its inode. -/
def removed : List (Event (Fin 2)) :=
  madeDir ++ Event.whole 0 (.unlink ⟨true, [.named "a"]⟩) 21

theorem inode_cache_coherent_removed :
    ∃ s, (System.boot emptyDisk).run removed = some s ∧
      (∀ ip, 0 < (s.inode ip).ref → (s.inode ip).valid = true → (s.inode ip).busy = false →
        (s.inode ip).copy = s.dinode (s.inode ip).inum) ∧
      ∀ p ip rest, s.pc p = .truncating ip rest ∨ s.pc p = .freeing ip rest →
        (s.inode ip).ref = 1 := by
  obtain ⟨s, ran⟩ : ∃ s, (System.boot emptyDisk).run removed = some s :=
    Option.isSome_iff_exists.mp (by decide +kernel)
  obtain ⟨-, coherent, -, last⟩ := inode_cache_coherent emptyDisk emptyDisk_wellFormed removed
    (cautious_of_check (by decide +kernel)) s ran
  exact ⟨s, ran, coherent, last⟩

/-- The second process removes `/a` and is about to free its inode, when the first one looks
for `..` in its current directory and gets a reference to it. -/
def raced : List (Event (Fin 2)) :=
  strayed ++ Event.whole 1 (.unlink ⟨true, [.named "a"]⟩) 21 ++
    Event.whole 0 (.chdir ⟨false, [.dotdot]⟩) 6

/-- The second process is about to free an inode that has two references. -/
def System.freesShared (s : System (Fin 2)) : Bool :=
  match s.pc 1 with
  | .freeing ip _ => (s.inode ip).ref = 2
  | _ => false

/-- `iput` frees an inode to which another process has a reference. -/
theorem inode_freed_while_referenced :
    emptyDisk.WellFormed ∧ ∃ s, (System.boot emptyDisk).run raced = some s ∧
      ∃ ip rest, s.pc 1 = .freeing ip rest ∧ (s.inode ip).ref = 2 := by
  refine ⟨emptyDisk_wellFormed, ?_⟩
  have shared : ((System.boot emptyDisk).run raced).map System.freesShared = some true := by
    decide +kernel
  obtain ⟨s, ran, isShared⟩ := Option.map_eq_some_iff.mp shared
  refine ⟨s, ran, ?_⟩
  rw [System.freesShared] at isShared
  split at isShared
  · rename_i ip rest isAt
    exact ⟨ip, rest, isAt, of_decide_eq_true isShared⟩
  · cases isShared

/-! ## Path lookup -/

section

variable {s : System P} {l : P → Local} {p : P} {message : String}

omit [Fintype P] in
theorem igetThen_error (failed : s.igetThen p inum rest = .error message) :
    message = "iget: no inodes" := by
  rcases Except.of_bind_error failed with failed | ⟨_, -, failed⟩
  · rw [System.iget] at failed
    split at failed
    · cases failed
    · split at failed
      · cases failed
      · cases failed
        rfl
  · cases failed

/-- The panics of the calls that a process begins. -/
theorem begin_error {balloc : Supply} {program : Program P} (keeps : program.Keeps (l p))
    (failed : s.begin p balloc program = .error message) : message ≠ "ilock: no type" := by
  cases program with
  | panic text =>
    cases failed
    exact keeps
  | iget inum rest =>
    rw [igetThen_error failed]
    decide
  | idup rest =>
    simp only [begin] at failed
    split at failed <;> cases failed
  | ilock ip rest =>
    simp only [begin] at failed
    split at failed
    · cases failed
      decide
    · split at failed <;> cases failed
  | iunlock ip rest =>
    simp only [begin] at failed
    split at failed
    · cases failed
      decide
    · cases failed
  | iput ip rest =>
    simp only [begin, System.iput] at failed
    split at failed
    · split at failed
      · cases failed
        decide
      · cases failed
    · cases failed
  | dirlookup dp name rest =>
    simp only [begin] at failed
    split at failed
    · cases failed
      decide
    · split at failed
      · cases failed
      · rw [igetThen_error failed]
        decide
  | enter dp name ip rest =>
    simp only [begin] at failed
    split at failed
    · cases failed
      decide
    · cases failed
  | clear dp off rest =>
    simp only [begin] at failed
    split at failed
    · cases failed
      decide
    · cases failed
  | writei ip off n rest =>
    simp only [begin] at failed
    split at failed <;> cases failed
  | takeCwd rest =>
    simp only [begin] at failed
    split at failed <;> cases failed
  | fork child rest =>
    simp only [begin] at failed
    split at failed <;> cases failed
  | fileclose ip writable rest =>
    simp only [begin] at failed
    split at failed <;> cases failed
  | useFile ip writable rest =>
    simp only [begin] at failed
    split at failed <;> cases failed
  | _ => cases failed

omit [DecidableEq P] in
/-- What a process is about to load is allocated. -/
theorem Sound.loading_used (sound : Sound s l) {ip : Fin ninode} {rest : Program P}
    (isAt : s.pc p = .loading ip rest) : (s.dinode (s.inode ip).inum).type ≠ .free := by
  have inPhase : (s.pc p).phase = some (.loading, ip) := by
    rw [isAt]
    rfl
  obtain ⟨ref, mem, rfl⟩ := sound.locks.kept p ip (Or.inr ⟨_, inPhase⟩)
  rw [sound.refs.named p ref mem]
  exact (sound.data.used p ref mem (by rw [inPhase]; simp)).1

/-- No step fails because an inode has no type. -/
theorem Sound.step_error (sound : Sound s l) (keeps : ∀ q, (s.pc q).Keeps (l q)) {event : Event P}
    (failed : s.step event = .error message) : message ≠ "ilock: no type" := by
  cases event with
  | call p c =>
    simp only [System.step] at failed
    split at failed <;> cases failed
  | next p balloc =>
    have mine := keeps p
    rw [System.step, System.next] at failed
    split at failed
    · rename_i program isAt
      rw [isAt] at mine
      exact begin_error mine failed
    · rename_i ip rest isAt
      split at failed
      · cases failed
      · split at failed
        · rename_i free
          exact absurd free (sound.loading_used isAt)
        · cases failed
    · cases failed
    · cases failed
    · cases failed
    · split at failed
      · split at failed <;> cases failed
      · cases failed
        decide
    · rw [igetThen_error failed]
      decide

end

/-- In a cautious run every inode that is locked is allocated on the disk: `ilock` does not
panic for want of a type. -/
theorem no_dangling_names (image : Image) (formed : image.WellFormed) (events : List (Event P))
    (cautious : Runs.Meets System.step Event.Cautious (System.boot image) events) (s : System P)
    (ran : (System.boot image).run events = some s) :
    (∀ p ip rest, s.pc p = .loading ip rest → (s.dinode (s.inode ip).inum).type ≠ .free) ∧
      ∀ event, s.step event ≠ .error "ilock: no type" := by
  obtain ⟨l, sound, keeps⟩ := formed.run cautious ran
  exact ⟨fun p ip rest isAt => sound.loading_used isAt,
    fun event failed => sound.step_error keeps failed rfl⟩

theorem no_dangling_names_madeDir :
    ∃ s, (System.boot emptyDisk).run madeDir = some s ∧
      (∀ p ip rest, s.pc p = .loading ip rest → (s.dinode (s.inode ip).inum).type ≠ .free) ∧
      ∀ event, s.step event ≠ .error "ilock: no type" := by
  obtain ⟨s, ran⟩ : ∃ s, (System.boot emptyDisk).run madeDir = some s :=
    Option.isSome_iff_exists.mp (by decide +kernel)
  exact ⟨s, ran, no_dangling_names emptyDisk emptyDisk_wellFormed madeDir
    (cautious_of_check (by decide +kernel)) s ran⟩

/-- The second process removes `/a`, which `..` of the first one's current directory names,
and the first one goes there. -/
def dangled : List (Event (Fin 2)) :=
  strayed ++ Event.whole 1 (.unlink ⟨true, [.named "a"]⟩) 24 ++
    Event.whole 0 (.chdir ⟨false, [.dotdot]⟩) 9

/-- The next step of the first process fails because an inode has no type. -/
def System.lacksType (s : System (Fin 2)) : Bool :=
  match s.step (.next 0 fun _ => 1) with
  | .error message => message = "ilock: no type"
  | _ => false

/-- The lookup of `..` in a directory without links leads to a free inode. -/
theorem dangling_name_locked :
    emptyDisk.WellFormed ∧ ∃ s, (System.boot emptyDisk).run dangled = some s ∧
      s.step (.next 0 fun _ => 1) = .error "ilock: no type" := by
  refine ⟨emptyDisk_wellFormed, ?_⟩
  have lacks : ((System.boot emptyDisk).run dangled).map System.lacksType = some true := by
    decide +kernel
  obtain ⟨s, ran, isLacking⟩ := Option.map_eq_some_iff.mp lacks
  refine ⟨s, ran, ?_⟩
  rw [System.lacksType] at isLacking
  split at isLacking
  · rename_i message failed
    rw [failed, of_decide_eq_true isLacking]
  · cases isLacking

end Xv6.Fs
