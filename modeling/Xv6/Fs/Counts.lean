import Xv6.Fs.Consistency

/-!
# Link counts

When no call is in progress, the law of the tree says what one expects of link counts: the
count of an inode is the number of entries for it, but for those named `.`, in directories
that have links themselves. The entries `..` of the subdirectories of a directory are counted
by the names of the subdirectories.
-/

namespace Xv6.Fs

open Finset List

namespace Image

/-- An entry for an inode that is not named `.`. -/
def links (inum : Nat) (de : Dirent) : Bool := de.inum ≠ 0 && de.inum = inum && de.name ≠ .dot

/-- The entries for an inode, but for those named `.`, in directories with links. -/
def linkedNames (image : Image) (inum : Nat) : Nat :=
  ∑ d ∈ Finset.range image.ninodes,
    if (image.dinode d).nlink = 0 then 0 else (image.entries d).countP (links inum)

/-- The entries for an inode in one directory: its names and perhaps `..`. -/
theorem countP_links {d inum : Nat} {entries : List Dirent} (shaped : Shaped d entries) :
    entries.countP (links inum) = entries.countP (Dirent.names inum) +
      if dotdot entries = some inum then 1 else 0 := by
  match entries with
  | [] => rfl
  | [self] =>
    cases shaped
    simp [links, Dirent.names, Dirent.proper, Name.plain, dotdot]
  | self :: parent :: rest =>
    obtain ⟨rfl, isParent, used, plain⟩ := shaped
    have later : rest.countP (links inum) = rest.countP (Dirent.names inum) := by
      refine countP_congr fun de mem => ?_
      simp only [links, Dirent.names, Dirent.proper, Bool.and_eq_true_iff, decide_eq_true_eq]
      constructor
      · rintro ⟨⟨real, isInode⟩, -⟩
        exact ⟨⟨real, plain de mem real⟩, isInode⟩
      · rintro ⟨⟨real, isPlain⟩, isInode⟩
        refine ⟨⟨real, isInode⟩, fun isDot => ?_⟩
        rw [isDot] at isPlain
        cases isPlain
    have first : links inum ⟨d, .dot⟩ = false ∧ Dirent.names inum ⟨d, .dot⟩ = false := by
      simp [links, Dirent.names, Dirent.proper, Name.plain]
    have second : Dirent.names inum parent = false := by
      simp [Dirent.names, Dirent.proper, isParent, Name.plain]
    have up : (links inum parent = true) ↔ dotdot (⟨d, .dot⟩ :: parent :: rest) = some inum := by
      simp [links, used, isParent, dotdot]
    simp only [countP_cons, first, second, later, up]
    simp

namespace Tree

variable {image : Image} (tree : image.Tree fun _ => 0)

include tree

/-- The names of a directory in another one: there is one exactly when the other one is its
parent. -/
theorem countP_names {d : Nat} (isDir : (image.dinode d).type = .dir) (notRoot : d ≠ rootino)
    (parent : Nat) :
    (image.entries parent).countP (Dirent.names d) =
      if (image.dinode d).nlink ≠ 0 ∧ dotdot (image.entries d) = some parent then 1 else 0 := by
  have isSub : ∀ {de : Dirent}, de.names d = true → image.isSubdir de = true := by
    intro de isName
    obtain ⟨proper, rfl⟩ := Dirent.names_iff.mp isName
    simp [isSubdir, proper, isDir]
  split
  · rename_i isParent
    obtain ⟨linked, up⟩ := isParent
    rcases tree.rooted_of_linked linked rfl with isRoot | isNamed
    · exact absurd isRoot notRoot
    · obtain ⟨above, de, mem, isName⟩ := of_named isNamed
      have same := tree.parent above de mem (isSub isName)
      rw [(Dirent.names_iff.mp isName).2, up, Option.some.injEq] at same
      subst same
      have some : 0 < (image.entries parent).countP (Dirent.names d) :=
        countP_pos_iff.mpr ⟨de, mem, isName⟩
      have all := Sums.le_of_mem (fun j => (image.entries j).countP (Dirent.names d))
        (Finset.mem_range.mpr (tree.lt_of_mem mem))
      have atMost := tree.once d isDir
      rw [names] at atMost
      omega
  · rename_i notParent
    rw [countP_eq_zero]
    intro de mem isName
    have up := tree.parent parent de mem (isSub isName)
    have linked := tree.rooted_linked (Or.inr (tree.named mem isName))
    rw [(Dirent.names_iff.mp isName).2] at up
    exact notParent ⟨linked, up⟩

/-- The entries `..` for a directory, in directories with links. -/
theorem sum_dotdot (inum : Nat) :
    ∑ d ∈ Finset.range image.ninodes,
      (if (image.dinode d).nlink ≠ 0 ∧ dotdot (image.entries d) = some inum then 1 else 0) =
      image.subdirs inum + rootLink inum := by
  have rootBelow := (tree.bound rootino (by rw [tree.root.1]; rintro ⟨⟩)).2
  have each : ∀ d, (if (image.dinode d).nlink ≠ 0 ∧ dotdot (image.entries d) = some inum then 1 else 0) =
      (image.entries inum).countP (fun de => image.isSubdir de && de.inum = d) +
        if d = rootino then rootLink inum else 0 := by
    intro d
    by_cases isDir : (image.dinode d).type = .dir
    · have same : (image.entries inum).countP (fun de => image.isSubdir de && de.inum = d) =
          (image.entries inum).countP (Dirent.names d) := by
        refine countP_congr fun de _ => ?_
        simp only [isSubdir, Dirent.names, Bool.and_eq_true_iff, decide_eq_true_eq]
        constructor
        · rintro ⟨⟨proper, -⟩, isInode⟩
          exact ⟨proper, isInode⟩
        · rintro ⟨proper, rfl⟩
          exact ⟨⟨proper, isDir⟩, rfl⟩
      rw [same]
      by_cases isRoot : d = rootino
      · subst isRoot
        have none : (image.entries inum).countP (Dirent.names rootino) = 0 := by
          rw [countP_eq_zero]
          intro de mem isName
          exact tree.named mem isName tree.root.2.2
        have linked := tree.rooted_linked (Or.inl rfl)
        rw [none, tree.root.2.1, if_pos rfl, rootLink]
        simp [linked, eq_comm]
      · rw [tree.countP_names isDir isRoot inum, if_neg isRoot, Nat.add_zero]
    · have notRoot : d ≠ rootino := by
        rintro rfl
        exact isDir tree.root.1
      have none : (image.entries inum).countP (fun de => image.isSubdir de && de.inum = d) = 0 := by
        rw [countP_eq_zero]
        rintro de _ isSub
        simp only [isSubdir, Bool.and_eq_true_iff, decide_eq_true_eq] at isSub
        rw [isSub.2] at isSub
        exact isDir isSub.1.2
      rw [none, tree.onlyDirs d isDir, if_neg notRoot]
      simp [dotdot]
  rw [sum_congr rfl fun d _ => each d, sum_add_distrib, sum_ite_eq',
    if_pos (Finset.mem_range.mpr rootBelow), subdirs]
  congr 1
  refine Sums.countP_by image.isSubdir Dirent.inum fun de mem isSub => ?_
  have isDir : (image.dinode de.inum).type = .dir := by
    simp only [isSubdir, Bool.and_eq_true_iff, decide_eq_true_eq] at isSub
    exact isSub.2
  exact Finset.mem_range.mpr (tree.bound de.inum (by rw [isDir]; rintro ⟨⟩)).2

/-- A file system that nobody uses has the link counts that its entries give. -/
theorem nlink_eq (inum : Nat) : (image.dinode inum).nlink = image.linkedNames inum := by
  have each : ∀ d, (if (image.dinode d).nlink = 0 then 0
      else (image.entries d).countP (links inum)) =
      (image.entries d).countP (Dirent.names inum) +
        if (image.dinode d).nlink ≠ 0 ∧ dotdot (image.entries d) = some inum then 1 else 0 := by
    intro d
    by_cases unlinked : (image.dinode d).nlink = 0
    · have bare := tree.childless d fun rooted => tree.rooted_linked rooted unlinked
      have none : (image.entries d).countP (Dirent.names inum) = 0 :=
        bare.countP fun _ isName => (Dirent.names_iff.mp isName).1
      simp [unlinked, none]
    · rw [if_neg unlinked, countP_links (tree.shaped d)]
      simp [unlinked]
  rw [tree.law inum, linkedNames, sum_congr rfl fun d _ => each d, sum_add_distrib,
    tree.sum_dotdot inum, names]
  omega

end Tree

end Image

variable {P : Type} [Fintype P] [DecidableEq P]

/-- When no call is in progress after a cautious run, the link count of every inode is the
number of entries for it, but for those named `.`, in directories with links. -/
theorem link_counts_exact (image : Image) (formed : image.WellFormed) (events : List (Event P))
    (cautious : Runs.Meets System.step Event.Cautious (System.boot image) events) (s : System P)
    (ran : (System.boot image).run events = some s) (quiet : ∀ p, s.pc p = .run .idle)
    (inum : Nat) :
    (s.dinode inum).nlink = s.linkedNames inum ∧
      (0 < (s.dinode inum).nlink → ∃ d, (s.dinode d).nlink ≠ 0 ∧ ∃ de ∈ s.entries d,
        de.inum = inum ∧ de.name ≠ .dot) := by
  obtain ⟨l, sound, keeps⟩ := formed.run cautious ran
  have tree := sound.forest.tree
  have none : (fun inum => ∑ q, (l q).debt inum) = fun _ => 0 := by
    funext inum
    refine Finset.sum_eq_zero fun q _ => ?_
    have spent : (l q).Spent := by
      have mine := keeps q
      rw [quiet q] at mine
      exact mine
    rw [Local.debt, spent.owed]
    rfl
  rw [none] at tree
  refine ⟨tree.nlink_eq inum, fun linked => ?_⟩
  rw [tree.nlink_eq inum] at linked
  have some : s.linkedNames inum ≠ 0 := by omega
  obtain ⟨d, -, term⟩ := Finset.exists_ne_zero_of_sum_ne_zero some
  split at term
  · exact absurd rfl term
  · rename_i linkedDir
    obtain ⟨de, mem, isLink⟩ := List.countP_pos_iff.mp (Nat.pos_of_ne_zero term)
    simp only [Image.links, Bool.and_eq_true_iff, decide_eq_true_eq] at isLink
    exact ⟨d, linkedDir, de, mem, isLink.1.2, isLink.2⟩

/-- No process is in a call. -/
def System.quiet (s : System (Fin 2)) : Bool :=
  (List.finRange 2).all fun p =>
    match s.pc p with
    | .run .idle => true
    | _ => false

theorem System.idle_of_quiet {s : System (Fin 2)} (quiet : s.quiet = true) (p : Fin 2) :
    s.pc p = .run .idle := by
  have idle := all_eq_true.mp quiet p (mem_finRange p)
  split at idle
  · assumption
  · cases idle

theorem link_counts_exact_madeDir :
    ∃ s, (System.boot emptyDisk).run madeDir = some s ∧ (s.dinode 2).type = .dir ∧
      (s.dinode 2).nlink = s.linkedNames 2 := by
  have made : ((System.boot emptyDisk).run madeDir).map
      (fun s => (s.quiet, (s.dinode 2).type)) = some (true, .dir) := by
    decide +kernel
  obtain ⟨s, ran, isMade⟩ := Option.map_eq_some_iff.mp made
  obtain ⟨quiet, isDir⟩ := Prod.mk.inj isMade
  refine ⟨s, ran, isDir, ?_⟩
  exact (link_counts_exact emptyDisk emptyDisk_wellFormed madeDir
    (cautious_of_check (by decide +kernel)) s ran (s.idle_of_quiet quiet) 2).1

/-- The first process goes to `/a`, removes it, and makes the file `b` in its current
directory, which has no links any more. -/
def homeless : List (Event (Fin 2)) :=
  madeDir ++ Event.whole 0 (.chdir ⟨true, [.named "a"]⟩) 16 ++
    Event.whole 0 (.unlink ⟨true, [.named "a"]⟩) 21 ++
    Event.whole 0 (.open ⟨false, [.named "b"]⟩ 0x202 true) 24

/-- The new file has link count 1, and no directory with links has an entry for it. -/
theorem link_count_of_lost_file :
    emptyDisk.WellFormed ∧ ∃ s, (System.boot emptyDisk).run homeless = some s ∧
      (∀ p, s.pc p = .run .idle) ∧ (s.dinode 3).type = .file ∧ (s.dinode 3).nlink = 1 ∧
      s.linkedNames 3 = 0 := by
  refine ⟨emptyDisk_wellFormed, ?_⟩
  have lost : ((System.boot emptyDisk).run homeless).map
      (fun s => (s.quiet, (s.dinode 3).type, (s.dinode 3).nlink, s.linkedNames 3)) =
      some (true, .file, 1, 0) := by
    decide +kernel
  obtain ⟨s, ran, isLost⟩ := Option.map_eq_some_iff.mp lost
  obtain ⟨quiet, rest⟩ := Prod.mk.inj isLost
  obtain ⟨isFile, rest⟩ := Prod.mk.inj rest
  obtain ⟨nlink, unnamed⟩ := Prod.mk.inj rest
  exact ⟨s, ran, s.idle_of_quiet quiet, isFile, nlink, unnamed⟩

end Xv6.Fs
