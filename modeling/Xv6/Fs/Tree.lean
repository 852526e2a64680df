import Xv6.Fs.Directory
import Xv6.Lib.Sums

/-!
# The directory tree and its link counts

The law that the link counts of an image obey while calls are under way: a count is the
number of proper entries for the inode, plus one for each subdirectory that the inode has,
plus what the calls under way still owe. A call owes an inode a link from when it has raised
the count until it has written the entry, or from when it has cleared the entry until it has
lowered the count. So nothing is ever owed to the other side.

With the law go the facts that make a tree of the directories: each is named once, by the
directory that its `..` names, and one that is not named has no proper entries.
-/

namespace Xv6.Fs.Image

open Dirent

/-- The proper entries for an inode. -/
def names (image : Image) (inum : Nat) : Nat :=
  ∑ d ∈ Finset.range image.ninodes, (image.entries d).countP (Dirent.names inum)

/-- A proper entry for a directory. -/
def isSubdir (image : Image) (de : Dirent) : Bool :=
  de.proper && (image.dinode de.inum).type = .dir

/-- The proper entries for directories that an inode has. -/
def subdirs (image : Image) (inum : Nat) : Nat := (image.entries inum).countP image.isSubdir

/-- The root directory names itself as its parent. -/
def rootLink (inum : Nat) : Nat := if inum = rootino then 1 else 0

/-- A directory that is the root or has a name. -/
def Rooted (image : Image) (inum : Nat) : Prop := inum = rootino ∨ image.names inum ≠ 0

/-- The link counts and the tree, with what calls under way owe. -/
structure Tree (image : Image) (owed : Nat → Nat) : Prop where
  law : ∀ i, (image.dinode i).nlink =
    (image.names i + image.subdirs i + rootLink i + owed i : Nat)
  free : ∀ i, (image.dinode i).type = .free → (image.dinode i).nlink = 0
  bound : ∀ i, (image.dinode i).type ≠ .free → i ≠ 0 ∧ i < image.ninodes
  onlyDirs : ∀ d, (image.dinode d).type ≠ .dir → image.entries d = []
  shaped : ∀ d, Shaped d (image.entries d)
  root : (image.dinode rootino).type = .dir ∧ dotdot (image.entries rootino) = some rootino ∧
    image.names rootino = 0
  childless : ∀ d, ¬ image.Rooted d → Childless (image.entries d)
  once : ∀ d, (image.dinode d).type = .dir → image.names d ≤ 1
  parent : ∀ d, ∀ de ∈ image.entries d, image.isSubdir de = true →
    dotdot (image.entries de.inum) = some d

namespace Tree

variable {image : Image} {owed : Nat → Nat} {i : Nat} {de : Dirent}

/-! ## What the law gives -/

theorem linked_used (tree : image.Tree owed) (linked : (image.dinode i).nlink ≠ 0) :
    (image.dinode i).type ≠ .free :=
  fun free => linked (tree.free i free)

theorem inum_pos (tree : image.Tree owed) (used : (image.dinode i).type ≠ .free) :
    i ≠ 0 :=
  (tree.bound i used).1

theorem lt_of_mem (tree : image.Tree owed) {d : Nat} (mem : de ∈ image.entries d) :
    d < image.ninodes := by
  refine (tree.bound d fun free => ?_).2
  have none := tree.onlyDirs d (by rw [free]; simp)
  rw [none] at mem
  cases mem

/-- An inode with a proper entry is named. -/
theorem named (tree : image.Tree owed) {d : Nat} (mem : de ∈ image.entries d)
    (isName : de.names i = true) : image.names i ≠ 0 := by
  intro none
  have here := Sums.eq_zero_of_mem none (Finset.mem_range.mpr (tree.lt_of_mem mem))
  exact List.countP_eq_zero.mp here de mem isName

/-- An inode that is named has a proper entry. -/
theorem of_named (isNamed : image.names i ≠ 0) :
    ∃ d, ∃ de ∈ image.entries d, de.names i = true := by
  obtain ⟨d, -, some⟩ := Finset.exists_ne_zero_of_sum_ne_zero isNamed
  obtain ⟨de, mem, isName⟩ := List.countP_pos_iff.mp (Nat.pos_of_ne_zero some)
  exact ⟨d, de, mem, isName⟩

/-- What is named or is the root is linked. -/
theorem rooted_linked (tree : image.Tree owed) (rooted : image.Rooted i) :
    (image.dinode i).nlink ≠ 0 := by
  rw [tree.law i]
  rcases rooted with rfl | isNamed
  · simp only [rootLink, if_true]
    omega
  · omega

/-- A directory with a proper entry is the root or named. -/
theorem rooted_of_proper (tree : image.Tree owed) {d : Nat} (mem : de ∈ image.entries d)
    (proper : de.proper = true) : image.Rooted d := by
  by_contra unrooted
  rw [tree.childless d unrooted de mem] at proper
  cases proper

theorem isSubdir_proper (isSub : image.isSubdir de = true) : de.proper = true :=
  (Bool.and_eq_true_iff.mp isSub).1

theorem subdirs_eq_zero {d : Nat} (childless : Childless (image.entries d)) :
    image.subdirs d = 0 :=
  childless.countP fun _ => isSubdir_proper

/-- A linked directory to which nothing is owed is the root or named. -/
theorem rooted_of_linked (tree : image.Tree owed) {d : Nat} (linked : (image.dinode d).nlink ≠ 0)
    (settled : owed d = 0) : image.Rooted d := by
  by_contra unrooted
  have none := subdirs_eq_zero (tree.childless d unrooted)
  obtain ⟨other, unnamed⟩ := not_or.mp unrooted
  rw [tree.law d, none, settled, Decidable.not_not.mp unnamed, rootLink, if_neg other] at linked
  exact linked rfl

/-- The inode of a proper entry is linked. -/
theorem target_linked (tree : image.Tree owed) {d : Nat} (mem : de ∈ image.entries d)
    (proper : de.proper = true) :
    (image.dinode de.inum).nlink ≠ 0 :=
  tree.rooted_linked (Or.inr (tree.named mem (names_iff.mpr ⟨proper, rfl⟩)))

/-- The parent of a directory that is the root or named is linked. -/
theorem dotdot_linked (tree : image.Tree owed) {d parent : Nat}
    (isDir : (image.dinode d).type = .dir) (rooted : image.Rooted d)
    (up : dotdot (image.entries d) = some parent) : (image.dinode parent).nlink ≠ 0 := by
  rcases rooted with rfl | isNamed
  · rw [tree.root.2.1, Option.some.injEq] at up
    subst up
    exact tree.rooted_linked (Or.inl rfl)
  · obtain ⟨above, de, mem, isName⟩ := of_named isNamed
    obtain ⟨proper, rfl⟩ := names_iff.mp isName
    have same := tree.parent above de mem (by simp [isSubdir, proper, isDir])
    rw [up, Option.some.injEq] at same
    subst same
    exact tree.rooted_linked (tree.rooted_of_proper mem proper)

/-! ## Changes that leave the entries as they are -/

variable {after : Image} {owedAfter : Nat → Nat}

theorem isSubdir_congr (types : ∀ i, (after.dinode i).type = (image.dinode i).type) :
    after.isSubdir = image.isSubdir := by
  funext de
  rw [isSubdir, isSubdir, types]

/-- A proper entry names its own inode. -/
theorem names_mk {name : Name} (proper : (⟨i, name⟩ : Dirent).proper = true) {j : Nat} :
    Dirent.names j ⟨i, name⟩ = true ↔ j = i := by
  rw [names_iff]
  exact ⟨fun both => both.2.symm, fun same => ⟨proper, same.symm⟩⟩

theorem names_congr (size : after.ninodes = image.ninodes) (entries : after.entries = image.entries)
    (i : Nat) : after.names i = image.names i := by
  rw [names, names, size, entries]

section

variable (tree : image.Tree owed) (size : after.ninodes = image.ninodes)
  (entries : after.entries = image.entries)

include tree size entries

/-- Link counts change together with what is owed. -/
theorem relink (types : ∀ i, (after.dinode i).type = (image.dinode i).type)
    (links : ∀ i, (after.dinode i).nlink + owed i = (image.dinode i).nlink + owedAfter i)
    (solvent : ∀ i, (image.dinode i).type = .free → owedAfter i = 0) :
    after.Tree owedAfter := by
  have sameNames := names_congr size entries
  have rooted : ∀ d, after.Rooted d ↔ image.Rooted d := by
    intro d
    rw [Rooted, Rooted, sameNames]
  have isSub := isSubdir_congr types
  exact {
    law := by
      intro i
      have law := tree.law i
      have change := links i
      rw [sameNames, subdirs, isSub, entries, ← subdirs]
      push_cast at law ⊢
      omega
    free := by
      intro i free
      rw [types] at free
      have law := tree.law i
      have change := links i
      rw [tree.free i free] at law change
      rw [solvent i free] at change
      push_cast at law
      omega
    bound := by
      intro i used
      rw [types] at used
      rw [size]
      exact tree.bound i used
    onlyDirs := by
      intro d other
      rw [types] at other
      rw [entries]
      exact tree.onlyDirs d other
    shaped := by
      rw [entries]
      exact tree.shaped
    root := by
      rw [types, entries, sameNames]
      exact tree.root
    childless := by
      intro d unrooted
      rw [entries]
      exact tree.childless d (fun was => unrooted ((rooted d).mpr was))
    once := by
      intro d isDir
      rw [types] at isDir
      rw [sameNames]
      exact tree.once d isDir
    parent := by
      rw [entries, isSub]
      exact tree.parent }

/-- An unlinked inode without contents becomes used or free. -/
theorem retype
    (others : ∀ j, j ≠ i → after.dinode j = image.dinode j) (unlinked : (image.dinode i).nlink = 0)
    (still : (after.dinode i).nlink = 0) (empty : image.entries i = [])
    (bound : (after.dinode i).type ≠ .free → i ≠ 0 ∧ i < image.ninodes) : after.Tree owed := by
  have sameNames := names_congr size entries
  have unnamed : ∀ d, ∀ de ∈ image.entries d, de.proper = true → de.inum ≠ i := by
    rintro d de mem proper rfl
    exact tree.target_linked mem proper unlinked
  have notRoot : rootino ≠ i := by
    rintro rfl
    exact tree.rooted_linked (Or.inl rfl) unlinked
  have isSub : ∀ d, ∀ de ∈ image.entries d, after.isSubdir de = image.isSubdir de := by
    intro d de mem
    cases proper : de.proper with
    | false => simp [isSubdir, proper]
    | true => rw [isSubdir, isSubdir, others _ (unnamed d de mem proper)]
  have rooted : ∀ d, after.Rooted d ↔ image.Rooted d := by
    intro d
    rw [Rooted, Rooted, sameNames]
  exact {
    law := by
      intro j
      have sameSubs : after.subdirs j = image.subdirs j := by
        rw [subdirs, subdirs, entries]
        exact List.countP_congr fun de mem => by rw [isSub j de mem]
      rw [sameNames, sameSubs, ← tree.law j]
      by_cases same : j = i
      · rw [same, still, unlinked]
      · rw [others j same]
    free := by
      intro j free
      by_cases same : j = i
      · rw [same, still]
      · rw [others j same] at free ⊢
        exact tree.free j free
    bound := by
      intro j used
      rw [size]
      by_cases same : j = i
      · subst same
        exact bound used
      · rw [others j same] at used
        exact tree.bound j used
    onlyDirs := by
      intro d other
      rw [entries]
      by_cases same : d = i
      · rw [same, empty]
      · rw [others d same] at other
        exact tree.onlyDirs d other
    shaped := by
      rw [entries]
      exact tree.shaped
    root := by
      rw [others _ notRoot, entries, sameNames]
      exact tree.root
    childless := by
      intro d unrooted
      rw [entries]
      exact tree.childless d (fun was => unrooted ((rooted d).mpr was))
    once := by
      intro d isDir
      rw [sameNames]
      by_cases same : d = i
      · subst same
        have law := tree.law d
        rw [unlinked] at law
        omega
      · rw [others d same] at isDir
        exact tree.once d isDir
    parent := by
      rw [entries]
      intro d de mem isSubdir
      exact tree.parent d de mem ((isSub d de mem).symm.trans isSubdir) }

end

/-! ## Changes to the entries of one directory -/

section Entries

variable {d : Nat} {name : Name} {off : Nat}

section

variable (size : after.ninodes = image.ninodes) (below : d < image.ninodes)
  (others : ∀ j, j ≠ d → after.entries j = image.entries j)

include size below others

/-- How many entries an inode has, when those of one directory change. -/
theorem names_change (i : Nat) :
    after.names i + (image.entries d).countP (Dirent.names i) =
      image.names i + (after.entries d).countP (Dirent.names i) := by
  rw [names, names, size]
  refine Sums.change (fun j => (image.entries j).countP (Dirent.names i))
    (fun j => (after.entries j).countP (Dirent.names i)) (Finset.mem_range.mpr below) ?_
  intro j _ other
  rw [others j other]

/-- When the same entries are proper, the counts stay. -/
theorem names_same (same : ∀ kind : Dirent → Bool, (∀ de, kind de = true → de.proper = true) →
      (after.entries d).countP kind = (image.entries d).countP kind) (i : Nat) :
    after.names i = image.names i := by
  have change := names_change size below others i
  have counts := same (Dirent.names i) fun de isName => (names_iff.mp isName).1
  omega

end

section

variable (tree : image.Tree owed) (size : after.ninodes = image.ninodes)
  (others : ∀ j, j ≠ d → after.entries j = image.entries j)

include tree size others

/-- The names stay when a directory without proper entries is written anew. -/
theorem names_reshape (isDir : (image.dinode d).type ≠ .free) (unrooted : ¬ image.Rooted d)
    (childless : Childless (after.entries d)) (i : Nat) : after.names i = image.names i := by
  have bare := tree.childless d unrooted
  refine names_same size (tree.bound d isDir).2 others (fun kind proper => ?_) i
  rw [childless.countP proper, bare.countP proper]

section

variable (types : ∀ i, (after.dinode i).type = (image.dinode i).type)
  (links : ∀ i, (after.dinode i).nlink = (image.dinode i).nlink)

include types links

/-- The proper entries stay, in a directory that no proper entry names. -/
theorem reshape (isDir : (image.dinode d).type ≠ .free)
    (only : (image.dinode d).type ≠ .dir → after.entries d = [])
    (unrooted : ¬ image.Rooted d)
    (childless : Childless (after.entries d)) (shaped : Shaped d (after.entries d)) :
    after.Tree owed := by
  have bare := tree.childless d unrooted
  have sameNames := tree.names_reshape size others isDir unrooted childless
  have notRoot : rootino ≠ d := fun same => unrooted (Or.inl same.symm)
  have rooted : ∀ i, after.Rooted i ↔ image.Rooted i := by
    intro i
    rw [Rooted, Rooted, sameNames]
  have isSub := isSubdir_congr types
  exact {
    law := by
      intro i
      rw [sameNames, links, tree.law i]
      by_cases same : i = d
      · subst same
        rw [subdirs_eq_zero bare, subdirs_eq_zero childless]
      · rw [subdirs, subdirs, isSub, others i same]
    free := by
      intro i free
      rw [types] at free
      rw [links]
      exact tree.free i free
    bound := by
      intro i used
      rw [types] at used
      rw [size]
      exact tree.bound i used
    onlyDirs := by
      intro i other
      rw [types] at other
      by_cases same : i = d
      · subst same
        exact only other
      · rw [others i same]
        exact tree.onlyDirs i other
    shaped := by
      intro i
      by_cases same : i = d
      · subst same
        exact shaped
      · rw [others i same]
        exact tree.shaped i
    root := by
      rw [types, others _ notRoot, sameNames]
      exact tree.root
    childless := by
      intro i unrooted
      by_cases same : i = d
      · subst same
        exact childless
      · rw [others i same]
        exact tree.childless i (fun was => unrooted ((rooted i).mpr was))
    once := by
      intro i isDir
      rw [types] at isDir
      rw [sameNames]
      exact tree.once i isDir
    parent := by
      intro i de mem isSubdir
      rw [isSub] at isSubdir
      have proper := isSubdir_proper isSubdir
      by_cases same : i = d
      · subst same
        rw [childless de mem] at proper
        cases proper
      · rw [others i same] at mem
        have target : de.inum ≠ d := by
          rintro rfl
          exact unrooted (Or.inr (tree.named mem (names_iff.mpr ⟨proper, rfl⟩)))
        rw [others _ target]
        exact tree.parent i de mem isSubdir }

/-- The counts that do not change when the entries of a directory do. -/
theorem rewrite (isDir : (image.dinode d).type = .dir)
    (law : ∀ i, after.names i + after.subdirs i + owedAfter i =
      image.names i + image.subdirs i + owed i)
    (shaped : Shaped d (after.entries d))
    (up : dotdot (after.entries d) = dotdot (image.entries d))
    (rootNames : after.names rootino = 0)
    (childless : ∀ i, ¬ after.Rooted i → Childless (after.entries i))
    (once : ∀ i, (image.dinode i).type = .dir → after.names i ≤ 1)
    (parent : ∀ de ∈ after.entries d, image.isSubdir de = true →
      dotdot (image.entries de.inum) = some d) :
    after.Tree owedAfter := by
  have sameUp : ∀ i, dotdot (after.entries i) = dotdot (image.entries i) := by
    intro i
    by_cases same : i = d
    · rw [same, up]
    · rw [others i same]
  have isSub := isSubdir_congr types
  exact {
    law := by
      intro i
      have before := tree.law i
      have balance := law i
      rw [links]
      omega
    free := by
      intro i free
      rw [types] at free
      rw [links]
      exact tree.free i free
    bound := by
      intro i used
      rw [types] at used
      rw [size]
      exact tree.bound i used
    onlyDirs := by
      intro i other
      rw [types] at other
      have apart : i ≠ d := by
        rintro rfl
        exact other isDir
      rw [others i apart]
      exact tree.onlyDirs i other
    shaped := by
      intro i
      by_cases same : i = d
      · subst same
        exact shaped
      · rw [others i same]
        exact tree.shaped i
    root := by
      rw [types, sameUp]
      exact ⟨tree.root.1, tree.root.2.1, rootNames⟩
    childless := childless
    once := by
      intro i isDir
      rw [types] at isDir
      exact once i isDir
    parent := by
      intro i de mem isSubdir
      rw [isSub] at isSubdir
      rw [sameUp]
      by_cases same : i = d
      · subst same
        exact parent de mem isSubdir
      · rw [others i same] at mem
        exact tree.parent i de mem isSubdir }

end

/-- The names after a proper entry is written. -/
theorem names_enter (isDir : (image.dinode d).type = .dir)
    (now : after.entries d = place (image.entries d) (freeSlot (image.entries d)) ⟨i, name⟩)
    (proper : (⟨i, name⟩ : Dirent).proper = true) (j : Nat) :
    after.names j = image.names j + if j = i then 1 else 0 := by
  have change := names_change size (tree.bound d (by rw [isDir]; simp)).2 others j
  have counts := countP_place_freeSlot (Dirent.names j)
    (fun de isName => used_of_proper (names_iff.mp isName).1)
    (image.entries d) ⟨i, name⟩
  rw [← now] at counts
  simp only [names_mk proper] at counts
  omega

/-- `dirlink` writes an entry, which pays what is owed to the inode and, for a new
directory, to its parent. -/
theorem enter (types : ∀ i, (after.dinode i).type = (image.dinode i).type)
    (links : ∀ i, (after.dinode i).nlink = (image.dinode i).nlink)
    (isDir : (image.dinode d).type = .dir) (whole : 2 ≤ (image.entries d).length)
    (rooted : image.Rooted d)
    (now : after.entries d = place (image.entries d) (freeSlot (image.entries d)) ⟨i, name⟩)
    (plain : name.plain = true) (real : i ≠ 0) (sub : (image.dinode i).type = .dir →
      ¬ image.Rooted i ∧ dotdot (image.entries i) = some d)
    (paid : ∀ j, owed j = owedAfter j + (if j = i then 1 else 0) +
      if (image.dinode i).type = .dir ∧ j = d then 1 else 0) :
    after.Tree owedAfter := by
  have proper : (⟨i, name⟩ : Dirent).proper = true := by simp [Dirent.proper, real, plain]
  have countNames := tree.names_enter size others isDir now proper
  have isSub := isSubdir_congr types
  have countSubs : ∀ j, after.subdirs j = image.subdirs j +
      if (image.dinode i).type = .dir ∧ j = d then 1 else 0 := by
    intro j
    rw [subdirs, subdirs, isSub]
    by_cases same : j = d
    · subst same
      have new : (image.isSubdir ⟨i, name⟩ = true) ↔ (image.dinode i).type = .dir := by
        simp [isSubdir, proper]
      rw [now, countP_place_freeSlot _ fun de isSub => used_of_proper (isSubdir_proper isSub)]
      simp only [new, and_true]
    · rw [others j same]
      simp [same]
  have apart : (image.dinode i).type = .dir → i ≠ d := by
    rintro isSubdir rfl
    exact (sub isSubdir).1 rooted
  have behind := (tree.shaped d).freeSlot_eq (tree.inum_pos (by rw [isDir]; simp)) whole
  have placed := (tree.shaped d).place whole (freeSlot ((image.entries d).drop 2)) ⟨i, name⟩
    fun _ => plain
  rw [← behind, ← now] at placed
  refine tree.rewrite size others types links isDir ?_ placed.1 placed.2 ?_ ?_ ?_ ?_
  · intro j
    have balance := paid j
    rw [countNames, countSubs]
    omega
  · have notRoot : rootino ≠ i := by
      rintro rfl
      exact (sub tree.root.1).1 (Or.inl rfl)
    rw [countNames, tree.root.2.2, if_neg notRoot]
  · intro j unrooted
    have was : ¬ image.Rooted j := by
      rintro (root | isNamed)
      · exact unrooted (Or.inl root)
      · refine unrooted (Or.inr ?_)
        rw [countNames]
        omega
    have other : j ≠ d := by
      rintro rfl
      exact was rooted
    rw [others j other]
    exact tree.childless j was
  · intro j isDir
    have atMost := tree.once j isDir
    rw [countNames]
    split
    · rename_i same
      subst same
      have unnamed := (not_or.mp (sub isDir).1).2
      omega
    · omega
  · intro de mem isSubdir
    rw [now] at mem
    rcases mem_place mem with rfl | old
    · exact (sub (by simpa [Image.isSubdir, proper] using isSubdir)).2
    · exact tree.parent d de old isSubdir

/-- The names after a proper entry is cleared. -/
theorem names_clear (isDir : (image.dinode d).type = .dir)
    (found : (image.entries d)[off]? = some ⟨i, name⟩) (proper : (⟨i, name⟩ : Dirent).proper = true)
    (now : after.entries d = place (image.entries d) off .zero) (j : Nat) :
    image.names j = after.names j + if j = i then 1 else 0 := by
  have change := names_change size (tree.bound d (by rw [isDir]; simp)).2 others j
  have counts := countP_place (Dirent.names j) .zero found
  rw [← now] at counts
  simp only [names_mk proper, names_zero, Bool.false_eq_true, if_false] at counts
  omega

/-- `sys_unlink` clears an entry, after which a link is owed to the inode and, for a
directory, to its parent. -/
theorem clear (types : ∀ i, (after.dinode i).type = (image.dinode i).type)
    (links : ∀ i, (after.dinode i).nlink = (image.dinode i).nlink)
    (isDir : (image.dinode d).type = .dir) (found : (image.entries d)[off]? = some ⟨i, name⟩)
    (proper : (⟨i, name⟩ : Dirent).proper = true)
    (now : after.entries d = place (image.entries d) off .zero)
    (sub : (image.dinode i).type = .dir → Childless (image.entries i))
    (owes : ∀ j, owedAfter j = owed j + (if j = i then 1 else 0) +
      if (image.dinode i).type = .dir ∧ j = d then 1 else 0) :
    after.Tree owedAfter := by
  have mem : (⟨i, name⟩ : Dirent) ∈ image.entries d := List.mem_of_getElem? found
  have countNames := tree.names_clear size others isDir found proper now
  have isSub := isSubdir_congr types
  have countSubs : ∀ j, image.subdirs j = after.subdirs j +
      if (image.dinode i).type = .dir ∧ j = d then 1 else 0 := by
    intro j
    rw [subdirs, subdirs, isSub]
    by_cases same : j = d
    · subst same
      have old : (image.isSubdir ⟨i, name⟩ = true) ↔ (image.dinode i).type = .dir := by
        simp [isSubdir, proper]
      have none : image.isSubdir .zero = false := rfl
      have counts := countP_place image.isSubdir .zero found
      rw [← now] at counts
      simp only [old, none, Bool.false_eq_true, if_false] at counts
      simp only [and_true]
      omega
    · rw [others j same]
      simp [same]
  -- The directory has a proper entry, so it is neither unnamed nor without one.
  have bare : Childless (image.entries i) := by
    by_cases isSubdir : (image.dinode i).type = .dir
    · exact sub isSubdir
    · rw [tree.onlyDirs i isSubdir]
      exact .nil
  have apart : i ≠ d := by
    rintro rfl
    rw [bare _ mem] at proper
    cases proper
  obtain ⟨behind, rfl, whole⟩ := (tree.shaped d).two_le_of_proper found proper
  have placed := (tree.shaped d).place whole behind .zero fun used => absurd rfl used
  rw [← now] at placed
  refine tree.rewrite size others types links isDir ?_ placed.1 placed.2 ?_ ?_ ?_ ?_
  · intro j
    have owing := owes j
    have nameChange := countNames j
    have subChange := countSubs j
    omega
  · have rootNames := countNames rootino
    rw [tree.root.2.2] at rootNames
    omega
  · intro j unrooted
    obtain ⟨notRoot, unnamed⟩ := not_or.mp unrooted
    have change := countNames j
    by_cases target : j = i
    · subst target
      rw [others j apart]
      exact bare
    · rw [if_neg target] at change
      have was : ¬ image.Rooted j := by
        rintro (root | isNamed)
        · exact notRoot root
        · omega
      have other : j ≠ d := by
        rintro rfl
        exact was (tree.rooted_of_proper mem proper)
      rw [others j other]
      exact tree.childless j was
  · intro j isDir
    have atMost := tree.once j isDir
    have change := countNames j
    omega
  · intro de later isSubdir
    rw [now] at later
    rcases mem_place later with rfl | old
    · cases isSubdir_proper isSubdir
    · exact tree.parent d de old isSubdir

end

end Entries

end Tree

end Xv6.Fs.Image
