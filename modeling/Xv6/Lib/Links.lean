import Mathlib

/-!
# Doubly linked cyclic lists

Nodes of any type with a successor and a predecessor each. `Cycle` says that the links
run from a head node through a list of nodes and back to the head, the predecessors
undoing the successors. Taking a node out and putting one in after the head change the
list as they should, and a search along the links is a search in the list, from the
front or from the back.
-/

namespace Xv6

open Function List

/-- The links of the nodes. -/
structure Links (α : Type) where
  next : α → α
  prev : α → α

namespace Links

variable {α : Type} {links : Links α} {first last head node source target next prev : α}
  {left right nodes : List α} {fuel : Nat} {test : α → Bool}

/-- The same links, read backwards. -/
def flip (links : Links α) : Links α := ⟨links.prev, links.next⟩

/-- The second node follows the first. -/
def Joined (links : Links α) (left right : α) : Prop :=
  links.next left = right ∧ links.prev right = left

/-- The links run from one node through a list of nodes to another. -/
def Path (links : Links α) : α → List α → α → Prop
  | first, [], last => links.Joined first last
  | first, node :: rest, last => links.Joined first node ∧ Path links node rest last

/-- The links run from the head through a list of nodes, each met once, and back. -/
structure Cycle (links : Links α) (head : α) (nodes : List α) : Prop where
  path : links.Path head nodes head
  nodup : (head :: nodes).Nodup

theorem path_append {middle : α} :
    links.Path first (left ++ middle :: right) last ↔
      links.Path first left middle ∧ links.Path middle right last := by
  induction left generalizing first with
  | nil => exact Iff.rfl
  | cons node rest ih =>
    simp only [cons_append, Path, ih, and_assoc]

/-- A path is read backwards along the flipped links. -/
theorem Path.flip (path : links.Path first nodes last) :
    links.flip.Path last nodes.reverse first := by
  induction nodes generalizing first with
  | nil => exact ⟨path.2, path.1⟩
  | cons node rest ih =>
    obtain ⟨joined, path⟩ := path
    rw [reverse_cons]
    exact path_append.mpr ⟨ih path, joined.2, joined.1⟩

theorem Cycle.flip (cycle : links.Cycle head nodes) :
    links.flip.Cycle head nodes.reverse where
  path := cycle.path.flip
  nodup := by
    obtain ⟨outside, nodup⟩ := nodup_cons.mp cycle.nodup
    exact nodup_cons.mpr ⟨by simpa using outside, nodup_reverse.mpr nodup⟩

/-- The node before a node of a path. -/
theorem Path.prev_mem (path : links.Path first (left ++ node :: right) last) :
    links.prev node ∈ first :: left := by
  induction left generalizing first with
  | nil =>
    rw [path.1.2]
    exact mem_cons_self
  | cons other rest ih =>
    exact mem_cons_of_mem _ (ih path.2)

/-- The node after a node of a path. -/
theorem Path.next_mem (path : links.Path first (left ++ node :: right) last) :
    links.next node ∈ right ∨ links.next node = last := by
  have rest := (path_append.mp path).2
  cases right with
  | nil => exact .inr rest.1
  | cons other right =>
    rw [rest.1.1]
    exact .inl mem_cons_self

variable [DecidableEq α]

def setNext (links : Links α) (node target : α) : Links α :=
  { links with next := Function.update links.next node target }

def setPrev (links : Links α) (node target : α) : Links α :=
  { links with prev := Function.update links.prev node target }

/-- Take a node out of its list. -/
def unlink (links : Links α) (node : α) : Links α :=
  let links := links.setPrev (links.next node) (links.prev node)
  links.setNext (links.prev node) (links.next node)

/-- Put a node in after the head. -/
def pushFront (links : Links α) (head node : α) : Links α :=
  let links := links.setNext node (links.next head)
  let links := links.setPrev node head
  let links := links.setPrev (links.next head) node
  links.setNext head node

/-- Two nodes stay joined while neither link is set. -/
theorem Joined.set {left right : α} (joined : links.Joined left right) (otherNext : left ≠ source)
    (otherPrev : right ≠ target) :
    ((links.setPrev target prev).setNext source next).Joined left right := by
  simpa only [Joined, setNext, setPrev, update_of_ne otherNext,
    update_of_ne otherPrev] using joined

/-- A path stays while the links of its nodes are not set. -/
theorem Path.set (path : links.Path first nodes last) (otherNext : source ∉ first :: nodes)
    (otherPrev : target ∉ nodes) (notLast : target ≠ last) :
    ((links.setPrev target prev).setNext source next).Path first nodes last := by
  induction nodes generalizing first with
  | nil =>
    exact Joined.set path (fun same => otherNext (by simp [same])) notLast.symm
  | cons node rest ih =>
    simp only [mem_cons, not_or] at otherNext otherPrev ih
    exact ⟨path.1.set (Ne.symm otherNext.1) (Ne.symm otherPrev.1),
      ih path.2 ⟨otherNext.2.1, otherNext.2.2⟩ otherPrev.2⟩

theorem unlink_eq (links : Links α) (node : α) : links.unlink node =
    (links.setPrev (links.next node) (links.prev node)).setNext (links.prev node)
      (links.next node) := by
  have same : (links.setPrev (links.next node) (links.prev node)).prev node = links.prev node := by
    simp only [setPrev, update_apply, ite_eq_right_iff, implies_true]
  simp only [unlink, same]
  rfl

/-- Taking a node out leaves the path through the others. -/
theorem Path.unlink (path : links.Path first (left ++ node :: right) last)
    (nodup : (first :: (left ++ node :: right)).Nodup) (outside : last ∉ left ++ node :: right) :
    (links.unlink node).Path first (left ++ right) last := by
  induction left generalizing first with
  | nil =>
    obtain ⟨joined, rest⟩ := path
    cases right with
    | nil =>
      rw [unlink_eq, joined.2, rest.1]
      exact ⟨update_self .., update_self ..⟩
    | cons other right =>
      rw [unlink_eq, joined.2, rest.1.1]
      simp only [nil_append, nodup_cons, mem_cons, not_or] at nodup outside
      refine ⟨⟨update_self .., update_self ..⟩, rest.2.set ?_ nodup.2.2.1
        (Ne.symm outside.2.1)⟩
      exact fun inside => (mem_cons.mp inside).elim nodup.1.2.1 nodup.1.2.2
  | cons other left ih =>
    obtain ⟨joined, rest⟩ := path
    rw [cons_append, nodup_cons] at nodup
    rw [cons_append, mem_cons, not_or] at outside
    refine ⟨?_, ih rest nodup.2 outside.2⟩
    rw [unlink_eq]
    refine joined.set (fun same => nodup.1 ?_) fun same => ?_
    · rw [same]
      exact (sublist_append_left (other :: left) (node :: right)).subset rest.prev_mem
    · rcases rest.next_mem with inside | isLast
      · rw [← same] at inside
        exact (nodup_cons.mp nodup.2).1 (by simp [inside])
      · exact outside.1 (isLast.symm.trans same.symm)

/-- Taking a node out of a cycle. -/
theorem Cycle.unlink (cycle : links.Cycle head (left ++ node :: right)) :
    (links.unlink node).Cycle head (left ++ right) where
  path := cycle.path.unlink cycle.nodup (nodup_cons.mp cycle.nodup).1
  nodup := cycle.nodup.sublist
    (Sublist.cons_cons _ ((Sublist.refl left).append (sublist_cons_self _ _)))

/-- Putting a node in after the head. -/
theorem Cycle.pushFront (cycle : links.Cycle head nodes) (fresh : node ∉ head :: nodes) :
    (links.pushFront head node).Cycle head (node :: nodes) := by
  obtain ⟨path, nodup⟩ := cycle
  rw [mem_cons, not_or] at fresh
  have after : ∃ other, links.next head = other ∧ other ≠ node ∧ (links.pushFront head node) =
      ((((links.setPrev node head).setNext node other).setPrev other node).setNext head node) := by
    refine ⟨links.next head, rfl, ?_, ?_⟩
    · cases nodes with
      | nil =>
        rw [path.1]
        exact Ne.symm fresh.1
      | cons other nodes =>
        rw [path.1.1]
        exact fun same => fresh.2 (by simp [same])
    · simp only [Links.pushFront, setNext, setPrev, update_of_ne (Ne.symm fresh.1)]
  obtain ⟨other, isNext, apart, same⟩ := after
  refine ⟨?_, nodup_cons.mpr ⟨?_, nodup_cons.mpr ⟨fresh.2, (nodup_cons.mp nodup).2⟩⟩⟩
  · rw [same]
    refine ⟨⟨update_self .., ?_⟩, ?_⟩
    · exact (update_of_ne (Ne.symm apart) ..).trans (update_self ..)
    have joined : ((((links.setPrev node head).setNext node other).setPrev other node).setNext
        head node).Joined node other :=
      ⟨(update_of_ne fresh.1 ..).trans (update_self ..), update_self ..⟩
    cases nodes with
    | nil =>
      rw [path.1] at isNext
      exact isNext ▸ joined
    | cons first nodes =>
      rw [path.1.1] at isNext
      subst isNext
      simp only [mem_cons, not_or, nodup_cons] at fresh nodup
      refine ⟨joined, (path.2.set ?_ fresh.2.2 fresh.1).set ?_ nodup.2.1 (Ne.symm nodup.1.1)⟩
      · exact fun inside => (mem_cons.mp inside).elim fresh.2.1 fresh.2.2
      · exact fun inside => (mem_cons.mp inside).elim nodup.1.1 nodup.1.2
  · simp only [mem_cons, not_or]
    exact ⟨Ne.symm fresh.1, (nodup_cons.mp nodup).1⟩

/-! ## Searching -/

/-- Follow one of the links from a node until a test holds or the head is reached.
Nothing is returned when the steps run out. -/
def search (link : α → α) (head : α) (test : α → Bool) : Nat → α → Option (Option α)
  | 0, _ => none
  | fuel + 1, node =>
    if node = head then some none
    else if test node then some (some node)
    else search link head test fuel (link node)

/-- Searching a path that ends at the head. -/
theorem Path.search (path : links.Path first nodes head) (outside : head ∉ nodes)
    (enough : nodes.length < fuel) :
    Links.search links.next head test fuel (links.next first) = some (nodes.find? test) := by
  induction nodes generalizing first fuel with
  | nil =>
    obtain ⟨fuel, rfl⟩ : ∃ more, fuel = more + 1 := ⟨fuel - 1, by simp at enough; omega⟩
    rw [path.1, Links.search, if_pos rfl, find?_nil]
  | cons node rest ih =>
    rw [length_cons] at enough
    obtain ⟨fuel, rfl⟩ : ∃ more, fuel = more + 1 := ⟨fuel - 1, by omega⟩
    rw [mem_cons, not_or] at outside
    rw [path.1.1, Links.search, if_neg (Ne.symm outside.1), find?_cons]
    cases found : test node with
    | true => rfl
    | false => exact ih path.2 outside.2 (by omega)

/-- A search along the successors finds the first node that passes the test. -/
theorem Cycle.search_next (cycle : links.Cycle head nodes) (enough : nodes.length < fuel) :
    Links.search links.next head test fuel (links.next head) = some (nodes.find? test) :=
  cycle.path.search (nodup_cons.mp cycle.nodup).1 enough

/-- A search along the predecessors finds the last node that passes the test. -/
theorem Cycle.search_prev (cycle : links.Cycle head nodes) (enough : nodes.length < fuel) :
    Links.search links.prev head test fuel (links.prev head) =
      some (nodes.reverse.find? test) :=
  cycle.flip.search_next (by simpa using enough)

end Links

end Xv6
