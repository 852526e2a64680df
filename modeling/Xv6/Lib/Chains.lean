import Mathlib

/-!
# Singly linked lists that end in a null pointer

Nodes of any type with a pointer each. `Chain` says that the pointers run from a start
through a list of nodes to null. The walk to the last node ends when it is given as many
rounds as there are nodes, and hanging a new node behind the last one appends it to the list.
-/

namespace Xv6

variable {α : Type}

/-- The pointers run through the nodes to null. -/
def Chain (next : α → Option α) : Option α → List α → Prop
  | start, [] => start = none
  | start, node :: rest => start = some node ∧ Chain next (next node) rest

namespace Chain

variable {next after : α → Option α}

/-- Only the pointers of the nodes matter. -/
theorem congr {nodes : List α} {start : Option α} (chain : Chain next start nodes)
    (same : ∀ node ∈ nodes, after node = next node) : Chain after start nodes := by
  induction nodes generalizing start with
  | nil => exact chain
  | cons node rest ih =>
    obtain ⟨isNode, chain⟩ := chain
    refine ⟨isNode, ?_⟩
    rw [same node List.mem_cons_self]
    exact ih chain fun other mem => same other (List.mem_cons_of_mem node mem)

/-- The start says whether there is a node, and which is the first. -/
theorem start_eq {nodes : List α} {start : Option α} (chain : Chain next start nodes) :
    start = nodes.head? := by
  cases nodes with
  | nil => exact chain
  | cons node rest => exact chain.1

/-- The last node reached from a node, when the walk takes fewer rounds than given. -/
def last (next : α → Option α) : Nat → α → Option α
  | 0, _ => none
  | rounds + 1, node =>
    match next node with
    | none => some node
    | some other => last next rounds other

/-- The walk reaches the last node of the list. -/
theorem last_eq {front : List α} {first final : α} {rounds : Nat}
    (chain : Chain next (some first) (front ++ [final])) (enough : front.length < rounds) :
    last next rounds first = some final := by
  induction front generalizing first rounds with
  | nil =>
    obtain ⟨isFirst, isEnd⟩ := chain
    cases isFirst
    obtain ⟨rounds, rfl⟩ := Nat.exists_eq_succ_of_ne_zero (Nat.ne_zero_of_lt enough)
    have null : next final = none := isEnd
    simp only [last, null]
  | cons node rest ih =>
    obtain ⟨isFirst, chain⟩ := chain
    cases isFirst
    obtain ⟨rounds, rfl⟩ := Nat.exists_eq_succ_of_ne_zero (Nat.ne_zero_of_lt enough)
    have shorter : rest.length < rounds := Nat.lt_of_succ_lt_succ enough
    cases isNext : next node with
    | none =>
      rw [isNext] at chain
      cases rest with
      | nil => cases chain.1
      | cons other rest => cases chain.1
    | some other =>
      rw [isNext] at chain
      simp only [last, isNext]
      exact ih chain shorter

/-- A new node is hung behind the last one. -/
theorem append {front : List α} {final new : α} {start : Option α}
    (chain : Chain next start (front ++ [final])) (same : ∀ node ∈ front, after node = next node)
    (joined : after final = some new) (ends : after new = none) :
    Chain after start (front ++ [final, new]) := by
  induction front generalizing start with
  | nil => exact ⟨chain.1, joined, ends⟩
  | cons node rest ih =>
    obtain ⟨isNode, chain⟩ := chain
    refine ⟨isNode, ?_⟩
    rw [same node List.mem_cons_self]
    exact ih chain fun other mem => same other (List.mem_cons_of_mem node mem)

end Chain

end Xv6
