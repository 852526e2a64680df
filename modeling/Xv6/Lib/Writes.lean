import Mathlib

/-!
# Sequences of atomic writes to an addressed store

A store is a function from addresses to contents and a write sequence is applied
from left to right. These laws say which address a sequence can change, that the
result at a written address forgets the store it started from, and that a
sequence may be replayed over any of its own partial effects.
-/

namespace Writes

open Function

variable {ι α : Type*} [DecidableEq ι]

/-- Apply the writes in order; a later write to an address wins. -/
def apply (writes : List (ι × α)) (store : ι → α) : ι → α :=
  writes.foldl (fun current write => Function.update current write.1 write.2) store

@[simp] theorem apply_nil (store : ι → α) : apply [] store = store := rfl

@[simp] theorem apply_cons (write : ι × α) (writes : List (ι × α)) (store : ι → α) :
    apply (write :: writes) store = apply writes (update store write.1 write.2) := rfl

theorem apply_append (first second : List (ι × α)) (store : ι → α) :
    apply (first ++ second) store = apply second (apply first store) := by
  simp [apply, List.foldl_append]

/-- An address that no write names keeps its contents. -/
theorem apply_of_not_mem (writes : List (ι × α)) (store : ι → α) (address : ι)
    (absent : ∀ write ∈ writes, write.1 ≠ address) :
    apply writes store address = store address := by
  induction writes generalizing store with
  | nil => rfl
  | cons write rest ih =>
    have head : write.1 ≠ address := absent write (by simp)
    rw [apply_cons, ih _ fun other member => absent other (by simp [member])]
    exact update_of_ne (Ne.symm head) _ _

/-- The contents after the writes depend on the store only at addresses that no
write names. -/
theorem apply_congr (writes : List (ι × α)) (left right : ι → α) (address : ι)
    (agree : (∃ write ∈ writes, write.1 = address) ∨ left address = right address) :
    apply writes left address = apply writes right address := by
  induction writes generalizing left right with
  | nil =>
    rcases agree with ⟨write, member, _⟩ | same
    · simp at member
    · exact same
  | cons write rest ih =>
    rw [apply_cons, apply_cons]
    apply ih
    by_cases named : write.1 = address
    · subst named
      simp
    · rcases agree with ⟨other, member, same⟩ | same
      · rcases List.mem_cons.mp member with rfl | later
        · exact absurd same named
        · exact Or.inl ⟨other, later, same⟩
      · right
        rw [update_of_ne (Ne.symm named), update_of_ne (Ne.symm named), same]

/-- Replaying a sequence over any part of its own effects gives its full effect.
This is what makes an interrupted redo repeatable. -/
theorem apply_of_subset (writes partialWrites : List (ι × α)) (store : ι → α)
    (named : ∀ write ∈ partialWrites, ∃ other ∈ writes, other.1 = write.1) :
    apply writes (apply partialWrites store) = apply writes store := by
  funext address
  apply apply_congr
  by_cases written : ∃ write ∈ writes, write.1 = address
  · exact Or.inl written
  · right
    apply apply_of_not_mem
    intro write member same
    obtain ⟨other, otherMember, otherSame⟩ := named write member
    exact written ⟨other, otherMember, otherSame.trans same⟩

/-- Contents after writes that give each named address one value. -/
theorem apply_of_mem (writes : List (ι × α)) (store : ι → α) (value : ι → α) (address : ι)
    (determined : ∀ write ∈ writes, write.2 = value write.1)
    (written : ∃ write ∈ writes, write.1 = address) :
    apply writes store address = value address := by
  rw [apply_congr writes store value address (Or.inl written)]
  clear written
  induction writes with
  | nil => rfl
  | cons write rest ih =>
    have same : update value write.1 write.2 = value := by
      rw [determined write (by simp)]
      exact update_eq_self _ _
    rw [apply_cons, same]
    exact ih fun other member => determined other (by simp [member])

end Writes
