import Mathlib

/-!
# Sums of natural numbers in which one term changes

A conserved quantity is often a sum over the parties of a system, of which a step changes
one term. The lemmas relate the sums before and after it without subtraction.
-/

namespace Xv6.Sums

open Finset

variable {ι : Type} [DecidableEq ι] {terms : Finset ι} {before : ι → Nat} {i : ι}

/-- One term changes. -/
theorem change (before after : ι → Nat) (mem : i ∈ terms)
    (same : ∀ j ∈ terms, j ≠ i → after j = before j) :
    ∑ j ∈ terms, after j + before i = ∑ j ∈ terms, before j + after i := by
  have others : ∑ j ∈ terms.erase i, after j = ∑ j ∈ terms.erase i, before j := by
    refine sum_congr rfl fun j other => ?_
    exact same j (mem_of_mem_erase other) (ne_of_mem_erase other)
  rw [← add_sum_erase terms after mem, ← add_sum_erase terms before mem, others]
  omega

omit [DecidableEq ι] in
/-- A term is at most the sum. -/
theorem le_of_mem (before : ι → Nat) (mem : i ∈ terms) : before i ≤ ∑ j ∈ terms, before j :=
  single_le_sum (fun _ _ => Nat.zero_le _) mem

omit [DecidableEq ι] in
/-- In a sum that is 0 every term is. -/
theorem eq_zero_of_mem (zero : ∑ j ∈ terms, before j = 0) (mem : i ∈ terms) : before i = 0 :=
  Nat.le_zero.mp (zero ▸ le_of_mem before mem)

/-- In a sum that is at most 1 a term that is not 0 is the only one. -/
theorem eq_of_le_one {j : ι} (before : ι → Nat) (small : ∑ k ∈ terms, before k ≤ 1) (mem : i ∈ terms)
    (other : j ∈ terms) (first : before i ≠ 0) (second : before j ≠ 0) : i = j := by
  by_contra apart
  have rest : before j ≤ ∑ k ∈ terms.erase i, before k :=
    le_of_mem before (mem_erase.mpr ⟨Ne.symm apart, other⟩)
  rw [← add_sum_erase terms before mem] at small
  omega

/-- The elements of a list of one kind, counted by a key. -/
theorem countP_by {α ι : Type} [DecidableEq ι] (kind : α → Bool) (key : α → ι) {s : Finset ι}
    {list : List α} (covered : ∀ a ∈ list, kind a = true → key a ∈ s) :
    ∑ i ∈ s, list.countP (fun a => kind a && key a = i) = list.countP kind := by
  induction list with
  | nil => simp
  | cons a rest ih =>
    have first : ∑ i ∈ s, (if (kind a && key a = i) = true then 1 else 0) =
        if kind a = true then 1 else 0 := by
      cases counted : kind a with
      | false => simp
      | true => simp [covered a List.mem_cons_self counted]
    simp only [List.countP_cons, sum_add_distrib]
    rw [first, ih fun b mem => covered b (List.mem_cons_of_mem a mem)]

end Xv6.Sums
