import Mathlib

/-!
# Who holds what was allocated

Allocations are numbered in order. Each holder has at most one, no two holders have the
same, and what was freed is held by nobody and was freed once.
-/

namespace Xv6

open Function

/-- Holders, the number of the next allocation, and the allocations freed so far. -/
structure Ledger {ι : Type} (holds : ι → Option Nat) (next : Nat) (freed : List Nat) : Prop where
  held : ∀ i item, holds i = some item → item < next ∧ item ∉ freed
  once : ∀ i j item, holds i = some item → holds j = some item → i = j
  freed_lt : ∀ item ∈ freed, item < next
  freed_once : freed.Nodup

namespace Ledger

variable {ι : Type} [DecidableEq ι] {holds : ι → Option Nat} {next : Nat} {freed : List Nat}

/-- A holder gets the next allocation. -/
theorem grant (ledger : Ledger holds next freed) (i : ι) :
    Ledger (update holds i (some next)) (next + 1) freed where
  held := by
    intro j item holding
    by_cases same : j = i
    · subst same
      rw [update_self, Option.some.injEq] at holding
      subst holding
      exact ⟨Nat.lt_succ_self _, fun gone => Nat.lt_irrefl _ (ledger.freed_lt _ gone)⟩
    · rw [update_of_ne same] at holding
      obtain ⟨below, kept⟩ := ledger.held j item holding
      exact ⟨Nat.lt_succ_of_lt below, kept⟩
  once := by
    intro j k item first second
    by_cases mine : j = i <;> by_cases yours : k = i
    · rw [mine, yours]
    · subst mine
      rw [update_self, Option.some.injEq] at first
      rw [update_of_ne yours] at second
      have below := (ledger.held k item second).1
      omega
    · subst yours
      rw [update_self, Option.some.injEq] at second
      rw [update_of_ne mine] at first
      have below := (ledger.held j item first).1
      omega
    · rw [update_of_ne mine] at first
      rw [update_of_ne yours] at second
      exact ledger.once j k item first second
  freed_lt := fun item gone => Nat.lt_succ_of_lt (ledger.freed_lt item gone)
  freed_once := ledger.freed_once

/-- A holder gives up what it has. -/
theorem release (ledger : Ledger holds next freed) (i : ι) :
    Ledger (update holds i none) next (freed ++ (holds i).toList) where
  held := by
    intro j item holding
    by_cases same : j = i
    · rw [same, update_self] at holding
      cases holding
    · rw [update_of_ne same] at holding
      obtain ⟨below, kept⟩ := ledger.held j item holding
      refine ⟨below, fun gone => ?_⟩
      rcases List.mem_append.mp gone with before | now
      · exact kept before
      · rw [Option.mem_toList] at now
        exact same (ledger.once j i item holding now)
  once := by
    intro j k item first second
    by_cases mine : j = i
    · rw [mine, update_self] at first
      cases first
    · by_cases yours : k = i
      · rw [yours, update_self] at second
        cases second
      · rw [update_of_ne mine] at first
        rw [update_of_ne yours] at second
        exact ledger.once j k item first second
  freed_lt := by
    intro item gone
    rcases List.mem_append.mp gone with before | now
    · exact ledger.freed_lt item before
    · exact (ledger.held i item (Option.mem_toList.mp now)).1
  freed_once := by
    refine List.Nodup.append ledger.freed_once ?_ ?_
    · cases holds i <;> simp
    · intro item before now
      exact (ledger.held i item (Option.mem_toList.mp now)).2 before

end Ledger

end Xv6
