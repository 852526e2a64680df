import Mathlib

/-!
# Lists of spans of addresses

A span is an address and a size. A list of spans is spaced when each ends before the next
one begins, with a gap between them. Joining a span to the spans behind it, where it touches
the first of them, keeps the list spaced, keeps its total size, and overlaps nothing new.
-/

namespace Xv6

open List

/-- The addresses from one on, so many of them. -/
structure Span where
  addr : Nat
  size : Nat
  deriving DecidableEq

namespace Span

/-- The first address behind the span. -/
def stop (s : Span) : Nat := s.addr + s.size

/-- The spans do not overlap. -/
def Apart (s t : Span) : Prop := s.stop ≤ t.addr ∨ t.stop ≤ s.addr

/-- The first span ends before the second begins, and does not touch it. -/
def Before (s t : Span) : Prop := s.stop < t.addr

theorem Apart.symm {s t : Span} (apart : s.Apart t) : t.Apart s := Or.symm apart

theorem Before.apart {s t : Span} (before : s.Before t) : s.Apart t := Or.inl (Nat.le_of_lt before)

theorem Before.addr_lt {s t : Span} (before : s.Before t) : s.addr < t.addr :=
  Nat.lt_of_le_of_lt (Nat.le_add_right ..) before

/-- Two spans of a spaced list have different addresses. -/
theorem eq_of_addr_eq {spans : List Span} (spaced : spans.Pairwise Before) {s t : Span}
    (isFirst : s ∈ spans) (isSecond : t ∈ spans) (same : s.addr = t.addr) : s = t := by
  induction spans with
  | nil => cases isFirst
  | cons u rest ih =>
    obtain ⟨later, spaced⟩ := pairwise_cons.mp spaced
    rcases mem_cons.mp isFirst with rfl | firstLater
    · rcases mem_cons.mp isSecond with rfl | secondLater
      · rfl
      · exact absurd same (Nat.ne_of_lt (later t secondLater).addr_lt)
    · rcases mem_cons.mp isSecond with rfl | secondLater
      · exact absurd same (Nat.ne_of_gt (later s firstLater).addr_lt)
      · exact ih spaced firstLater secondLater

/-- The span is part of the other. -/
def Within (s t : Span) : Prop := t.addr ≤ s.addr ∧ s.stop ≤ t.stop

theorem Within.refl (s : Span) : s.Within s := ⟨Nat.le_refl _, Nat.le_refl _⟩

theorem Apart.within {s t u : Span} (apart : t.Apart u) (within : s.Within t) : s.Apart u := by
  simp only [Apart, Within, stop] at *
  omega

/-- The units of all spans. -/
def total (spans : List Span) : Nat := (spans.map size).sum

@[simp] theorem total_cons (s : Span) (spans : List Span) :
    total (s :: spans) = s.size + total spans := by
  simp [total]

@[simp] theorem total_append (left right : List Span) :
    total (left ++ right) = total left + total right := by
  simp [total]

/-- Spans that are not empty are no more than their units. -/
theorem length_le_total {spans : List Span} (some : ∀ s ∈ spans, 0 < s.size) :
    spans.length ≤ total spans := by
  induction spans with
  | nil => exact Nat.le_refl 0
  | cons s rest ih =>
    have first := some s mem_cons_self
    have others := ih fun t mem => some t (mem_cons_of_mem s mem)
    rw [length_cons, total_cons]
    omega

/-- Join a span to the first of those behind it if they touch. -/
def merge (s : Span) : List Span → List Span
  | [] => [s]
  | t :: rest => if s.stop = t.addr then ⟨s.addr, s.size + t.size⟩ :: rest else s :: t :: rest

variable {s : Span} {rest : List Span}

/-- The first span begins where it did. -/
theorem merge_eq_cons (s : Span) (rest : List Span) :
    ∃ first behind, merge s rest = first :: behind ∧ first.addr = s.addr := by
  cases rest with
  | nil => exact ⟨s, [], rfl, rfl⟩
  | cons t rest =>
    rw [merge]
    split
    · exact ⟨_, _, rfl, rfl⟩
    · exact ⟨_, _, rfl, rfl⟩

@[simp] theorem total_merge (s : Span) (rest : List Span) :
    total (merge s rest) = s.size + total rest := by
  cases rest with
  | nil => simp [merge]
  | cons t rest =>
    rw [merge]
    split
    · simp only [total_cons]
      omega
    · simp only [total_cons]

theorem length_merge_le (s : Span) (rest : List Span) : (merge s rest).length ≤ rest.length + 1 := by
  cases rest with
  | nil => exact Nat.le_refl _
  | cons t rest =>
    rw [merge]
    split
    · exact Nat.le_succ _
    · exact Nat.le_refl _

/-- A property of spans that carries over to joined ones holds of all. -/
theorem merge_forall {holds : Span → Prop} (self : holds s) (others : ∀ t ∈ rest, holds t)
    (joined : ∀ t ∈ rest, s.stop = t.addr → holds ⟨s.addr, s.size + t.size⟩) :
    ∀ t ∈ merge s rest, holds t := by
  cases rest with
  | nil =>
    intro t mem
    cases mem_singleton.mp mem
    exact self
  | cons first rest =>
    rw [merge]
    split
    · rename_i touches
      exact forall_mem_cons.mpr ⟨joined first mem_cons_self touches,
        fun t mem => others t (mem_cons_of_mem first mem)⟩
    · exact forall_mem_cons.mpr ⟨self, others⟩

/-- Every span is part of one that is there after joining. -/
theorem merge_size_le {t : Span} (isSpan : t ∈ s :: rest) : ∃ u ∈ merge s rest, t.size ≤ u.size := by
  cases rest with
  | nil => exact ⟨t, isSpan, Nat.le_refl _⟩
  | cons first rest =>
    rw [merge]
    split
    · rcases mem_cons.mp isSpan with rfl | behind
      · exact ⟨_, mem_cons_self, Nat.le_add_right ..⟩
      · rcases mem_cons.mp behind with rfl | behind
        · exact ⟨_, mem_cons_self, Nat.le_add_left ..⟩
        · exact ⟨t, mem_cons_of_mem _ behind, Nat.le_refl _⟩
    · exact ⟨t, isSpan, Nat.le_refl _⟩

/-- Joining keeps a list spaced. -/
theorem merge_spaced (spaced : rest.Pairwise Before) (behind : ∀ t ∈ rest, s.stop ≤ t.addr) :
    (merge s rest).Pairwise Before := by
  cases rest with
  | nil => exact pairwise_singleton ..
  | cons first rest =>
    obtain ⟨later, spaced⟩ := pairwise_cons.mp spaced
    rw [merge]
    split
    · rename_i touches
      refine pairwise_cons.mpr ⟨fun t mem => ?_, spaced⟩
      have before := later t mem
      simp only [Before, stop] at *
      omega
    · rename_i gap
      have atFirst := behind first mem_cons_self
      refine pairwise_cons.mpr ⟨?_, pairwise_cons.mpr ⟨later, spaced⟩⟩
      refine forall_mem_cons.mpr ⟨?_, fun t mem => ?_⟩
      · simp only [Before]
        omega
      · have before := later t mem
        simp only [Before, stop] at *
        omega

/-- A joined span overlaps only what one of its parts overlaps. -/
theorem Apart.join {t other : Span} (some : 0 < other.size) (first : s.Apart other)
    (second : t.Apart other) (touches : s.stop = t.addr) :
    Apart ⟨s.addr, s.size + t.size⟩ other := by
  simp only [Apart, stop] at *
  omega

end Span

end Xv6
