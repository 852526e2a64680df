import Mathlib

/-!
# Ring buffers with wrapping counters

A ring has `size` slots and two counters that only grow, one of the values stored and
one of the values taken. Both are kept modulo `wrap` and index the slots modulo `size`.
When `size` divides `wrap` and is smaller, the two counters still say whether the ring
is empty or full, and the slots between them are what was stored and not yet taken, in
the order it was stored, however often the counters have wrapped.
-/

namespace Xv6.Ring

open List

variable {α : Type} (size wrap : Nat)

/-- The values between the two counters, oldest first. -/
def contents (slots : Nat → α) (nread nwrite : Nat) : List α :=
  (List.range ((nwrite + wrap - nread) % wrap)).map fun k => slots ((nread + k) % wrap % size)

/-- The ring after `stored` went in and `delivered` came out. -/
structure Represents (slots : Nat → α) (nread nwrite : Nat) (stored delivered : List α) :
    Prop where
  read : nread = delivered.length % wrap
  written : nwrite = stored.length % wrap
  order : delivered <+: stored
  room : stored.length ≤ delivered.length + size
  held : ∀ k, delivered.length ≤ k → k < stored.length → stored[k]? = some (slots (k % size))

variable {size wrap} {slots : Nat → α} {nread nwrite : Nat} {stored delivered : List α}

/-- Two counters less than `wrap` apart are apart by their difference modulo `wrap`. -/
theorem gap_mod (start gap : Nat) (short : gap < wrap) :
    ((start + gap) % wrap + wrap - start % wrap) % wrap = gap := by
  have startLt : start % wrap < wrap := Nat.mod_lt _ (by omega)
  rw [← Nat.mod_add_mod start wrap gap]
  by_cases fits : start % wrap + gap < wrap
  · have apart : start % wrap + gap + wrap - start % wrap = gap + wrap := by omega
    rw [Nat.mod_eq_of_lt fits, apart, Nat.add_mod_right, Nat.mod_eq_of_lt short]
  · have wrapped : (start % wrap + gap) % wrap = start % wrap + gap - wrap := by
      rw [Nat.mod_eq_sub_mod (by omega), Nat.mod_eq_of_lt (by omega)]
    have apart : start % wrap + gap - wrap + wrap - start % wrap = gap := by omega
    rw [wrapped, apart, Nat.mod_eq_of_lt short]

/-- A new ring holds nothing. -/
theorem Represents.new (slots : Nat → α) : Represents size wrap slots 0 0 [] [] where
  read := by simp
  written := by simp
  order := prefix_refl []
  room := by simp
  held := by
    intro k _ inside
    simp at inside

namespace Represents

variable (ring : Represents size wrap slots nread nwrite stored delivered)

include ring

theorem le_length : delivered.length ≤ stored.length := ring.order.length_le

/-- How far apart the counters are is how much is stored and not taken. -/
theorem distance (small : size < wrap) :
    (nwrite + wrap - nread) % wrap = stored.length - delivered.length := by
  have order := ring.le_length
  have room := ring.room
  have split : stored.length = delivered.length + (stored.length - delivered.length) := by omega
  rw [ring.read, ring.written]
  nth_rewrite 1 [split]
  exact gap_mod _ _ (by omega)

/-- The counters agree exactly when everything stored was taken. -/
theorem empty_iff (small : size < wrap) :
    nread = nwrite ↔ stored.length = delivered.length := by
  have order := ring.le_length
  constructor
  · intro same
    have apart := ring.distance small
    rw [same, Nat.add_sub_cancel_left, Nat.mod_self] at apart
    omega
  · intro same
    rw [ring.read, ring.written, same]

/-- The writing counter is `size` ahead exactly when every slot is in use. -/
theorem full_iff (small : size < wrap) :
    nwrite = (nread + size) % wrap ↔ stored.length = delivered.length + size := by
  have order := ring.le_length
  have room := ring.room
  constructor
  · intro ahead
    have apart := ring.distance small
    rw [ahead, ring.read, Nat.mod_add_mod, gap_mod _ _ small] at apart
    omega
  · intro full
    rw [ring.read, ring.written, full, Nat.mod_add_mod]

/-- Storing into a ring that is not full. -/
theorem put (small : size < wrap) (divides : size ∣ wrap) (value : α)
    (space : nwrite ≠ (nread + size) % wrap) :
    Represents size wrap (Function.update slots (nwrite % size) value) nread
      ((nwrite + 1) % wrap) (stored ++ [value]) delivered := by
  have room := ring.room
  have notFull : stored.length ≠ delivered.length + size := fun full =>
    space ((ring.full_iff small).mpr full)
  have slot : nwrite % size = stored.length % size := by
    rw [ring.written, Nat.mod_mod_of_dvd _ divides]
  refine ⟨ring.read, ?_, ring.order.trans (prefix_append _ _), ?_, ?_⟩
  · rw [ring.written, Nat.mod_add_mod, length_append, length_singleton]
  · rw [length_append, length_singleton]
    omega
  · intro k behind inside
    rw [length_append, length_singleton] at inside
    rw [slot]
    by_cases last : k = stored.length
    · subst last
      rw [List.getElem?_concat_length, Function.update_self]
    · -- two positions of one ring that share a slot would be `size` apart
      have other : k % size ≠ stored.length % size := by
        intro same
        have gap : (stored.length - k) % size = 0 :=
          Nat.sub_mod_eq_zero_of_mod_eq same.symm
        rw [Nat.mod_eq_of_lt (by omega)] at gap
        omega
      rw [List.getElem?_append_left (by omega), Function.update_of_ne other]
      exact ring.held k behind (by omega)

omit ring in
/-- Storing the last value is undone, if it was not taken. -/
theorem unput {value : α} (ring : Represents size wrap slots nread nwrite (stored ++ [value]) delivered)
    (small : size < wrap) (behind : delivered.length ≤ stored.length) :
    Represents size wrap slots nread ((nwrite + wrap - 1) % wrap) stored delivered := by
  have room := ring.room
  rw [length_append, length_singleton] at room
  refine ⟨ring.read, ?_, ?_, by omega, ?_⟩
  · rw [ring.written, length_append, length_singleton]
    have back : (stored.length + 1) % wrap + wrap - 1 = (stored.length + 1) % wrap + (wrap - 1) := by
      omega
    have around : stored.length + 1 + (wrap - 1) = stored.length + wrap := by omega
    rw [back, Nat.mod_add_mod, around, Nat.add_mod_right]
  · exact prefix_of_prefix_length_le ring.order (prefix_append ..) behind
  · intro k after inside
    have held := ring.held k after (by rw [length_append]; omega)
    rw [List.getElem?_append_left inside] at held
    exact held

/-- Taking from a ring that is not empty. -/
theorem take (small : size < wrap) (divides : size ∣ wrap) (waiting : nread ≠ nwrite) :
    Represents size wrap slots ((nread + 1) % wrap) nwrite stored
      (delivered ++ [slots (nread % size)]) := by
  have order := ring.le_length
  have room := ring.room
  have behind : delivered.length < stored.length := by
    have notEmpty : stored.length ≠ delivered.length := fun empty =>
      waiting ((ring.empty_iff small).mpr empty)
    omega
  have next := ring.held delivered.length (Nat.le_refl _) behind
  have slot : nread % size = delivered.length % size := by
    rw [ring.read, Nat.mod_mod_of_dvd _ divides]
  refine ⟨?_, ring.written, ?_, ?_, ?_⟩
  · rw [ring.read, Nat.mod_add_mod, length_append, length_singleton]
  · obtain ⟨rest, whole⟩ := ring.order
    cases rest with
    | nil =>
      rw [append_nil] at whole
      rw [whole] at behind
      omega
    | cons first rest =>
      rw [← whole, List.getElem?_append_right (Nat.le_refl _), Nat.sub_self] at next
      rw [List.getElem?_cons_zero, Option.some.injEq] at next
      rw [slot, ← next, ← whole]
      exact ⟨rest, by simp⟩
  · rw [length_append, length_singleton]
    omega
  · intro k after inside
    rw [length_append, length_singleton] at after
    exact ring.held k (by omega) inside

/-- What is between the counters is what was stored and not taken. -/
theorem stored_eq (small : size < wrap) (divides : size ∣ wrap) :
    stored = delivered ++ contents size wrap slots nread nwrite := by
  have order := ring.le_length
  obtain ⟨rest, whole⟩ := ring.order
  have count : (nwrite + wrap - nread) % wrap = rest.length := by
    rw [ring.distance small, ← whole, length_append, Nat.add_sub_cancel_left]
  rw [← whole]
  congr 1
  apply ext_getElem?
  intro k
  rw [contents, count, List.getElem?_map]
  by_cases inside : k < rest.length
  · have position : (nread + k) % wrap % size = (delivered.length + k) % size := by
      rw [Nat.mod_mod_of_dvd _ divides, ring.read, Nat.add_mod,
        Nat.mod_mod_of_dvd _ divides, ← Nat.add_mod]
    have there := ring.held (delivered.length + k) (by omega)
      (by rw [← whole, length_append]; omega)
    rw [← whole, List.getElem?_append_right (by omega), Nat.add_sub_cancel_left] at there
    rw [List.getElem?_range inside, Option.map_some, position, there]
  · rw [List.getElem?_eq_none (by omega), List.getElem?_eq_none (by simpa using inside),
      Option.map_none]

/-- No more than `size` values are between the counters. -/
theorem contents_length (small : size < wrap) :
    (contents size wrap slots nread nwrite).length ≤ size := by
  have room := ring.room
  rw [contents, length_map, length_range, ring.distance small]
  omega

end Represents

end Xv6.Ring
