import Xv6.Swap.Names

/-!
# Numbers in decimal

`itoa` of `fs.c`, the `printint` of `console.c` and the `printint` of `printf.c` write a
signed number in decimal, and `atoi` of `ulib.c` reads a number that has no sign. The
functions that print turn the number into an unsigned one before they divide, so the most
negative number is like any other; `itoa` goes on with a signed number, and the negation of
the most negative one is itself.
-/

namespace Xv6.Print

open Swap List

/-- The size of the array `buf` of `printint`. -/
def bufsize : Nat := 16

/-- The loop of `printint` that stores the digits of `x`, the last digit first, when `room`
elements of `buf` are left. An index out of range gives no result. -/
def fill (digits : List UInt8) (base : Nat) : (room x : Nat) → Option (List UInt8)
  | 0, _ => none
  | room + 1, x => do
    let c ← digits[x % base]?
    if x / base = 0 then some [c]
    else
      let rest ← fill digits base room (x / base)
      some (c :: rest)

/-- The characters `printint` puts out, for one of the two arrays of digits. -/
def printintWith (digits : List UInt8) (xx : Int) (base : Nat) (sign : Bool) :
    Option (List UInt8) := do
  let negative := sign && decide (xx < 0)
  let buf ← fill digits base bufsize ((if negative then -xx else xx) % 2 ^ 32).toNat
  if negative then
    if buf.length < bufsize then some (buf ++ [45]).reverse else none
  else some buf.reverse

/-- `printint` of `console.c`, with the digits `0123456789abcdef` and their NUL. -/
def Console.printint : (xx : Int) → (base : Nat) → (sign : Bool) → Option (List UInt8) :=
  printintWith [48, 49, 50, 51, 52, 53, 54, 55, 56, 57, 97, 98, 99, 100, 101, 102, 0]

/-- `printint` of `printf.c`, with the digits `0123456789ABCDEF` and their NUL. -/
def Printf.printint : (xx : Int) → (base : Nat) → (sgn : Bool) → Option (List UInt8) :=
  printintWith [48, 49, 50, 51, 52, 53, 54, 55, 56, 57, 65, 66, 67, 68, 69, 70, 0]

/-- The loop of `atoi`, over the bytes of a string before its NUL. -/
def atoiFrom (n : Int) : List UInt8 → Int
  | [] => n
  | c :: s =>
    if 48 ≤ c ∧ c ≤ 57 then atoiFrom ((n * 10 + c.toNat - 48).bmod (2 ^ 32)) s else n

def atoi (s : List UInt8) : Int := atoiFrom 0 s

/-- The numeral of a number. -/
def numeral (i : Int) : List UInt8 := (if i < 0 then [45] else []) ++ magnitude i.natAbs

/-! ## The digits -/

theorem magnitude_step (n : Nat) : magnitude n =
    (if n / 10 = 0 then [] else magnitude (n / 10)) ++ [48 + (n % 10).toUInt8] := by
  by_cases zero : n = 0
  · subst zero
    rfl
  · rw [magnitude_pos (Nat.pos_of_ne_zero zero), decimal_pos (Nat.pos_of_ne_zero zero)]
    split
    · rename_i last
      rw [last, decimal_zero]
    · rename_i more
      rw [magnitude_pos (Nat.pos_of_ne_zero more)]

theorem magnitude_length_le {n k : Nat} (small : n < 10 ^ (k + 1)) :
    (magnitude n).length ≤ k + 1 := by
  unfold magnitude
  split
  · exact Nat.le_add_left 1 k
  · exact (decimal_length_le n (k + 1)).mpr small

/-- The digits of a number, stored backwards. -/
theorem fill_magnitude {digits : List UInt8}
    (table : ∀ d < 10, digits[d]? = some (48 + d.toUInt8)) (room : Nat) :
    ∀ n, (magnitude n).length ≤ room → fill digits 10 room n = some (magnitude n).reverse := by
  induction room with
  | zero =>
    intro n fits
    rw [magnitude_step, length_append, length_singleton] at fits
    omega
  | succ room ih =>
    intro n fits
    rw [magnitude_step, length_append, length_singleton] at fits
    rw [fill, table _ (Nat.mod_lt n (by decide)), magnitude_step n]
    by_cases last : n / 10 = 0
    · simp [last]
    · rw [if_neg last] at fits
      simp [last, ih (n / 10) (by omega)]

/-- Both functions print the numeral of every number. -/
theorem printintWith_numeral {digits : List UInt8} {i : Int}
    (table : ∀ d < 10, digits[d]? = some (48 + d.toUInt8)) (low : -2 ^ 31 ≤ i)
    (high : i < 2 ^ 31) : printintWith digits i 10 true = some (numeral i) := by
  have short : (magnitude i.natAbs).length ≤ 10 := magnitude_length_le (by omega)
  have filled := fill_magnitude table bufsize i.natAbs (short.trans (by decide))
  rw [printintWith]
  by_cases negative : i < 0
  · have unsigned : (-i % 4294967296).toNat = i.natAbs := by omega
    have room : (magnitude i.natAbs).length < bufsize := short.trans_lt (by decide)
    simp [negative, unsigned, filled, room, numeral]
  · have unsigned : (i % 4294967296).toNat = i.natAbs := by omega
    simp [negative, unsigned, filled, numeral]

/-! ## Reading a number -/

theorem atoiFrom_append {text : List UInt8} (digits : ∀ c ∈ text, 48 ≤ c ∧ c ≤ 57)
    (more : List UInt8) (n : Int) :
    atoiFrom n (text ++ more) = atoiFrom (atoiFrom n text) more := by
  induction text generalizing n with
  | nil => rfl
  | cons c text ih =>
    have first := digits c mem_cons_self
    rw [cons_append, atoiFrom, if_pos first, atoiFrom, if_pos first]
    exact ih (fun c member => digits c (mem_cons_of_mem _ member)) _

theorem digit_range : ∀ d < 10, (48 ≤ 48 + d.toUInt8 ∧ 48 + d.toUInt8 ≤ 57) ∧
    (48 + d.toUInt8).toNat = 48 + d := by
  decide

theorem magnitude_digits (n : Nat) : ∀ c ∈ magnitude n, 48 ≤ c ∧ c ≤ 57 := by
  intro c member
  unfold magnitude at member
  split at member
  · rw [mem_singleton] at member
    subst member
    decide
  · obtain ⟨d, inside, rfl⟩ := mem_map.mp member
    exact (digit_range d (Nat.digits_lt_base (by decide) (mem_reverse.mp inside))).1

/-- `atoi` reads a number back. -/
theorem atoi_magnitude {n : Nat} (high : n < 2 ^ 31) : atoi (magnitude n) = n := by
  induction n using Nat.strong_induction_on with
  | _ n ih =>
    have start : atoi (if n / 10 = 0 then [] else magnitude (n / 10)) = (n / 10 : Nat) := by
      split
      · rename_i last
        rw [last]
        rfl
      · exact ih (n / 10) (by omega) (by omega)
    have digits : ∀ c ∈ (if n / 10 = 0 then [] else magnitude (n / 10)), 48 ≤ c ∧ c ≤ 57 := by
      split
      · exact fun c member => absurd member not_mem_nil
      · exact magnitude_digits (n / 10)
    obtain ⟨range, value⟩ := digit_range (n % 10) (Nat.mod_lt n (by decide))
    rw [atoi] at start ⊢
    rw [magnitude_step, atoiFrom_append digits, start, atoiFrom, if_pos range, value, atoiFrom]
    rw [Int.bmod_eq_of_le (by omega) (by omega)]
    omega

/-! ## Writing a number into an array -/

theorem moveBack_length {b written : List UInt8} {p : Nat} {i : Int}
    (ran : moveBack b p i = some written) : written.length = b.length := by
  fun_induction moveBack b p i with
  | case1 b p i ih =>
    obtain ⟨c, -, ran⟩ := Option.bind_eq_some_iff.mp ran
    split at ran
    · rw [← Option.some.inj ran, length_set]
    · rename_i more
      rw [ih c more ran, length_set]

theorem itoa_length {b written : List UInt8} {p : Nat} {i : Int}
    (ran : itoa i b p = some written) : written.length = b.length := by
  rw [itoa] at ran
  by_cases negative : i < 0
  · rw [if_pos negative] at ran
    rw [moveBack_length ran, length_set, length_set]
  · rw [if_neg negative] at ran
    rw [moveBack_length ran, length_set]

/-- `itoa` writes the numeral of every number but the most negative one. -/
theorem itoa_numeral {i : Int} {b : List UInt8} (low : -2 ^ 31 < i) (high : i < 2 ^ 31)
    (room : (numeral i).length < b.length) :
    itoa i b 0 = some (numeral i ++ 0 :: b.drop ((numeral i).length + 1)) := by
  unfold numeral at room ⊢
  rw [itoa]
  by_cases negative : i < 0
  · rw [if_pos negative] at room ⊢
    have positive : (-i).bmod (2 ^ 32) = (i.natAbs : Int) := by
      rw [Int.bmod_eq_of_le (by omega) (by omega)]
      omega
    cases b with
    | nil => cases room
    | cons c rest =>
      have written := @moveBack_magnitude [45] rest i.natAbs (by simpa using room)
      rw [if_pos negative, positive]
      simpa using written
  · rw [if_neg negative] at room ⊢
    have written := @moveBack_magnitude [] b i.natAbs (by simpa using room)
    rw [if_neg negative]
    rw [show ((i.natAbs : Nat) : Int) = i by omega] at written
    simpa using written

/-- The last digit of the most negative number, the remainder -8, is looked for before the
array of digits. -/
theorem itoa_fails (b : List UInt8) : itoa (-2 ^ 31) b 0 = none := by
  rw [itoa, if_pos (by decide)]
  dsimp only
  rw [moveBack]
  rfl

/-- The functions agree on a number: `itoa` writes its numeral and a NUL into an array and
leaves the rest of the array, both `printint` print the numeral, and `atoi` reads it back. -/
def Agree (i : Int) (b : List UInt8) : Prop :=
  itoa i b 0 = some (numeral i ++ 0 :: b.drop ((numeral i).length + 1)) ∧
    Console.printint i 10 true = some (numeral i) ∧ Printf.printint i 10 true = some (numeral i) ∧
    (0 ≤ i → atoi (numeral i) = i)

/-- The functions agree on all numbers for which the array has room, except the most
negative one. -/
theorem numbers_agree {i : Int} (low : -2 ^ 31 ≤ i) (high : i < 2 ^ 31) (b : List UInt8) :
    Agree i b ↔ i ≠ -2 ^ 31 ∧ (numeral i).length < b.length := by
  constructor
  · intro agree
    refine ⟨?_, ?_⟩
    · rintro rfl
      rw [Agree, itoa_fails] at agree
      cases agree.1
    · have size := itoa_length agree.1
      rw [List.length_append, List.length_cons, List.length_drop] at size
      omega
  · rintro ⟨other, room⟩
    have table : ∀ letters : List UInt8, ∀ d < 10,
        ([48, 49, 50, 51, 52, 53, 54, 55, 56, 57] ++ letters)[d]? = some (48 + d.toUInt8) := by
      intro letters d small
      rw [List.getElem?_append_left small]
      revert d
      decide
    refine ⟨itoa_numeral (by omega) high room, printintWith_numeral (table _) low high,
      printintWith_numeral (table _) low high, fun nonnegative => ?_⟩
    rw [numeral, if_neg (by omega), List.nil_append, atoi_magnitude (by omega)]
    omega

theorem numbers_agree_negative : Agree (-7) (List.replicate digits 0) := by
  refine (numbers_agree (by decide) (by decide) _).mpr ⟨by decide, ?_⟩
  simp [numeral, magnitude, decimal, digits]

/-- `itoa` does not write the most negative number. -/
theorem itoa_most_negative : ¬ Agree (-2 ^ 31) (List.replicate digits 0) := by
  intro agree
  rw [Agree, itoa_fails] at agree
  cases agree.1

end Xv6.Print
