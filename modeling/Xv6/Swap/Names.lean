import Xv6.Path.Elements

/-!
# The names of swap files

The swap file of a process is `/.swap` followed by the number of the process. The path is
built in an array of `DIGITS` bytes, which has room for a number of seven digits; and a
directory keeps the first `DIRSIZ` bytes of the name, which is room for nine digits.
-/

namespace Xv6

open List

namespace Swap

/-- `DIGITS`, the size of the array that a path is built in. -/
def digits : Nat := 14

/-- An element of the array of digits, which ends with a NUL. -/
def digit (index : Int) : Option UInt8 :=
  if index < 0 then none else [48, 49, 50, 51, 52, 53, 54, 55, 56, 57, 0][index.toNat]?

theorem tdiv_shrinks {i : Int} (more : ¬ i.tdiv 10 = 0) : (i.tdiv 10).natAbs < i.natAbs := by
  rw [Int.natAbs_tdiv]
  refine Nat.div_lt_self (Int.natAbs_pos.mpr ?_) (by decide)
  rintro rfl
  exact more rfl

/-- The first loop of `itoa`: move to where the representation ends. -/
def moveToEnd (p : Nat) (shifter : Int) : Nat :=
  if shifter.tdiv 10 = 0 then p + 1 else moveToEnd (p + 1) (shifter.tdiv 10)
termination_by shifter.natAbs
decreasing_by
  rename_i more
  exact tdiv_shrinks more

/-- The second loop of `itoa`: move back, inserting digits. -/
def moveBack (b : List UInt8) (p : Nat) (i : Int) : Option (List UInt8) := do
  let c ← digit (i.tmod 10)
  if i.tdiv 10 = 0 then some (b.set (p - 1) c) else moveBack (b.set (p - 1) c) (p - 1) (i.tdiv 10)
termination_by i.natAbs
decreasing_by
  rename_i more
  exact tdiv_shrinks more

/-- Write a number in decimal at a place of the stack. -/
def itoa (i : Int) (b : List UInt8) (p : Nat) : Option (List UInt8) :=
  let (b, p, i) := if i < 0 then (b.set p 45, p + 1, (-i).bmod (2 ^ 32)) else (b, p, i)
  moveBack (b.set (moveToEnd p i) 0) (moveToEnd p i) i

/-- The path of the swap file of a process, in an array with which the given part of the
stack begins: the bytes before the NUL. -/
def swapPath (stack : List UInt8) (pid : Int) : Option (List UInt8) := do
  let path ← itoa pid ([47, 46, 115, 119, 97, 112] ++ stack.drop 6) 6
  some (path.takeWhile (· ≠ 0))

/-- The name in the directory that a path of one element resolves to. -/
def swapEntry (path : List UInt8) : Option (List UInt8) :=
  (skipelem path).map fun (name, _) => direntName name

/-! ## What `itoa` writes -/

/-- A number in decimal. -/
def decimal (n : Nat) : List UInt8 := (Nat.digits 10 n).reverse.map fun d => 48 + d.toUInt8

theorem decimal_zero : decimal 0 = [] := rfl

/-- The last digit is the remainder. -/
theorem decimal_pos {n : Nat} (positive : 0 < n) :
    decimal n = decimal (n / 10) ++ [48 + (n % 10).toUInt8] := by
  rw [decimal, Nat.digits_def' (by decide) positive]
  simp [decimal]

theorem digit_eq (n : Nat) : digit ((n : Int).tmod 10) = some (48 + (n % 10).toUInt8) := by
  have small : n % 10 < 10 := Nat.mod_lt n (by decide)
  have isMod : (n : Int).tmod 10 = ((n % 10 : Nat) : Int) := rfl
  rw [isMod]
  revert small
  generalize n % 10 = d
  revert d
  decide

theorem moveToEnd_eq {n : Nat} (positive : 0 < n) (p : Nat) :
    moveToEnd p n = p + (decimal n).length := by
  induction n using Nat.strong_induction_on generalizing p with
  | _ n ih =>
    have isDiv : (n : Int).tdiv 10 = ((n / 10 : Nat) : Int) := rfl
    rw [moveToEnd, isDiv, decimal_pos positive, length_append, length_singleton]
    by_cases last : n / 10 = 0
    · rw [last, decimal_zero]
      rfl
    · rw [if_neg (Int.natCast_ne_zero.mpr last), ih (n / 10) (by omega) (by omega)]
      omega

/-- The digits replace what is between the start and the place of the NUL. -/
theorem moveBack_eq {n : Nat} (positive : 0 < n) {before middle after : List UInt8}
    (room : middle.length = (decimal n).length) :
    moveBack (before ++ middle ++ after) (before.length + middle.length) n =
      some (before ++ decimal n ++ after) := by
  induction n using Nat.strong_induction_on generalizing middle after with
  | _ n ih =>
    have isDiv : (n : Int).tdiv 10 = ((n / 10 : Nat) : Int) := rfl
    have isLast := decimal_pos positive
    rw [isLast, length_append, length_singleton] at room
    obtain ⟨middle, b, rfl⟩ : ∃ start b, middle = start ++ [b] := by
      rcases eq_nil_or_concat middle with rfl | ⟨start, b, rfl⟩
      · cases room
      · exact ⟨start, b, concat_eq_append⟩
    rw [length_append, length_singleton] at room
    have position : before.length + (middle ++ [b]).length - 1 = (before ++ middle).length := by
      simp only [length_append, length_singleton]
      omega
    have written : ∀ c, (before ++ (middle ++ [b]) ++ after).set (before ++ middle).length c =
        before ++ middle ++ c :: after := by
      intro c
      rw [show before ++ (middle ++ [b]) ++ after = before ++ middle ++ b :: after by simp,
        set_append_right _ _ le_rfl, Nat.sub_self, set_cons_zero]
    rw [moveBack, digit_eq, isDiv, position, isLast]
    simp only [Option.bind_eq_bind, Option.bind_some, written]
    by_cases last : n / 10 = 0
    · rw [last, decimal_zero] at room
      obtain rfl : middle = [] := eq_nil_of_length_eq_zero (by simpa using room)
      rw [last, decimal_zero]
      simp
    · rw [if_neg (Int.natCast_ne_zero.mpr last), length_append,
        ih (n / 10) (by omega) (by omega) (by omega)]
      simp

theorem decimal_length_le (n k : Nat) : (decimal n).length ≤ k ↔ n < 10 ^ k := by
  rw [decimal, length_map, length_reverse, Nat.digits_length_le_iff (by decide)]

/-- The characters of the digits. -/
theorem digit_char : ∀ d < 10, 48 + d.toUInt8 ≠ 0 ∧ 48 + d.toUInt8 ≠ 47 ∧
    (48 + d.toUInt8 - 48).toNat = d := by
  decide

/-- A number in decimal has neither a NUL nor a slash in it. -/
theorem decimal_plain (n : Nat) : ∀ c ∈ decimal n, c ≠ 0 ∧ c ≠ 47 := by
  intro c member
  obtain ⟨d, inside, rfl⟩ := mem_map.mp member
  obtain ⟨noNul, noSlash, -⟩ :=
    digit_char d (Nat.digits_lt_base (by decide) (mem_reverse.mp inside))
  exact ⟨noNul, noSlash⟩

theorem decimal_injective {n m : Nat} (same : decimal n = decimal m) : n = m := by
  have back : ∀ k, (decimal k).reverse.map (fun c => (c - 48).toNat) = Nat.digits 10 k := by
    intro k
    rw [decimal, ← map_reverse, reverse_reverse, map_map]
    refine (map_congr_left fun d inside => ?_).trans (map_id _)
    exact (digit_char d (Nat.digits_lt_base (by decide) inside)).2.2
  rw [← Nat.digits_inj_iff (b := 10), ← back, ← back, same]

/-- A number in decimal, with a digit for zero. -/
def magnitude (n : Nat) : List UInt8 := if n = 0 then [48] else decimal n

theorem magnitude_pos {n : Nat} (positive : 0 < n) : magnitude n = decimal n :=
  if_neg positive.ne'

/-- The two loops of `itoa` write a number and a NUL. -/
theorem moveBack_magnitude {start rest : List UInt8} (n : Nat)
    (room : (magnitude n).length < rest.length) :
    moveBack ((start ++ rest).set (moveToEnd start.length n) 0) (moveToEnd start.length n) n =
      some (start ++ magnitude n ++ 0 :: rest.drop ((magnitude n).length + 1)) := by
  -- The part that is overwritten, and the byte that becomes the NUL.
  obtain ⟨middle, b, after, rfl, long⟩ : ∃ middle b after,
      rest = middle ++ b :: after ∧ middle.length = (magnitude n).length := by
    obtain ⟨b, after, more⟩ : ∃ b after, rest.drop (magnitude n).length = b :: after :=
      exists_cons_of_ne_nil (by
        rw [← length_pos_iff, length_drop]
        omega)
    refine ⟨rest.take (magnitude n).length, b, after, ?_, ?_⟩
    · rw [← more, take_append_drop]
    · rw [length_take]
      omega
  have remains : (middle ++ b :: after).drop ((magnitude n).length + 1) = after := by
    rw [← long, drop_append, drop_of_length_le (by omega)]
    simp
  have ended : (start ++ (middle ++ b :: after)).set (start.length + (magnitude n).length) 0 =
      start ++ middle ++ 0 :: after := by
    rw [← long]
    simp
  rw [remains]
  by_cases zero : n = 0
  · subst zero
    have last : moveToEnd start.length (0 : Nat) = start.length + (magnitude 0).length := by
      rw [moveToEnd]
      rfl
    obtain ⟨c, rfl⟩ := length_eq_one_iff.mp long
    rw [last, ended, moveBack]
    simp [magnitude, digit]
  · have positive : 0 < n := Nat.pos_of_ne_zero zero
    rw [magnitude_pos positive] at long ended ⊢
    rw [moveToEnd_eq positive, ended, ← long, moveBack_eq positive long]

/-- The path, in a stack that has room for it. -/
theorem swapPath_eq {stack : List UInt8} {n : Nat} (positive : 0 < n)
    (room : 6 + (decimal n).length < stack.length) :
    swapPath stack n = some ([47, 46, 115, 119, 97, 112] ++ decimal n) := by
  obtain ⟨start, isStart⟩ : ∃ start : List UInt8, start = [47, 46, 115, 119, 97, 112] := ⟨_, rfl⟩
  have six : 6 = start.length := by rw [isStart]; rfl
  obtain ⟨after, ran⟩ : ∃ after,
      itoa n (start ++ stack.drop 6) 6 = some (start ++ decimal n ++ 0 :: after) := by
    rw [itoa, if_neg (by omega)]
    dsimp only
    rw [six, moveBack_magnitude n (by rw [magnitude_pos positive, length_drop]; omega),
      magnitude_pos positive]
    exact ⟨_, rfl⟩
  have text : (start ++ decimal n ++ 0 :: after).takeWhile (· ≠ 0) = start ++ decimal n := by
    rw [takeWhile_append_of_pos]
    · simp
    · intro c member
      rcases mem_append.mp member with inStart | inDigits
      · have plain : start.all fun c => c ≠ 0 := by
          rw [isStart]
          rfl
        exact all_eq_true.mp plain c inStart
      · exact decide_eq_true (decimal_plain n c inDigits).1
  rw [swapPath, ← isStart, ran]
  exact congrArg some text

/-! ## The entry in the directory -/

/-- The entry that the path resolves to. -/
theorem swapEntry_eq (n : Nat) : swapEntry ([47, 46, 115, 119, 97, 112] ++ decimal n) =
    some (direntName ([46, 115, 119, 97, 112] ++ decimal n)) := by
  have plain : 47 ∉ 46 :: ([115, 119, 97, 112] ++ decimal n) := by
    intro member
    rcases mem_append.mp (show 47 ∈ [46, 115, 119, 97, 112] ++ decimal n from member) with
      inStart | inDigits
    · exact absurd inStart (by decide)
    · exact (decimal_plain n 47 inDigits).2 rfl
  have parsed : skipelem ([47, 46, 115, 119, 97, 112] ++ decimal n) = _ := skipelem_last plain
  rw [swapEntry, parsed]
  simp [direntName, take_take]

/-- A short name can be read off its entry. -/
theorem direntName_injective {name other : List UInt8} (plain : ∀ c ∈ name, c ≠ 0)
    (plainToo : ∀ c ∈ other, c ≠ 0) (short : name.length ≤ dirsiz) (shortToo : other.length ≤ dirsiz)
    (same : direntName name = direntName other) : name = other := by
  have back : ∀ name : List UInt8, (∀ c ∈ name, c ≠ 0) → name.length ≤ dirsiz →
      (direntName name).takeWhile (· ≠ 0) = name := by
    intro name plain short
    rw [direntName, take_of_length_le short, rightpad, takeWhile_append_of_pos]
    · cases dirsiz - name.length <;> simp [replicate_succ]
    · exact fun c member => decide_eq_true (plain c member)
  rw [← back name plain short, same, back other plainToo shortToo]

/-- For two processes the paths fit in their arrays and the entries are different, if the
processes are, exactly if their numbers have at most seven digits. -/
theorem swap_files_private {stack : List UInt8} {p q : Nat} (room : 17 ≤ stack.length)
    (positive : 0 < p) (positiveToo : 0 < q) (int : p < 2 ^ 31) (intToo : q < 2 ^ 31) :
    (∃ a b, swapPath stack p = some a ∧ swapPath stack q = some b ∧
      a.length + 1 ≤ digits ∧ b.length + 1 ≤ digits ∧ (p ≠ q → swapEntry a ≠ swapEntry b)) ↔
      p < 10 ^ 7 ∧ q < 10 ^ 7 := by
  have path := @swapPath_eq stack p positive (by have := (decimal_length_le p 10).mpr (by omega); omega)
  have pathToo := @swapPath_eq stack q positiveToo
    (by have := (decimal_length_le q 10).mpr (by omega); omega)
  constructor
  · rintro ⟨a, b, isA, isB, fits, fitsToo, -⟩
    obtain rfl := Option.some.inj (path.symm.trans isA)
    obtain rfl := Option.some.inj (pathToo.symm.trans isB)
    rw [length_append, digits] at fits fitsToo
    rw [← decimal_length_le, ← decimal_length_le]
    simp only [length_cons, length_nil] at fits fitsToo
    omega
  · rintro ⟨few, fewToo⟩
    have short := (decimal_length_le p 7).mpr few
    have shortToo := (decimal_length_le q 7).mpr fewToo
    refine ⟨_, _, path, pathToo, ?_, ?_, fun apart same => apart ?_⟩
    · rw [length_append, digits]
      simp only [length_cons, length_nil]
      omega
    · rw [length_append, digits]
      simp only [length_cons, length_nil]
      omega
    · rw [swapEntry_eq, swapEntry_eq] at same
      have plain : ∀ n, ∀ c ∈ [46, 115, 119, 97, 112] ++ decimal n, c ≠ 0 := by
        intro n c member
        rcases mem_append.mp member with inStart | inDigits
        · have plain : [46, 115, 119, 97, 112].all fun c : UInt8 => c ≠ 0 := rfl
          exact of_decide_eq_true (all_eq_true.mp plain c inStart)
        · exact (decimal_plain n c inDigits).1
      have names := direntName_injective (plain p) (plain q)
        (by rw [length_append, dirsiz]; simp only [length_cons, length_nil]; omega)
        (by rw [length_append, dirsiz]; simp only [length_cons, length_nil]; omega)
        (Option.some.inj same)
      exact decimal_injective (append_cancel_left names)

theorem swap_files_private_two : ∃ a b, swapPath (List.replicate 17 0) 1 = some a ∧
    swapPath (List.replicate 17 0) 2 = some b ∧ a.length + 1 ≤ digits ∧ b.length + 1 ≤ digits ∧
    (1 ≠ 2 → swapEntry a ≠ swapEntry b) :=
  (@swap_files_private _ 1 2 List.length_replicate.ge (by decide) (by decide) (by decide)
    (by decide)).mpr (by decide)

/-- The path of process 10000000 takes fifteen bytes, and the processes 1000000000 and
1000000001 have the same entry. -/
theorem swap_files_shared :
    (∃ a, swapPath (List.replicate 17 0) 10000000 = some a ∧ digits < a.length + 1) ∧
    ∃ a b, swapPath (List.replicate 17 0) 1000000000 = some a ∧
      swapPath (List.replicate 17 0) 1000000001 = some b ∧ swapEntry a = swapEntry b := by
  have seven : decimal 10000000 = [49, 48, 48, 48, 48, 48, 48, 48] := by simp [decimal]
  have first : decimal 1000000000 = [49, 48, 48, 48, 48, 48, 48, 48, 48, 48] := by simp [decimal]
  have second : decimal 1000000001 = [49, 48, 48, 48, 48, 48, 48, 48, 48, 49] := by
    simp [decimal]
  refine ⟨⟨_, @swapPath_eq _ 10000000 (by decide) ?_, ?_⟩, _, _,
    @swapPath_eq _ 1000000000 (by decide) ?_, @swapPath_eq _ 1000000001 (by decide) ?_, ?_⟩
  · rw [seven]
    decide
  · rw [seven]
    decide
  · rw [first]
    decide
  · rw [second]
    decide
  · rw [first, second]
    decide

end Swap

end Xv6
