import Mathlib

/-!
# Path elements

A path is taken apart element by element. A name in a directory entry has a fixed size:
`skipelem` cuts a longer element, and `strncpy` fills a shorter one up with NULs.
-/

namespace Xv6

/-- `DIRSIZ`, the bytes of a name in a directory entry. -/
def dirsiz : Nat := 14

/-- Copy the next path element, and give the path that follows it. Strings are the bytes
before the NUL; the name fills its buffer without one if the element is too long. -/
def skipelem (path : List UInt8) : Option (List UInt8 × List UInt8) :=
  let path := path.dropWhile (· = 47)
  if path.isEmpty then none
  else
    let s := path.takeWhile (· ≠ 47)
    some (s.take dirsiz, (path.drop s.length).dropWhile (· = 47))

/-- The bytes of the name in a directory entry that `dirlink` makes. -/
def direntName (name : List UInt8) : List UInt8 := (name.take dirsiz).rightpad dirsiz 0

/-- An element that fits and that a slash does not follow is the last one. -/
theorem skipelem_last {c : UInt8} {name : List UInt8} (plain : 47 ∉ c :: name) :
    skipelem (47 :: c :: name) = some ((c :: name).take dirsiz, []) := by
  rw [List.mem_cons, not_or] at plain
  have first : ¬ c = 47 := fun same => plain.1 same.symm
  have rest : (c :: name).takeWhile (· ≠ 47) = c :: name := by
    rw [← List.append_nil (c :: name), List.takeWhile_append_of_pos, List.takeWhile_nil]
    intro b member
    refine decide_eq_true fun same => ?_
    rcases List.mem_cons.mp member with rfl | inside
    · exact first same
    · exact plain.2 (same ▸ inside)
  have start : (47 :: c :: name).dropWhile (· = 47) = c :: name := by simp [first]
  rw [skipelem, start, rest]
  simp

/-- Compare at most `n` bytes of two strings; behind the end of a list there is a NUL. -/
def strncmp : Nat → List UInt8 → List UInt8 → Int
  | 0, _, _ => 0
  | n + 1, p, q =>
    if p.headD 0 ≠ 0 ∧ p.headD 0 = q.headD 0 then strncmp n p.tail q.tail
    else (p.headD 0).toNat - (q.headD 0).toNat

/-- Compare two names. -/
def namecmp (s t : List UInt8) : Int := strncmp dirsiz s t

theorem strncmp_rightpad {n : Nat} {p q : List UInt8} (plain : 0 ∉ p) (other : 0 ∉ q) :
    strncmp n p ((q.take n).rightpad n 0) = 0 ↔ p.take n = q.take n := by
  induction n generalizing p q with
  | zero => simp [strncmp]
  | succ n ih =>
    cases p <;> cases q
    case nil.nil => simp [strncmp, List.rightpad, List.replicate_succ]
    case nil.cons b q =>
      have real := mt UInt8.toNat_inj.mp (List.ne_of_not_mem_cons other)
      simpa [strncmp, List.rightpad] using Ne.symm real
    case cons.nil a p =>
      have real := mt UInt8.toNat_inj.mp (List.ne_of_not_mem_cons plain)
      simpa [strncmp, List.rightpad, List.replicate_succ] using Ne.symm real
    case cons.cons a p b q =>
      rw [List.mem_cons, not_or] at plain other
      have next := ih plain.2 other.2
      by_cases same : a = b
      · simpa [strncmp, List.rightpad, same, Ne.symm other.1] using next
      · have apart : (a.toNat : Int) - b.toNat ≠ 0 := by
          have different := mt UInt8.toNat_inj.mp same
          omega
        simpa [strncmp, List.rightpad, same] using apart

/-- A name is equal to one that `dirlink` has stored exactly when both have the same first
`DIRSIZ` bytes. -/
theorem namecmp_direntName (name stored : List UInt8) (plain : 0 ∉ name) (other : 0 ∉ stored) :
    namecmp name (direntName stored) = 0 ↔ name.take dirsiz = stored.take dirsiz :=
  strncmp_rightpad plain other

theorem namecmp_direntName_a : namecmp [97] (direntName [97]) = 0 :=
  (namecmp_direntName [97] [97] (by decide) (by decide)).2 rfl

end Xv6
