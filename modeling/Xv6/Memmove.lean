import Mathlib

/-!
# Copying memory

The kernel's `memmove` copies backwards where the destination begins inside the source. The
`memmove` of the user library always copies forwards, so where the ranges overlap that way it
reads bytes it has written, and what it leaves repeats the bytes between the two beginnings.

Memory is a function of the address, and pointers go around at `2 ^ 32`.
-/

namespace Xv6.Memmove

open Function

/-- The loop `while(n-- > 0) *d++ = *s++`. -/
def forward (m : Nat → UInt8) (d s : Nat) : Nat → (Nat → UInt8)
  | 0 => m
  | n + 1 => forward (Function.update m d (m s)) ((d + 1) % 2 ^ 32) ((s + 1) % 2 ^ 32) n

/-- The address before another one. -/
def before (p : Nat) : Nat := (p + (2 ^ 32 - 1)) % 2 ^ 32

/-- The loop `while(n-- > 0) *--d = *--s`. -/
def backward (m : Nat → UInt8) (d s : Nat) : Nat → (Nat → UInt8)
  | 0 => m
  | n + 1 => backward (Function.update m (before d) (m (before s))) (before d) (before s) n

/-- `memmove` of `string.c`. -/
def Kernel.memmove (m : Nat → UInt8) (dst src n : Nat) : Nat → UInt8 :=
  if src < dst ∧ (src + n) % 2 ^ 32 > dst then
    backward m ((dst + n) % 2 ^ 32) ((src + n) % 2 ^ 32) n
  else forward m dst src n

/-- `memmove` of `ulib.c`, which takes the number of bytes for a signed one. -/
def User.memmove (m : Nat → UInt8) (vdst vsrc n : Nat) : Nat → UInt8 :=
  forward m vdst vsrc ((n : Int).bmod (2 ^ 32)).toNat

/-- The bytes at the destination are those that were at the source, and all others are as
they were. -/
def Copies (m : Nat → UInt8) (dst src n : Nat) (after : Nat → UInt8) : Prop :=
  ∀ a, after a = if dst ≤ a ∧ a < dst + n then m (src + (a - dst)) else m a

variable {m : Nat → UInt8} {dst src n : Nat}

/-- The last round of the loop that copies forwards. -/
theorem forward_succ (inside : dst + n < 2 ^ 32) (insideToo : src + n < 2 ^ 32) :
    forward m dst src (n + 1) =
      update (forward m dst src n) (dst + n) (forward m dst src n (src + n)) := by
  induction n generalizing m dst src with
  | zero => rfl
  | succ n ih =>
    have next : (dst + 1) % 2 ^ 32 = dst + 1 := Nat.mod_eq_of_lt (by omega)
    have nextToo : (src + 1) % 2 ^ 32 = src + 1 := Nat.mod_eq_of_lt (by omega)
    rw [forward, next, nextToo, ih (by omega) (by omega), forward, next, nextToo]
    simp only [Nat.add_right_comm _ 1 n, Nat.add_assoc]

/-- Copying forwards leaves the source, or where the destination begins inside it the bytes
before the destination again and again. -/
theorem forward_eq (inside : dst + n ≤ 2 ^ 32) (insideToo : src + n ≤ 2 ^ 32) (a : Nat) :
    forward m dst src n a =
      if dst ≤ a ∧ a < dst + n then
        m (src + if src < dst then (a - dst) % (dst - src) else a - dst)
      else m a := by
  induction n generalizing a with
  | zero => rw [forward, if_neg (by omega)]
  | succ n ih =>
    rw [forward_succ (by omega) (by omega), update_apply]
    by_cases last : a = dst + n
    · subst last
      have stored : dst ≤ dst + n ∧ dst + n < dst + (n + 1) := by omega
      rw [if_pos rfl, if_pos stored, ih (by omega) (by omega), Nat.add_sub_cancel_left]
      by_cases ahead : src < dst
      · rw [if_pos ahead, if_pos ahead]
        by_cases again : dst ≤ src + n
        · have back : src + n - dst = n - (dst - src) := by omega
          rw [if_pos (by omega), back, ← Nat.mod_eq_sub_mod (by omega)]
        · rw [if_neg (by omega), Nat.mod_eq_of_lt (by omega)]
      · rw [if_neg (by omega), if_neg ahead]
    · rw [if_neg last, ih (by omega) (by omega)]
      simp only [show a < dst + (n + 1) ↔ a < dst + n by omega]

/-- Copying backwards leaves the source, when the destination is behind it. -/
theorem backward_copies (ahead : src < dst) (inside : dst + n ≤ 2 ^ 32) :
    Copies m dst src n (backward m ((dst + n) % 2 ^ 32) ((src + n) % 2 ^ 32) n) := by
  intro a
  induction n generalizing m with
  | zero => rw [backward, if_neg (by omega)]
  | succ n ih =>
    have last : before ((dst + (n + 1)) % 2 ^ 32) = (dst + n) % 2 ^ 32 := by
      unfold before
      omega
    have lastToo : before ((src + (n + 1)) % 2 ^ 32) = (src + n) % 2 ^ 32 := by
      unfold before
      omega
    rw [backward, last, lastToo, ih (by omega), Nat.mod_eq_of_lt (by omega : dst + n < 2 ^ 32),
      Nat.mod_eq_of_lt (by omega : src + n < 2 ^ 32)]
    by_cases here : a = dst + n
    · subst here
      rw [if_neg (by omega), if_pos (by omega), update_self, Nat.add_sub_cancel_left]
    · rw [update_of_ne here]
      by_cases copied : dst ≤ a ∧ a < dst + n
      · rw [if_pos copied, if_pos (by omega), update_of_ne (by omega)]
      · rw [if_neg copied, if_neg (by omega)]

/-- The kernel's `memmove` copies, however the ranges lie. -/
theorem kernel_copies (inside : dst + n ≤ 2 ^ 32) (insideToo : src + n ≤ 2 ^ 32) :
    Copies m dst src n (Kernel.memmove m dst src n) := by
  unfold Kernel.memmove
  split
  · rename_i overlap
    exact backward_copies overlap.1 inside
  · rename_i apart
    intro a
    rw [forward_eq inside insideToo]
    by_cases copied : dst ≤ a ∧ a < dst + n
    · rw [if_pos copied, if_pos copied]
      by_cases ahead : src < dst
      · -- The end of the source does not go around, since the destination ends behind it.
        have far : src + n ≤ dst := by
          rw [Nat.mod_eq_of_lt (by omega)] at apart
          omega
        rw [if_pos ahead, Nat.mod_eq_of_lt (by omega)]
      · rw [if_neg ahead]
    · rw [if_neg copied, if_neg copied]

/-- Both functions copy exactly if the user library's is not asked for `2 ^ 31` bytes or more,
and where the destination begins inside the source the source repeats the bytes before it; or,
for so many bytes, if there is nothing to change. -/
theorem memmoves_copy (size : n < 2 ^ 32) (inside : dst + n ≤ 2 ^ 32)
    (insideToo : src + n ≤ 2 ^ 32) :
    (Copies m dst src n (Kernel.memmove m dst src n) ∧
      Copies m dst src n (User.memmove m dst src n)) ↔
      if n < 2 ^ 31 then src < dst → ∀ i < n, m (src + i) = m (src + i % (dst - src))
      else ∀ i < n, m (dst + i) = m (src + i) := by
  rw [and_iff_right (kernel_copies inside insideToo), User.memmove]
  by_cases small : n < 2 ^ 31
  · have count : ((n : Int).bmod (2 ^ 32)).toNat = n := by
      rw [Int.bmod_eq_of_le (by omega) (by omega), Int.toNat_natCast]
    rw [if_pos small, count]
    constructor
    · intro copies ahead i inRange
      have stored : dst ≤ dst + i ∧ dst + i < dst + n := by omega
      have copied := copies (dst + i)
      rw [forward_eq inside insideToo, if_pos stored, if_pos stored, if_pos ahead,
        Nat.add_sub_cancel_left] at copied
      exact copied.symm
    · intro repeats a
      rw [forward_eq inside insideToo]
      by_cases copied : dst ≤ a ∧ a < dst + n
      · rw [if_pos copied, if_pos copied]
        by_cases ahead : src < dst
        · rw [if_pos ahead]
          exact (repeats ahead (a - dst) (by omega)).symm
        · rw [if_neg ahead]
      · rw [if_neg copied, if_neg copied]
  · have none : ((n : Int).bmod (2 ^ 32)).toNat = 0 := by
      rw [Int.bmod_def]
      omega
    rw [if_neg small, none, forward]
    constructor
    · intro copies i inRange
      have copied := copies (dst + i)
      rwa [if_pos (by omega), Nat.add_sub_cancel_left] at copied
    · intro equal a
      by_cases copied : dst ≤ a ∧ a < dst + n
      · have same := equal (a - dst) (by omega)
        rw [Nat.add_sub_cancel' copied.1] at same
        rw [if_pos copied, same]
      · rw [if_neg copied]

theorem memmoves_copy_down :
    Copies Nat.toUInt8 0 1 2 (Kernel.memmove Nat.toUInt8 0 1 2) ∧
      Copies Nat.toUInt8 0 1 2 (User.memmove Nat.toUInt8 0 1 2) :=
  (memmoves_copy (by decide) (by decide) (by decide)).mpr (by simp)

/-- The user library's `memmove` of two bytes to the next address stores the first byte
twice. -/
theorem user_memmove_repeats :
    ¬ Copies Nat.toUInt8 1 0 2 (User.memmove Nat.toUInt8 1 0 2) := by
  intro copies
  exact absurd (copies 2) (by decide)

end Xv6.Memmove
