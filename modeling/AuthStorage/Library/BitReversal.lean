/-
This file reverses the low bits of a number. The only fact used elsewhere is
where each bit goes; from it the prefixes of a reversed index are read off as
the suffixes of the index, so that a binary tree addressed by reversed indices
splits its leaves by residues modulo powers of two.
-/

import Mathlib.Tactic
import Mathlib.Data.Nat.Bitwise

namespace BitReversal

/-- The `width` low bits of `number` in the opposite order. -/
def reverse : Nat → Nat → Nat
  | 0, _ => 0
  | width + 1, number => 2 ^ width * (number % 2) + reverse width (number / 2)

theorem reverse_lt (width number : Nat) : reverse width number < 2 ^ width := by
  induction width generalizing number with
  | zero => exact Nat.one_pos
  | succ width inductionHypothesis =>
    have rest := inductionHypothesis (number / 2)
    have bit : number % 2 < 2 := Nat.mod_lt _ (by norm_num)
    rw [reverse, pow_succ]
    interval_cases number % 2 <;> omega

/-- Bit `position` of the reversal is bit `width - 1 - position` of the number. -/
theorem testBit_reverse (width number position : Nat) :
    (reverse width number).testBit position =
      (decide (position < width) && number.testBit (width - 1 - position)) := by
  induction width generalizing number position with
  | zero => simp [reverse]
  | succ width inductionHypothesis =>
    rw [reverse, Nat.testBit_two_pow_mul_add _ (reverse_lt width (number / 2))]
    by_cases low : position < width
    · have shifted : width + 1 - 1 - position = width - 1 - position + 1 := by omega
      rw [if_pos low, inductionHypothesis, shifted, Nat.testBit_succ]
      simp [low, Nat.lt_succ_of_lt low]
    · rw [if_neg low]
      by_cases last : position = width
      · subst last
        simp [Nat.testBit_zero]
      · have high : ¬ position < width + 1 := by omega
        have zero : (number % 2).testBit (position - width) = false := by
          apply Nat.testBit_lt_two_pow
          have bound : 2 ^ 1 ≤ 2 ^ (position - width) :=
            Nat.pow_le_pow_right (by norm_num) (by omega)
          omega
        rw [zero]
        simp [high]

/-- The first `depth` bits of a reversed index are the reversal of its last `depth` bits. -/
theorem testBit_reverse_shiftRight {width depth : Nat} (inside : depth ≤ width)
    (number position : Nat) :
    (reverse width number >>> (width - depth)).testBit position =
      (decide (position < depth) && number.testBit (depth - 1 - position)) := by
  rw [Nat.testBit_shiftRight, testBit_reverse]
  by_cases low : position < depth
  · have shifted : width - 1 - (width - depth + position) = depth - 1 - position := by omega
    rw [shifted]
    simp [low, show width - depth + position < width by omega]
  · simp [low, show ¬ width - depth + position < width by omega]

/-- Two reversed indices agree on their first `depth` bits exactly when the indices agree modulo
`2 ^ depth`. -/
theorem reverse_shiftRight_eq_iff {width depth : Nat} (inside : depth ≤ width)
    (first second : Nat) :
    reverse width first >>> (width - depth) = reverse width second >>> (width - depth) ↔
      first % 2 ^ depth = second % 2 ^ depth := by
  constructor
  · intro same
    apply Nat.eq_of_testBit_eq
    intro position
    rw [Nat.testBit_mod_two_pow, Nat.testBit_mod_two_pow]
    by_cases low : position < depth
    · have bits := congrArg (fun number => number.testBit (depth - 1 - position)) same
      simp only [testBit_reverse_shiftRight inside] at bits
      have back : depth - 1 - (depth - 1 - position) = position := by omega
      have reflected : depth - 1 - position < depth := by omega
      simpa [back, reflected, low] using bits
    · simp [low]
  · intro same
    apply Nat.eq_of_testBit_eq
    intro position
    rw [testBit_reverse_shiftRight inside, testBit_reverse_shiftRight inside]
    by_cases low : position < depth
    · have bits := congrArg (fun number => number.testBit (depth - 1 - position)) same
      simp only [Nat.testBit_mod_two_pow] at bits
      have reflected : depth - 1 - position < depth := by omega
      simpa [reflected, low] using bits
    · simp [low]

/-- Flipping bit `depth - 1` of an index flips the last of the first `depth` bits of its
reversal. -/
theorem reverse_xor_two_pow_shiftRight {width depth : Nat} (positive : 0 < depth)
    (inside : depth ≤ width) (number : Nat) :
    reverse width (number ^^^ 2 ^ (depth - 1)) >>> (width - depth) =
      (reverse width number >>> (width - depth)) ^^^ 1 := by
  apply Nat.eq_of_testBit_eq
  intro position
  have one : (1 : Nat).testBit position = decide (position = 0) := by
    rw [← pow_zero 2, Nat.testBit_two_pow]
    exact decide_eq_decide.mpr eq_comm
  rw [testBit_reverse_shiftRight inside, Nat.testBit_xor, Nat.testBit_xor,
    testBit_reverse_shiftRight inside, Nat.testBit_two_pow, one]
  by_cases low : position < depth
  · have turned : (depth - 1 = depth - 1 - position) ↔ position = 0 := by omega
    simp [low, turned]
  · simp [low, show position ≠ 0 by omega]

/-- Two reversed indices are siblings at `depth` exactly when the indices differ, modulo
`2 ^ depth`, in bit `depth - 1`. -/
theorem reverse_shiftRight_xor_one_eq_iff {width depth : Nat} (positive : 0 < depth)
    (inside : depth ≤ width) (first second : Nat) :
    reverse width first >>> (width - depth) = (reverse width second >>> (width - depth)) ^^^ 1 ↔
      first % 2 ^ depth = (second % 2 ^ depth) ^^^ 2 ^ (depth - 1) := by
  have small : 2 ^ (depth - 1) % 2 ^ depth = 2 ^ (depth - 1) :=
    Nat.mod_eq_of_lt (Nat.pow_lt_pow_right (by norm_num) (by omega))
  rw [← reverse_xor_two_pow_shiftRight positive inside, reverse_shiftRight_eq_iff inside,
    Nat.xor_mod_two_pow, small]

end BitReversal
