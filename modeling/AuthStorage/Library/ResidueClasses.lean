/-
This file is about sums over the numbers below a power of two, split by their
residues modulo smaller powers of two. A residue class modulo `2 ^ depth` is two
classes modulo `2 ^ (depth + 1)`, that of a member and that of the member with
bit `depth` flipped. So the sum over all numbers is the term of one of them and,
for each depth, the sum over the class that leaves its path there.
-/

import Mathlib.Algebra.BigOperators.Fin
import Mathlib.Data.Nat.Bitwise
import Mathlib.Tactic

namespace ResidueClasses

variable {M : Type} [AddCommMonoid M] {height : Nat}

/-- The numbers with this residue modulo `2 ^ depth`. -/
def members (height depth residue : Nat) : Finset (Fin (2 ^ height)) :=
  Finset.univ.filter fun number => number.val % 2 ^ depth = residue

@[simp] theorem mem_members {depth residue : Nat} {number : Fin (2 ^ height)} :
    number ∈ members height depth residue ↔ number.val % 2 ^ depth = residue := by
  simp [members]

/-- The residue of the class that leaves the path of `number` below `depth`. -/
def other (depth number : Nat) : Nat := (number % 2 ^ (depth + 1)) ^^^ 2 ^ depth

theorem mod_eq_iff {width first second : Nat} :
    first % 2 ^ width = second % 2 ^ width ↔
      ∀ position < width, first.testBit position = second.testBit position := by
  constructor
  · intro same position below
    have bits := congrArg (fun number => number.testBit position) same
    simpa [Nat.testBit_mod_two_pow, below] using bits
  · intro same
    refine Nat.eq_of_testBit_eq fun position => ?_
    rw [Nat.testBit_mod_two_pow, Nat.testBit_mod_two_pow]
    by_cases below : position < width
    · rw [same position below]
    · simp [below]

theorem mod_eq_other_iff {depth first second : Nat} :
    first % 2 ^ (depth + 1) = other depth second ↔
      first % 2 ^ depth = second % 2 ^ depth ∧
        first.testBit depth ≠ second.testBit depth := by
  have small : 2 ^ depth % 2 ^ (depth + 1) = 2 ^ depth :=
    Nat.mod_eq_of_lt (Nat.pow_lt_pow_right (by norm_num) (Nat.lt_succ_self _))
  have flipped : other depth second = (second ^^^ 2 ^ depth) % 2 ^ (depth + 1) := by
    rw [other, Nat.xor_mod_two_pow, small]
  rw [flipped, mod_eq_iff, mod_eq_iff, Nat.forall_lt_succ_right]
  refine and_congr (forall₂_congr fun position below => ?_) ?_
  · rw [Nat.testBit_xor, Nat.testBit_two_pow_of_ne (Nat.ne_of_gt below), Bool.xor_false]
  · rw [Nat.testBit_xor, Nat.testBit_two_pow_self, Bool.xor_true, ne_eq, Bool.eq_not_iff]

/-- A class is the class of a member one bit further and the class beside it. -/
theorem sum_members_succ (term : Fin (2 ^ height) → M) (depth number : Nat) :
    ∑ index ∈ members height depth (number % 2 ^ depth), term index =
      ∑ index ∈ members height (depth + 1) (number % 2 ^ (depth + 1)), term index +
        ∑ index ∈ members height (depth + 1) (other depth number), term index := by
  rw [← Finset.sum_filter_add_sum_filter_not _
    fun index : Fin (2 ^ height) => index.val.testBit depth = number.testBit depth]
  congr 1
  · refine Finset.sum_congr (Finset.ext fun index => ?_) fun _ _ => rfl
    rw [Finset.mem_filter, mem_members, mem_members, mod_eq_iff, mod_eq_iff,
      Nat.forall_lt_succ_right]
  · refine Finset.sum_congr (Finset.ext fun index => ?_) fun _ _ => rfl
    rw [Finset.mem_filter, mem_members, mem_members, mod_eq_other_iff]

/-- The sum over all numbers, along the path of one of them. -/
theorem sum_path (term : Fin (2 ^ height) → M) (number : Fin (2 ^ height)) :
    ∑ index, term index = term number + ∑ depth ∈ Finset.range height,
      ∑ index ∈ members height (depth + 1) (other depth number), term index := by
  have along : ∀ depth ≤ height, ∑ index, term index =
      ∑ index ∈ members height depth (number.val % 2 ^ depth), term index +
        ∑ depth ∈ Finset.range depth,
          ∑ index ∈ members height (depth + 1) (other depth number), term index := by
    intro depth
    induction depth with
    | zero =>
      intro _
      rw [Finset.sum_range_zero, add_zero]
      refine Finset.sum_congr (Finset.ext fun index => ?_) fun _ _ => rfl
      simp [Nat.mod_one]
    | succ depth inductionHypothesis =>
      intro le
      rw [inductionHypothesis (Nat.le_of_succ_le le), sum_members_succ, Finset.sum_range_succ,
        add_assoc, add_comm (∑ index ∈ members height (depth + 1) (other depth number), term index)]
  have single : members height height (number.val % 2 ^ height) = {number} := by
    ext index
    rw [mem_members, Finset.mem_singleton, Nat.mod_eq_of_lt index.isLt,
      Nat.mod_eq_of_lt number.isLt, Fin.val_inj]
  rw [along height le_rfl, single, Finset.sum_singleton]

end ResidueClasses
