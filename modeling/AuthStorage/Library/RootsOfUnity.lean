/-
This file is about the Lagrange basis over all roots of unity of one order. The
basis polynomial of a root is a geometric sum in the point divided by the root.
A geometric sum whose length is a product is the product of a short sum and of a
sum in steps; for the Lagrange basis this splits off the factor that is shared by
all the roots with the same power.
-/

import Mathlib.Algebra.Ring.GeomSum
import Mathlib.LinearAlgebra.Lagrange
import Mathlib.RingTheory.RootsOfUnity.PrimitiveRoots
import Mathlib.Tactic

namespace RootsOfUnity

variable {F : Type} [Field F]

open Finset Polynomial

/-- A geometric sum in steps of `step`. -/
theorem geom_sum_mul_steps (ratio : F) (step count : Nat) :
    ∑ i ∈ range (step * count), ratio ^ i =
      (∑ j ∈ range step, ratio ^ j) * ∑ k ∈ range count, (ratio ^ step) ^ k := by
  induction count with
  | zero => simp
  | succ count inductionHypothesis =>
    rw [Nat.mul_succ, sum_range_add, inductionHypothesis, sum_range_succ, mul_add, ← pow_mul,
      sum_mul _ _ (ratio ^ (step * count))]
    congr 1
    refine sum_congr rfl fun j _ => ?_
    rw [pow_add, mul_comm]

section

variable {root : F} {order : Nat}

/-- The powers of a root add up to nothing unless the root is one. -/
theorem sum_pow_of_pow_eq_one {ratio : F} (period : ratio ^ order = 1) (notOne : ratio ≠ 1) :
    ∑ i ∈ range order, ratio ^ i = 0 := by
  have product : (∑ i ∈ range order, ratio ^ i) * (ratio - 1) = 0 := by
    rw [geom_sum_mul, period, sub_self]
  exact (mul_eq_zero.mp product).resolve_right (sub_ne_zero.mpr notOne)

/-- The basis polynomial in coefficients. -/
noncomputable def geometric (root : F) (order number : Nat) : F[X] :=
  ∑ i ∈ range order, C ((order : F)⁻¹ * ((root ^ number)⁻¹) ^ i) * X ^ i

theorem eval_geometric (number : Nat) (point : F) :
    (geometric root order number).eval point =
      (order : F)⁻¹ * ∑ i ∈ range order, ((root ^ number)⁻¹ * point) ^ i := by
  rw [geometric, eval_finsetSum, mul_sum]
  refine sum_congr rfl fun i _ => ?_
  rw [eval_mul, eval_C, eval_pow, eval_X, mul_pow, mul_assoc]

theorem degree_geometric_lt (number : Nat) :
    (geometric root order number).degree < order := by
  refine lt_of_le_of_lt (degree_sum_le _ _) ?_
  refine (Finset.sup_lt_iff (WithBot.bot_lt_coe order)).mpr fun i member => ?_
  refine lt_of_le_of_lt (degree_C_mul_X_pow_le _ _) ?_
  exact WithBot.coe_lt_coe.mpr (mem_range.mp member)

/-- The Lagrange basis over the roots of unity, in closed form. -/
theorem eval_basis [NeZero order] (primitive : IsPrimitiveRoot root order) (number : Fin order)
    (point : F) :
    (Lagrange.basis univ (fun index : Fin order => root ^ index.val) number).eval point =
      (order : F)⁻¹ * ∑ i ∈ range order, ((root ^ number.val)⁻¹ * point) ^ i := by
  have invertible : (order : F) ≠ 0 := primitive.neZero'.ne
  have nodes : Set.InjOn (fun index : Fin order => root ^ index.val) (univ : Finset (Fin order)) :=
    fun first _ second _ same => Fin.ext (primitive.pow_inj first.isLt second.isLt same)
  have size : (univ : Finset (Fin order)).card = order := by rw [card_univ, Fintype.card_fin]
  have same : Lagrange.basis univ (fun index : Fin order => root ^ index.val) number =
      geometric root order number := by
    refine eq_of_degrees_lt_of_eval_index_eq univ nodes ?_ ?_ fun index _ => ?_
    · rw [Lagrange.degree_basis nodes (mem_univ number), size]
      exact WithBot.coe_lt_coe.mpr (Nat.sub_lt (NeZero.pos order) Nat.one_pos)
    · rw [size]
      exact degree_geometric_lt number
    · rw [eval_geometric]
      by_cases here : index = number
      · subst here
        have unit : root ^ index.val ≠ 0 := pow_ne_zero _ (primitive.ne_zero (NeZero.ne order))
        rw [Lagrange.eval_basis_self nodes (mem_univ index), inv_mul_cancel₀ unit, one_geom_sum,
          inv_mul_cancel₀ invertible]
      · have zero := Lagrange.eval_basis_of_ne (F := F)
          (v := fun index : Fin order => root ^ index.val) (Ne.symm here) (mem_univ index)
        rw [zero, sum_pow_of_pow_eq_one, mul_zero]
        · rw [mul_pow, inv_pow, ← pow_mul, ← pow_mul, mul_comm number.val, mul_comm index.val,
            pow_mul, pow_mul, primitive.pow_eq_one, one_pow, one_pow, inv_one, one_mul]
        · intro one
          rw [inv_mul_eq_one₀ (pow_ne_zero _ (primitive.ne_zero (NeZero.ne order)))] at one
          exact here (Fin.ext (primitive.pow_inj index.isLt number.isLt one.symm))
  rw [same, eval_geometric]

end

end RootsOfUnity
