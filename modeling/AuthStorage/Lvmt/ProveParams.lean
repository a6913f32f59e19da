/-
This file models how `crypto/prove_params.rs` builds the public parameters from
the powers of a secret scalar, and shows that they satisfy the pairing equation.
The Fourier transforms come from a library; what is used of it is that it
evaluates at the powers of a generator. The commitments are the Lagrange basis at
the secret, and the quotients and verification points are the two factors of its
geometric sum.
-/

import AuthStorage.Library.RootsOfUnity
import Mathlib.Data.List.GetD
import Mathlib.NumberTheory.Padics.PadicVal.Basic

namespace AuthStorage.Lvmt

/-! ### The library for Fourier transforms -/

/-- A domain of roots of unity, as the library describes it. -/
structure Radix2EvaluationDomain (F : Type) where
  size : Nat
  groupGen : F
  groupGenInv : F
  sizeInv : F

/-- What the source uses of its library. -/
structure FftLibrary (F : Type) [Field F] where
  /-- The number of times a number can be divided by the first argument. -/
  kAdicity : Nat → Nat → Nat
  newDomain : Nat → Option (Radix2EvaluationDomain F)
  fft {M : Type} [AddCommGroup M] [Module F M] : Radix2EvaluationDomain F → List M → List M
  ifft {M : Type} [AddCommGroup M] [Module F M] : Radix2EvaluationDomain F → List M → List M

variable {F : Type} [Field F]

namespace Radix2EvaluationDomain

/-- The generator has the order of the domain, and the stored inverses are the inverses. -/
structure Valid (domain : Radix2EvaluationDomain F) : Prop where
  primitive : IsPrimitiveRoot domain.groupGen domain.size
  groupGenInv : domain.groupGenInv = domain.groupGen⁻¹
  sizeInv : domain.sizeInv = (domain.size : F)⁻¹

/-- The domain of the given generator. -/
def ofGenerator (size : Nat) (generator : F) : Radix2EvaluationDomain F :=
  ⟨size, generator, generator⁻¹, (size : F)⁻¹⟩

theorem valid_ofGenerator {size : Nat} {generator : F}
    (primitive : IsPrimitiveRoot generator size) : (ofGenerator size generator).Valid :=
  ⟨primitive, rfl, rfl⟩

/-- The domain with its generator and the inverse exchanged. -/
def swapped (domain : Radix2EvaluationDomain F) : Radix2EvaluationDomain F :=
  { domain with groupGen := domain.groupGenInv, groupGenInv := domain.groupGen }

theorem Valid.swapped {domain : Radix2EvaluationDomain F} (valid : domain.Valid) :
    domain.swapped.Valid where
  primitive := by
    show IsPrimitiveRoot domain.groupGenInv domain.size
    rw [valid.groupGenInv]
    exact valid.primitive.inv
  groupGenInv := by
    show domain.groupGen = domain.groupGenInv⁻¹
    rw [valid.groupGenInv, inv_inv]
  sizeInv := valid.sizeInv

end Radix2EvaluationDomain

open Radix2EvaluationDomain (ofGenerator)

/-- What the library is documented to do, with `generator` as the generator of the largest
domain, of size `2 ^ maxDepth`. -/
structure FftLibrary.Lawful (library : FftLibrary F) (generator : F) (maxDepth : Nat) : Prop where
  kAdicity : ∀ depth, library.kAdicity 2 (2 ^ depth) = depth
  newDomain : ∀ depth ≤ maxDepth, library.newDomain (2 ^ depth) =
    some (ofGenerator (2 ^ depth) (generator ^ 2 ^ (maxDepth - depth)))
  /-- Evaluation at the powers of the generator. -/
  fft : ∀ {M : Type} [AddCommGroup M] [Module F M] (domain : Radix2EvaluationDomain F)
    (coeff : List M), domain.Valid → coeff.length = domain.size →
      library.fft domain coeff = (List.range domain.size).map fun t =>
        ∑ i ∈ Finset.range domain.size, domain.groupGen ^ (t * i) • coeff.getD i 0
  /-- Interpolation from the values at the powers of the generator. -/
  ifft : ∀ {M : Type} [AddCommGroup M] [Module F M] (domain : Radix2EvaluationDomain F)
    (evals : List M), domain.Valid → evals.length = domain.size →
      library.ifft domain evals = (List.range domain.size).map fun t =>
        domain.sizeInv • ∑ i ∈ Finset.range domain.size,
          domain.groupGenInv ^ (t * i) • evals.getD i 0

/-! ### The parameters -/

/-- `PowerTau::into_projective`: the powers of the secret in both groups. -/
structure PowerTau (G G₂ : Type) where
  g1pp : List G
  g2pp : List G₂

/-- The vectors of `AMTParams`. -/
structure ParamVectors (G G₂ : Type) where
  commitments : List G
  /-- Indexed by `depth - 1`. -/
  quotients : List (List G)
  /-- Indexed by `depth - 1`. -/
  verification : List (List G₂)
  g2 : G₂

/-- The loop `for i in indices { coeff[i] = source(i) }`; either index may be out of range. -/
def fill {M : Type} (source : Nat → Option M) (indices : List Nat) (coeff : List M) :
    Option (List M) :=
  indices.foldlM
    (fun coeff i => do
      let point ← source i
      if i < coeff.length then some (coeff.set i point) else none)
    coeff

variable {G G₂ Gt : Type} [AddCommGroup G] [AddCommGroup G₂] [AddCommGroup Gt]
  [Module F G] [Module F G₂] [Module F Gt]

/-- The quotients of all leaves at one depth. -/
def genQuotients (library : FftLibrary F) (g1pp : List G) (fftDomain : Radix2EvaluationDomain F)
    (depth : Nat) : Option (List G) :=
  let length := g1pp.length
  let maxDepth := library.kAdicity 2 length
  if length ≤ 2 ^ 32 ∧ 2 ^ maxDepth = length ∧ depth ≤ maxDepth ∧ 1 ≤ depth then do
    let maxCoeff := 2 ^ (maxDepth - depth)
    let coeff ← fill (fun i => g1pp[maxCoeff - i]?) (List.range' 1 maxCoeff)
      (List.replicate length 0)
    some ((library.fft fftDomain coeff).map fun val => fftDomain.sizeInv • val)
  else
    none

/-- The verification points of one depth. -/
def genVerify (library : FftLibrary F) (g2pp : List G₂) (depth : Nat) : Option (List G₂) :=
  let length := g2pp.length
  let maxDepth := library.kAdicity 2 length
  if length ≤ 2 ^ 32 ∧ 2 ^ maxDepth = length ∧ depth ≤ maxDepth ∧ 1 ≤ depth then do
    let height := maxDepth - depth
    let step := 2 ^ height
    let fftDomain ← library.newDomain (2 ^ depth)
    let first ← g2pp[length - step]?
    let coeff := (List.replicate (2 ^ depth) 0).set 0 first
    let coeff ← fill (fun i => g2pp[(i - 1) * step]?) (List.range' 1 (length / step - 1)) coeff
    some (library.fft fftDomain.swapped coeff)
  else
    none

/-- The parameters of a tree, from the powers of tau. -/
def fromPp (library : FftLibrary F) (pp : PowerTau G G₂) : Option (ParamVectors G G₂) :=
  if pp.g1pp.length = pp.g2pp.length then do
    let length := pp.g1pp.length
    let depth := library.kAdicity 2 length
    let fftDomain ← library.newDomain length
    let commitments := library.ifft fftDomain pp.g1pp
    let quotients ← (List.range' 1 depth).mapM (genQuotients library pp.g1pp fftDomain)
    let verification ← (List.range' 1 depth).mapM (genVerify library pp.g2pp)
    let g2 ← pp.g2pp[0]?
    some ⟨commitments, quotients, verification, g2⟩
  else
    none

/-- The powers of the secret at a point. -/
def powers (tau : F) (point : G) (length : Nat) : List G :=
  (List.range length).map fun i => tau ^ i • point

/-- The powers of tau in both groups. -/
def powerTau (tau : F) (g1 : G) (g2 : G₂) (length : Nat) : PowerTau G G₂ where
  g1pp := powers tau g1 length
  g2pp := powers tau g2 length

theorem length_powers (tau : F) (point : G) (length : Nat) :
    (powers tau point length).length = length := by
  rw [powers, List.length_map, List.length_range]

theorem getElem?_powers (tau : F) (point : G) {length i : Nat} (inside : i < length) :
    (powers tau point length)[i]? = some (tau ^ i • point) := by
  rw [powers, List.getElem?_map, List.getElem?_range inside, Option.map_some]

theorem getD_powers (tau : F) (point : G) {length i : Nat} (inside : i < length) :
    (powers tau point length).getD i 0 = tau ^ i • point := by
  rw [List.getD_eq_getElem?_getD, getElem?_powers tau point inside, Option.getD_some]

/-! ### The loops -/

/-- Where every index is in range, the filled entries are the points. -/
theorem fill_eq_some {M : Type} {source : Nat → Option M} (points : Nat → M) {indices : List Nat}
    {coeff : List M} (found : ∀ i ∈ indices, source i = some (points i))
    (inside : ∀ i ∈ indices, i < coeff.length) (nodup : indices.Nodup) (default : M) :
    ∃ filled, fill source indices coeff = some filled ∧ filled.length = coeff.length ∧
      ∀ i, filled.getD i default = if i ∈ indices then points i else coeff.getD i default := by
  induction indices generalizing coeff with
  | nil => exact ⟨coeff, rfl, rfl, fun i => (if_neg List.not_mem_nil).symm⟩
  | cons first rest inductionHypothesis =>
    obtain ⟨fresh, nodup⟩ := List.nodup_cons.mp nodup
    have present := inside first List.mem_cons_self
    have restInside : ∀ i ∈ rest, i < (coeff.set first (points first)).length := by
      intro i member
      rw [List.length_set]
      exact inside i (List.mem_cons_of_mem _ member)
    obtain ⟨filled, done, length, entries⟩ := inductionHypothesis
      (fun i member => found i (List.mem_cons_of_mem _ member)) restInside nodup
    refine ⟨filled, ?_, by rw [length, List.length_set], fun i => ?_⟩
    · rw [fill, List.foldlM_cons, found first List.mem_cons_self]
      show ((if first < coeff.length then some (coeff.set first (points first)) else none).bind _) = _
      rw [if_pos present]
      exact done
    · rw [entries]
      by_cases later : i ∈ rest
      · rw [if_pos later, if_pos (List.mem_cons_of_mem _ later)]
      · rw [if_neg later]
        by_cases same : i = first
        · subst same
          rw [if_pos List.mem_cons_self, List.getD_eq_getElem?_getD, List.getElem?_set_self present,
            Option.getD_some]
        · have absent : i ∉ first :: rest := by simp [same, later]
          rw [if_neg absent, List.getD_eq_getElem?_getD,
            List.getElem?_set_ne (Ne.symm same), ← List.getD_eq_getElem?_getD]

theorem mapM_eq_some {α β : Type} {function : α → Option β} {value : α → β} {items : List α}
    (all : ∀ item ∈ items, function item = some (value item)) :
    items.mapM function = some (items.map value) := by
  induction items with
  | nil => rfl
  | cons item rest inductionHypothesis =>
    rw [List.mapM_cons, all item List.mem_cons_self, inductionHypothesis
      fun item' member => all item' (List.mem_cons_of_mem _ member)]
    rfl

/-! ### The sums -/

/-- The coefficients of a quotient, reversed: a geometric sum in the secret over the root. -/
theorem sum_quotient {root : F} (unit : root ≠ 0) (tau : F) {length maxCoeff : Nat}
    (fits : maxCoeff < length) :
    ∑ i ∈ Finset.range length,
        root ^ i * (if i ∈ List.range' 1 maxCoeff then tau ^ (maxCoeff - i) else 0) =
      root ^ maxCoeff * ∑ j ∈ Finset.range maxCoeff, (root⁻¹ * tau) ^ j := by
  have inside : (Finset.range length).filter (fun i => i ∈ List.range' 1 maxCoeff) =
      Finset.Ico 1 (1 + maxCoeff) := by
    ext i
    rw [Finset.mem_filter, Finset.mem_range, List.mem_range'_1, Finset.mem_Ico]
    omega
  simp only [mul_ite, mul_zero]
  rw [← Finset.sum_filter, inside, Finset.sum_Ico_eq_sum_range, Nat.add_sub_cancel_left,
    ← Finset.sum_range_reflect, Finset.mul_sum]
  refine Finset.sum_congr rfl fun j member => ?_
  have below := Finset.mem_range.mp member
  have place : 1 + (maxCoeff - 1 - j) = maxCoeff - j := by omega
  have back : maxCoeff - (maxCoeff - j) = j := by omega
  have whole : root ^ maxCoeff = root ^ (maxCoeff - j) * root ^ j := by
    rw [← pow_add, Nat.sub_add_cancel below.le]
  rw [place, back, whole, mul_pow, inv_pow, mul_assoc, ← mul_assoc (root ^ j),
    mul_inv_cancel₀ (pow_ne_zero j unit), one_mul]

/-- The coefficients of a verification point, rotated: the first one is the last of a geometric
sum. -/
theorem sum_verification {root : F} {count : Nat} (period : root ^ (count + 1) = 1) (step : F) :
    ∑ i ∈ Finset.range (count + 1),
        root ^ i * (if i ∈ List.range' 1 count then step ^ (i - 1) else step ^ count) =
      root * ∑ k ∈ Finset.range (count + 1), (root * step) ^ k := by
  have first : (0 : Nat) ∉ List.range' 1 count := by
    rw [List.mem_range'_1]
    omega
  rw [Finset.sum_range_succ', Finset.sum_range_succ, mul_add, if_neg first, pow_zero, one_mul,
    Finset.mul_sum]
  congr 1
  · refine Finset.sum_congr rfl fun k member => ?_
    have inside : k + 1 ∈ List.range' 1 count := by
      rw [List.mem_range'_1]
      have below := Finset.mem_range.mp member
      omega
    rw [if_pos inside, Nat.add_sub_cancel, mul_pow, pow_succ']
    ring
  · rw [mul_pow, ← mul_assoc, ← pow_succ', period, one_mul]

/-! ### What the three vectors hold -/

section

variable {library : FftLibrary F} {generator : F} {maxDepth : Nat}

/-- The basis at the secret. -/
def commitmentScalar (generator tau : F) (maxDepth t : Nat) : F :=
  ((2 ^ maxDepth : Nat) : F)⁻¹ *
    ∑ i ∈ Finset.range (2 ^ maxDepth), ((generator ^ t)⁻¹ * tau) ^ i

/-- The scalar of a quotient. -/
def quotientScalar (generator tau : F) (maxDepth depth t : Nat) : F :=
  ((2 ^ maxDepth : Nat) : F)⁻¹ * ((generator ^ t) ^ 2 ^ (maxDepth - depth) *
    ∑ j ∈ Finset.range (2 ^ (maxDepth - depth)), ((generator ^ t)⁻¹ * tau) ^ j)

/-- The scalar of a verification point. -/
def verificationScalar (generator tau : F) (maxDepth depth t : Nat) : F :=
  ((generator ^ 2 ^ (maxDepth - depth))⁻¹) ^ t *
    ∑ k ∈ Finset.range (2 ^ depth),
      (((generator ^ 2 ^ (maxDepth - depth))⁻¹) ^ t * tau ^ 2 ^ (maxDepth - depth)) ^ k

/-- The two factors of the basis: the verification point only depends on the index modulo
`2 ^ depth`. -/
theorem quotientScalar_mul_verificationScalar (primitive : IsPrimitiveRoot generator (2 ^ maxDepth))
    (tau : F) {depth : Nat} (le : depth ≤ maxDepth) (t : Nat) :
    quotientScalar generator tau maxDepth depth t *
        verificationScalar generator tau maxDepth depth (t % 2 ^ depth) =
      commitmentScalar generator tau maxDepth t := by
  have sizes : 2 ^ (maxDepth - depth) * 2 ^ depth = 2 ^ maxDepth := by
    rw [← pow_add, Nat.sub_add_cancel le]
  have unit : generator ≠ 0 := primitive.ne_zero (Nat.two_pow_pos maxDepth).ne'
  have period : ((generator ^ 2 ^ (maxDepth - depth))⁻¹) ^ 2 ^ depth = 1 := by
    rw [inv_pow, ← pow_mul, sizes, primitive.pow_eq_one, inv_one]
  have reduced : ((generator ^ 2 ^ (maxDepth - depth))⁻¹) ^ (t % 2 ^ depth) =
      ((generator ^ t) ^ 2 ^ (maxDepth - depth))⁻¹ := by
    rw [← pow_eq_pow_mod t period, inv_pow, ← pow_mul, ← pow_mul, mul_comm t]
  have ratio : ((generator ^ t) ^ 2 ^ (maxDepth - depth))⁻¹ * tau ^ 2 ^ (maxDepth - depth) =
      ((generator ^ t)⁻¹ * tau) ^ 2 ^ (maxDepth - depth) := by
    rw [mul_pow, inv_pow]
  have nonzero : (generator ^ t) ^ 2 ^ (maxDepth - depth) ≠ 0 :=
    pow_ne_zero _ (pow_ne_zero _ unit)
  rw [commitmentScalar, ← sizes, RootsOfUnity.geom_sum_mul_steps, quotientScalar,
    verificationScalar, reduced, ratio, sizes]
  field_simp

theorem ifft_powers (lawful : library.Lawful generator maxDepth)
    (primitive : IsPrimitiveRoot generator (2 ^ maxDepth)) (tau : F) (point : G) :
    library.ifft (ofGenerator (2 ^ maxDepth) generator) (powers tau point (2 ^ maxDepth)) =
      (List.range (2 ^ maxDepth)).map fun t =>
        commitmentScalar generator tau maxDepth t • point := by
  rw [lawful.ifft (ofGenerator (2 ^ maxDepth) generator) (powers tau point (2 ^ maxDepth))
    (Radix2EvaluationDomain.valid_ofGenerator primitive) (length_powers tau point _)]
  refine List.map_congr_left fun t _ => ?_
  show ((2 ^ maxDepth : Nat) : F)⁻¹ • ∑ i ∈ Finset.range (2 ^ maxDepth),
    (generator⁻¹) ^ (t * i) • (powers tau point (2 ^ maxDepth)).getD i 0 = _
  rw [commitmentScalar, mul_smul, Finset.sum_smul]
  congr 1
  refine Finset.sum_congr rfl fun i member => ?_
  rw [getD_powers tau point (Finset.mem_range.mp member), smul_smul, mul_pow, pow_mul, inv_pow]

theorem genQuotients_powers (lawful : library.Lawful generator maxDepth)
    (primitive : IsPrimitiveRoot generator (2 ^ maxDepth)) (small : maxDepth ≤ 32) (tau : F)
    (point : G) {depth : Nat} (positive : 1 ≤ depth) (le : depth ≤ maxDepth) :
    genQuotients library (powers tau point (2 ^ maxDepth))
        (ofGenerator (2 ^ maxDepth) generator) depth =
      some ((List.range (2 ^ maxDepth)).map fun t =>
        quotientScalar generator tau maxDepth depth t • point) := by
  have bounds : 2 ^ maxDepth ≤ 2 ^ 32 ∧ 2 ^ maxDepth = 2 ^ maxDepth ∧ depth ≤ maxDepth ∧
      1 ≤ depth := ⟨Nat.pow_le_pow_right (by norm_num) small, rfl, le, positive⟩
  have fits : 2 ^ (maxDepth - depth) < 2 ^ maxDepth :=
    Nat.pow_lt_pow_right (by norm_num) (by omega)
  obtain ⟨coeff, filled, coeffLength, entries⟩ :
      ∃ coeff, fill (fun i => (powers tau point (2 ^ maxDepth))[2 ^ (maxDepth - depth) - i]?)
          (List.range' 1 (2 ^ (maxDepth - depth))) (List.replicate (2 ^ maxDepth) 0) =
          some coeff ∧ coeff.length = (List.replicate (2 ^ maxDepth) (0 : G)).length ∧
        ∀ i, coeff.getD i 0 = if i ∈ List.range' 1 (2 ^ (maxDepth - depth)) then
          tau ^ (2 ^ (maxDepth - depth) - i) • point
        else (List.replicate (2 ^ maxDepth) 0).getD i 0 := by
    refine fill_eq_some _ (fun i member => ?_) (fun i member => ?_) List.nodup_range' 0
    · exact getElem?_powers tau point (lt_of_le_of_lt (Nat.sub_le _ _) fits)
    · rw [List.length_replicate]
      rw [List.mem_range'_1] at member
      omega
  rw [List.length_replicate] at coeffLength
  unfold genQuotients
  dsimp only
  rw [length_powers, lawful.kAdicity, if_pos bounds, filled, Option.bind_eq_bind, Option.bind_some,
    lawful.fft _ _ (Radix2EvaluationDomain.valid_ofGenerator primitive) coeffLength,
    List.map_map]
  congr 1
  refine List.map_congr_left fun t _ => ?_
  show ((2 ^ maxDepth : Nat) : F)⁻¹ • ∑ i ∈ Finset.range (2 ^ maxDepth),
    generator ^ (t * i) • coeff.getD i 0 = _
  have unit : generator ^ t ≠ 0 :=
    pow_ne_zero _ (primitive.ne_zero (Nat.two_pow_pos maxDepth).ne')
  rw [quotientScalar, mul_smul, ← sum_quotient unit tau fits, Finset.sum_smul]
  congr 1
  refine Finset.sum_congr rfl fun i member => ?_
  rw [entries, pow_mul, mul_smul]
  congr 1
  split
  · rfl
  · rw [List.getD_replicate _ (Finset.mem_range.mp member), zero_smul]

theorem genVerify_powers (lawful : library.Lawful generator maxDepth)
    (primitive : IsPrimitiveRoot generator (2 ^ maxDepth)) (small : maxDepth ≤ 32) (tau : F)
    (point : G₂) {depth : Nat} (positive : 1 ≤ depth) (le : depth ≤ maxDepth) :
    genVerify library (powers tau point (2 ^ maxDepth)) depth =
      some ((List.range (2 ^ depth)).map fun t =>
        verificationScalar generator tau maxDepth depth t • point) := by
  have bounds : 2 ^ maxDepth ≤ 2 ^ 32 ∧ 2 ^ maxDepth = 2 ^ maxDepth ∧ depth ≤ maxDepth ∧
      1 ≤ depth := ⟨Nat.pow_le_pow_right (by norm_num) small, rfl, le, positive⟩
  set step := 2 ^ (maxDepth - depth) with stepDef
  have sizes : step * 2 ^ depth = 2 ^ maxDepth := by
    rw [stepDef, ← pow_add, Nat.sub_add_cancel le]
  have stepPositive : 0 < step := Nat.two_pow_pos _
  have depthPositive : 0 < 2 ^ depth := Nat.two_pow_pos _
  obtain ⟨count, countEq⟩ : ∃ count, 2 ^ depth = count + 1 := ⟨2 ^ depth - 1, by omega⟩
  have quotient : 2 ^ maxDepth / step - 1 = count := by
    rw [← sizes, Nat.mul_div_cancel_left _ stepPositive, countEq, Nat.add_sub_cancel]
  have last : 2 ^ maxDepth - step = count * step := by
    rw [← sizes, countEq]
    exact Nat.sub_eq_of_eq_add (by ring)
  have root : IsPrimitiveRoot (generator ^ step) (2 ^ depth) :=
    primitive.pow (Nat.two_pow_pos maxDepth) sizes.symm
  have valid : (ofGenerator (2 ^ depth) (generator ^ step)).swapped.Valid :=
    (Radix2EvaluationDomain.valid_ofGenerator root).swapped
  obtain ⟨coeff, filled, coeffLength, entries⟩ :
      ∃ coeff, fill (fun i => (powers tau point (2 ^ maxDepth))[(i - 1) * step]?)
          (List.range' 1 count)
          ((List.replicate (2 ^ depth) 0).set 0 (tau ^ (count * step) • point)) = some coeff ∧
        coeff.length =
          ((List.replicate (2 ^ depth) 0).set 0 (tau ^ (count * step) • point)).length ∧
        ∀ i, coeff.getD i 0 = if i ∈ List.range' 1 count then tau ^ ((i - 1) * step) • point
        else ((List.replicate (2 ^ depth) 0).set 0 (tau ^ (count * step) • point)).getD i 0 := by
    refine fill_eq_some _ (fun i member => getElem?_powers tau point ?_) (fun i member => ?_)
      List.nodup_range' 0
    · rw [List.mem_range'_1] at member
      calc (i - 1) * step < (count + 1) * step :=
            Nat.mul_lt_mul_of_pos_right (by omega) stepPositive
        _ = 2 ^ maxDepth := by rw [← sizes, countEq, Nat.mul_comm]
    · rw [List.length_set, List.length_replicate]
      rw [List.mem_range'_1] at member
      omega
  rw [List.length_set, List.length_replicate] at coeffLength
  have first : (powers tau point (2 ^ maxDepth))[2 ^ maxDepth - step]? =
      some (tau ^ (count * step) • point) := by
    rw [getElem?_powers tau point (Nat.sub_lt (Nat.two_pow_pos _) stepPositive), last]
  unfold genVerify
  dsimp only
  rw [length_powers, lawful.kAdicity, if_pos bounds, ← stepDef, lawful.newDomain depth le,
    ← stepDef, quotient, first]
  simp only [Option.bind_eq_bind, Option.bind_some]
  rw [filled, Option.bind_some, lawful.fft _ _ valid coeffLength]
  congr 1
  refine List.map_congr_left fun t _ => ?_
  show ∑ i ∈ Finset.range (2 ^ depth), ((generator ^ step)⁻¹) ^ (t * i) • coeff.getD i 0 = _
  have period : (((generator ^ step)⁻¹) ^ t) ^ (count + 1) = 1 := by
    rw [← countEq, inv_pow, inv_pow, ← pow_mul, mul_comm t, pow_mul, root.pow_eq_one, one_pow,
      inv_one]
  rw [verificationScalar, ← stepDef, countEq, ← sum_verification period, Finset.sum_smul]
  refine Finset.sum_congr rfl fun i member => ?_
  rw [entries, pow_mul, mul_smul]
  congr 1
  split
  · rw [← pow_mul, mul_comm step]
  · rename_i outside
    have below := Finset.mem_range.mp member
    have zero : i = 0 := by
      rw [List.mem_range'_1] at outside
      omega
    rw [zero, List.getD_eq_getElem?_getD, List.getElem?_set_self (by rwa [List.length_replicate]),
      Option.getD_some, ← pow_mul, mul_comm step]

/-! ### The pairing equation -/

/-- What the parameters hold. -/
theorem fromPp_powerTau (lawful : library.Lawful generator maxDepth)
    (primitive : IsPrimitiveRoot generator (2 ^ maxDepth)) (small : maxDepth ≤ 32) (tau : F)
    (g1 : G) (g2 : G₂) :
    fromPp library (powerTau tau g1 g2 (2 ^ maxDepth)) = some
      { commitments := (List.range (2 ^ maxDepth)).map fun t =>
          commitmentScalar generator tau maxDepth t • g1
        quotients := (List.range' 1 maxDepth).map fun depth =>
          (List.range (2 ^ maxDepth)).map fun t =>
            quotientScalar generator tau maxDepth depth t • g1
        verification := (List.range' 1 maxDepth).map fun depth =>
          (List.range (2 ^ depth)).map fun t =>
            verificationScalar generator tau maxDepth depth t • g2
        g2 := g2 } := by
  have domain : library.newDomain (2 ^ maxDepth) =
      some (ofGenerator (2 ^ maxDepth) generator) := by
    rw [lawful.newDomain maxDepth le_rfl, Nat.sub_self, pow_zero, pow_one]
  have depths : ∀ depth ∈ List.range' 1 maxDepth, 1 ≤ depth ∧ depth ≤ maxDepth := by
    intro depth member
    rw [List.mem_range'_1] at member
    omega
  have quotients : (List.range' 1 maxDepth).mapM
      (genQuotients library (powers tau g1 (2 ^ maxDepth))
        (ofGenerator (2 ^ maxDepth) generator)) = some _ :=
    mapM_eq_some fun depth member => genQuotients_powers lawful primitive small tau g1
      (depths depth member).1 (depths depth member).2
  have verification : (List.range' 1 maxDepth).mapM
      (genVerify library (powers tau g2 (2 ^ maxDepth))) = some _ :=
    mapM_eq_some fun depth member => genVerify_powers lawful primitive small tau g2
      (depths depth member).1 (depths depth member).2
  have generatorPoint : (powers tau g2 (2 ^ maxDepth))[0]? = some g2 := by
    rw [getElem?_powers tau g2 (Nat.two_pow_pos maxDepth), pow_zero, one_smul]
  unfold fromPp powerTau
  dsimp only
  rw [length_powers, length_powers, if_pos rfl, lawful.kAdicity, domain]
  simp only [Option.bind_eq_bind, Option.bind_some]
  rw [quotients, verification, generatorPoint, ifft_powers lawful primitive]
  rfl

/-- The assertions of the source stop it beyond `2 ^ 32` powers. -/
theorem fromPp_of_large (lawful : library.Lawful generator maxDepth) (large : 32 < maxDepth)
    (tau : F) (g1 : G) (g2 : G₂) : fromPp library (powerTau tau g1 g2 (2 ^ maxDepth)) = none := by
  obtain ⟨rest, restEq⟩ : ∃ rest, maxDepth = rest + 1 := ⟨maxDepth - 1, by omega⟩
  have long : ¬ (2 : Nat) ^ maxDepth ≤ 2 ^ 32 :=
    Nat.not_le.mpr (Nat.pow_lt_pow_right (by norm_num) large)
  have stops : ∀ domain, (List.range' 1 maxDepth).mapM
      (genQuotients library (powers tau g1 (2 ^ maxDepth)) domain) = none := by
    intro domain
    have first : genQuotients library (powers tau g1 (2 ^ maxDepth)) domain 1 = none := by
      unfold genQuotients
      dsimp only
      rw [length_powers, if_neg fun all => long all.1]
    rw [restEq, List.range'_succ, List.mapM_cons, ← restEq, first]
    rfl
  unfold fromPp powerTau
  dsimp only
  rw [length_powers, length_powers, if_pos rfl, lawful.kAdicity,
    lawful.newDomain maxDepth le_rfl]
  simp only [Option.bind_eq_bind, Option.bind_some]
  rw [stops]
  rfl

end

/-! ### A library that sums directly -/

/-- The transforms by their definitions, over the domains of the powers of one generator. -/
def FftLibrary.direct (generator : F) (maxDepth : Nat) : FftLibrary F where
  kAdicity := padicValNat
  newDomain size :=
    if 2 ^ padicValNat 2 size = size ∧ padicValNat 2 size ≤ maxDepth then
      some (ofGenerator size (generator ^ 2 ^ (maxDepth - padicValNat 2 size)))
    else
      none
  fft domain coeff := (List.range domain.size).map fun t =>
    ∑ i ∈ Finset.range domain.size, domain.groupGen ^ (t * i) • coeff.getD i 0
  ifft domain evals := (List.range domain.size).map fun t =>
    domain.sizeInv • ∑ i ∈ Finset.range domain.size, domain.groupGenInv ^ (t * i) • evals.getD i 0

theorem FftLibrary.lawful_direct (generator : F) (maxDepth : Nat) :
    (direct generator maxDepth).Lawful generator maxDepth where
  kAdicity depth := padicValNat.prime_pow depth
  newDomain depth le := by
    have value : padicValNat 2 (2 ^ depth) = depth := padicValNat.prime_pow depth
    show (if 2 ^ padicValNat 2 (2 ^ depth) = 2 ^ depth ∧ padicValNat 2 (2 ^ depth) ≤ maxDepth then
      some (ofGenerator (2 ^ depth) (generator ^ 2 ^ (maxDepth - padicValNat 2 (2 ^ depth))))
      else none) = _
    rw [value, if_pos ⟨rfl, le⟩]
  fft _ _ _ _ := rfl
  ifft _ _ _ _ := rfl

instance factPrimeFive : Fact (Nat.Prime 5) := ⟨by norm_num⟩

theorem primitive_two : IsPrimitiveRoot (2 : ZMod 5) (2 ^ 2) := by
  refine IsPrimitiveRoot.mk_of_lt 2 (by norm_num) (by decide) fun number positive below => ?_
  interval_cases number <;> decide

end AuthStorage.Lvmt
