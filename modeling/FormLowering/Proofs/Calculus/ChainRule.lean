import FormLowering.Lowering.PhysicalBasis
import FormLowering.Proofs.Semantics.Choices
import Mathlib.Algebra.BigOperators.Group.List.Basic
import Mathlib.Algebra.BigOperators.Fin
import Mathlib.Algebra.MvPolynomial.Monad
import Mathlib.Algebra.MvPolynomial.PDeriv
import Mathlib.RingTheory.Derivation.Lie

/-!
# The chain rule for affine maps

Derivatives of polynomials of any order, taken along a list of directions or by
the number of derivatives in each direction.  They agree, since partial
derivatives commute.

A polynomial in reference coordinates becomes one in physical coordinates by an
affine map `X = K x + b`.  Its derivative in physical directions `d₁, …, dₙ` is
the sum over all tuples of reference directions `r₁, …, rₙ` of
`K(r₁, d₁) * … * K(rₙ, dₙ)` times the reference derivative, by induction on the
order.
-/

namespace FormLowering

open MvPolynomial

variable {F : Type} [Field F] {m n : Nat}

/-- The derivative along a list of directions, the first one taken last. -/
noncomputable def iteratedDerivative (directions : List (Fin n)) (p : MvPolynomial (Fin n) F) :
    MvPolynomial (Fin n) F :=
  directions.foldr (fun direction q => pderiv direction q) p

/-- The derivative with the given number of derivatives in each direction. -/
noncomputable def partialDerivative (counts : List Nat) (p : MvPolynomial (Fin n) F) :
    MvPolynomial (Fin n) F :=
  (List.finRange n).foldr (fun direction q => (pderiv direction)^[counts.getD direction.val 0] q) p

theorem pderiv_comm (first second : Fin n) (p : MvPolynomial (Fin n) F) :
    pderiv (R := F) first (pderiv (R := F) second p) = pderiv second (pderiv first p) := by
  -- The commutator is a derivation, and it vanishes on the variables.
  have hBracket : ⁅pderiv (R := F) first, pderiv (R := F) second⁆ = 0 := by
    apply derivation_ext
    intro direction
    rw [Derivation.commutator_apply, pderiv_X, pderiv_X]
    by_cases hFirst : first = direction <;> by_cases hSecond : second = direction <;>
      simp [hFirst, hSecond]
  have hApply := Derivation.congr_fun hBracket p
  rw [Derivation.commutator_apply, Derivation.zero_apply] at hApply
  exact sub_eq_zero.mp hApply

/-- The order of the directions does not matter. -/
theorem iteratedDerivative_perm {left right : List (Fin n)} (hPerm : left.Perm right)
    (p : MvPolynomial (Fin n) F) : iteratedDerivative left p = iteratedDerivative right p := by
  unfold iteratedDerivative
  exact hPerm.foldr_eq' (fun first _ second _ q => pderiv_comm second first q) p

theorem iteratedDerivative_C_mul (directions : List (Fin n)) (a : F) (p : MvPolynomial (Fin n) F) :
    iteratedDerivative directions (C a * p) = C a * iteratedDerivative directions p := by
  unfold iteratedDerivative
  induction directions with
  | nil => rfl
  | cons direction rest ih => rw [List.foldr_cons, ih, pderiv_C_mul, List.foldr_cons]

theorem iteratedDerivative_sum (directions : List (Fin n)) {ι : Type} (indices : Finset ι)
    (p : ι → MvPolynomial (Fin n) F) :
    iteratedDerivative directions (∑ i ∈ indices, p i) =
      ∑ i ∈ indices, iteratedDerivative directions (p i) := by
  unfold iteratedDerivative
  induction directions with
  | nil => rfl
  | cons direction rest ih => simp only [List.foldr_cons, ih, map_sum]

theorem iteratedDerivative_replicate (direction : Fin n) (count : Nat)
    (p : MvPolynomial (Fin n) F) :
    iteratedDerivative (List.replicate count direction) p = (pderiv direction)^[count] p := by
  induction count with
  | zero => rfl
  | succ count ih =>
      rw [List.replicate_succ, Function.iterate_succ_apply', ← ih]
      rfl

/-- Taking derivatives by their numbers, one direction after the other. -/
theorem partialDerivative_eq (counts : List Nat) (p : MvPolynomial (Fin n) F) :
    partialDerivative counts p =
      iteratedDerivative ((List.finRange n).flatMap fun direction =>
        List.replicate (counts.getD direction.val 0) direction) p := by
  unfold partialDerivative
  generalize List.finRange n = directions
  induction directions with
  | nil => rfl
  | cons direction rest ih =>
      rw [List.foldr_cons, ih, List.flatMap_cons, ← iteratedDerivative_replicate]
      unfold iteratedDerivative
      rw [List.foldr_append]

/-- Sorted by directions, a list holds each direction as often as before. -/
theorem perm_replicate_count (tuple : List (Fin n)) :
    tuple.Perm ((List.finRange n).flatMap fun direction =>
      List.replicate (tuple.count direction) direction) := by
  -- Both lists hold every direction equally often.
  rw [List.perm_iff_count]
  intro direction
  rw [List.count_flatMap]
  have hCounts : (List.count direction ∘ fun other => List.replicate (tuple.count other) other) =
      fun other => if other = direction then tuple.count other else 0 := by
    funext other
    simp [List.count_replicate]
  rw [hCounts, ← Fin.sum_univ_def]
  simp

/-- Only the number of derivatives in each direction matters. -/
theorem partialDerivative_of_counts {counts : List Nat} {tuple : List (Fin n)}
    (hCounts : ∀ direction : Fin n, counts.getD direction.val 0 = tuple.count direction)
    (p : MvPolynomial (Fin n) F) : partialDerivative counts p = iteratedDerivative tuple p := by
  rw [partialDerivative_eq]
  simp only [hCounts]
  exact iteratedDerivative_perm (perm_replicate_count tuple).symm p

/-! ### Affine maps -/

section AffineMap

variable (K : Nat → Nat → F) (b : Fin n → F)

/-- The reference coordinates of a physical point. -/
def referencePoint (x : Fin m → F) (direction : Fin n) : F :=
  ∑ d : Fin m, K direction.val d * x d + b direction

/-- A reference coordinate as a polynomial in physical coordinates. -/
noncomputable def referenceCoordinate (direction : Fin n) : MvPolynomial (Fin m) F :=
  ∑ d : Fin m, C (K direction d) * X d + C (b direction)

/-- A polynomial in reference coordinates as one in physical coordinates. -/
noncomputable def pulledBack : MvPolynomial (Fin n) F →ₐ[F] MvPolynomial (Fin m) F :=
  bind₁ (referenceCoordinate K b)

theorem eval_pulledBack (x : Fin m → F) (p : MvPolynomial (Fin n) F) :
    eval x (pulledBack K b p) = eval (referencePoint K b x) p := by
  unfold pulledBack
  rw [← coe_aeval_eq_eval, ← coe_aeval_eq_eval]
  show aeval x (bind₁ _ p) = aeval _ p
  rw [aeval_bind₁]
  congr 2
  funext direction
  simp [referenceCoordinate, referencePoint]

theorem pderiv_referenceCoordinate (d : Fin m) (direction : Fin n) :
    pderiv d (referenceCoordinate K b direction) = C (K direction d) := by
  simp [referenceCoordinate, Pi.single_apply]

/-- The chain rule for one derivative. -/
theorem pderiv_pulledBack (d : Fin m) (p : MvPolynomial (Fin n) F) :
    pderiv d (pulledBack K b p) =
      ((List.finRange n).map fun r : Fin n => C (K r d) * pulledBack K b (pderiv r p)).sum := by
  rw [← Fin.sum_univ_def]
  induction p using MvPolynomial.induction_on with
  | C a => simp [pulledBack]
  | add p q hp hq => simp [hp, hq, mul_add, Finset.sum_add_distrib]
  | mul_X p s hp =>
      have hVariable : pulledBack K b (X s : MvPolynomial (Fin n) F) =
          (referenceCoordinate K b s : MvPolynomial (Fin m) F) := bind₁_X_right _ _
      -- Of the derivatives of the variable, only the one in its own direction is not zero.
      have hTerm : ∀ r : Fin n,
          (C (K r d) * pulledBack K b (pderiv r (p * X s)) : MvPolynomial (Fin m) F) =
            C (K r d) * pulledBack K b (pderiv r p) * referenceCoordinate K b s
              + if r = s then C (K r d) * pulledBack K b p else 0 := by
        intro r
        rw [pderiv_mul, map_add, map_mul, hVariable, mul_add, mul_assoc, pderiv_X]
        by_cases hSame : r = s <;> simp [hSame, Ne.symm]
      rw [map_mul, pderiv_mul, hp, hVariable, pderiv_referenceCoordinate,
        Finset.sum_congr rfl fun r _ => hTerm r, Finset.sum_add_distrib, Finset.sum_mul,
        Finset.sum_ite_eq', if_pos (Finset.mem_univ s), mul_comm (pulledBack K b p)]

/-- The product of the chain rule factors of a tuple of reference directions. -/
def chainWeight (directions tuple : List Nat) : F :=
  ((directions.zip tuple).map fun pair => K pair.2 pair.1).prod

/-- The chain rule for derivatives of every order. -/
theorem iteratedDerivative_pulledBack (directions : List (Fin m)) (p : MvPolynomial (Fin n) F) :
    iteratedDerivative directions (pulledBack K b p) =
      ((choices (List.replicate directions.length (List.finRange n))).map fun tuple =>
        C (chainWeight K (directions.map Fin.val) (tuple.map Fin.val)) *
          pulledBack K b (iteratedDerivative tuple p)).sum := by
  induction directions with
  | nil => simp [choices, chainWeight, iteratedDerivative]
  | cons d rest ih =>
      -- One more derivative adds one more reference direction in front of each tuple.
      have hStep : ∀ tuple : List (Fin n),
          pderiv d (C (chainWeight K (rest.map Fin.val) (tuple.map Fin.val)) *
              pulledBack K b (iteratedDerivative tuple p)) =
            ((List.finRange n).map fun r : Fin n =>
              C (chainWeight K ((d :: rest).map Fin.val) ((r :: tuple).map Fin.val)) *
                pulledBack K b (iteratedDerivative (r :: tuple) p)).sum := by
        intro tuple
        rw [pderiv_C_mul, pderiv_pulledBack, ← List.sum_map_mul_left]
        refine congrArg List.sum (List.map_congr_left fun r _ => ?_)
        simp only [chainWeight, List.map_cons, List.zip_cons_cons, List.prod_cons, C_mul]
        simp only [iteratedDerivative, List.foldr_cons]
        ring
      show pderiv d (iteratedDerivative rest (pulledBack K b p)) = _
      rw [ih, map_list_sum, List.map_map]
      simp only [Function.comp_def, hStep]
      rw [sum_map_comm, List.length_cons, List.replicate_succ, choices, List.map_flatMap,
        List.flatMap_def, List.sum_flatten]
      simp only [List.map_map, Function.comp_def]

end AffineMap

end FormLowering
