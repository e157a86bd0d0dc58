import Difacto.Linear.Ftrl
import Mathlib.Tactic.FieldSimp
import Mathlib.Tactic.Linarith

/-!
# The proximal operator

`L1L2` of `linear/penalty.h` documents the penalty `lambda1 * |x| + lambda2 * x ^ 2`, as
`lambda_l2` of `linear/config.proto` does, and `Solve` the minimum of a quadratic with it. The
derivative of the second term is `2 * lambda2 * x`, and `Solve` divides by `eta + lambda2`.

## Main definitions

* `penalty`, `objective` — what is minimised.

## Main results

* `minimises_iff` — the only minimum.
* `solve_minimises_iff` — when `Solve` returns it.
-/

namespace Difacto.Linear

open Base

section Objective

variable {R : Type} [Field R] [LinearOrder R]

/-- `h(x)`: the penalty of the class. -/
def penalty (lambda1 lambda2 x : R) : R := lambda1 * |x| + lambda2 * x ^ 2

/-- `0.5 * beta * (x - z / beta)^2 + h(x)`, with `eta` for `beta`. -/
def objective (lambda1 lambda2 z eta x : R) : R :=
  0.5 * eta * (x - z / eta) ^ 2 + penalty lambda1 lambda2 x

variable [IsStrictOrderedRing R] {lambda1 lambda2 z eta : R}

/-- The objective as a square around `s / (eta + 2 * lambda2)`. -/
theorem objective_eq (heta : 0 < eta) (hlambda2 : 0 ≤ lambda2) (s x : R) :
    objective lambda1 lambda2 z eta x =
      (eta + 2 * lambda2) / 2 * (x - s / (eta + 2 * lambda2)) ^ 2 +
        (lambda1 * |x| + (s - z) * x) +
          (z ^ 2 / (2 * eta) - s ^ 2 / (2 * (eta + 2 * lambda2))) := by
  have hc : eta + 2 * lambda2 ≠ 0 := by positivity
  rw [objective, penalty]
  field_simp
  ring

/-- **The only minimum** is where the square is zero, when `s` is the part of `z` that the
absolute value leaves. -/
theorem minimises_iff (heta : 0 < eta) (hlambda2 : 0 ≤ lambda2) {s x : R}
    (hall : ∀ y, 0 ≤ lambda1 * |y| + (s - z) * y) (hx : lambda1 * |x| + (s - z) * x = 0)
    (hs : lambda1 * |s / (eta + 2 * lambda2)| + (s - z) * (s / (eta + 2 * lambda2)) = 0) :
    (∀ y, objective lambda1 lambda2 z eta x ≤ objective lambda1 lambda2 z eta y) ↔
      x = s / (eta + 2 * lambda2) := by
  have hc : 0 < eta + 2 * lambda2 := by positivity
  constructor
  · intro hmin
    have hle := hmin (s / (eta + 2 * lambda2))
    rw [objective_eq heta hlambda2 s, objective_eq heta hlambda2 s, hx, hs, sub_self] at hle
    have hsq : (x - s / (eta + 2 * lambda2)) ^ 2 ≤ 0 := by
      by_contra hpos
      have hmul := mul_pos (half_pos hc) (not_le.mp hpos)
      linarith
    exact sub_eq_zero.mp (pow_eq_zero_iff two_ne_zero |>.mp (le_antisymm hsq (sq_nonneg _)))
  · intro hmin y
    have hsq := mul_nonneg (half_pos hc).le (sq_nonneg (y - s / (eta + 2 * lambda2)))
    rw [objective_eq heta hlambda2 s, objective_eq heta hlambda2 s, hx, hmin, sub_self]
    linarith [hall y]

/-- Division by `eta + lambda2` and by `eta + 2 * lambda2`. -/
theorem div_eq_div_iff_of_ne (heta : 0 < eta) (hlambda2 : 0 ≤ lambda2) {s : R} (hs : s ≠ 0) :
    s / (eta + lambda2) = s / (eta + 2 * lambda2) ↔ lambda2 = 0 := by
  have h₁ : eta + lambda2 ≠ 0 := by positivity
  have h₂ : eta + 2 * lambda2 ≠ 0 := by positivity
  rw [div_eq_div_iff h₁ h₂, mul_right_inj' hs]
  constructor
  · intro h
    linarith
  · rintro rfl
    ring

/-- The value that `Solve` returns minimises the objective if and only if it is zero or there is
no quadratic term. -/
theorem solution_minimises_iff (heta : 0 < eta) (hlambda1 : 0 ≤ lambda1)
    (hlambda2 : 0 ≤ lambda2) :
    (∀ y, objective lambda1 lambda2 z eta
        (if z ≤ lambda1 ∧ -lambda1 ≤ z then 0
          else (if 0 < z then z - lambda1 else z + lambda1) / (eta + lambda2)) ≤
      objective lambda1 lambda2 z eta y) ↔ |z| ≤ lambda1 ∨ lambda2 = 0 := by
  by_cases hsmall : |z| ≤ lambda1
  · have hbounds := abs_le.mp hsmall
    have hall : ∀ y, 0 ≤ lambda1 * |y| + (0 - z) * y := by
      intro y
      have hzy : z * y ≤ lambda1 * |y| :=
        (le_abs_self _).trans ((abs_mul z y).trans_le
          (mul_le_mul_of_nonneg_right hsmall (abs_nonneg y)))
      linarith
    rw [if_pos ⟨hbounds.2, hbounds.1⟩]
    refine iff_of_true ((minimises_iff heta hlambda2 hall ?_ ?_).mpr ?_) (.inl hsmall)
    · simp
    · simp
    · rw [zero_div]
  · have hout : ¬ (z ≤ lambda1 ∧ -lambda1 ≤ z) := fun h => hsmall (abs_le.mpr ⟨h.2, h.1⟩)
    rw [if_neg hout, or_iff_right hsmall]
    by_cases hpos : 0 < z
    · have hz : lambda1 < z := by
        rw [abs_of_pos hpos] at hsmall
        exact not_le.mp hsmall
      have hs : 0 < z - lambda1 := sub_pos.mpr hz
      have hflat : ∀ y, 0 ≤ y → lambda1 * |y| + (z - lambda1 - z) * y = 0 := by
        intro y hy
        rw [abs_of_nonneg hy]
        ring
      have hall : ∀ y, 0 ≤ lambda1 * |y| + (z - lambda1 - z) * y := by
        intro y
        have hmul := mul_le_mul_of_nonneg_left (le_abs_self y) hlambda1
        linarith
      rw [if_pos hpos, minimises_iff heta hlambda2 hall (hflat _ (by positivity))
        (hflat _ (by positivity))]
      exact div_eq_div_iff_of_ne heta hlambda2 hs.ne'
    · have hz : z < -lambda1 := by
        rw [abs_of_nonpos (not_lt.mp hpos)] at hsmall
        linarith
      have hs : z + lambda1 < 0 := by linarith
      have hflat : ∀ y, y ≤ 0 → lambda1 * |y| + (z + lambda1 - z) * y = 0 := by
        intro y hy
        rw [abs_of_nonpos hy]
        ring
      have hall : ∀ y, 0 ≤ lambda1 * |y| + (z + lambda1 - z) * y := by
        intro y
        have hmul := mul_le_mul_of_nonneg_left (neg_abs_le y) hlambda1
        linarith
      rw [if_neg hpos, minimises_iff heta hlambda2 hall
        (hflat _ (div_nonpos_of_nonpos_of_nonneg hs.le (by positivity)))
        (hflat _ (div_nonpos_of_nonpos_of_nonneg hs.le (by positivity)))]
      exact div_eq_div_iff_of_ne heta hlambda2 hs.ne

/-- `set_lambda1` and `set_lambda2` in exact arithmetic. -/
def Exact.l1l2 (A : Exact R) (lambda1 lambda2 : R) (hlambda1 : 0 ≤ lambda1)
    (hlambda2 : 0 ≤ lambda2) : L1L2 A.Num where
  lambda1 := lambda1
  lambda2 := lambda2
  lambda1_nonneg := hlambda1
  lambda2_nonneg := hlambda2

omit [IsStrictOrderedRing R] in
/-- What `Solve` returns in exact arithmetic. -/
theorem solve_eq (A : Exact R) (hlambda1 : 0 ≤ lambda1) (hlambda2 : 0 ≤ lambda2)
    (heta : 0 < eta) : (A.l1l2 lambda1 lambda2 hlambda1 hlambda2).solve z eta =
      some (if z ≤ lambda1 ∧ -lambda1 ≤ z then (0 : R)
        else (if 0 < z then z - lambda1 else z + lambda1) / (eta + lambda2)) :=
  if_pos heta

/-- **`Solve` returns a minimum** of the function that it documents if and only if it returns zero
or there is no quadratic term. -/
theorem solve_minimises_iff (A : Exact R) (z eta lambda1 lambda2 : R) (heta : 0 < eta)
    (hlambda1 : 0 ≤ lambda1) (hlambda2 : 0 ≤ lambda2) :
    (∃ x : R, (A.l1l2 lambda1 lambda2 hlambda1 hlambda2).solve z eta = some x ∧
      ∀ y, objective lambda1 lambda2 z eta x ≤ objective lambda1 lambda2 z eta y) ↔
      |z| ≤ lambda1 ∨ lambda2 = 0 := by
  rw [← solution_minimises_iff heta hlambda1 hlambda2, solve_eq A hlambda1 hlambda2 heta]
  constructor
  · rintro ⟨x, hx, hmin⟩
    rw [Option.some.inj hx]
    exact hmin
  · intro hmin
    exact ⟨_, rfl, hmin⟩

end Objective

theorem solve_minimises_noSquare : (0 : ℚ) < 2 ∧ (0 : ℚ) ≤ 1 ∧ (0 : ℚ) ≤ 0 ∧
    ∃ x : ℚ, (rationals.l1l2 1 0 (by decide +kernel) (by decide +kernel)).solve (5 : ℚ) (2 : ℚ) =
      some x ∧ ∀ y, objective (1 : ℚ) 0 5 2 x ≤ objective 1 0 5 2 y :=
  ⟨by decide +kernel, by decide +kernel, by decide +kernel,
    (solve_minimises_iff rationals 5 2 1 0 (by decide +kernel) (by decide +kernel)
      (by decide +kernel)).mpr (.inr rfl)⟩

/-- **Not the minimum**: `Solve(2, 1)` is 1 where the objective is `3 / 2`, and at `2 / 3` it is
`4 / 3`. -/
theorem solve_above_minimum : ¬ ∃ x : ℚ,
    (rationals.l1l2 0 1 (by decide +kernel) (by decide +kernel)).solve (2 : ℚ) (1 : ℚ) = some x ∧
      ∀ y, objective (0 : ℚ) 1 2 1 x ≤ objective 0 1 2 1 y := by
  rintro ⟨x, hx, hmin⟩
  rw [solve_eq rationals (by decide +kernel) (by decide +kernel) (by decide +kernel)] at hx
  have hone : (1 : ℚ) = x := by
    rw [← Option.some.inj hx]
    norm_num
  have hle := hmin (2 / 3)
  rw [← hone] at hle
  norm_num [objective, penalty] at hle

end Difacto.Linear
