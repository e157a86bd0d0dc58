import Mathlib

/-!
# The logistic loss

The loss `log (1 + exp (-s))` of a margin `s`, and what programs compute in its place: for margins
below `-c` the line `-s`, and nothing for margins above `c`.

## Main definitions

* `logistic`, `cutLogistic`.

## Main results

* `hasDerivAt_logistic`, `hasDerivAt_sum_logistic` — the derivative.
* `abs_cutLogistic_sub_le` — cutting at `c` changes the loss by at most `exp (-c)`.
-/

namespace Difacto.Lib

/-- The logistic loss of a margin. -/
noncomputable def logistic (s : ℝ) : ℝ := Real.log (1 + Real.exp (-s))

/-- The loss with its two ends cut off. -/
noncomputable def cutLogistic (c s : ℝ) : ℝ :=
  if s < -c then -s else if s ≤ c then logistic s else 0

theorem one_add_exp_pos (s : ℝ) : 0 < 1 + Real.exp s := by
  positivity

theorem logistic_nonneg (s : ℝ) : 0 ≤ logistic s := by
  apply Real.log_nonneg
  have hexp := Real.exp_pos (-s)
  linarith

theorem logistic_le_exp (s : ℝ) : logistic s ≤ Real.exp (-s) := by
  have hle := Real.log_le_sub_one_of_pos (one_add_exp_pos (-s))
  rw [logistic]
  linarith

/-- Changing the sign of a margin adds it. -/
theorem logistic_neg (s : ℝ) : logistic (-s) = logistic s + s := by
  have hsplit : 1 + Real.exp (- -s) = (1 + Real.exp (-s)) * Real.exp s := by
    rw [neg_neg, add_mul, one_mul, ← Real.exp_add, neg_add_cancel, Real.exp_zero, add_comm]
  rw [logistic, hsplit, Real.log_mul (one_add_exp_pos (-s)).ne' (Real.exp_pos s).ne', Real.log_exp,
    logistic]

theorem hasDerivAt_logistic (s : ℝ) : HasDerivAt logistic (-1 / (1 + Real.exp s)) s := by
  have hexp : HasDerivAt (fun t => 1 + Real.exp (-t)) (Real.exp (-s) * -1) s :=
    ((hasDerivAt_neg s).exp).const_add 1
  refine (hexp.log (one_add_exp_pos (-s)).ne').congr_deriv ?_
  rw [div_eq_div_iff (one_add_exp_pos (-s)).ne' (one_add_exp_pos s).ne', mul_add, mul_one,
    mul_right_comm, ← Real.exp_add, neg_add_cancel, Real.exp_zero]
  ring

/-- The loss of `n` predictions that move, with the labels `y`. -/
theorem hasDerivAt_sum_logistic {n : ℕ} {y : ℕ → ℝ} {p : ℕ → ℝ → ℝ} {p' : ℕ → ℝ} {t : ℝ}
    (h : ∀ i < n, HasDerivAt (p i) (p' i) t) :
    HasDerivAt (fun t => ∑ i ∈ Finset.range n, logistic (y i * p i t))
      (∑ i ∈ Finset.range n, -y i / (1 + Real.exp (y i * p i t)) * p' i) t := by
  apply HasDerivAt.fun_sum
  intro i hi
  have hmargin : HasDerivAt (fun t => y i * p i t) (y i * p' i) t :=
    (h i (Finset.mem_range.mp hi)).const_mul (y i)
  refine ((hasDerivAt_logistic (y i * p i t)).comp t hmargin).congr_deriv ?_
  ring

/-- **Cutting the ends** changes little. -/
theorem abs_cutLogistic_sub_le (c s : ℝ) : |cutLogistic c s - logistic s| ≤ Real.exp (-c) := by
  rw [cutLogistic]
  split
  · next hlow =>
    have hneg := logistic_neg s
    have hle := logistic_le_exp (-s)
    have hmono : Real.exp (- -s) ≤ Real.exp (-c) := Real.exp_le_exp.mpr (by linarith)
    have hnonneg := logistic_nonneg (-s)
    rw [abs_le]
    constructor <;> linarith
  · split
    · rw [sub_self, abs_zero]
      exact (Real.exp_pos _).le
    · next hhigh =>
      have hle := logistic_le_exp s
      have hmono : Real.exp (-s) ≤ Real.exp (-c) := Real.exp_le_exp.mpr (by linarith)
      rw [zero_sub, abs_neg, abs_of_nonneg (logistic_nonneg s)]
      exact hle.trans hmono

theorem abs_sum_cutLogistic_sub_le (c : ℝ) (n : ℕ) (s : ℕ → ℝ) :
    |∑ i ∈ Finset.range n, cutLogistic c (s i) - ∑ i ∈ Finset.range n, logistic (s i)| ≤
      n * Real.exp (-c) := by
  calc |∑ i ∈ Finset.range n, cutLogistic c (s i) - ∑ i ∈ Finset.range n, logistic (s i)|
      = |∑ i ∈ Finset.range n, (cutLogistic c (s i) - logistic (s i))| := by
        rw [Finset.sum_sub_distrib]
    _ ≤ ∑ i ∈ Finset.range n, |cutLogistic c (s i) - logistic (s i)| :=
        Finset.abs_sum_le_sum_abs _ _
    _ ≤ ∑ _i ∈ Finset.range n, Real.exp (-c) :=
        Finset.sum_le_sum fun i _ => abs_cutLogistic_sub_le c (s i)
    _ = n * Real.exp (-c) := by rw [Finset.sum_const, Finset.card_range, nsmul_eq_mul]

end Difacto.Lib
