import Difacto.Base.BinaryClassEvaluation
import Difacto.Base.InputBlock
import Difacto.Lib.Arrays
import Difacto.Lib.Logistic

/-!
# The loss of the rows of a minibatch

The sum of the logistic losses of the rows, for any score of a row, and what `LogitObjv` of
`base/binary_class_evaluation.h` makes of it.

## Main definitions

* `rowLoss` — the sum.

## Main results

* `hasDerivAt_rowLoss` — its derivative when the scores move.
* `abs_logitObjv_sub_rowLoss_le` — how far `LogitObjv` is off.
-/

namespace Difacto.Base

open Lib

/-- `y = label > 0 ? 1 : -1` -/
noncomputable def labelSign (label : ℝ) : ℝ := if 0 < label then 1 else -1

/-- The logistic loss of the rows. -/
noncomputable def rowLoss (mb : InputBlock UInt64 ℝ) (score : InputRow UInt64 ℝ → ℝ) : ℝ :=
  (mb.rows.map fun r => logistic (labelSign r.label * score r)).sum

variable {mb : InputBlock UInt64 ℝ}

theorem rowLoss_eq (mb : InputBlock UInt64 ℝ) (score : InputRow UInt64 ℝ → ℝ) :
    rowLoss mb score = ∑ i ∈ Finset.range mb.size,
      logistic (labelSign (mb.row i).label * score (mb.row i)) := by
  rw [rowLoss, InputBlock.rows, List.map_map, sum_range_list]
  rfl

/-- **The derivative** of the loss when the scores move. -/
theorem hasDerivAt_rowLoss {s : ℝ → InputRow UInt64 ℝ → ℝ} {s' : ℕ → ℝ} {t : ℝ}
    (h : ∀ i < mb.size, HasDerivAt (fun t => s t (mb.row i)) (s' i) t) :
    HasDerivAt (fun t => rowLoss mb (s t)) (∑ i ∈ Finset.range mb.size,
      -labelSign (mb.row i).label / (1 + Real.exp (labelSign (mb.row i).label * s t (mb.row i))) *
        s' i) t := by
  simp only [rowLoss_eq]
  exact hasDerivAt_sum_logistic h

/-- Two arrays of one length, element by element. -/
theorem zipWith_eq_map_range {α β γ : Type} (f : α → β → γ) (a : α) (b : β) {xs : List α}
    {ys : List β} {n : ℕ} (hxs : xs.length = n) (hys : ys.length = n) :
    List.zipWith f xs ys = (List.range n).map fun i => f (xs.getD i a) (ys.getD i b) := by
  apply List.ext_getElem
  · simp [hxs, hys]
  · intro i hi hi'
    simp only [List.length_map, List.length_range] at hi'
    simp [hxs, hys, hi']

theorem logitObjv_eq (examples : List (BinClassEval.Entry ℝ)) :
    BinClassEval.logitObjv Real.exp Real.log examples =
      (examples.map fun e => cutLogistic 30 (labelSign e.label * e.predict)).sum := by
  have hround : ∀ objv score : ℝ, (if score < -30 then objv + -score
      else if score ≤ 30 then objv + Real.log (1 + Real.exp (-score)) else objv) =
      objv + cutLogistic 30 score := by
    intro objv score
    simp only [cutLogistic, logistic, add_ite, add_zero]
  simp only [BinClassEval.logitObjv, hround]
  rw [foldl_add, zero_add]
  rfl

/-- **`LogitObjv` is the loss of the rows** up to `exp (-30)` for each of them. -/
theorem abs_logitObjv_sub_rowLoss_le (hmb : mb.Valid) {score : InputRow UInt64 ℝ → ℝ}
    {predict : List ℝ} (hlen : predict.length = mb.size)
    (hget : ∀ i < mb.size, predict.getD i 0 = score (mb.row i)) :
    |BinClassEval.logitObjv Real.exp Real.log
        (List.zipWith BinClassEval.Entry.mk mb.label predict) - rowLoss mb score| ≤
      mb.size * Real.exp (-30) := by
  have hsum : BinClassEval.logitObjv Real.exp Real.log
      (List.zipWith BinClassEval.Entry.mk mb.label predict) = ∑ i ∈ Finset.range mb.size,
        cutLogistic 30 (labelSign (mb.row i).label * score (mb.row i)) := by
    rw [logitObjv_eq, zipWith_eq_map_range _ 1 0 hmb.length_label hlen, List.map_map,
      sum_range_list]
    apply Finset.sum_congr rfl
    intro i hi
    rw [← hget i (Finset.mem_range.mp hi)]
    rfl
  rw [hsum, rowLoss_eq]
  exact abs_sum_cutLogistic_sub_le 30 mb.size _

end Difacto.Base
