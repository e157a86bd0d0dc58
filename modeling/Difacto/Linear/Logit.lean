import Difacto.Linear.Loss
import Mathlib.Analysis.SpecialFunctions.Log.Basic

/-!
# The logistic loss of the linear program

`LogitLoss` and `CreateLoss` of `linear/loss.h` in exact arithmetic.

## Main definitions

* `LogitLoss.evaluate`, `LogitLoss.calcGrad`.
* `LossKind.evaluate`, `LossKind.calcGrad` — what `CreateLoss` chooses between.

## Main results

* `LogitLoss.calcGrad_eq` — what is written.
-/

namespace Difacto.Linear

open Base Lib

section Code

variable {V : Type} [Field V] [LinearOrder V]

/-- The functions of `math.h`. -/
structure MathH (V : Type) where
  exp : V → V
  log : V → V

namespace LogitLoss

/-- `Evaluate`; `sort` is what `std::sort` makes of the examples. -/
def evaluate (m : MathH V) (sort : List (BinClassEval.Entry V) → List (BinClassEval.Entry V))
    (l : ScalarLoss V) : Progress V :=
  let examples := List.zipWith BinClassEval.Entry.mk l.data.label l.Xw
  { newEx := l.data.size
    count := 1
    auc := BinClassEval.auc (sort examples)
    acc := BinClassEval.accuracy examples 0
    objv := BinClassEval.logitObjv m.exp m.log examples }

/-- `CalcGrad` -/
def calcGrad (m : MathH V) (l : ScalarLoss V) (grad : List V) : Option (List V) :=
  let dual := (List.range l.data.size).map fun i =>
    -SquareHingeLoss.sign l.data i / (1 + m.exp (SquareHingeLoss.sign l.data i * l.Xw.getD i 0))
  SpMV.transTimes l.nt l.data dual grad

end LogitLoss

/-- `Predict`: the numbers that it writes. -/
def ScalarLoss.predict (m : MathH V) (l : ScalarLoss V) (probOut : Bool) : List V :=
  if probOut then l.Xw.map fun p => 1 / (1 + m.exp (-p)) else l.Xw

/-- `Config::Loss` -/
inductive LossKind
  | square
  | logit
  | squareHinge
  deriving DecidableEq

namespace LossKind

/-- `Evaluate` of the loss that `CreateLoss` returns. It fails for a type that it does not know. -/
def evaluate (m : MathH V) (sort : List (BinClassEval.Entry V) → List (BinClassEval.Entry V))
    (l : ScalarLoss V) : LossKind → Option (Progress V)
  | square => none
  | logit => some (LogitLoss.evaluate m sort l)
  | squareHinge => some (SquareHingeLoss.evaluate sort l)

/-- `CalcGrad` of the loss that `CreateLoss` returns. -/
def calcGrad (m : MathH V) (l : ScalarLoss V) (grad : List V) : LossKind → Option (List V)
  | square => none
  | logit => LogitLoss.calcGrad m l grad
  | squareHinge => SquareHingeLoss.calcGrad l grad

end LossKind

end Code

/-- The functions on the real numbers. -/
noncomputable def realMath : MathH ℝ where
  exp := Real.exp
  log := Real.log

namespace LogitLoss

open SquareHingeLoss (sign margin)

variable {data : RowBlock ℝ} {w : List ℝ} (unset nt : Team)

/-- **What `CalcGrad` writes.** -/
theorem calcGrad_eq {l : ScalarLoss ℝ} (hrun : ScalarLoss.init unset data w nt = some l)
    (grad : List ℝ) : ∃ g, calcGrad realMath l grad = some g ∧ g.length = grad.length ∧
      ∀ f < grad.length, g.getD f 0 =
        ∑ i ∈ Finset.range data.size, ((data.row i).map fun a =>
          if a.1 = f then -sign data i / (1 + Real.exp (margin data w i)) * a.2 else 0).sum := by
  obtain ⟨l', hrun', rfl, rfl, hmargin⟩ := SquareHingeLoss.init_eq unset nt data w
  obtain rfl := Option.some.inj (hrun.symm.trans hrun')
  obtain ⟨g, hg, hlen, hget⟩ := SpMV.getD_transTimes l.data ((List.range l.data.size).map fun i =>
    -sign l.data i / (1 + realMath.exp (sign l.data i * l.Xw.getD i 0))) grad l.nt (by simp)
  refine ⟨g, hg, hlen, fun f hf => ?_⟩
  rw [hget f hf]
  refine Finset.sum_congr rfl fun i hi => ?_
  have hi := Finset.mem_range.mp hi
  rw [getD_map_range, if_pos hi, hmargin i hi]
  rfl

end LogitLoss

end Difacto.Linear
