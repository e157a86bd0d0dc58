import Difacto.Base.BinaryClassEvaluation
import Difacto.Base.SpMV
import Mathlib.Analysis.Calculus.Deriv.Add
import Mathlib.Analysis.Calculus.Deriv.Comp
import Mathlib.Analysis.Calculus.Deriv.Mul
import Mathlib.Analysis.InnerProductSpace.Basic
import Mathlib.Topology.Algebra.Module.ModuleTopology

/-!
# The squared hinge loss

`ScalarLoss::Init` and `SquareHingeLoss` of `linear/loss.h` in exact arithmetic. `Evaluate` sums
`max(0, 1 - y * Xw)^2`. `CalcGrad` takes the rows with `y * Xw > 1`, where that function is
constant, and leaves out the factor `1 - y * Xw` of its derivative.

## Main definitions

* `ScalarLoss.init`, `SquareHingeLoss.evaluate`, `SquareHingeLoss.calcGrad`.
* `SquareHingeLoss.derivative` — the derivative by one weight.

## Main results

* `hasDerivAt_reportedObjv` — the derivative of what `Evaluate` reports.
* `calcGrad_isGradient_iff` — when `CalcGrad` returns it.
-/

namespace Difacto.Linear

open Base Lib

section Code

variable {V : Type} [Field V] [LinearOrder V]

/-- `ScalarLoss` after `Init` -/
structure ScalarLoss (V : Type) where
  data : RowBlock V
  /-- X * w -/
  Xw : List V
  /-- number of threads -/
  nt : Team

/-- `Init` of a new object. It uses `nt_` before it is set, so the number of threads of the
product is arbitrary. -/
def ScalarLoss.init (unset : Team) (data : RowBlock V) (w : List V) (nt : Team) :
    Option (ScalarLoss V) := do
  let Xw ← SpMV.times unset data w (List.replicate data.size 0)
  return { data, Xw, nt }

/-- What `Evaluate` reports. -/
structure Progress (V : Type) where
  newEx : ℕ
  count : ℕ
  auc : V
  acc : V
  objv : V

namespace SquareHingeLoss

/-- `V y = data_.label[i] > 0 ? 1 : -1` -/
def sign (data : RowBlock V) (i : ℕ) : V := if 0 < data.label.getD i 0 then 1 else -1

/-- `Evaluate`; `sort` is what `std::sort` makes of the examples. -/
def evaluate (sort : List (BinClassEval.Entry V) → List (BinClassEval.Entry V))
    (l : ScalarLoss V) : Progress V :=
  let examples := List.zipWith BinClassEval.Entry.mk l.data.label l.Xw
  { newEx := l.data.size
    count := 1
    auc := BinClassEval.auc (sort examples)
    acc := BinClassEval.accuracy examples 0
    objv := (List.range l.data.size).foldl (fun objv i =>
      let tmp := max (1 - sign l.data i * l.Xw.getD i 0) 0
      objv + tmp * tmp) 0 }

/-- `CalcGrad` -/
def calcGrad (l : ScalarLoss V) (grad : List V) : Option (List V) := do
  let dual := (List.range l.data.size).map fun i =>
    sign l.data i * if 1 < sign l.data i * l.Xw.getD i 0 then 1 else 0
  let grad ← SpMV.transTimes l.nt l.data dual grad
  return grad.map (· * -2)

/-- The objective that is reported for the weights `w`. -/
def reportedObjv (sort : List (BinClassEval.Entry V) → List (BinClassEval.Entry V))
    (unset nt : Team) (data : RowBlock V) (w : List V) : V :=
  ((ScalarLoss.init unset data w nt).map fun l => (evaluate sort l).objv).getD 0

/-! ## The objective and its derivative -/

/-- `y_i * (Xw)_i` -/
def margin (data : RowBlock V) (w : List V) (i : ℕ) : V :=
  sign data i * ((data.row i).map fun a => w.getD a.1 0 * a.2).sum

/-- `x_{i,f}` -/
def coef (data : RowBlock V) (i f : ℕ) : V :=
  ((data.row i).map fun a => if a.1 = f then a.2 else 0).sum

/-- The derivative of the objective by weight `f`. -/
def derivative (data : RowBlock V) (w : List V) (f : ℕ) : V :=
  ∑ i ∈ Finset.range data.size, -2 * sign data i * max 0 (1 - margin data w i) * coef data i f

section Spec

variable (unset nt : Team) (data : RowBlock V) (w : List V)

/-- The products of a new object: an empty row has 0. -/
theorem init_eq : ∃ l, ScalarLoss.init unset data w nt = some l ∧ l.data = data ∧ l.nt = nt ∧
    ∀ i < data.size, sign data i * l.Xw.getD i 0 = margin data w i := by
  obtain ⟨Xw, hrun, -, hget⟩ := SpMV.getD_times data w (List.replicate data.size 0) unset
    List.length_replicate
  refine ⟨⟨data, Xw, nt⟩, ?_, rfl, rfl, fun i hi => ?_⟩
  · rw [ScalarLoss.init, hrun]
    rfl
  · rw [margin, hget i hi]
    split
    · next hempty => rw [getD_zeros, RowBlock.row, data.entries_eq_nil hempty]; rfl
    · rfl

/-- What `Evaluate` reports. -/
theorem reportedObjv_eq (sort : List (BinClassEval.Entry V) → List (BinClassEval.Entry V)) :
    reportedObjv sort unset nt data w =
      ∑ i ∈ Finset.range data.size, max (1 - margin data w i) 0 * max (1 - margin data w i) 0 := by
  obtain ⟨l, hrun, rfl, -, hmargin⟩ := init_eq unset nt data w
  rw [reportedObjv, hrun]
  simp only [Option.map_some, Option.getD_some, evaluate]
  rw [foldl_add, zero_add, sum_range_list]
  exact Finset.sum_congr rfl fun i hi => by rw [hmargin i (Finset.mem_range.mp hi)]

/-- What `CalcGrad` writes. -/
theorem calcGrad_eq {l : ScalarLoss V} (hrun : ScalarLoss.init unset data w nt = some l)
    (grad : List V) : ∃ g, calcGrad l grad = some g ∧ g.length = grad.length ∧
      ∀ f < grad.length, g.getD f 0 =
        -2 * ∑ i ∈ Finset.range data.size,
          if 1 < margin data w i then sign data i * coef data i f else 0 := by
  obtain ⟨l', hrun', rfl, rfl, hmargin⟩ := init_eq unset nt data w
  obtain rfl := Option.some.inj (hrun.symm.trans hrun')
  obtain ⟨g, hg, hlen, hget⟩ := SpMV.getD_transTimes l.data ((List.range l.data.size).map fun i =>
    sign l.data i * if 1 < sign l.data i * l.Xw.getD i 0 then 1 else 0) grad l.nt (by simp)
  refine ⟨g.map (· * -2), ?_, ?_, fun f hf => ?_⟩
  · rw [calcGrad, hg]
    rfl
  · rw [List.length_map, hlen]
  · rw [getD_map_of_zero g (· * -2) (zero_mul _), hget f hf, mul_comm]
    congr 1
    refine Finset.sum_congr rfl fun i hi => ?_
    have hi := Finset.mem_range.mp hi
    rw [getD_map_range, if_pos hi, hmargin i hi, coef]
    split
    · rw [mul_one, ← List.sum_map_mul_left]
      congr 1
      refine List.map_congr_left fun a _ => ?_
      rw [mul_ite, mul_zero]
    · simp

/-- The exact condition, for one weight: the rows beyond the margin cancel with those that have
not reached it. -/
theorem calcGrad_eq_derivative_iff [IsStrictOrderedRing V] (f : ℕ) :
    (-2 * ∑ i ∈ Finset.range data.size,
        if 1 < margin data w i then sign data i * coef data i f else 0) = derivative data w f ↔
      (∑ i ∈ Finset.range data.size,
          if 1 < margin data w i then sign data i * coef data i f else 0) =
        ∑ i ∈ Finset.range data.size,
          if margin data w i < 1 then sign data i * (1 - margin data w i) * coef data i f
          else 0 := by
  have hsum : derivative data w f = -2 * ∑ i ∈ Finset.range data.size,
      if margin data w i < 1 then sign data i * (1 - margin data w i) * coef data i f else 0 := by
    rw [derivative, Finset.mul_sum]
    refine Finset.sum_congr rfl fun i _ => ?_
    split
    · next hlt =>
      rw [max_eq_right (by linarith)]
      ring
    · next hge =>
      rw [max_eq_left (by linarith [not_lt.mp hge])]
      ring
  rw [hsum, mul_right_inj' (by norm_num)]

end Spec

end SquareHingeLoss

end Code

namespace SquareHingeLoss

/-! ## Real numbers -/

/-- The derivative of the squared positive part, with the error of the linear approximation
bounded by the square. -/
theorem hasDerivAt_sq_max (u : ℝ) : HasDerivAt (fun v => max v 0 * max v 0) (2 * max u 0) u := by
  rw [hasDerivAt_iff_isLittleO]
  have hbound : ∀ v : ℝ, ‖max v 0 * max v 0 - max u 0 * max u 0 - (v - u) • (2 * max u 0)‖ ≤
      1 * ‖‖v - u‖ ^ 2‖ := by
    intro v
    rw [one_mul, norm_pow, norm_norm, Real.norm_eq_abs, Real.norm_eq_abs, sq_abs, smul_eq_mul,
      abs_le]
    rcases le_total v 0 with hv | hv <;> rcases le_total u 0 with hu | hu
    · rw [max_eq_right hv, max_eq_right hu]
      constructor <;> nlinarith
    · rw [max_eq_right hv, max_eq_left hu]
      constructor <;> nlinarith
    · rw [max_eq_left hv, max_eq_right hu]
      constructor <;> nlinarith
    · rw [max_eq_left hv, max_eq_left hu]
      constructor <;> nlinarith
  exact (Asymptotics.IsBigO.of_bound 1 (.of_forall hbound)).trans_isLittleO
    (Asymptotics.isLittleO_pow_sub_sub u one_lt_two)

variable {data : RowBlock ℝ} {w : List ℝ}

/-- The margin of a row is linear in each weight. -/
theorem margin_set (hdata : data.Valid w.length) {i : ℕ} (hi : i < data.size) (f : ℕ) (t : ℝ) :
    margin data (w.set f t) i =
      margin data w i + (t - w.getD f 0) * (sign data i * coef data i f) := by
  have hrow : ((data.row i).map fun a => (w.set f t).getD a.1 0 * a.2).sum =
      ((data.row i).map fun a => w.getD a.1 0 * a.2).sum + (t - w.getD f 0) * coef data i f := by
    rw [coef, ← List.sum_map_mul_left, ← List.sum_map_add]
    congr 1
    refine List.map_congr_left fun a ha => ?_
    obtain ⟨j, hj, rfl⟩ := List.mem_map.mp ha
    rw [getD_set _ _ _ _ (hdata.col_lt i hi j hj)]
    split
    · next hcol => rw [if_pos hcol.symm, ← hcol]; ring
    · next hcol => rw [if_neg (Ne.symm hcol)]; ring
  rw [margin, hrow, margin]
  ring

/-- **The derivative of the objective** that `Evaluate` reports. -/
theorem hasDerivAt_reportedObjv (unset nt : Team)
    (sort : List (BinClassEval.Entry ℝ) → List (BinClassEval.Entry ℝ))
    (hdata : data.Valid w.length) (f : ℕ) :
    HasDerivAt (fun t => reportedObjv sort unset nt data (w.set f t)) (derivative data w f)
      (w.getD f 0) := by
  simp only [reportedObjv_eq]
  refine HasDerivAt.fun_sum fun i hi => ?_
  have hi := Finset.mem_range.mp hi
  simp only [margin_set hdata hi]
  have hlin : HasDerivAt
      (fun t => 1 - (margin data w i + (t - w.getD f 0) * (sign data i * coef data i f)))
      (-(1 * (sign data i * coef data i f))) (w.getD f 0) :=
    ((((hasDerivAt_id' (w.getD f 0)).sub_const _).mul_const _).const_add _).const_sub 1
  have hsq := hasDerivAt_sq_max
    (1 - (margin data w i + (w.getD f 0 - w.getD f 0) * (sign data i * coef data i f)))
  refine (hsq.comp (w.getD f 0) hlin).congr_deriv ?_
  rw [sub_self, zero_mul, add_zero, max_comm]
  ring

/-- **`CalcGrad` returns the gradient of the objective** if and only if the rows with a margin above
one cancel, in every column, with those below it. -/
theorem calcGrad_isGradient_iff (unset nt : Team)
    (sort : List (BinClassEval.Entry ℝ) → List (BinClassEval.Entry ℝ)) (data : RowBlock ℝ)
    (w grad : List ℝ) (hdata : data.Valid w.length) (hgrad : grad.length = w.length) :
    (∃ l g, ScalarLoss.init unset data w nt = some l ∧ calcGrad l grad = some g ∧
      g.length = w.length ∧ ∀ f < w.length,
        g.getD f 0 = ∑ i ∈ Finset.range data.size,
          -2 * sign data i * max 0 (1 - margin data w i) * coef data i f ∧
        HasDerivAt (fun t => reportedObjv sort unset nt data (w.set f t)) (g.getD f 0)
          (w.getD f 0)) ↔
    ∀ f < w.length, (∑ i ∈ Finset.range data.size,
        if 1 < margin data w i then sign data i * coef data i f else 0) =
      ∑ i ∈ Finset.range data.size,
        if margin data w i < 1 then sign data i * (1 - margin data w i) * coef data i f else 0 := by
  constructor
  · rintro ⟨l, g, hrun, hg, -, hcomp⟩ f hf
    obtain ⟨g', hg', -, hget⟩ := calcGrad_eq unset nt data w hrun grad
    obtain rfl := Option.some.inj (hg.symm.trans hg')
    rw [← calcGrad_eq_derivative_iff, ← hget f (hgrad ▸ hf), (hcomp f hf).1]
    rfl
  · intro hcancel
    obtain ⟨l, hrun, -⟩ := init_eq unset nt data w
    obtain ⟨g, hg, hlen, hget⟩ := calcGrad_eq unset nt data w hrun grad
    refine ⟨l, g, hrun, hg, hlen.trans hgrad, fun f hf => ?_⟩
    have hcomp : g.getD f 0 = derivative data w f := by
      rw [hget f (hgrad ▸ hf), calcGrad_eq_derivative_iff]
      exact hcancel f hf
    exact ⟨hcomp, hcomp ▸ hasDerivAt_reportedObjv unset nt sort hdata f⟩

/-- A positive example with one feature. -/
def oneRow : RowBlock ℝ :=
  { size := 1, offset := [0, 1], label := [1], index := [0], value := none }

theorem oneRow_valid : oneRow.Valid 1 where
  length_offset := rfl
  offset_mono := by decide
  length_label := rfl
  length_index := by decide
  length_value := by
    rintro v ⟨⟩
  col_lt := by decide

theorem row_oneRow : oneRow.row 0 = [(0, 1)] := rfl

theorem sign_oneRow : sign oneRow 0 = 1 := if_pos one_pos

theorem coef_oneRow : coef oneRow 0 0 = 1 := by
  simp [coef, row_oneRow]

theorem margin_oneRow (t : ℝ) : margin oneRow [t] 0 = t := by
  simp [margin, sign_oneRow, row_oneRow]

theorem calcGrad_isGradient_oneRow : oneRow.Valid [(1 : ℝ)].length ∧
    ∃ l g, ScalarLoss.init (.exact 2 (by decide) (by decide)) oneRow [1]
        (.exact 2 (by decide) (by decide)) = some l ∧ calcGrad l [1] = some g ∧ g.length = 1 ∧
      ∀ f < 1, g.getD f 0 = ∑ i ∈ Finset.range 1,
          -2 * sign oneRow i * max 0 (1 - margin oneRow [1] i) * coef oneRow i f ∧
        HasDerivAt (fun t => reportedObjv id (.exact 2 (by decide) (by decide))
          (.exact 2 (by decide) (by decide)) oneRow ([1].set f t)) (g.getD f 0)
          ([1].getD f 0) := by
  refine ⟨oneRow_valid, (calcGrad_isGradient_iff _ _ id oneRow [1] [1] oneRow_valid rfl).mpr ?_⟩
  intro f _
  have hsize : oneRow.size = 1 := rfl
  simp [hsize, margin_oneRow]

/-- **Not the gradient**: the row has margin 0, `CalcGrad` passes over it, and the derivative of
`max(0, 1 - t)^2` at 0 is -2. -/
theorem calcGrad_misses_row : ¬ ∃ l g,
    ScalarLoss.init (.exact 2 (by decide) (by decide)) oneRow [0]
        (.exact 2 (by decide) (by decide)) = some l ∧ calcGrad l [0] = some g ∧ g.length = 1 ∧
      ∀ f < 1, g.getD f 0 = ∑ i ∈ Finset.range 1,
          -2 * sign oneRow i * max 0 (1 - margin oneRow [0] i) * coef oneRow i f ∧
        HasDerivAt (fun t => reportedObjv id (.exact 2 (by decide) (by decide))
          (.exact 2 (by decide) (by decide)) oneRow ([0].set f t)) (g.getD f 0)
          ([0].getD f 0) := by
  rintro ⟨l, g, hrun, hg, -, hcomp⟩
  obtain ⟨g', hg', -, hget⟩ := calcGrad_eq _ _ oneRow [0] hrun [0]
  obtain rfl := Option.some.inj (hg.symm.trans hg')
  have hsize : oneRow.size = 1 := rfl
  have hboth := (hcomp 0 one_pos).1.symm.trans (hget 0 one_pos)
  simp [hsize, margin_oneRow, sign_oneRow, coef_oneRow] at hboth

end SquareHingeLoss

end Difacto.Linear
