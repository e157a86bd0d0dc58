import Difacto.Base.LocalRows
import Difacto.Base.RowLoss
import Difacto.Base.Workload
import Difacto.Linear.Logit

/-!
# A minibatch of a linear worker

`AsgdWorker::ProcessMinibatch` of `linear/async_sgd.h` in exact arithmetic: from the rows of the
minibatch, with their feature ids, to the keys and the numbers that are pushed. What the servers
answer is a parameter.

## Main definitions

* `AsgdWorker.processMinibatch`.
* `score` — the score of a row as a function of the weights of all keys.

## Main results

* `hasDerivAt_rowLoss_score` — the derivative of the loss along a direction.
* `AsgdWorker.pushes_gradient` — what is pushed is the gradient of the loss.
-/

namespace Difacto.Linear

open Base Lib

section Code

variable {V : Type} [Field V] [LinearOrder V]

/-- The options of a worker, and how the library sorts. -/
structure AsgdWorker (V : Type) where
  /-- `conf_.loss()` -/
  loss : LossKind
  /-- `conf_.prob_predict()` -/
  probPredict : Bool
  lc : Localizer
  sort : StdSort lessKey
  sortExamples : List (BinClassEval.Entry V) → List (BinClassEval.Entry V)
  /-- the `nt_` of a loss before `Init` sets it -/
  unset : Team
  nt : Team

/-- What a minibatch makes a worker send and write. -/
structure Outcome (V : Type) where
  /-- the keys of the pull -/
  feaid : List UInt64
  /-- the report to the scheduler -/
  progress : Progress V
  /-- the numbers that `Predict` writes -/
  predict : Option (List V)
  /-- the numbers that `ZPush` sends for the keys -/
  push : Option (List V)

/-- `ProcessMinibatch` with the callback of its pull; `pull` is what the servers answer. -/
def AsgdWorker.processMinibatch (wk : AsgdWorker V) (m : MathH V) (maxKey : UInt64)
    (pull : List UInt64 → List V) (type : WorkloadType) (mb : InputBlock UInt64 V) :
    Option (Outcome V) := do
  -- find the unique feature ids in this minibatch
  let (feaid, _, data) ← wk.lc.localize wk.sort maxKey (.unsigned 32 le_rfl) mb
  -- pull the weight from the servers
  let val := pull feaid
  -- eval the objective, and report progress to the scheduler
  let block ← data.getBlock
  let loss ← ScalarLoss.init wk.unset block.toRowBlock val wk.nt
  let progress ← wk.loss.evaluate m wk.sortExamples loss
  let predict := if type = .pred then some (loss.predict m wk.probPredict) else none
  if type = .train then
    -- calculate and push the gradients
    let grad ← wk.loss.calcGrad m loss val
    return { feaid, progress, predict, push := some grad }
  else return { feaid, progress, predict, push := none }

end Code

/-! ## The loss of the rows -/

/-- `<x, w>` -/
def score (maxKey : UInt64) (w : UInt64 → ℝ) (r : InputRow UInt64 ℝ) : ℝ :=
  (r.features.map fun a => w (localKey maxKey a.1) * a.2).sum

/-- A score is linear in the weights. -/
theorem score_add_mul (maxKey : UInt64) (w d : UInt64 → ℝ) (t : ℝ) (r : InputRow UInt64 ℝ) :
    score maxKey (fun k => w k + t * d k) r = score maxKey w r + t * score maxKey d r := by
  rw [score, score, score, ← List.sum_map_mul_left, ← List.sum_map_add]
  congr 1
  apply List.map_congr_left
  intro a _
  ring

/-- **The derivative along a direction.** -/
theorem hasDerivAt_rowLoss_score (maxKey : UInt64) (mb : InputBlock UInt64 ℝ)
    (w d : UInt64 → ℝ) :
    HasDerivAt (fun t => rowLoss mb (score maxKey fun k => w k + t * d k))
      (∑ i ∈ Finset.range mb.size, -labelSign (mb.row i).label /
        (1 + Real.exp (labelSign (mb.row i).label * score maxKey w (mb.row i))) *
          score maxKey d (mb.row i)) 0 := by
  have hline : ∀ i < mb.size, HasDerivAt
      (fun t => score maxKey (fun k => w k + t * d k) (mb.row i))
      (1 * score maxKey d (mb.row i)) 0 := by
    intro i _
    simp only [score_add_mul]
    exact ((hasDerivAt_id' (0 : ℝ)).mul_const _).const_add _
  refine (hasDerivAt_rowLoss hline).congr_deriv ?_
  simp only [zero_mul, add_zero, one_mul]

/-! ## The minibatch -/

namespace AsgdWorker

variable {maxKey : UInt64} {mb : InputBlock UInt64 ℝ} {w : UInt64 → ℝ} {keys : List UInt64}
  {data : RowBlock ℝ}

/-- The number for a key in the array of the numbers for all keys. -/
theorem getD_map_idxOf (f : UInt64 → ℝ) {k : UInt64} (hk : k ∈ keys) :
    (keys.map f).getD (keys.idxOf k) 0 = f k := by
  have hlt := List.idxOf_lt_length_of_mem hk
  rw [List.getD_eq_getElem _ _ (by rwa [List.length_map]), List.getElem_map, List.getElem_idxOf]

theorem sign_local (hlocal : LocalRows maxKey mb keys data) (hmb : mb.Valid) {i : ℕ}
    (hi : i < mb.size) : SquareHingeLoss.sign data i = labelSign (mb.row i).label := by
  have hlt : i < mb.label.length := hmb.length_label.symm ▸ hi
  rw [SquareHingeLoss.sign, labelSign, InputBlock.row, hlocal.label, List.getD_eq_getElem _ _ hlt,
    List.getD_eq_getElem _ _ hlt]

/-- The products of the localized block are the scores of the rows. -/
theorem row_local (hlocal : LocalRows maxKey mb keys data) {i : ℕ} (hi : i < mb.size) :
    ((data.row i).map fun a => (keys.map w).getD a.1 0 * a.2).sum =
      score maxKey w (mb.row i) := by
  rw [hlocal.row i hi, List.map_map, score]
  congr 1
  apply List.map_congr_left
  intro a ha
  rw [Function.comp_apply, getD_map_idxOf w (hlocal.key_mem i hi a ha)]

/-- A new loss with its products. -/
theorem init_local (hlocal : LocalRows maxKey mb keys data) (unset nt : Team) (w : UInt64 → ℝ) :
    ∃ l, ScalarLoss.init unset data (keys.map w) nt = some l ∧ l.data = data ∧ l.nt = nt ∧
      l.Xw.length = mb.size ∧ ∀ i < mb.size, l.Xw.getD i 0 = score maxKey w (mb.row i) := by
  obtain ⟨Xw, htimes, hlen, hget⟩ := SpMV.getD_times data (keys.map w)
    (List.replicate data.size 0) unset List.length_replicate
  refine ⟨⟨data, Xw, nt⟩, ?_, rfl, rfl, hlen.trans hlocal.size, fun i hi => ?_⟩
  · rw [ScalarLoss.init, htimes]
    rfl
  · have hi' : i < data.size := hlocal.size.symm ▸ hi
    rw [← row_local hlocal hi, hget i hi']
    split
    · next hempty => rw [getD_zeros, RowBlock.row, data.entries_eq_nil hempty]; rfl
    · rfl

/-- The margins of the localized block are those of the rows. -/
theorem margin_local (hlocal : LocalRows maxKey mb keys data) (hmb : mb.Valid) {i : ℕ}
    (hi : i < mb.size) : SquareHingeLoss.margin data (keys.map w) i =
      labelSign (mb.row i).label * score maxKey w (mb.row i) := by
  rw [SquareHingeLoss.margin, sign_local hlocal hmb hi, row_local hlocal hi]

/-- **The gradient, tested with a direction.** -/
theorem sum_grad (hlocal : LocalRows maxKey mb keys data) {p : ℕ → ℝ} {g : List ℝ}
    (hlen : g.length = keys.length)
    (hget : ∀ f < keys.length, g.getD f 0 = ∑ i ∈ Finset.range data.size,
      ((data.row i).map fun a => if a.1 = f then p i * a.2 else 0).sum) (d : UInt64 → ℝ) :
    ((keys.zip g).map fun kg => kg.2 * d kg.1).sum =
      ∑ i ∈ Finset.range mb.size, p i * score maxKey d (mb.row i) := by
  have hzip : (keys.zip g).map (fun kg => kg.2 * d kg.1) =
      (List.range keys.length).map fun f => g.getD f 0 * (keys.map d).getD f 0 := by
    rw [List.map_zip_eq_zipWith]
    apply List.ext_getElem
    · simp [hlen]
    · intro f hf hf'
      simp only [List.length_map, List.length_range] at hf'
      simp [hf', hlen]
  have htrans := sum_transpose data.row Prod.fst (fun i a => p i * a.2) ((keys.map d).getD · 0)
    (m := data.size) (n := keys.length) ?_
  · rw [hzip, sum_range_list, Finset.sum_congr rfl fun f hf => by
      rw [hget f (Finset.mem_range.mp hf)], htrans, hlocal.size]
    apply Finset.sum_congr rfl
    intro i hi
    have hi := Finset.mem_range.mp hi
    rw [hlocal.row i hi, score, List.map_map, ← List.sum_map_mul_left]
    congr 1
    apply List.map_congr_left
    intro a ha
    rw [Function.comp_apply, getD_map_idxOf d (hlocal.key_mem i hi a ha)]
    ring
  · intro i hi a ha
    obtain ⟨j, hj, rfl⟩ := List.mem_map.mp ha
    exact hlocal.valid.col_lt i hi j hj

/-- **A training minibatch pushes the gradient.** For every feature id of its rows it sends one
number for the key of the id, and what it sends is the whole gradient of the loss of the rows at
the weights that the servers answered. The loss that it reports is off by at most `exp (-30)`
for each row. -/
theorem pushes_gradient (wk : AsgdWorker ℝ) (hloss : wk.loss = .logit) (maxKey : UInt64)
    (hmaxKey : maxKey ≠ 0) (w : UInt64 → ℝ) (mb : InputBlock UInt64 ℝ) (hmb : mb.Valid)
    (hfirst : mb.off 0 = 0) (hpos : 0 < mb.off mb.size) (hlt : mb.off mb.size < 2 ^ 32 - 1) :
    ∃ out g, wk.processMinibatch realMath maxKey (fun keys => keys.map w) .train mb = some out ∧
      out.push = some g ∧ g.length = out.feaid.length ∧ out.feaid.Pairwise (· < ·) ∧
      (∀ k, k ∈ out.feaid ↔ ∃ id ∈ mb.ids, localKey maxKey id = k) ∧
      out.progress.newEx = mb.size ∧
      |out.progress.objv - rowLoss mb (score maxKey w)| ≤ mb.size * Real.exp (-30) ∧
      ∀ d : UInt64 → ℝ, HasDerivAt (fun t => rowLoss mb (score maxKey fun k => w k + t * d k))
        ((out.feaid.zip g).map fun kg => kg.2 * d kg.1).sum 0 := by
  obtain ⟨keys, frq, o, block, hlocalize, hblock, hlocal⟩ :=
    wk.lc.localize_rows wk.sort hmaxKey (.unsigned 32 le_rfl) hmb hfirst hpos hlt
  obtain ⟨l, hinit, hdata, -, hXw, hget⟩ := init_local hlocal wk.unset wk.nt w
  obtain ⟨g, hgrad, hlen, hgetg⟩ := LogitLoss.calcGrad_eq wk.unset wk.nt hinit (keys.map w)
  rw [List.length_map] at hlen hgetg
  refine ⟨{ feaid := keys, progress := LogitLoss.evaluate realMath wk.sortExamples l,
            predict := none, push := some g }, g, ?_, rfl, hlen, hlocal.sorted, hlocal.mem_iff,
    ?_, ?_, fun d => ?_⟩
  · simp [processMinibatch, hlocalize, hblock, hinit, hloss, LossKind.evaluate, LossKind.calcGrad,
      hgrad]
  · exact (congrArg RowBlock.size hdata).trans hlocal.size
  · have hlabel : l.data.label = mb.label := (congrArg RowBlock.label hdata).trans hlocal.label
    have hobjv : (LogitLoss.evaluate realMath wk.sortExamples l).objv =
        BinClassEval.logitObjv Real.exp Real.log
          (List.zipWith BinClassEval.Entry.mk l.data.label l.Xw) := rfl
    rw [hobjv, hlabel]
    exact abs_logitObjv_sub_rowLoss_le hmb hXw hget
  · rw [sum_grad hlocal hlen hgetg d]
    refine (hasDerivAt_rowLoss_score maxKey mb w d).congr_deriv
      (Finset.sum_congr rfl fun i hi => ?_)
    have hi := Finset.mem_range.mp hi
    rw [margin_local hlocal hmb hi, sign_local hlocal hmb hi]

/-- A positive and a negative row, with a feature in common. -/
def twoRows : InputBlock UInt64 ℝ :=
  { size := 2, offset := [0, 2, 3], label := [1, 0], weight := none, index := [7, 3, 7]
    value := none }

theorem valid_twoRows : twoRows.Valid where
  length_offset := rfl
  off_le := by decide
  length_label := rfl
  length_index := by decide
  length_value := by
    rintro v ⟨⟩

theorem two_lt_int : 2 < 2 ^ 31 := by
  decide

/-- A worker with the logistic loss. -/
def twoThreads : AsgdWorker ℝ :=
  { loss := .logit, probPredict := true, lc := ⟨2, Nat.two_pos⟩, sort := .merge lessKey_strictWeak
    sortExamples := id, unset := .exact 2 Nat.two_pos two_lt_int
    nt := .exact 2 Nat.two_pos two_lt_int }

theorem pushes_gradient_twoRows : ∃ out g,
    twoThreads.processMinibatch realMath 5 (fun keys => keys.map fun _ => 0) .train twoRows =
        some out ∧ out.push = some g ∧ g.length = out.feaid.length ∧
      |out.progress.objv - rowLoss twoRows (score 5 fun _ => 0)| ≤ 2 * Real.exp (-30) ∧
      ∀ d : UInt64 → ℝ, HasDerivAt (fun t => rowLoss twoRows (score 5 fun k => 0 + t * d k))
        ((out.feaid.zip g).map fun kg => kg.2 * d kg.1).sum 0 := by
  obtain ⟨out, g, hrun, hpush, hlen, -, -, -, hobjv, hgrad⟩ := pushes_gradient twoThreads rfl 5
    (by decide) (fun _ => 0) twoRows valid_twoRows rfl (by decide) (by decide)
  exact ⟨out, g, hrun, hpush, hlen, hobjv, hgrad⟩

end AsgdWorker

end Difacto.Linear
