import Difacto.Base.LocalRows
import Difacto.Base.RowLoss
import Difacto.FM.Gradient

/-!
# A training minibatch of a difacto worker

`AsyncWorker::ProcessMinibatch` of `difacto/async_sgd.h` in exact arithmetic: from the rows of the
minibatch, with their feature ids, to the keys and the vectors that are pushed. What the servers
answer is a parameter.

## Main definitions

* `Trainer.processMinibatch`.
* `fmScore` — the factorization machine over feature ids.

## Main results

* `fm_local` — the factorization machine of the localized block.
* `hasDerivAt_fmScore` — the derivative of a score along a direction.
* `Trainer.pushes_fm_gradient` — what is pushed is the gradient of the loss of the rows.
-/

namespace Difacto.Worker

open Base Lib FM

section Code

variable {V : Type} [Field V] [LinearOrder V]

/-- What `Evaluate` reports. -/
structure Progress (V : Type) where
  objv : V
  auc : V
  /-- the objective without the embeddings -/
  objvW : V
  count : ℕ
  newEx : ℕ

/-- A worker with training workloads: its options, and how the library computes and sorts. -/
structure Trainer (V : Type) where
  ar : Arith V
  log : V → V
  team : Team
  /-- `embedding(0)` -/
  conf : Option (EmbeddingConf V)
  lc : Localizer
  sort : StdSort lessKey
  sortExamples : List (BinClassEval.Entry V) → List (BinClassEval.Entry V)

/-- What a minibatch makes a worker send. -/
structure Sent (V : Type) where
  /-- the keys of all messages -/
  feaid : List UInt64
  /-- the counts of the keys, in the first pass with an embedding -/
  feacnt : Option (List CountType.float.Count)
  /-- the report to the scheduler -/
  progress : Progress V
  /-- the numbers that `ZVPush` sends -/
  val : List V
  /-- how many of them each key has -/
  valSiz : List ℕ

namespace Trainer

variable (tr : Trainer V)

/-- `do_embedding_` -/
def doEmbedding : Bool := tr.conf.any fun cf => decide (0 < cf.dim)

/-- The `Progress` that `Evaluate` fills in, from the loss before and after it. -/
def report (l l' : Loss V) : Option (Progress V) := do
  let pw ← SpMV.times tr.team l.w.X l.w.weight (Loss.resize l.py l.w.X.size)
  let eval := List.zipWith BinClassEval.Entry.mk l.w.X.label
  return { objv := BinClassEval.logitObjv tr.ar.exp tr.log (eval l'.py)
           auc := BinClassEval.auc (tr.sortExamples (eval l'.py))
           objvW := BinClassEval.logitObjv tr.ar.exp tr.log (eval pw)
           count := 1
           newEx := l.w.X.size }

/-- `ProcessMinibatch` with the callback of its pull, for a workload of type `TRAIN`; `pull` is
what the servers answer. -/
def processMinibatch (maxKey : UInt64) (pull : List UInt64 → List V × List ℕ) (dataPass : ℤ)
    (mb : InputBlock UInt64 V) : Option (Sent V) := do
  let (feaid, feacnt, data) ← tr.lc.localize tr.sort maxKey .float mb
  -- pull the weight from the servers
  let (val, valSiz) := pull feaid
  -- eval the objective, and report progress to the scheduler
  let block ← data.getBlock
  let loss ← Loss.new tr.conf block.toRowBlock val valSiz
  let loss' ← Loss.evaluate tr.ar tr.team loss
  let progress ← tr.report loss loss'
  -- calculate and push the gradients
  let (val, _) ← Loss.calcGrad tr.ar tr.team loss' val
  return { feaid, progress, val, valSiz
           feacnt := if dataPass = 0 ∧ tr.doEmbedding = true then some feacnt else none }

end Trainer

end Code

/-! ## The factorization machine over feature ids -/

section Score

variable {V : Type} [Field V]

/-- The part of the score without the embeddings. -/
def weightScore (maxKey : UInt64) (θ : UInt64 → List V) (r : InputRow UInt64 V) : V :=
  (r.features.map fun a => (θ (localKey maxKey a.1)).getD 0 0 * a.2).sum

/-- The score of a row. A key has a vector with its weight and its embedding; embeddings of another
dimension take no part in pairs. -/
def fmScore (maxKey : UInt64) (dim : ℕ) (θ : UInt64 → List V) (r : InputRow UInt64 V) : V :=
  weightScore maxKey θ r + ((pairs r.features).map fun ab =>
    let u := θ (localKey maxKey ab.1.1)
    let v := θ (localKey maxKey ab.2.1)
    if u.length = dim + 1 ∧ v.length = dim + 1 then
      ab.1.2 * ab.2.2 * ∑ k ∈ Finset.range dim, u.getD (k + 1) 0 * v.getD (k + 1) 0
    else 0).sum

/-! ### The localized block -/

variable {maxKey : UInt64} {mb : InputBlock UInt64 V} {keys : List UInt64} {data : RowBlock V}
  {θ : UInt64 → List V} {dim : ℕ}

/-- The numbers of all keys. -/
def model (θ : UInt64 → List V) (keys : List UInt64) : List V := (keys.map θ).flatten

/-- How many each key has. -/
def sizes (θ : UInt64 → List V) (keys : List UInt64) : List ℕ := (keys.map θ).map List.length

omit [Field V] in
theorem sum_sizes (θ : UInt64 → List V) (keys : List UInt64) :
    (sizes θ keys).sum = (model θ keys).length := by
  rw [sizes, model, List.length_flatten]

theorem getElem?_map_idxOf {α : Type} (f : UInt64 → α) {k : UInt64} (hk : k ∈ keys) :
    (keys.map f)[keys.idxOf k]? = some (f k) := by
  rw [List.getElem?_map, List.getElem?_eq_getElem (List.idxOf_lt_length_of_mem hk),
    List.getElem_idxOf, Option.map_some]

omit [Field V] in
theorem getD_sizes {k : UInt64} (hk : k ∈ keys) :
    (sizes θ keys).getD (keys.idxOf k) 0 = (θ k).length := by
  rw [sizes, List.map_map, List.getD_eq_getElem?_getD, getElem?_map_idxOf _ hk]
  rfl

theorem getD_model {k : UInt64} (hk : k ∈ keys) {j : ℕ} (hj : j < (θ k).length) :
    (model θ keys).getD (start (sizes θ keys) (keys.idxOf k) + j) 0 = (θ k).getD j 0 :=
  getD_flatten _ (getElem?_map_idxOf θ hk) hj

theorem weightOf_local {k : UInt64} (hk : k ∈ keys) :
    weightOf (model θ keys) (sizes θ keys) (keys.idxOf k) = (θ k).getD 0 0 := by
  rw [weightOf, getD_sizes hk]
  split
  · next hnil => rw [List.length_eq_zero_iff.mp hnil, List.getD_nil]
  · next hne => exact getD_model hk (Nat.pos_of_ne_zero hne)

theorem embOf_local {k : UInt64} (hk : k ∈ keys) (hdim : (θ k).length = dim + 1) {j : ℕ}
    (hj : j < dim) :
    embOf (model θ keys) (sizes θ keys) (keys.idxOf k) j = (θ k).getD (j + 1) 0 := by
  rw [embOf, Nat.add_assoc, Nat.add_comm 1 j]
  exact getD_model hk (by omega)

/-- The weights of a row of the localized block. -/
theorem weightScore_local (hlocal : LocalRows maxKey mb keys data) {i : ℕ} (hi : i < mb.size) :
    ((data.row i).map fun a => weightOf (model θ keys) (sizes θ keys) a.1 * a.2).sum =
      weightScore maxKey θ (mb.row i) := by
  rw [hlocal.row i hi, List.map_map, weightScore]
  congr 1
  apply List.map_congr_left
  intro a ha
  rw [Function.comp_apply, weightOf_local (hlocal.key_mem i hi a ha)]

/-- **The factorization machine of the localized block** is that of the rows. -/
theorem fm_local (hlocal : LocalRows maxKey mb keys data) (θ : UInt64 → List V) (dim : ℕ) {i : ℕ}
    (hi : i < mb.size) :
    fm dim data (model θ keys) (sizes θ keys) i = fmScore maxKey dim θ (mb.row i) := by
  have hkey := hlocal.key_mem i hi
  have hw : ((data.row i).map fun a => a.2 * weightOf (model θ keys) (sizes θ keys) a.1).sum =
      weightScore maxKey θ (mb.row i) := by
    simp only [← weightScore_local hlocal hi, mul_comm]
  rw [fm, fmScore, hw, hlocal.row i hi, pairs_map, List.map_map]
  congr 2
  · apply List.map_congr_left
    intro ab hab
    obtain ⟨ha, hb⟩ := mem_of_mem_pairs hab
    simp only [Function.comp_apply, Prod.map_fst, Prod.map_snd, getD_sizes (hkey _ ha),
      getD_sizes (hkey _ hb)]
    split
    · next hboth =>
      congr 1
      apply Finset.sum_congr rfl
      intro k hk
      have hk := Finset.mem_range.mp hk
      rw [embOf_local (hkey _ ha) hboth.1 hk, embOf_local (hkey _ hb) hboth.2 hk]
    · rfl

end Score

/-! ## Along a direction -/

section Direction

variable {maxKey : UInt64} {mb : InputBlock UInt64 ℝ} {keys : List UInt64} {data : RowBlock ℝ}
  {dim : ℕ}

/-- The vectors of the keys, moved by `t` along `d`. -/
def movedKeys (θ : UInt64 → List ℝ) (d : UInt64 → ℕ → ℝ) (t : ℝ) (k : UInt64) : List ℝ :=
  (θ k).mapIdx fun j v => v + t * d k j

/-- The direction of the model, element by element. -/
def direction (θ : UInt64 → List ℝ) (d : UInt64 → ℕ → ℝ) : List UInt64 → ℕ → ℝ
  | [], _ => 0
  | k :: keys, s =>
    if s < (θ k).length then d k s else direction θ d keys (s - (θ k).length)

@[simp] theorem movedKeys_zero (θ : UInt64 → List ℝ) (d : UInt64 → ℕ → ℝ) :
    movedKeys θ d 0 = θ := by
  funext k
  apply List.ext_getElem
  · simp [movedKeys]
  · intro j hj hj'
    simp [movedKeys]

theorem sizes_movedKeys (θ : UInt64 → List ℝ) (d : UInt64 → ℕ → ℝ) (t : ℝ)
    (keys : List UInt64) : sizes (movedKeys θ d t) keys = sizes θ keys := by
  simp only [sizes, List.map_map]
  apply List.map_congr_left
  intro k _
  simp only [Function.comp_apply, movedKeys, List.length_mapIdx]

theorem model_movedKeys (θ : UInt64 → List ℝ) (d : UInt64 → ℕ → ℝ) (t : ℝ)
    (keys : List UInt64) :
    model (movedKeys θ d t) keys = Loss.moved (model θ keys) (direction θ d keys) t := by
  induction keys with
  | nil => rfl
  | cons k keys ih =>
      have hmodel : model θ (k :: keys) = θ k ++ model θ keys := rfl
      have hmoved : model (movedKeys θ d t) (k :: keys) =
          movedKeys θ d t k ++ model (movedKeys θ d t) keys := rfl
      rw [hmodel, hmoved, ih, Loss.moved, Loss.moved, List.mapIdx_append]
      congr 1
      · apply List.ext_getElem
        · simp [movedKeys]
        · intro j hj _
          have hlt : j < (θ k).length := by simpa [movedKeys] using hj
          simp [movedKeys, direction, hlt]
      · congr 1
        funext s v
        simp [direction]

/-- The numbers of each key. -/
theorem exists_flatten_eq {α β : Type} (vs : List (List α)) {g : List β}
    (hlen : g.length = (vs.map List.length).sum) :
    ∃ gs : List (List β), gs.flatten = g ∧ gs.map List.length = vs.map List.length := by
  induction vs generalizing g with
  | nil => exact ⟨[], (List.length_eq_zero_iff.mp hlen).symm, rfl⟩
  | cons v vs ih =>
      rw [List.map_cons, List.sum_cons] at hlen
      obtain ⟨gs, hflatten, hlens⟩ := @ih (g.drop v.length) (by rw [List.length_drop]; omega)
      refine ⟨g.take v.length :: gs, ?_, ?_⟩
      · rw [List.flatten_cons, hflatten, List.take_append_drop]
      · rw [List.map_cons, List.map_cons, hlens, List.length_take]
        congr 1
        omega

/-- The product of the gradients of the keys with a direction. -/
def innerKeys (d : UInt64 → ℕ → ℝ) (keys : List UInt64) (gs : List (List ℝ)) : ℝ :=
  ((keys.zip gs).map fun kg => ∑ j ∈ Finset.range kg.2.length, kg.2.getD j 0 * d kg.1 j).sum

theorem sum_direction (θ : UInt64 → List ℝ) (d : UInt64 → ℕ → ℝ) {gs : List (List ℝ)}
    (hlens : gs.map List.length = sizes θ keys) :
    ∑ s ∈ Finset.range gs.flatten.length, gs.flatten.getD s 0 * direction θ d keys s =
      innerKeys d keys gs := by
  induction keys generalizing gs with
  | nil =>
      rw [List.map_eq_nil_iff.mp hlens]
      rfl
  | cons k keys ih =>
      cases gs with
      | nil => cases hlens
      | cons g gs =>
          obtain ⟨hlen, hlens⟩ := List.cons.inj hlens
          have hlen : g.length = (θ k).length := hlen
          rw [List.flatten_cons, List.length_append, Finset.sum_range_add]
          have hhead : ∀ s ∈ Finset.range g.length, (g ++ gs.flatten).getD s 0 *
              direction θ d (k :: keys) s = g.getD s 0 * d k s := by
            intro s hs
            have hs := Finset.mem_range.mp hs
            rw [List.getD_append _ _ _ _ hs, direction, if_pos (hlen ▸ hs)]
          have htail : ∀ s ∈ Finset.range gs.flatten.length,
              (g ++ gs.flatten).getD (g.length + s) 0 * direction θ d (k :: keys) (g.length + s) =
                gs.flatten.getD s 0 * direction θ d keys s := by
            intro s _
            rw [List.getD_append_right _ _ _ _ (Nat.le_add_right _ _), Nat.add_sub_cancel_left,
              direction, if_neg (by omega), ← hlen, Nat.add_sub_cancel_left]
          rw [Finset.sum_congr rfl hhead, Finset.sum_congr rfl htail, ih hlens]
          rfl

/-- **The derivative of a score along a direction.** -/
theorem hasDerivAt_fmScore (hlocal : LocalRows maxKey mb keys data) (θ : UInt64 → List ℝ)
    (d : UInt64 → ℕ → ℝ) {i : ℕ} (hi : i < mb.size) :
    HasDerivAt (fun t => fmScore maxKey dim (movedKeys θ d t) (mb.row i))
      (Loss.slope dim data (model θ keys) (sizes θ keys) (direction θ d keys) i) 0 := by
  have hhalf : (0.5 : ℝ) + 0.5 = 1 := by norm_num
  have hscore : ∀ t, fmScore maxKey dim (movedKeys θ d t) (mb.row i) =
      Loss.forward 0.5 dim data (Loss.moved (model θ keys) (direction θ d keys) t)
        (sizes θ keys) i := by
    intro t
    rw [← fm_local hlocal _ dim hi, sizes_movedKeys, model_movedKeys, Loss.forward_eq_fm hhalf]
  simp only [hscore, Loss.forward_moved hhalf (sum_sizes θ keys)]
  have hlin : HasDerivAt (fun t : ℝ => t * Loss.slope dim data (model θ keys) (sizes θ keys)
      (direction θ d keys) i) (1 * Loss.slope dim data (model θ keys) (sizes θ keys)
        (direction θ d keys) i) 0 :=
    (hasDerivAt_id' (0 : ℝ)).mul_const _
  refine ((hlin.const_add _).add (((hasDerivAt_id' (0 : ℝ)).pow 2).mul_const _)).congr_deriv ?_
  simp

end Direction

/-! ## The minibatch -/

namespace Trainer

open FM.Loss (realArith Plain)

variable {maxKey : UInt64} {mb : InputBlock UInt64 ℝ} {keys : List UInt64} {data : RowBlock ℝ}
  {θ : UInt64 → List ℝ} {tr : Trainer ℝ} {cf : EmbeddingConf ℝ}

/-- The number of elements of the model, key by key. -/
theorem length_model (hlocal : LocalRows maxKey mb keys data) (θ : UInt64 → List ℝ) :
    (model θ keys).length =
      ∑ k ∈ (mb.ids.map (localKey maxKey)).toFinset, (θ k).length := by
  have hkeys : (mb.ids.map (localKey maxKey)).toFinset = keys.toFinset := by
    ext k
    simp only [List.mem_toFinset, List.mem_map, hlocal.mem_iff]
  rw [hkeys, List.sum_toFinset _ (hlocal.sorted.imp fun h => h.ne), ← sum_sizes, sizes,
    List.map_map]
  rfl

/-- The dual value of a row. -/
theorem dual_local (hlocal : LocalRows maxKey mb keys data) (hmb : mb.Valid) {i : ℕ}
    (hi : i < mb.size) (py : ℝ) : Loss.dual realArith (data.label.getD i 0) py =
      -labelSign (mb.row i).label / (1 + Real.exp (labelSign (mb.row i).label * py)) := by
  have hlt : i < mb.label.length := hmb.length_label.symm ▸ hi
  have hlabel : data.label.getD i 0 = (mb.row i).label := by
    rw [hlocal.label, InputBlock.row, List.getD_eq_getElem _ _ hlt, List.getD_eq_getElem _ _ hlt]
  rw [hlabel]
  simp [Loss.dual, realArith, labelSign]

/-- What is reported, before and after the embeddings. -/
theorem report_local (har : tr.ar = realArith) (hlog : tr.log = Real.log)
    (hlocal : LocalRows maxKey mb keys data) (hmb : mb.Valid) {py XV : List ℝ}
    (hdone : Loss.Evaluated realArith.half cf data (model θ keys) (sizes θ keys) py XV) :
    ∃ p, tr.report (Loss.loaded cf data (model θ keys) (sizes θ keys))
        (Loss.evaluated cf data (model θ keys) (sizes θ keys) py XV) = some p ∧
      p.newEx = mb.size ∧
      |p.objv - rowLoss mb (fmScore maxKey cf.dim θ)| ≤ mb.size * Real.exp (-30) ∧
      |p.objvW - rowLoss mb (weightScore maxKey θ)| ≤ mb.size * Real.exp (-30) := by
  obtain ⟨pw, hpw, hlen, hget⟩ :=
    Loss.times_weight tr.team data (model θ keys) (sizes θ keys)
  have hrun : tr.report (Loss.loaded cf data (model θ keys) (sizes θ keys))
      (Loss.evaluated cf data (model θ keys) (sizes θ keys) py XV) = some
        { objv := BinClassEval.logitObjv Real.exp Real.log
            (List.zipWith BinClassEval.Entry.mk mb.label py)
          auc := BinClassEval.auc
            (tr.sortExamples (List.zipWith BinClassEval.Entry.mk mb.label py))
          objvW := BinClassEval.logitObjv Real.exp Real.log
            (List.zipWith BinClassEval.Entry.mk mb.label pw)
          count := 1
          newEx := mb.size } := by
    rw [← Loss.resize_nil, hlocal.size] at hpw
    simp only [report, Loss.loaded, Data.ofW, Loss.evaluated, hpw, har, hlog, realArith,
      hlocal.label, hlocal.size, Option.bind_eq_bind, Option.bind_some]
    rfl
  have hhalf : realArith.half + realArith.half = 1 := by norm_num [realArith]
  refine ⟨_, hrun, rfl, ?_, ?_⟩
  · apply abs_logitObjv_sub_rowLoss_le hmb (hdone.length_py.trans hlocal.size)
    intro i hi
    rw [hdone.py_eq i (hlocal.size ▸ hi), Loss.forward_eq_fm hhalf, fm_local hlocal θ cf.dim hi]
  · apply abs_logitObjv_sub_rowLoss_le hmb (hlen.trans hlocal.size)
    intro i hi
    rw [hget i (hlocal.size ▸ hi), weightScore_local hlocal hi]

/-- **A training minibatch pushes the gradient.** For every feature id of its rows it sends a vector
for the key of the id, as long as the one that the servers answered. What it sends is the whole
gradient of the loss of the rows, by the weights and by the embeddings. The two losses that it
reports are off by at most `exp (-30)` for each row. -/
theorem pushes_fm_gradient (tr : Trainer ℝ) (har : tr.ar = realArith) (hlog : tr.log = Real.log)
    (hconf : tr.conf = some cf) (hdim : cf.dim ≠ 0) (hplain : Plain realArith cf)
    (maxKey : UInt64) (hmaxKey : maxKey ≠ 0) (θ : UInt64 → List ℝ)
    (hθ : ∀ k, (θ k).length = 0 ∨ (θ k).length = 1 ∨ (θ k).length = cf.dim + 1) (dataPass : ℤ)
    (mb : InputBlock UInt64 ℝ) (hmb : mb.Valid) (hfirst : mb.off 0 = 0)
    (hpos : 0 < mb.off mb.size) (hlt : mb.off mb.size < 2 ^ 32 - 1)
    (hmodel : ∑ k ∈ (mb.ids.map (localKey maxKey)).toFinset, (θ k).length < 2 ^ 32) :
    ∃ out gs, tr.processMinibatch maxKey (fun keys => (model θ keys, sizes θ keys)) dataPass mb =
        some out ∧
      out.val = gs.flatten ∧ gs.map List.length = out.valSiz ∧
      out.valSiz = out.feaid.map (fun k => (θ k).length) ∧ out.feaid.Pairwise (· < ·) ∧
      (∀ k, k ∈ out.feaid ↔ ∃ id ∈ mb.ids, localKey maxKey id = k) ∧
      out.progress.newEx = mb.size ∧
      |out.progress.objv - rowLoss mb (fmScore maxKey cf.dim θ)| ≤ mb.size * Real.exp (-30) ∧
      |out.progress.objvW - rowLoss mb (weightScore maxKey θ)| ≤ mb.size * Real.exp (-30) ∧
      ∀ d : UInt64 → ℕ → ℝ,
        HasDerivAt (fun t => rowLoss mb (fmScore maxKey cf.dim (movedKeys θ d t)))
          (innerKeys d out.feaid gs) 0 := by
  obtain ⟨keys, frq, o, block, hlocalize, hblock, hlocal⟩ :=
    tr.lc.localize_rows tr.sort hmaxKey .float hmb hfirst hpos hlt
  have hlen : (model θ keys).length < 2 ^ 32 := by rwa [length_model hlocal]
  have hsum := sum_sizes θ keys
  have hne : sizes θ keys ≠ [] := by simpa [sizes] using hlocal.ne_nil
  have hsize : block.toRowBlock.size ≠ 0 := hlocal.size ▸ Localizer.size_ne_zero hfirst hpos
  have hnew : Loss.new (some cf) block.toRowBlock (model θ keys) (sizes θ keys) =
      some (Loss.loaded cf block.toRowBlock (model θ keys) (sizes θ keys)) := by
    rw [Loss.new_eq hdim hsum hne, if_pos hlen]
  obtain ⟨py, XV, heval, hdone⟩ : ∃ py XV, _ ∧
      Loss.Evaluated realArith.half cf block.toRowBlock (model θ keys) (sizes θ keys) py XV :=
    Loss.evaluate_spec realArith tr.team (model θ keys) hdim hsize (hsum ▸ hlen)
  obtain ⟨g, l', hgrad, hpy, ws, vs, hstores, hg⟩ := Loss.calcGrad_spec hplain tr.team hdim hsize
    (hsum ▸ hlen) hdone (model θ keys)
  obtain ⟨p, hreport, hnewEx, hobjv, hobjvW⟩ := report_local har hlog hlocal hmb hdone
  have hg' : g.length = ((keys.map θ).map List.length).sum := by
    rw [hg, length_assign, length_assign]
    exact hsum.symm
  obtain ⟨gs, hflatten, hlens⟩ := exists_flatten_eq (keys.map θ) hg'
  refine ⟨{ feaid := keys, progress := p, val := g, valSiz := sizes θ keys
            feacnt := if dataPass = 0 ∧ tr.doEmbedding = true then some frq else none }, gs, ?_,
    hflatten.symm, hlens, ?_, hlocal.sorted, hlocal.mem_iff, hnewEx, hobjv, hobjvW, fun d => ?_⟩
  · simp only [processMinibatch, hlocalize, hblock, hconf, har, hnew, heval, hreport, hgrad,
      Option.bind_eq_bind, Option.bind_some]
    rfl
  · rw [sizes, List.map_map]
    rfl
  · have hvalid : block.toRowBlock.Valid (sizes θ keys).length := by
      rw [sizes, List.length_map, List.length_map]
      exact hlocal.valid
    have hsiz : ∀ s ∈ sizes θ keys, s = 0 ∨ s = 1 ∨ s = cf.dim + 1 := by
      intro s hs
      rw [sizes, List.map_map] at hs
      obtain ⟨k, -, rfl⟩ := List.mem_map.mp hs
      exact hθ k
    have hstored := Loss.sum_stored hdim hsiz hsum.symm hstores (direction θ d keys)
    rw [← Loss.sum_slope hvalid, ← hg] at hstored
    rw [← sum_direction θ d hlens, hflatten, hg', ← sizes, hstored, hlocal.size]
    refine (hasDerivAt_rowLoss fun i hi => hasDerivAt_fmScore hlocal θ d hi).congr_deriv
      (Finset.sum_congr rfl fun i hi => ?_)
    have hi := Finset.mem_range.mp hi
    have hi' : i < block.toRowBlock.size := hlocal.size ▸ hi
    have hscore : fmScore maxKey cf.dim (movedKeys θ d 0) (mb.row i) = py.getD i 0 := by
      have hhalf : realArith.half + realArith.half = 1 := by norm_num [realArith]
      rw [movedKeys_zero, hdone.py_eq i hi', Loss.forward_eq_fm hhalf, fm_local hlocal θ cf.dim hi]
    rw [hscore, hpy, getD_mapIdx _ _ (hdone.length_py.symm ▸ hi'), dual_local hlocal hmb hi]

/-- A positive and a negative row, with a feature in common. -/
def twoRows : InputBlock UInt64 ℝ :=
  { size := 2, offset := [0, 2, 3], label := [1, 0], weight := none, index := [7, 3, 7]
    value := none }

theorem valid_twoRows : twoRows.Valid where
  length_offset := rfl
  off_le := by decide
  length_label := rfl
  length_index := by decide
  length_value := by
    rintro v ⟨⟩

/-- A worker with embeddings of dimension two. -/
noncomputable def twoDim : Trainer ℝ :=
  { ar := realArith, log := Real.log, team := FM.Loss.twoThreads
    conf := some { EmbeddingConf.off with dim := 2 }, lc := ⟨2, Nat.two_pos⟩
    sort := .merge lessKey_strictWeak, sortExamples := id }

theorem pushes_fm_gradient_twoRows : ∃ out gs,
    twoDim.processMinibatch 5 (fun keys => (model (fun _ => [1, 2, 3]) keys,
      sizes (fun _ => [(1 : ℝ), 2, 3]) keys)) 0 twoRows = some out ∧
      out.val = gs.flatten ∧ gs.map List.length = out.valSiz ∧
      ∀ d : UInt64 → ℕ → ℝ,
        HasDerivAt (fun t => rowLoss twoRows (fmScore 5 2 (movedKeys (fun _ => [1, 2, 3]) d t)))
          (innerKeys d out.feaid gs) 0 := by
  have hplain : Plain realArith { EmbeddingConf.off with dim := 2 } :=
    ⟨by simp [realArith, EmbeddingConf.off], by simp [realArith, EmbeddingConf.off], rfl⟩
  have hmodel : ∑ k ∈ (twoRows.ids.map (localKey 5)).toFinset, [(1 : ℝ), 2, 3].length < 2 ^ 32 := by
    rw [Finset.sum_const]
    decide
  obtain ⟨out, gs, hrun, hval, hlens, -, -, -, -, -, -, hgrad⟩ :=
    pushes_fm_gradient twoDim rfl rfl rfl two_ne_zero hplain 5 (by decide) (fun _ => [1, 2, 3])
      (fun _ => .inr (.inr rfl)) 0 twoRows valid_twoRows rfl (by decide) (by decide) hmodel
  exact ⟨out, gs, hrun, hval, hlens, hgrad⟩

end Trainer

end Difacto.Worker
