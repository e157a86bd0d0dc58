import Difacto.Base.Inside
import Difacto.FM.Forward
import Difacto.FM.Shape

/-!
# The addresses of the embeddings

`SpMM` multiplies the number of a feature by `dim` in 32 bits. The only check is the one at
the end of `Data::Load`, of the length of the whole model; it is enough, because the
features are renumbered to those with an embedding, and each of them has `dim + 1` elements
in the model.

`Evaluate` and `CalcGrad` are taken with the products of `SpMM` as a parameter: with the
products of the source they are the functions of `FM.Loss`, and with those of
`Base.Inside` a product that wraps or an element outside its array ends the run.

## Main results

* `Loss.addresses_exact` — the two runs are the same.
-/

namespace Difacto.FM

open Base Lib

variable {T : Type}

namespace Data

variable [Zero T] [Mul T]

/-- The features of `XX` are those of `X`. -/
theorem inside_square {X : RowBlock T} {d n : ℕ} (h : SpMM.Inside X d n) :
    SpMM.Inside (square X) d n := by
  cases hv : X.value with
  | none => simpa only [square, hv] using h
  | some v =>
      simp only [square, hv]
      exact h

omit [Mul T] in
/-- **The rows that `X` selects**, for the embeddings and for one element a feature. -/
theorem inside_pickedBlock [One T] {dim d : ℕ} {siz : List ℕ} (data : RowBlock T)
    (hsum : siz.sum < 2 ^ 32) (hd : d ≤ dim + 1) :
    SpMM.Inside (pickedBlock data (cols dim siz)) d ((embedded dim siz).length * d) := by
  intro i hi j hj
  have hmem : ((pickedBlock data (cols dim siz)).col j, (pickedBlock data (cols dim siz)).coef j) ∈
      (pickedBlock data (cols dim siz)).row i := List.mem_map_of_mem hj
  rw [row_blockV data hsum hi, List.mem_map] at hmem
  obtain ⟨a, ha, heq⟩ := hmem
  have hemb : siz.getD a.1 0 = dim + 1 := by simpa using (List.mem_filter.mp ha).2
  have hrank := rank_lt (mem_embedded.mpr hemb)
  rw [← length_embedded] at hrank
  have hcol : rank dim siz a.1 = (pickedBlock data (cols dim siz)).col j := congrArg Prod.fst heq
  rw [← hcol, ← Nat.succ_mul]
  exact ⟨addr_rank hsum hd hemb, Nat.mul_le_mul_right d hrank⟩

end Data

namespace Loss

section Code

variable [Zero T] [One T] [Add T] [Sub T] [Mul T] [Neg T] [Div T] [BEq T]

/-- `Evaluate`, with the product that it uses. -/
def evaluateWith (times : Team → RowBlock T → List T → List T → Option (List T)) (ar : Arith T)
    (team : Team) (l : Loss T) : Option (Loss T) := do
  let py ← SpMV.times team l.w.X l.w.weight (resize l.py l.w.X.size)
  if l.V.weight.isEmpty then return { l with py := py }
  else
    let dim := l.V.dim
    let vv := l.V.weight.map fun v => v * v
    if vv.length = l.V.pos.length * dim then
      let xxvv ← times team l.V.XX vv (List.replicate (l.V.X.size * dim) 0)
      let XV ← times team l.V.X l.V.weight (resize l.V.XV xxvv.length)
      let py := py.mapIdx fun i p => p + ar.half * (List.range dim).foldl (fun s j =>
        s + (XV.getD (i * dim + j) 0 * XV.getD (i * dim + j) 0 - xxvv.getD (i * dim + j) 0)) 0
      return { l with V := { l.V with XV := XV }, py := py }
    else none

/-- `gradV`, with the product that it uses. -/
def gradVWith (transTimes : Team → RowBlock T → List T → T → List T → List T → Option (List T))
    (ar : Arith T) (team : Team) (cf : EmbeddingConf T) (V : Data T) (py : List T) :
    Option (Data T) := do
  let dim := V.dim
  let m := V.pos.length
  let xxp ← transTimes team V.XX py 0 [] (List.replicate m 0)
  if V.weight.length = dim * m then
    let weight := V.weight.mapIdx fun t v => v * -xxp.getD (t / dim) 0
    if V.XV.length = py.length * dim then
      let XV := V.XV.mapIdx fun t v => v * py.getD (t / dim) 0
      let weight ← transTimes team V.X XV 1 weight weight
      return { V with weight := preprocess ar cf weight, XV := XV }
    else none
  else none

/-- `CalcGrad`, with the product that it uses. -/
def calcGradWith
    (transTimes : Team → RowBlock T → List T → T → List T → List T → Option (List T))
    (ar : Arith T) (team : Team) (l : Loss T) (grad : List T) : Option (List T × Loss T) := do
  if l.py.length = l.w.X.size then
    let py := l.py.mapIdx fun i v => dual ar (l.w.X.label.getD i 0) v
    let weight ← SpMV.transTimes team l.w.X py l.w.weight
    let w := { l.w with weight := weight }
    let grad ← w.save grad
    let V ← if l.V.weight.isEmpty then some l.V else gradVWith transTimes ar team l.conf l.V py
    let grad ← V.save grad
    return (grad, { l with w := w, V := V, py := py })
  else none

/-- `Evaluate` inside the arrays. -/
def evaluateInside (ar : Arith T) (team : Team) (l : Loss T) : Option (Loss T) :=
  evaluateWith SpMM.timesInside ar team l

/-- `CalcGrad` inside the arrays. -/
def calcGradInside (ar : Arith T) (team : Team) (l : Loss T) (grad : List T) :
    Option (List T × Loss T) :=
  calcGradWith SpMM.transTimesInside ar team l grad

omit [One T] [Neg T] [Div T] [BEq T] in
theorem evaluateWith_times (ar : Arith T) (team : Team) (l : Loss T) :
    evaluateWith SpMM.times ar team l = evaluate ar team l := rfl

theorem calcGradWith_transTimes (ar : Arith T) (team : Team) (l : Loss T) (grad : List T) :
    calcGradWith SpMM.transTimes ar team l grad = calcGrad ar team l grad := rfl

end Code

/-- What `Load` leaves for the products: the blocks have the rows of the data, and select
rows of V, and elements of an array with one element for each embedding. -/
structure Addressed (l : Loss T) : Prop where
  size_X : l.V.X.size = l.w.X.size
  size_XX : l.V.XX.size = l.w.X.size
  inside_X : SpMM.Inside l.V.X l.V.dim l.V.weight.length
  inside_XX : SpMM.Inside l.V.XX l.V.dim l.V.weight.length
  inside_one : SpMM.Inside l.V.XX 1 l.V.pos.length

section Runs

variable [Zero T] [One T] [Add T] [Sub T] [Mul T] [Neg T] [Div T] [BEq T] {ar : Arith T}
  {team : Team} {l l₁ : Loss T}

omit [One T] [Neg T] [Div T] [BEq T] in
/-- `Evaluate` changes the prediction and X*V. -/
theorem evaluate_keeps (h : evaluate ar team l = some l₁) :
    ∃ XV py, l₁ = { l with V := { l.V with XV := XV }, py := py } := by
  simp only [evaluate, Option.bind_eq_bind, Option.bind_eq_some_iff] at h
  obtain ⟨py, -, h⟩ := h
  split at h
  · exact ⟨l.V.XV, py, (Option.some.inj h).symm⟩
  · split at h
    · simp only [Option.bind_eq_some_iff] at h
      obtain ⟨xxvv, -, XV, -, h⟩ := h
      exact ⟨XV, _, (Option.some.inj h).symm⟩
    · cases h

omit [One T] [Neg T] [Div T] [BEq T] in
/-- **`Evaluate`** touches nothing else. -/
theorem evaluateInside_eq (h : l.V.weight ≠ [] → l.Addressed) :
    evaluateInside ar team l = evaluate ar team l := by
  rw [evaluateInside, ← evaluateWith_times, evaluateWith, evaluateWith]
  refine Option.bind_congr fun py _ => ?_
  split
  · rfl
  · next hne =>
    obtain ⟨hX, hXX, hinX, hinXX, -⟩ := h (by simpa using hne)
    simp only
    split
    · have hvv : SpMM.Inside l.V.XX ((List.replicate (l.V.X.size * l.V.dim) (0 : T)).length /
          l.V.XX.size) (l.V.weight.map fun v => v * v).length := by
        rw [List.length_map]
        exact hinXX.of_length (by rw [List.length_replicate, hX, hXX])
      rw [SpMM.timesInside_eq team hvv]
      refine Option.bind_congr fun xxvv hxxvv => ?_
      have hlen : (resize l.V.XV xxvv.length).length = l.V.X.size * l.V.dim := by
        rw [length_resize, SpMM.length_of_times hxxvv, List.length_replicate]
      rw [SpMM.timesInside_eq team (hinX.of_length hlen)]
    · rfl

/-- **`CalcGrad`** touches nothing else. -/
theorem calcGradInside_eq (h : l.V.weight ≠ [] → l.Addressed) (grad : List T) :
    calcGradInside ar team l grad = calcGrad ar team l grad := by
  have hgradV : ∀ py : List T, l.V.weight ≠ [] → py.length = l.w.X.size →
      gradVWith SpMM.transTimesInside ar team l.conf l.V py =
        gradVWith SpMM.transTimes ar team l.conf l.V py := by
    intro py hne hpy
    obtain ⟨hX, hXX, hinX, -, hone⟩ := h hne
    have hlenpy : py.length = l.V.XX.size * 1 := by rw [hpy, hXX, Nat.mul_one]
    have hxxp : SpMM.Inside l.V.XX (py.length / l.V.XX.size)
        (List.replicate l.V.pos.length (0 : T)).length := by
      rw [List.length_replicate]
      exact hone.of_length hlenpy
    rw [gradVWith, gradVWith]
    simp only [SpMM.transTimesInside_eq team 0 [] hxxp]
    refine Option.bind_congr fun xxp _ => ?_
    split
    · split
      · next hXV =>
        have hlenXV : l.V.XV.length = l.V.X.size * l.V.dim := by rw [hXV, hpy, hX]
        rw [SpMM.transTimesInside_eq team 1 _ ?_]
        rw [List.length_mapIdx, List.length_mapIdx]
        exact hinX.of_length hlenXV
      · rfl
    · rfl
  rw [calcGradInside, ← calcGradWith_transTimes, calcGradWith, calcGradWith]
  split
  · next hlen =>
    refine Option.bind_congr fun weight _ => Option.bind_congr fun grad _ => ?_
    simp only [Option.bind_eq_bind]
    split
    · rfl
    · next hne => rw [hgradV _ (by simpa using hne) (by rw [List.length_mapIdx, hlen])]
  · rfl

end Runs

/-! ## From `Load` on -/

section Load

variable {model : List T} {siz : List ℕ} {data : RowBlock T} {conf : Option (EmbeddingConf T)}
  {l : Loss T}

/-- **The check bounds the model**: the positions of a longer one would have wrapped. -/
theorem length_lt_of_new [Zero T] [Mul T] (hsum : siz.sum = model.length)
    (hload : new conf data model siz = some l) : model.length < 2 ^ 32 := by
  by_contra hge
  have hnone : Data.load 0 data model siz = none := Data.loadW_eq_none data hsum (by omega)
  rw [new, hnone] at hload
  cases hload

/-- What is loaded, if there are embeddings. -/
theorem new_V [Zero T] [Mul T] (hsum : siz.sum = model.length)
    (hload : new conf data model siz = some l) (hne : l.V.weight ≠ []) :
    l.w.X = data ∧ l.V = Data.ofV (dimOf conf) data model siz ∧
      Data.weightV (dimOf conf) model siz ≠ [] := by
  have hlen := length_lt_of_new hsum hload
  obtain ⟨w, hw, hload⟩ := Option.bind_eq_some_iff.mp hload
  cases conf with
  | none =>
      obtain rfl := Option.some.inj hload
      exact absurd rfl hne
  | some cf =>
      simp only at hload
      split at hload
      · obtain rfl := Option.some.inj hload
        exact absurd rfl hne
      · next hdim =>
        have hV : Data.load cf.dim data model siz = some (Data.ofV cf.dim data model siz) := by
          rw [Data.load, if_neg hdim, Data.loadV_eq data hsum hlen]
        rw [hV] at hload
        obtain rfl := Option.some.inj hload
        have hweight : Data.weightV cf.dim model siz ≠ [] := by
          rw [← (shape_ofV hdim data model siz).2.2.1]
          exact hne
        have hsiz : siz ≠ [] := by
          rintro rfl
          exact hweight rfl
        have hX : Data.load 0 data model siz = some (Data.ofW data model siz) :=
          Data.loadW_eq data hsum hlen hsiz
        obtain rfl := Option.some.inj (hX.symm.trans hw)
        exact ⟨rfl, rfl, hweight⟩

theorem new_addressed [Zero T] [One T] [Mul T] (hsum : siz.sum = model.length)
    (hload : new conf data model siz = some l) (hne : l.V.weight ≠ []) : l.Addressed := by
  have hlt : siz.sum < 2 ^ 32 := hsum ▸ length_lt_of_new hsum hload
  obtain ⟨hX, hV, hweight⟩ := new_V hsum hload hne
  have hofV : Data.ofV (dimOf conf) data model siz =
      { dim := dimOf conf, X := Data.pickedBlock data (Data.cols (dimOf conf) siz),
        XX := Data.square (Data.pickedBlock data (Data.cols (dimOf conf) siz)), XV := [],
        weight := Data.weightV (dimOf conf) model siz,
        pos := (embedded (dimOf conf) siz).map (start siz · + 1) } := by
    rw [Data.ofV, if_neg (by simpa using hweight)]
  have hin := Data.inside_pickedBlock data hlt (Nat.le_succ (dimOf conf))
  have hone := Data.inside_pickedBlock data hlt (Nat.succ_le_succ (Nat.zero_le (dimOf conf)))
  rw [← Data.length_weightV _ model] at hin
  refine ⟨?_, ?_, ?_, ?_, ?_⟩ <;> rw [hV, hofV]
  · rw [hX]
    rfl
  · rw [hX]
    exact Data.size_square _
  · exact hin
  · exact Data.inside_square hin
  · rw [List.length_map]
    rw [Nat.mul_one] at hone
    exact Data.inside_square hone

variable [Zero T] [One T] [Add T] [Sub T] [Mul T] [Neg T] [Div T] [BEq T]

/-- **No address wraps and none is outside its array.** For everything that `Load` accepts,
the products with `dim` are the true ones and select rows of V. The runs that stop at a
wrapped product, or at an element outside `V.weight`, `vv`, `XV` or `xxp`, are the runs of
`Evaluate` and `CalcGrad`, and these return. -/
theorem addresses_exact (ar : Arith T) (team : Team) (_ : data.Valid siz.length)
    (hsum : siz.sum = model.length) (hload : new conf data model siz = some l) :
    (l.V.weight ≠ [] → l.Addressed) ∧ evaluateInside ar team l = evaluate ar team l ∧
      (∀ l₁, evaluate ar team l = some l₁ → ∀ grad,
        calcGradInside ar team l₁ grad = calcGrad ar team l₁ grad) ∧
      (data.size ≠ 0 → siz ≠ [] → ∃ l₁, evaluate ar team l = some l₁ ∧
        ∀ grad, ∃ g l₂, calcGrad ar team l₁ grad = some (g, l₂)) := by
  have haddr := new_addressed hsum hload
  refine ⟨haddr, evaluateInside_eq haddr, fun l₁ hrun grad => ?_, fun hsize hne => ?_⟩
  · obtain ⟨XV, py, rfl⟩ := evaluate_keeps hrun
    refine calcGradInside_eq (fun hne => ?_) grad
    obtain ⟨hX, hXX, hinX, hinXX, hone⟩ := haddr hne
    exact ⟨hX, hXX, hinX, hinXX, hone⟩
  · obtain ⟨l', hload', -, hshape⟩ :=
      new_shape conf data hsum (length_lt_of_new hsum hload) hne
    obtain rfl := Option.some.inj (hload.symm.trans hload')
    obtain ⟨l₁, hrun, hshape₁, hpy, hXV⟩ := evaluate_shape ar team hshape hsize
    refine ⟨l₁, hrun, fun grad => ?_⟩
    obtain ⟨g, l₂, hgrad, -⟩ := calcGrad_shape ar team hshape₁ hsize hpy hXV grad
    exact ⟨g, l₂, hgrad⟩

end Load

theorem addresses_exact_repeated :
    (loaded { EmbeddingConf.off with dim := 2 } repeated [1, 1, 2, 3, 0, 1, 5]
      [3, 3, 1]).Addressed ∧ ∃ l₁ : Loss ℝ,
    evaluateInside realArith twoThreads (loaded { EmbeddingConf.off with dim := 2 } repeated
      [1, 1, 2, 3, 0, 1, 5] [3, 3, 1]) = some l₁ ∧
    ∀ grad, ∃ g l₂, calcGradInside realArith twoThreads l₁ grad = some (g, l₂) := by
  have hmodel : [3, 3, 1].sum = [1, 1, 2, 3, 0, 1, (5 : ℝ)].length := rfl
  have hdim : ({ EmbeddingConf.off with dim := 2 } : EmbeddingConf ℝ).dim ≠ 0 := by decide
  have hload : new (some { EmbeddingConf.off with dim := 2 }) repeated [1, 1, 2, 3, 0, 1, 5]
      [3, 3, 1] = some (loaded { EmbeddingConf.off with dim := 2 } repeated
        [1, 1, 2, 3, 0, 1, 5] [3, 3, 1]) := by
    rw [new_eq hdim hmodel (by decide), if_pos (by simp)]
  obtain ⟨haddr, heval, hgrad, hruns⟩ :=
    addresses_exact realArith twoThreads repeated_valid hmodel hload
  obtain ⟨l₁, hrun, hall⟩ := hruns (by decide) (by decide)
  have hembedded : (Data.weightV 2 [1, 1, 2, 3, 0, 1, (5 : ℝ)] [3, 3, 1]) ≠ [] := by
    rw [← List.length_pos_iff, Data.length_weightV]
    decide
  have hweight : (loaded { EmbeddingConf.off with dim := 2 } repeated [1, 1, 2, 3, 0, 1, 5]
      [3, 3, 1]).V.weight ≠ [] := by
    rw [← (shape_ofV hdim repeated _ _).2.2.1] at hembedded
    exact hembedded
  refine ⟨haddr hweight, l₁, heval.trans hrun, fun grad => ?_⟩
  obtain ⟨g, l₂, hsome⟩ := hall grad
  exact ⟨g, l₂, (hgrad l₁ hrun grad).trans hsome⟩

end Loss

end Difacto.FM
