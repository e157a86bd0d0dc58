import Difacto.FM.Layout
import Mathlib.Analysis.SpecialFunctions.Exp
import Mathlib.Analysis.SpecialFunctions.Pow.Real

/-!
# The forward pass

In exact arithmetic `Loss::Evaluate` computes a factorization machine: the weights of the
entries of a row, and the inner products of the embeddings for all pairs of entries. The
code never forms a pair; it combines four sparse products.

## Main definitions

* `fm` — the pairwise definition.
* `Loss.forward` — what the products compute.

## Main results

* `Loss.evaluate_spec` — the products.
* `Loss.forward_pass` — the two are equal.
-/

namespace Difacto.FM

open Base Lib

variable {R : Type} [Field R]

/-- **The factorization machine** of row `i`: features without an embedding take no part
in pairs. -/
def fm (dim : ℕ) (data : RowBlock R) (model : List R) (siz : List ℕ) (i : ℕ) : R :=
  ((data.row i).map fun a => a.2 * weightOf model siz a.1).sum +
    ((pairs (data.row i)).map fun ab =>
      if siz.getD ab.1.1 0 = dim + 1 ∧ siz.getD ab.2.1 0 = dim + 1 then
        ab.1.2 * ab.2.2 *
          ∑ k ∈ Finset.range dim, embOf model siz ab.1.1 k * embOf model siz ab.2.1 k
      else 0).sum

namespace Loss

/-- The entries of a row whose features have an embedding. -/
def rowV (dim : ℕ) (data : RowBlock R) (siz : List ℕ) (i : ℕ) : List (ℕ × R) :=
  (data.row i).filter fun a => siz.getD a.1 0 = dim + 1

/-- X*V. -/
def xv (dim : ℕ) (data : RowBlock R) (model : List R) (siz : List ℕ) (i k : ℕ) : R :=
  ((rowV dim data siz i).map fun a => embOf model siz a.1 k * a.2).sum

/-- (X.*X)*(V.*V). -/
def xxvv (dim : ℕ) (data : RowBlock R) (model : List R) (siz : List ℕ) (i k : ℕ) : R :=
  ((rowV dim data siz i).map fun a =>
    embOf model siz a.1 k * embOf model siz a.1 k * (a.2 * a.2)).sum

/-- X * w + .5 * sum((X*V).^2 - (X.*X)*(V.*V), 2). -/
def forward (half : R) (dim : ℕ) (data : RowBlock R) (model : List R) (siz : List ℕ) (i : ℕ) : R :=
  ((data.row i).map fun a => weightOf model siz a.1 * a.2).sum +
    half * ∑ k ∈ Finset.range dim,
      (xv dim data model siz i k * xv dim data model siz i k - xxvv dim data model siz i k)

/-- **The products form the pairs**: the square of a sum contains every pair twice. -/
theorem forward_eq_fm {half : R} (hhalf : half + half = 1) (dim : ℕ) (data : RowBlock R)
    (model : List R) (siz : List ℕ) (i : ℕ) :
    forward half dim data model siz i = fm dim data model siz i := by
  set f : ℕ → ℕ × R → R := fun k a => embOf model siz a.1 k * a.2 with hf
  have hsq : ∀ k, xv dim data model siz i k * xv dim data model siz i k -
      xxvv dim data model siz i k =
        2 * ((pairs (rowV dim data siz i)).map fun ab => f k ab.1 * f k ab.2).sum := by
    intro k
    have hxxvv : xxvv dim data model siz i k =
        ((rowV dim data siz i).map fun a => f k a * f k a).sum := by
      rw [xxvv]
      congr 1
      exact List.map_congr_left fun a _ => by simp only [hf]; ring
    rw [xv, sq_sum_eq, hxxvv]
    ring
  have hpairs : half * ∑ k ∈ Finset.range dim, (xv dim data model siz i k *
      xv dim data model siz i k - xxvv dim data model siz i k) =
        ((pairs (rowV dim data siz i)).map fun ab => ab.1.2 * ab.2.2 *
          ∑ k ∈ Finset.range dim, embOf model siz ab.1.1 k * embOf model siz ab.2.1 k).sum := by
    simp only [hsq, ← Finset.mul_sum, sum_list_comm]
    rw [← mul_assoc, mul_two, hhalf, one_mul]
    congr 1
    refine List.map_congr_left fun ab _ => ?_
    rw [Finset.mul_sum]
    exact Finset.sum_congr rfl fun k _ => by simp only [hf]; ring
  rw [forward, hpairs, fm, rowV, sum_pairs_filter]
  congr 2
  exact List.map_congr_left fun a _ => mul_comm _ _

/-! ## The code -/

variable {data : RowBlock R} {model : List R} {siz : List ℕ} {cf : EmbeddingConf R}

/-- The loss function after its constructor. -/
def loaded (cf : EmbeddingConf R) (data : RowBlock R) (model : List R) (siz : List ℕ) : Loss R :=
  { w := Data.ofW data model siz, V := Data.ofV cf.dim data model siz, conf := cf, py := [] }

theorem new_eq (hdim : cf.dim ≠ 0) (hsum : siz.sum = model.length) (hne : siz ≠ []) :
    new (some cf) data model siz =
      if model.length < 2 ^ 32 then some (loaded cf data model siz) else none := by
  split
  · rename_i hlen
    simp [new, Data.load, hdim, Data.loadW_eq data hsum hlen hne, Data.loadV_eq data hsum hlen,
      loaded]
  · rename_i hlen
    simp [new, Data.load, Data.loadW_eq_none data hsum (by omega)]

theorem resize_nil (n : ℕ) : resize ([] : List R) n = List.replicate n 0 := by
  simp [resize]

/-- X * w, also where a row is empty. -/
theorem times_weight (team : Team) (data : RowBlock R) (model : List R) (siz : List ℕ) : ∃ py,
    SpMV.times team data ((List.range siz.length).map (weightOf model siz))
        (List.replicate data.size 0) = some py ∧ py.length = data.size ∧
      ∀ i < data.size,
        py.getD i 0 = ((data.row i).map fun a => weightOf model siz a.1 * a.2).sum := by
  have hweight : ∀ f, ((List.range siz.length).map (weightOf model siz)).getD f 0 =
      weightOf model siz f := by
    intro f
    rw [getD_map_range]
    split
    · rfl
    · rw [weightOf, List.getD_eq_default _ _ (by omega), if_pos rfl]
  obtain ⟨py, hpy, hlen, hget⟩ := SpMV.getD_times data
    ((List.range siz.length).map (weightOf model siz)) (List.replicate data.size 0) team (by simp)
  refine ⟨py, hpy, hlen, fun i hi => ?_⟩
  rw [hget i hi]
  simp only [hweight, getD_zeros]
  split
  · rename_i hempty
    rw [RowBlock.row, data.entries_eq_nil hempty]
    rfl
  · rfl

section Embeddings

variable {dim : ℕ}

theorem mem_rowV {i : ℕ} {a : ℕ × R} (ha : a ∈ rowV dim data siz i) :
    siz.getD a.1 0 = dim + 1 := by
  simpa using (List.mem_filter.mp ha).2

/-- The rows of X. -/
theorem row_X (hsum : siz.sum < 2 ^ 32) {i : ℕ} (hi : i < data.size) :
    (Data.pickedBlock data (Data.cols dim siz)).row i =
      (rowV dim data siz i).map fun a => (rank dim siz a.1, a.2) :=
  Data.row_blockV data hsum hi

/-- The rows of XX. -/
theorem row_XX (hsum : siz.sum < 2 ^ 32) {i : ℕ} (hi : i < data.size) :
    (Data.square (Data.pickedBlock data (Data.cols dim siz))).row i =
      (rowV dim data siz i).map fun a => (rank dim siz a.1, a.2 * a.2) := by
  rw [Data.row_square, row_X hsum hi, List.map_map]
  · rfl
  · intro t ht
    have hoff := Data.offset_pickedBlock data (Data.cols dim siz) (le_refl data.size)
    exact hoff ▸ Data.lt_of_mem_entries data _ hi ht

/-- A product looks up what a dense matrix has for the features of a row. -/
theorem times_picked (team : Team) {D : RowBlock R} {x y : List R} (g : ℕ → ℕ → R)
    (c : ℕ × R → R) (hD : D.size = data.size) (hsize : data.size ≠ 0) (hx : x ≠ [])
    (hy : y.length = data.size * dim) (hsum : siz.sum < 2 ^ 32)
    (hrow : ∀ i < data.size, D.row i =
      (rowV dim data siz i).map fun a => (rank dim siz a.1, c a))
    (hget : ∀ f k, siz.getD f 0 = dim + 1 → k < dim →
      x.getD (rank dim siz f * dim + k) 0 = g f k) :
    ∃ y', SpMM.times team D x y = some y' ∧ y'.length = data.size * dim ∧
      ∀ i < data.size, ∀ k < dim, y'.getD (i * dim + k) 0 =
        ((rowV dim data siz i).map fun a => g a.1 k * c a).sum := by
  obtain ⟨y', hy', hlen, hval⟩ := SpMM.getD_times D x dim y team (hD ▸ hsize) hx (hD ▸ hy)
  refine ⟨y', hy', hD ▸ hlen, fun i hi k hk => ?_⟩
  rw [hval i (hD ▸ hi) k hk, hrow i hi, List.map_map]
  congr 1
  refine List.map_congr_left fun a ha => ?_
  have hemb := mem_rowV ha
  rw [Function.comp_apply, Data.addr_rank hsum (Nat.le_succ dim) hemb, hget a.1 k hemb hk]

/-- X*V. -/
theorem times_X (team : Team) (data : RowBlock R) (hsize : data.size ≠ 0) (hsum : siz.sum < 2 ^ 32)
    (hne : Data.weightV dim model siz ≠ []) :
    ∃ y, SpMM.times team (Data.pickedBlock data (Data.cols dim siz)) (Data.weightV dim model siz)
        (List.replicate (data.size * dim) 0) = some y ∧ y.length = data.size * dim ∧
      ∀ i < data.size, ∀ k < dim, y.getD (i * dim + k) 0 = xv dim data model siz i k := by
  refine times_picked team (embOf model siz) Prod.snd rfl hsize hne (by simp) hsum ?_ ?_
  · exact fun i hi => row_X hsum hi
  · exact fun f k hf hk => Data.getD_weightV model hf hk

/-- (X.*X)*(V.*V). -/
theorem times_XX (team : Team) (data : RowBlock R) (hsize : data.size ≠ 0) (hsum : siz.sum < 2 ^ 32)
    (hne : Data.weightV dim model siz ≠ []) :
    ∃ y, SpMM.times team (Data.square (Data.pickedBlock data (Data.cols dim siz)))
        ((Data.weightV dim model siz).map fun v => v * v)
        (List.replicate (data.size * dim) 0) = some y ∧ y.length = data.size * dim ∧
      ∀ i < data.size, ∀ k < dim, y.getD (i * dim + k) 0 = xxvv dim data model siz i k := by
  have hx : (Data.weightV dim model siz).map (fun v => v * v) ≠ [] := by simpa using hne
  refine times_picked team (fun f k => embOf model siz f k * embOf model siz f k)
    (fun a => a.2 * a.2) (Data.size_square _) hsize hx (by simp) hsum ?_ ?_
  · exact fun i hi => row_XX hsum hi
  · intro f k hf hk
    rw [getD_map_of_zero _ (fun v => v * v) (mul_zero 0), Data.getD_weightV model hf hk]

omit [Field R] in
theorem embedded_eq_nil [Zero R] (hdim : dim ≠ 0) (hempty : Data.weightV dim model siz = []) :
    embedded dim siz = [] := by
  have hlen := Data.length_weightV dim model siz
  rw [hempty, List.length_nil] at hlen
  exact List.length_eq_zero_iff.mp ((Nat.mul_eq_zero.mp hlen.symm).resolve_right hdim)

/-- Without embeddings no row has an entry with one. -/
theorem rowV_eq_nil (hdim : dim ≠ 0) (hempty : Data.weightV dim model siz = []) (i : ℕ) :
    rowV dim data siz i = [] := by
  rw [rowV, List.filter_eq_nil_iff]
  intro a _ hemb
  have hmem : a.1 ∈ embedded dim siz := mem_embedded.mpr (by simpa using hemb)
  rw [embedded_eq_nil hdim hempty] at hmem
  cases hmem

end Embeddings

/-- The loss function after `Evaluate`. -/
def evaluated (cf : EmbeddingConf R) (data : RowBlock R) (model : List R) (siz : List ℕ)
    (py XV : List R) : Loss R :=
  { loaded cf data model siz with V := { Data.ofV cf.dim data model siz with XV := XV }, py := py }

/-- What `Evaluate` leaves: the prediction, and X*V for the gradient. -/
structure Evaluated (half : R) (cf : EmbeddingConf R) (data : RowBlock R) (model : List R)
    (siz : List ℕ) (py XV : List R) : Prop where
  length_py : py.length = data.size
  py_eq : ∀ i < data.size, py.getD i 0 = forward half cf.dim data model siz i
  length_XV : Data.weightV cf.dim model siz ≠ [] → XV.length = data.size * cf.dim
  XV_eq : Data.weightV cf.dim model siz ≠ [] → ∀ i < data.size, ∀ k < cf.dim,
    XV.getD (i * cf.dim + k) 0 = xv cf.dim data model siz i k

/-- **`Evaluate`.** -/
theorem evaluate_spec (ar : Arith R) (team : Team) (model : List R) (hdim : cf.dim ≠ 0)
    (hsize : data.size ≠ 0) (hsum : siz.sum < 2 ^ 32) : ∃ py XV,
    evaluate ar team (loaded cf data model siz) = some (evaluated cf data model siz py XV) ∧
      Evaluated ar.half cf data model siz py XV := by
  obtain ⟨py, hpy, hlen, hget⟩ := times_weight team data model siz
  by_cases hempty : Data.weightV cf.dim model siz = []
  · refine ⟨py, [], ?_, hlen, fun i hi => ?_, fun hne => absurd hempty hne,
      fun hne => absurd hempty hne⟩
    · simp only [evaluated, evaluate, loaded, Data.ofW, Data.ofV, hempty, resize_nil, hpy,
        Option.bind_eq_bind, Option.bind_some]
      rfl
    · rw [hget i hi, forward]
      simp [xv, xxvv, rowV_eq_nil hdim hempty]
  · obtain ⟨r, hr, hlenr, hgetr⟩ := times_XX team data hsize hsum hempty
    obtain ⟨XV, hXV, hlenXV, hgetXV⟩ := times_X team data hsize hsum hempty
    have hV : Data.ofV cf.dim data model siz =
        { dim := cf.dim, X := Data.pickedBlock data (Data.cols cf.dim siz),
          XX := Data.square (Data.pickedBlock data (Data.cols cf.dim siz)), XV := [],
          weight := Data.weightV cf.dim model siz,
          pos := (embedded cf.dim siz).map (start siz · + 1) } :=
      if_neg (by simpa using hempty)
    have hpicked : (Data.pickedBlock data (Data.cols cf.dim siz)).size = data.size := rfl
    have hcheck : ((Data.weightV cf.dim model siz).map fun v => v * v).length =
        ((embedded cf.dim siz).map (start siz · + 1)).length * cf.dim := by
      rw [List.length_map, List.length_map, Data.length_weightV]
    have hnonempty : (Data.weightV cf.dim model siz).isEmpty = false := by simpa using hempty
    refine ⟨py.mapIdx fun i p => p + ar.half * (List.range cf.dim).foldl (fun s j => s +
      (XV.getD (i * cf.dim + j) 0 * XV.getD (i * cf.dim + j) 0 - r.getD (i * cf.dim + j) 0)) 0,
      XV, ?_, ?_, ?_, fun _ => hlenXV, fun _ => hgetXV⟩
    · simp only [evaluated, evaluate, loaded, Data.ofW, hV, resize_nil, hpy, hpicked, hnonempty,
        hr, hlenr, hXV, Option.bind_eq_bind, Option.bind_some, Bool.false_eq_true, if_false,
        if_pos hcheck]
      rfl
    · rw [List.length_mapIdx, hlen]
    · intro i hi
      have hi' : i < py.length := by rwa [hlen]
      have hget' : (py.mapIdx fun i p => p + ar.half * (List.range cf.dim).foldl (fun s j => s +
          (XV.getD (i * cf.dim + j) 0 * XV.getD (i * cf.dim + j) 0 -
            r.getD (i * cf.dim + j) 0)) 0).getD i 0 =
          py.getD i 0 + ar.half * (List.range cf.dim).foldl (fun s j => s +
            (XV.getD (i * cf.dim + j) 0 * XV.getD (i * cf.dim + j) 0 -
              r.getD (i * cf.dim + j) 0)) 0 := getD_mapIdx py _ hi'
      rw [hget', hget i hi, foldl_add, zero_add, sum_range_list, forward]
      congr 2
      refine Finset.sum_congr rfl fun k hk => ?_
      rw [hgetXV i hi k (Finset.mem_range.mp hk), hgetr i hi k (Finset.mem_range.mp hk)]

/-- `Evaluate` as a function of the model. -/
def evaluateAt [BEq R] (ar : Arith R) (team : Team) (cf : EmbeddingConf R) (data : RowBlock R)
    (siz : List ℕ) (model : List R) : Option (Loss R) :=
  (new (some cf) data model siz).bind (evaluate ar team)

theorem evaluateAt_spec [BEq R] (ar : Arith R) (team : Team) (hdim : cf.dim ≠ 0)
    (hsize : data.size ≠ 0) (hne : siz ≠ []) (hsum : siz.sum = model.length)
    (hlen : model.length < 2 ^ 32) : ∃ py XV,
    evaluateAt ar team cf data siz model = some (evaluated cf data model siz py XV) ∧
      Evaluated ar.half cf data model siz py XV := by
  have hlt : siz.sum < 2 ^ 32 := hsum ▸ hlen
  obtain ⟨py, XV, hrun, hdone⟩ := evaluate_spec ar team model hdim hsize hlt
  refine ⟨py, XV, ?_, hdone⟩
  rw [evaluateAt, new_eq hdim hsum hne, if_pos hlen, Option.bind_some, hrun]

/-- **`Evaluate` predicts with the factorization machine.** For every model whose positions
fit into `unsigned` the run returns; a longer one does not get past the `CHECK` of `Load`. -/
theorem forward_pass [BEq R] (ar : Arith R) (hhalf : ar.half + ar.half = 1) (team : Team)
    (_ : data.Valid siz.length) (hsize : data.size ≠ 0) (hdim : cf.dim ≠ 0) (hne : siz ≠ [])
    (hsum : siz.sum = model.length) :
    (model.length < 2 ^ 32 → ∃ l, evaluateAt ar team cf data siz model = some l ∧
      l.py.length = data.size ∧
      ∀ i < data.size, l.py.getD i 0 = fm cf.dim data model siz i) ∧
    (2 ^ 32 ≤ model.length → evaluateAt ar team cf data siz model = none) := by
  refine ⟨fun hlen => ?_, fun hlen => ?_⟩
  · obtain ⟨py, XV, hrun, hdone⟩ := evaluateAt_spec ar team hdim hsize hne hsum hlen
    refine ⟨_, hrun, hdone.length_py, fun i hi => ?_⟩
    exact (hdone.py_eq i hi).trans (forward_eq_fm hhalf cf.dim data model siz i)
  · rw [evaluateAt, new_eq hdim hsum hne, if_neg (by omega), Option.bind_none]

/-- Real arithmetic; `rand` always returns 0. -/
noncomputable def realArith : Arith ℝ where
  half := 0.5
  tiny := 1 / 10 ^ 10
  exp := Real.exp
  sqrt := Real.sqrt
  lt a b := decide (a < b)
  rand _ := 0

/-- Two threads. -/
def twoThreads : Team := { Rounding.exact with nt := 2, nt_pos := by decide, nt_lt := by decide }

/-- A row with feature 0 twice, and an empty row. -/
def repeated : RowBlock ℝ :=
  { size := 2, offset := [0, 4, 4], label := [1, 0], index := [0, 1, 0, 2],
    value := some [1, 1 + 1, 1 + 1 + 1, 1] }

theorem repeated_valid : repeated.Valid 3 where
  length_offset := rfl
  offset_mono := by decide
  length_label := rfl
  length_index := by decide
  length_value := by
    rintro v ⟨rfl⟩
    decide
  col_lt := by decide

theorem forward_pass_repeated : ∃ l,
    evaluateAt realArith twoThreads { EmbeddingConf.off with dim := 2 } repeated [3, 3, 1]
        [1, 1, 2, 3, 0, 1, 5] = some l ∧
      l.py.length = 2 ∧ l.py.getD 0 0 = 46 ∧ l.py.getD 1 0 = 0 := by
  have hmodel : [3, 3, 1].sum = [1, 1, 2, 3, 0, 1, (5 : ℝ)].length := rfl
  have hdim : ({ EmbeddingConf.off with dim := 2 } : EmbeddingConf ℝ).dim ≠ 0 := by decide
  obtain ⟨l, hrun, hlen, hpy⟩ := (forward_pass realArith (by norm_num [realArith]) twoThreads
    repeated_valid (by decide) hdim (by decide) hmodel).1 (by simp)
  have hrow : repeated.row 0 = [(0, 1), (1, 1 + 1), (0, 1 + 1 + 1), (2, 1)] := rfl
  refine ⟨l, hrun, hlen, (hpy 0 (by decide)).trans ?_, (hpy 1 (by decide)).trans ?_⟩
  · norm_num [fm, hrow, pairs, weightOf, embOf, start, Finset.sum_range_succ]
  · have hempty : repeated.row 1 = [] := rfl
    simp [fm, hempty, pairs]

end Loss

end Difacto.FM
