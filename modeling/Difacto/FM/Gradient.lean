import Difacto.FM.Forward

/-!
# The gradient

`Loss::CalcGrad` writes the derivative of the forward pass, weighted by the dual values of
the rows: in every direction, the vector it writes is the first-order coefficient of what
`Evaluate` computes. The gradient of V is assembled in place: `V.weight` is the input and
the output of the last product.

## Main definitions

* `Loss.gradW`, `Loss.gradU` — what the products compute.
* `Loss.moved` — a model moved along a direction.

## Main results

* `Loss.calcGrad_spec` — what is written where.
* `Loss.forward_moved` — the forward pass along a direction.
* `Loss.gradient` — the two together.
-/

namespace Difacto.FM.Loss

open Base Lib

variable {R : Type} [Field R]

/-- X' * p. -/
def gradW (data : RowBlock R) (p : ℕ → R) (f : ℕ) : R :=
  ∑ i ∈ Finset.range data.size,
    ((data.row i).map fun a => if a.1 = f then p i * a.2 else 0).sum

/-- (X.*X)' * p. -/
def xxp (dim : ℕ) (data : RowBlock R) (siz : List ℕ) (p : ℕ → R) (f : ℕ) : R :=
  ∑ i ∈ Finset.range data.size,
    ((rowV dim data siz i).map fun a => if a.1 = f then p i * (a.2 * a.2) else 0).sum

/-- X' * diag(p) * X * V - diag((X.*X)'*p) * V. -/
def gradU (dim : ℕ) (data : RowBlock R) (model : List R) (siz : List ℕ) (p : ℕ → R)
    (f k : ℕ) : R :=
  ∑ i ∈ Finset.range data.size, ((rowV dim data siz i).map fun a =>
      if a.1 = f then xv dim data model siz i k * p i * a.2 else 0).sum -
    embOf model siz f k * xxp dim data siz p f

/-! ## The code -/

section Code

variable [BEq R] {data : RowBlock R} {model : List R} {siz : List ℕ} {cf : EmbeddingConf R}
  {dim : ℕ}

/-- A transposed product with the picked columns, at a feature with an embedding. -/
theorem transTimes_picked (team : Team) (data D : RowBlock R) (x z y : List R) {d : ℕ}
    (c : ℕ × R → R) (hD : D.size = data.size) (hsize : data.size ≠ 0) (hd : d ≠ 0)
    (hle : d ≤ dim + 1) (hx : x.length = data.size * d)
    (hy : y.length = (embedded dim siz).length * d) (hsum : siz.sum < 2 ^ 32)
    (hrow : ∀ i < data.size, D.row i =
      (rowV dim data siz i).map fun a => (rank dim siz a.1, c a)) (q : R) :
    ∃ y', SpMM.transTimes team D x q z y = some y' ∧ y'.length = y.length ∧
      ∀ f, siz.getD f 0 = dim + 1 → ∀ k < d, y'.getD (rank dim siz f * d + k) 0 =
        (if z.length = y.length ∧ (q != 0) = true then z.getD (rank dim siz f * d + k) 0 * q
          else 0) +
          ∑ i ∈ Finset.range data.size, ((rowV dim data siz i).map fun a =>
            if a.1 = f then x.getD (i * d + k) 0 * c a else 0).sum := by
  have haddr : ∀ i < D.size, ∀ a ∈ D.row i, SpMM.addr a.1 d = a.1 * d := by
    intro i hi a ha
    rw [hrow i (hD ▸ hi)] at ha
    obtain ⟨b, hb, rfl⟩ := List.mem_map.mp ha
    exact Data.addr_rank hsum hle (mem_rowV hb)
  obtain ⟨y', hrun, hlen, hget⟩ := SpMM.getD_transTimes D x d y team q z (hD ▸ hsize) hd
    (hD ▸ hx) haddr hy
  refine ⟨y', hrun, hlen, fun f hf k hk => ?_⟩
  have hrank := rank_lt (mem_embedded.mpr hf)
  rw [← length_embedded] at hrank
  rw [hget _ hrank k hk, hD]
  congr 1
  refine Finset.sum_congr rfl fun i hi => ?_
  rw [hrow i (Finset.mem_range.mp hi), List.map_map]
  congr 1
  refine List.map_congr_left fun a ha => ?_
  simp only [Function.comp_apply, rank_inj (mem_rowV ha) hf]

/-- (X.*X)' * p has one element for each embedding. -/
theorem transTimes_XX [LawfulBEq R] (team : Team) (dim : ℕ) (hsize : data.size ≠ 0)
    (hsum : siz.sum < 2 ^ 32) {py : List R} (hpy : py.length = data.size) :
    ∃ xs, SpMM.transTimes team (Data.square (Data.pickedBlock data (Data.cols dim siz))) py 0 []
        (List.replicate (embedded dim siz).length 0) = some xs ∧
      ∀ f, siz.getD f 0 = dim + 1 →
        xs.getD (rank dim siz f) 0 = xxp dim data siz (py.getD · 0) f := by
  have hsq : (Data.square (Data.pickedBlock data (Data.cols dim siz))).size = data.size :=
    Data.size_square _
  have hx : py.length = data.size * 1 := by rw [hpy, Nat.mul_one]
  have hy : (List.replicate (embedded dim siz).length (0 : R)).length =
      (embedded dim siz).length * 1 := by rw [List.length_replicate, Nat.mul_one]
  obtain ⟨xs, hxs, -, hget⟩ := transTimes_picked team data
    (Data.square (Data.pickedBlock data (Data.cols dim siz))) py []
    (List.replicate (embedded dim siz).length 0) (fun a => a.2 * a.2) hsq hsize Nat.one_ne_zero
    (Nat.succ_le_succ (Nat.zero_le dim)) hx hy hsum (fun i hi => row_XX hsum hi) 0
  refine ⟨xs, hxs, fun f hf => ?_⟩
  have h := hget f hf 0 Nat.one_pos
  rw [if_neg (by simp), zero_add, Nat.mul_one, Nat.add_zero] at h
  simpa only [xxp, Nat.mul_one, Nat.add_zero] using h

/-- Clipping, dropout and normalisation are off. -/
structure Plain (ar : Arith R) (cf : EmbeddingConf R) : Prop where
  clipping : ar.lt 0 cf.gradClipping = false
  dropout : ar.lt 0 cf.dropout = false
  normalization : cf.gradNormalization = false

omit [BEq R] in
theorem Plain.preprocess_eq {ar : Arith R} (h : Plain ar cf) (grad : List R) :
    preprocess ar cf grad = grad := by
  simp [preprocess, h.clipping, h.dropout, h.normalization]

omit [Field R] [BEq R] in
/-- The row of an element. -/
theorem row_div {e d k : ℕ} (hk : k < d) : (e * d + k) / d = e := by
  rw [Nat.mul_comm, Nat.mul_add_div (by omega), Nat.div_eq_of_lt hk, Nat.add_zero]

omit [Field R] [BEq R] in
theorem row_lt {e m d k : ℕ} (he : e < m) (hk : k < d) : e * d + k < m * d :=
  calc e * d + k < (e + 1) * d := by rw [Nat.add_mul, Nat.one_mul]; omega
    _ ≤ m * d := Nat.mul_le_mul_right d he

/-- **The gradient of V.** -/
theorem gradV_spec [LawfulBEq R] {ar : Arith R} (hplain : Plain ar cf) (team : Team)
    (hdim : cf.dim ≠ 0) (hsize : data.size ≠ 0) (hsum : siz.sum < 2 ^ 32)
    (hne : Data.weightV cf.dim model siz ≠ []) {py XV : List R} (hpy : py.length = data.size)
    (hlen : XV.length = data.size * cf.dim)
    (hXV : ∀ i < data.size, ∀ k < cf.dim,
      XV.getD (i * cf.dim + k) 0 = xv cf.dim data model siz i k) :
    ∃ V', gradV ar team cf { Data.ofV cf.dim data model siz with XV := XV } py = some V' ∧
      V'.dim = cf.dim ∧ V'.pos = (embedded cf.dim siz).map (start siz · + 1) ∧
      V'.weight.length = (embedded cf.dim siz).length * cf.dim ∧
      ∀ f, siz.getD f 0 = cf.dim + 1 → ∀ k < cf.dim,
        V'.weight.getD (rank cf.dim siz f * cf.dim + k) 0 =
          gradU cf.dim data model siz (py.getD · 0) f k := by
  have hV : ({ Data.ofV cf.dim data model siz with XV := XV } : Data R) =
      { dim := cf.dim, X := Data.pickedBlock data (Data.cols cf.dim siz),
        XX := Data.square (Data.pickedBlock data (Data.cols cf.dim siz)), XV := XV,
        weight := Data.weightV cf.dim model siz,
        pos := (embedded cf.dim siz).map (start siz · + 1) } := by
    rw [Data.ofV, if_neg (by simpa using hne)]
  have hpos : ((embedded cf.dim siz).map (start siz · + 1)).length =
      (embedded cf.dim siz).length := by
    rw [List.length_map]
  have hweight := Data.length_weightV cf.dim model siz
  obtain ⟨xs, hxs, hxxp⟩ := transTimes_XX team cf.dim hsize hsum hpy
  set weight := (Data.weightV cf.dim model siz).mapIdx fun t v => v * -xs.getD (t / cf.dim) 0
    with hweight'
  set XV' := XV.mapIdx fun t v => v * py.getD (t / cf.dim) 0 with hXV'
  have hlenw : weight.length = (embedded cf.dim siz).length * cf.dim := by
    rw [hweight', List.length_mapIdx, hweight]
  obtain ⟨us, hus, hlenus, hgetus⟩ := transTimes_picked team data
    (Data.pickedBlock data (Data.cols cf.dim siz)) XV' weight weight Prod.snd rfl hsize hdim
    (Nat.le_succ cf.dim) (by rw [hXV', List.length_mapIdx, hlen]) hlenw hsum
    (fun i hi => row_X hsum hi) 1
  refine ⟨{ dim := cf.dim, X := Data.pickedBlock data (Data.cols cf.dim siz), weight := us,
            XX := Data.square (Data.pickedBlock data (Data.cols cf.dim siz)), XV := XV',
            pos := (embedded cf.dim siz).map (start siz · + 1) }, ?_, rfl, rfl, ?_,
    fun f hf k hk => ?_⟩
  · have hcheck : (Data.weightV cf.dim model siz).length =
        cf.dim * (embedded cf.dim siz).length := by
      rw [hweight, Nat.mul_comm]
    have hcheck' : XV.length = py.length * cf.dim := by rw [hlen, hpy]
    rw [hV, gradV]
    simp only [hpos, hxs, Option.bind_eq_bind, Option.bind_some, if_pos hcheck, if_pos hcheck',
      ← hweight', ← hXV', hus, hplain.preprocess_eq]
    rfl
  · rw [hlenus, hlenw]
  · have hrank := rank_lt (mem_embedded.mpr hf)
    rw [← length_embedded] at hrank
    have hw : weight.getD (rank cf.dim siz f * cf.dim + k) 0 =
        embOf model siz f k * -xxp cf.dim data siz (py.getD · 0) f := by
      have hlt : rank cf.dim siz f * cf.dim + k < (Data.weightV cf.dim model siz).length := by
        rw [hweight]
        exact row_lt hrank hk
      rw [hweight', getD_mapIdx _ _ hlt, row_div hk, Data.getD_weightV model hf hk, hxxp f hf]
    have hx : ∀ i < data.size, XV'.getD (i * cf.dim + k) 0 =
        xv cf.dim data model siz i k * py.getD i 0 := by
      intro i hi
      rw [hXV', getD_mapIdx _ _ (by rw [hlen]; exact row_lt hi hk), row_div hk, hXV i hi k hk]
    have hone : ((1 : R) != 0) = true := by simp
    have hsums : ∑ i ∈ Finset.range data.size, ((rowV cf.dim data siz i).map fun a =>
        if a.1 = f then XV'.getD (i * cf.dim + k) 0 * a.2 else 0).sum =
        ∑ i ∈ Finset.range data.size, ((rowV cf.dim data siz i).map fun a =>
          if a.1 = f then xv cf.dim data model siz i k * py.getD i 0 * a.2 else 0).sum :=
      Finset.sum_congr rfl fun i hi => by rw [hx i (Finset.mem_range.mp hi)]
    rw [hgetus f hf k hk, if_pos ⟨rfl, hone⟩, hw, hsums, gradU]
    ring

/-- V after its gradient is computed, also when there are no embeddings. -/
theorem gradV_total [LawfulBEq R] {ar : Arith R} (hplain : Plain ar cf) (team : Team)
    (hdim : cf.dim ≠ 0) (hsize : data.size ≠ 0) (hsum : siz.sum < 2 ^ 32) {half : R}
    {py XV p : List R} (hp : p.length = data.size) (h : Evaluated half cf data model siz py XV) :
    ∃ V', (if (evaluated cf data model siz py XV).V.weight.isEmpty then
          some (evaluated cf data model siz py XV).V
        else gradV ar team cf (evaluated cf data model siz py XV).V p) = some V' ∧
      V'.dim = cf.dim ∧ V'.pos = (embedded cf.dim siz).map (start siz · + 1) ∧
      V'.weight.length = (embedded cf.dim siz).length * cf.dim ∧
      ∀ f, siz.getD f 0 = cf.dim + 1 → ∀ k < cf.dim,
        V'.weight.getD (rank cf.dim siz f * cf.dim + k) 0 =
          gradU cf.dim data model siz (p.getD · 0) f k := by
  by_cases hempty : Data.weightV cf.dim model siz = []
  · have hnone : embedded cf.dim siz = [] := embedded_eq_nil hdim hempty
    have hV : (evaluated cf data model siz py XV).V =
        { Data.unset with
          dim := cf.dim, pos := (embedded cf.dim siz).map (start siz · + 1), XV := XV } := by
      simp only [evaluated, Data.ofV, hempty, List.isEmpty_nil, if_true]
      rfl
    rw [hV]
    refine ⟨_, if_pos rfl, rfl, rfl, ?_, fun f hf => ?_⟩
    · rw [hnone, List.length_nil, Nat.zero_mul]
      rfl
    · have hmem : f ∈ embedded cf.dim siz := mem_embedded.mpr hf
      rw [hnone] at hmem
      cases hmem
  · have hweight : (evaluated cf data model siz py XV).V.weight.isEmpty = false := by
      simp [evaluated, Data.ofV, hempty]
    rw [hweight, if_neg (by simp)]
    exact gradV_spec hplain team hdim hsize hsum hempty hp (h.length_XV hempty) (h.XV_eq hempty)

/-- **`CalcGrad`.** -/
theorem calcGrad_spec [LawfulBEq R] {ar : Arith R} (hplain : Plain ar cf) (team : Team)
    (hdim : cf.dim ≠ 0) (hsize : data.size ≠ 0) (hsum : siz.sum < 2 ^ 32) {half : R}
    {py XV : List R} (h : Evaluated half cf data model siz py XV) (grad : List R) :
    ∃ g l', calcGrad ar team (evaluated cf data model siz py XV) grad = some (g, l') ∧
      l'.py = py.mapIdx (fun i v => dual ar (data.label.getD i 0) v) ∧
      ∃ ws vs, Data.Stores cf.dim siz (gradW data (l'.py.getD · 0))
          (gradU cf.dim data model siz (l'.py.getD · 0)) ws vs ∧ g = assign (assign grad ws) vs := by
  set p := py.mapIdx fun i v => dual ar (data.label.getD i 0) v with hp
  have hlenp : p.length = data.size := by rw [hp, List.length_mapIdx, h.length_py]
  obtain ⟨weight, hweight, hlen, hget⟩ := SpMV.getD_transTimes data p
    ((List.range siz.length).map (weightOf model siz)) team hlenp
  obtain ⟨V', hV', hdimV, hposV, hlenV, hgetV⟩ := gradV_total hplain team hdim hsize hsum hlenp h
  set w' : Data R := { Data.ofW data model siz with weight := weight } with hw'
  have hlenw : w'.weight.length = w'.pos.length * w'.width := by
    simp only [hw', Data.ofW, Data.width, if_true, Nat.mul_one, List.length_map, hlen]
  have hwidthV : V'.width = cf.dim := by rw [Data.width, hdimV, if_neg hdim]
  have hlenV' : V'.weight.length = V'.pos.length * V'.width := by
    rw [hlenV, hposV, List.length_map, hwidthV]
  refine ⟨assign (assign grad w'.writes) V'.writes,
    { evaluated cf data model siz py XV with w := w', V := V', py := p }, ?_, rfl, w'.writes,
    V'.writes, ⟨fun c => ?_, fun c => ?_⟩, rfl⟩
  · exact calcGrad_eq h.length_py rfl hweight (Data.save_eq w' grad hlenw) hV'
      (Data.save_eq V' (assign grad w'.writes) hlenV')
  · rw [Data.mem_writesW hsum rfl rfl]
    refine exists_congr fun f => and_congr_right fun hf => ?_
    have hlt : f < siz.length := by
      by_contra hge
      exact hf (List.getD_eq_default _ _ (by omega))
    rw [show w'.weight.getD f 0 = gradW data (p.getD · 0) f from hget f (by simpa using hlt)]
  · rw [Data.mem_writesV hsum hdim hdimV hposV]
    refine exists₂_congr fun f k => and_congr_right fun hf => and_congr_right fun hk => ?_
    rw [hgetV f hf k hk]

end Code

/-! ## Along a direction -/

section Direction

variable {data : RowBlock R} {model : List R} {siz : List ℕ} {dim : ℕ}

/-- The model, moved by `ε` along `d`. -/
def moved (model : List R) (d : ℕ → R) (ε : R) : List R := model.mapIdx fun s m => m + ε * d s

/-- The weights of a direction. -/
def dirW (siz : List ℕ) (d : ℕ → R) (f : ℕ) : R :=
  if siz.getD f 0 = 0 then 0 else d (start siz f)

/-- The embeddings of a direction. -/
def dirV (siz : List ℕ) (d : ℕ → R) (f k : ℕ) : R := d (start siz f + 1 + k)

theorem weightOf_moved (hsum : siz.sum = model.length) (d : ℕ → R) (ε : R) (f : ℕ) :
    weightOf (moved model d ε) siz f = weightOf model siz f + ε * dirW siz d f := by
  rw [weightOf, weightOf, dirW]
  split
  · rw [mul_zero, add_zero]
  · have hle : start siz f + siz.getD f 0 ≤ siz.sum := start_add_le
    rw [moved, getD_mapIdx _ _ (by omega)]

theorem embOf_moved (hsum : siz.sum = model.length) (d : ℕ → R) (ε : R) {f k : ℕ}
    (hf : siz.getD f 0 = dim + 1) (hk : k < dim) :
    embOf (moved model d ε) siz f k = embOf model siz f k + ε * dirV siz d f k := by
  have hle : start siz f + siz.getD f 0 ≤ siz.sum := start_add_le
  rw [embOf, embOf, moved, getD_mapIdx _ _ (by omega), dirV]

/-- X * the embeddings of a direction. -/
def xd (dim : ℕ) (data : RowBlock R) (siz : List ℕ) (d : ℕ → R) (i k : ℕ) : R :=
  ((rowV dim data siz i).map fun a => dirV siz d a.1 k * a.2).sum

/-- The first-order coefficient of (X.*X)*(V.*V), halved. -/
def xxvd (dim : ℕ) (data : RowBlock R) (model : List R) (siz : List ℕ) (d : ℕ → R) (i k : ℕ) : R :=
  ((rowV dim data siz i).map fun a =>
    embOf model siz a.1 k * dirV siz d a.1 k * (a.2 * a.2)).sum

/-- The second-order coefficient of (X.*X)*(V.*V). -/
def xxdd (dim : ℕ) (data : RowBlock R) (siz : List ℕ) (d : ℕ → R) (i k : ℕ) : R :=
  ((rowV dim data siz i).map fun a =>
    dirV siz d a.1 k * dirV siz d a.1 k * (a.2 * a.2)).sum

theorem xv_moved (hsum : siz.sum = model.length) (d : ℕ → R) (ε : R) (i : ℕ) {k : ℕ}
    (hk : k < dim) : xv dim data (moved model d ε) siz i k =
      xv dim data model siz i k + ε * xd dim data siz d i k := by
  rw [xv, xv, xd, ← List.sum_map_mul_left, ← List.sum_map_add]
  congr 1
  refine List.map_congr_left fun a ha => ?_
  rw [embOf_moved hsum d ε (mem_rowV ha) hk]
  ring

theorem xxvv_moved (hsum : siz.sum = model.length) (d : ℕ → R) (ε : R) (i : ℕ) {k : ℕ}
    (hk : k < dim) : xxvv dim data (moved model d ε) siz i k =
      xxvv dim data model siz i k + ε * (2 * xxvd dim data model siz d i k) +
        ε ^ 2 * xxdd dim data siz d i k := by
  rw [xxvv, xxvv, xxvd, xxdd, ← List.sum_map_mul_left, ← List.sum_map_mul_left,
    ← List.sum_map_mul_left, ← List.sum_map_add, ← List.sum_map_add]
  congr 1
  refine List.map_congr_left fun a ha => ?_
  rw [embOf_moved hsum d ε (mem_rowV ha) hk]
  ring

/-- How fast the prediction of row `i` grows. -/
def slope (dim : ℕ) (data : RowBlock R) (model : List R) (siz : List ℕ) (d : ℕ → R) (i : ℕ) : R :=
  ((data.row i).map fun a => dirW siz d a.1 * a.2).sum +
    ∑ k ∈ Finset.range dim,
      (xv dim data model siz i k * xd dim data siz d i k - xxvd dim data model siz d i k)

/-- **The forward pass along a direction** is a polynomial of degree two. -/
theorem forward_moved {half : R} (hhalf : half + half = 1) (hsum : siz.sum = model.length)
    (d : ℕ → R) (ε : R) (i : ℕ) : forward half dim data (moved model d ε) siz i =
      forward half dim data model siz i + ε * slope dim data model siz d i +
        ε ^ 2 * (half * ∑ k ∈ Finset.range dim,
          (xd dim data siz d i k ^ 2 - xxdd dim data siz d i k)) := by
  have hw : ((data.row i).map fun a => weightOf (moved model d ε) siz a.1 * a.2).sum =
      ((data.row i).map fun a => weightOf model siz a.1 * a.2).sum +
        ε * ((data.row i).map fun a => dirW siz d a.1 * a.2).sum := by
    rw [← List.sum_map_mul_left, ← List.sum_map_add]
    congr 1
    refine List.map_congr_left fun a _ => ?_
    rw [weightOf_moved hsum]
    ring
  have hV : ∑ k ∈ Finset.range dim, (xv dim data (moved model d ε) siz i k *
      xv dim data (moved model d ε) siz i k - xxvv dim data (moved model d ε) siz i k) =
      ∑ k ∈ Finset.range dim, (xv dim data model siz i k * xv dim data model siz i k -
        xxvv dim data model siz i k) +
      ε * 2 * ∑ k ∈ Finset.range dim, (xv dim data model siz i k * xd dim data siz d i k -
        xxvd dim data model siz d i k) +
      ε ^ 2 * ∑ k ∈ Finset.range dim, (xd dim data siz d i k ^ 2 - xxdd dim data siz d i k) := by
    rw [Finset.mul_sum, Finset.mul_sum, ← Finset.sum_add_distrib, ← Finset.sum_add_distrib]
    refine Finset.sum_congr rfl fun k hk => ?_
    rw [xv_moved hsum d ε i (Finset.mem_range.mp hk),
      xxvv_moved hsum d ε i (Finset.mem_range.mp hk)]
    ring
  have htwo : half * 2 = 1 := by rw [mul_two, hhalf]
  rw [forward, forward, slope, hw, hV]
  linear_combination (ε * ∑ k ∈ Finset.range dim,
    (xv dim data model siz i k * xd dim data siz d i k - xxvd dim data model siz d i k)) * htwo

theorem gradU_eq_zero (p : ℕ → R) {f : ℕ} (hf : siz.getD f 0 ≠ dim + 1) (k : ℕ) :
    gradU dim data model siz p f k = 0 := by
  have hnone : ∀ (i : ℕ) (c : ℕ × R → R),
      ((rowV dim data siz i).map fun a => if a.1 = f then c a else 0).sum = 0 := by
    intro i c
    refine List.sum_eq_zero fun v hv => ?_
    obtain ⟨a, ha, rfl⟩ := List.mem_map.mp hv
    exact if_neg fun (heq : a.1 = f) => hf (heq ▸ mem_rowV ha)
  simp only [gradU, xxp, hnone, Finset.sum_const_zero, mul_zero, sub_zero]

section Rows

variable (hdata : data.Valid siz.length)

include hdata

theorem row_key_lt {i : ℕ} (hi : i < data.size) {a : ℕ × R} (ha : a ∈ data.row i) :
    a.1 < siz.length := by
  obtain ⟨j, hj, rfl⟩ := List.mem_map.mp ha
  exact hdata.col_lt i hi j hj

theorem sum_gradW (p d : ℕ → R) :
    ∑ f ∈ Finset.range siz.length, gradW data p f * dirW siz d f =
      ∑ i ∈ Finset.range data.size,
        p i * ((data.row i).map fun a => dirW siz d a.1 * a.2).sum := by
  have htrans := sum_transpose data.row Prod.fst (fun i a => p i * a.2) (dirW siz d)
    fun i hi a ha => row_key_lt hdata hi ha
  refine htrans.trans (Finset.sum_congr rfl fun i _ => ?_)
  rw [← List.sum_map_mul_left]
  congr 1
  exact List.map_congr_left fun a _ => by ring

theorem sum_gradU (p d : ℕ → R) (k : ℕ) :
    ∑ f ∈ Finset.range siz.length, gradU dim data model siz p f k * dirV siz d f k =
      ∑ i ∈ Finset.range data.size, p i * (xv dim data model siz i k * xd dim data siz d i k -
        xxvd dim data model siz d i k) := by
  have hkey : ∀ i < data.size, ∀ a ∈ rowV dim data siz i, a.1 < siz.length :=
    fun i hi a ha => row_key_lt hdata hi (List.mem_of_mem_filter ha)
  have hxv := sum_transpose (rowV dim data siz) Prod.fst
    (fun i a => xv dim data model siz i k * p i * a.2) (dirV siz d · k) hkey
  have hxx := sum_transpose (rowV dim data siz) Prod.fst (fun i a => p i * (a.2 * a.2))
    (fun f => embOf model siz f k * dirV siz d f k) hkey
  have hsplit : ∀ f, gradU dim data model siz p f k * dirV siz d f k =
      (∑ i ∈ Finset.range data.size, ((rowV dim data siz i).map fun a =>
          if a.1 = f then xv dim data model siz i k * p i * a.2 else 0).sum) * dirV siz d f k -
        xxp dim data siz p f * (embOf model siz f k * dirV siz d f k) := by
    intro f
    rw [gradU]
    ring
  simp only [hsplit, Finset.sum_sub_distrib, xxp]
  rw [hxv, hxx, ← Finset.sum_sub_distrib]
  refine Finset.sum_congr rfl fun i _ => ?_
  rw [xd, xxvd, mul_sub, ← List.sum_map_mul_left, ← List.sum_map_mul_left, ← List.sum_map_mul_left]
  congr 2
  · exact List.map_congr_left fun a _ => by ring
  · exact List.map_congr_left fun a _ => by ring

/-- The products are the transposes of the slopes. -/
theorem sum_slope (p d : ℕ → R) :
    ∑ i ∈ Finset.range data.size, p i * slope dim data model siz d i =
      ∑ f ∈ Finset.range siz.length, (gradW data p f * dirW siz d f +
        ∑ k ∈ Finset.range dim, gradU dim data model siz p f k * dirV siz d f k) := by
  rw [Finset.sum_add_distrib, sum_gradW hdata, Finset.sum_comm,
    Finset.sum_congr rfl fun k _ => sum_gradU hdata p d k, Finset.sum_comm,
    ← Finset.sum_add_distrib]
  refine Finset.sum_congr rfl fun i _ => ?_
  rw [slope, mul_add, Finset.mul_sum]

end Rows

/-- **What is written, along a direction.** The sizes leave no element unwritten. -/
theorem sum_stored (hdim : dim ≠ 0) (hsiz : ∀ s ∈ siz, s = 0 ∨ s = 1 ∨ s = dim + 1)
    {grad : List R} (hgrad : grad.length = siz.sum) {p : ℕ → R} {ws vs : List (ℕ × R)}
    (h : Data.Stores dim siz (gradW data p) (gradU dim data model siz p) ws vs) (d : ℕ → R) :
    ∑ s ∈ Finset.range siz.sum, (assign (assign grad ws) vs).getD s 0 * d s =
      ∑ f ∈ Finset.range siz.length, (gradW data p f * dirW siz d f +
        ∑ k ∈ Finset.range dim, gradU dim data model siz p f k * dirV siz d f k) := by
  rw [← start_length, sum_elements]
  refine Finset.sum_congr rfl fun f hf => ?_
  have hmem : siz.getD f 0 ∈ siz := by
    rw [List.getD_eq_getElem _ _ (Finset.mem_range.mp hf)]
    exact List.getElem_mem _
  have hnone : siz.getD f 0 ≠ dim + 1 →
      ∑ k ∈ Finset.range dim, gradU dim data model siz p f k * dirV siz d f k = 0 :=
    fun hne => Finset.sum_eq_zero fun k _ => by rw [gradU_eq_zero p hne, zero_mul]
  rcases hsiz _ hmem with hzero | hone | hemb
  · rw [hnone (by omega), hzero, Finset.range_zero, Finset.sum_empty, dirW, if_pos hzero, mul_zero,
      add_zero]
  · have hf0 : siz.getD f 0 ≠ 0 := by omega
    rw [hnone (by omega), hone, Finset.sum_range_one, Nat.add_zero, h.getD_weight hgrad hf0, dirW,
      if_neg hf0, add_zero]
  · have hf0 : siz.getD f 0 ≠ 0 := by omega
    rw [hemb, Finset.sum_range_succ', Nat.add_zero, h.getD_weight hgrad hf0, dirW, if_neg hf0,
      add_comm]
    congr 1
    refine Finset.sum_congr rfl fun k hk => ?_
    rw [show start siz f + (k + 1) = start siz f + 1 + k by omega,
      h.getD_emb hgrad hemb (Finset.mem_range.mp hk), dirV]

end Direction

/-! ## The gradient -/

variable {data : RowBlock R} {model : List R} {siz : List ℕ} {cf : EmbeddingConf R}

/-- **`CalcGrad` writes the derivative of `Evaluate`.** `l'.py` are the dual values; along
every direction `d` their product with the predictions has the inner product of `d` and the
written vector as its first-order coefficient. -/
theorem gradient [BEq R] [LawfulBEq R] (ar : Arith R) (hhalf : ar.half + ar.half = 1) (team : Team)
    (hplain : Plain ar cf) (hdata : data.Valid siz.length) (hsize : data.size ≠ 0)
    (hdim : cf.dim ≠ 0) (hne : siz ≠ []) (hsiz : ∀ s ∈ siz, s = 0 ∨ s = 1 ∨ s = cf.dim + 1)
    (hsum : siz.sum = model.length) (grad : List R) (hgrad : grad.length = model.length) :
    (model.length < 2 ^ 32 → ∃ l g l', evaluateAt ar team cf data siz model = some l ∧
      calcGrad ar team l grad = some (g, l') ∧ g.length = model.length ∧
      (∀ i < data.size, l'.py.getD i 0 = dual ar (data.label.getD i 0) (l.py.getD i 0)) ∧
      ∀ d : ℕ → R, ∃ q, ∀ ε, ∃ lε, evaluateAt ar team cf data siz (moved model d ε) = some lε ∧
        ∑ i ∈ Finset.range data.size, l'.py.getD i 0 * lε.py.getD i 0 =
          ∑ i ∈ Finset.range data.size, l'.py.getD i 0 * l.py.getD i 0 +
            ε * ∑ s ∈ Finset.range model.length, g.getD s 0 * d s + ε ^ 2 * q) ∧
    (2 ^ 32 ≤ model.length → evaluateAt ar team cf data siz model = none) := by
  refine ⟨fun hlen => ?_, fun hlen => ?_⟩
  · have hlt : siz.sum < 2 ^ 32 := hsum ▸ hlen
    obtain ⟨py, XV, hrun, hdone⟩ := evaluateAt_spec ar team hdim hsize hne hsum hlen
    obtain ⟨g, l', hgradient, hpy, ws, vs, hstores, rfl⟩ :=
      calcGrad_spec hplain team hdim hsize hlt hdone grad
    refine ⟨_, _, l', hrun, hgradient, by simp [hgrad], fun i hi => ?_, fun d => ?_⟩
    · have hi' : i < py.length := by rwa [hdone.length_py]
      rw [hpy]
      exact getD_mapIdx py _ hi'
    · refine ⟨∑ i ∈ Finset.range data.size, l'.py.getD i 0 * (ar.half *
        ∑ k ∈ Finset.range cf.dim, (xd cf.dim data siz d i k ^ 2 - xxdd cf.dim data siz d i k)),
        fun ε => ?_⟩
      have hmoved : (moved model d ε).length = model.length := by rw [moved, List.length_mapIdx]
      obtain ⟨pyε, XVε, hrunε, hdoneε⟩ := evaluateAt_spec ar team hdim hsize hne
        (hsum.trans hmoved.symm) (hmoved ▸ hlen)
      refine ⟨_, hrunε, ?_⟩
      have hstored := sum_stored hdim hsiz (hgrad.trans hsum.symm) hstores d
      rw [← hsum, hstored, ← sum_slope hdata, Finset.mul_sum, Finset.mul_sum,
        ← Finset.sum_add_distrib, ← Finset.sum_add_distrib]
      refine Finset.sum_congr rfl fun i hi => ?_
      have hi' := Finset.mem_range.mp hi
      have hpyε : (evaluated cf data (moved model d ε) siz pyε XVε).py.getD i 0 =
          forward ar.half cf.dim data (moved model d ε) siz i := hdoneε.py_eq i hi'
      have hpy₀ : (evaluated cf data model siz py XV).py.getD i 0 =
          forward ar.half cf.dim data model siz i := hdone.py_eq i hi'
      rw [hpyε, hpy₀, forward_moved hhalf hsum]
      ring
  · rw [evaluateAt, new_eq hdim hsum hne, if_neg (by omega), Option.bind_none]

theorem gradient_repeated : ∃ l g l',
    evaluateAt realArith twoThreads { EmbeddingConf.off with dim := 2 } repeated [3, 3, 1]
        [1, 1, 2, 3, 0, 1, 5] = some l ∧
      calcGrad realArith twoThreads l [1, 1, 2, 3, 0, 1, 5] = some (g, l') ∧ g.length = 7 ∧
      ∀ d : ℕ → ℝ, ∃ q, ∀ ε, ∃ lε,
        evaluateAt realArith twoThreads { EmbeddingConf.off with dim := 2 } repeated [3, 3, 1]
          (moved [1, 1, 2, 3, 0, 1, 5] d ε) = some lε ∧
        ∑ i ∈ Finset.range 2, l'.py.getD i 0 * lε.py.getD i 0 =
          ∑ i ∈ Finset.range 2, l'.py.getD i 0 * l.py.getD i 0 +
            ε * ∑ s ∈ Finset.range 7, g.getD s 0 * d s + ε ^ 2 * q := by
  have hmodel : [3, 3, 1].sum = [1, 1, 2, 3, 0, 1, (5 : ℝ)].length := rfl
  have hdim : ({ EmbeddingConf.off with dim := 2 } : EmbeddingConf ℝ).dim ≠ 0 := by decide
  have hplain : Plain realArith { EmbeddingConf.off with dim := 2 } :=
    ⟨by simp [realArith, EmbeddingConf.off], by simp [realArith, EmbeddingConf.off], rfl⟩
  obtain ⟨l, g, l', hrun, hgrad, hlen, -, hdir⟩ := (gradient realArith (by norm_num [realArith])
    twoThreads hplain repeated_valid (by decide) hdim (by decide) (by decide) hmodel
    [1, 1, 2, 3, 0, 1, 5] rfl).1 (by simp)
  exact ⟨l, g, l', hrun, hgrad, hlen, hdir⟩

end Difacto.FM.Loss
