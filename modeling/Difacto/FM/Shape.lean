import Difacto.FM.Layout

/-!
# Runs of the loss function

Whatever the numbers are, `Evaluate` and `CalcGrad` return, and `CalcGrad` stores its two
gradients where the model was loaded from. In exact arithmetic these are the gradients of
the factorization machine; here the arithmetic is any.

## Main definitions

* `Loss.Shape` — lengths and positions, as `Load` leaves them.

## Main results

* `Loss.new_shape`, `Loss.evaluate_shape`, `Loss.calcGrad_shape`.
-/

namespace Difacto.FM

open Base Lib

variable {T : Type}

/-- `embedding(0).dim()`, or `0` if there is none. -/
def dimOf : Option (EmbeddingConf T) → ℕ
  | none => 0
  | some cf => cf.dim

/-- `pos` of V. -/
def Data.posV (dim : ℕ) (siz : List ℕ) : List ℕ :=
  if dim = 0 then [] else (embedded dim siz).map (start siz · + 1)

namespace Loss

/-- The shape of a loss function for features with these numbers of elements. -/
structure Shape (dim size : ℕ) (siz : List ℕ) (l : Loss T) : Prop where
  dim_w : l.w.dim = 0
  pos_w : l.w.pos = (List.range siz.length).map (Data.posW siz)
  length_w : l.w.weight.length = siz.length
  size_w : l.w.X.size = size
  dim_V : l.V.dim = dim
  pos_V : l.V.pos = Data.posV dim siz
  length_V : l.V.weight.length = l.V.pos.length * dim
  size_X : l.V.weight ≠ [] → l.V.X.size = size
  size_XX : l.V.weight ≠ [] → l.V.XX.size = size

variable {model : List T} {siz : List ℕ} {dim size : ℕ} {l : Loss T}

theorem Shape.dim_ne (h : l.Shape dim size siz) (hV : l.V.weight ≠ []) : dim ≠ 0 := by
  rintro rfl
  exact hV (List.length_eq_zero_iff.mp (h.length_V.trans (Nat.mul_zero _)))

theorem Shape.save_w (h : l.Shape dim size siz) :
    l.w.weight.length = l.w.pos.length * l.w.width := by
  rw [h.length_w, h.pos_w, List.length_map, List.length_range, Data.width, if_pos h.dim_w,
    Nat.mul_one]

theorem Shape.save_V (h : l.Shape dim size siz) :
    l.V.weight.length = l.V.pos.length * l.V.width := by
  rw [h.length_V, Data.width, h.dim_V]
  split
  · rename_i hdim
    rw [h.pos_V, Data.posV, if_pos hdim, List.length_nil, Nat.zero_mul, Nat.zero_mul]
  · rfl

/-- What the two parts of the model are stored over. -/
theorem Shape.stores [Zero T] (h : l.Shape dim size siz) (hsum : siz.sum < 2 ^ 32) :
    Data.Stores dim siz (l.w.weight.getD · 0)
      (fun f k => l.V.weight.getD (rank dim siz f * dim + k) 0) l.w.writes l.V.writes := by
  refine ⟨fun c => Data.mem_writesW hsum h.dim_w h.pos_w, fun c => ?_⟩
  by_cases hdim : dim = 0
  · have hnone : l.V.writes = [] := by
      rw [Data.writes, h.pos_V, Data.posV, if_pos hdim]
      rfl
    simp [hnone, hdim]
  · refine Data.mem_writesV hsum hdim h.dim_V ?_
    rw [h.pos_V, Data.posV, if_neg hdim]

/-- V as it is loaded. -/
theorem shape_ofV [Zero T] [Mul T] (hdim : dim ≠ 0) (data : RowBlock T) (model : List T)
    (siz : List ℕ) :
    (Data.ofV dim data model siz).dim = dim ∧
      (Data.ofV dim data model siz).pos = Data.posV dim siz ∧
      (Data.ofV dim data model siz).weight = Data.weightV dim model siz ∧
      (Data.weightV dim model siz ≠ [] → (Data.ofV dim data model siz).X.size = data.size ∧
        (Data.ofV dim data model siz).XX.size = data.size) := by
  by_cases hempty : Data.weightV dim model siz = []
  · have hV : Data.ofV dim data model siz = { Data.unset with
        dim := dim, weight := [], pos := (embedded dim siz).map (start siz · + 1) } := by
      rw [Data.ofV, hempty]
      rfl
    rw [hV, Data.posV, if_neg hdim, hempty]
    exact ⟨rfl, rfl, rfl, fun hne => absurd rfl hne⟩
  · rw [Data.ofV, if_neg (by simpa using hempty), Data.posV, if_neg hdim]
    exact ⟨rfl, rfl, rfl, fun _ => ⟨rfl, Data.size_square _⟩⟩

/-- **The constructor returns**, if the model is as long as its parts and short enough. -/
theorem new_shape [Zero T] [Mul T] (conf : Option (EmbeddingConf T)) (data : RowBlock T)
    (hsum : siz.sum = model.length) (hlen : model.length < 2 ^ 32) (hne : siz ≠ []) :
    ∃ l, new conf data model siz = some l ∧ l.py = [] ∧ l.Shape (dimOf conf) data.size siz := by
  have hw : Data.load 0 data model siz = some (Data.ofW data model siz) :=
    Data.loadW_eq data hsum hlen hne
  have hweight : (Data.ofW data model siz).weight.length = siz.length := by
    simp [Data.ofW]
  have hplain : ∀ cf : EmbeddingConf T, Shape 0 data.size siz
      { w := Data.ofW data model siz, V := Data.unset, conf := cf, py := [] } := by
    intro cf
    exact ⟨rfl, rfl, hweight, rfl, rfl, rfl, rfl, fun h => absurd rfl h, fun h => absurd rfl h⟩
  cases conf with
  | none =>
      refine ⟨_, ?_, ?_, hplain .off⟩
      · simp only [new, hw, Option.bind_eq_bind, Option.bind_some]
        rfl
      · rfl
  | some cf =>
      by_cases hdim : cf.dim = 0
      · rw [dimOf, hdim]
        refine ⟨_, ?_, ?_, hplain .off⟩
        · simp only [new, hw, Option.bind_eq_bind, Option.bind_some, if_pos hdim]
          rfl
        · rfl
      · obtain ⟨hdimV, hposV, hweightV, hsizes⟩ := shape_ofV hdim data model siz
        have hV : Data.load cf.dim data model siz = some (Data.ofV cf.dim data model siz) := by
          rw [Data.load, if_neg hdim, Data.loadV_eq data hsum hlen]
        refine ⟨{ w := Data.ofW data model siz, V := Data.ofV cf.dim data model siz, conf := cf,
                  py := [] }, ?_, rfl, rfl, rfl, hweight, rfl, hdimV, hposV, ?_, ?_, ?_⟩
        · simp only [new, hw, hV, Option.bind_eq_bind, Option.bind_some, if_neg hdim]
          rfl
        · rw [hweightV, hposV, Data.length_weightV, Data.posV, if_neg hdim, List.length_map, dimOf]
        · exact fun hne => (hsizes (hweightV ▸ hne)).1
        · exact fun hne => (hsizes (hweightV ▸ hne)).2

theorem length_resize [Zero T] (xs : List T) (n : ℕ) : (resize xs n).length = n := by
  rw [resize, List.length_append, List.length_take, List.length_replicate]
  omega

variable [Zero T] [One T] [Add T] [Sub T] [Mul T] [Neg T] [Div T] [BEq T]

omit [One T] [Neg T] [Div T] [BEq T] in
/-- **`Evaluate` returns.** -/
theorem evaluate_shape (ar : Arith T) (team : Team) (hl : l.Shape dim size siz)
    (hsize : size ≠ 0) : ∃ l', evaluate ar team l = some l' ∧ l'.Shape dim size siz ∧
      l'.py.length = size ∧ (l'.V.weight ≠ [] → l'.V.XV.length = size * dim) := by
  obtain ⟨py, hpy, hlenpy⟩ := SpMV.times_total l.w.X l.w.weight (resize l.py l.w.X.size) team
    (length_resize _ _)
  rw [hl.size_w] at hlenpy
  by_cases hempty : l.V.weight = []
  · refine ⟨{ l with py := py }, ?_, ⟨hl.dim_w, hl.pos_w, hl.length_w, hl.size_w, hl.dim_V,
      hl.pos_V, hl.length_V, hl.size_X, hl.size_XX⟩, hlenpy, fun hne => absurd hempty hne⟩
    simp only [evaluate, hpy, Option.bind_eq_bind, Option.bind_some, hempty, List.isEmpty_nil,
      if_true]
    rfl
  · have hX := hl.size_X hempty
    have hXX := hl.size_XX hempty
    have hnonempty : l.V.weight.isEmpty = false := by simpa using hempty
    have hcheck : (l.V.weight.map fun v => v * v).length = l.V.pos.length * l.V.dim := by
      rw [List.length_map, hl.length_V, hl.dim_V]
    obtain ⟨r, hr, hlenr⟩ := SpMM.times_total l.V.XX (l.V.weight.map fun v => v * v)
      (List.replicate (l.V.X.size * l.V.dim) 0) team (hXX ▸ hsize)
    obtain ⟨XV, hXV, hlenXV⟩ := SpMM.times_total l.V.X l.V.weight (resize l.V.XV r.length) team
      (hX ▸ hsize)
    rw [length_resize, hlenr, List.length_replicate, hX, hl.dim_V] at hlenXV
    refine ⟨{ l with
      V := { l.V with XV := XV }
      py := py.mapIdx fun i p => p + ar.half * (List.range l.V.dim).foldl (fun s j =>
        s + (XV.getD (i * l.V.dim + j) 0 * XV.getD (i * l.V.dim + j) 0 -
          r.getD (i * l.V.dim + j) 0)) 0 }, ?_,
      ⟨hl.dim_w, hl.pos_w, hl.length_w, hl.size_w, hl.dim_V, hl.pos_V, hl.length_V, hl.size_X,
        hl.size_XX⟩, by rw [List.length_mapIdx, hlenpy], fun _ => hlenXV⟩
    simp only [evaluate, hpy, Option.bind_eq_bind, Option.bind_some, hnonempty, Bool.false_eq_true,
      if_false, if_pos hcheck, hr, hXV]
    rfl

omit [BEq T] in
theorem length_preprocess (ar : Arith T) (cf : EmbeddingConf T) (grad : List T) :
    (preprocess ar cf grad).length = grad.length := by
  have hnormalize : ∀ grad, (normalize ar grad).length = grad.length := by
    intro grad
    simp only [normalize]
    split
    · rfl
    · exact List.length_map _
  simp only [preprocess]
  split_ifs <;> simp [hnormalize]

/-- The gradient of V returns, and keeps everything but the numbers. -/
theorem gradV_shape (ar : Arith T) (team : Team) (cf : EmbeddingConf T)
    (hl : l.Shape dim size siz) (hsize : size ≠ 0) (hne : l.V.weight ≠ []) {py : List T}
    (hpy : py.length = size) (hXV : l.V.XV.length = size * dim) :
    ∃ V, gradV ar team cf l.V py = some V ∧ V.dim = l.V.dim ∧ V.pos = l.V.pos ∧
      V.weight.length = l.V.weight.length ∧ V.X = l.V.X ∧ V.XX = l.V.XX := by
  have hdim := hl.dim_ne hne
  obtain ⟨xs, hxs, -⟩ := SpMM.transTimes_total l.V.XX py 1 (List.replicate l.V.pos.length 0) team 0
    [] (hl.size_XX hne ▸ hsize) Nat.one_ne_zero (by rw [hpy, hl.size_XX hne, Nat.mul_one])
  set weight := l.V.weight.mapIdx fun t v => v * -xs.getD (t / l.V.dim) 0 with hweight
  set XV := l.V.XV.mapIdx fun t v => v * py.getD (t / l.V.dim) 0 with hXV'
  have hlenXV : XV.length = l.V.X.size * dim := by
    rw [hXV', List.length_mapIdx, hXV, hl.size_X hne]
  obtain ⟨us, hus, hlenus⟩ := SpMM.transTimes_total l.V.X XV dim weight team 1 weight
    (hl.size_X hne ▸ hsize) hdim hlenXV
  have hcheck : l.V.weight.length = l.V.dim * l.V.pos.length := by
    rw [hl.length_V, hl.dim_V, Nat.mul_comm]
  have hcheck' : l.V.XV.length = py.length * l.V.dim := by rw [hXV, hpy, hl.dim_V]
  refine ⟨{ l.V with weight := preprocess ar cf us, XV := XV }, ?_, rfl, rfl, ?_, rfl, rfl⟩
  · simp only [gradV, hxs, Option.bind_eq_bind, Option.bind_some, if_pos hcheck, if_pos hcheck',
      ← hweight, ← hXV', hus]
    rfl
  · rw [length_preprocess, hlenus, hweight, List.length_mapIdx]

/-- **`CalcGrad` returns**, and stores what w and V hold then. -/
theorem calcGrad_shape (ar : Arith T) (team : Team) (hl : l.Shape dim size siz) (hsize : size ≠ 0)
    (hpy : l.py.length = size) (hXV : l.V.weight ≠ [] → l.V.XV.length = size * dim)
    (grad : List T) : ∃ g l', calcGrad ar team l grad = some (g, l') ∧ l'.Shape dim size siz ∧
      g = assign (assign grad l'.w.writes) l'.V.writes := by
  set py := l.py.mapIdx fun i v => dual ar (l.w.X.label.getD i 0) v with hdual
  have hlenpy : py.length = size := by rw [hdual, List.length_mapIdx, hpy]
  obtain ⟨weight, hweight, hlenw⟩ := SpMV.transTimes_total l.w.X py l.w.weight team
    (hlenpy.trans hl.size_w.symm)
  have hV : ∃ V, (if l.V.weight.isEmpty then some l.V else gradV ar team l.conf l.V py) = some V ∧
      V.dim = l.V.dim ∧ V.pos = l.V.pos ∧ V.weight.length = l.V.weight.length ∧ V.X = l.V.X ∧
        V.XX = l.V.XX := by
    by_cases hempty : l.V.weight = []
    · exact ⟨l.V, if_pos (by simpa using hempty), rfl, rfl, rfl, rfl, rfl⟩
    · rw [if_neg (by simpa using hempty)]
      exact gradV_shape ar team l.conf hl hsize hempty hlenpy (hXV hempty)
  obtain ⟨V, hV, hdimV, hposV, hlenV, hX, hXX⟩ := hV
  have hne : V.weight ≠ [] → l.V.weight ≠ [] := by
    intro h hnil
    rw [hnil, List.length_nil, List.length_eq_zero_iff] at hlenV
    exact h hlenV
  set l' : Loss T := { l with w := { l.w with weight := weight }, V := V, py := py } with hl'
  have hshape : l'.Shape dim size siz := by
    refine ⟨hl.dim_w, hl.pos_w, hlenw.trans hl.length_w, hl.size_w, hdimV.trans hl.dim_V,
      hposV.trans hl.pos_V, ?_, fun h => ?_, fun h => ?_⟩
    · rw [show l'.V = V from rfl, hlenV, hposV, hl.length_V]
    · exact (congrArg RowBlock.size hX).trans (hl.size_X (hne h))
    · exact (congrArg RowBlock.size hXX).trans (hl.size_XX (hne h))
  refine ⟨_, l', calcGrad_eq (hpy.trans hl.size_w.symm) hdual.symm hweight
    (Data.save_eq _ grad hshape.save_w) hV (Data.save_eq V _ hshape.save_V), hshape, rfl⟩

end Loss

end Difacto.FM
