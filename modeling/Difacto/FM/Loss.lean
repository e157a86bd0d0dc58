import Difacto.Base.SpMM

/-!
# The loss function

`Loss` of `difacto/loss.h`: it evaluates a factorization machine on a minibatch and
writes its gradient over the model that was pulled. `Data` holds the data and one part of
the model, the weights `w` (`dim == 0`) or the embeddings `V` (`dim >= 1`). A failed
`CHECK` is `none`.

The number type `T` is any type with the operations used; `Arith` has the literals and
the functions of `cmath`. The objective values that `Evaluate` also reports are left out.

## Main definitions

* `Data.load`, `Data.save`.
* `Loss.new`, `Loss.evaluate`, `Loss.calcGrad`.
-/

namespace Difacto.FM

open Base Lib

variable {T : Type}

/-- Literals and library functions. -/
structure Arith (T : Type) where
  /-- `.5` -/
  half : T
  /-- `1e-10` -/
  tiny : T
  exp : T → T
  sqrt : T → T
  lt : T → T → Bool
  /-- the values of `(T)rand() / RAND_MAX` to come -/
  rand : ℕ → T

/-- `(unsigned)-1`. -/
def noPos : ℕ := 2 ^ 32 - 1

/-- Data and model w (dim==0) or V (dim >= 1). -/
structure Data (T : Type) where
  dim : ℕ
  X : RowBlock T
  /-- XX = X.*X -/
  XX : RowBlock T
  weight : List T
  pos : List ℕ
  XV : List T

namespace Data

/-- A block that is not set. -/
def unsetBlock : RowBlock T := { size := 0, offset := [], label := [], index := [], value := none }

/-- Before `Load`. -/
def unset : Data T :=
  { dim := 0, X := unsetBlock, XX := unsetBlock, weight := [], pos := [], XV := [] }

section Scan

variable [Zero T]

/-- What the loop over `model_siz` fills for w; `p` is an `unsigned`. -/
structure ScanW (T : Type) where
  pos : List ℕ
  weight : List T
  p : ℕ

/-- One feature. -/
def scanW (model : List T) (st : ScanW T) (siz : ℕ) : ScanW T :=
  if siz = 0 then { st with pos := st.pos ++ [noPos], weight := st.weight ++ [0] }
  else
    { pos := st.pos ++ [st.p]
      weight := st.weight ++ [model.getD st.p 0]
      p := (st.p + siz) % 2 ^ 32 }

/-- What the loop over `model_siz` fills for V; `k` and `p` are `unsigned`. -/
structure ScanV where
  pos : List ℕ
  colMap : List ℕ
  k : ℕ
  p : ℕ

/-- One feature: skip the first dim. -/
def scanV (dim : ℕ) (st : ScanV) (siz : ℕ) : ScanV :=
  if siz = dim + 1 then
    { pos := st.pos ++ [(st.p + 1) % 2 ^ 32]
      colMap := st.colMap ++ [(st.k + 1) % 2 ^ 32]
      k := (st.k + 1) % 2 ^ 32
      p := (st.p + siz) % 2 ^ 32 }
  else { st with colMap := st.colMap ++ [0], p := (st.p + siz) % 2 ^ 32 }

/-- The columns that are picked so far. -/
structure Picked (T : Type) where
  os : List ℕ
  idx : List ℕ
  val : List T

def pickEntry (data : RowBlock T) (colMap : List ℕ) (st : Picked T) (j : ℕ) : Picked T :=
  let k := colMap.getD (data.col j) 0
  if 0 < k then
    { st with
      idx := st.idx ++ [k - 1]
      val := match data.value with
        | some v => st.val ++ [v.getD j 0]
        | none => st.val }
  else st

def pickRow (data : RowBlock T) (colMap : List ℕ) (st : Picked T) (i : ℕ) : Picked T :=
  let st := (data.entries i).foldl (pickEntry data colMap) st
  { st with os := st.os ++ [st.idx.length] }

/-- Pick the columns with model_siz = dim + 1. -/
def pick (data : RowBlock T) (colMap : List ℕ) : Picked T :=
  (List.range data.size).foldl (pickRow data colMap) { os := [0], idx := [], val := [] }

/-- `BeginPtr`: no array when it has no elements. -/
def beginPtr (xs : List T) : Option (List T) := if xs.isEmpty then none else some xs

/-- X of V; its labels are not set. -/
def pickedBlock (data : RowBlock T) (colMap : List ℕ) : RowBlock T :=
  let st := pick data colMap
  { size := data.size, offset := st.os, label := [], index := st.idx, value := beginPtr st.val }

/-- Init XX. -/
def square [Mul T] (X : RowBlock T) : RowBlock T :=
  match X.value with
  | none => X
  | some v => { X with value := beginPtr ((List.range (X.offset.getD X.size 0)).map fun i =>
      v.getD i 0 * v.getD i 0) }

variable [Mul T]

/-- `Load` for w. -/
def loadW (data : RowBlock T) (model : List T) (modelSiz : List ℕ) : Option (Data T) :=
  let st := modelSiz.foldl (scanW model) { pos := [], weight := [], p := 0 }
  if st.p = model.length then
    if st.weight.isEmpty then some { unset with pos := st.pos, weight := st.weight }
    else some { dim := 0, X := data, XX := square data, weight := st.weight, pos := st.pos,
                XV := [] }
  else none

/-- `Load` for V. -/
def loadV (dim : ℕ) (data : RowBlock T) (model : List T) (modelSiz : List ℕ) :
    Option (Data T) :=
  let st := modelSiz.foldl (scanV dim) { pos := [], colMap := [], k := 0, p := 0 }
  if st.p = model.length then
    let weight := st.pos.flatMap fun p => (List.range dim).map fun j => model.getD (p + j) 0
    if weight.isEmpty then some { unset with dim := dim, pos := st.pos, weight := weight }
    else
      let X := pickedBlock data st.colMap
      some { dim := dim, X := X, XX := square X, weight := weight, pos := st.pos, XV := [] }
  else none

/-- `Load`: get data and model. -/
def load (dim : ℕ) (data : RowBlock T) (model : List T) (modelSiz : List ℕ) : Option (Data T) :=
  if dim = 0 then loadW data model modelSiz else loadV dim data model modelSiz

end Scan

variable [Zero T]

/-- `memcpy(grad + base, ..., d*sizeof(T))`. -/
def copyRow (grad : List T) (base d : ℕ) (f : ℕ → T) : List T :=
  (List.range d).foldl (fun grad k => grad.set (base + k) (f k)) grad

/-- `Save`: set the gradient. -/
def save (D : Data T) (grad : List T) : Option (List T) :=
  if D.weight.isEmpty then some grad
  else
    let d := if D.dim = 0 then 1 else D.dim
    if D.weight.length = D.pos.length * d then
      some (D.pos.zipIdx.foldl (fun grad pi =>
        if pi.1 = noPos then grad
        else copyRow grad pi.1 d fun k => D.weight.getD (pi.2 * d + k) 0) grad)
    else none

end Data

/-- The embedding part of `Config`. -/
structure EmbeddingConf (T : Type) where
  dim : ℕ
  dropout : T
  gradClipping : T
  gradNormalization : Bool

/-- Nothing of it set. -/
def EmbeddingConf.off [Zero T] : EmbeddingConf T :=
  { dim := 0, dropout := 0, gradClipping := 0, gradNormalization := false }

/-- The loss function of a minibatch. -/
structure Loss (T : Type) where
  w : Data T
  V : Data T
  /-- `V.dropout`, `V.grad_clipping` and `V.grad_normalization` -/
  conf : EmbeddingConf T
  py : List T

namespace Loss

variable [Zero T] [One T] [Add T] [Sub T] [Mul T] [Neg T] [Div T] [BEq T]

/-- The constructor; `conf` is `embedding(0)` if there is one. -/
def new (conf : Option (EmbeddingConf T)) (data : RowBlock T) (model : List T)
    (modelSiz : List ℕ) : Option (Loss T) := do
  let w ← Data.load 0 data model modelSiz
  match conf with
  | none => return { w := w, V := Data.unset, conf := .off, py := [] }
  | some cf =>
    if cf.dim = 0 then return { w := w, V := Data.unset, conf := .off, py := [] }
    else
      let V ← Data.load cf.dim data model modelSiz
      return { w := w, V := V, conf := cf, py := [] }

/-- `resize(n)` of a vector. -/
def resize (xs : List T) (n : ℕ) : List T := xs.take n ++ List.replicate (n - xs.length) 0

/-- `Evaluate`: py = X * w + .5 * sum((X*V).^2 - (X.*X)*(V.*V), 2). -/
def evaluate (ar : Arith T) (team : Team) (l : Loss T) : Option (Loss T) := do
  let py ← SpMV.times team l.w.X l.w.weight (resize l.py l.w.X.size)
  if l.V.weight.isEmpty then return { l with py := py }
  else
    let dim := l.V.dim
    let vv := l.V.weight.map fun v => v * v
    if vv.length = l.V.pos.length * dim then
      let xxvv ← SpMM.times team l.V.XX vv (List.replicate (l.V.X.size * dim) 0)
      let XV ← SpMM.times team l.V.X l.V.weight (resize l.V.XV xxvv.length)
      let py := py.mapIdx fun i p => p + ar.half * (List.range dim).foldl (fun s j =>
        s + (XV.getD (i * dim + j) 0 * XV.getD (i * dim + j) 0 - xxvv.getD (i * dim + j) 0)) 0
      return { l with V := { l.V with XV := XV }, py := py }
    else none

/-- p of a row: - y / (1 + exp (y * py)). -/
def dual (ar : Arith T) (label py : T) : T :=
  let y := if ar.lt 0 label then 1 else -1
  (-y) / (1 + ar.exp (y * py))

/-- `Normalize`. -/
def normalize (ar : Arith T) (grad : List T) : List T :=
  let norm := grad.foldl (fun s g => s + g * g) 0
  if ar.lt norm ar.tiny then grad else grad.map fun g => g / ar.sqrt norm

/-- Some preprocessing: clipping, dropout and normalization. -/
def preprocess (ar : Arith T) (cf : EmbeddingConf T) (grad : List T) : List T :=
  let grad := if ar.lt 0 cf.gradClipping then
      grad.map fun g => if ar.lt cf.gradClipping g then cf.gradClipping
        else if ar.lt g (-cf.gradClipping) then -cf.gradClipping else g
    else grad
  let grad := if ar.lt 0 cf.dropout then
      grad.mapIdx fun i g => if ar.lt (1 - cf.dropout) (ar.rand i) then 0 else g
    else grad
  if cf.gradNormalization then normalize ar grad else grad

/-- grad_u = X' * diag(p) * X * V - diag((X.*X)'*p) * V. -/
def gradV (ar : Arith T) (team : Team) (cf : EmbeddingConf T) (V : Data T) (py : List T) :
    Option (Data T) := do
  let dim := V.dim
  let m := V.pos.length
  -- xxp = (X.*X)'*p
  let xxp ← SpMM.transTimes team V.XX py 0 [] (List.replicate m 0)
  if V.weight.length = dim * m then
    -- V = - diag(xxp) * V
    let weight := V.weight.mapIdx fun t v => v * -xxp.getD (t / dim) 0
    if V.XV.length = py.length * dim then
      -- V.XV = diag(p) * X * V
      let XV := V.XV.mapIdx fun t v => v * py.getD (t / dim) 0
      -- V += X' * V.XV
      let weight ← SpMM.transTimes team V.X XV 1 weight weight
      return { V with weight := preprocess ar cf weight, XV := XV }
    else none
  else none

/-- `CalcGrad`: compute the gradients, over what `grad` holds. -/
def calcGrad (ar : Arith T) (team : Team) (l : Loss T) (grad : List T) :
    Option (List T × Loss T) := do
  if l.py.length = l.w.X.size then
    -- p = ... (reuse py_)
    let py := l.py.mapIdx fun i v => dual ar (l.w.X.label.getD i 0) v
    -- grad_w = X' * p
    let weight ← SpMV.transTimes team l.w.X py l.w.weight
    let w := { l.w with weight := weight }
    let grad ← w.save grad
    let V ← if l.V.weight.isEmpty then some l.V else gradV ar team l.conf l.V py
    let grad ← V.save grad
    return (grad, { l with w := w, V := V, py := py })
  else none

/-- A run of `CalcGrad`, step by step. -/
theorem calcGrad_eq {ar : Arith T} {team : Team} {l : Loss T} {grad py weight grad' grad'' : List T}
    {V : Data T} (hlen : l.py.length = l.w.X.size)
    (hpy : l.py.mapIdx (fun i v => dual ar (l.w.X.label.getD i 0) v) = py)
    (hweight : SpMV.transTimes team l.w.X py l.w.weight = some weight)
    (hgrad' : Data.save { l.w with weight := weight } grad = some grad')
    (hV : (if l.V.weight.isEmpty then some l.V else gradV ar team l.conf l.V py) = some V)
    (hgrad'' : V.save grad' = some grad'') :
    calcGrad ar team l grad =
      some (grad'', { l with w := { l.w with weight := weight }, V := V, py := py }) := by
  simp only [calcGrad, if_pos hlen, hpy, hweight, hgrad', Option.bind_eq_bind, Option.bind_some]
  split at hV
  · rename_i hempty
    obtain rfl := Option.some.inj hV
    rw [if_pos hempty, hgrad'']
    rfl
  · rename_i hempty
    rw [if_neg hempty, hV, Option.bind_some, hgrad'']
    rfl

end Loss

end Difacto.FM
