import Difacto.Base.Binary32

/-!
# The updaters of the linear program

The entries and handles of `linear/async_sgd.h` with the penalty of `linear/penalty.h`:
plain gradient descent, AdaGrad and FTRL. A failed `CHECK` is `none`. The static counter
`new_w` is passed along.

## Main definitions

* `L1L2.solve` — the proximal operator.
* `SGDHandle.push`, `AdaGradHandle.push`, `FTRLHandle.push` — one gradient for one key.
* `SGDEntry.save`, `SGDEntry.load` and the same for the other entries.
-/

namespace Difacto.Linear

open Base Lib

/-- The conversion `(float) n` of an `int`. -/
class FloatOfInt (F : Type) where
  ofInt : ℤ → F

instance : FloatOfInt Binary32 where
  ofInt n := Binary32.ofRat false n

variable {F : Type} [FloatLike F]

/-- `L1L2`; the setters check the signs. -/
structure L1L2 (F : Type) [FloatLike F] where
  lambda1 : F
  lambda2 : F
  lambda1_nonneg : 0 ≤ lambda1
  lambda2_nonneg : 0 ≤ lambda2

/-- `Solve`: soft-thresholding. -/
def L1L2.solve (p : L1L2 F) (z eta : F) : Option F :=
  if 0 < eta then
    some (if z ≤ p.lambda1 ∧ -p.lambda1 ≤ z then 0
      else (if 0 < z then z - p.lambda1 else z + p.lambda1) / (eta + p.lambda2))
  else none

/-- `ISGDHandle`: what does not change after construction. -/
structure ISGDHandle (F : Type) [FloatLike F] where
  penalty : L1L2 F
  alpha : F
  beta : F
  /-- `ns_`: the number of servers -/
  ns : ℕ

/-- `ISGDHandle::Update`: the new value of `new_w`. -/
def update (curW oldW : F) (newW : ℤ) : ℤ :=
  if oldW == 0 && curW != 0 then newW + 1
  else if oldW != 0 && curW == 0 then newW - 1
  else newW

/-! ## Gradient descent -/

/-- `SGDEntry` -/
structure SGDEntry (F : Type) where
  w : F
  deriving DecidableEq

def SGDEntry.new : SGDEntry F := { w := 0 }

/-- The state of an `SGDHandle`: its learning rate depends on the number of pushes. -/
structure SGDState (F : Type) where
  t : ℤ
  eta : F

namespace SGDHandle

/-- The state after construction. -/
def init : SGDState F := { t := 1, eta := 0 }

/-- `Start` -/
def start [FloatOfInt F] (h : ISGDHandle F) (push : Bool) (st : SGDState F) : SGDState F :=
  if push then
    { t := st.t + 1, eta := (h.beta + FloatLike.sqrt (FloatOfInt.ofInt st.t)) / h.alpha }
  else st

/-- `Push` -/
def push (h : ISGDHandle F) (st : SGDState F) (grad : List F) (val : SGDEntry F) (newW : ℤ) :
    Option (SGDEntry F × ℤ) := do
  let g ← grad.head?
  let w ← h.penalty.solve (st.eta * val.w - g) st.eta
  return ({ w := w }, update w val.w newW)

end SGDHandle

/-! ## AdaGrad -/

/-- `AdaGradEntry` -/
structure AdaGradEntry (F : Type) where
  w : F
  sqCumGrad : F
  deriving DecidableEq

def AdaGradEntry.new : AdaGradEntry F := { w := 0, sqCumGrad := 0 }

/-- `Push` -/
def AdaGradHandle.push (h : ISGDHandle F) (grad : List F) (val : AdaGradEntry F) (newW : ℤ) :
    Option (AdaGradEntry F × ℤ) := do
  let g ← grad.head?
  let sqrtN := val.sqCumGrad
  let sqCumGrad := FloatLike.sqrt (sqrtN * sqrtN + g * g)
  let eta := (sqCumGrad + h.beta) / h.alpha
  let w ← h.penalty.solve (eta * val.w - g) eta
  return ({ w := w, sqCumGrad := sqCumGrad }, update w val.w newW)

/-! ## FTRL -/

/-- `FTRLEntry` -/
structure FTRLEntry (F : Type) where
  w : F
  /-- the smoothed version of `- eta * w + grad` -/
  z : F
  sqCumGrad : F
  deriving DecidableEq

def FTRLEntry.new : FTRLEntry F := { w := 0, z := 0, sqCumGrad := 0 }

/-- `Push` -/
def FTRLHandle.push (h : ISGDHandle F) (grad : List F) (val : FTRLEntry F) (newW : ℤ) :
    Option (FTRLEntry F × ℤ) := do
  let g ← grad.head?
  let sqrtN := val.sqCumGrad
  let sqCumGrad := FloatLike.sqrt (sqrtN * sqrtN + g * g)
  let sigma := (sqCumGrad - sqrtN) / h.alpha
  let z := val.z + (g - sigma * val.w)
  let w ← h.penalty.solve (-z) ((h.beta + sqCumGrad) / h.alpha)
  return ({ w := w, z := z, sqCumGrad := sqCumGrad }, update w val.w newW)

/-! ## Checkpoint records -/

section Bytes

variable [FixedBytes F]

omit [FloatLike F] in
/-- `CHECK_EQ(fi->Read(&x, sizeof(float)), sizeof(float))` -/
def readFloat (bs : List UInt8) : Option (F × List UInt8) :=
  if bs.length < FixedBytes.width F then none
  else some (FixedBytes.ofBytes (bs.take (FixedBytes.width F)), bs.drop (FixedBytes.width F))

omit [FloatLike F] in
theorem readFloat_append [LawfulFixedBytes F] (x : F) (bs : List UInt8) :
    readFloat (FixedBytes.toBytes x ++ bs) = some (x, bs) := by
  have hlen : ¬ (FixedBytes.toBytes x ++ bs).length < FixedBytes.width F := by
    rw [List.length_append, length_toBytes]
    omega
  rw [readFloat, if_neg hlen, List.take_left' (length_toBytes x),
    List.drop_left' (length_toBytes x), ofBytes_toBytes]

namespace SGDEntry

/-- `TSave` -/
def save (e : SGDEntry F) : List UInt8 := FixedBytes.toBytes e.w

/-- `TLoad` -/
def load (bs : List UInt8) (newW : ℤ) : Option (SGDEntry F × ℤ × List UInt8) := do
  let (w, bs) ← readFloat bs
  return ({ w := w }, update w 0 newW, bs)

end SGDEntry

namespace AdaGradEntry

/-- `Save` -/
def save (e : AdaGradEntry F) : List UInt8 :=
  FixedBytes.toBytes e.w ++ FixedBytes.toBytes e.sqCumGrad

/-- `Load` -/
def load (bs : List UInt8) (newW : ℤ) : Option (AdaGradEntry F × ℤ × List UInt8) := do
  let (w, bs) ← readFloat bs
  let (sqCumGrad, bs) ← readFloat bs
  return ({ w := w, sqCumGrad := sqCumGrad }, update w 0 newW, bs)

end AdaGradEntry

namespace FTRLEntry

/-- `Save` -/
def save (e : FTRLEntry F) : List UInt8 :=
  FixedBytes.toBytes e.w ++ (FixedBytes.toBytes e.z ++ FixedBytes.toBytes e.sqCumGrad)

/-- `Load` -/
def load (bs : List UInt8) (newW : ℤ) : Option (FTRLEntry F × ℤ × List UInt8) := do
  let (w, bs) ← readFloat bs
  let (z, bs) ← readFloat bs
  let (sqCumGrad, bs) ← readFloat bs
  return ({ w := w, z := z, sqCumGrad := sqCumGrad }, update w 0 newW, bs)

end FTRLEntry

end Bytes

end Difacto.Linear
