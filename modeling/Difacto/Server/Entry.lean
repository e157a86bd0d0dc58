import Difacto.Lib.Bytes

/-!
# Server entries

`AdaGradEntry` of `difacto/async_sgd.h`: the weights of one feature with their
accumulators. An entry of size 1 keeps its weight in the bytes of the pointer `w`
itself, and the cumulative gradient and `z` in those of `sqc_grad`; a larger entry
keeps them in two arrays. Reading a pointer the wrong way round, or an array outside
its bounds, is `none`.

`Param` is what an entry stands for, without the two representations: an invalid entry
cannot be built from one. The lemmas here say what each operation does to the entry of
a `Param`; the rest of the development uses only these.

The element type `F` is any type with the operations a function uses. `float` arrays
obtained from `new` hold the values `junk`.

## Main definitions

* `AdaGradEntry` with `w0`, `sqcGrad0`, `z0`, `resize`, `empty`, `save`, `load`.
* `Param`, `Param.toEntry` — the contents of an entry.
-/

namespace Difacto.Server

open Lib

variable {F : Type}

/-- A `float*` field: its own eight bytes used as two floats, or an array. -/
inductive Slot (F : Type)
  | inline (lo hi : F)
  | heap (a : List F)
  deriving DecidableEq

namespace Slot

/-- `*(float *)&p`. -/
def lo : Slot F → Option F
  | inline x _ => some x
  | heap _ => none

/-- `*(((float *)&p)+1)`. -/
def hi : Slot F → Option F
  | inline _ y => some y
  | heap _ => none

/-- `p[i]`. -/
def elem (i : ℕ) : Slot F → Option F
  | inline _ _ => none
  | heap a => a[i]?

def setLo (x : F) : Slot F → Option (Slot F)
  | inline _ y => some (inline x y)
  | heap _ => none

def setHi (y : F) : Slot F → Option (Slot F)
  | inline x _ => some (inline x y)
  | heap _ => none

def setElem (i : ℕ) (x : F) : Slot F → Option (Slot F)
  | inline _ _ => none
  | heap a => if i < a.length then some (heap (a.set i x)) else none

theorem elem_append {n : ℕ} (xs ys : List F) (x : F) (hn : xs.length = n) :
    (heap (xs ++ x :: ys)).elem n = some x := by
  simp [elem, ← hn]

theorem setElem_append {n : ℕ} (xs ys : List F) (x y : F) (hn : xs.length = n) :
    (heap (xs ++ x :: ys)).setElem n y = some (heap (xs ++ y :: ys)) := by
  simp [setElem, ← hn]

/-- The first `n` elements, as `memcpy` reads them. -/
def front (n : ℕ) : Slot F → Option (List F)
  | inline _ _ => none
  | heap a => if n ≤ a.length then some (a.take n) else none

end Slot

/-- `AdaGradEntry`. -/
structure AdaGradEntry (F : Type) where
  /-- #appearence of this feature in the data -/
  feaCnt : UInt32
  /-- length of w -/
  size : ℕ
  /-- w and V -/
  w : Slot F
  /-- square root of the cumulative gradient, and `z` -/
  sqcGrad : Slot F
  deriving DecidableEq

/-- What `new float[n]` holds. -/
def fresh (junk : ℕ → F) (n : ℕ) : List F := (List.range n).map junk

/-- `memcpy` of `xs` to the front of an array. -/
def copyInto (xs base : List F) : List F := xs ++ base.drop xs.length

namespace AdaGradEntry

/-- `AdaGradEntry()`. -/
def new [Zero F] : AdaGradEntry F :=
  { feaCnt := 0, size := 1, w := .inline 0 0, sqcGrad := .inline 0 0 }

/-- `w_0()`. -/
def w0 (e : AdaGradEntry F) : Option F := if e.size = 1 then e.w.lo else e.w.elem 0

/-- `sqc_grad_0()`. -/
def sqcGrad0 (e : AdaGradEntry F) : Option F :=
  if e.size = 1 then e.sqcGrad.lo else e.sqcGrad.elem 0

/-- `z_0()`. -/
def z0 (e : AdaGradEntry F) : Option F := if e.size = 1 then e.sqcGrad.hi else e.sqcGrad.elem 1

/-- `w_0() = x`. -/
def setW0 (x : F) (e : AdaGradEntry F) : Option (AdaGradEntry F) := do
  let w ← if e.size = 1 then e.w.setLo x else e.w.setElem 0 x
  return { e with w := w }

/-- `sqc_grad_0() = x`. -/
def setSqcGrad0 (x : F) (e : AdaGradEntry F) : Option (AdaGradEntry F) := do
  let cg ← if e.size = 1 then e.sqcGrad.setLo x else e.sqcGrad.setElem 0 x
  return { e with sqcGrad := cg }

/-- `z_0() = x`. -/
def setZ0 (x : F) (e : AdaGradEntry F) : Option (AdaGradEntry F) := do
  let cg ← if e.size = 1 then e.sqcGrad.setHi x else e.sqcGrad.setElem 1 x
  return { e with sqcGrad := cg }

/-- `Resize(n)`. -/
def resize (junk : ℕ → F) (n : ℕ) (e : AdaGradEntry F) : Option (AdaGradEntry F) := do
  if n < e.size then return { e with size := n }
  if e.size = 1 then
    let w ← e.w0
    let cg ← e.sqcGrad0
    let z ← e.z0
    return { e with
      size := n
      w := .heap (copyInto [w] (fresh junk n))
      sqcGrad := .heap (copyInto [cg, z] (fresh junk (n + 1))) }
  else
    let w ← e.w.front e.size
    let cg ← e.sqcGrad.front (e.size + 1)
    return { e with
      size := n
      w := .heap (copyInto w (fresh junk n))
      sqcGrad := .heap (copyInto cg (fresh junk (n + 1))) }

/-- `Empty()`. -/
def empty [Zero F] [BEq F] (e : AdaGradEntry F) : Option Bool := do
  let w ← e.w0
  return w == 0 && e.size == 1

end AdaGradEntry

/-! ## Checkpoint records -/

section Bytes

variable [FixedBytes F]

namespace Slot

/-- The eight bytes of an inline field. -/
def rep : Slot F → Option (List UInt8)
  | inline x y => some (FixedBytes.toBytes x ++ FixedBytes.toBytes y)
  | heap _ => none

/-- The bytes of the first `n` elements of an array. -/
def arrayBytes (n : ℕ) (s : Slot F) : Option (List UInt8) := (s.front n).map toBytesArray

/-- `Read(&p, sizeof(float*))`. A short read over a pointer to an array leaves part of
an address, which is not modelled. -/
def readRep (old : Slot F) (bs : List UInt8) : Option (Slot F × List UInt8) :=
  let n := 2 * FixedBytes.width F
  let (b, rest) := readInto n (old.rep.getD []) bs
  if b.length = n then
    some (inline (FixedBytes.ofBytes (b.take (FixedBytes.width F)))
      (FixedBytes.ofBytes (b.drop (FixedBytes.width F))), rest)
  else none

/-- `p = new float[n]; Read(p, sizeof(float)*n)`. -/
def readArray (junk : ℕ → F) (n : ℕ) (bs : List UInt8) : Slot F × List UInt8 :=
  let (b, rest) := readInto (FixedBytes.width F * n) (toBytesArray (fresh junk n)) bs
  (heap (ofBytesArray n b), rest)

variable [LawfulFixedBytes F]

theorem length_rep_le (s : Slot F) : (s.rep.getD []).length ≤ 2 * FixedBytes.width F := by
  cases s with
  | inline x y =>
      simp only [rep, Option.getD_some, List.length_append, length_toBytes]
      omega
  | heap a => simp [rep]

theorem readRep_append (old : Slot F) (x y : F) (rest : List UInt8) :
    old.readRep (FixedBytes.toBytes x ++ (FixedBytes.toBytes y ++ rest)) =
      some (.inline x y, rest) := by
  have hlen : (FixedBytes.toBytes x ++ FixedBytes.toBytes y).length = 2 * FixedBytes.width F := by
    simp only [List.length_append, length_toBytes]
    omega
  rw [readRep, ← List.append_assoc, readInto_append hlen (length_rep_le old)]
  simp only [hlen, if_true]
  rw [List.take_left' (length_toBytes x), List.drop_left' (length_toBytes x), ofBytes_toBytes,
    ofBytes_toBytes]

theorem readArray_append (junk : ℕ → F) (xs : List F) (rest : List UInt8) :
    readArray junk xs.length (toBytesArray xs ++ rest) = (.heap xs, rest) := by
  rw [readArray, readInto_append (length_toBytesArray xs)]
  · simp only [ofBytesArray_toBytesArray]
  · simp [fresh]

end Slot

namespace AdaGradEntry

/-- `Save`. -/
def save (e : AdaGradEntry F) : Option (List UInt8) := do
  let w ← if e.size = 1 then e.w.rep else e.w.arrayBytes e.size
  let cg ← if e.size = 1 then e.sqcGrad.rep else e.sqcGrad.arrayBytes (e.size + 1)
  return leBytes 4 e.size ++ (w ++ cg)

/-- The body that `AdaGradEntry::Load` of the server and of the two dump programs
share. A negative size makes `new` throw. -/
def loadFields (junk : ℕ → F) (e : AdaGradEntry F) (bs : List UInt8) :
    Option (AdaGradEntry F × List UInt8) := do
  let (b, bs) := readInto 4 (leBytes 4 e.size) bs
  let size := ofLeBytes b
  if size = 1 then
    let (w, bs) ← e.w.readRep bs
    let (cg, bs) ← e.sqcGrad.readRep bs
    return ({ e with size := size, w := w, sqcGrad := cg }, bs)
  else if size < 2 ^ 31 then
    let (w, bs) := Slot.readArray junk size bs
    let (cg, bs) := Slot.readArray junk (size + 1) bs
    return ({ e with size := size, w := w, sqcGrad := cg }, bs)
  else none

end AdaGradEntry

end Bytes

/-! ## What an entry stands for -/

/-- The contents of an entry: the weight with its cumulative gradient and `z`, and each
coordinate of the embedding with its accumulator. -/
structure Param (F : Type) where
  feaCnt : UInt32
  w : F
  cg : F
  z : F
  emb : List (F × F)
  deriving DecidableEq

/-- The contents, read off a valid entry. -/
def AdaGradEntry.param [Zero F] (e : AdaGradEntry F) : Param F where
  feaCnt := e.feaCnt
  w := e.w0.getD 0
  cg := e.sqcGrad0.getD 0
  z := e.z0.getD 0
  emb :=
    match e.w, e.sqcGrad with
    | .heap ws, .heap cs => (ws.drop 1).zip (cs.drop 2)
    | _, _ => []

namespace Param

/-- An entry with arrays. -/
def heapEntry (feaCnt : UInt32) (ws cs : List F) : AdaGradEntry F :=
  { feaCnt := feaCnt, size := ws.length, w := .heap ws, sqcGrad := .heap cs }

/-- The weights, as `Pull` sends them. -/
def weights (p : Param F) : List F := p.w :: p.emb.map Prod.fst

/-- The array `sqc_grad` of an entry with an embedding. -/
def sqcGrads (p : Param F) : List F := p.cg :: p.z :: p.emb.map Prod.snd

/-- The representation: inline without an embedding. The upper half of an inline `w` is
never written. -/
def toEntry [Zero F] (p : Param F) : AdaGradEntry F :=
  match p.emb with
  | [] => { feaCnt := p.feaCnt, size := 1, w := .inline p.w 0, sqcGrad := .inline p.cg p.z }
  | _ :: _ => heapEntry p.feaCnt p.weights p.sqcGrads

/-- What a fresh entry stands for. -/
def new [Zero F] : Param F := { feaCnt := 0, w := 0, cg := 0, z := 0, emb := [] }

/-- `Empty()`. -/
def empty [Zero F] [BEq F] (p : Param F) : Bool := p.w == 0 && p.emb.isEmpty

/-- The bytes `Save` writes. -/
def bytes [Zero F] [FixedBytes F] (p : Param F) : List UInt8 :=
  leBytes 4 (p.emb.length + 1) ++
    match p.emb with
    | [] => (FixedBytes.toBytes p.w ++ FixedBytes.toBytes (0 : F)) ++
        (FixedBytes.toBytes p.cg ++ FixedBytes.toBytes p.z)
    | _ :: _ => toBytesArray p.weights ++ toBytesArray p.sqcGrads

@[simp] theorem length_weights (p : Param F) : p.weights.length = p.emb.length + 1 := by
  simp [weights]

@[simp] theorem length_sqcGrads (p : Param F) : p.sqcGrads.length = p.emb.length + 2 := by
  simp [sqcGrads]

variable [Zero F] (p : Param F) (x : F)

@[simp] theorem toEntry_new : (new : Param F).toEntry = AdaGradEntry.new := rfl

@[simp] theorem feaCnt_toEntry : p.toEntry.feaCnt = p.feaCnt := by
  unfold toEntry
  split <;> rfl

@[simp] theorem size_toEntry : p.toEntry.size = p.emb.length + 1 := by
  unfold toEntry
  split
  · rename_i h
    simp [h]
  · simp [heapEntry]

theorem toEntry_setCnt (n : UInt32) :
    { p with feaCnt := n }.toEntry = { p.toEntry with feaCnt := n } := by
  cases hemb : p.emb <;> simp [toEntry, hemb, heapEntry, weights, sqcGrads]

/-- An operation on an entry is checked once for each representation. -/
theorem toEntry_cases {motive : AdaGradEntry F → Param F → Prop}
    (inline : ∀ (n : UInt32) (w cg z : F), motive
      { feaCnt := n, size := 1, w := .inline w 0, sqcGrad := .inline cg z }
      { feaCnt := n, w := w, cg := cg, z := z, emb := [] })
    (heap : ∀ (n : UInt32) (w cg z : F) (v : F × F) (vs : List (F × F)), motive
      (heapEntry n (w :: v.1 :: vs.map Prod.fst) (cg :: z :: v.2 :: vs.map Prod.snd))
      { feaCnt := n, w := w, cg := cg, z := z, emb := v :: vs })
    (p : Param F) : motive p.toEntry p := by
  obtain ⟨n, w, cg, z, emb⟩ := p
  cases emb with
  | nil => exact inline n w cg z
  | cons v vs => exact heap n w cg z v vs

@[simp] theorem w0_toEntry : p.toEntry.w0 = some p.w :=
  toEntry_cases (motive := fun e p => e.w0 = some p.w)
    (by intros; rfl) (by intros; rfl) p

@[simp] theorem sqcGrad0_toEntry : p.toEntry.sqcGrad0 = some p.cg :=
  toEntry_cases (motive := fun e p => e.sqcGrad0 = some p.cg)
    (by intros; rfl) (by intros; rfl) p

@[simp] theorem z0_toEntry : p.toEntry.z0 = some p.z :=
  toEntry_cases (motive := fun e p => e.z0 = some p.z)
    (by intros; rfl) (by intros; rfl) p

@[simp] theorem setW0_toEntry : p.toEntry.setW0 x = some { p with w := x }.toEntry :=
  toEntry_cases (motive := fun e p => e.setW0 x = some { p with w := x }.toEntry)
    (by intros; rfl) (by intros; rfl) p

@[simp] theorem setSqcGrad0_toEntry :
    p.toEntry.setSqcGrad0 x = some { p with cg := x }.toEntry :=
  toEntry_cases (motive := fun e p => e.setSqcGrad0 x = some { p with cg := x }.toEntry)
    (by intros; rfl) (by intros; rfl) p

@[simp] theorem setZ0_toEntry : p.toEntry.setZ0 x = some { p with z := x }.toEntry :=
  toEntry_cases (motive := fun e p => e.setZ0 x = some { p with z := x }.toEntry)
    (by intros; rfl) (by intros; rfl) p

@[simp] theorem empty_toEntry [BEq F] : p.toEntry.empty = some p.empty := by
  simp only [AdaGradEntry.empty, w0_toEntry, size_toEntry, empty]
  cases p.emb <;> simp

@[simp] theorem param_toEntry : p.toEntry.param = p :=
  toEntry_cases (motive := fun e p => e.param = p)
    (by intros; rfl)
    (by
      intro n w cg z v vs
      have hzip : (vs.map Prod.fst).zip (vs.map Prod.snd) = vs := by
        simpa using List.zip_unzip vs
      simp [AdaGradEntry.param, heapEntry, AdaGradEntry.w0, AdaGradEntry.sqcGrad0,
        AdaGradEntry.z0, Slot.elem, hzip])
    p

/-! ## Reading back a record -/

variable [FixedBytes F]

theorem save_toEntry : p.toEntry.save = some p.bytes :=
  toEntry_cases (motive := fun e p => e.save = some p.bytes)
    (by intros; rfl)
    (by
      intros
      simp [AdaGradEntry.save, heapEntry, Slot.arrayBytes, Slot.front, bytes, weights, sqcGrads,
        List.take_of_length_le])
    p

variable [LawfulFixedBytes F]

/-- **A record is read back**, whatever the entry held before; the count of the feature
is not in the record. -/
theorem loadFields_bytes (junk : ℕ → F) (e : AdaGradEntry F) (rest : List UInt8)
    (hsize : p.emb.length + 1 < 2 ^ 31) :
    e.loadFields junk (p.bytes ++ rest) = some ({ p with feaCnt := e.feaCnt }.toEntry, rest) := by
  have hread : ∀ bs, readInto 4 (leBytes 4 e.size) (leBytes 4 (p.emb.length + 1) ++ bs) =
      (leBytes 4 (p.emb.length + 1), bs) :=
    fun bs => readInto_append (by simp) (by simp)
  have hlt : p.emb.length + 1 < 256 ^ 4 := hsize.trans (by decide)
  have hnum : ofLeBytes (leBytes 4 (p.emb.length + 1)) = p.emb.length + 1 :=
    ofLeBytes_leBytes hlt
  rw [bytes, List.append_assoc]
  simp only [AdaGradEntry.loadFields, hread, hnum]
  obtain ⟨n, w, cg, z, emb⟩ := p
  cases emb with
  | nil => simp [Slot.readRep_append, toEntry]
  | cons v vs =>
      have hw := Slot.readArray_append junk (w :: v.1 :: vs.map Prod.fst)
      have hcg := Slot.readArray_append junk (cg :: z :: v.2 :: vs.map Prod.snd)
      simp only [List.length_cons, List.length_map] at hw hcg
      have hlt' : vs.length + 1 + 1 < 2147483648 := hsize
      simp [hw, hcg, hlt', toEntry, heapEntry, weights, sqcGrads]

end Param

end Difacto.Server
