import Difacto.Server.Entry
import Difacto.Base.Binary32

/-!
# The model updater

`ISGDHandle` and `AdaGradHandle` of `difacto/async_sgd.h`: how one entry reacts to a
push, and what a pull sends. The static counters `new_w` and `new_V`, the values
`rand()` will return and the contents of fresh memory are in `Stat`, which is passed
along.

Every function is given twice: on entries, as the source has it, and on `Param`s. The
theorems named `…_toEntry` say that the second computes the first; failures are a failed
`CHECK` only, never a pointer read the wrong way round.

## Main definitions

* `AdaGradHandle` with `resize`, `updateW`, `updateV`, `push`, `pull` — on entries.
* `Param.resize`, `Param.updateW`, `Param.updateV`, `Param.push`, `Param.pull`.

## Main results

* `push_toEntry`, `pull_toEntry` — the two agree.
-/

namespace Difacto.Server

open Base

/-- `ISGDHandle::Embedding`. A negative `dim` acts like `0`. -/
structure Embedding (F : Type) where
  dim : ℕ
  thr : UInt32
  lambdaL2 : F
  alpha : F
  beta : F
  vMin : F
  vMax : F
  /-- `dim + 1` is computed as an `int` -/
  dim_lt : dim + 1 < 2 ^ 31

/-- `AdaGradHandle`: what does not change after construction. -/
structure AdaGradHandle (F : Type) where
  lambdaL1 : F
  lambdaL2 : F
  alpha : F
  beta : F
  V : Embedding F
  l1Shrk : Bool
  /-- `ns_`: the number of servers -/
  ns : ℕ

/-- The environment of an update: `new_w`, `new_V`, the values of
`rand() / (float) RAND_MAX` still to come, and what fresh memory holds. -/
structure Stat (F : Type) where
  newW : ℤ
  newV : ℤ
  rand : ℕ → F
  junk : ℕ → F

variable {F : Type}

/-- Drop the first `n` random values. -/
def Stat.skip (n : ℕ) (st : Stat F) : Stat F :=
  { st with rand := fun i => st.rand (n + i) }

@[simp] theorem Stat.skip_zero (st : Stat F) : st.skip 0 = st := by
  simp [Stat.skip]

theorem Stat.skip_skip (m n : ℕ) (st : Stat F) : (st.skip m).skip n = st.skip (m + n) := by
  simp [Stat.skip, Nat.add_assoc]

variable [FloatLike F]

namespace AdaGradHandle

variable (h : AdaGradHandle F)

/-! ## On entries -/

/-- The initial value of a coordinate. -/
def draw (r : F) : F := r * (h.V.vMax - h.V.vMin) + h.V.vMin

/-- One turn of the loop in `Resize`. -/
def initCoord (vs : AdaGradEntry F × Stat F) (j : ℕ) : Option (AdaGradEntry F × Stat F) := do
  let w ← vs.1.w.setElem j (h.draw (vs.2.rand 0))
  let cg ← vs.1.sqcGrad.setElem (j + 1) 0
  return ({ vs.1 with w := w, sqcGrad := cg }, vs.2.skip 1)

/-- The body of `Resize`. -/
def grow (val : AdaGradEntry F) (st : Stat F) : Option (AdaGradEntry F × Stat F) := do
  let oldSiz := val.size
  let val ← val.resize st.junk (h.V.dim + 1)
  let (val, st) ← (List.range' oldSiz (val.size - oldSiz)).foldlM h.initCoord (val, st)
  return (val, { st with newV := st.newV + ((val.size : ℤ) - oldSiz) })

/-- The condition of `Resize`. -/
def wants (val : AdaGradEntry F) : Option Bool :=
  if h.V.thr < val.feaCnt ∧ val.size < h.V.dim + 1 then
    if h.l1Shrk then val.w0.map (· != 0) else some true
  else some false

/-- `Resize`: resize if necessary. -/
def resize (val : AdaGradEntry F) (st : Stat F) : Option (AdaGradEntry F × Stat F) := do
  if ← h.wants val then h.grow val st else return (val, st)

/-- The new weight. -/
def shrink (z cgNew : F) : F :=
  if z ≤ h.lambdaL1 ∧ -h.lambdaL1 ≤ z then 0
  else (if 0 < z then z - h.lambdaL1 else z + h.lambdaL1) / ((h.beta + cgNew) / h.alpha)

/-- `UpdateW`: ftrl. -/
def updateW (val : AdaGradEntry F) (st : Stat F) (g : F) :
    Option (AdaGradEntry F × Stat F) := do
  let w ← val.w0
  let g := g + h.lambdaL2 * w
  let cg ← val.sqcGrad0
  let cgNew := FloatLike.sqrt (cg * cg + g * g)
  let val ← val.setSqcGrad0 cgNew
  let z ← val.z0
  let val ← val.setZ0 (z - (g - (cgNew - cg) / h.alpha * w))
  let z ← val.z0
  let val ← val.setW0 (h.shrink z cgNew)
  let wNew ← val.w0
  if w == 0 && wNew != 0 then
    h.resize val { st with newW := st.newW + 1 }
  else if w != 0 && wNew == 0 then
    return (val, { st with newW := st.newW - 1 })
  else
    return (val, st)

/-- One coordinate of `UpdateV`: the new weight and accumulator. -/
def updateCoord (v : F × F) (g : F) : F × F :=
  let grad := g + h.V.lambdaL2 * v.1
  let cg := FloatLike.sqrt (v.2 * v.2 + grad * grad)
  let eta := h.V.alpha / (cg + h.V.beta)
  (v.1 - eta * grad, cg)

/-- One turn of `UpdateV`, whose arguments are `val.w+1` and `val.sqc_grad+2`. -/
def updateVAt (val : AdaGradEntry F) (gi : F × ℕ) : Option (AdaGradEntry F) := do
  let w ← val.w.elem (gi.2 + 1)
  let cg ← val.sqcGrad.elem (gi.2 + 2)
  let v := h.updateCoord (w, cg) gi.1
  let ws ← val.w.setElem (gi.2 + 1) v.1
  let cgs ← val.sqcGrad.setElem (gi.2 + 2) v.2
  return { val with w := ws, sqcGrad := cgs }

/-- `UpdateV`: adagrad. -/
def updateV (val : AdaGradEntry F) (g : List F) : Option (AdaGradEntry F) :=
  g.zipIdx.foldlM h.updateVAt val

/-- `Push`. An empty blob has no `recv[0]`. -/
def push (pushCount : Bool) (recv : List F) (val : AdaGradEntry F) (st : Stat F) :
    Option (AdaGradEntry F × Stat F) :=
  match recv with
  | [] => none
  | g :: gs =>
    if pushCount then h.resize { val with feaCnt := val.feaCnt + FloatLike.toUnsigned g } st
    else if recv.length ≤ val.size then do
      let (val, st) ← h.updateW val st g
      let val ← if 1 < recv.length then h.updateV val gs else some val
      return (val, st)
    else none

/-- `Pull`. -/
def pull (val : AdaGradEntry F) : Option (List F) := do
  let w0 ← val.w0
  if val.size = 1 ∨ (h.l1Shrk = true ∧ (w0 == 0) = true) then return [w0]
  else val.w.front val.size

end AdaGradHandle

/-! ## On their contents -/

namespace Param

variable (h : AdaGradHandle F) (p : Param F) (st : Stat F)

def wants : Bool :=
  decide (h.V.thr < p.feaCnt ∧ p.emb.length < h.V.dim) && (!h.l1Shrk || p.w != 0)

/-- New coordinates. -/
def drawn (n : ℕ) : List (F × F) := (List.range n).map fun i => (h.draw (st.rand i), 0)

def grow : Param F × Stat F :=
  let n := h.V.dim - p.emb.length
  ({ p with emb := p.emb ++ drawn h st n }, { st.skip n with newV := st.newV + n })

def resize : Param F × Stat F := if p.wants h then p.grow h st else (p, st)

/-- The entry after the ftrl step, before it is resized. -/
def ftrl (g : F) : Param F :=
  let g := g + h.lambdaL2 * p.w
  let cg := FloatLike.sqrt (p.cg * p.cg + g * g)
  let z := p.z - (g - (cg - p.cg) / h.alpha * p.w)
  { p with cg := cg, z := z, w := h.shrink z cg }

def updateW (g : F) : Param F × Stat F :=
  let q := p.ftrl h g
  if p.w == 0 && q.w != 0 then q.resize h { st with newW := st.newW + 1 }
  else if p.w != 0 && q.w == 0 then (q, { st with newW := st.newW - 1 })
  else (q, st)

/-- The embedding after `UpdateV`: a short gradient leaves the last coordinates. -/
def updateV (gs : List F) : Param F :=
  { p with emb := p.emb.zipWith h.updateCoord gs ++ p.emb.drop gs.length }

def push (pushCount : Bool) (recv : List F) : Option (Param F × Stat F) :=
  match recv with
  | [] => none
  | g :: gs =>
    if pushCount then
      some (resize h { p with feaCnt := p.feaCnt + FloatLike.toUnsigned g } st)
    else if gs.length ≤ p.emb.length then
      let r := p.updateW h st g
      some (r.1.updateV h gs, r.2)
    else none

def pull : List F := if p.emb.isEmpty || (h.l1Shrk && p.w == 0) then [p.w] else p.weights

/-! ## The two agree -/

theorem wants_toEntry : h.wants p.toEntry = some (p.wants h) := by
  simp only [AdaGradHandle.wants, wants, feaCnt_toEntry, size_toEntry, w0_toEntry]
  by_cases hc : h.V.thr < p.feaCnt ∧ p.emb.length < h.V.dim
  · have hc' : h.V.thr < p.feaCnt ∧ p.emb.length + 1 < h.V.dim + 1 := ⟨hc.1, by omega⟩
    rw [if_pos hc', decide_eq_true hc, Bool.true_and]
    cases h.l1Shrk <;> simp
  · have hc' : ¬ (h.V.thr < p.feaCnt ∧ p.emb.length + 1 < h.V.dim + 1) :=
      fun hc' => hc ⟨hc'.1, by omega⟩
    rw [if_neg hc', decide_eq_false hc, Bool.false_and]

omit [FloatLike F] in
theorem length_drop_fresh (junk : ℕ → F) (k n : ℕ) :
    ((fresh junk n).drop k).length = n - k := by
  simp [fresh]

/-- The arrays after `AdaGradEntry::Resize`: the old values, then what `new` left. -/
theorem resize_toEntry (junk : ℕ → F) {n : ℕ} (hn : p.emb.length < n) :
    ∃ ws cs : List F, ws.length = n - p.emb.length ∧ cs.length = n - p.emb.length ∧
      p.toEntry.resize junk (n + 1) =
        some (heapEntry p.feaCnt (p.weights ++ ws) (p.sqcGrads ++ cs)) := by
  refine ⟨(fresh junk (n + 1)).drop (p.emb.length + 1),
    (fresh junk (n + 2)).drop (p.emb.length + 2), ?_, ?_, ?_⟩
  · rw [length_drop_fresh]
    omega
  · rw [length_drop_fresh]
    omega
  · have hsize : n + 1 =
        (p.weights ++ (fresh junk (n + 1)).drop (p.emb.length + 1)).length := by
      rw [List.length_append, length_weights, length_drop_fresh]
      omega
    have hlt : ¬ n + 1 < p.emb.length + 1 := by omega
    rw [heapEntry, ← hsize]
    obtain ⟨m, w, cg, z, emb⟩ := p
    cases emb with
    | nil => rfl
    | cons v vs =>
        have hw : (w :: v.1 :: vs.map Prod.fst).take (vs.length + 1 + 1) =
            w :: v.1 :: vs.map Prod.fst := List.take_of_length_le (by simp)
        have hcg : (cg :: z :: v.2 :: vs.map Prod.snd).take (vs.length + 1 + 1 + 1) =
            cg :: z :: v.2 :: vs.map Prod.snd := List.take_of_length_le (by simp)
        simp only [List.length_cons] at hlt
        simp [AdaGradEntry.resize, toEntry, heapEntry, weights, sqcGrads, Slot.front, copyInto,
          hlt, hw, hcg]

theorem drawn_succ (n : ℕ) :
    drawn h st (n + 1) = (h.draw (st.rand 0), 0) :: drawn h (st.skip 1) n := by
  simp [drawn, List.range_succ_eq_map, Stat.skip, Nat.add_comm]

/-- One coordinate, the first that is not initialised yet. -/
theorem initCoord_heapEntry (n : UInt32) (ws cs xs ys : List F) (x y : F)
    (hcs : cs.length = ws.length + 1) :
    h.initCoord (heapEntry n (ws ++ x :: xs) (cs ++ y :: ys), st) ws.length =
      some (heapEntry n ((ws ++ [h.draw (st.rand 0)]) ++ xs) ((cs ++ [0]) ++ ys),
        st.skip 1) := by
  simp [AdaGradHandle.initCoord, heapEntry, Slot.setElem_append _ _ _ _ rfl,
    Slot.setElem_append _ _ _ _ hcs]

/-- The loop of `Resize` over coordinates that are not initialised yet. -/
theorem foldlM_initCoord (n : UInt32) (xs : List F) :
    ∀ (ws cs ys : List F) (st : Stat F), cs.length = ws.length + 1 → ys.length = xs.length →
      (List.range' ws.length xs.length).foldlM h.initCoord
          (heapEntry n (ws ++ xs) (cs ++ ys), st) =
        some (heapEntry n (ws ++ (drawn h st xs.length).map Prod.fst)
          (cs ++ (drawn h st xs.length).map Prod.snd), st.skip xs.length) := by
  induction xs with
  | nil =>
      intro ws cs ys st _ hys
      simp only [List.length_nil, List.length_eq_zero_iff] at hys
      simp [hys, drawn]
  | cons x xs ih =>
      intro ws cs ys st hcs hys
      cases ys with
      | nil => simp at hys
      | cons y ys =>
          have hrest := ih (ws ++ [h.draw (st.rand 0)]) (cs ++ [0]) ys (st.skip 1)
            (by simp [hcs]) (by simpa using hys)
          rw [List.length_cons, List.range'_succ, List.foldlM_cons,
            initCoord_heapEntry h st n ws cs xs ys x y hcs]
          simp only [List.length_append, List.length_singleton, Stat.skip_skip,
            List.append_assoc, List.singleton_append, Nat.add_comm 1] at hrest
          simp only [Option.bind_eq_bind, Option.bind_some, drawn_succ, List.map_cons,
            List.append_assoc, List.singleton_append]
          exact hrest

theorem grow_toEntry (hsize : p.emb.length < h.V.dim) :
    h.grow p.toEntry st = some ((p.grow h st).1.toEntry, (p.grow h st).2) := by
  obtain ⟨ws, cs, hws, hcs, hresize⟩ := resize_toEntry p st.junk hsize
  have hloop := foldlM_initCoord h p.feaCnt ws p.weights p.sqcGrads cs st
    (by simp) (by omega)
  rw [length_weights] at hloop
  have hnew : (heapEntry p.feaCnt (p.weights ++ ws) (p.sqcGrads ++ cs)).size -
      (p.emb.length + 1) = ws.length := by
    simp [heapEntry]
  have hentry : (p.grow h st).1.toEntry = heapEntry p.feaCnt
      (p.weights ++ (drawn h st ws.length).map Prod.fst)
      (p.sqcGrads ++ (drawn h st ws.length).map Prod.snd) := by
    have hne : p.emb ++ drawn h st ws.length ≠ [] := by
      intro hnil
      have hlen := congrArg List.length hnil
      simp only [List.length_append, drawn, List.length_map, List.length_range,
        List.length_nil] at hlen
      omega
    rw [grow, ← hws]
    obtain ⟨v, vs, hv⟩ := List.exists_cons_of_ne_nil hne
    simp only [toEntry, hv, weights, sqcGrads]
    simp [← hv]
  simp only [AdaGradHandle.grow, hresize, Option.bind_eq_bind, Option.bind_some, size_toEntry,
    hnew, hloop, hentry]
  simp [heapEntry, grow, drawn, hws]
  rfl

theorem resize_param_toEntry :
    h.resize p.toEntry st = some ((p.resize h st).1.toEntry, (p.resize h st).2) := by
  simp only [AdaGradHandle.resize, wants_toEntry, Option.bind_eq_bind, Option.bind_some, resize]
  by_cases hw : p.wants h = true
  · have hsize : p.emb.length < h.V.dim := by
      simp only [wants, Bool.and_eq_true, decide_eq_true_eq] at hw
      exact hw.1.2
    simp only [hw, if_true, grow_toEntry h p st hsize]
  · simp [hw]

theorem updateW_toEntry (g : F) :
    h.updateW p.toEntry st g = some ((p.updateW h st g).1.toEntry, (p.updateW h st g).2) := by
  have hraw : h.updateW p.toEntry st g =
      if p.w == 0 && (p.ftrl h g).w != 0 then
        h.resize (p.ftrl h g).toEntry { st with newW := st.newW + 1 }
      else if p.w != 0 && (p.ftrl h g).w == 0 then
        some ((p.ftrl h g).toEntry, { st with newW := st.newW - 1 })
      else some ((p.ftrl h g).toEntry, st) := by
    simp only [AdaGradHandle.updateW, w0_toEntry, sqcGrad0_toEntry, setSqcGrad0_toEntry,
      z0_toEntry, setZ0_toEntry, setW0_toEntry, Option.bind_eq_bind, Option.bind_some]
    rfl
  rw [hraw]
  simp only [updateW]
  by_cases hup : (p.w == 0 && (p.ftrl h g).w != 0) = true
  · simp only [hup, if_true, resize_param_toEntry]
  · by_cases hdown : (p.w != 0 && (p.ftrl h g).w == 0) = true
    · simp only [hup, hdown, if_true]
      rfl
    · simp only [hup, hdown]
      rfl

/-- One coordinate of the embedding. -/
theorem updateVAt_toEntry (vs ws : List (F × F)) (v : F × F) (g : F) (q : Param F) :
    h.updateVAt { q with emb := vs ++ v :: ws }.toEntry (g, vs.length) =
      some { q with emb := (vs ++ [h.updateCoord v g]) ++ ws }.toEntry := by
  have hentry : ∀ v : F × F, { q with emb := vs ++ v :: ws }.toEntry = heapEntry q.feaCnt
      ((q.w :: vs.map Prod.fst) ++ v.1 :: ws.map Prod.fst)
      ((q.cg :: q.z :: vs.map Prod.snd) ++ v.2 :: ws.map Prod.snd) := by
    intro v
    obtain ⟨x, xs, hx⟩ := List.exists_cons_of_ne_nil (l := vs ++ v :: ws) (by simp)
    simp only [toEntry, hx, weights, sqcGrads]
    simp [← hx]
  have hlen : (q.w :: vs.map Prod.fst).length = vs.length + 1 := by simp
  have hlen' : (q.cg :: q.z :: vs.map Prod.snd).length = vs.length + 2 := by simp
  rw [List.append_assoc, List.singleton_append, hentry, hentry]
  simp only [AdaGradHandle.updateVAt, heapEntry, Slot.elem_append _ _ _ hlen,
    Slot.elem_append _ _ _ hlen', Slot.setElem_append _ _ _ _ hlen,
    Slot.setElem_append _ _ _ _ hlen', Option.bind_eq_bind, Option.bind_some]
  simp

theorem foldlM_updateVAt (gs : List F) : ∀ (vs ws : List (F × F)) (q : Param F),
    gs.length ≤ ws.length →
      (gs.zipIdx vs.length).foldlM h.updateVAt { q with emb := vs ++ ws }.toEntry =
        some { q with emb := vs ++ (ws.zipWith h.updateCoord gs ++ ws.drop gs.length) }.toEntry := by
  induction gs with
  | nil => intro vs ws q _; simp
  | cons g gs ih =>
      intro vs ws q hlen
      cases ws with
      | nil => simp at hlen
      | cons v ws =>
          have hrest := ih (vs ++ [h.updateCoord v g]) ws q (by simpa using hlen)
          rw [List.zipIdx_cons, List.foldlM_cons, updateVAt_toEntry]
          simp only [List.length_append, List.length_singleton, List.append_assoc,
            List.singleton_append] at hrest
          simpa using hrest

theorem updateV_toEntry {gs : List F} (hlen : gs.length ≤ p.emb.length) :
    h.updateV p.toEntry gs = some (p.updateV h gs).toEntry :=
  foldlM_updateVAt h gs [] p.emb p hlen

/-! ## What resizing keeps -/

@[simp] theorem feaCnt_resize : (p.resize h st).1.feaCnt = p.feaCnt := by
  unfold resize
  split <;> rfl

@[simp] theorem w_resize : (p.resize h st).1.w = p.w := by
  unfold resize
  split <;> rfl

@[simp] theorem cg_resize : (p.resize h st).1.cg = p.cg := by
  unfold resize
  split <;> rfl

@[simp] theorem z_resize : (p.resize h st).1.z = p.z := by
  unfold resize
  split <;> rfl

theorem lt_of_wants (hw : p.wants h = true) : h.V.thr < p.feaCnt ∧ p.emb.length < h.V.dim := by
  simp only [wants, Bool.and_eq_true, decide_eq_true_eq] at hw
  exact hw.1

/-- An entry either stays or gets all the coordinates it lacks. -/
theorem resize_cases : p.wants h = false ∧ p.resize h st = (p, st) ∨
    p.wants h = true ∧ p.resize h st = p.grow h st := by
  cases hw : p.wants h with
  | false => exact .inl ⟨rfl, by simp [resize, hw]⟩
  | true => exact .inr ⟨rfl, by simp [resize, hw]⟩

theorem length_emb_grow (hw : p.wants h = true) : (p.grow h st).1.emb.length = h.V.dim := by
  have hlt := (lt_of_wants h p hw).2
  simp only [grow, List.length_append, drawn, List.length_map, List.length_range]
  omega

theorem length_emb_resize : p.emb.length ≤ (p.resize h st).1.emb.length := by
  rcases resize_cases h p st with ⟨-, hres⟩ | ⟨hw, hres⟩
  · rw [hres]
  · have hlt := (lt_of_wants h p hw).2
    rw [hres, length_emb_grow h p st hw]
    omega

@[simp] theorem feaCnt_ftrl (g : F) : (p.ftrl h g).feaCnt = p.feaCnt := rfl

@[simp] theorem emb_ftrl (g : F) : (p.ftrl h g).emb = p.emb := rfl

/-- The weight becomes non-zero, becomes zero, or neither. -/
theorem updateW_cases (g : F) :
    ((p.w == 0) = true ∧ ((p.ftrl h g).w == 0) = false ∧
      p.updateW h st g = (p.ftrl h g).resize h { st with newW := st.newW + 1 }) ∨
    ((p.w == 0) = false ∧ ((p.ftrl h g).w == 0) = true ∧
      p.updateW h st g = (p.ftrl h g, { st with newW := st.newW - 1 })) ∨
    (((p.ftrl h g).w == 0) = (p.w == 0) ∧ p.updateW h st g = (p.ftrl h g, st)) := by
  by_cases hp : (p.w == 0) = true
  · by_cases hq : ((p.ftrl h g).w == 0) = true
    · exact .inr (.inr ⟨by rw [hp, hq], by simp [updateW, bne, hp, hq]⟩)
    · rw [Bool.not_eq_true] at hq
      exact .inl ⟨hp, hq, by simp [updateW, bne, hp, hq]⟩
  · rw [Bool.not_eq_true] at hp
    by_cases hq : ((p.ftrl h g).w == 0) = true
    · exact .inr (.inl ⟨hp, hq, by simp [updateW, bne, hp, hq]⟩)
    · rw [Bool.not_eq_true] at hq
      exact .inr (.inr ⟨by rw [hp, hq], by simp [updateW, bne, hp, hq]⟩)

theorem length_emb_updateW (g : F) : p.emb.length ≤ (p.updateW h st g).1.emb.length := by
  rcases updateW_cases h p st g with ⟨-, -, hu⟩ | ⟨-, -, hu⟩ | ⟨-, hu⟩
  · rw [hu]
    exact length_emb_resize h (p.ftrl h g) _
  · simp [hu]
  · simp [hu]

@[simp] theorem length_emb_updateV (gs : List F) :
    (p.updateV h gs).emb.length = p.emb.length := by
  simp only [updateV, List.length_append, List.length_zipWith, List.length_drop]
  omega

@[simp] theorem updateV_nil : p.updateV h [] = p := by
  simp [updateV]

/-- **A push**: the entry follows its contents, and fails only where `CHECK_LE` does or
the blob is empty. -/
theorem push_toEntry (pushCount : Bool) (recv : List F) :
    h.push pushCount recv p.toEntry st =
      (p.push h st pushCount recv).map fun r => (r.1.toEntry, r.2) := by
  cases recv with
  | nil => rfl
  | cons g gs =>
      cases pushCount with
      | true =>
          simp only [AdaGradHandle.push, push, if_true, feaCnt_toEntry, ← toEntry_setCnt,
            resize_param_toEntry, Option.map_some]
      | false =>
          simp only [AdaGradHandle.push, push, Bool.false_eq_true, if_false, List.length_cons,
            size_toEntry, Nat.add_le_add_iff_right]
          split
          · rename_i hle
            have hle' := hle.trans (length_emb_updateW h p st g)
            simp only [updateW_toEntry, Option.bind_eq_bind, Option.bind_some, Option.map_some]
            cases gs with
            | nil => simp
            | cons g' gs =>
                simp [updateV_toEntry h _ hle']
          · rfl

/-- **A pull.** -/
theorem pull_toEntry : h.pull p.toEntry = some (p.pull h) := by
  simp only [AdaGradHandle.pull, w0_toEntry, size_toEntry, Option.bind_eq_bind, Option.bind_some,
    pull]
  obtain ⟨n, w, cg, z, emb⟩ := p
  cases emb with
  | nil => simp
  | cons v vs =>
      cases hl : (h.l1Shrk && w == 0) with
      | true =>
          rw [Bool.and_eq_true] at hl
          simp [hl]
      | false =>
          have hl' : ¬ (h.l1Shrk = true ∧ (w == 0) = true) := by
            rw [← Bool.and_eq_true, hl]
            decide
          simp [hl', toEntry, heapEntry, weights, Slot.front, List.take_of_length_le]

end Param

/-! ## A small configuration

The runs on it show that the results below are not vacuous, and where they need their
conditions. -/

/-- `1.0f`. -/
def one : Binary32 := ⟨0x3f800000⟩

/-- Embeddings of dimension `dim` for features seen more than once, on the only
server. -/
def sampleHandle (dim : ℕ) (hdim : dim + 1 < 2 ^ 31) : AdaGradHandle Binary32 where
  lambdaL1 := 0
  lambdaL2 := 0
  alpha := one
  beta := one
  V := { dim := dim, thr := 1, lambdaL2 := 0, alpha := one, beta := one, vMin := 0, vMax := one,
         dim_lt := hdim }
  l1Shrk := false
  ns := 1

theorem sampleDim_lt : 1 + 1 < 2 ^ 31 := by decide

/-- Counters at zero, and every random value `1`. -/
def sampleStat : Stat Binary32 := { newW := 0, newV := 0, rand := fun _ => one, junk := fun _ => 0 }

end Difacto.Server
