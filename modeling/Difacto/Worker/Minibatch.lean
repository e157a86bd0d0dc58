import Difacto.FM.Shape
import Difacto.Server.Contents

/-!
# A minibatch of a worker

`AsyncWorker::ProcessMinibatch` of `difacto/async_sgd.h` for a training workload, when the
server answers its pull in a given state: the model that is pulled is evaluated, and
`CalcGrad` writes the gradient over it. `CalcGrad` only writes the weights, and the
embeddings of the configured dimension. So the vector that is pushed is a gradient if all
embeddings on the server have that dimension; a checkpoint that was saved under another one
can bring others.

## Main definitions

* `processMinibatch` — from the pull to the push.
* `Pushed.OnlyGradients` — no element is left from the pull.
* `AsyncServer.Fitting` — runs that only load embeddings of the configured dimension.

## Main results

* `only_gradients` — when only gradients are pushed.
-/

namespace Difacto.Worker

open Base Lib FM Server

variable {F : Type} [FloatLike F]

/-- What is handed to `ZVPush`, and the loss function after `CalcGrad`. -/
structure Pushed (F : Type) where
  vals : List F
  sizes : List ℕ
  loss : Loss F

/-- `ProcessMinibatch`: pull the weight from the servers, calculate and push the gradients. -/
def processMinibatch (ar : Arith F) (team : Team) (conf : Option (EmbeddingConf F))
    (h : AdaGradHandle F) (s : AsyncServer F) (keys : List UInt64) (data : RowBlock F) :
    Option (Pushed F) := do
  let (_, r) ← s.handlePull h keys true
  let loss ← Loss.new conf data r.vals r.sizes
  let loss ← Loss.evaluate ar team loss
  let (val, loss) ← Loss.calcGrad ar team loss r.vals
  return { vals := val, sizes := r.sizes, loss := loss }

namespace Pushed

/-- The component of the gradient for element `j` of key `f`, if there is one: after
`CalcGrad` it is in `w.weight` or `V.weight`. -/
def component (dim : ℕ) (r : Pushed F) (f j : ℕ) : Option F :=
  if j = 0 then some (r.loss.w.weight.getD f 0)
  else if r.sizes.getD f 0 = dim + 1 then
    some (r.loss.V.weight.getD (rank dim r.sizes f * dim + (j - 1)) 0)
  else none

/-- Every element is the component of the gradient for it, or zero. -/
def OnlyGradients (dim : ℕ) (r : Pushed F) : Prop :=
  ∀ f < r.sizes.length, ∀ j < r.sizes.getD f 0,
    r.component dim f j = some (r.vals.getD (start r.sizes f + j) 0) ∨
      (r.vals.getD (start r.sizes f + j) 0 == 0) = true

end Pushed

/-! ## The pull -/

section Pull

variable {h : AdaGradHandle F} {s : AsyncServer F}

/-- A pull does not change the store. -/
theorem foldlM_pullKey (hs : s.Valid) (keys : List UInt64) (vs : List (List F)) :
    ∃ s', keys.foldlM (AsyncServer.pullKey h) (s, vs) =
      some (s', vs ++ keys.map fun k => (s.param k).pull h) := by
  have hmain : ∀ (keys : List UInt64) (t : AsyncServer F) (vs : List (List F)), t.Valid →
      (∀ k, t.param k = s.param k) → ∃ s', keys.foldlM (AsyncServer.pullKey h) (t, vs) =
        some (s', vs ++ keys.map fun k => (s.param k).pull h) := by
    intro keys
    induction keys with
    | nil => exact fun t vs _ _ => ⟨t, by simp⟩
    | cons k keys ih =>
        intro t vs ht hparam
        have hput : ∀ k', (t.put k (t.param k).toEntry).param k' = s.param k' := by
          intro k'
          rw [AsyncServer.param_put]
          split
          · rename_i hk
            rw [hk, hparam]
          · exact hparam k'
        obtain ⟨s', hs'⟩ := ih (t.put k (t.param k).toEntry) (vs ++ [(t.param k).pull h])
          (ht.put (ht.size_lt k)) hput
        refine ⟨s', ?_⟩
        rw [List.foldlM_cons, AsyncServer.pullKey_eq ht, Option.bind_eq_bind, Option.bind_some, hs',
          hparam, List.append_assoc]
        rfl
  exact hmain keys s vs hs fun _ => rfl

/-- What a pull with dynamic sizes returns. -/
theorem handlePull_eq (hs : s.Valid) (keys : List UInt64) :
    ∃ s', s.handlePull h keys true = some (s',
      { vals := (keys.map fun k => (s.param k).pull h).flatten
        sizes := (keys.map fun k => (s.param k).pull h).map List.length }) := by
  obtain ⟨s', hs'⟩ := foldlM_pullKey (h := h) hs keys []
  refine ⟨s'.report h, ?_⟩
  rw [AsyncServer.handlePull, hs']
  simp

end Pull

/-! ## The push -/

section Push

variable {ar : Arith F} {team : Team} {conf : Option (EmbeddingConf F)} {h : AdaGradHandle F}
  {s : AsyncServer F} {keys : List UInt64} {data : RowBlock F} {r : Pushed F}

/-- The values of the keys, as the server has them. -/
def pulled (h : AdaGradHandle F) (s : AsyncServer F) (keys : List UInt64) : List (List F) :=
  keys.map fun k => (s.param k).pull h

/-- **What a minibatch pushes**: the two gradients, stored over what was pulled. -/
theorem processMinibatch_spec (ar : Arith F) (team : Team) (conf : Option (EmbeddingConf F))
    (hs : s.Valid) (hkeys : keys ≠ []) (hsize : data.size ≠ 0)
    (hsum : ((pulled h s keys).map List.length).sum < 2 ^ 32) :
    ∃ r, processMinibatch ar team conf h s keys data = some r ∧
      r.sizes = (pulled h s keys).map List.length ∧
      ∃ ws vs, Data.Stores (dimOf conf) r.sizes (r.loss.w.weight.getD · 0)
          (fun f k => r.loss.V.weight.getD (rank (dimOf conf) r.sizes f * dimOf conf + k) 0) ws vs ∧
        r.vals = assign (assign (pulled h s keys).flatten ws) vs := by
  obtain ⟨s', hpull⟩ := handlePull_eq (h := h) hs keys
  have hlen : ((pulled h s keys).map List.length).sum = (pulled h s keys).flatten.length :=
    List.length_flatten.symm
  have hne : (pulled h s keys).map List.length ≠ [] := by simpa [pulled] using hkeys
  obtain ⟨l₀, hnew, -, hshape₀⟩ := Loss.new_shape conf data hlen (hlen ▸ hsum) hne
  obtain ⟨l₁, heval, hshape₁, hpy, hXV⟩ := Loss.evaluate_shape ar team hshape₀ hsize
  obtain ⟨g, l₂, hgrad, hshape₂, hg⟩ := Loss.calcGrad_shape ar team hshape₁ hsize hpy hXV
    (pulled h s keys).flatten
  refine ⟨{ vals := g, sizes := (pulled h s keys).map List.length, loss := l₂ }, ?_, rfl,
    l₂.w.writes, l₂.V.writes, hshape₂.stores hsum, hg⟩
  have hnew' : Loss.new conf data (keys.map fun k => (s.param k).pull h).flatten
      ((keys.map fun k => (s.param k).pull h).map List.length) = some l₀ := hnew
  have hgrad' : Loss.calcGrad ar team l₁ (keys.map fun k => (s.param k).pull h).flatten =
      some (g, l₂) := hgrad
  simp only [processMinibatch, hpull, Option.bind_eq_bind, Option.bind_some, hnew', heval, hgrad']
  rfl

/-- A model that is too long is not pushed. -/
theorem processMinibatch_eq_none (ar : Arith F) (team : Team) (conf : Option (EmbeddingConf F))
    (hs : s.Valid) (data : RowBlock F)
    (hsum : 2 ^ 32 ≤ ((pulled h s keys).map List.length).sum) :
    processMinibatch ar team conf h s keys data = none := by
  obtain ⟨s', hpull⟩ := handlePull_eq (h := h) hs keys
  have hlen : ((pulled h s keys).map List.length).sum = (pulled h s keys).flatten.length :=
    List.length_flatten.symm
  have hload : Data.load 0 data (keys.map fun k => (s.param k).pull h).flatten
      ((keys.map fun k => (s.param k).pull h).map List.length) = none :=
    Data.loadW_eq_none data hlen (hlen ▸ hsum)
  simp only [processMinibatch, hpull, Option.bind_eq_bind, Option.bind_some, Loss.new, hload,
    Option.bind_none]

/-- An element that is not written is left from the pull. -/
theorem onlyGradients_iff {dim : ℕ} {vs : List (List F)} (hsizes : r.sizes = vs.map List.length)
    {ws us : List (ℕ × F)} (hstores : Data.Stores dim r.sizes (r.loss.w.weight.getD · 0)
      (fun f k => r.loss.V.weight.getD (rank dim r.sizes f * dim + k) 0) ws us)
    (hvals : r.vals = assign (assign vs.flatten ws) us) :
    r.OnlyGradients dim ↔
      ∀ v ∈ vs, v.length = dim + 1 ∨ ∀ x ∈ v.tail, (x == 0) = true := by
  have hlen : vs.flatten.length = r.sizes.sum := by rw [hsizes, List.length_flatten]
  have hsize : ∀ f v, vs[f]? = some v → r.sizes.getD f 0 = v.length := by
    intro f v hv
    simp [hsizes, List.getD_eq_getElem?_getD, hv]
  constructor
  · intro hall v hv
    obtain ⟨f, hf⟩ := List.getElem?_of_mem hv
    by_cases hdim : v.length = dim + 1
    · exact .inl hdim
    · refine .inr fun x hx => ?_
      obtain ⟨j, hj⟩ := List.getElem?_of_mem hx
      rw [List.getElem?_tail] at hj
      have hlt : j + 1 < v.length := (List.getElem?_eq_some_iff.mp hj).1
      have hfeature := hsize f v hf
      have hin : f < r.sizes.length := by
        rw [hsizes, List.length_map]
        exact (List.getElem?_eq_some_iff.mp hf).1
      have hrest := hstores.getD_rest hlen (hfeature ▸ hdim) j.succ_pos (hfeature ▸ hlt)
      have hval : r.vals.getD (start r.sizes f + (j + 1)) 0 = x := by
        rw [hvals, hrest, hsizes, getD_flatten vs hf hlt, List.getD_eq_getElem?_getD, hj,
          Option.getD_some]
      rcases hall f hin (j + 1) (hfeature ▸ hlt) with hcomp | hzero
      · rw [Pushed.component, if_neg (Nat.succ_ne_zero j), if_neg (hfeature ▸ hdim)] at hcomp
        cases hcomp
      · rwa [hval] at hzero
  · intro hall f hf j hj
    have hin : f < vs.length := by rwa [hsizes, List.length_map] at hf
    obtain ⟨v, hv⟩ : ∃ v, vs[f]? = some v := ⟨_, List.getElem?_eq_getElem hin⟩
    have hfeature := hsize f v hv
    cases j with
    | zero =>
        refine .inl ?_
        have hw := hstores.getD_weight hlen (f := f) (by omega)
        rw [Pushed.component, if_pos rfl, hvals, Nat.add_zero, hw]
    | succ j =>
        by_cases hdim : v.length = dim + 1
        · refine .inl ?_
          have hemb := hstores.getD_emb hlen (f := f) (k := j) (hfeature.trans hdim) (by omega)
          rw [Pushed.component, if_neg (Nat.succ_ne_zero j), if_pos (hfeature.trans hdim), hvals,
            show start r.sizes f + (j + 1) = start r.sizes f + 1 + j by omega, hemb,
            Nat.add_sub_cancel]
        · refine .inr ?_
          have hrest := hstores.getD_rest hlen (hfeature ▸ hdim) j.succ_pos hj
          have hlt : j + 1 < v.length := hfeature ▸ hj
          rw [hvals, hrest, hsizes, getD_flatten vs hv hlt]
          refine (hall v (List.mem_of_getElem? hv)).resolve_left hdim _ ?_
          refine List.mem_of_getElem? (i := j) ?_
          rw [List.getElem?_tail, List.getD_eq_getElem _ _ hlt, List.getElem?_eq_getElem hlt]

end Push

/-! ## The entries -/

section Entries

variable {h h₀ : AdaGradHandle F} {s s' s₀ : AsyncServer F}

/-- A pull of this entry has no embedding, one of the configured dimension, or zeros. -/
def Fits (h : AdaGradHandle F) (p : Param F) : Prop :=
  p.emb.length = h.V.dim ∨ (h.l1Shrk = true ∧ (p.w == 0) = true) ∨
    ∀ v ∈ p.emb, (v.1 == 0) = true

theorem fits_iff (h : AdaGradHandle F) (p : Param F) :
    ((p.pull h).length = h.V.dim + 1 ∨ ∀ x ∈ (p.pull h).tail, (x == 0) = true) ↔ Fits h p := by
  rw [Param.pull]
  by_cases hshort : (p.emb.isEmpty || (h.l1Shrk && p.w == 0)) = true
  · rw [if_pos hshort]
    refine iff_of_true (.inr fun x hx => ?_) ?_
    · cases hx
    · rw [Bool.or_eq_true, Bool.and_eq_true, List.isEmpty_iff] at hshort
      rcases hshort with hnil | hshrk
      · refine .inr (.inr fun v hv => ?_)
        rw [hnil] at hv
        cases hv
      · exact .inr (.inl hshrk)
  · rw [if_neg hshort, Fits, Param.length_weights, Nat.add_right_cancel_iff, Param.weights,
      List.tail_cons, List.forall_mem_map]
    rw [Bool.or_eq_true, Bool.and_eq_true, not_or] at hshort
    exact or_congr_right (iff_or_self.mpr fun hshrk => absurd hshrk hshort.2)

/-- The entries of one dimension. -/
def OneDim (h : AdaGradHandle F) (s : AsyncServer F) : Prop :=
  ∀ k, (s.param k).emb.length = 0 ∨ (s.param k).emb.length = h.V.dim

theorem OneDim.congr (hs : OneDim h s) (hparam : ∀ k, s'.param k = s.param k) : OneDim h s' := by
  intro k
  rw [hparam k]
  exact hs k

theorem OneDim.fits (hs : OneDim h s) (k : UInt64) : Fits h (s.param k) := by
  rcases hs k with hzero | hdim
  · refine .inr (.inr fun v hv => ?_)
    rw [List.length_eq_zero_iff.mp hzero] at hv
    cases hv
  · exact .inl hdim

theorem OneDim.put (hs : OneDim h s) {k : UInt64} {p : Param F}
    (hp : p.emb.length = 0 ∨ p.emb.length = h.V.dim) : OneDim h (s.put k p.toEntry) := by
  intro k'
  rw [AsyncServer.param_put]
  split
  · exact hp
  · exact hs k'

/-- One request keeps them. -/
theorem OneDim.handle (hs : s.Valid ∧ OneDim h s) {req : Request F} {r : Option (Response F)}
    (hrun : s.handle h req = some (s', r)) : s'.Valid ∧ OneDim h s' := by
  refine AsyncServer.handle_invariant (P := fun s => s.Valid ∧ OneDim h s) ?_ ?_ ?_ hs hrun
  · intro s s' pushCount kb hs hrun
    refine ⟨hs.1.pushKey hrun, ?_⟩
    rw [AsyncServer.pushKey_eq hs.1, Option.map_eq_some_iff] at hrun
    obtain ⟨r, hr, rfl⟩ := hrun
    refine (hs.2.put (k := kb.1) ?_).congr fun k => AsyncServer.param_congr rfl k
    rcases (Param.tracks_push h _ _ hr).size with hsame | ⟨-, hgrown⟩
    · rw [hsame]
      exact hs.2 kb.1
    · exact .inr hgrown
  · intro s s' k vs vs' hs hrun
    refine ⟨hs.1.pullKey hrun, ?_⟩
    rw [AsyncServer.pullKey_eq hs.1] at hrun
    cases hrun
    exact hs.2.put (hs.2 k)
  · intro s hs
    exact ⟨hs.1.congr AsyncServer.data_report,
      hs.2.congr fun k => AsyncServer.param_congr AsyncServer.data_report k⟩

theorem OneDim.loaded (hs : OneDim h s) {kps : List (UInt64 × Param F)}
    (hkps : ∀ kp ∈ kps, kp.2.emb.length = 0 ∨ kp.2.emb.length = h.V.dim) :
    OneDim h (kps.foldl AsyncServer.loadRecord s) := by
  induction kps generalizing s with
  | nil => exact hs
  | cons kp kps ih =>
      have hput : OneDim h (s.put kp.1 { kp.2 with feaCnt := (s.entry kp.1).feaCnt }.toEntry) :=
        hs.put (hkps kp (by simp))
      exact ih (hput.congr fun k => AsyncServer.param_congr rfl k)
        fun kp' hkp' => hkps kp' (List.mem_cons_of_mem _ hkp')

/-- Whether a minibatch pushes only gradients is decided by the entries of its keys. -/
theorem pushed_iff {ar : Arith F} {team : Team} {conf : Option (EmbeddingConf F)}
    (hconf : dimOf conf = h.V.dim) (hs : s.Valid) {keys : List UInt64} {data : RowBlock F}
    {r : Pushed F} (hsize : keys ≠ [] → data.size ≠ 0)
    (hrun : processMinibatch ar team conf h s keys data = some r) :
    r.OnlyGradients h.V.dim ↔ ∀ k ∈ keys, Fits h (s.param k) := by
  have hlt : ((pulled h s keys).map List.length).sum < 2 ^ 32 := by
    by_contra hge
    rw [processMinibatch_eq_none ar team conf hs data (by omega)] at hrun
    cases hrun
  by_cases hkeys : keys = []
  · subst hkeys
    have hsizes : r.sizes = [] := by
      simp only [processMinibatch, Option.bind_eq_bind, Option.bind_eq_some_iff,
        Prod.exists] at hrun
      obtain ⟨s', r', hpull, l₀, _, l₁, _, g, l₂, _, hr⟩ := hrun
      obtain ⟨t, hpull'⟩ := handlePull_eq (h := h) hs []
      rw [hpull', Option.some.injEq, Prod.mk.injEq] at hpull
      cases hr
      rw [← hpull.2]
      rfl
    refine iff_of_true (fun f hf => ?_) (fun k hk => ?_)
    · rw [hsizes] at hf
      cases hf
    · cases hk
  · obtain ⟨r', hrun', hsizes, ws, us, hstores, hvals⟩ :=
      processMinibatch_spec ar team conf hs hkeys (hsize hkeys) hlt
    obtain rfl : r' = r := Option.some.inj (hrun'.symm.trans hrun)
    rw [hconf] at hstores
    rw [onlyGradients_iff hsizes hstores hvals, pulled, List.forall_mem_map]
    exact forall₂_congr fun k _ => fits_iff h (s.param k)

variable [FixedBytes F]

/-- Runs in which every checkpoint that is loaded has only entries without embedding and
entries with one of the configured dimension. -/
inductive Fitting (h : AdaGradHandle F) : AsyncServer F → Prop
  | init (stat : Stat F) : Fitting h (.init stat)
  | handle {s s' : AsyncServer F} {req : Request F} {r : Option (Response F)} :
      Fitting h s → s.handle h req = some (s', r) → Fitting h s'
  | load {h₀ : AdaGradHandle F} {s s' s₀ : AsyncServer F} {bs : List UInt8}
      {order : List (UInt64 × AdaGradEntry F)} :
      Fitting h s → AsyncServer.Reachable h₀ s₀ → s₀.Enumerates order →
      (∀ ke ∈ order, ke.2.size = 1 ∨ ke.2.size = h.V.dim + 1) →
      AsyncServer.saveModel order = some bs → s.loadModel bs = some s' → Fitting h s'

theorem Fitting.reachable (hf : Fitting h s) : AsyncServer.Reachable h s := by
  induction hf with
  | init stat => exact .init h stat
  | handle _ hrun ih => exact ih.handle hrun
  | load _ hr ho _ hbs hload ih => exact ih.load hr ho hbs hload

variable [LawfulFixedBytes F]

/-- Such runs have entries of one dimension only. -/
theorem Fitting.oneDim (hf : Fitting h s) : s.Valid ∧ OneDim h s := by
  refine ⟨hf.reachable.valid, ?_⟩
  induction hf with
  | init stat =>
      intro k
      left
      rw [AsyncServer.param, AsyncServer.entry, AsyncServer.init, Finmap.lookup_empty,
        Option.getD_none, ← Param.toEntry_new, Param.param_toEntry]
      rfl
  | handle hf hrun ih => exact (OneDim.handle ⟨hf.reachable.valid, ih⟩ hrun).2
  | load hf hr ho hsize hbs hload ih =>
      rw [AsyncServer.loadModel, AsyncServer.load_saved ho hr.valid hbs] at hload
      cases hload
      refine (OneDim.loaded ih fun kp hkp => ?_).congr fun k => AsyncServer.param_congr rfl k
      obtain ⟨hk, hp, -⟩ := (AsyncServer.mem_saved ho).mp hkp
      obtain ⟨e, he⟩ := Finmap.mem_iff.mp hk
      have hentry : e = kp.2.toEntry := by
        rw [hp, ← hr.valid.entry_eq, AsyncServer.entry_of_lookup he]
      have hsize' := hsize _ ((ho.2 kp.1 e).mpr he)
      rw [hentry, Param.size_toEntry] at hsize'
      omega

end Entries

/-! ## Runs in single precision -/

/-- The functions of `cmath`, where they are only asked for `exp(0)`. -/
def sampleArith : Arith Binary32 where
  half := ⟨0x3f000000⟩
  tiny := ⟨0x2edbe6ff⟩
  exp _ := one
  sqrt := FloatLike.sqrt
  lt a b := decide (a < b)
  rand _ := 0

/-- One thread. -/
def oneThread : Team := { Rounding.exact with nt := 1, nt_pos := Nat.one_pos, nt_lt := by decide }

/-- One row with feature 0. -/
def oneRow : RowBlock Binary32 :=
  { size := 1, offset := [0, 1], label := [one], index := [0], value := none }

/-- Train with dimension 1, save, and go on with dimension 2. -/
def changedDim : Option (AsyncServer Binary32 × List UInt8 × AsyncServer Binary32 ×
    Pushed Binary32) := do
  let (s₀, _) ← (AsyncServer.init sampleStat).handle (sampleHandle 1 sampleDim_lt)
    (.push true [5] [one + one] none)
  let bs ← AsyncServer.saveModel ([5].map fun k => (k, s₀.entry k))
  let s ← (AsyncServer.init sampleStat).loadModel bs
  let r ← processMinibatch sampleArith oneThread (some { EmbeddingConf.off with dim := 2 })
    (sampleHandle 2 (by decide)) s [5] oneRow
  return (s₀, bs, s, r)

end Difacto.Worker
