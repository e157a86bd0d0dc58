import Difacto.Base.Remap
import Difacto.Solver.Predict
import Difacto.Worker.Minibatch

/-!
# Predictions

`AsyncWorker::ProcessMinibatch` of `difacto/async_sgd.h` for a workload of type `PRED`, and
`Loss::Predict` of `difacto/loss.h`. A prediction pass over the servers of the model is the
prediction job of `Solver.Predict` with these predictions.

## Main definitions

* `Loss.predict` — `Predict`, as the numbers that are printed.
* `AsyncWorker.predict` — from the minibatch to its predictions.
* `AsyncWorker.job` — the job.

## Main results

* `AsyncWorker.length_predict` — one prediction for each row.
* `AsyncWorker.predictions_complete` — when the predictions are complete.
-/

namespace Difacto.FM.Loss

open Base Lib

variable {T : Type} [Zero T] [One T] [Add T] [Mul T] [Neg T] [Div T]

/-- `Predict` -/
def predict (ar : Arith T) (team : Team) (prob : Bool) (l : Loss T) : Option (List T) := do
  let py ← if l.py.isEmpty then SpMV.times team l.w.X l.w.weight (resize l.py l.w.X.size)
    else some l.py
  return if prob then py.map fun p => 1 / (1 + ar.exp (-p)) else py

end Difacto.FM.Loss

namespace Difacto.Worker

open Base Lib FM Server Solver

variable {F : Type} [FloatLike F]

/-- A block as `Loss` sees it. -/
def toRowBlock (b : InputBlock ℕ F) : RowBlock F :=
  { size := b.size, offset := b.offset, label := b.label, index := b.index, value := b.value }

/-- What predictions depend on. -/
structure AsyncWorker (F : Type) where
  ar : Arith F
  team : Team
  /-- `embedding(0)` -/
  conf : Option (EmbeddingConf F)
  /-- `prob_predict` -/
  prob : Bool
  maxKey : UInt64
  /-- what is behind the end of an empty `pair_` -/
  junk : UInt64

namespace AsyncWorker

/-- `ProcessMinibatch`: pull the weight from the servers, and predict. -/
def predict (w : AsyncWorker F) (h : AdaGradHandle F) (s : AsyncServer F)
    (mb : InputBlock UInt64 F) : Option (List F) := do
  let (kcs, data) ← localize w.maxKey w.junk mb
  let (_, r) ← s.handlePull h (kcs.map Prod.fst) true
  let block ← data.getBlock
  let loss ← Loss.new w.conf (toRowBlock block) r.vals r.sizes
  let loss ← Loss.evaluate w.ar w.team loss
  Loss.predict w.ar w.team w.prob loss

/-- **One prediction for each row** of a minibatch. -/
theorem length_predict {w : AsyncWorker F} {h : AdaGradHandle F} {s : AsyncServer F}
    {mb : InputBlock UInt64 F} {ps : List F} (hs : s.Valid) (hsize : 0 < mb.size)
    (hps : w.predict h s mb = some ps) : ps.length = mb.size := by
  simp only [predict, Option.bind_eq_bind, Option.bind_eq_some_iff] at hps
  obtain ⟨⟨kcs, data⟩, hlocal, ⟨s', r⟩, hpull, block, hblock, l₀, hnew, l₁, heval, hpredict⟩ := hps
  obtain ⟨hkcs, hrows⟩ := size_of_localize hsize.ne' hlocal hblock
  obtain ⟨s'', hpull'⟩ := handlePull_eq (h := h) hs (kcs.map Prod.fst)
  rw [hpull, Option.some.injEq, Prod.mk.injEq] at hpull'
  obtain ⟨-, rfl⟩ := hpull'
  have hlen : ((pulled h s (kcs.map Prod.fst)).map List.length).sum =
      (pulled h s (kcs.map Prod.fst)).flatten.length := List.length_flatten.symm
  have hshort : (pulled h s (kcs.map Prod.fst)).flatten.length < 2 ^ 32 := by
    by_contra hlong
    have hload : Data.load 0 (toRowBlock block) (pulled h s (kcs.map Prod.fst)).flatten
        ((pulled h s (kcs.map Prod.fst)).map List.length) = none :=
      Data.loadW_eq_none _ hlen (not_lt.mp hlong)
    simp only [pulled] at hload
    simp only [Loss.new, hload, Option.bind_eq_bind, Option.bind_none] at hnew
    cases hnew
  obtain ⟨l, hl, -, hshape⟩ := Loss.new_shape w.conf (toRowBlock block) hlen hshort
    (by simpa [pulled] using hkcs)
  simp only [pulled] at hl
  rw [hnew, Option.some.injEq] at hl
  subst hl
  have hpos : block.size ≠ 0 := by omega
  obtain ⟨l', hl', -, hpy, -⟩ := Loss.evaluate_shape w.ar w.team hshape hpos
  rw [heval, Option.some.injEq] at hl'
  subst hl'
  have hpy' : l₁.py.length = mb.size := hpy.trans hrows
  have hne : l₁.py.isEmpty = false := by
    rw [List.isEmpty_eq_false_iff, ← List.length_pos_iff]
    omega
  simp only [Loss.predict, hne, Bool.false_eq_true, if_false, Option.bind_eq_bind,
    Option.bind_some, Option.pure_def, Option.some.injEq] at hpredict
  rw [← hpredict]
  split
  · rw [List.length_map, hpy']
  · exact hpy'

/-- A prediction job of this worker; the servers may be in any valid state. -/
def job (w : AsyncWorker F) (h : AdaGradHandle F) (conf : PredictConf F) :
    PredictJob { s : AsyncServer F // s.Valid } F :=
  { conf with
    predict := fun s mb => w.predict h s.1 mb
    length_predict := fun {s} _ _ hsize hps => length_predict s.2 hsize hps }

variable [DecidableEq F]

/-- A row with feature 5. -/
def oneInput : InputBlock UInt64 Binary32 :=
  { size := 1, offset := [0, 1], label := [one], weight := none, index := [5],
    value := none }

/-- All parts have one row. The model is empty, so all predictions are 0. -/
def sampleConf : PredictConf Binary32 where
  predictOut := "out-"
  npart := 1
  npart_pos := Nat.one_pos
  format := "libsvm"
  dataPass := 0
  limits := { concurrentMb := 1, valConcurrentMb := 10 }
  source _ := [oneInput]
  text _ := "0"

def sampleWorker : AsyncWorker Binary32 :=
  { ar := sampleArith, team := oneThread, conf := some { EmbeddingConf.off with dim := 1 },
    prob := false, maxKey := maxIndex, junk := 0 }

/-- The pool with these files. -/
def sampleLedger (files : List String) : Ledger :=
  ((Ledger.start {}).step 1 (.add (files.map fun f => { filename := f }) "")).getD (Ledger.start {})

abbrev sampleJob : PredictJob { s : AsyncServer Binary32 // s.Valid } Binary32 :=
  sampleWorker.job (sampleHandle 1 sampleDim_lt) sampleConf

theorem matched_sampleLedger (files : List String) :
    Pass.Matched sampleJob (sampleLedger files) := by
  have hok : (Ledger.start {}).Allowed (.add (files.map fun f => { filename := f }) "") := .inl rfl
  obtain ⟨l, hl, -⟩ := (Ledger.runInv_start 1 {}).step (by decide) hok
  have hledger : sampleLedger files = l := by rw [sampleLedger, hl, Option.getD_some]
  refine ⟨⟨{}, ?_⟩, ?_⟩
  · rw [hledger]
    exact .tail .refl hok hl
  · rw [hledger]
    simp only [Ledger.step, Option.map_eq_some_iff] at hl
    obtain ⟨p, -, rfl⟩ := hl
    rfl

/-- The servers before any training. -/
def emptyServer : { s : AsyncServer Binary32 // s.Valid } :=
  ⟨AsyncServer.init sampleStat, AsyncServer.valid_init sampleStat⟩

/-- A worker gets a part and goes through it. -/
def process (id : String) (order : List String) :
    List (Pass.Act { s : AsyncServer Binary32 // s.Valid }) :=
  [.assign id order 0 0, .work id .next, .work id .wake, .work id .process,
    .predict id 0 emptyServer, .work id .count, .work id .next, .work id .wake]

theorem valid_oneInput : oneInput.Valid :=
  ⟨rfl, by decide, rfl, by decide, by simp [oneInput]⟩

end AsyncWorker

end Difacto.Worker
