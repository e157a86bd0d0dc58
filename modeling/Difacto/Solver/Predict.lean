import Difacto.Base.MinibatchIter
import Difacto.Base.PoolAccounting
import Difacto.Solver.Minibatch
import Difacto.Solver.Output

/-!
# A prediction pass

The workers of a pass of type `PRED`: the pool hands out the parts of the matched files, a
worker reads the minibatches of its part with an unshuffled `MinibatchIter`, and the callback
of a minibatch predicts it. What `ProcessMinibatch` predicts is left to the job: it may use
the state of the servers at that time. No worker fails and no straggler is removed.

The output of a part is named after the file without its directory, and it is opened when the
first minibatch is predicted.

## Main definitions

* `PredictConf`, `PredictJob` — the settings, the data and the predictions.
* `Call`, `Call.step` — a call of `Process`.
* `Pass`, `Pass.step` — the pool, the workers and the files.
* `Pass.Complete` — every part has an output of its own, with a line for each example.

## Main results

* `Call.Inv.predicted` — minibatches are predicted in order.
* `Pass.complete_iff` — when a finished pass is complete.
-/

namespace Difacto.Solver

open Base Lib

/-- `val_mb_size_` -/
def valMbSize : ℕ := 10000000

/-- The settings and the data of a prediction job. -/
structure PredictConf (F : Type) where
  /-- `predict_out` -/
  predictOut : String
  /-- `num_parts_per_file` -/
  npart : ℕ
  npart_pos : 0 < npart
  /-- the format of the data -/
  format : String
  dataPass : ℤ
  limits : MinibatchConf
  /-- the blocks that the parser delivers for a part -/
  source : Workload.File → List (InputBlock UInt64 F)
  /-- `os << p` -/
  text : F → String

/-- A prediction job; `S` are the states of the servers. -/
structure PredictJob (S F : Type) extends PredictConf F where
  /-- what is predicted for a minibatch -/
  predict : S → InputBlock UInt64 F → Option (List F)
  length_predict : ∀ {s blk ps}, 0 < blk.size → predict s blk = some ps → ps.length = blk.size

variable {S F : Type} [One F] [DecidableEq F]

/-- The text of predictions, a line each. -/
def lines (text : F → String) (ps : List F) : List Char :=
  ps.flatMap fun p => (text p).toList ++ ['\n']

/-- The state of a call of `Process`. -/
structure Call (F : Type) where
  /-- `wl.file[0]` -/
  file : Workload.File
  reader : MinibatchIter UInt64 F
  /-- `reader.Value()` -/
  value : InputBlock UInt64 F
  /-- the minibatches that `ProcessMinibatch` got -/
  mbs : List (InputBlock UInt64 F)
  flight : Flight

namespace Call

/-- The beginning of `Process`. -/
def start (source : List (InputBlock UInt64 F)) (file : Workload.File) : Call F :=
  { file
    reader := .init valMbSize source
    value := (MinibatchIter.init valMbSize source).inBlk
    mbs := []
    flight := .init }

/-- What the thread of `Process` does next. -/
inductive Act
  | next
  | wake
  | process
  | count

/-- One step of the thread of `Process`. -/
def step (maxMb : ℤ) (c : Call F) : Act → Option (Call F)
  | .next => do
    let (more, value, reader) ← c.reader.next
    let flight ← c.flight.step maxMb (.next more)
    return { c with reader, value, flight }
  | .wake => (c.flight.step maxMb .wake).map fun flight => { c with flight }
  | .process => (c.flight.step maxMb .process).map fun flight =>
      { c with mbs := c.mbs ++ [c.value], flight }
  | .count => (c.flight.step maxMb .count).map fun flight => { c with flight }

/-- What the reader has delivered. -/
def Read (source : List (InputBlock UInt64 F)) (c : Call F) : Prop :=
  match c.flight.pc with
  | .next | .count => ∀ rest, c.reader.Delivers rest →
      (MinibatchIter.init valMbSize source).Delivers (c.mbs ++ rest)
  | .wait | .process => ∀ rest, c.reader.Delivers rest →
      (MinibatchIter.init valMbSize source).Delivers (c.mbs ++ c.value :: rest)
  | .waitAll | .returned => (MinibatchIter.init valMbSize source).Delivers c.mbs

/-- **The invariant of a call**: the minibatches are finished in order. -/
structure Inv (source : List (InputBlock UInt64 F)) (c : Call F) : Prop where
  flight : c.flight.Inv 1
  submitted : c.flight.submitted = c.mbs.length
  finished : c.flight.finished = (List.range c.flight.finished.length).reverse
  read : c.Read source

variable {source : List (InputBlock UInt64 F)} {c c' : Call F}

theorem inv_start (source : List (InputBlock UInt64 F)) (file : Workload.File) :
    (start source file).Inv source where
  flight := Flight.inv_init le_rfl
  submitted := rfl
  finished := rfl
  read := fun _ h => h

/-- What a step of the flight does to the counters that the reader knows of. -/
theorem Inv.step (h : c.Inv source) {a : Act} (hs : c.step 1 a = some c') :
    c'.Inv source ∧ c'.file = c.file ∧ c'.flight.finished = c.flight.finished ∧
      c.mbs <+: c'.mbs := by
  have hread := h.read
  cases a with
  | next =>
      simp only [Call.step, Option.bind_eq_bind, Option.bind_eq_some_iff, Option.pure_def,
        Option.some.injEq] at hs
      obtain ⟨⟨more, value, reader⟩, hnext, flight, hflight, rfl⟩ := hs
      have hinv := h.flight.step hflight
      simp only [Flight.step] at hflight
      split at hflight
      · rename_i hpc
        cases hflight
        refine ⟨⟨hinv, h.submitted, h.finished, ?_⟩, rfl, rfl, List.prefix_rfl⟩
        simp only [Read, hpc] at hread ⊢
        cases more with
        | true => exact fun rest hrest => hread _ (.step hnext hrest)
        | false => simpa using hread [] (.done hnext)
      · cases hflight
  | wake =>
      simp only [Call.step, Option.map_eq_some_iff] at hs
      obtain ⟨flight, hflight, rfl⟩ := hs
      have hinv := h.flight.step hflight
      cases hpc : c.flight.pc with
      | wait =>
          simp only [Flight.step, hpc] at hflight
          split at hflight
          · cases hflight
            refine ⟨⟨hinv, h.submitted, h.finished, ?_⟩, rfl, rfl, List.prefix_rfl⟩
            simpa only [Read, hpc] using hread
          · cases hflight
      | waitAll =>
          simp only [Flight.step, hpc] at hflight
          split at hflight
          · cases hflight
            refine ⟨⟨hinv, h.submitted, h.finished, ?_⟩, rfl, rfl, List.prefix_rfl⟩
            simpa only [Read, hpc] using hread
          · cases hflight
      | next => simp [Flight.step, hpc] at hflight
      | process => simp [Flight.step, hpc] at hflight
      | count => simp [Flight.step, hpc] at hflight
      | returned => simp [Flight.step, hpc] at hflight
  | process =>
      simp only [Call.step, Option.map_eq_some_iff] at hs
      obtain ⟨flight, hflight, rfl⟩ := hs
      have hinv := h.flight.step hflight
      simp only [Flight.step] at hflight
      split at hflight
      · rename_i hpc
        cases hflight
        refine ⟨⟨hinv, ?_, h.finished, ?_⟩, rfl, rfl, List.prefix_append _ _⟩
        · simp [h.submitted]
        · simp only [Read, hpc] at hread ⊢
          simpa using hread
      · cases hflight
  | count =>
      simp only [Call.step, Option.map_eq_some_iff] at hs
      obtain ⟨flight, hflight, rfl⟩ := hs
      have hinv := h.flight.step hflight
      simp only [Flight.step] at hflight
      split at hflight
      · rename_i hpc
        cases hflight
        refine ⟨⟨hinv, h.submitted, h.finished, ?_⟩, rfl, rfl, List.prefix_rfl⟩
        simpa only [Read, hpc] using hread
      · cases hflight

/-- **Order.** Only one minibatch is in flight, so the callback that runs is that of the first
minibatch which is not finished. -/
theorem Inv.predicted (h : c.Inv source) {i : ℕ} {flight : Flight}
    (hs : c.flight.step 1 (.finish i) = some flight) :
    i = c.flight.finished.length ∧ flight.finished.length = i + 1 ∧
      ({ c with flight } : Call F).Inv source := by
  have hinv := h.flight.step hs
  have hle := h.flight.le
  simp only [Flight.step] at hs
  split at hs
  · rename_i hi
    cases hs
    have hnot : ¬ i < c.flight.finished.length := by
      intro hlt
      refine hi.2 ?_
      rw [h.finished]
      simpa using hlt
    have hnext : i = c.flight.finished.length := by omega
    refine ⟨hnext, by simp [hnext], hinv, h.submitted, ?_, h.read⟩
    simp only [List.length_cons]
    rw [List.range_succ, List.reverse_append, ← h.finished, hnext]
    rfl
  · cases hs

/-- When `Process` has returned, all minibatches of the part are finished. -/
theorem Inv.returned (h : c.Inv source) (hpc : c.flight.pc = .returned) :
    (MinibatchIter.init valMbSize source).Delivers c.mbs ∧
      c.flight.finished.length = c.mbs.length := by
  have hread := h.read
  have hret := h.flight.returned hpc
  have hle := h.flight.finished_le
  simp only [Read, hpc] at hread
  refine ⟨hread, ?_⟩
  rw [← h.submitted]
  omega

end Call

/-! ## The pass -/

namespace PredictJob

/-- Part `k` of file `f`, as it is sent to a worker. -/
def file (job : PredictJob S F) (f : String) (k : ℕ) : Workload.File :=
  { filename := f, format := job.format, n := job.npart, k := k }

/-- The output of part `k` of file `f`. -/
def name (job : PredictJob S F) (f : String) (k : ℕ) : String :=
  predictName job.predictOut (job.file f k)

/-- The workload that the pool fills. -/
def workload (job : PredictJob S F) : Workload := { type := .pred, dataPass := job.dataPass }

/-- `max_mb` of `Process`. -/
def maxMb (job : PredictJob S F) : ℤ := job.limits.maxMb .pred

/-- Predictions for minibatches; the servers may change in between. -/
def Printed (job : PredictJob S F) (blks : List (InputBlock UInt64 F)) (pss : List (List F)) :
    Prop :=
  List.Forall₂ (fun blk ps => ∃ st, job.predict st blk = some ps) blks pss

/-- Predictions for the examples of a part, one for each, in order. -/
def Predicts (job : PredictJob S F) (source : List (InputBlock UInt64 F)) (ps : List F) : Prop :=
  ps.length = (InputBlock.sourceRows source).length ∧
    ∃ blks pss, (InputBlock.sourceRows blks).map (fun r => (r.label, r.features)) =
      (InputBlock.sourceRows source).map (fun r => (r.label, r.features)) ∧
      job.Printed blks pss ∧ ps = pss.flatten

end PredictJob

/-- A worker. -/
structure PredictWorker (F : Type) where
  iter : IterWorker := {}
  /-- the call of `Process`, if there is one -/
  call : Option (Call F) := none

/-- The state of a pass. -/
structure Pass (F : Type) where
  ledger : Ledger
  worker : String → PredictWorker F
  files : Files

namespace Pass

/-- What happens next. -/
inductive Act (S : Type)
  /-- `id` gets a part -/
  | assign (id : String) (order : List String) (rnd : ℕ) (now : ℚ)
  /-- the thread of `Process` goes on -/
  | work (id : String) (a : Call.Act)
  /-- the callback of minibatch `i`, when the servers are in state `st` -/
  | predict (id : String) (i : ℕ) (st : S)
  /-- the scheduler hears that `id` is done -/
  | finish (id : String) (now : ℚ)

/-- Change the worker `id`. -/
def setWorker (s : Pass F) (id : String) (w : PredictWorker F) : Pass F :=
  { s with worker := Function.update s.worker id w }

/-- One step; `none` if it is not enabled, or a `CHECK` fails. -/
def step (job : PredictJob S F) (s : Pass F) : Act S → Option (Pass F)
  | .assign id order rnd now =>
    if (s.worker id).call.isNone then
      match (s.ledger.pool.get id order rnd now job.workload).2.file with
      | [] => none
      | f :: _ => do
        let ledger ← s.ledger.step job.npart (.get id order rnd now job.workload)
        let file := { f with format := job.format }
        return { s with ledger }.setWorker id
          { s.worker id with call := some (.start (job.source file) file) }
    else none
  | .work id a => do
    let c ← (s.worker id).call
    let c ← c.step job.maxMb a
    return s.setWorker id { s.worker id with call := some c }
  | .predict id i st => do
    let c ← (s.worker id).call
    let flight ← c.flight.step job.maxMb (.finish i)
    let blk ← c.mbs[i]?
    let ps ← job.predict st blk
    let (iter, files) ← (s.worker id).iter.print (predictName job.predictOut c.file)
      (lines job.text ps) s.files
    return { s with files }.setWorker id { iter, call := some { c with flight } }
  | .finish id now => do
    let c ← (s.worker id).call
    if c.flight.pc = .returned then
      let ledger ← s.ledger.step job.npart (.finish id now)
      return { s with ledger }.setWorker id { s.worker id with call := none }
    else none

/-- `Get` iterates over the files that are in the pool. -/
def Allowed (job : PredictJob S F) (s : Pass F) : Act S → Prop
  | .assign id order rnd now => s.ledger.Allowed (.get id order rnd now job.workload)
  | _ => True

instance (job : PredictJob S F) (s : Pass F) (a : Act S) : Decidable (Allowed job s a) :=
  match a with
  | .assign id order rnd now =>
    inferInstanceAs (Decidable (s.ledger.Allowed (.get id order rnd now job.workload)))
  | .work _ _ | .predict _ _ _ | .finish _ _ => inferInstanceAs (Decidable True)

/-- The beginning: the files are in the pool, and `files` is what the disks have. -/
def start (ledger : Ledger) (files : Files) : Pass F :=
  { ledger, worker := fun _ => {}, files }

/-- **Complete**: every part has an output with a line for each example, in order, and the
outputs of different parts are different. -/
structure Complete (job : PredictJob S F) (s : Pass F) : Prop where
  content : ∀ f ∈ s.ledger.added, ∀ k < job.npart, ∃ ps,
    job.Predicts (job.source (job.file f k)) ps ∧
      s.files (job.name f k) = some (lines job.text ps)
  distinct : ∀ f ∈ s.ledger.added, ∀ g ∈ s.ledger.added, ∀ k < job.npart, ∀ j < job.npart,
    job.name f k = job.name g j → f = g ∧ k = j

end Pass

/-! ## Outputs -/

section Outputs

variable {job : PredictJob S F} {files₀ : Files}

/-- The output of the minibatches that are predicted so far. -/
def Output (job : PredictJob S F) (files₀ : Files) (out : String)
    (blks : List (InputBlock UInt64 F)) (iter : IterWorker) (files : Files) : Prop :=
  ∃ pss, job.Printed blks pss ∧
    (blks = [] ∧ iter.prevOut ≠ out ∧ files out = files₀ out ∨
      blks ≠ [] ∧ iter.Opened out (lines job.text pss.flatten) files)

/-- The output of a part that is finished. -/
def Outcome (job : PredictJob S F) (files₀ files : Files) (f : String) (k : ℕ) : Prop :=
  ∃ blks pss, (MinibatchIter.init valMbSize (job.source (job.file f k))).Delivers blks ∧
    job.Printed blks pss ∧
    (blks = [] ∧ files (job.name f k) = files₀ (job.name f k) ∨
      blks ≠ [] ∧ files (job.name f k) = some (lines job.text pss.flatten))

omit [One F] [DecidableEq F] in
theorem Output.congr {out : String} {blks : List (InputBlock UInt64 F)} {iter : IterWorker}
    {files files' : Files} (h : Output job files₀ out blks iter files)
    (hfiles : files' out = files out) : Output job files₀ out blks iter files' := by
  obtain ⟨pss, hpss, hout⟩ := h
  refine ⟨pss, hpss, ?_⟩
  rcases hout with ⟨hnil, hprev, hcontent⟩ | ⟨hne, hopen⟩
  · exact .inl ⟨hnil, hprev, hfiles.trans hcontent⟩
  · exact .inr ⟨hne, hopen.congr hfiles⟩

theorem Outcome.congr {files files' : Files} {f : String} {k : ℕ}
    (h : Outcome job files₀ files f k) (hfiles : files' (job.name f k) = files (job.name f k)) :
    Outcome job files₀ files' f k := by
  obtain ⟨blks, pss, hblks, hpss, hout⟩ := h
  refine ⟨blks, pss, hblks, hpss, ?_⟩
  rw [hfiles]
  exact hout

omit [One F] [DecidableEq F] in
/-- **One more minibatch**: its lines go behind those of the others. -/
theorem Output.print {out : String} {blks : List (InputBlock UInt64 F)} {iter iter' : IterWorker}
    {files files' : Files} {blk : InputBlock UInt64 F} {st : S} {ps : List F}
    (h : Output job files₀ out blks iter files) (hps : job.predict st blk = some ps)
    (hprint : iter.print out (lines job.text ps) files = some (iter', files')) :
    Output job files₀ out (blks ++ [blk]) iter' files' ∧ iter'.prevOut = out ∧
      ∀ g, g ≠ out → files' g = files g := by
  obtain ⟨pss, hpss, hout⟩ := h
  have hready : iter.Opened out (lines job.text pss.flatten) files ∨
      lines job.text pss.flatten = [] ∧ iter.prevOut ≠ out := by
    rcases hout with ⟨rfl, hprev, -⟩ | ⟨-, hopen⟩
    · cases hpss
      exact .inr ⟨rfl, hprev⟩
    · exact .inl hopen
  obtain ⟨iter'', files'', hprint', hopen, hframe⟩ :=
    IterWorker.print_eq _ (lines job.text ps) hready
  rw [hprint, Option.some.injEq, Prod.mk.injEq] at hprint'
  obtain ⟨rfl, rfl⟩ := hprint'
  refine ⟨⟨pss ++ [ps], ?_, .inr ⟨by simp, ?_⟩⟩, hopen.prevOut, hframe⟩
  · exact List.rel_append hpss (.cons ⟨st, hps⟩ .nil)
  · have hlines : lines job.text (pss ++ [ps]).flatten =
        lines job.text pss.flatten ++ lines job.text ps := by
      simp [lines]
    rw [hlines]
    exact hopen

end Outputs

/-! ## Runs of the pass -/

namespace PredictJob

omit [One F] [DecidableEq F] in
theorem file_inj {job : PredictJob S F} {f g : String} {k j : ℕ} :
    job.file f k = job.file g j ↔ f = g ∧ k = j := by
  simp [file]

end PredictJob

namespace Pass

/-- The minibatches of a call that are finished. -/
def printed (c : Call F) : List (InputBlock UInt64 F) := c.mbs.take c.flight.finished.length

/-- **The invariant of a pass**: the workers work on the entries of the pool, and a file is
what the job it belongs to made of it. -/
structure Inv (job : PredictJob S F) (files₀ : Files) (s : Pass F) : Prop where
  run : s.ledger.RunInv job.npart
  phase : s.ledger.phase ≠ .drained
  begun : s.ledger.phase ≠ .cleared
  entry : ∀ a ∈ s.ledger.pool.assigned, ∃ c, (s.worker a.node).call = some c ∧
    c.file = job.file a.filename a.k
  busy : ∀ id c, (s.worker id).call = some c → ∃ a ∈ s.ledger.pool.assigned, a.node = id ∧
    c.file = job.file a.filename a.k
  call : ∀ id c, (s.worker id).call = some c → c.Inv (job.source c.file)
  output : ∀ id c, (s.worker id).call = some c →
    Output job files₀ (predictName job.predictOut c.file) (printed c) (s.worker id).iter s.files
  prev : ∀ id, ∀ f ∈ s.ledger.added, ∀ k < job.npart,
    (s.worker id).iter.prevOut = job.name f k →
      (f, k) ∈ s.ledger.finished ∨ ∃ c, (s.worker id).call = some c ∧ c.file = job.file f k
  untouched : ∀ f ∈ s.ledger.added, ∀ k < job.npart, (f, k) ∉ s.ledger.finished →
    (∀ id c, (s.worker id).call = some c → c.file ≠ job.file f k) →
      s.files (job.name f k) = files₀ (job.name f k)
  done : ∀ f k, (f, k) ∈ s.ledger.finished → Outcome job files₀ s.files f k

variable {job : PredictJob S F} {files₀ : Files} {s s' : Pass F}

/-! ### One worker changes -/

section Update

omit [One F] [DecidableEq F]

variable {id : String} {w : PredictWorker F}

theorem worker_self (h : s'.worker = Function.update s.worker id w) : s'.worker id = w := by
  rw [h, Function.update_self]

theorem worker_of_ne (h : s'.worker = Function.update s.worker id w) {id' : String}
    (hid : id' ≠ id) : s'.worker id' = s.worker id' := by
  rw [h, Function.update_of_ne hid]

theorem iter_of_update (h : s'.worker = Function.update s.worker id w)
    (hw : w.iter = (s.worker id).iter) (id' : String) :
    (s'.worker id').iter = (s.worker id').iter := by
  by_cases hid : id' = id
  · rw [hid, worker_self h, hw]
  · rw [worker_of_ne h hid]

/-- What holds of the call of this worker and of those of the others holds of all calls. -/
theorem forall_call_of_update (h : s'.worker = Function.update s.worker id w)
    {P : String → Call F → Prop} (hthis : ∀ c, w.call = some c → P id c)
    (hrest : ∀ id' c, id' ≠ id → (s.worker id').call = some c → P id' c) :
    ∀ id' c, (s'.worker id').call = some c → P id' c := by
  intro id' c hc
  by_cases hid : id' = id
  · rw [hid, worker_self h] at hc
    rw [hid]
    exact hthis c hc
  · rw [worker_of_ne h hid] at hc
    exact hrest id' c hid hc

end Update

/-- Different parts have different outputs. -/
def Distinct (job : PredictJob S F) (added : Finset String) : Prop :=
  ∀ f ∈ added, ∀ g ∈ added, ∀ k < job.npart, ∀ j < job.npart,
    job.name f k = job.name g j → f = g ∧ k = j

theorem Inv.ledger (h : s.Inv job files₀) :
    Ledger.Inv job.npart s.ledger.added s.ledger.finished s.ledger.pool :=
  h.run.inv h.phase

/-- An entry is a part of a matched file. -/
theorem Inv.mem_added (h : s.Inv job files₀) {a : Assigned} (ha : a ∈ s.ledger.pool.assigned) :
    a.filename ∈ s.ledger.added ∧ a.k < job.npart ∧ (a.filename, a.k) ∉ s.ledger.finished := by
  obtain ⟨t, ht, hk⟩ := WorkloadPool.lookup_of_trackAt (h.ledger.sound.trackAt_of_mem ha)
  have hlt : a.k < job.npart := by
    rw [← h.ledger.sound.track_length ht]
    exact (List.getElem?_eq_some_iff.mp hk).1
  refine ⟨h.ledger.added_of_lookup ht, hlt, fun hfin => ?_⟩
  rw [← h.ledger.done_iff ht hlt, hk] at hfin
  cases hfin

/-- Two workers never work on the same part. -/
theorem Inv.node_unique (h : s.Inv job files₀) {id id' : String} {c c' : Call F}
    (hc : (s.worker id).call = some c) (hc' : (s.worker id').call = some c')
    (hfile : c.file = c'.file) : id = id' := by
  obtain ⟨a, ha, rfl, hca⟩ := h.busy id c hc
  obtain ⟨a', ha', rfl, hca'⟩ := h.busy id' c' hc'
  rw [hca, hca', PredictJob.file_inj] at hfile
  have hpart : Ledger.part a = Ledger.part a' := Prod.ext hfile.1 hfile.2
  rw [List.inj_on_of_nodup_map (Ledger.nodup_parts h.ledger.sound) ha ha' hpart]

/-- What `assign` does: a part that nobody has goes to an idle worker. -/
theorem Inv.assign_cases (h : s.Inv job files₀) {id : String} {order : List String} {rnd : ℕ}
    {now : ℚ} (hok : Allowed job s (.assign id order rnd now))
    (hs : s.step job (.assign id order rnd now) = some s') :
    (s.worker id).call = none ∧ ∃ f k t, f ∈ s.ledger.added ∧ k < job.npart ∧
      (f, k) ∉ s.ledger.finished ∧ s.ledger.pool.trackAt f k = some .available ∧
      s'.ledger.RunInv job.npart ∧ s'.ledger.phase = Ledger.mixed s.ledger.phase ∧
      s'.ledger.added = s.ledger.added ∧ s'.ledger.finished = s.ledger.finished ∧
      s'.ledger.pool.assigned =
        s.ledger.pool.assigned ++ [WorkloadPool.handedEntry id now f k t] ∧
      s'.files = s.files ∧ s'.worker = Function.update s.worker id { s.worker id with
        call := some (.start (job.source (job.file f k)) (job.file f k)) } := by
  have hok' : s.ledger.Allowed (.get id order rnd now job.workload) := hok
  obtain ⟨ledger, hledger, hrun⟩ := h.run.step job.npart_pos hok'
  simp only [Pass.step] at hs
  split at hs
  · rename_i hidle
    rw [Option.isNone_iff_eq_none] at hidle
    refine ⟨hidle, ?_⟩
    rcases WorkloadPool.get_cases id order rnd now s.ledger.pool job.workload with
      ⟨hget, -⟩ | ⟨f, k, t, ht, -, hk, hget⟩
    · rw [hget] at hs
      cases hs
    · have hlen := h.ledger.sound.track_length ht
      have hlt : k < job.npart := hlen ▸ (List.getElem?_eq_some_iff.mp hk).1
      have hnot : (f, k) ∉ s.ledger.finished := by
        intro hfin
        rw [← h.ledger.done_iff ht hlt, hk] at hfin
        cases hfin
      have hfile : ({ (WorkloadPool.handedEntry id now f k t).get with format := job.format } :
          Workload.File) = job.file f k := by
        simp [WorkloadPool.handedEntry, Assigned.get, PredictJob.file, hlen]
      refine ⟨f, k, t, h.ledger.added_of_lookup ht, hlt, hnot, ?_, ?_⟩
      · rw [WorkloadPool.trackAt_of_lookup ht, hk]
      · simp only [hget, hledger, Option.bind_eq_bind, Option.bind_some, Option.pure_def,
          Option.some.injEq, hfile] at hs
        subst hs
        refine ⟨hrun, ?_⟩
        simp only [Ledger.step, hget, Option.some.injEq] at hledger
        subst hledger
        exact ⟨rfl, rfl, rfl, rfl, rfl, rfl⟩
  · cases hs

theorem Inv.assign (h : s.Inv job files₀) {id : String} {order : List String} {rnd : ℕ} {now : ℚ}
    (hok : Allowed job s (.assign id order rnd now))
    (hs : s.step job (.assign id order rnd now) = some s') : s'.Inv job files₀ := by
  obtain ⟨hidle, f, k, t, hf, hlt, hnot, havail, hrun, hphase, hadded, hfinished, hassigned,
    hfiles, hworker⟩ := h.assign_cases hok hs
  -- nobody works on the part yet
  have hfree : ∀ id' c, (s.worker id').call = some c → c.file ≠ job.file f k := by
    intro id' c hc hfile
    obtain ⟨a, ha, -, hca⟩ := h.busy id' c hc
    rw [hca, PredictJob.file_inj] at hfile
    have htrack := h.ledger.sound.trackAt_of_mem ha
    rw [hfile.1, hfile.2, havail] at htrack
    cases htrack
  have hnew : (s'.worker id).call =
      some (.start (job.source (job.file f k)) (job.file f k)) := by
    rw [worker_self hworker]
  have hcall : ∀ {id' : String} {c : Call F}, (s.worker id').call = some c →
      (s'.worker id').call = some c := by
    intro id' c hc
    rw [worker_of_ne hworker]
    · exact hc
    · rintro rfl
      rw [hidle] at hc
      cases hc
  have hiter := iter_of_update hworker rfl
  refine ⟨hrun, ?_, ?_, ?_, ?_, ?_, ?_, ?_, ?_, ?_⟩
  · rw [hphase, Ne, Ledger.mixed_eq_drained]
    exact h.phase
  · rw [hphase]
    exact Ledger.mixed_ne_cleared _
  · intro a ha
    rw [hassigned] at ha
    rcases List.mem_append.mp ha with ha | ha
    · obtain ⟨c, hc, hfile⟩ := h.entry a ha
      exact ⟨c, hcall hc, hfile⟩
    · obtain rfl := List.mem_singleton.mp ha
      exact ⟨_, hnew, rfl⟩
  · rw [hassigned]
    refine forall_call_of_update hworker ?_ ?_
    · rintro _ ⟨rfl⟩
      exact ⟨_, List.mem_append_right _ (List.mem_singleton_self _), rfl, rfl⟩
    · intro id' c _ hc
      obtain ⟨a, ha, hnode, hfile⟩ := h.busy id' c hc
      exact ⟨a, List.mem_append_left _ ha, hnode, hfile⟩
  · refine forall_call_of_update hworker ?_ ?_
    · rintro _ ⟨rfl⟩
      exact Call.inv_start _ _
    · exact fun id' c _ => h.call id' c
  · simp only [hiter, hfiles]
    refine forall_call_of_update hworker ?_ ?_
    · rintro _ ⟨rfl⟩
      refine ⟨[], .nil, .inl ⟨rfl, fun hprev => ?_, h.untouched f hf k hlt hnot hfree⟩⟩
      rcases h.prev _ f hf k hlt hprev with hfin | ⟨c, hc, -⟩
      · exact hnot hfin
      · rw [hidle] at hc
        cases hc
    · exact fun id' c _ => h.output id' c
  · intro id' g hg j hj hprev
    rw [hiter] at hprev
    rw [hfinished]
    rcases h.prev id' g (hadded ▸ hg) j hj hprev with hfin | ⟨c, hc, hfile⟩
    · exact .inl hfin
    · exact .inr ⟨c, hcall hc, hfile⟩
  · intro g hg j hj hnot' hcalls
    rw [hfiles]
    exact h.untouched g (hadded ▸ hg) j hj (hfinished ▸ hnot') fun id' c hc =>
      hcalls id' c (hcall hc)
  · intro g j hfin
    rw [hfiles]
    exact h.done g j (hfinished ▸ hfin)

/-- A step of one worker that keeps its part and touches no other output. -/
theorem Inv.of_call (h : s.Inv job files₀) {id : String} {c c' : Call F} {iter : IterWorker}
    (hc : (s.worker id).call = some c) (hledger : s'.ledger = s.ledger)
    (hworker : s'.worker = Function.update s.worker id { iter, call := some c' })
    (hfile : c'.file = c.file) (hinv : c'.Inv (job.source c'.file))
    (houtput : Output job files₀ (predictName job.predictOut c.file) (printed c') iter s'.files)
    (hprev : iter.prevOut = (s.worker id).iter.prevOut ∨
      iter.prevOut = predictName job.predictOut c.file)
    (hdistinct : Distinct job s.ledger.added)
    (hframe : ∀ g, g ≠ predictName job.predictOut c.file → s'.files g = s.files g) :
    s'.Inv job files₀ := by
  obtain ⟨a, ha, hnode, hca⟩ := h.busy id c hc
  obtain ⟨hadded, hk, hnot⟩ := h.mem_added ha
  have hnew : s'.worker id = { iter, call := some c' } := worker_self hworker
  -- the calls are on the same parts as before
  have hfiles : ∀ {id' : String} {c₁ : Call F}, (s.worker id').call = some c₁ →
      ∃ c₂, (s'.worker id').call = some c₂ ∧ c₂.file = c₁.file := by
    intro id' c₁ hc₁
    by_cases hid : id' = id
    · rw [hid, hc, Option.some.injEq] at hc₁
      rw [hid, hnew, ← hc₁]
      exact ⟨c', rfl, hfile⟩
    · rw [worker_of_ne hworker hid]
      exact ⟨c₁, hc₁, rfl⟩
  have hother : ∀ f ∈ s.ledger.added, ∀ k < job.npart, job.file f k ≠ c.file →
      s'.files (job.name f k) = s.files (job.name f k) := by
    intro f hf k hk' hne
    refine hframe _ fun hname => hne ?_
    rw [hca] at hname ⊢
    obtain ⟨rfl, rfl⟩ := hdistinct f hf a.filename hadded k hk' a.k hk hname
    rfl
  refine ⟨hledger ▸ h.run, hledger ▸ h.phase, hledger ▸ h.begun, ?_, ?_, ?_, ?_, ?_, ?_, ?_⟩
  · intro b hb
    rw [hledger] at hb
    obtain ⟨c₁, hc₁, hb⟩ := h.entry b hb
    obtain ⟨c₂, hc₂, heq⟩ := hfiles hc₁
    exact ⟨c₂, hc₂, heq.trans hb⟩
  · rw [hledger]
    refine forall_call_of_update hworker ?_ ?_
    · rintro _ ⟨rfl⟩
      exact ⟨a, ha, hnode, hfile.trans hca⟩
    · exact fun id' c₁ _ => h.busy id' c₁
  · refine forall_call_of_update hworker ?_ ?_
    · rintro _ ⟨rfl⟩
      exact hinv
    · exact fun id' c₁ _ => h.call id' c₁
  · refine forall_call_of_update hworker ?_ ?_
    · rintro _ ⟨rfl⟩
      rw [hnew, hfile]
      exact houtput
    · intro id' c₁ hid hc₁
      rw [worker_of_ne hworker hid]
      refine (h.output id' c₁ hc₁).congr ?_
      obtain ⟨b, hb, -, hcb⟩ := h.busy id' c₁ hc₁
      obtain ⟨hbadded, hbk, -⟩ := h.mem_added hb
      rw [hcb]
      refine hother _ hbadded _ hbk fun heq => hid ?_
      exact h.node_unique hc₁ hc (hcb.trans heq)
  · intro id' f hf k hk' hname
    rw [hledger] at hf ⊢
    by_cases hid : id' = id
    · rw [hid, hnew] at hname ⊢
      rcases hprev with hsame | hcur
      · rcases h.prev id f hf k hk' (hsame.symm.trans hname) with hfin | ⟨c₁, hc₁, hc₁f⟩
        · exact .inl hfin
        · rw [hc, Option.some.injEq] at hc₁
          exact .inr ⟨c', rfl, by rw [hfile, hc₁, hc₁f]⟩
      · refine .inr ⟨c', rfl, ?_⟩
        have hname' : job.name f k = job.name a.filename a.k := by
          rw [← hname]
          show iter.prevOut = _
          rw [hcur, hca]
          rfl
        obtain ⟨rfl, rfl⟩ := hdistinct f hf a.filename hadded k hk' a.k hk hname'
        exact hfile.trans hca
    · rw [worker_of_ne hworker hid] at hname ⊢
      exact h.prev id' f hf k hk' hname
  · intro f hf k hk' hnot' hcalls
    rw [hledger] at hf hnot'
    have hfree : ∀ id' c₁, (s.worker id').call = some c₁ → c₁.file ≠ job.file f k := by
      intro id' c₁ hc₁ heq
      obtain ⟨c₂, hc₂, heq'⟩ := hfiles hc₁
      exact hcalls id' c₂ hc₂ (heq'.trans heq)
    rw [hother f hf k hk' (Ne.symm (hfree id c hc))]
    exact h.untouched f hf k hk' hnot' hfree
  · intro f k hfin
    rw [hledger] at hfin
    refine (h.done f k hfin).congr ?_
    obtain ⟨hf, hk'⟩ := h.ledger.finished_range hfin
    refine hother f hf k hk' fun heq => hnot ?_
    rw [hca, PredictJob.file_inj] at heq
    rw [← heq.1, ← heq.2]
    exact hfin

theorem Inv.work (h : s.Inv job files₀) (hdistinct : Distinct job s.ledger.added) {id : String}
    {a : Call.Act} (hs : s.step job (.work id a) = some s') : s'.Inv job files₀ := by
  simp only [Pass.step, Option.bind_eq_bind, Option.bind_eq_some_iff, Option.pure_def,
    Option.some.injEq] at hs
  obtain ⟨c, hc, c', hstep, rfl⟩ := hs
  obtain ⟨hinv, hfile, hfinished, hmbs⟩ := (h.call id c hc).step hstep
  have hle : c.flight.finished.length ≤ c.mbs.length := by
    rw [← (h.call id c hc).submitted]
    exact (h.call id c hc).flight.finished_le
  have hprinted : printed c' = printed c := by
    obtain ⟨rest, hrest⟩ := hmbs
    rw [printed, printed, hfinished, ← hrest, List.take_append_of_le_length hle]
  refine h.of_call hc rfl rfl hfile (hfile ▸ hinv) ?_ (.inl rfl) hdistinct fun _ _ => rfl
  rw [hprinted]
  exact h.output id c hc

theorem Inv.predict (h : s.Inv job files₀) (hdistinct : Distinct job s.ledger.added) {id : String}
    {i : ℕ} {st : S} (hs : s.step job (.predict id i st) = some s') : s'.Inv job files₀ := by
  simp only [Pass.step, Option.bind_eq_bind, Option.bind_eq_some_iff, Option.pure_def,
    Option.some.injEq] at hs
  obtain ⟨c, hc, flight, hflight, blk, hblk, ps, hps, ⟨iter, files⟩, hprint, rfl⟩ := hs
  obtain ⟨hi, hlen, hinv⟩ := (h.call id c hc).predicted hflight
  obtain ⟨houtput, hprev, hframe⟩ := (h.output id c hc).print hps hprint
  have hprinted : printed { c with flight } = printed c ++ [blk] := by
    rw [printed, printed, hlen, ← hi, List.take_add_one, hblk]
    rfl
  refine h.of_call hc rfl rfl rfl hinv ?_ (.inr hprev) hdistinct hframe
  rw [hprinted]
  exact houtput

/-- The output of a call that has returned. -/
theorem Inv.outcome (h : s.Inv job files₀) {id f : String} {k : ℕ} {c : Call F}
    (hc : (s.worker id).call = some c) (hfile : c.file = job.file f k)
    (hpc : c.flight.pc = .returned) : Outcome job files₀ s.files f k := by
  obtain ⟨hdelivers, hlen⟩ := (h.call id c hc).returned hpc
  obtain ⟨pss, hpss, hout⟩ := h.output id c hc
  rw [hfile] at hdelivers hout
  have hprinted : printed c = c.mbs := by rw [printed, hlen, List.take_length]
  rw [hprinted] at hpss hout
  refine ⟨c.mbs, pss, hdelivers, hpss, ?_⟩
  rcases hout with ⟨hnil, -, hcontent⟩ | ⟨hne, hopen⟩
  · exact .inl ⟨hnil, hcontent⟩
  · exact .inr ⟨hne, hopen.content⟩

/-- What `finish` does: the part of a call that has returned is finished. -/
theorem Inv.finish_cases (h : s.Inv job files₀) {id : String} {now : ℚ}
    (hs : s.step job (.finish id now) = some s') :
    ∃ c, (s.worker id).call = some c ∧ c.flight.pc = .returned ∧
      s'.ledger.RunInv job.npart ∧ s'.ledger.phase = Ledger.mixed s.ledger.phase ∧
      s'.ledger.added = s.ledger.added ∧
      s'.ledger.finished = s.ledger.finished ∪ Ledger.held s.ledger.pool id ∧
      s'.ledger.pool.assigned =
        s.ledger.pool.assigned.filter (fun a => !decide (a.node = id)) ∧
      s'.files = s.files ∧
      s'.worker = Function.update s.worker id { s.worker id with call := none } := by
  simp only [Pass.step, Option.bind_eq_bind, Option.bind_eq_some_iff] at hs
  obtain ⟨c, hc, hs⟩ := hs
  split at hs
  · rename_i hpc
    simp only [Option.bind_eq_some_iff, Option.pure_def, Option.some.injEq] at hs
    obtain ⟨ledger, hledger, rfl⟩ := hs
    refine ⟨c, hc, hpc, ?_, ?_⟩
    · have hok : s.ledger.Allowed (.finish id now) := h.begun
      obtain ⟨l, hl, hrun⟩ := h.run.step job.npart_pos hok
      rw [hledger, Option.some.injEq] at hl
      rw [← hl] at hrun
      exact hrun
    · simp only [Ledger.step, Option.map_eq_some_iff] at hledger
      obtain ⟨pool, hpool, rfl⟩ := hledger
      exact ⟨rfl, rfl, rfl, WorkloadPool.assigned_finish hpool, rfl, rfl⟩
  · cases hs

theorem Inv.finish (h : s.Inv job files₀) {id : String} {now : ℚ}
    (hs : s.step job (.finish id now) = some s') : s'.Inv job files₀ := by
  obtain ⟨c, hc, hpc, hrun, hphase, hadded, hfinished, hassigned, hfiles, hworker⟩ :=
    h.finish_cases hs
  -- the part that is finished now
  have hheld : ∀ {f : String} {k : ℕ},
      (f, k) ∈ Ledger.held s.ledger.pool id ↔ c.file = job.file f k := by
    intro f k
    rw [Ledger.mem_held]
    constructor
    · rintro ⟨a, ha, hnode, rfl, rfl⟩
      obtain ⟨c₁, hc₁, hfile⟩ := h.entry a ha
      rw [of_decide_eq_true hnode, hc, Option.some.injEq] at hc₁
      rw [hc₁, hfile]
    · intro hfile
      obtain ⟨a, ha, hnode, hca⟩ := h.busy id c hc
      rw [hca, PredictJob.file_inj] at hfile
      exact ⟨a, ha, decide_eq_true hnode, hfile.1, hfile.2⟩
  have hiter := iter_of_update hworker rfl
  have hcalls : ∀ id' c₁, (s'.worker id').call = some c₁ →
      id' ≠ id ∧ (s.worker id').call = some c₁ := by
    refine forall_call_of_update hworker ?_ ?_
    · rintro _ ⟨⟩
    · exact fun id' c₁ hid hc₁ => ⟨hid, hc₁⟩
  refine ⟨hrun, ?_, ?_, ?_, ?_, ?_, ?_, ?_, ?_, ?_⟩
  · rw [hphase, Ne, Ledger.mixed_eq_drained]
    exact h.phase
  · rw [hphase]
    exact Ledger.mixed_ne_cleared _
  · intro a ha
    rw [hassigned, List.mem_filter] at ha
    obtain ⟨c₁, hc₁, hfile⟩ := h.entry a ha.1
    have hid : a.node ≠ id := by simpa using ha.2
    exact ⟨c₁, by rw [worker_of_ne hworker hid, hc₁], hfile⟩
  · intro id' c₁ hc₁
    obtain ⟨hid, hc₁⟩ := hcalls id' c₁ hc₁
    obtain ⟨a, ha, hnode, hfile⟩ := h.busy id' c₁ hc₁
    refine ⟨a, ?_, hnode, hfile⟩
    rw [hassigned, List.mem_filter]
    exact ⟨ha, by simpa [hnode] using hid⟩
  · intro id' c₁ hc₁
    exact h.call id' c₁ (hcalls id' c₁ hc₁).2
  · intro id' c₁ hc₁
    rw [hiter, hfiles]
    exact h.output id' c₁ (hcalls id' c₁ hc₁).2
  · intro id' f hf k hk hprev
    rw [hiter] at hprev
    rw [hfinished]
    rcases h.prev id' f (hadded ▸ hf) k hk hprev with hfin | ⟨c₁, hc₁, hfile⟩
    · exact .inl (Finset.mem_union_left _ hfin)
    · by_cases hid : id' = id
      · rw [hid, hc, Option.some.injEq] at hc₁
        rw [← hc₁] at hfile
        exact .inl (Finset.mem_union_right _ (hheld.mpr hfile))
      · exact .inr ⟨c₁, by rw [worker_of_ne hworker hid, hc₁], hfile⟩
  · intro f hf k hk hnot hfree
    rw [hfinished, Finset.mem_union, not_or] at hnot
    rw [hfiles]
    refine h.untouched f (hadded ▸ hf) k hk hnot.1 fun id' c₁ hc₁ hfile => ?_
    by_cases hid : id' = id
    · rw [hid, hc, Option.some.injEq] at hc₁
      exact hnot.2 (hheld.mpr (hc₁ ▸ hfile))
    · exact hfree id' c₁ (by rw [worker_of_ne hworker hid, hc₁]) hfile
  · intro f k hfin
    rw [hfinished, Finset.mem_union] at hfin
    rw [hfiles]
    rcases hfin with hfin | hfin
    · exact h.done f k hfin
    · exact h.outcome hc (hheld.mp hfin) hpc

/-! ## When a pass is complete -/

/-- The files are matched and in the pool, and nothing else happened. -/
structure Matched (job : PredictJob S F) (ledger : Ledger) : Prop where
  reach : ∃ p, Reach (Ledger.step job.npart) Ledger.Allowed (Ledger.start p) ledger
  phase : ledger.phase = .adding

omit [One F] [DecidableEq F] in
theorem Matched.assigned {ledger : Ledger} (h : Matched job ledger) :
    ledger.pool.assigned = [] := by
  obtain ⟨⟨p, hr⟩, hphase⟩ := h
  have hinv : (ledger.phase = .cleared ∨ ledger.phase = .adding) → ledger.pool.assigned = [] := by
    refine @Reach.invariant _ _ _ _ _ _ (fun l => (l.phase = .cleared ∨ l.phase = .adding) →
      l.pool.assigned = []) hr (fun _ => rfl) ?_
    intro l op l' ih hok hstep hl'
    obtain ⟨files, id, rfl⟩ := Ledger.eq_add_of_phase hstep hl'
    simp only [Ledger.step, Option.map_eq_some_iff] at hstep
    obtain ⟨pool, hadd, rfl⟩ := hstep
    exact (WorkloadPool.assigned_add hadd).trans (ih hok)
  exact hinv (.inr hphase)

theorem inv_start {ledger : Ledger} (h : Matched job ledger) (files₀ : Files) :
    (start ledger files₀ : Pass F).Inv job files₀ := by
  obtain ⟨p, hr⟩ := h.reach
  have hrun := Ledger.runInv_of_reach job.npart_pos hr
  have hfinished : ledger.finished = ∅ := hrun.fresh (.inr h.phase)
  refine ⟨hrun, ?_, ?_, ?_, ?_, ?_, ?_, ?_, ?_, ?_⟩
  · rw [start, h.phase]
    decide
  · rw [start, h.phase]
    decide
  · intro a ha
    rw [start, h.assigned] at ha
    cases ha
  · intro id c hc
    cases hc
  · intro id c hc
    cases hc
  · intro id c hc
    cases hc
  · intro id f hf k hk hprev
    exact absurd hprev.symm (predictName_ne_empty _ _)
  · intro f hf k hk hnot hcalls
    rfl
  · intro f k hfin
    rw [start, hfinished] at hfin
    cases hfin

theorem added_step {a : Act S} (hs : s.step job a = some s') :
    s'.ledger.added = s.ledger.added := by
  cases a with
  | assign id order rnd now =>
      simp only [Pass.step] at hs
      split at hs
      · split at hs
        · cases hs
        · cases hs
          rfl
      · cases hs
  | work id a =>
      simp only [Pass.step, Option.bind_eq_bind, Option.bind_eq_some_iff, Option.pure_def,
        Option.some.injEq] at hs
      obtain ⟨c, -, c', -, rfl⟩ := hs
      rfl
  | predict id i st =>
      simp only [Pass.step, Option.bind_eq_bind, Option.bind_eq_some_iff, Option.pure_def,
        Option.some.injEq] at hs
      obtain ⟨c, -, flight, -, blk, -, ps, -, r, -, rfl⟩ := hs
      rfl
  | finish id now =>
      simp only [Pass.step, Option.bind_eq_bind, Option.bind_eq_some_iff] at hs
      obtain ⟨c, -, hs⟩ := hs
      split at hs
      · simp only [Ledger.step, Option.bind_eq_some_iff, Option.map_eq_some_iff, Option.pure_def,
          Option.some.injEq] at hs
        obtain ⟨ledger, ⟨pool, -, rfl⟩, rfl⟩ := hs
        rfl
      · cases hs

theorem inv_of_reach {ledger : Ledger} (hm : Matched job ledger) (hd : Distinct job ledger.added)
    (hr : Reach (step job) (Allowed job) (start ledger files₀) s) : s.Inv job files₀ := by
  have hboth : s.Inv job files₀ ∧ s.ledger.added = ledger.added := by
    refine @Reach.invariant _ _ _ _ _ _ (fun s => s.Inv job files₀ ∧
      s.ledger.added = ledger.added) hr ⟨inv_start hm files₀, rfl⟩ ?_
    rintro s a s' ⟨h, hadded⟩ hok hs
    refine ⟨?_, (added_step hs).trans hadded⟩
    rw [← hadded] at hd
    cases a with
    | assign id order rnd now => exact h.assign hok hs
    | work id a => exact h.work hd hs
    | predict id i st => exact h.predict hd hs
    | finish id now => exact h.finish hs
  exact hboth.1

omit [DecidableEq F] in
/-- One prediction for each row. -/
theorem length_flatten_of_printed {blks : List (InputBlock UInt64 F)} {pss : List (List F)}
    (hpos : ∀ b ∈ blks, 0 < b.size) (h : job.Printed blks pss) :
    pss.flatten.length = (InputBlock.sourceRows blks).length := by
  induction h with
  | nil => rfl
  | cons hps _ ih =>
      obtain ⟨st, hps⟩ := hps
      rw [List.forall_mem_cons] at hpos
      rw [List.flatten_cons, List.length_append, ih hpos.2, InputBlock.sourceRows_cons,
        List.length_append, job.length_predict hpos.1 hps, InputBlock.rows, List.length_map,
        List.length_range]

/-- The output of a part, if its minibatches are read to the end. -/
theorem outcome_cases {files : Files} {f : String} {k : ℕ}
    (hsource : ∀ b ∈ job.source (job.file f k), b.Valid) (h : Outcome job files₀ files f k) :
    (InputBlock.sourceRows (job.source (job.file f k)) = [] ∧
      files (job.name f k) = files₀ (job.name f k)) ∨
    (InputBlock.sourceRows (job.source (job.file f k)) ≠ [] ∧ ∃ ps,
      job.Predicts (job.source (job.file f k)) ps ∧
        files (job.name f k) = some (lines job.text ps)) := by
  obtain ⟨blks, pss, hblks, hpss, hout⟩ := h
  have hrows := hblks.rows (MinibatchIter.inv_init (by decide) hsource)
    (show 1 ≤ valMbSize by decide)
  rw [show (MinibatchIter.init valMbSize (job.source (job.file f k))).pending =
    InputBlock.sourceRows (job.source (job.file f k)) from rfl] at hrows
  have hlen : (InputBlock.sourceRows blks).length =
      (InputBlock.sourceRows (job.source (job.file f k))).length := by
    simpa using congrArg List.length hrows
  rcases hout with ⟨rfl, hcontent⟩ | ⟨hne, hcontent⟩
  · exact .inl ⟨List.length_eq_zero_iff.mp hlen.symm, hcontent⟩
  · refine .inr ⟨fun hnil => ?_, pss.flatten, ⟨?_, blks, pss, hrows, hpss, rfl⟩, hcontent⟩
    · obtain ⟨blk, blks', rfl⟩ := List.exists_cons_of_ne_nil hne
      have hpos := hblks.size_pos blk List.mem_cons_self
      rw [hnil, InputBlock.sourceRows_cons, List.length_append, InputBlock.rows,
        List.length_map, List.length_range, List.length_nil] at hlen
      omega
    · rw [length_flatten_of_printed hblks.size_pos hpss, hlen]

omit [One F] [DecidableEq F] in
theorem name_inj {f g : String} {k j : ℕ} :
    job.name f k = job.name g j ↔ baseName f = baseName g ∧ k = j :=
  predictName_inj rfl rfl

omit [One F] [DecidableEq F] in
theorem distinct_iff (job : PredictJob S F) {added : Finset String} : Distinct job added ↔
    ∀ f ∈ added, ∀ g ∈ added, baseName f = baseName g → f = g := by
  constructor
  · intro h f hf g hg hbase
    exact (h f hf g hg 0 job.npart_pos 0 job.npart_pos (name_inj.mpr ⟨hbase, rfl⟩)).1
  · intro h f hf g hg k _ j _ hname
    obtain ⟨hbase, hkj⟩ := name_inj.mp hname
    exact ⟨h f hf g hg hbase, hkj⟩

/-- **When a finished pass is complete**: the base names of the matched files are different,
and every part has an example, or an empty file with the name of its output was already
there. -/
theorem complete_iff {ledger : Ledger} (hm : Matched job ledger)
    (hsource : ∀ file, ∀ b ∈ job.source file, b.Valid)
    (hr : Reach (step job) (Allowed job) (start ledger files₀) s)
    (hfin : s.ledger.pool.isFinished = true) :
    s.Complete job ↔
      (∀ f ∈ ledger.added, ∀ g ∈ ledger.added, baseName f = baseName g → f = g) ∧
      ∀ f ∈ ledger.added, ∀ k < job.npart,
        InputBlock.sourceRows (job.source (job.file f k)) ≠ [] ∨
          files₀ (job.name f k) = some [] := by
  have hadded : s.ledger.added = ledger.added := by
    refine @Reach.invariant _ _ _ _ _ _ (fun s => s.ledger.added = ledger.added) hr rfl ?_
    intro s a s' ih _ hs
    exact (added_step hs).trans ih
  rw [← distinct_iff job]
  -- with different names, every part has the output that its call made
  have hout : Distinct job ledger.added → ∀ f ∈ ledger.added, ∀ k < job.npart,
      Outcome job files₀ s.files f k := by
    intro hd f hf k hk
    have hinv := inv_of_reach hm hd hr
    have hinit := hinv.run.inited hinv.begun
    refine hinv.done f k ?_
    exact (hinv.ledger.accounting hinit).isFinished_iff.mp hfin f (hadded ▸ hf) k hk
  constructor
  · intro hc
    have hd : Distinct job ledger.added := hadded ▸ hc.distinct
    refine ⟨hd, fun f hf k hk => ?_⟩
    rcases outcome_cases (hsource _) (hout hd f hf k hk) with ⟨hnil, hfile⟩ | ⟨hne, -⟩
    · obtain ⟨ps, ⟨hlen, -⟩, hcontent⟩ := hc.content f (hadded ▸ hf) k hk
      rw [hnil] at hlen
      rw [List.length_eq_zero_iff.mp hlen] at hcontent
      exact .inr (hfile.symm.trans hcontent)
    · exact .inl hne
  · rintro ⟨hd, hparts⟩
    refine ⟨fun f hf k hk => ?_, hadded ▸ hd⟩
    rw [hadded] at hf
    rcases outcome_cases (hsource _) (hout hd f hf k hk) with ⟨hnil, hfile⟩ | ⟨-, hps⟩
    · have hempty := (hparts f hf k hk).resolve_left (not_not.mpr hnil)
      refine ⟨[], ⟨by rw [hnil]; rfl, [], [], by rw [hnil]; rfl, .nil, rfl⟩, ?_⟩
      exact hfile.trans hempty
    · exact hps

end Pass

end Difacto.Solver
