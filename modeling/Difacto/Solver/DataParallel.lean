import Difacto.Base.WorkloadPool
import Difacto.Lib.Reach

/-!
# Dispatching data parts to workers

The scheduler and the workers of `solver/data_parallel.h`, as one labelled transition
system. The scheduler has three threads that touch the pool: the main thread, which
runs `MinibatchScheduler::Iterate` (`StartDispatch`, then `IsFinished` until it holds);
the executor thread, which runs `ProcessResponse` for one response at a time; and the
straggler killer. Each call on the pool is one step, so any other thread may run
between two calls of `ProcessResponse`. A worker handles one request at a time and
answers it when `ProcessRequest` returns; the channels to and from a worker are FIFO.

A worker that crashes loses the requests it had and answers nothing any more; later
the scheduler notices and calls `Reset` (the failure handler), and after that it drops
the node (`RemoveNode`), from when on the node's responses are ignored. No worker
joins later: `Manager::AddNode` aborts on that.

Some fields are history only and no step reads them: `pass` counts the calls of
`Clear`, a request carries the pass its part was taken from the pool in, `completed`
lists the parts workers have processed, `added` the files of the current pass and
`stopped` whether `StopDispatch` has thrown away the rest of it.

## Main definitions

* `Cluster` — what is fixed for a run; `Sys` — the state; `Act` — the labels.
* `Sys.step` — the transition function; `Sys.init` — the state before the first pass.
* `Sys.unanswered` — the workload requests to a worker that are not answered yet.
-/

namespace Difacto.Solver

open Base

/-- What does not change during a run. -/
structure Cluster where
  /-- the worker group -/
  workers : List String
  /-- `num_parts_per_file_` -/
  npart : ℕ
  /-- `use_worker_local_data_` -/
  useWorkerLocalData : Bool
  /-- `data_format_` -/
  dataFormat : String
  npart_pos : 0 < npart
  id_ne : ∀ id ∈ workers, id ≠ ""

/-- A workload message, with the pass in which its part left the pool. -/
structure Request where
  wl : Workload
  pass : ℕ
  deriving DecidableEq

/-- A response: the empty ack, or the files a worker matched locally. -/
inductive Response
  | ack
  | files (fs : List Workload.File)
  deriving DecidableEq

/-- The test `wl.file.size() == 1 && wl.file[0].n == 0` of `ProcessRequest`. -/
def isMatch (wl : Workload) : Bool :=
  match wl.file with
  | [f] => f.n == 0
  | _ => false

/-- A request that is answered by an ack: the empty workload or a part. -/
def Request.isWork (r : Request) : Bool := !isMatch r.wl

/-- What the scheduler knows of a node, and what is true of it. -/
inductive Health
  | up
  /-- dead, the scheduler does not know -/
  | crashed
  /-- the failure handler has run -/
  | reset
  /-- `RemoveNode` has run -/
  | removed
  deriving DecidableEq, Repr

/-- A worker with its two channels. -/
structure Link where
  /-- requests on their way, oldest first -/
  inbox : List Request := []
  /-- the request `ProcessRequest` is working on -/
  current : Option Request := none
  /-- responses on their way, oldest first -/
  outbox : List Response := []
  health : Health := .up

namespace Link

/-- `SendWorkload` to one worker; a request to a dead node is lost. -/
def push (l : Link) (r : Request) : Link :=
  if l.health = .up then { l with inbox := l.inbox ++ [r] } else l

/-- The workload requests of a worker that it still has to answer or whose ack is on
its way. -/
def work (l : Link) : ℕ :=
  l.inbox.countP Request.isWork + l.current.toList.countP Request.isWork +
    l.outbox.count .ack

end Link

/-- Where the main thread is. -/
inductive Main
  /-- between two calls of `Iterate` -/
  | idle
  | clear
  | matchFiles
  | wait
  | add
  | broadcast
  /-- `StartDispatch` has returned -/
  | poll
  deriving DecidableEq, Repr

/-- Where the executor thread is in `ProcessResponse`. -/
inductive Exec
  | idle
  /-- about to call `pool_.Add` for the files `id` sent -/
  | add (id : String) (fs : List Workload.File)
  /-- about to call `pool_.Finish(id)` -/
  | finish (id : String)
  /-- about to copy `workload_` -/
  | copy (id : String)
  /-- about to call `pool_.Get(id, &wl)` -/
  | get (id : String) (wl : Workload)
  /-- about to send a part to `id` -/
  | send (id : String) (r : Request)
  deriving DecidableEq

/-- The executor is handling an ack of `id`. -/
def Exec.handles (e : Exec) (id : String) : Bool :=
  match e with
  | .finish i | .copy i | .get i _ | .send i _ => i = id
  | .idle | .add _ _ => false

/-- A worker finished `Process` on a part. -/
structure Completion where
  node : String
  filename : String
  k : ℤ
  pass : ℕ
  deriving DecidableEq

/-- The state of the scheduler, the channels and the workers. -/
structure Sys where
  pool : WorkloadPool
  /-- `workload_` without its files -/
  workload : Workload
  /-- `data_filename_` -/
  dataFilename : String
  main : Main
  exec : Exec
  link : String → Link
  /-- the workers whose answer to the match request is still to be processed -/
  awaiting : Finset String
  pass : ℕ
  completed : List Completion
  added : Finset String
  stopped : Bool

/-- The steps. Every choice of the environment is in the label: the files that
matched, the iteration order and `rand()` of `Get`, clock readings, and which entries
the straggler killer judges slow. -/
inductive Act
  /-- `Iterate` sets `data_filename_` and `workload_` -/
  | iterate (type : WorkloadType) (iter : ℤ) (dataFilename : String)
  | clear
  | matchFiles
  /-- `Wait` returns -/
  | waited
  | add (files : List String)
  | broadcast
  /-- `IsFinished` returns true -/
  | finished
  | stopDispatch
  /-- the executor takes the oldest response of `id` -/
  | pick (id : String)
  | addLocal
  | finish (now : ℚ)
  | copy
  | get (order : List String) (rnd : ℕ) (now : ℚ)
  | send
  /-- a worker starts `ProcessRequest` -/
  | receive (id : String)
  /-- a worker's `ProcessRequest` returns; `files` are its local matches -/
  | reply (id : String) (files : List String)
  | removeStraggler (slow : Assigned → Bool)
  | crash (id : String)
  | reset (id : String)
  | removeNode (id : String)

namespace Sys

variable (c : Cluster)

/-- Replace what is known of one worker. -/
def setLink (s : Sys) (id : String) (l : Link) : Sys :=
  { s with link := Function.update s.link id l }

/-- `SendWorkload` to the worker group, which no longer holds removed nodes. The type
and the pass of these workloads are not set in the source, and no worker reads them. -/
def sendGroup (s : Sys) (wl : Workload) : Sys :=
  { s with link := fun id =>
      if id ∈ c.workers then (s.link id).push { wl := wl, pass := s.pass } else s.link id }

/-- The request by which workers are asked to match the files. -/
def matchWorkload (s : Sys) : Workload :=
  { s.workload with file := [{ filename := s.dataFilename, n := 0 }] }

/-- The files a list of names stands for (`WorkloadPool::Match`). -/
def matched (names : List String) : List Workload.File := names.map fun f => { filename := f }

/-- `wl.file[0].format = data_format_`. -/
def withFormat (wl : Workload) : Workload :=
  match wl.file with
  | [] => wl
  | f :: fs => { wl with file := { f with format := c.dataFormat } :: fs }

/-- The main thread: one turn of `Iterate`. -/
def stepMain (s : Sys) : Act → Option Sys
  | .iterate type iter name =>
    if s.main = .idle then
      some { s with
        dataFilename := name, workload := { type := type, dataPass := iter }, main := .clear }
    else none
  | .clear =>
    if s.main = .clear then
      some { s with
        pool := s.pool.clear
        main := if c.useWorkerLocalData then .matchFiles else .add
        pass := s.pass + 1, added := ∅, stopped := false }
    else none
  | .matchFiles =>
    if s.main = .matchFiles then
      some { sendGroup c s s.matchWorkload with
        main := .wait
        awaiting := c.workers.toFinset.filter fun id => (s.link id).health ≠ .removed }
    else none
  | .waited =>
    if s.main = .wait ∧ ∀ id ∈ s.awaiting, (s.link id).health = .removed then
      some { s with main := .broadcast }
    else none
  | .add files =>
    if s.main = .add then
      (s.pool.add (matched files) c.npart "").map fun p =>
        { s with pool := p, main := .broadcast, added := s.added ∪ files.toFinset }
    else none
  | .broadcast =>
    if s.main = .broadcast then
      some { sendGroup c s { s.workload with file := [] } with main := .poll }
    else none
  | .finished =>
    if s.main = .poll ∧ s.pool.isFinished then some { s with main := .idle } else none
  | .stopDispatch =>
    if s.main = .poll then
      some { s with pool := s.pool.clearRemain, stopped := true }
    else none
  | _ => none

/-- The executor thread: the calls of `ProcessResponse`. A response of a removed node
is dropped. -/
def stepExec (s : Sys) : Act → Option Sys
  | .pick id =>
    if s.exec = .idle then
      match (s.link id).outbox with
      | [] => none
      | r :: rest =>
        let s' := s.setLink id { s.link id with outbox := rest }
        if (s.link id).health = .removed then some s'
        else match r with
          | .ack => some { s' with exec := .finish id }
          | .files fs => some { s' with exec := .add id fs }
    else none
  | .addLocal =>
    match s.exec with
    | .add id fs => (s.pool.add fs c.npart id).map fun p =>
        { s with
          pool := p, exec := .idle, awaiting := s.awaiting.erase id
          added := s.added ∪ (fs.map (·.filename)).toFinset }
    | _ => none
  | .finish now =>
    match s.exec with
    | .finish id => (s.pool.finish id now).map fun p => { s with pool := p, exec := .copy id }
    | _ => none
  | .copy =>
    match s.exec with
    | .copy id => some { s with exec := .get id s.workload }
    | _ => none
  | .get order rnd now =>
    match s.exec with
    | .get id wl =>
      if s.pool.Enumerates order then
        let r := s.pool.get id order rnd now wl
        some { s with
          pool := r.1
          exec := if r.2.empty then .idle
            else .send id { wl := withFormat c r.2, pass := s.pass } }
      else none
    | _ => none
  | .send =>
    match s.exec with
    | .send id r => some { s.setLink id ((s.link id).push r) with exec := .idle }
    | _ => none
  | _ => none

/-- What a worker sends when `ProcessRequest` returns. -/
def response (r : Request) (files : List String) : Response :=
  if isMatch r.wl then .files (matched files) else .ack

/-- The part a worker has processed when `ProcessRequest` returns; `Process` reads the
first file of the workload. -/
def processed (id : String) (r : Request) : List Completion :=
  if isMatch r.wl then []
  else match r.wl.file with
    | [] => []
    | f :: _ => [{ node := id, filename := f.filename, k := f.k, pass := r.pass }]

/-- The workers, the straggler killer and the failures. -/
def stepRest (s : Sys) : Act → Option Sys
  | .receive id =>
    match (s.link id).current, (s.link id).inbox with
    | none, r :: rest =>
      some (s.setLink id { s.link id with inbox := rest, current := some r })
    | _, _ => none
  | .reply id files =>
    match (s.link id).current with
    | some r =>
      some { s.setLink id { s.link id with
          current := none, outbox := (s.link id).outbox ++ [response r files] } with
        completed := s.completed ++ processed id r }
    | none => none
  | .removeStraggler slow => (s.pool.removeStragglerBy slow).map fun p => { s with pool := p }
  | .crash id =>
    if id ∈ c.workers ∧ (s.link id).health = .up then
      some (s.setLink id { s.link id with inbox := [], current := none, health := .crashed })
    else none
  | .reset id =>
    if (s.link id).health = .crashed then
      (s.pool.reset id).map fun p =>
        { s.setLink id { s.link id with health := .reset } with pool := p }
    else none
  | .removeNode id =>
    if (s.link id).health = .reset then
      some (s.setLink id { s.link id with health := .removed })
    else none
  | _ => none

/-- One step of any thread or node. -/
def step (s : Sys) (act : Act) : Option Sys :=
  match act with
  | .iterate _ _ _ | .clear | .matchFiles | .waited | .add _ | .broadcast | .finished
  | .stopDispatch => stepMain c s act
  | .pick _ | .addLocal | .finish _ | .copy | .get _ _ _ | .send => stepExec c s act
  | .receive _ | .reply _ _ | .removeStraggler _ | .crash _ | .reset _ | .removeNode _ =>
    stepRest c s act

/-- Before the first pass: nothing is in flight. `pool` holds whatever value the
uninitialised `shuffle_` has. -/
def init (pool : WorkloadPool) : Sys :=
  { pool := pool.clear
    workload := { type := .train, dataPass := 0 }
    dataFilename := ""
    main := .idle
    exec := .idle
    link := fun _ => {}
    awaiting := ∅
    pass := 0
    completed := []
    added := ∅
    stopped := false }

/-- The workload requests sent to `id` whose ack the executor has not finished
handling. -/
def unanswered (s : Sys) (id : String) : ℕ :=
  (s.link id).work + (s.exec.handles id).toNat

/-! ## A small cluster

The runs on it show that the results below are not vacuous, and where they need their
conditions. -/

/-- Two workers that read the same files, one part each. -/
def twoWorkers : Cluster where
  workers := ["A", "B"]
  npart := 1
  useWorkerLocalData := false
  dataFormat := "libsvm"
  npart_pos := Nat.one_pos
  id_ne := by decide

/-- `StartDispatch` of one pass over one file. -/
def dispatch (iter : ℤ) : List Act :=
  [.iterate .train iter "f", .clear, .add ["f"], .broadcast]

/-- A worker answers its oldest request and is served; `order` are the files left. -/
def serve (id : String) (order : List String) : List Act :=
  [.receive id, .reply id [], .pick id, .finish 0, .copy, .get order 0 0]

end Sys

end Difacto.Solver
