import Difacto.Base.Workload
import Mathlib.Data.Finmap
import Mathlib.Data.Rat.Defs
import Mathlib.Algebra.Order.Ring.Rat

/-!
# The workload pool

The scheduler's pool of file parts (`base/workload_pool.h`). Every operation here
runs under the pool's mutex in the source, so each is one function from pool to
pool. A failed `CHECK` is `none`.

Two things the source leaves to its environment are arguments. The iteration order
of the `unordered_map` `task_` is the list `order` of file names that `getOne`
visits, and `rand()` is the number `rnd`. Clock readings (`GetTime`) are rationals;
they reach the rest of the pool only through the straggler test, which
`removeStragglerBy` takes as an arbitrary predicate.

## Main definitions

* `WorkloadPool` — `task_`, `assigned_`, `num_finished_`, `inited_`, `shuffle_`, `time_`.
* `add`, `clear`, `clearRemain`, `get`, `reset`, `finish`, `isFinished`,
  `removeStraggler` — the operations.
* `mark`, `release`, `getOne` — the private helpers they share.
* `trackAt` — the state of one part, if its file is still in the pool.
-/

namespace Difacto.Base

/-- The state of one part of a file: the source's `0`, `1` and `2`. -/
inductive Track
  | available
  | assigned
  | done
  deriving DecidableEq, Repr

/-- `WorkloadPool::Task`. -/
structure Task where
  /-- capable nodes -/
  node : Finset String := ∅
  track : List Track := []
  done : ℕ := 0
  deriving DecidableEq

/-- `WorkloadPool::Assigned`. -/
structure Assigned where
  filename : String
  node : String
  n : ℕ
  k : ℕ
  /-- start time -/
  start : ℚ
  deriving DecidableEq, Repr

/-- `Assigned::Get`. -/
def Assigned.get (a : Assigned) : Workload.File :=
  { filename := a.filename, n := a.n, k := a.k }

/-- The entry hands out part `k` of file `f`. -/
def Assigned.names (f : String) (k : ℕ) (a : Assigned) : Bool :=
  decide (a.filename = f ∧ a.k = k)

/-- The pool's own state. `shuffle` is never set by the source after construction
(`Init` is empty), so it keeps whatever value it has. -/
structure WorkloadPool where
  numFinished : ℕ := 0
  task : Finmap (fun _ : String => Task) := ∅
  assigned : List Assigned := []
  inited : Bool := false
  shuffle : Bool := false
  /-- process time of finished tasks -/
  time : List ℚ := []

namespace Task

/-- `id` may read the file: no node was named for it, or `id` was. -/
def capable (t : Task) (id : String) : Prop := t.node = ∅ ∨ id ∈ t.node

instance (t : Task) (id : String) : Decidable (t.capable id) :=
  inferInstanceAs (Decidable (_ ∨ _))

/-- `GetOne` skips files that `id` cannot read and files that are all done. -/
def offered (t : Task) (id : String) : Bool :=
  decide (t.capable id) && !decide (t.done = t.track.length)

/-- A task seen for the first time gets `npart` available parts. -/
def resize (npart : ℕ) (t : Task) : Task :=
  if t.track = [] then { t with track := List.replicate npart .available } else t

/-- `id` becomes a capable node; the empty id stands for every node. -/
def insertNode (id : String) (t : Task) : Task :=
  if id = "" then t else { t with node := insert id t.node }

end Task

namespace WorkloadPool

/-- One turn of the loop in `Add`. `CHECK_EQ` rejects a file that is already in the
pool with another number of parts. -/
def addFile (npart : ℕ) (id : String) (p : WorkloadPool) (filename : String) :
    Option WorkloadPool :=
  let t := ((p.task.lookup filename).getD {}).resize npart
  if t.track.length = npart then
    some { p with task := p.task.insert filename (t.insertNode id) }
  else none

/-- `Add`. -/
def add (files : List Workload.File) (npart : ℕ) (id : String) (p : WorkloadPool) :
    Option WorkloadPool :=
  (files.map (·.filename)).foldlM (addFile npart id) { p with inited := true }

/-- `Clear`. -/
def clear (p : WorkloadPool) : WorkloadPool :=
  { p with task := ∅, assigned := [], inited := false, time := [], numFinished := 0 }

/-- `ClearRemain`. -/
def clearRemain (p : WorkloadPool) : WorkloadPool := { p with task := ∅ }

/-- `IsFinished`. -/
def isFinished (p : WorkloadPool) : Bool :=
  p.inited && decide (p.task = ∅) && p.assigned.isEmpty

/-- `Mark`. A file whose parts are all done is erased. -/
def mark (filename : String) (k : ℕ) (m : Track) (p : WorkloadPool) : Option WorkloadPool :=
  match p.task.lookup filename with
  | none => some p
  | some t =>
    if k < t.track.length then
      let fresh : Bool := m = .done ∧ t.track[k]? ≠ some .done
      let t' : Task :=
        { t with track := t.track.set k m, done := if fresh then t.done + 1 else t.done }
      some { p with
        numFinished := if fresh then p.numFinished + 1 else p.numFinished
        task := if t'.done = t'.track.length then p.task.erase filename
          else p.task.insert filename t' }
    else none

/-- The loop shared by `Set` and `RemoveStraggler`: each selected entry is marked
`m` and leaves `assigned_`, the others stay in order. -/
def releaseGo (sel : Assigned → Bool) (m : Track) :
    List Assigned → List Assigned → WorkloadPool → Option WorkloadPool
  | kept, [], p => some { p with assigned := kept }
  | kept, a :: rest, p =>
    if sel a then (p.mark a.filename a.k m).bind (releaseGo sel m kept rest)
    else releaseGo sel m (kept ++ [a]) rest p

/-- `releaseGo` over the whole of `assigned_`. -/
def release (sel : Assigned → Bool) (m : Track) (p : WorkloadPool) : Option WorkloadPool :=
  releaseGo sel m [] p.assigned p

/-- `Set(id, del)`: a finished entry also leaves its running time in `time_`. -/
def set (id : String) (del : Bool) (now : ℚ) (p : WorkloadPool) : Option WorkloadPool :=
  let mine : Assigned → Bool := fun a => a.node = id
  if del then
    (p.release mine .done).map fun q =>
      { q with time := q.time ++ (p.assigned.filter mine).map (now - ·.start) }
  else p.release mine .available

/-- `Reset`: `id` dies. -/
def reset (id : String) (p : WorkloadPool) : Option WorkloadPool := p.set id false 0

/-- `Finish`: `id` finished the workload it got before. -/
def finish (id : String) (now : ℚ) (p : WorkloadPool) : Option WorkloadPool := p.set id true now

/-- `RemoveStraggler` once it is decided which entries are stragglers. -/
def removeStragglerBy (slow : Assigned → Bool) (p : WorkloadPool) : Option WorkloadPool :=
  p.release slow .available

/-- The test of `RemoveStraggler` at time `cur`: at least ten parts are finished and
this one has run for over twice their mean time and over five seconds. -/
def straggler (p : WorkloadPool) (cur : ℚ) (a : Assigned) : Bool :=
  decide (10 ≤ p.time.length) &&
    decide (max (p.time.sum / p.time.length * 2) 5 < cur - a.start)

/-- `RemoveStraggler` at time `cur`. -/
def removeStraggler (cur : ℚ) (p : WorkloadPool) : Option WorkloadPool :=
  p.removeStragglerBy (p.straggler cur)

/-- The entries of `task_` that a range-for visits when it meets them in `order`. -/
def entries (order : List String) (p : WorkloadPool) : List (String × Task) :=
  order.filterMap fun f => (p.task.lookup f).map fun t => (f, t)

/-- The first loop of `GetOne`: how many parts `id` could be given. -/
def countAvail (id : String) (es : List (String × Task)) : ℕ :=
  es.foldl (fun n e => if e.2.offered id then n + e.2.track.count .available else n) 0

/-- The inner loop of `GetOne` from part `k` on: skip `i` available parts, then stop
at the next one. `inr k` is the part found, `inl i` what is left to skip. -/
def scanTrack : List Track → ℕ → ℕ → ℕ ⊕ ℕ
  | [], _, i => .inl i
  | c :: cs, k, i =>
    if c = .available then
      match i with
      | 0 => .inr k
      | i + 1 => scanTrack cs (k + 1) i
    else scanTrack cs (k + 1) i

/-- The second loop of `GetOne`: the file and part it stops at. -/
def scan (id : String) : List (String × Task) → ℕ → Option (String × ℕ)
  | [], _ => none
  | (f, t) :: es, i =>
    if t.offered id then
      match scanTrack t.track 0 i with
      | .inr k => some (f, k)
      | .inl i => scan id es i
    else scan id es i

/-- Hand part `k` of file `f` to `id`: the body `GetOne` runs where it stops. -/
def assign (id : String) (now : ℚ) (f : String) (k : ℕ) (p : WorkloadPool) (wl : Workload) :
    WorkloadPool × Workload :=
  match p.task.lookup f with
  | none => (p, wl)
  | some t =>
    let a : Assigned := { filename := f, node := id, n := t.track.length, k := k, start := now }
    ({ p with
        assigned := p.assigned ++ [a]
        task := p.task.insert f { t with track := t.track.set k .assigned } },
      { wl with file := wl.file ++ [a.get] })

/-- The number of available parts `GetOne` passes over. `none` when it returns
early. -/
def pick (id : String) (order : List String) (rnd : ℕ) (p : WorkloadPool) : Option ℕ :=
  if p.shuffle then
    let n := countAvail id (p.entries order)
    if n = 0 then none else some (rnd % n)
  else some 0

/-- `GetOne`. -/
def getOne (id : String) (order : List String) (rnd : ℕ) (now : ℚ)
    (p : WorkloadPool) (wl : Workload) : WorkloadPool × Workload :=
  match p.pick id order rnd with
  | none => (p, wl)
  | some i =>
    match scan id (p.entries order) i with
    | none => (p, wl)
    | some (f, k) => p.assign id now f k wl

/-- `num_file_per_wl_`. -/
def numFilePerWl : ℕ := 1

/-- `Get`. -/
def get (id : String) (order : List String) (rnd : ℕ) (now : ℚ)
    (p : WorkloadPool) (wl : Workload) : WorkloadPool × Workload :=
  (List.range numFilePerWl).foldl (fun s _ => getOne id order rnd now s.1 s.2)
    (p, { wl with file := [] })

/-- `order` is a possible iteration order of `task_`. -/
def Enumerates (order : List String) (p : WorkloadPool) : Prop :=
  order.Nodup ∧ order.toFinset = p.task.keys

instance (order : List String) (p : WorkloadPool) : Decidable (p.Enumerates order) :=
  inferInstanceAs (Decidable (_ ∧ _))

/-- The state of part `k` of file `f`; `none` when the file has left the pool or has
no such part. -/
def trackAt (p : WorkloadPool) (f : String) (k : ℕ) : Option Track :=
  (p.task.lookup f).bind fun t => t.track[k]?

end WorkloadPool

end Difacto.Base
