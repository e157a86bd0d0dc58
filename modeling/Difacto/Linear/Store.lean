import Difacto.Linear.Handle
import Difacto.Server.Contents

/-!
# The servers of the linear program

`KVStoreSparseST` of `ps-lite/src/kv/kv_store_sparse_st.h` with the entries and handles of
`linear/async_sgd.h`, as `AsgdServer` runs it. The store is a template: `Algorithm` has its
arguments. The workers push one number for a key and pull without dynamic sizes.

`reports` is history: what was passed to the scheduler.

## Main definitions

* `Algorithm`, `sgd`, `adaGrad`, `ftrl`, `createServer` — the three algorithms.
* `AsgdServer`, `AsgdServer.handle`, `AsgdServer.answer` — requests.
* `AsgdServer.saveModel`, `AsgdServer.loadModel` — checkpoints.
-/

namespace Difacto.Linear

open Base Lib

variable {F : Type} [FloatLike F] [FixedBytes F]

/-- An entry with its handle. -/
structure Algorithm (F : Type) [FloatLike F] where
  Entry : Type
  /-- the part of the handle that changes -/
  State : Type
  new : Entry
  w : Entry → F
  init : State
  start : ISGDHandle F → Bool → State → State
  push : ISGDHandle F → State → List F → Entry → ℤ → Option (Entry × ℤ)
  save : Entry → List UInt8
  load : List UInt8 → ℤ → Option (Entry × ℤ × List UInt8)
  /-- the counter does not influence an entry -/
  push_entry : ∀ h st grad e m n,
    (push h st grad e m).map Prod.fst = (push h st grad e n).map Prod.fst
  /-- an entry is read back -/
  load_save : ∀ e m rest, load (save e ++ rest) m = some (e, update (w e) 0 m, rest)

section Algorithms

variable [LawfulFixedBytes F]

/-- `SGDEntry`, `SGDHandle` -/
def sgd [FloatOfInt F] : Algorithm F where
  Entry := SGDEntry F
  State := SGDState F
  new := .new
  w := SGDEntry.w
  init := SGDHandle.init
  start := SGDHandle.start
  push := SGDHandle.push
  save := SGDEntry.save
  load := SGDEntry.load
  push_entry h st grad e m n := by
    simp [SGDHandle.push, Option.map_bind]
  load_save e m rest := by
    simp [SGDEntry.load, SGDEntry.save, readFloat_append]

/-- `AdaGradEntry`, `AdaGradHandle` -/
def adaGrad : Algorithm F where
  Entry := AdaGradEntry F
  State := Unit
  new := .new
  w := AdaGradEntry.w
  init := ()
  start _ _ st := st
  push h _ := AdaGradHandle.push h
  save := AdaGradEntry.save
  load := AdaGradEntry.load
  push_entry h st grad e m n := by
    simp [AdaGradHandle.push, Option.map_bind]
  load_save e m rest := by
    simp [AdaGradEntry.load, AdaGradEntry.save, readFloat_append]

/-- `FTRLEntry`, `FTRLHandle` -/
def ftrl : Algorithm F where
  Entry := FTRLEntry F
  State := Unit
  new := .new
  w := FTRLEntry.w
  init := ()
  start _ _ st := st
  push h _ := FTRLHandle.push h
  save := FTRLEntry.save
  load := FTRLEntry.load
  push_entry h st grad e m n := by
    simp [FTRLHandle.push, Option.map_bind]
  load_save e m rest := by
    simp [FTRLEntry.load, FTRLEntry.save, readFloat_append]

/-- `Config::Algo` -/
inductive Algo
  | sgd
  | adagrad
  | ftrl
  deriving DecidableEq

/-- `CreateServer` -/
def createServer [FloatOfInt F] : Algo → Algorithm F
  | .sgd => sgd
  | .adagrad => adaGrad
  | .ftrl => ftrl

end Algorithms

/-- The state of a server process. -/
structure AsgdServer (A : Algorithm F) where
  /-- `data_` -/
  data : Finmap (fun _ : UInt64 => A.Entry)
  /-- `handle_` -/
  state : A.State
  newW : ℤ
  /-- `ct_` -/
  ct : ℕ
  /-- the values of `new_w` that were reported -/
  reports : List ℤ

/-- A request. -/
inductive Request (F : Type)
  | push (keys : List UInt64) (vals : List F)
  | pull (keys : List UInt64)

namespace AsgdServer

variable {A : Algorithm F} (h : ISGDHandle F)

/-- A new server. -/
def init : AsgdServer A := { data := ∅, state := A.init, newW := 0, ct := 0, reports := [] }

/-- `data_[key]` -/
def entry (s : AsgdServer A) (key : UInt64) : A.Entry := (s.data.lookup key).getD A.new

/-- Store an entry. -/
def put (s : AsgdServer A) (key : UInt64) (e : A.Entry) : AsgdServer A :=
  { s with data := s.data.insert key e }

/-- `handle_.Finish()`: avoid too frequently reporting. -/
def finish (s : AsgdServer A) : AsgdServer A :=
  if h.ns ≤ s.ct + 1 then
    { s with ct := 0, newW := 0, reports := s.reports ++ [s.newW] }
  else { s with ct := s.ct + 1 }

/-- One key of a push. -/
def pushKey (s : AsgdServer A) (kb : UInt64 × List F) : Option (AsgdServer A) := do
  let (e, newW) ← A.push h s.state kb.2 (s.entry kb.1) s.newW
  return { s.put kb.1 e with newW := newW }

/-- `HandlePush` -/
def handlePush (s : AsgdServer A) (keys : List UInt64) (vals : List F) :
    Option (AsgdServer A) := do
  let s := { s with state := A.start h true s.state }
  let kbs ← Server.blobs keys vals none
  let s ← kbs.foldlM (pushKey h) s
  return s.finish h

/-- One key of a pull: `send[0] = w`. -/
def pullKey (sv : AsgdServer A × List F) (key : UInt64) : AsgdServer A × List F :=
  (sv.1.put key (sv.1.entry key), sv.2 ++ [A.w (sv.1.entry key)])

/-- `HandlePull` -/
def handlePull (s : AsgdServer A) (keys : List UInt64) : AsgdServer A × List F :=
  let s := { s with state := A.start h false s.state }
  let (s, vals) := keys.foldl pullKey (s, [])
  (s.finish h, vals)

/-- One request, with the response to a pull. -/
def handle (s : AsgdServer A) : Request F → Option (AsgdServer A × Option (List F))
  | .push keys vals => (s.handlePush h keys vals).map fun s => (s, none)
  | .pull keys =>
    let r := s.handlePull h keys
    some (r.1, some r.2)

/-- A sequence of requests, with all the responses. -/
def answer (s : AsgdServer A) :
    List (Request F) → Option (AsgdServer A × List (Option (List F)))
  | [] => some (s, [])
  | req :: reqs => do
    let (s, r) ← s.handle h req
    let (s, rs) ← answer s reqs
    return (s, r :: rs)

/-! ## Checkpoints -/

/-- `Empty()` -/
def empty (e : A.Entry) : Bool := A.w e == 0

/-- The record of one key. -/
def recordBytes (ke : UInt64 × A.Entry) : List UInt8 := leBytes 8 ke.1.toNat ++ A.save ke.2

/-- `KVStoreSparseST::Save`, when the range-for meets the entries in this order. The handle
writes nothing. -/
def saveModel (order : List (UInt64 × A.Entry)) : List UInt8 :=
  (order.filter fun ke => !empty ke.2).flatMap recordBytes

/-- `data_[key].Load(fi)` -/
def loadEntry (key : UInt64) (s : AsgdServer A) (bs : List UInt8) :
    Option (AsgdServer A × List UInt8) := do
  let (e, newW, bs) ← A.load bs s.newW
  return ({ s.put key e with newW := newW }, bs)

/-- `KVStoreSparseST::Load`; the handle reads nothing. -/
def load (s : AsgdServer A) (bs : List UInt8) : Option (Loaded (AsgdServer A)) :=
  readRecords Server.AsyncServer.readKey loadEntry s bs

/-- `AsgdServer::LoadModel`: it reports what was loaded. -/
def loadModel (s : AsgdServer A) (bs : List UInt8) : Option (AsgdServer A) := do
  let l ← s.load bs
  let s := l.state
  return { s with newW := 0, reports := s.reports ++ [s.newW] }

/-- A possible iteration order of `data_`. -/
def Enumerates (order : List (UInt64 × A.Entry)) (s : AsgdServer A) : Prop :=
  (order.map Prod.fst).Nodup ∧ ∀ k e, (k, e) ∈ order ↔ s.data.lookup k = some e

end AsgdServer

end Difacto.Linear
