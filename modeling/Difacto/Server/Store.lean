import Difacto.Server.Handle
import Mathlib.Data.Finmap

/-!
# The server

`KVStoreSparseST` of `ps-lite/src/kv/kv_store_sparse_st.h` with an `AdaGradHandle`, as
`AsyncServer` of `difacto/async_sgd.h` runs it: requests are handled one at a time, a
model is loaded and saved between them. An access `data_[key]` creates the entry. A
failed `CHECK` is `none`; in `HandlePush` so is a push of zero floats per key, which
reads past the end of the message.

`reports` is history: what was passed to the scheduler.

## Main definitions

* `AsyncServer`, `Request`, `Response`, `AsyncServer.handle` — one request.
* `AsyncServer.loadModel`, `saveModel` — checkpoints.
* `AsyncServer.Reachable` — every state of a server whose checkpoints were saved by servers
  of this program, under any configuration.
-/

namespace Difacto.Server

open Base Lib

/-- The state of a server process. -/
structure AsyncServer (F : Type) where
  /-- `data_` -/
  data : Finmap (fun _ : UInt64 => AdaGradEntry F)
  /-- the statics of `ISGDHandle` and the environment -/
  stat : Stat F
  /-- `ct_` -/
  ct : ℕ
  /-- the pairs `new_w`, `new_V` that were reported -/
  reports : List (ℤ × ℤ)

/-- A request. `sizes` is present with dynamic value sizes. -/
inductive Request (F : Type)
  | push (pushCount : Bool) (keys : List UInt64) (vals : List F) (sizes : Option (List ℕ))
  | pull (keys : List UInt64) (dyn : Bool)

/-- What a pull is answered with: the values and their lengths. -/
structure Response (F : Type) where
  vals : List F
  sizes : List ℕ
  deriving DecidableEq

/-- Cut a message into blobs of the given lengths. -/
def cut {F : Type} : List ℕ → List F → List (List F)
  | [], _ => []
  | k :: ks, vals => vals.take k :: cut ks (vals.drop k)

/-- The keys of a push with their blobs, as the loops of `HandlePush` visit them. With
dynamic sizes a key whose size is 0 is skipped. -/
def blobs {F : Type} (keys : List UInt64) (vals : List F) (sizes : Option (List ℕ)) :
    Option (List (UInt64 × List F)) :=
  if keys.length = 0 then some []
  else match sizes with
    | some ks =>
      if ks.length = keys.length ∧ ks.sum = vals.length then
        some ((keys.zip (cut ks vals)).filter fun kb => !kb.2.isEmpty)
      else none
    | none =>
      let k := vals.length / keys.length
      if k * keys.length = vals.length then
        some (keys.zip (cut (List.replicate keys.length k) vals))
      else none

namespace AsyncServer

variable {F : Type} [FloatLike F]

/-- An empty store. -/
def init (stat : Stat F) : AsyncServer F := { data := ∅, stat := stat, ct := 0, reports := [] }

/-- `data_[key]`. -/
def entry (s : AsyncServer F) (key : UInt64) : AdaGradEntry F := (s.data.lookup key).getD .new

/-- Store an entry. -/
def put (s : AsyncServer F) (key : UInt64) (e : AdaGradEntry F) : AsyncServer F :=
  { s with data := s.data.insert key e }

variable (h : AdaGradHandle F)

/-- One key of a push. -/
def pushKey (pushCount : Bool) (s : AsyncServer F) (kb : UInt64 × List F) :
    Option (AsyncServer F) := do
  let (e, stat) ← h.push pushCount kb.2 (s.entry kb.1) s.stat
  return { s.put kb.1 e with stat := stat }

/-- One key of a pull. -/
def pullKey (sv : AsyncServer F × List (List F)) (key : UInt64) :
    Option (AsyncServer F × List (List F)) := do
  let v ← h.pull (sv.1.entry key)
  return (sv.1.put key (sv.1.entry key), sv.2 ++ [v])

/-- `Report`: reduce communication frequency. -/
def report (s : AsyncServer F) : AsyncServer F :=
  if h.ns ≤ s.ct + 1 then
    { s with
      ct := 0
      reports := s.reports ++ [(s.stat.newW, s.stat.newV)]
      stat := { s.stat with newW := 0, newV := 0 } }
  else { s with ct := s.ct + 1 }

/-- `HandlePush`. -/
def handlePush (s : AsyncServer F) (pushCount : Bool) (keys : List UInt64) (vals : List F)
    (sizes : Option (List ℕ)) : Option (AsyncServer F) := do
  let kbs ← blobs keys vals sizes
  let s ← kbs.foldlM (pushKey h pushCount) s
  return s.report h

/-- `HandlePull`. Without dynamic sizes every value has the length `k_`, which is 1. -/
def handlePull (s : AsyncServer F) (keys : List UInt64) (dyn : Bool) :
    Option (AsyncServer F × Response F) := do
  let (s, vs) ← keys.foldlM (pullKey h) (s, [])
  if dyn = true ∨ ∀ v ∈ vs, v.length = 1 then
    return (s.report h, { vals := vs.flatten, sizes := vs.map List.length })
  else none

/-- One request, with the response to a pull. -/
def handle (s : AsyncServer F) : Request F → Option (AsyncServer F × Option (Response F))
  | .push pushCount keys vals sizes =>
    (s.handlePush h pushCount keys vals sizes).map fun s => (s, none)
  | .pull keys dyn => (s.handlePull h keys dyn).map fun r => (r.1, some r.2)

/-- A sequence of requests, with all the responses. -/
def answer (s : AsyncServer F) :
    List (Request F) → Option (AsyncServer F × List (Option (Response F)))
  | [] => some (s, [])
  | req :: reqs => do
    let (s, r) ← s.handle h req
    let (s, rs) ← answer s reqs
    return (s, r :: rs)

/-! ## Checkpoints -/

variable [FixedBytes F]

/-- `fi->Read(&key, sizeof(K))`; `none` when it is short. -/
def readKey (bs : List UInt8) : Option (UInt64 × List UInt8) :=
  if bs.length < 8 then none
  else some (UInt64.ofNat (ofLeBytes (bs.take 8)), bs.drop 8)

/-- `data_[key].Load(fi)`, with the counting `AdaGradEntry::Load` does. -/
def loadEntry (key : UInt64) (s : AsyncServer F) (bs : List UInt8) :
    Option (AsyncServer F × List UInt8) := do
  let (e, bs) ← (s.entry key).loadFields s.stat.junk bs
  let w ← e.w0
  let newV := if e.size = 1 then s.stat.newV else s.stat.newV + ((e.size : ℤ) - 1)
  let newW := if w != 0 then s.stat.newW + 1 else s.stat.newW
  return ({ s.put key e with stat := { s.stat with newW := newW, newV := newV } }, bs)

/-- `KVStoreSparseST::Load`. -/
def load (s : AsyncServer F) (bs : List UInt8) : Option (Loaded (AsyncServer F)) :=
  readRecords readKey loadEntry s bs

/-- `AsyncServer::LoadModel`: it reports what was loaded. -/
def loadModel (s : AsyncServer F) (bs : List UInt8) : Option (AsyncServer F) := do
  let l ← s.load bs
  let s := l.state
  return { s with
    reports := s.reports ++ [(s.stat.newW, s.stat.newV)]
    stat := { s.stat with newW := 0, newV := 0 } }

/-- The record of one key; nothing for an entry that is `Empty()`. -/
def saveEntry (ke : UInt64 × AdaGradEntry F) : Option (List UInt8) := do
  if ← ke.2.empty then return []
  let e ← ke.2.save
  return leBytes 8 ke.1.toNat ++ e

/-- `KVStoreSparseST::Save`, when the range-for meets the entries in this order. -/
def saveModel (order : List (UInt64 × AdaGradEntry F)) : Option (List UInt8) := do
  let rs ← order.mapM saveEntry
  return rs.flatten

/-- A possible iteration order of `data_`. -/
def Enumerates (order : List (UInt64 × AdaGradEntry F)) (s : AsyncServer F) : Prop :=
  (order.map Prod.fst).Nodup ∧ ∀ k e, (k, e) ∈ order ↔ s.data.lookup k = some e

/-- The states of servers: started empty, handling requests, and loading checkpoints
that a server saved, possibly under another configuration. -/
inductive Reachable : AdaGradHandle F → AsyncServer F → Prop
  | init (h : AdaGradHandle F) (stat : Stat F) : Reachable h (init stat)
  | handle {h : AdaGradHandle F} {s s' : AsyncServer F} {req : Request F}
      {r : Option (Response F)} :
      Reachable h s → s.handle h req = some (s', r) → Reachable h s'
  | load {h h₀ : AdaGradHandle F} {s s' s₀ : AsyncServer F} {bs : List UInt8}
      {order : List (UInt64 × AdaGradEntry F)} :
      Reachable h s → Reachable h₀ s₀ → s₀.Enumerates order →
      saveModel order = some bs → s.loadModel bs = some s' → Reachable h s'

end AsyncServer

end Difacto.Server
