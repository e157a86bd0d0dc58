import Difacto.Lib.Bytes
import Difacto.Lib.Reach
import Mathlib.Logic.Function.Basic
import Mathlib.Data.List.Basic
import Mathlib.Data.Nat.Basic

/-!
# Key caching

`KeyCachingFilter` of `ps-lite/src/filter/key_caching.h`, and the messages of one worker and
one server that pass through it. Both nodes have one filter for the other, for requests and
responses alike. `AsyncWorker::ProcessMinibatch` of `difacto/async_sgd.h` pushes the feature
counts of a minibatch, pulls its weights, and pushes its gradients when they are there. The
channels are first in, first out. Acknowledgements of pushes have no filter and are left out.

Keys are bytes, as the filter sees them; `hash` stands for `CityHash64`. A failed `CHECK` is
`none`. `sent` and `delivered` are history: the keys that were passed to `Encode`, and those
pairs with what `Decode` made of them.

## Main definitions

* `KeyCachingFilter` with `fastHash`, `encode` and `decode`.
* `KeyCaching`, `KeyCaching.step` — the worker, the server and the channels.
* `KeyCaching.Safe` — no cached list is taken for another one, and none is dropped while a
  pull needs it.

## Main results

* `KeyCachingFilter.decode_encode` — equal caches decode what they encode, and stay equal.
* `KeyCaching.keys_kept` — in runs of safe steps, keys arrive as they were sent.
* `KeyCaching.safe_iff` — a step that is not safe leads to a message with other keys, or to
  one that cannot be decoded.
* `KeyCaching.delivered_of_ends` — the middle of a long list is not looked at.
-/

namespace Difacto.System

open Lib

/-! ## The filter -/

/-- What the filter reads and writes of a message. -/
structure KeyMsg where
  request : Bool
  /-- it has a `param`, and that is a push -/
  push : Bool
  /-- `clear_cache` of the filter configuration -/
  clearCache : Bool
  /-- `signature` of the filter configuration -/
  signature : Option UInt64
  key : List UInt8
  deriving DecidableEq

namespace KeyMsg

/-- `IsDone` -/
def isDone (msg : KeyMsg) : Bool := !msg.request || msg.push

/-- The cached list is not needed any more. -/
def clear (msg : KeyMsg) : Bool := msg.clearCache && msg.isDone

end KeyMsg

/-- Caches the key lists on both sender and receiver to avoid duplicated communication. -/
structure KeyCachingFilter where
  cache : UInt64 → Option (List UInt8)

namespace KeyCachingFilter

/-- `min_len_` -/
def minLen : ℕ := 64

/-- `max_sig_len_` -/
def maxSigLen : ℕ := 4096

variable (hash : List UInt8 → UInt64)

/-- `FastHash` -/
def fastHash (arr : List UInt8) : UInt64 :=
  if arr.length < maxSigLen then hash arr
  else hash (arr.take (maxSigLen / 2)) ^^^ hash (arr.drop (arr.length - maxSigLen / 2))

/-- `Encode` -/
def encode (f : KeyCachingFilter) (msg : KeyMsg) : KeyCachingFilter × KeyMsg :=
  if msg.key.length < minLen then (f, { msg with signature := none })
  else
    let sig := fastHash hash msg.key
    if (f.cache sig).any fun old => decide (old.length = msg.key.length) then
      -- hit cache
      (if msg.clear then ⟨Function.update f.cache sig none⟩ else f,
        { msg with signature := some sig, key := [] })
    else
      (if msg.clear then f else ⟨Function.update f.cache sig (some msg.key)⟩,
        { msg with signature := some sig })

/-- `Decode` -/
def decode (f : KeyCachingFilter) (msg : KeyMsg) : Option (KeyCachingFilter × KeyMsg) :=
  match msg.signature with
  | none => some (f, msg)
  | some sig =>
    if msg.key.isEmpty then
      -- "invalid key cache"
      (f.cache sig).map fun key =>
        (if msg.clear then ⟨Function.update f.cache sig none⟩ else f, { msg with key })
    else if fastHash hash msg.key = sig then
      some (if msg.clear then f else ⟨Function.update f.cache sig (some msg.key)⟩, msg)
    else none

/-- The signature that is sent with a list. -/
def signatureOf (key : List UInt8) : Option UInt64 :=
  if key.length < minLen then none else some (fastHash hash key)

/-- The cache has the list, or the list is too short for it. -/
def Holds (f : KeyCachingFilter) (key : List UInt8) : Prop :=
  minLen ≤ key.length → f.cache (fastHash hash key) = some key

/-- A list in the cache that is taken for `key` is `key`. -/
def Genuine (f : KeyCachingFilter) (key : List UInt8) : Prop :=
  minLen ≤ key.length → ∀ old ∈ f.cache (fastHash hash key), old.length = key.length → old = key

variable {hash} {f f' : KeyCachingFilter} {msg msg' : KeyMsg} {key : List UInt8}

theorem Holds.genuine (h : f.Holds hash key) : f.Genuine hash key := by
  intro hlen old hold _
  rw [h hlen] at hold
  exact (Option.some.inj hold).symm

/-- **Lists with the same ends** and the same length have the same signature. -/
theorem fastHash_eq_of_ends {a b : List UInt8} (hlong : maxSigLen ≤ a.length)
    (hlen : a.length = b.length) (hfirst : a.take (maxSigLen / 2) = b.take (maxSigLen / 2))
    (hlast : a.drop (a.length - maxSigLen / 2) = b.drop (b.length - maxSigLen / 2)) :
    fastHash hash a = fastHash hash b := by
  rw [fastHash, fastHash, if_neg (by omega), if_neg (by omega), hfirst, hlast]

/-- Decoding changes the keys only. -/
theorem eq_of_decode (h : f.decode hash msg = some (f', msg')) :
    msg' = { msg with key := msg'.key } := by
  rw [decode] at h
  split at h
  · cases h
    rfl
  · split at h
    · obtain ⟨key, -, hkey⟩ := Option.map_eq_some_iff.mp h
      cases hkey
      rfl
    · split at h
      · cases h
        rfl
      · cases h

theorem signature_encode : (f.encode hash msg).2.signature = signatureOf hash msg.key := by
  rw [encode, signatureOf]
  split
  · rfl
  · dsimp only
    split <;> rfl

theorem eq_of_encode : (f.encode hash msg).2 =
    { msg with signature := signatureOf hash msg.key, key := (f.encode hash msg).2.key } := by
  rw [← signature_encode (f := f), encode]
  split
  · rfl
  · dsimp only
    split <;> rfl

/-- **Equal caches** decode what they encode, and stay equal. -/
theorem decode_encode (hgen : f.Genuine hash msg.key) :
    f.decode hash (f.encode hash msg).2 =
      some ((f.encode hash msg).1, { msg with signature := signatureOf hash msg.key }) := by
  by_cases hlen : msg.key.length < minLen
  · rw [encode, if_pos hlen, signatureOf, if_pos hlen]
    rfl
  · rw [encode, if_neg hlen, signatureOf, if_neg hlen]
    dsimp only
    by_cases hhit : (f.cache (fastHash hash msg.key)).any
        (fun old => decide (old.length = msg.key.length)) = true
    · obtain ⟨old, hold, heq⟩ := (Option.any_eq_true _ _).mp hhit
      have hsame : old = msg.key := hgen (not_lt.mp hlen) old hold (of_decide_eq_true heq)
      subst hsame
      rw [if_pos hhit]
      simp [decode, hold, KeyMsg.clear, KeyMsg.isDone]
    · have hne : msg.key.isEmpty = false := by
        rw [List.isEmpty_eq_false_iff_exists_mem]
        apply List.exists_mem_of_length_pos
        simp only [minLen] at hlen
        omega
      rw [if_neg hhit]
      simp [decode, hne, KeyMsg.clear, KeyMsg.isDone]

/-- A list that the cache holds is not sent, and stays. -/
theorem encode_of_holds (hkeep : msg.clear = false) (hhold : f.Holds hash msg.key) :
    f.encode hash msg = (f, { msg with
      signature := signatureOf hash msg.key
      key := if msg.key.length < minLen then msg.key else [] }) := by
  rw [encode, signatureOf]
  split
  · rfl
  · rename_i hlen
    simp [hhold (not_lt.mp hlen), hkeep]

/-- After a message that keeps the cache, the receiver holds its list. -/
theorem holds_of_decode (h : f.decode hash msg = some (f', msg')) (hkeep : msg.clear = false)
    (hsig : msg.signature = signatureOf hash msg'.key) : f'.Holds hash msg'.key := by
  intro hlen
  rw [signatureOf, if_neg (not_lt.mpr hlen)] at hsig
  rw [decode] at h
  split at h
  · rename_i hnone
    rw [hnone] at hsig
    cases hsig
  · rename_i sig hsome
    obtain rfl := Option.some.inj (hsome.symm.trans hsig)
    rw [hkeep] at h
    split at h
    · obtain ⟨key, hkey, heq⟩ := Option.map_eq_some_iff.mp h
      cases heq
      exact hkey
    · split at h
      · cases h
        exact Function.update_self ..
      · cases h

/-- A message without keys that keeps the cache does not change it. -/
theorem eq_of_decode_nil (h : f.decode hash msg = some (f', msg')) (hkeep : msg.clear = false)
    (hnil : msg.signature = none ∨ msg.key = []) : f' = f := by
  rw [decode, hkeep] at h
  split at h
  · cases h
    rfl
  · rename_i sig hsome
    have hempty : msg.key = [] := hnil.resolve_left (by rw [hsome]; simp)
    rw [hempty] at h
    obtain ⟨key, -, heq⟩ := Option.map_eq_some_iff.mp h
    exact (congrArg Prod.fst heq).symm

/-- After a message that keeps the cache, the sender holds its list. -/
theorem holds_encode (hkeep : msg.clear = false) (hgen : f.Genuine hash msg.key) :
    (f.encode hash msg).1.Holds hash msg.key := by
  have hclear : (f.encode hash msg).2.clear = false := by
    rw [eq_of_encode]
    exact hkeep
  have hhold := holds_of_decode (decode_encode hgen) hclear signature_encode
  exact hhold

/-- A list stays in the sender's cache if the message is for a list with another signature,
or does not drop the entry. -/
theorem Holds.encode (hhold : f.Holds hash key)
    (h : minLen ≤ key.length → minLen ≤ msg.key.length →
      fastHash hash msg.key = fastHash hash key →
      ¬(key.length = msg.key.length ↔ msg.clear = true)) :
    (f.encode hash msg).1.Holds hash key := by
  intro hlen
  have hkey := hhold hlen
  rw [KeyCachingFilter.encode]
  split
  · exact hkey
  · rename_i hmsg
    have hdrop := h hlen (not_lt.mp hmsg)
    by_cases hsig : fastHash hash msg.key = fastHash hash key
    · have hdrop := hdrop hsig
      rw [hsig]
      simp only [hkey, Option.any_some, decide_eq_true_eq]
      split
      · rename_i heq
        have hkeep : ¬msg.clear = true := fun hc => hdrop (iff_of_true heq hc)
        rw [if_neg hkeep]
        exact hkey
      · rename_i hne
        have hclear : msg.clear = true := by
          by_contra hc
          exact hdrop (iff_of_false hne hc)
        rw [if_pos hclear]
        exact hkey
    · have hother : ∀ v, Function.update f.cache (fastHash hash msg.key) v (fastHash hash key) =
          some key := by
        intro v
        rw [Function.update_of_ne (Ne.symm hsig)]
        exact hkey
      dsimp only
      split <;> split
      · exact hother none
      · exact hkey
      · exact hkey
      · exact hother _

/-- A list of the same length and signature is taken for the one that is sent. -/
theorem decode_encode_of_hit {old : List UInt8} (hlen : minLen ≤ msg.key.length)
    (hold : f.cache (fastHash hash msg.key) = some old) (heq : old.length = msg.key.length) :
    ∃ f' msg', f.decode hash (f.encode hash msg).2 = some (f', msg') ∧ msg'.key = old := by
  rw [encode, if_neg (not_lt.mpr hlen)]
  simp [hold, heq, decode]

/-- A message with `clear` drops a list of the same length, another message one of another
length. -/
theorem cache_encode_ne {old : List UInt8} (hlen : minLen ≤ msg.key.length)
    (hold : f.cache (fastHash hash msg.key) = some old)
    (hdrop : old.length = msg.key.length ↔ msg.clear = true) :
    (f.encode hash msg).1.cache (fastHash hash msg.key) ≠ some old := by
  rw [encode, if_neg (not_lt.mpr hlen)]
  by_cases heq : old.length = msg.key.length
  · simp [hold, heq, hdrop.mp heq]
  · have hkeep : msg.clear = false := by simpa [heq] using hdrop
    have hne : msg.key ≠ old := fun h => heq (by rw [h])
    simp [hold, heq, hkeep, hne]

end KeyCachingFilter

/-! ## A worker and a server -/

open KeyCachingFilter

/-- The requests of `ProcessMinibatch`, in the order of the flags of `SetFilters`. -/
inductive Flag
  | pushFeaCnt
  | pullWeight
  | pushGrad
  deriving DecidableEq

/-- A request, with the filter configuration that `SetFilters` adds. -/
def Flag.request (flag : Flag) (key : List UInt8) : KeyMsg where
  request := true
  push := decide (flag ≠ .pullWeight)
  clearCache := decide (flag = .pushGrad)
  signature := none
  key := key

/-- How far a minibatch is. -/
inductive Phase
  | counted
  | pulled
  | answered
  | done
  deriving DecidableEq

/-- A minibatch with the keys that it shares with the server. -/
structure KeyBatch where
  key : List UInt8
  phase : Phase

/-- A message in a channel. -/
structure Wire where
  /-- the minibatch it belongs to -/
  batch : ℕ
  /-- the keys that were passed to `Encode` -/
  sent : List UInt8
  msg : KeyMsg

/-- The state of the two nodes and the channels. -/
structure KeyCaching where
  worker : KeyCachingFilter
  server : KeyCachingFilter
  toServer : List Wire
  toWorker : List Wire
  batches : List KeyBatch
  /-- keys that were passed to `Encode`, and those that `Decode` delivered -/
  delivered : List (List UInt8 × List UInt8)

namespace KeyCaching

/-- What happens next. -/
inductive Act
  /-- a minibatch starts with the push of its feature counts -/
  | count (key : List UInt8)
  /-- a minibatch starts with its pull -/
  | start (key : List UInt8)
  /-- the pull of a minibatch whose counts were pushed -/
  | pull (b : ℕ)
  /-- the push of the gradients, once the weights are there -/
  | grad (b : ℕ)
  /-- the server processes the next request -/
  | serverRecv
  /-- the worker processes the next response -/
  | workerRecv

/-- Nothing was sent. -/
def init : KeyCaching where
  worker := ⟨fun _ => none⟩
  server := ⟨fun _ => none⟩
  toServer := []
  toWorker := []
  batches := []
  delivered := []

/-- The pulls that are not answered: the requests and the responses under way. -/
def unanswered (s : KeyCaching) : List Wire :=
  s.toServer.filter (fun w => !w.msg.push) ++ s.toWorker

variable (hash : List UInt8 → UInt64)

/-- `Submit` with `EncodeMessage` -/
def send (flag : Flag) (b : ℕ) (key : List UInt8) (s : KeyCaching) : KeyCaching :=
  let (worker, msg) := s.worker.encode hash (flag.request key)
  { s with worker, toServer := s.toServer ++ [{ batch := b, sent := key, msg }] }

/-- `PickActiveMsg` with `DecodeMessage`, and `ProcessRequest`: the response to a pull is a
copy of the request. -/
def serverRecv (s : KeyCaching) : Option KeyCaching :=
  match s.toServer with
  | [] => none
  | w :: rest => do
    let (server, msg) ← s.server.decode hash w.msg
    let s := { s with server, toServer := rest, delivered := s.delivered ++ [(w.sent, msg.key)] }
    if msg.push then pure s
    else
      let (server, response) := server.encode hash { msg with request := false }
      pure { s with
        server
        toWorker := s.toWorker ++ [{ batch := w.batch, sent := msg.key, msg := response }] }

/-- `PickActiveMsg` with `DecodeMessage`; then the callback of the pull runs. -/
def workerRecv (s : KeyCaching) : Option KeyCaching :=
  match s.toWorker with
  | [] => none
  | w :: rest => do
    let (worker, msg) ← s.worker.decode hash w.msg
    pure { s with
      worker
      toWorker := rest
      batches := s.batches.modify w.batch fun b => { b with phase := .answered }
      delivered := s.delivered ++ [(w.sent, msg.key)] }

/-- A request of minibatch `b`, which goes from one phase to another. -/
def advance (before after : Phase) (flag : Flag) (b : ℕ) (s : KeyCaching) : Option KeyCaching := do
  let x ← s.batches[b]?
  if x.phase = before then
    pure { s.send hash flag b x.key with batches := s.batches.set b { x with phase := after } }
  else none

/-- One step. -/
def step (s : KeyCaching) : Act → Option KeyCaching
  | .count key => some { s.send hash .pushFeaCnt s.batches.length key with
      batches := s.batches ++ [{ key, phase := .counted }] }
  | .start key => some { s.send hash .pullWeight s.batches.length key with
      batches := s.batches ++ [{ key, phase := .pulled }] }
  | .pull b => s.advance hash .counted .pulled .pullWeight b
  | .grad b => s.advance hash .answered .done .pushGrad b
  | .serverRecv => s.serverRecv hash
  | .workerRecv => s.workerRecv hash

/-- The worker can send a request for `key`. A cached list of the same length and signature is
`key` itself, and a list is dropped from the cache only while no pull with its signature is
unanswered. A gradient push drops a list of the same length, another request one of another
length. -/
def SafeSend (flag : Flag) (key : List UInt8) (s : KeyCaching) : Prop :=
  minLen ≤ key.length → ∀ old ∈ s.worker.cache (fastHash hash key),
    (old.length = key.length → old = key) ∧
    ((old.length = key.length ↔ flag = .pushGrad) →
      ∀ w ∈ s.unanswered, w.msg.signature ≠ some (fastHash hash key))

/-- All that the worker sends can be sent. -/
def Safe (s : KeyCaching) : Act → Prop
  | .count key => s.SafeSend hash .pushFeaCnt key
  | .start key => s.SafeSend hash .pullWeight key
  | .pull b => ∀ x ∈ s.batches[b]?, s.SafeSend hash .pullWeight x.key
  | .grad b => ∀ x ∈ s.batches[b]?, s.SafeSend hash .pushGrad x.key
  | .serverRecv | .workerRecv => True

/-- All keys arrived as they were sent, and the next message of a channel can be decoded. -/
def Kept (s : KeyCaching) : Prop :=
  (∀ d ∈ s.delivered, d.2 = d.1) ∧
  (∀ w rest, s.toServer = w :: rest → (s.server.decode hash w.msg).isSome) ∧
  (∀ w rest, s.toWorker = w :: rest → (s.worker.decode hash w.msg).isSome)

/-! ## The invariant -/

/-- The server's cache after a request that arrives with the keys that were sent. -/
def deliver (f : KeyCachingFilter) (w : Wire) : Option KeyCachingFilter :=
  (f.decode hash w.msg).bind fun (f, msg) => if msg.key = w.sent then some f else none

/-- The form of a request under way. -/
def IsRequest (w : Wire) : Prop :=
  ∃ flag key, w.msg = { Flag.request flag w.sent with
    signature := signatureOf hash w.sent, key }

/-- The form of a response under way. -/
def IsResponse (w : Wire) : Prop :=
  w.msg = { Flag.request .pullWeight w.sent with
    request := false
    signature := signatureOf hash w.sent
    key := if w.sent.length < minLen then w.sent else [] }

/-- **The invariant.** The requests under way lead from the server's cache to the worker's,
and the worker has all lists that unanswered pulls need. -/
structure Inv (s : KeyCaching) : Prop where
  forward : s.toServer.foldlM (deliver hash) s.server = some s.worker
  request : ∀ w ∈ s.toServer, IsRequest hash w
  response : ∀ w ∈ s.toWorker, IsResponse hash w
  held : ∀ w ∈ s.unanswered, s.worker.Holds hash w.sent
  kept : ∀ d ∈ s.delivered, d.2 = d.1

variable {hash} {s s' : KeyCaching}

theorem inv_init : init.Inv hash :=
  ⟨rfl, by simp [init], by simp [init], by simp [init, unanswered], by simp [init]⟩

/-- The minibatches are not part of the invariant. -/
theorem Inv.withBatches (hi : s.Inv hash) (batches : List KeyBatch) :
    ({ s with batches } : KeyCaching).Inv hash :=
  ⟨hi.forward, hi.request, hi.response, hi.held, hi.kept⟩

theorem deliver_encode {f : KeyCachingFilter} {msg : KeyMsg} (hgen : f.Genuine hash msg.key)
    (b : ℕ) : deliver hash f { batch := b, sent := msg.key, msg := (f.encode hash msg).2 } =
      some (f.encode hash msg).1 := by
  rw [deliver, decode_encode hgen, Option.bind_some]
  exact if_pos rfl

theorem clear_request (flag : Flag) (key : List UInt8) :
    (flag.request key).clear = decide (flag = .pushGrad) := by
  cases flag <;> rfl

theorem signature_of_unanswered (hi : s.Inv hash) {w : Wire} (hw : w ∈ s.unanswered) :
    w.msg.signature = signatureOf hash w.sent := by
  rcases List.mem_append.mp hw with hw | hw
  · obtain ⟨flag, key, heq⟩ := hi.request w (List.mem_of_mem_filter hw)
    rw [heq]
  · rw [hi.response w hw]

theorem isRequest_send (flag : Flag) (b : ℕ) (key : List UInt8)
    (h : ∀ w ∈ s.toServer, IsRequest hash w) :
    ∀ w ∈ (s.send hash flag b key).toServer, IsRequest hash w := by
  intro w hw
  rcases List.mem_append.mp hw with hw | hw
  · exact h w hw
  · obtain rfl := List.mem_singleton.mp hw
    exact ⟨flag, _, @eq_of_encode hash s.worker (flag.request key)⟩

/-- **The worker sends a request.** -/
theorem Inv.send {flag : Flag} {b : ℕ} {key : List UInt8} (hi : s.Inv hash)
    (hsafe : s.SafeSend hash flag key) : (s.send hash flag b key).Inv hash := by
  have hgen : s.worker.Genuine hash (flag.request key).key :=
    fun hlen old hold => (hsafe hlen old hold).1
  have hform := @eq_of_encode hash s.worker (flag.request key)
  refine ⟨?_, isRequest_send flag b key hi.request, hi.response, ?_, hi.kept⟩
  · have hlast := deliver_encode hgen b
    rw [KeyCaching.send, List.foldlM_append, hi.forward, Option.bind_eq_bind, Option.bind_some,
      List.foldlM_cons]
    exact Option.bind_eq_some_iff.mpr ⟨_, hlast, rfl⟩
  · intro w hw
    have hcases : w ∈ s.unanswered ∨ flag = .pullWeight ∧ w.sent = key := by
      simp only [unanswered, KeyCaching.send, List.filter_append, List.mem_append,
        List.mem_filter, List.mem_singleton] at hw
      rcases hw with (hw | ⟨rfl, hpull⟩) | hw
      · exact .inl (List.mem_append_left _ (List.mem_filter.mpr hw))
      · rw [hform] at hpull
        exact .inr ⟨by simpa [Flag.request] using hpull, rfl⟩
      · exact .inl (List.mem_append_right _ hw)
    rcases hcases with hw | ⟨rfl, rfl⟩
    · apply (hi.held w hw).encode
      intro hlen hkey hsig hdrop
      -- the entry is dropped, but the pull is unanswered
      have hold := hi.held w hw hlen
      rw [← hsig] at hold
      rw [clear_request, decide_eq_true_eq] at hdrop
      apply (hsafe hkey w.sent hold).2 hdrop w hw
      rw [signature_of_unanswered hi hw, signatureOf, if_neg (not_lt.mpr hlen), ← hsig]
      rfl
    · exact holds_encode (by rw [clear_request]; rfl) hgen

/-- The next request arrives with the keys that were sent. -/
theorem of_forward {f worker : KeyCachingFilter} {w : Wire} {rest : List Wire}
    (hforward : (w :: rest).foldlM (deliver hash) f = some worker) :
    ∃ f' msg, f.decode hash w.msg = some (f', msg) ∧ msg.key = w.sent ∧
      rest.foldlM (deliver hash) f' = some worker := by
  rw [List.foldlM_cons] at hforward
  obtain ⟨g, hg, hrest⟩ := Option.bind_eq_some_iff.mp hforward
  obtain ⟨⟨f', msg⟩, hdecode, hg⟩ := Option.bind_eq_some_iff.mp hg
  dsimp only at hg
  split at hg
  · rename_i hkey
    obtain rfl := Option.some.inj hg
    exact ⟨f', msg, hdecode, hkey, hrest⟩
  · cases hg

/-- The response to a pull. The server's cache does not change. -/
theorem response_of_decode {f f' : KeyCachingFilter} {w : Wire} {msg : KeyMsg} (b : ℕ)
    (hform : IsRequest hash w) (hdecode : f.decode hash w.msg = some (f', msg))
    (hkey : msg.key = w.sent) (hpull : msg.push = false) :
    ∃ response, f'.encode hash { msg with request := false } = (f', response) ∧
      IsResponse hash { batch := b, sent := msg.key, msg := response } := by
  obtain ⟨flag, key, hmsg⟩ := hform
  have heq := eq_of_decode hdecode
  rw [hmsg] at heq
  obtain rfl : flag = .pullWeight := by
    rw [heq] at hpull
    simpa [Flag.request] using hpull
  have hhold : f'.Holds hash msg.key := by
    apply holds_of_decode hdecode
    · rw [hmsg]
      rfl
    · rw [hmsg, hkey]
  refine ⟨_, encode_of_holds ?_ hhold, ?_⟩
  · rw [heq]
    rfl
  · rw [IsResponse]
    dsimp only
    rw [heq]
    rfl

/-- What the server does with the next request. A pull is answered. -/
theorem serverRecv_eq {w : Wire} {rest : List Wire} {server : KeyCachingFilter} {msg : KeyMsg}
    (hserver : s.toServer = w :: rest) (hdecode : s.server.decode hash w.msg = some (server, msg)) :
    ∃ t, s.serverRecv hash = some t ∧ t.toServer = rest ∧ t.worker = s.worker ∧
      t.delivered = s.delivered ++ [(w.sent, msg.key)] ∧
      (IsRequest hash w → msg.key = w.sent → t.server = server ∧ ∃ xs,
        t.toWorker = s.toWorker ++ xs ∧ (∀ x ∈ xs, IsResponse hash x ∧ x.sent = w.sent) ∧
        (xs = [] ↔ w.msg.push = true)) := by
  have hpush : msg.push = w.msg.push := by rw [eq_of_decode hdecode]
  rw [KeyCaching.serverRecv, hserver]
  dsimp only
  rw [hdecode, Option.bind_eq_bind, Option.bind_some, ← hpush]
  dsimp only
  by_cases hp : msg.push = true
  · rw [if_pos hp]
    refine ⟨_, rfl, rfl, rfl, rfl, fun _ _ => ⟨rfl, [], ?_, ?_, ?_⟩⟩
    · exact (List.append_nil _).symm
    · simp
    · simp [hp]
  · rw [if_neg hp]
    refine ⟨_, rfl, rfl, rfl, rfl, fun hform hkey => ?_⟩
    obtain ⟨response, hencode, hresponse⟩ :=
      response_of_decode w.batch hform hdecode hkey (by simpa using hp)
    dsimp only
    rw [hencode]
    refine ⟨rfl, _, rfl, ?_, ?_⟩
    · intro x hx
      obtain rfl := List.mem_singleton.mp hx
      exact ⟨hresponse, hkey⟩
    · simpa using hp

theorem mem_unanswered_cons {w : Wire} {rest : List Wire} (hserver : s.toServer = w :: rest)
    {x : Wire} : x ∈ s.unanswered ↔ (x = w ∧ w.msg.push = false) ∨
      x ∈ rest.filter (fun w => !w.msg.push) ++ s.toWorker := by
  rw [unanswered, hserver, List.filter_cons]
  split
  · rename_i hp
    rw [Bool.not_eq_true'] at hp
    simp [hp]
  · rename_i hp
    rw [Bool.not_eq_true', Bool.not_eq_false] at hp
    simp [hp]

/-- **The server processes a request.** -/
theorem Inv.serverRecv (hi : s.Inv hash) (h : s.serverRecv hash = some s') : s'.Inv hash := by
  cases hserver : s.toServer with
  | nil =>
      rw [KeyCaching.serverRecv, hserver] at h
      cases h
  | cons w rest =>
      obtain ⟨server, msg, hdecode, hkey, hforward⟩ := of_forward (hserver ▸ hi.forward)
      have hform := hi.request w (hserver ▸ List.mem_cons_self)
      obtain ⟨t, ht, htoServer, hworker, hdelivered, hrest⟩ := serverRecv_eq hserver hdecode
      obtain ⟨rfl, xs, htoWorker, hxs, hpull⟩ := hrest hform hkey
      obtain rfl := Option.some.inj (h.symm.trans ht)
      refine ⟨?_, ?_, ?_, ?_, ?_⟩
      · rw [htoServer, hworker]
        exact hforward
      · intro x hx
        exact hi.request x (hserver ▸ List.mem_cons_of_mem w (htoServer ▸ hx))
      · intro x hx
        rw [htoWorker] at hx
        rcases List.mem_append.mp hx with hx | hx
        · exact hi.response x hx
        · exact (hxs x hx).1
      · intro x hx
        rw [unanswered, htoServer, htoWorker, ← List.append_assoc] at hx
        rw [hworker]
        rcases List.mem_append.mp hx with hx | hx
        · exact hi.held x ((mem_unanswered_cons hserver).mpr (.inr hx))
        · -- the response to the request that was just processed
          have hnotpush : w.msg.push = false := by
            rw [← Bool.not_eq_true, ← hpull]
            exact List.ne_nil_of_mem hx
          rw [(hxs x hx).2]
          exact hi.held w ((mem_unanswered_cons hserver).mpr (.inl ⟨rfl, hnotpush⟩))
      · intro d hd
        rw [hdelivered] at hd
        rcases List.mem_append.mp hd with hd | hd
        · exact hi.kept d hd
        · obtain rfl := List.mem_singleton.mp hd
          exact hkey

/-- The next response can be decoded. The worker's cache does not change. -/
theorem decode_of_response {f : KeyCachingFilter} {w : Wire} (hform : IsResponse hash w)
    (hhold : f.Holds hash w.sent) : ∃ msg, f.decode hash w.msg = some (f, msg) ∧
      msg.key = w.sent := by
  let msg : KeyMsg := { Flag.request .pullWeight w.sent with request := false }
  have hencode : f.encode hash msg = (f, w.msg) := by
    rw [hform]
    exact encode_of_holds rfl hhold
  have hdecode : f.decode hash (f.encode hash msg).2 = some ((f.encode hash msg).1, _) :=
    decode_encode hhold.genuine
  rw [hencode] at hdecode
  exact ⟨_, hdecode, rfl⟩

/-- **The worker processes a response.** -/
theorem Inv.workerRecv (hi : s.Inv hash) (h : s.workerRecv hash = some s') : s'.Inv hash := by
  rw [KeyCaching.workerRecv] at h
  split at h
  · cases h
  · rename_i w rest hworker
    have hmem : w ∈ s.unanswered := List.mem_append_right _ (hworker ▸ List.mem_cons_self)
    obtain ⟨msg, hdecode, hkey⟩ :=
      decode_of_response (hi.response w (hworker ▸ List.mem_cons_self)) (hi.held w hmem)
    rw [hdecode] at h
    obtain rfl := Option.some.inj h
    refine ⟨hi.forward, hi.request, ?_, ?_, ?_⟩
    · intro x hx
      exact hi.response x (hworker ▸ List.mem_cons_of_mem w hx)
    · intro x hx
      apply hi.held x
      rw [unanswered, hworker]
      exact List.Sublist.subset ((List.sublist_cons_self w rest).append_left _) hx
    · intro d hd
      rcases List.mem_append.mp hd with hd | hd
      · exact hi.kept d hd
      · obtain rfl := List.mem_singleton.mp hd
        exact hkey

theorem Inv.advance {before after : Phase} {flag : Flag} {b : ℕ} (hi : s.Inv hash)
    (hsafe : ∀ x ∈ s.batches[b]?, s.SafeSend hash flag x.key)
    (h : s.advance hash before after flag b = some s') : s'.Inv hash := by
  obtain ⟨x, hx, h⟩ := Option.bind_eq_some_iff.mp h
  split at h
  · obtain rfl := Option.some.inj h
    exact (hi.send (hsafe x hx)).withBatches _
  · cases h

theorem inv_of_reach (hr : Reach (step hash) (Safe hash) init s) : s.Inv hash := by
  apply hr.invariant inv_init
  intro s a s' hi hsafe h
  cases a with
  | count key =>
      obtain rfl := Option.some.inj h
      exact (hi.send hsafe).withBatches _
  | start key =>
      obtain rfl := Option.some.inj h
      exact (hi.send hsafe).withBatches _
  | pull b => exact hi.advance hsafe h
  | grad b => exact hi.advance hsafe h
  | serverRecv => exact hi.serverRecv h
  | workerRecv => exact hi.workerRecv h

theorem Inv.isKept (hi : s.Inv hash) : s.Kept hash := by
  refine ⟨hi.kept, fun w rest hserver => ?_, fun w rest hworker => ?_⟩
  · obtain ⟨f, msg, hdecode, -⟩ := of_forward (hserver ▸ hi.forward)
    rw [hdecode]
    rfl
  · have hmem : w ∈ s.unanswered := List.mem_append_right _ (hworker ▸ List.mem_cons_self)
    obtain ⟨msg, hdecode, -⟩ :=
      decode_of_response (hi.response w (hworker ▸ List.mem_cons_self)) (hi.held w hmem)
    rw [hdecode]
    rfl

/-- **Keys are kept.** In runs of safe steps all messages are delivered with the keys that
were passed to `Encode`, and `Decode` does not abort. -/
theorem keys_kept (hash : List UInt8 → UInt64) (s : KeyCaching)
    (hr : Reach (step hash) (Safe hash) init s) : s.Kept hash :=
  (inv_of_reach hr).isKept

instance (hash : List UInt8 → UInt64) (flag : Flag) (key : List UInt8) (s : KeyCaching) :
    Decidable (s.SafeSend hash flag key) :=
  inferInstanceAs (Decidable (_ → ∀ old ∈ s.worker.cache (fastHash hash key), _ ∧ (_ → _)))

instance (hash : List UInt8 → UInt64) (s : KeyCaching) (a : Act) : Decidable (s.Safe hash a) :=
  match a with
  | .count _ | .start _ => inferInstanceAs (Decidable (SafeSend ..))
  | .pull b | .grad b => inferInstanceAs (Decidable (∀ x ∈ s.batches[b]?, SafeSend ..))
  | .serverRecv | .workerRecv => inferInstanceAs (Decidable True)

/-- The keys 1 to 8, which are 64 bytes. -/
def eightKeys : List UInt8 := (List.range' 1 8).flatMap (leBytes 8)

/-- A hash. -/
def sampleHash (buf : List UInt8) : UInt64 := buf.foldl (fun h c => 31 * h + c.toUInt64) 7

/-- Two minibatches with the same keys. Both have their weights before the gradients of one
are pushed. -/
def alikeInTurn : List Act :=
  [.count eightKeys, .start eightKeys, .pull 0, .serverRecv, .serverRecv, .workerRecv,
    .serverRecv, .workerRecv, .grad 0, .grad 1, .serverRecv, .serverRecv]

theorem keys_kept_alikeInTurn : ∃ s, Reach (step sampleHash) (Safe sampleHash) init s ∧
    s.delivered.map Prod.snd = List.replicate 7 eightKeys ∧ s.Kept sampleHash := by
  have hrun : (runs (fun s a => if Safe sampleHash s a then step sampleHash s a else none)
      init alikeInTurn).any (fun s =>
        decide (s.delivered.map Prod.snd = List.replicate 7 eightKeys)) = true := by
    decide +kernel
  obtain ⟨s, hr, htest⟩ := Reach.exists_of_runs hrun
  exact ⟨s, hr, of_decide_eq_true htest, keys_kept sampleHash s hr⟩

/-! ## The condition is exact -/

/-- No request is sent. -/
def Receives (_ : KeyCaching) (a : Act) : Prop := a = .serverRecv ∨ a = .workerRecv

/-- Whatever is under way arrives as it was sent. -/
def Arrives (hash : List UInt8 → UInt64) (s : KeyCaching) : Prop :=
  ∀ s', Reach (step hash) Receives s s' → s'.Kept hash

theorem Arrives.step (h : s.Arrives hash) {a : Act} (ha : Receives s a)
    (hstep : s.step hash a = some s') : s'.Arrives hash :=
  fun t ht => h t (.head ha hstep ht)

/-- A response that is decoded to the keys that were sent. -/
theorem holds_of_response {f f' : KeyCachingFilter} {w : Wire} {msg : KeyMsg}
    (hform : IsResponse hash w) (hdecode : f.decode hash w.msg = some (f', msg))
    (hkey : msg.key = w.sent) : f' = f ∧ f.Holds hash w.sent := by
  have hkeep : w.msg.clear = false := by
    rw [hform]
    rfl
  have hsame : f' = f := by
    apply eq_of_decode_nil hdecode hkeep
    rw [hform, signatureOf]
    by_cases hlen : w.sent.length < minLen
    · exact .inl (if_pos hlen)
    · exact .inr (if_neg hlen)
  refine ⟨hsame, ?_⟩
  rw [← hsame, ← hkey]
  apply holds_of_decode hdecode hkeep
  rw [hform, hkey]

/-- The worker has the lists of all responses under way. -/
theorem Arrives.holds_response (h : s.Arrives hash)
    (hform : ∀ w ∈ s.toWorker, IsResponse hash w) :
    ∀ w ∈ s.toWorker, s.worker.Holds hash w.sent := by
  generalize hws : s.toWorker = ws
  induction ws generalizing s with
  | nil => simp
  | cons w rest ih =>
      obtain ⟨⟨worker, msg⟩, hdecode⟩ :=
        Option.isSome_iff_exists.mp ((h s .refl).2.2 w rest hws)
      let t : KeyCaching := { s with
        worker
        toWorker := rest
        batches := s.batches.modify w.batch fun b => { b with phase := .answered }
        delivered := s.delivered ++ [(w.sent, msg.key)] }
      have hrecv : s.step hash .workerRecv = some t := by
        rw [KeyCaching.step, KeyCaching.workerRecv, hws]
        dsimp only
        rw [hdecode]
        rfl
      have ht := h.step (.inr rfl) hrecv
      have hkey : msg.key = w.sent := (ht t .refl).1 (w.sent, msg.key) (by simp [t])
      obtain ⟨rfl, hhold⟩ :=
        holds_of_response (hform w (hws ▸ List.mem_cons_self)) hdecode hkey
      have hrest := ih ht (fun x hx => hform x (hws ▸ List.mem_cons_of_mem w hx)) rfl
      exact List.forall_mem_cons.mpr ⟨hhold, hrest⟩

/-- If all arrives, the requests can be delivered one after another, and the worker has the
lists of all unanswered pulls. -/
theorem Arrives.spec (h : s.Arrives hash) (hrequest : ∀ w ∈ s.toServer, IsRequest hash w)
    (hresponse : ∀ w ∈ s.toWorker, IsResponse hash w) :
    (s.toServer.foldlM (deliver hash) s.server).isSome ∧
      ∀ w ∈ s.unanswered, s.worker.Holds hash w.sent := by
  generalize hws : s.toServer = ws
  induction ws generalizing s with
  | nil =>
      refine ⟨rfl, ?_⟩
      rw [unanswered, hws]
      exact h.holds_response hresponse
  | cons w rest ih =>
      obtain ⟨⟨server, msg⟩, hdecode⟩ :=
        Option.isSome_iff_exists.mp ((h s .refl).2.1 w rest hws)
      obtain ⟨t, hrecv, htoServer, hworker, hdelivered, hcases⟩ := serverRecv_eq hws hdecode
      have ht := h.step (.inl rfl) hrecv
      have hkey : msg.key = w.sent :=
        (ht t .refl).1 (w.sent, msg.key) (by rw [hdelivered]; simp)
      have hw := hrequest w (hws ▸ List.mem_cons_self)
      obtain ⟨rfl, xs, htoWorker, hxs, hpull⟩ := hcases hw hkey
      have hrest := ih ht
        (fun x hx => hrequest x (hws ▸ List.mem_cons_of_mem w (htoServer ▸ hx)))
        (by
          intro x hx
          rw [htoWorker] at hx
          rcases List.mem_append.mp hx with hx | hx
          · exact hresponse x hx
          · exact (hxs x hx).1)
        htoServer
      refine ⟨?_, ?_⟩
      · rw [List.foldlM_cons, deliver, hdecode, Option.bind_some]
        dsimp only
        rw [if_pos hkey]
        exact hrest.1
      · intro x hx
        have hheld := hrest.2
        rw [hworker, unanswered, htoServer, htoWorker, ← List.append_assoc] at hheld
        rcases (mem_unanswered_cons hws).mp hx with ⟨rfl, hp⟩ | hx
        · obtain ⟨y, hy⟩ := List.exists_mem_of_ne_nil xs (by rw [Ne, hpull, hp]; simp)
          rw [← (hxs y hy).2]
          exact hheld y (List.mem_append_right _ hy)
        · exact hheld x (List.mem_append_left _ hx)

theorem mem_unanswered_send {flag : Flag} {b : ℕ} {key : List UInt8} {w : Wire}
    (hw : w ∈ s.unanswered) : w ∈ (s.send hash flag b key).unanswered := by
  simp only [unanswered, KeyCaching.send, List.filter_append, List.append_assoc]
  rcases List.mem_append.mp hw with hw | hw
  · exact List.mem_append_left _ hw
  · exact List.mem_append_right _ (List.mem_append_right _ hw)

/-- If all arrives after a request was sent, it could be sent. -/
theorem safeSend_of_arrives {flag : Flag} {b : ℕ} {key : List UInt8} {batches : List KeyBatch}
    (hi : s.Inv hash)
    (h : ({ s.send hash flag b key with batches } : KeyCaching).Arrives hash) :
    s.SafeSend hash flag key := by
  obtain ⟨hsome, hheld⟩ := h.spec (isRequest_send flag b key hi.request) hi.response
  intro hlen old hold
  refine ⟨fun heq => ?_, fun hdrop w hw hsig => ?_⟩
  · obtain ⟨f', msg', hdecode, hkey⟩ := @decode_encode_of_hit hash s.worker (flag.request key)
      old hlen hold heq
    rw [KeyCaching.send, List.foldlM_append, hi.forward, Option.bind_eq_bind, Option.bind_some,
      List.foldlM_cons] at hsome
    obtain ⟨f, hf⟩ := Option.isSome_iff_exists.mp hsome
    obtain ⟨g, hg, -⟩ := Option.bind_eq_some_iff.mp hf
    rw [deliver, hdecode, Option.bind_some] at hg
    dsimp only at hg
    split at hg
    · rename_i hsent
      rw [← hkey, hsent]
    · cases hg
  · rw [signature_of_unanswered hi hw, signatureOf] at hsig
    split at hsig
    · cases hsig
    · rename_i hlong
      have hfast := Option.some.inj hsig
      -- the unanswered pull is for the list that is dropped
      have hbefore := hi.held w hw (not_lt.mp hlong)
      have hafter := hheld w (mem_unanswered_send hw) (not_lt.mp hlong)
      rw [hfast] at hbefore hafter
      obtain rfl := Option.some.inj (hold.symm.trans hbefore)
      apply @cache_encode_ne hash s.worker (flag.request key) w.sent hlen hbefore ?_ hafter
      rw [clear_request, decide_eq_true_eq]
      exact hdrop

theorem safe_of_advance {before after : Phase} {flag : Flag} {b : ℕ} (hi : s.Inv hash)
    (hstep : s.advance hash before after flag b = some s') (h : s'.Arrives hash) :
    ∀ x ∈ s.batches[b]?, s.SafeSend hash flag x.key := by
  intro x hx
  obtain ⟨y, hy, hstep⟩ := Option.bind_eq_some_iff.mp hstep
  obtain rfl := Option.some.inj (hx.symm.trans hy)
  split at hstep
  · obtain rfl := Option.some.inj hstep
    exact safeSend_of_arrives hi h
  · cases hstep

/-- **The condition is exact.** After safe steps, a step is safe if and only if all that is
under way after it arrives as it was sent. -/
theorem safe_iff {a : Act} (hr : Reach (step hash) (Safe hash) init s)
    (hstep : s.step hash a = some s') : s.Safe hash a ↔ s'.Arrives hash := by
  have hi := inv_of_reach hr
  constructor
  · intro hsafe t ht
    apply (inv_of_reach _).isKept
    refine (Reach.tail hr hsafe hstep).trans (ht.mono ?_)
    rintro s a (rfl | rfl)
    · trivial
    · trivial
  · intro h
    cases a with
    | count key =>
        obtain rfl := Option.some.inj hstep
        exact safeSend_of_arrives hi h
    | start key =>
        obtain rfl := Option.some.inj hstep
        exact safeSend_of_arrives hi h
    | pull b => exact safe_of_advance hi hstep h
    | grad b => exact safe_of_advance hi hstep h
    | serverRecv => trivial
    | workerRecv => trivial

/-- Two minibatches with the same keys. The gradients of the first are pushed before the
weights of the second are there. -/
def alikeAtOnce : List Act :=
  [.start eightKeys, .start eightKeys, .serverRecv, .serverRecv, .workerRecv, .grad 0]

theorem alikeAtOnce_not_kept : ¬∃ hash : List UInt8 → UInt64,
    ∀ s, Reach (step hash) anyStep init s → s.Kept hash := by
  rintro ⟨hash, h⟩
  have hlen : eightKeys.length = 64 := by decide
  have hne : eightKeys ≠ [] := by decide
  -- the response to the second pull has no keys, and the worker's cache is empty
  have hrun : ∃ s, runs (fun s a => if anyStep s a then step hash s a else none) init
      alikeAtOnce = some s ∧ ¬s.Kept hash := by
    simp [alikeAtOnce, runs, anyStep, step, send, KeyCaching.serverRecv, KeyCaching.workerRecv,
      KeyCaching.advance, encode, decode, Flag.request, init, hlen, hne, minLen, KeyMsg.clear,
      KeyMsg.isDone, Kept]
  obtain ⟨s, hs, hnot⟩ := hrun
  exact hnot (h s (Reach.of_runs hs))

/-- **The middle of a long list.** If two lists have the same length and the same ends, the
server takes the second for the first. -/
theorem delivered_of_ends {a b : List UInt8} (hlong : maxSigLen ≤ a.length)
    (hlen : a.length = b.length) (hfirst : a.take (maxSigLen / 2) = b.take (maxSigLen / 2))
    (hlast : a.drop (a.length - maxSigLen / 2) = b.drop (b.length - maxSigLen / 2)) :
    ∃ s, Reach (step hash) anyStep init s ∧ (b, a) ∈ s.delivered := by
  have hsig : fastHash hash b = fastHash hash a :=
    (fastHash_eq_of_ends hlong hlen hfirst hlast).symm
  have hne : a ≠ [] := by
    rintro rfl
    simp [maxSigLen] at hlong
  have hmin : ¬a.length < minLen := by
    simp only [minLen, maxSigLen] at hlong ⊢
    omega
  have hrun : ∃ s, runs (fun s a => if anyStep s a then step hash s a else none) init
      [.start a, .start b, .serverRecv, .serverRecv] = some s ∧ (b, a) ∈ s.delivered := by
    simp [runs, anyStep, step, send, KeyCaching.serverRecv, encode, decode, Flag.request, init,
      ← hlen, hmin, hne, hsig, KeyMsg.clear, KeyMsg.isDone]
  obtain ⟨s, hs, hmem⟩ := hrun
  exact ⟨s, Reach.of_runs hs, hmem⟩

end KeyCaching

end Difacto.System
