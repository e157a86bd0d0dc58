import Difacto.Lib.Reach
import Difacto.System.Executor
import Difacto.System.KVCache

/-!
# Pulls and pushes of a worker

`KVCache` of `ps-lite/src/kv/kv_cache.h` with its executor: a request is sliced, the slices are
sent to the servers that have keys of it, and the responses are processed in the order in which
the executor picks them. Any number of pulls and pushes may be under way. Responses arrive in
any order and any number of times. The values that a server has for the keys of a pull are
arbitrary.

Pulls have dynamic value lengths. The callback of a push does not concern the pulls and is left
out. `requests`, `answer`, `arrived`, `processed` and `log` are history: the requests, the values
that the servers returned, the responses that arrived and those that were processed, and the
callbacks of pulls that ran.

## Main definitions

* `KVWorker`, `KVWorker.step` — the worker, and the messages from the servers.
* `KVWorker.processActiveMsg` — one response.

## Main results

* `KVWorker.Inv` — the invariant of all runs.
* `KVWorker.pull_reassembled` — the callback of a pull runs once, and sees the values of all keys.
-/

namespace Difacto.System

open Base Lib

variable {V : Type}

/-- What a response carries. -/
inductive Reply (V : Type)
  /-- the acknowledgement of a push -/
  | ack
  /-- the response to the pull with this `key_channel` -/
  | pull (channel : ℕ) (msg : PullReply V)

/-- A request, with the slices that were made of it. -/
structure SentReq (V : Type) where
  /-- `key_channel`; a push has none -/
  channel : Option ℕ
  key : List UInt64
  pieces : List (Piece UInt64 V)

/-- The response to a slice of a request. -/
def SentReq.reply (q : SentReq V) (p : Piece UInt64 V) (value : UInt64 → List V) : Reply V :=
  match q.channel with
  | none => .ack
  | some c => .pull c (.of p.key value)

/-- A callback that ran, with what it saw. -/
structure Callback (V : Type) where
  channel : ℕ
  /-- `val_siz` -/
  valSize : List ℕ
  val : List V

/-- The state of the worker and the messages. -/
structure KVWorker (V : Type) where
  /-- `time_` -/
  time : ℤ
  /-- `sent_reqs_`: the channel of the pull whose callback is to be run -/
  sentReqs : ℤ → Option (Option ℕ)
  exec : Executor ℕ (Reply V)
  /-- `sent_req_tracker` of the server group -/
  group : RequestTracker
  /-- `chl_` -/
  chl : ℕ
  /-- `pull_data_`; a missing entry is created when it is read -/
  pullData : ℕ → KVPair V
  /-- the responses that the servers sent -/
  sent : List (Packet ℕ (Reply V))
  requests : List (SentReq V)
  answer : ℕ → ℕ → UInt64 → List V
  arrived : List (Packet ℕ (Reply V))
  processed : List (Packet ℕ (Reply V))
  log : List (Callback V)

namespace KVWorker

/-- What happens next. -/
inductive Act (V : Type)
  /-- `ZVPull` -/
  | pull (keys : List UInt64)
  /-- `ZPush` or `ZVPush` -/
  | push (keys : List UInt64) (value : List (Value V))
  /-- server `j` answers request `r` -/
  | answer (r j : ℕ) (value : UInt64 → List V)
  /-- response `i` of those that were sent arrives -/
  | deliver (i : ℕ)
  /-- the executor picks a message and processes it -/
  | serve

/-- Nothing was sent. -/
def init : KVWorker V where
  time := 0
  sentReqs := fun _ => none
  exec := .init
  group := {}
  chl := 0
  pullData := fun _ => {}
  sent := []
  requests := []
  answer := fun _ _ _ => []
  arrived := []
  processed := []
  log := []

/-- `IsKeysOrderd` -/
def isKeysOrdered (keys : List UInt64) : Prop := keys.IsChain (· ≤ ·)

instance (keys : List UInt64) : Decidable (isKeysOrdered keys) :=
  inferInstanceAs (Decidable (keys.IsChain _))

/-- The slices that are not valid are not sent, but marked as done; `i` is the position of the
first slice. -/
def markInvalid (ts : ℤ) : ℕ → List (Piece UInt64 V) → Executor ℕ (Reply V) →
    Option (Executor ℕ (Reply V))
  | _, [], e => some e
  | i, p :: ps, e => do
    let e ← if p.valid then some e else e.finishSentReq ts i
    markInvalid ts (i + 1) ps e

/-- `Submit`, with the channel of a pull. -/
def submit (g : ServerGroup) (channel : Option ℕ) (keys : List UInt64) (value : List (Value V))
    (s : KVWorker V) : Option (KVWorker V) :=
  if isKeysOrdered keys then do
    let pieces ← sliceMessage { keyRange := allKeys, key := keys, value } g.krs
    let exec ← markInvalid s.time 0 pieces s.exec
    return { s with
      time := s.time + 1
      sentReqs := Function.update s.sentReqs s.time (some channel)
      exec
      requests := s.requests ++ [{ channel, key := keys, pieces }] }
  else none

/-- `Pull_` -/
def pull (g : ServerGroup) (keys : List UInt64) (s : KVWorker V) : Option (KVWorker V) :=
  submit g (some s.chl) keys []
    { s with chl := s.chl + 1, pullData := Function.update s.pullData s.chl (.new keys) }

/-- A server answers the slice that was sent to it, once. -/
def reply (r j : ℕ) (value : UInt64 → List V) (s : KVWorker V) : Option (KVWorker V) := do
  let q ← s.requests[r]?
  let p ← q.pieces[j]?
  if p.valid ∧ ∀ m ∈ s.sent, ¬(m.sender = j ∧ m.time = r) then
    return { s with
      sent := s.sent ++ [{ sender := j, request := false, time := r, waitTime := [],
                           body := q.reply p value }]
      answer := Function.update s.answer r (Function.update (s.answer r) j value) }
  else none

/-- `KVCache::ProcessResponse` -/
def processResponse (body : Reply V) (s : KVWorker V) : Option (KVWorker V) :=
  match body with
  | .ack => some s
  | .pull c msg => ((s.pullData c).processResponse msg).map fun kv =>
      { s with pullData := Function.update s.pullData c kv }

/-- All servers of the group have finished the request. -/
def allFinished (g : ServerGroup) (ts : ℤ) (e : Executor ℕ (Reply V)) : Bool :=
  (List.range g.krs.length).all fun j => !(e.nodes j).alive || (e.nodes j).sent.isFinished ts

/-- Run the callback, and then empty it. -/
def runCallback (ts : ℤ) (callback : Option ℕ) (s : KVWorker V) : Option (KVWorker V) :=
  match callback with
  | none => some s
  | some c => (s.pullData c).callback.map fun seen =>
      { s with
        log := s.log ++ [{ channel := c, valSize := seen.1, val := seen.2 }]
        pullData := Function.update s.pullData c {}
        sentReqs := Function.update s.sentReqs ts (some none) }

/-- `ProcessActiveMsg` for a response. -/
def processActiveMsg (g : ServerGroup) (msg : Packet ℕ (Reply V)) (s : KVWorker V) :
    Option (KVWorker V) := do
  let s ← s.processResponse msg.body
  let exec ← s.exec.finishSentReq msg.time msg.sender
  let callback ← s.sentReqs msg.time
  let s := { s with exec, processed := s.processed ++ [msg] }
  if allFinished g msg.time exec then
    let group ← s.group.finish msg.time
    runCallback msg.time callback { s with group }
  else return s

/-- One step. -/
def step (g : ServerGroup) (s : KVWorker V) : Act V → Option (KVWorker V)
  | .pull keys => s.pull g keys
  | .push keys value => s.submit g none keys value
  | .answer r j value => s.reply r j value
  | .deliver i => do
    let msg ← s.sent[i]?
    return { s with exec := s.exec.accept msg, arrived := s.arrived ++ [msg] }
  | .serve =>
    match s.exec.pickActiveMsg with
    | (none, exec) => some { s with exec }
    | (some msg, exec) => processActiveMsg g msg { s with exec }

/-- Pulls have keys, in increasing order and in the ranges of the servers. -/
def Allowed (g : ServerGroup) (_ : KVWorker V) : Act V → Prop
  | .pull keys => keys.Pairwise (· < ·) ∧ keys ≠ [] ∧ g.Covered keys
  | .push keys _ => keys ≠ []
  | .answer _ _ _ | .deliver _ | .serve => True

/-! ## The invariant -/

/-- The servers whose responses to request `r` were processed, in this order. -/
def order (s : KVWorker V) (r : ℕ) : List ℕ :=
  (s.processed.filter fun m => decide (m.time = (r : ℤ))).map Packet.sender

/-- The response of server `j` to request `r`. -/
def packet (s : KVWorker V) (r j : ℕ) (q : SentReq V) (p : Piece UInt64 V) :
    Packet ℕ (Reply V) where
  sender := j
  request := false
  time := r
  waitTime := []
  body := q.reply p (s.answer r j)

/-- Responses were sent for slices, and a request is finished at a server if its slice was not
sent or the response was processed. -/
structure Net (s : KVWorker V) : Prop where
  time_eq : s.time = s.requests.length
  sent : ∀ m ∈ s.sent, ∃ r q p, s.requests[r]? = some q ∧ q.pieces[m.sender]? = some p ∧
    p.valid = true ∧ m = s.packet r m.sender q p
  arrived : ∀ m ∈ s.arrived, m ∈ s.sent
  waiting : ∀ m ∈ s.exec.recvMsgs, m ∈ s.arrived
  processed : ∀ m ∈ s.processed, m ∈ s.arrived
  handled : ∀ m ∈ s.arrived, m ∈ s.exec.recvMsgs ∨ m ∈ s.processed
  alive : ∀ j, (s.exec.nodes j).alive = true
  finished : ∀ j (r : ℕ), (s.exec.nodes j).sent.isFinished r = true ↔
    (∃ q p, s.requests[r]? = some q ∧ q.pieces[j]? = some p ∧ p.valid = false) ∨ j ∈ s.order r

/-- A pull with channel `c`, of which the responses of the servers `os` were processed. The
others are what the worker stores for it, and the callbacks that ran. -/
structure PullInv (g : ServerGroup) (q : SentReq V) (c : ℕ) (os : List ℕ)
    (value : ℕ → UInt64 → List V) (kv : KVPair V) (req : Option (Option ℕ))
    (log : List (Callback V)) : Prop where
  sorted : q.key.Pairwise (· < ·)
  ne_nil : q.key ≠ []
  covered : g.Covered q.key
  pieces : q.pieces = g.krs.map (pieceOf q.key)
  answered : KVPair.Answered g q.key os
  waiting : (¬∀ j ∈ g.holders q.key, j ∈ os) →
    kv = .gathered g q.key value os ∧ req = some (some c) ∧ log = []
  done : (∀ j ∈ g.holders q.key, j ∈ os) → req = some none ∧
    log = [{ channel := c
             valSize := q.key.map fun k => (KVPair.returned g value k).length
             val := q.key.flatMap (KVPair.returned g value) }]

/-- **The invariant.** -/
structure Inv (g : ServerGroup) (s : KVWorker V) : Prop where
  net : s.Net
  channel_lt : ∀ (r : ℕ) q c, s.requests[r]? = some q → q.channel = some c → c < s.chl
  channel_inj : ∀ (r r' : ℕ) q q' c, s.requests[r]? = some q → s.requests[r']? = some q' →
    q.channel = some c → q'.channel = some c → r = r'
  logged : ∀ e ∈ s.log, e.channel < s.chl
  push : ∀ (r : ℕ) q, s.requests[r]? = some q → q.channel = none → s.sentReqs r = some none
  pull : ∀ (r : ℕ) q c, s.requests[r]? = some q → q.channel = some c →
    PullInv g q c (s.order r) (s.answer r) (s.pullData c) (s.sentReqs r)
      (s.log.filter fun e => decide (e.channel = c))

variable {g : ServerGroup} {s s' : KVWorker V}

theorem inv_init : (init : KVWorker V).Inv g := by
  refine ⟨⟨rfl, ?_, ?_, ?_, ?_, ?_, ?_, ?_⟩, ?_, ?_, ?_, ?_, ?_⟩
  all_goals simp [init, order, Executor.init, RequestTracker.isFinished_new]

theorem mem_order {r j : ℕ} : j ∈ s.order r ↔ ∃ m ∈ s.processed, m.sender = j ∧ m.time = r := by
  simp only [order, List.mem_map, List.mem_filter, decide_eq_true_eq]
  constructor
  · rintro ⟨m, ⟨hm, htime⟩, hsender⟩
    exact ⟨m, hm, hsender, htime⟩
  · rintro ⟨m, hm, hsender, htime⟩
    exact ⟨m, ⟨hm, htime⟩, hsender⟩

namespace Net

/-- A server sends one response to a request. -/
theorem unique (hn : s.Net) {m m' : Packet ℕ (Reply V)} (hm : m ∈ s.sent) (hm' : m' ∈ s.sent)
    (hsender : m.sender = m'.sender) (htime : m.time = m'.time) : m = m' := by
  obtain ⟨r, q, p, hq, hp, -, heq⟩ := hn.sent m hm
  obtain ⟨r', q', p', hq', hp', -, heq'⟩ := hn.sent m' hm'
  obtain rfl : r = r' := by
    rw [heq, heq'] at htime
    exact Int.ofNat.inj htime
  obtain rfl := Option.some.inj (hq.symm.trans hq')
  rw [← hsender] at hp' heq'
  obtain rfl := Option.some.inj (hp.symm.trans hp')
  exact heq.trans heq'.symm

/-- A response that is processed twice would be of a request that is finished. -/
theorem not_mem_order (hn : s.Net) {m : Packet ℕ (Reply V)} {r : ℕ} (htime : m.time = r)
    (hnew : (s.exec.nodes m.sender).sent.isFinished m.time = false) : m.sender ∉ s.order r := by
  intro hmem
  have hfin := (hn.finished m.sender r).mpr (.inr hmem)
  rw [← htime, hnew] at hfin
  cases hfin

/-- The requests of responses were sent. -/
theorem order_eq_nil (hn : s.Net) {r : ℕ} (hr : s.requests[r]? = none) : s.order r = [] := by
  rw [List.eq_nil_iff_forall_not_mem]
  intro j hj
  obtain ⟨m, hm, -, htime⟩ := mem_order.mp hj
  obtain ⟨r', q, p, hq, -, -, heq⟩ := hn.sent m (hn.arrived m (hn.processed m hm))
  rw [heq] at htime
  obtain rfl := Int.ofNat.inj htime
  rw [hr] at hq
  cases hq

end Net

/-! ## Requests -/

/-- What is marked for the slices that are not sent. -/
theorem markInvalid_spec {ts : ℤ} {i : ℕ} {ps : List (Piece UInt64 V)}
    {e e' : Executor ℕ (Reply V)} (h : markInvalid ts i ps e = some e') :
    e'.recvMsgs = e.recvMsgs ∧ (∀ n, (e'.nodes n).alive = (e.nodes n).alive) ∧
      ∀ n x, (e'.nodes n).sent.isFinished x = true ↔
        (x = ts ∧ ∃ k p, n = i + k ∧ ps[k]? = some p ∧ p.valid = false) ∨
          (e.nodes n).sent.isFinished x = true := by
  induction ps generalizing i e with
  | nil =>
      obtain rfl := Option.some.inj h
      simp
  | cons p ps ih =>
      have hcons : ∀ n, (∃ k p', n = i + k ∧ (p :: ps)[k]? = some p' ∧ p'.valid = false) ↔
          (n = i ∧ p.valid = false) ∨
            ∃ k p', n = i + 1 + k ∧ ps[k]? = some p' ∧ p'.valid = false := by
        intro n
        constructor
        · rintro ⟨k, p', hn, hp', hvalid⟩
          cases k with
          | zero =>
              obtain rfl := Option.some.inj hp'
              exact .inl ⟨hn, hvalid⟩
          | succ k => exact .inr ⟨k, p', by omega, hp', hvalid⟩
        · rintro (⟨hn, hvalid⟩ | ⟨k, p', hn, hp', hvalid⟩)
          · exact ⟨0, p, hn, rfl, hvalid⟩
          · exact ⟨k + 1, p', by omega, hp', hvalid⟩
      rw [markInvalid] at h
      split at h
      · rename_i hvalid
        obtain ⟨hmsgs, halive, hfin⟩ := ih h
        refine ⟨hmsgs, halive, fun n x => ?_⟩
        rw [hfin, hcons]
        simp [hvalid]
      · rename_i hvalid
        obtain ⟨e₁, he₁, h⟩ := Option.bind_eq_some_iff.mp h
        obtain ⟨hmsgs, halive, hfin⟩ := ih h
        obtain ⟨hmsgs₁, -, hsame₁, hfin₁⟩ := Executor.finishSentReq_spec he₁
        refine ⟨hmsgs.trans hmsgs₁, fun n => (halive n).trans (hsame₁ n).1, fun n x => ?_⟩
        rw [hfin, hcons, hfin₁, Bool.or_eq_true, decide_eq_true_eq]
        rw [Bool.not_eq_true] at hvalid
        simp only [hvalid, and_true]
        constructor
        · rintro (⟨hx, hk⟩ | ⟨hn, hx⟩ | hx)
          · exact .inl ⟨hx, .inr hk⟩
          · exact .inl ⟨hx, .inl hn⟩
          · exact .inr hx
        · rintro (⟨hx, hn | hk⟩ | hx)
          · exact .inr (.inl ⟨hn, hx⟩)
          · exact .inl ⟨hx, hk⟩
          · exact .inr (.inr hx)

theorem submit_cases {channel : Option ℕ} {keys : List UInt64} {value : List (Value V)}
    (h : submit g channel keys value s = some s') : ∃ pieces exec,
      sliceMessage { keyRange := allKeys, key := keys, value } g.krs = some pieces ∧
      markInvalid s.time 0 pieces s.exec = some exec ∧
      s' = { s with
        time := s.time + 1
        sentReqs := Function.update s.sentReqs s.time (some channel)
        exec
        requests := s.requests ++ [{ channel, key := keys, pieces }] } := by
  rw [submit] at h
  split at h
  · obtain ⟨pieces, hpieces, h⟩ := Option.bind_eq_some_iff.mp h
    obtain ⟨exec, hexec, h⟩ := Option.bind_eq_some_iff.mp h
    exact ⟨pieces, exec, hpieces, hexec, (Option.some.inj h).symm⟩
  · cases h

/-- A request does not change the responses. -/
theorem Net.submit (hn : s.Net) {channel : Option ℕ} {keys : List UInt64}
    {value : List (Value V)} (h : s.submit g channel keys value = some s') : s'.Net := by
  obtain ⟨pieces, exec, -, hexec, rfl⟩ := submit_cases h
  obtain ⟨hmsgs, halive, hfin⟩ := markInvalid_spec hexec
  refine ⟨?_, ?_, hn.arrived, ?_, hn.processed, ?_, ?_, ?_⟩
  · rw [hn.time_eq, List.length_append, List.length_singleton]
    push_cast
    rfl
  · intro m hm
    obtain ⟨r, q, p, hq, hrest⟩ := hn.sent m hm
    exact ⟨r, q, p, getElem?_snoc.mpr (.inl hq), hrest⟩
  · intro m hm
    exact hn.waiting m (hmsgs ▸ hm)
  · intro m hm
    rw [hmsgs]
    exact hn.handled m hm
  · intro j
    rw [halive]
    exact hn.alive j
  · intro j r
    rw [hfin, hn.time_eq, hn.finished]
    show _ ↔ _ ∨ j ∈ s.order r
    rw [← or_assoc]
    apply or_congr_left
    constructor
    · rintro (⟨hr, k, p, hj, hp, hvalid⟩ | ⟨q, p, hq, hrest⟩)
      · rw [Nat.zero_add] at hj
        exact ⟨_, p, getElem?_snoc.mpr (.inr ⟨Int.ofNat.inj hr, rfl⟩), hj ▸ hp, hvalid⟩
      · exact ⟨q, p, getElem?_snoc.mpr (.inl hq), hrest⟩
    · rintro ⟨q, p, hq, hp, hvalid⟩
      rcases getElem?_snoc.mp hq with hq | ⟨rfl, rfl⟩
      · exact .inr ⟨q, p, hq, hp, hvalid⟩
      · exact .inl ⟨rfl, j, p, (Nat.zero_add j).symm, hp, hvalid⟩

/-- A request is added. A pull has a new channel. -/
theorem Inv.submit (hi : s.Inv g) {channel : Option ℕ} {keys : List UInt64}
    {value : List (Value V)} (h : s.submit g channel keys value = some s')
    (hnew : ∀ c pieces, channel = some c →
      sliceMessage { keyRange := allKeys, key := keys, value } g.krs = some pieces →
      c < s.chl ∧ (∀ (r : ℕ) q, s.requests[r]? = some q → q.channel ≠ some c) ∧
        PullInv g { channel, key := keys, pieces } c [] (s.answer s.requests.length)
          (s.pullData c) (some (some c)) (s.log.filter fun e => decide (e.channel = c))) :
    s'.Inv g := by
  have hnet := hi.net.submit h
  obtain ⟨pieces, exec, hpieces, -, rfl⟩ := submit_cases h
  have hold : ∀ {r : ℕ} {q}, s.requests[r]? = some q →
      Function.update s.sentReqs s.time (some channel) r = s.sentReqs r := by
    intro r q hq
    apply Function.update_of_ne
    have hlt := (List.getElem?_eq_some_iff.mp hq).1
    rw [hi.net.time_eq]
    exact_mod_cast hlt.ne
  refine ⟨hnet, ?_, ?_, hi.logged, ?_, ?_⟩
  · intro r q c hq hc
    rcases getElem?_snoc.mp hq with hq | ⟨rfl, rfl⟩
    · exact hi.channel_lt r q c hq hc
    · exact (hnew c pieces hc hpieces).1
  · intro r r' q q' c hq hq' hc hc'
    rcases getElem?_snoc.mp hq with hq | ⟨rfl, rfl⟩
    · rcases getElem?_snoc.mp hq' with hq' | ⟨rfl, rfl⟩
      · exact hi.channel_inj r r' q q' c hq hq' hc hc'
      · exact absurd hc ((hnew c pieces hc' hpieces).2.1 r q hq)
    · rcases getElem?_snoc.mp hq' with hq' | ⟨rfl, rfl⟩
      · exact absurd hc' ((hnew c pieces hc hpieces).2.1 r' q' hq')
      · rfl
  · intro r q hq hc
    rcases getElem?_snoc.mp hq with hq | ⟨rfl, rfl⟩
    · exact (hold hq).trans (hi.push r q hq hc)
    · show Function.update s.sentReqs s.time (some channel) _ = _
      rw [← hi.net.time_eq, Function.update_self]
      exact congrArg some hc
  · intro r q c hq hc
    rcases getElem?_snoc.mp hq with hq | ⟨rfl, rfl⟩
    · have hpull := hi.pull r q c hq hc
      rw [← hold hq] at hpull
      exact hpull
    · obtain rfl : channel = some c := hc
      have hpull := (hnew c pieces rfl hpieces).2.2
      have hnil : s.order s.requests.length = [] := hi.net.order_eq_nil (by simp)
      show PullInv g _ c (s.order _) _ _ (Function.update s.sentReqs s.time (some (some c)) _) _
      rw [hnil, ← hi.net.time_eq, Function.update_self]
      exact hpull

/-- The entry for a new pull is stored. -/
theorem Inv.allocate (hi : s.Inv g) (kv : KVPair V) :
    ({ s with chl := s.chl + 1
              pullData := Function.update s.pullData s.chl kv } : KVWorker V).Inv g := by
  refine ⟨?_, ?_, hi.channel_inj, ?_, hi.push, ?_⟩
  · obtain ⟨h₁, h₂, h₃, h₄, h₅, h₆, h₇, h₈⟩ := hi.net
    exact ⟨h₁, h₂, h₃, h₄, h₅, h₆, h₇, h₈⟩
  · intro r q c hq hc
    exact (hi.channel_lt r q c hq hc).trans (Nat.lt_succ_self _)
  · intro e he
    exact (hi.logged e he).trans (Nat.lt_succ_self _)
  · intro r q c hq hc
    have hpull := hi.pull r q c hq hc
    show PullInv g q c (s.order r) _ (Function.update s.pullData s.chl kv c) _ _
    rw [Function.update_of_ne (hi.channel_lt r q c hq hc).ne]
    exact hpull

/-- **A pull is submitted.** -/
theorem Inv.pullStep {keys : List UInt64} (hi : s.Inv g) (hok : Allowed g s (.pull keys))
    (h : s.pull g keys = some s') : s'.Inv g := by
  obtain ⟨hsorted, hne, hcover⟩ := hok
  refine (hi.allocate (.new keys)).submit h ?_
  intro c pieces hc hpieces
  obtain rfl := Option.some.inj hc
  have hslices := @sliceMessage_eq UInt64 V _ { keyRange := allKeys, key := keys, value := [] }
    g.krs hsorted hne unbounded_allKeys rfl g.chain g.le
  refine ⟨Nat.lt_succ_self _, fun r q hq hc => ?_, hsorted, hne, hcover, ?_, ?_, ?_, ?_⟩
  · exact absurd (hi.channel_lt r q _ hq hc) (lt_irrefl _)
  · exact Option.some.inj (hpieces.symm.trans hslices)
  · exact ⟨List.nodup_nil, by simp⟩
  · intro _
    refine ⟨?_, rfl, ?_⟩
    · rw [KVPair.gathered_nil hne]
      exact Function.update_self ..
    · rw [List.filter_eq_nil_iff]
      intro e he
      simpa using (hi.logged e he).ne
  · intro hall
    obtain ⟨k, hk⟩ := List.exists_mem_of_ne_nil keys hne
    cases hall _ (KVPair.serverOf_mem_holders hcover hk)

/-! ## Responses -/

/-- A response that is sent does not change those of other servers. -/
theorem answer_update {r j : ℕ} {value : UInt64 → List V} {r' j' : ℕ} (h : ¬(j' = j ∧ r' = r)) :
    Function.update s.answer r (Function.update (s.answer r) j value) r' j' = s.answer r' j' := by
  by_cases hr : r' = r
  · subst hr
    rw [Function.update_self, Function.update_of_ne fun hj => h ⟨hj, rfl⟩]
  · rw [Function.update_of_ne hr]

/-- Only the values of the servers whose responses were processed matter. -/
theorem PullInv.congr {q : SentReq V} {c : ℕ} {os : List ℕ} {value value' : ℕ → UInt64 → List V}
    {kv : KVPair V} {req : Option (Option ℕ)} {log : List (Callback V)}
    (hp : PullInv g q c os value kv req log) (h : ∀ j ∈ os, value j = value' j) :
    PullInv g q c os value' kv req log := by
  refine ⟨hp.sorted, hp.ne_nil, hp.covered, hp.pieces, hp.answered, fun hnot => ?_, fun hall => ?_⟩
  · rw [← KVPair.gathered_congr hp.sorted hp.covered hp.answered h]
    exact hp.waiting hnot
  · have hsame : ∀ k ∈ q.key, KVPair.returned g value k = KVPair.returned g value' k := by
      intro k hk
      rw [KVPair.returned, KVPair.returned,
        h _ (hall _ (KVPair.serverOf_mem_holders hp.covered hk))]
    rw [← List.flatMap_congr hsame,
      ← List.map_congr_left fun k hk => congrArg List.length (hsame k hk)]
    exact hp.done hall

/-- **A server answers.** -/
theorem Inv.reply {r j : ℕ} {value : UInt64 → List V} (hi : s.Inv g)
    (h : s.reply r j value = some s') : s'.Inv g := by
  obtain ⟨q, hq, h⟩ := Option.bind_eq_some_iff.mp h
  obtain ⟨p, hp, h⟩ := Option.bind_eq_some_iff.mp h
  split at h
  · rename_i hok
    obtain ⟨hvalid, hfresh⟩ := hok
    obtain rfl := Option.some.inj h
    have hn := hi.net
    refine ⟨⟨hn.time_eq, ?_, ?_, hn.waiting, hn.processed, hn.handled, hn.alive, hn.finished⟩,
      hi.channel_lt, hi.channel_inj, hi.logged, hi.push, ?_⟩
    · intro m hm
      rcases List.mem_append.mp hm with hold | hnew
      · obtain ⟨r', q', p', hq', hp', hvalid', heq⟩ := hn.sent m hold
        have hother : ¬(m.sender = j ∧ r' = r) := by
          intro hsame
          have htime : m.time = r' := by rw [heq]; rfl
          exact hfresh m hold ⟨hsame.1, by rw [htime, hsame.2]⟩
        refine ⟨r', q', p', hq', hp', hvalid', ?_⟩
        simp only [packet, answer_update hother]
        exact heq
      · obtain rfl := List.mem_singleton.mp hnew
        refine ⟨r, q, p, hq, hp, hvalid, ?_⟩
        simp only [packet, Function.update_self]
    · intro m hm
      exact List.mem_append_left _ (hn.arrived m hm)
    · intro r' q' c hq' hc
      apply (hi.pull r' q' c hq' hc).congr
      intro i hi'
      refine (answer_update ?_).symm
      rintro ⟨rfl, rfl⟩
      obtain ⟨m, hm, hnamed⟩ := mem_order.mp hi'
      exact hfresh m (hn.arrived m (hn.processed m hm)) hnamed
  · cases h

theorem Inv.deliver {i : ℕ} {msg : Packet ℕ (Reply V)} (hi : s.Inv g)
    (hmsg : s.sent[i]? = some msg) :
    ({ s with exec := s.exec.accept msg, arrived := s.arrived ++ [msg] } : KVWorker V).Inv g := by
  have hn := hi.net
  refine ⟨⟨hn.time_eq, hn.sent, ?_, ?_, ?_, ?_, hn.alive, hn.finished⟩,
    hi.channel_lt, hi.channel_inj, hi.logged, hi.push, hi.pull⟩
  · intro m hm
    rcases List.mem_append.mp hm with hm | hm
    · exact hn.arrived m hm
    · obtain rfl := List.mem_singleton.mp hm
      exact List.mem_of_getElem? hmsg
  · intro m hm
    rcases List.mem_append.mp hm with hm | hm
    · exact List.mem_append_left _ (hn.waiting m hm)
    · exact List.mem_append_right _ hm
  · intro m hm
    exact List.mem_append_left _ (hn.processed m hm)
  · intro m hm
    rcases List.mem_append.mp hm with hm | hm
    · exact (hn.handled m hm).imp_left (List.mem_append_left _)
    · exact .inl (List.mem_append_right _ hm)

/-- A response that arrived is picked, waits, or was processed. -/
theorem Net.handled_of_pick (hn : s.Net) {m : Packet ℕ (Reply V)} (hm : m ∈ s.arrived) :
    s.exec.pickActiveMsg.1 = some m ∨ m ∈ s.exec.pickActiveMsg.2.recvMsgs ∨ m ∈ s.processed := by
  rcases hn.handled m hm with hwait | hdone
  · rcases Executor.pickLoop_complete s.exec.nodes s.exec.recvMsgs m hwait with
      hpick | hstay | hdead | hdouble
    · exact .inl hpick
    · exact .inr (.inl hstay)
    · rw [hn.alive] at hdead
      cases hdead
    · -- the request is finished, so there is another response, which is the same
      have hsent := hn.arrived m hm
      obtain ⟨r, q, p, hq, hp, hvalid, heq⟩ := hn.sent m hsent
      have hrequest : m.request = false := by rw [heq]; rfl
      have htime : m.time = r := by rw [heq]; rfl
      rw [Executor.double, hrequest, if_neg (by simp), htime, hn.finished] at hdouble
      rcases hdouble with ⟨q', p', hq', hp', hinvalid⟩ | hmem
      · obtain rfl := Option.some.inj (hq.symm.trans hq')
        obtain rfl := Option.some.inj (hp.symm.trans hp')
        rw [hvalid] at hinvalid
        cases hinvalid
      · obtain ⟨m', hm', hsender, htime'⟩ := mem_order.mp hmem
        have hsame := hn.unique (hn.arrived m' (hn.processed m' hm')) hsent hsender
          (htime'.trans htime.symm)
        exact .inr (.inr (hsame ▸ hm'))
  · exact .inr (.inr hdone)

theorem order_processed (s : KVWorker V) (msg : Packet ℕ (Reply V)) {r : ℕ}
    (htime : msg.time = r) (r' : ℕ) :
    ({ s with processed := s.processed ++ [msg] } : KVWorker V).order r' =
      if r' = r then s.order r ++ [msg.sender] else s.order r' := by
  simp only [order, List.filter_append, List.map_append]
  by_cases hr : r' = r
  · simp [hr, htime]
  · have hne : ¬((r : ℤ) = r') := fun h => hr (Int.ofNat.inj h).symm
    simp [hr, htime, hne]

/-- A response is picked and its request is marked. -/
theorem Net.process (hn : s.Net) {msg : Packet ℕ (Reply V)} {exec exec' : Executor ℕ (Reply V)}
    (hpick : s.exec.pickActiveMsg = (some msg, exec))
    (hexec : exec.finishSentReq msg.time msg.sender = some exec') :
    ({ s with exec := exec', processed := s.processed ++ [msg] } : KVWorker V).Net := by
  obtain ⟨hnodes, hmem, hsub, -, -, -⟩ := Executor.pick_spec hpick
  obtain ⟨hmsgs, -, hsame, hfin⟩ := Executor.finishSentReq_spec hexec
  obtain ⟨r, q, p, hq, hp, hvalid, heq⟩ := hn.sent msg (hn.arrived msg (hn.waiting msg hmem))
  have htime : msg.time = r := by rw [heq]; rfl
  refine ⟨hn.time_eq, hn.sent, hn.arrived, ?_, ?_, ?_, ?_, ?_⟩
  · intro m hm
    rw [hmsgs] at hm
    exact hn.waiting m (hsub.subset hm)
  · intro m hm
    rcases List.mem_append.mp hm with hold | hnew
    · exact hn.processed m hold
    · obtain rfl := List.mem_singleton.mp hnew
      exact hn.waiting m hmem
  · intro m hm
    have hcases := hn.handled_of_pick hm
    rw [hpick] at hcases
    rcases hcases with hpicked | hstay | hdone
    · obtain rfl := Option.some.inj hpicked
      exact .inr (List.mem_append_right _ (List.mem_singleton_self _))
    · exact .inl (hmsgs ▸ hstay)
    · exact .inr (List.mem_append_left _ hdone)
  · intro j
    rw [(hsame j).1, hnodes]
    exact hn.alive j
  · intro j r'
    rw [hfin, hnodes, Bool.or_eq_true, decide_eq_true_eq, hn.finished, htime,
      show KVWorker.order { s with exec := exec', processed := s.processed ++ [msg] } r' = _ from
        order_processed s msg htime r']
    dsimp only
    generalize (∃ q p, s.requests[r']? = some q ∧ q.pieces[j]? = some p ∧ p.valid = false) = unsent
    by_cases hr : r' = r
    · subst hr
      rw [if_pos rfl, List.mem_append, List.mem_singleton]
      tauto
    · have hne : ¬((r' : ℤ) = r) := fun h => hr (Int.ofNat.inj h)
      rw [if_neg hr]
      tauto

/-- Nothing is picked. -/
theorem Inv.skip (hi : s.Inv g) {exec : Executor ℕ (Reply V)}
    (hpick : s.exec.pickActiveMsg = (none, exec)) : ({ s with exec } : KVWorker V).Inv g := by
  have hn := hi.net
  have hsub := (Executor.pickLoop_sublist s.exec.nodes s.exec.recvMsgs).2
  have hexec : exec = { s.exec with recvMsgs := (Executor.pickLoop s.exec.nodes
      s.exec.recvMsgs).2 } := (congrArg Prod.snd hpick).symm
  subst hexec
  refine ⟨⟨hn.time_eq, hn.sent, hn.arrived, ?_, hn.processed, ?_, hn.alive, hn.finished⟩,
    hi.channel_lt, hi.channel_inj, hi.logged, hi.push, hi.pull⟩
  · intro m hm
    exact hn.waiting m (hsub.subset hm)
  · intro m hm
    rcases hn.handled_of_pick hm with hpicked | hstay
    · rw [hpick] at hpicked
      cases hpicked
    · exact hstay

/-- The slices of a pull. -/
theorem PullInv.piece {q : SentReq V} {c : ℕ} {os : List ℕ} {value : ℕ → UInt64 → List V}
    {kv : KVPair V} {req : Option (Option ℕ)} {log : List (Callback V)}
    (hpull : PullInv g q c os value kv req log) {j : ℕ} {p : Piece UInt64 V}
    (hp : q.pieces[j]? = some p) :
    p.key = g.slice q.key j ∧ (p.valid = true ↔ j ∈ g.holders q.key) := by
  rw [hpull.pieces, List.getElem?_map] at hp
  obtain ⟨kr, hkr, rfl⟩ := Option.map_eq_some_iff.mp hp
  have hslice : g.slice q.key j = between q.key kr.begin_ kr.end_ := by
    rw [ServerGroup.slice, hkr]
    rfl
  refine ⟨hslice.symm, ?_⟩
  rw [ServerGroup.mem_holders, hslice]
  simp [pieceOf]

/-- All servers have finished a pull if and only if all responses were processed. -/
theorem Net.allFinished_iff (hn : s.Net) {r : ℕ} {q : SentReq V} (hq : s.requests[r]? = some q)
    {c : ℕ} {os : List ℕ} {value : ℕ → UInt64 → List V} {kv : KVPair V}
    {req : Option (Option ℕ)} {log : List (Callback V)}
    (hpull : PullInv g q c os value kv req log) :
    allFinished g r s.exec = true ↔ ∀ j ∈ g.holders q.key, j ∈ s.order r := by
  have hpieces : ∀ j < g.krs.length, ∃ p, q.pieces[j]? = some p := by
    intro j hj
    rw [hpull.pieces, List.getElem?_map, List.getElem?_eq_getElem hj]
    exact ⟨_, rfl⟩
  simp only [allFinished, List.all_eq_true, List.mem_range, hn.alive, Bool.not_true,
    Bool.false_or]
  constructor
  · intro hall j hj
    have hlt : j < g.krs.length := List.mem_range.mp (List.mem_filter.mp hj).1
    rcases (hn.finished j r).mp (hall j hlt) with ⟨q', p, hq', hp, hinvalid⟩ | hmem
    · obtain rfl := Option.some.inj (hq.symm.trans hq')
      rw [(hpull.piece hp).2.mpr hj] at hinvalid
      cases hinvalid
    · exact hmem
  · intro hall j hlt
    obtain ⟨p, hp⟩ := hpieces j hlt
    rw [hn.finished]
    by_cases hvalid : p.valid = true
    · exact .inr (hall j ((hpull.piece hp).2.mp hvalid))
    · exact .inl ⟨q, p, hq, hp, by simpa using hvalid⟩

section Process

variable {r j : ℕ} {q : SentReq V} {p : Piece UInt64 V}

/-- A pull with a response that is not processed waits for it. -/
theorem Inv.pull_waiting (hi : s.Inv g) (hq : s.requests[r]? = some q)
    (hp : q.pieces[j]? = some p) (hvalid : p.valid = true) (hnew : j ∉ s.order r) {c : ℕ}
    (hc : q.channel = some c) : j ∈ g.holders q.key ∧
      s.pullData c = .gathered g q.key (s.answer r) (s.order r) ∧ s.sentReqs r = some (some c) ∧
      s.log.filter (fun e => decide (e.channel = c)) = [] := by
  have hpull := hi.pull r q c hq hc
  have hj := (hpull.piece hp).2.mp hvalid
  exact ⟨hj, hpull.waiting fun hall => hnew (hall j hj)⟩

/-- The callback that is stored for a request. -/
theorem Inv.sentReqs_eq (hi : s.Inv g) (hq : s.requests[r]? = some q)
    (hp : q.pieces[j]? = some p) (hvalid : p.valid = true) (hnew : j ∉ s.order r) :
    s.sentReqs r = some q.channel := by
  cases hc : q.channel with
  | none => exact hi.push r q hq hc
  | some c => exact (hi.pull_waiting hq hp hvalid hnew hc).2.2.1

/-- **The customer processes a response.** Only the pull that it belongs to changes. -/
theorem Inv.processResponse (hi : s.Inv g) (hq : s.requests[r]? = some q)
    (hp : q.pieces[j]? = some p) (hvalid : p.valid = true) (hnew : j ∉ s.order r)
    (exec : Executor ℕ (Reply V)) : ∃ pullData,
      KVWorker.processResponse (q.reply p (s.answer r j)) { s with exec } =
        some { s with exec, pullData } ∧
      (∀ c, q.channel = some c →
        pullData c = .gathered g q.key (s.answer r) (s.order r ++ [j])) ∧
      ∀ c, q.channel ≠ some c → pullData c = s.pullData c := by
  cases hc : q.channel with
  | none =>
      refine ⟨s.pullData, ?_, by simp, fun _ _ => rfl⟩
      rw [SentReq.reply, hc]
      rfl
  | some c =>
      obtain ⟨hj, hkv, -, -⟩ := hi.pull_waiting hq hp hvalid hnew hc
      have hpull := hi.pull r q c hq hc
      have hresponse := @KVPair.processResponse_gathered V g q.key (s.answer r) (s.order r)
        hpull.sorted hpull.covered hpull.answered j hj hnew
      refine ⟨Function.update s.pullData c (.gathered g q.key (s.answer r) (s.order r ++ [j])),
        ?_, ?_, ?_⟩
      · rw [SentReq.reply, hc]
        dsimp only [KVWorker.processResponse]
        rw [hkv, (hpull.piece hp).1, hresponse]
        rfl
      · intro c' hc'
        obtain rfl := Option.some.inj hc'
        exact Function.update_self ..
      · intro c' hc'
        exact Function.update_of_ne (fun h => hc' (congrArg some h.symm)) ..

/-- Only one request changes. -/
theorem Inv.of_step {t : KVWorker V} (hi : s.Inv g) (hq : s.requests[r]? = some q) (hnet : t.Net)
    (hrequests : t.requests = s.requests) (hchl : t.chl = s.chl) (hanswer : t.answer = s.answer)
    (hlog : ∀ e ∈ t.log, e.channel < s.chl)
    (hother : ∀ r' ≠ r, t.order r' = s.order r' ∧ t.sentReqs r' = s.sentReqs r')
    (hdata : ∀ c, q.channel ≠ some c → t.pullData c = s.pullData c ∧
      t.log.filter (fun e => decide (e.channel = c)) =
        s.log.filter fun e => decide (e.channel = c))
    (hpush : q.channel = none → t.sentReqs r = some none)
    (hpull : ∀ c, q.channel = some c →
      PullInv g q c (t.order r) (s.answer r) (t.pullData c) (t.sentReqs r)
        (t.log.filter fun e => decide (e.channel = c))) : t.Inv g := by
  refine ⟨hnet, ?_, ?_, ?_, ?_, ?_⟩
  · rw [hrequests, hchl]
    exact hi.channel_lt
  · rw [hrequests]
    exact hi.channel_inj
  · rw [hchl]
    exact hlog
  · intro r' q' hq' hc
    rw [hrequests] at hq'
    by_cases hr : r' = r
    · subst hr
      obtain rfl := Option.some.inj (hq.symm.trans hq')
      exact hpush hc
    · rw [(hother r' hr).2]
      exact hi.push r' q' hq' hc
  · intro r' q' c hq' hc
    rw [hrequests] at hq'
    rw [hanswer]
    by_cases hr : r' = r
    · subst hr
      obtain rfl := Option.some.inj (hq.symm.trans hq')
      exact hpull c hc
    · have hne : q.channel ≠ some c := fun h => hr (hi.channel_inj r' r q' q c hq' hq hc h)
      rw [(hother r' hr).1, (hother r' hr).2, (hdata c hne).1, (hdata c hne).2]
      exact hi.pull r' q' c hq' hc

/-- The worker after a response was processed, before a callback runs. -/
def afterResponse (s : KVWorker V) (msg : Packet ℕ (Reply V)) (exec : Executor ℕ (Reply V))
    (pullData : ℕ → KVPair V) (group : RequestTracker) : KVWorker V :=
  { s with exec, pullData, group, processed := s.processed ++ [msg] }

variable {msg : Packet ℕ (Reply V)} {exec exec' : Executor ℕ (Reply V)} {pullData : ℕ → KVPair V}

theorem order_afterResponse (htime : msg.time = r) (hsender : msg.sender = j)
    (group : RequestTracker) (r' : ℕ) : (s.afterResponse msg exec pullData group).order r' =
      if r' = r then s.order r ++ [j] else s.order r' := by
  rw [← hsender]
  exact order_processed s msg htime r'

theorem Net.afterResponse (hn : s.Net) (hpick : s.exec.pickActiveMsg = (some msg, exec))
    (hexec : exec.finishSentReq msg.time msg.sender = some exec') (group : RequestTracker) :
    (s.afterResponse msg exec' pullData group).Net := by
  obtain ⟨h₁, h₂, h₃, h₄, h₅, h₆, h₇, h₈⟩ := hn.process hpick hexec
  exact ⟨h₁, h₂, h₃, h₄, h₅, h₆, h₇, h₈⟩

/-- What is known of a response when it is processed. -/
structure Picked (g : ServerGroup) (s : KVWorker V) (msg : Packet ℕ (Reply V)) (r j : ℕ)
    (q : SentReq V) (p : Piece UInt64 V) (pullData : ℕ → KVPair V) : Prop where
  request : s.requests[r]? = some q
  piece : q.pieces[j]? = some p
  valid : p.valid = true
  new : j ∉ s.order r
  time : msg.time = r
  sender : msg.sender = j
  this : ∀ c, q.channel = some c →
    pullData c = .gathered g q.key (s.answer r) (s.order r ++ [j])
  other : ∀ c, q.channel ≠ some c → pullData c = s.pullData c

/-- The pull of a response still waits for others. -/
theorem Inv.wait (hi : s.Inv g) (hpicked : Picked g s msg r j q p pullData)
    (hnet : (s.afterResponse msg exec' pullData s.group).Net)
    (hnot : allFinished g r exec' = false) :
    (s.afterResponse msg exec' pullData s.group).Inv g := by
  have horder := @order_afterResponse V s r j msg exec' pullData hpicked.time hpicked.sender s.group
  refine hi.of_step hpicked.request hnet rfl rfl rfl hi.logged ?_ ?_ ?_ ?_
  · intro r' hr
    rw [horder, if_neg hr]
    exact ⟨rfl, rfl⟩
  · exact fun c hc => ⟨hpicked.other c hc, rfl⟩
  · exact hi.push r q hpicked.request
  · intro c hc
    obtain ⟨hj, -, hreq, hlog⟩ :=
      hi.pull_waiting hpicked.request hpicked.piece hpicked.valid hpicked.new hc
    have hpull := hi.pull r q c hpicked.request hc
    have hwait : ¬∀ i ∈ g.holders q.key, i ∈ s.order r ++ [j] := by
      intro hall
      have hfinished := (hnet.allFinished_iff (r := r) hpicked.request hpull).mpr
        (by rw [horder, if_pos rfl]; exact hall)
      rw [show allFinished g r exec' = true from hfinished] at hnot
      cases hnot
    rw [horder, if_pos rfl]
    refine ⟨hpull.sorted, hpull.ne_nil, hpull.covered, hpull.pieces,
      hpull.answered.append hj hpicked.new, fun _ => ⟨hpicked.this c hc, hreq, hlog⟩,
      fun hall => absurd hall hwait⟩

/-- The worker after the callback of a pull. -/
def afterCallback (s : KVWorker V) (ts : ℤ) (e : Callback V) : KVWorker V :=
  { s with
    log := s.log ++ [e]
    pullData := Function.update s.pullData e.channel {}
    sentReqs := Function.update s.sentReqs ts (some none) }

/-- The callback of a pull that is complete. -/
theorem Inv.finish_pull (hi : s.Inv g) (hpicked : Picked g s msg r j q p pullData) {c : ℕ}
    (hc : q.channel = some c) {t : KVWorker V}
    (ht : ∃ group, t = s.afterResponse msg exec' pullData group) (hnet : t.Net)
    (hall : ∀ i ∈ g.holders q.key, i ∈ s.order r ++ [j]) :
    (t.afterCallback r { channel := c
                         valSize := q.key.map fun k => (KVPair.returned g (s.answer r) k).length
                         val := q.key.flatMap (KVPair.returned g (s.answer r)) }).Inv g := by
  obtain ⟨group, rfl⟩ := ht
  have horder := @order_afterResponse V s r j msg exec' pullData hpicked.time hpicked.sender group
  obtain ⟨hj, -, -, hlog⟩ :=
    hi.pull_waiting hpicked.request hpicked.piece hpicked.valid hpicked.new hc
  have hpull := hi.pull r q c hpicked.request hc
  have hos := hpull.answered.append hj hpicked.new
  refine hi.of_step hpicked.request ?_ rfl rfl rfl ?_ ?_ ?_ ?_ ?_
  · obtain ⟨h₁, h₂, h₃, h₄, h₅, h₆, h₇, h₈⟩ := hnet
    exact ⟨h₁, h₂, h₃, h₄, h₅, h₆, h₇, h₈⟩
  · intro e he
    rcases List.mem_append.mp he with hold | hnew
    · exact hi.logged e hold
    · obtain rfl := List.mem_singleton.mp hnew
      exact hi.channel_lt r q c hpicked.request hc
  · intro r' hr
    refine ⟨(horder r').trans (if_neg hr), Function.update_of_ne ?_ ..⟩
    exact fun h => hr (Int.ofNat.inj h)
  · intro c' hc'
    have hne : c' ≠ c := fun h => hc' (by rw [hc, h])
    constructor
    · show Function.update pullData c {} c' = _
      rw [Function.update_of_ne hne]
      exact hpicked.other c' hc'
    · show (s.log ++ [_]).filter _ = _
      rw [List.filter_append]
      simp [hne.symm]
  · intro hnone
    rw [hc] at hnone
    cases hnone
  · intro c' hc'
    obtain rfl := Option.some.inj (hc.symm.trans hc')
    have hsame : ∀ (ts : ℤ) (e : Callback V),
        ((s.afterResponse msg exec' pullData group).afterCallback ts e).order r =
          s.order r ++ [j] :=
      fun _ _ => (horder r).trans (if_pos rfl)
    rw [hsame]
    refine ⟨hpull.sorted, hpull.ne_nil, hpull.covered, hpull.pieces, hos,
      fun hnot => absurd hall hnot, fun _ => ⟨Function.update_self .., ?_⟩⟩
    show (s.log ++ [_]).filter _ = _
    rw [List.filter_append, hlog]
    simp

/-- **The callback runs** with the last response of a pull. -/
theorem Inv.finish (hi : s.Inv g) (hpicked : Picked g s msg r j q p pullData)
    (group : RequestTracker) (hnet : (s.afterResponse msg exec' pullData group).Net)
    (hfinished : allFinished g r exec' = true) : ∃ t,
      runCallback r q.channel (s.afterResponse msg exec' pullData group) = some t ∧ t.Inv g := by
  have horder := @order_afterResponse V s r j msg exec' pullData hpicked.time hpicked.sender group
  cases hc : q.channel with
  | none =>
      refine ⟨_, rfl, hi.of_step hpicked.request hnet rfl rfl rfl hi.logged ?_ ?_ ?_ ?_⟩
      · exact fun r' hr => ⟨(horder r').trans (if_neg hr), rfl⟩
      · exact fun c hc' => ⟨hpicked.other c hc', rfl⟩
      · exact hi.push r q hpicked.request
      · intro c hc'
        rw [hc] at hc'
        cases hc'
  | some c =>
      have hpull := hi.pull r q c hpicked.request hc
      have hj := (hpull.piece hpicked.piece).2.mp hpicked.valid
      have hall : ∀ i ∈ g.holders q.key, i ∈ s.order r ++ [j] := by
        have hiff := hnet.allFinished_iff (r := r) hpicked.request hpull
        rw [horder, if_pos rfl] at hiff
        exact hiff.mp hfinished
      have hcallback := @KVPair.callback_gathered V g q.key (s.answer r) _ hpull.sorted
        hpull.covered (hpull.answered.append hj hpicked.new) hall
      refine ⟨_, ?_, hi.finish_pull hpicked hc ⟨group, rfl⟩ hnet hall⟩
      rw [runCallback]
      show Option.map _ (pullData c).callback = _
      rw [hpicked.this c hc, hcallback]
      rfl

/-- The steps of `ProcessActiveMsg`. -/
theorem processActiveMsg_eq (g : ServerGroup) {callback : Option ℕ}
    (hprocess : KVWorker.processResponse msg.body { s with exec } = some { s with exec, pullData })
    (hcallback : s.sentReqs msg.time = some callback) :
    processActiveMsg g msg { s with exec } =
      (exec.finishSentReq msg.time msg.sender).bind fun exec' =>
        if allFinished g msg.time exec' then (s.group.finish msg.time).bind fun group =>
          runCallback msg.time callback (s.afterResponse msg exec' pullData group)
        else some (s.afterResponse msg exec' pullData s.group) := by
  rw [processActiveMsg, hprocess, Option.bind_eq_bind, Option.bind_some]
  dsimp only
  cases exec.finishSentReq msg.time msg.sender with
  | none => rfl
  | some exec' =>
      rw [hcallback]
      rfl

/-- **A response is processed.** It is not processed twice, and with few requests no check
fails. -/
theorem Inv.process (hi : s.Inv g) (hpick : s.exec.pickActiveMsg = (some msg, exec)) :
    (∀ t, processActiveMsg g msg { s with exec } = some t → t.Inv g) ∧
      (s.time ≤ 100000000 → (processActiveMsg g msg { s with exec }).isSome) := by
  obtain ⟨hnodes, hmem, -, -, -, hresp⟩ := Executor.pick_spec hpick
  obtain ⟨r, q, p, hq, hp, hvalid, heq⟩ :=
    hi.net.sent msg (hi.net.arrived msg (hi.net.waiting msg hmem))
  have htime : msg.time = r := by rw [heq]; rfl
  have hrequest : msg.request = false := by rw [heq]; rfl
  have hbody : msg.body = q.reply p (s.answer r msg.sender) := by
    nth_rewrite 1 [heq]
    rfl
  have hnew := hi.net.not_mem_order htime (hresp hrequest)
  have hcallback := hi.sentReqs_eq hq hp hvalid hnew
  obtain ⟨pullData, hprocess, hthis, hother⟩ := hi.processResponse hq hp hvalid hnew exec
  have hpicked : Picked g s msg r msg.sender q p pullData :=
    ⟨hq, hp, hvalid, hnew, htime, rfl, hthis, hother⟩
  rw [processActiveMsg_eq g (by rw [hbody]; exact hprocess) (by rw [htime]; exact hcallback)]
  constructor
  · intro t ht
    obtain ⟨exec', hexec, ht⟩ := Option.bind_eq_some_iff.mp ht
    rw [htime] at ht
    split at ht
    · rename_i hfinished
      obtain ⟨group, -, ht⟩ := Option.bind_eq_some_iff.mp ht
      obtain ⟨t', ht', hinv⟩ :=
        hi.finish hpicked group (hi.net.afterResponse hpick hexec group) hfinished
      obtain rfl := Option.some.inj (ht'.symm.trans ht)
      exact hinv
    · rename_i hnot
      obtain rfl := Option.some.inj ht
      exact hi.wait hpicked (hi.net.afterResponse hpick hexec s.group) (by simpa using hnot)
  · intro hsmall
    have hlt : (r : ℤ) < s.time := by
      rw [hi.net.time_eq]
      exact_mod_cast (List.getElem?_eq_some_iff.mp hq).1
    have hbound : (0 : ℤ) ≤ r ∧ (r : ℤ) < 100000000 :=
      ⟨Int.natCast_nonneg r, hlt.trans_le hsmall⟩
    have hsome : (exec.finishSentReq msg.time msg.sender).isSome :=
      Executor.finishSentReq_isSome.mpr (by rw [htime]; exact hbound)
    obtain ⟨exec', hexec⟩ := Option.isSome_iff_exists.mp hsome
    obtain ⟨group, hgroup⟩ := Option.isSome_iff_exists.mp
      (RequestTracker.finish_isSome (t := s.group) |>.mpr hbound)
    rw [hexec, Option.bind_some, htime, hgroup]
    split
    · rename_i hfinished
      obtain ⟨t', ht', -⟩ :=
        hi.finish hpicked group (hi.net.afterResponse hpick hexec group) hfinished
      rw [Option.bind_some, ht']
      rfl
    · rfl

end Process

theorem inv_of_reach (hr : Reach (step g) (Allowed g) init s) : s.Inv g := by
  apply hr.invariant inv_init
  intro s a s' hi hok hs
  cases a with
  | pull keys => exact hi.pullStep hok hs
  | push keys value => exact hi.submit hs fun c pieces hc => by cases hc
  | answer r j value => exact hi.reply hs
  | deliver i =>
      obtain ⟨msg, hmsg, hs⟩ := Option.bind_eq_some_iff.mp hs
      obtain rfl := Option.some.inj hs
      exact hi.deliver hmsg
  | serve =>
      rw [step] at hs
      split at hs
      · rename_i exec hpick
        obtain rfl := Option.some.inj hs
        exact hi.skip hpick
      · rename_i msg exec hpick
        exact (hi.process hpick).1 s' hs

/-- **A pull is put together in the order of its keys.** Processing a response does not fail a
check, and all responses that arrive are processed, those that arrive again being ignored. The
callback of a pull has run once if the responses of all servers that have one of its keys were
processed, and else not at all. It sees the length and the value of each key, as the server of
the key returned it. -/
theorem pull_reassembled (g : ServerGroup) (s : KVWorker V)
    (hr : Reach (step g) (Allowed g) init s) :
    (s.time ≤ 100000000 → (s.step g .serve).isSome) ∧
    (∀ m ∈ s.processed, m ∈ s.sent) ∧
    (∀ m ∈ s.arrived, m ∈ s.exec.recvMsgs ∨ m ∈ s.processed) ∧
    ∀ (r : ℕ) q c, s.requests[r]? = some q → q.channel = some c →
      (s.log.filter fun e => decide (e.channel = c)).length =
        (if ∀ j ∈ g.holders q.key, ∃ m ∈ s.processed, m.sender = j ∧ m.time = r then 1 else 0) ∧
      ∀ e ∈ s.log, e.channel = c →
        e.valSize = q.key.map (fun k => (s.answer r (g.serverOf k) k).length) ∧
        e.val = q.key.flatMap fun k => s.answer r (g.serverOf k) k := by
  have hi := inv_of_reach hr
  refine ⟨fun hsmall => ?_, fun m hm => hi.net.arrived m (hi.net.processed m hm), hi.net.handled,
    fun r q c hq hc => ?_⟩
  · rw [step]
    split
    · rfl
    · rename_i msg exec hpick
      exact (hi.process hpick).2 hsmall
  · have hpull := hi.pull r q c hq hc
    simp only [← mem_order]
    by_cases hall : ∀ j ∈ g.holders q.key, j ∈ s.order r
    · obtain ⟨-, hlog⟩ := hpull.done hall
      rw [if_pos hall, hlog]
      refine ⟨rfl, fun e he hce => ?_⟩
      have hmem : e ∈ s.log.filter fun e => decide (e.channel = c) :=
        List.mem_filter.mpr ⟨he, decide_eq_true hce⟩
      rw [hlog] at hmem
      obtain rfl := List.mem_singleton.mp hmem
      exact ⟨rfl, rfl⟩
    · obtain ⟨-, -, hlog⟩ := hpull.waiting hall
      rw [if_neg hall, hlog]
      refine ⟨rfl, fun e he hce => ?_⟩
      have hmem : e ∈ s.log.filter fun e => decide (e.channel = c) :=
        List.mem_filter.mpr ⟨he, decide_eq_true hce⟩
      rw [hlog] at hmem
      cases hmem

instance (g : ServerGroup) (s : KVWorker V) (a : Act V) : Decidable (Allowed g s a) :=
  match a with
  | .pull keys =>
    -- not the instance for a finite type, which would run over all keys
    have : Decidable (∀ k ∈ keys, ∃ kr ∈ g.krs, kr.contains k) := List.decidableBAll _ _
    inferInstanceAs (Decidable (keys.Pairwise (· < ·) ∧ keys ≠ [] ∧
      ∀ k ∈ keys, ∃ kr ∈ g.krs, kr.contains k))
  | .push keys _ => inferInstanceAs (Decidable (keys ≠ []))
  | .answer _ _ _ | .deliver _ | .serve => inferInstanceAs (Decidable True)

/-- Two servers. -/
def twoServers : ServerGroup where
  krs := [{ begin_ := 0, end_ := 5 }, { begin_ := 5, end_ := maxIndex }]
  chain := by decide
  le := by decide

/-- Two pulls and a push. The second server answers first, and its response arrives twice. -/
def secondFirst : List (Act ℕ) :=
  [.pull [3, 7], .pull [7], .push [3] [], .answer 0 1 fun _ => [70], .deliver 0, .deliver 0,
    .answer 1 1 fun _ => [71, 72], .deliver 1, .serve, .serve, .serve,
    .answer 2 0 fun _ => [], .answer 0 0 fun _ => [30, 31], .deliver 3, .deliver 2, .serve, .serve]

theorem pull_reassembled_secondFirst : ∃ s : KVWorker ℕ,
    Reach (step twoServers) (Allowed twoServers) init s ∧
    ∃ e ∈ s.log, e.channel = 0 ∧ e.valSize = [2, 1] ∧ e.val = [30, 31, 70] := by
  have hrun : (runs (fun s a => if Allowed twoServers s a then step twoServers s a else none)
      (init : KVWorker ℕ) secondFirst).any (fun s =>
        decide (s.log.map Callback.channel = [1, 0]) &&
        s.requests[0]?.any (fun q => decide (q.channel = some 0 ∧ q.key = [3, 7])) &&
        decide (s.answer 0 (twoServers.serverOf 3) 3 = [30, 31] ∧
          s.answer 0 (twoServers.serverOf 7) 7 = [70])) = true := by
    decide +kernel
  obtain ⟨s, hr, htest⟩ := Reach.exists_of_runs hrun
  simp only [Bool.and_eq_true, decide_eq_true_eq, Option.any_eq_true] at htest
  obtain ⟨⟨hlog, q, hq, hchannel, hkey⟩, hthree, hseven⟩ := htest
  obtain ⟨-, -, -, hpull⟩ := pull_reassembled twoServers s hr
  obtain ⟨e, he, hce⟩ : ∃ e ∈ s.log, e.channel = 0 := by
    apply List.mem_map.mp
    rw [hlog]
    decide
  obtain ⟨hsize, hval⟩ := (hpull 0 q 0 hq hchannel).2 e he hce
  refine ⟨s, hr, e, he, hce, ?_, ?_⟩
  · rw [hsize, hkey, List.map_cons, List.map_singleton, hthree, hseven]
    rfl
  · rw [hval, hkey, List.flatMap_cons, List.flatMap_singleton, hthree, hseven]
    rfl

end KVWorker

end Difacto.System
