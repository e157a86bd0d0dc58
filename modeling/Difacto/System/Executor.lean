import Mathlib.Data.List.Basic
import Mathlib.Algebra.Order.Ring.Int
import Mathlib.Logic.Function.Basic
import Mathlib.Tactic.Cases

/-!
# The executor

`RequestTracker` of `ps-lite/src/system/remote_node.h` and the part of `Executor` of
`ps-lite/src/system/executor.cc` that every customer shares: the list of received messages,
the trackers of the remote nodes, and which message is picked next. A failed `CHECK` is
`none`.

The remote nodes are known, and messages are sent by single nodes, not by groups.

## Main definitions

* `RequestTracker` — the timestamps that are finished.
* `Packet` — what `PickActiveMsg` reads of a message.
* `Executor` with `accept`, `pickActiveMsg`, `finishRecvReq` and `finishSentReq`.

## Main results

* `RequestTracker.isFinished_finish` — what `Finish` changes.
* `Executor.pick_spec` — a message that is picked is new, and what it waits for is finished.
-/

namespace Difacto.System

/-! ## Trackers -/

/-- Track a request by its timestamp. -/
structure RequestTracker where
  data : List Bool := []
  deriving DecidableEq

namespace RequestTracker

/-- `IsFinished` -/
def isFinished (t : RequestTracker) (ts : ℤ) : Bool :=
  decide (ts < 0) || (decide (ts < t.data.length) && t.data.getD ts.toNat false)

/-- `Finish` -/
def finish (t : RequestTracker) (ts : ℤ) : Option RequestTracker :=
  if 0 ≤ ts ∧ ts < 100000000 then
    let data := if (t.data.length : ℤ) ≤ ts then
        t.data ++ List.replicate (ts.toNat * 2 + 5 - t.data.length) false
      else t.data
    some { data := data.set ts.toNat true }
  else none

variable {t t' : RequestTracker} {ts x : ℤ}

theorem isFinished_of_neg (h : ts < 0) : t.isFinished ts = true := by
  simp [isFinished, h]

theorem isFinished_new (h : 0 ≤ ts) : (RequestTracker.mk []).isFinished ts = false := by
  simp [isFinished, h]

theorem isFinished_eq (h : 0 ≤ ts) : t.isFinished ts = t.data.getD ts.toNat false := by
  rw [isFinished, decide_eq_false (not_lt.mpr h), Bool.false_or]
  by_cases hlt : ts < t.data.length
  · rw [decide_eq_true hlt, Bool.true_and]
  · rw [decide_eq_false hlt, Bool.false_and, List.getD_eq_getElem?_getD,
      List.getElem?_eq_none (by omega)]
    rfl

/-- Timestamps from 0 to 100000000 can be finished. -/
theorem finish_isSome : (t.finish ts).isSome ↔ 0 ≤ ts ∧ ts < 100000000 := by
  rw [finish]
  split
  · rename_i h
    exact iff_of_true rfl h
  · rename_i h
    exact iff_of_false (by simp) h

/-- **`Finish`** marks one timestamp. -/
theorem isFinished_finish (h : t.finish ts = some t') :
    t'.isFinished x = (decide (x = ts) || t.isFinished x) := by
  rw [finish] at h
  split at h
  · rename_i hts
    cases h
    by_cases hx : x < 0
    · rw [isFinished_of_neg hx, isFinished_of_neg hx, Bool.or_true]
    · have hgrow : ∀ n, (t.data ++ List.replicate n false).getD x.toNat false =
          t.data.getD x.toNat false := by
        intro n
        by_cases hlt : x.toNat < t.data.length
        · simp [List.getD_eq_getElem?_getD, List.getElem?_append_left hlt]
        · rw [List.getD_eq_getElem?_getD, List.getD_eq_getElem?_getD,
            List.getElem?_append_right (not_lt.mp hlt), List.getElem?_eq_none (not_lt.mp hlt),
            List.getElem?_replicate]
          split <;> rfl
      rw [isFinished_eq (not_lt.mp hx), isFinished_eq (not_lt.mp hx)]
      by_cases hxt : x = ts
      · subst hxt
        rw [decide_eq_true rfl, Bool.true_or, List.getD_eq_getElem?_getD, List.getElem?_set_self]
        · rfl
        · split
          · rw [List.length_append, List.length_replicate]
            omega
          · omega
      · have hne : ts.toNat ≠ x.toNat := by omega
        rw [decide_eq_false hxt, Bool.false_or, List.getD_eq_getElem?_getD,
          List.getElem?_set_ne hne, ← List.getD_eq_getElem?_getD]
        split
        · exact hgrow _
        · rfl
  · cases h

end RequestTracker

/-! ## Messages -/

/-- What the executor reads of a message. -/
structure Packet (N D : Type) where
  sender : N
  request : Bool
  time : ℤ
  waitTime : List ℤ
  body : D
  deriving DecidableEq

/-- A remote node. -/
structure RemoteNode where
  alive : Bool := true
  /-- `sent_req_tracker` -/
  sent : RequestTracker := {}
  /-- `recv_req_tracker` -/
  recv : RequestTracker := {}

/-- `Executor` -/
structure Executor (N D : Type) where
  nodes : N → RemoteNode
  /-- `recv_msgs_` -/
  recvMsgs : List (Packet N D)

namespace Executor

variable {N D : Type}

/-- An executor that has received nothing. -/
def init : Executor N D := { nodes := fun _ => {}, recvMsgs := [] }

/-- `Accept` -/
def accept (e : Executor N D) (msg : Packet N D) : Executor N D :=
  { e with recvMsgs := e.recvMsgs ++ [msg] }

/-- The message is received twice. -/
def double (nodes : N → RemoteNode) (msg : Packet N D) : Bool :=
  if msg.request then (nodes msg.sender).recv.isFinished msg.time
  else (nodes msg.sender).sent.isFinished msg.time

/-- The message has to wait for another request; `kInvalidTime` is -1. -/
def blocked (nodes : N → RemoteNode) (msg : Packet N D) : Bool :=
  msg.request && msg.waitTime.any fun ts =>
    decide (-1 < ts) && !(nodes msg.sender).recv.isFinished ts

/-- The loop of `PickActiveMsg`: the message that is picked, and those that stay. -/
def pickLoop (nodes : N → RemoteNode) :
    List (Packet N D) → Option (Packet N D) × List (Packet N D)
  | [] => (none, [])
  | msg :: msgs =>
    if (nodes msg.sender).alive = false ∨ double nodes msg then pickLoop nodes msgs
    else if blocked nodes msg then
      ((pickLoop nodes msgs).1, msg :: (pickLoop nodes msgs).2)
    else (some msg, msgs)

/-- `PickActiveMsg` -/
def pickActiveMsg (e : Executor N D) : Option (Packet N D) × Executor N D :=
  ((pickLoop e.nodes e.recvMsgs).1, { e with recvMsgs := (pickLoop e.nodes e.recvMsgs).2 })

variable [DecidableEq N]

/-- `FinishRecvReq` for a request of a single node. -/
def finishRecvReq (e : Executor N D) (ts : ℤ) (sender : N) : Option (Executor N D) :=
  ((e.nodes sender).recv.finish ts).map fun recv =>
    { e with nodes := Function.update e.nodes sender { e.nodes sender with recv } }

/-- Mark a request to a single node as finished, as `Submit` and `ProcessActiveMsg` do. -/
def finishSentReq (e : Executor N D) (ts : ℤ) (recver : N) : Option (Executor N D) :=
  ((e.nodes recver).sent.finish ts).map fun sent =>
    { e with nodes := Function.update e.nodes recver { e.nodes recver with sent } }

omit [DecidableEq N] in
/-- The loop picks a message of the list and keeps others of it. -/
theorem pickLoop_sublist (nodes : N → RemoteNode) (msgs : List (Packet N D)) :
    (∀ msg, (pickLoop nodes msgs).1 = some msg →
      msg ∈ msgs ∧ (nodes msg.sender).alive = true ∧ double nodes msg = false ∧
        blocked nodes msg = false) ∧
    (pickLoop nodes msgs).2.Sublist msgs := by
  induction msgs with
  | nil => simp [pickLoop]
  | cons m msgs ih =>
      obtain ⟨hpick, hsub⟩ := ih
      rw [pickLoop]
      split
      · refine ⟨fun msg hmsg => ?_, hsub.cons m⟩
        obtain ⟨hmem, hrest⟩ := hpick msg hmsg
        exact ⟨List.mem_cons_of_mem _ hmem, hrest⟩
      · rename_i hnew
        split
        · refine ⟨fun msg hmsg => ?_, hsub.cons_cons m⟩
          obtain ⟨hmem, hrest⟩ := hpick msg hmsg
          exact ⟨List.mem_cons_of_mem _ hmem, hrest⟩
        · rename_i hfree
          refine ⟨fun msg hmsg => ?_, List.sublist_cons_self m msgs⟩
          obtain rfl := Option.some.inj hmsg
          rw [not_or] at hnew
          exact ⟨List.mem_cons_self, by simpa using hnew.1, by simpa using hnew.2,
            by simpa using hfree⟩

omit [DecidableEq N] in
/-- A message that is not picked stays, or is ignored. -/
theorem pickLoop_complete (nodes : N → RemoteNode) (msgs : List (Packet N D)) :
    ∀ msg ∈ msgs, (pickLoop nodes msgs).1 = some msg ∨ msg ∈ (pickLoop nodes msgs).2 ∨
      (nodes msg.sender).alive = false ∨ double nodes msg = true := by
  induction msgs with
  | nil => simp
  | cons m msgs ih =>
      intro msg hmsg
      rw [pickLoop]
      split
      · rename_i hignored
        rcases List.mem_cons.mp hmsg with rfl | hmem
        · exact .inr (.inr hignored)
        · exact ih msg hmem
      · split
        · rcases List.mem_cons.mp hmsg with rfl | hmem
          · exact .inr (.inl List.mem_cons_self)
          · rcases ih msg hmem with hpick | hstay | hrest
            · exact .inl hpick
            · exact .inr (.inl (List.mem_cons_of_mem _ hstay))
            · exact .inr (.inr hrest)
        · rcases List.mem_cons.mp hmsg with rfl | hmem
          · exact .inl rfl
          · exact .inr (.inl hmem)

variable {e e' : Executor N D} {msg : Packet N D}

omit [DecidableEq N] in
/-- **A message that is picked** was received, its request is not finished, and all that it
waits for is. -/
theorem pick_spec (h : e.pickActiveMsg = (some msg, e')) :
    e'.nodes = e.nodes ∧ msg ∈ e.recvMsgs ∧ e'.recvMsgs.Sublist e.recvMsgs ∧
      (e.nodes msg.sender).alive = true ∧
      (msg.request = true → (e.nodes msg.sender).recv.isFinished msg.time = false ∧
        ∀ ts ∈ msg.waitTime, (e.nodes msg.sender).recv.isFinished ts = true) ∧
      (msg.request = false → (e.nodes msg.sender).sent.isFinished msg.time = false) := by
  rw [pickActiveMsg, Prod.mk.injEq] at h
  obtain ⟨hpick, rfl⟩ := h
  obtain ⟨hsome, hsub⟩ := pickLoop_sublist e.nodes e.recvMsgs
  obtain ⟨hmem, halive, hdouble, hblocked⟩ := hsome msg hpick
  refine ⟨rfl, hmem, hsub, halive, fun hreq => ⟨?_, fun ts hts => ?_⟩, fun hreq => ?_⟩
  · simpa [double, hreq] using hdouble
  · by_cases hneg : ts < 0
    · exact RequestTracker.isFinished_of_neg hneg
    · simp only [blocked, hreq, Bool.true_and, List.any_eq_false] at hblocked
      have hfree := hblocked ts hts
      rw [decide_eq_true (by omega : -1 < ts)] at hfree
      simpa using hfree
  · simpa [double, hreq] using hdouble

/-- What `FinishRecvReq` changes. -/
theorem finishRecvReq_spec {ts : ℤ} {sender : N} (h : e.finishRecvReq ts sender = some e') :
    e'.recvMsgs = e.recvMsgs ∧ (0 ≤ ts ∧ ts < 100000000) ∧
      (∀ n, (e'.nodes n).alive = (e.nodes n).alive ∧ (e'.nodes n).sent = (e.nodes n).sent) ∧
      ∀ n x, (e'.nodes n).recv.isFinished x =
        (decide (n = sender ∧ x = ts) || (e.nodes n).recv.isFinished x) := by
  obtain ⟨recv, hrecv, rfl⟩ := Option.map_eq_some_iff.mp h
  refine ⟨rfl, RequestTracker.finish_isSome.mp (by rw [hrecv]; rfl), fun n => ?_, fun n x => ?_⟩
  · by_cases hn : n = sender
    · subst hn
      simp
    · simp [Function.update_of_ne hn]
  · by_cases hn : n = sender
    · subst hn
      simp [RequestTracker.isFinished_finish hrecv]
    · simp [hn]

theorem finishSentReq_isSome {ts : ℤ} {recver : N} :
    (e.finishSentReq ts recver).isSome ↔ 0 ≤ ts ∧ ts < 100000000 := by
  rw [finishSentReq, Option.isSome_map, RequestTracker.finish_isSome]

/-- What marking a request of this node changes. -/
theorem finishSentReq_spec {ts : ℤ} {recver : N} (h : e.finishSentReq ts recver = some e') :
    e'.recvMsgs = e.recvMsgs ∧ (0 ≤ ts ∧ ts < 100000000) ∧
      (∀ n, (e'.nodes n).alive = (e.nodes n).alive ∧ (e'.nodes n).recv = (e.nodes n).recv) ∧
      ∀ n x, (e'.nodes n).sent.isFinished x =
        (decide (n = recver ∧ x = ts) || (e.nodes n).sent.isFinished x) := by
  obtain ⟨sent, hsent, rfl⟩ := Option.map_eq_some_iff.mp h
  refine ⟨rfl, RequestTracker.finish_isSome.mp (by rw [hsent]; rfl), fun n => ?_, fun n x => ?_⟩
  · by_cases hn : n = recver
    · subst hn
      simp
    · simp [Function.update_of_ne hn]
  · by_cases hn : n = recver
    · subst hn
      simp [RequestTracker.isFinished_finish hsent]
    · simp [hn]

end Executor

end Difacto.System
