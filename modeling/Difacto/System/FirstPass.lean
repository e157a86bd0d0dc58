import Difacto.Lib.Reach
import Difacto.System.Executor
import Difacto.System.KeySpace
import Difacto.Worker.Minibatch

/-!
# The first pass

Requests of the workers and one server in the first pass over the training data, as
`AsyncWorker::ProcessMinibatch` of `difacto/async_sgd.h` submits them: the feature counts of
a minibatch are pushed, its weights are pulled, and the pull has the timestamp of the push in
`wait_time`. Gradients are pushed at any time. The slices for the server arrive in any order
and any number of times; its executor decides which is processed next.

`sent`, `batches` and `log` are history: the slices sent to the server, the minibatches, and
the requests that the server has processed.

## Main definitions

* `Batch` — a minibatch, with the timestamps of its requests.
* `FirstPass`, `FirstPass.step` — the workers, the messages and the server.

## Main results

* `FirstPass.Inv` — the invariant of all runs.
* `FirstPass.counts_before_pull` — a request is processed once, and counts come before the
  pull.
-/

namespace Difacto.System

open Base Lib Server Worker

variable {N F : Type} [DecidableEq N] [FloatLike F]

/-- The servers' key ranges, and the server that is looked at. -/
structure ServerConf (F : Type) where
  krs : List (Range UInt64)
  le : ∀ kr ∈ krs, kr.begin_ ≤ kr.end_
  /-- the position in the server group -/
  server : ℕ
  handle : AdaGradHandle F

/-- A minibatch whose counts were pushed. -/
structure Batch (N F : Type) where
  worker : N
  keys : List UInt64
  cnts : List F
  /-- the timestamp of the count push -/
  pushTime : ℤ
  /-- the timestamp of the pull, once it is submitted -/
  pullTime : Option ℤ

/-- A request that the server has processed. -/
structure LogEntry (N F : Type) where
  msg : Packet N (Request F)
  reply : Option (Response F)

/-- The request of a count push. -/
def countRequest (p : Piece UInt64 F) : Request F :=
  .push true p.key (p.value.flatMap Value.data) none

/-- The request of a pull. -/
def pullRequest (p : Piece UInt64 F) : Request F := .pull p.key true

/-- The request of a gradient push. -/
def gradRequest (p : Piece UInt64 F) : Request F :=
  .push false p.key (p.value.flatMap Value.data) (some (p.value.flatMap fun v => v.len.getD []))

/-- The message of a count push. -/
def countMessage (keys : List UInt64) (cnts : List F) : Message UInt64 F :=
  { keyRange := allKeys, key := keys, value := [{ data := cnts, len := none }] }

/-- The message of a pull. -/
def pullMessage (keys : List UInt64) : Message UInt64 F :=
  { keyRange := allKeys, key := keys, value := [] }

/-- The message of a gradient push. -/
def gradMessage (keys : List UInt64) (vals : List F) (sizes : List ℕ) : Message UInt64 F :=
  { keyRange := allKeys, key := keys, value := [{ data := vals, len := some sizes }] }

namespace ServerConf

/-- The slice for the server. -/
def piece (conf : ServerConf F) (msg : Message UInt64 F) : Option (Piece UInt64 F) :=
  (sliceMessage msg conf.krs).bind (·[conf.server]?)

end ServerConf

/-- The state of the workers, the messages and the server. -/
structure FirstPass (N F : Type) where
  /-- `time_` of the workers -/
  time : N → ℤ
  batches : List (Batch N F)
  sent : List (Packet N (Request F))
  exec : Executor N (Request F)
  store : AsyncServer F
  log : List (LogEntry N F)

namespace FirstPass

/-- What happens next. -/
inductive Act (N F : Type)
  /-- `ZPush` of the counts of a minibatch -/
  | push (w : N) (keys : List UInt64) (cnts : List F)
  /-- `ZVPull` for minibatch `b` -/
  | pull (b : ℕ)
  /-- `ZVPush` of gradients -/
  | grad (w : N) (keys : List UInt64) (vals : List F) (sizes : List ℕ)
  /-- slice `i` of those that were sent arrives -/
  | deliver (i : ℕ)
  /-- the server picks a message and processes it -/
  | serve

/-- `Submit`: the slice for the server is sent if it is valid. -/
def submit (conf : ServerConf F) (w : N) (msg : Message UInt64 F)
    (body : Piece UInt64 F → Request F) (waitTime : List ℤ) (s : FirstPass N F) :
    Option (FirstPass N F) :=
  (conf.piece msg).map fun p =>
    { s with
      time := Function.update s.time w (s.time w + 1)
      sent := if p.valid then s.sent ++ [{ sender := w, request := true, time := s.time w,
                                           waitTime, body := body p }]
        else s.sent }

/-- `ProcessActiveMsg` for a request. `HandlePush` and `HandlePull` mark it as finished, and
then the executor does. -/
def process (conf : ServerConf F) (msg : Packet N (Request F)) (s : FirstPass N F) :
    Option (FirstPass N F) := do
  let (store, reply) ← s.store.handle conf.handle msg.body
  let exec ← s.exec.finishRecvReq msg.time msg.sender
  let exec ← exec.finishRecvReq msg.time msg.sender
  return { s with exec, store, log := s.log ++ [{ msg, reply }] }

/-- One step; `none` if it is not enabled, or a `CHECK` fails. -/
def step (conf : ServerConf F) (s : FirstPass N F) : Act N F → Option (FirstPass N F)
  | .push w keys cnts =>
    (s.submit conf w (countMessage keys cnts) countRequest []).map fun s' =>
      { s' with batches := s.batches ++
        [{ worker := w, keys, cnts, pushTime := s.time w, pullTime := none }] }
  | .pull b => do
    let batch ← s.batches[b]?
    if batch.pullTime.isNone then
      let s' ← s.submit conf batch.worker (pullMessage batch.keys) pullRequest [batch.pushTime]
      return { s' with
        batches := s.batches.set b { batch with pullTime := some (s.time batch.worker) } }
    else none
  | .grad w keys vals sizes => s.submit conf w (gradMessage keys vals sizes) gradRequest []
  | .deliver i => (s.sent[i]?).map fun msg => { s with exec := s.exec.accept msg }
  | .serve =>
    match s.exec.pickActiveMsg with
    | (none, exec) => some { s with exec }
    | (some msg, exec) => { s with exec }.process conf msg

/-- The keys of a minibatch are those that `CountUniqIndex` returns. -/
def Allowed (_ : FirstPass N F) : Act N F → Prop
  | .push _ keys _ => keys.Pairwise (· < ·) ∧ keys ≠ []
  | _ => True

/-- Before the first request. -/
def start (store : AsyncServer F) : FirstPass N F :=
  { time := fun _ => 0, batches := [], sent := [], exec := .init, store, log := [] }

/-- The request with this timestamp of this worker. -/
def Named (w : N) (t : ℤ) (msg : Packet N (Request F)) : Prop := msg.sender = w ∧ msg.time = t

/-! ## The invariant -/

/-- What the messages know of a minibatch. -/
structure BatchInv (conf : ServerConf F) (s : FirstPass N F) (b : Batch N F) : Prop where
  sorted : b.keys.Pairwise (· < ·)
  ne_nil : b.keys ≠ []
  push_nonneg : 0 ≤ b.pushTime
  push_lt : b.pushTime < s.time b.worker
  pull_lt : ∀ t ∈ b.pullTime, t < s.time b.worker
  piece : ∃ p, conf.piece (countMessage b.keys b.cnts) = some p ∧
    (p.valid = true → { sender := b.worker, request := true, time := b.pushTime, waitTime := [],
                        body := countRequest p } ∈ s.sent)
  pull : ∀ t ∈ b.pullTime, ∀ msg ∈ s.sent, Named b.worker t msg →
    msg.waitTime = [b.pushTime] ∧ ∃ p, conf.piece (pullMessage b.keys) = some p ∧
      p.valid = true ∧ msg.body = pullRequest p

/-- **The invariant of all runs.** -/
structure Inv (conf : ServerConf F) (store₀ : AsyncServer F) (s : FirstPass N F) : Prop where
  time_nonneg : ∀ w, 0 ≤ s.time w
  request : ∀ msg ∈ s.sent, msg.request = true
  time_lt : ∀ msg ∈ s.sent, 0 ≤ msg.time ∧ msg.time < s.time msg.sender
  unique : ∀ msg ∈ s.sent, ∀ msg' ∈ s.sent, Named msg.sender msg.time msg' → msg' = msg
  batch : ∀ b ∈ s.batches, BatchInv conf s b
  received : ∀ msg ∈ s.exec.recvMsgs, msg ∈ s.sent
  logged : ∀ e ∈ s.log, e.msg ∈ s.sent
  finished : ∀ w t, 0 ≤ t →
    ((s.exec.nodes w).recv.isFinished t = true ↔ ∃ e ∈ s.log, Named w t e.msg)
  nodup : (s.log.map fun e => (e.msg.sender, e.msg.time)).Nodup
  waited : ∀ (j : ℕ) e, s.log[j]? = some e → ∀ t ∈ e.msg.waitTime, 0 ≤ t →
    ∃ i < j, ∃ e', s.log[i]? = some e' ∧ Named e.msg.sender t e'.msg
  replay : ∀ (j : ℕ) e, s.log[j]? = some e → ∃ st st' rs,
    store₀.answer conf.handle ((s.log.take j).map fun e => e.msg.body) = some (st, rs) ∧
      st.handle conf.handle e.msg.body = some (st', e.reply)
  store : ∃ rs, store₀.answer conf.handle (s.log.map fun e => e.msg.body) = some (s.store, rs)

variable {conf : ServerConf F} {store₀ : AsyncServer F} {s s' : FirstPass N F}

omit [DecidableEq N] in
theorem inv_start (conf : ServerConf F) (store₀ : AsyncServer F) :
    (start store₀ : FirstPass N F).Inv conf store₀ where
  time_nonneg := fun _ => le_rfl
  request := by simp [start]
  time_lt := by simp [start]
  unique := by simp [start]
  batch := by simp [start]
  received := by simp [start, Executor.init]
  logged := by simp [start]
  finished := by
    intro w t ht
    have hnew : (RequestTracker.mk []).isFinished t = false := RequestTracker.isFinished_new ht
    simp [start, Executor.init, hnew]
  nodup := by simp [start]
  waited := by simp [start]
  replay := by simp [start]
  store := ⟨[], rfl⟩

omit [FloatLike F] in
/-- What `Submit` does. -/
theorem submit_cases {w : N} {msg : Message UInt64 F} {body : Piece UInt64 F → Request F}
    {waitTime : List ℤ} (h : s.submit conf w msg body waitTime = some s') :
    ∃ p, conf.piece msg = some p ∧ s'.batches = s.batches ∧ s'.exec = s.exec ∧
      s'.store = s.store ∧ s'.log = s.log ∧ s'.time = Function.update s.time w (s.time w + 1) ∧
      s'.sent = if p.valid then s.sent ++ [{ sender := w, request := true, time := s.time w,
                                             waitTime, body := body p }]
        else s.sent := by
  obtain ⟨p, hp, rfl⟩ := Option.map_eq_some_iff.mp h
  exact ⟨p, hp, rfl, rfl, rfl, rfl, rfl, rfl⟩

omit [FloatLike F] in
/-- The messages after `Submit`: the new one has a timestamp that no other has. -/
theorem mem_sent_submit {w : N} {msg : Message UInt64 F} {body : Piece UInt64 F → Request F}
    {waitTime : List ℤ} {p : Piece UInt64 F} {m : Packet N (Request F)}
    (hp : conf.piece msg = some p) (h : s.submit conf w msg body waitTime = some s') :
    m ∈ s'.sent ↔ m ∈ s.sent ∨ p.valid = true ∧
      m = { sender := w, request := true, time := s.time w, waitTime, body := body p } := by
  obtain ⟨p', hp', -, -, -, -, -, hsent⟩ := submit_cases h
  rw [hp, Option.some.injEq] at hp'
  subst hp'
  rw [hsent]
  split
  · rename_i hvalid
    simp [hvalid]
  · rename_i hvalid
    simp [hvalid]

omit [FloatLike F] in
theorem time_submit {w : N} {msg : Message UInt64 F} {body : Piece UInt64 F → Request F}
    {waitTime : List ℤ} (h : s.submit conf w msg body waitTime = some s') (w' : N) :
    s'.time w' = if w' = w then s.time w + 1 else s.time w' := by
  obtain ⟨p, -, -, -, -, -, htime, -⟩ := submit_cases h
  rw [htime, Function.update_apply]

omit [FloatLike F] in
/-- A minibatch keeps what the messages know of it when another request is submitted. -/
theorem BatchInv.submit {b : Batch N F} {w : N} {msg : Message UInt64 F}
    {body : Piece UInt64 F → Request F} {waitTime : List ℤ} (hb : BatchInv conf s b)
    (h : s.submit conf w msg body waitTime = some s') : BatchInv conf s' b := by
  obtain ⟨p, hp, -⟩ := submit_cases h
  have htime : s.time b.worker ≤ s'.time b.worker := by
    rw [time_submit h]
    split
    · rename_i hw
      rw [hw]
      omega
    · exact le_rfl
  refine ⟨hb.sorted, hb.ne_nil, hb.push_nonneg, hb.push_lt.trans_le htime,
    fun t ht => (hb.pull_lt t ht).trans_le htime, ?_, ?_⟩
  · obtain ⟨q, hq, hsent⟩ := hb.piece
    exact ⟨q, hq, fun hvalid => (mem_sent_submit hp h).mpr (.inl (hsent hvalid))⟩
  · intro t ht m hm hnamed
    rcases (mem_sent_submit hp h).mp hm with hm | ⟨-, rfl⟩
    · exact hb.pull t ht m hm hnamed
    · obtain ⟨rfl, rfl⟩ := hnamed
      exact absurd (hb.pull_lt _ ht) (lt_irrefl _)

/-- **A request is submitted.** -/
theorem Inv.submit {w : N} {msg : Message UInt64 F} {body : Piece UInt64 F → Request F}
    {waitTime : List ℤ} (hi : s.Inv conf store₀)
    (h : s.submit conf w msg body waitTime = some s') : s'.Inv conf store₀ := by
  obtain ⟨p, hp, hbatches, hexec, hstore, hlog, -, -⟩ := submit_cases h
  have hmem : ∀ {m}, m ∈ s.sent → m ∈ s'.sent := fun hm => (mem_sent_submit hp h).mpr (.inl hm)
  -- the timestamp of the new message is not used yet
  have hnew : ∀ m ∈ s.sent, ¬ Named w (s.time w) m := by
    rintro m hm ⟨rfl, ht⟩
    exact absurd ht (hi.time_lt m hm).2.ne
  have htime : ∀ w', 0 ≤ s'.time w' ∧ s.time w' ≤ s'.time w' := by
    intro w'
    have hw := hi.time_nonneg w'
    rw [time_submit h]
    split
    · rename_i hw'
      rw [← hw']
      omega
    · exact ⟨hw, le_rfl⟩
  refine ⟨fun w' => (htime w').1, ?_, ?_, ?_, ?_, ?_, ?_, ?_, ?_, ?_, ?_, ?_⟩
  · intro m hm
    rcases (mem_sent_submit hp h).mp hm with hm | ⟨-, rfl⟩
    · exact hi.request m hm
    · rfl
  · intro m hm
    rcases (mem_sent_submit hp h).mp hm with hm | ⟨-, rfl⟩
    · obtain ⟨hnonneg, hlt⟩ := hi.time_lt m hm
      exact ⟨hnonneg, hlt.trans_le (htime _).2⟩
    · refine ⟨hi.time_nonneg w, ?_⟩
      rw [time_submit h, if_pos rfl]
      exact lt_add_one _
  · intro m hm m' hm' hnamed
    rcases (mem_sent_submit hp h).mp hm with hm | ⟨-, rfl⟩
    · rcases (mem_sent_submit hp h).mp hm' with hm' | ⟨-, rfl⟩
      · exact hi.unique m hm m' hm' hnamed
      · exact absurd ⟨hnamed.1.symm, hnamed.2.symm⟩ (hnew m hm)
    · rcases (mem_sent_submit hp h).mp hm' with hm' | ⟨-, rfl⟩
      · exact absurd hnamed (hnew m' hm')
      · rfl
  · intro b hb
    rw [hbatches] at hb
    exact (hi.batch b hb).submit h
  · rw [hexec]
    exact fun m hm => hmem (hi.received m hm)
  · rw [hlog]
    exact fun e he => hmem (hi.logged e he)
  · rw [hexec, hlog]
    exact hi.finished
  · rw [hlog]
    exact hi.nodup
  · rw [hlog]
    exact hi.waited
  · rw [hlog]
    exact hi.replay
  · rw [hlog, hstore]
    exact hi.store

omit [DecidableEq N] in
/-- Only the minibatches change. -/
theorem Inv.withBatches (hi : s.Inv conf store₀) {batches : List (Batch N F)}
    (hb : ∀ b ∈ batches, BatchInv conf s b) :
    ({ s with batches } : FirstPass N F).Inv conf store₀ := by
  refine ⟨hi.time_nonneg, hi.request, hi.time_lt, hi.unique, fun b hmem => ?_, hi.received,
    hi.logged, hi.finished, hi.nodup, hi.waited, hi.replay, hi.store⟩
  obtain ⟨h₁, h₂, h₃, h₄, h₅, h₆, h₇⟩ := hb b hmem
  exact ⟨h₁, h₂, h₃, h₄, h₅, h₆, h₇⟩

theorem Inv.push {w : N} {keys : List UInt64} {cnts : List F} (hi : s.Inv conf store₀)
    (hok : Allowed s (.push w keys cnts)) (h : s.step conf (.push w keys cnts) = some s') :
    s'.Inv conf store₀ := by
  obtain ⟨t, ht, rfl⟩ := Option.map_eq_some_iff.mp h
  obtain ⟨p, hp, hbatches, -⟩ := submit_cases ht
  apply (hi.submit ht).withBatches
  intro b hb
  rcases List.mem_append.mp hb with hb | hb
  · exact (hi.batch b hb).submit ht
  · obtain rfl := List.mem_singleton.mp hb
    refine ⟨hok.1, hok.2, hi.time_nonneg w, ?_, by simp, ⟨p, hp, fun hvalid => ?_⟩, by simp⟩
    · show s.time w < t.time w
      rw [time_submit ht, if_pos rfl]
      exact lt_add_one _
    · exact (mem_sent_submit hp ht).mpr (.inr ⟨hvalid, rfl⟩)

theorem Inv.pull {i : ℕ} (hi : s.Inv conf store₀) (h : s.step conf (.pull i) = some s') :
    s'.Inv conf store₀ := by
  simp only [FirstPass.step, Option.bind_eq_bind, Option.bind_eq_some_iff] at h
  obtain ⟨b, hb, h⟩ := h
  split at h
  · simp only [Option.bind_eq_some_iff, Option.pure_def, Option.some.injEq] at h
    obtain ⟨t, ht, rfl⟩ := h
    obtain ⟨p, hp, -⟩ := submit_cases ht
    apply (hi.submit ht).withBatches
    intro b' hb'
    rcases List.mem_or_eq_of_mem_set hb' with hb' | rfl
    · exact (hi.batch b' hb').submit ht
    · have hold := (hi.batch b (List.mem_of_getElem? hb)).submit ht
      refine ⟨hold.sorted, hold.ne_nil, hold.push_nonneg, hold.push_lt, ?_, hold.piece, ?_⟩
      · intro x hx
        obtain rfl := Option.some.inj hx
        show s.time b.worker < t.time b.worker
        rw [time_submit ht, if_pos rfl]
        exact lt_add_one _
      · intro x hx m hm hnamed
        obtain rfl := Option.some.inj hx
        rcases (mem_sent_submit hp ht).mp hm with hm | ⟨hvalid, rfl⟩
        · obtain ⟨hsender, htime⟩ := hnamed
          have hlt := (hi.time_lt m hm).2
          rw [hsender, htime] at hlt
          exact absurd hlt (lt_irrefl _)
        · exact ⟨rfl, p, hp, hvalid, rfl⟩
  · cases h

omit [DecidableEq N] in
/-- The log does not change if only the list of received messages does. -/
theorem Inv.withExec (hi : s.Inv conf store₀) {exec : Executor N (Request F)}
    (hnodes : exec.nodes = s.exec.nodes) (hmsgs : ∀ m ∈ exec.recvMsgs, m ∈ s.sent) :
    ({ s with exec } : FirstPass N F).Inv conf store₀ := by
  refine ⟨hi.time_nonneg, hi.request, hi.time_lt, hi.unique, fun b hmem => ?_, hmsgs,
    hi.logged, ?_, hi.nodup, hi.waited, hi.replay, hi.store⟩
  · obtain ⟨h₁, h₂, h₃, h₄, h₅, h₆, h₇⟩ := hi.batch b hmem
    exact ⟨h₁, h₂, h₃, h₄, h₅, h₆, h₇⟩
  · show ∀ w t, 0 ≤ t → ((exec.nodes w).recv.isFinished t = true ↔ _)
    rw [hnodes]
    exact hi.finished

omit [DecidableEq N] in
theorem Inv.deliver {i : ℕ} (hi : s.Inv conf store₀) {msg : Packet N (Request F)}
    (hmsg : s.sent[i]? = some msg) :
    ({ s with exec := s.exec.accept msg } : FirstPass N F).Inv conf store₀ := by
  apply hi.withExec
  · rfl
  · intro m hm
    rcases List.mem_append.mp hm with hm | hm
    · exact hi.received m hm
    · obtain rfl := List.mem_singleton.mp hm
      exact List.mem_of_getElem? hmsg

/-- **A request is processed.** It is not in the log yet, and all that it waits for is. -/
theorem Inv.process {msg : Packet N (Request F)} (hi : s.Inv conf store₀) (hsent : msg ∈ s.sent)
    (hnew : (s.exec.nodes msg.sender).recv.isFinished msg.time = false)
    (hwait : ∀ ts ∈ msg.waitTime, (s.exec.nodes msg.sender).recv.isFinished ts = true)
    (h : s.process conf msg = some s') : s'.Inv conf store₀ := by
  simp only [FirstPass.process, Option.bind_eq_bind, Option.bind_eq_some_iff, Option.pure_def,
    Option.some.injEq] at h
  obtain ⟨⟨store, reply⟩, hhandle, exec₁, hexec₁, exec₂, hexec₂, rfl⟩ := h
  obtain ⟨hmsgs₁, -, -, hfin₁⟩ := Executor.finishRecvReq_spec hexec₁
  obtain ⟨hmsgs₂, -, -, hfin₂⟩ := Executor.finishRecvReq_spec hexec₂
  have hnonneg := (hi.time_lt msg hsent).1
  obtain ⟨rs, hrs⟩ := hi.store
  have hlast : ∀ (j : ℕ) e, (s.log ++ [⟨msg, reply⟩])[j]? = some e →
      s.log[j]? = some e ∨ j = s.log.length ∧ e = ⟨msg, reply⟩ :=
    fun _ _ he => getElem?_snoc.mp he
  have hkeep : ∀ {i : ℕ} {e}, s.log[i]? = some e → (s.log ++ [⟨msg, reply⟩])[i]? = some e :=
    fun he => getElem?_snoc.mpr (.inl he)
  have htake : ∀ {j : ℕ} {e : LogEntry N F}, j ≤ s.log.length →
      (s.log ++ [e]).take j = s.log.take j :=
    fun hj => List.take_append_of_le_length hj
  refine ⟨hi.time_nonneg, hi.request, hi.time_lt, hi.unique, ?_, ?_, ?_, ?_, ?_, ?_, ?_, ?_⟩
  · intro b hb
    obtain ⟨h₁, h₂, h₃, h₄, h₅, h₆, h₇⟩ := hi.batch b hb
    exact ⟨h₁, h₂, h₃, h₄, h₅, h₆, h₇⟩
  · intro m hm
    rw [hmsgs₂, hmsgs₁] at hm
    exact hi.received m hm
  · intro e he
    rcases List.mem_append.mp he with he | he
    · exact hi.logged e he
    · obtain rfl := List.mem_singleton.mp he
      exact hsent
  · intro w t ht
    rw [hfin₂, hfin₁, ← Bool.or_assoc, Bool.or_self, Bool.or_eq_true, decide_eq_true_eq,
      hi.finished w t ht]
    constructor
    · rintro (⟨rfl, rfl⟩ | ⟨e, he, hnamed⟩)
      · exact ⟨_, List.mem_append_right _ (List.mem_singleton_self _), rfl, rfl⟩
      · exact ⟨e, List.mem_append_left _ he, hnamed⟩
    · rintro ⟨e, he, hsender, htime⟩
      rcases List.mem_append.mp he with he | he
      · exact .inr ⟨e, he, hsender, htime⟩
      · obtain rfl := List.mem_singleton.mp he
        exact .inl ⟨hsender.symm, htime.symm⟩
  · rw [List.map_append, List.nodup_append]
    refine ⟨hi.nodup, List.nodup_singleton _, ?_⟩
    rintro x hx y hy rfl
    obtain ⟨e, he, heq⟩ := List.mem_map.mp hx
    obtain rfl := List.mem_singleton.mp hy
    rw [Prod.mk.injEq] at heq
    have hfin := (hi.finished msg.sender msg.time hnonneg).mpr ⟨e, he, heq.1, heq.2⟩
    rw [hnew] at hfin
    cases hfin
  · intro j e he t ht hpos
    rcases hlast j e he with he | ⟨rfl, rfl⟩
    · obtain ⟨i, hij, e', he', hnamed⟩ := hi.waited j e he t ht hpos
      exact ⟨i, hij, e', hkeep he', hnamed⟩
    · obtain ⟨e', hmem, hnamed⟩ := (hi.finished msg.sender t hpos).mp (hwait t ht)
      obtain ⟨i, he'⟩ := List.mem_iff_getElem?.mp hmem
      exact ⟨i, (List.getElem?_eq_some_iff.mp he').1, e', hkeep he', hnamed⟩
  · intro j e he
    rcases hlast j e he with he | ⟨rfl, rfl⟩
    · rw [htake (List.getElem?_eq_some_iff.mp he).1.le]
      exact hi.replay j e he
    · rw [htake le_rfl, List.take_length]
      exact ⟨s.store, store, rs, hrs, hhandle⟩
  · rw [List.map_append]
    exact ⟨_, AsyncServer.answer_snoc hrs hhandle⟩

theorem Inv.serve (hi : s.Inv conf store₀) (h : s.step conf .serve = some s') :
    s'.Inv conf store₀ := by
  simp only [FirstPass.step] at h
  obtain ⟨hsub, hpick⟩ : (s.exec.pickActiveMsg.2).recvMsgs.Sublist s.exec.recvMsgs ∧
      s.exec.pickActiveMsg.2.nodes = s.exec.nodes :=
    ⟨(Executor.pickLoop_sublist s.exec.nodes s.exec.recvMsgs).2, rfl⟩
  have hexec : ({ s with exec := s.exec.pickActiveMsg.2 } : FirstPass N F).Inv conf store₀ :=
    hi.withExec hpick fun m hm => hi.received m (hsub.subset hm)
  split at h
  · rename_i exec heq
    cases h
    rw [heq] at hexec
    exact hexec
  · rename_i msg exec heq
    obtain ⟨hnodes, hmem, -, -, hreq, -⟩ := Executor.pick_spec heq
    have hsent := hi.received msg hmem
    obtain ⟨hnew, hwait⟩ := hreq (hi.request msg hsent)
    rw [heq] at hexec
    refine hexec.process hsent ?_ ?_ h
    · rw [show (FirstPass.exec { s with exec }).nodes = s.exec.nodes from hnodes]
      exact hnew
    · rw [show (FirstPass.exec { s with exec }).nodes = s.exec.nodes from hnodes]
      exact hwait

theorem inv_of_reach (hr : Reach (step conf) Allowed (start store₀) s) : s.Inv conf store₀ := by
  apply hr.invariant (inv_start conf store₀)
  intro s a s' hi hok hs
  cases a with
  | push w keys cnts => exact hi.push hok hs
  | pull b => exact hi.pull hs
  | grad w keys vals sizes => exact hi.submit hs
  | deliver i =>
      obtain ⟨msg, hmsg, rfl⟩ := Option.map_eq_some_iff.mp hs
      exact hi.deliver hmsg
  | serve => exact hi.serve hs

/-! ## Counts before pulls -/

omit [FloatLike F] in
/-- The keys of a slice. -/
theorem key_of_piece {msg : Message UInt64 F} (hsorted : msg.key.Pairwise (· < ·))
    (hne : msg.key ≠ []) (hrange : msg.keyRange = allKeys) {p : Piece UInt64 F}
    (hp : conf.piece msg = some p) : ∃ kr, conf.krs[conf.server]? = some kr ∧
      p.valid = !(between msg.key kr.begin_ kr.end_).isEmpty ∧
      p.key = between msg.key kr.begin_ kr.end_ := by
  obtain ⟨pieces, hpieces, hpiece⟩ := Option.bind_eq_some_iff.mp hp
  have hkeys := sliceMessage_key hsorted hne (hrange ▸ unbounded_allKeys) conf.le hpieces
  have hget := congrArg (fun l => l[conf.server]?) hkeys
  simp only [List.getElem?_map, hpiece, Option.map_some] at hget
  obtain ⟨kr, hkr, heq⟩ := Option.map_eq_some_iff.mp hget.symm
  rw [Prod.mk.injEq] at heq
  exact ⟨kr, hkr, heq.1.symm, heq.2.symm⟩

/-- **Counts are applied once, and before the pull.** The server processes a request at most
once. Before it processes the pull of a minibatch, it has processed the count push of that
minibatch for the same keys, and the lengths it answers are those of the store after all
requests before the pull. -/
theorem counts_before_pull (conf : ServerConf F) (store₀ : AsyncServer F) (hstore : store₀.Valid)
    (s : FirstPass N F) (hr : Reach (step conf) Allowed (start store₀) s) :
    (s.log.map fun e => (e.msg.sender, e.msg.time)).Nodup ∧
    ∀ b ∈ s.batches, ∀ t ∈ b.pullTime, ∀ (j : ℕ) e, s.log[j]? = some e → Named b.worker t e.msg →
      ∃ p, conf.piece (countMessage b.keys b.cnts) = some p ∧
        (∃ i < j, ∃ e', s.log[i]? = some e' ∧ Named b.worker b.pushTime e'.msg ∧
          e'.msg.body = countRequest p) ∧
        e.msg.body = pullRequest p ∧
        ∃ st rs, store₀.answer conf.handle ((s.log.take j).map fun e => e.msg.body) =
            some (st, rs) ∧
          e.reply.map Response.sizes =
            some (p.key.map fun k => ((st.param k).pull conf.handle).length) := by
  have hi := inv_of_reach hr
  refine ⟨hi.nodup, fun b hb t ht j e he hnamed => ?_⟩
  have hbatch := hi.batch b hb
  have hmem := List.mem_of_getElem? he
  obtain ⟨hwait, q, hq, hvalid, hbody⟩ := hbatch.pull t ht e.msg (hi.logged e hmem) hnamed
  obtain ⟨p, hp, hsent⟩ := hbatch.piece
  -- the two requests have the same keys, so both have a slice for the server
  obtain ⟨kr, hkr, hpvalid, hpkey⟩ := key_of_piece hbatch.sorted hbatch.ne_nil rfl hp
  obtain ⟨kr', hkr', hqvalid, hqkey⟩ := key_of_piece hbatch.sorted hbatch.ne_nil rfl hq
  rw [hkr, Option.some.injEq] at hkr'
  subst hkr'
  have hkey : q.key = p.key := hqkey.trans hpkey.symm
  have hpush := hsent (hpvalid.trans (hqvalid.symm.trans hvalid))
  have hbody' : e.msg.body = pullRequest p := by
    rw [hbody, pullRequest, pullRequest, hkey]
  refine ⟨p, hp, ?_, hbody', ?_⟩
  · obtain ⟨i, hij, e', he', hnamed'⟩ := hi.waited j e he b.pushTime (by rw [hwait]; simp)
      hbatch.push_nonneg
    rw [hnamed.1] at hnamed'
    have hsame := hi.unique _ hpush e'.msg (hi.logged e' (List.mem_of_getElem? he')) hnamed'
    exact ⟨i, hij, e', he', hnamed', by rw [hsame]⟩
  · obtain ⟨st, st', rs, hanswer, hhandle⟩ := hi.replay j e he
    refine ⟨st, rs, hanswer, ?_⟩
    have hst : st.Valid :=
      AsyncServer.answer_invariant (fun _ _ _ _ hv hh => hv.handle hh) hstore hanswer
    obtain ⟨st'', hpull⟩ := handlePull_eq (h := conf.handle) hst p.key
    rw [hbody', pullRequest, AsyncServer.handle, hpull, Option.map_some, Option.some.injEq,
      Prod.mk.injEq] at hhandle
    rw [← hhandle.2, Option.map_some, List.map_map]
    rfl

instance (s : FirstPass N F) (a : Act N F) : Decidable (Allowed s a) :=
  match a with
  | .push _ _ _ => inferInstanceAs (Decidable (_ ∧ _))
  | .pull _ | .grad _ _ _ _ | .deliver _ | .serve => inferInstanceAs (Decidable True)

theorem begin_le_end_secondServer :
    ∀ kr ∈ ([{ begin_ := 0, end_ := 5 }, { begin_ := 5, end_ := maxIndex }] : List (Range UInt64)),
      kr.begin_ ≤ kr.end_ := by
  decide

/-- The second of two servers. -/
def secondServer : ServerConf Binary32 where
  krs := [{ begin_ := 0, end_ := 5 }, { begin_ := 5, end_ := maxIndex }]
  le := begin_le_end_secondServer
  server := 1
  handle := sampleHandle 1 sampleDim_lt

/-- The pull arrives first and has to wait; the count push arrives twice. -/
def pullFirst : List (Act String Binary32) :=
  [.push "W" [3, 7] [one, one + one], .pull 0, .deliver 1, .serve, .deliver 0, .deliver 0, .serve,
    .serve, .serve]

theorem counts_before_pull_pullFirst : ∃ s : FirstPass String Binary32,
    Reach (step secondServer) Allowed (start (AsyncServer.init sampleStat)) s ∧
    s.log.map (fun e => e.msg.time) = [0, 1] ∧
    ∃ e st, s.log[1]? = some e ∧ e.reply.map Response.sizes =
      some [((AsyncServer.param st 7).pull secondServer.handle).length] := by
  have hrun : (runs (fun s a => if Allowed s a then step secondServer s a else none)
      (start (AsyncServer.init sampleStat)) pullFirst).any (fun s =>
        decide (s.log.map (fun e => e.msg.time) = [0, 1]) &&
        s.log.all (fun e => decide (e.msg.sender = "W")) &&
        s.batches.any (fun b => decide (b.worker = "W" ∧ b.pullTime = some 1 ∧ b.keys = [3, 7]))) =
          true := by
    decide +kernel
  obtain ⟨s, hr, htest⟩ := Reach.exists_of_runs hrun
  simp only [Bool.and_eq_true, decide_eq_true_eq, List.any_eq_true, List.all_eq_true] at htest
  obtain ⟨⟨htimes, hsender⟩, b, hb, hworker, hpull, hkeys⟩ := htest
  have hlog := congrArg (fun l => l[1]?) htimes
  rw [List.getElem?_map] at hlog
  obtain ⟨e, he, htime⟩ := Option.map_eq_some_iff.mp hlog
  have hnamed : Named b.worker 1 e.msg :=
    ⟨(hsender e (List.mem_of_getElem? he)).trans hworker.symm, htime⟩
  obtain ⟨-, hbatches⟩ := counts_before_pull secondServer _ (AsyncServer.valid_init sampleStat) s hr
  obtain ⟨p, hp, -, -, st, rs, -, hsizes⟩ := hbatches b hb 1 (by rw [hpull]; rfl) 1 e he hnamed
  obtain ⟨kr, hkr, -, hkey⟩ := key_of_piece (show b.keys.Pairwise (· < ·) by rw [hkeys]; decide)
    (show b.keys ≠ [] by rw [hkeys]; decide) rfl hp
  obtain rfl := Option.some.inj hkr
  have hseven : p.key = [7] := by
    rw [hkey]
    show between b.keys 5 maxIndex = [7]
    rw [hkeys]
    decide
  refine ⟨s, hr, htimes, e, st, he, ?_⟩
  rw [hsizes, hseven]
  rfl

end FirstPass

end Difacto.System
