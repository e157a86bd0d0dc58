import Difacto.Lib.Reach
import Mathlib.Data.List.Range
import Mathlib.Tactic.Cases

/-!
# An iterator that is backed by a thread

`ThreadedIter` of `dmlc-core/include/dmlc/threadediter.h`: a thread calls the closure `next` and
puts the cells that it fills into a bounded queue, and one consumer takes them out, hands them back
and rewinds the thread. What either of them does while it holds `mutex_` is one step, and the steps
of the two come in any order. Between two steps stand the call of `next`, which writes
`produce_end_` without the lock, the notifications, which are sent after the lock is released, and
the sleep on a condition variable, which may also end without a notification.

A cell is an address and what the data at the address holds. The closures that the repository
hands to `Init` allocate a cell when they get `NULL`, and fill the cell they get otherwise. A failed
`CHECK` sets `failed`, and then no step is left.

## Main definitions

* `Producer` — the closures.
* `ThreadedIter` — the members, where the two threads are, and the history.
* `ThreadedIter.step` — one step of either thread.

## Main results

* `ThreadedIter.step_turn` — what the steps do.
* `ThreadedIter.reach_inv` — no `CHECK` fails and no notification is lost.
* `ThreadedIter.calls_return` — every call of the consumer returns.
-/

namespace Difacto.Io

open Lib (Reach anyStep runs)

variable {S T : Type}

/-! ## The threads -/

/-- The closures that `Init` gets, over what they capture. -/
structure Producer (S T : Type) where
  /-- what a new cell holds -/
  fresh : T
  /-- fill a cell: whether there is a record, and the cell; nothing when the program ends -/
  next : S → T → Option (Bool × T × S)
  beforeFirst : S → S

/-- The closures do not end the program while `I` holds, which they keep. -/
structure Producer.Keeps (p : Producer S T) (I : S → Prop) : Prop where
  next : ∀ source data, I source → ∃ r, p.next source data = some r ∧ I r.2.2
  beforeFirst : ∀ source, I source → I (p.beforeFirst source)

/-- A cell in the heap. -/
structure Cell (T : Type) where
  addr : ℕ
  data : T
  deriving DecidableEq

/-- `Signal` -/
inductive Signal
  | produce
  | beforeFirst
  | destroy
  deriving DecidableEq

/-- Where the thread of the producer is. -/
inductive ProducerAt (T : Type)
  /-- at the top of its loop -/
  | top
  /-- in `producer_cond_.wait` -/
  | asleep
  /-- awake, and about to lock `mutex_` again -/
  | woken
  /-- about to call `next` with this cell -/
  | next (cell : Option (Cell T))
  /-- about to lock `mutex_` with the cell that `next` returned -/
  | produced (cell : Cell T)
  /-- about to call `consumer_cond_.notify_all` -/
  | notifying
  | returned
  deriving DecidableEq

/-- What `nwait_producer_` counts. -/
@[grind] def ProducerAt.waits : ProducerAt T → ℕ
  | .asleep | .woken => 1
  | _ => 0

/-- How far the producer is from the top of its loop. -/
def ProducerAt.work : ProducerAt T → ℕ
  | .asleep | .returned => 0
  | .top | .woken => 1
  | .notifying => 3
  | .produced _ => 4
  | .next _ => 5

/-- The cells in the hands of the producer. -/
def ProducerAt.hand : ProducerAt T → ℕ
  | .next _ | .produced _ => 1
  | _ => 0

/-- Where `Next` puts its cell. -/
inductive Dest
  /-- `out_data_` -/
  | outData
  /-- a pointer of the caller -/
  | caller
  deriving DecidableEq

/-- Where the consumer is. -/
inductive ConsumerAt
  /-- outside the iterator -/
  | outside
  /-- about to call `producer_cond_.notify_one`, and then to return or to go on to `Next` -/
  | notifying (dest : Option Dest)
  /-- at the beginning of `Next` -/
  | next (dest : Dest)
  /-- in the wait of `Next` -/
  | nextAsleep (dest : Dest)
  | nextWoken (dest : Dest)
  /-- in the wait of `BeforeFirst` -/
  | beforeFirstAsleep
  | beforeFirstWoken
  /-- in `producer_thread_->join` -/
  | joining
  deriving DecidableEq

/-- What `nwait_consumer_` counts. -/
@[grind] def ConsumerAt.waits : ConsumerAt → ℕ
  | .nextAsleep _ | .nextWoken _ => 1
  | _ => 0

/-- The consumer waits in `BeforeFirst`. -/
@[grind] def ConsumerAt.Rewinds (c : ConsumerAt) : Prop :=
  c = .beforeFirstAsleep ∨ c = .beforeFirstWoken

/-- How far the consumer is from the end of its call. A cell that it takes makes room for another
one. -/
def ConsumerAt.work : ConsumerAt → ℕ
  | .outside => 0
  | .joining => 1
  | .notifying none | .beforeFirstAsleep => 2
  | .beforeFirstWoken => 3
  | .nextAsleep _ => 7
  | .nextWoken _ => 8
  | .next _ => 9
  | .notifying (some _) => 12

/-- `ThreadedIter` -/
structure ThreadedIter (S T : Type) where
  /-- what the closures of the producer work on -/
  source : S
  maxCapacity : ℕ
  producerSig : Signal := .produce
  producerSigProcessed : Bool := false
  /-- `producer_thread_` is not `NULL` -/
  hasThread : Bool := true
  produceEnd : Bool := false
  nwaitConsumer : ℕ := 0
  nwaitProducer : ℕ := 0
  outData : Option (Cell T) := none
  queue : List (Cell T) := []
  freeCells : List (Cell T) := []
  producer : ProducerAt T := .top
  consumer : ConsumerAt := .outside
  failed : Bool := false
  /-- the cells that the caller of `Next` has -/
  held : List (Cell T) := []
  /-- how many cells were allocated -/
  allocated : ℕ := 0
  /-- the addresses of the cells that were deleted -/
  deleted : List ℕ := []
  /-- `source` when it was rewound last, or in the beginning -/
  origin : S
  /-- what the calls of `Next` returned since then, `none` for false -/
  results : List (Option T) := []

namespace ThreadedIter

/-- A call of the consumer. -/
inductive Call (T : Type)
  /-- `Next(&dptr)` -/
  | next
  /-- `Next()`, which keeps the cell in `out_data_` -/
  | nextValue
  /-- `Recycle` of a cell, in which the caller has left these data -/
  | recycle (i : ℕ) (data : T)
  | beforeFirst
  | destroy

/-- A step: the consumer makes a call, a thread goes on, or a thread wakes up by itself. -/
inductive Act (T : Type)
  | call (c : Call T)
  | consumer
  | producer
  | wakeConsumer
  | wakeProducer

/-- The constructor and `Init`. -/
def init (maxCapacity : ℕ) (source : S) : ThreadedIter S T :=
  { source, maxCapacity, origin := source }

/-- `producer_cond_.notify_one()` -/
def notifyProducer (s : ThreadedIter S T) : ThreadedIter S T :=
  { s with producer := if s.producer matches .asleep then .woken else s.producer }

/-- `consumer_cond_.notify_all()` -/
def notifyConsumer (s : ThreadedIter S T) : ThreadedIter S T :=
  { s with
    consumer := match s.consumer with
      | .nextAsleep dest => .nextWoken dest
      | .beforeFirstAsleep => .beforeFirstWoken
      | c => c }

/-! ## The producer -/

/-- What the producer waits for. -/
@[grind] def canProduce (s : ThreadedIter S T) : Bool :=
  match s.producerSig with
  | .produce => !s.produceEnd && (decide (s.queue.length < s.maxCapacity) || !s.freeCells.isEmpty)
  | _ => true

/-- The rest of the first lock scope of the producer, once its wait is over. -/
def afterWait (p : Producer S T) (s : ThreadedIter S T) : ThreadedIter S T :=
  match s.producerSig with
  | .produce =>
    match s.freeCells with
    | [] => { s with producer := .next none }
    | cell :: freeCells => { s with freeCells, producer := .next (some cell) }
  | .beforeFirst =>
    { s with
      source := p.beforeFirst s.source
      freeCells := s.freeCells ++ s.queue
      queue := []
      produceEnd := false
      producerSigProcessed := true
      producerSig := .produce
      producer := .notifying
      origin := p.beforeFirst s.source
      results := [] }
  | .destroy =>
    notifyConsumer
      { s with producerSigProcessed := true, produceEnd := true, producer := .returned }

/-- One step of `producer_fun`. -/
def producerStep (p : Producer S T) (s : ThreadedIter S T) : Option (ThreadedIter S T) :=
  match s.producer with
  | .top =>
    if s.canProduce then some (afterWait p s)
    else some { s with nwaitProducer := s.nwaitProducer + 1, producer := .asleep }
  | .asleep => none
  | .woken =>
    if s.canProduce then some (afterWait p { s with nwaitProducer := s.nwaitProducer - 1 })
    else some { s with producer := .asleep }
  | .next none =>
    (p.next s.source p.fresh).map fun (more, data, source) =>
      { s with source, produceEnd := !more, allocated := s.allocated + 1,
               producer := .produced ⟨s.allocated, data⟩ }
  | .next (some cell) =>
    (p.next s.source cell.data).map fun (more, data, source) =>
      { s with source, produceEnd := !more, producer := .produced ⟨cell.addr, data⟩ }
  | .produced cell =>
    let producer := if s.nwaitConsumer ≠ 0 then .notifying else .top
    if s.produceEnd then some { s with freeCells := s.freeCells ++ [cell], producer }
    else some { s with queue := s.queue ++ [cell], producer }
  | .notifying => some (notifyConsumer { s with producer := .top })
  | .returned => none

/-! ## The consumer -/

/-- A lock scope of the consumer ends with `notify = nwait_producer_ != 0 && !produce_end_`. -/
def release (s : ThreadedIter S T) (dest : Option Dest) : ConsumerAt :=
  if s.nwaitProducer ≠ 0 ∧ s.produceEnd = false then .notifying dest
  else match dest with
    | none => .outside
    | some dest => .next dest

/-- The rest of `Next`, once its wait is over. -/
def take (dest : Dest) (s : ThreadedIter S T) : ThreadedIter S T :=
  match s.queue with
  | cell :: queue =>
    { s with
      queue
      outData := if dest = .outData then some cell else s.outData
      held := if dest = .caller then s.held ++ [cell] else s.held
      results := s.results ++ [some cell.data]
      consumer := s.release none }
  | [] =>
    if s.produceEnd then { s with results := s.results ++ [none], consumer := .outside }
    else { s with failed := true }

/-- What `Next` waits for. -/
@[grind] def canTake (s : ThreadedIter S T) : Bool := !s.queue.isEmpty || s.produceEnd

/-- The end of `Destroy`: the cells that the iterator has are deleted. -/
def deleteCells (s : ThreadedIter S T) : ThreadedIter S T :=
  { s with
    deleted := s.deleted ++ (s.freeCells ++ s.queue ++ s.outData.toList).map Cell.addr
    freeCells := []
    queue := []
    outData := none }

/-- One step of the call in which the consumer is. -/
def consumerStep (s : ThreadedIter S T) : Option (ThreadedIter S T) :=
  match s.consumer with
  | .outside => none
  | .notifying none => some (notifyProducer { s with consumer := .outside })
  | .notifying (some dest) => some (notifyProducer { s with consumer := .next dest })
  | .next dest =>
    if s.producerSig = .destroy then
      some { s with results := s.results ++ [none], consumer := .outside }
    else if s.producerSig ≠ .produce then some { s with failed := true }
    else if s.canTake then some (s.take dest)
    else some { s with nwaitConsumer := s.nwaitConsumer + 1, consumer := .nextAsleep dest }
  | .nextAsleep _ => none
  | .nextWoken dest =>
    if s.canTake then some (take dest { s with nwaitConsumer := s.nwaitConsumer - 1 })
    else some { s with consumer := .nextAsleep dest }
  | .beforeFirstAsleep => none
  | .beforeFirstWoken =>
    if s.producerSigProcessed then
      some { s with producerSigProcessed := false, consumer := s.release none }
    else some { s with consumer := .beforeFirstAsleep }
  | .joining =>
    if s.producer matches .returned then
      some (deleteCells { s with hasThread := false, consumer := .outside })
    else none

/-- What a call does up to the first place where it may stop. -/
def call (s : ThreadedIter S T) : Call T → Option (ThreadedIter S T)
  | .next => some { s with consumer := .next .caller }
  | .nextValue =>
    match s.outData with
    | none => some { s with consumer := .next .outData }
    | some cell =>
      some { s with
        outData := none
        freeCells := s.freeCells ++ [cell]
        consumer := s.release (some .outData) }
  | .recycle i data =>
    s.held[i]?.map fun cell =>
      { s with
        held := s.held.eraseIdx i
        freeCells := s.freeCells ++ [⟨cell.addr, data⟩]
        consumer := s.release none }
  | .beforeFirst =>
    let s := { s with freeCells := s.freeCells ++ s.outData.toList, outData := none }
    if s.producerSig = .destroy then some s
    else if s.producerSigProcessed then some { s with failed := true }
    else
      let s := { s with producerSig := .beforeFirst, consumer := .beforeFirstAsleep }
      some (if s.nwaitProducer ≠ 0 then s.notifyProducer else s)
  | .destroy =>
    if s.hasThread then
      let s := { s with producerSig := .destroy, consumer := .joining }
      some (if s.nwaitProducer ≠ 0 then s.notifyProducer else s)
    else some s.deleteCells

/-- One step. -/
def step (p : Producer S T) (s : ThreadedIter S T) (a : Act T) : Option (ThreadedIter S T) :=
  if s.failed then none
  else match a with
    | .call c => if s.consumer = .outside then s.call c else none
    | .consumer => s.consumerStep
    | .producer => s.producerStep p
    | .wakeConsumer =>
      if s.notifyConsumer.consumer = s.consumer then none else some s.notifyConsumer
    | .wakeProducer => if s.producer matches .asleep then some s.notifyProducer else none

/-! ## What the steps do -/

/-- The producer leaves its wait: it is awake, and `nwait_producer_` counts it no longer. -/
def LeavesWait (s : ThreadedIter S T) (nwaitProducer : ℕ) : Prop :=
  s.producer = .top ∧ nwaitProducer = s.nwaitProducer ∨
    s.producer = .woken ∧ nwaitProducer = s.nwaitProducer - 1

/-- The consumer leaves the wait of `Next`, or does not wait at all. -/
def LeavesNext (s : ThreadedIter S T) (dest : Dest) (nwaitConsumer : ℕ) : Prop :=
  s.consumer = .next dest ∧ s.producerSig = .produce ∧ nwaitConsumer = s.nwaitConsumer ∨
    s.consumer = .nextWoken dest ∧ nwaitConsumer = s.nwaitConsumer - 1

/-- The transitions, one for each way through the code. -/
inductive Turn (p : Producer S T) (s : ThreadedIter S T) : Act T → ThreadedIter S T → Prop
  | sleep : s.producer = .top → s.canProduce = false →
      Turn p s .producer { s with nwaitProducer := s.nwaitProducer + 1, producer := .asleep }
  | sleepAgain : s.producer = .woken → s.canProduce = false →
      Turn p s .producer { s with producer := .asleep }
  | allocate {n : ℕ} : s.LeavesWait n → s.producerSig = .produce → s.produceEnd = false →
      s.queue.length < s.maxCapacity → s.freeCells = [] →
      Turn p s .producer { s with nwaitProducer := n, producer := .next none }
  | reuse {n : ℕ} {cell : Cell T} {freeCells : List (Cell T)} : s.LeavesWait n →
      s.producerSig = .produce → s.produceEnd = false → s.freeCells = cell :: freeCells →
      Turn p s .producer { s with nwaitProducer := n, freeCells, producer := .next (some cell) }
  | rewind {n : ℕ} : s.LeavesWait n → s.producerSig = .beforeFirst →
      Turn p s .producer
        { s with
          nwaitProducer := n
          source := p.beforeFirst s.source
          freeCells := s.freeCells ++ s.queue
          queue := []
          produceEnd := false
          producerSigProcessed := true
          producerSig := .produce
          producer := .notifying
          origin := p.beforeFirst s.source
          results := [] }
  | quit {n : ℕ} : s.LeavesWait n → s.producerSig = .destroy →
      Turn p s .producer
        (notifyConsumer { s with nwaitProducer := n, producerSigProcessed := true,
                                 produceEnd := true, producer := .returned })
  | fillNew {more : Bool} {data : T} {source : S} : s.producer = .next none →
      p.next s.source p.fresh = some (more, data, source) →
      Turn p s .producer
        { s with source, produceEnd := !more, allocated := s.allocated + 1,
                 producer := .produced ⟨s.allocated, data⟩ }
  | fill {cell : Cell T} {more : Bool} {data : T} {source : S} : s.producer = .next (some cell) →
      p.next s.source cell.data = some (more, data, source) →
      Turn p s .producer
        { s with source, produceEnd := !more, producer := .produced ⟨cell.addr, data⟩ }
  | push {cell : Cell T} : s.producer = .produced cell → s.produceEnd = false →
      Turn p s .producer
        { s with queue := s.queue ++ [cell],
                 producer := if s.nwaitConsumer ≠ 0 then .notifying else .top }
  | finish {cell : Cell T} : s.producer = .produced cell → s.produceEnd = true →
      Turn p s .producer
        { s with freeCells := s.freeCells ++ [cell],
                 producer := if s.nwaitConsumer ≠ 0 then .notifying else .top }
  | tell : s.producer = .notifying → Turn p s .producer (notifyConsumer { s with producer := .top })
  | told : s.consumer = .notifying none →
      Turn p s .consumer (notifyProducer { s with consumer := .outside })
  | toldOn {dest : Dest} : s.consumer = .notifying (some dest) →
      Turn p s .consumer (notifyProducer { s with consumer := .next dest })
  | refuse {dest : Dest} : s.consumer = .next dest → s.producerSig = .destroy →
      Turn p s .consumer { s with results := s.results ++ [none], consumer := .outside }
  | clash {dest : Dest} : s.consumer = .next dest → s.producerSig = .beforeFirst →
      Turn p s .consumer { s with failed := true }
  | await {dest : Dest} : s.consumer = .next dest → s.producerSig = .produce → s.queue = [] →
      s.produceEnd = false →
      Turn p s .consumer
        { s with nwaitConsumer := s.nwaitConsumer + 1, consumer := .nextAsleep dest }
  | awaitAgain {dest : Dest} : s.consumer = .nextWoken dest → s.queue = [] →
      s.produceEnd = false → Turn p s .consumer { s with consumer := .nextAsleep dest }
  | take {dest : Dest} {n : ℕ} {cell : Cell T} {queue : List (Cell T)} : s.LeavesNext dest n →
      s.queue = cell :: queue →
      Turn p s .consumer
        { s with
          nwaitConsumer := n
          queue
          outData := if dest = .outData then some cell else s.outData
          held := if dest = .caller then s.held ++ [cell] else s.held
          results := s.results ++ [some cell.data]
          consumer := s.release none }
  | ended {dest : Dest} {n : ℕ} : s.LeavesNext dest n → s.queue = [] → s.produceEnd = true →
      Turn p s .consumer
        { s with nwaitConsumer := n, results := s.results ++ [none], consumer := .outside }
  | rewound : s.consumer = .beforeFirstWoken → s.producerSigProcessed = true →
      Turn p s .consumer { s with producerSigProcessed := false, consumer := s.release none }
  | rewindAgain : s.consumer = .beforeFirstWoken → s.producerSigProcessed = false →
      Turn p s .consumer { s with consumer := .beforeFirstAsleep }
  | joined : s.consumer = .joining → s.producer = .returned →
      Turn p s .consumer (deleteCells { s with hasThread := false, consumer := .outside })
  | callNext : s.consumer = .outside → Turn p s (.call .next) { s with consumer := .next .caller }
  | callValue : s.consumer = .outside → s.outData = none →
      Turn p s (.call .nextValue) { s with consumer := .next .outData }
  | recycleValue {cell : Cell T} : s.consumer = .outside → s.outData = some cell →
      Turn p s (.call .nextValue)
        { s with outData := none, freeCells := s.freeCells ++ [cell],
                 consumer := s.release (some .outData) }
  | recycle {i : ℕ} {cell : Cell T} {data : T} : s.consumer = .outside → s.held[i]? = some cell →
      Turn p s (.call (.recycle i data))
        { s with held := s.held.eraseIdx i, freeCells := s.freeCells ++ [⟨cell.addr, data⟩],
                 consumer := s.release none }
  | lateBeforeFirst : s.consumer = .outside → s.producerSig = .destroy →
      Turn p s (.call .beforeFirst)
        { s with freeCells := s.freeCells ++ s.outData.toList, outData := none }
  | badBeforeFirst : s.consumer = .outside → s.producerSig ≠ .destroy →
      s.producerSigProcessed = true →
      Turn p s (.call .beforeFirst)
        { s with freeCells := s.freeCells ++ s.outData.toList, outData := none, failed := true }
  | beforeFirst {producer : ProducerAt T} : s.consumer = .outside → s.producerSig ≠ .destroy →
      s.producerSigProcessed = false →
      producer = (if s.nwaitProducer ≠ 0 then s.notifyProducer.producer else s.producer) →
      Turn p s (.call .beforeFirst)
        { s with freeCells := s.freeCells ++ s.outData.toList, outData := none,
                 producerSig := .beforeFirst, consumer := .beforeFirstAsleep, producer }
  | destroy {producer : ProducerAt T} : s.consumer = .outside → s.hasThread = true →
      producer = (if s.nwaitProducer ≠ 0 then s.notifyProducer.producer else s.producer) →
      Turn p s (.call .destroy)
        { s with producerSig := .destroy, consumer := .joining, producer }
  | destroyAgain : s.consumer = .outside → s.hasThread = false →
      Turn p s (.call .destroy) s.deleteCells
  | wakeNext {dest : Dest} : s.consumer = .nextAsleep dest →
      Turn p s .wakeConsumer { s with consumer := .nextWoken dest }
  | wakeBeforeFirst : s.consumer = .beforeFirstAsleep →
      Turn p s .wakeConsumer { s with consumer := .beforeFirstWoken }
  | wakeProducer : s.producer = .asleep →
      Turn p s .wakeProducer { s with producer := .woken }

variable {p : Producer S T} {s s' : ThreadedIter S T} {a : Act T}

theorem afterWait_turn {t : ThreadedIter S T} {n : ℕ} (hn : s.LeavesWait n)
    (h : s.canProduce = true) (ht : t = { s with nwaitProducer := n }) :
    Turn p s .producer (afterWait p t) := by
  have hsig : t.producerSig = s.producerSig := by rw [ht]
  have hfree : t.freeCells = s.freeCells := by rw [ht]
  unfold canProduce at h
  unfold afterWait
  split
  · next hproduce =>
    rw [hsig] at hproduce
    simp only [hproduce, Bool.and_eq_true, Bool.not_eq_true', Bool.or_eq_true,
      decide_eq_true_eq] at h
    split
    · next hnil =>
      rw [hfree] at hnil
      subst ht
      exact .allocate hn hproduce h.1 (by simpa [hnil] using h.2) hnil
    · next hcons =>
      rw [hfree] at hcons
      subst ht
      exact .reuse hn hproduce h.1 hcons
  · next hrewind =>
    rw [hsig] at hrewind
    subst ht
    exact .rewind hn hrewind
  · next hdestroy =>
    rw [hsig] at hdestroy
    subst ht
    exact .quit hn hdestroy

theorem producerStep_turn (h : s.producerStep p = some s') : Turn p s .producer s' := by
  unfold producerStep at h
  split at h
  case h_1 hat =>
    split at h
    · next hcan => exact Option.some.inj h ▸ afterWait_turn (.inl ⟨hat, rfl⟩) hcan rfl
    · next hcan => exact Option.some.inj h ▸ .sleep hat (by simpa using hcan)
  case h_2 => cases h
  case h_3 hat =>
    split at h
    · next hcan => exact Option.some.inj h ▸ afterWait_turn (.inr ⟨hat, rfl⟩) hcan rfl
    · next hcan => exact Option.some.inj h ▸ .sleepAgain hat (by simpa using hcan)
  case h_4 hat =>
    obtain ⟨⟨more, data, source⟩, hnext, rfl⟩ := Option.map_eq_some_iff.mp h
    exact .fillNew hat hnext
  case h_5 cell hat =>
    obtain ⟨⟨more, data, source⟩, hnext, rfl⟩ := Option.map_eq_some_iff.mp h
    exact .fill hat hnext
  case h_6 cell hat =>
    by_cases hend : s.produceEnd = true
    · simp only [if_pos hend] at h
      exact Option.some.inj h ▸ .finish hat hend
    · simp only [if_neg hend] at h
      exact Option.some.inj h ▸ .push hat (by simpa using hend)
  case h_7 hat => exact Option.some.inj h ▸ .tell hat
  case h_8 => cases h

theorem take_turn {t : ThreadedIter S T} {dest : Dest} {n : ℕ} (hn : s.LeavesNext dest n)
    (h : s.canTake = true) (ht : t = { s with nwaitConsumer := n }) :
    Turn p s .consumer (take dest t) := by
  have hqueue : t.queue = s.queue := by rw [ht]
  have hend : t.produceEnd = s.produceEnd := by rw [ht]
  unfold take
  split
  · next hcons =>
    rw [hqueue] at hcons
    subst ht
    exact .take hn hcons
  · next hnil =>
    rw [hqueue] at hnil
    have hover : s.produceEnd = true := by simpa [canTake, hnil] using h
    rw [if_pos (hend.trans hover)]
    subst ht
    exact .ended hn hnil hover

theorem consumerStep_turn (h : s.consumerStep = some s') : Turn p s .consumer s' := by
  have hwait : s.canTake ≠ true → s.queue = [] ∧ s.produceEnd = false := by
    simp [canTake]
  unfold consumerStep at h
  split at h
  case h_1 => cases h
  case h_2 hat => exact Option.some.inj h ▸ .told hat
  case h_3 hat => exact Option.some.inj h ▸ .toldOn hat
  case h_4 dest hat =>
    split at h
    · next hsig => exact Option.some.inj h ▸ .refuse hat hsig
    split at h
    · next hdestroy hsig =>
      exact Option.some.inj h ▸ .clash hat (by cases hs : s.producerSig <;> simp_all)
    · next hsig =>
      have hsig' : s.producerSig = .produce := not_not.mp hsig
      split at h
      · next hcan => exact Option.some.inj h ▸ take_turn (.inl ⟨hat, hsig', rfl⟩) hcan rfl
      · next hcan =>
        exact Option.some.inj h ▸ .await hat hsig' (hwait hcan).1 (hwait hcan).2
  case h_5 => cases h
  case h_6 dest hat =>
    split at h
    · next hcan => exact Option.some.inj h ▸ take_turn (.inr ⟨hat, rfl⟩) hcan rfl
    · next hcan => exact Option.some.inj h ▸ .awaitAgain hat (hwait hcan).1 (hwait hcan).2
  case h_7 => cases h
  case h_8 hat =>
    split at h
    · next hdone => exact Option.some.inj h ▸ .rewound hat hdone
    · next hdone => exact Option.some.inj h ▸ .rewindAgain hat (by simpa using hdone)
  case h_9 hat =>
    split at h
    · next hreturned =>
      have hp : s.producer = .returned := by cases hp : s.producer <;> simp_all
      exact Option.some.inj h ▸ .joined hat hp
    · cases h

theorem call_turn {c : Call T} (hat : s.consumer = .outside) (h : s.call c = some s') :
    Turn p s (.call c) s' := by
  unfold call at h
  split at h
  case h_1 => exact Option.some.inj h ▸ .callNext hat
  case h_2 =>
    split at h
    · next hout => exact Option.some.inj h ▸ .callValue hat hout
    · next cell hout => exact Option.some.inj h ▸ .recycleValue hat hout
  case h_3 i data =>
    obtain ⟨cell, hcell, rfl⟩ := Option.map_eq_some_iff.mp h
    exact .recycle hat hcell
  case h_4 =>
    simp only at h
    split at h
    · next hsig => exact Option.some.inj h ▸ .lateBeforeFirst hat hsig
    · next hsig =>
      split at h
      · next hdone => exact Option.some.inj h ▸ .badBeforeFirst hat hsig hdone
      · next hdone =>
        obtain rfl := Option.some.inj h
        split
        · next hwait =>
          exact .beforeFirst hat hsig (by simpa using hdone) (by rw [if_pos hwait]; rfl)
        · next hwait =>
          exact .beforeFirst hat hsig (by simpa using hdone) (by rw [if_neg hwait])
  case h_5 =>
    split at h
    · next hthread =>
      obtain rfl := Option.some.inj h
      simp only
      split
      · next hwait => exact .destroy hat hthread (by rw [if_pos hwait]; rfl)
      · next hwait => exact .destroy hat hthread (by rw [if_neg hwait])
    · next hthread => exact Option.some.inj h ▸ .destroyAgain hat (by simpa using hthread)

/-- **What a step does.** -/
theorem step_turn (h : step p s a = some s') : s.failed = false ∧ Turn p s a s' := by
  unfold step at h
  split at h
  · cases h
  · next hfailed =>
    refine ⟨by simpa using hfailed, ?_⟩
    cases a with
    | call c =>
      simp only at h
      split at h
      · next hat => exact call_turn hat h
      · cases h
    | consumer => exact consumerStep_turn h
    | producer => exact producerStep_turn h
    | wakeConsumer =>
      simp only at h
      split at h
      · cases h
      · next hne =>
        obtain rfl := Option.some.inj h
        cases hat : s.consumer with
        | nextAsleep dest => simpa [notifyConsumer, hat] using Turn.wakeNext (p := p) hat
        | beforeFirstAsleep => simpa [notifyConsumer, hat] using Turn.wakeBeforeFirst (p := p) hat
        | _ => simp [notifyConsumer, hat] at hne
    | wakeProducer =>
      simp only at h
      split at h
      · next hasleep =>
        have hat : s.producer = .asleep := by cases hat : s.producer <;> simp_all
        obtain rfl := Option.some.inj h
        simpa [notifyProducer, hat] using Turn.wakeProducer (p := p) hat
      · cases h

/-! ## The protocol of the two threads -/

/-- Who waits for what. A thread that sleeps while it could go on is about to be notified. -/
structure Inv (s : ThreadedIter S T) : Prop where
  failed : s.failed = false
  nwaitProducer : s.nwaitProducer = s.producer.waits
  nwaitConsumer : s.nwaitConsumer = s.consumer.waits
  filling : ∀ cell, s.producer = .next cell → s.produceEnd = false
  produce : s.producerSig = .produce → s.producer ≠ .returned ∧ s.consumer ≠ .joining ∧
    s.hasThread = true ∧ (s.producerSigProcessed = true ↔ s.consumer.Rewinds)
  beforeFirst : s.producerSig = .beforeFirst → s.producer ≠ .returned ∧ s.producer ≠ .asleep ∧
    s.hasThread = true ∧ s.producerSigProcessed = false ∧ s.consumer.Rewinds
  destroy : s.producerSig = .destroy → s.producer ≠ .asleep ∧
    (s.consumer = .joining ∧ s.hasThread = true ∨
      s.producer = .returned ∧ s.hasThread = false ∧
        (s.consumer = .outside ∨ ∃ dest, s.consumer = .next dest))
  asleep : s.producer = .asleep → s.canProduce = false ∨ ∃ dest, s.consumer = .notifying dest
  nextAsleep : ∀ dest, s.consumer = .nextAsleep dest →
    s.canTake = false ∨ s.producer = .notifying ∨ ∃ cell, s.producer = .produced cell
  beforeFirstAsleep : s.consumer = .beforeFirstAsleep →
    s.producerSigProcessed = false ∨ s.producer = .notifying

/-- Outside `BeforeFirst` and `Destroy` the producer is to produce, or it is gone. -/
theorem Inv.signal (hs : s.Inv) (hrewinds : ¬ s.consumer.Rewinds)
    (hjoining : s.consumer ≠ .joining) :
    s.producerSig = .produce ∧ s.producer ≠ .returned ∧ s.hasThread = true ∧
        s.producerSigProcessed = false ∨
      s.producerSig = .destroy ∧ s.producer = .returned ∧ s.hasThread = false ∧
        (s.consumer = .outside ∨ ∃ dest, s.consumer = .next dest) := by
  cases hsig : s.producerSig with
  | produce =>
    obtain ⟨hreturned, -, hthread, hdone⟩ := hs.produce hsig
    exact .inl ⟨rfl, hreturned, hthread, by simpa [hrewinds] using hdone⟩
  | beforeFirst => exact absurd (hs.beforeFirst hsig).2.2.2.2 hrewinds
  | destroy =>
    obtain ⟨-, ⟨hjoin, -⟩ | hgone⟩ := hs.destroy hsig
    · exact absurd hjoin hjoining
    · exact .inr ⟨rfl, hgone⟩

/-- A signal wakes the producer. -/
theorem Inv.signalled (hs : s.Inv) :
    (if s.nwaitProducer ≠ 0 then s.notifyProducer.producer else s.producer) =
      if s.producer matches .asleep then .woken else s.producer := by
  rw [hs.nwaitProducer]
  cases hat : s.producer <;> simp [notifyProducer, ProducerAt.waits, hat]

theorem inv_producer (hs : s.Inv) (h : Turn p s .producer s') : s'.Inv := by
  obtain ⟨h1, h2, h3, h4, h5, h6, h7, h8, h9, h10⟩ := hs
  cases h with
  | sleep hat hcan | sleepAgain hat hcan => constructor <;> first | assumption | grind
  | allocate hn hsig hend hlen hfree | reuse hn hsig hend hcons =>
    constructor <;> first | assumption | grind [LeavesWait]
  | rewind hn hsig | quit hn hsig =>
    constructor <;> first | assumption | grind [LeavesWait, notifyConsumer]
  | fillNew hat hnext | fill hat hnext => constructor <;> first | assumption | grind
  | push hat hend | finish hat hend => constructor <;> first | assumption | grind
  | tell hat => constructor <;> first | assumption | grind [notifyConsumer]

theorem inv_consumer (hs : s.Inv) (h : Turn p s .consumer s') : s'.Inv := by
  have hsignal := hs.signal
  obtain ⟨h1, h2, h3, h4, h5, h6, h7, h8, h9, h10⟩ := hs
  cases h with
  | told hat | toldOn hat => constructor <;> first | assumption | grind [notifyProducer]
  | refuse hat hsig | clash hat hsig | await hat hsig hqueue hend | awaitAgain hat hqueue hend =>
    constructor <;> first | assumption | grind
  | take hn hqueue | ended hn hqueue hend =>
    constructor <;> first | assumption | grind [release, LeavesNext]
  | rewound hat hdone | rewindAgain hat hdone =>
    constructor <;> first | assumption | grind [release]
  | joined hat hp => constructor <;> first | assumption | grind [deleteCells]

theorem inv_call {c : Call T} (hs : s.Inv) (h : Turn p s (.call c) s') : s'.Inv := by
  have hsignal := hs.signal
  have hsignalled := hs.signalled
  obtain ⟨h1, h2, h3, h4, h5, h6, h7, h8, h9, h10⟩ := hs
  cases h with
  | callNext hat | callValue hat hout | recycleValue hat hout | recycle hat hcell =>
    constructor <;> first | assumption | grind [release]
  | lateBeforeFirst hat hsig | badBeforeFirst hat hsig hdone =>
    constructor <;> first | assumption | grind
  | beforeFirst hat hsig hdone hp | destroy hat hthread hp =>
    rw [hsignalled] at hp
    constructor <;> first | assumption | grind
  | destroyAgain hat hthread => constructor <;> first | assumption | grind [deleteCells]

theorem inv_turn (hs : s.Inv) (h : Turn p s a s') : s'.Inv := by
  cases a with
  | call c => exact inv_call hs h
  | consumer => exact inv_consumer hs h
  | producer => exact inv_producer hs h
  | wakeConsumer | wakeProducer =>
    obtain ⟨h1, h2, h3, h4, h5, h6, h7, h8, h9, h10⟩ := hs
    cases h
    all_goals constructor <;> first | assumption | grind

theorem init_inv (cap : ℕ) (source : S) : (init cap source : ThreadedIter S T).Inv := by
  constructor <;> simp [init, ProducerAt.waits, ConsumerAt.waits, ConsumerAt.Rewinds]

/-- **The protocol**: in no order of steps does a `CHECK` fail, and no thread sleeps while it could
go on, unless the other one is about to notify it. -/
theorem reach_inv {cap : ℕ} {source : S}
    (hr : Reach (step p) anyStep (init cap source) s) : s.Inv :=
  hr.invariant (init_inv cap source) fun _ _ _ hinv _ hstep => inv_turn hinv (step_turn hstep).2

/-- The numbers 0 and 1. -/
def twoNumbers : Producer ℕ ℕ :=
  { fresh := 0, next := fun n _ => some (decide (n < 2), n, n + 1), beforeFirst := fun _ => 0 }

/-- The consumer calls `Next` before there is a number, and waits. -/
def callNext : List (Act ℕ) := [.producer, .call .next, .consumer]

theorem reach_inv_twoNumbers : ∃ s, Reach (step twoNumbers) anyStep (init 1 0) s ∧
    s.consumer = .nextAsleep .caller ∧ s.Inv := by
  have hrun : (runs (fun s a => if anyStep s a then step twoNumbers s a else none) (init 1 0)
      callNext).any (fun s => s.consumer = .nextAsleep .caller) = true := by
    decide +kernel
  obtain ⟨s, hs, htest⟩ := Reach.exists_of_runs hrun
  exact ⟨s, hs, of_decide_eq_true htest, reach_inv hs⟩

/-! ## Calls return -/

/-- How often the producer can call `next` before it has to wait for the consumer. -/
def budget (s : ThreadedIter S T) : ℕ :=
  match s.producerSig with
  | .produce =>
    if s.produceEnd then 0
    else s.freeCells.length + (s.maxCapacity - (s.queue.length + s.producer.hand))
  | .beforeFirst =>
    s.freeCells.length + s.queue.length + s.producer.hand + s.maxCapacity + 1
  | .destroy => 0

/-- A bound on the steps that the threads can take without a new call. -/
def work (s : ThreadedIter S T) : ℕ := 5 * s.budget + s.producer.work + s.consumer.work

/-- A thread goes on. -/
def GoesOn (a : Act T) : Prop := a = .consumer ∨ a = .producer

theorem work_notifyProducer (s : ThreadedIter S T) : s.notifyProducer.work ≤ s.work + 1 := by
  have hbudget : s.notifyProducer.budget = s.budget := by
    unfold budget notifyProducer
    cases hat : s.producer <;> simp [ProducerAt.hand]
  have hwork : s.notifyProducer.producer.work ≤ s.producer.work + 1 := by
    unfold notifyProducer
    cases hat : s.producer <;> simp [ProducerAt.work]
  rw [work, work, hbudget, show s.notifyProducer.consumer = s.consumer from rfl]
  omega

theorem work_notifyConsumer (s : ThreadedIter S T) : s.notifyConsumer.work ≤ s.work + 1 := by
  have hwork : s.notifyConsumer.consumer.work ≤ s.consumer.work + 1 := by
    unfold notifyConsumer
    cases hat : s.consumer <;> simp [ConsumerAt.work]
  rw [work, work, show s.notifyConsumer.budget = s.budget from rfl,
    show s.notifyConsumer.producer = s.producer from rfl]
  omega

theorem work_release (s : ThreadedIter S T) : (s.release none).work ≤ 2 := by
  unfold release
  split <;> simp [ConsumerAt.work]

theorem Inv.produce_of_next (hs : s.Inv) {dest : Dest} {n : ℕ} (hn : s.LeavesNext dest n) :
    s.producerSig = .produce := by
  obtain ⟨-, hsig, -⟩ | ⟨hat, -⟩ := hn
  · exact hsig
  · obtain ⟨hsig, -⟩ | ⟨-, -, -, hout | ⟨_, hnext⟩⟩ :=
      hs.signal (by simp [hat, ConsumerAt.Rewinds]) (by simp [hat])
    · exact hsig
    · simp [hat] at hout
    · simp [hat] at hnext

/-- **Every step of a thread** takes some of the work away. -/
theorem work_lt_of_turn (hs : s.Inv) (h : Turn p s a s') (ha : GoesOn a) : s'.work < s.work := by
  cases h with
  | sleep hat hcan | sleepAgain hat hcan =>
    simp [work, budget, hat, ProducerAt.work, ProducerAt.hand]
  | allocate hn hsig hend hlen hfree =>
    obtain ⟨hat, -⟩ | ⟨hat, -⟩ := hn <;>
      simp [work, budget, hat, hsig, hend, hfree, ProducerAt.work, ProducerAt.hand] <;> omega
  | reuse hn hsig hend hcons =>
    obtain ⟨hat, -⟩ | ⟨hat, -⟩ := hn <;>
      simp [work, budget, hat, hsig, hend, hcons, ProducerAt.work, ProducerAt.hand] <;> omega
  | rewind hn hsig =>
    obtain ⟨hat, -⟩ | ⟨hat, -⟩ := hn <;>
      simp [work, budget, hat, hsig, ProducerAt.work, ProducerAt.hand] <;> omega
  | quit hn hsig =>
    have hjoining : s.consumer = .joining := by
      obtain ⟨-, ⟨hjoin, -⟩ | ⟨hgone, -⟩⟩ := hs.destroy hsig
      · exact hjoin
      · obtain ⟨hat, -⟩ | ⟨hat, -⟩ := hn <;> rw [hat] at hgone <;> cases hgone
    obtain ⟨hat, -⟩ | ⟨hat, -⟩ := hn <;>
      simp [notifyConsumer, work, budget, hat, hsig, hjoining, ProducerAt.work]
  | fillNew hat hnext | fill hat hnext =>
    have hend := hs.filling _ hat
    cases hsig : s.producerSig <;>
      simp [work, budget, hat, hsig, hend, ProducerAt.work, ProducerAt.hand]
    split <;> omega
  | push hat hend | finish hat hend =>
    obtain ⟨next, hnext⟩ : ∃ next : ProducerAt T,
      next = if s.nwaitConsumer ≠ 0 then .notifying else .top := ⟨_, rfl⟩
    have hhand : next.hand = 0 := by
      rw [hnext]
      split <;> rfl
    have hle : next.work ≤ 3 := by
      rw [hnext]
      split <;> simp [ProducerAt.work]
    have hhas : s.producer.hand = 1 ∧ s.producer.work = 4 := by
      simp [hat, ProducerAt.hand, ProducerAt.work]
    rw [← hnext]
    cases hsig : s.producerSig <;> simp [work, budget, hsig, hend, hhand, hhas] <;> omega
  | tell hat =>
    refine (work_notifyConsumer _).trans_lt ?_
    simp only [work, budget, hat, ProducerAt.work, ProducerAt.hand]
    omega
  | told hat | toldOn hat =>
    refine (work_notifyProducer _).trans_lt ?_
    simp only [work, budget, hat, ConsumerAt.work]
    omega
  | refuse hat hsig => simp [work, budget, hat, hsig, ConsumerAt.work]
  | clash hat hsig =>
    have hrewinds := (hs.beforeFirst hsig).2.2.2.2
    simp [hat, ConsumerAt.Rewinds] at hrewinds
  | await hat hsig hqueue hend | awaitAgain hat hqueue hend =>
    simp [work, budget, hat, ConsumerAt.work]
  | take hn hqueue =>
    have hrelease := s.work_release
    have hsig := hs.produce_of_next hn
    have hat : 8 ≤ s.consumer.work := by
      obtain ⟨hat, -⟩ | ⟨hat, -⟩ := hn <;> simp [hat, ConsumerAt.work]
    simp only [work, budget, hsig, hqueue, List.length_cons]
    split <;> omega
  | ended hn hqueue hend =>
    have hsig := hs.produce_of_next hn
    obtain ⟨hat, -⟩ | ⟨hat, -⟩ := hn <;> simp [work, budget, hat, hsig, hend, ConsumerAt.work]
  | rewound hat hdone =>
    have hrelease := s.work_release
    have hwork : s.consumer.work = 3 := by rw [hat, ConsumerAt.work]
    simp only [work, budget, hwork]
    omega
  | rewindAgain hat hdone =>
    simp [work, budget, hat, ConsumerAt.work]
  | joined hat hreturned =>
    have hsig : s.producerSig = .destroy := by
      cases hsig : s.producerSig with
      | produce => exact absurd hreturned (hs.produce hsig).1
      | beforeFirst => exact absurd hreturned (hs.beforeFirst hsig).1
      | destroy => rfl
    simp [deleteCells, work, budget, hat, hsig, ConsumerAt.work]
  | _ => rcases ha with ha | ha <;> cases ha

theorem maxCapacity_turn (h : Turn p s a s') : s'.maxCapacity = s.maxCapacity := by
  cases h <;> rfl

theorem source_turn {I : S → Prop} (hp : p.Keeps I) (hs : I s.source) (h : Turn p s a s') :
    I s'.source := by
  cases h with
  | rewind hn hsig => exact hp.beforeFirst _ hs
  | fillNew hat hnext | fill hat hnext =>
    obtain ⟨r, hr, hI⟩ := hp.next _ _ hs
    rw [hnext] at hr
    obtain rfl := Option.some.inj hr
    exact hI
  | _ => exact hs

/-- **No deadlock**: while the consumer is in a call, one of the threads can go on. -/
theorem exists_step {I : S → Prop} (hp : p.Keeps I) (hs : s.Inv) (hsource : I s.source)
    (hcap : 1 ≤ s.maxCapacity) (hat : s.consumer ≠ .outside) :
    ∃ a, GoesOn a ∧ (step p s a).isSome := by
  have hproducer : s.producer ≠ .asleep → s.producer ≠ .returned →
      (step p s .producer).isSome := by
    intro hasleep hreturned
    simp only [step, hs.failed, producerStep]
    cases hp' : s.producer with
    | asleep => exact absurd hp' hasleep
    | returned => exact absurd hp' hreturned
    | next cell =>
      cases cell with
      | none =>
        obtain ⟨r, hr, -⟩ := hp.next _ p.fresh hsource
        simp [hr]
      | some cell =>
        obtain ⟨r, hr, -⟩ := hp.next _ cell.data hsource
        simp [hr]
    | produced cell => cases hend : s.produceEnd <;> simp
    | top | woken => cases hcan : s.canProduce <;> simp
    | notifying => simp
  have hconsumer : ∀ t, s.consumerStep = some t → ∃ a, GoesOn a ∧ (step p s a).isSome := by
    intro t ht
    exact ⟨.consumer, .inl rfl, by simp [step, hs.failed, ht]⟩
  have hgoes : s.producer ≠ .asleep → s.producer ≠ .returned →
      ∃ a, GoesOn a ∧ (step p s a).isSome :=
    fun hasleep hreturned => ⟨.producer, .inr rfl, hproducer hasleep hreturned⟩
  cases hc : s.consumer with
  | outside => exact absurd hc hat
  | notifying dest => cases dest <;> exact hconsumer _ (by rw [consumerStep, hc])
  | next dest =>
    refine hconsumer ((s.consumerStep).getD s) ?_
    simp only [consumerStep, hc]
    split_ifs <;> rfl
  | nextWoken dest =>
    refine hconsumer ((s.consumerStep).getD s) ?_
    simp only [consumerStep, hc]
    split_ifs <;> rfl
  | beforeFirstWoken =>
    refine hconsumer ((s.consumerStep).getD s) ?_
    simp only [consumerStep, hc]
    split_ifs <;> rfl
  | joining =>
    by_cases hreturned : s.producer = .returned
    · exact hconsumer _ (by rw [consumerStep, hc]; simp only [hreturned]; rfl)
    · have hsig : s.producerSig = .destroy := by
        cases hsig : s.producerSig with
        | produce => exact absurd hc (hs.produce hsig).2.1
        | beforeFirst =>
          have hrewinds := (hs.beforeFirst hsig).2.2.2.2
          simp [hc, ConsumerAt.Rewinds] at hrewinds
        | destroy => rfl
      exact hgoes (hs.destroy hsig).1 hreturned
  | nextAsleep dest =>
    -- the queue is empty, so that the producer has room for a cell
    obtain ⟨hsig, hreturned, -⟩ | ⟨-, -, -, hout | ⟨_, hnext⟩⟩ :=
      hs.signal (by simp [hc, ConsumerAt.Rewinds]) (by simp [hc])
    · refine hgoes (fun hasleep => ?_) hreturned
      obtain hcan | hp' | ⟨cell, hp'⟩ := hs.nextAsleep dest hc
      · obtain hwait | ⟨dest', hc'⟩ := hs.asleep hasleep
        · have hempty : s.queue = [] ∧ s.produceEnd = false := by simpa [canTake] using hcan
          have hfull : s.maxCapacity = 0 ∧ s.freeCells = [] := by
            simpa [canProduce, hsig, hempty.1, hempty.2] using hwait
          omega
        · rw [hc] at hc'
          cases hc'
      · rw [hasleep] at hp'
        cases hp'
      · rw [hasleep] at hp'
        cases hp'
    · rw [hc] at hout
      cases hout
    · rw [hc] at hnext
      cases hnext
  | beforeFirstAsleep =>
    cases hsig : s.producerSig with
    | produce =>
      have hdone := (hs.produce hsig).2.2.2.mpr (.inl hc)
      have hp' : s.producer = .notifying := by simpa [hdone] using hs.beforeFirstAsleep hc
      exact hgoes (by simp [hp']) (by simp [hp'])
    | beforeFirst =>
      obtain ⟨hreturned, hasleep, -⟩ := hs.beforeFirst hsig
      exact hgoes hasleep hreturned
    | destroy =>
      obtain ⟨-, ⟨hjoin, -⟩ | ⟨-, -, hout | ⟨_, hnext⟩⟩⟩ := hs.destroy hsig
      · rw [hc] at hjoin
        cases hjoin
      · rw [hc] at hout
        cases hout
      · rw [hc] at hnext
        cases hnext

/-- What every run keeps. -/
structure Running (I : S → Prop) (cap : ℕ) (s : ThreadedIter S T) : Prop where
  inv : s.Inv
  source : I s.source
  maxCapacity : s.maxCapacity = cap

theorem Running.turn {I : S → Prop} (hp : p.Keeps I) {cap : ℕ} (hs : s.Running I cap)
    (h : Turn p s a s') : s'.Running I cap :=
  ⟨inv_turn hs.inv h, source_turn hp hs.source h, (maxCapacity_turn h).trans hs.maxCapacity⟩

theorem reach_running {I : S → Prop} (hp : p.Keeps I) {cap : ℕ} {source : S} (hsource : I source)
    (hr : Reach (step p) anyStep (init cap source) s) : s.Running I cap :=
  hr.invariant ⟨init_inv cap source, hsource, rfl⟩ fun _ _ _ hs _ hstep =>
    hs.turn hp (step_turn hstep).2

/-- The threads take at most `work` steps before the consumer has left the iterator or makes a new
call, and one of them can go on until then. -/
theorem Running.goes_on {I : S → Prop} (hp : p.Keeps I) {cap : ℕ} (hcap : 1 ≤ cap)
    (hs : s.Running I cap) :
    ∀ as s', (∀ a ∈ as, GoesOn a) → runs (step p) s as = some s' → as.length ≤ s.work ∧
      (s'.consumer ≠ .outside → ∃ a, GoesOn a ∧ (step p s' a).isSome) := by
  intro as s' has hrun
  have hstep : ∀ t, ∀ a ∈ as, ∀ t', t.Running I cap → step p t a = some t' →
      t'.Running I cap ∧ t'.work < t.work := by
    intro t a ha t' ht hstep
    have hturn := (step_turn hstep).2
    exact ⟨ht.turn hp hturn, work_lt_of_turn ht.inv hturn (has a ha)⟩
  obtain ⟨hrunning, hle⟩ := Lib.length_le_of_runs _ _ hstep hs hrun
  have hcap' := hrunning.maxCapacity
  exact ⟨by omega, exists_step hp hrunning.inv hrunning.source (by omega)⟩

/-- **Every call returns**: whatever the order in which the threads go on, they take at most
`work` steps, and until the consumer has left the iterator one of them can go on. -/
theorem calls_return {I : S → Prop} (hp : p.Keeps I) {cap : ℕ} (hcap : 1 ≤ cap) {source : S}
    (hsource : I source) (hr : Reach (step p) anyStep (init cap source) s) :
    ∀ as s', (∀ a ∈ as, GoesOn a) → runs (step p) s as = some s' → as.length ≤ s.work ∧
      (s'.consumer ≠ .outside → ∃ a, GoesOn a ∧ (step p s' a).isSome) :=
  (reach_running hp hsource hr).goes_on hp hcap

theorem calls_return_twoNumbers : ∃ s, Reach (step twoNumbers) anyStep (init 1 0) s ∧
    s.consumer = .nextAsleep .caller ∧
      ∀ as s', (∀ a ∈ as, GoesOn a) → runs (step twoNumbers) s as = some s' →
        as.length ≤ s.work ∧
          (s'.consumer ≠ .outside → ∃ a, GoesOn a ∧ (step twoNumbers s' a).isSome) := by
  have hrun : (runs (fun s a => if anyStep s a then step twoNumbers s a else none) (init 1 0)
      callNext).any (fun s => s.consumer = .nextAsleep .caller) = true := by
    decide +kernel
  obtain ⟨s, hs, htest⟩ := Reach.exists_of_runs hrun
  have hkeeps : twoNumbers.Keeps fun _ => True :=
    ⟨fun n _ _ => ⟨_, rfl, trivial⟩, fun _ _ => trivial⟩
  exact ⟨s, hs, of_decide_eq_true htest, calls_return hkeeps le_rfl trivial hs⟩

end ThreadedIter

end Difacto.Io
