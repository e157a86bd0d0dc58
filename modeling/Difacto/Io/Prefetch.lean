import Difacto.Io.TextParts
import Difacto.Io.ThreadedIter

/-!
# What a threaded iterator delivers

The consumer of `ThreadedIter` gets what the producer delivers to a caller that calls `next` and
`beforefirst` itself, one call after the other, in every order of the steps of the two threads. Such
a caller may read ahead of the consumer and rewind from there, so that a rewound producer has to
begin anew wherever it stands.

`ThreadedInputSplit` of `dmlc-core/src/io/threaded_input_split.h` prefetches the chunks of a part
of a text file in this way.

## Main definitions

* `Producer.Reads`, `Producer.Rewound` — the calls of a single thread.
* `ThreadedIter.Streams` — the results so far are such a run.
* `ThreadedInputSplit.producer` — the closures of `ThreadedInputSplit`.

## Main results

* `ThreadedIter.reach_streams` — the results of every run.
* `ThreadedInputSplit.reach_rest` — the chunks since the last rewind are the part from its
  beginning, and all of it when `Next` has returned false.
-/

namespace Difacto.Io

open Lib (Reach anyStep)

variable {S T : Type}

/-! ## The calls of a single thread -/

/-- Calls of `next` from `origin` on deliver these data and leave the producer there; each call gets
some cell. `ended` when the last one returned false. -/
inductive Producer.Reads (p : Producer S T) (origin : S) : List T → Bool → S → Prop
  | start : Reads p origin [] false origin
  | more {ds : List T} {cell data : T} {source source' : S} : Reads p origin ds false source →
      p.next source cell = some (true, data, source') → Reads p origin (ds ++ [data]) false source'
  | ended {ds : List T} {cell data : T} {source source' : S} : Reads p origin ds false source →
      p.next source cell = some (false, data, source') → Reads p origin ds true source'

/-- Where a producer that began at `source` can begin anew. -/
inductive Producer.Rewound (p : Producer S T) (source : S) : S → Prop
  | start : Rewound p source source
  | again {origin source' : S} {ds : List T} {ended : Bool} : Rewound p source origin →
      p.Reads origin ds ended source' → Rewound p source (p.beforeFirst source')

theorem Producer.Keeps.of_next {p : Producer S T} {I : S → Prop} (hp : p.Keeps I) {source : S}
    {cell : T} {r : Bool × T × S} (hsource : I source) (h : p.next source cell = some r) :
    I r.2.2 := by
  obtain ⟨r', hr', hI⟩ := hp.next source cell hsource
  rw [h] at hr'
  exact Option.some.inj hr' ▸ hI

/-- What the closures keep holds wherever the producer begins anew. -/
theorem Producer.Rewound.keeps {p : Producer S T} {I : S → Prop} (hp : p.Keeps I)
    {source origin : S} (hsource : I source) (h : p.Rewound source origin) : I origin := by
  have hreads : ∀ {origin source' : S} {ds : List T} {ended : Bool}, I origin →
      p.Reads origin ds ended source' → I source' := by
    intro origin source' ds ended horigin hreads
    induction hreads with
    | start => exact horigin
    | more _ hcall ih | ended _ hcall ih => exact hp.of_next ih hcall
  induction h with
  | start => exact hsource
  | again _ hrun ih => exact hp.beforeFirst _ (hreads ih hrun)

namespace ThreadedIter

/-- What the producer is about to push. -/
def inHand (s : ThreadedIter S T) : List T :=
  match s.producer with
  | .produced cell => if s.produceEnd then [] else [cell.data]
  | _ => []

/-- The results are those of a single thread that is ahead of the consumer by the queue: some
records, and then false. -/
structure Streams (p : Producer S T) (source : S) (s : ThreadedIter S T) : Prop where
  rewound : p.Rewound source s.origin
  results : ∃ ds ends, s.results = ds.map some ++ List.replicate ends none ∧
    p.Reads s.origin (ds ++ s.queue.map Cell.data ++ s.inHand) s.produceEnd s.source ∧
    (0 < ends → s.produceEnd = true ∧ s.queue = [])

variable {p : Producer S T} {source : S} {s s' : ThreadedIter S T} {a : Act T}

theorem Streams.congr (hs : s.Streams p source) (horigin : s'.origin = s.origin)
    (hresults : s'.results = s.results) (hqueue : s'.queue = s.queue)
    (hhand : s'.inHand = s.inHand) (hend : s'.produceEnd = s.produceEnd)
    (hsource : s'.source = s.source) : s'.Streams p source := by
  obtain ⟨hrewound, hrun⟩ := hs
  exact ⟨horigin ▸ hrewound, by rw [horigin, hresults, hqueue, hhand, hend, hsource]; exact hrun⟩

theorem inHand_eq_nil (h : ∀ cell, s.producer ≠ .produced cell) : s.inHand = [] := by
  unfold inHand
  split
  · next cell hat => exact absurd hat (h cell)
  · rfl

/-- The producer got this answer from `next`. -/
theorem Streams.fill (hs : s.Streams p source) (hend : s.produceEnd = false)
    (hhand : s.inHand = []) {cell data : T} {more : Bool} {source' : S}
    (hnext : p.next s.source cell = some (more, data, source')) {addr allocated : ℕ} :
    Streams p source
      { s with source := source', produceEnd := !more, allocated,
               producer := .produced ⟨addr, data⟩ } := by
  obtain ⟨hrewound, ds, ends, hresults, hreads, hends⟩ := hs
  have hzero : ends = 0 := by
    by_contra hpos
    rw [(hends (Nat.pos_of_ne_zero hpos)).1] at hend
    cases hend
  rw [hhand, List.append_nil, hend] at hreads
  refine ⟨hrewound, ds, ends, hresults, ?_, fun hpos => by omega⟩
  cases more with
  | true => exact hreads.more hnext
  | false => simpa [inHand] using hreads.ended hnext

theorem streams_turn (hinv : s.Inv) (hs : s.producerSig ≠ .destroy → s.Streams p source)
    (h : Turn p s a s') : s'.producerSig ≠ .destroy → s'.Streams p source := by
  intro hsig'
  have hwait : ∀ n, s.LeavesWait n → s.inHand = [] := by
    rintro n (⟨hat, -⟩ | ⟨hat, -⟩) <;> simp [inHand, hat]
  have hsignalled : ∀ {t : ThreadedIter S T}, t.producer = (if s.nwaitProducer ≠ 0 then
      s.notifyProducer.producer else s.producer) → t.produceEnd = s.produceEnd →
      t.inHand = s.inHand := by
    intro t ht hend
    unfold inHand
    rw [ht, hinv.signalled, hend]
    cases hat : s.producer <;> rfl
  cases h with
  | sleep hat hcan | sleepAgain hat hcan =>
    exact (hs hsig').congr rfl rfl rfl (by simp [inHand, hat]) rfl rfl
  | allocate hn hsig hend hlen hfree | reuse hn hsig hend hcons =>
    exact (hs hsig').congr rfl rfl rfl ((hwait _ hn).symm ▸ rfl) rfl rfl
  | rewind hn hsig =>
    obtain ⟨hrewound, ds, ends, hresults, hreads, hends⟩ := hs (by simp [hsig])
    exact ⟨hrewound.again hreads, [], 0, rfl, .start, fun hpos => absurd hpos (lt_irrefl _)⟩
  | quit hn hsig => exact absurd hsig hsig'
  | fillNew hat hnext | fill hat hnext =>
    exact (hs hsig').fill (hinv.filling _ hat) (by simp [inHand, hat]) hnext
  | @push cell hat hend =>
    obtain ⟨hrewound, ds, ends, hresults, hreads, hends⟩ := hs hsig'
    refine ⟨hrewound, ds, ends, hresults, ?_, fun hpos => ?_⟩
    · have hnil : inHand { s with queue := s.queue ++ [cell], producer :=
          if s.nwaitConsumer ≠ 0 then .notifying else .top } = [] :=
        inHand_eq_nil fun _ => by
          simp only
          split <;> simp
      rw [hnil]
      simpa [inHand, hat, hend] using hreads
    · rw [(hends hpos).1] at hend
      cases hend
  | finish hat hend =>
    refine (hs hsig').congr rfl rfl rfl ?_ rfl rfl
    rw [inHand_eq_nil fun cell => by simp only; split <;> simp]
    simp [inHand, hat, hend]
  | tell hat => exact (hs hsig').congr rfl rfl rfl (by simp [inHand, notifyConsumer, hat]) rfl rfl
  | told hat | toldOn hat =>
    refine (hs hsig').congr rfl rfl rfl ?_ rfl rfl
    simp only [inHand, notifyProducer]
    cases hp : s.producer <;> rfl
  | refuse hat hsig => exact absurd hsig hsig'
  | @take dest n cell queue hn hqueue =>
    obtain ⟨hrewound, ds, ends, hresults, hreads, hends⟩ := hs hsig'
    have hzero : ends = 0 := by
      by_contra hpos
      rw [(hends (Nat.pos_of_ne_zero hpos)).2] at hqueue
      cases hqueue
    refine ⟨hrewound, ds ++ [cell.data], 0, ?_, ?_, fun hpos => absurd hpos (lt_irrefl _)⟩
    · simp [hresults, hzero]
    · simpa [hqueue, inHand] using hreads
  | ended hn hqueue hend =>
    obtain ⟨hrewound, ds, ends, hresults, hreads, hends⟩ := hs hsig'
    refine ⟨hrewound, ds, ends + 1, ?_, hreads, fun _ => ⟨hend, hqueue⟩⟩
    rw [hresults, List.append_assoc, List.replicate_succ']
  | joined hat hreturned =>
    cases hsig : s.producerSig with
    | produce => exact absurd hreturned (hinv.produce hsig).1
    | beforeFirst => exact absurd hreturned (hinv.beforeFirst hsig).1
    | destroy => exact absurd hsig hsig'
  | beforeFirst hat hsig hdone hp =>
    exact (hs hsig).congr rfl rfl rfl (hsignalled hp rfl) rfl rfl
  | destroy hat hthread hp => exact absurd rfl hsig'
  | destroyAgain hat hthread =>
    cases hsig : s.producerSig with
    | produce => simp [(hinv.produce hsig).2.2.1] at hthread
    | beforeFirst => simp [(hinv.beforeFirst hsig).2.2.1] at hthread
    | destroy => exact absurd hsig hsig'
  | wakeProducer hat => exact (hs hsig').congr rfl rfl rfl (by simp [inHand, hat]) rfl rfl
  | _ => exact (hs hsig').congr rfl rfl rfl rfl rfl rfl

/-- The protocol and the results. -/
structure Streaming (p : Producer S T) (source : S) (s : ThreadedIter S T) : Prop where
  inv : s.Inv
  streams : s.producerSig ≠ .destroy → s.Streams p source

theorem init_streaming (p : Producer S T) (cap : ℕ) (source : S) :
    (init cap source : ThreadedIter S T).Streaming p source :=
  ⟨init_inv cap source, fun _ => ⟨.start, [], 0, rfl, .start, by simp⟩⟩

theorem reach_streaming {cap : ℕ} (hr : Reach (step p) anyStep (init cap source) s) :
    s.Streaming p source := by
  refine hr.invariant (init_streaming p cap source) fun _ _ _ hs _ hstep => ?_
  have hturn := (step_turn hstep).2
  exact ⟨inv_turn hs.inv hturn, streams_turn hs.inv hs.streams hturn⟩

/-- **A threaded iterator is transparent**: in every order of the steps, what `Next` returned since
the last rewind is what `next` delivers to a single thread, and false only at its end. -/
theorem reach_streams {cap : ℕ} (hr : Reach (step p) anyStep (init cap source) s)
    (hsig : s.producerSig ≠ .destroy) : s.Streams p source :=
  (reach_streaming hr).streams hsig

/-- The consumer of `twoNumbers` waits for the first number, and reads to the end. -/
def readTwo : List (Act ℕ) :=
  callNext ++ [.producer, .producer, .producer, .consumer] ++
    [.producer, .producer, .producer, .call .next, .consumer] ++
    [.producer, .producer, .producer, .call .next, .consumer]

theorem reach_streams_twoNumbers : ∃ s, Reach (step twoNumbers) anyStep (init 1 0) s ∧
    s.results = [some 0, some 1, none] ∧ s.Streams twoNumbers 0 := by
  have hrun : (Lib.runs (fun s a => if anyStep s a then step twoNumbers s a else none) (init 1 0)
      readTwo).any (fun s => s.results = [some 0, some 1, none] ∧ s.producerSig ≠ .destroy) =
        true := by
    decide +kernel
  obtain ⟨s, hs, htest⟩ := Reach.exists_of_runs hrun
  obtain ⟨hresults, hsig⟩ := of_decide_eq_true htest
  exact ⟨s, hs, hresults, reach_streams hs hsig⟩

end ThreadedIter

end Difacto.Io
