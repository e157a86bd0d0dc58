import Difacto.Base.Workload
import Difacto.Lib.Reach
import Mathlib.Data.Finset.Card
import Mathlib.Data.Finset.Range
import Mathlib.Tactic.Linarith

/-!
# Minibatches in flight

`MinibatchWorker::Process` of `solver/minibatch_solver.h` and `FinishMinibatch`, which the
communication thread calls when a minibatch is done. `Process` counts a minibatch only
after `ProcessMinibatch` has returned, so the callback may run first and `num_mb_fly_` may
be too small, even negative, between the two. `Pc` has the points of `Process` where
another thread may run; the test of `WaitMinibatch` holds the lock, so it is one step.

`finished` is history: the minibatches whose callback has run.

## Main definitions

* `Flight`, `Flight.step` — the two threads.
* `Flight.inFlight` — the minibatches that are submitted and not finished.

## Main results

* `Flight.flow_control` — how many there are, and that none is left at the end.
* `Flight.progress` — `Process` never waits for nothing.
-/

namespace Difacto.Solver

open Base Lib

/-- The limits of a worker. -/
structure MinibatchConf where
  /-- `concurrent_mb_` -/
  concurrentMb : ℤ
  /-- `val_concurrent_mb_` -/
  valConcurrentMb : ℤ

/-- `max_mb` of `Process`. -/
def MinibatchConf.maxMb (conf : MinibatchConf) : WorkloadType → ℤ
  | .pred => 1
  | .train => conf.concurrentMb
  | .val => conf.valConcurrentMb

/-- Where `Process` is. -/
inductive Pc
  /-- before `reader.Next()` -/
  | next
  /-- in `WaitMinibatch(max_mb)` -/
  | wait
  /-- before `ProcessMinibatch` -/
  | process
  /-- before `++ num_mb_fly_` -/
  | count
  /-- in `WaitMinibatch(1)` -/
  | waitAll
  | returned
  deriving DecidableEq

/-- The state of a call of `Process`. -/
structure Flight where
  pc : Pc
  /-- `num_mb_fly_` -/
  numMbFly : ℤ
  /-- `num_mb_done_` -/
  numMbDone : ℤ
  /-- the number of calls of `ProcessMinibatch` -/
  submitted : ℕ
  finished : List ℕ
  deriving DecidableEq

namespace Flight

/-- What happens next. -/
inductive Act
  /-- `reader.Next()` returns `more` -/
  | next (more : Bool)
  /-- the current wait is over -/
  | wake
  /-- `ProcessMinibatch` -/
  | process
  /-- `++ num_mb_fly_` -/
  | count
  /-- `FinishMinibatch` for minibatch `i` -/
  | finish (i : ℕ)

/-- The beginning of `Process`. -/
def init : Flight := { pc := .next, numMbFly := 0, numMbDone := 0, submitted := 0, finished := [] }

/-- One step; `none` if it is not enabled. -/
def step (maxMb : ℤ) (s : Flight) : Act → Option Flight
  | .next more =>
    if s.pc = .next then some { s with pc := if more then .wait else .waitAll } else none
  | .wake =>
    match s.pc with
    | .wait => if s.numMbFly < maxMb then some { s with pc := .process } else none
    | .waitAll => if s.numMbFly < 1 then some { s with pc := .returned } else none
    | _ => none
  | .process =>
    if s.pc = .process then some { s with pc := .count, submitted := s.submitted + 1 } else none
  | .count =>
    if s.pc = .count then some { s with pc := .next, numMbFly := s.numMbFly + 1 } else none
  | .finish i =>
    if i < s.submitted ∧ i ∉ s.finished then
      some { s with
        numMbFly := s.numMbFly - 1
        numMbDone := s.numMbDone + 1
        finished := i :: s.finished }
    else none

/-- The minibatches that are submitted and not finished. -/
def inFlight (s : Flight) : Finset ℕ := Finset.range s.submitted \ s.finished.toFinset

/-- What `num_mb_fly_` lacks at this point. -/
def uncounted (s : Flight) : ℤ := if s.pc = .count then 1 else 0

/-- **The invariant**: `num_mb_fly_` is right up to the minibatch that is not counted yet. -/
structure Inv (maxMb : ℤ) (s : Flight) : Prop where
  nodup : s.finished.Nodup
  lt : ∀ i ∈ s.finished, i < s.submitted
  done_eq : s.numMbDone = s.finished.length
  fly_eq : s.numMbFly + s.uncounted = s.submitted - s.finished.length
  le : (s.submitted : ℤ) - s.finished.length ≤ maxMb
  process : s.pc = .process → (s.submitted : ℤ) - s.finished.length < maxMb
  returned : s.pc = .returned → (s.submitted : ℤ) - s.finished.length ≤ 0

variable {maxMb : ℤ} {s s' : Flight}

theorem Inv.card_inFlight (h : s.Inv maxMb) :
    (s.inFlight.card : ℤ) = s.submitted - s.finished.length := by
  have hsub : s.finished.toFinset ⊆ Finset.range s.submitted := by
    intro i hi
    exact Finset.mem_range.mpr (h.lt i (List.mem_toFinset.mp hi))
  have hle := Finset.card_le_card hsub
  rw [Finset.card_range, List.toFinset_card_of_nodup h.nodup] at hle
  rw [inFlight, Finset.card_sdiff_of_subset hsub, Finset.card_range,
    List.toFinset_card_of_nodup h.nodup]
  omega

theorem Inv.finished_le (h : s.Inv maxMb) : s.finished.length ≤ s.submitted := by
  have hcard := h.card_inFlight
  omega

theorem inv_init (hmax : 1 ≤ maxMb) : init.Inv maxMb where
  nodup := List.nodup_nil
  lt := by simp [init]
  done_eq := rfl
  fly_eq := rfl
  le := by simp [init]; omega
  process := by simp [init]
  returned := by simp [init]

theorem Inv.step_next (h : s.Inv maxMb) {more : Bool} (hs : s.step maxMb (.next more) = some s') :
    s'.Inv maxMb := by
  have hfly := h.fly_eq
  simp only [Flight.step] at hs
  split at hs
  · rename_i hpc
    cases hs
    have hcount : s.uncounted = 0 := by simp [uncounted, hpc]
    refine ⟨h.nodup, h.lt, h.done_eq, ?_, h.le, ?_, ?_⟩
    · cases more <;> simp [uncounted] <;> omega
    · cases more <;> simp
    · cases more <;> simp
  · cases hs

/-- A wait is over when `num_mb_fly_`, which counts all of them here, is small enough. -/
theorem Inv.step_wake (h : s.Inv maxMb) (hs : s.step maxMb .wake = some s') : s'.Inv maxMb := by
  have hfly := h.fly_eq
  cases hpc : s.pc with
  | wait =>
      simp only [Flight.step, hpc] at hs
      split at hs
      · rename_i hlt
        cases hs
        have hcount : s.uncounted = 0 := by simp [uncounted, hpc]
        refine ⟨h.nodup, h.lt, h.done_eq, ?_, h.le, fun _ => ?_, by simp⟩
        · simp [uncounted]
          omega
        · show (s.submitted : ℤ) - s.finished.length < maxMb
          omega
      · cases hs
  | waitAll =>
      simp only [Flight.step, hpc] at hs
      split at hs
      · rename_i hlt
        cases hs
        have hcount : s.uncounted = 0 := by simp [uncounted, hpc]
        refine ⟨h.nodup, h.lt, h.done_eq, ?_, h.le, by simp, fun _ => ?_⟩
        · simp [uncounted]
          omega
        · show (s.submitted : ℤ) - s.finished.length ≤ 0
          omega
      · cases hs
  | next => simp [Flight.step, hpc] at hs
  | process => simp [Flight.step, hpc] at hs
  | count => simp [Flight.step, hpc] at hs
  | returned => simp [Flight.step, hpc] at hs

theorem Inv.step_process (h : s.Inv maxMb) (hs : s.step maxMb .process = some s') :
    s'.Inv maxMb := by
  have hfly := h.fly_eq
  have hle := h.le
  simp only [Flight.step] at hs
  split at hs
  · rename_i hpc
    cases hs
    have hcount : s.uncounted = 0 := by simp [uncounted, hpc]
    have hlt := h.process hpc
    refine ⟨h.nodup, fun i hi => ?_, h.done_eq, ?_, ?_, by simp, by simp⟩
    · exact Nat.lt_succ_of_lt (h.lt i hi)
    · simp only [uncounted, if_true]
      push_cast
      omega
    · push_cast
      omega
  · cases hs

theorem Inv.step_count (h : s.Inv maxMb) (hs : s.step maxMb .count = some s') : s'.Inv maxMb := by
  have hfly := h.fly_eq
  simp only [Flight.step] at hs
  split at hs
  · rename_i hpc
    cases hs
    have hcount : s.uncounted = 1 := by simp [uncounted, hpc]
    refine ⟨h.nodup, h.lt, h.done_eq, ?_, h.le, by simp, by simp⟩
    simp [uncounted]
    omega
  · cases hs

theorem Inv.step_finish (h : s.Inv maxMb) {i : ℕ} (hs : s.step maxMb (.finish i) = some s') :
    s'.Inv maxMb := by
  have hfly := h.fly_eq
  have hle := h.le
  simp only [Flight.step] at hs
  split at hs
  · rename_i hi
    cases hs
    have hunc : uncounted { s with
        numMbFly := s.numMbFly - 1
        numMbDone := s.numMbDone + 1
        finished := i :: s.finished } = s.uncounted := rfl
    refine ⟨List.nodup_cons.mpr ⟨hi.2, h.nodup⟩, ?_, ?_, ?_, ?_, fun hpc => ?_, fun hpc => ?_⟩
    · intro j hj
      rcases List.mem_cons.mp hj with rfl | hj
      · exact hi.1
      · exact h.lt j hj
    · rw [List.length_cons, h.done_eq]
      push_cast
      rfl
    · rw [hunc, List.length_cons]
      push_cast
      omega
    · rw [List.length_cons]
      push_cast
      omega
    · have hlt := h.process hpc
      rw [List.length_cons]
      push_cast
      omega
    · have hret := h.returned hpc
      rw [List.length_cons]
      push_cast
      omega
  · cases hs

theorem Inv.step (h : s.Inv maxMb) {a : Act} (hs : s.step maxMb a = some s') : s'.Inv maxMb := by
  cases a with
  | next more => exact h.step_next hs
  | wake => exact h.step_wake hs
  | process => exact h.step_process hs
  | count => exact h.step_count hs
  | finish i => exact h.step_finish hs

theorem Inv.of_reach (hmax : 1 ≤ maxMb) (hr : Reach (Flight.step maxMb) anyStep init s) :
    s.Inv maxMb :=
  hr.invariant (inv_init hmax) fun _ _ _ h _ hs => h.step hs

/-- **Flow control.** At most `max_mb` minibatches are in flight, and `Process` returns when
none is, with both counters right. -/
theorem flow_control (maxMb : ℤ) (hmax : 1 ≤ maxMb) (s : Flight)
    (hr : Reach (step maxMb) anyStep init s) :
    (s.inFlight.card : ℤ) ≤ maxMb ∧
      (s.pc = .returned → s.inFlight = ∅ ∧ s.finished.Nodup ∧
        (∀ i, i < s.submitted ↔ i ∈ s.finished) ∧ s.numMbDone = s.submitted ∧ s.numMbFly = 0) := by
  have hinv := Inv.of_reach hmax hr
  have hcard := hinv.card_inFlight
  have hfly := hinv.fly_eq
  have hdone := hinv.done_eq
  refine ⟨hcard ▸ hinv.le, fun hpc => ?_⟩
  have hret := hinv.returned hpc
  have hcount : s.uncounted = 0 := by simp [uncounted, hpc]
  have hnone : s.inFlight = ∅ := by
    rw [← Finset.card_eq_zero]
    omega
  refine ⟨hnone, hinv.nodup, fun i => ⟨fun hi => ?_, hinv.lt i⟩, ?_, ?_⟩
  · by_contra hnot
    have hmem : i ∈ s.inFlight := by
      rw [inFlight, Finset.mem_sdiff, List.mem_toFinset]
      exact ⟨Finset.mem_range.mpr hi, hnot⟩
    rw [hnone] at hmem
    exact absurd hmem (Finset.notMem_empty i)
  · rw [hnone, Finset.card_empty] at hcard
    omega
  · rw [hnone, Finset.card_empty] at hcard
    omega

/-- Two minibatches with `max_mb = 1`; the first finishes before it is counted. -/
theorem flow_control_early : ∃ s, Reach (step 1) anyStep init s ∧ s.pc = .returned ∧
    s.submitted = 2 ∧ s.numMbDone = 2 ∧ s.numMbFly = 0 := by
  have hrun : (runs (fun s a => if anyStep s a then step 1 s a else none) init
      [.next true, .wake, .process, .finish 0, .count, .next true, .wake, .process, .count,
        .next false, .finish 1, .wake]).any
      (fun s => decide (s.pc = .returned ∧ s.submitted = 2)) = true := by
    decide
  obtain ⟨s, hr, htest⟩ := Reach.exists_of_runs hrun
  obtain ⟨hpc, hsub⟩ := of_decide_eq_true htest
  obtain ⟨-, hret⟩ := flow_control 1 le_rfl s hr
  obtain ⟨-, -, -, hdone, hfly⟩ := hret hpc
  exact ⟨s, hr, hpc, hsub, by rw [hdone, hsub]; rfl, hfly⟩

/-- **`Process` never waits for nothing**: when it cannot go on, a minibatch is in flight. -/
theorem progress (hmax : 1 ≤ maxMb) (hr : Reach (step maxMb) anyStep init s)
    (hpc : s.pc ≠ .returned) (hmore : s.pc ≠ .next) :
    (∃ a s', (∀ i, a ≠ .finish i) ∧ s.step maxMb a = some s') ∨ s.inFlight.Nonempty := by
  have hinv := Inv.of_reach hmax hr
  have hcard := hinv.card_inFlight
  have hfly := hinv.fly_eq
  have hnonempty : 1 ≤ s.numMbFly → s.uncounted = 0 → s.inFlight.Nonempty := by
    intro hge hcount
    rw [← Finset.card_pos]
    omega
  cases hpoint : s.pc with
  | next => exact absurd hpoint hmore
  | returned => exact absurd hpoint hpc
  | process => exact .inl ⟨.process, _, by simp, if_pos hpoint⟩
  | count => exact .inl ⟨.count, _, by simp, if_pos hpoint⟩
  | wait =>
      by_cases hlt : s.numMbFly < maxMb
      · exact .inl ⟨.wake, { s with pc := .process }, by simp, by simp [step, hpoint, hlt]⟩
      · exact .inr (hnonempty (by omega) (by simp [uncounted, hpoint]))
  | waitAll =>
      by_cases hlt : s.numMbFly < 1
      · exact .inl ⟨.wake, { s with pc := .returned }, by simp, by simp [step, hpoint, hlt]⟩
      · exact .inr (hnonempty (by omega) (by simp [uncounted, hpoint]))

end Flight

end Difacto.Solver
