import Difacto.Solver.Scheduler

/-!
# The decision to stop a pass

The polling loop of `MinibatchScheduler::Iterate` in `solver/minibatch_solver.h` with
`ShowProgress`, for any scheduler: `ProgString` and `Stop` are virtual, and both may keep a
state. The loop goes on until `IsFinished` is true, also after `StopDispatch`. What
`IsFinished` and `GetProgress` return is the environment.

`shown` is history: what the calls of `ShowProgress` returned.

## Main definitions

* `Criterion` — the virtual functions.
* `Criterion.iterateTrain` — `Iterate` with the type `TRAIN`.
* `Criterion.Meets` — a report meets the criterion.

## Main results

* `Criterion.iterateTrain_eq` — the loop returns what the last call of `ShowProgress` returned.
* `Criterion.sticky_iff` — when a decision to stop is kept.
* `Scheduler.watch_eq_iterateTrain` — the loop of `Scheduler.iterate` is this loop.
-/

namespace Difacto.Solver

variable {σ R : Type}

/-- The virtual functions of a scheduler with the state `σ` and reports `R`. -/
structure Criterion (σ R : Type) where
  /-- `ProgString(prog).empty()` -/
  progEmpty : σ → R → σ × Bool
  /-- `Stop(prog, is_train)` -/
  stop : σ → R → Bool → σ × Bool

namespace Criterion

/-- `ShowProgress` -/
def showProgress (c : Criterion σ R) (s : σ) (prog : R) (isTrain : Bool) : σ × Bool :=
  let disp := c.progEmpty s prog
  if disp.2 then (disp.1, false) else c.stop disp.1 prog isTrain

/-- What `Iterate` ends with. -/
structure Iterated (σ : Type) where
  state : σ
  /-- what it returns -/
  stop : Bool
  /-- how often it called `StopDispatch` -/
  stopDispatch : ℕ
  shown : List Bool

/-- One turn of the loop, with its report. -/
def turn (c : Criterion σ R) (it : Iterated σ) (prog : R) : Iterated σ :=
  let shown := c.showProgress it.state prog true
  { state := shown.1
    stop := shown.2
    stopDispatch := if shown.2 then it.stopDispatch + 1 else it.stopDispatch
    shown := it.shown ++ [shown.2] }

/-- The loop. A turn sees what `IsFinished` returns and, if this is false, a report; `none` if
the work is not finished. -/
def poll (c : Criterion σ R) (it : Iterated σ) : List (Bool × R) → Option (Iterated σ)
  | [] => none
  | (true, _) :: _ => some it
  | (false, prog) :: ts => poll c (c.turn it prog) ts

/-- `Iterate(iter, TRAIN)` -/
def iterateTrain (c : Criterion σ R) (s : σ) (turns : List (Bool × R)) : Option (Iterated σ) :=
  poll c { state := s, stop := false, stopDispatch := 0, shown := [] } turns

/-- The reports that are seen until the work is finished. -/
def reports (turns : List (Bool × R)) : List R :=
  (turns.takeWhile fun t => !t.1).map Prod.snd

/-- The state after some reports were shown. -/
def stateAfter (c : Criterion σ R) (s : σ) (progs : List R) : σ :=
  progs.foldl (fun s prog => (c.showProgress s prog true).1) s

/-- Report `i` meets the criterion, after the reports before it were shown. -/
def Meets (c : Criterion σ R) (s : σ) (progs : List R) (i : ℕ) : Prop :=
  ∃ prog ∈ progs[i]?, (c.showProgress (c.stateAfter s (progs.take i)) prog true).2 = true

/-- What the calls of `ShowProgress` return. -/
def answers (c : Criterion σ R) (s : σ) : List R → List Bool
  | [] => []
  | prog :: progs =>
    (c.showProgress s prog true).2 :: answers c (c.showProgress s prog true).1 progs

variable {c : Criterion σ R} {s : σ}

theorem getElem?_answers (progs : List R) (i : ℕ) :
    (c.answers s progs)[i]? = some true ↔ c.Meets s progs i := by
  induction progs generalizing s i with
  | nil => simp [answers, Meets]
  | cons prog progs ih =>
      cases i with
      | zero => simp [answers, Meets, stateAfter]
      | succ i =>
          rw [answers, List.getElem?_cons_succ, ih]
          simp [Meets, stateAfter]

@[simp] theorem length_answers (progs : List R) : (c.answers s progs).length = progs.length := by
  induction progs generalizing s with
  | nil => rfl
  | cons prog progs ih => rw [answers, List.length_cons, ih, List.length_cons]

/-- The loop from any of its turns on. -/
theorem poll_eq (it : Iterated σ) (turns : List (Bool × R)) (hend : ∃ t ∈ turns, t.1 = true) :
    ∃ r, poll c it turns = some r ∧
      r.shown = it.shown ++ c.answers it.state (reports turns) ∧
      r.stop = (c.answers it.state (reports turns)).getLastD it.stop := by
  induction turns generalizing it with
  | nil =>
      obtain ⟨t, ht, -⟩ := hend
      cases ht
  | cons t turns ih =>
      obtain ⟨finished, prog⟩ := t
      cases finished with
      | true => exact ⟨it, rfl, by simp [reports, answers], by simp [reports, answers]⟩
      | false =>
          have hrest : ∃ t ∈ turns, t.1 = true := by
            obtain ⟨t, ht, hfin⟩ := hend
            rcases List.mem_cons.mp ht with rfl | ht
            · cases hfin
            · exact ⟨t, ht, hfin⟩
          have hreports : reports ((false, prog) :: turns) = prog :: reports turns := rfl
          obtain ⟨r, hpoll, hshown, hstop⟩ := ih (c.turn it prog) hrest
          refine ⟨r, hpoll, ?_, ?_⟩
          · rw [hshown, hreports, answers, turn, List.append_assoc, List.singleton_append]
          · rw [hstop, hreports, answers, turn, List.getLastD_cons]

/-- **`Iterate` returns what the last call of `ShowProgress` returned.** -/
theorem iterateTrain_eq (c : Criterion σ R) (s : σ) (turns : List (Bool × R))
    (hend : ∃ t ∈ turns, t.1 = true) : ∃ r, c.iterateTrain s turns = some r ∧
      r.shown = c.answers s (reports turns) ∧
      r.stop = (c.answers s (reports turns)).getLastD false :=
  poll_eq _ turns hend

/-- The last report meets the criterion if the last answer is true. -/
theorem getLastD_answers (progs : List R) :
    (c.answers s progs).getLastD false = true ↔ c.Meets s progs (progs.length - 1) := by
  rw [← getElem?_answers, ← length_answers (c := c) (s := s) progs, ← List.getLast?_eq_getElem?,
    List.getLastD_eq_getLast?]
  cases (c.answers s progs).getLast? with
  | none => simp
  | some a => simp

/-- **A decision to stop is kept** if and only if the last report that is seen before the work is
finished meets the criterion, should any report do so. -/
theorem sticky_iff (c : Criterion σ R) (s : σ) (turns : List (Bool × R))
    (hend : ∃ t ∈ turns, t.1 = true) : ∃ r, c.iterateTrain s turns = some r ∧
      ((r.stop = true ↔ true ∈ r.shown) ↔
        ∀ i, c.Meets s (reports turns) i →
          c.Meets s (reports turns) ((reports turns).length - 1)) := by
  obtain ⟨r, hrun, hshown, hstop⟩ := iterateTrain_eq c s turns hend
  refine ⟨r, hrun, ?_⟩
  have hany : true ∈ r.shown ↔ ∃ i, c.Meets s (reports turns) i := by
    rw [hshown, List.mem_iff_getElem?]
    exact exists_congr fun i => getElem?_answers _ i
  rw [hany, hstop, getLastD_answers]
  constructor
  · intro h i hi
    exact h.mpr ⟨i, hi⟩
  · intro h
    exact ⟨fun hlast => ⟨_, hlast⟩, fun ⟨i, hi⟩ => h i hi⟩

end Criterion

/-! ## The schedulers of the program -/

section Scheduler

variable {K : Type} [Zero K] [Sub K] [Div K] [LT K] [DecidableLT K] [BEq K]

/-- A scheduler with the given `Stop`, and the `ProgString` of `AsyncScheduler`. -/
def asyncCriterion (d : StopDecl K) : Criterion (Scheduler K) (List K) where
  progEmpty s prog := (s, newEx prog == 0)
  stop := d.body

/-- The loop of `Scheduler.iterate` is this loop, with the function `Stop` that is reached. -/
theorem Scheduler.watch_eq_iterateTrain (s : Scheduler K) (progs : List (List K))
    (last : List K) :
    ((asyncCriterion (finalOverrider minibatchStop stopDecls)).iterateTrain s
        (progs.map (fun prog => (false, prog)) ++ [(true, last)])).map
          (fun r => (r.state, r.stop)) = some (s.watch false progs).2 := by
  have hpoll : ∀ (it : Criterion.Iterated (Scheduler K)),
      (Criterion.poll (asyncCriterion (finalOverrider minibatchStop stopDecls)) it
        (progs.map (fun prog => (false, prog)) ++ [(true, last)])).map
          (fun r => (r.state, r.stop)) = some (it.state.watch it.stop progs).2 := by
    induction progs with
    | nil => intro it; rfl
    | cons prog progs ih =>
        intro it
        rw [List.map_cons, List.cons_append, Criterion.poll, ih]
        rfl
  exact hpoll _

end Scheduler

namespace Criterion

/-- Train until the objective is larger than 1. -/
def atMostOne : Scheduler ℚ :=
  { conf := { Scheduler.threePasses with maxObjv := some 1, earlyStop := false }
    valData_of_earlyStop := by decide
    preValObjv := 100 }

/-- A report of one example with the objective 3. -/
def diverged : List ℚ := [3, 0, 0, 0, 1, 1, 0, 0]

/-- A report without new examples. -/
def noExamples : List ℚ := [0, 0, 0, 0, 0, 0, 0, 0]

theorem sticky_diverged_last :
    ∃ r, (asyncCriterion asyncStop).iterateTrain atMostOne
      [(false, noExamples), (false, diverged), (true, [])] = some r ∧
      (r.stop = true ↔ true ∈ r.shown) := by
  obtain ⟨r, hrun, hiff⟩ := sticky_iff (asyncCriterion asyncStop) atMostOne
    [(false, noExamples), (false, diverged), (true, [])] ⟨(true, []), by simp, rfl⟩
  refine ⟨r, hrun, hiff.mpr fun _ _ => ?_⟩
  exact ⟨diverged, rfl, by decide +kernel⟩

/-- **A later report without new examples undoes the decision**: dispatching was stopped, and
`Iterate` returns false. -/
theorem decision_undone : ∃ r, (asyncCriterion asyncStop).iterateTrain atMostOne
      [(false, diverged), (false, noExamples), (true, [])] = some r ∧
    r.stopDispatch = 1 ∧ ¬ (r.stop = true ↔ true ∈ r.shown) := by
  have hrun : ((asyncCriterion asyncStop).iterateTrain atMostOne
      [(false, diverged), (false, noExamples), (true, [])]).map
        (fun r => (r.stop, r.shown, r.stopDispatch)) = some (false, [true, false], 1) := by
    decide +kernel
  obtain ⟨r, hr, heq⟩ := Option.map_eq_some_iff.mp hrun
  simp only [Prod.mk.injEq] at heq
  obtain ⟨hstop, hshown, hdispatch⟩ := heq
  refine ⟨r, hr, hdispatch, ?_⟩
  rw [hstop, hshown]
  decide

end Criterion

end Difacto.Solver
