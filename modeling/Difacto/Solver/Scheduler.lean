import Difacto.Base.Workload
import Mathlib.Algebra.Order.Field.Rat
import Mathlib.Data.List.Basic

/-!
# The passes of a training

`MinibatchScheduler::Run`, `Iterate` and `ShowProgress` of `solver/minibatch_solver.h`, run
on the `AsyncScheduler` of `difacto/async_sgd.h`. `ShowProgress` calls the virtual function
`Stop(const solver::Progress&, bool)`. The class `AsyncScheduler` declares a `Stop` of its
own, whose parameter is a `difacto::Progress`: by the rule of the language a declaration
overrides only when the parameter types are the same, otherwise it hides. `finalOverrider`
is that rule, and `stopDecls` are the declarations the class has.

What the nodes report is the environment: for each pass the progress vectors that
`GetProgress` returns.

## Main definitions

* `minibatchStop`, `asyncStop` — the two functions `Stop`.
* `Scheduler.run` — `Run`, with the log of what it asks the nodes to do.
* `Reports.meets` — a pass meets one of the two criteria.

## Main results

* `Scheduler.trainPasses_run` — the passes that are trained.
* `Scheduler.stops_iff` — when the criteria take effect.
-/

namespace Difacto.Solver

open Base

variable {K : Type} [Zero K] [Sub K] [Div K] [LT K] [DecidableLT K] [BEq K]

/-- What `Run` and `Stop` read of the configuration. -/
structure SchedConf (K : Type) where
  valData : String
  modelIn : String
  modelOut : String
  predictOut : String
  loadIter : ℤ
  saveIter : ℤ
  maxDataPass : ℤ
  earlyStop : Bool
  minObjvDecr : K
  /-- `none` if `has_max_objv()` is false -/
  maxObjv : Option K

/-- `difacto::Progress::objv` -/
def objv (data : List K) : K := data.getD 0 0

/-- `difacto::Progress::new_ex`; `PrintStr` has padded the vector with zeros. -/
def newEx (data : List K) : K := data.getD 5 0

/-- `cur.objv() / cur.new_ex()` -/
def curObjv (data : List K) : K := objv data / newEx data

/-- The scheduler. Its constructor checks that there is validation data for an early
stop. -/
structure Scheduler (K : Type) where
  conf : SchedConf K
  valData_of_earlyStop : conf.earlyStop = true → conf.valData ≠ ""
  /-- `pre_val_objv_` -/
  preValObjv : K

/-- The two types with the name `Progress`. -/
inductive ProgressType
  | solver
  | difacto
  deriving DecidableEq

/-- A declaration `bool Stop(const P&, bool)`. Both types hold a vector of numbers. -/
structure StopDecl (K : Type) where
  progress : ProgressType
  body : Scheduler K → List K → Bool → Scheduler K × Bool

/-- The function a virtual call of `base` reaches: the first of the declarations of the
derived classes, the most derived first, that has the same parameter type. -/
def finalOverrider (base : StopDecl K) (derived : List (StopDecl K)) : StopDecl K :=
  (derived.find? fun d => d.progress = base.progress).getD base

/-- `MinibatchScheduler::Stop` -/
def minibatchStop : StopDecl K where
  progress := .solver
  body s _ _ := (s, false)

/-- `AsyncScheduler::Stop` -/
def asyncStop : StopDecl K where
  progress := .difacto
  body s cur train :=
    let cur := curObjv cur
    if train then
      (s, match s.conf.maxObjv with
        | some maxObjv => decide (maxObjv < cur)
        | none => false)
    else
      let diff := s.preValObjv - cur
      ({ s with preValObjv := cur }, s.conf.earlyStop && decide (diff < s.conf.minObjvDecr))

/-- The declarations of `Stop` in the classes below `MinibatchScheduler`. -/
def stopDecls : List (StopDecl K) := [asyncStop]

/-- What the nodes report in a pass: the results of `GetProgress` while it trains, one for
each time it is shown, and the one after the validation. -/
structure Reports (K : Type) where
  train : List (List K)
  val : List K

/-- What the scheduler asks the nodes to do. -/
inductive SchedEvent
  | loadModel (iter : ℤ)
  | saveModel (iter : ℤ)
  | dispatch (iter : ℤ) (type : WorkloadType)
  | stopDispatch
  deriving DecidableEq

namespace Scheduler

/-- `ShowProgress`: an empty `ProgString` is no progress. -/
def showProgress (s : Scheduler K) (prog : List K) (isTrain : Bool) : Scheduler K × Bool :=
  if newEx prog == 0 then (s, false)
  else (finalOverrider minibatchStop stopDecls).body s prog isTrain

/-- The loop of `Iterate` in training: `stop` is what the last report says. -/
def watch (s : Scheduler K) (stop : Bool) :
    List (List K) → List SchedEvent × Scheduler K × Bool
  | [] => ([], s, stop)
  | prog :: progs =>
    let (s', stop') := showProgress s prog true
    let (log, r) := watch s' stop' progs
    (if stop' then .stopDispatch :: log else log, r)

/-- `Iterate`; the reports are those of this pass. -/
def iterate (s : Scheduler K) (iter : ℤ) (type : WorkloadType) (reports : Reports K) :
    List SchedEvent × Scheduler K × Bool :=
  match type with
  | .train =>
    let (log, r) := watch s false reports.train
    (.dispatch iter .train :: log, r)
  | .val =>
    if s.conf.valData = "" then ([], s, false)
    else ([.dispatch iter .val], showProgress s reports.val false)
  | .pred => ([.dispatch iter .pred], showProgress s reports.val false)

/-- The loop of `Run` over `cur_iter`; `n` is `max_data_pass_ - cur_iter`. -/
def passes (reports : ℤ → Reports K) (s : Scheduler K) : ℕ → ℤ → List SchedEvent
  | 0, _ => []
  | n + 1, curIter =>
    let (log, s₁, stop) := iterate s curIter .train (reports curIter)
    if stop then log
    else
      let (log', s₂, stop') := iterate s₁ curIter .val (reports curIter)
      if stop' then log ++ log'
      else if curIter = s.conf.maxDataPass - 1 then log ++ log'
      else
        let save := if s.conf.modelOut ≠ "" ∧ 0 < s.conf.saveIter ∧
            (curIter + 1).tmod s.conf.saveIter = 0 then [.saveModel curIter] else []
        log ++ log' ++ save ++ passes reports s₂ n (curIter + 1)

/-- `cur_iter` when the loop of `Run` begins. -/
def firstIter (s : Scheduler K) : ℤ :=
  if s.conf.modelIn = "" then 0
  else if 0 < s.conf.loadIter then s.conf.loadIter + 1 else 0

/-- The request to load a model, if there is one. -/
def load (s : Scheduler K) : List SchedEvent :=
  if s.conf.modelIn = "" then []
  else [.loadModel (if 0 < s.conf.loadIter then s.conf.loadIter else -1)]

/-- `Run`; `none` if its `CHECK` fails. -/
def run (s : Scheduler K) (reports : ℤ → Reports K) : Option (List SchedEvent) :=
  if s.conf.predictOut ≠ "" then
    if s.conf.modelIn = "" then none
    else
      let iter := s.firstIter - 1
      some (s.load ++ (iterate s iter .pred (reports iter)).1)
  else
    let log := passes reports s (s.conf.maxDataPass - s.firstIter).toNat s.firstIter
    let save := if s.conf.modelOut ≠ "" then [.saveModel (-1)] else []
    some (s.load ++ log ++ save)

/-- The passes that are trained, in order. -/
def trainPasses (log : List SchedEvent) : List ℤ :=
  log.filterMap fun e => match e with
    | .dispatch iter .train => some iter
    | _ => none

omit [Zero K] [Sub K] [Div K] [LT K] [DecidableLT K] [BEq K] in
theorem finalOverrider_of_hidden (base : StopDecl K) {derived : List (StopDecl K)}
    (h : ∀ d ∈ derived, d.progress ≠ base.progress) : finalOverrider base derived = base := by
  have hnone : derived.find? (fun d => decide (d.progress = base.progress)) = none := by
    rw [List.find?_eq_none]
    intro d hd
    simpa using h d hd
  rw [finalOverrider, hnone, Option.getD_none]

omit [BEq K] in
/-- The call in `ShowProgress` reaches the function of the base class. -/
theorem finalOverrider_stopDecls :
    finalOverrider minibatchStop stopDecls = (minibatchStop : StopDecl K) := by
  apply finalOverrider_of_hidden
  intro d hd
  rw [List.mem_singleton.mp hd]
  exact ProgressType.noConfusion

variable (s : Scheduler K)

theorem showProgress_eq (prog : List K) (isTrain : Bool) :
    s.showProgress prog isTrain = (s, false) := by
  rw [showProgress, finalOverrider_stopDecls]
  split
  · rfl
  · rfl

theorem watch_eq (progs : List (List K)) : s.watch false progs = ([], s, false) := by
  induction progs with
  | nil => rfl
  | cons prog progs ih => simp [watch, showProgress_eq, ih]

theorem iterate_train (iter : ℤ) (reports : Reports K) :
    s.iterate iter .train reports = ([.dispatch iter .train], s, false) := by
  simp [iterate, watch_eq]

theorem iterate_val (iter : ℤ) (reports : Reports K) :
    s.iterate iter .val reports =
      (if s.conf.valData = "" then [] else [.dispatch iter .val], s, false) := by
  rw [iterate, showProgress_eq]
  split <;> rfl

@[simp] theorem trainPasses_append (log log' : List SchedEvent) :
    trainPasses (log ++ log') = trainPasses log ++ trainPasses log' :=
  List.filterMap_append

/-- **No pass is left out**: the loop runs to `max_data_pass_`. -/
theorem trainPasses_passes (reports : ℤ → Reports K) (n : ℕ) (curIter : ℤ)
    (hn : n = (s.conf.maxDataPass - curIter).toNat) :
    trainPasses (s.passes reports n curIter) = (List.range n).map fun i : ℕ => curIter + i := by
  induction n generalizing curIter with
  | zero => rfl
  | succ n ih =>
      have hval : trainPasses (if s.conf.valData = "" then [] else
          [.dispatch curIter .val]) = [] := by split <;> rfl
      have htrain : trainPasses [.dispatch curIter .train] = [curIter] := rfl
      simp only [passes, iterate_train, iterate_val, Bool.false_eq_true, if_false]
      rw [List.range_succ_eq_map, List.map_cons, List.map_map]
      split
      · -- the last pass
        rename_i hlast
        obtain rfl : n = 0 := by omega
        rw [trainPasses_append, hval, htrain]
        simp
      · have hsave : ∀ p : Prop, [Decidable p] →
            trainPasses (if p then [.saveModel curIter] else []) = [] := by
          intro p _
          split <;> rfl
        rw [trainPasses_append, trainPasses_append, trainPasses_append, hval, htrain, hsave,
          ih (curIter + 1) (by omega)]
        simp only [List.append_nil, List.cons_append, List.nil_append, Nat.cast_zero, add_zero,
          List.cons.injEq, true_and]
        apply List.map_congr_left
        intro i _
        simp only [Function.comp_apply, Nat.cast_succ]
        omega

/-- The passes that a training executes. -/
theorem trainPasses_run (reports : ℤ → Reports K) (htrain : s.conf.predictOut = "") :
    ∃ log, s.run reports = some log ∧
      trainPasses log = (List.range (s.conf.maxDataPass - s.firstIter).toNat).map
        fun i : ℕ => s.firstIter + i := by
  refine ⟨_, by rw [run, if_neg (not_not.mpr htrain)], ?_⟩
  have hload : trainPasses s.load = [] := by
    rw [load]
    split <;> rfl
  have hsave : trainPasses (if s.conf.modelOut ≠ "" then [.saveModel (-1)] else []) = [] := by
    split <;> rfl
  rw [trainPasses_append, trainPasses_append, hload, hsave, List.nil_append, List.append_nil]
  exact s.trainPasses_passes reports _ _ rfl

variable [OfNat K 100]

/-- `AsyncScheduler::AsyncScheduler` -/
def init (conf : SchedConf K) (h : conf.earlyStop = true → conf.valData ≠ "") : Scheduler K :=
  { conf, valData_of_earlyStop := h, preValObjv := 100 }

/-- The last validation objective that is reported in the first `n` passes from `first`
on. -/
def lastVal (reports : ℤ → Reports K) (first : ℤ) : ℕ → K
  | 0 => 100
  | n + 1 =>
    let prog := (reports (first + n)).val
    if newEx prog == 0 then lastVal reports first n else curObjv prog

/-- The validation of pass `first + n` decreases the objective too little. -/
def MeetsVal (conf : SchedConf K) (reports : ℤ → Reports K) (first : ℤ) (n : ℕ) : Prop :=
  conf.earlyStop = true ∧ (newEx (reports (first + n)).val == 0) = false ∧
    lastVal reports first n - curObjv (reports (first + n)).val < conf.minObjvDecr

/-- A training objective of pass `iter` is too large. -/
def MeetsTrain (conf : SchedConf K) (reports : ℤ → Reports K) (iter : ℤ) : Prop :=
  ∃ maxObjv ∈ conf.maxObjv, ∃ prog ∈ (reports iter).train,
    (newEx prog == 0) = false ∧ maxObjv < curObjv prog

/-- Pass `first + n` meets a criterion. -/
def Meets (conf : SchedConf K) (reports : ℤ → Reports K) (first : ℤ) (n : ℕ) : Prop :=
  MeetsVal conf reports first n ∨ MeetsTrain conf reports (first + n)

/-- **When the criteria take effect**: a pass that meets a criterion is the last one if and
only if no pass but the one with number `max_data_pass - 1` meets a criterion. -/
theorem stops_iff (conf : SchedConf K) (h : conf.earlyStop = true → conf.valData ≠ "")
    (htrain : conf.predictOut = "") (reports : ℤ → Reports K) :
    ∃ log, (init conf h).run reports = some log ∧
      ((∀ n : ℕ, Meets conf reports (init conf h).firstIter n →
          (init conf h).firstIter + n ∈ trainPasses log →
          ∀ iter ∈ trainPasses log, iter ≤ (init conf h).firstIter + n) ↔
        ∀ n : ℕ, (init conf h).firstIter + n < conf.maxDataPass - 1 →
          ¬ Meets conf reports (init conf h).firstIter n) := by
  obtain ⟨log, hrun, hlog⟩ := (init conf h).trainPasses_run reports htrain
  have hmem : ∀ iter, iter ∈ trainPasses log ↔
      (init conf h).firstIter ≤ iter ∧ iter < conf.maxDataPass := by
    intro iter
    rw [hlog, List.mem_map]
    constructor
    · rintro ⟨i, hi, rfl⟩
      have hlt := List.mem_range.mp hi
      have hmax : (init conf h).conf.maxDataPass = conf.maxDataPass := rfl
      omega
    · rintro ⟨hle, hlt⟩
      refine ⟨(iter - (init conf h).firstIter).toNat, List.mem_range.mpr ?_, by omega⟩
      show _ < (conf.maxDataPass - (init conf h).firstIter).toNat
      omega
  refine ⟨log, hrun, fun hstop n hn hmeets => ?_, fun hnone n hmeets hn iter hiter => ?_⟩
  · -- the next pass is executed although this one meets a criterion
    have hle := hstop n hmeets ((hmem _).mpr ⟨by omega, by omega⟩)
      ((init conf h).firstIter + n + 1) ((hmem _).mpr ⟨by omega, by omega⟩)
    omega
  · have hlt := ((hmem iter).mp hiter).2
    by_contra hnot
    exact hnone n (by omega) hmeets

/-- Three passes with an early stop, for objectives that are rational numbers. -/
def threePasses : SchedConf ℚ :=
  { valData := "val"
    modelIn := ""
    modelOut := ""
    predictOut := ""
    loadIter := -1
    saveIter := -1
    maxDataPass := 3
    earlyStop := true
    minObjvDecr := 1 / 100000
    maxObjv := none }

/-- The objective of an example is `objv` in every report. -/
def constReports (objv : ℚ) : Reports ℚ :=
  { train := [[objv, 0, 0, 0, 1, 1, 0, 0]], val := [objv, 0, 0, 0, 1, 1, 0, 0] }

/-- The objectives `3, 2, 2` meet the criterion in the last pass only. -/
theorem stops_at_last : ∃ log, (init threePasses (by decide)).run
      (fun iter => constReports (if iter = 0 then 3 else 2)) = some log ∧
    ∀ n : ℕ, Meets threePasses (fun iter => constReports (if iter = 0 then 3 else 2)) 0 n →
      0 + (n : ℤ) ∈ trainPasses log → ∀ iter ∈ trainPasses log, iter ≤ 0 + (n : ℤ) := by
  obtain ⟨log, hrun, hiff⟩ := stops_iff threePasses (by decide) rfl
    (fun iter => constReports (if iter = 0 then 3 else 2))
  refine ⟨log, hrun, hiff.mpr fun n hn => ?_⟩
  have hcases : n = 0 ∨ n = 1 := by
    have : (0 : ℤ) + n < 3 - 1 := hn
    omega
  have htrain : ¬ MeetsTrain threePasses
      (fun iter => constReports (if iter = 0 then 3 else 2)) (0 + n) := by
    rintro ⟨maxObjv, hmax, -⟩
    cases hmax
  rintro (⟨-, -, hval⟩ | hmeets)
  · rcases hcases with rfl | rfl
    · exact absurd hval (by decide +kernel)
    · exact absurd hval (by decide +kernel)
  · exact htrain hmeets

/-- The objectives `1, 1, 1` meet it in the second pass, and a third one is executed. -/
theorem third_pass_executed : ∃ log,
    (init threePasses (by decide)).run (fun _ => constReports 1) = some log ∧
      Meets threePasses (fun _ => constReports 1) 0 1 ∧ trainPasses log = [0, 1, 2] := by
  refine ⟨_, rfl, .inl ?_, by decide +kernel⟩
  exact ⟨rfl, by decide +kernel, by decide +kernel⟩

end Scheduler

end Difacto.Solver
